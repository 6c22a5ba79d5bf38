import Didl.Prelude.Expansion

namespace Didl

def magic : List UInt8 := [0x44, 0x49, 0x44, 0x4c]

namespace Table

def preludeBytes (t : Table) (codes : List Int) : Except Fault (List UInt8) := do
  let entries ← t.entries.mapM t.toEntry
  pure (magic ++ Entry.listBytes Entry.bytes entries ++ Entry.listBytes Varint.ofInt codes)

def rebuild (raw : Array Entry) (codes : List Int) : Except Fault (Table × List Ty) := do
  let build : Rebuilt.M (List (Composite Ty) × List Ty) := do
    let entries ← (List.range raw.size).mapM fun index => do
      pure (← Rebuilt.expand raw maxDepth [] index).1
    let args ← codes.mapM fun code => do
      pure (← Rebuilt.member (Rebuilt.expand raw maxDepth) [] code).1
    pure (entries, args)
  let ((entries, args), state) ← build.run (.empty raw.size)
  let named := (List.range raw.size).filter fun index => state.labelled[index]?.getD false
  pure (⟨entries, named.map fun index => (entryLabel index, (index : Int))⟩, args)

/-- Reads a prelude: entries are checked before the codes of the arguments are read. -/
def readPrelude : Reader (Table × List Ty) := do
  let tag ← (Reader.bytes magic.length).orFail .badMagic
  if tag = magic then
    let count ← Reader.length
    let entries := (← Step.times count Entry.read).toArray
    Step.ofExcept (entries.toList.forM fun e => Entry.checkCodes count e.members)
    Step.ofExcept (Entry.checkMethods entries)
    let codes ← Entry.readCodes
    Step.ofExcept (Entry.checkCodes count codes)
    Step.ofExcept (rebuild entries codes)
  else Step.fail .badMagic

end Table

end Didl
