import Didl.Type.Basic

namespace Didl.Idl.Keyword

def formers : List String := ["opt", "vec", "blob", "record", "variant", "func", "service"]

def modes : List String := Mode.all.map Mode.keyword

def declarations : List String := ["type", "import"]

def isPrimitive (word : String) : Bool := (Prim.ofKeyword? word).isSome

def startsType (word : String) : Bool := formers.contains word || isPrimitive word

def isReserved (word : String) : Bool :=
  declarations.contains word || startsType word || modes.contains word

end Didl.Idl.Keyword
