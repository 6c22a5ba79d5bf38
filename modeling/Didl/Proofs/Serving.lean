import Didl.Proofs.PreludeAccesses
import Didl.Proofs.ValueAccesses

namespace Didl

inductive Request where
  | bool
  | presence
  | byte
  | bytes (count : Nat)
  | uint16
  | uint32
  | uint64
  | int8
  | int16
  | int32
  | int64
  | float32
  | float64
  | varUInt64
  | varInt64
  | length
  | nat
  | int
  | text
  | blob
  | value (table : Table) (type : Ty)
  | prelude

namespace Request

def Answer : Request → Type
  | bool | presence => Bool
  | byte => UInt8
  | bytes _ | blob => List UInt8
  | uint16 => UInt16
  | uint32 | float32 => UInt32
  | uint64 | float64 | varUInt64 => UInt64
  | int8 => Int8
  | int16 => Int16
  | int32 => Int32
  | int64 | varInt64 => Int64
  | length | nat => Nat
  | int => Int
  | text => String
  | value .. => Value
  | prelude => Table × List Ty

def reader : (q : Request) → Reader q.Answer
  | bool => Reader.bool
  | presence => Reader.presence
  | byte => Reader.byte
  | bytes count => Reader.bytes count
  | uint16 => Reader.uint16
  | uint32 | float32 => Reader.uint32
  | uint64 | float64 => Reader.uint64
  | int8 => Reader.int8
  | int16 => Reader.int16
  | int32 => Reader.int32
  | int64 => Reader.int64
  | varUInt64 => Reader.varUInt64
  | varInt64 => Reader.varInt64
  | length => Reader.length
  | nat => Reader.nat
  | int => Reader.int
  | text => Reader.text
  | blob => Reader.blob
  | value table type => Value.reader table type
  | prelude => Table.readPrelude

def access : (q : Request) → Access Buffer q.Answer
  | bool => Access.bool
  | presence => Access.presence
  | byte => Access.byte
  | bytes count => Access.bytes count
  | uint16 => Access.uint16
  | uint32 | float32 => Access.uint32
  | uint64 | float64 => Access.uint64
  | int8 => Access.int8
  | int16 => Access.int16
  | int32 => Access.int32
  | int64 => Access.int64
  | varUInt64 => Access.varUInt64
  | varInt64 => Access.varInt64
  | length => Access.length
  | nat => Access.nat
  | int => Access.int
  | text => Access.text
  | blob => Access.blob
  | value table type => Access.readValue table type
  | prelude => Access.readPrelude

theorem refines (q : Request) : Access.Refines q.access q.reader := by
  cases q with
  | bool | presence => exact refines_flag _
  | byte => exact refines_byte
  | bytes count => exact refines_bytes count
  | uint16 => exact refines_uint16
  | uint32 | float32 => exact refines_uint32
  | uint64 | float64 => exact refines_uint64
  | int8 => exact refines_int8
  | int16 => exact refines_int16
  | int32 => exact refines_int32
  | int64 => exact refines_int64
  | varUInt64 => exact refines_varUInt64
  | varInt64 => exact refines_varInt64
  | length => exact refines_length
  | nat => exact refines_nat
  | int => exact refines_int
  | text => exact refines_text
  | blob => exact refines_blob
  | value table type => exact Value.refines_reader table type
  | prelude => exact refines_readPrelude

end Request

/-- What a request was answered, where it left the index and how many bytes after it. -/
structure Reply where
  request : Request
  result : Except Fault request.Answer
  index : Nat
  remaining : Nat

/-- Reads what is asked for, one request after the other. -/
def Cursor.serve (c : Cursor) : List Request → List Reply
  | [] => []
  | q :: qs =>
    let (result, c) := c.run q.reader
    ⟨q, result, c.index, c.remaining⟩ :: c.serve qs

theorem Cursor.serve_cons (c : Cursor) (q : Request) (requests : List Request) :
    c.serve (q :: requests) =
      ⟨q, (c.run q.reader).1, (c.run q.reader).2.index, (c.run q.reader).2.remaining⟩ ::
        (c.run q.reader).2.serve requests := rfl

namespace Buffer

def serve (b : Buffer) : List Request → Except Violation (List Reply)
  | [] => return []
  | q :: qs => do
    let (result, b) ← q.access b
    let left ← b.remaining
    return ⟨q, result, b.index, left⟩ :: (← b.serve qs)

def cursor (b : Buffer) : Cursor := ⟨b.data, b.rest⟩

theorem index_cursor {b : Buffer} (h : b.index ≤ b.data.length) : b.cursor.index = b.index := by
  rw [Cursor.index, cursor, length_rest]
  exact Nat.sub_sub_self h

theorem remaining_cursor (b : Buffer) : b.cursor.remaining = b.data.length - b.index := b.length_rest

/-- One request on the buffer and on the bytes that are left of it. -/
theorem access_cursor {b : Buffer} (h : b.index ≤ b.data.length) (q : Request) :
    ∃ next : Buffer, next.data = b.data ∧ b.index ≤ next.index ∧ next.index ≤ b.data.length ∧
      q.access b = .ok ((b.cursor.run q.reader).1, next) ∧
      (b.cursor.run q.reader).2 = next.cursor := by
  obtain ⟨index, hle, hend, hrun, hrest⟩ := q.refines b h
  exact ⟨⟨b.data, index⟩, rfl, hle, hend, hrun, congrArg (Cursor.mk b.data) hrest⟩

/-- What a run from within the bytes keeps. -/
theorem serve_cursor {b : Buffer} (h : b.index ≤ b.data.length) (requests : List Request) :
    b.serve requests = .ok (b.cursor.serve requests) ∧
      (b.cursor.serve requests).Pairwise (·.index ≤ ·.index) ∧
      ∀ reply ∈ b.cursor.serve requests,
        b.index ≤ reply.index ∧ reply.index + reply.remaining = b.data.length := by
  induction requests generalizing b with
  | nil => exact ⟨rfl, .nil, nofun⟩
  | cons q requests ih =>
    obtain ⟨next, hdata, hle, hend, hrun, hnext⟩ := access_cursor h q
    rw [← hdata] at hend
    obtain ⟨hserve, hpairs, hbounds⟩ := ih hend
    have hindex := index_cursor hend
    have hleft := next.remaining_cursor
    have hcons : b.cursor.serve (q :: requests) =
        ⟨q, (b.cursor.run q.reader).1, next.index, next.data.length - next.index⟩ ::
          next.cursor.serve requests := by
      rw [Cursor.serve_cons, hnext, hindex, hleft]
    rw [hcons]
    refine ⟨?_, List.pairwise_cons.mpr ⟨fun reply hreply => (hbounds reply hreply).1, hpairs⟩,
      List.forall_mem_cons.mpr ⟨⟨hle, ?_⟩, fun reply hreply => ?_⟩⟩
    · rw [serve, hrun]
      change (next.remaining >>= fun left => next.serve requests >>= _) = _
      rw [remaining_eq hend, hserve]
      rfl
    · rw [← hdata]
      exact Nat.add_sub_of_le hend
    · obtain ⟨hbefore, hsum⟩ := hbounds reply hreply
      exact ⟨Nat.le_trans hle hbefore, hdata ▸ hsum⟩

/-- Whatever the bytes are and whatever is asked for, with faults on the way, a run from the start
is not violated: it gives the replies that readers give, and the index goes up to the end at
most. -/
theorem serve_in_bounds (data : List UInt8) (requests : List Request) :
    serve ⟨data, 0⟩ requests = .ok ((Cursor.ofBytes data).serve requests) ∧
      ((Cursor.ofBytes data).serve requests).Pairwise (·.index ≤ ·.index) ∧
      ∀ reply ∈ (Cursor.ofBytes data).serve requests, reply.index + reply.remaining = data.length := by
  obtain ⟨hserve, hpairs, hbounds⟩ := serve_cursor (b := ⟨data, 0⟩) (Nat.zero_le _) requests
  exact ⟨hserve, hpairs, fun reply hreply => (hbounds reply hreply).2⟩

/-- A fault moves the index on, and the next request is answered from there. -/
example : serve ⟨[2, 1], 0⟩ [.bool, .presence, .byte] =
    .ok [⟨.bool, .error (.badBoolean 2), 1, 1⟩, ⟨.presence, .ok true, 2, 0⟩,
      ⟨.byte, .error .endOfInput, 2, 0⟩] := rfl

end Buffer
end Didl
