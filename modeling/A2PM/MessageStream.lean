/-
A2PM/MessageStream.lean

Messages of a fixed size over a byte stream, and the buffers they are
received into.

A receiver that asks for `m` bytes gets some piece of the stream, not longer
than that; the piece goes over the front of its buffer.  A piece that is one
whole message fills the buffer (`receive_of_length_eq`), and the stream goes
on with the next message (`take_bytes_cons`, `drop_bytes_cons`).
-/
import Mathlib.Data.List.Basic

namespace MessageStream

variable {α : Type*} {m : ℕ}

/-- What a call of `recv` or `read` returns. -/
inductive Received
  /-- The next `n` bytes. -/
  | piece (n : ℕ)
  /-- 0. -/
  | endOfStream
  /-- -1. -/
  | error
  deriving DecidableEq

/-! ### Buffers -/

/-- A message, or a buffer, of `m` bytes. -/
abbrev Block (α : Type*) (m : ℕ) := { bytes : List α // bytes.length = m }

/-- `m` times the same byte. -/
def fill (m : ℕ) (a : α) : Block α m := ⟨List.replicate m a, List.length_replicate⟩

/-- The contents of a buffer after `piece` has been received into it. -/
def receive (buffer : Block α m) (piece : List α) : Block α m :=
  ⟨(piece ++ buffer.val.drop piece.length).take m, by
    rw [List.length_take, List.length_append, List.length_drop, buffer.property]
    omega⟩

/-- A piece of the size of the buffer replaces all of it. -/
theorem receive_of_length_eq {buffer : Block α m} {piece : List α} (h : piece.length = m) :
    (receive buffer piece).val = piece := by
  have hrest : buffer.val.drop piece.length = [] :=
    List.drop_of_length_le (Nat.le_of_eq (buffer.property.trans h.symm))
  show (piece ++ buffer.val.drop piece.length).take m = piece
  rw [hrest, List.append_nil, List.take_of_length_le (Nat.le_of_eq h)]

/-- The unsigned 32-bit number at an offset, on a little-endian machine. -/
def readInt (buffer : Block UInt8 m) (offset : ℕ) : ℕ :=
  ((buffer.val.drop offset).take 4).foldr (fun b n => b.toNat + 256 * n) 0

/-! ### Streams of messages -/

/-- The bytes of the messages, one message after the other. -/
def bytes (msgs : List (Block α m)) : List α := (msgs.map Subtype.val).flatten

@[simp] theorem bytes_nil : bytes ([] : List (Block α m)) = [] := rfl

@[simp] theorem bytes_cons (b : Block α m) (msgs : List (Block α m)) :
    bytes (b :: msgs) = b.val ++ bytes msgs := rfl

@[simp] theorem bytes_append (msgs msgs' : List (Block α m)) :
    bytes (msgs ++ msgs') = bytes msgs ++ bytes msgs' := by
  rw [bytes, List.map_append, List.flatten_append]
  rfl

theorem length_bytes (msgs : List (Block α m)) : (bytes msgs).length = m * msgs.length := by
  induction msgs with
  | nil => rfl
  | cons b msgs ih =>
      rw [bytes_cons, List.length_append, b.property, ih, List.length_cons, Nat.mul_succ,
        Nat.add_comm]

/-- The first message of a stream. -/
@[simp] theorem take_bytes_cons (b : Block α m) (msgs : List (Block α m)) :
    (bytes (b :: msgs)).take m = b.val := by
  rw [bytes_cons, List.take_append_of_le_length (Nat.le_of_eq b.property.symm),
    List.take_of_length_le (Nat.le_of_eq b.property)]

/-- The stream behind its first message. -/
@[simp] theorem drop_bytes_cons (b : Block α m) (msgs : List (Block α m)) :
    (bytes (b :: msgs)).drop m = bytes msgs := by
  rw [bytes_cons, List.drop_append_of_le_length (Nat.le_of_eq b.property.symm),
    List.drop_of_length_le (Nat.le_of_eq b.property), List.nil_append]

/-- The `k`-th message starts at byte `m * k`. -/
theorem take_drop_bytes {msgs : List (Block α m)} {k : ℕ} (hk : k < msgs.length) :
    ((bytes msgs).drop (m * k)).take m = msgs[k].val := by
  induction msgs generalizing k with
  | nil => cases hk
  | cons b msgs ih =>
      cases k with
      | zero => simpa using take_bytes_cons b msgs
      | succ k =>
          rw [Nat.mul_succ, Nat.add_comm, ← List.drop_drop, drop_bytes_cons]
          exact ih (Nat.lt_of_succ_lt_succ hk)

/-- Where a whole message can be received, the stream has one. -/
theorem exists_cons_of_le_length (hm : 0 < m) {msgs : List (Block α m)}
    (h : m ≤ (bytes msgs).length) : ∃ b rest, msgs = b :: rest := by
  cases msgs with
  | nil => exact absurd h (Nat.not_le_of_lt hm)
  | cons b rest => exact ⟨b, rest, rfl⟩

/-- A whole message is received as it was sent. -/
theorem receive_bytes_cons (buffer b : Block α m) (msgs : List (Block α m)) :
    receive buffer ((bytes (b :: msgs)).take m) = b := by
  apply Subtype.ext
  rw [take_bytes_cons]
  exact receive_of_length_eq b.property

end MessageStream
