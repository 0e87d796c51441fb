/-
A2PM/Relay.lean

`deal_with_data` of the balancer: the thread that passes bytes between one
client and one VM, with `append_buffer`, and `sock_write` of `sockhelp.c`.

The two halves of the loop body are the same code with the two sockets
exchanged: write what is ready for the socket, forget it whatever the write
returned, then read from the socket and append that to what is ready for the
other one.  `serve` is that code; the turn says whose half comes next.
-/
import A2PM.Transition
import Mathlib.Algebra.Group.Nat.Defs
import Mathlib.Data.List.Basic
import Mathlib.Logic.Function.Basic

namespace A2PM.Balancer

open Transition

/-- `FORWARD_BUFFER_SIZE`. -/
abbrev forwardBufferSize : ℕ := 1024 * 1024

/-! ### Writing and appending -/

/-- What a call of `write` returns. -/
inductive Written
  /-- The number of bytes written, not 0. -/
  | bytes (n : ℕ)
  /-- -1, with `EINTR`. -/
  | interrupted
  /-- 0, or -1 with another error, such as `EAGAIN`. -/
  | failed
  deriving DecidableEq

/-- `sock_write` with the results of its calls of `write`: the bytes that go
out. -/
def sockWrite : List UInt8 → List Written → Option (List UInt8)
  | buf, [] => if buf = [] then some [] else none
  | buf, .bytes n :: results =>
      if 0 < n ∧ n ≤ buf.length then
        (sockWrite (buf.drop n) results).map fun sent => buf.take n ++ sent
      else none
  | buf, .interrupted :: results => if buf = [] then none else sockWrite buf results
  | buf, .failed :: results => if buf ≠ [] ∧ results = [] then some [] else none

/-- `write` fails at no time: `sock_write` sends everything. -/
theorem sockWrite_eq {buf sent : List UInt8} {results : List Written}
    (h : sockWrite buf results = some sent) (hok : .failed ∉ results) : sent = buf := by
  induction results generalizing buf sent with
  | nil =>
      simp only [sockWrite, Option.ite_none_right_eq_some, Option.some.injEq] at h
      rw [h.1, h.2]
  | cons r results ih =>
      have hrest : .failed ∉ results := fun hmem => hok (List.mem_cons_of_mem _ hmem)
      cases r with
      | bytes n =>
          simp only [sockWrite, Option.ite_none_right_eq_some, Option.map_eq_some_iff] at h
          obtain ⟨-, rest, hsent, rfl⟩ := h
          rw [ih hsent hrest, List.take_append_drop]
      | interrupted =>
          simp only [sockWrite, Option.ite_none_left_eq_some] at h
          exact ih h.2 hrest
      | failed => exact absurd List.mem_cons_self hok

/-- What `realloc` does with a block. -/
inductive Realloc
  /-- It stays where it is. -/
  | inPlace
  /-- It moves, or there is no block of that size.  The pointer of
  `append_buffer`'s caller still points to the old block, whose contents are
  not defined any more: `junk` is what is read there later. -/
  | moved (junk : List UInt8)

/-- `append_buffer`, whose parameter `original_buffer` is a copy of the
caller's pointer: the bytes ready in the caller's buffer, and `times`. -/
def appendBuffer (original aux : List UInt8) (times : ℕ) (r : Realloc) :
    Option (List UInt8 × ℕ) :=
  if forwardBufferSize ≤ original.length + aux.length then
    match r with
    | .inPlace =>
        -- the size is an `int`
        if times * forwardBufferSize < 2 ^ 31 then some (original ++ aux, times + 1) else none
    | .moved junk =>
        if junk.length = original.length + aux.length then some (junk, times + 1) else none
  else some (original ++ aux, times)

theorem appendBuffer_eq {original aux ready : List UInt8} {times times' : ℕ} {r : Realloc}
    (h : appendBuffer original aux times r = some (ready, times'))
    (hr : forwardBufferSize ≤ original.length + aux.length → r = .inPlace) :
    ready = original ++ aux := by
  rw [appendBuffer.eq_def] at h
  split at h
  next hfull =>
      obtain rfl := hr hfull
      simp only [Option.ite_none_right_eq_some, Option.some.injEq, Prod.mk.injEq] at h
      exact h.2.1.symm
  next =>
      simp only [Option.some.injEq, Prod.mk.injEq] at h
      exact h.1.symm

/-! ### The thread -/

inductive Side
  | client | vm
  deriving DecidableEq

def Side.other : Side → Side
  | .client => .vm
  | .vm => .client

structure Relay where
  /-- The bytes ready for each side: `buffer_to_client` and
  `buffer_from_client`, as far as `bytes_ready_to_client` and
  `bytes_ready_from_client`. -/
  ready : Side → List UInt8
  times : ℕ
  /-- The half of the loop body that comes next. -/
  turn : Side
  /-- The side whose end of file has ended the thread. -/
  exited : Option Side
  /-- All bytes read from each side. -/
  read : Side → List UInt8
  /-- All bytes written to each side. -/
  written : Side → List UInt8

/-- What `sock_read` returns. -/
inductive SockRead
  | data (bytes : List UInt8)
  /-- 0. -/
  | endOfFile
  /-- `NOT_AVAILABLE`, or -1. -/
  | failed

/-- What happens in one half of the loop body. -/
inductive Half
  /-- `select` has not reported the socket. -/
  | skip
  | serve (results : List Written) (read : SockRead) (r : Realloc)

namespace Relay

def initial : Relay where
  ready := fun _ => []
  times := 2
  turn := .client
  exited := none
  read := fun _ => []
  written := fun _ => []

/-- `sock_write` of what is ready, if anything is, and `bytes_ready = 0`. -/
def writeReady (s : Relay) (results : List Written) : Option Relay :=
  if s.ready s.turn = [] then
    if results = [] then some s else none
  else
    (sockWrite (s.ready s.turn) results).map fun sent =>
      { s with
        ready := Function.update s.ready s.turn []
        written := Function.update s.written s.turn (s.written s.turn ++ sent) }

/-- `sock_read`, and what follows. -/
def readSide (s : Relay) (r : Realloc) : SockRead → Option Relay
  | .data bytes =>
      if bytes ≠ [] ∧ bytes.length ≤ forwardBufferSize then
        (appendBuffer (s.ready s.turn.other) bytes s.times r).map fun (ready, times) =>
          { s with
            ready := Function.update s.ready s.turn.other ready
            times := times
            turn := s.turn.other
            read := Function.update s.read s.turn (s.read s.turn ++ bytes) }
      else none
  -- the buffers are freed, whatever they hold
  | .endOfFile => some { s with ready := fun _ => [], exited := some s.turn }
  | .failed => some { s with turn := s.turn.other }

/-- One half of the loop body. -/
def step (s : Relay) : Half → Option Relay
  | .skip => if s.exited = none then some { s with turn := s.turn.other } else none
  | .serve results read r =>
      if s.exited = none then (s.writeReady results).bind fun s => s.readSide r read else none

/-! ### The property -/

structure Faithful (s : Relay) : Prop where
  toPrefix : ∀ x, s.written x <+: s.read x.other
  atClose : s.exited = some .vm → s.written .client = s.read .vm

/-- `write` does not fail; a buffer that grows stays in place; and when the
VM closes its side, nothing is ready for the client. -/
def Complete (s : Relay) : Half → Prop
  | .skip => True
  | .serve results read r => .failed ∉ results ∧
      match read with
      | .data bytes =>
          forwardBufferSize ≤ (s.ready s.turn.other).length + bytes.length → r = .inPlace
      | .endOfFile => s.turn = .vm → s.ready .client = []
      | .failed => True

/-! ### The size of the buffers -/

/-- Room for one more read, at the next size of a buffer. -/
structure Sized (s : Relay) : Prop where
  times : 2 ≤ s.times
  ready : ∀ x, (s.ready x).length + forwardBufferSize ≤ s.times * forwardBufferSize

/-- A buffer that has been emptied. -/
theorem Sized.nil {s : Relay} (hs : s.Sized) :
    ([] : List UInt8).length + forwardBufferSize ≤ s.times * forwardBufferSize :=
  Nat.le_trans (Nat.add_le_add_right (Nat.zero_le _) _) (hs.ready .client)

theorem appendBuffer_sized {original aux ready : List UInt8} {times times' : ℕ} {r : Realloc}
    (h : appendBuffer original aux times r = some (ready, times')) (htimes : 2 ≤ times)
    (hsize : original.length + forwardBufferSize ≤ times * forwardBufferSize)
    (haux : aux.length ≤ forwardBufferSize) :
    times ≤ times' ∧ ready.length + forwardBufferSize ≤ times' * forwardBufferSize := by
  rw [appendBuffer.eq_def] at h
  split at h
  next hfull =>
      have hlength : ready.length = original.length + aux.length ∧ times' = times + 1 := by
        cases r with
        | inPlace =>
            simp only [Option.ite_none_right_eq_some, Option.some.injEq, Prod.mk.injEq] at h
            exact ⟨by rw [← h.2.1, List.length_append], h.2.2.symm⟩
        | moved junk =>
            simp only [Option.ite_none_right_eq_some, Option.some.injEq, Prod.mk.injEq] at h
            exact ⟨h.2.1 ▸ h.1, h.2.2.symm⟩
      rw [hlength.1, hlength.2, Nat.succ_mul]
      omega
  next hroom =>
      simp only [Option.some.injEq, Prod.mk.injEq] at h
      obtain ⟨rfl, rfl⟩ := h
      have htwo : 2 * forwardBufferSize ≤ times * forwardBufferSize := Nat.mul_le_mul_right _ htimes
      rw [List.length_append]
      omega

theorem Sized.writeReady {s s' : Relay} {results : List Written} (hs : s.Sized)
    (h : s.writeReady results = some s') : s'.Sized := by
  rw [Relay.writeReady] at h
  split at h
  next =>
      simp only [Option.ite_none_right_eq_some, Option.some.injEq] at h
      exact h.2 ▸ hs
  next =>
      obtain ⟨sent, -, rfl⟩ := Option.map_eq_some_iff.mp h
      refine ⟨hs.times, fun x => ?_⟩
      show (Function.update s.ready s.turn [] x).length + _ ≤ s.times * _
      rcases eq_or_ne x s.turn with rfl | hne
      · rw [Function.update_self]
        exact hs.nil
      · rw [Function.update_of_ne hne]
        exact hs.ready x

theorem Sized.readSide {s s' : Relay} {read : SockRead} {r : Realloc} (hs : s.Sized)
    (h : s.readSide r read = some s') : s'.Sized := by
  cases read with
  | data bytes =>
      simp only [Relay.readSide, Option.ite_none_right_eq_some, Option.map_eq_some_iff] at h
      obtain ⟨⟨-, hbytes⟩, ⟨ready, times⟩, happend, rfl⟩ := h
      obtain ⟨hle, hready⟩ := appendBuffer_sized happend hs.times (hs.ready _) hbytes
      refine ⟨Nat.le_trans hs.times hle, fun x => ?_⟩
      show (Function.update s.ready s.turn.other ready x).length + _ ≤ times * _
      rcases eq_or_ne x s.turn.other with rfl | hne
      · rw [Function.update_self]
        exact hready
      · rw [Function.update_of_ne hne]
        exact Nat.le_trans (hs.ready x) (Nat.mul_le_mul_right _ hle)
  | endOfFile =>
      obtain rfl := Option.some.inj h
      exact ⟨hs.times, fun _ => hs.nil⟩
  | failed =>
      obtain rfl := Option.some.inj h
      exact ⟨hs.times, hs.ready⟩

/-- A read always fits into the size that `append_buffer` asks `realloc`
for. -/
theorem sized_of_reachable {s : Relay} (h : Reachable step initial s) : s.Sized := by
  have hinitial : initial.Sized :=
    ⟨Nat.le_refl 2, fun _ => (by decide : 0 + forwardBufferSize ≤ 2 * forwardBufferSize)⟩
  refine invariant_of_step hinitial ?_ h
  intro s l s' hs hstep
  cases l with
  | skip =>
      simp only [step, Option.ite_none_right_eq_some, Option.some.injEq] at hstep
      exact hstep.2 ▸ ⟨hs.times, hs.ready⟩
  | serve results read r =>
      simp only [step, Option.ite_none_right_eq_some, Option.bind_eq_some_iff] at hstep
      obtain ⟨-, u, hwrite, hread⟩ := hstep
      exact (hs.writeReady hwrite).readSide hread

/-! ### The invariant -/

/-- Nothing is lost: what has been read from a side has been written to the
other one, or is ready for it. -/
structure Inv (s : Relay) : Prop where
  kept : s.exited = none → ∀ x, s.read x.other = s.written x ++ s.ready x
  faithful : s.Faithful

theorem Inv.of_kept {s : Relay} (hexited : s.exited = none)
    (h : ∀ x, s.read x.other = s.written x ++ s.ready x) : s.Inv where
  kept _ := h
  faithful :=
    { toPrefix := fun x => h x ▸ List.prefix_append _ _
      atClose := fun hvm => by rw [hexited] at hvm; cases hvm }

theorem initial_inv : initial.Inv := .of_kept rfl fun _ => rfl

@[simp] theorem other_other (x : Side) : x.other.other = x := by cases x <;> rfl

theorem other_ne (x : Side) : x.other ≠ x := by cases x <;> decide

/-- A complete write hands over what is ready. -/
theorem writeReady_spec {s s' : Relay} {results : List Written}
    (h : s.writeReady results = some s') (hok : .failed ∉ results) :
    s'.turn = s.turn ∧ s'.exited = s.exited ∧ s'.ready s.turn.other = s.ready s.turn.other ∧
      s'.read = s.read ∧ (∀ x, s'.written x ++ s'.ready x = s.written x ++ s.ready x) := by
  rw [writeReady] at h
  split at h
  next hempty =>
      simp only [Option.ite_none_right_eq_some, Option.some.injEq] at h
      obtain ⟨-, rfl⟩ := h
      exact ⟨rfl, rfl, rfl, rfl, fun _ => rfl⟩
  next hready =>
      obtain ⟨sent, hsent, rfl⟩ := Option.map_eq_some_iff.mp h
      refine ⟨rfl, rfl, Function.update_of_ne (other_ne _) _ _, rfl, fun x => ?_⟩
      rw [sockWrite_eq hsent hok]
      rcases eq_or_ne x s.turn with rfl | hne
      · simp
      · simp [hne]

/-- Where nothing moves, what has been read joins what is ready for the other
side. -/
theorem inv_readSide {s s' : Relay} {read : SockRead} {r : Realloc} (hexited : s.exited = none)
    (h : ∀ x, s.read x.other = s.written x ++ s.ready x)
    (hok : ∀ bytes, read = .data bytes →
      forwardBufferSize ≤ (s.ready s.turn.other).length + bytes.length → r = .inPlace)
    (hend : read = .endOfFile → s.turn = .vm → s.ready .client = [])
    (hstep : s.readSide r read = some s') : s'.Inv := by
  cases read with
  | data bytes =>
      simp only [readSide, Option.ite_none_right_eq_some, Option.map_eq_some_iff] at hstep
      obtain ⟨-, ⟨ready, times⟩, happend, rfl⟩ := hstep
      have hready := appendBuffer_eq happend (hok bytes rfl)
      refine .of_kept hexited fun x => ?_
      show Function.update s.read s.turn _ x.other =
        s.written x ++ Function.update s.ready s.turn.other ready x
      rcases eq_or_ne x s.turn.other with rfl | hne
      · have hother := h s.turn.other
        rw [other_other] at hother
        rw [other_other, Function.update_self, Function.update_self, hready, hother,
          List.append_assoc]
      · have hturn : x.other ≠ s.turn := fun heq => hne (heq ▸ (other_other x).symm)
        rw [Function.update_of_ne hturn, Function.update_of_ne hne]
        exact h x
  | endOfFile =>
      obtain rfl := Option.some.inj hstep
      have hclient : s.turn = .vm → s.written .client = s.read .vm := by
        intro hvm
        have hkept := h .client
        rw [hend rfl hvm, List.append_nil] at hkept
        exact hkept.symm
      exact
        { kept := fun hnone => absurd hnone (Option.some_ne_none _)
          faithful :=
            { toPrefix := fun x => h x ▸ List.prefix_append _ _
              atClose := fun hvm => hclient (Option.some.inj hvm) } }
  | failed =>
      obtain rfl := Option.some.inj hstep
      exact .of_kept hexited h

theorem inv_step {s s' : Relay} {l : Half} (h : s.Inv) (hl : s.Complete l)
    (hstep : s.step l = some s') : s'.Inv := by
  cases l with
  | skip =>
      simp only [step, Option.ite_none_right_eq_some, Option.some.injEq] at hstep
      obtain ⟨hexited, rfl⟩ := hstep
      exact .of_kept hexited (h.kept hexited)
  | serve results read r =>
      simp only [step, Option.ite_none_right_eq_some, Option.bind_eq_some_iff] at hstep
      obtain ⟨hexited, u, hwrite, hread⟩ := hstep
      obtain ⟨hok, hl⟩ := hl
      obtain ⟨hturn, hexited', hother, hreads, hsum⟩ := writeReady_spec hwrite hok
      have hkept : ∀ x, u.read x.other = u.written x ++ u.ready x := by
        intro x
        rw [hsum, hreads]
        exact h.kept hexited x
      refine inv_readSide (hexited'.trans hexited) hkept ?_ ?_ hread
      · rintro bytes rfl
        rw [hturn, hother]
        exact hl
      · rintro rfl hvm
        rw [hturn] at hvm
        rw [hvm] at hother
        exact hother.trans (hl hvm)

/-- **Relay fidelity.**  As long as no write fails, no growing buffer moves
and the VM closes its side with nothing ready for the client, each side gets
a prefix of what has been read from the other one, and the client everything
that the VM sent before it closed. -/
theorem along_faithful (ls : List Half) (h : AllSteps step Complete initial ls) :
    Along step Faithful initial ls :=
  (along_of_allSteps (fun _ _ _ hs hl hstep => inv_step hs hl hstep) initial_inv h).mono
    fun _ hs => hs.faithful

/-- The client sends "hi", the VM answers "ok" and closes its side. -/
theorem along_faithful_exchange :
    Along step Faithful initial
      [.serve [] (.data [104, 105]) .inPlace, .serve [.bytes 2] (.data [111, 107]) .inPlace,
        .serve [.bytes 1, .interrupted, .bytes 1] .failed .inPlace,
        .serve [] .endOfFile .inPlace] := by
  apply along_faithful
  intro s₁ h₁
  refine ⟨⟨by decide, fun _ => rfl⟩, fun s₂ h₂ => ⟨⟨by decide, fun _ => rfl⟩, fun s₃ h₃ => ?_⟩⟩
  refine ⟨⟨by decide, trivial⟩, fun s₄ h₄ => ⟨⟨by decide, fun _ => ?_⟩, trivial⟩⟩
  -- "ok" has been written when the VM closes its side
  obtain rfl := Option.some.inj h₁
  obtain rfl := Option.some.inj h₂
  obtain rfl := Option.some.inj h₃
  rfl

/-! ### A partial write -/

/-- The VM sends "abc" and "d"; the client's socket takes one byte of the
first piece, then `write` returns `EAGAIN`.  The client gets "ad". -/
theorem partial_write_loses_bytes :
    ¬ Along step Faithful initial
      [.skip, .serve [] (.data [97, 98, 99]) .inPlace,
        .serve [.bytes 1, .failed] .failed .inPlace, .serve [] (.data [100]) .inPlace,
        .serve [.bytes 1] .failed .inPlace] := by
  intro hall
  obtain ⟨s, hs, hfacts⟩ : ∃ s, run step initial
      [.skip, .serve [] (.data [97, 98, 99]) .inPlace,
        .serve [.bytes 1, .failed] .failed .inPlace, .serve [] (.data [100]) .inPlace,
        .serve [.bytes 1] .failed .inPlace] = some s ∧
      (s.written .client, s.read .vm) = ([97, 100], [97, 98, 99, 100]) := ⟨_, rfl, rfl⟩
  rw [Prod.mk.injEq] at hfacts
  have hprefix : s.written .client <+: s.read .vm := (hall.last hs).toPrefix .client
  rw [hfacts.1, hfacts.2] at hprefix
  exact absurd hprefix (by decide)

end Relay

end A2PM.Balancer
