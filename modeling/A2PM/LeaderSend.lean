/-
A2PM/LeaderSend.lean

`send_to_leader` of `controller/leader.c`, with `sock_write` of `sockhelp.c`
and what it returns.

`sock_write` returns its `count` as an `int`, or what `write` has returned last,
and `send_to_leader` compares that with `size`, a `size_t`.  A -1 becomes the
greatest `size_t` there, and a `count` from `2 ^ 32` on is not what it was, so
the answer is right in some cases only (`sendToLeader_iff`).
-/
import A2PM.MachineInt
import A2PM.Relay

namespace A2PM.Leader

open MachineInt

/-- What a call of `write` returns. -/
inductive WriteResult
  /-- The number of bytes written, not 0. -/
  | bytes (n : ℕ)
  | zero
  /-- -1, with `EINTR`. -/
  | interrupted
  /-- -1, with another error. -/
  | error
  deriving DecidableEq

/-- `write` transfers at most so many bytes in one call. -/
abbrev maxWrite : ℕ := 0x7ffff000

/-- `sock_write` with the results of its calls of `write`, `buf` being what is
left of `count` bytes: what it returns, and the bytes that go out. -/
def sockWrite (count : ℕ) : List UInt8 → List WriteResult → Option (ℤ × List UInt8)
  | buf, [] => if buf = [] then some (toInt count, []) else none
  | buf, .bytes n :: results =>
      -- so many fit in `this_write`, an `int`
      if 0 < n ∧ n ≤ buf.length ∧ n ≤ maxWrite then
        (sockWrite count (buf.drop n) results).map fun r => (r.1, buf.take n ++ r.2)
      else none
  | buf, .interrupted :: results => if buf = [] then none else sockWrite count buf results
  | buf, .zero :: results => if buf ≠ [] ∧ results = [] then some (0, []) else none
  | buf, .error :: results => if buf ≠ [] ∧ results = [] then some (-1, []) else none

/-- The `int` is less than the `size_t` that it is compared with. -/
def lessThanSize (written : ℤ) (size : ℕ) : Prop := written % 2 ^ 64 < size

instance (written : ℤ) (size : ℕ) : Decidable (lessThanSize written size) :=
  inferInstanceAs (Decidable (_ < _))

/-- `send_to_leader`: what it returns, and the bytes that go out. -/
def sendToLeader (leaderSocket : ℤ) (payload : List UInt8) (results : List WriteResult) :
    Option (Bool × List UInt8) :=
  if leaderSocket = -1 then if results = [] then some (false, []) else none
  else
    (sockWrite payload.length payload results).map fun r =>
      (!decide (lessThanSize r.1 payload.length), r.2)

/-! ### `sock_write` -/

/-- The ways in which `sock_write` returns. -/
inductive Writes (count : ℕ) : List UInt8 → List WriteResult → ℤ → List UInt8 → Prop
  | done : Writes count [] [] (toInt count) []
  | bytes {buf rest results written} (n : ℕ) : 0 < n → n ≤ buf.length →
      Writes count (buf.drop n) results written rest →
      Writes count buf (.bytes n :: results) written (buf.take n ++ rest)
  | interrupted {buf sent results written} : buf ≠ [] → Writes count buf results written sent →
      Writes count buf (.interrupted :: results) written sent
  | zero {buf} : buf ≠ [] → Writes count buf [.zero] 0 []
  | error {buf} : buf ≠ [] → Writes count buf [.error] (-1) []

section

variable {count : ℕ} {buf sent : List UInt8} {results : List WriteResult} {written : ℤ}

theorem writes_of_sockWrite (h : sockWrite count buf results = some (written, sent)) :
    Writes count buf results written sent := by
  induction results generalizing buf sent with
  | nil =>
      rw [sockWrite, Option.ite_none_right_eq_some] at h
      obtain ⟨rfl, heq⟩ := h
      obtain ⟨rfl, rfl⟩ := Prod.mk.inj (Option.some.inj heq)
      exact .done
  | cons r results ih =>
      cases r with
      | bytes n =>
          rw [sockWrite, Option.ite_none_right_eq_some, Option.map_eq_some_iff] at h
          obtain ⟨⟨hpos, hle, -⟩, ⟨written', rest⟩, hrest, heq⟩ := h
          obtain ⟨rfl, rfl⟩ := Prod.mk.inj heq
          exact .bytes n hpos hle (ih hrest)
      | interrupted =>
          rw [sockWrite, Option.ite_none_left_eq_some] at h
          exact .interrupted h.1 (ih h.2)
      | zero =>
          rw [sockWrite, Option.ite_none_right_eq_some] at h
          obtain ⟨⟨hbuf, rfl⟩, heq⟩ := h
          obtain ⟨rfl, rfl⟩ := Prod.mk.inj (Option.some.inj heq)
          exact .zero hbuf
      | error =>
          rw [sockWrite, Option.ite_none_right_eq_some] at h
          obtain ⟨⟨hbuf, rfl⟩, heq⟩ := h
          obtain ⟨rfl, rfl⟩ := Prod.mk.inj (Option.some.inj heq)
          exact .error hbuf

/-- The relay's model does not tell 0 from an error. -/
def WriteResult.toWritten : WriteResult → Balancer.Written
  | .bytes n => .bytes n
  | .zero | .error => .failed
  | .interrupted => .interrupted

/-- The bytes that go out are those of the relay's model. -/
theorem Writes.toWritten (h : Writes count buf results written sent) :
    Balancer.sockWrite buf (results.map WriteResult.toWritten) = some sent := by
  induction h with
  | done => exact if_pos rfl
  | @bytes buf rest results written n hpos hle _ ih =>
      show (if 0 < n ∧ n ≤ buf.length then _ else none) = _
      rw [if_pos ⟨hpos, hle⟩, ih]
      rfl
  | interrupted hbuf _ ih => exact (if_neg hbuf).trans ih
  | zero hbuf => exact if_pos ⟨hbuf, rfl⟩
  | error hbuf => exact if_pos ⟨hbuf, rfl⟩

/-- What `sock_write` returns goes by the last call of `write`; an early end
leaves bytes behind. -/
theorem Writes.result (h : Writes count buf results written sent) :
    (.zero ∉ results ∧ .error ∉ results ∧ written = toInt count) ∨
      (.zero ∈ results ∧ .error ∉ results ∧ written = 0 ∧ sent ≠ buf) ∨
      (.error ∈ results ∧ written = -1 ∧ sent ≠ buf) := by
  induction h with
  | done => exact .inl ⟨List.not_mem_nil, List.not_mem_nil, rfl⟩
  | @bytes buf rest results written n _ _ _ ih =>
      -- what is missing of the rest is missing of all
      have hne : rest ≠ buf.drop n → buf.take n ++ rest ≠ buf := by
        intro hrest heq
        exact hrest (List.append_cancel_left (heq.trans (List.take_append_drop n buf).symm))
      simp only [List.mem_cons, reduceCtorEq, false_or]
      rcases ih with hall | ⟨hzero, herror, hwritten, hmissing⟩ | ⟨herror, hwritten, hmissing⟩
      · exact .inl hall
      · exact .inr (.inl ⟨hzero, herror, hwritten, hne hmissing⟩)
      · exact .inr (.inr ⟨herror, hwritten, hne hmissing⟩)
  | interrupted _ _ ih =>
      simp only [List.mem_cons, reduceCtorEq, false_or]
      exact ih
  | zero hbuf => exact .inr (.inl ⟨List.mem_cons_self, by simp, rfl, hbuf.symm⟩)
  | error hbuf => exact .inr (.inr ⟨List.mem_cons_self, rfl, hbuf.symm⟩)

/-- Without an early end, everything goes out. -/
theorem Writes.sent_eq (h : Writes count buf results written sent) (hzero : .zero ∉ results)
    (herror : .error ∉ results) : sent = buf := by
  apply Balancer.sockWrite_eq h.toWritten
  intro hfailed
  obtain ⟨r, hr, hfailed⟩ := List.mem_map.mp hfailed
  cases r with
  | bytes n => cases hfailed
  | zero => exact hzero hr
  | interrupted => cases hfailed
  | error => exact herror hr

end

/-! ### The comparison -/

/-- The `int` that a `count` becomes is less than that as a `size_t` iff it has
lost a multiple of `2 ^ 32` and is not negative. -/
theorem lessThanSize_toInt_iff {size : ℕ} (hsize : size < 2 ^ 64) :
    lessThanSize (toInt size) size ↔ 2 ^ 32 ≤ size ∧ size % 2 ^ 32 < 2 ^ 31 := by
  rw [lessThanSize, toInt, Int.bmod_def]
  split <;> omega

theorem lessThanSize_zero_iff {size : ℕ} : lessThanSize 0 size ↔ 0 < size := by
  rw [lessThanSize]
  omega

/-- -1 is the greatest `size_t`. -/
theorem not_lessThanSize_neg_one {size : ℕ} (hsize : size < 2 ^ 64) :
    ¬ lessThanSize (-1) size := by
  rw [lessThanSize]
  omega

/-- **The answer of `send_to_leader`.**  It is true exactly when a leader is
known and all bytes have gone out to it, iff there is no leader, or no `write`
has failed and, if all have written something, the size is no problem. -/
theorem sendToLeader_iff (leaderSocket : ℤ) (payload : List UInt8) (results : List WriteResult)
    (hpos : 0 < payload.length) (hsize : payload.length < 2 ^ 64) (answer : Bool)
    (sent : List UInt8) (h : sendToLeader leaderSocket payload results = some (answer, sent)) :
    (answer = true ↔ leaderSocket ≠ -1 ∧ sent = payload) ↔
      leaderSocket = -1 ∨
        (.error ∉ results ∧
          (.zero ∈ results ∨ payload.length < 2 ^ 32 ∨ 2 ^ 31 ≤ payload.length % 2 ^ 32)) := by
  rw [sendToLeader] at h
  by_cases hleader : leaderSocket = -1
  · rw [if_pos hleader, Option.ite_none_right_eq_some] at h
    obtain ⟨rfl, rfl⟩ := Prod.mk.inj (Option.some.inj h.2)
    refine iff_of_true ?_ (.inl hleader)
    exact iff_of_false Bool.false_ne_true fun h => h.1 hleader
  · rw [if_neg hleader, Option.map_eq_some_iff] at h
    obtain ⟨⟨written, sent⟩, hwrite, heq⟩ := h
    obtain ⟨rfl, rfl⟩ := Prod.mk.inj heq
    simp only [hleader, false_or, Bool.not_eq_true', decide_eq_false_iff_not, ne_eq,
      not_false_eq_true, true_and]
    have hwrites := writes_of_sockWrite hwrite
    rcases hwrites.result with
      ⟨hzero, herror, hwritten⟩ | ⟨hzero, herror, hwritten, hmissing⟩ | ⟨herror, hwritten, hmissing⟩
    · simp only [hwrites.sent_eq hzero herror, hwritten, lessThanSize_toInt_iff hsize,
        hzero, herror, not_false_eq_true, iff_true, true_and, false_or]
      omega
    · simp only [hwritten, lessThanSize_zero_iff, hpos, hmissing, hzero, herror,
        not_true_eq_false, not_false_eq_true, true_or, and_self]
    · simp only [hwritten, not_lessThanSize_neg_one hsize, hmissing, herror, not_true_eq_false,
        not_false_eq_true, false_and, iff_false]

/-- A payload of three bytes, in two calls. -/
theorem sendToLeader_iff_threeBytes : ∃ sent,
    sendToLeader 3 [1, 2, 3] [.bytes 2, .interrupted, .bytes 1] = some (true, sent) ∧
      (true = true ↔ (3 : ℤ) ≠ -1 ∧ sent = [1, 2, 3]) :=
  ⟨[1, 2, 3], by decide, (sendToLeader_iff 3 [1, 2, 3] [.bytes 2, .interrupted, .bytes 1]
    (by decide) (by decide) true [1, 2, 3] (by decide)).mpr (by decide)⟩

/-- The leader has closed its end. -/
theorem error_is_success : ∃ answer sent,
    sendToLeader 3 [1, 2, 3] [.error] = some (answer, sent) ∧
      ¬ (answer = true ↔ (3 : ℤ) ≠ -1 ∧ sent = [1, 2, 3]) :=
  ⟨true, [], by decide, by decide⟩

end A2PM.Leader
