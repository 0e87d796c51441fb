/-
A2PM/RecordStream.lean

`controller_thread` of the balancer on the byte stream from the controller.

The thread asks `recv` for the 28 bytes of a `struct virtual_machine`, into
the local variable `vm`, and then runs the body of its loop on `vm`
whatever `recv` returned: part of a record, 0 at the end of the stream, -1.
In the last two cases the bytes of `vm` are those of the time before.
-/
import A2PM.BalancerRegistry
import A2PM.MessageStream
import A2PM.Transition

namespace A2PM.Balancer

open Controller Transition MessageStream

/-! ### Records in memory -/

/-- `sizeof(struct virtual_machine)`. -/
abbrev recordSize : ℕ := 28

/-- The memory of a `struct virtual_machine`. -/
abbrev RecordBytes := Block UInt8 recordSize

/-- The string at the start of the record. -/
def readIp (r : RecordBytes) : String :=
  String.ofList (((r.val.take 16).takeWhile (· ≠ 0)).map fun b => Char.ofNat b.toNat)

/-- `enum operations`; no operation has any other value. -/
def operation : ℕ → Option Operations
  | 0 => some .add
  | 1 => some .delete
  | 2 => some .rej
  | _ => none

/-- The body of the loop, on the memory of `vm`.  With a service that does
not exist, or an address without its final zero, it reads and writes outside
the arrays, and nothing can be said about what it does. -/
def body (fresh : ℕ → VmData) (vm : RecordBytes) (reg : Registry) : Option Registry :=
  if h : readInt vm 20 < numberGroups ∧ 0 ∈ vm.val.take 16 then
    applyFields fresh (readIp vm) (readInt vm 16) ⟨readInt vm 20, h.1⟩
      (operation (readInt vm 24)) reg
  else none

/-! ### The thread -/

structure ControllerThread where
  /-- The records that the controller sends. -/
  records : List RecordBytes
  /-- How many bytes of them `recv` has returned. -/
  received : ℕ
  /-- The stream has ended, or the thread has closed its socket. -/
  closed : Bool
  /-- The local variable `vm`. -/
  vm : RecordBytes
  registry : Registry
  /-- The contents of `vm` at each run of the body, and what fresh memory
  held then. -/
  calls : List ((ℕ → VmData) × RecordBytes)

namespace ControllerThread

/-- The thread at its start; `vm` is not initialised. -/
def initial (records : List RecordBytes) (vm : RecordBytes) (mem : Service → ℕ → VmData) :
    ControllerThread where
  records := records
  received := 0
  closed := false
  vm := vm
  registry := createSystemImage mem
  calls := []

/-- The bytes that the controller sends. -/
def stream (s : ControllerThread) : List UInt8 := bytes s.records

/-- `recv(socket, &vm, sizeof(struct virtual_machine), 0)`, with what follows
in case of an error. -/
def recv (s : ControllerThread) : Received → Option ControllerThread
  | .piece n =>
      if s.closed = false ∧ 0 < n ∧ n ≤ recordSize ∧ s.received + n ≤ s.stream.length then
        some { s with
          received := s.received + n
          vm := receive s.vm ((s.stream.drop s.received).take n) }
      else none
  | .endOfStream => some { s with closed := true }
  | .error => some { s with closed := true }

/-- One round of the loop. -/
def step (s : ControllerThread) (l : Received × (ℕ → VmData)) : Option ControllerThread :=
  (s.recv l.1).bind fun s =>
    (body l.2 s.vm s.registry).map fun reg =>
      { s with registry := reg, calls := s.calls ++ [(l.2, s.vm)] }

/-! ### The property -/

/-- The operations applied so far. -/
def applied (s : ControllerThread) : List RecordBytes := s.calls.map Prod.snd

/-- The records of which `recv` has returned every byte. -/
def complete (s : ControllerThread) : List RecordBytes := s.records.take (s.received / recordSize)

/-- The registry after the body has run on the records, one after the other. -/
def replayCalls (reg : Registry) (calls : List ((ℕ → VmData) × RecordBytes)) : Option Registry :=
  calls.foldlM (fun reg c => body c.1 c.2 reg) reg

/-- Each record applied once, in order, and only when it is complete. -/
structure StreamOk (mem : Service → ℕ → VmData) (s : ControllerThread) : Prop where
  inOrder : s.applied <+: s.complete
  registry : replayCalls (createSystemImage mem) s.calls = some s.registry

/-- `recv` returns a whole record. -/
def WholeRecord (_ : ControllerThread) (l : Received × (ℕ → VmData)) : Prop :=
  l.1 = .piece recordSize

/-! ### Exactly when it holds -/

/-- As long as all pieces have been whole records. -/
structure Inv (mem : Service → ℕ → VmData) (s : ControllerThread) : Prop where
  received : s.received = recordSize * s.calls.length
  applied : s.applied = s.records.take s.calls.length
  registry : replayCalls (createSystemImage mem) s.calls = some s.registry

theorem Inv.streamOk {mem : Service → ℕ → VmData} {s : ControllerThread} (h : s.Inv mem) :
    s.StreamOk mem := by
  refine ⟨?_, h.registry⟩
  have hcount : s.received / recordSize = s.calls.length := by
    rw [h.received]
    exact Nat.mul_div_cancel_left _ (by decide)
  have hall : s.applied = s.complete := by rw [complete, hcount, h.applied]
  exact hall ▸ List.prefix_rfl

/-- The body runs once, whatever `recv` returned. -/
theorem step_calls {s s' : ControllerThread} {l : Received × (ℕ → VmData)}
    (h : s.step l = some s') :
    ∃ u, s.recv l.1 = some u ∧ s'.calls = s.calls ++ [(l.2, u.vm)] ∧ s'.records = s.records ∧
      s'.received = u.received ∧ body l.2 u.vm s.registry = some s'.registry := by
  simp only [step, Option.bind_eq_some_iff, Option.map_eq_some_iff] at h
  obtain ⟨u, hu, reg, hreg, rfl⟩ := h
  have hsame : u.calls = s.calls ∧ u.records = s.records ∧ u.registry = s.registry := by
    cases hl : l.1 with
    | piece n =>
        rw [hl] at hu
        simp only [recv, Option.ite_none_right_eq_some, Option.some.injEq] at hu
        exact hu.2 ▸ ⟨rfl, rfl, rfl⟩
    | endOfStream | error =>
        rw [hl] at hu
        exact Option.some.inj hu ▸ ⟨rfl, rfl, rfl⟩
  obtain ⟨hcalls, hrecords, hregistry⟩ := hsame
  exact ⟨u, hu, by rw [hcalls], hrecords, rfl, hregistry ▸ hreg⟩

theorem replayCalls_append (reg : Registry) (calls : List ((ℕ → VmData) × RecordBytes))
    (c : (ℕ → VmData) × RecordBytes) :
    replayCalls reg (calls ++ [c]) = (replayCalls reg calls).bind (body c.1 c.2) := by
  simp [replayCalls, List.foldlM_append]

theorem registry_step {mem : Service → ℕ → VmData} {s s' : ControllerThread}
    {l : Received × (ℕ → VmData)}
    (hreg : replayCalls (createSystemImage mem) s.calls = some s.registry)
    (h : s.step l = some s') : replayCalls (createSystemImage mem) s'.calls = some s'.registry := by
  obtain ⟨u, -, hcalls, -, -, hbody⟩ := step_calls h
  rw [hcalls, replayCalls_append, hreg]
  exact hbody

/-- A whole record replaces `vm`, and is applied. -/
theorem inv_wholeRecord {mem : Service → ℕ → VmData} {s s' : ControllerThread}
    {l : Received × (ℕ → VmData)} (h : s.Inv mem) (hl : s.WholeRecord l)
    (hstep : s.step l = some s') : s'.Inv mem := by
  obtain ⟨u, hu, hcalls, hrecords, hreceived, -⟩ := step_calls hstep
  rw [hl] at hu
  simp only [recv, Option.ite_none_right_eq_some, Option.some.injEq] at hu
  obtain ⟨⟨-, -, -, hle⟩, rfl⟩ := hu
  have hlt : s.calls.length < s.records.length := by
    rw [stream, length_bytes, h.received, ← Nat.mul_succ] at hle
    exact Nat.le_of_mul_le_mul_left hle (by decide)
  -- the next 28 bytes are those of the next record
  have hvm : receive s.vm ((s.stream.drop s.received).take recordSize) =
      s.records[s.calls.length] := by
    apply Subtype.ext
    rw [h.received, stream, take_drop_bytes hlt]
    exact receive_of_length_eq s.records[s.calls.length].property
  refine ⟨?_, ?_, registry_step h.registry hstep⟩
  · rw [hreceived, hcalls, List.length_append, List.length_singleton, Nat.mul_succ, ← h.received]
  · rw [ControllerThread.applied, hcalls, List.map_append, List.length_append, hrecords,
      List.length_singleton, List.take_succ_eq_append_getElem hlt, ← h.applied, hvm]
    rfl

theorem not_streamOk_of_not_wholeRecord {mem : Service → ℕ → VmData} {s s' : ControllerThread}
    {l : Received × (ℕ → VmData)} (h : s.Inv mem) (hstep : s.step l = some s')
    (hok : s'.StreamOk mem) : s.WholeRecord l := by
  obtain ⟨u, hu, hcalls, -, hreceived, -⟩ := step_calls hstep
  have hlen : s.calls.length + 1 ≤ u.received / recordSize := by
    have hle := hok.inOrder.length_le
    rw [ControllerThread.applied, hcalls, List.length_map, List.length_append, complete,
      hreceived, List.length_take] at hle
    exact hle.trans (Nat.min_le_left _ _)
  have hbytes : recordSize * (s.calls.length + 1) ≤ u.received := by
    rw [Nat.mul_comm]
    exact (Nat.le_div_iff_mul_le (by decide)).mp hlen
  rw [Nat.mul_succ, ← h.received] at hbytes
  rw [WholeRecord]
  cases hl : l.1 with
  | piece n =>
      rw [hl] at hu
      simp only [recv, Option.ite_none_right_eq_some, Option.some.injEq] at hu
      obtain ⟨⟨-, -, hn, -⟩, rfl⟩ := hu
      rw [Nat.le_antisymm hn (Nat.le_of_add_le_add_left hbytes)]
  | endOfStream | error =>
      rw [hl] at hu
      obtain rfl := Option.some.inj hu
      -- no byte is received, so no record is completed
      exact absurd hbytes (Nat.not_le_of_lt (Nat.lt_add_of_pos_right (by decide)))

/-- **The record stream.**  The operations applied are a prefix of the
records completely received, at every moment of the run, iff `recv` returns
a whole record each time. -/
theorem along_streamOk_iff (records : List RecordBytes) (vm : RecordBytes)
    (mem : Service → ℕ → VmData) (ls : List (Received × (ℕ → VmData))) :
    Along step (StreamOk mem) (initial records vm mem) ls ↔
      AllSteps step WholeRecord (initial records vm mem) ls :=
  along_iff_allSteps (fun _ => Inv.streamOk) (fun _ _ _ h hl hstep => inv_wholeRecord h hl hstep)
    (fun _ _ _ h hstep hok => not_streamOk_of_not_wholeRecord h hstep hok)
    ⟨rfl, by simp [applied, initial], rfl⟩

/-! ### The controller closes the connection -/

/-- The `ADD` record for address 10.0.0.1, port 8080 (in network order) and
the first service. -/
def addRecord : RecordBytes :=
  ⟨[49, 48, 46, 48, 46, 48, 46, 49, 0, 0, 0, 0, 0, 0, 0, 0, 0x1f, 0x90, 0, 0,
    0, 0, 0, 0, 0, 0, 0, 0], rfl⟩

example : readIp addRecord = "10.0.0.1" ∧ readInt addRecord 16 = htons 8080 := by decide

/-- The controller sends one record and closes the connection: the record is
applied again when `recv` returns 0. -/
theorem applied_again_after_close :
    ¬ Along step (StreamOk fun _ _ => default) (initial [addRecord] addRecord fun _ _ => default)
      [(.piece recordSize, fun _ => default), (.endOfStream, fun _ => default)] := by
  intro hall
  have hrun : (run step (initial [addRecord] addRecord fun _ _ => default)
      [(.piece recordSize, fun _ => default), (.endOfStream, fun _ => default)]).map (fun s =>
        (s.applied, s.complete)) = some ([addRecord, addRecord], [addRecord]) := by
    rfl
  obtain ⟨s, hs, hfacts⟩ := Option.map_eq_some_iff.mp hrun
  simp only [Prod.mk.injEq] at hfacts
  have hprefix := (hall.last hs).inOrder.length_le
  rw [hfacts.1, hfacts.2] at hprefix
  simp at hprefix

end ControllerThread

end A2PM.Balancer
