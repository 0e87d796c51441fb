/-
A2PM/Broadcast.lean

`controller/broadcast.c` statement by statement: the slot `msg_temp` with its
flag `new_bcast_message`, which the calls of `broadcast` in `leader_loop` fill
and `broadcast_loop` sends to every controller and clears.

The two threads share the slot without a lock, and `sendto` copies it field by
field.  A message that is passed to `broadcast` while another one waits
overwrites it, and one that is passed while `do_bcast` is sending is cleared
with the one that is sent (`cleared_unsent`).  `server.c` has the same kind of
slot and locks it with `manage_vm_mutex`.

If `broadcast` leaves a waiting message alone (`Undisturbed`), every message
waits or has been sent (`along_lossless`): `Accounts` splits what has been
posted into what has been sent and the message in the slot.

The controllers' two threads as a whole are in `LeaderThreads`.
-/
import A2PM.LeaderElection
import A2PM.Transition

namespace A2PM.Broadcast

open Transition
open Leader (Msg leaderPropose)

/-! ### The two threads -/

/-- `MAX_MESSAGE`. -/
abbrev maxMessage : ℕ := 1024

/-- Where `leader_loop` is in `broadcast(type, payload, size)`. -/
inductive CallPc
  /-- Not in a call. -/
  | idle
  /-- `msg_temp.type = type`. -/
  | setType (msg : Msg)
  /-- `msg_temp.payload = payload`. -/
  | setPayload (msg : Msg)
  /-- `msg_temp.size = size`. -/
  | setSize (msg : Msg)
  /-- `new_bcast_message = true`. -/
  | setFlag (msg : Msg)
  deriving DecidableEq

/-- Where `broadcast_loop` is. -/
inductive LoopPc
  /-- `my_new_bcast_message = new_bcast_message`. -/
  | sample
  /-- In its `select`, with `my_new_bcast_message`. -/
  | select (my : Bool)
  /-- In `do_bcast`, at the `sendto` for controller `index`: what it has copied
  of `msg_temp`. -/
  | sendType (index : ℕ)
  | sendSize (index : ℕ) (type : ℤ)
  | sendPayload (index : ℕ) (type : ℤ) (size : ℕ)
  /-- `new_bcast_message = false`. -/
  | clear
  deriving DecidableEq

structure Bcast where
  msgTemp : Msg
  newBcastMessage : Bool
  call : CallPc
  loop : LoopPc
  /-- The messages of the calls that have returned. -/
  posted : List Msg
  /-- What has been sent, and to which controller. -/
  datagrams : List (ℕ × Msg)
  deriving DecidableEq

namespace Bcast

/-- A controller when it has started both threads. -/
def initial : Bcast where
  msgTemp := ⟨0, 0, 0⟩
  newBcastMessage := false
  call := .idle
  loop := .sample
  posted := []
  datagrams := []

inductive Label
  /-- `leader_loop` calls `broadcast`. -/
  | call (msg : Msg)
  /-- The next statement of `broadcast`. -/
  | post
  /-- `select` times out. -/
  | timeout
  /-- `select` returns, and a datagram is received and handled. -/
  | receive
  /-- `sendto` returns, and the loop of `do_bcast` goes on. -/
  | sendto (ok : Bool)
  /-- Any other statement of `broadcast_loop`. -/
  | loop
  deriving DecidableEq

/-- `broadcast`, after the test of `size`. -/
def post (s : Bcast) : Option Bcast :=
  match s.call with
  | .idle => none
  | .setType msg => some { s with msgTemp.type := msg.type, call := .setPayload msg }
  | .setPayload msg => some { s with msgTemp.payload := msg.payload, call := .setSize msg }
  | .setSize msg => some { s with msgTemp.size := msg.size, call := .setFlag msg }
  | .setFlag msg =>
      some { s with newBcastMessage := true, call := .idle, posted := s.posted ++ [msg] }

/-- The test of the loop of `do_bcast`. -/
def sendFrom (controllers index : ℕ) : LoopPc :=
  if index < controllers then .sendType index else .clear

/-- `broadcast_loop`, outside of its `select` and of the return of `sendto`. -/
def loopStep (s : Bcast) : Option Bcast :=
  match s.loop with
  | .sample => some { s with loop := .select s.newBcastMessage }
  | .sendType index => some { s with loop := .sendSize index s.msgTemp.type }
  | .sendSize index type => some { s with loop := .sendPayload index type s.msgTemp.size }
  | .clear => some { s with newBcastMessage := false, loop := .sample }
  | .select _ | .sendPayload _ _ _ => none

/-- One statement of one thread; there are `last_controller_socket`
controllers. -/
def step (controllers : ℕ) (s : Bcast) : Label → Option Bcast
  | .call msg =>
      -- a larger message aborts the process
      if s.call = .idle ∧ msg.size ≤ maxMessage then some { s with call := .setType msg } else none
  | .post => s.post
  | .timeout =>
      match s.loop with
      | .select my =>
          some { s with loop := if my then sendFrom controllers 0 else .sample }
      | _ => none
  | .receive =>
      match s.loop with
      | .select _ => some { s with loop := .sample }
      | _ => none
  | .sendto ok =>
      match s.loop with
      | .sendPayload index type size =>
          -- a `sendto` that fails is reported, and not tried again
          some { s with
            datagrams :=
              if ok then s.datagrams ++ [(index, ⟨type, size, s.msgTemp.payload⟩)]
              else s.datagrams
            loop := sendFrom controllers (index + 1) }
      | _ => none
  | .loop => s.loopStep

/-! ### The property -/

/-- `msg`, once to every controller. -/
def toAll (controllers : ℕ) (msg : Msg) : List (ℕ × Msg) :=
  (List.range controllers).map fun index => (index, msg)

/-- Of the posted messages, those in `sent` have been sent, and `pending` has
been sent to the first `k` controllers. -/
structure Accounts (controllers : ℕ) (s : Bcast) (sent : List Msg) (pending : Option Msg) (k : ℕ) :
    Prop where
  posted : s.posted = sent ++ pending.toList
  datagrams : s.datagrams = sent.flatMap (toAll controllers) ++
    (pending.toList.flatMap (toAll controllers)).take k
  /-- A pending message is not cleared. -/
  flag : pending ≠ none → s.newBcastMessage = true
  /-- It is not overwritten before it has been sent. -/
  intact : ∀ msg, pending = some msg → k < controllers → s.msgTemp = msg

/-- Every message that has been posted is pending or has been sent, as it is,
to every controller, and nothing else has been sent. -/
def Lossless (controllers : ℕ) (s : Bcast) : Prop :=
  ∃ sent pending k, s.Accounts controllers sent pending k

/-- No message is waiting for `do_bcast`, or for one of its `sendto`s. -/
def Vacant (s : Bcast) : Prop := s.newBcastMessage = false ∨ s.loop = .clear

instance (s : Bcast) : Decidable s.Vacant := inferInstanceAs (Decidable (_ ∨ _))

/-- The statement of `broadcast` changes `msg_temp` only if no message is
waiting in it, and sets the flag only if it is not set. -/
def PostsSafely (s : Bcast) : CallPc → Prop
  | .idle => True
  | .setType msg => s.Vacant ∨ s.msgTemp.type = msg.type
  | .setPayload msg => s.Vacant ∨ s.msgTemp.payload = msg.payload
  | .setSize msg => s.Vacant ∨ s.msgTemp.size = msg.size
  | .setFlag _ => s.newBcastMessage = false

instance (s : Bcast) : ∀ pc, Decidable (s.PostsSafely pc)
  | .idle => .isTrue trivial
  | .setType _ | .setPayload _ | .setSize _ => inferInstanceAs (Decidable (_ ∨ _))
  | .setFlag _ => inferInstanceAs (Decidable (_ = _))

/-- `broadcast` leaves a waiting message alone, and `sendto` does not fail. -/
def Undisturbed (s : Bcast) : Label → Prop
  | .post => s.PostsSafely s.call
  | .sendto ok => ok = true
  | .call _ | .timeout | .receive | .loop => True

instance (s : Bcast) : ∀ l, Decidable (s.Undisturbed l)
  | .post => inferInstanceAs (Decidable (s.PostsSafely s.call))
  | .sendto _ => inferInstanceAs (Decidable (_ = _))
  | .call _ | .timeout | .receive | .loop => .isTrue trivial

/-! ### The invariant -/

/-- How far the message in the slot has been sent. -/
def Sending (controllers : ℕ) (pending : Option Msg) (k : ℕ) : LoopPc → Prop
  | .sample => k = 0
  | .select my => k = 0 ∧ (my = true → pending ≠ none)
  | .sendType index => k = index ∧ index < controllers ∧ pending ≠ none
  | .sendSize index type => k = index ∧ index < controllers ∧
      ∃ msg, pending = some msg ∧ type = msg.type
  | .sendPayload index type size => k = index ∧ index < controllers ∧
      ∃ msg, pending = some msg ∧ type = msg.type ∧ size = msg.size
  | .clear => k = controllers ∧ pending ≠ none

/-- How far the message of the call has been written. -/
def Written (msgTemp : Msg) : CallPc → Prop
  | .idle | .setType _ => True
  | .setPayload msg => msgTemp.type = msg.type
  | .setSize msg => msgTemp.type = msg.type ∧ msgTemp.payload = msg.payload
  | .setFlag msg => msgTemp = msg

structure Inv (controllers : ℕ) (s : Bcast) (sent : List Msg) (pending : Option Msg) (k : ℕ) :
    Prop where
  accounts : s.Accounts controllers sent pending k
  waiting : s.newBcastMessage = true → pending ≠ none
  sending : Sending controllers pending k s.loop
  written : Written s.msgTemp s.call

variable {controllers : ℕ} {s s' : Bcast} {sent : List Msg} {pending : Option Msg} {k : ℕ}

theorem initial_inv : initial.Inv controllers [] none 0 where
  accounts := ⟨rfl, rfl, fun h => absurd rfl h, nofun⟩
  waiting := nofun
  sending := rfl
  written := trivial

/-- No message is pending if the flag is not set. -/
theorem Inv.pending_eq_none (h : s.Inv controllers sent pending k)
    (hflag : s.newBcastMessage = false) : pending = none := by
  by_contra hne
  rw [h.accounts.flag hne] at hflag
  cases hflag

/-- In a vacant slot nothing has still to be sent. -/
theorem Inv.sent_of_vacant (h : s.Inv controllers sent pending k) (hvacant : s.Vacant) {msg : Msg}
    (hmsg : pending = some msg) : ¬ k < controllers := by
  rcases hvacant with hflag | hclear
  · rw [h.pending_eq_none hflag] at hmsg
    cases hmsg
  · have hsending := h.sending
    rw [hclear] at hsending
    rw [hsending.1]
    exact Nat.lt_irrefl _

/-! ### A statement of `broadcast` -/

/-- A field is written. -/
theorem Inv.write (h : s.Inv controllers sent pending k) {msgTemp : Msg} {call : CallPc}
    (hfield : s.Vacant ∨ msgTemp = s.msgTemp) (hwritten : Written msgTemp call) :
    Inv controllers { s with msgTemp := msgTemp, call := call } sent pending k := by
  refine ⟨⟨h.accounts.posted, h.accounts.datagrams, h.accounts.flag, fun msg hmsg hk => ?_⟩,
    h.waiting, h.sending, hwritten⟩
  rcases hfield with hvacant | hsame
  · exact absurd hk (h.sent_of_vacant hvacant hmsg)
  · rw [hsame]
    exact h.accounts.intact msg hmsg hk

/-- The message that has been written becomes the pending one. -/
theorem Inv.setFlag (h : s.Inv controllers sent pending k) {msg : Msg} (hcall : s.call = .setFlag msg)
    (hflag : s.newBcastMessage = false) :
    Inv controllers { s with newBcastMessage := true, call := .idle, posted := s.posted ++ [msg] }
      sent (some msg) 0 := by
  obtain rfl := h.pending_eq_none hflag
  have hwritten : s.msgTemp = msg := by
    have := h.written
    rw [hcall] at this
    exact this
  refine ⟨⟨?_, ?_, fun _ => rfl, fun m hm _ => ?_⟩, fun _ => by simp, ?_, trivial⟩
  · show s.posted ++ [msg] = sent ++ [msg]
    rw [h.accounts.posted]
    simp
  · show s.datagrams = _
    rw [h.accounts.datagrams]
    simp
  · rw [← Option.some.inj hm]
    exact hwritten
  -- with no message pending `broadcast_loop` is not in `do_bcast`
  · have hsending := h.sending
    show Sending controllers (some msg) 0 s.loop
    cases hloop : s.loop <;> rw [hloop] at hsending <;> simp_all [Sending]

theorem Inv.post (h : s.Inv controllers sent pending k) (hsafe : s.PostsSafely s.call)
    (hstep : s.post = some s') : ∃ pending k, s'.Inv controllers sent pending k := by
  have hwritten := h.written
  rw [Bcast.post] at hstep
  cases hcall : s.call with
  | idle =>
      rw [hcall] at hstep
      cases hstep
  | setType msg =>
      rw [hcall] at hstep hsafe
      obtain rfl := Option.some.inj hstep
      refine ⟨pending, k, h.write (hsafe.imp_right fun heq => ?_) rfl⟩
      rw [← heq]
  | setPayload msg =>
      rw [hcall] at hstep hsafe hwritten
      obtain rfl := Option.some.inj hstep
      refine ⟨pending, k, h.write (hsafe.imp_right fun heq => ?_) ⟨hwritten, rfl⟩⟩
      rw [← heq]
  | setSize msg =>
      rw [hcall] at hstep hsafe hwritten
      obtain rfl := Option.some.inj hstep
      refine ⟨pending, k, h.write (hsafe.imp_right fun heq => ?_) ?_⟩
      · rw [← heq]
      · show (⟨s.msgTemp.type, msg.size, s.msgTemp.payload⟩ : Msg) = msg
        rw [hwritten.1, hwritten.2]
  | setFlag msg =>
      rw [hcall] at hstep hsafe
      obtain rfl := Option.some.inj hstep
      exact ⟨some msg, 0, h.setFlag hcall hsafe⟩

/-! ### A statement of `broadcast_loop` -/

theorem take_toAll (controllers : ℕ) (msg : Msg) : (toAll controllers msg).take controllers =
    toAll controllers msg := by
  apply List.take_of_length_le
  simp [toAll]

theorem take_succ_toAll {controllers index : ℕ} (h : index < controllers) (msg : Msg) :
    (toAll controllers msg).take (index + 1) = (toAll controllers msg).take index ++ [(index, msg)] := by
  rw [List.take_add_one]
  simp [toAll, h]

/-- `broadcast_loop` goes on. -/
theorem Inv.goOn (h : s.Inv controllers sent pending k) {loop : LoopPc}
    (hsending : Sending controllers pending k loop) :
    Inv controllers { s with loop := loop } sent pending k :=
  ⟨⟨h.accounts.posted, h.accounts.datagrams, h.accounts.flag, h.accounts.intact⟩, h.waiting,
    hsending, h.written⟩

theorem sending_sendFrom {index : ℕ} (hindex : index ≤ controllers) (hpending : pending ≠ none) :
    Sending controllers pending index (sendFrom controllers index) := by
  rw [sendFrom]
  split
  next hlt => exact ⟨rfl, hlt, hpending⟩
  next hge => exact ⟨Nat.le_antisymm hindex (Nat.le_of_not_lt hge), hpending⟩

/-- The next controller gets the pending message. -/
theorem Inv.sendto (h : s.Inv controllers sent pending k) {index : ℕ} {type : ℤ} {size : ℕ}
    (hloop : s.loop = .sendPayload index type size) :
    Inv controllers { s with
      datagrams := s.datagrams ++ [(index, ⟨type, size, s.msgTemp.payload⟩)]
      loop := sendFrom controllers (index + 1) } sent pending (index + 1) := by
  have hsending := h.sending
  rw [hloop] at hsending
  obtain ⟨rfl, hindex, msg, rfl, rfl, rfl⟩ := hsending
  -- all three fields are those of the pending message
  have hintact : s.msgTemp = msg := h.accounts.intact msg rfl hindex
  refine ⟨⟨h.accounts.posted, ?_, h.accounts.flag, fun m hm _ => h.accounts.intact m hm hindex⟩,
    h.waiting, sending_sendFrom hindex (by simp), h.written⟩
  show s.datagrams ++ [(k, ⟨msg.type, msg.size, s.msgTemp.payload⟩)] = _
  rw [hintact, h.accounts.datagrams, List.append_assoc]
  simp [take_succ_toAll hindex]

/-- The pending message has been sent to all. -/
theorem Inv.clear (h : s.Inv controllers sent pending k) (hloop : s.loop = .clear) :
    Inv controllers { s with newBcastMessage := false, loop := .sample }
      (sent ++ pending.toList) none 0 := by
  have hsending := h.sending
  rw [hloop] at hsending
  obtain ⟨rfl, hpending⟩ := hsending
  obtain ⟨msg, rfl⟩ := Option.ne_none_iff_exists'.mp hpending
  refine ⟨⟨?_, ?_, fun hne => absurd rfl hne, nofun⟩, nofun, rfl, h.written⟩
  · show s.posted = (sent ++ [msg]) ++ []
    rw [List.append_nil]
    exact h.accounts.posted
  · show s.datagrams = _
    rw [h.accounts.datagrams]
    simp [take_toAll]

theorem Inv.loopStep (h : s.Inv controllers sent pending k) (hstep : s.loopStep = some s') :
    ∃ sent pending k, s'.Inv controllers sent pending k := by
  have hsending := h.sending
  rw [Bcast.loopStep] at hstep
  cases hloop : s.loop with
  | sample =>
      rw [hloop] at hstep hsending
      obtain rfl := Option.some.inj hstep
      exact ⟨sent, pending, k, h.goOn ⟨hsending, h.waiting⟩⟩
  | select my =>
      rw [hloop] at hstep
      cases hstep
  | sendType index =>
      rw [hloop] at hstep hsending
      obtain rfl := Option.some.inj hstep
      obtain ⟨rfl, hindex, hpending⟩ := hsending
      obtain ⟨msg, rfl⟩ := Option.ne_none_iff_exists'.mp hpending
      have hintact : s.msgTemp = msg := h.accounts.intact msg rfl hindex
      exact ⟨sent, some msg, k, h.goOn ⟨rfl, hindex, msg, rfl, by rw [hintact]⟩⟩
  | sendSize index type =>
      rw [hloop] at hstep hsending
      obtain rfl := Option.some.inj hstep
      obtain ⟨rfl, hindex, msg, rfl, htype⟩ := hsending
      have hintact : s.msgTemp = msg := h.accounts.intact msg rfl hindex
      exact ⟨sent, some msg, k, h.goOn ⟨rfl, hindex, msg, rfl, htype, by rw [hintact]⟩⟩
  | sendPayload index type size =>
      rw [hloop] at hstep
      cases hstep
  | clear =>
      rw [hloop] at hstep
      obtain rfl := Option.some.inj hstep
      exact ⟨_, none, 0, h.clear hloop⟩

/-! ### Every interleaving -/

theorem inv_step {l : Label} (h : ∃ sent pending k, s.Inv controllers sent pending k)
    (hl : s.Undisturbed l) (hstep : s.step controllers l = some s') :
    ∃ sent pending k, s'.Inv controllers sent pending k := by
  obtain ⟨sent, pending, k, h⟩ := h
  have hsending := h.sending
  cases l with
  | call msg =>
      simp only [step, Option.ite_none_right_eq_some, Option.some.injEq] at hstep
      obtain ⟨-, rfl⟩ := hstep
      exact ⟨sent, pending, k, h.write (.inr rfl) trivial⟩
  | post => exact ⟨sent, h.post hl hstep⟩
  | timeout =>
      rw [step] at hstep
      split at hstep
      next my hloop =>
          obtain rfl := Option.some.inj hstep
          rw [hloop] at hsending
          obtain ⟨rfl, hpending⟩ := hsending
          refine ⟨sent, pending, 0, h.goOn ?_⟩
          cases my with
          | false => exact rfl
          | true => exact sending_sendFrom (Nat.zero_le _) (hpending rfl)
      next => cases hstep
  | receive =>
      rw [step] at hstep
      split at hstep
      next my hloop =>
          obtain rfl := Option.some.inj hstep
          rw [hloop] at hsending
          exact ⟨sent, pending, k, h.goOn hsending.1⟩
      next => cases hstep
  | sendto ok =>
      obtain rfl : ok = true := hl
      rw [step] at hstep
      split at hstep
      next index type size hloop =>
          obtain rfl := Option.some.inj hstep
          exact ⟨sent, pending, index + 1, h.sendto hloop⟩
      next => cases hstep
  | loop => exact h.loopStep hstep

/-- **Broadcast without loss.**  As long as `broadcast` leaves a waiting
message alone and no `sendto` fails, every message is pending or has been
sent. -/
theorem along_lossless (controllers : ℕ) (ls : List Label)
    (h : AllSteps (step controllers) Undisturbed initial ls) :
    Along (step controllers) (Lossless controllers) initial ls := by
  have hinv := along_of_allSteps (fun _ _ _ hs hl hstep => inv_step hs hl hstep)
    ⟨[], none, 0, initial_inv⟩ h
  exact hinv.mono fun s ⟨sent, pending, k, hs⟩ => ⟨sent, pending, k, hs.accounts⟩

/-- The proposal of the controller at 10.0.0.1. -/
def proposal : Msg := ⟨leaderPropose, 8, 16777226⟩

/-- The second proposal is passed to `broadcast` while the first one is in its
last datagram, and posted when that one has been cleared. -/
def later : List Label :=
  [.call proposal, .post, .post, .post, .post, .loop, .timeout, .loop, .loop, .sendto true, .loop,
    .call proposal, .post, .post, .post, .loop, .sendto true, .loop, .post, .loop, .timeout]

theorem along_lossless_later : Along (step 2) (Lossless 2) initial later :=
  along_lossless 2 later (by decide)

/-- The second proposal is posted while the first one is sent. -/
def sooner : List Label :=
  [.call proposal, .post, .post, .post, .post, .loop, .timeout, .loop, .loop, .sendto true,
    .call proposal, .post, .post, .post, .post, .loop, .loop, .sendto true, .loop]

/-- It is cleared with the first one. -/
theorem cleared_unsent : ¬ Along (step 2) (Lossless 2) initial sooner := by
  intro hall
  obtain ⟨s, hs, hflag, hposted, hdatagrams⟩ : ∃ s, run (step 2) initial sooner = some s ∧
      s.newBcastMessage = false ∧ s.posted = [proposal, proposal] ∧
      s.datagrams = [(0, proposal), (1, proposal)] :=
    ⟨_, rfl, rfl, rfl, rfl⟩
  obtain ⟨sent, pending, k, haccounts⟩ := hall.last hs
  have hpending : pending = none := by
    by_contra hne
    rw [haccounts.flag hne] at hflag
    cases hflag
  subst hpending
  have hsent : [proposal, proposal] = sent := by
    rw [← hposted, haccounts.posted]
    exact List.append_nil sent
  have hlength := congrArg List.length haccounts.datagrams
  rw [hdatagrams, ← hsent] at hlength
  simp [toAll] at hlength

end Bcast

end A2PM.Broadcast
