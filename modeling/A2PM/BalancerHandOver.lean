/-
A2PM/BalancerHandOver.lean

How `controller/balancer.c` hands an accepted connection over to a new
`deal_with_data` thread: through `vm_client`, a variable in the stack frame
of `main`, under `mutex`.  `main` locks it, and the new thread unlocks it when
it has copied `vm_client` and has its socket to a VM; if there is no new
thread `main` unlocks it itself.

Threads are interleaved statement by statement, and the three fields of
`vm_client` are written and copied one by one.  If `accept`, `socket()` or
`connect()` fails the process exits, and the run is over.

From `main`'s lock to the unlock there is one thread at work (`Phase`), and
everything else follows (`safe_of_reachable`).
-/
import A2PM.Transition
import Mathlib.Algebra.Group.Int.Defs
import Mathlib.Data.List.Basic
import Mathlib.Logic.Function.Basic

namespace A2PM.Balancer

open Transition

/-! ### Data -/

/-- `struct arg_thread`; also what `accept` returns about a connection. -/
@[ext] structure ArgThread where
  socket : ℤ
  ipAddress : String
  port : ℕ
  deriving DecidableEq, Inhabited

/-- Where the accept loop of `main` is. -/
inductive MainPc
  /-- `accept`. -/
  | accept
  /-- `pthread_mutex_lock(&mutex)`. -/
  | lock
  | setSocket | setIp | setPort
  /-- `res_thread = create_thread(deal_with_data, &vm_client)`. -/
  | createThread
  /-- `pthread_mutex_unlock(&mutex)`, if no thread has been created. -/
  | unlock
  deriving DecidableEq

/-- Where a `deal_with_data` thread is. -/
inductive ThreadPc
  /-- `arg = *(struct arg_thread *)sockptr`, field by field. -/
  | copySocket | copyIp | copyPort
  /-- `da_socket = socket(..)`. -/
  | openSocket
  /-- `check_already_connected(ip_client)`. -/
  | choose
  /-- `connect(da_socket, ..)`. -/
  | connect
  /-- `setnonblocking(da_socket)`. -/
  | setNonblocking
  /-- `return da_socket`. -/
  | readSocket
  /-- `pthread_mutex_unlock(&mutex)`. -/
  | unlock
  /-- The loop of `deal_with_data`. -/
  | relay
  /-- The thread has closed its sockets. -/
  | closed
  deriving DecidableEq, Inhabited

/-- The number of statements behind the thread. -/
def ThreadPc.done : ThreadPc → ℕ
  | copySocket => 0
  | copyIp => 1
  | copyPort => 2
  | openSocket => 3
  | choose => 4
  | connect => 5
  | setNonblocking => 6
  | readSocket => 7
  | unlock => 8
  | relay => 9
  | closed => 10

/-- A `deal_with_data` thread. -/
structure Thread where
  pc : ThreadPc
  arg : ArgThread
  vmSocket : ℤ
  /-- The accepted connection that it has been created for. -/
  connection : ℕ
  /-- What its call of `socket()` returned. -/
  opened : ℤ
  /-- The socket that it called `connect` on. -/
  connected : ℤ
  deriving Inhabited

structure HandOver where
  pc : MainPc
  /-- `connection` and `client`: what the last `accept` returned. -/
  client : ArgThread
  vmClient : ArgThread
  mutex : Bool
  daSocket : ℤ
  threads : ℕ → Thread
  /-- Number of threads created so far. -/
  created : ℕ
  /-- All that `accept` has returned. -/
  accepted : List ArgThread
  /-- Number of connections that `main` has passed on or given up. -/
  handled : ℕ
  /-- The routing decisions: the connection and the client's address. -/
  routed : List (ℕ × String)

namespace HandOver

/-! ### Steps -/

/-- The state before the accept loop; the memory may contain anything. -/
def initial (client vmClient : ArgThread) (threads : ℕ → Thread) : HandOver where
  pc := .accept
  client := client
  vmClient := vmClient
  mutex := false
  daSocket := -1
  threads := threads
  created := 0
  accepted := []
  handled := 0
  routed := []

inductive Label
  /-- `accept` returns a connection. -/
  | accept (client : ArgThread)
  /-- `main` executes its next statement; `ok`: `create_thread` returns 0. -/
  | main (ok : Bool)
  /-- Thread `n` executes its next statement; `fd`: what `socket()` returns. -/
  | run (n : ℕ) (fd : ℤ)

/-- `main` after its `accept`. -/
def mainStep (s : HandOver) (ok : Bool) : Option HandOver :=
  match s.pc with
  | .accept => none
  | .lock => if s.mutex then none else some { s with mutex := true, pc := .setSocket }
  | .setSocket => some { s with vmClient.socket := s.client.socket, pc := .setIp }
  | .setIp => some { s with vmClient.ipAddress := s.client.ipAddress, pc := .setPort }
  | .setPort => some { s with vmClient.port := s.client.port, pc := .createThread }
  | .createThread =>
      if ok then
        -- the new thread gets the address of `vm_client`, not a copy
        some { s with
          threads := Function.update s.threads s.created
            { s.threads s.created with pc := .copySocket, connection := s.handled }
          created := s.created + 1
          handled := s.handled + 1
          pc := .accept }
      else some { s with pc := .unlock }
  | .unlock => some { s with mutex := false, handled := s.handled + 1, pc := .accept }

/-- The shared variables and thread `t` after its next statement. -/
def threadStep (s : HandOver) (t : Thread) (fd : ℤ) : Option (HandOver × Thread) :=
  match t.pc with
  | .copySocket => some (s, { t with arg.socket := s.vmClient.socket, pc := .copyIp })
  | .copyIp => some (s, { t with arg.ipAddress := s.vmClient.ipAddress, pc := .copyPort })
  | .copyPort => some (s, { t with arg.port := s.vmClient.port, pc := .openSocket })
  | .openSocket => some ({ s with daSocket := fd }, { t with opened := fd, pc := .choose })
  | .choose =>
      some ({ s with routed := s.routed ++ [(t.connection, t.arg.ipAddress)] },
        { t with pc := .connect })
  | .connect => some (s, { t with connected := s.daSocket, pc := .setNonblocking })
  | .setNonblocking => some (s, { t with pc := .readSocket })
  | .readSocket => some (s, { t with vmSocket := s.daSocket, pc := .unlock })
  | .unlock => some ({ s with mutex := false }, { t with pc := .relay })
  | .relay => some (s, { t with pc := .closed })
  | .closed => none

def step (s : HandOver) : Label → Option HandOver
  | .accept client =>
      if s.pc = .accept then
        some { s with client := client, accepted := s.accepted ++ [client], pc := .lock }
      else none
  | .main ok => s.mainStep ok
  | .run n fd =>
      if n < s.created then
        (s.threadStep (s.threads n) fd).map fun r =>
          { r.1 with threads := Function.update s.threads n r.2 }
      else none

/-! ### The property -/

/-- **Connection hand-over.** -/
structure Safe (s : HandOver) : Prop where
  /-- A thread has the data of the connection that it has been created for. -/
  own : ∀ n, n < s.created → ∃ c, s.accepted[(s.threads n).connection]? = some c ∧
    (3 ≤ (s.threads n).pc.done → (s.threads n).arg = c)
  /-- No connection is given to two threads. -/
  once : ∀ m n, m < s.created → n < s.created →
    (s.threads m).connection = (s.threads n).connection → m = n
  /-- `vm_client` is not overwritten before it has been copied. -/
  intact : ∀ n, n < s.created → (s.threads n).pc.done < 3 →
    s.accepted[(s.threads n).connection]? = some s.vmClient
  /-- The thread connects and relays on the socket that it has opened. -/
  socket : ∀ n, n < s.created →
    (6 ≤ (s.threads n).pc.done → (s.threads n).connected = (s.threads n).opened) ∧
      (8 ≤ (s.threads n).pc.done → (s.threads n).vmSocket = (s.threads n).opened)
  /-- One routing decision at a time. -/
  oneAtATime : ∀ m n, m < s.created → n < s.created → (s.threads m).pc.done < 9 →
    (s.threads n).pc.done < 9 → m = n
  /-- The decisions are made in the order of acceptance, each for the client
  that has been accepted. -/
  inOrder : s.routed.Pairwise fun a b => a.1 < b.1
  routed : ∀ r ∈ s.routed, ∃ c, s.accepted[r.1]? = some c ∧ r.2 = c.ipAddress

/-! ### The invariant -/

/-- What is true of a thread whoever holds `mutex`. -/
structure Known (s : HandOver) (t : Thread) (c : ArgThread) : Prop where
  connection : s.accepted[t.connection]? = some c
  handled : t.connection < s.handled
  socket : 1 ≤ t.pc.done → t.arg.socket = c.socket
  ipAddress : 2 ≤ t.pc.done → t.arg.ipAddress = c.ipAddress
  port : 3 ≤ t.pc.done → t.arg.port = c.port
  connected : 6 ≤ t.pc.done → t.connected = t.opened
  vmSocket : 8 ≤ t.pc.done → t.vmSocket = t.opened

/-- What is true of the thread that is to unlock `mutex`. -/
structure Working (s : HandOver) (t : Thread) : Prop where
  done : t.pc.done < 9
  intact : t.pc.done < 3 → s.accepted[t.connection]? = some s.vmClient
  daSocket : 4 ≤ t.pc.done → s.daSocket = t.opened
  next : t.pc.done < 5 → ∀ r ∈ s.routed, r.1 < t.connection

/-- Every thread has unlocked `mutex`, but for those in `p`. -/
def Left (s : HandOver) (p : ℕ → Prop) : Prop :=
  ∀ n, n < s.created → ¬ p n → 9 ≤ (s.threads n).pc.done

/-- Who is to unlock `mutex`. -/
inductive Phase (s : HandOver) : Prop
  | free (hmutex : s.mutex = false) (hpc : s.pc = .accept ∨ s.pc = .lock)
      (hleft : s.Left fun _ => False)
  | main (hmutex : s.mutex = true) (hpc : s.pc ≠ .accept ∧ s.pc ≠ .lock)
      (hleft : s.Left fun _ => False)
      (hsocket : s.pc ≠ .setSocket → s.vmClient.socket = s.client.socket)
      (hip : s.pc ≠ .setSocket → s.pc ≠ .setIp → s.vmClient.ipAddress = s.client.ipAddress)
      (hport : s.pc = .createThread → s.vmClient.port = s.client.port)
  | thread (n : ℕ) (hn : n < s.created) (hmutex : s.mutex = true)
      (hpc : s.pc = .accept ∨ s.pc = .lock) (hleft : s.Left (· = n))
      (hworking : s.Working (s.threads n))

structure Inv (s : HandOver) : Prop where
  /-- `main` holds at most one connection. -/
  length : s.accepted.length = s.handled + if s.pc = .accept then 0 else 1
  client : s.pc ≠ .accept → s.accepted[s.handled]? = some s.client
  known : ∀ n, n < s.created → ∃ c, s.Known (s.threads n) c
  order : ∀ m n, m < n → n < s.created → (s.threads m).connection < (s.threads n).connection
  inOrder : s.routed.Pairwise fun a b => a.1 < b.1
  routed : ∀ r ∈ s.routed, r.1 < s.handled ∧ ∃ c, s.accepted[r.1]? = some c ∧ r.2 = c.ipAddress
  phase : s.Phase

variable {s s' s₁ : HandOver} {t t' : Thread} {c : ArgThread} {n : ℕ} {fd : ℤ}

theorem initial_inv (client vmClient : ArgThread) (threads : ℕ → Thread) :
    (initial client vmClient threads).Inv where
  length := rfl
  client := fun h => absurd rfl h
  known := fun n hn => absurd hn (Nat.not_lt_zero n)
  order := fun _ n _ hn => absurd hn (Nat.not_lt_zero n)
  inOrder := List.Pairwise.nil
  routed := fun _ hr => absurd hr List.not_mem_nil
  phase := .free rfl (.inl rfl) fun n hn => absurd hn (Nat.not_lt_zero n)

/-- What has been accepted stays in its place. -/
theorem getElem?_of_prefix {l l' : List ArgThread} (h : l <+: l') {k : ℕ} (hk : l[k]? = some c) :
    l'[k]? = some c := by
  obtain ⟨rest, rfl⟩ := h
  rw [List.getElem?_append_left (List.getElem?_eq_some_iff.mp hk).1]
  exact hk

theorem Known.mono (h : s.Known t c) (haccepted : s.accepted <+: s'.accepted)
    (hhandled : s.handled ≤ s'.handled) : s'.Known t c where
  connection := getElem?_of_prefix haccepted h.connection
  handled := Nat.lt_of_lt_of_le h.handled hhandled
  socket := h.socket
  ipAddress := h.ipAddress
  port := h.port
  connected := h.connected
  vmSocket := h.vmSocket

theorem Working.mono (h : s.Working t) (haccepted : s.accepted <+: s'.accepted)
    (hvmClient : s'.vmClient = s.vmClient) (hdaSocket : s'.daSocket = s.daSocket)
    (hrouted : s'.routed = s.routed) : s'.Working t where
  done := h.done
  intact := by
    intro hdone
    rw [hvmClient]
    exact getElem?_of_prefix haccepted (h.intact hdone)
  daSocket := by
    rw [hdaSocket]
    exact h.daSocket
  next := by
    rw [hrouted]
    exact h.next

/-! ### A step of a thread -/

/-- A thread leaves to `main` what is `main`'s. -/
theorem threadStep_frame (h : s.threadStep t fd = some (s₁, t')) :
    s₁ = { s with mutex := s₁.mutex, daSocket := s₁.daSocket, routed := s₁.routed } ∧
      t'.connection = t.connection ∧ t'.pc.done = t.pc.done + 1 := by
  rw [threadStep] at h
  cases hpc : t.pc <;> rw [hpc] at h
  case closed => cases h
  all_goals
    obtain ⟨rfl, rfl⟩ := Prod.mk.inj (Option.some.inj h)
    exact ⟨rfl, rfl, rfl⟩

/-- What the thread copies is its connection's, and the socket that it uses is
its own. -/
theorem Known.threadStep (hk : s.Known t c) (hw : s.Working t)
    (h : s.threadStep t fd = some (s₁, t')) : s₁.Known t' c := by
  have hvm : t.pc.done < 3 → s.vmClient = c := fun hdone =>
    Option.some.inj ((hw.intact hdone).symm.trans hk.connection)
  obtain ⟨hconnection, hhandled, hsocket, hip, hport, hconnected, hvmSocket⟩ := hk
  have hda := hw.daSocket
  rw [HandOver.threadStep] at h
  cases hpc : t.pc <;> rw [hpc] at h hvm hsocket hip hport hconnected hvmSocket hda
  case closed => cases h
  -- a copied field is that of `vm_client`, `hvm`; a socket is `da_socket`, `hda`
  all_goals
    obtain ⟨rfl, rfl⟩ := Prod.mk.inj (Option.some.inj h)
    constructor <;> simp_all [ThreadPc.done]

/-- The thread works on, with `mutex` locked. -/
theorem Working.threadStep (hw : s.Working t) (h : s.threadStep t fd = some (s₁, t'))
    (hpc : t.pc ≠ .unlock) : s₁.Working t' ∧ s₁.mutex = s.mutex := by
  obtain ⟨hdone, hintact, hda, hnext⟩ := hw
  rw [HandOver.threadStep] at h
  cases ht : t.pc <;> rw [ht] at h hpc hdone hintact hda hnext
  case unlock => exact absurd rfl hpc
  case relay => exact absurd hdone (by decide)
  case closed => cases h
  all_goals
    obtain ⟨rfl, rfl⟩ := Prod.mk.inj (Option.some.inj h)
    refine ⟨?_, rfl⟩
    constructor <;> simp_all [ThreadPc.done, -Prod.forall]

/-- The routing decision of the thread comes after those made so far. -/
theorem Inv.routed_threadStep (h : s.Inv) (hk : s.Known t c) (hw : s.Working t)
    (hstep : s.threadStep t fd = some (s₁, t')) :
    s₁.routed.Pairwise (fun a b => a.1 < b.1) ∧
      ∀ r ∈ s₁.routed, r.1 < s.handled ∧ ∃ c, s.accepted[r.1]? = some c ∧ r.2 = c.ipAddress := by
  by_cases hpc : t.pc = .choose
  · rw [HandOver.threadStep, hpc] at hstep
    obtain ⟨rfl, rfl⟩ := Prod.mk.inj (Option.some.inj hstep)
    constructor
    · show (s.routed ++ [(t.connection, t.arg.ipAddress)]).Pairwise _
      rw [List.pairwise_append]
      refine ⟨h.inOrder, List.pairwise_singleton _ _, fun a ha b hb => ?_⟩
      obtain rfl := List.mem_singleton.mp hb
      exact hw.next (by rw [hpc]; decide) a ha
    · intro r hr
      rcases List.mem_append.mp hr with hr | hr
      · exact h.routed r hr
      · obtain rfl := List.mem_singleton.mp hr
        exact ⟨hk.handled, c, hk.connection, hk.ipAddress (by rw [hpc]; decide)⟩
  · have hrouted : s₁.routed = s.routed := by
      rw [HandOver.threadStep] at hstep
      cases ht : t.pc <;> rw [ht] at hstep hpc
      case choose => exact absurd rfl hpc
      case closed => cases hstep
      all_goals
        obtain ⟨rfl, -⟩ := Prod.mk.inj (Option.some.inj hstep)
        rfl
    rw [hrouted]
    exact ⟨h.inOrder, h.routed⟩

/-- The state after a step of thread `n`. -/
theorem Inv.update (h : s.Inv) (hn : n < s.created)
    (hframe : s₁ = { s with mutex := s₁.mutex, daSocket := s₁.daSocket, routed := s₁.routed })
    (hconnection : t'.connection = (s.threads n).connection)
    (hknown : ∃ c, s₁.Known t' c) (hinOrder : s₁.routed.Pairwise fun a b => a.1 < b.1)
    (hrouted : ∀ r ∈ s₁.routed,
      r.1 < s.handled ∧ ∃ c, s.accepted[r.1]? = some c ∧ r.2 = c.ipAddress)
    (hphase : Phase { s₁ with threads := Function.update s.threads n t' }) :
    Inv { s₁ with threads := Function.update s.threads n t' } := by
  have hsame : ∀ m, (Function.update s.threads n t' m).connection = (s.threads m).connection := by
    intro m
    rcases eq_or_ne m n with rfl | hne
    · rw [Function.update_self, hconnection]
    · rw [Function.update_of_ne hne]
  rw [hframe] at hknown hphase ⊢
  refine ⟨h.length, h.client, fun m hm => ?_, fun a b hab hb => ?_, hinOrder, hrouted, hphase⟩
  · show ∃ c, Known _ (Function.update s.threads n t' m) c
    rcases eq_or_ne m n with rfl | hne
    · rw [Function.update_self]
      exact hknown.imp fun c hc => hc.mono List.prefix_rfl (Nat.le_refl _)
    · rw [Function.update_of_ne hne]
      exact (h.known m hm).imp fun c hc => hc.mono List.prefix_rfl (Nat.le_refl _)
  · show (Function.update s.threads n t' a).connection < (Function.update s.threads n t' b).connection
    rw [hsame, hsame]
    exact h.order a b hab hb

/-- A thread that has not unlocked `mutex` is the one that is to unlock it. -/
theorem Phase.eq_thread (h : s.Phase) (hn : n < s.created) (hdone : (s.threads n).pc.done < 9) :
    s.mutex = true ∧ (s.pc = .accept ∨ s.pc = .lock) ∧ s.Left (· = n) ∧
      s.Working (s.threads n) := by
  have hnot : ¬ 9 ≤ (s.threads n).pc.done := Nat.not_le_of_lt hdone
  cases h with
  | free hmutex hpc hleft => exact absurd (hleft n hn not_false) hnot
  | main hmutex hpc hleft hsocket hip hport => exact absurd (hleft n hn not_false) hnot
  | thread m hm hmutex hpc hleft hworking =>
      by_cases hnm : n = m
      · subst hnm
        exact ⟨hmutex, hpc, hleft, hworking⟩
      · exact absurd (hleft n hn hnm) hnot

/-- Between its lock and the unlock there is only `main`. -/
theorem Phase.eq_main (h : s.Phase) (hpc : s.pc ≠ .accept ∧ s.pc ≠ .lock) :
    s.mutex = true ∧ s.Left (fun _ => False) ∧
      (s.pc ≠ .setSocket → s.vmClient.socket = s.client.socket) ∧
      (s.pc ≠ .setSocket → s.pc ≠ .setIp → s.vmClient.ipAddress = s.client.ipAddress) ∧
      (s.pc = .createThread → s.vmClient.port = s.client.port) := by
  cases h with
  | free hmutex hfree hleft => exact absurd hfree (not_or.mpr hpc)
  | main hmutex hmain hleft hsocket hip hport => exact ⟨hmutex, hleft, hsocket, hip, hport⟩
  | thread n hn hmutex hthread hleft hworking => exact absurd hthread (not_or.mpr hpc)

/-- The threads that have unlocked `mutex` matter no more. -/
theorem Left.update {p : ℕ → Prop} (h : s.Left p) {q : ℕ → Prop}
    (hq : ∀ m, ¬ q m → m ≠ n → ¬ p m) (hn : ¬ q n → 9 ≤ t'.pc.done) :
    Left { s with threads := Function.update s.threads n t' } q := by
  intro m hm hqm
  show 9 ≤ (Function.update s.threads n t' m).pc.done
  rcases eq_or_ne m n with rfl | hne
  · rw [Function.update_self]
    exact hn hqm
  · rw [Function.update_of_ne hne]
    exact h m hm (hq m hqm hne)

theorem Phase.update (h : s.Phase) (hn : 9 ≤ (s.threads n).pc.done) (ht : 9 ≤ t'.pc.done) :
    Phase { s with threads := Function.update s.threads n t' } := by
  cases h with
  | free hmutex hpc hleft =>
      exact .free hmutex hpc (hleft.update (fun _ hp _ => hp) fun _ => ht)
  | main hmutex hpc hleft hsocket hip hport =>
      exact .main hmutex hpc (hleft.update (fun _ hp _ => hp) fun _ => ht) hsocket hip hport
  | thread m hm hmutex hpc hleft hworking =>
      have hne : m ≠ n := by
        rintro rfl
        exact absurd hworking.done (Nat.not_lt_of_le hn)
      refine .thread m hm hmutex hpc (hleft.update (fun _ hp _ => hp) fun _ => ht) ?_
      show Working _ (Function.update s.threads n t' m)
      rw [Function.update_of_ne hne]
      exact hworking.mono List.prefix_rfl rfl rfl rfl

/-- A step of a thread. -/
theorem Inv.run (h : s.Inv) (hn : n < s.created)
    (hstep : s.threadStep (s.threads n) fd = some (s₁, t')) :
    Inv { s₁ with threads := Function.update s.threads n t' } := by
  obtain ⟨hframe, hconnection, hdone⟩ := threadStep_frame hstep
  obtain ⟨c, hknown⟩ := h.known n hn
  by_cases hleft : 9 ≤ (s.threads n).pc.done
  · -- the thread only closes its sockets
    cases ht : (s.threads n).pc <;> rw [ht] at hleft
    case relay =>
      rw [HandOver.threadStep, ht] at hstep
      obtain ⟨rfl, rfl⟩ := Prod.mk.inj (Option.some.inj hstep)
      have hclosed : 9 ≤ ThreadPc.closed.done := by decide
      exact h.update hn hframe hconnection
        ⟨c, hknown.connection, hknown.handled, fun _ => hknown.socket (by rw [ht]; decide),
          fun _ => hknown.ipAddress (by rw [ht]; decide), fun _ => hknown.port (by rw [ht]; decide),
          fun _ => hknown.connected (by rw [ht]; decide),
          fun _ => hknown.vmSocket (by rw [ht]; decide)⟩
        h.inOrder h.routed (h.phase.update (by rw [ht]; exact hleft) hclosed)
    case closed =>
      rw [HandOver.threadStep, ht] at hstep
      cases hstep
    all_goals exact absurd hleft (by decide)
  · obtain ⟨hmutex, hpc, hothers, hworking⟩ := h.phase.eq_thread hn (Nat.lt_of_not_le hleft)
    obtain ⟨hinOrder, hrouted⟩ := h.routed_threadStep hknown hworking hstep
    refine h.update hn hframe hconnection ⟨c, hknown.threadStep hworking hstep⟩ hinOrder hrouted ?_
    -- its last statement under `mutex` unlocks it
    by_cases hunlock : (s.threads n).pc = .unlock
    · rw [HandOver.threadStep, hunlock] at hstep
      obtain ⟨rfl, rfl⟩ := Prod.mk.inj (Option.some.inj hstep)
      refine .free rfl hpc (hothers.update (fun m _ hne => hne) fun _ => ?_)
      exact (by decide : 9 ≤ ThreadPc.relay.done)
    · obtain ⟨hworking', hmutex'⟩ := hworking.threadStep hstep hunlock
      rw [hframe] at hworking' ⊢
      refine .thread n hn (hmutex'.trans hmutex) hpc
        (hothers.update (fun m _ hne => hne) fun h => absurd rfl h) ?_
      show Working _ (Function.update s.threads n t' n)
      rw [Function.update_self]
      exact hworking'.mono List.prefix_rfl rfl rfl rfl

/-! ### A step of `main` -/

theorem Inv.accept (h : s.Inv) (hpc : s.pc = .accept) (client : ArgThread) :
    Inv { s with client := client, accepted := s.accepted ++ [client], pc := .lock } := by
  have hprefix : s.accepted <+: s.accepted ++ [client] := List.prefix_append _ _
  have hlength : s.accepted.length = s.handled := by
    have := h.length
    rw [if_pos hpc] at this
    exact this
  refine ⟨?_, fun _ => ?_, fun n hn => ?_, h.order, h.inOrder, fun r hr => ?_, ?_⟩
  -- the new connection is the one that `main` has in its hands
  · show (s.accepted ++ [client]).length = s.handled + 1
    rw [List.length_append, hlength]
    rfl
  · show (s.accepted ++ [client])[s.handled]? = some client
    rw [← hlength]
    exact List.getElem?_concat_length
  · exact (h.known n hn).imp fun c hc => hc.mono hprefix (Nat.le_refl _)
  · obtain ⟨hhandled, c, hc, heq⟩ := h.routed r hr
    exact ⟨hhandled, c, getElem?_of_prefix hprefix hc, heq⟩
  · cases h.phase with
    | free hmutex _ hleft => exact .free hmutex (.inr rfl) hleft
    | main _ hmain _ _ _ _ => exact absurd hpc hmain.1
    | thread m hm hmutex _ hleft hworking =>
        exact .thread m hm hmutex (.inr rfl) hleft (hworking.mono hprefix rfl rfl rfl)

/-- `main` goes on with the connection that it has accepted. -/
theorem Inv.main (h : s.Inv) (hpc : s.pc ≠ .accept) {pc : MainPc} (hpc' : pc ≠ .accept)
    {mutex : Bool} {vmClient : ArgThread}
    (hphase : Phase { s with pc := pc, mutex := mutex, vmClient := vmClient }) :
    Inv { s with pc := pc, mutex := mutex, vmClient := vmClient } where
  length := by
    rw [if_neg hpc']
    have := h.length
    rw [if_neg hpc] at this
    exact this
  client := fun _ => h.client hpc
  known := fun n hn => (h.known n hn).imp fun c hc => hc.mono List.prefix_rfl (Nat.le_refl _)
  order := h.order
  inOrder := h.inOrder
  routed := h.routed
  phase := hphase

theorem Inv.length_handled (h : s.Inv) (hpc : s.pc ≠ .accept) :
    s.accepted.length = s.handled + 1 := by
  have := h.length
  rw [if_neg hpc] at this
  exact this

theorem Inv.routed_handled (h : s.Inv) (r : ℕ × String) (hr : r ∈ s.routed) :
    r.1 < s.handled + 1 ∧ ∃ c, s.accepted[r.1]? = some c ∧ r.2 = c.ipAddress :=
  ⟨Nat.lt_succ_of_lt (h.routed r hr).1, (h.routed r hr).2⟩

/-- `create_thread` has failed: the connection goes to no thread. -/
theorem Inv.giveUp (h : s.Inv) (hpc : s.pc = .unlock) :
    Inv { s with mutex := false, handled := s.handled + 1, pc := .accept } := by
  have hne : s.pc ≠ .accept := by
    rw [hpc]
    decide
  refine ⟨h.length_handled hne, fun hnot => absurd rfl hnot,
    fun n hn => (h.known n hn).imp fun c hc => hc.mono List.prefix_rfl (Nat.le_succ _),
    h.order, h.inOrder, h.routed_handled, ?_⟩
  obtain ⟨-, hleft, -⟩ := h.phase.eq_main (by rw [hpc]; decide)
  exact .free rfl (.inl rfl) hleft

/-- The new thread has the connection that `vm_client` is about. -/
theorem Inv.createThread (h : s.Inv) (hpc : s.pc = .createThread) :
    Inv { s with
      threads := Function.update s.threads s.created
        { s.threads s.created with pc := .copySocket, connection := s.handled }
      created := s.created + 1
      handled := s.handled + 1
      pc := .accept } := by
  have hne : s.pc ≠ .accept := by
    rw [hpc]
    decide
  have hold : ∀ m, m < s.created → Function.update s.threads s.created
      { s.threads s.created with pc := .copySocket, connection := s.handled } m = s.threads m :=
    fun m hm => Function.update_of_ne (Nat.ne_of_lt hm) _ _
  have hclient := h.client hne
  refine ⟨h.length_handled hne, fun hnot => absurd rfl hnot, fun m hm => ?_, fun a b hab hb => ?_,
    h.inOrder, h.routed_handled, ?_⟩
  · show ∃ c, Known _ (Function.update s.threads s.created _ m) c
    rcases Nat.lt_succ_iff_lt_or_eq.mp hm with hm | rfl
    · rw [hold m hm]
      exact (h.known m hm).imp fun c hc => hc.mono List.prefix_rfl (Nat.le_succ _)
    · rw [Function.update_self]
      exact ⟨s.client, hclient, Nat.lt_succ_self _, fun h => absurd h (by decide : ¬ 1 ≤ 0),
        fun h => absurd h (by decide : ¬ 2 ≤ 0), fun h => absurd h (by decide : ¬ 3 ≤ 0),
        fun h => absurd h (by decide : ¬ 6 ≤ 0), fun h => absurd h (by decide : ¬ 8 ≤ 0)⟩
  · show (Function.update s.threads s.created _ a).connection <
      (Function.update s.threads s.created _ b).connection
    rcases Nat.lt_succ_iff_lt_or_eq.mp hb with hb | rfl
    · rw [hold a (Nat.lt_trans hab hb), hold b hb]
      exact h.order a b hab hb
    · rw [hold a hab, Function.update_self]
      obtain ⟨c, hc⟩ := h.known a hab
      exact hc.handled
  · obtain ⟨hmutex, hleft, hsocket, hip, hport⟩ := h.phase.eq_main (by rw [hpc]; decide)
    have hvm : s.vmClient = s.client :=
      ArgThread.ext (hsocket (by rw [hpc]; decide))
        (hip (by rw [hpc]; decide) (by rw [hpc]; decide)) (hport hpc)
    refine .thread s.created (Nat.lt_succ_self _) hmutex (.inl rfl) (fun m hm hnot => ?_) ?_
    · show 9 ≤ (Function.update s.threads s.created _ m).pc.done
      rcases Nat.lt_succ_iff_lt_or_eq.mp hm with hm | rfl
      · rw [hold m hm]
        exact hleft m hm not_false
      · exact absurd rfl hnot
    · show Working _ (Function.update s.threads s.created _ s.created)
      rw [Function.update_self]
      refine ⟨(by decide : 0 < 9), fun _ => ?_, fun h => absurd h (by decide : ¬ 4 ≤ 0),
        fun _ r hr => (h.routed r hr).1⟩
      show s.accepted[s.handled]? = some s.vmClient
      rw [hvm]
      exact hclient

theorem Inv.mainStep (h : s.Inv) {ok : Bool} (hstep : s.mainStep ok = some s') : s'.Inv := by
  rw [HandOver.mainStep] at hstep
  cases hpc : s.pc with
  | accept =>
      rw [hpc] at hstep
      cases hstep
  | lock =>
      simp only [hpc, Option.ite_none_left_eq_some, Option.some.injEq] at hstep
      obtain ⟨hmutex, rfl⟩ := hstep
      refine h.main (by rw [hpc]; decide) (by decide) ?_
      -- `mutex` is free, so all threads have left
      cases h.phase with
      | free _ _ hleft =>
          exact .main rfl (by simp) hleft (fun h => absurd rfl h) (fun h => absurd rfl h)
            fun h => by cases h
      | main _ hmain _ _ _ _ => exact absurd hpc hmain.2
      | thread _ _ hlocked _ _ _ => exact absurd hlocked hmutex
  | setSocket =>
      rw [hpc] at hstep
      obtain rfl := Option.some.inj hstep
      obtain ⟨hmutex, hleft, -⟩ := h.phase.eq_main (by rw [hpc]; decide)
      refine h.main (by rw [hpc]; decide) (by decide) ?_
      exact .main hmutex (by simp) hleft (fun _ => rfl) (fun _ h => absurd rfl h)
        fun h => by cases h
  | setIp =>
      rw [hpc] at hstep
      obtain rfl := Option.some.inj hstep
      obtain ⟨hmutex, hleft, hsocket, -⟩ := h.phase.eq_main (by rw [hpc]; decide)
      refine h.main (by rw [hpc]; decide) (by decide) ?_
      exact .main hmutex (by simp) hleft (fun _ => hsocket (by rw [hpc]; decide)) (fun _ _ => rfl)
        fun h => by cases h
  | setPort =>
      rw [hpc] at hstep
      obtain rfl := Option.some.inj hstep
      obtain ⟨hmutex, hleft, hsocket, hip, -⟩ := h.phase.eq_main (by rw [hpc]; decide)
      refine h.main (by rw [hpc]; decide) (by decide) ?_
      exact .main hmutex (by simp) hleft (fun _ => hsocket (by rw [hpc]; decide))
        (fun _ _ => hip (by rw [hpc]; decide) (by rw [hpc]; decide)) fun _ => rfl
  | createThread =>
      rw [hpc] at hstep
      cases ok with
      | true =>
          obtain rfl := Option.some.inj hstep
          exact h.createThread hpc
      | false =>
          obtain rfl := Option.some.inj hstep
          obtain ⟨hmutex, hleft, hsocket, hip, -⟩ := h.phase.eq_main (by rw [hpc]; decide)
          refine h.main (by rw [hpc]; decide) (by decide) ?_
          exact .main hmutex (by simp) hleft (fun _ => hsocket (by rw [hpc]; decide))
            (fun _ _ => hip (by rw [hpc]; decide) (by rw [hpc]; decide)) fun h => by cases h
  | unlock =>
      rw [hpc] at hstep
      obtain rfl := Option.some.inj hstep
      exact h.giveUp hpc

/-! ### Every interleaving -/

theorem inv_step {l : Label} (h : s.Inv) (hstep : s.step l = some s') : s'.Inv := by
  cases l with
  | accept client =>
      simp only [step, Option.ite_none_right_eq_some, Option.some.injEq] at hstep
      obtain ⟨hpc, rfl⟩ := hstep
      exact h.accept hpc client
  | main ok => exact h.mainStep hstep
  | run n fd =>
      simp only [step, Option.ite_none_right_eq_some, Option.map_eq_some_iff] at hstep
      obtain ⟨hn, ⟨s₁, t'⟩, hthread, rfl⟩ := hstep
      exact h.run hn hthread

theorem Inv.safe (h : s.Inv) : s.Safe where
  own := fun n hn => by
    obtain ⟨c, hc⟩ := h.known n hn
    refine ⟨c, hc.connection, fun hdone => ?_⟩
    exact ArgThread.ext (hc.socket (by omega)) (hc.ipAddress (by omega)) (hc.port hdone)
  once := fun m n hm hn heq => by
    rcases Nat.lt_trichotomy m n with hlt | rfl | hlt
    · exact absurd heq (Nat.ne_of_lt (h.order m n hlt hn))
    · rfl
    · exact absurd heq.symm (Nat.ne_of_lt (h.order n m hlt hm))
  intact := fun n hn hdone => by
    obtain ⟨-, -, -, hworking⟩ := h.phase.eq_thread hn (by omega)
    exact hworking.intact hdone
  socket := fun n hn => by
    obtain ⟨c, hc⟩ := h.known n hn
    exact ⟨hc.connected, hc.vmSocket⟩
  oneAtATime := fun m n hm hn hdone hdone' => by
    obtain ⟨-, -, hleft, -⟩ := h.phase.eq_thread hn hdone'
    by_contra hne
    exact absurd (hleft m hm hne) (Nat.not_le_of_lt hdone)
  inOrder := h.inOrder
  routed := fun r hr => (h.routed r hr).2

/-- **Connection hand-over.**  In every interleaving of `main` and the threads
that it creates, each thread works on its own connection, and they connect to
their VMs one at a time, in the order of acceptance. -/
theorem safe_of_reachable {client vmClient : ArgThread} {threads : ℕ → Thread}
    (h : Reachable step (initial client vmClient threads) s) : s.Safe :=
  (invariant_of_step (initial_inv client vmClient threads)
    (fun _ _ _ hs hstep => inv_step hs hstep) h).safe

/-- The second of three clients gets no thread, and the third one is accepted
while the thread of the first is at work. -/
def threeClients : List Label :=
  [.accept ⟨5, "10.0.0.1", 4000⟩, .main true, .main true, .main true, .main true, .main true,
    .run 0 0, .accept ⟨6, "10.0.0.2", 4001⟩, .run 0 0, .run 0 0, .run 0 7, .run 0 0, .run 0 0,
    .run 0 0, .run 0 0, .run 0 0, .main true, .main true, .main true, .main true, .main false,
    .main true, .accept ⟨8, "10.0.0.3", 4002⟩, .main true, .main true, .main true, .main true,
    .main true, .run 1 0, .run 1 0, .run 0 0, .run 1 0, .run 1 9, .run 1 0]

theorem safe_of_reachable_threeClients : ∃ s,
    run step (initial default default default) threeClients = some s ∧
      s.routed = [(0, "10.0.0.1"), (2, "10.0.0.3")] ∧ s.Safe :=
  ⟨_, rfl, rfl, safe_of_reachable ⟨threeClients, rfl⟩⟩

end HandOver

end A2PM.Balancer
