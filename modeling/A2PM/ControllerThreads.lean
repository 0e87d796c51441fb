/-
A2PM/ControllerThreads.lean

The threads of `controller/server.c`: the accept thread, one communication
thread for each VM, and `balancer_thread`, interleaved instruction by
instruction over sequentially consistent memory.

A thread is its local `struct vm_data` and the list of instructions it has
still to execute; an empty list is the head of its loop, where it waits for
something from outside (a client, a features message) or, in
`balancer_thread`, polls `state_man_vm`.  The fragments below (`notify`,
`manageDisconnectedVmsCode`, ...) are the bodies of the source's functions;
a post to the balancer is written out field by field.

The mutexes are binary semaphores: any thread may release them.  A locked
mutex also records which thread is going to release it.  This is
bookkeeping: no instruction reads it, and it changes hands where the source
hands a locked mutex over (to the new thread at `pthread_create`, to
`balancer_thread` at `state_man_vm = 1`).  `acquired`, `raised` and
`registered` are histories, likewise read by no instruction.
-/
import A2PM.ControllerData
import A2PM.Transition

namespace A2PM.Controller

/-! ### Instructions -/

/-- Threads: the one that runs `accept_new_client`, the communication
threads in the order of their creation, and `balancer_thread`. -/
inductive Tid
  | accept
  | comm (n : ℕ)
  | balancer
  deriving DecidableEq

inductive Instr
  | lockMutex
  | unlockMutex
  /-- `pthread_mutex_lock(&manage_vm_mutex)`, to post operation `op`. -/
  | lockManageVm (op : Operations)
  | setIp
  | setPort
  | setService
  | setOp (op : Operations)
  /-- `state_man_vm = 1`. -/
  | setStateManVm
  /-- The assignment phase of `accept_new_client`, up to `current_vms++`. -/
  | assign
  /-- `pthread_create` of a communication thread on the slot just filled. -/
  | createThread
  /-- `vm = *(struct vm_data *)v`, with `v` at slot `i` of group `g`. -/
  | copyVm (g : Service) (i : ℕ)
  /-- The critical section of `switch_active_machine`. -/
  | switchVm
  /-- The `send` of `switch_active_machine`, with its error branch. -/
  | sendRejuvenate
  /-- The critical section of `manage_disconnected_vms`. -/
  | removeVm
  | closeSocket
  /-- `store_last_system_features` and `vm.last_system_features_stored = 1`. -/
  | storeFeatures
  /-- The `send` of `CONTINUE`, with its error branch. -/
  | sendContinue
  /-- The thread has returned (or does not exist yet). -/
  | halt
  /-- `send` reads the record from `virt_machine` while other threads run. -/
  | copyIp
  | copyPort
  | copyService
  | copyOp
  | sendRecord
  /-- `state_man_vm = 0`. -/
  | clearStateManVm
  | unlockManageVm
  deriving DecidableEq

open Instr

/-- Post operation `op` about the thread's `vm` in `virt_machine`. -/
def notify (op : Operations) : List Instr :=
  [lockManageVm op, setIp, setPort, setService, setOp op, setStateManVm]

def manageDisconnectedVmsCode : List Instr := [lockMutex, removeVm, unlockMutex]

def switchActiveMachineCode : List Instr := [lockMutex, switchVm, unlockMutex, sendRejuvenate]

/-- `accept_new_client` after the handshake. -/
def acceptCode (state : VmState) : List Instr :=
  [lockMutex, assign] ++ (if state = .active then notify .add else []) ++ [createThread]

/-- `communication_thread` up to its loop. -/
def communicationStart (g : Service) (i : ℕ) : List Instr := [copyVm g i, unlockMutex]

/-- The branch of the loop for `predicted_time_to_crash < TTC_THRESHOLD`. -/
def rejuvenationCode : List Instr := switchActiveMachineCode ++ notify .rej

/-- The rest of the loop body otherwise. -/
def continueCode : List Instr := [storeFeatures, sendContinue]

/-- `communication_thread` after its loop. -/
def exitCode : List Instr :=
  notify .delete ++ manageDisconnectedVmsCode ++ [closeSocket, halt]

/-- The body of `balancer_thread`'s `if`. -/
def sendCode : List Instr :=
  [copyIp, copyPort, copyService, copyOp, sendRecord, clearStateManVm, unlockManageVm]

/-! ### States -/

structure Server where
  mutex : Option Tid
  manageVmMutex : Option Tid
  stateManVm : Bool
  virtMachine : VirtualMachine
  registry : Registry
  openSockets : List ℤ
  code : Tid → List Instr
  vm : Tid → VmData
  /-- `current_features` of each communication thread: `get_feature` fills in
  its own copy, so this keeps what the thread's stack held. -/
  currentFeatures : ℕ → SystemFeatures
  /-- `index` of `accept_new_client`. -/
  index : ℕ
  /-- Number of communication threads created so far. -/
  created : ℕ
  /-- What `send` has read of `virt_machine` so far. -/
  out : VirtualMachine
  /-- The records sent to the balancer. -/
  sent : List VirtualMachine
  /-- The posts, in the order in which `manage_vm_mutex` was acquired: the
  connection each is about, and the record its thread fills in. -/
  acquired : List (ℕ × VirtualMachine)
  /-- The contents of `virt_machine` at each `state_man_vm = 1`. -/
  raised : List VirtualMachine
  /-- What each connection was registered with; connection `n` is the one
  that thread `n` serves. -/
  registered : ℕ → VmData

/-- What a thread's environment decides about one of its instructions:
whether its `send` succeeds, and what memory `realloc` returns. -/
structure Env where
  sendOk : Bool
  fresh : ℕ → VmData

inductive Label
  /-- Thread `t` executes its next instruction. -/
  | run (t : Tid) (env : Env)
  /-- A VM has connected and named one of the services; `answered`: the
  `send` of the answer succeeded.  (If not, the socket is closed, and the VM
  is registered all the same.) -/
  | newClient (s : VmService) (ip : String) (socket : ℤ) (port : ℕ) (answered : Bool)
  /-- `recv` of communication thread `n` returns `-1` or `0`. -/
  | recvFail (n : ℕ)
  /-- `recv` of communication thread `n` returns a message; `rejuvenate`:
  the predicted time to crash is below the threshold. -/
  | recvFeatures (n : ℕ) (rejuvenate : Bool)

namespace Server

/-- The state after `main`'s set-up, for any contents of fresh memory. -/
def initial (mem : Service → ℕ → VmData) (stack : Tid → VmData)
    (features : ℕ → SystemFeatures) : Server where
  mutex := none
  manageVmMutex := none
  stateManVm := false
  virtMachine := default
  registry := initialRegistry mem
  openSockets := []
  code
    | .comm _ => [halt]
    | _ => []
  vm := stack
  currentFeatures := features
  index := 0
  created := 0
  out := default
  sent := []
  acquired := []
  raised := []
  registered := fun _ => default

/-- The connection a thread's posts are about: the accept thread posts about
the connection whose thread it is about to create. -/
def connection (s : Server) : Tid → ℕ
  | .accept => s.created
  | .comm n => n
  | .balancer => s.created

/-- The state with which connection `n` was registered. -/
def registeredState (s : Server) (n : ℕ) : VmState := (s.registered n).serviceInfo.state

/-- Does a `send` on the thread's socket succeed? -/
def sends (s : Server) (t : Tid) (env : Env) : Bool :=
  env.sendOk && (s.openSockets.contains (s.vm t).socket)

/-! ### Steps -/

/-- What an instruction does to everything but the threads' code; `none`:
it blocks. -/
def effect (s : Server) (t : Tid) (env : Env) : Instr → Option Server
  | lockMutex => if s.mutex = none then some { s with mutex := some t } else none
  | unlockMutex => some { s with mutex := none }
  | lockManageVm op =>
      if s.manageVmMutex = none then
        some { s with
          manageVmMutex := some t
          acquired := s.acquired ++ [(s.connection t, notification (s.vm t) op)] }
      else none
  | setIp => some { s with virtMachine.ip := (s.vm t).ipAddress }
  | setPort => some { s with virtMachine.port := htons 8080 }
  | setService => some { s with virtMachine.service := (s.vm t).serviceInfo.service }
  | setOp op => some { s with virtMachine.op := op }
  | setStateManVm =>
      some { s with
        stateManVm := true
        manageVmMutex := s.manageVmMutex.map fun _ => .balancer
        raised := s.raised ++ [s.virtMachine] }
  | assign =>
      let vm := s.vm t
      (register env.fresh vm.serviceInfo vm.ipAddress vm.socket vm.port s.registry).map fun r =>
        { s with
          registry := r.1
          index := r.2
          registered := Function.update s.registered s.created vm }
  | createThread =>
      some { s with
        mutex := s.mutex.map fun _ => .comm s.created
        created := s.created + 1 }
  | copyVm g i =>
      ((s.registry g).cells[i]?).map fun vm => { s with vm := Function.update s.vm t vm }
  | switchVm =>
      -- the copy of `vm` that `switch_active_machine` changes is dropped
      (switchActiveMachine (s.vm t) s.registry).map fun r => { s with registry := r.2 }
  | removeVm =>
      (manageDisconnectedVms (s.vm t) s.registry).map fun reg => { s with registry := reg }
  | closeSocket => some { s with openSockets := s.openSockets.erase (s.vm t).socket }
  | storeFeatures =>
      match t with
      | .comm n =>
          let vm :=
            { s.vm t with lastFeatures := s.currentFeatures n, lastSystemFeaturesStored := 1 }
          some { s with vm := Function.update s.vm t vm }
      | _ => none
  | sendRejuvenate => some s
  | sendContinue => some s
  | halt => none
  | copyIp => some { s with out.ip := s.virtMachine.ip }
  | copyPort => some { s with out.port := s.virtMachine.port }
  | copyService => some { s with out.service := s.virtMachine.service }
  | copyOp => some { s with out.op := s.virtMachine.op }
  | sendRecord => some { s with sent := s.sent ++ [s.out] }
  | clearStateManVm => some { s with stateManVm := false }
  | unlockManageVm => some { s with manageVmMutex := none }

/-- What is left to execute for thread `t` after instruction `i`, followed
by `c`. -/
def rest (s : Server) (t : Tid) (env : Env) (i : Instr) (c : List Instr) : List Instr :=
  match i with
  | sendRejuvenate =>
      if s.sends t env then c else manageDisconnectedVmsCode ++ closeSocket :: c
  | sendContinue => if s.sends t env then c else exitCode
  | _ => c

/-- The threads' code after thread `t` has executed `i`. -/
def nextCode (s : Server) (t : Tid) (env : Env) (i : Instr) (c : List Instr) :
    Tid → List Instr :=
  let code := Function.update s.code t (s.rest t env i c)
  if i = createThread then
    Function.update code (.comm s.created)
      (communicationStart (s.vm t).serviceInfo.service s.index)
  else code

/-- Replace the code of one thread. -/
def goto (s : Server) (t : Tid) (c : List Instr) : Server :=
  { s with code := Function.update s.code t c }

/-- One step of the controller. -/
def step (s : Server) : Label → Option Server
  | .run t env =>
      match s.code t with
      | i :: c => (s.effect t env i).map fun s' => { s' with code := s.nextCode t env i c }
      | [] =>
          -- `balancer_thread` polls; the other loops wait for a message
          if t = .balancer then some (if s.stateManVm then s.goto .balancer sendCode else s)
          else none
  | .newClient info ip socket port answered =>
      if s.code .accept = [] ∧ socket ∉ s.openSockets then
        some { s.goto .accept (acceptCode info.state) with
          openSockets := if answered then socket :: s.openSockets else s.openSockets
          vm := Function.update s.vm .accept (fillSlot info ip socket port (s.vm .accept)) }
      else none
  | .recvFail n =>
      if s.code (.comm n) = [] ∧ (s.vm (.comm n)).serviceInfo.state = .active then
        some (s.goto (.comm n) exitCode)
      else none
  | .recvFeatures n rejuvenate =>
      if s.code (.comm n) = [] ∧ (s.vm (.comm n)).serviceInfo.state = .active ∧
          (s.vm (.comm n)).socket ∈ s.openSockets ∧
          (rejuvenate = true → (s.vm (.comm n)).lastSystemFeaturesStored ≠ 0) then
        some (s.goto (.comm n) (if rejuvenate then rejuvenationCode else continueCode))
      else none

end Server

end A2PM.Controller
