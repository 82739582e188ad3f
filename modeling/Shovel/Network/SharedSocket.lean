import Shovel.Library.Machine
import Shovel.Library.Population
import Shovel.Network.SocketLife

/-!
# A TCP socket shared by threads

A worker hands one `TCPSocket` to its two threads: one calls `read`, the other
`write`, and nothing serialises the calls. The steps of a call are its accesses
to `m_status` and `m_descr` and its system calls; between any two of them the
other threads may make any number of steps. What a thread keeps for itself (the
array, `sent_size`, `errno`) changes with the step that uses it. A system call
has two steps, since its argument `m_descr` is read before the system sees it.
Its answer is fixed as the system gets the call, and the thread's next step may
come any time later: a `recv` blocks between the two.

A call that nobody interrupts is one of `SocketLife` (`call_alone`). `step_moves`
says once what a step can do in an interleaving.
-/

namespace Shovel.Network

open Containers Transition Function Population

/-- A call under way: `read`, or `write` with its local variable `sent_size`. -/
inductive SocketCall where
  | read
  | write (sentSize : Nat)
  deriving DecidableEq

/-- The program points of `read`, of `write`, and of `close_descriptor`, which both call. -/
inductive SocketPc where
  | idle
  | resetStatus (c : SocketCall)
  | testDescr (c : SocketCall)
  | descriptorError
  | testSize (sentSize : Nat)
  | argument (c : SocketCall)
  | transfer (c : SocketCall) (descr : Int)
  | setCause (status : NetSocketStatus)
  | closeReset
  | closeTest
  | closeArgument
  | close (descr : Int)
  | forget
  | setClosed
  deriving DecidableEq

/-- Where a call goes on behind its test of `m_descr`. -/
def SocketCall.body : SocketCall → SocketPc
  | read => .argument .read
  | write sentSize => .testSize sentSize

/-- A thread with the array of its call and what its last call has returned. -/
structure SocketThread where
  pc : SocketPc
  buf : SizedArray NETSOCKET_ARRAY_SIZE
  ret : Int

namespace SocketThread

/-- The thread at another program point. -/
def goTo (th : SocketThread) (pc : SocketPc) : SocketThread := { th with pc }

/-- The thread back from its call. -/
def returns (th : SocketThread) (ret : Int) : SocketThread := { th with pc := .idle, ret }

/-- The first step of `read`: it clears the array and tests the status. -/
def beginRead (th : SocketThread) (socket : TCPSocket) (buf : SizedArray NETSOCKET_ARRAY_SIZE) :
    SocketThread :=
  let th := { th with buf := buf.clear.resize 0 }
  if socket.status ≠ .ok then th.returns (-1) else th.goTo (.resetStatus .read)

/-- The first step of `write`: it tests the status. -/
def beginWrite (th : SocketThread) (socket : TCPSocket) (buf : SizedArray NETSOCKET_ARRAY_SIZE) :
    SocketThread :=
  let th := { th with buf }
  if socket.status ≠ .ok then th.returns (-1) else th.goTo (.resetStatus (.write 0))

/-- A step that is no system call with an answer. -/
def next (th : SocketThread) (s : SocketLife) : Option (SocketLife × SocketThread) :=
  match th.pc with
  | .idle | .transfer _ _ => none
  | .resetStatus c => some (s.setStatus .ok, th.goTo (.testDescr c))
  | .testDescr c =>
      if 0 < s.socket.descr then some (s, th.goTo c.body) else some (s, th.goTo .descriptorError)
  | .descriptorError => some (s.setStatus .descriptorError, th.returns (-1))
  | .testSize sentSize =>
      if sentSize < th.buf.dataSize then some (s, th.goTo (.argument (.write sentSize)))
      else some (s, { th with buf := th.buf.clear }.returns sentSize)
  | .argument c => some (s, th.goTo (.transfer c s.socket.descr))
  | .setCause status => some (s.setStatus status, th.goTo .closeReset)
  | .closeReset => some (s.setStatus .ok, th.goTo .closeTest)
  | .closeTest =>
      if 0 < s.socket.descr then some (s, th.goTo .closeArgument) else some (s, th.goTo .setClosed)
  | .closeArgument => some (s, th.goTo (.close s.socket.descr))
  | .close descr => some (s.record (.close descr), th.goTo .forget)
  | .forget => some ({ s with socket := { s.socket with descr := -1 } }, th.goTo .setClosed)
  | .setClosed => some (s.setStatus .closed, th.returns (-1))

/-- What `read` does with the answer of `recv`. -/
def received (th : SocketThread) : RecvResult → SocketThread
  | .failed errno => if ReadRetry errno then th.returns 0 else th.goTo (.setCause .closed)
  | .endOfStream => th.goTo (.setCause .closedByPeer)
  | .received bytes _ _ =>
      { th with buf := (th.buf.store bytes).resize bytes.length }.returns bytes.length

/-- What `write` does with the answer of `send`. -/
def sent (th : SocketThread) (sentSize : Nat) (result : SendResult) : SocketThread :=
  if result.WouldBlock then th.returns 0
  else if result.status < 0 then th.goTo (.setCause .closed)
  else th.goTo (.testSize (sentSize + result.status.toNat))

end SocketThread

/-- A socket with the system calls made on it, and the threads that call it. -/
structure SharedSocket (T : Type) where
  life : SocketLife
  threads : T → SocketThread

/-- A thread begins a call, makes a step that needs no answer, or gets the answer of its system
call. -/
inductive SharedLabel (T : Type) where
  | read (t : T) (buf : SizedArray NETSOCKET_ARRAY_SIZE)
  | write (t : T) (buf : SizedArray NETSOCKET_ARRAY_SIZE)
  | next (t : T)
  | receives (t : T) (result : RecvResult)
  | sends (t : T) (result : SendResult)

/-- The thread that moves. -/
def SharedLabel.thread {T : Type} : SharedLabel T → T
  | read t _ | write t _ | next t | receives t _ | sends t _ => t

namespace SharedSocket

variable {T : Type} [DecidableEq T]

/-- A thread has moved. -/
def put (s : SharedSocket T) (t : T) (life : SocketLife) (th : SocketThread) : SharedSocket T :=
  ⟨life, update s.threads t th⟩

/-- One step of an interleaving. -/
def step (s : SharedSocket T) : SharedLabel T → Option (SharedSocket T)
  | .read t buf =>
      if (s.threads t).pc = .idle then
        some (s.put t s.life ((s.threads t).beginRead s.life.socket buf))
      else none
  | .write t buf =>
      if (s.threads t).pc = .idle then
        some (s.put t s.life ((s.threads t).beginWrite s.life.socket buf))
      else none
  | .next t => ((s.threads t).next s.life).map fun (life, th) => s.put t life th
  | .receives t result =>
      match (s.threads t).pc with
      | .transfer .read descr =>
          some (s.put t (s.life.record (.recv descr result)) ((s.threads t).received result))
      | _ => none
  | .sends t result =>
      match (s.threads t).pc with
      | .transfer (.write sentSize) descr =>
          some (s.put t (s.life.record (.send descr result))
            ((s.threads t).sent sentSize result))
      | _ => none

/-- A new socket, and no call under way. -/
def start (d res : Int) : SharedSocket T := ⟨.construct d res, fun _ => ⟨.idle, .new _, 0⟩⟩

omit [DecidableEq T] in
/-- No call is under way. -/
def Rests (s : SharedSocket T) : Prop := ∀ t, (s.threads t).pc = .idle

/-- All interleavings of calls on a socket for the descriptor `d`. -/
def machine (d res : Int) : Machine (SharedSocket T) (SharedLabel T) where
  init s := s = start d res
  step := step

/-! ## One thread alone -/

section Alone

variable {s s' s'' : SharedSocket T} {t : T}

@[simp] theorem put_life (s : SharedSocket T) (t : T) (life : SocketLife) (th : SocketThread) :
    (s.put t life th).life = life := rfl

@[simp] theorem put_threads_self (s : SharedSocket T) (t : T) (life : SocketLife)
    (th : SocketThread) : (s.put t life th).threads t = th := update_self ..

theorem put_threads_of_ne {t u : T} (hne : u ≠ t) (s : SharedSocket T) (life : SocketLife)
    (th : SocketThread) : (s.put t life th).threads u = s.threads u := update_of_ne hne ..

@[simp] theorem put_put (s : SharedSocket T) (t : T) (life life' : SocketLife)
    (th th' : SocketThread) : (s.put t life th).put t life' th' = s.put t life' th' := by
  simp [put]

/-- A run in which only this thread moves. -/
def Alone (t : T) (s s' : SharedSocket T) : Prop :=
  ∃ labels : List (SharedLabel T), (∀ label ∈ labels, label.thread = t) ∧
    ∀ d res, (machine d res).run labels s = some s'

namespace Alone

variable {life life' : SocketLife} {th th' : SocketThread}
  {buf : SizedArray NETSOCKET_ARRAY_SIZE} {ret : Int} {sentSize : Nat}

theorem refl : Alone t s s := ⟨[], nofun, fun _ _ => rfl⟩

/-- A step in front of such a run. -/
theorem step (label : SharedLabel T) (hlabel : label.thread = t) (hstep : s.step label = some s')
    (h : Alone t s' s'') : Alone t s s'' := by
  obtain ⟨labels, hall, hrun⟩ := h
  refine ⟨label :: labels, List.forall_mem_cons.mpr ⟨hlabel, hall⟩, fun d res => ?_⟩
  rw [Machine.run_cons labels hstep, hrun]

/-- A step that needs no answer in front of it. -/
theorem moves (hnext : (s.threads t).next s.life = some (life, th))
    (h : Alone t (s.put t life th) s') : Alone t s s' :=
  h.step (.next t) rfl (by simp [SharedSocket.step, hnext])

/-- Such a step of a thread that has moved before. -/
theorem next (hnext : th.next life = some (life', th')) (h : Alone t (s.put t life' th') s') :
    Alone t (s.put t life th) s' :=
  moves (by rwa [put_threads_self]) (by rwa [put_put])

/-- A run of one thread from a reachable state. -/
theorem reachable {d res : Int} (h : (machine d res).Reachable s) (halone : Alone t s s') :
    (machine d res).Reachable s' := by
  obtain ⟨labels, -, hrun⟩ := halone
  exact h.run labels (hrun d res)

/-- A `recv` and what `read` does with its answer. -/
theorem receives (result : RecvResult) (h : Alone t (s.put t
      (life.record (.recv life.socket.descr result))
      (SocketThread.received ⟨.transfer .read life.socket.descr, buf, ret⟩ result)) s') :
    Alone t (s.put t life ⟨.argument .read, buf, ret⟩) s' := by
  refine next rfl (h.step (.receives t result) rfl ?_)
  simp only [SharedSocket.step, put_threads_self, put_put]
  rfl

/-- A `send` and what `write` does with its answer. -/
theorem sends (result : SendResult) (h : Alone t (s.put t
      (life.record (.send life.socket.descr result))
      (SocketThread.sent ⟨.transfer (.write sentSize) life.socket.descr, buf, ret⟩ sentSize
        result)) s') :
    Alone t (s.put t life ⟨.argument (.write sentSize), buf, ret⟩) s' := by
  refine next rfl (h.step (.sends t result) rfl ?_)
  simp only [SharedSocket.step, put_threads_self, put_put]
  rfl

/-- `close_descriptor`, with the assignment of a cause in front of it. -/
theorem closes (status : NetSocketStatus) :
    Alone t (s.put t life ⟨.setCause status, buf, ret⟩)
      (s.put t (life.setStatus status).closeDescriptor ⟨.idle, buf, -1⟩) := by
  obtain ⟨⟨descr, st⟩, calls⟩ := life
  refine next rfl (next rfl ?_)
  by_cases hpos : 0 < descr
  · refine next (if_pos hpos) ?_
    iterate 4 refine next rfl ?_
    simp only [SocketLife.closeDescriptor, TCPSocket.closeDescriptor, SocketLife.setStatus, hpos,
      TCPSocket.resetStatus, if_true]
    exact refl
  · refine next (if_neg hpos) (next rfl ?_)
    simp only [SocketLife.closeDescriptor, TCPSocket.closeDescriptor, SocketLife.setStatus, hpos,
      TCPSocket.resetStatus, if_false]
    exact refl

/-- The loop of `write`. -/
theorem loops {results : List SendResult} {run : LifeWrite NETSOCKET_ARRAY_SIZE}
    (hrun : life.sendLoop buf sentSize results = some run) :
    Alone t (s.put t life ⟨.testSize sentSize, buf, ret⟩)
      (s.put t run.life ⟨.idle, run.buf, run.ret⟩) := by
  induction results generalizing life sentSize with
  | nil =>
      rw [SocketLife.sendLoop] at hrun
      split at hrun
      · cases hrun
      · rename_i hdone
        obtain rfl := Option.some.inj hrun
        exact next (if_neg hdone) refl
  | cons result rest ih =>
      rw [SocketLife.sendLoop] at hrun
      split at hrun
      · rename_i hmore
        refine next (if_pos hmore) (sends result ?_)
        rw [SocketThread.sent]
        simp only at hrun
        split at hrun
        · rename_i hblock
          obtain rfl := Option.some.inj hrun
          rw [if_pos hblock]
          exact refl
        · rename_i hblock
          rw [if_neg hblock]
          split at hrun
          · rename_i hfailed
            obtain rfl := Option.some.inj hrun
            rw [if_pos hfailed]
            exact closes .closed
          · rename_i hcount
            rw [if_neg hcount]
            exact ih hrun
      · rename_i hdone
        obtain rfl := Option.some.inj hrun
        exact next (if_neg hdone) refl

end Alone

/-- A `read` that is not interrupted is `SocketLife.read`. -/
theorem read_alone (hidle : (s.threads t).pc = .idle) (buf : SizedArray NETSOCKET_ARRAY_SIZE)
    (result : RecvResult) :
    Alone t s (s.put t (s.life.read buf result).2.2
      ⟨.idle, (s.life.read buf result).2.1, (s.life.read buf result).1⟩) := by
  refine .step (.read t buf) rfl (if_pos hidle) ?_
  rw [SocketThread.beginRead, SocketLife.read]
  by_cases hstatus : s.life.socket.status ≠ .ok
  · rw [if_pos hstatus, if_pos hstatus]
    exact .refl
  · rw [if_neg hstatus, if_neg hstatus]
    refine .next rfl ?_
    by_cases hpos : 0 < (s.life.setStatus .ok).socket.descr
    · simp only [hpos, if_true]
      refine .next (if_pos hpos) (.receives result ?_)
      cases result with
      | received bytes nonempty fits => exact .refl
      | endOfStream => exact .closes .closedByPeer
      | failed errno =>
          by_cases hretry : ReadRetry errno
          · simp only [SocketThread.received, hretry, if_true]
            exact .refl
          · simp only [SocketThread.received, hretry, if_false]
            exact .closes .closed
    · simp only [hpos, if_false]
      exact .next (if_neg hpos) (.next rfl .refl)

/-- A `write` that is not interrupted is `SocketLife.write`. -/
theorem write_alone (hidle : (s.threads t).pc = .idle) {buf : SizedArray NETSOCKET_ARRAY_SIZE}
    {results : List SendResult} {run : LifeWrite NETSOCKET_ARRAY_SIZE}
    (hrun : s.life.write buf results = some run) :
    Alone t s (s.put t run.life ⟨.idle, run.buf, run.ret⟩) := by
  refine .step (.write t buf) rfl (if_pos hidle) ?_
  rw [SocketLife.write] at hrun
  rw [SocketThread.beginWrite]
  by_cases hstatus : s.life.socket.status ≠ .ok
  · rw [if_pos hstatus] at hrun
    obtain rfl := Option.some.inj hrun
    rw [if_pos hstatus]
    exact .refl
  · rw [if_neg hstatus] at hrun
    rw [if_neg hstatus]
    refine .next rfl ?_
    by_cases hpos : 0 < s.life.socket.descr
    · simp only [SocketLife.setStatus, hpos, if_true] at hrun
      exact .next (if_pos hpos) (.loops hrun)
    · simp only [SocketLife.setStatus, hpos, if_false] at hrun
      obtain rfl := Option.some.inj hrun
      exact .next (if_neg hpos) (.next rfl .refl)

/-- A call that is not interrupted is one of `SocketLife`, and its thread is back with what that
one returns. -/
theorem call_alone (hidle : (s.threads t).pc = .idle) {op : SocketOp} {ret : Int}
    {life : SocketLife} (hcall : s.life.call op = some (ret, life)) :
    ∃ buf, Alone t s (s.put t life ⟨.idle, buf, ret⟩) := by
  cases op with
  | read buf result =>
      obtain ⟨rfl, rfl⟩ := Prod.mk.inj (Option.some.inj hcall)
      exact ⟨_, read_alone hidle buf result⟩
  | write buf results =>
      obtain ⟨run, hrun, hend⟩ := Option.map_eq_some_iff.mp hcall
      obtain ⟨rfl, rfl⟩ := Prod.mk.inj hend
      exact ⟨_, write_alone hidle hrun⟩

end Alone

/-! ## What a step can do -/

section Moves

/-- The steps of a thread at a program point, with what they do to the socket. -/
inductive Moves (s : SocketLife) : SocketPc → SocketLife → SocketPc → Prop where
  | begins (c) (hok : s.socket.status = .ok) : Moves s .idle s (.resetStatus c)
  | refused (hended : s.socket.status ≠ .ok) : Moves s .idle s .idle
  | resets (c) : Moves s (.resetStatus c) (s.setStatus .ok) (.testDescr c)
  | finds (c) (hpos : 0 < s.socket.descr) : Moves s (.testDescr c) s c.body
  | findsNone (c) (hnone : ¬ 0 < s.socket.descr) : Moves s (.testDescr c) s .descriptorError
  | setsError : Moves s .descriptorError (s.setStatus .descriptorError) .idle
  | offers (sentSize) : Moves s (.testSize sentSize) s (.argument (.write sentSize))
  | ends (sentSize) : Moves s (.testSize sentSize) s .idle
  | loads (c) : Moves s (.argument c) s (.transfer c s.socket.descr)
  | transfers (c) {descr call p} (hcall : call.transfer = some descr)
      (hp : p = .idle ∨ (∃ sentSize, p = .testSize sentSize) ∨ ∃ status, p = .setCause status) :
      Moves s (.transfer c descr) (s.record call) p
  | setsCause (status) : Moves s (.setCause status) (s.setStatus status) .closeReset
  | closeResets : Moves s .closeReset (s.setStatus .ok) .closeTest
  | closeFinds (hpos : 0 < s.socket.descr) : Moves s .closeTest s .closeArgument
  | closeFindsNone (hnone : ¬ 0 < s.socket.descr) : Moves s .closeTest s .setClosed
  | closeLoads : Moves s .closeArgument s (.close s.socket.descr)
  | closes (descr) : Moves s (.close descr) (s.record (.close descr)) .forget
  | forgets : Moves s .forget { s with socket := { s.socket with descr := -1 } } .setClosed
  | setsClosed : Moves s .setClosed (s.setStatus .closed) .idle

variable {s s' : SharedSocket T} {t : T}

/-- A step that needs no answer is one of these. -/
theorem next_moves {life life' : SocketLife} {th th' : SocketThread}
    (h : th.next life = some (life', th')) : Moves life th.pc life' th'.pc := by
  obtain ⟨pc, buf, ret⟩ := th
  cases pc with
  | idle | transfer => cases h
  | testDescr c =>
      simp only [SocketThread.next] at h
      split at h
      · rename_i hpos
        obtain ⟨rfl, rfl⟩ := Prod.mk.inj (Option.some.inj h)
        exact .finds c hpos
      · rename_i hnone
        obtain ⟨rfl, rfl⟩ := Prod.mk.inj (Option.some.inj h)
        exact .findsNone c hnone
  | testSize sentSize =>
      simp only [SocketThread.next] at h
      split at h
      · obtain ⟨rfl, rfl⟩ := Prod.mk.inj (Option.some.inj h)
        exact .offers sentSize
      · obtain ⟨rfl, rfl⟩ := Prod.mk.inj (Option.some.inj h)
        exact .ends sentSize
  | closeTest =>
      simp only [SocketThread.next] at h
      split at h
      · rename_i hpos
        obtain ⟨rfl, rfl⟩ := Prod.mk.inj (Option.some.inj h)
        exact .closeFinds hpos
      · rename_i hnone
        obtain ⟨rfl, rfl⟩ := Prod.mk.inj (Option.some.inj h)
        exact .closeFindsNone hnone
  | resetStatus | descriptorError | argument | setCause | closeReset | closeArgument | close |
    forget | setClosed =>
      obtain ⟨rfl, rfl⟩ := Prod.mk.inj (Option.some.inj h)
      constructor

/-- A thread of a socket moves, and the others stay where they are. -/
theorem step_moves {label : SharedLabel T} (h : s.step label = some s') :
    ∃ life th, Moves s.life (s.threads label.thread).pc life th.pc ∧
      s' = s.put label.thread life th := by
  cases label with
  | read t buf | write t buf =>
      simp only [step] at h
      split at h
      · rename_i hidle
        refine ⟨_, _, ?_, (Option.some.inj h).symm⟩
        simp only [SharedLabel.thread, hidle, SocketThread.beginRead, SocketThread.beginWrite]
        split
        · rename_i hended
          exact .refused hended
        · rename_i hok
          exact .begins _ (not_not.mp hok)
      · cases h
  | next t =>
      obtain ⟨⟨life, th⟩, hnext, rfl⟩ := Option.map_eq_some_iff.mp h
      exact ⟨life, th, next_moves hnext, rfl⟩
  | receives t result =>
      simp only [step] at h
      split at h
      · rename_i descr hpc
        refine ⟨_, _, ?_, (Option.some.inj h).symm⟩
        simp only [SharedLabel.thread, hpc]
        refine .transfers .read rfl ?_
        cases result with
        | received bytes nonempty fits => exact .inl rfl
        | endOfStream => exact .inr (.inr ⟨_, rfl⟩)
        | failed errno =>
            simp only [SocketThread.received]
            split
            · exact .inl rfl
            · exact .inr (.inr ⟨_, rfl⟩)
      · cases h
  | sends t result =>
      simp only [step] at h
      split at h
      · rename_i sentSize descr hpc
        refine ⟨_, _, ?_, (Option.some.inj h).symm⟩
        simp only [SharedLabel.thread, hpc]
        refine .transfers (.write sentSize) rfl ?_
        simp only [SocketThread.sent]
        split
        · exact .inl rfl
        · split
          · exact .inr (.inr ⟨_, rfl⟩)
          · exact .inr (.inl ⟨_, rfl⟩)
      · cases h

end Moves

end SharedSocket

end Shovel.Network
