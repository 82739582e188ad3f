import Mathlib.Data.List.Basic
import Shovel.Library.Machine
import Shovel.Network.AcceptLoops

/-!
# The accept threads of a server

The owner of a `TCPServer` starts and stops it any number of times and destroys
it at last. Every successful `start_listen` spawns one more thread. All threads
share the two flags of the server: a thread loops while the server is enabled,
and sets `m_atomic_server_finished` as the last thing it does with the object.

The one flag stands for all the threads. As long as every `start` finds the
server finished there is at most one thread that has not ended, and then the
flag tells the truth. A `start` beside a thread that still runs sets the flag by
itself when it fails.
-/

namespace Shovel.Network

open Transition

/-- The program points of an accept thread. `wait`, `recheck` and `handle` belong to `epoll_loop`,
`socketTest` and `accept` to `_thread_unblocked_accept`. -/
inductive AcceptPc where
  | setup
  | loopTest
  | socketTest
  | accept
  | wait
  | recheck
  | handle
  | storeFinished
  | gone
  deriving DecidableEq, Repr

/-- What lets `epoll_wait` return: it reports events or an error, or its timeout is over. -/
inductive WaitAnswer where
  | reported
  | timedOut
  deriving DecidableEq, Repr

/-- A thread with its own `errno`. -/
structure AcceptThread where
  listenType : NetServerListenType
  pc : AcceptPc
  errno : Nat
  deriving DecidableEq, Repr

namespace AcceptThread

/-- The thread has not made its last access to the server. -/
def live (t : AcceptThread) : Bool := t.pc != .gone

/-- The first program point behind the loop's test. -/
def loopBody (t : AcceptThread) : AcceptPc :=
  match t.listenType with
  | .unblocked => .socketTest
  | .blocked | .timed => .wait

/-- The next step of a thread, with what `accept` returns if it is called. A thread inside
`epoll_wait` has none of its own. -/
def step (t : AcceptThread) (server : TCPServer) (outcome : AcceptOutcome) :
    Option (AcceptThread × TCPServer) :=
  match t.pc with
  | .setup => some ({ t with pc := .loopTest }, server)
  -- `while (m_atomic_server_enable)`
  | .loopTest =>
      some ({ t with pc := if server.enable then t.loopBody else .storeFinished }, server)
  | .socketTest =>
      some ({ t with pc := if server.masterSocket ≤ 0 then .loopTest else .accept }, server)
  | .accept =>
      let pc := match unblockedAccept t.errno outcome with
        | .retry | .callback _ => .loopTest
        | .leave => .storeFinished
      some ({ t with pc, errno := outcome.errnoAfter t.errno }, server)
  | .recheck =>
      some ({ t with pc := if server.enable then .handle else .storeFinished }, server)
  | .handle => some ({ t with pc := .loopTest, errno := outcome.errnoAfter t.errno }, server)
  | .storeFinished => some ({ t with pc := .gone }, { server with finished := true })
  | .wait | .gone => none

/-- `epoll_wait` returns. `_thread_timed_accept` has given it a timeout of 200 ms,
`_thread_blocked_accept` none. -/
def wakes (t : AcceptThread) (answer : WaitAnswer) : Option AcceptThread :=
  match t.pc, t.listenType, answer with
  | .wait, _, .reported | .wait, .timed, .timedOut => some { t with pc := .recheck }
  | _, _, _ => none

end AcceptThread

/-- The program points of the owner: `start` with `start_listen`, and the destructor. -/
inductive OwnerPc where
  | idle
  | storeUnfinished (listenType : NetServerListenType)
  | closeOld (listenType : NetServerListenType)
  | openSocket (listenType : NetServerListenType)
  | configure (listenType : NetServerListenType)
  | storeFinished
  | storeDisabled
  | closeMaster
  | waitFinished
  | destroyed
  deriving DecidableEq, Repr

/-- The server, its owner, and the threads spawned so far. -/
structure ServerState where
  server : TCPServer
  owner : OwnerPc
  threads : List AcceptThread
  deriving DecidableEq, Repr

/-- The owner calls `start`, `stop` or the destructor or makes its next step, with an answer of the
system where it needs one, a thread makes its next step, or its `epoll_wait` returns. -/
inductive ServerLabel where
  | start (listenType : NetServerListenType)
  | stop
  | destroy
  | owner
  | socket (result : Int)
  | configure (answers : ListenAnswers)
  | thread (i : Nat) (outcome : AcceptOutcome)
  | wakes (i : Nat) (answer : WaitAnswer)
  deriving DecidableEq

namespace ServerState

/-- The steps of the owner inside a call that need no answer of the system. -/
def ownerStep (s : ServerState) : Option ServerState :=
  match s.owner with
  | .storeUnfinished listenType =>
      some { s with server := { s.server with finished := false }, owner := .closeOld listenType }
  | .closeOld listenType =>
      some { s with server := s.server.resetStatus, owner := .openSocket listenType }
  | .storeFinished =>
      some { s with server := { s.server with finished := true }, owner := .storeDisabled }
  | .storeDisabled => some { s with server := s.server.stop, owner := .idle }
  -- the destructor closes the master socket and waits
  | .closeMaster =>
      some { s with server := { s.server with masterSocket := -1 }, owner := .waitFinished }
  | .waitFinished => if s.server.finished then some { s with owner := .destroyed } else none
  | .idle | .openSocket _ | .configure _ | .destroyed => none

/-- The steps of the owner that wait for the system. A thread is spawned at the end of
`start_listen`. -/
def socketStep (s : ServerState) (result : Int) : Option ServerState :=
  match s.owner with
  | .openSocket listenType =>
      some { s with
        server := s.server.openSocket result
        owner := if result = -1 then .storeFinished else .configure listenType }
  | _ => none

/-- The steps of a `thread`. -/
def configureStep (s : ServerState) (answers : ListenAnswers) : Option ServerState :=
  match s.owner with
  | .configure listenType =>
      let (status, server) := s.server.configure answers
      if status < 0 then some { s with server, owner := .storeFinished }
      else
        some { s with
          server, owner := .idle, threads := s.threads ++ [⟨listenType, .setup, 0⟩] }
  | _ => none

/-- The step of a thread that has been spawned. -/
def threadStep (s : ServerState) (i : Nat) (outcome : AcceptOutcome) : Option ServerState :=
  match s.threads[i]? with
  | some t =>
      (t.step s.server outcome).map fun (t', server) =>
        { s with server, threads := s.threads.set i t' }
  | none => none

/-- The `epoll_wait` of a thread returns. -/
def wakesStep (s : ServerState) (i : Nat) (answer : WaitAnswer) : Option ServerState :=
  match s.threads[i]? with
  | some t => (t.wakes answer).map fun t' => { s with threads := s.threads.set i t' }
  | none => none

/-- One step of the system. -/
def step (s : ServerState) : ServerLabel → Option ServerState
  | .start listenType =>
      match s.owner with
      | .idle =>
          some { s with
            server := { s.server with enable := true }, owner := .storeUnfinished listenType }
      | _ => none
  | .stop => if s.owner = .destroyed then none else some { s with server := s.server.stop }
  | .destroy =>
      match s.owner with
      | .idle => some { s with server := { s.server with enable := false }, owner := .closeMaster }
      | _ => none
  | .owner => s.ownerStep
  | .socket result => s.socketStep result
  | .configure answers => s.configureStep answers
  | .thread i outcome => s.threadStep i outcome
  | .wakes i answer => s.wakesStep i answer

/-- Before the first call. -/
def initial : ServerState := ⟨.init, .idle, []⟩

/-- The server with its owner and its threads. -/
def machine : Machine ServerState ServerLabel where
  init s := s = initial
  step := step

/-- When the server is finished, and when the destructor has returned, every thread has made its
last access. -/
def NoThreadLeft (s : ServerState) : Prop :=
  s.server.finished = true ∨ s.owner = .destroyed → ∀ t ∈ s.threads, t.pc = .gone

instance (s : ServerState) : Decidable s.NoThreadLeft :=
  inferInstanceAs (Decidable (_ → _))

/-- The step does not begin a `start` of a server that is not finished. -/
def StartsFinished (s : ServerState) (label : ServerLabel) : Prop :=
  ∀ listenType, label = .start listenType → s.server.finished = true

/-- The threads that have not made their last access. -/
def liveThreads (s : ServerState) : Nat := s.threads.countP AcceptThread.live

end ServerState

/-- What a step of a thread can do to the server: nothing, or its last access. -/
theorem AcceptThread.step_cases {t t' : AcceptThread} {server server' : TCPServer}
    {outcome : AcceptOutcome} (h : t.step server outcome = some (t', server')) :
    t.live = true ∧
      ((t'.live = true ∧ server' = server) ∨
        (t'.live = false ∧ server' = { server with finished := true })) := by
  obtain ⟨listenType, pc, errno⟩ := t
  cases pc with
  | wait | gone => simp [step] at h
  | storeFinished =>
      -- the only store of a thread, and its last access
      obtain ⟨rfl, rfl⟩ := Prod.mk.inj (Option.some.inj h)
      exact ⟨rfl, .inr ⟨rfl, rfl⟩⟩
  | setup | loopTest | socketTest | accept | recheck | handle =>
      obtain ⟨rfl, rfl⟩ := Prod.mk.inj (Option.some.inj h)
      refine ⟨rfl, .inl ⟨?_, rfl⟩⟩
      simp only [live, loopBody, bne_iff_ne, ne_eq]
      repeat' split
      all_goals exact AcceptPc.noConfusion

/-- A thread whose `epoll_wait` returns goes on with the test behind it. -/
theorem AcceptThread.wakes_cases {t t' : AcceptThread} {answer : WaitAnswer}
    (h : t.wakes answer = some t') :
    t.pc = .wait ∧ (answer = .reported ∨ t.listenType = .timed) ∧
      t' = { t with pc := .recheck } := by
  obtain ⟨listenType, pc, errno⟩ := t
  cases pc with
  | wait =>
      cases answer with
      | reported => exact ⟨rfl, .inl rfl, (Option.some.inj h).symm⟩
      | timedOut =>
          cases listenType with
          | timed => exact ⟨rfl, .inr rfl, (Option.some.inj h).symm⟩
          | blocked | unblocked => cases h
  | _ => cases h

/-- The owner is between the store of `false` in `start` and the end of a `start_listen` that has
not failed. -/
def OwnerPc.listening : OwnerPc → Bool
  | .closeOld _ | .openSocket _ | .configure _ => true
  | _ => false

/-- The owner is inside `start`, or the destructor has returned. -/
def OwnerPc.alone : OwnerPc → Bool
  | .storeUnfinished _ | .closeOld _ | .openSocket _ | .configure _ | .storeFinished
  | .storeDisabled | .destroyed => true
  | .idle | .closeMaster | .waitFinished => false

theorem OwnerPc.alone_of_listening {owner : OwnerPc} (h : owner.listening = true) :
    owner.alone = true := by
  cases owner <;> first | rfl | cases h

namespace ServerState

variable {s s' : ServerState}

/-- How a number of threads changes with one of them. -/
theorem countP_set (p : AcceptThread → Bool) {i : Nat} {t : AcceptThread} (t' : AcceptThread)
    (hget : s.threads[i]? = some t) :
    (s.threads.set i t').countP p + (if p t then 1 else 0) =
      s.threads.countP p + if p t' then 1 else 0 := by
  obtain ⟨hi, hti⟩ := List.getElem?_eq_some_iff.mp hget
  have hcounted : p t = true → 0 < s.threads.countP p := fun ht =>
    List.countP_pos_iff.mpr ⟨t, List.mem_of_getElem? hget, ht⟩
  rw [List.countP_set hi, hti]
  cases ht : p t with
  | true =>
      have hpos := hcounted ht
      simp only [if_true]
      omega
  | false => simp

/-- What a step of a thread does to the number of threads that have not ended. -/
theorem threadStep_cases {i : Nat} {outcome : AcceptOutcome}
    (h : s.threadStep i outcome = some s') :
    s'.owner = s.owner ∧ 0 < s.liveThreads ∧
      ((s'.liveThreads = s.liveThreads ∧ s'.server = s.server) ∨
        (s'.liveThreads + 1 = s.liveThreads ∧ s'.server = { s.server with finished := true })) := by
  unfold threadStep at h
  cases hget : s.threads[i]? with
  | none => simp [hget] at h
  | some t =>
      simp only [hget, Option.map_eq_some_iff, Prod.exists] at h
      obtain ⟨t', server, hstep, rfl⟩ := h
      obtain ⟨hlive, hnext⟩ := AcceptThread.step_cases hstep
      have hpos : 0 < s.liveThreads :=
        List.countP_pos_iff.mpr ⟨t, List.mem_of_getElem? hget, hlive⟩
      have hcount := countP_set AcceptThread.live t' hget
      rw [hlive, if_pos rfl] at hcount
      refine ⟨rfl, hpos, ?_⟩
      obtain ⟨hlive', hserver⟩ | ⟨hgone, hserver⟩ := hnext
      · rw [hlive', if_pos rfl] at hcount
        exact .inl ⟨Nat.add_right_cancel hcount, hserver⟩
      · simp only [hgone, Bool.false_eq_true, if_false] at hcount
        exact .inr ⟨hcount, hserver⟩

/-- A return of `epoll_wait` ends no thread. -/
theorem wakesStep_cases {i : Nat} {answer : WaitAnswer} (h : s.wakesStep i answer = some s') :
    s'.server = s.server ∧ s'.owner = s.owner ∧ 0 < s.liveThreads ∧
      s'.liveThreads = s.liveThreads := by
  unfold wakesStep at h
  cases hget : s.threads[i]? with
  | none => simp [hget] at h
  | some t =>
      simp only [hget, Option.map_eq_some_iff] at h
      obtain ⟨t', hwakes, rfl⟩ := h
      obtain ⟨hpc, -, rfl⟩ := AcceptThread.wakes_cases hwakes
      have hlive : t.live = true := by simp [AcceptThread.live, hpc]
      have hlive' : AcceptThread.live { t with pc := .recheck } = true := rfl
      have hcount := countP_set AcceptThread.live { t with pc := .recheck } hget
      rw [hlive, hlive', if_pos rfl] at hcount
      refine ⟨rfl, rfl, List.countP_pos_iff.mpr ⟨t, List.mem_of_getElem? hget, hlive⟩, ?_⟩
      exact Nat.add_right_cancel hcount

/-- No thread is left exactly when none has not ended. -/
theorem liveThreads_eq_zero_iff : s.liveThreads = 0 ↔ ∀ t ∈ s.threads, t.pc = .gone := by
  simp [liveThreads, AcceptThread.live, List.countP_eq_zero]

end ServerState

/-! ## What the flag stands for -/

/-- What the finished flag depends on: the flag, the owner, and the number of threads that have not
ended. -/
structure Summary where
  finished : Bool
  owner : OwnerPc
  live : Nat

namespace Summary

/-- What a step can do to a summary. -/
inductive Step : Summary → ServerLabel → Summary → Prop where
  | start {f n lt} : Step ⟨f, .idle, n⟩ (.start lt) ⟨f, .storeUnfinished lt, n⟩
  | storeUnfinished {f n lt} : Step ⟨f, .storeUnfinished lt, n⟩ .owner ⟨false, .closeOld lt, n⟩
  | closeOld {f n lt} : Step ⟨f, .closeOld lt, n⟩ .owner ⟨f, .openSocket lt, n⟩
  | socketFails {f n lt result} :
      Step ⟨f, .openSocket lt, n⟩ (.socket result) ⟨f, .storeFinished, n⟩
  | socketOpens {f n lt result} :
      Step ⟨f, .openSocket lt, n⟩ (.socket result) ⟨f, .configure lt, n⟩
  | listenFails {f n lt answers} :
      Step ⟨f, .configure lt, n⟩ (.configure answers) ⟨f, .storeFinished, n⟩
  | spawns {f n lt answers} :
      Step ⟨f, .configure lt, n⟩ (.configure answers) ⟨f, .idle, n + 1⟩
  | storeFinished {f n} : Step ⟨f, .storeFinished, n⟩ .owner ⟨true, .storeDisabled, n⟩
  | storeDisabled {f n} : Step ⟨f, .storeDisabled, n⟩ .owner ⟨f, .idle, n⟩
  | stop {f owner n} : Step ⟨f, owner, n⟩ .stop ⟨f, owner, n⟩
  | destroy {f n} : Step ⟨f, .idle, n⟩ .destroy ⟨f, .closeMaster, n⟩
  | closeMaster {f n} : Step ⟨f, .closeMaster, n⟩ .owner ⟨f, .waitFinished, n⟩
  | destroyed {n} : Step ⟨true, .waitFinished, n⟩ .owner ⟨true, .destroyed, n⟩
  | threadMoves {f owner n i outcome} :
      Step ⟨f, owner, n + 1⟩ (.thread i outcome) ⟨f, owner, n + 1⟩
  | threadEnds {f owner n i outcome} :
      Step ⟨f, owner, n + 1⟩ (.thread i outcome) ⟨true, owner, n⟩
  | threadWakes {f owner n i answer} :
      Step ⟨f, owner, n + 1⟩ (.wakes i answer) ⟨f, owner, n + 1⟩

variable {a b : Summary} {label : ServerLabel}

/-- What holds as long as every `start` finds the server finished: at most one thread runs, and
none beside a finished server or inside `start`. -/
structure Inv (a : Summary) : Prop where
  single : a.live ≤ 1
  quiet : a.finished = true ∨ a.owner.alone = true → a.live = 0
  listening : a.owner.listening = true → a.finished = false

/-- A step that does not begin a `start` of a server that is not finished keeps the invariant. -/
theorem Step.inv (h : Step a label b) (hinv : a.Inv)
    (hstart : ∀ lt, label = .start lt → a.finished = true) : b.Inv := by
  obtain ⟨hsingle, hquiet, hlistening⟩ := hinv
  cases h with
  | start =>
      have hnone := hquiet (.inl (hstart _ rfl))
      exact ⟨hsingle, fun _ => hnone, nofun⟩
  | stop | threadMoves | threadWakes => exact ⟨hsingle, hquiet, hlistening⟩
  | spawns =>
      -- the owner was inside `start`, so the new thread is the only one
      have hnone := hquiet (.inr rfl)
      have hnot := hlistening rfl
      refine ⟨by simp_all, ?_, nofun⟩
      rintro (hfinished | halone)
      · simp_all
      · cases halone
  | @threadEnds f owner n =>
      -- the thread that sets the flag was the only one
      have hone : n + 1 ≤ 1 := hsingle
      have hnone : n = 0 := by omega
      refine ⟨Nat.le_of_succ_le hone, fun _ => hnone, fun howner => ?_⟩
      have halone := hquiet (.inr (OwnerPc.alone_of_listening howner))
      cases halone
  | storeUnfinished =>
      have hnone := hquiet (.inr rfl)
      exact ⟨hsingle, fun _ => hnone, fun _ => rfl⟩
  | closeOld | socketOpens =>
      have hnone := hquiet (.inr rfl)
      exact ⟨hsingle, fun _ => hnone, fun _ => hlistening rfl⟩
  | socketFails | listenFails | storeFinished | storeDisabled =>
      have hnone := hquiet (.inr rfl)
      exact ⟨hsingle, fun _ => hnone, nofun⟩
  | destroy | closeMaster =>
      refine ⟨hsingle, ?_, nofun⟩
      rintro (hfinished | halone)
      · exact hquiet (.inl hfinished)
      · cases halone
  | destroyed =>
      have hnone := hquiet (.inl rfl)
      exact ⟨hsingle, fun _ => hnone, nofun⟩

/-- Without a thread that has not ended, the server is finished or inside `start`. -/
def Backed (a : Summary) : Prop :=
  a.finished = true ∨ a.owner.listening = true ∨ a.owner = .storeFinished ∨ 0 < a.live

theorem Step.backed (h : Step a label b) (hbacked : a.Backed) : b.Backed := by
  cases h <;> simp_all [Backed, OwnerPc.listening]

end Summary

namespace ServerState

variable {s s' : ServerState} {label : ServerLabel}

/-- The summary of a state. -/
def summary (s : ServerState) : Summary := ⟨s.server.finished, s.owner, s.liveThreads⟩

/-- Every step of the server is one of its summary. -/
theorem step_summary (h : s.step label = some s') : Summary.Step s.summary label s'.summary := by
  obtain ⟨server, owner, threads⟩ := s
  cases label with
  | start lt =>
      cases owner with
      | idle =>
          obtain rfl := Option.some.inj h
          exact .start
      | _ => simp [step] at h
  | stop =>
      simp only [step] at h
      split at h
      · cases h
      · obtain rfl := Option.some.inj h
        exact .stop
  | destroy =>
      cases owner with
      | idle =>
          obtain rfl := Option.some.inj h
          exact .destroy
      | _ => simp [step] at h
  | owner =>
      cases owner with
      | storeUnfinished lt =>
          obtain rfl := Option.some.inj h
          exact .storeUnfinished
      | closeOld lt =>
          obtain rfl := Option.some.inj h
          exact .closeOld
      | storeFinished =>
          obtain rfl := Option.some.inj h
          exact .storeFinished
      | storeDisabled =>
          obtain rfl := Option.some.inj h
          exact .storeDisabled
      | closeMaster =>
          obtain rfl := Option.some.inj h
          exact .closeMaster
      | waitFinished =>
          simp only [step, ownerStep] at h
          split at h
          · rename_i hfinished
            obtain rfl := Option.some.inj h
            simp only [summary, hfinished]
            exact .destroyed
          · cases h
      | idle | openSocket lt | configure lt | destroyed => simp [step, ownerStep] at h
  | socket result =>
      cases owner with
      | openSocket lt =>
          obtain rfl := Option.some.inj h
          simp only [summary, TCPServer.openSocket_finished]
          split
          · exact .socketFails
          · exact .socketOpens
      | _ => simp [step, socketStep] at h
  | configure answers =>
      cases owner with
      | configure lt =>
          have hfinished := server.configure_finished answers
          simp only [step, configureStep] at h
          split at h
          · obtain rfl := Option.some.inj h
            simp only [summary, hfinished]
            exact .listenFails
          · obtain rfl := Option.some.inj h
            simp only [summary, hfinished, liveThreads, List.countP_append]
            exact .spawns
      | _ => simp [step, configureStep] at h
  | thread i outcome =>
      obtain ⟨howner, hpos, ⟨hlive, hserver⟩ | ⟨hlive, hserver⟩⟩ := threadStep_cases h
      · obtain ⟨n, hn⟩ := Nat.exists_eq_add_one.mpr hpos
        simp only [summary, howner, hserver, hlive, hn]
        exact .threadMoves
      · simp only [summary, howner, hserver, ← hlive]
        exact .threadEnds
  | wakes i answer =>
      obtain ⟨hserver, howner, hpos, hlive⟩ := wakesStep_cases h
      obtain ⟨n, hn⟩ := Nat.exists_eq_add_one.mpr hpos
      simp only [summary, howner, hserver, hlive, hn]
      exact .threadWakes

/-- Without steps of the threads in between, a call of `start` has the effect of `TCPServer::start`
and spawns a thread unless `start_listen` fails. -/
theorem run_start (server : TCPServer) (threads : List AcceptThread) (lt : NetServerListenType)
    (result : Int) (answers : ListenAnswers) :
    ∃ labels, machine.run (.start lt :: labels) ⟨server, .idle, threads⟩ =
      some ⟨server.start result answers, .idle, threads ++
        if (server.startListen result answers).1 < 0 then [] else [⟨lt, .setup, 0⟩]⟩ := by
  by_cases hsocket : result = -1
  · refine ⟨[.owner, .owner, .socket result, .owner, .owner], ?_⟩
    simp [machine, Machine.run, step, ownerStep, socketStep, TCPServer.start,
      TCPServer.startListen, TCPServer.stop, hsocket]
  · have hstatus := (server.resetStatus.openSocket result).configure_status answers
      ({ server with enable := true, finished := false }.resetStatus.openSocket result)
    by_cases hfailed : ((server.resetStatus.openSocket result).configure answers).1 < 0
    · have hfailed' := hstatus ▸ hfailed
      refine ⟨[.owner, .owner, .socket result, .configure answers, .owner, .owner], ?_⟩
      simp [machine, Machine.run, step, ownerStep, socketStep, configureStep, TCPServer.start,
        TCPServer.startListen, TCPServer.stop, hsocket, hfailed, hfailed']
    · have hfailed' := hstatus ▸ hfailed
      refine ⟨[.owner, .owner, .socket result, .configure answers], ?_⟩
      simp [machine, Machine.run, step, ownerStep, socketStep, configureStep, TCPServer.start,
        TCPServer.startListen, hsocket, hfailed, hfailed']

/-- In the runs whose `start` calls all find the server finished, the flag tells the truth. -/
theorem reachable_inv (h : machine.ReachableUnder StartsFinished s) : s.summary.Inv := by
  have hinit : ∀ s, machine.init s → s.summary.Inv := by
    rintro s rfl
    exact ⟨Nat.zero_le 1, fun _ => rfl, nofun⟩
  have hkept : ∀ s s' label, s.summary.Inv → StartsFinished s label →
      machine.step s label = some s' → s'.summary.Inv := by
    intro s s' label hinv hguard hstep
    exact (step_summary hstep).inv hinv hguard
  exact Machine.ReachableUnder.invariant hinit hkept h

/-- In every run, a server that is not finished has a thread to finish it, or is being started. -/
theorem reachable_backed (h : machine.Reachable s) : s.summary.Backed := by
  have hinit : ∀ s, machine.init s → s.summary.Backed := by
    rintro s rfl
    exact .inl rfl
  have hkept : ∀ s s' label, s.summary.Backed → machine.step s label = some s' →
      s'.summary.Backed := by
    intro s s' label hbacked hstep
    exact (step_summary hstep).backed hbacked
  exact Machine.Reachable.invariant hinit hkept h

/-- A `start` beside a thread that has not ended can fail at `socket` before that thread moves. -/
theorem failing_start (hreach : machine.Reachable s) (hnot : s.server.finished = false)
    (lt : NetServerListenType) (h : s.step (.start lt) = some s') :
    ∃ s'', machine.run [.owner, .owner, .socket (-1), .owner] s' = some s'' ∧
      ¬ s''.NoThreadLeft := by
  obtain ⟨server, owner, threads⟩ := s
  cases owner with
  | idle =>
      obtain rfl := Option.some.inj h
      -- a server that is not finished and not being started has a thread
      rcases reachable_backed hreach with hfinished | hlistening | hfailed | hlive
      · cases hfinished.symm.trans hnot
      · cases hlistening
      · cases hfailed
      · refine ⟨_, rfl, fun hnone => ?_⟩
        have hzero := liveThreads_eq_zero_iff.mpr (hnone (.inl rfl))
        exact absurd hzero (Nat.ne_of_gt hlive)
  | _ => simp [step] at h

/-- In every run in which each `start` finds the server finished, a server that is finished or
destroyed has no thread left. After any other `start` there is a run that breaks this. -/
theorem noThreadLeft_of_startsFinished (s : ServerState) :
    (machine.ReachableUnder StartsFinished s → s.NoThreadLeft) ∧
    (machine.Reachable s → ∀ label s', s.step label = some s' → ¬ StartsFinished s label →
      ∃ labels s'', machine.run labels s' = some s'' ∧ ¬ s''.NoThreadLeft) := by
  refine ⟨fun hreach => ?_, fun hreach label s' hstep hbad => ?_⟩
  · intro hfinished
    have hquiet := (reachable_inv hreach).quiet
    refine liveThreads_eq_zero_iff.mp (hquiet (hfinished.imp_right fun howner => ?_))
    simp only [summary, howner]
    rfl
  · simp only [StartsFinished, not_forall, Bool.not_eq_true] at hbad
    obtain ⟨lt, rfl, hnot⟩ := hbad
    obtain ⟨s'', hrun, hleft⟩ := failing_start hreach hnot lt hstep
    exact ⟨_, s'', hrun, hleft⟩

/-- A server is started, stopped, and finished by its thread. Another is started a second time
while its thread runs. -/
theorem noThreadLeft_of_startsFinished_restart :
    (∃ s : ServerState, s.server.finished = true ∧ s.threads.length = 1 ∧ s.NoThreadLeft) ∧
      ∃ labels s, machine.run labels initial = some s ∧ ¬ s.NoThreadLeft := by
  let calling : ServerState := ⟨.init, .storeUnfinished .unblocked, []⟩
  let running : ServerState := ⟨⟨3, .ok, true, false⟩, .idle, [⟨.unblocked, .setup, 0⟩]⟩
  let again : ServerState := { running with owner := .storeUnfinished .timed }
  let stopped : ServerState := ⟨⟨3, .ok, false, true⟩, .idle, [⟨.unblocked, .gone, 0⟩]⟩
  have hcalling : machine.ReachableUnder StartsFinished calling :=
    .next (.start rfl) (fun _ _ => rfl) (rfl : machine.step initial (.start .unblocked) = _)
  have hstopped : machine.ReachableUnder StartsFinished stopped := by
    refine hcalling.run [.owner, .owner, .socket 3, .configure ⟨0, 0, 0⟩, .stop,
      .thread 0 (.failed EAGAIN), .thread 0 (.failed EAGAIN), .thread 0 (.failed EAGAIN)] ?_ rfl
    simp [StartsFinished]
  have hrunning : machine.run
      [.start .unblocked, .owner, .owner, .socket 3, .configure ⟨0, 0, 0⟩] initial =
      some running := rfl
  obtain ⟨labels, s, hrun, hleft⟩ :=
    (noThreadLeft_of_startsFinished running).2 (Machine.reachable_of_run _ rfl hrunning)
      (.start .timed) again rfl fun hfinished => by cases hfinished .timed rfl
  refine ⟨⟨stopped, rfl, rfl, (noThreadLeft_of_startsFinished stopped).1 hstopped⟩, ?_⟩
  refine ⟨[.start .unblocked, .owner, .owner, .socket 3, .configure ⟨0, 0, 0⟩, .start .timed] ++
    labels, s, ?_, hleft⟩
  exact hrun

/-- A second `start` fails while the first thread runs; the destructor then returns at once. -/
theorem finished_beside_thread :
    ∃ labels s, machine.run labels initial = some s ∧ s.server.finished = true ∧
      s.owner = .destroyed ∧ ¬ s.NoThreadLeft := by
  refine ⟨[.start .unblocked, .owner, .owner, .socket 3, .configure ⟨0, 0, 0⟩,
    .start .unblocked, .owner, .owner, .socket 3, .configure ⟨0, -1, 0⟩, .owner, .owner,
    .destroy, .owner, .owner], _, rfl, ?_⟩
  decide

end ServerState

end Shovel.Network
