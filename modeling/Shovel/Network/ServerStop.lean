import Shovel.Library.Population
import Shovel.Library.Progress
import Shovel.Network.AcceptThreads

/-!
# Stopping and destroying a server

Once the server is not enabled and nobody starts it again, what its threads have
left to do is bounded: `stopRank` is the number of steps that are left to a
thread, and a `start_listen` on its way can add one thread more. The destructor
waits for `m_atomic_server_finished`, which a thread sets when it ends.

A thread of `_thread_blocked_accept` gives `epoll_wait` no timeout and leaves it
only when an event is reported: neither the flag nor the close of the master
socket wakes it. Such a thread outlives `stop`, as `TCPServer.h` warns, and a
destructor that has nobody else to wait for does not return. A step of a thread in
`accept` or in the callback is the return of that call.
-/

namespace Shovel.Network

open Transition

/-- The steps that are left to an accept thread once the server is not enabled. -/
def AcceptPc.stopRank : AcceptPc → Nat
  | .gone => 0
  | .storeFinished => 1
  | .loopTest | .recheck => 2
  | .setup | .accept | .wait | .handle => 3
  | .socketTest => 4

/-- With the server not enabled, every step of a thread leaves it less to do. -/
theorem AcceptThread.step_stopRank {t t' : AcceptThread} {server server' : TCPServer}
    {outcome : AcceptOutcome} (henable : server.enable = false)
    (h : t.step server outcome = some (t', server')) :
    server'.enable = false ∧ t'.pc.stopRank + 1 ≤ t.pc.stopRank := by
  obtain ⟨listenType, pc, errno⟩ := t
  cases pc with
  | wait | gone => simp [step] at h
  | setup | loopTest | recheck | handle | storeFinished =>
      obtain ⟨rfl, rfl⟩ := Prod.mk.inj (Option.some.inj h)
      simp [henable, AcceptPc.stopRank]
  | socketTest =>
      obtain ⟨rfl, rfl⟩ := Prod.mk.inj (Option.some.inj h)
      refine ⟨henable, ?_⟩
      -- without a master socket the loop goes on at once
      by_cases hsocket : server.masterSocket ≤ 0 <;> simp [hsocket, AcceptPc.stopRank]
  | accept =>
      obtain ⟨rfl, rfl⟩ := Prod.mk.inj (Option.some.inj h)
      refine ⟨henable, ?_⟩
      cases unblockedAccept errno outcome <;> simp [AcceptPc.stopRank]

namespace AcceptThread

variable {t t' : AcceptThread} {server server' : TCPServer} {outcome : AcceptOutcome}

/-- Only in `epoll_wait` and at its end a thread has no step of its own. -/
theorem step_enabled (server : TCPServer) (outcome : AcceptOutcome) (hwait : t.pc ≠ .wait)
    (hgone : t.pc ≠ .gone) : ∃ next, t.step server outcome = some next := by
  obtain ⟨listenType, pc, errno⟩ := t
  cases pc with
  | wait => exact absurd rfl hwait
  | gone => exact absurd rfl hgone
  | _ => exact ⟨_, rfl⟩

/-- The thread stands in an `epoll_wait` without a timeout. -/
def waits (t : AcceptThread) : Bool := t.pc == .wait && t.listenType != .timed

theorem waits_of_ne (h : t.pc ≠ .wait) : t.waits = false := by
  simp [waits, h]

/-- A thread that makes a step does not stand in `epoll_wait`. -/
theorem step_ne_wait (h : t.step server outcome = some (t', server')) : t.pc ≠ .wait := by
  intro hpc
  simp [step, hpc] at h

/-- It comes there only if the server is enabled. -/
theorem step_waits (henable : server.enable = false)
    (h : t.step server outcome = some (t', server')) : t'.waits = false := by
  obtain ⟨listenType, pc, errno⟩ := t
  cases pc with
  | wait | gone => simp [step] at h
  | setup | loopTest | recheck | handle | storeFinished =>
      obtain ⟨rfl, rfl⟩ := Prod.mk.inj (Option.some.inj h)
      simp [henable, waits]
  | socketTest =>
      obtain ⟨rfl, rfl⟩ := Prod.mk.inj (Option.some.inj h)
      by_cases hsocket : server.masterSocket ≤ 0 <;> simp [hsocket, waits]
  | accept =>
      obtain ⟨rfl, rfl⟩ := Prod.mk.inj (Option.some.inj h)
      cases unblockedAccept errno outcome <;> simp [waits]

/-- A timeout ends only a wait that has one. -/
theorem wakes_timedOut (h : t.wakes .timedOut = some t') : t.waits = false := by
  obtain ⟨-, hanswer | htimed, -⟩ := wakes_cases h
  · cases hanswer
  · simp [waits, htimed]

end AcceptThread

namespace TCPServer

@[simp] theorem openSocket_enable (s : TCPServer) (result : Int) :
    (s.openSocket result).enable = s.enable := by
  unfold openSocket
  split <;> rfl

@[simp] theorem configure_enable (s : TCPServer) (answers : ListenAnswers) :
    (s.configure answers).2.enable = s.enable := by
  unfold configure
  repeat' split
  all_goals rfl

end TCPServer

/-- The steps that a thread which is still to be spawned will have left. -/
def OwnerPc.spawnRank : OwnerPc → Nat
  | .storeUnfinished _ | .closeOld _ | .openSocket _ | .configure _ => 3
  | _ => 0

/-- The steps of the destructor that are left. -/
def OwnerPc.destroyRank : OwnerPc → Nat
  | .closeMaster => 2
  | .waitFinished => 1
  | _ => 0

/-- The destructor has been called. -/
def OwnerPc.Destroying : OwnerPc → Prop
  | .closeMaster | .waitFinished | .destroyed => True
  | _ => False

namespace ServerLabel

/-- Nobody calls `start`. -/
def NoStart (label : ServerLabel) : Prop := ∀ listenType, label ≠ .start listenType

/-- A step of a thread, or a return of its `epoll_wait`. -/
def IsThread : ServerLabel → Prop
  | .thread _ _ | .wakes _ _ => True
  | _ => False

/-- A step of a thread, or a return of its `epoll_wait` because the timeout is over. -/
def IsOwn : ServerLabel → Prop
  | .thread _ _ | .wakes _ .timedOut => True
  | _ => False

/-- No `epoll_wait` reports anything. -/
def Silent (label : ServerLabel) : Prop := ∀ i, label ≠ .wakes i .reported

theorem IsOwn.silent {label : ServerLabel} (h : label.IsOwn) : label.Silent := by
  rintro i rfl
  exact h

theorem IsOwn.isThread {label : ServerLabel} (h : label.IsOwn) : label.IsThread := by
  cases label with
  | thread | wakes => trivial
  | _ => exact h.elim

end ServerLabel

namespace Summary

variable {a b : Summary} {label : ServerLabel}

/-- Inside the destructor nobody can call `start`, and the owner stays there. -/
theorem Step.destroying (h : Step a label b) (hcalled : a.owner.Destroying) :
    label.NoStart ∧ b.owner.Destroying := by
  cases h with
  | stop | threadMoves | threadEnds | threadWakes =>
      exact ⟨fun _ => ServerLabel.noConfusion, hcalled⟩
  | closeMaster | destroyed => exact ⟨fun _ => ServerLabel.noConfusion, trivial⟩
  | _ => cases hcalled

/-- Only the call of the destructor leads into it. -/
theorem Step.enters (h : Step a label b) (hbefore : ¬ a.owner.Destroying)
    (hcalled : b.owner.Destroying) : label = .destroy := by
  cases h with
  | destroy => rfl
  | stop | threadMoves | threadEnds | threadWakes | closeMaster | destroyed =>
      exact absurd hcalled hbefore
  | _ => cases hcalled

/-- A destructor that waits for the flag goes on waiting until a thread sets it. -/
theorem Step.waits (h : Step a label b) (howner : a.owner = .closeMaster ∨ a.owner = .waitFinished)
    (hnot : a.finished = false) (hlabel : ¬ label.IsThread) :
    (b.owner = .closeMaster ∨ b.owner = .waitFinished) ∧ b.finished = false := by
  cases h with
  | stop => exact ⟨howner, hnot⟩
  | closeMaster => exact ⟨.inr rfl, hnot⟩
  | destroyed => cases hnot
  | threadMoves | threadEnds | threadWakes => exact absurd trivial hlabel
  | _ => rcases howner with howner | howner <;> cases howner

end Summary

namespace ServerState

variable {s s' : ServerState}

/-- One for a step of a thread and for a return of its `epoll_wait`. -/
def threadMoves (_ : ServerState) : ServerLabel → Nat
  | .thread _ _ | .wakes _ _ => 1
  | _ => 0

/-- The threads that stand in an `epoll_wait` without a timeout. -/
def waiting (s : ServerState) : Nat := s.threads.countP AcceptThread.waits

/-- The steps that are left to all threads together once the server is not enabled. -/
def ranks (s : ServerState) : Nat := Population.listed (fun t => t.pc.stopRank) s.threads

/-- The same with the thread that is still to be spawned. -/
def stepsLeft (s : ServerState) : Nat := s.ranks + s.owner.spawnRank

/-- A list of threads has at most four steps left for each that has not ended. -/
theorem ranks_le (threads : List AcceptThread) :
    Population.listed (fun t => t.pc.stopRank) threads ≤ 4 * threads.countP AcceptThread.live := by
  induction threads with
  | nil => simp [Population.listed]
  | cons t rest ih =>
      rw [Population.listed, List.countP_cons]
      have hhead : t.pc.stopRank ≤ 4 * if t.live then 1 else 0 := by
        cases hpc : t.pc <;> simp [AcceptPc.stopRank, AcceptThread.live, hpc]
      omega

/-- What a step does to the threads: nothing, a further one, a step of one of them, or a return of
its `epoll_wait`. -/
theorem step_threads {label : ServerLabel} (h : s.step label = some s') :
    (¬ label.IsThread ∧ (s'.threads = s.threads ∨
      ∃ lt, s.owner = .configure lt ∧ s'.threads = s.threads ++ [⟨lt, .setup, 0⟩])) ∨
    (s'.owner = s.owner ∧ ∃ i t t', s.threads[i]? = some t ∧ s'.threads = s.threads.set i t' ∧
      ((∃ outcome, label = .thread i outcome ∧ t.step s.server outcome = some (t', s'.server)) ∨
        ∃ answer, label = .wakes i answer ∧ t.wakes answer = some t' ∧ s'.server = s.server)) := by
  obtain ⟨server, owner, threads⟩ := s
  cases label with
  | start lt | destroy =>
      cases owner with
      | idle =>
          obtain rfl := Option.some.inj h
          exact .inl ⟨id, .inl rfl⟩
      | _ => simp [step] at h
  | stop =>
      simp only [step] at h
      split at h
      · cases h
      · obtain rfl := Option.some.inj h
        exact .inl ⟨id, .inl rfl⟩
  | owner =>
      cases owner with
      | waitFinished =>
          simp only [step, ownerStep] at h
          split at h
          · obtain rfl := Option.some.inj h
            exact .inl ⟨id, .inl rfl⟩
          · cases h
      | storeUnfinished lt | closeOld lt | storeFinished | storeDisabled | closeMaster =>
          obtain rfl := Option.some.inj h
          exact .inl ⟨id, .inl rfl⟩
      | idle | openSocket lt | configure lt | destroyed => simp [step, ownerStep] at h
  | socket result =>
      cases owner with
      | openSocket lt =>
          obtain rfl := Option.some.inj h
          exact .inl ⟨id, .inl rfl⟩
      | _ => simp [step, socketStep] at h
  | configure answers =>
      cases owner with
      | configure lt =>
          simp only [step, configureStep] at h
          split at h
          · obtain rfl := Option.some.inj h
            exact .inl ⟨id, .inl rfl⟩
          · obtain rfl := Option.some.inj h
            exact .inl ⟨id, .inr ⟨lt, rfl, rfl⟩⟩
      | _ => simp [step, configureStep] at h
  | thread i outcome =>
      simp only [step, threadStep] at h
      cases hget : threads[i]? with
      | none => simp [hget] at h
      | some t =>
          simp only [hget, Option.map_eq_some_iff, Prod.exists] at h
          obtain ⟨t', server', hstep, rfl⟩ := h
          exact .inr ⟨rfl, i, t, t', hget, rfl, .inl ⟨outcome, rfl, hstep⟩⟩
  | wakes i answer =>
      simp only [step, wakesStep] at h
      cases hget : threads[i]? with
      | none => simp [hget] at h
      | some t =>
          simp only [hget, Option.map_eq_some_iff] at h
          obtain ⟨t', hwakes, rfl⟩ := h
          exact .inr ⟨rfl, i, t, t', hget, rfl, .inr ⟨answer, rfl, hwakes, rfl⟩⟩

/-- A step of a thread takes one from what the threads have left. Only an event changes the number
of those that wait for one. -/
theorem thread_ranks {label : ServerLabel} (hlabel : label.IsThread)
    (henable : s.server.enable = false) (h : s.step label = some s') :
    s'.server.enable = false ∧ s'.owner = s.owner ∧ s'.ranks + 1 ≤ s.ranks ∧
      (label.IsOwn → s'.waiting = s.waiting) := by
  obtain ⟨hnot, -⟩ | ⟨howner, i, t, t', hget, hthreads, hmoves⟩ := step_threads h
  · exact absurd hlabel hnot
  · have hranks := Population.listed_set (fun t : AcceptThread => t.pc.stopRank) t' hget
    have hwaits := countP_set AcceptThread.waits t' hget
    simp only [ranks, waiting, hthreads]
    obtain ⟨outcome, rfl, hstep⟩ | ⟨answer, rfl, hwakes, hserver⟩ := hmoves
    · obtain ⟨henable', hless⟩ := AcceptThread.step_stopRank henable hstep
      rw [AcceptThread.waits_of_ne (AcceptThread.step_ne_wait hstep),
        AcceptThread.step_waits henable hstep] at hwaits
      exact ⟨henable', howner, by omega, fun _ => Nat.add_right_cancel hwaits⟩
    · obtain ⟨hpc, -, rfl⟩ := AcceptThread.wakes_cases hwakes
      rw [show t.pc.stopRank = 3 by rw [hpc]; rfl,
        show AcceptPc.stopRank .recheck = 2 from rfl] at hranks
      refine ⟨hserver ▸ henable, howner, by omega, fun hown => ?_⟩
      obtain rfl : answer = .timedOut := by
        cases answer with
        | reported => exact hown.elim
        | timedOut => rfl
      rw [AcceptThread.wakes_timedOut hwakes,
        AcceptThread.waits_of_ne (t := { t with pc := .recheck }) AcceptPc.noConfusion] at hwaits
      exact Nat.add_right_cancel hwaits

/-- What is left pays for a step of a thread. -/
theorem thread_pays {label : ServerLabel} (hlabel : label.IsThread)
    (henable : s.server.enable = false) (h : s.step label = some s') :
    s'.server.enable = false ∧ s'.stepsLeft + s.threadMoves label ≤ s.stepsLeft := by
  obtain ⟨henable', howner, hranks, -⟩ := thread_ranks hlabel henable h
  have hone : s.threadMoves label = 1 := by
    cases label with
    | thread | wakes => rfl
    | _ => exact hlabel.elim
  refine ⟨henable', ?_⟩
  simp only [stepsLeft, howner, hone]
  omega

/-- As long as nothing is reported, no thread that waits for an event goes on. -/
theorem silent_waiting {label : ServerLabel} (hlabel : label.Silent)
    (h : s.step label = some s') : s.waiting ≤ s'.waiting := by
  obtain ⟨-, hsame | ⟨lt, -, hthreads⟩⟩ | ⟨-, i, t, t', hget, hthreads, hmoves⟩ := step_threads h
  · rw [waiting, waiting, hsame]
  · rw [waiting, waiting, hthreads, List.countP_append]
    exact Nat.le_add_right _ _
  · have hwaits := countP_set AcceptThread.waits t' hget
    have hbefore : t.waits = false := by
      obtain ⟨outcome, rfl, hstep⟩ | ⟨answer, rfl, hwakes, -⟩ := hmoves
      · exact AcceptThread.waits_of_ne (AcceptThread.step_ne_wait hstep)
      · cases answer with
        | reported => exact absurd rfl (hlabel i)
        | timedOut => exact AcceptThread.wakes_timedOut hwakes
    simp only [hbefore, Bool.false_eq_true, if_false] at hwaits
    rw [waiting, waiting, hthreads]
    omega

/-- A step of the owner leaves as many steps of threads. -/
theorem ownerStep_keeps (henable : s.server.enable = false) (h : s.ownerStep = some s') :
    s'.server.enable = false ∧ s'.stepsLeft = s.stepsLeft := by
  obtain ⟨server, owner, threads⟩ := s
  cases owner with
  | waitFinished =>
      simp only [ownerStep] at h
      split at h
      · obtain rfl := Option.some.inj h
        exact ⟨henable, rfl⟩
      · cases h
  | storeDisabled =>
      obtain rfl := Option.some.inj h
      exact ⟨rfl, rfl⟩
  | storeUnfinished lt | closeOld lt | storeFinished | closeMaster =>
      obtain rfl := Option.some.inj h
      exact ⟨henable, rfl⟩
  | idle | openSocket lt | configure lt | destroyed => simp [ownerStep] at h

/-- A new thread has before it what was kept for it. -/
theorem configureStep_pays {answers : ListenAnswers} (henable : s.server.enable = false)
    (h : s.configureStep answers = some s') :
    s'.server.enable = false ∧ s'.stepsLeft ≤ s.stepsLeft := by
  obtain ⟨server, owner, threads⟩ := s
  cases owner with
  | configure lt =>
      simp only [configureStep] at h
      split at h
      · obtain rfl := Option.some.inj h
        exact ⟨by simpa using henable, by simp [stepsLeft, ranks, OwnerPc.spawnRank]⟩
      · obtain rfl := Option.some.inj h
        refine ⟨by simpa using henable, ?_⟩
        simp [stepsLeft, ranks, Population.listed_append, Population.listed, OwnerPc.spawnRank,
          AcceptPc.stopRank]
  | _ => simp [configureStep] at h

/-- As long as nobody starts the server again, the steps that are left pay for every step of a
thread. -/
theorem step_pays {label : ServerLabel} (henable : s.server.enable = false) (hlabel : label.NoStart)
    (h : s.step label = some s') :
    s'.server.enable = false ∧ s'.stepsLeft + s.threadMoves label ≤ s.stepsLeft := by
  cases label with
  | start lt => exact absurd rfl (hlabel lt)
  | stop =>
      simp only [step] at h
      split at h
      · cases h
      · obtain rfl := Option.some.inj h
        exact ⟨rfl, Nat.le_refl _⟩
  | destroy =>
      obtain ⟨server, owner, threads⟩ := s
      cases owner with
      | idle =>
          obtain rfl := Option.some.inj h
          exact ⟨rfl, Nat.le_refl _⟩
      | _ => simp [step] at h
  | owner =>
      obtain ⟨henable', hsame⟩ := ownerStep_keeps henable h
      exact ⟨henable', Nat.le_of_eq hsame⟩
  | socket result =>
      obtain ⟨server, owner, threads⟩ := s
      cases owner with
      | openSocket lt =>
          obtain rfl := Option.some.inj h
          refine ⟨by simpa using henable, ?_⟩
          by_cases hfailed : result = -1 <;>
            simp [hfailed, stepsLeft, ranks, OwnerPc.spawnRank, threadMoves]
      | _ => simp [step, socketStep] at h
  | configure answers => exact configureStep_pays henable h
  | thread i outcome => exact thread_pays (by trivial) henable h
  | wakes i answer => exact thread_pays (by trivial) henable h

/-- A thread that has not ended and does not wait for an event can go on. -/
theorem own_enabled {t : AcceptThread} (hmem : t ∈ s.threads) (hlive : t.live = true)
    (hwaits : t.waits = false) :
    ∃ label s', ServerLabel.IsOwn label ∧ s.step label = some s' := by
  obtain ⟨i, hget⟩ := List.mem_iff_getElem?.mp hmem
  by_cases hpc : t.pc = .wait
  · have htimed : t.listenType = .timed := by simpa [AcceptThread.waits, hpc] using hwaits
    refine ⟨.wakes i .timedOut, { s with threads := s.threads.set i { t with pc := .recheck } },
      trivial, ?_⟩
    simp [step, wakesStep, hget, AcceptThread.wakes, hpc, htimed]
  · obtain ⟨next, hstep⟩ := t.step_enabled s.server (.failed EAGAIN) hpc
      (by simpa [AcceptThread.live] using hlive)
    have hthread : s.step (.thread i (.failed EAGAIN)) =
        some { s with server := next.2, threads := s.threads.set i next.1 } := by
      simp only [step, threadStep, hget, hstep, Option.map_some]
    exact ⟨.thread i (.failed EAGAIN), _, trivial, hthread⟩

/-- While a thread has not ended, one can go on, if need be with an event. -/
theorem thread_enabled (hlive : 0 < s.liveThreads) :
    ∃ label s', ServerLabel.IsThread label ∧ s.step label = some s' := by
  obtain ⟨t, hmem, ht⟩ := List.countP_pos_iff.mp hlive
  cases hwaits : t.waits with
  | false =>
      obtain ⟨label, s', hown, hstep⟩ := own_enabled hmem ht hwaits
      exact ⟨label, s', hown.isThread, hstep⟩
  | true =>
      obtain ⟨i, hget⟩ := List.mem_iff_getElem?.mp hmem
      have hpc : t.pc = .wait := by
        by_contra hne
        cases (AcceptThread.waits_of_ne hne).symm.trans hwaits
      refine ⟨.wakes i .reported, { s with threads := s.threads.set i { t with pc := .recheck } },
        trivial, ?_⟩
      simp [step, wakesStep, hget, AcceptThread.wakes, hpc]

/-- A waiting thread has not ended. -/
theorem waiting_le_live (s : ServerState) : s.waiting ≤ s.liveThreads := by
  refine List.countP_mono_left fun t _ hwaits => ?_
  have hpc : t.pc = .wait := by
    by_contra hne
    cases (AcceptThread.waits_of_ne hne).symm.trans hwaits
  simp [AcceptThread.live, hpc]

/-- Without a thread that can go on by itself, only waiting ones have not ended. -/
theorem live_eq_waiting (h : ∀ t ∈ s.threads, t.live = true → t.waits = true) :
    s.liveThreads = s.waiting :=
  Nat.le_antisymm (List.countP_mono_left h) s.waiting_le_live

/-- Once the server is not enabled, the threads can end, if `epoll_wait` returns to those that wait
for an event. -/
theorem threads_end (henable : s.server.enable = false) :
    ∃ labels final, (∀ label ∈ labels, ServerLabel.IsThread label) ∧
      machine.run labels s = some final ∧ final.owner = s.owner ∧ final.liveThreads = 0 := by
  have hprogress : ∀ state, state.server.enable = false ∧ state.owner = s.owner →
      ¬ state.liveThreads = 0 → ∃ label following, ServerLabel.IsThread label ∧
        machine.step state label = some following ∧
        (following.server.enable = false ∧ following.owner = s.owner) ∧
        following.ranks < state.ranks := by
    rintro state ⟨hstate, howner⟩ hlive
    obtain ⟨label, following, hlabel, hstep⟩ := thread_enabled (Nat.pos_of_ne_zero hlive)
    obtain ⟨henable', howner', hranks, -⟩ := thread_ranks hlabel hstate hstep
    exact ⟨label, following, hlabel, hstep, ⟨henable', howner'.trans howner⟩, hranks⟩
  obtain ⟨labels, final, hlabels, hrun, ⟨-, howner⟩, hnone⟩ :=
    Machine.drains hprogress ⟨henable, rfl⟩
  exact ⟨labels, final, hlabels, hrun, howner, hnone⟩

/-- All but those that wait for an event can end without one. -/
theorem others_end (henable : s.server.enable = false) :
    ∃ labels final, (∀ label ∈ labels, ServerLabel.IsOwn label) ∧
      machine.run labels s = some final ∧ final.owner = s.owner ∧
      (∀ t ∈ final.threads, t.live = true → t.waits = true) ∧
      final.liveThreads = s.waiting := by
  have hprogress : ∀ state,
      (state.server.enable = false ∧ state.owner = s.owner ∧ state.waiting = s.waiting) →
      ¬ (∀ t ∈ state.threads, t.live = true → t.waits = true) →
      ∃ label following, ServerLabel.IsOwn label ∧ machine.step state label = some following ∧
        (following.server.enable = false ∧ following.owner = s.owner ∧
          following.waiting = s.waiting) ∧
        following.ranks < state.ranks := by
    rintro state ⟨hstate, howner, hwaiting⟩ hleft
    push Not at hleft
    obtain ⟨t, hmem, hlive, hwaits⟩ := hleft
    obtain ⟨label, following, hown, hstep⟩ :=
      own_enabled hmem hlive (Bool.eq_false_of_not_eq_true hwaits)
    obtain ⟨henable', howner', hranks, hsame⟩ := thread_ranks hown.isThread hstate hstep
    exact ⟨label, following, hown, hstep,
      ⟨henable', howner'.trans howner, (hsame hown).trans hwaiting⟩, hranks⟩
  obtain ⟨labels, final, hlabels, hrun, ⟨-, howner, hwaiting⟩, hleft⟩ :=
    Machine.drains hprogress ⟨henable, rfl, rfl⟩
  exact ⟨labels, final, hlabels, hrun, howner, hleft, (live_eq_waiting hleft).trans hwaiting⟩

/-- The destructor disables the server before it does anything else. -/
theorem reachable_destroying (h : machine.Reachable s) (hcalled : s.owner.Destroying) :
    s.server.enable = false := by
  have hinit : ∀ s, machine.init s → s.owner.Destroying → s.server.enable = false := by
    rintro s rfl hcalled
    cases hcalled
  have hkept : ∀ s s' label, (s.owner.Destroying → s.server.enable = false) →
      machine.step s label = some s' → s'.owner.Destroying → s'.server.enable = false := by
    intro s s' label hinv hstep hcalled'
    by_cases hcalled : s.owner.Destroying
    · exact (step_pays (hinv hcalled) ((step_summary hstep).destroying hcalled).1 hstep).1
    · obtain rfl := (step_summary hstep).enters hcalled hcalled'
      obtain ⟨server, owner, threads⟩ := s
      cases owner with
      | idle =>
          obtain rfl := Option.some.inj hstep
          rfl
      | _ => simp [machine, step] at hstep
  exact Machine.Reachable.invariant hinit hkept h hcalled

/-- The destructor has nobody to wait for, or a thread that can set the flag by itself. -/
def CanFinish (s : ServerState) : Prop :=
  s.server.finished = true ∨ ∃ t ∈ s.threads, t.live = true ∧ t.waits = false

/-- The destructor has not returned, and every thread that could set the flag for it waits for an
event. -/
structure Stuck (s : ServerState) : Prop where
  waits : s.owner = .closeMaster ∨ s.owner = .waitFinished
  unfinished : s.server.finished = false
  threads : ∀ t ∈ s.threads, t.live = true → t.waits = true

theorem stuck_iff (hcalled : s.owner.Destroying) :
    s.Stuck ↔ s.owner ≠ .destroyed ∧ ¬ s.CanFinish := by
  constructor
  · rintro ⟨howner, hnot, hall⟩
    refine ⟨fun hlast => ?_, ?_⟩
    · rw [hlast] at howner
      rcases howner with howner | howner <;> cases howner
    · rintro (hfinished | ⟨t, hmem, hlive, hwaits⟩)
      · cases hfinished.symm.trans hnot
      · cases (hall t hmem hlive).symm.trans hwaits
  · rintro ⟨hlast, hnone⟩
    rw [CanFinish, not_or] at hnone
    refine ⟨?_, Bool.eq_false_of_not_eq_true hnone.1, fun t hmem hlive => ?_⟩
    · cases howner : s.owner with
      | closeMaster => exact .inl rfl
      | waitFinished => exact .inr rfl
      | destroyed => exact absurd howner hlast
      | _ => simp [howner, OwnerPc.Destroying] at hcalled
    · by_contra hwaits
      exact hnone.2 ⟨t, hmem, hlive, Bool.eq_false_of_not_eq_true hwaits⟩

/-- As long as nothing is reported, a destructor that is stuck stays so. -/
theorem Stuck.step {label : ServerLabel} (h : s.Stuck) (hlabel : label.Silent)
    (hstep : s.step label = some s') : s'.Stuck := by
  obtain ⟨howner, hnot, hall⟩ := h
  obtain ⟨hother, hthreads⟩ | ⟨-, i, t, t', hget, -, hmoves⟩ := step_threads hstep
  · have hsame : s'.threads = s.threads := by
      obtain hsame | ⟨lt, hconfigure, -⟩ := hthreads
      · exact hsame
      · simp [hconfigure] at howner
    have hnext := (step_summary hstep).waits howner hnot hother
    exact ⟨hnext.1, hnext.2, hsame ▸ hall⟩
  · -- a thread that has made a step did not wait
    have hmem := List.mem_of_getElem? hget
    obtain ⟨outcome, rfl, hown⟩ | ⟨answer, rfl, hwakes, -⟩ := hmoves
    · have hwaits := hall t hmem (AcceptThread.step_cases hown).1
      cases (AcceptThread.waits_of_ne (AcceptThread.step_ne_wait hown)).symm.trans hwaits
    · obtain ⟨hpc, -, -⟩ := AcceptThread.wakes_cases hwakes
      have hwaits := hall t hmem (by simp [AcceptThread.live, hpc])
      cases answer with
      | reported => exact absurd rfl (hlabel i)
      | timedOut => cases (AcceptThread.wakes_timedOut hwakes).symm.trans hwaits

/-- A step of a thread that needs no event leaves the destructor one that can set the flag, or has
set it. -/
theorem own_canFinish {label : ServerLabel} (hlabel : label.IsOwn)
    (henable : s.server.enable = false) (h : s.step label = some s') : s'.CanFinish := by
  obtain ⟨hnot, -⟩ | ⟨-, i, t, t', hget, hthreads, hmoves⟩ := step_threads h
  · exact absurd hlabel.isThread hnot
  · have hmem : t' ∈ s'.threads := by
      rw [hthreads]
      exact List.mem_set (List.getElem?_eq_some_iff.mp hget).1 t'
    obtain ⟨outcome, rfl, hown⟩ | ⟨answer, rfl, hwakes, -⟩ := hmoves
    · obtain ⟨-, ⟨hlive, -⟩ | ⟨-, hserver⟩⟩ := AcceptThread.step_cases hown
      · exact .inr ⟨t', hmem, hlive, AcceptThread.step_waits henable hown⟩
      · exact .inl (by rw [hserver])
    · obtain ⟨-, -, rfl⟩ := AcceptThread.wakes_cases hwakes
      exact .inr ⟨_, hmem, rfl, rfl⟩

/-- The destructor's own step: it closes the master socket, or returns when the server is
finished. -/
theorem destructor_steps (hcalled : s.owner.Destroying) (hlast : s.owner ≠ .destroyed)
    (hturn : s.owner = .closeMaster ∨ s.server.finished = true) :
    ∃ s', s.step .owner = some s' ∧ s'.owner.Destroying ∧ s'.server.finished = s.server.finished ∧
      s'.threads = s.threads ∧ s'.owner.destroyRank < s.owner.destroyRank := by
  obtain ⟨server, owner, threads⟩ := s
  cases owner with
  | closeMaster => exact ⟨_, rfl, trivial, rfl, rfl, by simp [OwnerPc.destroyRank]⟩
  | waitFinished =>
      have hfinished : server.finished = true := hturn.resolve_left OwnerPc.noConfusion
      exact ⟨_, if_pos hfinished, trivial, rfl, rfl, by simp [OwnerPc.destroyRank]⟩
  | destroyed => exact absurd rfl hlast
  | _ => exact hcalled.elim

/-- From inside the destructor, its steps and allowed ones of the threads lead to its end, if there
is an allowed one whenever it waits for the flag. `free` is what provides for that. -/
theorem destructor_ends_by {allowed : ServerLabel → Prop} {free : ServerState → Prop}
    (hkept : ∀ {state following}, free state →
      following.server.finished = state.server.finished → following.threads = state.threads →
        free following)
    (hthread : ∀ {state}, machine.Reachable state → state.owner.Destroying → free state →
      state.server.finished = false → ∃ label following, allowed label ∧ label.IsThread ∧
        machine.step state label = some following ∧ free following)
    (hreach : machine.Reachable s) (hcalled : s.owner.Destroying)
    (hfree : s.owner = .destroyed ∨ free s) :
    ∃ labels final, (∀ label ∈ labels, label = .owner ∨ allowed label) ∧
      machine.run labels s = some final ∧ final.owner = .destroyed := by
  have hprogress : ∀ state, (machine.Reachable state ∧ state.owner.Destroying ∧
        (state.owner = .destroyed ∨ free state)) →
      ¬ state.owner = .destroyed → ∃ label following, (label = .owner ∨ allowed label) ∧
        machine.step state label = some following ∧
        (machine.Reachable following ∧ following.owner.Destroying ∧
          (following.owner = .destroyed ∨ free following)) ∧
        following.ranks + following.owner.destroyRank < state.ranks + state.owner.destroyRank := by
    rintro state ⟨hstate, hcalled, hfree⟩ hlast
    have hfree := hfree.resolve_left hlast
    by_cases hturn : state.owner = .closeMaster ∨ state.server.finished = true
    · obtain ⟨following, hstep, hcalled', hfinished, hthreads, hless⟩ :=
        destructor_steps hcalled hlast hturn
      have hown : machine.step state .owner = some following := hstep
      refine ⟨.owner, following, .inl rfl, hown,
        ⟨hstate.step hown, hcalled', .inr (hkept hfree hfinished hthreads)⟩, ?_⟩
      rw [ranks, hthreads]
      exact Nat.add_lt_add_left hless _
    · -- a thread keeps it waiting
      rw [not_or] at hturn
      obtain ⟨label, following, hallowed, hlabel, hstep, hfree'⟩ :=
        hthread hstate hcalled hfree (Bool.eq_false_of_not_eq_true hturn.2)
      have henable := reachable_destroying hstate hcalled
      obtain ⟨-, howner, hranks, -⟩ := thread_ranks hlabel henable hstep
      refine ⟨label, following, .inr hallowed, hstep,
        ⟨hstate.step hstep, howner ▸ hcalled, .inr hfree'⟩, ?_⟩
      rw [howner]
      omega
  obtain ⟨labels, final, hlabels, hrun, -, hended⟩ :=
    Machine.drains hprogress ⟨hreach, hcalled, hfree⟩
  exact ⟨labels, final, hlabels, hrun, hended⟩

/-- A destructor that waits for the flag has a thread that will set it. -/
theorem destructor_live (hreach : machine.Reachable s) (hcalled : s.owner.Destroying)
    (hnot : s.server.finished = false) : 0 < s.liveThreads := by
  rcases reachable_backed hreach with hfinished | hlistening | hfailed | hlive
  · cases hfinished.symm.trans hnot
  · cases howner : s.owner <;> simp_all [summary, OwnerPc.listening, OwnerPc.Destroying]
  · exact absurd (hfailed ▸ hcalled : OwnerPc.Destroying .storeFinished) id
  · exact hlive

/-- The steps of all threads lead to its end, if `epoll_wait` returns to those that wait for an
event. -/
theorem destructor_ends (hreach : machine.Reachable s) (hcalled : s.owner.Destroying) :
    ∃ labels final, (∀ label ∈ labels, label = .owner ∨ ServerLabel.IsThread label) ∧
      machine.run labels s = some final ∧ final.owner = .destroyed := by
  have hthread : ∀ {state}, machine.Reachable state → state.owner.Destroying → True →
      state.server.finished = false → ∃ label following, ServerLabel.IsThread label ∧
        label.IsThread ∧ machine.step state label = some following ∧ True := by
    intro state hstate hcalled _ hnot
    obtain ⟨label, following, hlabel, hstep⟩ :=
      thread_enabled (destructor_live hstate hcalled hnot)
    exact ⟨label, following, hlabel, hlabel, hstep, trivial⟩
  exact destructor_ends_by (fun _ _ _ => trivial) hthread hreach hcalled (.inr trivial)

/-- Where the server is finished or a thread does not wait for an event, the steps that need none
lead to its end. -/
theorem destructor_ends_alone (hreach : machine.Reachable s) (hcalled : s.owner.Destroying)
    (hfree : s.owner = .destroyed ∨ s.CanFinish) :
    ∃ labels final, (∀ label ∈ labels, label = .owner ∨ ServerLabel.IsOwn label) ∧
      machine.run labels s = some final ∧ final.owner = .destroyed := by
  have hkept : ∀ {state following : ServerState}, state.CanFinish →
      following.server.finished = state.server.finished → following.threads = state.threads →
        following.CanFinish := by
    intro state following hcan hfinished hthreads
    rw [CanFinish, hfinished, hthreads]
    exact hcan
  have hthread : ∀ {state}, machine.Reachable state → state.owner.Destroying → state.CanFinish →
      state.server.finished = false → ∃ label following, ServerLabel.IsOwn label ∧
        label.IsThread ∧ machine.step state label = some following ∧ following.CanFinish := by
    intro state hstate hcalled hcan hnot
    obtain ⟨t, hmem, hlive, hwaits⟩ := hcan.resolve_left (by simp [hnot])
    obtain ⟨label, following, hown, hstep⟩ := own_enabled hmem hlive hwaits
    have henable := reachable_destroying hstate hcalled
    exact ⟨label, following, hown, hown.isThread, hstep, own_canFinish hown henable hstep⟩
  exact destructor_ends_by hkept hthread hreach hcalled hfree

end ServerState

end Shovel.Network
