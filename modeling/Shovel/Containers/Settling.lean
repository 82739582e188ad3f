import Shovel.Library.Progress
import Shovel.Containers.Wakeups

/-!
# Blocking calls come to rest

As long as no call begins and no thread wakes by itself, the threads of a stack
of decorators come to rest: every call returns, but for blocking ones that sleep.
`rank` is what is left to a call. A notification makes a sleeping thread go
through its lock and its guard once more, and pays for that, since it is made
once for each call.

At rest the lock is free, and nobody waits for anything but a notification.
-/

namespace Shovel.Containers

open Transition Function Population Bounded

namespace CallPc

variable {T : Type}

/-- The steps that are left to a call, with those of the thread that it may wake. -/
def rank (st : BlockingStack) : CallPc T → Nat
  | .idle => 0
  | .unlock _ => 1
  | .notify _ => 5
  | .inner _ => 6
  | .asleep c =>
      match st.discipline c with
      | .blocking => 5
      | .timed _ => 8
  | .goToSleep c =>
      match st.discipline c with
      | .blocking => 6
      | .timed _ => 9
  | .guard c =>
      match st.discipline c with
      | .blocking => 7
      | .timed _ => 10
  | .lock c =>
      match st.discipline c with
      | .blocking => 8
      | .timed _ => 11
  | .relock c =>
      match st.discipline c with
      | .blocking => 8
      | .timed _ => 7

/-- The call that a thread is in. -/
def current : CallPc T → Option QueueCall
  | .idle => none
  | .lock c | .guard c | .goToSleep c | .asleep c | .relock c | .inner c => some c
  | .notify e | .unlock e => some e.call

/-- The thread is outside of every call, or sleeps in a blocking one. -/
def AtRest (st : BlockingStack) (p : CallPc T) : Prop :=
  p = .idle ∨ ∃ c, p = .asleep c ∧ st.discipline c = .blocking

theorem rank_le (st : BlockingStack) (p : CallPc T) : p.rank st ≤ 11 := by
  cases p with
  | idle | unlock e | notify e | inner c => simp [rank]
  | lock c | guard c | goToSleep c | asleep c | relock c =>
      cases hwait : st.discipline c <;> simp [rank, hwait]

end CallPc

/-- A step of a thread inside a call, a notification, or the end of a limited time. -/
def StackLabel.Onward {T : Type} : StackLabel T → Prop
  | .thread _ | .notify _ _ | .timeout _ => True
  | .call _ _ | .spurious _ => False

namespace StackState

variable {Q T : Type} [QueueBase Q] [Fintype T] [DecidableEq T]
variable {st : BlockingStack} {s s' : StackState Q T} {label : StackLabel T}
variable {Rel : Q → MessageFifo → Prop} {a : MessageFifo}

/-- What is left to all threads together. -/
def stepsLeft (st : BlockingStack) (s : StackState Q T) : Nat := total (CallPc.rank st) s.pc

omit [QueueBase Q] in
/-- A thread that moves to a smaller rank leaves less to all of them. -/
theorem stepsLeft_of_update {t : T} {p : CallPc T} (hpc : s'.pc = update s.pc t p)
    (hless : p.rank st < (s.pc t).rank st) : s'.stepsLeft st < s.stepsLeft st := by
  have hmoved := total_update (CallPc.rank st) s.pc t p
  rw [stepsLeft, stepsLeft, hpc]
  omega

/-- A step of a thread. -/
theorem threadStep_stepsLeft {t : T} (h : s.threadStep st t = some s') :
    s'.stepsLeft st < s.stepsLeft st := by
  unfold threadStep at h
  cases hpc : s.pc t with
  | idle | asleep c | notify e => simp [hpc] at h
  | lock c =>
      simp only [hpc] at h
      split at h
      · obtain rfl := Option.some.inj h
        refine stepsLeft_of_update rfl ?_
        cases hwait : st.discipline c <;> simp [hpc, CallPc.rank, hwait]
      · cases h
  | guard c =>
      simp only [hpc] at h
      obtain rfl := Option.some.inj h
      refine stepsLeft_of_update rfl ?_
      cases hwait : st.discipline c <;> cases guardHolds s.inner c <;>
        simp [hpc, CallPc.rank, hwait]
  | goToSleep c =>
      simp only [hpc] at h
      obtain rfl := Option.some.inj h
      refine stepsLeft_of_update rfl ?_
      cases hwait : st.discipline c <;> simp [hpc, CallPc.rank, hwait]
  | relock c =>
      simp only [hpc] at h
      split at h
      · obtain rfl := Option.some.inj h
        refine stepsLeft_of_update rfl ?_
        cases hwait : st.discipline c <;> simp [hpc, CallPc.rank, hwait]
      · cases h
  | inner c =>
      simp only [hpc] at h
      split at h
      · obtain rfl := Option.some.inj h
        refine stepsLeft_of_update rfl ?_
        simp only [hpc, CallPc.afterAnswer]
        split <;> simp [CallPc.rank]
      · cases h
  | unlock e =>
      simp only [hpc] at h
      obtain rfl := Option.some.inj h
      refine stepsLeft_of_update rfl ?_
      simp [hpc, CallPc.rank]

omit [QueueBase Q] in
/-- What a woken thread has to do again is less than what the notifying one has done. -/
theorem wakes_stepsLeft {t u : T} {e : Event T} {condition : ObjectId} (hpc : s.pc t = .notify e)
    (hasleep : (s.pc u).sleepsOn st condition = true) :
    ((s.goTo u (s.pc u).wake).goTo t (.unlock e)).stepsLeft st < s.stepsLeft st := by
  have hne : t ≠ u := by
    rintro rfl
    simp [hpc, CallPc.sleepsOn] at hasleep
  cases hpcu : s.pc u with
  | asleep c =>
      have hwoke := total_update (CallPc.rank st) s.pc u (.relock c)
      have hwent := total_update (CallPc.rank st) (update s.pc u (.relock c)) t (.unlock e)
      rw [update_of_ne hne, hpc] at hwent
      simp only [stepsLeft, goTo, CallPc.wake]
      cases hwait : st.discipline c <;>
        simp only [hpcu, CallPc.rank, hwait] at hwoke hwent ⊢ <;> omega
  | _ => simp [hpcu, CallPc.sleepsOn] at hasleep

omit [QueueBase Q] in
/-- A notification. -/
theorem notifyStep_stepsLeft {t : T} {woken : Option T} (h : s.notifyStep st t woken = some s') :
    s'.stepsLeft st < s.stepsLeft st := by
  unfold notifyStep at h
  cases hpc : s.pc t with
  | notify e =>
      simp only [hpc] at h
      have halone : CallPc.rank st (.unlock e : CallPc T) < (s.pc t).rank st := by
        simp [hpc, CallPc.rank]
      cases hcond : st.notifies e.call with
      | none => simp [hcond] at h
      | some condition =>
          cases woken with
          | none =>
              simp only [hcond] at h
              split at h
              · cases h
              · obtain rfl := Option.some.inj h
                exact stepsLeft_of_update rfl halone
          | some u =>
              simp only [hcond] at h
              split at h
              · rename_i hasleep
                obtain rfl := Option.some.inj h
                exact wakes_stepsLeft hpc hasleep
              · cases h
  | _ => simp [hpc] at h

/-- Every step that neither begins a call nor wakes a thread without a reason. -/
theorem step_stepsLeft (hlabel : label.Onward) (h : s.step st label = some s') :
    s'.stepsLeft st < s.stepsLeft st := by
  cases label with
  | call t c | spurious t => cases hlabel
  | thread t => exact threadStep_stepsLeft h
  | notify t woken => exact notifyStep_stepsLeft h
  | timeout t =>
      simp only [step] at h
      split at h
      · rename_i c hpc
        split at h
        · cases h
        · rename_i timeoutMs hwait
          obtain rfl := Option.some.inj h
          refine stepsLeft_of_update rfl ?_
          simp [hpc, CallPc.rank, hwait]
      · cases h

/-! ## Nobody is stuck short of rest -/

/-- A thread that is about to notify has a condition variable to notify. -/
def Notifying (st : BlockingStack) (s : StackState Q T) : Prop :=
  ∀ t e, s.pc t = .notify e → (st.notifies e.call).isSome = true

omit [QueueBase Q] [Fintype T] in
/-- A thread moves, and is not about to notify without a condition variable. -/
theorem Notifying.update {t : T} {p : CallPc T} (h : Notifying st s)
    (hpc : s'.pc = Function.update s.pc t p)
    (hp : ∀ e, p = .notify e → (st.notifies e.call).isSome = true) : Notifying st s' := by
  intro u e hu
  rw [hpc] at hu
  by_cases hsame : u = t
  · rw [hsame, update_self] at hu
    exact hp e hu
  · rw [update_of_ne hsame] at hu
    exact h u e hu

omit [Fintype T] in
/-- Every step keeps that. -/
theorem Notifying.moves (h : Notifying st s) (hmoves : Moves st s label s') : Notifying st s' := by
  cases hmoves with
  | begins | locks | sleeps | passes | releases | retests | proceeds | wakesNone | returns
  | wakesUp => exact h.update rfl (by simp)
  | answers hpc hcall =>
      refine h.update rfl fun e he => ?_
      unfold CallPc.afterAnswer at he
      split at he
      · rename_i hsome
        obtain rfl := CallPc.notify.inj he
        exact hsome
      · cases he
  | @wakes t u e condition hpc hcond hasleep =>
      have hwoken : Notifying st (s.goTo u (s.pc u).wake) := by
        refine h.update rfl fun e' he' => ?_
        cases hpcu : s.pc u <;> simp_all [CallPc.wake, CallPc.sleepsOn]
      exact hwoken.update rfl (by simp)

/-- What holds in every reachable state and keeps the threads going. -/
structure GoesOn (Rel : Q → MessageFifo → Prop) (st : BlockingStack) (s : StackState Q T) :
    Prop where
  exclusive : Exclusive st s
  notifying : Notifying st s
  related : ∃ a, Rel s.inner a

/-- It holds of every reachable state. -/
theorem reachable_goesOn (hinner : BoundedQueue Q Rel) {inner : Q} (hrel : Rel inner a)
    (h : (machine (T := T) st inner).Reachable s) : GoesOn Rel st s := by
  have hinit : ∀ state, (machine (T := T) st inner).init state → GoesOn Rel st state := by
    intro state hstate
    obtain rfl := hstate
    exact ⟨fun t => by simp [start, CallPc.holdsMutex], fun t e => by simp [start], a, hrel⟩
  have hstep : ∀ state following label, GoesOn Rel st state →
      (machine (T := T) st inner).step state label = some following → GoesOn Rel st following := by
    intro state following label hstate hnext
    have hmoves := step_moves hnext
    exact ⟨hstate.exclusive.moves hmoves, hstate.notifying.moves hmoves,
      related_moves hinner hstate.related hmoves⟩
  exact h.invariant hinit hstep

/-- A thread inside the critical section can go on. -/
theorem holder_enabled (hinner : BoundedQueue Q Rel) (h : GoesOn Rel st s) {t : T}
    (hholds : (s.pc t).holdsMutex = true) :
    ∃ label s', StackLabel.Onward label ∧ s.step st label = some s' := by
  cases hpc : s.pc t with
  | idle | lock c | asleep c | relock c => simp [hpc, CallPc.holdsMutex] at hholds
  | guard c | goToSleep c | unlock e =>
      exact ⟨.thread t, _, trivial, by simp only [step, threadStep, hpc]; rfl⟩
  | inner c =>
      obtain ⟨b, hrel⟩ := h.related
      obtain ⟨inner, hcall, -⟩ := hinner.simulates.call_eq hrel c
      exact ⟨.thread t, _, trivial, by simp only [step, threadStep, hpc, hcall]; rfl⟩
  | notify e =>
      obtain ⟨condition, hcond⟩ := Option.isSome_iff_exists.mp (h.notifying t e hpc)
      -- it wakes one of the threads that sleep there, if there is one
      by_cases hsome : ∃ u, (s.pc u).sleepsOn st condition = true
      · obtain ⟨u, hu⟩ := hsome
        exact ⟨.notify t (some u), _, trivial, by
          simp only [step, notifyStep, hpc, hcond, hu, if_true]; rfl⟩
      · exact ⟨.notify t none, _, trivial, by
          simp only [step, notifyStep, hpc, hcond, hsome, if_false]; rfl⟩

/-- Short of rest some thread can go on. -/
theorem onward_enabled (hinner : BoundedQueue Q Rel) (h : GoesOn Rel st s)
    (hrest : ¬ ∀ t, (s.pc t).AtRest st) :
    ∃ label s', StackLabel.Onward label ∧ s.step st label = some s' := by
  cases howner : s.owner st.mutex with
  | some u => exact holder_enabled hinner h ((h.exclusive u).mpr howner)
  | none =>
      -- the lock is free: whoever waits for it can take it
      obtain ⟨t, ht⟩ := not_forall.mp hrest
      cases hpc : s.pc t with
      | idle => exact absurd (.inl hpc) ht
      | lock c | relock c =>
          exact ⟨.thread t, _, trivial, by
            simp only [step, threadStep, hpc, BlockingStack.mutexOf_eq, howner, if_true]; rfl⟩
      | asleep c =>
          cases hwait : st.discipline c with
          | blocking => exact absurd (.inr ⟨c, hpc, hwait⟩) ht
          | timed timeoutMs =>
              exact ⟨.timeout t, _, trivial, by simp only [step, hpc, hwait]; rfl⟩
      | guard c | goToSleep c | inner c | notify e | unlock e =>
          have hholds := (h.exclusive t).mp (by rw [hpc]; rfl)
          cases howner.symm.trans hholds

/-- Steps inside the calls lead every thread to rest. -/
theorem settles (hinner : BoundedQueue Q Rel) {inner : Q} (hrel : Rel inner a)
    (hreach : (machine (T := T) st inner).Reachable s) :
    ∃ labels final, (∀ label ∈ labels, StackLabel.Onward label) ∧
      (machine st inner).run labels s = some final ∧
      (machine st inner).Reachable final ∧ ∀ t, (final.pc t).AtRest st := by
  have hprogress : ∀ state, (machine (T := T) st inner).Reachable state →
      ¬ (∀ t, (state.pc t).AtRest st) → ∃ label following, StackLabel.Onward label ∧
        (machine st inner).step state label = some following ∧
        (machine st inner).Reachable following ∧ following.stepsLeft st < state.stepsLeft st := by
    intro state hstate hrest
    obtain ⟨label, following, hlabel, hstep⟩ :=
      onward_enabled hinner (reachable_goesOn hinner hrel hstate) hrest
    have hnext : (machine st inner).step state label = some following := hstep
    exact ⟨label, following, hlabel, hnext, hstate.step hnext, step_stepsLeft hlabel hstep⟩
  exact Machine.drains hprogress hreach

/-! ## What nobody sleeps beside -/

/-- Nobody calls `peek`. -/
def NoPeek (_ : StackState Q T) (label : StackLabel T) : Prop :=
  ∀ t size, label ≠ .call t (.peek size)

/-- No call on its way is a `peek`. -/
def PeekFree (s : StackState Q T) : Prop := ∀ t size, (s.pc t).current ≠ some (.peek size)

omit [QueueBase Q] [Fintype T] in
/-- A thread moves, and comes to no `peek` that it was not in before. -/
theorem PeekFree.update {t : T} {p : CallPc T} (h : PeekFree s)
    (hpc : s'.pc = Function.update s.pc t p)
    (hp : ∀ size, p.current = some (.peek size) → (s.pc t).current = some (.peek size)) :
    PeekFree s' := by
  intro u size
  rw [hpc]
  by_cases hsame : u = t
  · rw [hsame, update_self]
    exact fun hpeek => h t size (hp size hpeek)
  · rw [update_of_ne hsame]
    exact h u size

/-- Where nobody calls `peek`, no call is one. -/
theorem PeekFree.step (h : PeekFree s) (hlabel : NoPeek s label)
    (hstep : s.step st label = some s') : PeekFree s' := by
  cases step_moves hstep with
  | @begins t c hpc =>
      refine h.update rfl fun size hpeek => absurd ?_ (hlabel t size)
      obtain rfl := Option.some.inj hpeek
      rfl
  | locks hpc | sleeps hpc | passes hpc | releases hpc | retests hpc | proceeds hpc
  | wakesNone hpc | wakesUp hpc | returns hpc =>
      exact h.update rfl fun size => by simp [hpc, CallPc.current]
  | @answers t c answer inner hpc hcall =>
      have hsame : (CallPc.afterAnswer st (⟨t, c, answer⟩ : Event T)).current = some c := by
        unfold CallPc.afterAnswer
        split <;> rfl
      exact h.update rfl fun size hpeek => by rwa [hpc, CallPc.current, ← hsame]
  | @wakes t u e condition hpc hcond hasleep =>
      have hne : t ≠ u := by
        rintro rfl
        simp [hpc, CallPc.sleepsOn] at hasleep
      have hwoken : PeekFree (s.goTo u (s.pc u).wake) := by
        refine h.update rfl fun size => ?_
        cases s.pc u <;> simp [CallPc.wake, CallPc.current]
      exact hwoken.update rfl fun size => by simp [goTo, hne, hpc, CallPc.current]

/-- A run without a `peek` has none at the expense of a sleeping thread. -/
theorem passesOn_of_noPeek {inner : Q}
    (h : (machine (T := T) st inner).ReachableUnder NoPeek s) :
    (machine st inner).ReachableUnder (PeekPassesOn st) s ∧ PeekFree s := by
  induction h with
  | start hinit =>
      obtain rfl := hinit
      exact ⟨.start rfl, fun t size => by simp [start, CallPc.current]⟩
  | @next state following label _ hguard hstep ih =>
      obtain ⟨hreach, hfree⟩ := ih
      have hpasses : PeekPassesOn st state label := by
        intro t size hthread hpc
        exact absurd (congrArg CallPc.current hpc) (hfree t size)
      exact ⟨.next hreach hpasses hstep, hfree.step hguard hstep⟩

omit [QueueBase Q] [Fintype T] [DecidableEq T] in
/-- Threads at rest have run all that they can. -/
theorem quiet_of_rest (h : ∀ t, (s.pc t).AtRest st) : s.Quiet := by
  intro t
  rcases h t with hidle | ⟨c, hasleep, -⟩
  · rw [hidle]
    rfl
  · rw [hasleep]
    rfl

end StackState

end Shovel.Containers
