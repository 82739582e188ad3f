import Mathlib.Data.Fintype.Basic
import Mathlib.Logic.Function.Basic
import Shovel.Library.Machine
import Shovel.Containers.Syncs
import Shovel.Containers.History

/-!
# Blocking calls of many threads

A read decorator over a write decorator over an inner queue, used by any number
of threads. `put` runs in the write decorator, `get` and `peek` run in the read
decorator, and all of them lock the mutex that the two layers share. The steps
of a call are those of the source: taking the lock, the test of the guard, going
to sleep on a condition variable, waking and taking the lock again, the call of
the inner queue, `notify_one`, and the return. A sleeping thread may also wake
without a notification, and a timed one because its time is over.

The state keeps the history of the calls of the inner queue and of the calls
that have returned, which the code does not store. `step_moves` says once what a
step can do; that one thread at a time is inside the critical section
(`Exclusive`) and knows its guard there (`GuardKnown`) is derived from it.
-/

namespace Shovel.Containers

open Transition Function Bounded

/-- How a decorator waits while its guard holds: again and again without a limit, or once for a
limited time. -/
inductive Discipline where
  | blocking
  | timed (timeoutMs : Nat)
  deriving DecidableEq, Repr

namespace Discipline

/-- `RQ_BlockWriteDecorator` or `RQ_BlockWriteTimedDecorator`. -/
def writeDecorator : Discipline → Decorator
  | .blocking => .blockWrite
  | .timed timeoutMs => .blockWriteTimed timeoutMs

/-- `RQ_BlockReadDecorator` or `RQ_BlockReadTimedDecorator`. -/
def readDecorator : Discipline → Decorator
  | .blocking => .blockRead
  | .timed timeoutMs => .blockReadTimed timeoutMs

end Discipline

/-- A read decorator over a write decorator, with the objects they hold once both are
constructed. -/
structure BlockingStack where
  reader : Discipline
  writer : Discipline
  readerSyncs : Syncs
  writerSyncs : Syncs
  built : (QueueObject.build () [reader.readDecorator, writer.writeDecorator]).1.allSyncs =
    [readerSyncs, writerSyncs]

namespace BlockingStack

/-- The stack that the two constructors build. -/
def ofDisciplines (reader writer : Discipline) : BlockingStack :=
  ⟨reader, writer, QueueObject.freshSyncs 1, QueueObject.freshSyncs 1, rfl⟩

/-- The discipline of the layer that runs a call. -/
def discipline (st : BlockingStack) : QueueCall → Discipline
  | .put _ => st.writer
  | .get _ | .peek _ => st.reader

/-- The mutex that a call locks. -/
def mutexOf (st : BlockingStack) : QueueCall → ObjectId
  | .put _ => st.writerSyncs.mutex
  | .get _ | .peek _ => st.readerSyncs.mutex

/-- The condition variable that a call sleeps on. -/
def waitsOn (st : BlockingStack) : QueueCall → ObjectId
  | .put _ => st.writerSyncs.conditionFull
  | .get _ | .peek _ => st.readerSyncs.conditionEmpty

/-- The condition variable that a call notifies. -/
def notifies (st : BlockingStack) : QueueCall → Option ObjectId
  | .put _ => some st.writerSyncs.conditionEmpty
  | .get _ => some st.readerSyncs.conditionFull
  | .peek _ => none

variable (st : BlockingStack)

/-- Both layers hold the objects of the outermost one. -/
theorem syncs_eq : st.readerSyncs = QueueObject.freshSyncs 1 ∧
    st.writerSyncs = QueueObject.freshSyncs 1 := by
  have hbuilt : [QueueObject.freshSyncs 1, QueueObject.freshSyncs 1] =
      [st.readerSyncs, st.writerSyncs] := st.built
  simpa [eq_comm] using hbuilt

/-- The mutex of the stack. -/
def mutex : ObjectId := st.readerSyncs.mutex

/-- Every call locks the same mutex. -/
@[simp] theorem mutexOf_eq (c : QueueCall) : st.mutexOf c = st.mutex := by
  cases c with
  | put m =>
      show st.writerSyncs.mutex = st.readerSyncs.mutex
      rw [st.syncs_eq.1, st.syncs_eq.2]
  | get size => rfl
  | peek size => rfl

end BlockingStack

/-! ## The guards -/

section Guards

variable {Q : Type} [QueueBase Q] {Rel : Q → MessageFifo → Prop} {q : Q} {a : MessageFifo}

/-- The conditions of `wait_function_put` and `wait_function_get`. -/
def guardHolds (q : Q) : QueueCall → Bool
  | .put _ => decide (QueueBase.capacity q ≤ QueueBase.size q)
  | .get _ | .peek _ => decide (QueueBase.size q ≤ 0)

/-- The guards of related queues agree. -/
theorem guardHolds_eq (hinner : BoundedQueue Q Rel) (hrel : Rel q a) (c : QueueCall) :
    guardHolds q c = guardHolds a c := by
  cases c with
  | put m =>
      show decide (_ ≤ _) = decide (_ ≤ _)
      rw [hinner.capacity hrel, hinner.simulates.size hrel]
      rfl
  | get size | peek size =>
      show decide (_ ≤ 0) = decide (_ ≤ 0)
      rw [hinner.simulates.size hrel]
      rfl

/-- The guard of `put` holds exactly on a full queue. -/
theorem guardHolds_put {m : Message} : guardHolds a (.put m) = true ↔ ¬ a.fifo.HasRoom := by
  show decide (a.fifo.bound ≤ a.fifo.items.length) = true ↔ ¬ a.fifo.items.length < a.fifo.bound
  simp

/-- The guard of `get` and `peek` holds exactly on an empty queue. -/
theorem guardHolds_empty : decide (QueueBase.size a ≤ 0) = true ↔ a.fifo.items = [] := by
  show decide (a.fifo.items.length ≤ 0) = true ↔ _
  simp

end Guards

/-! ## The steps -/

/-- The program points of a call of the stack. -/
inductive CallPc (T : Type) where
  | idle
  | lock (c : QueueCall)
  | guard (c : QueueCall)
  | goToSleep (c : QueueCall)
  | asleep (c : QueueCall)
  | relock (c : QueueCall)
  | inner (c : QueueCall)
  | notify (e : Event T)
  | unlock (e : Event T)
  deriving DecidableEq

namespace CallPc

variable {T : Type}

/-- The thread is inside the critical section. -/
def holdsMutex : CallPc T → Bool
  | .guard _ | .goToSleep _ | .inner _ | .notify _ | .unlock _ => true
  | .idle | .lock _ | .asleep _ | .relock _ => false

/-- The call of the inner queue that the thread has made and not returned from. -/
def answered : CallPc T → Option (Event T)
  | .notify e | .unlock e => some e
  | _ => none

/-- The thread sleeps on this condition variable. -/
def sleepsOn (st : BlockingStack) (condition : ObjectId) : CallPc T → Bool
  | .asleep c => st.waitsOn c == condition
  | _ => false

/-- Where a thread goes that is woken. -/
def wake : CallPc T → CallPc T
  | .asleep c => .relock c
  | pc => pc

/-- Where a thread goes when the inner queue has answered. `peek` notifies nobody. -/
def afterAnswer (st : BlockingStack) (e : Event T) : CallPc T :=
  if (st.notifies e.call).isSome then .notify e else .unlock e

end CallPc

/-- The inner queue, the owners of the mutexes, and the threads. The fields `history` and
`returned` record the calls of the inner queue and those of them whose callers have returned. -/
structure StackState (Q T : Type) where
  inner : Q
  owner : ObjectId → Option T
  pc : T → CallPc T
  history : List (Event T)
  returned : List (Event T)

/-- A thread begins a call or makes its next step, notifies a condition variable and wakes a
thread or none, or wakes by itself or because its time is over. -/
inductive StackLabel (T : Type) where
  | call (t : T) (c : QueueCall)
  | thread (t : T)
  | notify (t : T) (woken : Option T)
  | spurious (t : T)
  | timeout (t : T)

/-- A thread wakes without a notification. -/
def StackLabel.unprompted {T : Type} : StackLabel T → Bool
  | .spurious _ | .timeout _ => true
  | .call _ _ | .thread _ | .notify _ _ => false

namespace StackState

variable {Q T : Type} [DecidableEq T]

/-- A thread moves. -/
def goTo (s : StackState Q T) (t : T) (p : CallPc T) : StackState Q T :=
  { s with pc := update s.pc t p }

/-- A thread takes a mutex and moves. -/
def acquire (s : StackState Q T) (mutex : ObjectId) (t : T) (p : CallPc T) : StackState Q T :=
  { s with owner := update s.owner mutex (some t), pc := update s.pc t p }

/-- A thread gives a mutex back and moves. -/
def release (s : StackState Q T) (mutex : ObjectId) (t : T) (p : CallPc T) : StackState Q T :=
  { s with owner := update s.owner mutex none, pc := update s.pc t p }

variable [QueueBase Q]

/-- The next step of a thread, except for beginning a call, waking up and notifying. -/
def threadStep (st : BlockingStack) (s : StackState Q T) (t : T) : Option (StackState Q T) :=
  match s.pc t with
  | .idle | .asleep _ | .notify _ => none
  | .lock c =>
      if s.owner (st.mutexOf c) = none then some (s.acquire (st.mutexOf c) t (.guard c)) else none
  | .guard c => some (s.goTo t (if guardHolds s.inner c then .goToSleep c else .inner c))
  | .goToSleep c => some (s.release (st.mutexOf c) t (.asleep c))
  | .relock c =>
      if s.owner (st.mutexOf c) = none then
        some (s.acquire (st.mutexOf c) t
          (match st.discipline c with
          | .blocking => .guard c
          -- `wait_for` is not repeated: the guard is not tested again
          | .timed _ => .inner c))
      else none
  | .inner c =>
      match Containers.call s.inner c with
      | .ok (answer, inner) =>
          let e : Event T := ⟨t, c, answer⟩
          some { s.goTo t (.afterAnswer st e) with inner, history := s.history ++ [e] }
      | .error _ => none
  | .unlock e =>
      some { s.release (st.mutexOf e.call) t .idle with returned := s.returned ++ [e] }

/-- `notify_one`: wake one of the threads that sleep on the condition variable, if there is one. -/
def notifyStep [Fintype T] (st : BlockingStack) (s : StackState Q T) (t : T) (woken : Option T) :
    Option (StackState Q T) :=
  match s.pc t with
  | .notify e =>
      match st.notifies e.call, woken with
      | some condition, some u =>
          if (s.pc u).sleepsOn st condition then
            some ((s.goTo u (s.pc u).wake).goTo t (.unlock e))
          else none
      | some condition, none =>
          if ∃ u, (s.pc u).sleepsOn st condition then none else some (s.goTo t (.unlock e))
      | none, _ => none
  | _ => none

/-- One step of an interleaving. -/
def step [Fintype T] (st : BlockingStack) (s : StackState Q T) :
    StackLabel T → Option (StackState Q T)
  | .call t c =>
      match s.pc t with
      | .idle => some (s.goTo t (.lock c))
      | _ => none
  | .thread t => s.threadStep st t
  | .notify t woken => s.notifyStep st t woken
  | .spurious t =>
      match s.pc t with
      | .asleep c => some (s.goTo t (.relock c))
      | _ => none
  | .timeout t =>
      match s.pc t with
      | .asleep c =>
          match st.discipline c with
          | .blocking => none
          | .timed _ => some (s.goTo t (.relock c))
      | _ => none

/-- The state before the first step. -/
def start (inner : Q) : StackState Q T := ⟨inner, fun _ => none, fun _ => .idle, [], []⟩

/-- All interleavings of the threads `T` over an inner queue. -/
def machine [Fintype T] (st : BlockingStack) (inner : Q) :
    Machine (StackState Q T) (StackLabel T) where
  init s := s = start inner
  step := step st

/-! ## What a step does -/

/-- The steps one by one, with the program point a thread leaves and the state it leads to. -/
inductive Moves (st : BlockingStack) (s : StackState Q T) :
    StackLabel T → StackState Q T → Prop where
  | begins {t c} (hpc : s.pc t = .idle) : Moves st s (.call t c) (s.goTo t (.lock c))
  | locks {t c} (hpc : s.pc t = .lock c) (hfree : s.owner st.mutex = none) :
      Moves st s (.thread t) (s.acquire st.mutex t (.guard c))
  | sleeps {t c} (hpc : s.pc t = .guard c) (hguard : guardHolds s.inner c = true) :
      Moves st s (.thread t) (s.goTo t (.goToSleep c))
  | passes {t c} (hpc : s.pc t = .guard c) (hguard : guardHolds s.inner c = false) :
      Moves st s (.thread t) (s.goTo t (.inner c))
  | releases {t c} (hpc : s.pc t = .goToSleep c) :
      Moves st s (.thread t) (s.release st.mutex t (.asleep c))
  | retests {t c} (hpc : s.pc t = .relock c) (hfree : s.owner st.mutex = none) :
      Moves st s (.thread t) (s.acquire st.mutex t (.guard c))
  | proceeds {t c} (hpc : s.pc t = .relock c) (hfree : s.owner st.mutex = none)
      (htimed : st.discipline c ≠ .blocking) :
      Moves st s (.thread t) (s.acquire st.mutex t (.inner c))
  | answers {t c answer inner} (hpc : s.pc t = .inner c)
      (hcall : Containers.call s.inner c = .ok (answer, inner)) :
      Moves st s (.thread t)
        { s.goTo t (.afterAnswer st ⟨t, c, answer⟩) with
          inner, history := s.history ++ [⟨t, c, answer⟩] }
  | wakes {t u e condition} (hpc : s.pc t = .notify e) (hcond : st.notifies e.call = some condition)
      (hasleep : (s.pc u).sleepsOn st condition = true) :
      Moves st s (.notify t (some u)) ((s.goTo u (s.pc u).wake).goTo t (.unlock e))
  | wakesNone {t e condition} (hpc : s.pc t = .notify e)
      (hcond : st.notifies e.call = some condition)
      (hnone : ∀ u, (s.pc u).sleepsOn st condition = false) :
      Moves st s (.notify t none) (s.goTo t (.unlock e))
  | returns {t e} (hpc : s.pc t = .unlock e) :
      Moves st s (.thread t)
        { s.release st.mutex t .idle with returned := s.returned ++ [e] }
  | wakesUp {t c label} (hpc : s.pc t = .asleep c) : Moves st s label (s.goTo t (.relock c))

variable {st : BlockingStack} {s s' : StackState Q T} {label : StackLabel T}

/-- The steps of one thread. -/
theorem threadStep_moves {t : T} (h : s.threadStep st t = some s') :
    Moves st s (.thread t) s' := by
  unfold threadStep at h
  cases hpc : s.pc t with
  | idle | asleep c | notify e => simp [hpc] at h
  | lock c =>
      simp only [hpc, BlockingStack.mutexOf_eq] at h
      split at h
      · obtain rfl := Option.some.inj h
        exact .locks hpc ‹_›
      · cases h
  | guard c =>
      simp only [hpc] at h
      obtain rfl := Option.some.inj h
      cases hguard : guardHolds s.inner c with
      | true => exact .sleeps hpc hguard
      | false => exact .passes hpc hguard
  | goToSleep c =>
      simp only [hpc, BlockingStack.mutexOf_eq] at h
      obtain rfl := Option.some.inj h
      exact .releases hpc
  | relock c =>
      simp only [hpc, BlockingStack.mutexOf_eq] at h
      split at h
      · rename_i hfree
        obtain rfl := Option.some.inj h
        cases hwait : st.discipline c with
        | blocking => exact .retests hpc hfree
        | timed timeoutMs => exact .proceeds hpc hfree (by simp [hwait])
      · cases h
  | inner c =>
      simp only [hpc] at h
      cases hcall : Containers.call s.inner c with
      | ok result =>
          simp only [hcall] at h
          obtain rfl := Option.some.inj h
          exact .answers hpc hcall
      | error exception => simp [hcall] at h
  | unlock e =>
      simp only [hpc, BlockingStack.mutexOf_eq] at h
      obtain rfl := Option.some.inj h
      exact .returns hpc

/-- A notification. -/
theorem notifyStep_moves [Fintype T] {t : T} {woken : Option T}
    (h : s.notifyStep st t woken = some s') : Moves st s (.notify t woken) s' := by
  unfold notifyStep at h
  cases hpc : s.pc t with
  | notify e =>
      simp only [hpc] at h
      cases hcond : st.notifies e.call with
      | none => simp [hcond] at h
      | some condition =>
          cases woken with
          | some u =>
              simp only [hcond] at h
              split at h
              · obtain rfl := Option.some.inj h
                exact .wakes hpc hcond ‹_›
              · cases h
          | none =>
              simp only [hcond] at h
              split at h
              · cases h
              · rename_i hnone
                obtain rfl := Option.some.inj h
                exact .wakesNone hpc hcond fun u => Bool.eq_false_iff.mpr fun hu => hnone ⟨u, hu⟩
  | _ => simp [hpc] at h

/-- Every step is one of the moves. -/
theorem step_moves [Fintype T] (h : s.step st label = some s') : Moves st s label s' := by
  cases label with
  | call t c =>
      simp only [step] at h
      split at h
      · rename_i hpc
        obtain rfl := Option.some.inj h
        exact .begins hpc
      · cases h
  | thread t => exact threadStep_moves h
  | notify t woken => exact notifyStep_moves h
  | spurious t =>
      simp only [step] at h
      split at h
      · rename_i c hpc
        obtain rfl := Option.some.inj h
        exact .wakesUp hpc
      · cases h
  | timeout t =>
      simp only [step] at h
      split at h
      · rename_i c hpc
        split at h
        · cases h
        · obtain rfl := Option.some.inj h
          exact .wakesUp hpc
      · cases h

/-! ## One thread at a time -/

/-- The threads inside the critical section are the owner of the mutex. -/
def Exclusive (st : BlockingStack) (s : StackState Q T) : Prop :=
  ∀ t, (s.pc t).holdsMutex = true ↔ s.owner st.mutex = some t

namespace Exclusive

variable {t u : T} {p : CallPc T}

omit [QueueBase Q] [DecidableEq T] in
/-- No two threads are inside the critical section. -/
theorem unique (h : Exclusive st s) (ht : (s.pc t).holdsMutex = true)
    (hu : (s.pc u).holdsMutex = true) : t = u :=
  Option.some.inj (((h t).mp ht).symm.trans ((h u).mp hu))

omit [QueueBase Q] in
/-- A thread moves inside or outside the critical section. -/
theorem goTo (h : Exclusive st s) (hp : p.holdsMutex = (s.pc t).holdsMutex) :
    Exclusive st (s.goTo t p) := by
  intro u
  by_cases hu : u = t
  · subst hu
    simpa [StackState.goTo, hp] using h u
  · simpa [StackState.goTo, hu] using h u

omit [QueueBase Q] in
/-- A thread enters the critical section. -/
theorem acquire (h : Exclusive st s) (hfree : s.owner st.mutex = none) (hp : p.holdsMutex = true) :
    Exclusive st (s.acquire st.mutex t p) := by
  intro u
  by_cases hu : u = t
  · subst hu
    simp [StackState.acquire, hp]
  · have houtside : (s.pc u).holdsMutex = false := by
      rw [Bool.eq_false_iff, ne_eq, h u, hfree]
      simp
    simp [StackState.acquire, hu, houtside, Ne.symm hu]

omit [QueueBase Q] in
/-- A thread leaves the critical section. -/
theorem release (h : Exclusive st s) (ht : (s.pc t).holdsMutex = true)
    (hp : p.holdsMutex = false) : Exclusive st (s.release st.mutex t p) := by
  intro u
  by_cases hu : u = t
  · subst hu
    simp [StackState.release, hp]
  · have houtside : (s.pc u).holdsMutex = false :=
      Bool.eq_false_iff.mpr fun hholds => hu (h.unique hholds ht)
    simp [StackState.release, hu, houtside]

/-- Every step keeps the threads apart. -/
theorem moves (h : Exclusive st s) (hmoves : Moves st s label s') : Exclusive st s' := by
  cases hmoves with
  | begins hpc => exact h.goTo (by rw [hpc]; rfl)
  | locks hpc hfree => exact h.acquire hfree rfl
  | sleeps hpc hguard => exact h.goTo (by rw [hpc]; rfl)
  | passes hpc hguard => exact h.goTo (by rw [hpc]; rfl)
  | releases hpc => exact h.release (by rw [hpc]; rfl) rfl
  | retests hpc hfree => exact h.acquire hfree rfl
  | proceeds hpc hfree htimed => exact h.acquire hfree rfl
  | @answers t c answer inner hpc hcall =>
      have hinside : (CallPc.afterAnswer st (⟨t, c, answer⟩ : Event T)).holdsMutex = true := by
        unfold CallPc.afterAnswer
        split <;> rfl
      exact h.goTo (by rw [hpc, hinside]; rfl)
  | @wakes t u e condition hpc hcond hasleep =>
      have hwake : (s.pc u).wake.holdsMutex = (s.pc u).holdsMutex := by cases s.pc u <;> rfl
      have hmoved := h.goTo hwake
      refine hmoved.goTo ?_
      by_cases hu : t = u
      · subst hu
        simp [hpc, CallPc.sleepsOn] at hasleep
      · simp [StackState.goTo, hu, hpc, CallPc.holdsMutex]
  | wakesNone hpc hcond hnone => exact h.goTo (by rw [hpc]; rfl)
  | returns hpc => exact h.release (by rw [hpc]; rfl) rfl
  | wakesUp hpc => exact h.goTo (by rw [hpc]; rfl)

end Exclusive

/-- A thread that goes to sleep has found its guard true, and one that calls the inner queue after
a blocking wait has found it false; nothing has changed since. -/
def GuardKnown (st : BlockingStack) (s : StackState Q T) : Prop :=
  ∀ t c, (s.pc t = .goToSleep c → guardHolds s.inner c = true) ∧
    (s.pc t = .inner c → st.discipline c = .blocking → guardHolds s.inner c = false)

namespace GuardKnown

/-- A thread moves and the inner queue stays as it is. -/
theorem update {t : T} {p : CallPc T} (h : GuardKnown st s) (hinner : s'.inner = s.inner)
    (hpc : s'.pc = Function.update s.pc t p)
    (hp : ∀ c, (p = .goToSleep c → guardHolds s.inner c = true) ∧
      (p = .inner c → st.discipline c = .blocking → guardHolds s.inner c = false)) :
    GuardKnown st s' := by
  intro u c
  rw [hinner, hpc]
  by_cases hu : u = t
  · rw [hu, Function.update_self]
    exact hp c
  · rw [Function.update_of_ne hu]
    exact h u c

/-- Every step keeps what the guards have shown. -/
theorem moves (h : GuardKnown st s) (hexcl : Exclusive st s) (hmoves : Moves st s label s') :
    GuardKnown st s' := by
  cases hmoves with
  | begins hpc => exact h.update rfl rfl fun c => by simp
  | locks hpc hfree => exact h.update rfl rfl fun c => by simp
  | @sleeps t c hpc hguard =>
      refine h.update rfl rfl fun other => ⟨?_, by simp⟩
      rintro ⟨rfl⟩
      exact hguard
  | @passes t c hpc hguard =>
      refine h.update rfl rfl fun other => ⟨by simp, ?_⟩
      rintro ⟨rfl⟩ -
      exact hguard
  | releases hpc => exact h.update rfl rfl fun c => by simp
  | retests hpc hfree => exact h.update rfl rfl fun c => by simp
  | proceeds hpc hfree htimed =>
      refine h.update rfl rfl fun other => ⟨by simp, ?_⟩
      rintro ⟨rfl⟩ hblocking
      exact absurd hblocking htimed
  | @answers t c answer inner hpc hcall =>
      -- no other thread is inside the critical section when the inner queue changes
      intro u other
      by_cases hu : u = t
      · subst hu
        simp only [goTo, update_self, CallPc.afterAnswer]
        split <;> simp
      · have houtside : (s.pc u).holdsMutex = false :=
          Bool.eq_false_iff.mpr fun hholds => hu (hexcl.unique hholds (by rw [hpc]; rfl))
        simp only [goTo, update_of_ne hu]
        constructor
        · intro hpcu
          simp [hpcu, CallPc.holdsMutex] at houtside
        · intro hpcu
          simp [hpcu, CallPc.holdsMutex] at houtside
  | @wakes t u e condition hpc hcond hasleep =>
      have hwoken : GuardKnown st (s.goTo u (s.pc u).wake) := by
        refine h.update rfl rfl fun c => ?_
        cases hpcu : s.pc u <;> simp_all [CallPc.wake, CallPc.sleepsOn]
      exact hwoken.update rfl rfl fun c => by simp
  | wakesNone hpc hcond hnone => exact h.update rfl rfl fun c => by simp
  | returns hpc => exact h.update rfl rfl fun c => by simp
  | wakesUp hpc => exact h.update rfl rfl fun c => by simp

end GuardKnown

end StackState

end Shovel.Containers
