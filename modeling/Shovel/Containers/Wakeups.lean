import Shovel.Library.Population
import Shovel.Containers.BlockingCalls

/-!
# Wake-ups

Every `put` hands one wake-up to the threads that sleep on `m_condition_empty`,
and every `get` hands one to those on `m_condition_full`. As long as a thread
sleeps, the threads that are awake for the same reason are at least as many as
the messages or the free cells they wait for (`WakeupsSuffice`), so nobody sleeps
beside a message once all of them have run.

A `peek` breaks this: it uses up the wake-up that it was given and leaves the
message where it is. `PeekPassesOn` says that no step does so at the expense of
a sleeping thread.
-/

namespace Shovel.Containers

open Transition Function Population Bounded

/-- The condition variables: for threads that wait for room, and for those that wait for a
message. -/
inductive Side where
  | full
  | empty
  deriving DecidableEq, Repr

namespace Side

/-- The calls that wait on this side. -/
def waiter : Side → QueueCall → Bool
  | .full, .put _ | .empty, .get _ | .empty, .peek _ => true
  | .full, .get _ | .full, .peek _ | .empty, .put _ => false

/-- The calls that notify this side. -/
def notifier : Side → QueueCall → Bool
  | .full, .get _ | .empty, .put _ => true
  | .full, .put _ | .full, .peek _ | .empty, .get _ | .empty, .peek _ => false

/-- What the threads of this side wait for: free cells, or messages. -/
def available {Q : Type} [QueueBase Q] (q : Q) : Side → Nat
  | .full => QueueBase.capacity q - QueueBase.size q
  | .empty => QueueBase.size q

end Side

namespace BlockingStack

/-- The condition variable of a side. -/
def condition (st : BlockingStack) : Side → ObjectId
  | .full => st.readerSyncs.conditionFull
  | .empty => st.readerSyncs.conditionEmpty

variable (st : BlockingStack) (side : Side) (c : QueueCall)

/-- A call sleeps on the condition variable of its side. -/
theorem waitsOn_eq_iff : st.waitsOn c = st.condition side ↔ side.waiter c = true := by
  obtain ⟨hreader, hwriter⟩ := st.syncs_eq
  cases side <;> cases c <;>
    simp [waitsOn, condition, Side.waiter, hreader, hwriter, QueueObject.freshSyncs]

/-- A call notifies the condition variable of the side it serves. -/
theorem notifies_eq_iff : st.notifies c = some (st.condition side) ↔ side.notifier c = true := by
  obtain ⟨hreader, hwriter⟩ := st.syncs_eq
  cases side <;> cases c <;>
    simp [notifies, condition, Side.notifier, hreader, hwriter, QueueObject.freshSyncs]

end BlockingStack

/-! ## Weights of program points -/

namespace CallPc

variable {T : Type}

/-- One for a thread that sleeps on this side. -/
def asleepWeight (side : Side) : CallPc T → Nat
  | .asleep c => (side.waiter c).toNat
  | _ => 0

/-- One for a thread of this side that was woken and has not yet taken the mutex again. -/
def wokenWeight (side : Side) : CallPc T → Nat
  | .relock c => (side.waiter c).toNat
  | _ => 0

/-- One for a thread of this side that is awake behind its first lock, or is about to notify the
side. -/
def awakeWeight (side : Side) : CallPc T → Nat
  | .guard c | .relock c | .inner c => (side.waiter c).toNat
  | .notify e => (side.notifier e.call).toNat
  | _ => 0

/-- The thread neither was woken without having run its guard again nor is inside the critical
section. -/
def settled : CallPc T → Bool
  | .idle | .lock _ | .asleep _ => true
  | _ => false

theorem wokenWeight_le (side : Side) (p : CallPc T) : p.wokenWeight side ≤ p.awakeWeight side := by
  cases p <;> simp [wokenWeight, awakeWeight]

theorem awakeWeight_of_settled (side : Side) {p : CallPc T} (h : p.settled = true) :
    p.awakeWeight side = 0 := by
  cases p <;> simp_all [settled, awakeWeight]

/-- A thread with an answer of the inner queue is awake for the side it notifies. -/
theorem afterAnswer_weights (st : BlockingStack) (side : Side) (e : Event T) :
    (afterAnswer st e).asleepWeight side = 0 ∧
      (afterAnswer st e).awakeWeight side = (side.notifier e.call).toNat := by
  obtain ⟨thread, call, answer⟩ := e
  cases call with
  | put m | get size => exact ⟨rfl, rfl⟩
  | peek size => cases side <;> exact ⟨rfl, rfl⟩

/-- A thread sleeps on the condition variable of a side exactly when it has a weight there. -/
theorem sleepsOn_iff (st : BlockingStack) (side : Side) (p : CallPc T) :
    p.sleepsOn st (st.condition side) = true ↔ 0 < p.asleepWeight side := by
  cases p with
  | asleep c =>
      rw [sleepsOn, beq_iff_eq, st.waitsOn_eq_iff side c]
      cases hwaiter : side.waiter c <;> simp [asleepWeight, hwaiter]
  | _ => simp [sleepsOn, asleepWeight]

end CallPc

namespace StackState

variable {Q T : Type} [QueueBase Q] [Fintype T] [DecidableEq T]

/-- No thread was woken without having run its guard again, and none is inside the critical
section. -/
def Quiet (s : StackState Q T) : Prop := ∀ t, (s.pc t).settled = true

/-- A thread sleeps on `m_condition_empty` although the queue is not empty. -/
def ReaderStranded (st : BlockingStack) (s : StackState Q T) : Prop :=
  (∃ t, (s.pc t).sleepsOn st (st.condition .empty) = true) ∧ 0 < QueueBase.size s.inner

/-- A thread sleeps on `m_condition_full` although the queue is not full. -/
def WriterStranded (st : BlockingStack) (s : StackState Q T) : Prop :=
  (∃ t, (s.pc t).sleepsOn st (st.condition .full) = true) ∧
    QueueBase.size s.inner < QueueBase.capacity s.inner

instance (s : StackState Q T) : Decidable s.Quiet := inferInstanceAs (Decidable (∀ _, _))

instance (st : BlockingStack) (s : StackState Q T) : Decidable (s.ReaderStranded st) :=
  inferInstanceAs (Decidable (_ ∧ _))

instance (st : BlockingStack) (s : StackState Q T) : Decidable (s.WriterStranded st) :=
  inferInstanceAs (Decidable (_ ∧ _))

/-- The readers that were woken and have not yet taken the mutex again. -/
def wokenReaders (s : StackState Q T) : Nat := total (CallPc.wokenWeight .empty) s.pc

/-- The step is not a `peek` that looks at the first message while a thread sleeps on
`m_condition_empty` and fewer readers than messages are woken and still to come. -/
def PeekPassesOn (st : BlockingStack) (s : StackState Q T) (label : StackLabel T) : Prop :=
  ∀ t size, label = .thread t → s.pc t = .inner (.peek size) →
    (∃ u, (s.pc u).sleepsOn st (st.condition .empty) = true) →
    QueueBase.size s.inner ≤ s.wokenReaders

/-! ## Sleeping threads and wake-ups -/

/-- While a thread of this side sleeps, as many of its threads are awake as there are messages or
free cells for them. -/
def WakeupsSuffice (side : Side) (s : StackState Q T) : Prop :=
  0 < total (CallPc.asleepWeight side) s.pc →
    side.available s.inner ≤ total (CallPc.awakeWeight side) s.pc

variable {st : BlockingStack} {s s' : StackState Q T} {label : StackLabel T} {side : Side}
variable {Rel : Q → MessageFifo → Prop} {a : MessageFifo}

/-- A thread moves, the inner queue stays as it is, no weight is lost among the threads awake, and
a thread that goes to sleep finds nothing. -/
theorem WakeupsSuffice.move {t : T} {p : CallPc T} (h : WakeupsSuffice side s)
    (hinner : s'.inner = s.inner) (hpc : s'.pc = update s.pc t p)
    (hp : p.asleepWeight side ≤ (s.pc t).asleepWeight side ∧
        (s.pc t).awakeWeight side ≤ p.awakeWeight side ∨ side.available s.inner = 0) :
    WakeupsSuffice side s' := by
  intro hasleep
  have hslept := total_update (CallPc.asleepWeight side) s.pc t p
  have hwoke := total_update (CallPc.awakeWeight side) s.pc t p
  rw [hpc] at hasleep ⊢
  rw [hinner]
  rcases hp with ⟨hless, hmore⟩ | hnone
  · have hbefore := h (by omega)
    omega
  · omega

/-- A guard that holds leaves nothing to the thread that waits. -/
theorem available_of_guardHolds {q : Q} {c : QueueCall} (h : guardHolds q c = true)
    (hwaiter : side.waiter c = true) : side.available q = 0 := by
  cases side <;> cases c <;>
    simp_all [Side.waiter, Side.available, guardHolds, Nat.sub_eq_zero_of_le]

/-- A call of the inner queue takes what its thread has waited for, or finds nothing, and leaves
something to the side it notifies. Only `peek` takes nothing of what it has waited for. -/
theorem available_call (side : Side) (hinner : BoundedQueue Q Rel) {q inner : Q} (hrel : Rel q a)
    {c : QueueCall} {answer : Answer} (hcall : Containers.call q c = .ok (answer, inner)) :
    side.available inner + (side.waiter c).toNat ≤
        side.available q + (side.notifier c).toNat ∨
      side.available inner = 0 ∨
      side = .empty ∧ ∃ size, c = .peek size ∧ side.available inner = side.available q := by
  obtain ⟨q', hanswer, hnext⟩ := hinner.simulates.call_eq hrel c
  obtain ⟨-, rfl⟩ := Outcome.answer_unique hcall hanswer
  have hcapacity := hinner.capacity hrel
  have hsize := hinner.simulates.size hrel
  have hcapacity' := hinner.capacity hnext
  have hsize' := hinner.simulates.size hnext
  have hfits := a.fifo.fits
  cases c with
  | put m =>
      by_cases hroom : a.fifo.HasRoom
      · have hlt : a.fifo.items.length < a.fifo.bound := hroom
        rw [MessageFifo.answer_put_room hroom] at hcapacity' hsize'
        simp only [Fifo.push_items hroom, Fifo.push_bound, List.length_append,
          List.length_singleton] at hcapacity' hsize'
        left
        cases side <;>
          simp only [Side.available, Side.waiter, Side.notifier, Bool.toNat_true,
            Bool.toNat_false] <;> omega
      · have hfull : ¬ a.fifo.items.length < a.fifo.bound := hroom
        rw [MessageFifo.answer_put_full hroom] at hcapacity' hsize'
        simp only at hcapacity' hsize'
        cases side with
        | full =>
            right
            left
            simp only [Side.available]
            omega
        | empty =>
            left
            simp only [Side.available, Side.waiter, Side.notifier, Bool.toNat_true,
              Bool.toNat_false]
            omega
  | get size =>
      have hpop : (a.answer (.get size)).2.fifo = a.fifo.pop := rfl
      rw [hpop, Fifo.pop_bound] at hcapacity'
      rw [hpop, Fifo.pop_items, List.length_tail] at hsize'
      cases side with
      | full =>
          left
          simp only [Side.available, Side.waiter, Side.notifier, Bool.toNat_true,
            Bool.toNat_false]
          omega
      | empty =>
          by_cases hzero : a.fifo.items.length = 0
          · right
            left
            simp only [Side.available]
            omega
          · left
            simp only [Side.available, Side.waiter, Side.notifier, Bool.toNat_true,
              Bool.toNat_false]
            omega
  | peek size =>
      have hsame : (a.answer (.peek size)).2.fifo = a.fifo := rfl
      rw [hsame] at hcapacity' hsize'
      cases side with
      | full =>
          left
          simp only [Side.available, Side.waiter, Side.notifier, Bool.toNat_false]
          omega
      | empty =>
          right
          right
          refine ⟨rfl, size, rfl, ?_⟩
          simp only [Side.available]
          omega

omit [QueueBase Q] [DecidableEq T] in
/-- A thread sleeps on the condition variable of a side exactly when the side has a weight. -/
theorem exists_asleep_iff : (∃ t, (s.pc t).sleepsOn st (st.condition side) = true) ↔
    0 < total (CallPc.asleepWeight side) s.pc := by
  rw [total_pos_iff]
  exact exists_congr fun t => CallPc.sleepsOn_iff st side (s.pc t)

namespace WakeupsSuffice

/-- An answer of the inner queue. -/
theorem answers (h : WakeupsSuffice side s) (hinner : BoundedQueue Q Rel) (hrel : Rel s.inner a)
    {t : T} {c : QueueCall} {answer : Answer} {inner : Q}
    (hpasses : side = .empty → PeekPassesOn st s (.thread t)) (hpc : s.pc t = .inner c)
    (hcall : Containers.call s.inner c = .ok (answer, inner)) (hnext : s'.inner = inner)
    (hpc' : s'.pc = update s.pc t (.afterAnswer st ⟨t, c, answer⟩)) :
    WakeupsSuffice side s' := by
  intro hasleep
  obtain ⟨hnone, hnotifier⟩ := CallPc.afterAnswer_weights st side (⟨t, c, answer⟩ : Event T)
  have hslept : total (CallPc.asleepWeight side) s'.pc =
      total (CallPc.asleepWeight side) s.pc := by
    rw [hpc']
    exact total_update_of_eq (by rw [hnone, hpc]; rfl)
  have hwoke : total (CallPc.awakeWeight side) s'.pc + (side.waiter c).toNat =
      total (CallPc.awakeWeight side) s.pc + (side.notifier c).toNat := by
    have hmove := total_update (CallPc.awakeWeight side) s.pc t (.afterAnswer st ⟨t, c, answer⟩)
    rw [hnotifier, hpc] at hmove
    rw [hpc']
    exact hmove
  rw [hslept] at hasleep
  rw [hnext]
  have hbefore := h hasleep
  rcases available_call side hinner hrel hcall with htaken | hnothing | ⟨rfl, size, rfl, hkept⟩
  · -- what the thread takes makes up for its leaving the threads that are awake
    omega
  · omega
  · -- a `peek` leaves its message to the readers that are woken and still to come
    have hwoken : s.wokenReaders ≤ total (CallPc.awakeWeight .empty) s'.pc := by
      have hsame : s.wokenReaders = total (CallPc.wokenWeight .empty) s'.pc := by
        rw [hpc', wokenReaders]
        exact (total_update_of_eq (by rw [hpc]; rfl)).symm
      rw [hsame]
      exact total_mono (CallPc.wokenWeight_le .empty)
    have hlooks := hpasses rfl t size rfl hpc (exists_asleep_iff.mpr hasleep)
    rw [hkept]
    exact Nat.le_trans hlooks hwoken

/-- A notification that wakes a thread. -/
theorem wakes (h : WakeupsSuffice side s) {t u : T} {e : Event T} {condition : ObjectId}
    (hpc : s.pc t = .notify e) (hcond : st.notifies e.call = some condition)
    (hasleep : (s.pc u).sleepsOn st condition = true) :
    WakeupsSuffice side ((s.goTo u (s.pc u).wake).goTo t (.unlock e)) := by
  have hne : t ≠ u := by
    rintro rfl
    simp [hpc, CallPc.sleepsOn] at hasleep
  cases hpcu : s.pc u with
  | asleep c =>
      rw [hpcu, CallPc.sleepsOn, beq_iff_eq] at hasleep
      -- the woken thread waits on the side that the call notifies
      have hside : side.waiter c = side.notifier e.call := by
        rw [Bool.eq_iff_iff, ← st.waitsOn_eq_iff side c, ← st.notifies_eq_iff side e.call, hcond,
          hasleep, Option.some.injEq]
      intro hstill
      have hslept := total_update (CallPc.asleepWeight side) s.pc u (.relock c)
      have hwoke := total_update (CallPc.awakeWeight side) s.pc u (.relock c)
      have hslept' := total_update (CallPc.asleepWeight side) (update s.pc u (.relock c)) t
        (.unlock e)
      have hwoke' := total_update (CallPc.awakeWeight side) (update s.pc u (.relock c)) t
        (.unlock e)
      simp only [update_of_ne hne, hpc, hpcu, CallPc.asleepWeight, CallPc.awakeWeight, hside]
        at hslept hwoke hslept' hwoke'
      simp only [goTo, CallPc.wake] at hstill ⊢
      have hbefore := h (by omega)
      omega
  | _ => simp [hpcu, CallPc.sleepsOn] at hasleep

/-- A notification that finds nobody asleep. -/
theorem wakesNone (h : WakeupsSuffice side s) {t : T} {e : Event T} {condition : ObjectId}
    (hpc : s.pc t = .notify e) (hcond : st.notifies e.call = some condition)
    (hnone : ∀ u, (s.pc u).sleepsOn st condition = false) :
    WakeupsSuffice side (s.goTo t (.unlock e)) := by
  cases hnotifier : side.notifier e.call with
  | true =>
      -- nobody sleeps on this side
      have hsame := (st.notifies_eq_iff side e.call).mpr hnotifier
      obtain rfl := Option.some.inj (hcond.symm.trans hsame)
      intro hasleep
      have hslept : total (CallPc.asleepWeight side) (update s.pc t (.unlock e)) =
          total (CallPc.asleepWeight side) s.pc :=
        total_update_of_eq (by rw [hpc]; rfl)
      obtain ⟨u, hu⟩ := exists_asleep_iff.mpr (hslept ▸ hasleep)
      rw [hnone u] at hu
      cases hu
  | false =>
      refine h.move rfl rfl (.inl ⟨by simp [CallPc.asleepWeight], ?_⟩)
      simp [hpc, CallPc.awakeWeight, hnotifier]

/-- Every step that is no `peek` at the expense of a sleeping thread keeps the wake-ups. -/
theorem moves (h : WakeupsSuffice side s) (hinner : BoundedQueue Q Rel) (hrel : Rel s.inner a)
    (hguard : GuardKnown st s) (hpasses : side = .empty → PeekPassesOn st s label)
    (hmoves : Moves st s label s') : WakeupsSuffice side s' := by
  cases hmoves with
  | begins hpc | locks hpc | passes hpc | retests hpc | proceeds hpc | returns hpc | wakesUp hpc =>
      exact h.move rfl rfl (.inl (by simp [hpc, CallPc.asleepWeight, CallPc.awakeWeight]))
  | @sleeps t c hpc hholds =>
      refine h.move rfl rfl ?_
      cases hwaiter : side.waiter c with
      | true => exact .inr (available_of_guardHolds hholds hwaiter)
      | false => exact .inl (by simp [hpc, CallPc.asleepWeight, CallPc.awakeWeight, hwaiter])
  | @releases t c hpc =>
      refine h.move rfl rfl ?_
      cases hwaiter : side.waiter c with
      | true => exact .inr (available_of_guardHolds ((hguard t c).1 hpc) hwaiter)
      | false => exact .inl (by simp [hpc, CallPc.asleepWeight, CallPc.awakeWeight, hwaiter])
  | answers hpc hcall => exact h.answers hinner hrel hpasses hpc hcall rfl rfl
  | wakes hpc hcond hasleep => exact h.wakes hpc hcond hasleep
  | wakesNone hpc hcond hnone => exact h.wakesNone hpc hcond hnone

end WakeupsSuffice

omit [Fintype T] in
/-- The inner queue stays related to a bounded list. -/
theorem related_moves (hinner : BoundedQueue Q Rel) (h : ∃ a, Rel s.inner a)
    (hmoves : Moves st s label s') : ∃ a, Rel s'.inner a := by
  obtain ⟨a, hrel⟩ := h
  cases hmoves with
  | @answers t c answer inner hpc hcall =>
      obtain ⟨q', hanswer, hnext⟩ := hinner.simulates.call_eq hrel c
      obtain ⟨-, rfl⟩ := Outcome.answer_unique hcall hanswer
      exact ⟨_, hnext⟩
  | begins | locks | sleeps | passes | releases | retests | proceeds | wakes | wakesNone | returns
  | wakesUp => exact ⟨a, hrel⟩

/-- What holds on one side in every state that steps under the guard of that side reach. -/
structure WakeInv (Rel : Q → MessageFifo → Prop) (st : BlockingStack) (side : Side)
    (s : StackState Q T) : Prop where
  exclusive : Exclusive st s
  guardKnown : GuardKnown st s
  related : ∃ a, Rel s.inner a
  enough : WakeupsSuffice side s

/-- The invariant holds after every run whose steps meet the guard. -/
theorem reachable_wakeInv (side : Side) (hinner : BoundedQueue Q Rel) {inner : Q}
    (hrel : Rel inner a) {guard : StackState Q T → StackLabel T → Prop}
    (hguard : ∀ state label, guard state label → side = .empty → PeekPassesOn st state label)
    (h : (machine st inner).ReachableUnder guard s) : WakeInv Rel st side s := by
  have hinit : ∀ state, (machine (T := T) st inner).init state → WakeInv Rel st side state := by
    intro state hstate
    obtain rfl := hstate
    refine ⟨fun t => by simp [start, CallPc.holdsMutex], fun t c => by simp [start], ⟨a, hrel⟩, ?_⟩
    intro hasleep
    simp [start, total, CallPc.asleepWeight] at hasleep
  have hstep : ∀ state following label, WakeInv Rel st side state → guard state label →
      (machine st inner).step state label = some following → WakeInv Rel st side following := by
    intro state following label hinv hpasses hnext
    have hmoves := step_moves hnext
    obtain ⟨b, hb⟩ := hinv.related
    exact ⟨hinv.exclusive.moves hmoves, hinv.guardKnown.moves hinv.exclusive hmoves,
      related_moves hinner hinv.related hmoves,
      hinv.enough.moves hinner hb hinv.guardKnown (hguard state label hpasses) hmoves⟩
  exact h.invariant hinit hstep

omit [DecidableEq T] in
/-- In a quiet state with enough wake-ups a thread sleeps only if there is nothing for it. -/
theorem WakeupsSuffice.quiet (h : WakeupsSuffice side s) (hquiet : s.Quiet)
    (hasleep : ∃ t, (s.pc t).sleepsOn st (st.condition side) = true) :
    side.available s.inner = 0 := by
  have hnobody : total (CallPc.awakeWeight side) s.pc = 0 :=
    total_eq_zero_iff.mpr fun t => CallPc.awakeWeight_of_settled side (hquiet t)
  have hsuffice := h (exists_asleep_iff.mp hasleep)
  omega

/-! ## A `peek` that uses up a wake-up -/

/-- When a `peek` looks at a message at the expense of a sleeping thread and no other thread was
woken, its return strands that thread. -/
theorem stranded_of_peek (hinner : BoundedQueue Q Rel) (hexcl : Exclusive st s)
    (hrel : Rel s.inner a) {t : T} (hbad : ¬ PeekPassesOn st s (.thread t))
    (hwoken : ∀ u c, s.pc u ≠ .relock c) :
    ∃ s' s'', s.step st (.thread t) = some s' ∧ s'.step st (.thread t) = some s'' ∧
      s''.Quiet ∧ s''.ReaderStranded st := by
  simp only [PeekPassesOn, not_forall] at hbad
  obtain ⟨t', size, hlabel, hpc, ⟨u, hasleep⟩, hmany⟩ := hbad
  obtain rfl := StackLabel.thread.inj hlabel
  obtain ⟨inner, hcall, hnext⟩ := hinner.simulates.call_eq hrel (.peek size)
  have hsize : QueueBase.size inner = QueueBase.size s.inner := by
    rw [hinner.simulates.size hnext, hinner.simulates.size hrel]
    rfl
  have hne : u ≠ t := by
    rintro rfl
    simp [hpc, CallPc.sleepsOn] at hasleep
  let e : Event T := ⟨t, .peek size, (a.answer (.peek size)).1⟩
  let s' : StackState Q T := { s.goTo t (.unlock e) with inner, history := s.history ++ [e] }
  have hlook : s.step st (.thread t) = some s' := by
    simp only [step, threadStep, hpc, hcall]
    rfl
  have hreturn : s'.step st (.thread t) =
      some { s'.release (st.mutexOf e.call) t .idle with returned := s'.returned ++ [e] } := by
    have hpc' : s'.pc t = .unlock e := update_self ..
    simp only [step, threadStep, hpc']
  refine ⟨s', _, hlook, hreturn, ?_, ?_⟩
  · -- the thread held the mutex, so nobody else is inside the critical section
    intro v
    by_cases hv : v = t
    · simp [hv, release, CallPc.settled]
    · have houtside : (s.pc v).holdsMutex = false :=
        Bool.eq_false_iff.mpr fun hholds => hv (hexcl.unique hholds (by rw [hpc]; rfl))
      have hnotWoken := hwoken v
      simp only [release, s', goTo, update_of_ne hv]
      cases hpcv : s.pc v <;> simp_all [CallPc.settled, CallPc.holdsMutex]
  · refine ⟨⟨u, ?_⟩, ?_⟩
    · simpa [release, s', goTo, hne] using hasleep
    · show 0 < QueueBase.size inner
      omega

/-- For every stack, any number of threads and every interleaving of their calls: once all threads
have run that can, no thread sleeps on `m_condition_full` beside a free cell, and after a run in
which no `peek` looks at a message at the expense of a sleeping thread, none sleeps on
`m_condition_empty` beside a message. When a `peek` does so and no other thread was woken, its
return leaves a thread asleep beside a message. -/
theorem no_sleeper_beside_message {inner : Q} (hinner : BoundedQueue Q Rel) (hrel : Rel inner a) :
    (∀ s : StackState Q T, (machine st inner).ReachableUnder (PeekPassesOn st) s → s.Quiet →
      ¬ s.ReaderStranded st) ∧
    (∀ s : StackState Q T, (machine st inner).Reachable s → s.Quiet → ¬ s.WriterStranded st) ∧
    ∀ (s : StackState Q T) (t : T), (machine st inner).Reachable s →
      ¬ PeekPassesOn st s (.thread t) → (∀ u c, s.pc u ≠ .relock c) →
      ∃ s' s'', s.step st (.thread t) = some s' ∧ s'.step st (.thread t) = some s'' ∧
        (machine st inner).Reachable s'' ∧ s''.Quiet ∧ s''.ReaderStranded st := by
  refine ⟨?_, ?_, ?_⟩
  · intro s hreach hquiet ⟨hasleep, hsome⟩
    have hinv := reachable_wakeInv .empty hinner hrel (fun _ _ hpasses _ => hpasses) hreach
    have hnothing : Side.available s.inner .empty = 0 := hinv.enough.quiet hquiet hasleep
    simp only [Side.available] at hnothing
    omega
  · intro s hreach hquiet ⟨hasleep, hroom⟩
    have hinv := reachable_wakeInv .full hinner hrel (fun _ _ _ hside => by cases hside) hreach
    have hnothing : Side.available s.inner .full = 0 := hinv.enough.quiet hquiet hasleep
    simp only [Side.available] at hnothing
    omega
  · intro s t hreach hbad hwoken
    have hinv := reachable_wakeInv .full hinner hrel (fun _ _ _ hside => by cases hside) hreach
    obtain ⟨b, hb⟩ := hinv.related
    obtain ⟨s', s'', hlook, hreturn, hquiet, hstranded⟩ :=
      stranded_of_peek hinner hinv.exclusive hb hbad hwoken
    have hfirst : (machine st inner).step s (.thread t) = some s' := hlook
    have hsecond : (machine st inner).step s' (.thread t) = some s'' := hreturn
    exact ⟨s', s'', hlook, hreturn, (hreach.step hfirst).step hsecond, hquiet, hstranded⟩

/-- A `peek` and a `get` wait for a message, a third thread puts one, and its notification wakes the
`peek`. -/
theorem no_sleeper_beside_message_peek :
    ¬ (start (T := Fin 3) (MessageFifo.empty 1)).ReaderStranded
      (.ofDisciplines .blocking .blocking) ∧
    ∃ s' s'' : StackState MessageFifo (Fin 3),
      s'.step (.ofDisciplines .blocking .blocking) (.thread 0) = some s'' ∧ s''.Quiet ∧
        s''.ReaderStranded (.ofDisciplines .blocking .blocking) := by
  obtain ⟨hkept, -, hlost⟩ := @no_sleeper_beside_message MessageFifo (Fin 3) _ _ _
    (.ofDisciplines .blocking .blocking) _ _ _ messageFifo_bounded (rfl : MessageFifo.empty 1 = _)
  refine ⟨hkept _ (.start rfl) (by decide), ?_⟩
  have hrun : ((machine (T := Fin 3) (.ofDisciplines .blocking .blocking) (MessageFifo.empty 1)).run
      [.call 0 (.peek 8), .thread 0, .thread 0, .thread 0,
        .call 1 (.get 8), .thread 1, .thread 1, .thread 1,
        .call 2 (.put ⟨[7], by decide⟩), .thread 2, .thread 2, .thread 2, .notify 2 (some 0),
        .thread 2, .thread 0, .thread 0]
      (start (MessageFifo.empty 1))).map
        (fun s => (s.pc 0, s.pc 1, s.pc 2, QueueBase.size s.inner)) =
      some (.inner (.peek 8), .asleep (.get 8), .idle, 1) := by
    decide +kernel
  obtain ⟨s, hs, hfields⟩ := Option.map_eq_some_iff.mp hrun
  obtain ⟨h0, h1, h2, hsize⟩ : s.pc 0 = .inner (.peek 8) ∧ s.pc 1 = .asleep (.get 8) ∧
      s.pc 2 = .idle ∧ QueueBase.size s.inner = 1 := by simpa using hfields
  have hwoken : ∀ u c, s.pc u ≠ .relock c
    | 0, _ => by simp [h0]
    | 1, _ => by simp [h1]
    | 2, _ => by simp [h2]
  have hnone : s.wokenReaders = 0 := total_eq_zero_iff.mpr fun
    | 0 => by rw [h0]; rfl
    | 1 => by rw [h1]; rfl
    | 2 => by rw [h2]; rfl
  have hbad : ¬ PeekPassesOn (.ofDisciplines .blocking .blocking) s (.thread 0) := by
    intro hpasses
    have hfew := hpasses 0 8 rfl h0 ⟨1, by rw [h1]; decide⟩
    omega
  obtain ⟨s', s'', -, hreturn, -, hquiet, hstranded⟩ :=
    hlost s 0 (Machine.reachable_of_run _ rfl hs) hbad hwoken
  exact ⟨s', s'', hreturn, hquiet, hstranded⟩

/-- With a queue of one and blocking decorators, without a wake-up that nobody has given: a `peek`
is woken for the only message, and the `get` beside it sleeps on. -/
theorem peek_strands_get :
    ∃ labels, (∀ label ∈ labels, ¬ (label : StackLabel (Fin 3)).unprompted) ∧
      ∃ s : StackState MessageFifo (Fin 3),
        (machine (.ofDisciplines .blocking .blocking) (MessageFifo.empty 1)).run labels
            (start (MessageFifo.empty 1)) = some s ∧
          s.Quiet ∧ s.ReaderStranded (.ofDisciplines .blocking .blocking) := by
  refine ⟨[.call 0 (.peek 8), .thread 0, .thread 0, .thread 0,
    .call 1 (.get 8), .thread 1, .thread 1, .thread 1,
    .call 2 (.put ⟨[7], by decide⟩), .thread 2, .thread 2, .thread 2, .notify 2 (some 0), .thread 2,
    .thread 0, .thread 0, .thread 0, .thread 0], by decide, ?_⟩
  refine ⟨_, Option.some_get (by decide +kernel) |>.symm, ?_, ?_⟩
  · decide +kernel
  · decide +kernel

end StackState

end Shovel.Containers
