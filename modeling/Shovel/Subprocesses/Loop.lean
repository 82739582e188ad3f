import Shovel.Library.Machine
import Shovel.Containers.QueueBase

/-!
# The queue stack of the subprocesses

A subprocess reads from an `RQ_NoBlockReadDecorator` over an
`RQ_BlockWriteDecorator`. Its worker calls `put`, which tests the guard and goes
to sleep under the mutex. Its loop calls `get`, which removes a message and
notifies without the mutex. The steps of the two threads are interleaved here
over any inner queue that behaves like a bounded list of messages and reports
its bound.

The loop stops calling `get` once a call has returned zero. If the notification
of that last call falls between the producer's test and its going to sleep, on
an empty queue, nobody wakes the producer again; this is the only way to hang.
-/

namespace Shovel.Subprocesses

open Containers Transition

/-- The program points of `RQ_BlockWriteDecorator::put`. -/
inductive PutPc where
  | idle
  | lock (m : Message)
  | guard (m : Message)
  | goToSleep (m : Message)
  | asleep (m : Message)
  | relock (m : Message)
  | innerPut (m : Message)
  | notifyEmpty
  | unlock
  deriving DecidableEq

/-- The program points of `AbstractSubprocess::loop` and of `RQ_NoBlockReadDecorator::get`, which
it calls. -/
inductive LoopPc where
  | testSize
  | innerGet
  | notifyFull (gotSize : Nat)
  deriving DecidableEq

/-- The inner queue, the shared mutex, and the two threads. -/
structure LoopState (Q : Type) where
  inner : Q
  locked : Bool
  producer : PutPc
  consumer : LoopPc

/-- A call of `put` begins, or one of the threads makes its next step. -/
inductive LoopLabel where
  | putCall (m : Message)
  | producer
  | consumer
  deriving DecidableEq

namespace LoopState

variable {Q : Type} [QueueBase Q]

/-- `numeric_limits<uint16_t>::max()`, the size of the loop's array. -/
def arrSize : Nat := 65535

/-- The next step of a running `put`. The lock is taken only when the mutex is free. -/
def producerStep (s : LoopState Q) : Option (LoopState Q) :=
  match s.producer with
  | .idle => none
  | .lock m => if s.locked then none else some { s with locked := true, producer := .guard m }
  | .guard m =>
      some { s with
        producer := if QueueBase.capacity s.inner ≤ QueueBase.size s.inner then .goToSleep m
          else .innerPut m }
  -- going to sleep releases the mutex
  | .goToSleep m => some { s with locked := false, producer := .asleep m }
  | .asleep _ => none
  | .relock m => if s.locked then none else some { s with locked := true, producer := .guard m }
  | .innerPut m =>
      match QueueBase.put s.inner m with
      | .ok (_, inner) => some { s with inner, producer := .notifyEmpty }
      | .error _ => none
  -- no thread ever sleeps on `m_condition_empty`
  | .notifyEmpty => some { s with producer := .unlock }
  | .unlock => some { s with locked := false, producer := .idle }

/-- The thread that `notify_one` on `m_condition_full` wakes: the producer if it is asleep at that
moment. -/
def wake : PutPc → PutPc
  | .asleep m => .relock m
  | pc => pc

/-- The next step of the loop. -/
def consumerStep (s : LoopState Q) : Option (LoopState Q) :=
  match s.consumer with
  | .testSize =>
      some { s with consumer := if QueueBase.size s.inner ≠ 0 then .innerGet else .testSize }
  | .innerGet =>
      match QueueBase.get s.inner arrSize with
      | .ok (read, inner) => some { s with inner, consumer := .notifyFull read.ret }
      | .error _ => none
  | .notifyFull gotSize =>
      some { s with
        producer := wake s.producer
        -- `while (got_size > 0)`
        consumer := if 0 < gotSize then .innerGet else .testSize }

/-- One step of an interleaving. -/
def step (s : LoopState Q) : LoopLabel → Option (LoopState Q)
  | .putCall m => if s.producer = .idle then some { s with producer := .lock m } else none
  | .producer => s.producerStep
  | .consumer => s.consumerStep

/-- The state before the first step. -/
def start (inner : Q) : LoopState Q := ⟨inner, false, .idle, .testSize⟩

/-- All interleavings over an inner queue. -/
def machine (inner : Q) : Machine (LoopState Q) LoopLabel where
  init s := s = start inner
  step := step

/-- The producer has passed a guard test that sends it to sleep, or is asleep. -/
def Sleepy (s : LoopState Q) : Prop :=
  ∃ m, s.producer = .goToSleep m ∨ s.producer = .asleep m

/-- The producer is asleep, the queue is empty and the consumer is back at its test. -/
def Hangs (s : LoopState Q) : Prop :=
  (∃ m, s.producer = .asleep m) ∧ QueueBase.size s.inner = 0 ∧ s.consumer = .testSize

/-- The step is not the one that loses the wake-up: the notification after a `get` that returned
zero, on an empty queue, while the producer is between its guard test and its going to sleep. -/
def NotifiesInTime (s : LoopState Q) (label : LoopLabel) : Prop :=
  ¬ (label = .consumer ∧ s.consumer = .notifyFull 0 ∧ (∃ m, s.producer = .goToSleep m) ∧
    QueueBase.size s.inner = 0)

/-! ## Runs that notify in time -/

/-- On an empty queue the producer goes to sleep or sleeps only while the consumer is inside `get`,
whose notification is still to come. -/
def AwaitsNotify (Rel : Q → MessageFifo → Prop) (bound : Nat) (s : LoopState Q) : Prop :=
  (∃ a, Rel s.inner a ∧ a.fifo.bound = bound) ∧
    (QueueBase.size s.inner = 0 → s.Sleepy → s.consumer ≠ .testSize)

variable {Rel : Q → MessageFifo → Prop} {bound : Nat} {s s' : LoopState Q} {label : LoopLabel}

/-- The steps of the producer keep the invariant: its guard sends it to sleep only on a full
queue, which is not empty. -/
theorem producer_awaitsNotify (hinner : BoundedQueue Q Rel) (hpos : 0 < bound)
    (hinv : AwaitsNotify Rel bound s) (hstep : s.producerStep = some s') :
    AwaitsNotify Rel bound s' := by
  obtain ⟨⟨a, hrel, hbound⟩, hawaits⟩ := hinv
  cases hpc : s.producer with
  | idle | asleep m => simp [producerStep, hpc] at hstep
  | lock m | relock m =>
      simp only [producerStep, hpc] at hstep
      split at hstep
      · cases hstep
      · obtain rfl := Option.some.inj hstep
        exact ⟨⟨a, hrel, hbound⟩, fun _ hsleepy => by simp [Sleepy] at hsleepy⟩
  | guard m =>
      simp only [producerStep, hpc] at hstep
      obtain rfl := Option.some.inj hstep
      refine ⟨⟨a, hrel, hbound⟩, fun hempty hsleepy => ?_⟩
      have hcapacity := hinner.capacity hrel
      have hroom : ¬ QueueBase.capacity s.inner ≤ QueueBase.size s.inner := by
        simp only at hempty
        omega
      simp [Sleepy, hroom] at hsleepy
  | goToSleep m =>
      simp only [producerStep, hpc] at hstep
      obtain rfl := Option.some.inj hstep
      exact ⟨⟨a, hrel, hbound⟩, fun hempty _ => hawaits hempty ⟨m, .inl hpc⟩⟩
  | innerPut m =>
      obtain ⟨inner, hput, hnext⟩ := hinner.simulates.put m hrel
      simp only [producerStep, hpc, hput] at hstep
      obtain rfl := Option.some.inj hstep
      refine ⟨⟨_, hnext, ?_⟩, fun _ hsleepy => by simp [Sleepy] at hsleepy⟩
      rw [MessageFifo.put_bound, hbound]
  | notifyEmpty | unlock =>
      simp only [producerStep, hpc] at hstep
      obtain rfl := Option.some.inj hstep
      exact ⟨⟨a, hrel, hbound⟩, fun _ hsleepy => by simp [Sleepy] at hsleepy⟩

/-- A notification leaves no thread asleep. -/
theorem wake_ne_asleep (pc : PutPc) (m : Message) : wake pc ≠ .asleep m := by
  cases pc <;> simp [wake]

/-- The steps of the loop that notify in time keep the invariant. -/
theorem consumer_awaitsNotify (hinner : BoundedQueue Q Rel)
    (hinv : AwaitsNotify Rel bound s) (htime : s.NotifiesInTime .consumer)
    (hstep : s.consumerStep = some s') : AwaitsNotify Rel bound s' := by
  obtain ⟨⟨a, hrel, hbound⟩, hawaits⟩ := hinv
  cases hpc : s.consumer with
  | testSize =>
      simp only [consumerStep, hpc] at hstep
      obtain rfl := Option.some.inj hstep
      exact ⟨⟨a, hrel, hbound⟩, fun hempty hsleepy => absurd hpc (hawaits hempty hsleepy)⟩
  | innerGet =>
      obtain ⟨inner, hget, hnext⟩ := hinner.simulates.get arrSize hrel
      simp only [consumerStep, hpc, hget] at hstep
      obtain rfl := Option.some.inj hstep
      exact ⟨⟨_, hnext, hbound⟩, fun _ _ => by simp⟩
  | notifyFull gotSize =>
      simp only [consumerStep, hpc] at hstep
      obtain rfl := Option.some.inj hstep
      refine ⟨⟨a, hrel, hbound⟩, fun hempty hsleepy => ?_⟩
      obtain ⟨m, hgoing | hasleep⟩ := hsleepy
      · -- the notification came too early for this producer, but another `get` follows
        have hproducer : s.producer = .goToSleep m := by
          cases hp : s.producer <;> simp_all [wake]
        by_cases hgot : 0 < gotSize
        · simp [hgot]
        · obtain rfl : gotSize = 0 := by omega
          exact absurd ⟨rfl, hpc, ⟨m, hproducer⟩, hempty⟩ htime
      · exact absurd hasleep (wake_ne_asleep _ _)

/-- Every step of a run that notifies in time keeps the invariant. -/
theorem step_awaitsNotify (hinner : BoundedQueue Q Rel) (hpos : 0 < bound) (label : LoopLabel)
    (hinv : AwaitsNotify Rel bound s) (htime : s.NotifiesInTime label)
    (hstep : s.step label = some s') : AwaitsNotify Rel bound s' := by
  cases label with
  | putCall m =>
      simp only [step] at hstep
      split at hstep
      · obtain rfl := Option.some.inj hstep
        exact ⟨hinv.1, fun _ hsleepy => by simp [Sleepy] at hsleepy⟩
      · cases hstep
  | producer => exact producer_awaitsNotify hinner hpos hinv hstep
  | consumer => exact consumer_awaitsNotify hinner hinv htime hstep

/-- The invariant holds after every run that notifies in time. -/
theorem reachable_awaitsNotify (hinner : BoundedQueue Q Rel) {inner : Q} {a : MessageFifo}
    (hrel : Rel inner a) (hpos : 0 < a.fifo.bound)
    (h : (machine inner).ReachableUnder NotifiesInTime s) :
    AwaitsNotify Rel a.fifo.bound s := by
  have hinit : ∀ state, (machine inner).init state → AwaitsNotify Rel a.fifo.bound state := by
    intro state hstate
    obtain rfl := hstate
    exact ⟨⟨a, hrel, rfl⟩, fun _ hsleepy => by simp [Sleepy, start] at hsleepy⟩
  have hstep : ∀ state following label, AwaitsNotify Rel a.fifo.bound state →
      NotifiesInTime state label → (machine inner).step state label = some following →
      AwaitsNotify Rel a.fifo.bound following :=
    fun _ _ label hinv htime hnext => step_awaitsNotify hinner hpos label hinv htime hnext
  exact h.invariant hinit hstep

/-! ## Hanging -/

/-- In a state that hangs no step changes anything. -/
theorem hangs_forever (h : s.Hangs) {label : LoopLabel} (hstep : s.step label = some s') :
    s' = s := by
  obtain ⟨⟨m, hproducer⟩, hempty, hconsumer⟩ := h
  cases label with
  | putCall other => simp [step, hproducer] at hstep
  | producer => simp [step, producerStep, hproducer] at hstep
  | consumer =>
      simp only [step, consumerStep, hconsumer, hempty, ne_eq, not_true_eq_false, if_false] at hstep
      obtain rfl := Option.some.inj hstep
      rw [← hconsumer]

/-- A notification that comes too early leaves a state from which the producer's next step
hangs. -/
theorem hangs_of_early (hearly : ¬ s.NotifiesInTime label) (hstep : s.step label = some s') :
    ∃ s'', s'.step .producer = some s'' ∧ s''.Hangs := by
  obtain ⟨rfl, hconsumer, ⟨m, hproducer⟩, hempty⟩ := not_not.mp hearly
  simp only [step, consumerStep, hconsumer, hproducer, wake, Nat.lt_irrefl, if_false] at hstep
  obtain rfl := Option.some.inj hstep
  exact ⟨_, rfl, ⟨m, rfl⟩, hempty, rfl⟩

/-- Over every inner queue that is a bounded list of at least one message: no run whose steps all
notify in time reaches a state that hangs, and after a step that notifies too early the producer's
next step reaches one. -/
theorem no_lost_wakeup {inner : Q} {a : MessageFifo} (hinner : BoundedQueue Q Rel)
    (hrel : Rel inner a) (hpos : 0 < a.fifo.bound) :
    (∀ s, (machine inner).ReachableUnder NotifiesInTime s → ¬ s.Hangs) ∧
      ∀ s label s', (machine inner).Reachable s → ¬ s.NotifiesInTime label →
        s.step label = some s' →
          ∃ s'', s'.step .producer = some s'' ∧ (machine inner).Reachable s'' ∧ s''.Hangs := by
  refine ⟨?_, ?_⟩
  · intro s hreach hhangs
    obtain ⟨⟨m, hasleep⟩, hempty, htest⟩ := hhangs
    exact (reachable_awaitsNotify hinner hrel hpos hreach).2 hempty ⟨m, .inr hasleep⟩ htest
  · intro s label s' hreach hearly hstep
    obtain ⟨s'', hsleep, hhangs⟩ := hangs_of_early hearly hstep
    have hnext : (machine inner).Reachable s' := hreach.step hstep
    have hlast : (machine inner).step s' .producer = some s'' := hsleep
    exact ⟨s'', hsleep, hnext.step hlast, hhangs⟩

/-- A queue of one message: the consumer has found the queue empty and is about to notify while the
producer, which saw it full, has not gone to sleep yet. -/
theorem no_lost_wakeup_early : ¬ (start (MessageFifo.empty 1)).Hangs ∧
    ∃ s s' s'', (machine (MessageFifo.empty 1)).Reachable s ∧ s.step .consumer = some s' ∧
      s'.step .producer = some s'' ∧ s''.Hangs := by
  obtain ⟨hintime, hearly⟩ :=
    no_lost_wakeup messageFifo_bounded (rfl : MessageFifo.empty 1 = _) (by decide)
  refine ⟨hintime _ (.start rfl), ?_⟩
  have hrun : ((machine (MessageFifo.empty 1)).run
      [.putCall ⟨[7], by decide⟩, .producer, .producer, .producer, .producer, .producer,
        .putCall ⟨[8], by decide⟩, .producer, .producer, .consumer, .consumer, .consumer, .consumer]
      (start (MessageFifo.empty 1))).map
        (fun s => (s.producer, QueueBase.size s.inner, s.consumer)) =
      some (.goToSleep ⟨[8], by decide⟩, 0, .notifyFull 0) := by
    decide
  obtain ⟨s, hs, hfields⟩ := Option.map_eq_some_iff.mp hrun
  obtain ⟨hproducer, hrest⟩ := Prod.mk.inj hfields
  obtain ⟨hempty, hconsumer⟩ := Prod.mk.inj hrest
  have hreach := Machine.reachable_of_run _ rfl hs
  have hstep : s.step .consumer =
      some { s with producer := wake s.producer, consumer := .testSize } := by
    simp [step, consumerStep, hconsumer]
  obtain ⟨s'', hsleep, -, hhangs⟩ := hearly s .consumer _ hreach
    (not_not.mpr ⟨rfl, hconsumer, ⟨_, hproducer⟩, hempty⟩) hstep
  exact ⟨s, _, s'', hreach, hstep, hsleep, hhangs⟩

/-- Two messages for a queue of one: the producer tests the guard while the first message is
queued, the consumer removes it, finds the queue empty and notifies twice, and only then does the
producer go to sleep. -/
theorem lost_wakeup :
    ∃ s, (machine (MessageFifo.empty 1)).Reachable s ∧ s.Hangs := by
  have hrun : ((machine (MessageFifo.empty 1)).run
      [.putCall ⟨[7], by decide⟩, .producer, .producer, .producer, .producer, .producer,
        .putCall ⟨[8], by decide⟩, .producer, .producer,
        .consumer, .consumer, .consumer, .consumer, .consumer, .producer]
      (start (MessageFifo.empty 1))).map
        (fun s => (s.producer, QueueBase.size s.inner, s.consumer)) =
      some (.asleep ⟨[8], by decide⟩, 0, .testSize) := by
    decide
  obtain ⟨s, hs, hfields⟩ := Option.map_eq_some_iff.mp hrun
  obtain ⟨hproducer, hrest⟩ := Prod.mk.inj hfields
  obtain ⟨hempty, hconsumer⟩ := Prod.mk.inj hrest
  exact ⟨s, Machine.reachable_of_run _ rfl hs, ⟨_, hproducer⟩, hempty, hconsumer⟩

end LoopState

end Shovel.Subprocesses
