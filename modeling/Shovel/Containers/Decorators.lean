import Shovel.Containers.RingQueueFifo

/-!
# Stacks of blocking decorators

The subclasses of `RingQueueBlockBaseDecorator` wrap a queue and forward `put`,
`get`, `peek`, `size`, `capacity` and `get_status` to it. Some of them lock a
mutex and test a guard on the wrapped queue first, and sleep while it holds. A
stack is modelled over a `RingQueue` at its bottom, whose inherited `capacity`
reads the base-class member that `RingQueue` shadows. The guard of `put` is
therefore tested against zero, whatever the number of cells is.
-/

namespace Shovel.Containers

open Outcome

/-- The subclasses of `RingQueueBlockBaseDecorator`, and the class itself. -/
inductive Decorator where
  | blockBase
  | blockWrite
  | blockRead
  | blockWriteTimed (timeoutMs : Nat)
  | blockReadTimed (timeoutMs : Nat)
  | noBlockWrite
  | noBlockRead
  deriving DecidableEq, Repr

namespace Decorator

/-- `put` locks the mutex. -/
def locksPut : Decorator → Bool
  | .blockWrite | .blockWriteTimed _ => true
  | _ => false

/-- `get` and `peek` lock the mutex. -/
def locksGet : Decorator → Bool
  | .blockRead | .blockReadTimed _ => true
  | _ => false

/-- `put` sleeps without a time limit while its guard holds. A timed decorator sleeps once, for a
limited time, and then calls the wrapped queue in any case. -/
def blocksPut : Decorator → Bool
  | .blockWrite => true
  | _ => false

/-- `get` and `peek` sleep without a time limit while their guard holds. -/
def blocksGet : Decorator → Bool
  | .blockRead => true
  | _ => false

end Decorator

/-- A ring queue below any number of decorators. -/
inductive QueueStack where
  | ring (q : RingQueue)
  | decorated (d : Decorator) (wrappee : QueueStack)
  deriving DecidableEq, Repr

/-- The end of a call that no other thread interferes with: it returns, or it waits for ever,
asleep or for a mutex that it holds itself. -/
inductive Attempt (α : Type) where
  | returns (a : α)
  | waits
  deriving DecidableEq, Repr

def Attempt.map {α β : Type} (f : α → β) : Attempt α → Attempt β
  | .returns a => .returns (f a)
  | .waits => .waits

namespace QueueStack

/-- The decorators around a ring queue, the outermost first. -/
def decorate (decorators : List Decorator) (q : RingQueue) : QueueStack :=
  decorators.foldr .decorated (.ring q)

/-- The ring queue below the decorators. -/
def bottom : QueueStack → RingQueue
  | .ring q => q
  | .decorated _ wrappee => wrappee.bottom

/-- `capacity`: virtual, forwarded to the wrapped queue. -/
def capacity : QueueStack → Nat
  | .ring q => QueueBase.capacity q
  | .decorated _ wrappee => wrappee.capacity

/-- `size`: virtual, forwarded to the wrapped queue. -/
def size : QueueStack → Nat
  | .ring q => QueueBase.size q
  | .decorated _ wrappee => wrappee.size

/-- The condition of `wait_function_put`, tested on the wrapped queue. -/
def waitsToPut (wrappee : QueueStack) : Bool := decide (wrappee.capacity ≤ wrappee.size)

/-- The condition of `wait_function_get`, tested on the wrapped queue. -/
def waitsToGet (wrappee : QueueStack) : Bool := decide (wrappee.size ≤ 0)

/-- A decorator hands its mutex to the decorator it wraps, and one that is wrapped later replaces
its own mutex only. So the two outermost decorators share a mutex, and no others do. -/
def locksTwice (locks : Decorator → Bool) : QueueStack → Bool
  | .decorated d (.decorated inner _) => locks d && locks inner
  | _ => false

/-- A call that descends through the stack: each decorator that blocks tests its guard on what it
wraps. -/
def through {α : Type} (blocks : Decorator → Bool) (guard : QueueStack → Bool)
    (op : RingQueue → Except QueueException (α × RingQueue)) :
    QueueStack → Except QueueException (Attempt (α × QueueStack))
  | .ring q => (op q).map fun (a, q') => .returns (a, .ring q')
  | .decorated d wrappee =>
      if blocks d && guard wrappee then .ok .waits
      else
        (through blocks guard op wrappee).map
          (·.map fun (a, wrappee') => (a, .decorated d wrappee'))

def put (s : QueueStack) (m : Message) : Except QueueException (Attempt (Nat × QueueStack)) :=
  if s.locksTwice Decorator.locksPut then .ok .waits
  else s.through Decorator.blocksPut waitsToPut (RingQueue.put · m)

def get (s : QueueStack) (size : Nat) : Except QueueException (Attempt (Read × QueueStack)) :=
  if s.locksTwice Decorator.locksGet then .ok .waits
  else s.through Decorator.blocksGet waitsToGet (RingQueue.get · size)

def peek (s : QueueStack) (size : Nat) : Except QueueException (Attempt (Read × QueueStack)) :=
  if s.locksTwice Decorator.locksGet then .ok .waits
  else s.through Decorator.blocksGet waitsToGet (RingQueue.peek · size)

/-! ## A stack looks like the queue below it -/

variable (decorators : List Decorator) (q : RingQueue)

@[simp] theorem decorate_cons (d : Decorator) :
    decorate (d :: decorators) q = .decorated d (decorate decorators q) := rfl

@[simp] theorem bottom_decorate : (decorate decorators q).bottom = q := by
  induction decorators with
  | nil => rfl
  | cons d rest ih => exact ih

@[simp] theorem capacity_decorate : (decorate decorators q).capacity = q.base.totalCount := by
  induction decorators with
  | nil => rfl
  | cons d rest ih => exact ih

@[simp] theorem size_decorate : (decorate decorators q).size = q.base.size := by
  induction decorators with
  | nil => rfl
  | cons d rest ih => exact ih

/-- A guard that only depends on the ring below: the call waits when some decorator blocks and the
guard holds, and is the ring's own call otherwise. -/
theorem through_decorate {α : Type} {blocks : Decorator → Bool} {guard : QueueStack → Bool}
    {op : RingQueue → Except QueueException (α × RingQueue)}
    (hguard : ∀ rest, guard (decorate rest q) = guard (.ring q)) :
    (decorate decorators q).through blocks guard op =
      if decorators.any blocks && guard (.ring q) then .ok .waits
      else (op q).map fun (a, q') => .returns (a, decorate decorators q') := by
  induction decorators with
  | nil => rfl
  | cons d rest ih =>
      rw [decorate_cons, through, ih, hguard, List.any_cons]
      cases hblocks : blocks d <;> cases hholds : guard (.ring q) <;> cases rest.any blocks <;>
        cases hop : op q <;> rfl

/-- `put` through a stack. -/
theorem put_decorate (m : Message) : (decorate decorators q).put m =
    if (decorate decorators q).locksTwice Decorator.locksPut then .ok .waits
    else if decorators.any Decorator.blocksPut && decide (q.base.totalCount ≤ q.base.size) then
      .ok .waits
    else (q.put m).map fun (n, q') => .returns (n, decorate decorators q') := by
  rw [put, through_decorate]
  · rfl
  · intro rest
    rw [waitsToPut, capacity_decorate, size_decorate]
    rfl

/-- `get` through a stack. -/
theorem get_decorate (size : Nat) : (decorate decorators q).get size =
    if (decorate decorators q).locksTwice Decorator.locksGet then .ok .waits
    else if decorators.any Decorator.blocksGet && decide (q.base.size ≤ 0) then .ok .waits
    else (q.get size).map fun (read, q') => .returns (read, decorate decorators q') := by
  rw [get, through_decorate]
  · rfl
  · intro rest
    rw [waitsToGet, size_decorate]
    rfl

end QueueStack

/-! ## Guards and refusals -/

namespace RingQueue

/-- `put` would refuse the message with `STATUS_QUEUEBASE_FULL`. -/
def RefusesPut (q : RingQueue) (m : Message) : Prop :=
  ∃ q', q.put m = .ok (0, q') ∧ q'.base.status = .full

/-- `get` would refuse with `STATUS_QUEUEBASE_EMPTY`. -/
def RefusesGet (q : RingQueue) (size : Nat) : Prop :=
  ∃ q', q.get size = .ok (⟨0, []⟩, q') ∧ q'.base.status = .empty

end RingQueue

namespace Represents

variable {q : RingQueue} {a : MessageFifo}

/-- A ring refuses a message exactly when every cell is taken. -/
theorem refusesPut_iff (h : Represents q a) (m : Message) :
    q.RefusesPut m ↔ q.base.size = q.totalCount := by
  have hfits : q.base.size ≤ q.totalCount := by
    rw [h.size, ← h.bound]
    exact a.fifo.fits
  by_cases hroom : a.fifo.HasRoom
  · obtain ⟨q', hput, hrel⟩ := h.put_room hroom m
    have hlt := h.hasRoom_iff.mp hroom
    refine ⟨?_, fun heq => absurd hlt (by omega)⟩
    rintro ⟨other, hother, hstatus⟩
    obtain ⟨-, rfl⟩ := Outcome.answer_unique hput hother
    rw [hrel.status] at hstatus
    cases hstatus
  · obtain ⟨q', hput, hrel⟩ := h.put_full hroom m
    refine ⟨fun _ => ?_, fun _ => ⟨q', hput, hrel.status⟩⟩
    have hnot := mt h.hasRoom_iff.mpr hroom
    omega

/-- A ring refuses to hand out a message exactly when it holds none. -/
theorem refusesGet_iff (h : Represents q a) (size : Nat) :
    q.RefusesGet size ↔ q.base.size = 0 := by
  cases hfirst : a.fifo.items.head? with
  | none =>
      obtain ⟨q', hget, hrel⟩ := h.get_none hfirst size
      exact ⟨fun _ => h.head_none_iff.mp hfirst, fun _ => ⟨q', hget, hrel.status⟩⟩
  | some m =>
      obtain ⟨q', hget, hrel⟩ := h.get_some hfirst size
      refine ⟨?_, fun hzero => ?_⟩
      · rintro ⟨other, hother, hstatus⟩
        obtain ⟨-, rfl⟩ := Outcome.answer_unique hget hother
        rw [hrel.status] at hstatus
        cases hstatus
      · rw [h.head_none_iff.mpr hzero] at hfirst
        cases hfirst

end Represents

/-- What the guards of a stack over a ring of `count` cells are meant to be: the stack reports the
number of cells, the size never exceeds it, each guard holds exactly when the ring would refuse the
call, and a blocking `put` does not wait while a cell is free. -/
structure GuardsAgree (count : Nat) (s : QueueStack) : Prop where
  capacity : s.capacity = count
  size : s.size ≤ s.capacity
  put : ∀ m, s.waitsToPut ↔ s.bottom.RefusesPut m
  get : ∀ size, s.waitsToGet ↔ s.bottom.RefusesGet size
  free : s.size < count → ∀ m, (QueueStack.decorated .blockWrite s).put m ≠ .ok .waits

/-- Over a ring with at least one cell no stack has the guards it is meant to have. In every
reachable state the capacity it reports is zero and the guard of `put` holds, so a blocking `put`
waits even while cells are free; the guard agrees with the refusal only when all cells are taken.
The guard of `get` agrees with the refusal always. -/
theorem guards_disagree {count cellSize : Nat} {calls : List QueueCall} {answers : List Answer}
    {q : RingQueue} (decorators : List Decorator) (hpos : 0 < count) (hcount : count < 2 ^ 32)
    (hcalls : callAll (RingQueue.new count cellSize) calls = .ok (answers, q)) :
    ¬ GuardsAgree count (.decorate decorators q) ∧
      (QueueStack.decorate decorators q).capacity = 0 ∧
      (∀ m, (QueueStack.decorate (.blockWrite :: decorators) q).put m = .ok .waits) ∧
      (∀ m, ((QueueStack.decorate decorators q).waitsToPut ↔
          (QueueStack.decorate decorators q).bottom.RefusesPut m) ↔ q.base.size = count) ∧
      ∀ size, (QueueStack.decorate decorators q).waitsToGet ↔
        (QueueStack.decorate decorators q).bottom.RefusesGet size := by
  obtain ⟨q', hrun, hrel⟩ :=
    ring_simulates.callAll_eq calls (Represents.new count cellSize hcount)
  obtain ⟨-, rfl⟩ := Outcome.answer_unique hcalls hrun
  obtain ⟨htotal, hbase⟩ := RingQueue.callAll_counts hcalls
  replace htotal : q.totalCount = count := htotal
  replace hbase : q.base.totalCount = 0 := hbase
  have hcapacity : (QueueStack.decorate decorators q).capacity = 0 := by
    rw [QueueStack.capacity_decorate, hbase]
  have hput : (QueueStack.decorate decorators q).waitsToPut = true := by
    simp [QueueStack.waitsToPut, hcapacity]
  refine ⟨fun h => ?_, hcapacity, fun m => ?_, fun m => ?_, fun size => ?_⟩
  · have hreported := h.capacity
    omega
  · rw [QueueStack.put_decorate]
    simp [Decorator.blocksPut, hbase]
  · simp [hput, hrel.refusesPut_iff m, htotal]
  · simp [QueueStack.waitsToGet, hrel.refusesGet_iff size]

/-- A ring of two cells that holds one message. -/
theorem guards_disagree_half : ∃ answers q,
    callAll (RingQueue.new 2 4) [.put ⟨[7], by decide⟩] = .ok (answers, q) ∧ q.base.size = 1 ∧
      ¬ GuardsAgree 2 (.decorate [.noBlockRead] q) := by
  obtain ⟨q, hcalls, hrel⟩ := ring_simulates.callAll_eq [.put ⟨[7], by decide⟩]
    (Represents.new 2 4 (by decide))
  refine ⟨_, q, hcalls, hrel.size, ?_⟩
  exact (guards_disagree [.noBlockRead] (by decide) (by decide) hcalls).1

/-- On a fresh ring of one cell, the stack of the subprocesses reports capacity zero and its
blocking `put` goes to sleep at once. -/
theorem blockWrite_waits_on_empty :
    ¬ GuardsAgree 1 (.ring (.new 1 4)) ∧
      (QueueStack.decorate [.noBlockRead, .blockWrite] (.new 1 4)).put ⟨[7], by decide⟩ =
        .ok .waits := by
  refine ⟨fun h => ?_, rfl⟩
  exact absurd h.capacity (by decide)

end Shovel.Containers
