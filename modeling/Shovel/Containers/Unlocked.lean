import Mathlib.Data.List.Forall2
import Shovel.Library.Machine
import Shovel.Containers.RingQueueFifo

/-!
# The ring queue without a lock

One producer calls `put` and one consumer calls `get` and `peek` on a ring
queue, and nothing serialises the calls. The steps of a call are the test of the
size, the bag operation, the increment of the index, its wrap and the update of
the size; between any two of them the other thread may make any number of steps.
The status is left out, since both threads write it.

The invariant counts a message as stored from the producer's bag operation to
the consumer's. The size counter lags behind this: it is raised after a message
is stored and lowered after one is read, so each thread finds the cells it needs.
-/

namespace Shovel.Containers

open Transition Circular

/-- A completed `get`, or one that has read its message: the size asked for and the result. -/
structure Got where
  asked : Nat
  read : Read
  deriving DecidableEq, Repr

/-- The program points of `put`. -/
inductive ProducerPc where
  | idle
  | bagPut (m : Message)
  | incIndex (m : Message)
  | wrapIndex (m : Message)
  | incSize (m : Message)
  | threw
  deriving DecidableEq

/-- The program points of `get` and `peek`. -/
inductive ConsumerPc where
  | idle
  | bagGet (size : Nat)
  | incIndex (g : Got)
  | wrapIndex (g : Got)
  | decSize (g : Got)
  | bagPeek (size : Nat)
  | threw
  deriving DecidableEq

/-- The ring between the two threads. The fields `accepted` and `got` record the completed accepted
`put` calls and the completed `get` calls that found a message. -/
structure Unlocked where
  ring : RingQueue
  producer : ProducerPc
  consumer : ConsumerPc
  accepted : List Message
  got : List Got

/-- The first step of a call, or the next step of a thread's call. -/
inductive UnlockedLabel where
  | putCall (m : Message)
  | getCall (size : Nat)
  | peekCall (size : Nat)
  | producer
  | consumer

namespace Unlocked

/-- The next step of a running `put`. -/
def producerStep (s : Unlocked) : Option Unlocked :=
  match s.producer with
  | .idle | .threw => none
  | .bagPut m =>
      match s.ring.bagPut m with
      | .ok (_, ring) => some { s with ring, producer := .incIndex m }
      | .error _ => some { s with producer := .threw }
  | .incIndex m => some { s with ring := s.ring.incIndexIn, producer := .wrapIndex m }
  | .wrapIndex m => some { s with ring := s.ring.wrapIndexIn, producer := .incSize m }
  | .incSize m =>
      some { s with ring := s.ring.incSize, producer := .idle, accepted := s.accepted ++ [m] }

/-- The next step of a running `get` or `peek`. -/
def consumerStep (s : Unlocked) : Option Unlocked :=
  match s.consumer with
  | .idle | .threw => none
  | .bagGet size =>
      match s.ring.bagGet size with
      | .ok (read, ring) => some { s with ring, consumer := .incIndex ⟨size, read⟩ }
      | .error _ => some { s with consumer := .threw }
  | .incIndex g => some { s with ring := s.ring.incIndexOut, consumer := .wrapIndex g }
  | .wrapIndex g => some { s with ring := s.ring.wrapIndexOut, consumer := .decSize g }
  | .decSize g =>
      some { s with
        ring := s.ring.decSize
        consumer := .idle
        got := s.got ++ [{ g with read.ret := RingQueue.cast16 g.read.ret }] }
  | .bagPeek size =>
      match s.ring.bagPeek size with
      | .ok _ => some { s with consumer := .idle }
      | .error _ => some { s with consumer := .threw }

/-- One step of an interleaving. The first step of a call is its test of the size. -/
def step (s : Unlocked) : UnlockedLabel → Option Unlocked
  | .putCall m =>
      if s.producer = .idle then
        some (if s.ring.base.size < s.ring.totalCount then { s with producer := .bagPut m } else s)
      else none
  | .getCall size =>
      if s.consumer = .idle then
        some (if s.ring.base.size ≠ 0 then { s with consumer := .bagGet size } else s)
      else none
  | .peekCall size =>
      if s.consumer = .idle then
        some (if s.ring.base.size ≠ 0 then { s with consumer := .bagPeek size } else s)
      else none
  | .producer => s.producerStep
  | .consumer => s.consumerStep

/-- Both threads idle. -/
def start (q : RingQueue) : Unlocked := ⟨q, .idle, .idle, [], []⟩

/-- All interleavings of the steps of the two threads. -/
def machine (q : RingQueue) : Machine Unlocked UnlockedLabel where
  init s := s = start q
  step := step

/-! ## One thread alone -/

/-- A call of `put` whose steps are not interrupted is `RingQueue::put`. -/
theorem put_alone {s : Unlocked} {m : Message} {n : Nat} {q' : RingQueue}
    (hidle : s.producer = .idle) (hstatus : s.ring.resetStatus = s.ring)
    (hroom : s.ring.base.size < s.ring.totalCount) (hput : s.ring.put m = .ok (n, q')) :
    (machine s.ring).run [.putCall m, .producer, .producer, .producer, .producer] s =
      some { s with ring := q', accepted := s.accepted ++ [m] } := by
  rw [RingQueue.put, hstatus] at hput
  simp only [hroom, if_true] at hput
  obtain ⟨⟨size, written⟩, hbag, heq⟩ := Outcome.bind_eq_ok.mp hput
  obtain ⟨-, rfl⟩ := Prod.mk.inj (Except.ok.inj heq)
  simp [Machine.run, machine, step, producerStep, hidle, hroom, hbag]

/-- A call of `get` whose steps are not interrupted is `RingQueue::get`. -/
theorem get_alone {s : Unlocked} {size : Nat} {read : Read} {q' : RingQueue}
    (hidle : s.consumer = .idle) (hstatus : s.ring.resetStatus = s.ring)
    (hne : s.ring.base.size ≠ 0) (hget : s.ring.get size = .ok (read, q')) :
    (machine s.ring).run [.getCall size, .consumer, .consumer, .consumer, .consumer] s =
      some { s with ring := q', got := s.got ++ [⟨size, read⟩] } := by
  rw [RingQueue.get, hstatus] at hget
  simp only [hne, ne_eq, not_false_eq_true, if_true] at hget
  obtain ⟨⟨bytes, freed⟩, hbag, heq⟩ := Outcome.bind_eq_ok.mp hget
  obtain ⟨rfl, rfl⟩ := Prod.mk.inj (Except.ok.inj heq)
  simp [Machine.run, machine, step, consumerStep, hidle, hne, hbag]

end Unlocked

/-! ## The invariant -/

namespace ProducerPc

/-- The message that is stored and not yet counted by the size. -/
def uncounted : ProducerPc → List Message
  | .incIndex m | .wrapIndex m | .incSize m => [m]
  | .idle | .bagPut _ | .threw => []

/-- The position of the next message to be stored, up to the number of cells. -/
def writePos (pc : ProducerPc) (indexIn : Nat) : Nat :=
  match pc with
  | .incIndex _ => indexIn + 1
  | _ => indexIn

/-- The range of the input index. -/
def IndexOk (pc : ProducerPc) (indexIn count : Nat) : Prop :=
  match pc with
  | .wrapIndex _ => indexIn ≤ count
  | .threw => False
  | _ => indexIn < count

end ProducerPc

namespace ConsumerPc

/-- The message that is read and still counted by the size. -/
def uncleared : ConsumerPc → List Got
  | .incIndex g | .wrapIndex g | .decSize g => [g]
  | .idle | .bagGet _ | .bagPeek _ | .threw => []

/-- The position of the next message to be read, up to the number of cells. -/
def readPos (pc : ConsumerPc) (indexOut : Nat) : Nat :=
  match pc with
  | .incIndex _ => indexOut + 1
  | _ => indexOut

/-- The range of the output index. -/
def IndexOk (pc : ConsumerPc) (indexOut count : Nat) : Prop :=
  match pc with
  | .wrapIndex _ => indexOut ≤ count
  | .threw => False
  | _ => indexOut < count

/-- The consumer has passed the test of a call and is about to use a cell. -/
def Reads (pc : ConsumerPc) : Prop :=
  ∃ size, pc = .bagGet size ∨ pc = .bagPeek size

end ConsumerPc

/-- The `get` returns the first bytes of the message. -/
def Got.ReadsFrom (m : Message) (g : Got) : Prop :=
  g.read = ⟨min g.asked m.size, m.bytes.take g.asked⟩

namespace Unlocked

/-- The cells hold the messages stored and not yet read, the size lags behind their number by what
each thread has still to count, and the read messages followed by the stored ones are the accepted
ones and the one that is stored and not yet counted. -/
structure Inv (count : Nat) (s : Unlocked) (items taken : List Message) : Prop where
  total : s.ring.totalCount = count
  cells : s.ring.ringVector.length = count
  window : Window Bag.Holds Bag.Free s.ring.ringVector (s.consumer.readPos s.ring.indexOut) items
  position : s.producer.writePos s.ring.indexIn % count =
    (s.consumer.readPos s.ring.indexOut + items.length) % count
  producerIndex : s.producer.IndexOk s.ring.indexIn count
  consumerIndex : s.consumer.IndexOk s.ring.indexOut count
  size : s.ring.base.size + s.producer.uncounted.length =
    items.length + s.consumer.uncleared.length
  size_le : s.ring.base.size ≤ count
  producerBusy : s.producer ≠ .idle → s.ring.base.size < count
  consumerBusy : s.consumer ≠ .idle → 0 < s.ring.base.size
  history : taken ++ items = s.accepted ++ s.producer.uncounted
  reads : List.Forall₂ Got.ReadsFrom taken (s.got ++ s.consumer.uncleared)

namespace Inv

variable {count : Nat} {s s' : Unlocked} {items taken : List Message}

theorem start {cellSize : Nat} (hpos : 0 < count) :
    Inv count (Unlocked.start (.new count cellSize)) [] [] where
  total := rfl
  cells := List.length_replicate
  window := by
    refine Window.empty (fun cell hcell => ?_) 0
    rw [List.eq_of_mem_replicate hcell]
    exact Bag.new_free cellSize
  position := rfl
  producerIndex := hpos
  consumerIndex := hpos
  size := rfl
  size_le := Nat.zero_le _
  producerBusy h := absurd rfl h
  consumerBusy h := absurd rfl h
  history := rfl
  reads := .nil

/-- The producer's cell is in range and free when its bag operation is due. -/
theorem producer_cell (h : Inv count s items taken) {m : Message} (hpc : s.producer = .bagPut m) :
    s.ring.indexIn < count ∧ items.length < count ∧
      s.ring.indexIn = (s.consumer.readPos s.ring.indexOut + items.length) % count ∧
      ∃ b, s.ring.ringVector[s.ring.indexIn]? = some b ∧ b.Free := by
  have hindex := h.producerIndex
  have hposition := h.position
  have hsize := h.size
  have hlt := h.producerBusy (by simp [hpc])
  simp only [hpc, ProducerPc.IndexOk, ProducerPc.writePos, ProducerPc.uncounted,
    List.length_nil] at hindex hposition hsize
  rw [Nat.mod_eq_of_lt hindex] at hposition
  have hroom : items.length < count := by omega
  refine ⟨hindex, hroom, hposition, ?_⟩
  rw [hposition, ← h.cells]
  exact h.window.next (by rw [h.cells]; exact hroom)

/-- The consumer's cell is in range and holds the next message when its bag operation is due. -/
theorem consumer_cell (h : Inv count s items taken) (hpc : s.consumer.Reads) :
    s.ring.indexOut < count ∧ s.consumer.readPos s.ring.indexOut = s.ring.indexOut ∧
      s.consumer.uncleared = [] ∧ ∃ m rest b, items = m :: rest ∧
        s.ring.ringVector[s.ring.indexOut]? = some b ∧ b.Holds m := by
  obtain ⟨hindex, hread, hnone, hbusy⟩ : s.ring.indexOut < count ∧
      s.consumer.readPos s.ring.indexOut = s.ring.indexOut ∧ s.consumer.uncleared = [] ∧
      s.consumer ≠ .idle := by
    have hindex := h.consumerIndex
    obtain ⟨size, hget | hpeek⟩ := hpc
    · rw [hget] at hindex ⊢
      exact ⟨hindex, rfl, rfl, by simp⟩
    · rw [hpeek] at hindex ⊢
      exact ⟨hindex, rfl, rfl, by simp⟩
  have hpos := h.consumerBusy hbusy
  have hsize := h.size
  rw [hnone, List.length_nil] at hsize
  obtain ⟨m, rest, hitems⟩ := List.exists_cons_of_length_pos (show 0 < items.length by omega)
  have hfirst : items.head? = some m := by rw [hitems, List.head?_cons]
  obtain ⟨b, hcell, hholds⟩ := h.window.first hfirst
  rw [hread, h.cells, Nat.mod_eq_of_lt hindex] at hcell
  exact ⟨hindex, hread, hnone, m, rest, b, hitems, hcell, hholds⟩

/-! ### Steps of the producer -/

/-- The test of `put` succeeds. -/
theorem putCall (h : Inv count s items taken) (m : Message) (hpc : s.producer = .idle)
    (hroom : s.ring.base.size < count) :
    Inv count { s with producer := .bagPut m } items taken := by
  obtain ⟨ring, producer, consumer, accepted, got⟩ := s
  obtain rfl : producer = .idle := hpc
  exact { h with producerBusy := fun _ => hroom }

/-- The bag operation of `put` stores the message behind the others. -/
theorem bagPut (h : Inv count s items taken) {m : Message} (hpc : s.producer = .bagPut m)
    (hstep : s.producerStep = some s') : Inv count s' (items ++ [m]) taken := by
  obtain ⟨hindex, hroom, hposition, b, hcell, -⟩ := h.producer_cell hpc
  obtain ⟨ring, producer, consumer, accepted, got⟩ := s
  obtain rfl : producer = .bagPut m := hpc
  simp only [producerStep, RingQueue.bagPut, RingQueue.cellAt, hcell, bind, Except.bind] at hstep
  obtain rfl := Option.some.inj hstep
  have hsize : ring.base.size + 0 = items.length + consumer.uncleared.length := h.size
  have hhistory : taken ++ items = accepted ++ [] := h.history
  exact
    { h with
      cells := by simpa using h.cells
      window := by
        have hpush := h.window.push (by rw [h.cells]; exact hroom) (b.put_holds m).2
        rwa [h.cells, ← hposition] at hpush
      position := by
        show (ring.indexIn + 1) % count =
          (consumer.readPos ring.indexOut + (items ++ [m]).length) % count
        rw [hposition, List.length_append, List.length_singleton, Nat.mod_add_mod, Nat.add_assoc]
      producerIndex := hindex
      size := by
        show ring.base.size + 1 = (items ++ [m]).length + consumer.uncleared.length
        rw [List.length_append, List.length_singleton]
        omega
      producerBusy := fun _ => h.producerBusy (by simp)
      history := by
        show taken ++ (items ++ [m]) = accepted ++ [m]
        rw [← List.append_assoc, hhistory, List.append_nil] }

/-- The increment of the input index. -/
theorem incIndexIn (h : Inv count s items taken) {m : Message} (hcount : count < 2 ^ 32)
    (hpc : s.producer = .incIndex m) :
    Inv count { s with ring := s.ring.incIndexIn, producer := .wrapIndex m } items taken := by
  obtain ⟨ring, producer, consumer, accepted, got⟩ := s
  obtain rfl : producer = .incIndex m := hpc
  have hindex : ring.indexIn < count := h.producerIndex
  simp only [RingQueue.incIndexIn, increment32_of_lt hindex hcount]
  exact { h with producerIndex := hindex, producerBusy := fun _ => h.producerBusy (by simp) }

/-- The wrap of the input index. -/
theorem wrapIndexIn (h : Inv count s items taken) {m : Message} (hpos : 0 < count)
    (hpc : s.producer = .wrapIndex m) :
    Inv count { s with ring := s.ring.wrapIndexIn, producer := .incSize m } items taken := by
  obtain ⟨ring, producer, consumer, accepted, got⟩ := s
  obtain rfl : producer = .wrapIndex m := hpc
  have hindex : ring.indexIn ≤ count := h.producerIndex
  have htotal : ring.totalCount = count := h.total
  have hposition : ring.indexIn % count = (consumer.readPos ring.indexOut + items.length) % count :=
    h.position
  have hwrapped : ring.wrapIndexIn =
      { ring with indexIn := if ring.indexIn = count then 0 else ring.indexIn } := by
    rw [RingQueue.wrapIndexIn_eq, htotal]
  simp only [hwrapped]
  refine { h with position := ?_, producerIndex := ?_, producerBusy := fun _ => ?_ }
  · show (if ring.indexIn = count then 0 else ring.indexIn) % count = _
    split
    · rename_i hend
      rw [← hposition, hend, Nat.mod_self, Nat.zero_mod]
    · exact hposition
  · show (if ring.indexIn = count then 0 else ring.indexIn) < count
    split <;> omega
  · exact h.producerBusy (by simp)

/-- The update of the size ends an accepted `put`. -/
theorem incSize (h : Inv count s items taken) {m : Message} (hcount : count < 2 ^ 32)
    (hpc : s.producer = .incSize m) :
    Inv count { s with
      ring := s.ring.incSize, producer := .idle, accepted := s.accepted ++ [m] } items taken := by
  obtain ⟨ring, producer, consumer, accepted, got⟩ := s
  obtain rfl : producer = .incSize m := hpc
  have hroom : ring.base.size < count := h.producerBusy (by simp)
  have hsize : ring.base.size + 1 = items.length + consumer.uncleared.length := h.size
  have hhistory : taken ++ items = accepted ++ [m] := h.history
  simp only [RingQueue.incSize, increment32_of_lt hroom hcount]
  exact
    { h with
      size := hsize
      size_le := hroom
      producerBusy := fun hne => absurd rfl hne
      consumerBusy := fun _ => Nat.succ_pos _
      history := hhistory.trans (List.append_nil _).symm }

/-! ### Steps of the consumer -/

/-- The test of `get` or `peek` succeeds. -/
theorem readCall (h : Inv count s items taken) {pc : ConsumerPc} (hreads : pc.Reads)
    (hpc : s.consumer = .idle) (hne : 0 < s.ring.base.size) :
    Inv count { s with consumer := pc } items taken := by
  obtain ⟨ring, producer, consumer, accepted, got⟩ := s
  obtain rfl : consumer = .idle := hpc
  obtain ⟨size, rfl | rfl⟩ := hreads
  · exact { h with consumerBusy := fun _ => hne }
  · exact { h with consumerBusy := fun _ => hne }

/-- The bag operation of `get` reads and frees the first message. -/
theorem bagGet (h : Inv count s items taken) {size : Nat} (hpc : s.consumer = .bagGet size)
    (hstep : s.consumerStep = some s') :
    ∃ m rest, items = m :: rest ∧ Inv count s' rest (taken ++ [m]) := by
  obtain ⟨hindex, -, -, m, rest, b, rfl, hcell, hholds⟩ := h.consumer_cell ⟨size, .inl hpc⟩
  obtain ⟨ring, producer, consumer, accepted, got⟩ := s
  obtain rfl : consumer = .bagGet size := hpc
  obtain ⟨hread, hfree⟩ := Bag.get_holds hholds size
  simp only [consumerStep, RingQueue.bagGet, RingQueue.cellAt, hcell, bind, Except.bind, hread]
    at hstep
  obtain rfl := Option.some.inj hstep
  have hsize : ring.base.size + producer.uncounted.length = (rest.length + 1) + 0 := h.size
  have hposition : producer.writePos ring.indexIn % count =
      (ring.indexOut + (rest.length + 1)) % count := h.position
  have hhistory : taken ++ m :: rest = accepted ++ producer.uncounted := h.history
  have hreads : List.Forall₂ Got.ReadsFrom taken (got ++ []) := h.reads
  refine ⟨m, rest, rfl, ?_⟩
  exact
    { h with
      cells := by simpa using h.cells
      window := by
        have hpop := h.window.pop (by simp) hfree
        rw [h.cells] at hpop
        simp only [ConsumerPc.readPos, Nat.mod_eq_of_lt hindex] at hpop
        exact hpop
      position := by
        show _ = (ring.indexOut + 1 + rest.length) % count
        rw [hposition, Nat.add_right_comm, Nat.add_assoc]
      consumerIndex := hindex
      size := by
        show ring.base.size + producer.uncounted.length = rest.length + 1
        omega
      consumerBusy := fun _ => h.consumerBusy (by simp)
      history := by rw [← hhistory, List.append_assoc, List.singleton_append]
      reads := by
        rw [List.append_nil] at hreads
        exact List.rel_append hreads (.cons rfl .nil) }

/-- The bag operation of `peek` changes nothing. -/
theorem bagPeek (h : Inv count s items taken) {size : Nat} (hpc : s.consumer = .bagPeek size)
    (hstep : s.consumerStep = some s') : Inv count s' items taken := by
  obtain ⟨-, -, -, m, rest, b, -, hcell, -⟩ := h.consumer_cell ⟨size, .inr hpc⟩
  obtain ⟨ring, producer, consumer, accepted, got⟩ := s
  obtain rfl : consumer = .bagPeek size := hpc
  simp only [consumerStep, RingQueue.bagPeek, RingQueue.cellAt, hcell, bind, Except.bind] at hstep
  obtain rfl := Option.some.inj hstep
  exact { h with consumerBusy := fun hne => absurd rfl hne }

/-- The increment of the output index. -/
theorem incIndexOut (h : Inv count s items taken) {g : Got} (hcount : count < 2 ^ 32)
    (hpc : s.consumer = .incIndex g) :
    Inv count { s with ring := s.ring.incIndexOut, consumer := .wrapIndex g } items taken := by
  obtain ⟨ring, producer, consumer, accepted, got⟩ := s
  obtain rfl : consumer = .incIndex g := hpc
  have hindex : ring.indexOut < count := h.consumerIndex
  simp only [RingQueue.incIndexOut, increment32_of_lt hindex hcount]
  exact { h with consumerIndex := hindex, consumerBusy := fun _ => h.consumerBusy (by simp) }

/-- The wrap of the output index. -/
theorem wrapIndexOut (h : Inv count s items taken) {g : Got} (hpos : 0 < count)
    (hpc : s.consumer = .wrapIndex g) :
    Inv count { s with ring := s.ring.wrapIndexOut, consumer := .decSize g } items taken := by
  obtain ⟨ring, producer, consumer, accepted, got⟩ := s
  obtain rfl : consumer = .wrapIndex g := hpc
  have hindex : ring.indexOut ≤ count := h.consumerIndex
  have htotal : ring.totalCount = count := h.total
  have hposition : producer.writePos ring.indexIn % count =
      (ring.indexOut + items.length) % count := h.position
  have hwrap : (if ring.indexOut = count then 0 else ring.indexOut) % count =
      ring.indexOut % count := by
    split
    · rename_i hend
      rw [hend, Nat.mod_self, Nat.zero_mod]
    · rfl
  have hwrapped : ring.wrapIndexOut =
      { ring with indexOut := if ring.indexOut = count then 0 else ring.indexOut } := by
    rw [RingQueue.wrapIndexOut_eq, htotal]
  simp only [hwrapped]
  refine { h with window := ?_, position := ?_, consumerIndex := ?_, consumerBusy := fun _ => ?_ }
  · refine h.window.congr_start ?_
    rw [h.cells]
    exact hwrap.symm
  · show _ = ((if ring.indexOut = count then 0 else ring.indexOut) + items.length) % count
    rw [hposition, Nat.add_mod, ← hwrap, ← Nat.add_mod]
  · show (if ring.indexOut = count then 0 else ring.indexOut) < count
    split <;> omega
  · exact h.consumerBusy (by simp)

/-- The update of the size ends a `get`. -/
theorem decSize (h : Inv count s items taken) {g : Got} (hpc : s.consumer = .decSize g) :
    Inv count { s with
      ring := s.ring.decSize
      consumer := .idle
      got := s.got ++ [{ g with read.ret := RingQueue.cast16 g.read.ret }] } items taken := by
  obtain ⟨ring, producer, consumer, accepted, got⟩ := s
  obtain rfl : consumer = .decSize g := hpc
  have hbusy : 0 < ring.base.size := h.consumerBusy (by simp)
  have hsize : ring.base.size + producer.uncounted.length = items.length + 1 := h.size
  have hle : ring.base.size ≤ count := h.size_le
  have hreads : List.Forall₂ Got.ReadsFrom taken (got ++ [g]) := h.reads
  simp only [RingQueue.decSize, decrement32_of_pos hbusy]
  refine
    { h with
      size := ?_
      size_le := Nat.le_trans (Nat.sub_le _ _) hle
      producerBusy := fun hne => Nat.lt_of_le_of_lt (Nat.sub_le _ _) (h.producerBusy hne)
      consumerBusy := fun hne => absurd rfl hne
      reads := ?_ }
  · show ring.base.size - 1 + producer.uncounted.length = items.length + 0
    omega
  · rw [show ConsumerPc.uncleared .idle = [] from rfl, List.append_nil]
    have hlast := List.forall₂_drop_append _ _ _ hreads
    obtain ⟨m, -, hread, -, -⟩ := List.forall₂_cons_right_iff.mp hlast
    have hcast : RingQueue.cast16 g.read.ret = g.read.ret := by
      rw [show g.read = _ from hread]
      exact cast16_min _ _
    rw [hcast]
    exact hreads

/-- Every step of an interleaving keeps the invariant. -/
theorem step {label : UnlockedLabel} (h : Inv count s items taken) (hpos : 0 < count)
    (hcount : count < 2 ^ 32) (hstep : s.step label = some s') :
    ∃ items' taken', Inv count s' items' taken' := by
  cases label with
  | putCall m =>
      simp only [Unlocked.step] at hstep
      split at hstep
      · rename_i hidle
        obtain rfl := Option.some.inj hstep
        split
        · rename_i hroom
          exact ⟨items, taken, h.putCall m hidle (by rwa [h.total] at hroom)⟩
        · exact ⟨items, taken, h⟩
      · cases hstep
  | getCall size =>
      simp only [Unlocked.step] at hstep
      split at hstep
      · rename_i hidle
        obtain rfl := Option.some.inj hstep
        split
        · rename_i hne
          exact ⟨items, taken, h.readCall ⟨size, .inl rfl⟩ hidle (Nat.pos_of_ne_zero hne)⟩
        · exact ⟨items, taken, h⟩
      · cases hstep
  | peekCall size =>
      simp only [Unlocked.step] at hstep
      split at hstep
      · rename_i hidle
        obtain rfl := Option.some.inj hstep
        split
        · rename_i hne
          exact ⟨items, taken, h.readCall ⟨size, .inr rfl⟩ hidle (Nat.pos_of_ne_zero hne)⟩
        · exact ⟨items, taken, h⟩
      · cases hstep
  | producer =>
      simp only [Unlocked.step] at hstep
      cases hpc : s.producer with
      | idle | threw => simp [producerStep, hpc] at hstep
      | bagPut m => exact ⟨items ++ [m], taken, h.bagPut hpc hstep⟩
      | incIndex m =>
          simp only [producerStep, hpc] at hstep
          obtain rfl := Option.some.inj hstep
          exact ⟨items, taken, h.incIndexIn hcount hpc⟩
      | wrapIndex m =>
          simp only [producerStep, hpc] at hstep
          obtain rfl := Option.some.inj hstep
          exact ⟨items, taken, h.wrapIndexIn hpos hpc⟩
      | incSize m =>
          simp only [producerStep, hpc] at hstep
          obtain rfl := Option.some.inj hstep
          exact ⟨items, taken, h.incSize hcount hpc⟩
  | consumer =>
      simp only [Unlocked.step] at hstep
      cases hpc : s.consumer with
      | idle | threw => simp [consumerStep, hpc] at hstep
      | bagGet size =>
          obtain ⟨m, rest, -, hnext⟩ := h.bagGet hpc hstep
          exact ⟨rest, taken ++ [m], hnext⟩
      | bagPeek size => exact ⟨items, taken, h.bagPeek hpc hstep⟩
      | incIndex g =>
          simp only [consumerStep, hpc] at hstep
          obtain rfl := Option.some.inj hstep
          exact ⟨items, taken, h.incIndexOut hcount hpc⟩
      | wrapIndex g =>
          simp only [consumerStep, hpc] at hstep
          obtain rfl := Option.some.inj hstep
          exact ⟨items, taken, h.wrapIndexOut hpos hpc⟩
      | decSize g =>
          simp only [consumerStep, hpc] at hstep
          obtain rfl := Option.some.inj hstep
          exact ⟨items, taken, h.decSize hpc⟩

/-- The messages of the completed `get` calls are the first accepted ones, and the messages counted
by the size are the accepted ones after them. -/
theorem got_of_accepted (h : Inv count s items taken) :
    s.accepted.length = s.got.length + s.ring.base.size ∧
      List.Forall₂ Got.ReadsFrom (s.accepted.take s.got.length) s.got := by
  have hlength := congrArg List.length h.history
  have htaken := h.reads.length_eq
  have hsize := h.size
  simp only [List.length_append] at hlength htaken
  have hcompleted : s.accepted.length = s.got.length + s.ring.base.size := by omega
  have hfirst : s.accepted.take s.got.length = taken.take s.got.length := by
    have hboth := congrArg (List.take s.got.length) h.history
    rw [List.take_append_of_le_length (by omega), List.take_append_of_le_length (by omega)] at hboth
    exact hboth.symm
  refine ⟨hcompleted, ?_⟩
  rw [hfirst]
  exact List.forall₂_take_append _ _ _ h.reads

end Inv

/-- The invariant holds in every reachable state. -/
theorem reachable_inv {count cellSize : Nat} {s : Unlocked} (hpos : 0 < count)
    (hcount : count < 2 ^ 32) (h : (machine (.new count cellSize)).Reachable s) :
    ∃ items taken, Inv count s items taken := by
  have hinit : ∀ state, (machine (.new count cellSize)).init state →
      ∃ items taken, Inv count state items taken := by
    intro state hstate
    obtain rfl := hstate
    exact ⟨[], [], Inv.start hpos⟩
  have hstep : ∀ state following label, (∃ items taken, Inv count state items taken) →
      (machine (.new count cellSize)).step state label = some following →
      ∃ items taken, Inv count following items taken := by
    intro state following label hinv hnext
    obtain ⟨items, taken, hstate⟩ := hinv
    exact hstate.step hpos hcount hnext
  exact h.invariant hinit hstep

/-- What a state between two steps owes to the threads: where the producer's bag operation is due,
its cell exists, holds no message and is not the one the consumer is about to read; where the
consumer's bag operation is due, its cell exists and holds the whole of the next accepted message;
the size fits; the completed `get` calls returned the first accepted messages; no access was out of
range. -/
structure Safe (count : Nat) (s : Unlocked) : Prop where
  writes : ∀ m, s.producer = .bagPut m → s.ring.indexIn < count ∧
    (∃ b, s.ring.ringVector[s.ring.indexIn]? = some b ∧ b.Free) ∧
    (s.consumer.Reads → s.ring.indexIn ≠ s.ring.indexOut)
  reads : s.consumer.Reads → s.ring.indexOut < count ∧
    ∃ b m, s.ring.ringVector[s.ring.indexOut]? = some b ∧ b.Holds m ∧
      s.accepted[s.got.length]? = some m
  size_le : s.ring.base.size ≤ count
  delivered : ∃ messages, messages <+: s.accepted ∧ List.Forall₂ Got.ReadsFrom messages s.got
  inRange : s.producer ≠ .threw ∧ s.consumer ≠ .threw

/-- With one producer and one consumer, a ring of at least one cell is safe without a lock: every
state of every interleaving of the steps of their calls is. -/
theorem unlocked_safe {count cellSize : Nat} {s : Unlocked} (hpos : 0 < count)
    (hcount : count < 2 ^ 32) (h : (machine (.new count cellSize)).Reachable s) :
    s.Safe count := by
  obtain ⟨items, taken, hinv⟩ := reachable_inv hpos hcount h
  obtain ⟨hlength, hgot⟩ := hinv.got_of_accepted
  refine ⟨fun m hpc => ?_, fun hreads => ?_, hinv.size_le, ⟨_, List.take_prefix _ _, hgot⟩,
    fun hthrew => ?_, fun hthrew => ?_⟩
  · obtain ⟨hindex, hroom, hposition, hcell⟩ := hinv.producer_cell hpc
    refine ⟨hindex, hcell, fun hreads heq => ?_⟩
    obtain ⟨hlt, hread, -, first, rest, b, hitems, -⟩ := hinv.consumer_cell hreads
    rw [hread] at hposition
    have hne := slot_ne s.ring.indexOut hroom hpos (by rw [hitems]; simp)
    rw [← hposition, Nat.add_zero, Nat.mod_eq_of_lt hlt] at hne
    exact hne heq
  · obtain ⟨hindex, -, hnone, m, rest, b, hitems, hcell, hholds⟩ := hinv.consumer_cell hreads
    refine ⟨hindex, b, m, hcell, hholds, ?_⟩
    have htaken := hinv.reads.length_eq
    rw [hnone, List.append_nil] at htaken
    have hbusy := hinv.consumerBusy (by obtain ⟨size, hpc | hpc⟩ := hreads <;> simp [hpc])
    have hnext := congrArg (fun l => l[s.got.length]?) hinv.history
    simp only [hitems] at hnext
    rw [List.getElem?_append_right (by omega), List.getElem?_append_left (by omega), htaken,
      Nat.sub_self] at hnext
    exact hnext.symm
  · have hindex := hinv.producerIndex
    rw [hthrew] at hindex
    exact hindex
  · have hindex := hinv.consumerIndex
    rw [hthrew] at hindex
    exact hindex

/-- A ring of two cells with one message: the producer is about to store another one while the
consumer is about to read the first. -/
theorem unlocked_safe_both_busy : ∃ s,
    (machine (.new 2 4)).Reachable s ∧ s.producer = .bagPut ⟨[8], by decide⟩ ∧
      s.consumer = .bagGet 65535 ∧ s.ring.indexIn ≠ s.ring.indexOut := by
  have hrun : ((machine (.new 2 4)).run
      [.putCall ⟨[7], by decide⟩, .producer, .producer, .producer, .producer,
        .putCall ⟨[8], by decide⟩, .getCall 65535] (start (.new 2 4))).map
      (fun s => (s.producer, s.consumer)) = some (.bagPut ⟨[8], by decide⟩, .bagGet 65535) := by
    decide +kernel
  obtain ⟨s, hs, hfields⟩ := Option.map_eq_some_iff.mp hrun
  obtain ⟨hproducer, hconsumer⟩ := Prod.mk.inj hfields
  have hreach := Machine.reachable_of_run _ rfl hs
  have hsafe := unlocked_safe (by decide) (by decide) hreach
  exact ⟨s, hreach, hproducer, hconsumer,
    (hsafe.writes _ hproducer).2.2 ⟨65535, .inl hconsumer⟩⟩

end Unlocked

end Shovel.Containers
