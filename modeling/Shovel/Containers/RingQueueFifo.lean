import Shovel.Containers.RingQueue
import Shovel.Library.Ring
import Shovel.Library.Outcome

/-!
# The ring queue refines the abstract queue

`Represents q a` is the representation invariant: the size counter is the number
of messages, the input index is as far ahead of the output index as the size
says, and the cells from the output index on hold the messages in order while
all others are free. The three operations preserve it (`ring_simulates`), so a
ring queue answers every sequence of calls like a bounded list of messages.
-/

namespace Shovel.Containers

open Bounded Circular Outcome

/-- The ring holds exactly the messages of the abstract queue. -/
structure Represents (q : RingQueue) (a : MessageFifo) : Prop where
  bound : a.fifo.bound = q.totalCount
  count_lt : q.totalCount < 2 ^ 32
  cells : q.ringVector.length = q.totalCount
  size : q.base.size = a.fifo.items.length
  indexOut_lt : 0 < q.totalCount → q.indexOut < q.totalCount
  indexIn_eq : 0 < q.totalCount → q.indexIn = (q.indexOut + q.base.size) % q.totalCount
  window : Window Bag.Holds Bag.Free q.ringVector q.indexOut a.fifo.items
  status : q.base.status = a.status

/-- Advancing an index below a 32-bit count and wrapping it is advancing it modulo the count. -/
theorem wrap_increment {index count : Nat} (h : index < count) (hcount : count < 2 ^ 32) :
    (if increment32 index = count then 0 else increment32 index) = (index + 1) % count := by
  rw [increment32_of_lt h hcount]
  split
  · rename_i hend
    rw [hend, Nat.mod_self]
  · exact (Nat.mod_eq_of_lt (by omega)).symm

theorem cast16_size (m : Message) : RingQueue.cast16 m.size = m.size :=
  Nat.mod_eq_of_lt m.fits

theorem cast16_min (size : Nat) (m : Message) :
    RingQueue.cast16 (min size m.size) = min size m.size :=
  Nat.mod_eq_of_lt (Nat.lt_of_le_of_lt (Nat.min_le_right _ _) m.fits)

namespace Represents

variable {q : RingQueue} {a : MessageFifo}

/-- The empty ring represents the empty queue. -/
theorem new (count cellSize : Nat) (h : count < 2 ^ 32) :
    Represents (.new count cellSize) (.empty count) where
  bound := rfl
  count_lt := h
  cells := List.length_replicate
  size := rfl
  indexOut_lt := id
  indexIn_eq _ := (Nat.zero_mod count).symm
  window := by
    refine Window.empty (fun cell hcell => ?_) 0
    rw [List.eq_of_mem_replicate hcell]
    exact Bag.new_free cellSize
  status := rfl

/-- The size test of `put` decides whether the abstract queue has room. -/
theorem hasRoom_iff (h : Represents q a) : a.fifo.HasRoom ↔ q.base.size < q.totalCount := by
  rw [h.size, ← h.bound]
  rfl

/-- The size test of `get` and `peek` decides whether there is a first message. -/
theorem head_none_iff (h : Represents q a) : a.fifo.items.head? = none ↔ q.base.size = 0 := by
  rw [h.size, List.head?_eq_none_iff, List.length_eq_zero_iff]

/-- A call that changes nothing but the status. -/
theorem setStatus (h : Represents q a) (status : QueueStatus) :
    Represents (q.setStatus status) ⟨a.fifo, status⟩ where
  bound := h.bound
  count_lt := h.count_lt
  cells := h.cells
  size := h.size
  indexOut_lt := h.indexOut_lt
  indexIn_eq := h.indexIn_eq
  window := h.window
  status := rfl

/-- The cell at the input index is free while there is room. -/
theorem cell_in (h : Represents q a) (hroom : a.fifo.HasRoom) :
    ∃ b, q.ringVector[q.indexIn]? = some b ∧ b.Free := by
  have hlt := h.hasRoom_iff.mp hroom
  obtain ⟨b, hcell, hfree⟩ := h.window.next (by rw [← h.size, h.cells]; exact hlt)
  refine ⟨b, ?_, hfree⟩
  rw [h.indexIn_eq (by omega), h.size, ← h.cells]
  exact hcell

/-- The cell at the output index holds the first message. -/
theorem cell_out (h : Represents q a) {m : Message} (hfirst : a.fifo.items.head? = some m) :
    ∃ b, q.ringVector[q.indexOut]? = some b ∧ b.Holds m := by
  obtain ⟨b, hcell, hholds⟩ := h.window.first hfirst
  have hpos : 0 < q.ringVector.length := by
    have hslot := (List.getElem?_eq_some_iff.mp hcell).1
    omega
  rw [Nat.mod_eq_of_lt (by rw [h.cells] at hpos ⊢; exact h.indexOut_lt hpos)] at hcell
  exact ⟨b, hcell, hholds⟩

/-- An accepted `put`: the bag operation, the increment, the wrap and the new size. -/
theorem put_room (h : Represents q a) (hroom : a.fifo.HasRoom) (m : Message) :
    ∃ q', q.put m = .ok (m.size, q') ∧ Represents q' ⟨a.fifo.push m, .ok⟩ := by
  have hlt := h.hasRoom_iff.mp hroom
  have hpos : 0 < q.totalCount := by omega
  obtain ⟨b, hcell, -⟩ := h.cell_in hroom
  obtain ⟨hret, hholds⟩ := b.put_holds m
  have hin : q.indexIn < q.totalCount := by
    rw [h.indexIn_eq hpos]
    exact Nat.mod_lt _ hpos
  have hwrap := wrap_increment hin h.count_lt
  have hsize := increment32_of_lt hlt h.count_lt
  refine ⟨{ q with
      base := { q.base with size := q.base.size + 1, status := .ok }
      indexIn := (q.indexIn + 1) % q.totalCount
      ringVector := q.ringVector.set q.indexIn (b.put m.bytes m.size).2 }, ?_, ?_⟩
  · simp only [RingQueue.put, RingQueue.resetStatus, RingQueue.setStatus, hlt, if_true,
      RingQueue.bagPut, RingQueue.cellAt, hcell, bind, Except.bind, hret, cast16_size,
      RingQueue.incIndexIn, RingQueue.wrapIndexIn_eq, RingQueue.incSize, hsize, hwrap]
  · have hitems : (a.fifo.push m).items.length = a.fifo.items.length + 1 := by
      rw [Fifo.push_items hroom, List.length_append, List.length_singleton]
    refine ⟨by simpa using h.bound, h.count_lt, by simpa using h.cells, ?_, h.indexOut_lt, ?_, ?_,
      rfl⟩
    · rw [hitems, ← h.size]
    · intro _
      rw [h.indexIn_eq hpos, Nat.mod_add_mod, Nat.add_assoc]
    · have hpush := h.window.push (by rw [← h.size, h.cells]; exact hlt) hholds
      rw [← h.size, h.cells, ← h.indexIn_eq hpos] at hpush
      rwa [Fifo.push_items hroom]

/-- A refused `put` changes nothing but the status. -/
theorem put_full (h : Represents q a) (hfull : ¬ a.fifo.HasRoom) (m : Message) :
    ∃ q', q.put m = .ok (0, q') ∧ Represents q' ⟨a.fifo, .full⟩ := by
  have hnot := mt h.hasRoom_iff.mpr hfull
  refine ⟨q.resetStatus.setStatus .full, ?_, (h.setStatus .ok).setStatus .full⟩
  simp [RingQueue.put, RingQueue.resetStatus, RingQueue.setStatus, hnot]

/-- A `get` that finds a message: the bag operation, the increment, the wrap and the new size. -/
theorem get_some (h : Represents q a) {m : Message} (hfirst : a.fifo.items.head? = some m)
    (size : Nat) :
    ∃ q', q.get size = .ok (⟨min size m.size, m.bytes.take size⟩, q') ∧
      Represents q' ⟨a.fifo.pop, .ok⟩ := by
  have hne : q.base.size ≠ 0 := fun hzero => by
    rw [h.head_none_iff.mpr hzero] at hfirst
    cases hfirst
  have hitems : a.fifo.items ≠ [] := by
    intro hnil
    rw [hnil] at hfirst
    cases hfirst
  have hfits : q.base.size ≤ q.totalCount := by
    rw [h.size, ← h.bound]
    exact a.fifo.fits
  have hpos : 0 < q.totalCount := by omega
  obtain ⟨b, hcell, hholds⟩ := h.cell_out hfirst
  obtain ⟨hread, hfree⟩ := Bag.get_holds hholds size
  have hwrap := wrap_increment (h.indexOut_lt hpos) h.count_lt
  have hsize := decrement32_of_pos (Nat.pos_of_ne_zero hne)
  refine ⟨{ q with
      base := { q.base with size := q.base.size - 1, status := .ok }
      indexOut := (q.indexOut + 1) % q.totalCount
      ringVector := q.ringVector.set q.indexOut (b.get size).2 }, ?_, ?_⟩
  · simp only [RingQueue.get, RingQueue.resetStatus, RingQueue.setStatus, hne, ne_eq,
      not_false_eq_true, if_true, RingQueue.bagGet, RingQueue.cellAt, hcell, bind, Except.bind,
      hread, cast16_min, RingQueue.incIndexOut, RingQueue.wrapIndexOut_eq, RingQueue.decSize, hsize,
      hwrap]
  · refine ⟨h.bound, h.count_lt, by simpa using h.cells, ?_, fun _ => Nat.mod_lt _ hpos, ?_, ?_,
      rfl⟩
    · rw [Fifo.pop_items, List.length_tail, ← h.size]
    · intro _
      show q.indexIn = ((q.indexOut + 1) % q.totalCount + (q.base.size - 1)) % q.totalCount
      rw [h.indexIn_eq hpos, Nat.mod_add_mod,
        show q.indexOut + 1 + (q.base.size - 1) = q.indexOut + q.base.size by omega]
    · have hpop := h.window.pop hitems hfree
      rw [h.cells, Nat.mod_eq_of_lt (h.indexOut_lt hpos)] at hpop
      exact hpop.congr_start (by rw [List.length_set, h.cells, Nat.mod_mod])

/-- A `get` on the empty ring changes nothing but the status. -/
theorem get_none (h : Represents q a) (hnone : a.fifo.items.head? = none) (size : Nat) :
    ∃ q', q.get size = .ok (⟨0, []⟩, q') ∧ Represents q' ⟨a.fifo.pop, .empty⟩ := by
  have hzero := h.head_none_iff.mp hnone
  have hpop : a.fifo.pop = a.fifo := Fifo.ext rfl (by
    rw [List.head?_eq_none_iff] at hnone
    rw [Fifo.pop_items, hnone, List.tail_nil])
  refine ⟨q.resetStatus.setStatus .empty, ?_, ?_⟩
  · simp [RingQueue.get, RingQueue.resetStatus, RingQueue.setStatus, hzero]
  · rw [hpop]
    exact (h.setStatus .ok).setStatus .empty

/-- A `peek` reports what a `get` would and keeps the ring. -/
theorem peek_some (h : Represents q a) {m : Message} (hfirst : a.fifo.items.head? = some m)
    (size : Nat) :
    ∃ q', q.peek size = .ok (⟨min size m.size, m.bytes.take size⟩, q') ∧
      Represents q' ⟨a.fifo, .ok⟩ := by
  have hne : q.base.size ≠ 0 := fun hzero => by
    rw [h.head_none_iff.mpr hzero] at hfirst
    cases hfirst
  obtain ⟨b, hcell, hholds⟩ := h.cell_out hfirst
  obtain ⟨hread, -⟩ := Bag.get_holds hholds size
  refine ⟨q.resetStatus, ?_, h.setStatus .ok⟩
  simp [RingQueue.peek, RingQueue.resetStatus, RingQueue.setStatus, hne, RingQueue.bagPeek,
    RingQueue.cellAt, hcell, bind, Except.bind, Bag.peek_eq_get, hread, cast16_min]

/-- A `peek` on the empty ring changes nothing but the status. -/
theorem peek_none (h : Represents q a) (hnone : a.fifo.items.head? = none) (size : Nat) :
    ∃ q', q.peek size = .ok (⟨0, []⟩, q') ∧ Represents q' ⟨a.fifo, .empty⟩ := by
  have hzero := h.head_none_iff.mp hnone
  refine ⟨q.resetStatus.setStatus .empty, ?_, (h.setStatus .ok).setStatus .empty⟩
  simp [RingQueue.peek, RingQueue.resetStatus, RingQueue.setStatus, hzero]

end Represents

/-- The ring queue behaves like the abstract queue it represents. -/
theorem ring_simulates : Simulates RingQueue Represents where
  put := by
    intro q a m h
    by_cases hroom : a.fifo.HasRoom
    · rw [MessageFifo.put_room hroom]
      exact h.put_room hroom m
    · rw [MessageFifo.put_full hroom]
      exact h.put_full hroom m
  get := by
    intro q a size h
    cases hfirst : a.fifo.items.head? with
    | none =>
        simp only [MessageFifo.get, MessageFifo.look_none size hfirst]
        exact h.get_none hfirst size
    | some m =>
        simp only [MessageFifo.get, MessageFifo.look_some size hfirst]
        exact h.get_some hfirst size
  peek := by
    intro q a size h
    cases hfirst : a.fifo.items.head? with
    | none =>
        simp only [MessageFifo.peek, MessageFifo.look_none size hfirst]
        exact h.peek_none hfirst size
    | some m =>
        simp only [MessageFifo.peek, MessageFifo.look_some size hfirst]
        exact h.peek_some hfirst size
  getStatus h := h.status
  size h := h.size

/-! ## What a call leaves alone -/

/-- A call keeps the declared counts and every cell but the touched one. -/
structure Frame (q q' : RingQueue) (touched : Option Nat) : Prop where
  totalCount : q'.totalCount = q.totalCount
  baseTotalCount : q'.base.totalCount = q.base.totalCount
  cells : ∀ i, touched ≠ some i → q'.ringVector[i]? = q.ringVector[i]?

/-- Two actions in a row. -/
theorem Frame.trans {q q' q'' : RingQueue} {touched : Option Nat} (h : Frame q q' touched)
    (hnext : Frame q' q'' touched) : Frame q q'' touched where
  totalCount := hnext.totalCount.trans h.totalCount
  baseTotalCount := hnext.baseTotalCount.trans h.baseTotalCount
  cells i hi := (hnext.cells i hi).trans (h.cells i hi)

namespace RingQueue

/-- The cell a call works on: an accepted `put` writes the input cell, a `get` that finds a message
frees the output cell, and no other call touches a cell. -/
def touchedCell (q : RingQueue) : QueueCall → Option Nat
  | .put _ => if q.base.size < q.totalCount then some q.indexIn else none
  | .get _ => if q.base.size ≠ 0 then some q.indexOut else none
  | .peek _ => none

variable {q q' : RingQueue}

/-- Setting the status touches no cell. -/
theorem setStatus_frame (q : RingQueue) (status : QueueStatus) (touched : Option Nat) :
    Frame q (q.setStatus status) touched :=
  ⟨rfl, rfl, fun _ _ => rfl⟩

/-- Advancing the input index and the size touches no cell. -/
theorem afterPut_frame (q : RingQueue) (touched : Option Nat) :
    Frame q q.incIndexIn.wrapIndexIn.incSize touched := by
  rw [wrapIndexIn_eq]
  exact ⟨rfl, rfl, fun _ _ => rfl⟩

/-- Advancing the output index and lowering the size touches no cell. -/
theorem afterGet_frame (q : RingQueue) (touched : Option Nat) :
    Frame q q.incIndexOut.wrapIndexOut.decSize touched := by
  rw [wrapIndexOut_eq]
  exact ⟨rfl, rfl, fun _ _ => rfl⟩

theorem bagPut_frame {m : Message} {n : Nat} (h : q.bagPut m = .ok (n, q')) :
    Frame q q' (some q.indexIn) := by
  simp only [bagPut, bind, Except.bind] at h
  split at h
  · cases h
  · obtain ⟨-, rfl⟩ := Prod.mk.inj (Except.ok.inj h)
    exact ⟨rfl, rfl, fun i hi => List.getElem?_set_ne fun heq => hi (congrArg some heq)⟩

theorem bagGet_frame {size : Nat} {read : Read} (h : q.bagGet size = .ok (read, q')) :
    Frame q q' (some q.indexOut) := by
  simp only [bagGet, bind, Except.bind] at h
  split at h
  · cases h
  · obtain ⟨-, rfl⟩ := Prod.mk.inj (Except.ok.inj h)
    exact ⟨rfl, rfl, fun i hi => List.getElem?_set_ne fun heq => hi (congrArg some heq)⟩

/-- A `put` that returns zero for a message that is not empty has refused it: nothing but the status
changes. -/
theorem put_zero {m : Message} (hm : 0 < m.size) (h : q.put m = .ok (0, q')) :
    q' = q.setStatus .full := by
  simp only [put] at h
  split at h
  · obtain ⟨⟨putSize, written⟩, hbag, heq⟩ := bind_eq_ok.mp h
    obtain ⟨hret, -⟩ := Prod.mk.inj (Except.ok.inj heq)
    obtain ⟨b, -, hstored⟩ := bind_eq_ok.mp hbag
    -- the bag reports the size it was given
    obtain ⟨hsize, -⟩ := Prod.mk.inj (Except.ok.inj hstored)
    have hkept : cast16 m.size = 0 := hsize ▸ hret
    rw [cast16_size] at hkept
    omega
  · obtain ⟨-, rfl⟩ := Prod.mk.inj (Except.ok.inj h)
    rfl

/-- `put` leaves every cell but the input cell alone. -/
theorem put_frame {m : Message} {n : Nat} (h : q.put m = .ok (n, q')) :
    Frame q q' (q.touchedCell (.put m)) := by
  simp only [put] at h
  split at h
  · rename_i hroom
    obtain ⟨⟨size, written⟩, hbag, heq⟩ := bind_eq_ok.mp h
    obtain ⟨-, rfl⟩ := Prod.mk.inj (Except.ok.inj heq)
    have htouched : q.touchedCell (.put m) = some q.indexIn := if_pos hroom
    rw [htouched]
    exact ((q.setStatus_frame .ok _).trans (bagPut_frame hbag)).trans (written.afterPut_frame _)
  · obtain ⟨-, rfl⟩ := Prod.mk.inj (Except.ok.inj h)
    exact ⟨rfl, rfl, fun _ _ => rfl⟩

/-- `get` leaves every cell but the output cell alone. -/
theorem get_frame {size : Nat} {read : Read} (h : q.get size = .ok (read, q')) :
    Frame q q' (q.touchedCell (.get size)) := by
  simp only [get] at h
  split at h
  · rename_i hne
    obtain ⟨⟨bytes, freed⟩, hbag, heq⟩ := bind_eq_ok.mp h
    obtain ⟨-, rfl⟩ := Prod.mk.inj (Except.ok.inj heq)
    have htouched : q.touchedCell (.get size) = some q.indexOut := if_pos hne
    rw [htouched]
    exact ((q.setStatus_frame .ok _).trans (bagGet_frame hbag)).trans (freed.afterGet_frame _)
  · obtain ⟨-, rfl⟩ := Prod.mk.inj (Except.ok.inj h)
    exact ⟨rfl, rfl, fun _ _ => rfl⟩

/-- `peek` leaves every cell alone. -/
theorem peek_frame {size : Nat} {read : Read} (h : q.peek size = .ok (read, q')) :
    Frame q q' (q.touchedCell (.peek size)) := by
  simp only [peek] at h
  split at h
  · obtain ⟨bytes, -, heq⟩ := bind_eq_ok.mp h
    obtain ⟨-, rfl⟩ := Prod.mk.inj (Except.ok.inj heq)
    exact q.setStatus_frame .ok _
  · obtain ⟨-, rfl⟩ := Prod.mk.inj (Except.ok.inj h)
    exact (q.setStatus_frame .ok _).trans (setStatus_frame _ .empty _)

/-- No call alters a cell it does not work on, nor one of the two counts. -/
theorem call_frame {c : QueueCall} {answer : Answer} (h : call q c = .ok (answer, q')) :
    Frame q q' (q.touchedCell c) := by
  cases c with
  | put m =>
      obtain ⟨⟨n, following⟩, hput, heq⟩ := map_eq_ok.mp h
      obtain ⟨-, rfl⟩ := Prod.mk.inj heq
      exact put_frame hput
  | get size =>
      obtain ⟨⟨read, following⟩, hget, heq⟩ := map_eq_ok.mp h
      obtain ⟨-, rfl⟩ := Prod.mk.inj heq
      exact get_frame hget
  | peek size =>
      obtain ⟨⟨read, following⟩, hpeek, heq⟩ := map_eq_ok.mp h
      obtain ⟨-, rfl⟩ := Prod.mk.inj heq
      exact peek_frame hpeek

/-- No sequence of calls alters one of the two counts. -/
theorem callAll_counts {calls : List QueueCall} {answers : List Answer}
    (h : callAll q calls = .ok (answers, q')) :
    q'.totalCount = q.totalCount ∧ q'.base.totalCount = q.base.totalCount := by
  induction calls generalizing q answers with
  | nil =>
      obtain ⟨-, rfl⟩ := Prod.mk.inj (Except.ok.inj h)
      exact ⟨rfl, rfl⟩
  | cons c rest ih =>
      obtain ⟨⟨answer, following⟩, hcall, hrest⟩ := bind_eq_ok.mp h
      obtain ⟨⟨others, final⟩, hall, heq⟩ := bind_eq_ok.mp hrest
      obtain ⟨-, rfl⟩ := Prod.mk.inj (Except.ok.inj heq)
      have hframe := call_frame hcall
      obtain ⟨htotal, hbase⟩ := ih hall
      exact ⟨htotal.trans hframe.totalCount, hbase.trans hframe.baseTotalCount⟩

/-! ## The refinement -/

/-- The messages in the occupied cells, from the output index on. -/
def contents (q : RingQueue) : List (List UInt8) :=
  (List.range q.base.size).filterMap fun i =>
    (q.ringVector[(q.indexOut + i) % q.totalCount]?).map fun b => b.data.take b.dataSize

end RingQueue

/-- The occupied cells hold the messages of the abstract queue in order. -/
theorem Represents.contents {q : RingQueue} {a : MessageFifo} (h : Represents q a) :
    q.contents = a.fifo.items.map Message.bytes := by
  have hcells : (List.range q.base.size).map (fun i =>
      (q.ringVector[(q.indexOut + i) % q.totalCount]?).map fun b => b.data.take b.dataSize) =
      a.fifo.items.map fun m => some m.bytes := by
    apply List.ext_getElem?
    intro i
    simp only [List.getElem?_map, h.size]
    by_cases hi : i < a.fifo.items.length
    · have hitem := List.getElem?_eq_getElem hi
      obtain ⟨b, hcell, hholds⟩ := h.window.occupied hitem
      rw [h.cells] at hcell
      simp [List.getElem?_range hi, hitem, hcell, hholds.data]
    · rw [List.getElem?_eq_none (by simpa using hi), List.getElem?_eq_none (by simpa using hi)]
      rfl
  have hsome := congrArg (List.filterMap id) hcells
  rw [List.filterMap_map, List.filterMap_map] at hsome
  exact hsome.trans (congrFun List.filterMap_eq_map _)

/-- For any number of cells and any sequence of calls, the ring queue answers like a bounded
first-in first-out list of messages. Afterwards the ring holds exactly that list, and the next call
alters no cell but the one it works on. -/
theorem ring_refines_fifo (count cellSize : Nat) (calls : List QueueCall)
    (hcount : count < 2 ^ 32) :
    ∃ q, callAll (RingQueue.new count cellSize) calls =
        .ok (((MessageFifo.empty count).answerAll calls).1, q) ∧
      ((MessageFifo.empty count).answerAll calls).2.fifo.items.length ≤ count ∧
      q.contents = ((MessageFifo.empty count).answerAll calls).2.fifo.items.map Message.bytes ∧
      QueueBase.size q = ((MessageFifo.empty count).answerAll calls).2.fifo.items.length ∧
      ∀ c answer q', call q c = .ok (answer, q') →
        ∀ i, q.touchedCell c ≠ some i → q'.ringVector[i]? = q.ringVector[i]? := by
  obtain ⟨q, hcalls, hrel⟩ :=
    ring_simulates.callAll_eq calls (Represents.new count cellSize hcount)
  have hbound : ((MessageFifo.empty count).answerAll calls).2.fifo.bound = count := by
    rw [hrel.bound, (RingQueue.callAll_counts hcalls).1]
    rfl
  refine ⟨q, hcalls, ?_, hrel.contents, hrel.size, ?_⟩
  · exact (Fifo.fits _).trans_eq hbound
  · intro c answer q' hcall
    exact (RingQueue.call_frame hcall).cells

/-- A ring of one two-byte cell that stores a message of three bytes, refuses the next one and
hands out the first byte. -/
theorem ring_refines_fifo_one :
    (1 : Nat) < 2 ^ 32 ∧ ∃ q, callAll (RingQueue.new 1 2)
        [.put ⟨[1, 2, 3], by decide⟩, .put ⟨[4], by decide⟩, .get 1] =
      .ok ([⟨3, [], .ok⟩, ⟨0, [], .full⟩, ⟨1, [1], .ok⟩], q) ∧ q.contents = [] := by
  obtain ⟨q, hcalls, -, hcontents, -⟩ := ring_refines_fifo 1 2
    [.put ⟨[1, 2, 3], by decide⟩, .put ⟨[4], by decide⟩, .get 1] (by decide)
  exact ⟨by decide, q, hcalls, hcontents⟩

end Shovel.Containers
