import Shovel.Containers.QueueBase

/-!
# The ring queue

`RingQueue` with its cells (`Bag`), its two wrapping indices and its counters.
The base class and `RingQueue` each declare a member `m_total_count`, so the
model has both: `base.totalCount` is never written after its construction with
zero, and `totalCount` is the number of cells. `put` and `get` are composed of
the actions of the source in their order: the bag operation, the increment of
the index, its wrap and the update of the size.
-/

namespace Shovel.Containers

/-! ## Cells -/

/-- `RingQueue::bag`. The vector `data` may be longer than the message it holds. -/
structure Bag where
  data : List UInt8
  initCellSize : Nat
  dataSize : Nat
  hasData : Bool
  deriving DecidableEq, Repr

namespace Bag

/-- The constructor: a vector of `init_cell_size` zero bytes that holds no message. -/
def new (initCellSize : Nat) : Bag :=
  ⟨List.replicate initCellSize 0, initCellSize, 0, false⟩

/-- `bag::put`: grow the vector if needed and copy the message to its front. -/
def put (b : Bag) (inData : List UInt8) (putDataSize : Nat) : Nat × Bag :=
  let data :=
    if b.data.length < putDataSize then
      b.data ++ List.replicate (putDataSize - b.data.length) 0
    else b.data
  (putDataSize,
    { b with
      data := inData.take putDataSize ++ data.drop putDataSize
      hasData := true
      dataSize := putDataSize })

/-- `bag::get`: copy at most `size` bytes and drop the message. -/
def get (b : Bag) (size : Nat) : Read × Bag :=
  if ¬ b.hasData then (⟨0, []⟩, b)
  else
    let readSize := min size b.dataSize
    (⟨readSize, b.data.take readSize⟩, { b with hasData := false, dataSize := 0 })

/-- `bag::peek`: copy at most `size` bytes. -/
def peek (b : Bag) (size : Nat) : Read :=
  if ¬ b.hasData then ⟨0, []⟩
  else
    let readSize := min size b.dataSize
    ⟨readSize, b.data.take readSize⟩

/-- The cell holds exactly this message. -/
structure Holds (b : Bag) (m : Message) : Prop where
  hasData : b.hasData = true
  dataSize : b.dataSize = m.size
  data : b.data.take b.dataSize = m.bytes

/-- The cell holds no message. -/
def Free (b : Bag) : Prop := b.hasData = false

theorem new_free (cellSize : Nat) : (new cellSize).Free := rfl

/-- A stored message is held whole, whatever the cell's size was. -/
theorem put_holds (b : Bag) (m : Message) :
    (b.put m.bytes m.size).1 = m.size ∧ (b.put m.bytes m.size).2.Holds m :=
  ⟨rfl, rfl, rfl, by simp [put, Message.size]⟩

variable {b : Bag} {m : Message}

/-- Reading a held message copies its first bytes and frees the cell. -/
theorem get_holds (h : b.Holds m) (size : Nat) :
    (b.get size).1 = ⟨min size m.size, m.bytes.take size⟩ ∧ (b.get size).2.Free := by
  have htake : b.data.take (min size b.dataSize) = m.bytes.take size := by
    rw [← h.data, List.take_take]
  simp only [get, h.hasData, not_true_eq_false, if_false, htake]
  exact ⟨by rw [h.dataSize], rfl⟩

/-- Peeking at a held message copies the same bytes as reading it. -/
theorem peek_eq_get (b : Bag) (size : Nat) : b.peek size = (b.get size).1 := by
  unfold peek get
  split <;> rfl

end Bag

/-! ## The queue -/

/-- The data members of `QueueBase`. -/
structure BaseMembers where
  totalCount : Nat
  size : Nat
  status : QueueStatus
  deriving DecidableEq, Repr

/-- `QueueBase::QueueBase`. -/
def BaseMembers.init : BaseMembers := ⟨0, 0, .ok⟩

/-- The increment of a 32-bit unsigned counter. -/
def increment32 (n : Nat) : Nat := (n + 1) % 2 ^ 32

/-- The decrement of a 32-bit unsigned counter. -/
def decrement32 (n : Nat) : Nat := if n = 0 then 2 ^ 32 - 1 else n - 1

theorem increment32_of_lt {n count : Nat} (h : n < count) (hcount : count < 2 ^ 32) :
    increment32 n = n + 1 :=
  Nat.mod_eq_of_lt (by omega)

theorem decrement32_of_pos {n : Nat} (h : 0 < n) : decrement32 n = n - 1 :=
  if_neg (by omega)

/-- `RingQueue`: the members of the base, the indices, the cells and its own `m_total_count`. -/
structure RingQueue where
  base : BaseMembers
  indexIn : Nat
  indexOut : Nat
  ringVector : List Bag
  totalCount : Nat
  deriving DecidableEq, Repr

namespace RingQueue

/-- `RingQueue::RingQueue(count, cell_size)`. -/
def new (count cellSize : Nat) : RingQueue where
  base := .init
  indexIn := 0
  indexOut := 0
  ringVector := List.replicate count (.new cellSize)
  totalCount := count

/-- `m_ring_vector->at(index)`. -/
def cellAt (q : RingQueue) (index : Nat) : Except QueueException Bag :=
  match q.ringVector[index]? with
  | some b => .ok b
  | none => .error .outOfRange

def setStatus (q : RingQueue) (status : QueueStatus) : RingQueue :=
  { q with base := { q.base with status } }

/-- `reset_status`. -/
def resetStatus (q : RingQueue) : RingQueue := q.setStatus .ok

/-- `m_index_in++`. -/
def incIndexIn (q : RingQueue) : RingQueue := { q with indexIn := increment32 q.indexIn }

/-- `if (m_index_in == m_total_count) m_index_in = 0`. -/
def wrapIndexIn (q : RingQueue) : RingQueue :=
  if q.indexIn = q.totalCount then { q with indexIn := 0 } else q

/-- `m_index_out++`. -/
def incIndexOut (q : RingQueue) : RingQueue := { q with indexOut := increment32 q.indexOut }

/-- `if (m_index_out == m_total_count) m_index_out = 0`. -/
def wrapIndexOut (q : RingQueue) : RingQueue :=
  if q.indexOut = q.totalCount then { q with indexOut := 0 } else q

theorem wrapIndexIn_eq (q : RingQueue) : q.wrapIndexIn =
    { q with indexIn := if q.indexIn = q.totalCount then 0 else q.indexIn } := by
  unfold wrapIndexIn
  split <;> rfl

theorem wrapIndexOut_eq (q : RingQueue) : q.wrapIndexOut =
    { q with indexOut := if q.indexOut = q.totalCount then 0 else q.indexOut } := by
  unfold wrapIndexOut
  split <;> rfl

/-- `m_size++`. -/
def incSize (q : RingQueue) : RingQueue :=
  { q with base := { q.base with size := increment32 q.base.size } }

/-- `m_size--`. -/
def decSize (q : RingQueue) : RingQueue :=
  { q with base := { q.base with size := decrement32 q.base.size } }

/-- `m_ring_vector->at(m_index_in)->put(buf, size)`. -/
def bagPut (q : RingQueue) (m : Message) : Except QueueException (Nat × RingQueue) := do
  let b ← q.cellAt q.indexIn
  let (putSize, b') := b.put m.bytes m.size
  .ok (putSize, { q with ringVector := q.ringVector.set q.indexIn b' })

/-- `m_ring_vector->at(m_index_out)->get(buf, size)`. -/
def bagGet (q : RingQueue) (size : Nat) : Except QueueException (Read × RingQueue) := do
  let b ← q.cellAt q.indexOut
  let (read, b') := b.get size
  .ok (read, { q with ringVector := q.ringVector.set q.indexOut b' })

/-- `m_ring_vector->at(m_index_out)->peek(buf, size)`. -/
def bagPeek (q : RingQueue) (size : Nat) : Except QueueException Read := do
  let b ← q.cellAt q.indexOut
  .ok (b.peek size)

/-- `static_cast<uint16_t>`. -/
def cast16 (n : Nat) : Nat := n % 2 ^ 16

/-- `RingQueue::put`. -/
def put (q : RingQueue) (m : Message) : Except QueueException (Nat × RingQueue) :=
  let q := q.resetStatus
  if q.base.size < q.totalCount then do
    let (putSize, q) ← q.bagPut m
    .ok (cast16 putSize, q.incIndexIn.wrapIndexIn.incSize)
  else .ok (0, q.setStatus .full)

/-- `RingQueue::get`. -/
def get (q : RingQueue) (size : Nat) : Except QueueException (Read × RingQueue) :=
  let q := q.resetStatus
  if q.base.size ≠ 0 then do
    let (read, q) ← q.bagGet size
    .ok ({ read with ret := cast16 read.ret }, q.incIndexOut.wrapIndexOut.decSize)
  else .ok (⟨0, []⟩, q.setStatus .empty)

/-- `RingQueue::peek`. -/
def peek (q : RingQueue) (size : Nat) : Except QueueException (Read × RingQueue) :=
  let q := q.resetStatus
  if q.base.size ≠ 0 then do
    let read ← q.bagPeek size
    .ok ({ read with ret := cast16 read.ret }, q)
  else .ok (⟨0, []⟩, q.setStatus .empty)

/-- `QueueBase::get_status`, `QueueBase::size` and `QueueBase::capacity` are inherited and read
the members of the base. -/
instance : QueueBase RingQueue where
  put := put
  get := get
  peek := peek
  getStatus q := q.base.status
  size q := q.base.size
  capacity q := q.base.totalCount

end RingQueue

end Shovel.Containers
