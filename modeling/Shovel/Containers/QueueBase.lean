import Mathlib.Algebra.Group.Nat.Defs
import Shovel.Library.Fifo

/-!
# Queues of byte messages

`QueueBase` is the interface of the queues: `put`, `get` and `peek` with the
number of bytes they report, the bytes that `get` and `peek` copy out, and the
status of the last call. A call may end in an exception. `MessageFifo` states
what such a queue is for, a bounded first-in first-out list of messages, and
`Simulates` what it means for an implementation to behave like it.
-/

namespace Shovel.Containers

open Bounded

/-- `QUEUEBASE_STATUS`. -/
inductive QueueStatus where
  | ok
  | full
  | empty
  deriving DecidableEq, Repr

/-- The bytes a caller passes to `put` as `(buf, size)`: a 16-bit number of them. -/
structure Message where
  bytes : List UInt8
  fits : bytes.length < 2 ^ 16

namespace Message

instance : DecidableEq Message := fun m other =>
  decidable_of_iff (m.bytes = other.bytes) (by cases m; cases other; simp)

/-- The 16-bit size of a message. -/
def size (m : Message) : Nat := m.bytes.length

@[ext] theorem ext {m other : Message} (h : m.bytes = other.bytes) : m = other := by
  cases m
  cases other
  cases h
  rfl

/-- A message of 16-bit size is its own prefix of 65535 bytes. -/
theorem take_max (m : Message) : m.bytes.take 65535 = m.bytes :=
  List.take_of_length_le (by have := m.fits; omega)

end Message

/-- The result of `get` and `peek`: the number returned and the bytes copied to the caller. -/
structure Read where
  ret : Nat
  copied : List UInt8
  deriving DecidableEq, Repr

/-- The exception `std::out_of_range` of `vector::at`. -/
inductive QueueException where
  | outOfRange
  deriving DecidableEq, Repr

/-- The virtual functions of `QueueBase`. -/
class QueueBase (Q : Type) where
  put : Q → Message → Except QueueException (Nat × Q)
  get : Q → Nat → Except QueueException (Read × Q)
  peek : Q → Nat → Except QueueException (Read × Q)
  getStatus : Q → QueueStatus
  size : Q → Nat
  capacity : Q → Nat

/-! ## The abstract queue -/

/-- A bounded list of messages with the status of the last call. -/
structure MessageFifo where
  fifo : Fifo Message
  status : QueueStatus

namespace MessageFifo

/-- The queue without messages. -/
def empty (bound : Nat) : MessageFifo := ⟨.empty bound, .ok⟩

/-- Append the whole message and return its length, or refuse. -/
def put (q : MessageFifo) (m : Message) : Nat × MessageFifo :=
  if q.fifo.HasRoom then (m.size, ⟨q.fifo.push m, .ok⟩) else (0, ⟨q.fifo, .full⟩)

/-- What a caller with room for `size` bytes sees of the first message. -/
def look (q : MessageFifo) (size : Nat) : Read × QueueStatus :=
  match q.fifo.items.head? with
  | some m => (⟨min size m.size, m.bytes.take size⟩, .ok)
  | none => (⟨0, []⟩, .empty)

/-- Remove the first message and return its first `size` bytes. -/
def get (q : MessageFifo) (size : Nat) : Read × MessageFifo :=
  ((q.look size).1, ⟨q.fifo.pop, (q.look size).2⟩)

/-- Return the first `size` bytes of the first message and keep it. -/
def peek (q : MessageFifo) (size : Nat) : Read × MessageFifo :=
  ((q.look size).1, ⟨q.fifo, (q.look size).2⟩)

variable {q : MessageFifo} {m : Message}

theorem put_room (h : q.fifo.HasRoom) : q.put m = (m.size, ⟨q.fifo.push m, .ok⟩) := if_pos h

theorem put_full (h : ¬ q.fifo.HasRoom) : q.put m = (0, ⟨q.fifo, .full⟩) := if_neg h

@[simp] theorem put_bound : (q.put m).2.fifo.bound = q.fifo.bound := by
  unfold put
  split
  · exact Fifo.push_bound
  · rfl

theorem look_some (size : Nat) (h : q.fifo.items.head? = some m) :
    q.look size = (⟨min size m.size, m.bytes.take size⟩, .ok) := by
  simp [look, h]

theorem look_none (size : Nat) (h : q.fifo.items.head? = none) :
    q.look size = (⟨0, []⟩, .empty) := by
  simp [look, h]

end MessageFifo

instance : QueueBase MessageFifo where
  put q m := .ok (q.put m)
  get q size := .ok (q.get size)
  peek q size := .ok (q.peek size)
  getStatus := MessageFifo.status
  size q := q.fifo.items.length
  capacity q := q.fifo.bound

/-- An implementation behaves like the abstract queue it is related to: no call ends in an
exception, all answers agree, and every call leads to related queues. -/
structure Simulates (Q : Type) [QueueBase Q] (Rel : Q → MessageFifo → Prop) : Prop where
  put : ∀ {q a} (m), Rel q a →
    ∃ q', QueueBase.put q m = .ok ((a.put m).1, q') ∧ Rel q' (a.put m).2
  get : ∀ {q a} (size), Rel q a →
    ∃ q', QueueBase.get q size = .ok ((a.get size).1, q') ∧ Rel q' (a.get size).2
  peek : ∀ {q a} (size), Rel q a →
    ∃ q', QueueBase.peek q size = .ok ((a.peek size).1, q') ∧ Rel q' (a.peek size).2
  getStatus : ∀ {q a}, Rel q a → QueueBase.getStatus q = a.status
  size : ∀ {q a}, Rel q a → QueueBase.size q = a.fifo.items.length

/-- A queue that behaves like a bounded list of messages and whose `capacity` is the bound. -/
structure BoundedQueue (Q : Type) [QueueBase Q] (Rel : Q → MessageFifo → Prop) : Prop where
  simulates : Simulates Q Rel
  capacity : ∀ {q a}, Rel q a → QueueBase.capacity q = a.fifo.bound

/-- The abstract queue is such a queue itself. -/
theorem messageFifo_bounded : BoundedQueue MessageFifo Eq where
  simulates :=
    { put := by
        rintro q a m rfl
        exact ⟨_, rfl, rfl⟩
      get := by
        rintro q a size rfl
        exact ⟨_, rfl, rfl⟩
      peek := by
        rintro q a size rfl
        exact ⟨_, rfl, rfl⟩
      getStatus := by
        rintro q a rfl
        rfl
      size := by
        rintro q a rfl
        rfl }
  capacity := by
    rintro q a rfl
    rfl

/-! ## Sequences of calls -/

/-- A call of a client. -/
inductive QueueCall where
  | put (m : Message)
  | get (size : Nat)
  | peek (size : Nat)
  deriving DecidableEq

/-- What a client sees of a call: the number returned, the bytes copied and the status. -/
structure Answer where
  ret : Nat
  copied : List UInt8
  status : QueueStatus
  deriving DecidableEq, Repr

section Calls

variable {Q : Type} [QueueBase Q]

/-- One call together with the status after it. -/
def call (q : Q) : QueueCall → Except QueueException (Answer × Q)
  | .put m => (QueueBase.put q m).map fun (ret, q') => (⟨ret, [], QueueBase.getStatus q'⟩, q')
  | .get size => (QueueBase.get q size).map fun (read, q') =>
      (⟨read.ret, read.copied, QueueBase.getStatus q'⟩, q')
  | .peek size => (QueueBase.peek q size).map fun (read, q') =>
      (⟨read.ret, read.copied, QueueBase.getStatus q'⟩, q')

/-- Successive calls, collecting the answers. -/
def callAll : Q → List QueueCall → Except QueueException (List Answer × Q)
  | q, [] => .ok ([], q)
  | q, c :: rest => do
      let (answer, following) ← call q c
      let (answers, final) ← callAll following rest
      pure (answer :: answers, final)

end Calls

namespace MessageFifo

/-- One call of the abstract queue, which never fails. -/
def answer (q : MessageFifo) : QueueCall → Answer × MessageFifo
  | .put m => (⟨(q.put m).1, [], (q.put m).2.status⟩, (q.put m).2)
  | .get size =>
      (⟨(q.get size).1.ret, (q.get size).1.copied, (q.get size).2.status⟩, (q.get size).2)
  | .peek size =>
      (⟨(q.peek size).1.ret, (q.peek size).1.copied, (q.peek size).2.status⟩, (q.peek size).2)

/-- Successive calls of the abstract queue. -/
def answerAll : MessageFifo → List QueueCall → List Answer × MessageFifo
  | q, [] => ([], q)
  | q, c :: rest => ((q.answer c).1 :: ((q.answer c).2.answerAll rest).1,
      ((q.answer c).2.answerAll rest).2)

end MessageFifo

namespace Simulates

variable {Q : Type} [QueueBase Q] {Rel : Q → MessageFifo → Prop}

/-- No call changes the bound, so it stays positive. -/
theorem withRoom (h : Simulates Q Rel) : Simulates Q fun q a => Rel q a ∧ 0 < a.fifo.bound where
  put m hrel := by
    obtain ⟨q', hput, hnext⟩ := h.put m hrel.1
    exact ⟨q', hput, hnext, MessageFifo.put_bound.symm ▸ hrel.2⟩
  get size hrel := by
    obtain ⟨q', hget, hnext⟩ := h.get size hrel.1
    exact ⟨q', hget, hnext, hrel.2⟩
  peek size hrel := by
    obtain ⟨q', hpeek, hnext⟩ := h.peek size hrel.1
    exact ⟨q', hpeek, hnext, hrel.2⟩
  getStatus hrel := h.getStatus hrel.1
  size hrel := h.size hrel.1

/-- Related queues answer a call alike. -/
theorem call_eq (h : Simulates Q Rel) {q : Q} {a : MessageFifo} (hrel : Rel q a)
    (c : QueueCall) : ∃ q', call q c = .ok ((a.answer c).1, q') ∧ Rel q' (a.answer c).2 := by
  cases c with
  | put m =>
      obtain ⟨q', hput, hnext⟩ := h.put m hrel
      refine ⟨q', ?_, hnext⟩
      simp [call, hput, Except.map, MessageFifo.answer, h.getStatus hnext]
  | get size =>
      obtain ⟨q', hget, hnext⟩ := h.get size hrel
      refine ⟨q', ?_, hnext⟩
      simp [call, hget, Except.map, MessageFifo.answer, h.getStatus hnext]
  | peek size =>
      obtain ⟨q', hpeek, hnext⟩ := h.peek size hrel
      refine ⟨q', ?_, hnext⟩
      simp [call, hpeek, Except.map, MessageFifo.answer, h.getStatus hnext]

/-- Related queues answer every sequence of calls alike. -/
theorem callAll_eq (h : Simulates Q Rel) (calls : List QueueCall) {q : Q} {a : MessageFifo}
    (hrel : Rel q a) :
    ∃ q', callAll q calls = .ok ((a.answerAll calls).1, q') ∧ Rel q' (a.answerAll calls).2 := by
  induction calls generalizing q a with
  | nil => exact ⟨q, rfl, hrel⟩
  | cons c rest ih =>
      obtain ⟨following, hcall, hnext⟩ := h.call_eq hrel c
      obtain ⟨final, hrest, hfinal⟩ := ih hnext
      refine ⟨final, ?_, hfinal⟩
      simp [callAll, hcall, hrest, MessageFifo.answerAll, bind, Except.bind, pure, Except.pure]

end Simulates

end Shovel.Containers
