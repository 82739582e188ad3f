import Shovel.Containers.QueueBase

/-!
# Histories of calls

An event is a call of a queue with the thread that made it and the answer it
got. A list of events is legal for a bounded list of messages when that list,
called in the same order, gives the same answers. `Legal.conserves` says what a
legal history is worth to its callers: the messages stored come out once, in
their order, and those that have not come out are still queued.
-/

namespace Shovel.Containers

open Bounded

/-- A call of a queue: the thread that makes it, the call, and the answer. -/
structure Event (T : Type) where
  thread : T
  call : QueueCall
  answer : Answer
  deriving DecidableEq

namespace Event

variable {T : Type}

/-- The message that a `put` has stored. -/
def stored (e : Event T) : Option Message :=
  match e.call with
  | .put m => if e.answer.status = .ok then some m else none
  | .get _ | .peek _ => none

/-- The room and the bytes copied by a `get` that has found a message. -/
def removed (e : Event T) : Option (Nat × List UInt8) :=
  match e.call with
  | .get size => if e.answer.status = .ok then some (size, e.answer.copied) else none
  | .put _ | .peek _ => none

end Event

/-! ## Successive calls -/

namespace MessageFifo

/-- The queue after successive calls. -/
def after (q : MessageFifo) (calls : List QueueCall) : MessageFifo := (q.answerAll calls).2

variable {q : MessageFifo}

/-- Calls made after other calls. -/
theorem answerAll_append (first second : List QueueCall) : q.answerAll (first ++ second) =
    ((q.answerAll first).1 ++ ((q.after first).answerAll second).1,
      (q.after first).after second) := by
  induction first generalizing q with
  | nil => rfl
  | cons c rest ih =>
      simp only [List.cons_append, answerAll, ih]
      rfl

theorem after_concat (calls : List QueueCall) (c : QueueCall) :
    q.after (calls ++ [c]) = ((q.after calls).answer c).2 := by
  rw [after, answerAll_append]
  rfl

/-- The answers of a call: a message is stored where there is room, and found where there is
one. -/
theorem answer_put_room {m : Message} (h : q.fifo.HasRoom) :
    q.answer (.put m) = (⟨m.size, [], .ok⟩, ⟨q.fifo.push m, .ok⟩) := by
  simp [answer, put_room h]

theorem answer_put_full {m : Message} (h : ¬ q.fifo.HasRoom) :
    q.answer (.put m) = (⟨0, [], .full⟩, ⟨q.fifo, .full⟩) := by
  simp [answer, put_full h]

theorem answer_get_some {m : Message} (size : Nat) (h : q.fifo.items.head? = some m) :
    q.answer (.get size) = (⟨min size m.size, m.bytes.take size, .ok⟩, ⟨q.fifo.pop, .ok⟩) := by
  simp [answer, get, look_some size h]

theorem answer_get_none (size : Nat) (h : q.fifo.items.head? = none) :
    q.answer (.get size) = (⟨0, [], .empty⟩, ⟨q.fifo.pop, .empty⟩) := by
  simp [answer, get, look_none size h]

theorem answer_peek_some {m : Message} (size : Nat) (h : q.fifo.items.head? = some m) :
    q.answer (.peek size) = (⟨min size m.size, m.bytes.take size, .ok⟩, ⟨q.fifo, .ok⟩) := by
  simp [answer, peek, look_some size h]

theorem answer_peek_none (size : Nat) (h : q.fifo.items.head? = none) :
    q.answer (.peek size) = (⟨0, [], .empty⟩, ⟨q.fifo, .empty⟩) := by
  simp [answer, peek, look_none size h]

end MessageFifo

/-! ## Legal histories -/

/-- The queue `q`, called as in the history, gives the answers of the history. -/
def Legal {T : Type} (q : MessageFifo) (events : List (Event T)) : Prop :=
  (q.answerAll (events.map Event.call)).1 = events.map Event.answer

namespace Legal

variable {T : Type} {q : MessageFifo} {events later : List (Event T)} {e : Event T}

theorem nil : Legal q ([] : List (Event T)) := rfl

theorem cons_iff : Legal q (e :: later) ↔
    (q.answer e.call).1 = e.answer ∧ Legal (q.answer e.call).2 later := by
  simp [Legal, MessageFifo.answerAll]

/-- A history is legal when a first part is, and the rest is for the queue after it. -/
theorem append_iff : Legal q (events ++ later) ↔
    Legal q events ∧ Legal (q.after (events.map Event.call)) later := by
  induction events generalizing q with
  | nil => simp [nil, MessageFifo.after, MessageFifo.answerAll]
  | cons first rest ih =>
      rw [List.cons_append, cons_iff, cons_iff, ih, and_assoc]
      rfl

/-- The messages queued at first and those stored by the calls are the messages that came out, in
this order, followed by those still queued. Each `get` that found a message copied as much of the
next one as it had room for. -/
theorem conserves (h : Legal q events) :
    ∃ out, q.fifo.items ++ events.filterMap Event.stored =
        out ++ (q.after (events.map Event.call)).fifo.items ∧
      List.Forall₂ (fun (m : Message) (got : Nat × List UInt8) => got.2 = m.bytes.take got.1) out
        (events.filterMap Event.removed) := by
  induction events generalizing q with
  | nil => exact ⟨[], by simp [MessageFifo.after, MessageFifo.answerAll], .nil⟩
  | cons e rest ih =>
      obtain ⟨hanswer, hrest⟩ := cons_iff.mp h
      obtain ⟨out, hsplit, hout⟩ := ih hrest
      have hafter : q.after ((e :: rest).map Event.call) =
          (q.answer e.call).2.after (rest.map Event.call) := rfl
      rw [hafter]
      obtain ⟨thread, call, answer⟩ := e
      simp only at hanswer hsplit ⊢
      subst hanswer
      cases call with
      | put m =>
          refine ⟨out, ?_, by simpa [List.filterMap_cons, Event.removed] using hout⟩
          by_cases hroom : q.fifo.HasRoom
          · rw [MessageFifo.answer_put_room hroom] at hsplit ⊢
            simpa [List.filterMap_cons, Event.stored, Fifo.push_items hroom] using hsplit
          · rw [MessageFifo.answer_put_full hroom] at hsplit ⊢
            simpa [List.filterMap_cons, Event.stored] using hsplit
      | get size =>
          cases hfirst : q.fifo.items.head? with
          | some m =>
              obtain ⟨tail, hitems⟩ := List.head?_eq_some_iff.mp hfirst
              rw [MessageFifo.answer_get_some size hfirst] at hsplit ⊢
              refine ⟨m :: out, ?_, ?_⟩
              · simpa [List.filterMap_cons, Event.stored, hitems] using hsplit
              · simpa [List.filterMap_cons, Event.removed] using hout
          | none =>
              have hempty := List.head?_eq_none_iff.mp hfirst
              rw [MessageFifo.answer_get_none size hfirst] at hsplit ⊢
              refine ⟨out, ?_, by simpa [List.filterMap_cons, Event.removed] using hout⟩
              simpa [List.filterMap_cons, Event.stored, hempty] using hsplit
      | peek size =>
          refine ⟨out, ?_, by simpa [List.filterMap_cons, Event.removed] using hout⟩
          simpa [List.filterMap_cons, Event.stored, MessageFifo.answer, MessageFifo.peek]
            using hsplit

end Legal

end Shovel.Containers
