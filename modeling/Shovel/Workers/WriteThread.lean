import Shovel.Library.Machine
import Shovel.Containers.RingQueueFifo
import Shovel.Workers.ConnectionWorker

/-!
# The writing thread

`thread_write_to_source` with each test of a flag, each call of the queue and
each call of `write_data_to_source` as a step of its own. Between two steps a
producer may call `put`, `stop` may be called and the reading thread may die.
The state keeps the messages the queue has accepted, those the source has taken,
and the one that was peeked at and not yet taken.

Peeking and removing are two calls of the queue. Producers only append, so the
first message of the queue stays the same in between, and the invariant ties it
to the thread's local array.
-/

namespace Shovel.Workers

open Containers Transition Bounded

/-- The program points of `thread_write_to_source`, with the local variables that are alive
there. -/
inductive WritePc where
  | head
  | headStop
  | peek
  | checkAlive (getStatus : Nat)
  | checkStop (getStatus : Nat)
  | write
  | pop
  | finish
  | done
  | terminated
  deriving DecidableEq

/-- A worker's writing side. The fields `accepted`, `taken` and `pending` record the run. -/
structure WriteState (Q : Type) where
  queue : Q
  arr : SizedArray connectionWorkerArrSize
  flags : WorkerFlags
  pc : WritePc
  accepted : List (List UInt8)
  taken : List (List UInt8)
  pending : Option (List UInt8)

/-- A step of the writing thread, the return of `write_data_to_source`, a `put` of a producer, a
call of `stop`, or the death of the reading thread. -/
inductive WriteLabel where
  | writer
  | writeReturns (writeStatus : Int)
  | producerPut (m : Message)
  | stop
  | readerDies

namespace WriteState

variable {Q : Type} [QueueBase Q]

/-- The state before the first step. -/
def start (queue : Q) : WriteState Q := ⟨queue, .new _, .run, .head, [], [], none⟩

/-- The step of the thread at each program point. -/
def writerStep (s : WriteState Q) : Option (WriteState Q) :=
  match s.pc with
  | .head => some { s with pc := if s.flags.readThreadAlive then .headStop else .finish }
  | .headStop => some { s with pc := if s.flags.stopAsked then .finish else .peek }
  | .peek =>
      match QueueBase.peek s.queue connectionWorkerArrSize with
      | .ok (read, queue) =>
          some { s with
            queue
            arr := (s.arr.store read.copied).resize read.ret
            pc := .checkAlive read.ret
            pending := if read.ret = 0 then none else some read.copied }
      | .error _ => some { s with pc := .terminated }
  | .checkAlive getStatus =>
      some { s with pc := if s.flags.readThreadAlive then .checkStop getStatus else .finish }
  | .checkStop getStatus =>
      some { s with
        pc := if s.flags.stopAsked then .finish
          -- an empty message looks like an empty queue
          else if 0 < getStatus then .write
          else .head }
  | .write => none
  | .pop =>
      -- take zero data size: the last element is not needed anymore
      match QueueBase.get s.queue 0 with
      | .ok (_, queue) => some { s with queue, pc := .head }
      | .error _ => some { s with pc := .terminated }
  | .finish => some { s with flags := { s.flags with writeThreadAlive := false }, pc := .done }
  | .done | .terminated => none

/-- The return of `write_data_to_source`: zero repeats the call with the same array, a negative
value leaves the loop, and a positive one means that the source has taken the whole array. -/
def writeReturns (s : WriteState Q) (writeStatus : Int) : WriteState Q :=
  if writeStatus = 0 then s
  else if writeStatus < 0 then { s with pc := .finish }
  else
    { s with
      arr := s.arr.clear
      pc := .pop
      taken := s.taken ++ [s.arr.content]
      pending := none }

/-- One step of an interleaving. A `put` is accepted when the status after it is OK. -/
def step (s : WriteState Q) : WriteLabel → Option (WriteState Q)
  | .writer => s.writerStep
  | .writeReturns writeStatus =>
      if s.pc = .write then some (s.writeReturns writeStatus) else none
  | .producerPut m =>
      match QueueBase.put s.queue m with
      | .ok (_, queue) =>
          some { s with
            queue
            accepted :=
              if QueueBase.getStatus queue = .ok then s.accepted ++ [m.bytes] else s.accepted }
      | .error _ => none
  | .stop => some { s with flags := { s.flags with stopAsked := true } }
  | .readerDies => some { s with flags := { s.flags with readThreadAlive := false } }

/-- All interleavings of a worker whose writing queue is `queue`. -/
def machine (queue : Q) : Machine (WriteState Q) WriteLabel where
  init s := s = start queue
  step := step

/-! ### What a step leaves alone -/

variable {s s' : WriteState Q}

/-- The thread neither accepts a message nor touches a flag that it tests. -/
theorem writerStep_frame (hstep : s.writerStep = some s') :
    s'.accepted = s.accepted ∧ s'.flags.readThreadAlive = s.flags.readThreadAlive ∧
      s'.flags.stopAsked = s.flags.stopAsked := by
  cases hpc : s.pc with
  | head | headStop | checkAlive getStatus | checkStop getStatus | finish =>
      simp only [writerStep, hpc] at hstep
      obtain rfl := Option.some.inj hstep
      exact ⟨rfl, rfl, rfl⟩
  | peek | pop =>
      simp only [writerStep, hpc] at hstep
      split at hstep
      all_goals
        obtain rfl := Option.some.inj hstep
        exact ⟨rfl, rfl, rfl⟩
  | write | done | terminated => simp [writerStep, hpc] at hstep

/-- The thread hands nothing to the source. Once it leaves the loop it keeps what it has peeked
at. -/
theorem writerStep_record (hstep : s.writerStep = some s') :
    s'.taken = s.taken ∧ s.pc ≠ .write ∧ s.pc ≠ .done ∧
      (s.pc = .finish → s'.pc = .done ∧ s'.pending = s.pending) := by
  cases hpc : s.pc with
  | head | headStop | checkAlive getStatus | checkStop getStatus | finish =>
      simp only [writerStep, hpc] at hstep
      obtain rfl := Option.some.inj hstep
      simp
  | peek | pop =>
      simp only [writerStep, hpc] at hstep
      split at hstep
      all_goals
        obtain rfl := Option.some.inj hstep
        simp
  | write | done | terminated => simp [writerStep, hpc] at hstep

/-- Of the flags, the thread sets at most its own one. -/
theorem writerStep_flags (hstep : s.writerStep = some s') :
    s'.flags = s.flags ∨ s'.flags = { s.flags with writeThreadAlive := false } := by
  cases hpc : s.pc with
  | finish =>
      simp only [writerStep, hpc] at hstep
      obtain rfl := Option.some.inj hstep
      exact .inr rfl
  | head | headStop | checkAlive getStatus | checkStop getStatus =>
      simp only [writerStep, hpc] at hstep
      obtain rfl := Option.some.inj hstep
      exact .inl rfl
  | peek | pop =>
      simp only [writerStep, hpc] at hstep
      split at hstep
      all_goals
        obtain rfl := Option.some.inj hstep
        exact .inl rfl
  | write | done | terminated => simp [writerStep, hpc] at hstep

/-- A write returns only to a thread that stands at it. -/
theorem writeReturns_cases {writeStatus : Int}
    (hstep : s.step (.writeReturns writeStatus) = some s') :
    s.pc = .write ∧ s' = s.writeReturns writeStatus := by
  simp only [step] at hstep
  split at hstep
  · rename_i hpc
    exact ⟨hpc, (Option.some.inj hstep).symm⟩
  · cases hstep

/-- A `put` of a producer moves neither the thread nor a flag. -/
theorem producerPut_frame {m : Message} (hstep : s.step (.producerPut m) = some s') :
    s'.pc = s.pc ∧ s'.flags = s.flags := by
  simp only [step] at hstep
  split at hstep
  · obtain rfl := Option.some.inj hstep
    exact ⟨rfl, rfl⟩
  · cases hstep

/-- Only the return of a write makes the source take a message. -/
theorem step_taken {label : WriteLabel} (hreturn : ∀ writeStatus, label ≠ .writeReturns writeStatus)
    (hstep : s.step label = some s') : s'.taken = s.taken := by
  cases label with
  | writer => exact (writerStep_record hstep).1
  | writeReturns writeStatus => exact absurd rfl (hreturn writeStatus)
  | producerPut m =>
      simp only [step] at hstep
      split at hstep
      · obtain rfl := Option.some.inj hstep
        rfl
      · cases hstep
  | stop | readerDies =>
      obtain rfl := Option.some.inj hstep
      rfl

omit [QueueBase Q] in
/-- The return of a write neither accepts a message nor touches the flags. -/
theorem writeReturns_frame (s : WriteState Q) (writeStatus : Int) :
    (s.writeReturns writeStatus).accepted = s.accepted ∧
      (s.writeReturns writeStatus).flags = s.flags := by
  unfold writeReturns
  repeat' split
  all_goals exact ⟨rfl, rfl⟩

end WriteState

/-! ## The invariant -/

namespace WriteState

variable {Q : Type}

/-- The local array holds the pending message, which is the first one of the queue. -/
def HoldsFirst (s : WriteState Q) (queued : List (List UInt8)) : Prop :=
  s.pending = some s.arr.content ∧ queued.head? = some s.arr.content

/-- How the accepted messages split at each program point. -/
def AtPc (s : WriteState Q) (queued : List (List UInt8)) : Prop :=
  match s.pc with
  | .head | .headStop | .peek => s.taken ++ queued = s.accepted ∧ s.pending = none
  | .checkAlive getStatus | .checkStop getStatus =>
      s.taken ++ queued = s.accepted ∧
        ((getStatus = 0 ∧ s.pending = none) ∨ (0 < getStatus ∧ s.HoldsFirst queued))
  | .write => s.taken ++ queued = s.accepted ∧ s.HoldsFirst queued
  | .pop =>
      s.pending = none ∧
        ∃ earlier m rest, s.taken = earlier ++ [m] ∧ queued = m :: rest ∧
          s.taken ++ rest = s.accepted
  | .finish | .done =>
      s.taken ++ queued = s.accepted ∧ ∀ b, s.pending = some b → queued.head? = some b
  | .terminated => False

/-- The queue is related to an abstract one, and the messages split as the program point says. -/
def Inv (Rel : Q → MessageFifo → Prop) (s : WriteState Q) : Prop :=
  ∃ a, Rel s.queue a ∧ s.AtPc (a.fifo.items.map Message.bytes)

variable {s s' : WriteState Q} {queued : List (List UInt8)} {Rel : Q → MessageFifo → Prop}

/-- Everywhere but between the write and the removal, the taken messages followed by the queued
ones are the accepted ones. -/
theorem AtPc.conserved (h : s.AtPc queued) (hpc : s.pc ≠ .pop) :
    s.taken ++ queued = s.accepted := by
  unfold AtPc at h
  cases hs : s.pc with
  | pop => exact absurd hs hpc
  | terminated => simp only [hs] at h
  | _ =>
      simp only [hs] at h
      exact h.1

/-- The source has taken the first accepted messages. -/
theorem AtPc.taken_starts (hat : s.AtPc queued) : s.taken <+: s.accepted := by
  by_cases hpc : s.pc = .pop
  · simp only [AtPc, hpc] at hat
    obtain ⟨-, earlier, m, rest, -, -, hall⟩ := hat
    exact ⟨rest, hall⟩
  · exact ⟨queued, hat.conserved hpc⟩

/-- A pending message is the first one of the queue. -/
theorem AtPc.pending_first (h : s.AtPc queued) {b : List UInt8} (hb : s.pending = some b) :
    queued.head? = some b := by
  unfold AtPc at h
  cases hs : s.pc with
  | head | headStop | peek =>
      simp only [hs] at h
      rw [h.2] at hb
      cases hb
  | checkAlive getStatus | checkStop getStatus =>
      simp only [hs] at h
      obtain ⟨-, ⟨-, hnone⟩ | ⟨-, hpending, hfirst⟩⟩ := h
      · rw [hnone] at hb
        cases hb
      · rw [hfirst, ← hpending, hb]
  | write =>
      simp only [hs] at h
      obtain ⟨-, hpending, hfirst⟩ := h
      rw [hfirst, ← hpending, hb]
  | pop =>
      simp only [hs] at h
      rw [h.1] at hb
      cases hb
  | finish | done =>
      simp only [hs] at h
      exact h.2 b hb
  | terminated => simp only [hs] at h

/-- Leaving the loop from any point but the removal. -/
theorem AtPc.leave (h : s.AtPc queued) (hpc : s.pc ≠ .pop) :
    AtPc { s with pc := .finish } queued :=
  ⟨h.conserved hpc, fun _ hb => h.pending_first hb⟩

/-- A message put behind the others and accepted keeps the split. -/
theorem AtPc.append (h : s.AtPc queued) (m : List UInt8) :
    AtPc { s with accepted := s.accepted ++ [m] } (queued ++ [m]) := by
  unfold AtPc at h ⊢
  cases hs : s.pc with
  | head | headStop | peek =>
      simp only [hs] at h ⊢
      exact ⟨by rw [← h.1, List.append_assoc], h.2⟩
  | checkAlive getStatus | checkStop getStatus =>
      simp only [hs] at h ⊢
      refine ⟨by rw [← h.1, List.append_assoc], h.2.imp_right fun ⟨hpos, hpending, hfirst⟩ => ?_⟩
      exact ⟨hpos, hpending, by rw [List.head?_append, hfirst, Option.some_or]⟩
  | write =>
      simp only [hs] at h ⊢
      obtain ⟨hall, hpending, hfirst⟩ := h
      exact ⟨by rw [← hall, List.append_assoc], hpending,
        by rw [List.head?_append, hfirst, Option.some_or]⟩
  | pop =>
      simp only [hs] at h ⊢
      obtain ⟨hnone, earlier, first, rest, htaken, hqueued, hall⟩ := h
      exact ⟨hnone, earlier, first, rest ++ [m], htaken, by rw [hqueued, List.cons_append],
        by rw [← hall, List.append_assoc]⟩
  | finish | done =>
      simp only [hs] at h ⊢
      refine ⟨by rw [← h.1, List.append_assoc], fun b hb => ?_⟩
      rw [List.head?_append, h.2 b hb, Option.some_or]
  | terminated => simp only [hs] at h

theorem start_inv {queue : Q} {bound : Nat} (hrel : Rel queue (.empty bound)) :
    Inv Rel (start queue) :=
  ⟨_, hrel, rfl, rfl⟩

/-- The flags play no part in the split. -/
theorem flags_inv (flags : WorkerFlags) (hinv : Inv Rel s) : Inv Rel { s with flags } := hinv

/-- A step that only moves the program point keeps the invariant when the split of the messages is
one for the new point. -/
theorem Inv.move (hinv : Inv Rel s) {pc : WritePc}
    (h : ∀ queued, s.AtPc queued → AtPc { s with pc } queued) : Inv Rel { s with pc } := by
  obtain ⟨a, hrel, hat⟩ := hinv
  exact ⟨a, hrel, h _ hat⟩

/-- Whatever a write returns: nothing changes, the thread leaves with the message still first, or
the source has taken the first message. -/
theorem writeReturns_inv (writeStatus : Int) (hpc : s.pc = .write) (hinv : Inv Rel s) :
    Inv Rel (s.writeReturns writeStatus) := by
  unfold writeReturns
  split
  · exact hinv
  · split
    · exact hinv.move fun queued hat => hat.leave (by rw [hpc]; decide)
    · obtain ⟨a, hrel, hat⟩ := hinv
      simp only [AtPc, hpc] at hat
      obtain ⟨hall, -, hfirst⟩ := hat
      obtain ⟨rest, hqueued⟩ := List.head?_eq_some_iff.mp hfirst
      refine ⟨a, hrel, rfl, s.taken, s.arr.content, rest, rfl, hqueued, ?_⟩
      show (s.taken ++ [s.arr.content]) ++ rest = s.accepted
      rw [← hall, hqueued, List.append_assoc, List.singleton_append]

variable [QueueBase Q]

/-- A `put` of a producer: the message is appended and accepted, or the queue is full. -/
theorem producerPut_inv (hsim : Simulates Q Rel) (m : Message) (hinv : Inv Rel s)
    (hstep : s.step (.producerPut m) = some s') : Inv Rel s' := by
  obtain ⟨a, hrel, hat⟩ := hinv
  obtain ⟨queue, hput, hnext⟩ := hsim.put m hrel
  simp only [step, hput, hsim.getStatus hnext] at hstep
  obtain rfl := Option.some.inj hstep
  refine ⟨_, hnext, ?_⟩
  by_cases hroom : a.fifo.HasRoom
  · rw [MessageFifo.put_room hroom, if_pos rfl, Fifo.push_items hroom, List.map_append]
    exact hat.append m.bytes
  · rw [MessageFifo.put_full hroom, if_neg (fun hfull => by cases hfull)]
    exact hat

/-- Peeking copies the first message whole into the local array. -/
theorem peek_inv (hsim : Simulates Q Rel) (hpc : s.pc = .peek) (hinv : Inv Rel s)
    (hstep : s.writerStep = some s') : Inv Rel s' := by
  obtain ⟨a, hrel, hat⟩ := hinv
  obtain ⟨queue, hpeek, hnext⟩ := hsim.peek connectionWorkerArrSize hrel
  simp only [writerStep, hpc, hpeek] at hstep
  obtain rfl := Option.some.inj hstep
  refine ⟨_, hnext, ?_⟩
  simp only [AtPc, hpc] at hat
  cases hfirst : a.fifo.items.head? with
  | none =>
      simp only [MessageFifo.peek, MessageFifo.look_none _ hfirst, if_true]
      exact ⟨hat.1, .inl ⟨rfl, rfl⟩⟩
  | some m =>
      simp only [MessageFifo.peek, look_whole hfirst]
      refine ⟨hat.1, ?_⟩
      by_cases hempty : m.size = 0
      · exact .inl ⟨hempty, if_pos hempty⟩
      · have hcontent : ((s.arr.store m.bytes).resize m.size).content = m.bytes :=
          s.arr.content_store_resize (Nat.le_of_lt_succ m.fits)
        refine .inr ⟨Nat.pos_of_ne_zero hempty, ?_⟩
        simp only [HoldsFirst, hempty, if_false, hcontent]
        exact ⟨trivial, by rw [List.head?_map, hfirst]; rfl⟩

/-- Removing a message without copying it removes the one that was written. -/
theorem pop_inv (hsim : Simulates Q Rel) (hpc : s.pc = .pop) (hinv : Inv Rel s)
    (hstep : s.writerStep = some s') : Inv Rel s' := by
  obtain ⟨a, hrel, hat⟩ := hinv
  obtain ⟨queue, hget, hnext⟩ := hsim.get 0 hrel
  simp only [writerStep, hpc, hget] at hstep
  obtain rfl := Option.some.inj hstep
  simp only [AtPc, hpc] at hat
  obtain ⟨hnone, earlier, m, rest, -, hqueued, hall⟩ := hat
  refine ⟨_, hnext, ?_, hnone⟩
  show s.taken ++ a.fifo.items.tail.map Message.bytes = s.accepted
  rw [List.map_tail, hqueued, List.tail_cons, hall]

/-- The tests of the two flags at the loop's head. -/
theorem head_inv (hpc : s.pc = .head) (hinv : Inv Rel s) (hstep : s.writerStep = some s') :
    Inv Rel s' := by
  simp only [writerStep, hpc] at hstep
  obtain rfl := Option.some.inj hstep
  apply hinv.move
  intro queued hat
  cases halive : s.flags.readThreadAlive with
  | false => exact hat.leave (by simp [hpc])
  | true =>
      simp only [AtPc, hpc] at hat
      show s.taken ++ queued = s.accepted ∧ s.pending = none
      exact hat

theorem headStop_inv (hpc : s.pc = .headStop) (hinv : Inv Rel s)
    (hstep : s.writerStep = some s') : Inv Rel s' := by
  simp only [writerStep, hpc] at hstep
  obtain rfl := Option.some.inj hstep
  apply hinv.move
  intro queued hat
  cases hasked : s.flags.stopAsked with
  | true => exact hat.leave (by simp [hpc])
  | false =>
      simp only [AtPc, hpc] at hat
      show s.taken ++ queued = s.accepted ∧ s.pending = none
      exact hat

/-- The tests of the two flags behind a `peek`; without a message the loop starts again. -/
theorem checkAlive_inv {getStatus : Nat} (hpc : s.pc = .checkAlive getStatus) (hinv : Inv Rel s)
    (hstep : s.writerStep = some s') : Inv Rel s' := by
  simp only [writerStep, hpc] at hstep
  obtain rfl := Option.some.inj hstep
  apply hinv.move
  intro queued hat
  cases halive : s.flags.readThreadAlive with
  | false => exact hat.leave (by simp [hpc])
  | true =>
      simp only [AtPc, hpc] at hat
      exact hat

theorem checkStop_inv {getStatus : Nat} (hpc : s.pc = .checkStop getStatus) (hinv : Inv Rel s)
    (hstep : s.writerStep = some s') : Inv Rel s' := by
  simp only [writerStep, hpc] at hstep
  obtain rfl := Option.some.inj hstep
  apply hinv.move
  intro queued hat
  cases hasked : s.flags.stopAsked with
  | true => exact hat.leave (by simp [hpc])
  | false =>
      simp only [AtPc, hpc] at hat
      obtain ⟨hall, ⟨rfl, hnone⟩ | ⟨hpos, hfirst⟩⟩ := hat
      · show s.taken ++ queued = s.accepted ∧ s.pending = none
        exact ⟨hall, hnone⟩
      · rw [if_neg (by decide), if_pos hpos]
        exact ⟨hall, hfirst⟩

/-- Every step of the thread keeps the invariant. -/
theorem writerStep_inv (hsim : Simulates Q Rel) (hinv : Inv Rel s)
    (hstep : s.writerStep = some s') : Inv Rel s' := by
  cases hpc : s.pc with
  | head => exact head_inv hpc hinv hstep
  | headStop => exact headStop_inv hpc hinv hstep
  | peek => exact peek_inv hsim hpc hinv hstep
  | checkAlive getStatus => exact checkAlive_inv hpc hinv hstep
  | checkStop getStatus => exact checkStop_inv hpc hinv hstep
  | pop => exact pop_inv hsim hpc hinv hstep
  | finish =>
      simp only [writerStep, hpc] at hstep
      obtain rfl := Option.some.inj hstep
      obtain ⟨a, hrel, hat⟩ := hinv
      simp only [AtPc, hpc] at hat
      exact ⟨a, hrel, hat⟩
  | write | done | terminated => simp [writerStep, hpc] at hstep

/-- Every step of an interleaving keeps the invariant. -/
theorem step_inv (hsim : Simulates Q Rel) (label : WriteLabel) (hinv : Inv Rel s)
    (hstep : s.step label = some s') : Inv Rel s' := by
  cases label with
  | writer => exact writerStep_inv hsim hinv hstep
  | writeReturns writeStatus =>
      obtain ⟨hpc, rfl⟩ := writeReturns_cases hstep
      exact writeReturns_inv writeStatus hpc hinv
  | producerPut m => exact producerPut_inv hsim m hinv hstep
  | stop =>
      obtain rfl := Option.some.inj hstep
      exact flags_inv _ hinv
  | readerDies =>
      obtain rfl := Option.some.inj hstep
      exact flags_inv _ hinv

/-- The invariant holds in every reachable state of a worker whose queue starts empty. -/
theorem reachable_inv (hsim : Simulates Q Rel) {queue : Q} {bound : Nat}
    (hrel : Rel queue (.empty bound)) (h : (machine queue).Reachable s) : Inv Rel s := by
  have hinit : ∀ state, (machine queue).init state → Inv Rel state := by
    intro state hstate
    obtain rfl := hstate
    exact start_inv hrel
  have hstep : ∀ state following label, Inv Rel state →
      (machine queue).step state label = some following → Inv Rel following :=
    fun _ _ label hinv hnext => step_inv hsim label hinv hnext
  exact h.invariant hinit hstep

end WriteState

/-! ## The writing thread over a ring queue -/

/-- With a ring of any number of cells and in every interleaving: at the loop's head, and anywhere
but between a write and the removal that follows it, the messages the source has taken followed by
those in the ring are the accepted ones in order. The removal finds the message that was just taken
at the front of the ring, and a message that was peeked at and not yet taken is still there. -/
theorem write_delivers_once {count cellSize : Nat} {s : WriteState RingQueue}
    (hcount : count < 2 ^ 32)
    (h : (WriteState.machine (RingQueue.new count cellSize)).Reachable s) :
    (s.pc ≠ .pop → s.taken ++ s.queue.contents = s.accepted) ∧
      (s.pc = .pop → ∃ m, s.taken.getLast? = some m ∧ s.queue.contents.head? = some m ∧
        s.taken ++ s.queue.contents.tail = s.accepted) ∧
      ∀ b, s.pending = some b → s.queue.contents.head? = some b := by
  obtain ⟨a, hrel, hat⟩ :=
    WriteState.reachable_inv ring_simulates (Represents.new count cellSize hcount) h
  rw [hrel.contents]
  refine ⟨hat.conserved, fun hpc => ?_, fun b => hat.pending_first⟩
  simp only [WriteState.AtPc, hpc] at hat
  obtain ⟨-, earlier, m, rest, htaken, hqueued, hall⟩ := hat
  refine ⟨m, ?_, ?_, ?_⟩
  · rw [htaken, List.getLast?_concat]
  · rw [hqueued, List.head?_cons]
  · rw [hqueued, List.tail_cons, hall]

/-- The first of two messages was written and removed; the write of the second one failed. -/
theorem write_delivers_once_failed : ∃ s,
    (WriteState.machine (RingQueue.new 2 4)).Reachable s ∧ s.pc = .done ∧ s.taken = [[1, 2]] ∧
      s.queue.contents.head? = some [3] := by
  have hrun : ((WriteState.machine (RingQueue.new 2 4)).run
      [.producerPut ⟨[1, 2], by decide⟩, .producerPut ⟨[3], by decide⟩,
        .writer, .writer, .writer, .writer, .writer, .writeReturns 0, .writeReturns 2, .writer,
        .writer, .writer, .writer, .writer, .writer, .writeReturns (-1), .writer]
      (WriteState.start (RingQueue.new 2 4))).map (fun s => (s.pc, s.taken, s.pending)) =
        some (.done, [[1, 2]], some [3]) := by
    decide +kernel
  obtain ⟨s, hs, hfields⟩ := Option.map_eq_some_iff.mp hrun
  obtain ⟨hpc, htaken, hpending⟩ : s.pc = .done ∧ s.taken = [[1, 2]] ∧ s.pending = some [3] := by
    simpa using hfields
  have hreach := Machine.reachable_of_run _ rfl hs
  exact ⟨s, hreach, hpc, htaken,
    (write_delivers_once (by decide) hreach).2.2 [3] hpending⟩

end Shovel.Workers
