import Shovel.Workers.Destruction
import Shovel.Workers.ReadStop

/-!
# Whether a destruction ends

`~ConnectionWorker` asks for the stop and joins the guard thread, which joins the
two threads. The object is one of the base class by then, so a call of
`write_data_to_source` that begins is one of `ConnectionWorker::write_data_to_source`,
which clears the array and returns zero, and zero makes `thread_write_to_source`
call again. A writing thread that stands at a call and is not inside one on the
socket never leaves it, and the destructor never returns (`Wedged`). In every other
state the threads, the guard thread and the destructor lead to the end of the
destruction, and their own steps are bounded.
-/

namespace Shovel.Workers

open Containers Parsers Transition

/-! ## The two threads once they are told to leave their loops -/

/-- A stop has been asked for, or one of the threads has returned. -/
def WorkerFlags.Down (flags : WorkerFlags) : Prop :=
  flags.stopAsked = true ∨ flags.readThreadAlive = false ∨ flags.writeThreadAlive = false

theorem WorkerFlags.Down.later {flags flags' : WorkerFlags} (h : flags.Down)
    (hlater : flags.Later flags') : flags'.Down :=
  h.imp hlater.stop (Or.imp hlater.readDead hlater.writeDead)

namespace ReadState

variable {Q : Type} [QueueBase Q] {s s' : ReadState Q}

/-- The thread's flag is false when it has returned. -/
theorem own_dead {onSocket : Bool} {label : ReadLabel} (hown : label.isOwn onSocket = true)
    (hstep : s.step label = some s') (hdead : s'.flags.readThreadAlive = false) :
    s.flags.readThreadAlive = false ∨ s'.pc = .done := by
  cases label with
  | reader =>
      have hown : s.readerStep = some s' := hstep
      cases hpc : s.pc with
      | finish =>
          simp only [ReadState.readerStep, hpc] at hown
          obtain rfl := Option.some.inj hown
          exact .inr rfl
      | parse | put kg rest =>
          simp only [ReadState.readerStep, hpc] at hown
          repeat' split at hown
          all_goals
            obtain rfl := Option.some.inj hown
            exact .inl hdead
      | forLoop rest =>
          cases rest with
          | nil | cons kg rest =>
              simp only [ReadState.readerStep, hpc] at hown
              obtain rfl := Option.some.inj hown
              exact .inl hdead
      | read | done | undefined | terminated => simp [ReadState.readerStep, hpc] at hown
      | _ =>
          simp only [ReadState.readerStep, hpc] at hown
          obtain rfl := Option.some.inj hown
          exact .inl hdead
  | readReturns result =>
      obtain ⟨-, rfl⟩ := readReturns_cases hstep
      rw [s.readReturns_flags result] at hdead
      exact .inl hdead
  | consumerGet =>
      rw [(consumerGet_frame hstep).2] at hdead
      exact .inl hdead
  | stop | writerDies => cases hown

end ReadState

/-- The steps that are left to a writing thread that is told to leave its loop, by a stop if `asked`
and by the death of the reading thread else; calls that return zero apart. -/
def WritePc.stopRank (asked : Bool) : WritePc → Nat
  | .checkStop _ => if asked then 2 else 6
  | .write => 5
  | .pop | .peek => 4
  | .head | .checkAlive _ => 3
  | .headStop => if asked then 2 else 5
  | .finish => 1
  | .done | .terminated => 0

namespace WritePc

/-- However much is left, it is at most this. -/
theorem left_le (asked : Bool) (pc : WritePc) : pc.stopRank asked ≤ if asked then 5 else 6 := by
  cases pc <;> cases asked <;> simp [stopRank]

/-- Asking for a stop leaves no more to do than before. -/
theorem left_asked (asked : Bool) (pc : WritePc) : pc.stopRank true ≤ pc.stopRank asked := by
  cases pc <;> cases asked <;> simp [stopRank]

end WritePc

namespace WriteState

variable {Q : Type} {s s' : WriteState Q} {Rel : Q → MessageFifo → Prop}

/-- The queue behaves like a bounded list of messages, and none of its calls has ended in an
exception. -/
structure Backed (Rel : Q → MessageFifo → Prop) (s : WriteState Q) : Prop where
  queue : ∃ a, Rel s.queue a
  caught : s.pc ≠ .terminated

/-- Whatever a write returns, the thread is not farther from its end than before. -/
theorem writeReturns_rank (s : WriteState Q) (writeStatus : Int) (hpc : s.pc = .write)
    (asked : Bool) :
    (s.writeReturns writeStatus).pc.stopRank asked ≤ s.pc.stopRank asked ∧
      (s.writeReturns writeStatus).queue = s.queue ∧
      (s.writeReturns writeStatus).pc ≠ .terminated := by
  unfold writeReturns
  repeat' split
  all_goals simp [hpc, WritePc.stopRank]

variable [QueueBase Q]

/-- The calls of the thread and of the producers keep the queue well behaved. -/
theorem Backed.step (hsim : Simulates Q Rel) {label : WriteLabel} (h : Backed Rel s)
    (hstep : s.step label = some s') : Backed Rel s' := by
  obtain ⟨⟨a, hrel⟩, hcaught⟩ := h
  cases label with
  | writer =>
      have hown : s.writerStep = some s' := hstep
      cases hpc : s.pc with
      | peek =>
          obtain ⟨queue, hpeek, hnext⟩ := hsim.peek connectionWorkerArrSize hrel
          simp only [writerStep, hpc, hpeek] at hown
          obtain rfl := Option.some.inj hown
          exact ⟨⟨_, hnext⟩, by simp⟩
      | pop =>
          obtain ⟨queue, hget, hnext⟩ := hsim.get 0 hrel
          simp only [writerStep, hpc, hget] at hown
          obtain rfl := Option.some.inj hown
          exact ⟨⟨_, hnext⟩, by simp⟩
      | write | done | terminated => simp [writerStep, hpc] at hown
      | finish =>
          simp only [writerStep, hpc] at hown
          obtain rfl := Option.some.inj hown
          exact ⟨⟨a, hrel⟩, by simp⟩
      | _ =>
          simp only [writerStep, hpc] at hown
          obtain rfl := Option.some.inj hown
          refine ⟨⟨a, hrel⟩, ?_⟩
          repeat' split
          all_goals simp
  | writeReturns writeStatus =>
      obtain ⟨hpc, rfl⟩ := writeReturns_cases hstep
      obtain ⟨-, hqueue, hcaught'⟩ := s.writeReturns_rank writeStatus hpc true
      exact ⟨⟨a, by rw [hqueue]; exact hrel⟩, hcaught'⟩
  | producerPut m =>
      obtain ⟨queue, hput, hnext⟩ := hsim.put m hrel
      simp only [WriteState.step, hput] at hstep
      obtain rfl := Option.some.inj hstep
      exact ⟨⟨_, hnext⟩, hcaught⟩
  | stop | readerDies =>
      obtain rfl := Option.some.inj hstep
      exact ⟨⟨a, hrel⟩, hcaught⟩

/-- Each step of a thread that is told to leave its loop brings it nearer to its end. -/
theorem writerStep_rank (hstopped : s.flags.stopAsked = true ∨ s.flags.readThreadAlive = false)
    (hstep : s.writerStep = some s') :
    s'.pc.stopRank s.flags.stopAsked < s.pc.stopRank s.flags.stopAsked := by
  have hdead : s.flags.stopAsked = false → s.flags.readThreadAlive = false := fun hasked =>
    hstopped.resolve_left (by simp [hasked])
  cases hpc : s.pc with
  | peek | pop =>
      simp only [writerStep, hpc] at hstep
      split at hstep
      all_goals
        obtain rfl := Option.some.inj hstep
        simp [WritePc.stopRank]
  | write | done | terminated => simp [writerStep, hpc] at hstep
  | finish =>
      simp only [writerStep, hpc] at hstep
      obtain rfl := Option.some.inj hstep
      simp [WritePc.stopRank]
  | head | headStop | checkAlive getStatus =>
      simp only [writerStep, hpc] at hstep
      obtain rfl := Option.some.inj hstep
      -- which flag it is that stops the thread decides where a test leads
      cases hasked : s.flags.stopAsked with
      | true => cases halive : s.flags.readThreadAlive <;> simp [WritePc.stopRank]
      | false => simp [WritePc.stopRank, hdead hasked]
  | checkStop getStatus =>
      simp only [writerStep, hpc] at hstep
      obtain rfl := Option.some.inj hstep
      cases hasked : s.flags.stopAsked with
      | true => simp [WritePc.stopRank]
      | false => by_cases hsome : 0 < getStatus <;> simp [WritePc.stopRank, hsome]

/-- The thread's flag is false when it has returned. -/
theorem own_dead {onSocket : Bool} {label : WriteLabel} (hown : label.isOwn onSocket = true)
    (hstep : s.step label = some s') (hdead : s'.flags.writeThreadAlive = false) :
    s.flags.writeThreadAlive = false ∨ s'.pc = .done := by
  cases label with
  | writer =>
      have hown : s.writerStep = some s' := hstep
      cases hpc : s.pc with
      | finish =>
          simp only [writerStep, hpc] at hown
          obtain rfl := Option.some.inj hown
          exact .inr rfl
      | peek | pop =>
          simp only [writerStep, hpc] at hown
          split at hown
          all_goals
            obtain rfl := Option.some.inj hown
            exact .inl hdead
      | write | done | terminated => simp [writerStep, hpc] at hown
      | head | headStop | checkAlive getStatus | checkStop getStatus =>
          simp only [writerStep, hpc] at hown
          obtain rfl := Option.some.inj hown
          exact .inl hdead
  | writeReturns writeStatus =>
      obtain ⟨-, rfl⟩ := writeReturns_cases hstep
      rw [(s.writeReturns_frame writeStatus).2] at hdead
      exact .inl hdead
  | producerPut m =>
      rw [(producerPut_frame hstep).2] at hdead
      exact .inl hdead
  | stop | readerDies => cases hown

/-- Only at a write and at its end the thread has no next step. -/
theorem writerStep_enabled (s : WriteState Q) (hwrite : s.pc ≠ .write) (hdone : s.pc ≠ .done)
    (hcaught : s.pc ≠ .terminated) : ∃ s', s.writerStep = some s' := by
  cases hpc : s.pc with
  | write => exact absurd hpc hwrite
  | done => exact absurd hpc hdone
  | terminated => exact absurd hpc hcaught
  | peek | pop =>
      simp only [writerStep, hpc]
      split
      all_goals exact ⟨_, rfl⟩
  | _ => exact ⟨_, by simp only [writerStep, hpc]; rfl⟩

end WriteState

/-! ## A worker behind the stop -/

/-- The steps that are left to the guard thread. -/
def GuardPc.rank : GuardPc → Nat
  | .joinRead => 4
  | .joinWrite => 3
  | .setStopped => 2
  | .callback => 1
  | .done => 0

/-- The steps that are left to the owner. -/
def OwnerPc.rank : OwnerPc → Nat
  | .owning => 4
  | .released => 3
  | .baseDestructor => 2
  | .joinGuard => 1
  | .destroyed => 0

/-- What is left of the call that the thread stands at: its beginning and its return. -/
def ReadPc.callsLeft (busy : Bool) : ReadPc → Nat
  | .read => if busy then 1 else 2
  | _ => 0

/-- The same for the writing thread. -/
def WritePc.callsLeft (busy : Bool) : WritePc → Nat
  | .write => if busy then 1 else 2
  | _ => 0

/-- The steps of the two threads alone, with the beginnings and the returns of their calls. -/
def WorkerLabel.isThread : WorkerLabel → Bool
  | .read .reader | .read (.readReturns _) | .readBegins => true
  | .write .writer | .write (.writeReturns _) | .writeBegins => true
  | _ => false

namespace Worker

variable {Q R : Type} {s s' : Worker Q R}
variable {RelQ : Q → MessageFifo → Prop} {RelR : R → MessageFifo → Prop}

/-- The writing thread stands at a call and is not inside one on the socket. -/
def Wedged (s : Worker Q R) : Prop :=
  s.writer.state.pc = .write ∧ ¬ (s.writer.busy = true ∧ s.writeOnSocket = true)

/-- A step of one of the two threads themselves, of the guard thread or of the owner. The beginnings
and returns of calls are not counted: as long as the writes return zero, there is no bound on
these. -/
def ownStep (_ : Worker Q R) : WorkerLabel → Nat
  | .read .reader | .write .writer | .guard | .owner => 1
  | _ => 0

/-- These steps, as far as they are left to threads that are told to leave their loops. -/
def stepsLeft (s : Worker Q R) : Nat :=
  s.reader.state.stepsLeft + s.writer.state.pc.stopRank s.reader.state.flags.stopAsked +
    s.guard.rank + s.owner.rank

/-- The threads and the guard thread have at most twenty steps left, nineteen behind a stop. -/
theorem stepsLeft_le (s : Worker Q R) :
    s.stepsLeft ≤ (if s.reader.state.flags.stopAsked then 19 else 20) + s.owner.rank := by
  have hreader := (s.reader.state.pc.left_le s.reader.state.flags.stopAsked
    s.reader.state.flags.writeThreadAlive).1
  have hwriter := s.writer.state.pc.left_le s.reader.state.flags.stopAsked
  have hguard : s.guard.rank ≤ 4 := by
    cases s.guard <;> simp [GuardPc.rank]
  simp only [stepsLeft, ReadState.stepsLeft]
  split at hwriter
  · rename_i hasked
    rw [if_pos hasked]
    omega
  · rename_i hasked
    rw [if_neg hasked]
    omega

/-- A thread whose flag is false has returned. -/
structure Returned (s : Worker Q R) : Prop where
  read : s.reader.state.flags.readThreadAlive = false → s.reader.state.pc = .done
  write : s.reader.state.flags.writeThreadAlive = false → s.writer.state.pc = .done

/-- What every run keeps. -/
structure Kept (RelQ : Q → MessageFifo → Prop) (RelR : R → MessageFifo → Prop) (s : Worker Q R) :
    Prop where
  inv : s.Inv
  joined : s.Joined
  returned : s.Returned
  read : s.reader.state.Backed RelQ
  write : s.writer.state.Backed RelR
  asked : s.owner = .joinGuard ∨ s.owner = .destroyed → s.reader.state.flags.stopAsked = true

/-- The stop and the death of a thread leave no more to do. -/
theorem stepsLeft_setFlags {flags : WorkerFlags}
    (h : flags = s.reader.state.flags ∨
      flags = { s.reader.state.flags with stopAsked := true } ∨
      flags = { s.reader.state.flags with writeThreadAlive := false }) :
    (s.setFlags flags).stepsLeft ≤ s.stepsLeft := by
  simp only [stepsLeft, setFlags, ReadState.stepsLeft]
  obtain rfl | rfl | rfl := h
  · exact Nat.le_refl _
  · have hreader := (s.reader.state.pc.left_asked s.reader.state.flags.stopAsked
      s.reader.state.flags.writeThreadAlive).1
    have hwriter := s.writer.state.pc.left_asked s.reader.state.flags.stopAsked
    simp only
    omega
  · have hreader := s.reader.state.pc.left_dead s.reader.state.flags.stopAsked
      s.reader.state.flags.writeThreadAlive
    simp only
    omega

/-- The guard thread takes one of its steps. -/
theorem guardStep_rank (h : s.guardStep = some s') :
    ∃ guard stopped, guard.rank + 1 = s.guard.rank ∧ s' = { s with guard, stopped } := by
  cases hguard : s.guard with
  | joinRead | joinWrite =>
      simp only [guardStep, hguard] at h
      split at h
      · exact ⟨_, _, rfl, (Option.some.inj h).symm⟩
      · cases h
  | setStopped | callback =>
      simp only [guardStep, hguard] at h
      exact ⟨_, _, rfl, (Option.some.inj h).symm⟩
  | done => simp [guardStep, hguard] at h

/-- The owner takes one of its steps. -/
theorem ownerStep_rank (h : s.ownerStep = some s') :
    ∃ owner, owner.rank + 1 = s.owner.rank ∧
      (s' = { s with owner } ∨ s' = { s.askStop with owner }) := by
  cases howner : s.owner with
  | owning | released =>
      simp only [ownerStep, howner] at h
      exact ⟨_, rfl, .inl (Option.some.inj h).symm⟩
  | baseDestructor =>
      simp only [ownerStep, howner] at h
      exact ⟨_, rfl, .inr (Option.some.inj h).symm⟩
  | joinGuard =>
      simp only [ownerStep, howner] at h
      split at h
      · exact ⟨_, rfl, .inl (Option.some.inj h).symm⟩
      · cases h
  | destroyed => simp [ownerStep, howner] at h

section Steps

variable [QueueBase Q] [QueueBase R] {parts : WorkerParts Q R} {label : WorkerLabel}

/-- A step of the writing side but for the array: its state, its mark and the flags it leaves. -/
theorem write_summary {label : WriteLabel} (h : s.step parts (.write label) = some s') :
    label.isOwn s.writeOnSocket = true ∧ (label.isReturn = true → s.writer.busy = true) ∧
      ∃ state, s.writer.state.step label = some state ∧
        s'.writer.state.pc = state.pc ∧ s'.writer.state.queue = state.queue ∧
        s'.writer.busy = (s.writer.busy && !label.isReturn) ∧
        s' = { (s.setFlags state.flags) with writer := s'.writer } := by
  obtain ⟨hown, writer, hstep, rfl | ⟨-, rfl⟩⟩ := write_cases h
  all_goals
    obtain ⟨hbusy, hnext, hmark⟩ := Machine.splitCalls_other hstep
    exact ⟨hown, hbusy, writer.state, hnext, rfl, rfl, hmark, rfl⟩

/-- Only the guard thread's own steps move it and set `m_stopped`. -/
theorem guard_frame (hlabel : label ≠ .guard) (h : s.step parts label = some s') :
    s'.guard = s.guard ∧ s'.stopped = s.stopped := by
  cases label with
  | readBegins =>
      obtain ⟨-, rfl⟩ := readBegins_cases h
      exact ⟨rfl, rfl⟩
  | read label =>
      obtain ⟨-, reader, -, rfl⟩ := read_cases h
      exact ⟨rfl, rfl⟩
  | writeBegins =>
      obtain ⟨-, rfl⟩ := writeBegins_cases h
      exact ⟨rfl, rfl⟩
  | write label =>
      obtain ⟨-, writer, -, rfl | ⟨-, rfl⟩⟩ := write_cases h
      all_goals exact ⟨rfl, rfl⟩
  | stop =>
      obtain rfl := stop_cases h
      exact ⟨rfl, rfl⟩
  | guard => exact absurd rfl hlabel
  | owner =>
      obtain ⟨owner, -, rfl | rfl⟩ := ownerStep_cases h
      all_goals exact ⟨rfl, rfl⟩

/-- The flags only change to the side on which the threads leave. -/
theorem step_later (hinv : s.Inv) (h : s.step parts label = some s') :
    s.reader.state.flags.Later s'.reader.state.flags := by
  cases label with
  | readBegins =>
      obtain ⟨-, rfl⟩ := readBegins_cases h
      exact s.reader.state.flags.later_refl
  | read label =>
      obtain ⟨hown, reader, hstep, rfl⟩ := read_cases h
      exact ReadState.own_later hown (Machine.splitCalls_other hstep).2.1
  | writeBegins =>
      obtain ⟨-, rfl⟩ := writeBegins_cases h
      exact s.reader.state.flags.later_refl
  | write label =>
      obtain ⟨hown, -, state, hnext, -, -, -, hs'⟩ := write_summary h
      rw [hs', ← hinv.sameFlags]
      exact WriteState.own_later hown hnext
  | stop =>
      obtain rfl := stop_cases h
      exact s.reader.state.flags.later_stop
  | guard =>
      obtain ⟨guard, stopped, rfl⟩ := guardStep_cases h
      exact s.reader.state.flags.later_refl
  | owner =>
      obtain ⟨owner, -, rfl | rfl⟩ := ownerStep_cases h
      · exact s.reader.state.flags.later_refl
      · exact s.reader.state.flags.later_stop

/-- A thread whose flag is false stays at its end, and a flag that becomes false is that of a thread
that returns. -/
theorem Returned.step (hinv : s.Inv) (hreturned : s.Returned)
    (h : s.step parts label = some s') : s'.Returned := by
  cases label with
  | readBegins =>
      obtain ⟨-, rfl⟩ := readBegins_cases h
      exact ⟨hreturned.read, hreturned.write⟩
  | read label =>
      obtain ⟨hown, reader, hstep, rfl⟩ := read_cases h
      obtain ⟨-, hnext, -⟩ := Machine.splitCalls_other hstep
      refine ⟨fun hdead => ?_, fun hdead => hreturned.write ?_⟩
      · obtain hbefore | hdone := ReadState.own_dead hown hnext hdead
        · exact ReadState.done_stays (hreturned.read hbefore) hown hnext
        · exact hdone
      · have hflags : reader.state.flags.writeThreadAlive =
            s.reader.state.flags.writeThreadAlive := by
          obtain hsame | hsame := ReadState.own_flags hown hnext
          all_goals rw [hsame]
        exact hflags.symm.trans hdead
  | writeBegins =>
      obtain ⟨-, rfl⟩ := writeBegins_cases h
      exact ⟨hreturned.read, hreturned.write⟩
  | write label =>
      obtain ⟨hown, -, state, hnext, hpc, -, -, hs'⟩ := write_summary h
      have hflags : s'.reader.state.flags = state.flags := by
        rw [hs']
        rfl
      refine ⟨fun hdead => ?_, fun hdead => ?_⟩
      · have hsame : state.flags.readThreadAlive = s.writer.state.flags.readThreadAlive := by
          obtain hsame | hsame := WriteState.own_flags hown hnext
          all_goals rw [hsame]
        have hreader : s'.reader.state.pc = s.reader.state.pc := by
          rw [hs']
          rfl
        rw [hflags, hsame, hinv.sameFlags] at hdead
        exact hreader.trans (hreturned.read hdead)
      · rw [hflags] at hdead
        rw [hpc]
        obtain hbefore | hdone := WriteState.own_dead hown hnext hdead
        · rw [hinv.sameFlags] at hbefore
          exact WriteState.done_stays (hreturned.write hbefore) hown hnext
        · exact hdone
  | stop =>
      obtain rfl := stop_cases h
      exact ⟨hreturned.read, hreturned.write⟩
  | guard =>
      obtain ⟨guard, stopped, rfl⟩ := guardStep_cases h
      exact ⟨hreturned.read, hreturned.write⟩
  | owner =>
      obtain ⟨owner, -, rfl | rfl⟩ := ownerStep_cases h
      all_goals exact ⟨hreturned.read, hreturned.write⟩

/-- A thread whose flag is false has returned, in every reachable state. -/
theorem reachable_returned (h : (machine parts).Reachable s) : s.Returned := by
  have hinit : ∀ s, (machine parts).init s → s.Inv ∧ s.Returned := by
    rintro s rfl
    exact ⟨reachable_inv (.start rfl), fun hdead => (by cases hdead), fun hdead => by cases hdead⟩
  have hkept : ∀ s s' label, s.Inv ∧ s.Returned → (machine parts).step s label = some s' →
      s'.Inv ∧ s'.Returned :=
    fun _ _ _ ⟨hinv, hreturned⟩ hstep => ⟨hinv.step hstep, hreturned.step hinv hstep⟩
  exact (h.invariant hinit hkept).2

/-- The destructor waits for the guard thread behind the stop only. -/
theorem asked_step (hinv : s.Inv)
    (hasked : s.owner = .joinGuard ∨ s.owner = .destroyed → s.reader.state.flags.stopAsked = true)
    (h : s.step parts label = some s') (howner : s'.owner = .joinGuard ∨ s'.owner = .destroyed) :
    s'.reader.state.flags.stopAsked = true := by
  by_cases hlabel : label = .owner
  · subst hlabel
    have hown : s.ownerStep = some s' := h
    cases hbefore : s.owner with
    | owning | released =>
        simp only [ownerStep, hbefore] at hown
        obtain rfl := Option.some.inj hown
        rcases howner with howner | howner <;> cases howner
    | baseDestructor =>
        simp only [ownerStep, hbefore] at hown
        obtain rfl := Option.some.inj hown
        rfl
    | joinGuard | destroyed => exact (step_later hinv h).stop (hasked (by simp [hbefore]))
  · rw [owner_frame hlabel h] at howner
    exact (step_later hinv h).stop (hasked howner)

/-- Every step keeps both queues well behaved and their exceptions caught. -/
theorem backed_step (hsimQ : Simulates Q RelQ) (hsimR : Simulates R RelR)
    (hread : s.reader.state.Backed RelQ) (hwrite : s.writer.state.Backed RelR)
    (h : s.step parts label = some s') :
    s'.reader.state.Backed RelQ ∧ s'.writer.state.Backed RelR := by
  cases label with
  | readBegins =>
      obtain ⟨-, rfl⟩ := readBegins_cases h
      exact ⟨⟨hread.queue, hread.caught⟩, hwrite⟩
  | read label =>
      obtain ⟨-, reader, hstep, rfl⟩ := read_cases h
      have hnext := hread.step hsimQ (Machine.splitCalls_other hstep).2.1
      exact ⟨⟨hnext.queue, hnext.caught⟩, hwrite.queue, hwrite.caught⟩
  | writeBegins =>
      obtain ⟨-, rfl⟩ := writeBegins_cases h
      exact ⟨hread, hwrite.queue, hwrite.caught⟩
  | write label =>
      obtain ⟨-, -, state, hnext, hpc, hqueue, -, hs'⟩ := write_summary h
      have hbacked := hwrite.step hsimR hnext
      refine ⟨?_, by rw [hqueue]; exact hbacked.queue, by rw [hpc]; exact hbacked.caught⟩
      rw [hs']
      exact ⟨hread.queue, hread.caught⟩
  | stop =>
      obtain rfl := stop_cases h
      exact ⟨⟨hread.queue, hread.caught⟩, hwrite.queue, hwrite.caught⟩
  | guard =>
      obtain ⟨guard, stopped, rfl⟩ := guardStep_cases h
      exact ⟨hread, hwrite⟩
  | owner =>
      obtain ⟨owner, -, rfl | rfl⟩ := ownerStep_cases h
      all_goals exact ⟨⟨hread.queue, hread.caught⟩, hwrite.queue, hwrite.caught⟩

/-- Every step keeps what every run keeps. -/
theorem Kept.step (hsimQ : Simulates Q RelQ) (hsimR : Simulates R RelR)
    (hkept : s.Kept RelQ RelR) (h : s.step parts label = some s') : s'.Kept RelQ RelR := by
  obtain ⟨hread, hwrite⟩ := backed_step hsimQ hsimR hkept.read hkept.write h
  exact ⟨hkept.inv.step h, hkept.joined.step h, hkept.returned.step hkept.inv h, hread, hwrite,
    asked_step hkept.inv hkept.asked h⟩

/-- What every run keeps holds in every reachable state. -/
theorem reachable_kept (hsimQ : Simulates Q RelQ) (hsimR : Simulates R RelR)
    {aQ aR : MessageFifo} (hrelQ : RelQ parts.readQueue aQ) (hrelR : RelR parts.writeQueue aR)
    (h : (machine parts).Reachable s) : s.Kept RelQ RelR := by
  have hinit : ∀ s, (machine parts).init s → s.Kept RelQ RelR := by
    rintro s rfl
    refine ⟨reachable_inv (.start rfl), ⟨fun hjoin => absurd rfl hjoin,
      fun hjoin => absurd rfl hjoin, fun hdestroyed => by cases hdestroyed⟩,
      reachable_returned (.start rfl), ⟨⟨aQ, hrelQ⟩, by simp [start, ReadState.start]⟩,
      ⟨⟨aR, hrelR⟩, by simp [start, WriteState.start]⟩, ?_⟩
    rintro (howner | howner) <;> cases howner
  exact h.invariant hinit fun _ _ _ hkept hstep => hkept.step hsimQ hsimR hstep

omit [QueueBase R] in
/-- What is left to the reading thread pays for its steps. One that has returned makes none. -/
theorem read_pays {label : ReadLabel} {state : ReadState Q} (hreturned : s.Returned)
    (hdown : s.reader.state.flags.Down) (hown : label.isOwn s.readOnSocket = true)
    (hnext : s.reader.state.step label = some state) :
    state.stepsLeft + s.ownStep (.read label) ≤ s.reader.state.stepsLeft := by
  have hsame : s.ownStep (.read label) = s.reader.state.ownStep label := by
    cases label <;> rfl
  rw [hsame]
  by_cases hdone : s.reader.state.pc = .done
  · have hdone' : state.pc = .done := ReadState.done_stays hdone hown hnext
    have hnone : s.reader.state.ownStep label = 0 := by
      cases label with
      | reader => simp [ReadState.step, ReadState.readerStep, hdone] at hnext
      | _ => rfl
    simp [ReadState.stepsLeft, hdone, hdone', hnone, ReadPc.stopRank]
  · have hstopped : s.reader.state.Stopped :=
      hdown.imp_right fun hdead => hdead.resolve_left fun hread => hdone (hreturned.read hread)
    exact (ReadState.step_pays hstopped hnext).2.1

omit [QueueBase Q] in
/-- The writing thread gets on with its steps. One that has returned makes none. -/
theorem write_rank {label : WriteLabel} {state : WriteState R} (hinv : s.Inv)
    (hreturned : s.Returned) (hdown : s.reader.state.flags.Down)
    (hown : label.isOwn s.writeOnSocket = true)
    (hnext : s.writer.state.step label = some state) :
    state.pc.stopRank s.reader.state.flags.stopAsked + s.ownStep (.write label) ≤
      s.writer.state.pc.stopRank s.reader.state.flags.stopAsked := by
  cases label with
  | writer =>
      have hrunning : s.writer.state.pc ≠ .done := by
        intro hdone
        simp [WriteState.step, WriteState.writerStep, hdone] at hnext
      have hstopped : s.writer.state.flags.stopAsked = true ∨
          s.writer.state.flags.readThreadAlive = false := by
        rw [hinv.sameFlags]
        exact hdown.imp_right fun hdead =>
          hdead.resolve_right fun hwrite => hrunning (hreturned.write hwrite)
      rw [← hinv.sameFlags]
      exact WriteState.writerStep_rank hstopped hnext
  | writeReturns writeStatus =>
      obtain ⟨hwrite, rfl⟩ := WriteState.writeReturns_cases hnext
      exact (s.writer.state.writeReturns_rank writeStatus hwrite _).1
  | producerPut m =>
      rw [(WriteState.producerPut_frame hnext).1]
      exact Nat.le_refl _
  | stop | readerDies => cases hown

/-- What is left pays for a step of the writing thread, whose flags leave the reading thread no more
steps than before. -/
theorem write_pays {label : WriteLabel} (hinv : s.Inv) (hreturned : s.Returned)
    (hdown : s.reader.state.flags.Down) (h : s.step parts (.write label) = some s') :
    s'.stepsLeft + s.ownStep (.write label) ≤ s.stepsLeft := by
  obtain ⟨hown, -, state, hnext, hpc, -, -, hs'⟩ := write_summary h
  have hrank := write_rank hinv hreturned hdown hown hnext
  have hcases := WriteState.own_flags hown hnext
  rw [hinv.sameFlags] at hcases
  have hreader : (s.setFlags state.flags).stepsLeft ≤ s.stepsLeft :=
    stepsLeft_setFlags (hcases.imp_right .inr)
  have hasked : state.flags.stopAsked = s.reader.state.flags.stopAsked := by
    obtain hsame | hsame := hcases
    all_goals rw [hsame]
  have hothers : s'.stepsLeft + s.writer.state.pc.stopRank s.reader.state.flags.stopAsked =
      (s.setFlags state.flags).stepsLeft + state.pc.stopRank s.reader.state.flags.stopAsked := by
    rw [hs']
    simp only [stepsLeft, setFlags, hpc, hasked]
    omega
  omega

/-- Once the threads are told to leave their loops, what is left pays for every step. -/
theorem step_pays (hinv : s.Inv) (hreturned : s.Returned) (hdown : s.reader.state.flags.Down)
    (h : s.step parts label = some s') :
    s'.reader.state.flags.Down ∧ s'.stepsLeft + s.ownStep label ≤ s.stepsLeft := by
  refine ⟨hdown.later (step_later hinv h), ?_⟩
  cases label with
  | readBegins =>
      obtain ⟨-, rfl⟩ := readBegins_cases h
      exact Nat.le_refl _
  | read label =>
      obtain ⟨hown, reader, hstep, rfl⟩ := read_cases h
      have hnext := (Machine.splitCalls_other hstep).2.1
      have hpays : reader.state.stepsLeft + s.ownStep (.read label) ≤ s.reader.state.stepsLeft :=
        read_pays hreturned hdown hown hnext
      have hasked : reader.state.flags.stopAsked = s.reader.state.flags.stopAsked := by
        obtain hsame | hsame := ReadState.own_flags hown hnext
        all_goals rw [hsame]
      simp only [stepsLeft, setFlags, ReadState.stepsLeft, hasked] at hpays ⊢
      omega
  | writeBegins =>
      obtain ⟨-, rfl⟩ := writeBegins_cases h
      exact Nat.le_refl _
  | write label => exact write_pays hinv hreturned hdown h
  | stop =>
      obtain rfl := stop_cases h
      exact stepsLeft_setFlags (.inr (.inl rfl))
  | guard =>
      obtain ⟨guard, stopped, hrank, rfl⟩ := guardStep_rank h
      simp only [stepsLeft, ownStep]
      omega
  | owner =>
      obtain ⟨owner, hrank, rfl | rfl⟩ := ownerStep_rank h
      · simp only [stepsLeft, ownStep]
        omega
      · have hstop : s.askStop.stepsLeft ≤ s.stepsLeft := stepsLeft_setFlags (.inr (.inl rfl))
        have howner : stepsLeft { s.askStop with owner } + s.owner.rank =
            s.askStop.stepsLeft + owner.rank := by
          simp only [stepsLeft, askStop, setFlags]
          omega
        show stepsLeft { s.askStop with owner } + 1 ≤ s.stepsLeft
        omega

/-! ## A destruction that never ends -/

/-- A writing thread that is wedged when the object is one of the base class stays so: the calls
that it begins return zero, and it begins the next one. -/
theorem Wedged.step (hwedged : s.Wedged) (hbase : s.owner.isDerived = false)
    (h : s.step parts label = some s') : s'.Wedged ∧ s'.owner.isDerived = false := by
  obtain ⟨hpc, hoff⟩ := hwedged
  cases label with
  | readBegins =>
      obtain ⟨-, rfl⟩ := readBegins_cases h
      exact ⟨⟨hpc, hoff⟩, hbase⟩
  | read label =>
      obtain ⟨-, reader, -, rfl⟩ := read_cases h
      exact ⟨⟨hpc, hoff⟩, hbase⟩
  | writeBegins =>
      obtain ⟨-, rfl⟩ := writeBegins_cases h
      exact ⟨⟨hpc, fun hcall => by simp [hbase] at hcall⟩, hbase⟩
  | write label =>
      obtain ⟨hown, hbusy, state, hnext, hpc', -, hmark, hs'⟩ := write_summary h
      have hbase' : s'.owner.isDerived = false := by
        rw [hs']
        exact hbase
      have honSocket : s'.writeOnSocket = s.writeOnSocket := by
        rw [hs']
        rfl
      refine ⟨⟨?_, fun hcall => hoff ?_⟩, hbase'⟩
      · rw [hpc']
        cases label with
        | writer => simp [WriteState.step, WriteState.writerStep, hpc] at hnext
        | writeReturns writeStatus =>
            obtain ⟨-, rfl⟩ := WriteState.writeReturns_cases hnext
            have hnot : s.writeOnSocket = false := by
              simpa [hbusy rfl] using hoff
            have hzero : writeStatus = 0 := by
              simpa [WriteLabel.isOwn, hnot] using hown
            rw [hzero]
            exact hpc
        | producerPut m => exact (WriteState.producerPut_frame hnext).1.trans hpc
        | stop | readerDies => cases hown
      · rw [hmark, honSocket] at hcall
        exact ⟨(Bool.and_eq_true_iff.mp hcall.1).1, hcall.2⟩
  | stop =>
      obtain rfl := stop_cases h
      exact ⟨⟨hpc, hoff⟩, hbase⟩
  | guard =>
      obtain ⟨guard, stopped, rfl⟩ := guardStep_cases h
      exact ⟨⟨hpc, hoff⟩, hbase⟩
  | owner =>
      obtain ⟨owner, hback, rfl | rfl⟩ := ownerStep_cases h
      all_goals
        refine ⟨⟨hpc, hoff⟩, Bool.eq_false_iff.mpr fun hderived => ?_⟩
        cases hbase.symm.trans (hback hderived)

/-- With a wedged writing thread the destructor never returns. -/
theorem wedged_never_ends (h : (machine parts).Reachable s) (hbase : s.owner.isDerived = false)
    (hwedged : s.Wedged) {labels : List WorkerLabel} {final : Worker Q R}
    (hrun : (machine parts).run labels s = some final) : final.owner ≠ .destroyed := by
  intro hdestroyed
  have hkept : ∀ state following label, state.Wedged ∧ state.owner.isDerived = false →
      (machine parts).step state label = some following →
        following.Wedged ∧ following.owner.isDerived = false :=
    fun _ _ _ ⟨hstate, hderived⟩ hstep => hstate.step hderived hstep
  obtain ⟨⟨hpc, -⟩, -⟩ := Machine.run_invariant
    (fun state : Worker Q R => state.Wedged ∧ state.owner.isDerived = false) hkept
    ⟨hwedged, hbase⟩ hrun
  obtain ⟨-, hdone⟩ := destroyed_threads_done (h.run labels hrun) hdestroyed
  cases hpc.symm.trans hdone

/-! ## A destruction that ends -/

/-- The calls that keep the two threads from their next steps. -/
def callsLeft (s : Worker Q R) : Nat :=
  s.reader.state.pc.callsLeft s.reader.busy + s.writer.state.pc.callsLeft s.writer.busy

/-- Threads that are told to leave their loops and can go on to their ends. -/
structure Going (s : Worker Q R) : Prop where
  down : s.reader.state.flags.Down
  free : s.owner.isDerived = true ∨ s.reader.state.flags.stopAsked = true ∧ ¬ s.Wedged
  sound : s.reader.state.Sound

/-- The steps of the threads, of the guard thread and of the owner. -/
def IsOwn (label : WorkerLabel) : Prop :=
  label.isThread = true ∨ label = .guard ∨ label = .owner

omit [QueueBase Q] [QueueBase R] in
theorem callsLeft_le (s : Worker Q R) : s.callsLeft ≤ 4 := by
  unfold callsLeft ReadPc.callsLeft WritePc.callsLeft
  repeat' split
  all_goals omega

/-- A reading thread inside a call can go on: the call may return that nothing has come. -/
theorem reading_returns (hkept : s.Kept RelQ RelR) (hgoing : s.Going)
    (hread : s.reader.state.pc = .read) (hbusy : s.reader.busy = true) :
    ∃ label s', label.isThread = true ∧ s.step parts label = some s' ∧ s'.Going ∧
      5 * s'.stepsLeft + s'.callsLeft < 5 * s.stepsLeft + s.callsLeft := by
  have hstep : s.step parts (.read (.readReturns .zero)) =
      some ({ s with reader := ⟨s.reader.state.readReturns .zero, false⟩ }.setFlags
        s.reader.state.flags) := by
    simp [step, ReadState.callMachine, Machine.splitCalls, ReadLabel.isOwn, ReadLabel.isReturn,
      ReadState.machine, ReadState.step, hread, hbusy, ReadState.readReturns]
  have hpays := (step_pays hkept.inv hkept.returned hgoing.down hstep).2
  have hcalls : callsLeft ({ s with reader := ⟨s.reader.state.readReturns .zero, false⟩ }.setFlags
      s.reader.state.flags) + 1 = s.callsLeft := by
    simp [callsLeft, ReadPc.callsLeft, hread, hbusy, setFlags, ReadState.readReturns, Nat.add_comm]
  have hsound : (s.reader.state.readReturns .zero).Sound := by
    simp [ReadState.Sound, ReadState.readReturns, ReadPc.Parses]
  refine ⟨.read (.readReturns .zero), _, rfl, hstep,
    ⟨hgoing.down, hgoing.free, hsound.1, hsound.2⟩, ?_⟩
  simp only [ownStep] at hpays
  omega

/-- A reading thread outside a call of `read` and before its end makes a step of its own. -/
theorem reading_steps (hkept : s.Kept RelQ RelR) (hgoing : s.Going)
    (hread : s.reader.state.pc ≠ .read) (hdone : s.reader.state.pc ≠ .done) :
    ∃ label s', label.isThread = true ∧ s.step parts label = some s' ∧ s'.Going ∧
      5 * s'.stepsLeft + s'.callsLeft < 5 * s.stepsLeft + s.callsLeft := by
  obtain ⟨hdown, hfree, hsound⟩ := hgoing
  have hstopped : s.reader.state.Stopped := hdown.imp_right fun hdead =>
    hdead.resolve_left fun hreturned => hdone (hkept.returned.read hreturned)
  have hended : ¬ s.reader.state.pc.Ended := fun hended =>
    hdone (ReadState.done_of_ended hkept.read hsound hended)
  obtain ⟨state, hown⟩ := ReadState.readerStep_enabled s.reader.state hread hended
  have hstep : s.step parts (.read .reader) =
      some ({ s with reader := ⟨state, s.reader.busy⟩ }.setFlags state.flags) := by
    have hown' : (ReadState.machine parts.readQueue parts.parser).step s.reader.state .reader =
        some state := hown
    simp [step, ReadState.callMachine, Machine.splitCalls, ReadLabel.isOwn, ReadLabel.isReturn,
      hown']
  obtain ⟨hdown', hpays⟩ := step_pays hkept.inv hkept.returned hdown hstep
  have hsound' := hsound.readerStep hstopped hown
  have hfree' := hfree.imp_right (And.imp_left (step_later hkept.inv hstep).stop)
  refine ⟨.read .reader, _, rfl, hstep, ⟨hdown', hfree', hsound'.1, hsound'.2⟩, ?_⟩
  have hcalls := callsLeft_le ({ s with reader := ⟨state, s.reader.busy⟩ }.setFlags state.flags)
  simp only [ownStep] at hpays
  omega

/-- A reading thread that has not returned can go on. -/
theorem reading_progress (hkept : s.Kept RelQ RelR) (hgoing : s.Going)
    (hdone : s.reader.state.pc ≠ .done) :
    ∃ label s', label.isThread = true ∧ s.step parts label = some s' ∧ s'.Going ∧
      5 * s'.stepsLeft + s'.callsLeft < 5 * s.stepsLeft + s.callsLeft := by
  by_cases hread : s.reader.state.pc = .read
  · cases hbusy : s.reader.busy with
    | false =>
        have hat : s.reader.state.atRead = true := decide_eq_true hread
        have hstep : s.step parts .readBegins = some { s with
            reader := { s.reader with busy := true }, readOnSocket := s.owner.isDerived } := by
          simp [step, ReadState.callMachine, Machine.splitCalls, hat, hbusy]
        refine ⟨.readBegins, _, rfl, hstep, ⟨hgoing.down, hgoing.free, hgoing.sound⟩, ?_⟩
        simp [stepsLeft, callsLeft, ReadPc.callsLeft, hread, hbusy]
    | true => exact reading_returns hkept hgoing hread hbusy
  · exact reading_steps hkept hgoing hread hdone

/-- A writing thread inside a call on the socket can go on: the call may fail. -/
theorem writing_returns (hkept : s.Kept RelQ RelR) (hgoing : s.Going)
    (hwrite : s.writer.state.pc = .write) (hbusy : s.writer.busy = true)
    (honSocket : s.writeOnSocket = true) :
    ∃ label s', label.isThread = true ∧ s.step parts label = some s' ∧ s'.Going ∧
      5 * s'.stepsLeft + s'.callsLeft < 5 * s.stepsLeft + s.callsLeft := by
  have hpc : (s.writer.state.writeReturns (-2)).pc = .finish := rfl
  have hflags : (s.writer.state.writeReturns (-2)).flags = s.writer.state.flags := rfl
  have hstep : s.step parts (.write (.writeReturns (-2))) =
      some ({ s with writer := ⟨s.writer.state.writeReturns (-2), false⟩ }.setFlags
        s.writer.state.flags) := by
    simp [step, WriteState.callMachine, Machine.splitCalls, WriteLabel.isOwn,
      WriteLabel.isReturn, WriteState.machine, WriteState.step, hwrite, hbusy, honSocket, hflags]
  obtain ⟨hdown', hpays⟩ := step_pays hkept.inv hkept.returned hgoing.down hstep
  have hstop := (step_later hkept.inv hstep).stop
  have hcalls : callsLeft ({ s with writer := ⟨s.writer.state.writeReturns (-2), false⟩ }.setFlags
      s.writer.state.flags) + 1 = s.callsLeft := by
    simp [callsLeft, WritePc.callsLeft, hwrite, hbusy, setFlags, hpc]
  refine ⟨.write (.writeReturns (-2)), _, rfl, hstep,
    ⟨hdown', hgoing.free.imp_right fun hasked => ⟨hstop hasked.1, fun hwedged => ?_⟩,
      hgoing.sound.later hstop⟩, ?_⟩
  · cases hpc.symm.trans hwedged.1
  · simp only [ownStep] at hpays
    omega

/-- A writing thread outside a call of `write` and before its end makes a step of its own. -/
theorem writing_steps (hkept : s.Kept RelQ RelR) (hgoing : s.Going)
    (hwrite : s.writer.state.pc ≠ .write) (hdone : s.writer.state.pc ≠ .done) :
    ∃ label s', label.isThread = true ∧ s.step parts label = some s' ∧ s'.Going ∧
      5 * s'.stepsLeft + s'.callsLeft < 5 * s.stepsLeft + s.callsLeft := by
  obtain ⟨state, hown⟩ := s.writer.state.writerStep_enabled hwrite hdone hkept.write.caught
  have hstep : s.step parts (.write .writer) =
      some ({ s with writer := ⟨state, s.writer.busy⟩ }.setFlags state.flags) := by
    have hown' : (WriteState.machine parts.writeQueue).step s.writer.state .writer =
        some state := hown
    simp [step, WriteState.callMachine, Machine.splitCalls, WriteLabel.isOwn,
      WriteLabel.isReturn, hown']
  obtain ⟨hdown', hpays⟩ := step_pays hkept.inv hkept.returned hgoing.down hstep
  have hstop := (step_later hkept.inv hstep).stop
  have hafter : s.reader.state.flags.stopAsked = true → state.pc ≠ .write := fun hasked =>
    (WriteState.writerStep_stopped (by rw [hkept.inv.sameFlags]; exact hasked) hown).2
  refine ⟨.write .writer, _, rfl, hstep,
    ⟨hdown', hgoing.free.imp_right fun hasked =>
      ⟨hstop hasked.1, fun hwedged => hafter hasked.1 hwedged.1⟩,
      hgoing.sound.later hstop⟩, ?_⟩
  have hcalls := callsLeft_le ({ s with writer := ⟨state, s.writer.busy⟩ }.setFlags state.flags)
  simp only [ownStep] at hpays
  omega

/-- A writing thread that has not returned can go on. -/
theorem writing_progress (hkept : s.Kept RelQ RelR) (hgoing : s.Going)
    (hdone : s.writer.state.pc ≠ .done) :
    ∃ label s', label.isThread = true ∧ s.step parts label = some s' ∧ s'.Going ∧
      5 * s'.stepsLeft + s'.callsLeft < 5 * s.stepsLeft + s.callsLeft := by
  by_cases hwrite : s.writer.state.pc = .write
  · obtain hderived | hfree := hgoing.free
    · cases hbusy : s.writer.busy with
      | true =>
          exact writing_returns hkept hgoing hwrite hbusy (hkept.inv.writeDerived hderived hbusy)
      | false =>
          have hat : s.writer.state.atWrite = true := decide_eq_true hwrite
          have hstep : s.step parts .writeBegins = some { s with
              writer := { s.writer with busy := true }, writeOnSocket := s.owner.isDerived } := by
            simp [step, WriteState.callMachine, Machine.splitCalls, hat, hbusy]
          refine ⟨.writeBegins, _, rfl, hstep, ⟨hgoing.down, .inl hderived, hgoing.sound⟩, ?_⟩
          simp [stepsLeft, callsLeft, WritePc.callsLeft, hwrite, hbusy]
    · obtain ⟨hbusy, honSocket⟩ : s.writer.busy = true ∧ s.writeOnSocket = true := by
        by_contra hoff
        exact hfree.2 ⟨hwrite, hoff⟩
      exact writing_returns hkept hgoing hwrite hbusy honSocket
  · exact writing_steps hkept hgoing hwrite hdone

/-- As long as one of the two threads has not returned, one of them can go on. -/
theorem threads_progress (hkept : s.Kept RelQ RelR) (hgoing : s.Going)
    (hdone : ¬ (s.reader.state.pc = .done ∧ s.writer.state.pc = .done)) :
    ∃ label s', label.isThread = true ∧ s.step parts label = some s' ∧ s'.Going ∧
      5 * s'.stepsLeft + s'.callsLeft < 5 * s.stepsLeft + s.callsLeft := by
  by_cases hread : s.reader.state.pc = .done
  · exact writing_progress hkept hgoing fun hwrite => hdone ⟨hread, hwrite⟩
  · exact reading_progress hkept hgoing hread

omit [QueueBase Q] [QueueBase R] in
/-- When both threads have returned the guard thread goes on to its end. -/
theorem guarding_progress (hread : s.reader.state.pc = .done) (hwrite : s.writer.state.pc = .done)
    (hguard : s.guard ≠ .done) :
    ∃ guard stopped, s.guardStep = some { s with guard, stopped } ∧
      guard.rank + 1 = s.guard.rank := by
  have henabled : ∃ s', s.guardStep = some s' := by
    cases hpc : s.guard with
    | joinRead => exact ⟨_, by simp only [guardStep, hpc, hread, if_true]; rfl⟩
    | joinWrite => exact ⟨_, by simp only [guardStep, hpc, hwrite, if_true]; rfl⟩
    | setStopped | callback => exact ⟨_, by simp only [guardStep, hpc]; rfl⟩
    | done => exact absurd hpc hguard
  obtain ⟨s', hstep⟩ := henabled
  obtain ⟨guard, stopped, hrank, rfl⟩ := guardStep_rank hstep
  exact ⟨guard, stopped, hstep, hrank⟩

/-- A destruction that waits for the threads and can go on comes to its end. -/
theorem Going.ends (hsimQ : Simulates Q RelQ) (hsimR : Simulates R RelR)
    (hkept : s.Kept RelQ RelR) (hgoing : s.Going)
    (hbase : s.owner = .joinGuard ∨ s.owner = .destroyed) :
    ∃ final, (machine parts).Leads IsOwn s final ∧ final.owner = .destroyed := by
  have hprogress : ∀ state : Worker Q R,
      (state.Kept RelQ RelR ∧ state.Going ∧ (state.owner = .joinGuard ∨ state.owner = .destroyed)) →
      ¬ state.owner = .destroyed → ∃ following, (machine parts).Leads IsOwn state following ∧
        (following.Kept RelQ RelR ∧ following.Going ∧
          (following.owner = .joinGuard ∨ following.owner = .destroyed)) ∧
        5 * following.stepsLeft + following.callsLeft <
          5 * state.stepsLeft + state.callsLeft := by
    rintro state ⟨hstate, hgoes, howner⟩ hlast
    have hturn : ∃ label following, IsOwn label ∧ state.step parts label = some following ∧
        (following.Going ∧ (following.owner = .joinGuard ∨ following.owner = .destroyed)) ∧
        5 * following.stepsLeft + following.callsLeft <
          5 * state.stepsLeft + state.callsLeft := by
      by_cases hdone : state.reader.state.pc = .done ∧ state.writer.state.pc = .done
      · by_cases hguard : state.guard = .done
        · have hjoin : state.owner = .joinGuard := howner.resolve_right hlast
          have hstep : state.step parts .owner = some { state with owner := .destroyed } := by
            simp [step, ownerStep, hjoin, hguard]
          have hnext : Going { state with owner := .destroyed } :=
            ⟨hgoes.down, .inr ⟨hstate.asked howner,
              fun hwedged => by cases hdone.2.symm.trans hwedged.1⟩, hgoes.sound⟩
          refine ⟨.owner, _, .inr (.inr rfl), hstep, ⟨hnext, .inr rfl⟩, ?_⟩
          simp [stepsLeft, callsLeft, OwnerPc.rank, hjoin]
        · obtain ⟨guard, stopped, hstep, hrank⟩ := guarding_progress hdone.1 hdone.2 hguard
          refine ⟨.guard, _, .inr (.inl rfl), hstep,
            ⟨⟨hgoes.down, hgoes.free, hgoes.sound⟩, howner⟩, ?_⟩
          simp only [stepsLeft, callsLeft]
          omega
      · obtain ⟨label, following, hthread, hstep, hnext, hless⟩ :=
          threads_progress hstate hgoes hdone
        have hlabel : label ≠ .owner := by
          rintro rfl
          cases hthread
        have hsame : following.owner = state.owner := owner_frame hlabel hstep
        exact ⟨label, following, .inl hthread, hstep, ⟨hnext, hsame ▸ howner⟩, hless⟩
    obtain ⟨label, following, hown, hstep, hnext, hless⟩ := hturn
    have hmachine : (machine parts).step state label = some following := hstep
    exact ⟨following, .single hown hmachine, ⟨hstate.step hsimQ hsimR hstep, hnext⟩, hless⟩
  obtain ⟨final, hleads, -, hended⟩ := Machine.Leads.descend hprogress ⟨hkept, hgoing, hbase⟩
  exact ⟨final, hleads, hended⟩

/-- The same from the beginning of the base class's destructor. -/
theorem free_ends (hsimQ : Simulates Q RelQ) (hsimR : Simulates R RelR)
    (hkept : s.Kept RelQ RelR) (hbase : s.owner.isDerived = false) (hfree : ¬ s.Wedged)
    (hsound : s.reader.state.Sound) :
    ∃ final, (machine parts).Leads IsOwn s final ∧ final.owner = .destroyed := by
  cases howner : s.owner with
  | owning | released =>
      rw [howner] at hbase
      cases hbase
  | baseDestructor =>
      have hstep : s.step parts .owner = some { s.askStop with owner := .joinGuard } := by
        simp [step, ownerStep, howner]
      have hgoing : Going { s.askStop with owner := .joinGuard } :=
        ⟨.inl rfl, .inr ⟨rfl, hfree⟩, hsound.later fun _ => rfl⟩
      obtain ⟨final, hleads, hended⟩ :=
        hgoing.ends hsimQ hsimR (hkept.step hsimQ hsimR hstep) (.inl rfl)
      have hfirst : (machine parts).Leads IsOwn s { s.askStop with owner := .joinGuard } :=
        .single (.inr (.inr rfl)) hstep
      exact ⟨final, hfirst.trans hleads, hended⟩
  | joinGuard =>
      have hasked := hkept.asked (.inl howner)
      have hgoing : s.Going := ⟨.inl hasked, .inr ⟨hasked, hfree⟩, hsound⟩
      exact hgoing.ends hsimQ hsimR hkept (.inl howner)
  | destroyed => exact ⟨s, .refl s, howner⟩

/-- Behind the stop the threads, the guard thread and the owner make at most twenty steps. -/
theorem waiting_steps (hkept : s.Kept RelQ RelR)
    (hwaiting : s.owner = .joinGuard ∨ s.owner = .destroyed) {labels : List WorkerLabel}
    {final : Worker Q R} (hrun : (machine parts).run labels s = some final) :
    (machine parts).tally ownStep labels s ≤ 20 := by
  have hpays : ∀ state following label,
      state.Inv ∧ state.Returned ∧ state.reader.state.flags.Down → True →
      (machine parts).step state label = some following →
        (following.Inv ∧ following.Returned ∧ following.reader.state.flags.Down) ∧
          following.stepsLeft + state.ownStep label ≤ state.stepsLeft := by
    rintro state following label ⟨hinv, hreturned, hdown⟩ - hstep
    obtain ⟨hdown', hless⟩ := step_pays hinv hreturned hdown hstep
    exact ⟨⟨hinv.step hstep, hreturned.step hinv hstep, hdown'⟩, hless⟩
  have hasked := hkept.asked hwaiting
  obtain ⟨-, hsteps⟩ := Machine.tally_le hpays ⟨hkept.inv, hkept.returned, .inl hasked⟩
    (fun _ _ => trivial) hrun
  have hleft := s.stepsLeft_le
  rw [if_pos hasked] at hleft
  have howner : s.owner.rank ≤ 1 := by
    rcases hwaiting with howner | howner <;> simp [howner, OwnerPc.rank]
  omega

end Steps

/-- A worker over rings of any number of cells, with or without a parser, inside the base class's
destructor and with a parser that accepts what it is about to parse. The destruction can come to its
end, by the steps of the threads, the guard thread and the owner alone, exactly if the writing
thread does not stand at a call of `write_data_to_source` outside one on the socket: else no run
ends it. While the destructor waits, the threads, the guard thread and the owner make at most twenty
steps in every run, besides the beginnings and returns of calls, which need not come to an end. -/
theorem destruction_ends {count cellSize count' cellSize' : Nat} {parser : Option ParserExample}
    {s : Worker RingQueue RingQueue} (hcount : count < 2 ^ 32) (hcount' : count' < 2 ^ 32)
    (h : (machine ⟨RingQueue.new count cellSize, parser, RingQueue.new count' cellSize'⟩).Reachable
      s)
    (hbase : s.owner.isDerived = false) (hsound : s.reader.state.Sound) :
    let m := machine ⟨RingQueue.new count cellSize, parser, RingQueue.new count' cellSize'⟩
    (¬ s.Wedged → ∃ final, m.Leads IsOwn s final ∧ final.owner = .destroyed) ∧
      (s.Wedged → ∀ labels final, m.run labels s = some final → final.owner ≠ .destroyed) ∧
      (s.owner ≠ .baseDestructor → ∀ labels final, m.run labels s = some final →
        m.tally ownStep labels s ≤ 20) := by
  intro m
  have hkept : s.Kept Represents Represents := reachable_kept ring_simulates ring_simulates
    (Represents.new count cellSize hcount) (Represents.new count' cellSize' hcount') h
  refine ⟨fun hfree => free_ends ring_simulates ring_simulates hkept hbase hfree hsound,
    fun hwedged labels final hrun => wedged_never_ends h hbase hwedged hrun,
    fun hwaits labels final hrun => waiting_steps hkept ?_ hrun⟩
  cases howner : s.owner with
  | owning | released =>
      rw [howner] at hbase
      cases hbase
  | baseDestructor => exact absurd howner hwaits
  | joinGuard => exact .inl rfl
  | destroyed => exact .inr rfl

/-- A worker that is destroyed while its writing thread is about to send a message, and one whose
threads stand at the heads of their loops. -/
theorem destruction_ends_writing :
    (∃ s, (machine twoRings).Reachable s ∧ s.owner = .joinGuard ∧
      ∀ labels final, (machine twoRings).run labels s = some final → final.owner ≠ .destroyed) ∧
    ∃ s final, s.owner = .joinGuard ∧ (machine twoRings).Leads IsOwn s final ∧
      final.owner = .destroyed := by
  constructor
  · have hrun : ((machine twoRings).run
        [.write (.producerPut ⟨[7], by decide⟩), .write .writer, .write .writer, .write .writer,
          .write .writer, .write .writer, .owner, .owner, .owner] (start twoRings)).map
          (fun s => (s.owner, s.writer.state.pc, s.writer.busy, s.reader.state.pc)) =
            some (.joinGuard, .write, false, .head) := by
      decide +kernel
    obtain ⟨s, hs, hfields⟩ := Option.map_eq_some_iff.mp hrun
    obtain ⟨howner, hwrite, hidle, hread⟩ : s.owner = .joinGuard ∧ s.writer.state.pc = .write ∧
        s.writer.busy = false ∧ s.reader.state.pc = .head := by simpa using hfields
    have hreach := Machine.reachable_of_run _ rfl hs
    obtain ⟨-, hnever, -⟩ := destruction_ends (by decide) (by decide) hreach
      (by rw [howner]; rfl) ⟨by simp [hread], by simp [hread, ReadPc.Parses]⟩
    exact ⟨s, hreach, howner, hnever ⟨hwrite, by simp [hidle]⟩⟩
  · have hrun : ((machine twoRings).run [.owner, .owner, .owner] (start twoRings)).map
          (fun s => (s.owner, s.writer.state.pc, s.reader.state.pc)) =
            some (.joinGuard, .head, .head) := by
      decide +kernel
    obtain ⟨s, hs, hfields⟩ := Option.map_eq_some_iff.mp hrun
    obtain ⟨howner, hwrite, hread⟩ : s.owner = .joinGuard ∧ s.writer.state.pc = .head ∧
        s.reader.state.pc = .head := by simpa using hfields
    have hreach := Machine.reachable_of_run _ rfl hs
    obtain ⟨hends, -, -⟩ := destruction_ends (by decide) (by decide) hreach
      (by rw [howner]; rfl) ⟨by simp [hread], by simp [hread, ReadPc.Parses]⟩
    obtain ⟨final, hleads, hended⟩ := hends fun hwedged => by cases hwrite.symm.trans hwedged.1
    exact ⟨s, final, howner, hleads, hended⟩

end Worker

end Shovel.Workers
