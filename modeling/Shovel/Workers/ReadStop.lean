import Shovel.Library.Progress
import Shovel.Workers.ReadThread

/-!
# Stopping the reading thread

The reading thread looks at `m_stop_asked` and `m_write_thread_alive` behind
every read and behind every `put`. Once one of them tells it to stop, the rest of
its way is bounded, over every queue whose `put` returns: `stopRank` is the number
of its own steps that are left, whatever the other threads do meanwhile.

A thread that has just tested one of the flags sees its change only at the next
test, which is why a read may still begin when the writing thread dies.
-/

namespace Shovel.Workers

open Containers Parsers Transition

namespace ReadPc

/-- The steps that are left to a thread that has been told to stop: by `stop` if `asked`, by the
death of the writing thread if not `alive`. -/
def stopRank (asked alive : Bool) : ReadPc → Nat
  | .done | .undefined | .terminated => 0
  | .finish => 1
  | .head | .read | .checkAlive _ => if alive then 3 else 2
  | .headStop => if asked then 2 else 3
  | .checkStop _ => if asked then 2 else 8
  | .outerStop _ => if asked then 4 else 7
  | .outerAlive _ => if alive then 5 else 3
  | .innerStop _ _ _ => 6
  | .innerAlive _ _ _ => if alive then 7 else 4
  | .put _ _ => if alive then 8 else 5
  | .forLoop _ => if alive then 9 else 6
  | .parse => if alive then 10 else 7

/-- The calls of `put` that are left to it. -/
def putsLeft (asked : Bool) : ReadPc → Nat
  | .parse | .forLoop _ | .put _ _ => 1
  | .checkStop _ | .innerStop _ _ _ | .outerStop _ => if asked then 0 else 1
  | _ => 0

/-- The reads that it can still begin. -/
def readsLeft (asked : Bool) : ReadPc → Nat
  | .headStop => if asked then 0 else 1
  | _ => 0

/-- The thread makes no more steps: it has returned, the behaviour of its parser was undefined, or
an exception has ended the process. -/
def Ended : ReadPc → Prop
  | .done | .undefined | .terminated => True
  | _ => False

/-- However much is left, it is at most this. -/
theorem left_le (asked alive : Bool) (pc : ReadPc) :
    pc.stopRank asked alive ≤ 10 ∧ pc.putsLeft asked ≤ 1 ∧ pc.readsLeft asked ≤ 1 := by
  cases pc <;> cases asked <;> cases alive <;> simp [stopRank, putsLeft, readsLeft]

/-- Asking for a stop leaves no more to do than before. -/
theorem left_asked (asked alive : Bool) (pc : ReadPc) :
    pc.stopRank true alive ≤ pc.stopRank asked alive ∧ pc.putsLeft true ≤ pc.putsLeft asked ∧
      pc.readsLeft true ≤ pc.readsLeft asked := by
  cases pc <;> cases asked <;> cases alive <;> simp [stopRank, putsLeft, readsLeft]

/-- Neither does the death of the writing thread. -/
theorem left_dead (asked alive : Bool) (pc : ReadPc) :
    pc.stopRank asked false ≤ pc.stopRank asked alive := by
  cases pc <;> cases asked <;> cases alive <;> simp [stopRank]

/-- The thread is behind its test of the other flag and comes to its parser, if a stop has not been
asked for. -/
def Parses (asked : Bool) : ReadPc → Prop
  | .parse => True
  | .checkStop readStatus => asked = false ∧ readStatus ≠ 0
  | _ => False

end ReadPc

namespace ReadState

variable {Q : Type}

/-- One for a step of the thread itself. -/
def ownStep (_ : ReadState Q) : ReadLabel → Nat
  | .reader => 1
  | _ => 0

/-- One for a step in which the thread calls `put`. -/
def putCall (s : ReadState Q) : ReadLabel → Nat
  | .reader =>
      match s.pc, s.parser with
      | .put _ _, _ | .parse, none => 1
      | _, _ => 0
  | _ => 0

/-- One for a step in which the thread begins a read. -/
def readBegins (s : ReadState Q) : ReadLabel → Nat
  | .reader => if s.pc = .headStop ∧ s.flags.stopAsked = false then 1 else 0
  | _ => 0

/-- The steps that are left to the thread once it is stopped. -/
def stepsLeft (s : ReadState Q) : Nat :=
  s.pc.stopRank s.flags.stopAsked s.flags.writeThreadAlive

variable {s s' : ReadState Q} {Rel : Q → MessageFifo → Prop}

/-- The queue behaves like a bounded list of messages, and none of its calls has ended in an
exception. -/
structure Backed (Rel : Q → MessageFifo → Prop) (s : ReadState Q) : Prop where
  queue : ∃ a, Rel s.queue a
  caught : s.pc ≠ .terminated

/-- The parser accepts the bytes that it is about to parse. -/
def Sound (s : ReadState Q) : Prop :=
  s.pc ≠ .undefined ∧
    (s.pc.Parses s.flags.stopAsked →
      ∀ p, s.parser = some p → ∃ answer, p.put s.arr.content = .ok answer)

/-- A stop that is asked for later changes nothing about it. -/
theorem Sound.later {flags : WorkerFlags} (h : s.Sound)
    (hstop : s.flags.stopAsked = true → flags.stopAsked = true) : Sound { s with flags } := by
  refine ⟨h.1, fun hparses => h.2 ?_⟩
  revert hparses
  show s.pc.Parses flags.stopAsked → s.pc.Parses s.flags.stopAsked
  cases hpc : s.pc with
  | checkStop readStatus =>
      rintro ⟨hasked, hsome⟩
      refine ⟨Bool.eq_false_iff.mpr fun hbefore => ?_, hsome⟩
      cases hasked.symm.trans (hstop hbefore)
  | _ => exact id

variable [QueueBase Q]

/-- What is left pays for every step of the thread. -/
theorem readerStep_pays (hstopped : s.Stopped) (hstep : s.readerStep = some s') :
    s'.pc.stopRank s.flags.stopAsked s.flags.writeThreadAlive + s.ownStep .reader ≤ s.stepsLeft ∧
      s'.pc.putsLeft s.flags.stopAsked + s.putCall .reader ≤ s.pc.putsLeft s.flags.stopAsked ∧
      s'.pc.readsLeft s.flags.stopAsked + s.readBegins .reader ≤
        s.pc.readsLeft s.flags.stopAsked := by
  have hdead : s.flags.stopAsked = false → s.flags.writeThreadAlive = false := fun hasked =>
    hstopped.resolve_left (by simp [hasked])
  cases hpc : s.pc with
  | read | done | undefined | terminated => simp [readerStep, hpc] at hstep
  | parse | put kg rest =>
      simp only [readerStep, hpc] at hstep
      repeat' split at hstep
      all_goals
        obtain rfl := Option.some.inj hstep
        cases halive : s.flags.writeThreadAlive <;>
          simp_all [stepsLeft, ReadPc.stopRank, ReadPc.putsLeft, ReadPc.readsLeft, ownStep, putCall,
            readBegins]
  | forLoop rest =>
      cases rest with
      | nil | cons kg rest =>
          simp only [readerStep, hpc] at hstep
          obtain rfl := Option.some.inj hstep
          cases halive : s.flags.writeThreadAlive <;>
            simp [hpc, halive, stepsLeft, ReadPc.stopRank, ReadPc.putsLeft, ReadPc.readsLeft,
              ownStep, putCall, readBegins]
  | head | headStop | innerAlive putStatus kg rest | outerAlive rest | outerStop rest | finish =>
      simp only [readerStep, hpc] at hstep
      obtain rfl := Option.some.inj hstep
      -- which flag it is that stops the thread decides where a test leads
      cases hasked : s.flags.stopAsked with
      | true =>
          cases halive : s.flags.writeThreadAlive <;>
            simp [hpc, hasked, halive, stepsLeft, ReadPc.stopRank, ReadPc.putsLeft,
              ReadPc.readsLeft, ownStep, putCall, readBegins]
      | false =>
          simp [hpc, hasked, hdead hasked, stepsLeft, ReadPc.stopRank, ReadPc.putsLeft,
            ReadPc.readsLeft, ownStep, putCall, readBegins]
  | checkAlive readStatus =>
      simp only [readerStep, hpc] at hstep
      obtain rfl := Option.some.inj hstep
      cases halive : s.flags.writeThreadAlive with
      | false =>
          simp [hpc, halive, stepsLeft, ReadPc.stopRank, ReadPc.putsLeft, ReadPc.readsLeft, ownStep,
            putCall, readBegins]
      | true =>
          have hasked := hstopped.resolve_right (by simp [halive])
          by_cases hfailed : readStatus < 0 <;>
            simp [hpc, halive, hasked, hfailed, stepsLeft, ReadPc.stopRank, ReadPc.putsLeft,
              ReadPc.readsLeft, ownStep, putCall, readBegins]
  | checkStop readStatus =>
      simp only [readerStep, hpc] at hstep
      obtain rfl := Option.some.inj hstep
      cases hasked : s.flags.stopAsked with
      | true =>
          simp [hpc, hasked, stepsLeft, ReadPc.stopRank, ReadPc.putsLeft, ReadPc.readsLeft, ownStep,
            putCall, readBegins]
      | false =>
          by_cases hzero : readStatus = 0 <;>
            simp [hpc, hasked, hdead hasked, hzero, stepsLeft, ReadPc.stopRank, ReadPc.putsLeft,
              ReadPc.readsLeft, ownStep, putCall, readBegins]
  | innerStop putStatus kg rest =>
      simp only [readerStep, hpc] at hstep
      obtain rfl := Option.some.inj hstep
      cases hasked : s.flags.stopAsked with
      | true =>
          cases s.flags.writeThreadAlive <;>
            simp [hpc, hasked, stepsLeft, ReadPc.stopRank, ReadPc.putsLeft, ReadPc.readsLeft,
              ownStep, putCall, readBegins]
      | false =>
          by_cases hfull : putStatus ≤ 0 <;>
            simp [hpc, hasked, hdead hasked, hfull, stepsLeft, ReadPc.stopRank, ReadPc.putsLeft,
              ReadPc.readsLeft, ownStep, putCall, readBegins]

/-- What is left pays for every step of an interleaving, and the thread stays stopped. -/
theorem step_pays {label : ReadLabel} (hstopped : s.Stopped) (hstep : s.step label = some s') :
    s'.Stopped ∧
      s'.stepsLeft + s.ownStep label ≤ s.stepsLeft ∧
      s'.pc.putsLeft s'.flags.stopAsked + s.putCall label ≤ s.pc.putsLeft s.flags.stopAsked ∧
      s'.pc.readsLeft s'.flags.stopAsked + s.readBegins label ≤
        s.pc.readsLeft s.flags.stopAsked := by
  cases label with
  | reader =>
      have hpays := readerStep_pays hstopped hstep
      rcases readerStep_flags hstep with hflags | hflags
      · rw [Stopped, stepsLeft, hflags]
        exact ⟨hstopped, hpays⟩
      · rw [Stopped, stepsLeft, hflags]
        exact ⟨hstopped, hpays⟩
  | readReturns result =>
      obtain ⟨hpc, rfl⟩ := readReturns_cases hstep
      rw [Stopped, stepsLeft, readReturns_flags]
      refine ⟨hstopped, ?_⟩
      cases result <;>
        simp [readReturns, hpc, stepsLeft, ReadPc.stopRank, ReadPc.putsLeft, ReadPc.readsLeft,
          ownStep, putCall, readBegins]
  | consumerGet =>
      obtain ⟨hpc, hflags⟩ := consumerGet_frame hstep
      rw [Stopped, stepsLeft, hpc, hflags]
      exact ⟨hstopped, Nat.le_refl _, Nat.le_refl _, Nat.le_refl _⟩
  | stop =>
      obtain rfl := Option.some.inj hstep
      exact ⟨.inl rfl, s.pc.left_asked s.flags.stopAsked s.flags.writeThreadAlive⟩
  | writerDies =>
      obtain rfl := Option.some.inj hstep
      exact ⟨.inr rfl, s.pc.left_dead s.flags.stopAsked s.flags.writeThreadAlive, Nat.le_refl _,
        Nat.le_refl _⟩

/-- Only at a read and at its end the thread has no next step. -/
theorem readerStep_enabled (s : ReadState Q) (hread : s.pc ≠ .read) (hended : ¬ s.pc.Ended) :
    ∃ s', s.readerStep = some s' := by
  cases hpc : s.pc with
  | read => exact absurd hpc hread
  | done | undefined | terminated => simp [ReadPc.Ended, hpc] at hended
  | parse | put kg rest =>
      simp only [readerStep, hpc]
      repeat' split
      all_goals exact ⟨_, rfl⟩
  | forLoop rest =>
      cases rest with
      | nil | cons kg rest => exact ⟨_, by simp only [readerStep, hpc]; rfl⟩
  | _ => exact ⟨_, by simp only [readerStep, hpc]; rfl⟩

/-- The calls of the thread and of its consumer keep the queue well behaved. -/
theorem Backed.step (hsim : Simulates Q Rel) {label : ReadLabel} (h : Backed Rel s)
    (hstep : s.step label = some s') : Backed Rel s' := by
  obtain ⟨⟨a, hrel⟩, hcaught⟩ := h
  cases label with
  | reader =>
      have hown : s.readerStep = some s' := hstep
      cases hpc : s.pc with
      | parse =>
          simp only [readerStep, hpc] at hown
          cases hparser : s.parser with
          | some p =>
              simp only [hparser] at hown
              split at hown
              all_goals
                obtain rfl := Option.some.inj hown
                exact ⟨⟨a, hrel⟩, by simp⟩
          | none =>
              obtain ⟨queue, hput, hnext⟩ := hsim.put (castMessage s.arr.content) hrel
              simp only [hparser, hput] at hown
              obtain rfl := Option.some.inj hown
              exact ⟨⟨_, hnext⟩, by simp⟩
      | put kg rest =>
          obtain ⟨queue, hput, hnext⟩ := hsim.put (castMessage kg) hrel
          simp only [readerStep, hpc, hput] at hown
          obtain rfl := Option.some.inj hown
          exact ⟨⟨_, hnext⟩, by simp⟩
      | forLoop rest =>
          cases rest with
          | nil | cons kg rest =>
              simp only [readerStep, hpc] at hown
              obtain rfl := Option.some.inj hown
              exact ⟨⟨a, hrel⟩, by simp⟩
      | read | done | undefined | terminated => simp [readerStep, hpc] at hown
      | finish =>
          simp only [readerStep, hpc] at hown
          obtain rfl := Option.some.inj hown
          exact ⟨⟨a, hrel⟩, by simp⟩
      | _ =>
          simp only [readerStep, hpc] at hown
          obtain rfl := Option.some.inj hown
          refine ⟨⟨a, hrel⟩, ?_⟩
          repeat' split
          all_goals simp
  | readReturns result =>
      obtain ⟨-, rfl⟩ := readReturns_cases hstep
      cases result with
      | chunk chunk | zero | error => exact ⟨⟨a, hrel⟩, by simp [readReturns]⟩
  | consumerGet =>
      obtain ⟨queue, hget, hnext⟩ := hsim.get connectionWorkerArrSize hrel
      simp only [ReadState.step, hget] at hstep
      obtain rfl := Option.some.inj hstep
      exact ⟨⟨_, hnext⟩, hcaught⟩
  | stop | writerDies =>
      obtain rfl := Option.some.inj hstep
      exact ⟨⟨a, hrel⟩, hcaught⟩

/-- A thread that is told to leave its loop comes to its parser at most once. -/
theorem Sound.readerStep (hstopped : s.Stopped) (h : s.Sound)
    (hstep : s.readerStep = some s') : s'.Sound := by
  cases hpc : s.pc with
  | parse =>
      simp only [ReadState.readerStep, hpc] at hstep
      cases hparser : s.parser with
      | some p =>
          obtain ⟨answer, hput⟩ := h.2 (by rw [hpc]; trivial) p hparser
          simp only [hparser, hput] at hstep
          obtain rfl := Option.some.inj hstep
          exact ⟨by simp, False.elim⟩
      | none =>
          simp only [hparser] at hstep
          split at hstep
          all_goals
            obtain rfl := Option.some.inj hstep
            exact ⟨by simp, False.elim⟩
  | put kg rest =>
      simp only [ReadState.readerStep, hpc] at hstep
      split at hstep
      all_goals
        obtain rfl := Option.some.inj hstep
        exact ⟨by simp, False.elim⟩
  | forLoop rest =>
      cases rest with
      | nil | cons kg rest =>
          simp only [ReadState.readerStep, hpc] at hstep
          obtain rfl := Option.some.inj hstep
          exact ⟨by simp, False.elim⟩
  | checkAlive readStatus =>
      simp only [ReadState.readerStep, hpc] at hstep
      obtain rfl := Option.some.inj hstep
      by_cases hleaves : readStatus < 0 ∨ s.flags.writeThreadAlive = false
      · simp [Sound, hleaves, ReadPc.Parses]
      · -- the other thread is alive, so it is a stop that the thread comes to
        have hasked : s.flags.stopAsked = true :=
          hstopped.resolve_right fun hdead => hleaves (.inr hdead)
        simp [Sound, hleaves, ReadPc.Parses, hasked]
  | checkStop readStatus =>
      simp only [ReadState.readerStep, hpc] at hstep
      obtain rfl := Option.some.inj hstep
      cases hasked : s.flags.stopAsked with
      | true => simp [Sound, ReadPc.Parses]
      | false =>
          by_cases hnothing : readStatus = 0
          · simp [Sound, ReadPc.Parses, hnothing]
          · have hparses : s.pc.Parses s.flags.stopAsked := by
              rw [hpc]
              exact ⟨hasked, hnothing⟩
            refine ⟨by simp [hnothing], fun _ => h.2 hparses⟩
  | read | done | undefined | terminated => simp [ReadState.readerStep, hpc] at hstep
  | _ =>
      simp only [ReadState.readerStep, hpc] at hstep
      obtain rfl := Option.some.inj hstep
      simp only [Sound]
      repeat' split
      all_goals exact ⟨by simp, False.elim⟩

omit [QueueBase Q] in
/-- A thread that can end in no other way has returned when it has ended. -/
theorem done_of_ended (hbacked : s.Backed Rel) (hsound : s.Sound) (hended : s.pc.Ended) :
    s.pc = .done := by
  cases hpc : s.pc with
  | done => rfl
  | undefined => exact absurd hpc hsound.1
  | terminated => exact absurd hpc hbacked.caught
  | _ => simp [hpc, ReadPc.Ended] at hended

/-- The steps of a stopped thread that stands at a read: it may return that nothing has come. -/
theorem stopped_read (hstopped : s.Stopped) (hread : s.pc = .read) :
    ∃ s', s.step (.readReturns .zero) = some s' ∧ s'.Stopped ∧ s'.Sound ∧ s'.queue = s.queue ∧
      s'.stepsLeft ≤ s.stepsLeft ∧ s'.pc ≠ .read ∧ s'.pc ≠ .terminated := by
  have hstep : s.step (.readReturns .zero) = some (s.readReturns .zero) := if_pos hread
  obtain ⟨hnext, hpays, -⟩ := step_pays hstopped hstep
  refine ⟨_, hstep, hnext, ?_, rfl, hpays, by simp [readReturns], by simp [readReturns]⟩
  simp [Sound, readReturns, ReadPc.Parses]

/-- A stopped thread has a way to its end on which nobody else moves, but for a read that it stands
at. -/
theorem stopped_ends {queue : Q} {parser : Option ParserExample} (hstopped : s.Stopped) :
    ∃ labels final, (∀ label ∈ labels, label = .reader ∨ ∃ result, label = .readReturns result) ∧
      (machine queue parser).run labels s = some final ∧ final.pc.Ended ∧
      ∀ Rel, Simulates Q Rel → s.Backed Rel → s.Sound → final.pc = .done := by
  have hprogress : ∀ state : ReadState Q, (state.Stopped ∧ ∀ Rel, Simulates Q Rel → s.Backed Rel →
        s.Sound → state.Backed Rel ∧ state.Sound) → ¬ state.pc.Ended →
      ∃ label following, (label = .reader ∨ ∃ result, label = .readReturns result) ∧
        (machine queue parser).step state label = some following ∧
        (following.Stopped ∧ ∀ Rel, Simulates Q Rel → s.Backed Rel → s.Sound →
          following.Backed Rel ∧ following.Sound) ∧
        2 * following.stepsLeft + (if following.pc = .read then 1 else 0) <
          2 * state.stepsLeft + (if state.pc = .read then 1 else 0) := by
    rintro state ⟨hstate, hgood⟩ hended
    by_cases hread : state.pc = .read
    · obtain ⟨following, hstep, hnext, hsound, hqueue, hpays, hleft, hcaught⟩ :=
        stopped_read hstate hread
      refine ⟨_, following, .inr ⟨.zero, rfl⟩, hstep, ⟨hnext, fun Rel hsim hb hs => ?_⟩, ?_⟩
      · exact ⟨⟨hqueue ▸ (hgood Rel hsim hb hs).1.queue, hcaught⟩, hsound⟩
      · rw [if_pos hread, if_neg hleft]
        omega
    · obtain ⟨following, hstep⟩ := readerStep_enabled state hread hended
      have hown : state.step .reader = some following := hstep
      obtain ⟨hnext, hpays, -⟩ := step_pays hstate hown
      refine ⟨.reader, following, .inl rfl, hstep, ⟨hnext, fun Rel hsim hb hs => ?_⟩, ?_⟩
      · obtain ⟨hbacked, hsound⟩ := hgood Rel hsim hb hs
        exact ⟨hbacked.step hsim hown, hsound.readerStep hstate hstep⟩
      · simp only [ownStep] at hpays
        rw [if_neg hread]
        split <;> omega
  obtain ⟨labels, final, hlabels, hrun, ⟨-, hgood⟩, hended⟩ :=
    Machine.drains hprogress ⟨hstopped, fun _ _ hbacked hsound => ⟨hbacked, hsound⟩⟩
  refine ⟨labels, final, hlabels, hrun, hended, fun Rel hsim hbacked hsound => ?_⟩
  obtain ⟨hbacked', hsound'⟩ := hgood Rel hsim hbacked hsound
  exact done_of_ended hbacked' hsound' hended

end ReadState

end Shovel.Workers
