import Shovel.Workers.ReadThread
import Shovel.Workers.WriteStop

/-!
# Destroying a worker

A whole worker: its two threads, the guard thread that joins them, and the owner
that destroys the worker. The destructor of the derived class releases the socket
first. The destructor of `ConnectionWorker` runs behind it, asks for the stop and
joins the guard thread. So at the release nothing keeps a thread from being
inside a call on the socket, and nothing keeps it from coming to one.

The threads are those of `ReadThread` and `WriteStop`, and every change of a flag
reaches both of them. A call of `read_data_from_source` or `write_data_to_source`
is virtual: it reaches the derived class until the base class's destructor
begins, and then the base class's own function, which touches no socket.
-/

namespace Shovel.Workers

open Containers Parsers Transition

/-- The program points of `thread_guard`. -/
inductive GuardPc where
  | joinRead
  | joinWrite
  | setStopped
  | callback
  | done
  deriving DecidableEq, Repr

/-- Where the owner stands: before the destruction, behind the release of `m_net_socket` or
`m_local_socket`, inside `~ConnectionWorker` before `stop` and before the join, and behind it. -/
inductive OwnerPc where
  | owning
  | released
  | baseDestructor
  | joinGuard
  | destroyed
  deriving DecidableEq, Repr

/-- The object is still one of the derived class. -/
def OwnerPc.isDerived : OwnerPc → Bool
  | .owning | .released => true
  | .baseDestructor | .joinGuard | .destroyed => false

/-- The label is the return of `read_data_from_source`. -/
def ReadLabel.isReturn : ReadLabel → Bool
  | .readReturns _ => true
  | .reader | .consumerGet | .stop | .writerDies => false

/-- The steps of the reading side alone. `ConnectionWorker::read_data_from_source` clears the array
and returns zero. -/
def ReadLabel.isOwn (onSocket : Bool) : ReadLabel → Bool
  | .reader | .consumerGet | .readReturns .zero => true
  | .readReturns _ => onSocket
  | .stop | .writerDies => false

/-- The steps of the writing side alone. `ConnectionWorker::write_data_to_source` clears the array
and returns zero. -/
def WriteLabel.isOwn (onSocket : Bool) : WriteLabel → Bool
  | .writer | .producerPut _ => true
  | .writeReturns writeStatus => onSocket || writeStatus == 0
  | .stop | .readerDies => false

namespace ReadState

variable {Q : Type}

/-- The thread stands at a call of `read_data_from_source`. -/
def atRead (s : ReadState Q) : Bool := decide (s.pc = .read)

/-- All interleavings of a worker whose reading queue is `queue`, with calls that take time. -/
def callMachine [QueueBase Q] (queue : Q) (parser : Option ParserExample) :
    Machine (Calling (ReadState Q)) (CallLabel ReadLabel) :=
  (machine queue parser).splitCalls atRead ReadLabel.isReturn

end ReadState

/-- What a worker is made of, besides its socket. -/
structure WorkerParts (Q R : Type) where
  readQueue : Q
  parser : Option ParserExample
  writeQueue : R

/-- A worker. Of a call in progress it is known whether it is one on the socket, of the derived
class. -/
structure Worker (Q R : Type) where
  reader : Calling (ReadState Q)
  readOnSocket : Bool
  writer : Calling (WriteState R)
  writeOnSocket : Bool
  guard : GuardPc
  stopped : Bool
  owner : OwnerPc

/-- A call of a thread begins, a thread or someone at its queue makes another step, someone calls
`stop`, or the guard thread or the owner makes its next step. -/
inductive WorkerLabel where
  | readBegins
  | read (label : ReadLabel)
  | writeBegins
  | write (label : WriteLabel)
  | stop
  | guard
  | owner

namespace Worker

variable {Q R : Type}

/-- `start`. A thread that has not been created yet stands at the beginning of its function. -/
def start [QueueBase Q] [QueueBase R] (parts : WorkerParts Q R) : Worker Q R where
  reader := ⟨.start parts.readQueue parts.parser, false⟩
  readOnSocket := false
  writer := ⟨.start parts.writeQueue, false⟩
  writeOnSocket := false
  guard := .joinRead
  stopped := false
  owner := .owning

/-- Both threads see the flags. -/
def setFlags (s : Worker Q R) (flags : WorkerFlags) : Worker Q R :=
  { s with
    reader := { s.reader with state := { s.reader.state with flags } }
    writer := { s.writer with state := { s.writer.state with flags } } }

/-- `m_stop_asked = true`. -/
def askStop (s : Worker Q R) : Worker Q R :=
  s.setFlags { s.reader.state.flags with stopAsked := true }

/-- The writing side behind the return of the base class's function, which clears the array. -/
def clearWritten (s : Worker Q R) : Worker Q R :=
  { s with
    writer := { s.writer with state := { s.writer.state with arr := s.writer.state.arr.clear } } }

/-- `thread_guard`. A thread is joined when its function has returned. -/
def guardStep (s : Worker Q R) : Option (Worker Q R) :=
  match s.guard with
  | .joinRead => if s.reader.state.pc = .done then some { s with guard := .joinWrite } else none
  | .joinWrite => if s.writer.state.pc = .done then some { s with guard := .setStopped } else none
  | .setStopped => some { s with stopped := true, guard := .callback }
  | .callback => some { s with guard := .done }
  | .done => none

/-- The destruction by another thread than the guard thread. -/
def ownerStep (s : Worker Q R) : Option (Worker Q R) :=
  match s.owner with
  | .owning => some { s with owner := .released }
  | .released => some { s with owner := .baseDestructor }
  | .baseDestructor => some { s.askStop with owner := .joinGuard }
  | .joinGuard => if s.guard = .done then some { s with owner := .destroyed } else none
  | .destroyed => none

variable [QueueBase Q] [QueueBase R]

/-- One step of an interleaving. `stop` is not called once the destruction has begun. -/
def step (parts : WorkerParts Q R) (s : Worker Q R) : WorkerLabel → Option (Worker Q R)
  | .readBegins =>
      ((ReadState.callMachine parts.readQueue parts.parser).step s.reader .begins).map
        fun reader => { s with reader, readOnSocket := s.owner.isDerived }
  | .read label =>
      if label.isOwn s.readOnSocket then
        ((ReadState.callMachine parts.readQueue parts.parser).step s.reader (.other label)).map
          fun reader => { s with reader }.setFlags reader.state.flags
      else none
  | .writeBegins =>
      ((WriteState.callMachine parts.writeQueue).step s.writer .begins).map
        fun writer => { s with writer, writeOnSocket := s.owner.isDerived }
  | .write label =>
      if label.isOwn s.writeOnSocket then
        ((WriteState.callMachine parts.writeQueue).step s.writer (.other label)).map fun writer =>
          let s' := { s with writer }.setFlags writer.state.flags
          if label.isReturn && !s.writeOnSocket then s'.clearWritten else s'
      else none
  | .stop => if s.owner = .owning then some s.askStop else none
  | .guard => s.guardStep
  | .owner => s.ownerStep

/-- All interleavings of a worker with these parts. -/
def machine (parts : WorkerParts Q R) : Machine (Worker Q R) WorkerLabel where
  init s := s = start parts
  step := step parts

end Worker

/-! ## Threads that do not come to a call again -/

/-- The thread is leaving its loop, or has left it. -/
def ReadPc.Leaves : ReadPc → Prop
  | .checkAlive readStatus => readStatus < 0
  | .finish | .done | .undefined | .terminated => True
  | _ => False

namespace ReadState

variable {Q : Type}

/-- The thread does not stand at a call, and leaves its loop before it comes to one: it is leaving
already, or a flag that it has still to test tells it to. -/
def PastCalls (s : ReadState Q) : Prop :=
  s.pc ≠ .read ∧
    (s.pc.Leaves ∨ s.flags.stopAsked = true ∨
      (s.flags.writeThreadAlive = false ∧ s.pc ≠ .headStop))

variable [QueueBase Q] {s s' : ReadState Q}

/-- What a step of the thread has to do with its calls: the loop tests both flags on the way. -/
theorem readerStep_towards (h : s.readerStep = some s') :
    (s'.pc = .read → s.pc = .headStop ∧ s.flags.stopAsked = false) ∧
      (s'.pc = .headStop → s.flags.writeThreadAlive = true) ∧ (s.pc.Leaves → s'.pc.Leaves) := by
  cases hpc : s.pc with
  | head =>
      simp only [readerStep, hpc] at h
      obtain rfl := Option.some.inj h
      cases halive : s.flags.writeThreadAlive <;> simp [ReadPc.Leaves]
  | headStop =>
      simp only [readerStep, hpc] at h
      obtain rfl := Option.some.inj h
      cases hasked : s.flags.stopAsked <;> simp [ReadPc.Leaves]
  | checkAlive readStatus =>
      simp only [readerStep, hpc] at h
      obtain rfl := Option.some.inj h
      simp only
      split
      · simp [ReadPc.Leaves]
      · rename_i hgoesOn
        simp only [not_or] at hgoesOn
        simp [ReadPc.Leaves, hgoesOn.1]
  | parse | put kg rest =>
      simp only [readerStep, hpc] at h
      repeat' split at h
      all_goals
        obtain rfl := Option.some.inj h
        simp [ReadPc.Leaves]
  | forLoop rest =>
      cases rest with
      | nil | cons kg rest =>
          simp only [readerStep, hpc] at h
          obtain rfl := Option.some.inj h
          simp [ReadPc.Leaves]
  | checkStop readStatus | innerAlive putStatus kg rest | innerStop putStatus kg rest
  | outerAlive rest | outerStop rest | finish =>
      simp only [readerStep, hpc] at h
      obtain rfl := Option.some.inj h
      simp only
      repeat' split
      all_goals simp [ReadPc.Leaves]
  | read | done | undefined | terminated => simp [readerStep, hpc] at h

/-- The thread alone sets at most its own flag. -/
theorem own_flags {onSocket : Bool} {label : ReadLabel} (hown : label.isOwn onSocket = true)
    (h : s.step label = some s') :
    s'.flags = s.flags ∨ s'.flags = { s.flags with readThreadAlive := false } := by
  cases label with
  | reader => exact readerStep_flags h
  | readReturns result =>
      obtain ⟨-, rfl⟩ := readReturns_cases h
      exact .inl (s.readReturns_flags result)
  | consumerGet => exact .inl (consumerGet_frame h).2
  | stop | writerDies => cases hown

theorem own_later {onSocket : Bool} {label : ReadLabel} (hown : label.isOwn onSocket = true)
    (h : s.step label = some s') : s.flags.Later s'.flags := by
  obtain hsame | hdead := own_flags hown h
  · rw [hsame]
    exact s.flags.later_refl
  · rw [hdead]
    exact s.flags.later_readDead

/-- In a call the thread stays where it is. -/
theorem atRead_stays {label : ReadLabel} (hat : s.atRead = true) (hlabel : label.isReturn = false)
    (h : s.step label = some s') : s'.atRead = true := by
  have hpc : s.pc = .read := of_decide_eq_true hat
  cases label with
  | reader => simp [step, readerStep, hpc] at h
  | readReturns result => cases hlabel
  | consumerGet =>
      rw [atRead, (consumerGet_frame h).1]
      exact hat
  | stop | writerDies =>
      obtain rfl := Option.some.inj h
      exact hat

/-- A thread that has returned makes no step any more. -/
theorem done_stays {onSocket : Bool} {label : ReadLabel} (hdone : s.pc = .done)
    (hown : label.isOwn onSocket = true) (h : s.step label = some s') : s'.pc = .done := by
  cases label with
  | reader => simp [step, readerStep, hdone] at h
  | readReturns result => simp [step, hdone] at h
  | consumerGet => exact (consumerGet_frame h).1.trans hdone
  | stop | writerDies => cases hown

omit [QueueBase Q] in
/-- The flags only change to the side on which the thread leaves. -/
theorem PastCalls.later {flags : WorkerFlags} (hpast : s.PastCalls) (h : s.flags.Later flags) :
    PastCalls { s with flags } :=
  ⟨hpast.1, hpast.2.imp_right (Or.imp h.stop (And.imp_left h.writeDead))⟩

/-- The thread stays past its calls. -/
theorem PastCalls.step {onSocket : Bool} {label : ReadLabel} (hpast : s.PastCalls)
    (hown : label.isOwn onSocket = true) (h : s.step label = some s') : s'.PastCalls := by
  have hlater := own_later hown h
  cases label with
  | reader =>
      obtain ⟨htoRead, htoStop, hleaves⟩ := readerStep_towards h
      obtain ⟨-, hleft | hasked | ⟨hdead, hnot⟩⟩ := hpast
      · refine ⟨fun hread => ?_, .inl (hleaves hleft)⟩
        rw [(htoRead hread).1] at hleft
        exact hleft
      · refine ⟨fun hread => ?_, .inr (.inl (hlater.stop hasked))⟩
        cases hasked.symm.trans (htoRead hread).2
      · refine ⟨fun hread => hnot (htoRead hread).1, .inr (.inr ⟨hlater.writeDead hdead, ?_⟩)⟩
        intro hhead
        cases hdead.symm.trans (htoStop hhead)
  | readReturns result => exact absurd (readReturns_cases h).1 hpast.1
  | consumerGet =>
      obtain ⟨hpc, hflags⟩ := consumerGet_frame h
      rw [PastCalls, hpc, hflags]
      exact hpast
  | stop | writerDies => cases hown

end ReadState

namespace WriteState

variable {Q : Type}

/-- The thread does not stand at a call, and leaves its loop before it comes to one: it is leaving
already, or a flag that it has still to test tells it to. -/
def PastCalls (s : WriteState Q) : Prop :=
  s.pc ≠ .write ∧
    (s.pc.Leaves ∨ s.flags.stopAsked = true ∨
      (s.flags.readThreadAlive = false ∧ ∀ getStatus, 0 < getStatus → s.pc ≠ .checkStop getStatus))

variable [QueueBase Q] {s s' : WriteState Q}

/-- The thread alone sets at most its own flag. -/
theorem own_flags {onSocket : Bool} {label : WriteLabel} (hown : label.isOwn onSocket = true)
    (h : s.step label = some s') :
    s'.flags = s.flags ∨ s'.flags = { s.flags with writeThreadAlive := false } := by
  cases label with
  | writer => exact writerStep_flags h
  | writeReturns writeStatus =>
      obtain ⟨-, rfl⟩ := writeReturns_cases h
      exact .inl (s.writeReturns_frame writeStatus).2
  | producerPut m => exact .inl (producerPut_frame h).2
  | stop | readerDies => cases hown

theorem own_later {onSocket : Bool} {label : WriteLabel} (hown : label.isOwn onSocket = true)
    (h : s.step label = some s') : s.flags.Later s'.flags := by
  obtain hsame | hdead := own_flags hown h
  · rw [hsame]
    exact s.flags.later_refl
  · rw [hdead]
    exact s.flags.later_writeDead

/-- In a call the thread stays where it is. -/
theorem atWrite_stays {label : WriteLabel} (hat : s.atWrite = true)
    (hlabel : label.isReturn = false) (h : s.step label = some s') : s'.atWrite = true := by
  have hpc : s.pc = .write := of_decide_eq_true hat
  cases label with
  | writer => simp [step, writerStep, hpc] at h
  | writeReturns writeStatus => cases hlabel
  | producerPut m =>
      rw [atWrite, (producerPut_frame h).1]
      exact hat
  | stop | readerDies =>
      obtain rfl := Option.some.inj h
      exact hat

/-- A thread that has returned makes no step any more. -/
theorem done_stays {onSocket : Bool} {label : WriteLabel} (hdone : s.pc = .done)
    (hown : label.isOwn onSocket = true) (h : s.step label = some s') : s'.pc = .done := by
  cases label with
  | writer => simp [step, writerStep, hdone] at h
  | writeReturns writeStatus => simp [step, hdone] at h
  | producerPut m => exact (producerPut_frame h).1.trans hdone
  | stop | readerDies => cases hown

omit [QueueBase Q] in
/-- The flags only change to the side on which the thread leaves. -/
theorem PastCalls.later {flags : WorkerFlags} (hpast : s.PastCalls) (h : s.flags.Later flags) :
    PastCalls { s with flags } :=
  ⟨hpast.1, hpast.2.imp_right (Or.imp h.stop (And.imp_left h.readDead))⟩

/-- The thread stays past its calls. -/
theorem PastCalls.step {onSocket : Bool} {label : WriteLabel} (hpast : s.PastCalls)
    (hown : label.isOwn onSocket = true) (h : s.step label = some s') : s'.PastCalls := by
  have hlater := own_later hown h
  cases label with
  | writer =>
      obtain ⟨htoWrite, htoStop, hleaves⟩ := writerStep_towards h
      obtain ⟨-, hleft | hasked | ⟨hdead, hnot⟩⟩ := hpast
      · refine ⟨fun hwrite => ?_, .inl (hleaves hleft)⟩
        obtain ⟨-, getStatus, -, hpc⟩ := htoWrite hwrite
        rw [hpc] at hleft
        exact hleft
      · refine ⟨fun hwrite => ?_, .inr (.inl (hlater.stop hasked))⟩
        cases hasked.symm.trans (htoWrite hwrite).1
      · refine ⟨fun hwrite => ?_, .inr (.inr ⟨hlater.readDead hdead, ?_⟩)⟩
        · obtain ⟨-, getStatus, hpos, hpc⟩ := htoWrite hwrite
          exact hnot getStatus hpos hpc
        · intro getStatus _ hcheck
          cases hdead.symm.trans (htoStop getStatus hcheck)
  | writeReturns writeStatus => exact absurd (writeReturns_cases h).1 hpast.1
  | producerPut m =>
      obtain ⟨hpc, hflags⟩ := producerPut_frame h
      rw [PastCalls, hpc, hflags]
      exact hpast
  | stop | readerDies => cases hown

end WriteState

/-! ## The invariant -/

namespace Worker

variable {Q R : Type}

/-- Both threads see the same flags, a thread in a call stands at it, and before the base class's
destructor such a call is one on the socket. -/
structure Inv (s : Worker Q R) : Prop where
  sameFlags : s.writer.state.flags = s.reader.state.flags
  reading : s.reader.busy = true → s.reader.state.atRead = true
  writing : s.writer.busy = true → s.writer.state.atWrite = true
  readDerived : s.owner.isDerived = true → s.reader.busy = true → s.readOnSocket = true
  writeDerived : s.owner.isDerived = true → s.writer.busy = true → s.writeOnSocket = true

/-- Both threads are past their calls. -/
structure Past (s : Worker Q R) : Prop where
  reader : s.reader.state.PastCalls
  writer : s.writer.state.PastCalls

variable {s s' : Worker Q R}

/-- A thread that is past its calls is not in one. -/
theorem Past.idle (hpast : s.Past) (hinv : s.Inv) :
    s.reader.busy = false ∧ s.writer.busy = false := by
  refine ⟨Bool.eq_false_iff.mpr fun hbusy => ?_, Bool.eq_false_iff.mpr fun hbusy => ?_⟩
  · exact hpast.reader.1 (of_decide_eq_true (hinv.reading hbusy))
  · exact hpast.writer.1 (of_decide_eq_true (hinv.writing hbusy))

theorem Past.askStop (hpast : s.Past) (hinv : s.Inv) : s.askStop.Past := by
  have hlater := s.reader.state.flags.later_stop
  refine ⟨hpast.reader.later hlater, hpast.writer.later ?_⟩
  rw [hinv.sameFlags]
  exact hlater

/-- The guard thread touches neither of the two threads. -/
theorem guardStep_cases (h : s.guardStep = some s') :
    ∃ guard stopped, s' = { s with guard, stopped } := by
  unfold guardStep at h
  repeat' split at h
  all_goals cases h
  all_goals exact ⟨_, _, rfl⟩

/-- The owner touches the two threads with the stop alone. No step leads back to the derived
class. -/
theorem ownerStep_cases (h : s.ownerStep = some s') :
    ∃ owner, (owner.isDerived = true → s.owner.isDerived = true) ∧
      (s' = { s with owner } ∨ s' = { s.askStop with owner }) := by
  unfold ownerStep at h
  cases howner : s.owner with
  | owning | released =>
      simp only [howner] at h
      obtain rfl := Option.some.inj h
      exact ⟨_, fun _ => rfl, .inl rfl⟩
  | baseDestructor =>
      simp only [howner] at h
      obtain rfl := Option.some.inj h
      exact ⟨.joinGuard, fun hderived => absurd hderived Bool.false_ne_true, .inr rfl⟩
  | joinGuard =>
      simp only [howner] at h
      split at h
      · obtain rfl := Option.some.inj h
        exact ⟨.destroyed, fun hderived => absurd hderived Bool.false_ne_true, .inl rfl⟩
      · cases h
  | destroyed => simp only [howner, reduceCtorEq] at h

section Steps

variable [QueueBase Q] [QueueBase R] {parts : WorkerParts Q R}

theorem readBegins_cases (h : s.step parts .readBegins = some s') :
    s.reader.state.atRead = true ∧
      s' = { s with
        reader := { s.reader with busy := true }, readOnSocket := s.owner.isDerived } := by
  obtain ⟨reader, hstep, rfl⟩ := Option.map_eq_some_iff.mp h
  obtain ⟨hat, -, rfl⟩ := Machine.splitCalls_begins hstep
  exact ⟨hat, rfl⟩

theorem writeBegins_cases (h : s.step parts .writeBegins = some s') :
    s.writer.state.atWrite = true ∧
      s' = { s with
        writer := { s.writer with busy := true }, writeOnSocket := s.owner.isDerived } := by
  obtain ⟨writer, hstep, rfl⟩ := Option.map_eq_some_iff.mp h
  obtain ⟨hat, -, rfl⟩ := Machine.splitCalls_begins hstep
  exact ⟨hat, rfl⟩

theorem stop_cases (h : s.step parts .stop = some s') : s' = s.askStop := by
  simp only [step] at h
  split at h
  · exact (Option.some.inj h).symm
  · cases h

theorem read_cases {label : ReadLabel} (h : s.step parts (.read label) = some s') :
    label.isOwn s.readOnSocket = true ∧
      ∃ reader, (ReadState.callMachine parts.readQueue parts.parser).step s.reader (.other label) =
          some reader ∧
        s' = { s with reader }.setFlags reader.state.flags := by
  simp only [step] at h
  split at h
  · rename_i hown
    obtain ⟨reader, hstep, rfl⟩ := Option.map_eq_some_iff.mp h
    exact ⟨hown, reader, hstep, rfl⟩
  · cases h

theorem write_cases {label : WriteLabel} (h : s.step parts (.write label) = some s') :
    label.isOwn s.writeOnSocket = true ∧
      ∃ writer, (WriteState.callMachine parts.writeQueue).step s.writer (.other label) =
          some writer ∧
        (s' = { s with writer }.setFlags writer.state.flags ∨
          (label.isReturn = true ∧ s.writeOnSocket = false) ∧
            s' = ({ s with writer }.setFlags writer.state.flags).clearWritten) := by
  simp only [step] at h
  split at h
  · rename_i hown
    obtain ⟨writer, hstep, rfl⟩ := Option.map_eq_some_iff.mp h
    refine ⟨hown, writer, hstep, ?_⟩
    split
    · rename_i hbase
      exact .inr ⟨by simpa using hbase, rfl⟩
    · exact .inl rfl
  · cases h

/-- Every step keeps the invariant. -/
theorem Inv.step {label : WorkerLabel} (hinv : s.Inv) (h : s.step parts label = some s') :
    s'.Inv := by
  obtain ⟨hsame, hreading, hwriting, hreadOn, hwriteOn⟩ := hinv
  cases label with
  | readBegins =>
      obtain ⟨hat, rfl⟩ := readBegins_cases h
      exact ⟨hsame, fun _ => hat, hwriting, fun hderived _ => hderived, hwriteOn⟩
  | read label =>
      obtain ⟨-, reader, hstep, rfl⟩ := read_cases h
      obtain ⟨-, -, hmark⟩ := Machine.splitCalls_other hstep
      refine ⟨rfl, ?_, hwriting, fun hderived hbusy => hreadOn hderived ?_, hwriteOn⟩
      · exact Machine.splitCalls_busy (fun _ _ _ => ReadState.atRead_stays) hreading hstep
      · exact (Bool.and_eq_true_iff.mp (hmark.symm.trans hbusy)).1
  | writeBegins =>
      obtain ⟨hat, rfl⟩ := writeBegins_cases h
      exact ⟨hsame, hreading, fun _ => hat, hreadOn, fun hderived _ => hderived⟩
  | write label =>
      obtain ⟨-, writer, hstep, rfl | ⟨-, rfl⟩⟩ := write_cases h
      all_goals
        obtain ⟨-, -, hmark⟩ := Machine.splitCalls_other hstep
        have hwriting' :=
          Machine.splitCalls_busy (fun _ _ _ => WriteState.atWrite_stays) hwriting hstep
        refine ⟨rfl, hreading, hwriting', hreadOn, fun hderived hbusy => hwriteOn hderived ?_⟩
        exact (Bool.and_eq_true_iff.mp (hmark.symm.trans hbusy)).1
  | stop =>
      obtain rfl := stop_cases h
      exact ⟨rfl, hreading, hwriting, hreadOn, hwriteOn⟩
  | guard =>
      obtain ⟨guard, stopped, rfl⟩ := guardStep_cases h
      exact ⟨hsame, hreading, hwriting, hreadOn, hwriteOn⟩
  | owner =>
      obtain ⟨owner, hback, rfl | rfl⟩ := ownerStep_cases h
      · exact ⟨hsame, hreading, hwriting, fun hderived => hreadOn (hback hderived),
          fun hderived => hwriteOn (hback hderived)⟩
      · exact ⟨rfl, hreading, hwriting, fun hderived => hreadOn (hback hderived),
          fun hderived => hwriteOn (hback hderived)⟩

/-- Once both threads are past their calls, they stay so. -/
theorem Past.step {label : WorkerLabel} (hinv : s.Inv) (hpast : s.Past)
    (h : s.step parts label = some s') : s'.Past := by
  cases label with
  | readBegins =>
      obtain ⟨-, rfl⟩ := readBegins_cases h
      exact ⟨hpast.reader, hpast.writer⟩
  | read label =>
      obtain ⟨hown, reader, hstep, rfl⟩ := read_cases h
      obtain ⟨-, hnext, -⟩ := Machine.splitCalls_other hstep
      refine ⟨hpast.reader.step hown hnext, hpast.writer.later ?_⟩
      rw [hinv.sameFlags]
      exact ReadState.own_later hown hnext
  | writeBegins =>
      obtain ⟨-, rfl⟩ := writeBegins_cases h
      exact ⟨hpast.reader, hpast.writer⟩
  | write label =>
      obtain ⟨hown, writer, hstep, rfl | ⟨-, rfl⟩⟩ := write_cases h
      all_goals
        obtain ⟨-, hnext, -⟩ := Machine.splitCalls_other hstep
        have hwriter := hpast.writer.step hown hnext
        refine ⟨hpast.reader.later ?_, hwriter.1, hwriter.2⟩
        rw [← hinv.sameFlags]
        exact WriteState.own_later hown hnext
  | stop =>
      obtain rfl := stop_cases h
      exact hpast.askStop hinv
  | guard =>
      obtain ⟨guard, stopped, rfl⟩ := guardStep_cases h
      exact ⟨hpast.reader, hpast.writer⟩
  | owner =>
      obtain ⟨owner, -, rfl | rfl⟩ := ownerStep_cases h
      · exact ⟨hpast.reader, hpast.writer⟩
      · have hstopped := hpast.askStop hinv
        exact ⟨hstopped.reader, hstopped.writer⟩

/-- The invariant holds in every reachable state. -/
theorem reachable_inv (h : (machine parts).Reachable s) : s.Inv := by
  have hinit : ∀ s, (machine parts).init s → s.Inv := by
    rintro s rfl
    have hidle : ¬ false = true := Bool.false_ne_true
    exact ⟨rfl, fun hbusy => absurd hbusy hidle, fun hbusy => absurd hbusy hidle,
      fun _ hbusy => absurd hbusy hidle, fun _ hbusy => absurd hbusy hidle⟩
  exact h.invariant hinit fun _ _ _ hinv hstep => hinv.step hstep

end Steps

/-! ## The release of the socket -/

/-- A call on the socket is in progress. -/
def UsesSocket (s : Worker Q R) : Prop :=
  (s.reader.busy = true ∧ s.readOnSocket = true) ∨ (s.writer.busy = true ∧ s.writeOnSocket = true)

/-- If the step is the release of the socket, both threads are past their calls. -/
def ReleasesPast (s : Worker Q R) (label : WorkerLabel) : Prop :=
  label = .owner → s.owner = .owning → s.Past

section Release

variable [QueueBase Q] [QueueBase R] {parts : WorkerParts Q R}

/-- Only the owner's own steps move it. -/
theorem owner_frame {label : WorkerLabel} (hlabel : label ≠ .owner)
    (h : s.step parts label = some s') : s'.owner = s.owner := by
  cases label with
  | readBegins =>
      obtain ⟨-, rfl⟩ := readBegins_cases h
      rfl
  | read label =>
      obtain ⟨-, reader, -, rfl⟩ := read_cases h
      rfl
  | writeBegins =>
      obtain ⟨-, rfl⟩ := writeBegins_cases h
      rfl
  | write label =>
      obtain ⟨-, writer, -, rfl | ⟨-, rfl⟩⟩ := write_cases h
      all_goals rfl
  | stop =>
      obtain rfl := stop_cases h
      rfl
  | guard =>
      obtain ⟨guard, stopped, rfl⟩ := guardStep_cases h
      rfl
  | owner => exact absurd rfl hlabel

/-- Behind a release that meets the condition both threads are past their calls. -/
theorem past_of_releasesPast (h : (machine parts).ReachableUnder ReleasesPast s) :
    s.owner ≠ .owning → s.Past := by
  have hinit : ∀ s, (machine parts).init s → s.Inv ∧ (s.owner ≠ .owning → s.Past) := by
    rintro s rfl
    exact ⟨reachable_inv (.start rfl), fun hreleased => absurd rfl hreleased⟩
  have hkept : ∀ s s' label, s.Inv ∧ (s.owner ≠ .owning → s.Past) → ReleasesPast s label →
      (machine parts).step s label = some s' → s'.Inv ∧ (s'.owner ≠ .owning → s'.Past) := by
    intro s s' label ⟨hinv, hpast⟩ hguard hstep
    refine ⟨hinv.step hstep, fun hreleased => ?_⟩
    by_cases howner : s.owner = .owning
    · -- the step that leads out of `owning` is the release
      have hrelease : label = .owner := by
        by_contra hlabel
        exact hreleased ((owner_frame hlabel hstep).trans howner)
      exact Past.step hinv (hguard hrelease howner) hstep
    · exact Past.step hinv (hpast howner) hstep
  exact (h.invariant hinit hkept).2

/-- In every run in which both threads are past their calls when the socket is released, no call on
the socket begins or is in progress behind the release. -/
theorem released_unused (h : (machine parts).ReachableUnder ReleasesPast s)
    (hreleased : s.owner ≠ .owning) : ¬ s.UsesSocket := by
  obtain ⟨hread, hwrite⟩ := (past_of_releasesPast h hreleased).idle (reachable_inv h.reachable)
  rintro (⟨hbusy, -⟩ | ⟨hbusy, -⟩)
  · cases hread.symm.trans hbusy
  · cases hwrite.symm.trans hbusy

/-- A worker with two rings of one cell. -/
def twoRings : WorkerParts RingQueue RingQueue := ⟨RingQueue.new 1 4, none, RingQueue.new 1 4⟩

/-- A worker that was stopped, and whose threads have left their loops, gives up its socket. -/
theorem released_unused_stopped : ∃ s, (machine twoRings).ReachableUnder ReleasesPast s ∧
    s.owner = .released ∧ ¬ s.UsesSocket := by
  have hrun : ((machine twoRings).run
      [.stop, .read .reader, .read .reader, .read .reader, .write .writer, .write .writer]
      (start twoRings)).map (fun s => (s.owner, s.reader.state.pc, s.writer.state.pc)) =
        some (.owning, .done, .done) := by
    decide +kernel
  obtain ⟨s, hs, hfields⟩ := Option.map_eq_some_iff.mp hrun
  obtain ⟨howner, hread, hwrite⟩ :
      s.owner = .owning ∧ s.reader.state.pc = .done ∧ s.writer.state.pc = .done := by
    simpa using hfields
  have hstopped : (machine twoRings).ReachableUnder ReleasesPast s :=
    .run _ (.start rfl) (fun label hlabel _ howner => by simp [howner] at hlabel) hs
  have hpast : s.Past :=
    ⟨⟨by simp [hread], .inl (by simp [hread, ReadPc.Leaves])⟩,
      ⟨by simp [hwrite], .inl (by simp [hwrite, WritePc.Leaves])⟩⟩
  have hstep : (machine twoRings).step s .owner = some { s with owner := .released } := by
    simp [machine, step, ownerStep, howner]
  have hreleased := hstopped.next (fun _ _ => hpast) hstep
  exact ⟨_, hreleased, rfl, released_unused hreleased (by simp)⟩

/-- The reading thread is inside a call on the socket when the destructor releases it, and still is
when the base class's destructor has asked for the stop. -/
theorem released_in_call : ∃ s, (machine twoRings).Reachable s ∧ s.owner = .joinGuard ∧
    s.UsesSocket := by
  have hrun : ((machine twoRings).run
      [.read .reader, .read .reader, .readBegins, .owner, .owner, .owner] (start twoRings)).map
        (fun s => (s.owner, s.reader.busy, s.readOnSocket)) = some (.joinGuard, true, true) := by
    decide +kernel
  obtain ⟨s, hs, hfields⟩ := Option.map_eq_some_iff.mp hrun
  obtain ⟨howner, huses⟩ : s.owner = .joinGuard ∧ s.reader.busy = true ∧ s.readOnSocket = true := by
    simpa using hfields
  exact ⟨s, Machine.reachable_of_run _ rfl hs, howner, .inl huses⟩

/-- The reading side of `t` is in the state `r`; its mark and the owner are as in `s`. -/
structure ReadsOn (s : Worker Q R) (r : ReadState Q) (t : Worker Q R) : Prop where
  state : t.reader.state = r
  onSocket : t.readOnSocket = s.readOnSocket
  owner : t.owner = s.owner

/-- The writing side of `t` is in the state `w`; its mark and the owner are as in `s`. -/
structure WritesOn (s : Worker Q R) (w : WriteState R) (t : Worker Q R) : Prop where
  state : t.writer.state = w
  onSocket : t.writeOnSocket = s.writeOnSocket
  owner : t.owner = s.owner

/-- Steps of the reading side that need no answer of the socket are steps of the worker. -/
theorem read_run {labels : List ReadLabel} {r : ReadState Q}
    (hlabels : ∀ label ∈ labels, label.isOwn s.readOnSocket = true ∧ label.isReturn = false)
    (hrun : (ReadState.machine parts.readQueue parts.parser).run labels s.reader.state = some r) :
    ∃ s', (machine parts).run (labels.map .read) s = some s' ∧ s'.owner = s.owner ∧
      s'.reader.state = r := by
  have hstep : ∀ label ∈ labels, ∀ r r' t, s.ReadsOn r t →
      (ReadState.machine parts.readQueue parts.parser).step r label = some r' →
        ∃ t', (machine parts).step t (.read label) = some t' ∧ s.ReadsOn r' t' := by
    rintro label hmem r r' t ⟨rfl, hon, howner⟩ hnext
    obtain ⟨hown, hreturn⟩ := hlabels label hmem
    rw [← hon] at hown
    refine ⟨{ t with reader := ⟨r', t.reader.busy⟩ }.setFlags r'.flags, ?_, rfl, hon, howner⟩
    simp [machine, step, hown, ReadState.callMachine, Machine.splitCalls, hreturn, hnext]
  have hstart : s.ReadsOn s.reader.state s := ⟨rfl, rfl, rfl⟩
  obtain ⟨s', hrun', hreader, -, howner⟩ := Machine.run_follows hstep hstart hrun
  exact ⟨s', hrun', howner, hreader⟩

/-- The same for the writing side. -/
theorem write_run {labels : List WriteLabel} {w : WriteState R}
    (hlabels : ∀ label ∈ labels, label.isOwn s.writeOnSocket = true ∧ label.isReturn = false)
    (hrun : (WriteState.machine parts.writeQueue).run labels s.writer.state = some w) :
    ∃ s', (machine parts).run (labels.map .write) s = some s' ∧ s'.owner = s.owner ∧
      s'.writer.state = w := by
  have hstep : ∀ label ∈ labels, ∀ w w' t, s.WritesOn w t →
      (WriteState.machine parts.writeQueue).step w label = some w' →
        ∃ t', (machine parts).step t (.write label) = some t' ∧ s.WritesOn w' t' := by
    rintro label hmem w w' t ⟨rfl, hon, howner⟩ hnext
    obtain ⟨hown, hreturn⟩ := hlabels label hmem
    rw [← hon] at hown
    refine ⟨{ t with writer := ⟨w', t.writer.busy⟩ }.setFlags w'.flags, ?_, rfl, hon, howner⟩
    simp [machine, step, hown, WriteState.callMachine, Machine.splitCalls, hreturn, hnext]
  have hstart : s.WritesOn s.writer.state s := ⟨rfl, rfl, rfl⟩
  obtain ⟨s', hrun', hwriter, -, howner⟩ := Machine.run_follows hstep hstart hrun
  exact ⟨s', hrun', howner, hwriter⟩

/-- A thread that stands at a call behind the release is in it, or begins it. -/
theorem use_of_atCall (hinv : s.Inv) (howner : s.owner = .released)
    (hat : s.reader.state.atRead = true ∨ s.writer.state.atWrite = true) :
    ∃ labels s', (machine parts).run labels s = some s' ∧ s'.owner = .released ∧
      s'.UsesSocket := by
  have hderived : s.owner.isDerived = true := by rw [howner]; rfl
  obtain hread | hwrite := hat
  · cases hbusy : s.reader.busy with
    | true => exact ⟨[], s, rfl, howner, .inl ⟨hbusy, hinv.readDerived hderived hbusy⟩⟩
    | false =>
        have hstep : (machine parts).step s .readBegins = some { s with
            reader := { s.reader with busy := true }, readOnSocket := true } := by
          simp [machine, step, ReadState.callMachine, Machine.splitCalls, hread, hbusy, hderived]
        exact ⟨[.readBegins], _, Option.bind_eq_some_iff.mpr ⟨_, hstep, rfl⟩, howner,
          .inl ⟨rfl, rfl⟩⟩
  · cases hbusy : s.writer.busy with
    | true => exact ⟨[], s, rfl, howner, .inr ⟨hbusy, hinv.writeDerived hderived hbusy⟩⟩
    | false =>
        have hstep : (machine parts).step s .writeBegins = some { s with
            writer := { s.writer with busy := true }, writeOnSocket := true } := by
          simp [machine, step, WriteState.callMachine, Machine.splitCalls, hwrite, hbusy, hderived]
        exact ⟨[.writeBegins], _, Option.bind_eq_some_iff.mpr ⟨_, hstep, rfl⟩, howner,
          .inr ⟨rfl, rfl⟩⟩

/-- The reading thread can come to a call without an answer of the socket. -/
def ReadCanCall (parts : WorkerParts Q R) (s : Worker Q R) : Prop :=
  ∃ labels r, (∀ label ∈ labels, label.isOwn s.readOnSocket = true ∧ label.isReturn = false) ∧
    (ReadState.machine parts.readQueue parts.parser).run labels s.reader.state = some r ∧
      r.atRead = true

/-- The writing thread can come to a call without an answer of the socket. -/
def WriteCanCall (parts : WorkerParts Q R) (s : Worker Q R) : Prop :=
  ∃ labels w, (∀ label ∈ labels, label.isOwn s.writeOnSocket = true ∧ label.isReturn = false) ∧
    (WriteState.machine parts.writeQueue).run labels s.writer.state = some w ∧ w.atWrite = true

/-- A release while a thread is in a call or can come to one leads to a call on the socket that is
in progress behind the release. -/
theorem released_in_use (h : (machine parts).Reachable s) (howner : s.owner = .owning)
    (hcan : s.ReadCanCall parts ∨ s.WriteCanCall parts) :
    ∃ labels s', (machine parts).run (.owner :: labels) s = some s' ∧ s'.owner = .released ∧
      s'.UsesSocket := by
  have hrelease : (machine parts).step s .owner = some { s with owner := .released } := by
    simp [machine, step, ownerStep, howner]
  have hat : ∃ labels s', (machine parts).run labels { s with owner := .released } = some s' ∧
      s'.owner = .released ∧ (s'.reader.state.atRead = true ∨ s'.writer.state.atWrite = true) := by
    obtain ⟨labels, r, hlabels, hrun, hat⟩ | ⟨labels, w, hlabels, hrun, hat⟩ := hcan
    · obtain ⟨s', hrun', howner', rfl⟩ :=
        read_run (s := { s with owner := .released }) hlabels hrun
      exact ⟨_, s', hrun', howner', .inl hat⟩
    · obtain ⟨s', hrun', howner', rfl⟩ :=
        write_run (s := { s with owner := .released }) hlabels hrun
      exact ⟨_, s', hrun', howner', .inr hat⟩
  obtain ⟨labels, middle, hrun, howner', hat⟩ := hat
  have hmiddle : (machine parts).Reachable middle := (h.step hrelease).run labels hrun
  have huse : ∃ more s', (machine parts).run more middle = some s' ∧ s'.owner = .released ∧
      s'.UsesSocket := use_of_atCall (reachable_inv hmiddle) howner' hat
  obtain ⟨more, s', hmore, hreleased, huses⟩ := huse
  refine ⟨labels ++ more, s', Option.bind_eq_some_iff.mpr ⟨_, hrelease, ?_⟩, hreleased, huses⟩
  rw [Machine.run_append]
  exact Option.bind_eq_some_iff.mpr ⟨middle, hrun, hmore⟩

end Release

/-! ## What outlives the threads -/

/-- A joined thread has returned, and the destruction ends behind the guard thread. -/
structure Joined (s : Worker Q R) : Prop where
  read : s.guard ≠ .joinRead → s.reader.state.pc = .done
  write : s.guard ≠ .joinRead → s.guard ≠ .joinWrite → s.writer.state.pc = .done
  guard : s.owner = .destroyed → s.guard = .done

/-- A step of the guard thread joins a thread that has returned. -/
theorem guardStep_joined (hjoined : s.Joined) (h : s.guardStep = some s') : s'.Joined := by
  obtain ⟨hread, hwrite, hguard⟩ := hjoined
  cases hpc : s.guard with
  | joinRead =>
      simp only [guardStep, hpc] at h
      split at h
      · rename_i hdone
        obtain rfl := Option.some.inj h
        refine ⟨fun _ => hdone, fun _ hjoin => absurd rfl hjoin, fun hdestroyed => ?_⟩
        cases hpc.symm.trans (hguard hdestroyed)
      · cases h
  | joinWrite =>
      simp only [guardStep, hpc] at h
      split at h
      · rename_i hdone
        obtain rfl := Option.some.inj h
        refine ⟨fun _ => hread (by simp [hpc]), fun _ _ => hdone, fun hdestroyed => ?_⟩
        cases hpc.symm.trans (hguard hdestroyed)
      · cases h
  | setStopped | callback =>
      simp only [guardStep, hpc] at h
      obtain rfl := Option.some.inj h
      refine ⟨fun _ => hread (by simp [hpc]), fun _ _ => hwrite (by simp [hpc]) (by simp [hpc]),
        fun hdestroyed => ?_⟩
      cases hpc.symm.trans (hguard hdestroyed)
  | done => simp [guardStep, hpc] at h

/-- The last step of the owner joins the guard thread. -/
theorem ownerStep_joined (hjoined : s.Joined) (h : s.ownerStep = some s') : s'.Joined := by
  obtain ⟨hread, hwrite, -⟩ := hjoined
  cases howner : s.owner with
  | owning | released | baseDestructor =>
      simp only [ownerStep, howner] at h
      obtain rfl := Option.some.inj h
      refine ⟨hread, hwrite, fun hdestroyed => ?_⟩
      cases hdestroyed
  | joinGuard =>
      simp only [ownerStep, howner] at h
      split at h
      · rename_i hdone
        obtain rfl := Option.some.inj h
        exact ⟨hread, hwrite, fun _ => hdone⟩
      · cases h
  | destroyed => simp [ownerStep, howner] at h

section Joins

variable [QueueBase Q] [QueueBase R] {parts : WorkerParts Q R}

/-- Every step keeps what is known of the joins. -/
theorem Joined.step {label : WorkerLabel} (hjoined : s.Joined)
    (h : s.step parts label = some s') : s'.Joined := by
  obtain ⟨hread, hwrite, hguard⟩ := hjoined
  cases label with
  | readBegins =>
      obtain ⟨-, rfl⟩ := readBegins_cases h
      exact ⟨hread, hwrite, hguard⟩
  | read label =>
      obtain ⟨hown, reader, hstep, rfl⟩ := read_cases h
      obtain ⟨-, hnext, -⟩ := Machine.splitCalls_other hstep
      exact ⟨fun hjoin => ReadState.done_stays (hread hjoin) hown hnext, hwrite, hguard⟩
  | writeBegins =>
      obtain ⟨-, rfl⟩ := writeBegins_cases h
      exact ⟨hread, hwrite, hguard⟩
  | write label =>
      obtain ⟨hown, writer, hstep, rfl | ⟨-, rfl⟩⟩ := write_cases h
      all_goals
        obtain ⟨-, hnext, -⟩ := Machine.splitCalls_other hstep
        have hdone := fun hjoin hjoin' =>
          WriteState.done_stays (hwrite hjoin hjoin') hown hnext
        exact ⟨hread, hdone, hguard⟩
  | stop =>
      obtain rfl := stop_cases h
      exact ⟨hread, hwrite, hguard⟩
  | guard => exact guardStep_joined ⟨hread, hwrite, hguard⟩ h
  | owner => exact ownerStep_joined ⟨hread, hwrite, hguard⟩ h

/-- In every run, once the worker is destroyed both of its threads have returned. So what belongs to
the base class outlives them. -/
theorem destroyed_threads_done (h : (machine parts).Reachable s)
    (hdestroyed : s.owner = .destroyed) :
    s.reader.state.pc = .done ∧ s.writer.state.pc = .done := by
  have hinit : ∀ s, (machine parts).init s → s.Joined := by
    rintro s rfl
    exact ⟨fun hjoin => absurd rfl hjoin, fun hjoin => absurd rfl hjoin,
      fun hdestroyed => by cases hdestroyed⟩
  obtain ⟨hread, hwrite, hguard⟩ := h.invariant hinit fun _ _ _ hjoined hstep => hjoined.step hstep
  have hdone := hguard hdestroyed
  have hjoinRead : s.guard ≠ .joinRead := by simp [hdone]
  exact ⟨hread hjoinRead, hwrite hjoinRead (by simp [hdone])⟩

end Joins

/-! ## The threads of a worker -/

section Parts

variable [QueueBase Q] [QueueBase R] {parts : WorkerParts Q R}

/-- Before the base class's destructor each thread is in a state of its own machine, the reading
thread even after that. -/
structure Tracks (parts : WorkerParts Q R) (s : Worker Q R) : Prop extends s.Inv where
  read : (ReadState.callMachine parts.readQueue parts.parser).Reachable s.reader
  write : s.owner.isDerived = true → (WriteState.callMachine parts.writeQueue).Reachable s.writer

/-- A step of the reading side is one of the reading machine, and the writing side sees it at most
as the death of the reading thread. -/
theorem Tracks.read_step {label : ReadLabel} (htracks : s.Tracks parts)
    (h : s.step parts (.read label) = some s') : s'.Tracks parts := by
  refine ⟨htracks.toInv.step h, ?_, ?_⟩
  · obtain ⟨-, reader, hstep, rfl⟩ := read_cases h
    exact htracks.read.step hstep
  · obtain ⟨hown, reader, hstep, rfl⟩ := read_cases h
    intro hderived
    have hwrite := htracks.write hderived
    obtain ⟨-, hnext, -⟩ := Machine.splitCalls_other hstep
    obtain hsame | hdead := ReadState.own_flags hown hnext
    · have hunchanged : ({ s with reader }.setFlags reader.state.flags).writer = s.writer := by
        simp only [setFlags, hsame, ← htracks.sameFlags]
      rw [hunchanged]
      exact hwrite
    · have hdies : (WriteState.callMachine parts.writeQueue).step s.writer (.other .readerDies) =
          some ({ s with reader }.setFlags reader.state.flags).writer := by
        simp [WriteState.callMachine, Machine.splitCalls, WriteLabel.isReturn, WriteState.machine,
          WriteState.step, setFlags, hdead, ← htracks.sameFlags]
      exact hwrite.step hdies

/-- A step of the writing side is one of the writing machine, and the reading side sees it at most
as the death of the writing thread. -/
theorem Tracks.write_step {label : WriteLabel} (htracks : s.Tracks parts)
    (h : s.step parts (.write label) = some s') : s'.Tracks parts := by
  have hinv := htracks.toInv.step h
  obtain ⟨hown, writer, hstep, hs'⟩ := write_cases h
  obtain ⟨hbusy, hnext, -⟩ := Machine.splitCalls_other hstep
  have hread : (ReadState.callMachine parts.readQueue parts.parser).Reachable
      ({ s with writer }.setFlags writer.state.flags).reader := by
    obtain hsame | hdead := WriteState.own_flags hown hnext
    · have hunchanged : ({ s with writer }.setFlags writer.state.flags).reader = s.reader := by
        simp only [setFlags, hsame, htracks.sameFlags]
      rw [hunchanged]
      exact htracks.read
    · have hdies : (ReadState.callMachine parts.readQueue parts.parser).step s.reader
          (.other .writerDies) = some ({ s with writer }.setFlags writer.state.flags).reader := by
        simp [ReadState.callMachine, Machine.splitCalls, ReadLabel.isReturn, ReadState.machine,
          ReadState.step, setFlags, hdead, htracks.sameFlags]
      exact htracks.read.step hdies
  obtain rfl | ⟨⟨hreturn, hbase⟩, rfl⟩ := hs'
  · exact ⟨hinv, hread, fun hderived => (htracks.write hderived).step hstep⟩
  · -- only a call of the base class's own function ends like this
    refine ⟨hinv, hread, fun hderived => ?_⟩
    cases hbase.symm.trans (htracks.writeDerived hderived (hbusy hreturn))

/-- Asking for the stop is a step of both machines. -/
theorem Tracks.askStop (htracks : s.Tracks parts) :
    (ReadState.callMachine parts.readQueue parts.parser).Reachable s.askStop.reader ∧
      (s.owner.isDerived = true →
        (WriteState.callMachine parts.writeQueue).Reachable s.askStop.writer) := by
  have hread : (ReadState.callMachine parts.readQueue parts.parser).step s.reader (.other .stop) =
      some s.askStop.reader := by
    simp [ReadState.callMachine, Machine.splitCalls, ReadLabel.isReturn, ReadState.machine,
      ReadState.step, Worker.askStop, setFlags]
  have hwrite : (WriteState.callMachine parts.writeQueue).step s.writer (.other .stop) =
      some s.askStop.writer := by
    simp [WriteState.callMachine, Machine.splitCalls, WriteLabel.isReturn, WriteState.machine,
      WriteState.step, Worker.askStop, setFlags, ← htracks.sameFlags]
  exact ⟨htracks.read.step hread, fun hderived => (htracks.write hderived).step hwrite⟩

theorem Tracks.step {label : WorkerLabel} (htracks : s.Tracks parts)
    (h : s.step parts label = some s') : s'.Tracks parts := by
  have hinv := htracks.toInv.step h
  cases label with
  | readBegins =>
      obtain ⟨reader, hstep, rfl⟩ := Option.map_eq_some_iff.mp h
      exact ⟨hinv, htracks.read.step hstep, htracks.write⟩
  | read label => exact htracks.read_step h
  | writeBegins =>
      obtain ⟨writer, hstep, rfl⟩ := Option.map_eq_some_iff.mp h
      exact ⟨hinv, htracks.read, fun hderived => (htracks.write hderived).step hstep⟩
  | write label => exact htracks.write_step h
  | stop =>
      obtain rfl := stop_cases h
      exact ⟨hinv, htracks.askStop.1, htracks.askStop.2⟩
  | guard =>
      obtain ⟨guard, stopped, rfl⟩ := guardStep_cases h
      exact ⟨hinv, htracks.read, htracks.write⟩
  | owner =>
      obtain ⟨owner, hback, rfl | rfl⟩ := ownerStep_cases h
      · exact ⟨hinv, htracks.read, fun hderived => htracks.write (hback hderived)⟩
      · exact ⟨hinv, htracks.askStop.1, fun hderived => htracks.askStop.2 (hback hderived)⟩

/-- Each thread of a worker goes through states of its own machine, the writing thread as long as
its calls are those of the derived class. -/
theorem reachable_tracks (h : (machine parts).Reachable s) : s.Tracks parts := by
  have hinit : ∀ s, (machine parts).init s → s.Tracks parts := by
    rintro s rfl
    exact ⟨reachable_inv (.start rfl), .start ⟨rfl, rfl⟩, fun _ => .start ⟨rfl, rfl⟩⟩
  exact h.invariant hinit fun _ _ _ htracks hstep => htracks.step hstep

theorem reader_reachable (h : (machine parts).Reachable s) :
    (ReadState.machine parts.readQueue parts.parser).Reachable s.reader.state :=
  (reachable_tracks h).read.state

theorem writer_reachable (h : (machine parts).Reachable s) (hderived : s.owner.isDerived = true) :
    (WriteState.machine parts.writeQueue).Reachable s.writer.state :=
  ((reachable_tracks h).write hderived).state

end Parts

end Worker

end Shovel.Workers
