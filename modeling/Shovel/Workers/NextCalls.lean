import Shovel.Library.Progress
import Shovel.Workers.Destruction
import Shovel.Workers.WriteProgress

/-!
# The way to the next call

As long as nobody stops it, the reading thread comes back to its read from every
program point, if the consumer goes on taking messages: a queue with a cell that
the consumer empties has room for the next datagram. `stepsToRead` counts the
steps of the two that are left until then, with a consumer that takes every
message before the thread puts another one. The writing thread comes to its write
by itself, as long as a message is left.
-/

namespace Shovel.Workers

open Containers Parsers Transition Bounded

/-- The steps that are left to the thread until it reads again, when the parser finds so many
datagrams in the local array and no `put` is refused any more. -/
def ReadPc.stepsToRead (found : Nat) : ReadPc → Nat
  | .read | .finish | .done | .undefined | .terminated => 0
  | .headStop => 1
  | .head => 2
  | .checkAlive readStatus => if readStatus = 0 then 4 else 8 * found + 6
  | .checkStop readStatus => if readStatus = 0 then 3 else 8 * found + 5
  | .parse => 8 * found + 4
  | .forLoop rest => 8 * rest.length + 3
  | .put _ rest => 8 * rest.length + 9
  | .innerAlive putStatus _ rest => 8 * rest.length + if putStatus = 0 then 11 else 7
  | .innerStop putStatus _ rest => 8 * rest.length + if putStatus = 0 then 10 else 6
  | .outerAlive rest => 8 * rest.length + 5
  | .outerStop rest => 8 * rest.length + 4

namespace ReadState

variable {Q : Type}

/-- Nobody has stopped the thread, and it does not leave its loop. -/
structure Going (s : ReadState Q) : Prop where
  running : ¬ s.Stopped
  inLoop : ¬ s.pc.Leaves

/-- The number of datagrams that the parser finds in the local array. -/
def found (s : ReadState Q) : Nat :=
  match s.parser with
  | some parser => ((parser.put s.arr.content).toOption.map fun answer => answer.1.length).getD 0
  | none => 0

/-- A step of the thread itself or of its consumer. -/
def OwnOrConsumer : ReadLabel → Prop
  | .reader | .consumerGet => True
  | .readReturns _ | .stop | .writerDies => False

/-- The parser accepts the chunks read so far. -/
def ChunksAccepted (s : ReadState Q) : Prop :=
  ∃ outputs p, ParserExample.putAll .init s.chunks = .ok (outputs, p)

variable {s s' : ReadState Q} {Rel : Q → MessageFifo → Prop}

theorem Going.flags (hgoing : s.Going) :
    s.flags.stopAsked = false ∧ s.flags.writeThreadAlive = true := by
  have hrunning := hgoing.running
  simpa [Stopped] using hrunning

/-- A thread that goes on still does at another point of its loop. -/
theorem Going.move (hgoing : s.Going) (hflags : s'.flags = s.flags) (hpc : ¬ s'.pc.Leaves) :
    s'.Going :=
  ⟨by rw [Stopped, hflags]; exact hgoing.running, hpc⟩

/-- The steps to the next read, those of the consumer included. -/
def stepsToRead [QueueBase Q] (s : ReadState Q) : Nat :=
  s.pc.stepsToRead s.found + QueueBase.size s.queue

variable [QueueBase Q]

/-- A step that only moves the program point to one from which the read is nearer. -/
theorem Going.moveTo (hgoing : s.Going) (pc : ReadPc) (hstep : s.readerStep = some { s with pc })
    (hloop : ¬ pc.Leaves) (hless : pc.stepsToRead s.found < s.pc.stepsToRead s.found) :
    ∃ s', s.readerStep = some s' ∧ s'.Going ∧ s'.stepsToRead < s.stepsToRead :=
  ⟨_, hstep, ⟨hgoing.running, hloop⟩, Nat.add_lt_add_right hless _⟩

/-- A thread that goes on does so after each of its steps, if its parser accepts the chunks. -/
theorem readerStep_going (hsim : Simulates Q Rel) (hinv : Inv Rel s) (hgoing : s.Going)
    (hchunks : s.ChunksAccepted) (hstep : s.readerStep = some s') : s'.Going := by
  obtain ⟨hasked, halive⟩ := hgoing.flags
  obtain ⟨outputs, p, hput⟩ := hchunks
  have hinv' := readerStep_inv hsim hinv hstep
  obtain ⟨hsame, -⟩ := readerStep_record hstep
  have hfault : s'.pc ≠ .undefined := by
    intro hpc
    obtain ⟨a, -, hat⟩ := hinv'
    simp only [AtPc, hpc] at hat
    obtain ⟨⟨fault, hfault⟩, -⟩ := hat
    rw [hsame, hput] at hfault
    cases hfault
  have hterminated : s'.pc ≠ .terminated := by
    intro hpc
    obtain ⟨a, -, hat⟩ := hinv'
    simp only [AtPc, hpc] at hat
  cases hpc : s.pc with
  | read => simp [readerStep, hpc] at hstep
  | finish | done | undefined | terminated =>
      exact absurd (by rw [hpc]; trivial) hgoing.inLoop
  | parse | put kg rest =>
      simp only [readerStep, hpc] at hstep
      repeat' split at hstep
      all_goals
        obtain rfl := Option.some.inj hstep
        first
          | exact absurd rfl hfault
          | exact absurd rfl hterminated
          | exact hgoing.move rfl id
  | forLoop rest =>
      cases rest with
      | nil | cons kg rest =>
          simp only [readerStep, hpc] at hstep
          obtain rfl := Option.some.inj hstep
          exact hgoing.move rfl id
  | checkAlive readStatus =>
      have hnonneg : ¬ readStatus < 0 := by
        have hloop := hgoing.inLoop
        rwa [hpc] at hloop
      simp only [readerStep, hpc, hnonneg, halive, Bool.true_eq_false, or_self, if_false] at hstep
      obtain rfl := Option.some.inj hstep
      exact hgoing.move rfl id
  | checkStop readStatus | innerStop putStatus kg rest =>
      simp only [readerStep, hpc, hasked, Bool.false_eq_true, if_false] at hstep
      obtain rfl := Option.some.inj hstep
      refine hgoing.move rfl ?_
      simp only
      split <;> exact id
  | head | headStop | innerAlive putStatus kg rest | outerAlive rest | outerStop rest =>
      simp only [readerStep, hpc, hasked, halive, Bool.false_eq_true, if_true, if_false] at hstep
      obtain rfl := Option.some.inj hstep
      exact hgoing.move rfl id

/-- Parsing a chunk brings the thread to the datagrams that the parser finds in it. -/
theorem parse_nearer (hinv : Inv Rel s) (hgoing : s.Going) (hchunks : s.ChunksAccepted)
    (hpc : s.pc = .parse) :
    ∃ s', s.readerStep = some s' ∧ s'.Going ∧ s'.stepsToRead < s.stepsToRead := by
  obtain ⟨a, -, hat⟩ := hinv
  simp only [AtPc, hpc] at hat
  obtain ⟨earlier, hlast, hall⟩ := hat
  obtain ⟨outputs, p, hparser, -⟩ := id hall
  cases hput : p.put s.arr.content with
  | error fault =>
      rw [hparser] at hall
      have hfault := hall.parse_error hput
      obtain ⟨accepted, q, hok⟩ := hchunks
      rw [hlast, hfault] at hok
      cases hok
  | ok answer =>
      obtain ⟨dgVector, p'⟩ := answer
      have hfound : s.found = dgVector.length := by simp [found, hparser, hput, Except.toOption]
      refine ⟨{ s with parser := some p', pc := .forLoop dgVector }, ?_, hgoing.move rfl id, ?_⟩
      · simp only [readerStep, hpc, hparser, hput]
      · simp only [stepsToRead, ReadPc.stepsToRead, hpc, hfound]
        omega

/-- A `put` into a queue that the consumer has emptied hands the datagram over. -/
theorem put_nearer (hsim : Simulates Q Rel) (hroom : ∀ {q a}, Rel q a → 0 < a.fifo.bound)
    (hinv : Inv Rel s) (hgoing : s.Going) {kg : List UInt8} {rest : List (List UInt8)}
    (hpc : s.pc = .put kg rest) (hempty : QueueBase.size s.queue = 0) :
    ∃ s', s.readerStep = some s' ∧ s'.Going ∧ s'.stepsToRead < s.stepsToRead := by
  obtain ⟨a, hrel, hat⟩ := hinv
  simp only [AtPc, hpc] at hat
  obtain ⟨hlow, hhigh⟩ := hat.bounds kg (by simp)
  have hsize : 0 < (castMessage kg).size := by
    rw [Message.size, castMessage_bytes (Nat.lt_succ_of_le hhigh)]
    exact Nat.lt_of_lt_of_le (by decide) hlow
  have hnone : a.fifo.items.length = 0 := (hsim.size hrel).symm.trans hempty
  have hfits : a.fifo.HasRoom := by
    rw [Fifo.HasRoom, hnone]
    exact hroom hrel
  obtain ⟨queue, hput, hnext⟩ := hsim.put (castMessage kg) hrel
  have hone : QueueBase.size queue = 1 := by
    rw [hsim.size hnext, MessageFifo.put_room hfits, Fifo.push_items hfits, List.length_append,
      hnone]
    rfl
  rw [MessageFifo.put_room hfits] at hput
  refine ⟨{ s with queue, pc := .innerAlive (castMessage kg).size kg rest }, ?_,
    hgoing.move rfl id, ?_⟩
  · simp only [readerStep, hpc, hput]
  · simp only [stepsToRead, ReadPc.stepsToRead, hpc, hone, hempty, Nat.ne_of_gt hsize, if_false]
    omega

/-- A `get` of the consumer takes a message from a queue that has one. -/
theorem consumerGet_takes (hsim : Simulates Q Rel) (hinv : Inv Rel s)
    (hsome : QueueBase.size s.queue ≠ 0) :
    ∃ queue taken, s.step .consumerGet = some { s with queue, taken } ∧
      QueueBase.size queue < QueueBase.size s.queue := by
  obtain ⟨a, hrel, -⟩ := hinv
  obtain ⟨queue, hget, hnext⟩ := hsim.get connectionWorkerArrSize hrel
  refine ⟨queue, _, by simp only [step, hget]; rfl, ?_⟩
  rw [hsim.size hnext, MessageFifo.get, Fifo.pop_items, List.length_tail, ← hsim.size hrel]
  omega

/-- A thread that goes on and does not stand at its read comes nearer to it, by a step of its own or
by one of the consumer. -/
theorem nearer (hsim : Simulates Q Rel) (hroom : ∀ {q a}, Rel q a → 0 < a.fifo.bound)
    (hinv : Inv Rel s) (hgoing : s.Going) (hchunks : s.ChunksAccepted) (hread : s.pc ≠ .read) :
    ∃ label s', OwnOrConsumer label ∧ s.step label = some s' ∧ s'.Going ∧ s'.chunks = s.chunks ∧
      s'.stepsToRead < s.stepsToRead := by
  obtain ⟨hasked, halive⟩ := hgoing.flags
  by_cases hconsumer : QueueBase.size s.queue = 0
  · suffices ∃ s', s.readerStep = some s' ∧ s'.Going ∧ s'.stepsToRead < s.stepsToRead by
      obtain ⟨s', hstep, hgoing', hless⟩ := this
      exact ⟨.reader, s', trivial, hstep, hgoing', (readerStep_record hstep).1, hless⟩
    cases hpc : s.pc with
    | read => exact absurd hpc hread
    | finish | done | undefined | terminated =>
        exact absurd (by rw [hpc]; trivial) hgoing.inLoop
    | parse => exact parse_nearer hinv hgoing hchunks hpc
    | put kg rest => exact put_nearer hsim hroom hinv hgoing hpc hconsumer
    | forLoop rest =>
        cases rest with
        | nil =>
            refine hgoing.moveTo .head (by simp [readerStep, hpc]) id ?_
            simp [hpc, ReadPc.stepsToRead]
        | cons kg rest =>
            refine hgoing.moveTo (.put kg rest) (by simp [readerStep, hpc]) id ?_
            simp only [hpc, ReadPc.stepsToRead, List.length_cons]
            omega
    | checkAlive readStatus =>
        have hnonneg : ¬ readStatus < 0 := by
          have hloop := hgoing.inLoop
          rwa [hpc] at hloop
        refine hgoing.moveTo (.checkStop readStatus) ?_ id ?_
        · simp [readerStep, hpc, hnonneg, halive]
        · simp only [hpc, ReadPc.stepsToRead]
          split <;> omega
    | checkStop readStatus =>
        by_cases hzero : readStatus = 0
        · refine hgoing.moveTo .head (by simp [readerStep, hpc, hasked, hzero]) id ?_
          simp [hpc, ReadPc.stepsToRead, hzero]
        · refine hgoing.moveTo .parse (by simp [readerStep, hpc, hasked, hzero]) id ?_
          simp [hpc, ReadPc.stepsToRead, hzero]
    | innerAlive putStatus kg rest =>
        refine hgoing.moveTo (.innerStop putStatus kg rest) ?_ id ?_
        · simp [readerStep, hpc, halive]
        · simp only [hpc, ReadPc.stepsToRead]
          split <;> omega
    | innerStop putStatus kg rest =>
        by_cases hfull : putStatus = 0
        · refine hgoing.moveTo (.put kg rest) (by simp [readerStep, hpc, hasked, hfull]) id ?_
          simp [hpc, ReadPc.stepsToRead, hfull]
        · refine hgoing.moveTo (.outerAlive rest) (by simp [readerStep, hpc, hasked, hfull]) id ?_
          simp [hpc, ReadPc.stepsToRead, hfull]
    | head | headStop | outerAlive rest | outerStop rest =>
        refine hgoing.moveTo _ (by simp only [readerStep, hpc, hasked, halive]; rfl) id ?_
        simp [hpc, ReadPc.stepsToRead]
  · obtain ⟨queue, taken, hstep, hless⟩ := consumerGet_takes hsim hinv hconsumer
    exact ⟨.consumerGet, _, trivial, hstep, ⟨hgoing.running, hgoing.inLoop⟩, rfl,
      Nat.add_lt_add_left hless _⟩

/-- A thread that goes on can come back to its read, if its parser accepts the chunks read so far
and the consumer takes what is handed over. -/
theorem comes_to_read (queue : Q) (parser : Option ParserExample) (hsim : Simulates Q Rel)
    (hroom : ∀ {q a}, Rel q a → 0 < a.fifo.bound) (hinv : Inv Rel s) (hgoing : s.Going)
    (hchunks : s.ChunksAccepted) :
    ∃ final, (machine queue parser).Leads OwnOrConsumer s final ∧
      (Inv Rel final ∧ final.Going ∧ final.chunks = s.chunks) ∧ final.pc = .read := by
  have hnearer : ∀ state, Inv Rel state ∧ state.Going ∧ state.chunks = s.chunks →
      ¬ state.pc = .read → ∃ following,
        (machine queue parser).Leads OwnOrConsumer state following ∧
        (Inv Rel following ∧ following.Going ∧ following.chunks = s.chunks) ∧
        following.stepsToRead < state.stepsToRead := by
    rintro state ⟨hstate, hgoes, hsame⟩ hread
    have haccepted : state.ChunksAccepted := by rwa [ChunksAccepted, hsame]
    obtain ⟨label, following, hlabel, hstep, hnext, hchunks', hless⟩ :=
      nearer hsim hroom hstate hgoes haccepted hread
    exact ⟨following, .single hlabel hstep,
      ⟨step_inv hsim label hstate hstep, hnext, hchunks'.trans hsame⟩, hless⟩
  exact Machine.Leads.descend hnearer ⟨hinv, hgoing, rfl⟩

/-- At its read the thread has handed over all datagrams of the chunks, and the consumer can take
them all. -/
theorem consumer_takes_all (queue : Q) (parser : Option ParserExample) (hsim : Simulates Q Rel)
    {outputs : List (List (List UInt8))} {p : ParserExample} (hinv : Inv Rel s)
    (hpc : s.pc = .read) (hput : ParserExample.putAll .init s.chunks = .ok (outputs, p)) :
    ∃ final, (machine queue parser).Leads OwnOrConsumer s final ∧
      final.taken = outputs.flatten := by
  have htakes : ∀ state, Inv Rel state ∧ state.pc = .read ∧ state.chunks = s.chunks →
      ¬ QueueBase.size state.queue = 0 → ∃ following,
        (machine queue parser).Leads OwnOrConsumer state following ∧
        (Inv Rel following ∧ following.pc = .read ∧ following.chunks = s.chunks) ∧
        QueueBase.size following.queue < QueueBase.size state.queue := by
    rintro state ⟨hstate, hread, hsame⟩ hsome
    obtain ⟨queue, taken, hstep, hless⟩ := consumerGet_takes hsim hstate hsome
    have hown : OwnOrConsumer .consumerGet := trivial
    exact ⟨_, .single hown hstep, ⟨step_inv hsim .consumerGet hstate hstep, hread, hsame⟩, hless⟩
  obtain ⟨final, hleads, ⟨⟨a, hrel, hat⟩, hread, hchunks⟩, hempty⟩ :=
    Machine.Leads.descend htakes ⟨hinv, hpc, rfl⟩
  refine ⟨final, hleads, ?_⟩
  simp only [AtPc, hread] at hat
  obtain ⟨others, q, -, hothers, hflat⟩ := hat
  obtain ⟨rfl, -⟩ := Outcome.answer_unique hput (hchunks ▸ hothers)
  have hnone : a.fifo.items = [] :=
    List.eq_nil_of_length_eq_zero ((hsim.size hrel).symm.trans hempty)
  simpa [hnone] using hflat

end ReadState

/-- The steps that are left to the thread until it writes, when a message is queued. -/
def WritePc.stepsToWrite : WritePc → Nat
  | .write | .finish | .done | .terminated => 0
  -- the queue was empty when the thread looked at it
  | .checkStop getStatus => if getStatus = 0 then 6 else 1
  | .checkAlive getStatus => if getStatus = 0 then 7 else 2
  | .peek => 3
  | .headStop => 4
  | .head => 5
  | .pop => 6

namespace WriteState

variable {Q : Type}

/-- Nobody has stopped the thread, and it does not leave its loop. -/
structure Going (s : WriteState Q) : Prop where
  running : s.Running
  inLoop : ¬ s.pc.Leaves

variable {s s' : WriteState Q} {Rel : Q → MessageFifo → Prop} {queued : List (List UInt8)}

/-- A message that the source has not taken is queued. -/
theorem AtPc.queued_ne_nil (hat : s.AtPc queued) (hpc : s.pc ≠ .pop)
    (hleft : s.taken.length < s.accepted.length) : queued ≠ [] := by
  rintro rfl
  have hall := hat.conserved hpc
  rw [List.append_nil] at hall
  rw [hall] at hleft
  exact Nat.lt_irrefl _ hleft

/-- The queued messages have been accepted. -/
theorem AtPc.queued_accepted (hat : s.AtPc queued) (hpc : s.pc ≠ .pop) :
    ∀ m ∈ queued, m ∈ s.accepted := by
  intro m hm
  rw [← hat.conserved hpc]
  exact List.mem_append_right _ hm

variable [QueueBase Q]

/-- A step that only moves the program point to one from which the write is nearer. -/
theorem Going.moveTo (hgoing : s.Going) (pc : WritePc) (hstep : s.writerStep = some { s with pc })
    (hloop : ¬ pc.Leaves) (hless : pc.stepsToWrite < s.pc.stepsToWrite) :
    ∃ s', s.writerStep = some s' ∧ s'.Going ∧ s'.pc.stepsToWrite < s.pc.stepsToWrite :=
  ⟨_, hstep, ⟨hgoing.running, hloop⟩, hless⟩

/-- A thread that goes on does so after each of its steps. -/
theorem writerStep_going (hsim : Simulates Q Rel) (hinv : Inv Rel s) (hgoing : s.Going)
    (hstep : s.writerStep = some s') : s'.Going := by
  obtain ⟨halive, hasked⟩ := hgoing.running
  obtain ⟨-, hsameAlive, hsameAsked⟩ := writerStep_frame hstep
  refine ⟨⟨hsameAlive.trans halive, hsameAsked.trans hasked⟩, ?_⟩
  have hterminated : s'.pc ≠ .terminated := by
    intro hpc
    obtain ⟨a, -, hat⟩ := writerStep_inv hsim hinv hstep
    simp only [AtPc, hpc] at hat
  cases hpc : s.pc with
  | write => simp [writerStep, hpc] at hstep
  | finish | done | terminated => exact absurd (by rw [hpc]; trivial) hgoing.inLoop
  | peek | pop =>
      simp only [writerStep, hpc] at hstep
      split at hstep
      all_goals
        obtain rfl := Option.some.inj hstep
        first
          | exact absurd rfl hterminated
          | exact id
  | checkStop getStatus =>
      simp only [writerStep, hpc, hasked, Bool.false_eq_true, if_false] at hstep
      obtain rfl := Option.some.inj hstep
      simp only
      split <;> exact id
  | head | headStop | checkAlive getStatus =>
      simp only [writerStep, hpc, hasked, halive, Bool.false_eq_true, if_true, if_false] at hstep
      obtain rfl := Option.some.inj hstep
      exact id

/-- Peeking finds the first message, which is not empty. -/
theorem peek_nearer (hsim : Simulates Q Rel) (hinv : Inv Rel s) (hgoing : s.Going)
    (hleft : s.taken.length < s.accepted.length) (hbytes : ∀ m ∈ s.accepted, m ≠ [])
    (hpc : s.pc = .peek) :
    ∃ s', s.writerStep = some s' ∧ s'.Going ∧ s'.pc.stepsToWrite < s.pc.stepsToWrite := by
  obtain ⟨a, hrel, hat⟩ := hinv
  have hnot : s.pc ≠ .pop := by simp [hpc]
  cases hitems : a.fifo.items with
  | nil => exact absurd (by rw [hitems]; rfl) (hat.queued_ne_nil hnot hleft)
  | cons m rest =>
      have hmem := hat.queued_accepted hnot m.bytes (by simp [hitems])
      have hsize : m.size ≠ 0 := fun hzero =>
        hbytes m.bytes hmem (List.length_eq_zero_iff.mp hzero)
      obtain ⟨queue, hpeek, -⟩ := hsim.peek connectionWorkerArrSize hrel
      have hlook := look_whole (a := a) (m := m) (by simp [hitems])
      simp only [MessageFifo.peek, hlook] at hpeek
      have hstep : s.writerStep = some { s with
          queue
          arr := (s.arr.store m.bytes).resize m.size
          pc := .checkAlive m.size
          pending := some m.bytes } := by
        simp only [writerStep, hpc, hpeek, hsize, if_false]
      refine ⟨_, hstep, ⟨hgoing.running, id⟩, ?_⟩
      simp [WritePc.stepsToWrite, hpc, hsize]

/-- Removing the message that has been written leads back to the loop's head. -/
theorem pop_nearer (hsim : Simulates Q Rel) (hinv : Inv Rel s) (hgoing : s.Going)
    (hpc : s.pc = .pop) :
    ∃ s', s.writerStep = some s' ∧ s'.Going ∧ s'.pc.stepsToWrite < s.pc.stepsToWrite := by
  obtain ⟨a, hrel, -⟩ := hinv
  obtain ⟨queue, hget, -⟩ := hsim.get 0 hrel
  have hstep : s.writerStep = some { s with queue, pc := .head } := by
    simp only [writerStep, hpc, hget]
  refine ⟨_, hstep, ⟨hgoing.running, id⟩, ?_⟩
  simp [WritePc.stepsToWrite, hpc]

/-- A thread that goes on and has a message left comes nearer to its write by each of its steps. -/
theorem nearer (hsim : Simulates Q Rel) (hinv : Inv Rel s) (hgoing : s.Going)
    (hleft : s.taken.length < s.accepted.length) (hbytes : ∀ m ∈ s.accepted, m ≠ [])
    (hwrite : s.pc ≠ .write) :
    ∃ s', s.writerStep = some s' ∧ s'.Going ∧ s'.pc.stepsToWrite < s.pc.stepsToWrite := by
  obtain ⟨halive, hasked⟩ := hgoing.running
  cases hpc : s.pc with
  | write => exact absurd hpc hwrite
  | finish | done | terminated => exact absurd (by rw [hpc]; trivial) hgoing.inLoop
  | peek => exact hpc ▸ peek_nearer hsim hinv hgoing hleft hbytes hpc
  | pop => exact hpc ▸ pop_nearer hsim hinv hgoing hpc
  | head | headStop =>
      rw [← hpc]
      refine hgoing.moveTo _ (by simp only [writerStep, hpc, hasked, halive]; rfl) id ?_
      simp [hpc, WritePc.stepsToWrite]
  | checkAlive getStatus =>
      rw [← hpc]
      refine hgoing.moveTo (.checkStop getStatus) (by simp [writerStep, hpc, halive]) id ?_
      simp only [hpc, WritePc.stepsToWrite]
      split <;> omega
  | checkStop getStatus =>
      rw [← hpc]
      by_cases hempty : getStatus = 0
      · refine hgoing.moveTo .head (by simp [writerStep, hpc, hasked, hempty]) id ?_
        simp [hpc, WritePc.stepsToWrite, hempty]
      · have hpos : 0 < getStatus := Nat.pos_of_ne_zero hempty
        refine hgoing.moveTo .write (by simp [writerStep, hpc, hasked, hpos]) id ?_
        simp [hpc, WritePc.stepsToWrite, hempty]

/-- A thread that goes on and has a message left comes to its write by itself. -/
theorem comes_to_write (queue : Q) (hsim : Simulates Q Rel) (hinv : Inv Rel s) (hgoing : s.Going)
    (hleft : s.taken.length < s.accepted.length) (hbytes : ∀ m ∈ s.accepted, m ≠ []) :
    ∃ final, (machine queue).Leads (· = .writer) s final ∧
      (Inv Rel final ∧ final.Going ∧ final.taken = s.taken ∧ final.accepted = s.accepted) ∧
      final.pc = .write := by
  have hnearer : ∀ state, (Inv Rel state ∧ state.Going ∧ state.taken = s.taken ∧
        state.accepted = s.accepted) → ¬ state.pc = .write → ∃ following,
        (machine queue).Leads (· = .writer) state following ∧
        (Inv Rel following ∧ following.Going ∧ following.taken = s.taken ∧
          following.accepted = s.accepted) ∧
        following.pc.stepsToWrite < state.pc.stepsToWrite := by
    rintro state ⟨hstate, hgoes, htaken, haccepted⟩ hwrite
    rw [← htaken, ← haccepted] at hleft
    rw [← haccepted] at hbytes
    obtain ⟨following, hstep, hnext, hless⟩ := nearer hsim hstate hgoes hleft hbytes hwrite
    have hown : (machine queue).step state .writer = some following := hstep
    exact ⟨following, .single rfl hown,
      ⟨step_inv hsim .writer hstate hstep, hnext, (writerStep_record hstep).1.trans htaken,
        (writerStep_frame hstep).1.trans haccepted⟩, hless⟩
  exact Machine.Leads.descend hnearer ⟨hinv, hgoing, rfl, rfl⟩

end WriteState

end Shovel.Workers
