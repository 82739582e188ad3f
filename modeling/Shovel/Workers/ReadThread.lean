import Shovel.Library.Machine
import Shovel.Containers.RingQueueFifo
import Shovel.Parsers.Scan
import Shovel.Workers.ConnectionWorker

/-!
# The reading thread

`thread_read_from_source` with each test of a flag, each call of the parser and
each call of the queue as a step of its own. Between two steps a consumer may
take a message from the queue, `stop` may be called and the writing thread may
die. The state keeps the chunks read and the messages taken, which the code does
not store.

The invariant says at each program point how the datagrams of the chunks parsed
so far split: those handed over, which are the taken messages followed by the
queued ones, and those the thread has still to hand over.
-/

namespace Shovel.Workers

open Containers Parsers Transition Bounded

/-- A chunk that `read_data_from_source` can store: 1 to 65535 bytes. -/
structure Chunk where
  bytes : List UInt8
  nonempty : 0 < bytes.length
  fits : bytes.length ≤ connectionWorkerArrSize

/-- What `read_data_from_source` can end with. -/
inductive ReadResult where
  | chunk (c : Chunk)
  | zero
  | error

/-- The program points of `thread_read_from_source`, with the local variables that are alive
there. -/
inductive ReadPc where
  | head
  | headStop
  | read
  | checkAlive (readStatus : Int)
  | checkStop (readStatus : Int)
  | parse
  | forLoop (rest : List (List UInt8))
  | put (kg : List UInt8) (rest : List (List UInt8))
  | innerAlive (putStatus : Nat) (kg : List UInt8) (rest : List (List UInt8))
  | innerStop (putStatus : Nat) (kg : List UInt8) (rest : List (List UInt8))
  | outerAlive (rest : List (List UInt8))
  | outerStop (rest : List (List UInt8))
  | finish
  | done
  | undefined
  | terminated
  deriving DecidableEq

/-- A worker's reading side. The fields `chunks` and `taken` record the run. -/
structure ReadState (Q : Type) where
  queue : Q
  parser : Option ParserExample
  arr : SizedArray connectionWorkerArrSize
  flags : WorkerFlags
  pc : ReadPc
  chunks : List (List UInt8)
  taken : List (List UInt8)

/-- A step of the reading thread, the return of a read, a `get` of the consumer, a call of `stop`,
or the death of the writing thread. -/
inductive ReadLabel where
  | reader
  | readReturns (result : ReadResult)
  | consumerGet
  | stop
  | writerDies

namespace ReadState

variable {Q : Type} [QueueBase Q]

/-- The states before the first step. -/
def start (queue : Q) (parser : Option ParserExample) : ReadState Q :=
  ⟨queue, parser, .new _, .run, .head, [], []⟩

/-- The step of the thread at each program point. -/
def readerStep (s : ReadState Q) : Option (ReadState Q) :=
  match s.pc with
  | .head => some { s with pc := if s.flags.writeThreadAlive then .headStop else .finish }
  | .headStop => some { s with pc := if s.flags.stopAsked then .finish else .read }
  | .read => none
  | .checkAlive readStatus =>
      some { s with
        pc := if readStatus < 0 ∨ s.flags.writeThreadAlive = false then .finish
          else .checkStop readStatus }
  | .checkStop readStatus =>
      some { s with
        pc := if s.flags.stopAsked then .finish
          -- we dont want put zero size data to queue
          else if readStatus = 0 then .head
          else .parse }
  | .parse =>
      match s.parser with
      | some parser =>
          match parser.put s.arr.content with
          | .ok (dgVector, parser') =>
              some { s with parser := some parser', pc := .forLoop dgVector }
          | .error _ => some { s with pc := .undefined }
      | none =>
          match QueueBase.put s.queue (castMessage s.arr.content) with
          | .ok (_, queue) => some { s with queue, pc := .head }
          | .error _ => some { s with pc := .terminated }
  | .forLoop [] => some { s with pc := .head }
  | .forLoop (kg :: rest) => some { s with pc := .put kg rest }
  | .put kg rest =>
      match QueueBase.put s.queue (castMessage kg) with
      | .ok (putStatus, queue) => some { s with queue, pc := .innerAlive putStatus kg rest }
      | .error _ => some { s with pc := .terminated }
  | .innerAlive putStatus kg rest =>
      some { s with
        pc := if s.flags.writeThreadAlive then .innerStop putStatus kg rest else .outerAlive rest }
  | .innerStop putStatus kg rest =>
      some { s with
        pc := if s.flags.stopAsked then .outerAlive rest
          -- `while (put_status <= 0)`
          else if putStatus ≤ 0 then .put kg rest
          else .outerAlive rest }
  | .outerAlive rest =>
      some { s with pc := if s.flags.writeThreadAlive then .outerStop rest else .head }
  | .outerStop rest => some { s with pc := if s.flags.stopAsked then .head else .forLoop rest }
  | .finish => some { s with flags := { s.flags with readThreadAlive := false }, pc := .done }
  | .done | .undefined | .terminated => none

/-- The return of `read_data_from_source`, which fills the local array. -/
def readReturns (s : ReadState Q) : ReadResult → ReadState Q
  | .chunk c =>
      { s with
        arr := (s.arr.store c.bytes).resize c.bytes.length
        pc := .checkAlive c.bytes.length
        chunks := s.chunks ++ [c.bytes] }
  | .zero => { s with arr := s.arr.clear, pc := .checkAlive 0 }
  | .error => { s with arr := s.arr.clear, pc := .checkAlive (-1) }

/-- One step of an interleaving. The consumer takes the result of its `get` for a message when it
is not zero. -/
def step (s : ReadState Q) : ReadLabel → Option (ReadState Q)
  | .reader => s.readerStep
  | .readReturns result => if s.pc = .read then some (s.readReturns result) else none
  | .consumerGet =>
      match QueueBase.get s.queue connectionWorkerArrSize with
      | .ok (read, queue) =>
          some { s with queue, taken := if read.ret = 0 then s.taken else s.taken ++ [read.copied] }
      | .error _ => none
  | .stop => some { s with flags := { s.flags with stopAsked := true } }
  | .writerDies => some { s with flags := { s.flags with writeThreadAlive := false } }

/-- All interleavings of a worker whose reading queue is `queue`. -/
def machine (queue : Q) (parser : Option ParserExample) : Machine (ReadState Q) ReadLabel where
  init s := s = start queue parser
  step := step

/-! ### What a step leaves alone -/

variable {s s' : ReadState Q}

/-- Of the flags, the thread sets at most its own one. -/
theorem readerStep_flags (hstep : s.readerStep = some s') :
    s'.flags = s.flags ∨ s'.flags = { s.flags with readThreadAlive := false } := by
  cases hpc : s.pc with
  | finish =>
      simp only [readerStep, hpc] at hstep
      obtain rfl := Option.some.inj hstep
      exact .inr rfl
  | parse | put kg rest =>
      simp only [readerStep, hpc] at hstep
      repeat' split at hstep
      all_goals
        obtain rfl := Option.some.inj hstep
        exact .inl rfl
  | forLoop rest =>
      cases rest with
      | nil | cons kg rest =>
          simp only [readerStep, hpc] at hstep
          obtain rfl := Option.some.inj hstep
          exact .inl rfl
  | read | done | undefined | terminated => simp [readerStep, hpc] at hstep
  | _ =>
      simp only [readerStep, hpc] at hstep
      obtain rfl := Option.some.inj hstep
      exact .inl rfl

/-- The thread neither reads a chunk nor takes a message. -/
theorem readerStep_record (hstep : s.readerStep = some s') :
    s'.chunks = s.chunks ∧ s'.taken = s.taken := by
  cases hpc : s.pc with
  | parse | put kg rest =>
      simp only [readerStep, hpc] at hstep
      repeat' split at hstep
      all_goals
        obtain rfl := Option.some.inj hstep
        exact ⟨rfl, rfl⟩
  | forLoop rest =>
      cases rest with
      | nil | cons kg rest =>
          simp only [readerStep, hpc] at hstep
          obtain rfl := Option.some.inj hstep
          exact ⟨rfl, rfl⟩
  | read | done | undefined | terminated => simp [readerStep, hpc] at hstep
  | _ =>
      simp only [readerStep, hpc] at hstep
      obtain rfl := Option.some.inj hstep
      exact ⟨rfl, rfl⟩

/-- A read returns only to a thread that stands at it. -/
theorem readReturns_cases {result : ReadResult} (hstep : s.step (.readReturns result) = some s') :
    s.pc = .read ∧ s' = s.readReturns result := by
  simp only [step] at hstep
  split at hstep
  · rename_i hpc
    exact ⟨hpc, (Option.some.inj hstep).symm⟩
  · cases hstep

/-- Only its calls of `put` touch the queue. -/
theorem readerStep_queue (hparse : s.pc ≠ .parse) (hput : ∀ kg rest, s.pc ≠ .put kg rest)
    (hstep : s.readerStep = some s') : s'.queue = s.queue := by
  cases hpc : s.pc with
  | parse => exact absurd hpc hparse
  | put kg rest => exact absurd hpc (hput kg rest)
  | forLoop rest =>
      cases rest with
      | nil | cons kg rest =>
          simp only [readerStep, hpc] at hstep
          obtain rfl := Option.some.inj hstep
          rfl
  | read | done | undefined | terminated => simp [readerStep, hpc] at hstep
  | _ =>
      simp only [readerStep, hpc] at hstep
      obtain rfl := Option.some.inj hstep
      rfl

/-- A step other than the arrival of a chunk reads nothing. -/
theorem step_chunks {label : ReadLabel} (hchunk : ∀ chunk, label ≠ .readReturns (.chunk chunk))
    (hstep : s.step label = some s') : s'.chunks = s.chunks := by
  cases label with
  | reader => exact (readerStep_record hstep).1
  | readReturns result =>
      obtain ⟨-, rfl⟩ := readReturns_cases hstep
      cases result with
      | chunk chunk => exact absurd rfl (hchunk chunk)
      | zero | error => rfl
  | consumerGet =>
      simp only [step] at hstep
      split at hstep
      · obtain rfl := Option.some.inj hstep
        rfl
      · cases hstep
  | stop | writerDies =>
      obtain rfl := Option.some.inj hstep
      rfl

/-- A `get` of the consumer moves neither the thread nor a flag. -/
theorem consumerGet_frame (hstep : s.step .consumerGet = some s') :
    s'.pc = s.pc ∧ s'.flags = s.flags := by
  simp only [step] at hstep
  split at hstep
  · obtain rfl := Option.some.inj hstep
    exact ⟨rfl, rfl⟩
  · cases hstep

omit [QueueBase Q] in
/-- The return of a read does not touch the flags. -/
theorem readReturns_flags (s : ReadState Q) (result : ReadResult) :
    (s.readReturns result).flags = s.flags := by
  cases result <;> rfl

end ReadState

/-! ## The invariant -/

/-- The datagrams of `chunks` are those handed over followed by `rest`. -/
def HandedOver (parser : Option ParserExample) (chunks delivered rest : List (List UInt8)) : Prop :=
  ∃ outputs p, parser = some p ∧ ParserExample.putAll .init chunks = .ok (outputs, p) ∧
    delivered ++ rest = outputs.flatten

/-- The datagrams of some first chunks start with those handed over. -/
def PartlyHandedOver (parser : Option ParserExample)
    (chunks delivered : List (List UInt8)) : Prop :=
  ∃ earlier more rest, chunks = earlier ++ more ∧ HandedOver parser earlier delivered rest

/-- The datagrams of `chunks` are those handed over followed by `rest`, unless `explained` holds:
then some others may be missing too. -/
def KeptUnless (explained : Prop) (parser : Option ParserExample)
    (chunks delivered rest : List (List UInt8)) : Prop :=
  ∃ kept, HandedOver parser chunks delivered kept ∧ (¬ explained → kept = rest)

namespace HandedOver

variable {parser : Option ParserExample} {chunks delivered rest : List (List UInt8)}

/-- Every datagram has between 12 and 65535 bytes, handed over or not. -/
theorem bounds (h : HandedOver parser chunks delivered rest) :
    ∀ d ∈ delivered ++ rest, sizeofDataHead ≤ d.length ∧ d.length ≤ uint16Max := by
  obtain ⟨outputs, p, -, hput, hflat⟩ := h
  rw [hflat]
  exact ParserExample.putAll_bounds hput

theorem partly (h : HandedOver parser chunks delivered rest) :
    PartlyHandedOver parser chunks delivered :=
  ⟨chunks, [], rest, (List.append_nil chunks).symm, h⟩

theorem partly_of_last {chunk : List UInt8} (h : HandedOver parser chunks delivered rest) :
    PartlyHandedOver parser (chunks ++ [chunk]) delivered :=
  ⟨chunks, [chunk], rest, rfl, h⟩

/-- A parsed chunk adds its datagrams to those still to be handed over. -/
theorem parse {p p' : ParserExample} {chunk : List UInt8} {found : List (List UInt8)}
    (h : HandedOver (some p) chunks delivered []) (hput : p.put chunk = .ok (found, p')) :
    HandedOver (some p') (chunks ++ [chunk]) delivered found := by
  obtain ⟨outputs, q, hq, hall, hflat⟩ := h
  obtain rfl := Option.some.inj hq
  refine ⟨outputs ++ [found], p', rfl, ?_, ?_⟩
  · rw [ParserExample.putAll] at hall ⊢
    simp [Incremental.feed_append, hall, Incremental.feed, hput, bind, Except.bind, pure,
      Except.pure]
  · rw [List.append_nil] at hflat
    simp [hflat]

/-- A chunk that makes the parser fail makes the whole run of `put` calls fail. -/
theorem parse_error {p : ParserExample} {chunk : List UInt8} {fault : Fault}
    (h : HandedOver (some p) chunks delivered rest) (hput : p.put chunk = .error fault) :
    ParserExample.putAll .init (chunks ++ [chunk]) = .error fault := by
  obtain ⟨outputs, q, hq, hall, -⟩ := h
  obtain rfl := Option.some.inj hq
  rw [ParserExample.putAll] at hall ⊢
  simp [Incremental.feed_append, hall, Incremental.feed, hput, bind, Except.bind]

theorem keptUnless (h : HandedOver parser chunks delivered rest) (explained : Prop) :
    KeptUnless explained parser chunks delivered rest :=
  ⟨rest, h, fun _ => rfl⟩

/-- Any split will do for a reason that holds. -/
theorem explained {kept : List (List UInt8)} {reason : Prop}
    (h : HandedOver parser chunks delivered kept) (hreason : reason) :
    KeptUnless reason parser chunks delivered rest :=
  ⟨kept, h, fun hnot => absurd hreason hnot⟩

end HandedOver

namespace KeptUnless

variable {explained : Prop} {parser : Option ParserExample}
variable {chunks delivered rest : List (List UInt8)}

theorem mono {weaker : Prop} (h : KeptUnless explained parser chunks delivered rest)
    (himp : explained → weaker) : KeptUnless weaker parser chunks delivered rest := by
  obtain ⟨kept, hkept, hall⟩ := h
  exact ⟨kept, hkept, fun hnot => hall (mt himp hnot)⟩

/-- Without the reason nothing else is missing. -/
theorem handedOver (h : KeptUnless explained parser chunks delivered rest) (hnot : ¬ explained) :
    HandedOver parser chunks delivered rest := by
  obtain ⟨kept, hkept, hall⟩ := h
  obtain rfl := hall hnot
  exact hkept

theorem partly (h : KeptUnless explained parser chunks delivered rest) :
    PartlyHandedOver parser chunks delivered := by
  obtain ⟨kept, hkept, -⟩ := h
  exact hkept.partly

end KeptUnless

/-- What is handed over is a prefix of the datagrams of all chunks. -/
theorem PartlyHandedOver.starts {parser : Option ParserExample}
    {chunks delivered : List (List UInt8)} {outputs : List (List (List UInt8))} {p : ParserExample}
    (h : PartlyHandedOver parser chunks delivered)
    (hall : ParserExample.putAll .init chunks = .ok (outputs, p)) :
    delivered <+: outputs.flatten := by
  obtain ⟨first, more, rest, rfl, earlier, q, -, hput, hflat⟩ := h
  rw [ParserExample.putAll, Incremental.feed_append] at hall
  rw [ParserExample.putAll] at hput
  obtain ⟨⟨found, middle⟩, hfirst, hmore⟩ := Outcome.bind_eq_ok.mp hall
  obtain ⟨⟨later, final⟩, -, hlast⟩ := Outcome.bind_eq_ok.mp hmore
  obtain ⟨rfl, -⟩ := Outcome.answer_unique hput hfirst
  obtain ⟨rfl, -⟩ := Prod.mk.inj (Except.ok.inj hlast)
  rw [List.flatten_append, ← hflat, List.append_assoc]
  exact List.prefix_append _ _

namespace ReadState

variable {Q : Type}

/-- Stop was asked for or the writing thread is dead. -/
def Stopped (s : ReadState Q) : Prop :=
  s.flags.stopAsked = true ∨ s.flags.writeThreadAlive = false

/-- How the datagrams split at each program point. Where a flag has just been tested the split is
known only as long as the flags are as they were. -/
def AtPc (s : ReadState Q) (delivered : List (List UInt8)) : Prop :=
  match s.pc with
  | .head => KeptUnless s.Stopped s.parser s.chunks delivered []
  | .headStop => KeptUnless (s.flags.stopAsked = true) s.parser s.chunks delivered []
  | .read => HandedOver s.parser s.chunks delivered []
  | .checkAlive readStatus =>
      (readStatus ≤ 0 ∧ HandedOver s.parser s.chunks delivered []) ∨
        (0 < readStatus ∧ ∃ earlier, s.chunks = earlier ++ [s.arr.content] ∧
          HandedOver s.parser earlier delivered [])
  | .checkStop readStatus =>
      (readStatus = 0 ∧ HandedOver s.parser s.chunks delivered []) ∨
        (0 < readStatus ∧ ∃ earlier, s.chunks = earlier ++ [s.arr.content] ∧
          HandedOver s.parser earlier delivered [])
  | .parse =>
      ∃ earlier, s.chunks = earlier ++ [s.arr.content] ∧ HandedOver s.parser earlier delivered []
  | .forLoop rest => HandedOver s.parser s.chunks delivered rest
  | .put kg rest => HandedOver s.parser s.chunks delivered (kg :: rest)
  | .innerAlive putStatus kg rest | .innerStop putStatus kg rest =>
      (putStatus = 0 ∧ HandedOver s.parser s.chunks delivered (kg :: rest)) ∨
        (0 < putStatus ∧ HandedOver s.parser s.chunks delivered rest)
  | .outerAlive rest => KeptUnless s.Stopped s.parser s.chunks delivered rest
  | .outerStop rest => KeptUnless (s.flags.stopAsked = true) s.parser s.chunks delivered rest
  | .finish | .done => PartlyHandedOver s.parser s.chunks delivered
  | .undefined =>
      (∃ fault, ParserExample.putAll .init s.chunks = .error fault) ∧
        PartlyHandedOver s.parser s.chunks delivered
  | .terminated => False

/-- The queue is related to an abstract one, and the datagrams split as the program point says. -/
def Inv (Rel : Q → MessageFifo → Prop) (s : ReadState Q) : Prop :=
  ∃ a, Rel s.queue a ∧ s.AtPc (s.taken ++ a.fifo.items.map Message.bytes)

variable {s : ReadState Q} {delivered : List (List UInt8)}

/-- At every program point the handed-over datagrams are the first ones. -/
theorem AtPc.partly (h : s.AtPc delivered) : PartlyHandedOver s.parser s.chunks delivered := by
  unfold AtPc at h
  cases hpc : s.pc with
  | head | headStop | outerAlive rest | outerStop rest | read | forLoop rest | put kg rest =>
      simp only [hpc] at h
      exact h.partly
  | checkAlive readStatus | checkStop readStatus =>
      simp only [hpc] at h
      obtain ⟨-, hall⟩ | ⟨-, earlier, hchunks, hall⟩ := h
      · exact hall.partly
      · rw [hchunks]
        exact hall.partly_of_last
  | parse =>
      simp only [hpc] at h
      obtain ⟨earlier, hchunks, hall⟩ := h
      rw [hchunks]
      exact hall.partly_of_last
  | innerAlive putStatus kg rest | innerStop putStatus kg rest =>
      simp only [hpc] at h
      obtain ⟨-, hall⟩ | ⟨-, hall⟩ := h
      · exact hall.partly
      · exact hall.partly
  | finish | done =>
      simp only [hpc] at h
      exact h
  | undefined =>
      simp only [hpc] at h
      exact h.2
  | terminated =>
      simp only [hpc] at h

/-- No datagram handed over is empty. -/
theorem AtPc.ne_nil (h : s.AtPc delivered) : ∀ d ∈ delivered, d ≠ [] := by
  obtain ⟨earlier, more, rest, -, hall⟩ := h.partly
  intro d hd hnil
  have hlength := (hall.bounds d (List.mem_append_left _ hd)).1
  rw [hnil] at hlength
  exact absurd hlength (by decide)

variable {Rel : Q → MessageFifo → Prop} {s' : ReadState Q}

theorem start_inv {queue : Q} {bound : Nat} (hrel : Rel queue (.empty bound)) :
    Inv Rel (start queue (some .init)) :=
  ⟨_, hrel, HandedOver.keptUnless ⟨[], .init, rfl, rfl, rfl⟩ _⟩

/-- Calling `stop` or losing the writing thread only weakens what a program point promises. -/
theorem flags_inv {flags : WorkerFlags} (hstop : s.flags.stopAsked = true → flags.stopAsked = true)
    (hdead : s.flags.writeThreadAlive = false → flags.writeThreadAlive = false)
    (hinv : Inv Rel s) : Inv Rel { s with flags } := by
  obtain ⟨a, hrel, hat⟩ := hinv
  have hstopped : s.Stopped → Stopped { s with flags } := Or.imp hstop hdead
  refine ⟨a, hrel, ?_⟩
  unfold AtPc at hat ⊢
  cases hpc : s.pc with
  | head | outerAlive rest =>
      simp only [hpc] at hat ⊢
      exact hat.mono hstopped
  | headStop | outerStop rest =>
      simp only [hpc] at hat ⊢
      exact hat.mono hstop
  | terminated => simp only [hpc] at hat
  | _ =>
      simp only [hpc] at hat ⊢
      exact hat

/-- A read that returns bytes appends them to the chunks and stores them in the local array. -/
theorem readReturns_inv (result : ReadResult) (hpc : s.pc = .read) (hinv : Inv Rel s) :
    Inv Rel (s.readReturns result) := by
  obtain ⟨a, hrel, hat⟩ := hinv
  simp only [AtPc, hpc] at hat
  cases result with
  | chunk c =>
      refine ⟨a, hrel, .inr ⟨by exact_mod_cast c.nonempty, s.chunks, ?_, hat⟩⟩
      simp only [readReturns, SizedArray.content_store_resize _ c.fits]
  | zero => exact ⟨a, hrel, .inl ⟨Int.le_refl 0, hat⟩⟩
  | error => exact ⟨a, hrel, .inl ⟨by decide, hat⟩⟩

/-- A step that only moves the program point keeps the invariant when the split of the datagrams
is one for the new point. -/
theorem Inv.move (hinv : Inv Rel s) {pc : ReadPc}
    (h : ∀ delivered, s.AtPc delivered → AtPc { s with pc } delivered) :
    Inv Rel { s with pc } := by
  obtain ⟨a, hrel, hat⟩ := hinv
  exact ⟨a, hrel, h _ hat⟩

variable [QueueBase Q]

/-- A `get` of the consumer moves the first queued message to the taken ones. -/
theorem consumerGet_inv (hsim : Simulates Q Rel) (hinv : Inv Rel s)
    (hstep : s.step .consumerGet = some s') : Inv Rel s' := by
  obtain ⟨a, hrel, hat⟩ := hinv
  obtain ⟨queue, hget, hnext⟩ := hsim.get connectionWorkerArrSize hrel
  simp only [step, hget] at hstep
  obtain rfl := Option.some.inj hstep
  refine ⟨_, hnext, ?_⟩
  cases hitems : a.fifo.items with
  | nil =>
      have hread := MessageFifo.look_none (q := a) connectionWorkerArrSize (by simp [hitems])
      simp only [MessageFifo.get, hread, Fifo.pop_items, hitems, if_true, List.tail_nil]
      rwa [hitems] at hat
  | cons m rest =>
      have hread := look_whole (a := a) (m := m) (by simp [hitems])
      have hsize : m.size ≠ 0 := fun hzero =>
        hat.ne_nil m.bytes (by simp [hitems]) (List.length_eq_zero_iff.mp hzero)
      simp only [MessageFifo.get, hread, Fifo.pop_items, hitems, hsize, if_false, List.tail_cons]
      rw [List.append_assoc]
      rwa [hitems, List.map_cons] at hat

/-- A `put` of the next datagram: it is stored whole, or the queue is full and nothing changes. -/
theorem put_inv (hsim : Simulates Q Rel) {kg : List UInt8} {rest : List (List UInt8)}
    (hpc : s.pc = .put kg rest) (hinv : Inv Rel s) (hstep : s.readerStep = some s') :
    Inv Rel s' := by
  obtain ⟨a, hrel, hat⟩ := hinv
  simp only [AtPc, hpc] at hat
  obtain ⟨hlow, hhigh⟩ := hat.bounds kg (by simp)
  have hbytes : (castMessage kg).bytes = kg := castMessage_bytes (Nat.lt_succ_of_le hhigh)
  obtain ⟨queue, hput, hnext⟩ := hsim.put (castMessage kg) hrel
  simp only [readerStep, hpc, hput] at hstep
  obtain rfl := Option.some.inj hstep
  refine ⟨_, hnext, ?_⟩
  by_cases hroom : a.fifo.HasRoom
  · have hsize : 0 < (castMessage kg).size := by
      rw [Message.size, hbytes]
      exact Nat.lt_of_lt_of_le (by decide) hlow
    rw [MessageFifo.put_room hroom]
    refine .inr ⟨hsize, ?_⟩
    obtain ⟨outputs, p, hparser, hall, hflat⟩ := hat
    refine ⟨outputs, p, hparser, hall, ?_⟩
    simpa [Fifo.push_items hroom, hbytes] using hflat
  · rw [MessageFifo.put_full hroom]
    exact .inl ⟨rfl, hat⟩

/-- Parsing a chunk leaves its datagrams to be handed over; a chunk that makes the parser fail ends
the run. -/
theorem parse_inv (hpc : s.pc = .parse) (hinv : Inv Rel s) (hstep : s.readerStep = some s') :
    Inv Rel s' := by
  obtain ⟨a, hrel, hat⟩ := hinv
  have hpartly := hat.partly
  simp only [AtPc, hpc] at hat
  obtain ⟨earlier, hchunks, hall⟩ := hat
  obtain ⟨p, hparser⟩ : ∃ p, s.parser = some p := by
    obtain ⟨-, p, hparser, -⟩ := hall
    exact ⟨p, hparser⟩
  rw [hparser] at hall
  rw [hparser] at hpartly
  simp only [readerStep, hpc, hparser] at hstep
  cases hput : p.put s.arr.content with
  | ok result =>
      obtain ⟨found, p'⟩ := result
      simp only [hput] at hstep
      obtain rfl := Option.some.inj hstep
      refine ⟨a, hrel, ?_⟩
      show HandedOver (some p') s.chunks _ found
      rw [hchunks]
      exact hall.parse hput
  | error fault =>
      simp only [hput] at hstep
      obtain rfl := Option.some.inj hstep
      refine ⟨a, hrel, ⟨fault, ?_⟩, hpartly⟩
      show ParserExample.putAll .init s.chunks = .error fault
      rw [hchunks]
      exact hall.parse_error hput

/-- The test of the writing thread at the loop's head. -/
theorem head_inv (hpc : s.pc = .head) (hinv : Inv Rel s) (hstep : s.readerStep = some s') :
    Inv Rel s' := by
  simp only [readerStep, hpc] at hstep
  obtain rfl := Option.some.inj hstep
  apply hinv.move
  intro delivered hat
  simp only [AtPc, hpc] at hat
  cases halive : s.flags.writeThreadAlive with
  | false =>
      show PartlyHandedOver s.parser s.chunks delivered
      exact hat.partly
  | true =>
      show KeptUnless (s.flags.stopAsked = true) s.parser s.chunks delivered []
      -- the writing thread is alive, so only `stop` explains datagrams kept back
      exact hat.mono fun hstopped => hstopped.resolve_right (by simp [halive])

/-- The test of `stop` at the loop's head. -/
theorem headStop_inv (hpc : s.pc = .headStop) (hinv : Inv Rel s)
    (hstep : s.readerStep = some s') : Inv Rel s' := by
  simp only [readerStep, hpc] at hstep
  obtain rfl := Option.some.inj hstep
  apply hinv.move
  intro delivered hat
  simp only [AtPc, hpc] at hat
  cases hasked : s.flags.stopAsked with
  | true =>
      show PartlyHandedOver s.parser s.chunks delivered
      exact hat.partly
  | false =>
      show HandedOver s.parser s.chunks delivered []
      exact hat.handedOver (by simp [hasked])

/-- The tests of the read's result and of the writing thread behind a read. -/
theorem checkAlive_inv {readStatus : Int} (hpc : s.pc = .checkAlive readStatus)
    (hinv : Inv Rel s) (hstep : s.readerStep = some s') : Inv Rel s' := by
  simp only [readerStep, hpc] at hstep
  obtain rfl := Option.some.inj hstep
  apply hinv.move
  intro delivered hat
  have hpartly := hat.partly
  simp only [AtPc, hpc] at hat
  by_cases hleave : readStatus < 0 ∨ s.flags.writeThreadAlive = false
  · rw [if_pos hleave]
    exact hpartly
  · rw [if_neg hleave]
    exact hat.imp_left fun ⟨hnonpos, hall⟩ => ⟨by omega, hall⟩

/-- The test of `stop` behind a read; without it a chunk is parsed and a zero is skipped. -/
theorem checkStop_inv {readStatus : Int} (hpc : s.pc = .checkStop readStatus)
    (hinv : Inv Rel s) (hstep : s.readerStep = some s') : Inv Rel s' := by
  simp only [readerStep, hpc] at hstep
  obtain rfl := Option.some.inj hstep
  apply hinv.move
  intro delivered hat
  have hpartly := hat.partly
  simp only [AtPc, hpc] at hat
  cases hasked : s.flags.stopAsked with
  | true =>
      show PartlyHandedOver s.parser s.chunks delivered
      exact hpartly
  | false =>
      rcases hat with ⟨rfl, hall⟩ | ⟨hpos, hall⟩
      · show KeptUnless s.Stopped s.parser s.chunks delivered []
        exact hall.keptUnless _
      · rw [if_neg (by decide), if_neg (by omega)]
        exact hall

/-- The loop over the datagrams takes the next one or ends. -/
theorem forLoop_inv {rest : List (List UInt8)} (hpc : s.pc = .forLoop rest) (hinv : Inv Rel s)
    (hstep : s.readerStep = some s') : Inv Rel s' := by
  cases rest with
  | nil =>
      simp only [readerStep, hpc] at hstep
      obtain rfl := Option.some.inj hstep
      apply hinv.move
      intro delivered hat
      simp only [AtPc, hpc] at hat
      show KeptUnless s.Stopped s.parser s.chunks delivered []
      exact hat.keptUnless _
  | cons kg rest =>
      simp only [readerStep, hpc] at hstep
      obtain rfl := Option.some.inj hstep
      apply hinv.move
      intro delivered hat
      simp only [AtPc, hpc] at hat
      show HandedOver s.parser s.chunks delivered (kg :: rest)
      exact hat

/-- The test of the writing thread behind a `put`. -/
theorem innerAlive_inv {putStatus : Nat} {kg : List UInt8} {rest : List (List UInt8)}
    (hpc : s.pc = .innerAlive putStatus kg rest) (hinv : Inv Rel s)
    (hstep : s.readerStep = some s') : Inv Rel s' := by
  simp only [readerStep, hpc] at hstep
  obtain rfl := Option.some.inj hstep
  apply hinv.move
  intro delivered hat
  simp only [AtPc, hpc] at hat
  cases halive : s.flags.writeThreadAlive with
  | true => exact hat
  | false =>
      show KeptUnless s.Stopped s.parser s.chunks delivered rest
      rcases hat with ⟨-, hall⟩ | ⟨-, hall⟩
      · exact hall.explained (.inr halive)
      · exact hall.explained (.inr halive)

/-- The test of `stop` behind a `put`; without it a refused datagram is tried again. -/
theorem innerStop_inv {putStatus : Nat} {kg : List UInt8} {rest : List (List UInt8)}
    (hpc : s.pc = .innerStop putStatus kg rest) (hinv : Inv Rel s)
    (hstep : s.readerStep = some s') : Inv Rel s' := by
  simp only [readerStep, hpc] at hstep
  obtain rfl := Option.some.inj hstep
  apply hinv.move
  intro delivered hat
  simp only [AtPc, hpc] at hat
  cases hasked : s.flags.stopAsked with
  | true =>
      show KeptUnless s.Stopped s.parser s.chunks delivered rest
      rcases hat with ⟨-, hall⟩ | ⟨-, hall⟩
      · exact hall.explained (.inl hasked)
      · exact hall.explained (.inl hasked)
  | false =>
      rcases hat with ⟨rfl, hall⟩ | ⟨hpos, hall⟩
      · show HandedOver s.parser s.chunks delivered (kg :: rest)
        exact hall
      · rw [if_neg (by decide), if_neg (by omega)]
        exact hall.keptUnless _

/-- The test of the writing thread behind a datagram. -/
theorem outerAlive_inv {rest : List (List UInt8)} (hpc : s.pc = .outerAlive rest)
    (hinv : Inv Rel s) (hstep : s.readerStep = some s') : Inv Rel s' := by
  simp only [readerStep, hpc] at hstep
  obtain rfl := Option.some.inj hstep
  apply hinv.move
  intro delivered hat
  simp only [AtPc, hpc] at hat
  cases halive : s.flags.writeThreadAlive with
  | true =>
      show KeptUnless (s.flags.stopAsked = true) s.parser s.chunks delivered rest
      exact hat.mono fun hstopped => hstopped.resolve_right (by simp [halive])
  | false =>
      show KeptUnless s.Stopped s.parser s.chunks delivered []
      obtain ⟨kept, hkept, -⟩ := hat
      exact hkept.explained (.inr halive)

/-- The test of `stop` behind a datagram. -/
theorem outerStop_inv {rest : List (List UInt8)} (hpc : s.pc = .outerStop rest)
    (hinv : Inv Rel s) (hstep : s.readerStep = some s') : Inv Rel s' := by
  simp only [readerStep, hpc] at hstep
  obtain rfl := Option.some.inj hstep
  apply hinv.move
  intro delivered hat
  simp only [AtPc, hpc] at hat
  cases hasked : s.flags.stopAsked with
  | true =>
      show KeptUnless s.Stopped s.parser s.chunks delivered []
      obtain ⟨kept, hkept, -⟩ := hat
      exact hkept.explained (.inl hasked)
  | false =>
      show HandedOver s.parser s.chunks delivered rest
      exact hat.handedOver (by simp [hasked])

/-- Every step of the thread keeps the invariant. -/
theorem readerStep_inv (hsim : Simulates Q Rel) (hinv : Inv Rel s)
    (hstep : s.readerStep = some s') : Inv Rel s' := by
  cases hpc : s.pc with
  | head => exact head_inv hpc hinv hstep
  | headStop => exact headStop_inv hpc hinv hstep
  | checkAlive readStatus => exact checkAlive_inv hpc hinv hstep
  | checkStop readStatus => exact checkStop_inv hpc hinv hstep
  | parse => exact parse_inv hpc hinv hstep
  | forLoop rest => exact forLoop_inv hpc hinv hstep
  | put kg rest => exact put_inv hsim hpc hinv hstep
  | innerAlive putStatus kg rest => exact innerAlive_inv hpc hinv hstep
  | innerStop putStatus kg rest => exact innerStop_inv hpc hinv hstep
  | outerAlive rest => exact outerAlive_inv hpc hinv hstep
  | outerStop rest => exact outerStop_inv hpc hinv hstep
  | finish =>
      simp only [readerStep, hpc] at hstep
      obtain rfl := Option.some.inj hstep
      obtain ⟨a, hrel, hat⟩ := hinv
      exact ⟨a, hrel, hat.partly⟩
  | read | done | undefined | terminated => simp [readerStep, hpc] at hstep

/-- Every step of an interleaving keeps the invariant. -/
theorem step_inv (hsim : Simulates Q Rel) (label : ReadLabel) (hinv : Inv Rel s)
    (hstep : s.step label = some s') : Inv Rel s' := by
  cases label with
  | reader => exact readerStep_inv hsim hinv hstep
  | readReturns result =>
      obtain ⟨hpc, rfl⟩ := readReturns_cases hstep
      exact readReturns_inv result hpc hinv
  | consumerGet => exact consumerGet_inv hsim hinv hstep
  | stop =>
      obtain rfl := Option.some.inj hstep
      exact flags_inv (fun _ => rfl) id hinv
  | writerDies =>
      obtain rfl := Option.some.inj hstep
      exact flags_inv id (fun _ => rfl) hinv

/-- The invariant holds in every reachable state of a worker whose queue starts empty. -/
theorem reachable_inv (hsim : Simulates Q Rel) {queue : Q} {bound : Nat}
    (hrel : Rel queue (.empty bound)) (h : (machine queue (some .init)).Reachable s) :
    Inv Rel s := by
  have hinit : ∀ state, (machine queue (some .init)).init state → Inv Rel state := by
    intro state hstate
    obtain rfl := hstate
    exact start_inv hrel
  have hstep : ∀ state following label, Inv Rel state →
      (machine queue (some .init)).step state label = some following → Inv Rel following :=
    fun _ _ label hinv hnext => step_inv hsim label hinv hnext
  exact h.invariant hinit hstep

end ReadState

/-! ## The reading thread over a ring queue -/

/-- The messages the consumer has taken followed by those still in the ring. -/
def ReadState.delivered (s : ReadState RingQueue) : List (List UInt8) :=
  s.taken ++ s.queue.contents

/-- With a ring of any number of cells, on every stream that the parser accepts and in every
interleaving, the delivered messages are the first datagrams of the bytes read so far. Whenever
the loop is at its head, `stop` was not called and the writing thread is alive, they are all
datagrams. -/
theorem read_hands_over_once {count cellSize : Nat} {s : ReadState RingQueue}
    {outputs : List (List (List UInt8))} {p : ParserExample} (hcount : count < 2 ^ 32)
    (h : (ReadState.machine (RingQueue.new count cellSize) (some .init)).Reachable s)
    (hput : ParserExample.putAll .init s.chunks = .ok (outputs, p)) :
    s.delivered <+: outputs.flatten ∧
      (s.pc = .head → s.flags.stopAsked = false → s.flags.writeThreadAlive = true →
        s.delivered = outputs.flatten) := by
  obtain ⟨a, hrel, hat⟩ :=
    ReadState.reachable_inv ring_simulates (Represents.new count cellSize hcount) h
  have hdelivered : s.delivered = s.taken ++ a.fifo.items.map Message.bytes := by
    rw [ReadState.delivered, hrel.contents]
  rw [hdelivered]
  refine ⟨hat.partly.starts hput, fun hpc hasked halive => ?_⟩
  simp only [ReadState.AtPc, hpc] at hat
  obtain ⟨others, q, -, hall, hflat⟩ :=
    hat.handedOver (by simp [ReadState.Stopped, hasked, halive])
  obtain ⟨rfl, -⟩ := Outcome.answer_unique hput hall
  rw [← hflat, List.append_nil]

/-- A datagram without payload, read by a worker with a ring of one cell and taken by the consumer
before the loop is back at its head. -/
theorem read_hands_over_once_empty_payload :
    ∃ s, (ReadState.machine (RingQueue.new 1 16) (some .init)).Reachable s ∧ s.pc = .head ∧
      s.delivered = [[0xff, 0xff, 0xff, 0xff, 0, 0, 0, 0, 12, 0, 0, 0]] := by
  have hrun : ((ReadState.machine (RingQueue.new 1 16) (some .init)).run
      [.reader, .reader,
        .readReturns (.chunk ⟨[0xff, 0xff, 0xff, 0xff, 0, 0, 0, 0, 12, 0, 0, 0],
          by decide, by decide⟩),
        .reader, .reader, .reader, .reader, .reader, .consumerGet, .reader, .reader, .reader,
        .reader, .reader]
      (ReadState.start (RingQueue.new 1 16) (some .init))).map
        (fun s => (s.pc, s.flags, s.chunks)) =
        some (.head, .run, [[0xff, 0xff, 0xff, 0xff, 0, 0, 0, 0, 12, 0, 0, 0]]) := by
    decide +kernel
  obtain ⟨s, hs, hfields⟩ := Option.map_eq_some_iff.mp hrun
  obtain ⟨hpc, hflags, hchunks⟩ : s.pc = .head ∧ s.flags = .run ∧
      s.chunks = [[0xff, 0xff, 0xff, 0xff, 0, 0, 0, 0, 12, 0, 0, 0]] := by simpa using hfields
  have hreach := Machine.reachable_of_run _ rfl hs
  have hput : ParserExample.putAll .init s.chunks =
      .ok ([[[0xff, 0xff, 0xff, 0xff, 0, 0, 0, 0, 12, 0, 0, 0]]], .init) := by
    rw [hchunks]
    decide +kernel
  refine ⟨s, hreach, hpc, ?_⟩
  exact (read_hands_over_once (by decide) hreach hput).2 hpc (by rw [hflags]; rfl)
    (by rw [hflags]; rfl)

end Shovel.Workers
