import Shovel.Workers.ReadThread

/-!
# The reading thread without a parser

Without a parser the reading thread hands each chunk to its queue as it is, with
one `put` whose answer it does not look at. The queue here is any queue with a
record of its `put` calls and their answers. Whatever the other threads do, the
thread offers every chunk once and in order, so the queue has accepted the chunks
read so far exactly when it has refused none of them.
-/

namespace Shovel.Workers

open Containers Parsers Transition

/-- A queue with a record of its `put` calls and the numbers they returned. -/
structure Recording (Q : Type) where
  inner : Q
  calls : List (Message × Nat)

namespace Recording

variable {Q : Type}

/-- Before the first call. -/
def new (inner : Q) : Recording Q := ⟨inner, []⟩

/-- The bytes offered to the queue. -/
def offered (q : Recording Q) : List (List UInt8) := q.calls.map fun call => call.1.bytes

/-- The bytes that the queue has accepted: `put` did not return zero. -/
def accepted (q : Recording Q) : List (List UInt8) :=
  (q.calls.filter fun call => call.2 ≠ 0).map fun call => call.1.bytes

/-- No `put` has returned zero. -/
def NoneRefused (q : Recording Q) : Prop := ∀ call ∈ q.calls, call.2 ≠ 0

instance [QueueBase Q] : QueueBase (Recording Q) where
  put q m := do
    let (ret, inner) ← QueueBase.put q.inner m
    .ok (ret, ⟨inner, q.calls ++ [(m, ret)]⟩)
  get q size := do
    let (read, inner) ← QueueBase.get q.inner size
    .ok (read, { q with inner })
  peek q size := do
    let (read, inner) ← QueueBase.peek q.inner size
    .ok (read, { q with inner })
  getStatus q := QueueBase.getStatus q.inner
  size q := QueueBase.size q.inner
  capacity q := QueueBase.capacity q.inner

/-- What is accepted is all that was offered exactly when nothing was refused. -/
theorem accepted_eq_offered_iff (q : Recording Q) : q.accepted = q.offered ↔ q.NoneRefused := by
  constructor
  · intro heq
    have hlength := congrArg List.length heq
    simp only [accepted, offered, List.length_map] at hlength
    have hall := List.length_filter_eq_length_iff.mp hlength
    intro call hcall
    simpa using hall call hcall
  · intro hnone
    have hall : q.calls.filter (fun call => call.2 ≠ 0) = q.calls :=
      List.filter_eq_self.mpr fun call hcall => by simpa using hnone call hcall
    rw [accepted, offered, hall]

variable [QueueBase Q] {q q' : Recording Q}

/-- A `put` adds what is offered to the record. -/
theorem put_offered {m : Message} {ret : Nat} (h : QueueBase.put q m = .ok (ret, q')) :
    q'.offered = q.offered ++ [m.bytes] := by
  obtain ⟨⟨ret', inner⟩, -, heq⟩ := Outcome.bind_eq_ok.mp h
  obtain ⟨-, rfl⟩ := Prod.mk.inj (Except.ok.inj heq)
  simp [offered]

/-- A `get` does not touch the record. -/
theorem get_calls {size : Nat} {read : Read} (h : QueueBase.get q size = .ok (read, q')) :
    q'.calls = q.calls := by
  obtain ⟨⟨read', inner⟩, -, heq⟩ := Outcome.bind_eq_ok.mp h
  obtain ⟨-, rfl⟩ := Prod.mk.inj (Except.ok.inj heq)
  rfl

end Recording

namespace ReadState

variable {Q : Type}

/-- How the chunks read relate to those offered at each program point without a parser. -/
def Offers (s : ReadState (Recording Q)) : Prop :=
  match s.pc with
  | .head | .headStop | .read => s.queue.offered = s.chunks
  | .checkAlive readStatus =>
      (readStatus ≤ 0 ∧ s.queue.offered = s.chunks) ∨
        (0 < readStatus ∧ s.chunks = s.queue.offered ++ [s.arr.content])
  | .checkStop readStatus =>
      (readStatus = 0 ∧ s.queue.offered = s.chunks) ∨
        (0 < readStatus ∧ s.chunks = s.queue.offered ++ [s.arr.content])
  | .parse => s.chunks = s.queue.offered ++ [s.arr.content]
  | .finish | .done | .terminated => True
  | .forLoop _ | .put _ _ | .innerAlive _ _ _ | .innerStop _ _ _ | .outerAlive _
  | .outerStop _ | .undefined => False

variable {s s' : ReadState (Recording Q)}

/-- A read that returns bytes makes them the chunk to be offered next. -/
theorem readReturns_offers (result : ReadResult) (hpc : s.pc = .read) (h : s.Offers) :
    (s.readReturns result).Offers := by
  simp only [Offers, hpc] at h
  cases result with
  | chunk c =>
      refine .inr ⟨by exact_mod_cast c.nonempty, ?_⟩
      simp only [readReturns, SizedArray.content_store_resize _ c.fits, h]
  | zero => exact .inl ⟨Int.le_refl 0, h⟩
  | error => exact .inl ⟨by decide, h⟩

variable [QueueBase Q]

/-- Every step of the thread keeps what is offered in line with what is read. -/
theorem readerStep_offers (hparser : s.parser = none) (h : s.Offers)
    (hstep : s.readerStep = some s') : s'.parser = none ∧ s'.Offers := by
  cases hpc : s.pc with
  | head | headStop =>
      simp only [Offers, hpc] at h
      simp only [readerStep, hpc] at hstep
      obtain rfl := Option.some.inj hstep
      refine ⟨hparser, ?_⟩
      split
      all_goals simp only [Offers, h]
  | checkAlive readStatus =>
      simp only [Offers, hpc] at h
      simp only [readerStep, hpc] at hstep
      obtain rfl := Option.some.inj hstep
      refine ⟨hparser, ?_⟩
      split
      · trivial
      · rename_i hgoes
        rcases h with ⟨hnone, hsame⟩ | ⟨hsome, hlast⟩
        · exact .inl ⟨by omega, hsame⟩
        · exact .inr ⟨hsome, hlast⟩
  | checkStop readStatus =>
      simp only [Offers, hpc] at h
      simp only [readerStep, hpc] at hstep
      obtain rfl := Option.some.inj hstep
      refine ⟨hparser, ?_⟩
      by_cases hstop : s.flags.stopAsked = true
      · simp only [Offers, hstop, if_true]
      · rcases h with ⟨rfl, hsame⟩ | ⟨hsome, hlast⟩
        · simpa only [Offers, hstop, Bool.false_eq_true, if_false, if_true] using hsame
        · have hne : readStatus ≠ 0 := by omega
          simpa only [Offers, hstop, hne, Bool.false_eq_true, if_false] using hlast
  | parse =>
      simp only [Offers, hpc] at h
      simp only [readerStep, hpc, hparser] at hstep
      split at hstep
      · -- the answer `ret` is not looked at
        rename_i ret queue hput
        obtain rfl := Option.some.inj hstep
        have hfits : s.arr.content.length < 2 ^ 16 := by
          rw [s.arr.length_content]
          exact Nat.lt_succ_of_le s.arr.fits
        refine ⟨rfl, ?_⟩
        show queue.offered = s.chunks
        rw [Recording.put_offered hput, castMessage_bytes hfits, h]
      · obtain rfl := Option.some.inj hstep
        exact ⟨rfl, trivial⟩
  | finish =>
      simp only [readerStep, hpc] at hstep
      obtain rfl := Option.some.inj hstep
      exact ⟨hparser, trivial⟩
  | read | done | undefined | terminated => simp [readerStep, hpc] at hstep
  | forLoop rest | put kg rest | innerAlive putStatus kg rest | innerStop putStatus kg rest
  | outerAlive rest | outerStop rest => simp [Offers, hpc] at h

/-- Every step of an interleaving keeps what is offered in line with what is read. -/
theorem step_offers {label : ReadLabel} (hparser : s.parser = none) (h : s.Offers)
    (hstep : s.step label = some s') : s'.parser = none ∧ s'.Offers := by
  cases label with
  | reader => exact readerStep_offers hparser h hstep
  | readReturns result =>
      obtain ⟨hpc, rfl⟩ := readReturns_cases hstep
      refine ⟨?_, readReturns_offers result hpc h⟩
      cases result <;> exact hparser
  | consumerGet =>
      simp only [step] at hstep
      split at hstep
      · rename_i read queue hget
        obtain rfl := Option.some.inj hstep
        have hoffered : queue.offered = s.queue.offered := by
          rw [Recording.offered, Recording.get_calls hget, Recording.offered]
        refine ⟨hparser, ?_⟩
        simpa only [Offers, hoffered] using h
      · cases hstep
  | stop | writerDies =>
      obtain rfl := Option.some.inj hstep
      exact ⟨hparser, h⟩

/-- In every interleaving what is offered stays in line with what is read. -/
theorem reachable_offers {queue : Q} (h : (machine (.new queue) none).Reachable s) : s.Offers := by
  have hinit : ∀ s, (machine (Recording.new queue) none).init s →
      s.parser = none ∧ s.Offers := by
    rintro s rfl
    exact ⟨rfl, rfl⟩
  have hkept : ∀ s s' label, s.parser = none ∧ s.Offers →
      (machine (Recording.new queue) none).step s label = some s' →
      s'.parser = none ∧ s'.Offers := by
    intro s s' label hinv hstep
    exact step_offers hinv.1 hinv.2 hstep
  exact (Machine.Reachable.invariant hinit hkept h).2

end ReadState

open ReadState

/-- For every queue and in every interleaving, also one with calls of `stop` or a dead writing
thread: whenever the reading thread without a parser is at the head of its loop, the queue has
accepted exactly the chunks read so far, in order and each once, if and only if no `put` has
returned zero. -/
theorem read_without_parser_iff {Q : Type} [QueueBase Q] {queue : Q} {s : ReadState (Recording Q)}
    (hreach : (machine (.new queue) none).Reachable s) (hhead : s.pc = .head) :
    s.queue.accepted = s.chunks ↔ s.queue.NoneRefused := by
  have hoffers := reachable_offers hreach
  simp only [Offers, hhead] at hoffers
  rw [← hoffers, Recording.accepted_eq_offered_iff]

/-- A chunk of one byte is read and accepted. -/
theorem read_without_parser_iff_room :
    ∃ s : ReadState (Recording RingQueue),
      (machine (Recording.new (RingQueue.new 1 16)) none).Reachable s ∧ s.chunks = [[7]] ∧
        s.queue.accepted = s.chunks := by
  have hrun : ((machine (Recording.new (RingQueue.new 1 16)) none).run
      [.reader, .reader, .readReturns (.chunk ⟨[7], by decide, by decide⟩), .reader, .reader,
        .reader] (start (Recording.new (RingQueue.new 1 16)) none)).map
        (fun s => (s.pc, s.chunks, s.queue.calls.map Prod.snd)) =
      some (.head, [[7]], [1]) := by
    decide +kernel
  obtain ⟨s, hs, hfields⟩ := Option.map_eq_some_iff.mp hrun
  obtain ⟨hhead, hchunks, hcalls⟩ : s.pc = .head ∧ s.chunks = [[7]] ∧
      s.queue.calls.map Prod.snd = [1] := by simpa using hfields
  have hreach := Machine.reachable_of_run _ rfl hs
  refine ⟨s, hreach, hchunks, (read_without_parser_iff hreach hhead).mpr fun call hcall => ?_⟩
  have hret : call.2 ∈ s.queue.calls.map Prod.snd := List.mem_map_of_mem hcall
  rw [hcalls, List.mem_singleton] at hret
  omega

/-- Two chunks are read before the consumer takes one: a ring of one cell refuses the second, which
is lost. -/
theorem read_without_parser_loses :
    ∃ labels, (∀ label ∈ labels, label ≠ .stop ∧ label ≠ .writerDies) ∧
      ∃ s, (machine (Recording.new (RingQueue.new 1 16)) none).run labels
            (start (Recording.new (RingQueue.new 1 16)) none) = some s ∧
        s.pc = .head ∧ s.chunks = [[7], [8]] ∧ s.queue.accepted = [[7]] := by
  refine ⟨[.reader, .reader, .readReturns (.chunk ⟨[7], by decide, by decide⟩), .reader, .reader,
    .reader, .reader, .reader, .readReturns (.chunk ⟨[8], by decide, by decide⟩), .reader, .reader,
    .reader], by simp, ?_⟩
  have hrun : ((machine (Recording.new (RingQueue.new 1 16)) none).run
      [.reader, .reader, .readReturns (.chunk ⟨[7], by decide, by decide⟩), .reader, .reader,
        .reader, .reader, .reader, .readReturns (.chunk ⟨[8], by decide, by decide⟩), .reader,
        .reader, .reader] (start (Recording.new (RingQueue.new 1 16)) none)).map
        (fun s => (s.pc, s.chunks, s.queue.accepted)) = some (.head, [[7], [8]], [[7]]) := by
    decide +kernel
  obtain ⟨s, hs, hfields⟩ := Option.map_eq_some_iff.mp hrun
  refine ⟨s, hs, ?_⟩
  simpa using hfields

end Shovel.Workers
