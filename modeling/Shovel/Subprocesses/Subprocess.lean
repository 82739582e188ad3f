import Shovel.Containers.RingQueue
import Shovel.Subprocesses.Loop
import Shovel.Workers.ReadThread

/-!
# A subprocess over its own queue

`AbstractSubprocess` with the ring queue it really has. The worker's reading
thread puts datagrams through `RQ_NoBlockReadDecorator` over
`RQ_BlockWriteDecorator`; the loop takes them out and calls
`datagram_processor`. The worker is already running when the subclass calls
`set_parser`.

`RingQueue` shadows the member that the inherited `capacity` reads, so the guard
of the blocking `put` holds on every ring. The first `put` of the reading thread
never returns: the processor is never called, and neither a notification nor
`stop` gets the thread out.
-/

namespace Shovel.Subprocesses

open Containers Parsers Transition Workers

/-- `AbstractSubprocess::QUEUE_COUNT_BAGS`. -/
def QUEUE_COUNT_BAGS : Nat := 128

/-- The program points of `AbstractSubprocess::loop` and of `RQ_NoBlockReadDecorator::get`, which
it calls. -/
inductive ProcessPc where
  | testParent
  | testSize
  | get
  | notifyFull (gotSize : Nat)
  | process
  | exited
  deriving DecidableEq

/-- The worker's reading thread with its `put` and the shared mutex, and the loop with its array.
The field `processed` records the calls of `datagram_processor`. -/
structure SubprocessState where
  reading : ReadState RingQueue
  put : PutPc
  locked : Bool
  loop : ProcessPc
  arr : SizedArray LoopState.arrSize
  processed : List (List UInt8)

/-- A step of the reading thread, the return of a read, a wake-up without a notification, a step of
the loop with what `getppid` returns if it is called, `set_parser`, a call of `stop`, or the death
of the writing thread. -/
inductive SubprocessLabel where
  | reader
  | readReturns (result : ReadResult)
  | wakes
  | loop (parent : Int)
  | setParser
  | stop
  | writerDies

namespace SubprocessState

/-- The message of the `put` that the reading thread is about to call. -/
def nextPut (r : ReadState RingQueue) : Option Message :=
  match r.pc, r.parser with
  | .put kg _, _ => some (castMessage kg)
  | .parse, none => some (castMessage r.arr.content)
  | _, _ => none

/-- The reading thread behind its `put`. -/
def afterPut (r : ReadState RingQueue) (putStatus : Nat) (queue : RingQueue) :
    ReadState RingQueue :=
  { r with
    queue
    pc := match r.pc with
      | .put kg rest => .innerAlive putStatus kg rest
      | _ => .head }

/-- The next step of the reading thread, inside `put` or outside. -/
def readerStep (s : SubprocessState) : Option SubprocessState :=
  match s.put with
  | .idle =>
      match nextPut s.reading with
      | some m => some { s with put := .lock m }
      | none => s.reading.readerStep.map fun reading => { s with reading }
  | .lock m | .relock m =>
      if s.locked then none else some { s with locked := true, put := .guard m }
  | .guard m =>
      some { s with
        put := if QueueBase.capacity s.reading.queue ≤ QueueBase.size s.reading.queue then
          .goToSleep m else .innerPut m }
  | .goToSleep m => some { s with locked := false, put := .asleep m }
  | .asleep _ => none
  | .innerPut m =>
      match QueueBase.put s.reading.queue m with
      | .ok (putStatus, queue) =>
          some { s with reading := afterPut s.reading putStatus queue, put := .notifyEmpty }
      | .error _ => none
  | .notifyEmpty => some { s with put := .unlock }
  | .unlock => some { s with locked := false, put := .idle }

/-- The next step of the loop. -/
def loopStep (s : SubprocessState) (parent : Int) : Option SubprocessState :=
  match s.loop with
  -- `exit(0)` ends all threads
  | .testParent => some { s with loop := if parent < 2 then .exited else .testSize }
  | .testSize =>
      some { s with loop := if QueueBase.size s.reading.queue ≠ 0 then .get else .testParent }
  | .get =>
      match QueueBase.get s.reading.queue LoopState.arrSize with
      | .ok (read, queue) =>
          some { s with
            reading := { s.reading with queue }
            arr := (s.arr.store read.copied).resize read.ret
            loop := .notifyFull read.ret }
      | .error _ => none
  | .notifyFull gotSize =>
      some { s with
        put := LoopState.wake s.put
        loop := if 0 < gotSize then .process else .testParent }
  | .process => some { s with processed := s.processed ++ [s.arr.content], loop := .get }
  | .exited => none

/-- One step of an interleaving. -/
def step (s : SubprocessState) (label : SubprocessLabel) : Option SubprocessState :=
  if s.loop = .exited then none
  else
    match label with
    | .reader => s.readerStep
    | .readReturns result =>
        if s.reading.pc = .read then some { s with reading := s.reading.readReturns result }
        else none
    | .wakes =>
        match s.put with
        | .asleep m => some { s with put := .relock m }
        | _ => none
    | .loop parent => s.loopStep parent
    | .setParser => some { s with reading := { s.reading with parser := some .init } }
    | .stop =>
        some { s with
          reading := { s.reading with flags := { s.reading.flags with stopAsked := true } } }
    | .writerDies =>
        some { s with
          reading := { s.reading with
            flags := { s.reading.flags with writeThreadAlive := false } } }

/-- The constructor has started the worker. No parser is set yet. -/
def start (queue : RingQueue) : SubprocessState :=
  ⟨.start queue none, .idle, false, .testParent, .new _, []⟩

/-- All interleavings of a subprocess whose reading queue is over a ring of these cells. -/
def machine (count cellSize : Nat) : Machine SubprocessState SubprocessLabel where
  init s := s = start (.new count cellSize)
  step := step

/-- The `put` of the reading thread with nothing around it is the one of the thread over a bare
queue. -/
theorem readerStep_put {r : ReadState RingQueue} {m : Message} (h : nextPut r = some m)
    {putStatus : Nat} {queue : RingQueue}
    (hput : QueueBase.put r.queue m = .ok (putStatus, queue)) :
    r.readerStep = some (afterPut r putStatus queue) := by
  cases hpc : r.pc with
  | put kg rest =>
      simp only [nextPut, hpc, Option.some.injEq] at h
      simp only [ReadState.readerStep, hpc, h, hput, afterPut]
  | parse =>
      cases hparser : r.parser with
      | none =>
          simp only [nextPut, hpc, hparser, Option.some.injEq] at h
          simp only [ReadState.readerStep, hpc, hparser, h, hput, afterPut]
      | some p => simp [nextPut, hpc, hparser] at h
  | _ => simp [nextPut, hpc] at h

/-- Outside a `put` the reading thread does not touch the queue. -/
theorem readerStep_queue {r r' : ReadState RingQueue} (h : nextPut r = none)
    (hstep : r.readerStep = some r') : r'.queue = r.queue := by
  cases hpc : r.pc with
  | put kg rest => simp [nextPut, hpc] at h
  | parse =>
      cases hparser : r.parser with
      | none => simp [nextPut, hpc, hparser] at h
      | some p =>
          simp only [ReadState.readerStep, hpc, hparser] at hstep
          split at hstep
          all_goals
            obtain rfl := Option.some.inj hstep
            rfl
  | forLoop rest =>
      cases rest with
      | nil | cons kg rest =>
          simp only [ReadState.readerStep, hpc] at hstep
          obtain rfl := Option.some.inj hstep
          rfl
  | read | done | undefined | terminated => simp [ReadState.readerStep, hpc] at hstep
  | _ =>
      simp only [ReadState.readerStep, hpc] at hstep
      obtain rfl := Option.some.inj hstep
      rfl

/-! ## Nothing is ever put -/

/-- The thread is inside a `put` that has not passed its guard. -/
def Blocked (put : PutPc) : Prop :=
  ∃ m, put ∈ [.lock m, .guard m, .goToSleep m, .asleep m, .relock m]

/-- The reading thread stands at a call of `put`. -/
def AtPut (r : ReadState RingQueue) : Prop :=
  r.pc = .parse ∨ ∃ kg rest, r.pc = .put kg rest

/-- The queue is as it was constructed, the loop has found it empty every time, and a `put` that has
begun has not passed its guard. -/
structure Inv (queue : RingQueue) (s : SubprocessState) : Prop where
  queue : s.reading.queue = queue
  loop : s.loop ∈ [.testParent, .testSize, .exited]
  processed : s.processed = []
  put : s.put = .idle ∨ Blocked s.put ∧ AtPut s.reading

variable {count cellSize : Nat} {s s' : SubprocessState}

/-- The guard of `put` holds on a ring that nobody has used. -/
theorem guard_new : QueueBase.capacity (RingQueue.new count cellSize) ≤
    QueueBase.size (RingQueue.new count cellSize) :=
  Nat.le_refl 0

/-- Inside a `put` a step of the reading thread moves nothing but the `put` and the mutex. -/
theorem readerStep_blocked (hqueue : s.reading.queue = .new count cellSize) (h : Blocked s.put)
    (hstep : s.readerStep = some s') :
    Blocked s'.put ∧ s'.reading = s.reading ∧ s'.loop = s.loop ∧ s'.processed = s.processed := by
  obtain ⟨m, hm⟩ := h
  simp only [List.mem_cons, List.not_mem_nil, or_false] at hm
  rcases hm with hput | hput | hput | hput | hput
  · simp only [readerStep, hput] at hstep
    split at hstep
    · cases hstep
    · obtain rfl := Option.some.inj hstep
      exact ⟨⟨m, by simp⟩, rfl, rfl, rfl⟩
  · simp only [readerStep, hput, hqueue, guard_new, if_true] at hstep
    obtain rfl := Option.some.inj hstep
    exact ⟨⟨m, by simp⟩, rfl, rfl, rfl⟩
  · simp only [readerStep, hput] at hstep
    obtain rfl := Option.some.inj hstep
    exact ⟨⟨m, by simp⟩, rfl, rfl, rfl⟩
  · simp [readerStep, hput] at hstep
  · simp only [readerStep, hput] at hstep
    split at hstep
    · cases hstep
    · obtain rfl := Option.some.inj hstep
      exact ⟨⟨m, by simp⟩, rfl, rfl, rfl⟩

/-- The loop finds the queue empty and takes nothing. -/
theorem loopStep_inv {parent : Int} (hinv : Inv (.new count cellSize) s)
    (hstep : s.loopStep parent = some s') :
    Inv (.new count cellSize) s' ∧ s'.reading = s.reading ∧ s'.put = s.put := by
  obtain ⟨hqueue, hloop, hprocessed, hput⟩ := hinv
  have hempty : QueueBase.size s.reading.queue = 0 := by rw [hqueue]; rfl
  simp only [List.mem_cons, List.not_mem_nil, or_false] at hloop
  rcases hloop with hpc | hpc | hpc
  · simp only [loopStep, hpc] at hstep
    obtain rfl := Option.some.inj hstep
    refine ⟨⟨hqueue, ?_, hprocessed, hput⟩, rfl, rfl⟩
    simp only
    split <;> simp
  · simp only [loopStep, hpc, hempty, ne_eq, not_true_eq_false, if_false] at hstep
    obtain rfl := Option.some.inj hstep
    exact ⟨⟨hqueue, by simp, hprocessed, hput⟩, rfl, rfl⟩
  · simp [loopStep, hpc] at hstep

/-- While the reading thread is inside a `put`, no step of any thread gets it out, makes it read,
or ends it. -/
theorem step_blocked {label : SubprocessLabel} (hinv : Inv (.new count cellSize) s)
    (hblocked : Blocked s.put) (hstep : s.step label = some s') :
    Blocked s'.put ∧ s'.reading.pc = s.reading.pc ∧ s'.reading.chunks = s.reading.chunks ∧
      s'.reading.flags.readThreadAlive = s.reading.flags.readThreadAlive ∧
      s'.reading.queue = s.reading.queue ∧ s'.processed = s.processed ∧
      s'.loop ∈ [.testParent, .testSize, .exited] := by
  have hidle : s.put ≠ .idle := by
    obtain ⟨m, hm⟩ := hblocked
    intro hidle
    simp [hidle] at hm
  obtain ⟨-, hat⟩ := hinv.put.resolve_left hidle
  unfold step at hstep
  split at hstep
  · cases hstep
  · cases label with
    | reader =>
        obtain ⟨hnext, hreading, hloop, hprocessed⟩ :=
          readerStep_blocked hinv.queue hblocked hstep
        rw [hreading, hloop, hprocessed]
        exact ⟨hnext, rfl, rfl, rfl, rfl, rfl, hinv.loop⟩
    | readReturns result =>
        simp only at hstep
        split at hstep
        · rename_i hread
          rcases hat with hpc | ⟨kg, rest, hpc⟩ <;> cases hpc.symm.trans hread
        · cases hstep
    | wakes =>
        simp only at hstep
        split at hstep
        · rename_i m _
          obtain rfl := Option.some.inj hstep
          exact ⟨⟨m, by simp⟩, rfl, rfl, rfl, rfl, rfl, hinv.loop⟩
        · cases hstep
    | loop parent =>
        obtain ⟨hnext, hreading, hput⟩ := loopStep_inv hinv hstep
        rw [hreading, hput, hnext.processed, hinv.processed]
        exact ⟨hblocked, rfl, rfl, rfl, rfl, rfl, hnext.loop⟩
    | setParser | stop | writerDies =>
        obtain rfl := Option.some.inj hstep
        exact ⟨hblocked, rfl, rfl, rfl, rfl, rfl, hinv.loop⟩

/-- The reading thread is at a call of `put` when it is about to begin one. -/
theorem atPut_of_nextPut {r : ReadState RingQueue} {m : Message} (h : nextPut r = some m) :
    AtPut r := by
  cases hpc : r.pc with
  | put kg rest => exact .inr ⟨kg, rest, hpc⟩
  | parse => exact .inl hpc
  | _ => simp [nextPut, hpc] at h

/-- Every step keeps the invariant. -/
theorem step_inv {label : SubprocessLabel} (hinv : Inv (.new count cellSize) s)
    (hstep : s.step label = some s') : Inv (.new count cellSize) s' := by
  rcases hinv.put with hidle | ⟨hblocked, hat⟩
  · obtain ⟨hqueue, hloop, hprocessed, -⟩ := hinv
    have hstep' := hstep
    unfold step at hstep
    split at hstep
    · cases hstep
    · cases label with
      | reader =>
          simp only [readerStep, hidle] at hstep
          split at hstep
          · rename_i m hnext
            obtain rfl := Option.some.inj hstep
            exact ⟨hqueue, hloop, hprocessed, .inr ⟨⟨m, by simp⟩, atPut_of_nextPut hnext⟩⟩
          · rename_i hnext
            obtain ⟨reading, hown, rfl⟩ := Option.map_eq_some_iff.mp hstep
            exact ⟨(readerStep_queue hnext hown).trans hqueue, hloop, hprocessed, .inl rfl⟩
      | readReturns result =>
          simp only at hstep
          split at hstep
          · obtain rfl := Option.some.inj hstep
            refine ⟨?_, hloop, hprocessed, .inl hidle⟩
            cases result <;> exact hqueue
          · cases hstep
      | wakes => simp [hidle] at hstep
      | loop parent => exact (loopStep_inv ⟨hqueue, hloop, hprocessed, .inl hidle⟩ hstep).1
      | setParser | stop | writerDies =>
          obtain rfl := Option.some.inj hstep
          exact ⟨hqueue, hloop, hprocessed, .inl hidle⟩
  · obtain ⟨hnext, hpc, -, -, hqueue, hprocessed, hloop⟩ := step_blocked hinv hblocked hstep
    refine ⟨hqueue.trans hinv.queue, hloop, hprocessed.trans hinv.processed, .inr ⟨hnext, ?_⟩⟩
    rwa [AtPut, hpc]

/-- Whatever arrives at a subprocess, whenever its parser is set, and however its threads are
interleaved: `datagram_processor` is never called and the queue stays empty. Once the reading thread
has begun a `put` it stays inside, reads nothing any more and does not end, whatever the others do:
neither a wake-up, nor `stop`, nor the end of the writing thread gets it out. -/
theorem processes_nothing (h : (machine count cellSize).Reachable s) :
    s.processed = [] ∧ QueueBase.size s.reading.queue = 0 ∧
      (s.put ≠ .idle → ∀ labels final, (machine count cellSize).run labels s = some final →
        final.put ≠ .idle ∧ final.reading.pc = s.reading.pc ∧
          final.reading.chunks = s.reading.chunks ∧
          final.reading.flags.readThreadAlive = s.reading.flags.readThreadAlive) := by
  have hinv : Inv (.new count cellSize) s := by
    refine h.invariant (fun state hstate => ?_) fun state _ _ hinv hnext =>
      step_inv (s := state) hinv hnext
    obtain rfl := hstate
    exact ⟨rfl, by simp [start], rfl, .inl rfl⟩
  refine ⟨hinv.processed, by rw [hinv.queue]; rfl, fun hput labels final hrun => ?_⟩
  obtain ⟨-, hblocked, hpc, hchunks, halive⟩ := Machine.run_invariant
    (fun final => Inv (.new count cellSize) final ∧ Blocked final.put ∧
      final.reading.pc = s.reading.pc ∧ final.reading.chunks = s.reading.chunks ∧
      final.reading.flags.readThreadAlive = s.reading.flags.readThreadAlive)
    (fun state following label hstate hstep => by
      obtain ⟨hstate, hblocked, hpc, hchunks, halive⟩ := hstate
      obtain ⟨hnext, hpc', hchunks', halive', -⟩ := step_blocked hstate hblocked hstep
      exact ⟨step_inv hstate hstep, hnext, hpc'.trans hpc, hchunks'.trans hchunks,
        halive'.trans halive⟩)
    ⟨hinv, (hinv.put.resolve_left hput).1, rfl, rfl, rfl⟩ hrun
  refine ⟨fun hidle => ?_, hpc, hchunks, halive⟩
  obtain ⟨m, hm⟩ := hblocked
  simp [hidle] at hm

/-- The stack of a subprocess, a datagram of twelve bytes, and a reading thread that sleeps in front
of an empty queue. -/
theorem processes_nothing_asleep :
    ∃ s, (machine QUEUE_COUNT_BAGS 16).Reachable s ∧ s.reading.chunks.length = 1 ∧
      (∃ m, s.put = .asleep m) ∧ s.processed = [] ∧ QueueBase.size s.reading.queue = 0 ∧
      ∀ labels final, (machine QUEUE_COUNT_BAGS 16).run labels s = some final →
        final.put ≠ .idle := by
  have hrun : ((machine QUEUE_COUNT_BAGS 16).run
      [.setParser, .loop 7, .loop 7, .reader, .reader,
        .readReturns (.chunk ⟨[0xff, 0xff, 0xff, 0xff, 0, 0, 0, 0, 12, 0, 0, 0],
          by decide, by decide⟩),
        .reader, .reader, .reader, .reader, .reader, .reader, .reader, .reader]
      (start (.new QUEUE_COUNT_BAGS 16))).map (fun s => (s.reading.chunks.length, s.put)) =
        some (1, .asleep ⟨[0xff, 0xff, 0xff, 0xff, 0, 0, 0, 0, 12, 0, 0, 0], by decide⟩) := by
    decide +kernel
  obtain ⟨s, hs, hfields⟩ := Option.map_eq_some_iff.mp hrun
  obtain ⟨hchunks, hput⟩ := Prod.mk.inj hfields
  have hreach := Machine.reachable_of_run _ rfl hs
  obtain ⟨hprocessed, hempty, hstays⟩ := processes_nothing hreach
  have hbegun : s.put ≠ .idle := by simp [hput]
  exact ⟨s, hreach, hchunks, ⟨_, hput⟩, hprocessed, hempty,
    fun labels final hlater => (hstays hbegun labels final hlater).1⟩

end SubprocessState

end Shovel.Subprocesses
