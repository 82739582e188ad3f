import Shovel.Containers.BlockingCalls
import Shovel.Containers.Unlocked

/-!
# Many writers and one reader without a lock

The queue from which the writing thread of a subprocess takes: an
`RQ_NoBlockReadDecorator` over an `RQ_BlockWriteTimedDecorator` over a
`RingQueue`. Any number of threads `put`, each with the mutex of the decorators
held; one thread calls `get` and `peek`, which take no lock. So the steps of the
reader fall between those of a writer, and those of two writers do not. As in
`Unlocked` the status is left out.

`asUnlocked` shows the ring of one producer and one consumer: the producer is the
owner of the mutex. The ring's own invariant then holds for all the writers.
-/

namespace Shovel.Containers

open Transition Function

/-- A step of the producer. -/
def UnlockedLabel.ofProducer : UnlockedLabel → Bool
  | putCall _ | producer => true
  | getCall _ | peekCall _ | consumer => false

/-- The program points of a `put` through the two decorators. -/
inductive WriterPc where
  | idle
  | lock (m : Message)
  | guard (m : Message)
  | goToSleep (m : Message)
  | asleep (m : Message)
  | relock (m : Message)
  | begin (m : Message)
  | inner (p : ProducerPc)
  | notify
  | unlock
  deriving DecidableEq

namespace WriterPc

/-- The thread is inside the critical section. -/
def holdsMutex : WriterPc → Bool
  | guard _ | goToSleep _ | begin _ | inner _ | notify | unlock => true
  | idle | lock _ | asleep _ | relock _ => false

/-- Where the thread is in `RingQueue::put`. -/
def producer : WriterPc → ProducerPc
  | inner p => p
  | _ => .idle

end WriterPc

/-- The program points of `get` and `peek`; behind a `get` stands its notification. -/
inductive TakerPc where
  | ring (pc : ConsumerPc)
  | notifyFull
  deriving DecidableEq

/-- Where the thread is in `RingQueue::get` or `peek`. -/
def TakerPc.consumer : TakerPc → ConsumerPc
  | ring pc => pc
  | notifyFull => .idle

/-- The ring with the mutex of the decorators, the writers, and the reader. The fields `accepted`
and `got` record what those of `Unlocked` do. -/
structure ManyWriters (T : Type) where
  ring : RingQueue
  owner : Option T
  writers : T → WriterPc
  taker : TakerPc
  accepted : List Message
  got : List Got

/-- A writer begins a call, makes its next step, or wakes because it is notified, its time is over,
or for no reason; the reader begins a call or makes its next step. -/
inductive ManyLabel (T : Type) where
  | put (t : T) (m : Message)
  | writer (t : T)
  | wakes (t : T)
  | get (size : Nat)
  | peek (size : Nat)
  | reader

namespace ManyWriters

variable {T : Type} [DecidableEq T]

/-- A writer moves. -/
def goTo (s : ManyWriters T) (t : T) (p : WriterPc) : ManyWriters T :=
  { s with writers := update s.writers t p }

omit [DecidableEq T] in
/-- The ring between the reader and a writer that is at this point of `RingQueue::put`. -/
def view (s : ManyWriters T) (p : ProducerPc) : Unlocked :=
  ⟨s.ring, p, s.taker.consumer, s.accepted, s.got⟩

/-- A writer has made a step of `RingQueue::put`. -/
def wrote (s : ManyWriters T) (t : T) (u : Unlocked) : ManyWriters T :=
  { s.goTo t (if u.producer = .idle then .notify else .inner u.producer) with
    ring := u.ring, accepted := u.accepted }

/-- The next step of a writer, except for beginning a call and waking up. -/
def writerStep (s : ManyWriters T) (t : T) : Option (ManyWriters T) :=
  match s.writers t with
  | .idle | .asleep _ => none
  | .lock m => if s.owner = none then some { s.goTo t (.guard m) with owner := some t } else none
  | .guard m => some (s.goTo t (if guardHolds s.ring (.put m) then .goToSleep m else .begin m))
  | .goToSleep m => some { s.goTo t (.asleep m) with owner := none }
  -- `wait_for` is not repeated: the guard is not tested again
  | .relock m => if s.owner = none then some { s.goTo t (.begin m) with owner := some t } else none
  | .begin m => ((s.view .idle).step (.putCall m)).map (s.wrote t)
  | .inner p => ((s.view p).step .producer).map (s.wrote t)
  -- nobody waits for a message on `m_condition_empty`
  | .notify => some (s.goTo t .unlock)
  | .unlock => some { s.goTo t .idle with owner := none }

omit [DecidableEq T] in
/-- The reader has made a step of `RingQueue::get` or `peek` and goes on at this point. -/
def took (s : ManyWriters T) (taker : TakerPc) (u : Unlocked) : ManyWriters T :=
  { s with ring := u.ring, got := u.got, taker }

omit [DecidableEq T] in
/-- The next step of the reader. -/
def readerStep (s : ManyWriters T) : Option (ManyWriters T) :=
  match s.taker with
  | .notifyFull => some { s with taker := .ring .idle }
  | .ring (.decSize _) => ((s.view .idle).step .consumer).map (s.took .notifyFull)
  | .ring _ => ((s.view .idle).step .consumer).map fun u => s.took (.ring u.consumer) u

/-- One step of an interleaving. -/
def step (s : ManyWriters T) : ManyLabel T → Option (ManyWriters T)
  | .put t m => if s.writers t = .idle then some (s.goTo t (.lock m)) else none
  | .writer t => s.writerStep t
  | .wakes t =>
      match s.writers t with
      | .asleep m => some (s.goTo t (.relock m))
      | _ => none
  | .get size =>
      if s.taker = .ring .idle then
        ((s.view .idle).step (.getCall size)).map fun u =>
          -- an empty queue is notified as well
          s.took (if u.consumer = .idle then .notifyFull else .ring u.consumer) u
      else none
  | .peek size =>
      if s.taker = .ring .idle then
        ((s.view .idle).step (.peekCall size)).map fun u => s.took (.ring u.consumer) u
      else none
  | .reader => s.readerStep

omit [DecidableEq T] in
/-- A new ring, and nobody in a call. -/
def start (q : RingQueue) : ManyWriters T := ⟨q, none, fun _ => .idle, .ring .idle, [], []⟩

/-- All interleavings of the writers and the reader. -/
def machine (q : RingQueue) : Machine (ManyWriters T) (ManyLabel T) where
  init s := s = start q
  step := step

/-! ## What a step does -/

section Frames

variable {v u : Unlocked} {label : UnlockedLabel}

/-- A step of the producer leaves the consumer alone. -/
theorem producer_frame (hlabel : label.ofProducer = true) (h : v.step label = some u) :
    u.consumer = v.consumer ∧ u.got = v.got := by
  cases label with
  | putCall m =>
      simp only [Unlocked.step] at h
      split at h
      · obtain rfl := Option.some.inj h
        split <;> exact ⟨rfl, rfl⟩
      · cases h
  | producer =>
      simp only [Unlocked.step, Unlocked.producerStep] at h
      split at h
      · cases h
      · cases h
      · split at h <;> (obtain rfl := Option.some.inj h; exact ⟨rfl, rfl⟩)
      all_goals
        obtain rfl := Option.some.inj h
        exact ⟨rfl, rfl⟩
  | getCall | peekCall | consumer => cases hlabel

/-- A step of the consumer is the same wherever the producer is, and leaves it alone. -/
theorem consumer_frame (hlabel : label.ofProducer = false) (h : v.step label = some u)
    (p : ProducerPc) :
    u.accepted = v.accepted ∧
      Unlocked.step { v with producer := p } label = some { u with producer := p } := by
  cases label with
  | getCall size | peekCall size =>
      simp only [Unlocked.step] at h ⊢
      split at h
      · rename_i hidle
        obtain rfl := Option.some.inj h
        rw [if_pos hidle]
        split <;> exact ⟨rfl, rfl⟩
      · cases h
  | consumer =>
      obtain ⟨ring, producer, consumer, accepted, got⟩ := v
      cases consumer with
      | idle | threw => cases h
      | bagGet size =>
          simp only [Unlocked.step, Unlocked.consumerStep] at h ⊢
          split at h <;> (obtain rfl := Option.some.inj h; simp_all)
      | bagPeek size =>
          simp only [Unlocked.step, Unlocked.consumerStep] at h ⊢
          split at h <;> (obtain rfl := Option.some.inj h; simp_all)
      | incIndex | wrapIndex | decSize =>
          obtain rfl := Option.some.inj h
          exact ⟨rfl, rfl⟩
  | putCall | producer => cases hlabel

end Frames

/-- The steps one by one: a writer takes the mutex, gives it back, moves outside of the ring or in
it; the reader makes a step in the ring, or has notified. -/
inductive Moves (s : ManyWriters T) : ManyWriters T → Prop where
  | acquires {t p} (hout : (s.writers t).holdsMutex = false) (hfree : s.owner = none)
      (hin : p.holdsMutex = true) (hafter : p.producer = .idle) (hp : p ≠ .inner .idle) :
      Moves s { s.goTo t p with owner := some t }
  | releases {t p} (hin : (s.writers t).holdsMutex = true)
      (hbefore : (s.writers t).producer = .idle) (hout : p.holdsMutex = false) :
      Moves s { s.goTo t p with owner := none }
  | goes {t p} (hsame : p.holdsMutex = (s.writers t).holdsMutex)
      (hbefore : (s.writers t).producer = .idle) (hafter : p.producer = .idle)
      (hp : p ≠ .inner .idle) : Moves s (s.goTo t p)
  | writes {t} (label) {u} (hin : (s.writers t).holdsMutex = true)
      (hlabel : label.ofProducer = true)
      (hstep : (s.view (s.writers t).producer).step label = some u) : Moves s (s.wrote t u)
  | takes {taker} (label) {u} (hlabel : label.ofProducer = false)
      (hstep : (s.view .idle).step label = some u) (htaker : taker.consumer = u.consumer) :
      Moves s (s.took taker u)
  | notified (hpc : s.taker = .notifyFull) : Moves s { s with taker := .ring .idle }

variable {s s' : ManyWriters T}

/-- The steps of one writer. -/
theorem writerStep_moves {t : T} (h : s.writerStep t = some s') : Moves s s' := by
  unfold writerStep at h
  cases hpc : s.writers t with
  | idle | asleep m => simp [hpc] at h
  | lock m | relock m =>
      simp only [hpc] at h
      split at h
      · rename_i hfree
        obtain rfl := Option.some.inj h
        exact .acquires (by rw [hpc]; rfl) hfree rfl rfl (by simp)
      · cases h
  | guard m =>
      simp only [hpc] at h
      obtain rfl := Option.some.inj h
      split <;> exact .goes (by rw [hpc]; rfl) (by rw [hpc]; rfl) rfl (by simp)
  | goToSleep m =>
      simp only [hpc] at h
      obtain rfl := Option.some.inj h
      exact .releases (by rw [hpc]; rfl) (by rw [hpc]; rfl) rfl
  | begin m =>
      simp only [hpc] at h
      obtain ⟨u, hstep, rfl⟩ := Option.map_eq_some_iff.mp h
      exact .writes (.putCall m) (by rw [hpc]; rfl) rfl (by rwa [hpc])
  | inner p =>
      simp only [hpc] at h
      obtain ⟨u, hstep, rfl⟩ := Option.map_eq_some_iff.mp h
      exact .writes .producer (by rw [hpc]; rfl) rfl (by rwa [hpc])
  | notify =>
      simp only [hpc] at h
      obtain rfl := Option.some.inj h
      exact .goes (by rw [hpc]; rfl) (by rw [hpc]; rfl) rfl (by simp)
  | unlock =>
      simp only [hpc] at h
      obtain rfl := Option.some.inj h
      exact .releases (by rw [hpc]; rfl) (by rw [hpc]; rfl) rfl

omit [DecidableEq T] in
/-- Behind its last step in the ring a `get` notifies. -/
theorem decSize_idle {g : Got} {u : Unlocked} (hpc : s.taker = .ring (.decSize g))
    (h : (s.view .idle).step .consumer = some u) : u.consumer = .idle := by
  simp only [view, hpc, TakerPc.consumer, Unlocked.step, Unlocked.consumerStep] at h
  obtain rfl := Option.some.inj h
  rfl

/-- The steps of the reader. -/
theorem readerStep_moves (h : s.readerStep = some s') : Moves s s' := by
  unfold readerStep at h
  split at h
  · rename_i hpc
    obtain rfl := Option.some.inj h
    exact .notified hpc
  · rename_i hpc
    obtain ⟨u, hstep, rfl⟩ := Option.map_eq_some_iff.mp h
    exact .takes .consumer rfl hstep (decSize_idle hpc hstep).symm
  · obtain ⟨u, hstep, rfl⟩ := Option.map_eq_some_iff.mp h
    exact .takes .consumer rfl hstep rfl

/-- Every step is one of these. -/
theorem step_moves {label : ManyLabel T} (h : s.step label = some s') : Moves s s' := by
  cases label with
  | put t m =>
      simp only [step] at h
      split at h
      · rename_i hpc
        obtain rfl := Option.some.inj h
        exact .goes (by rw [hpc]; rfl) (by rw [hpc]; rfl) rfl (by simp)
      · cases h
  | writer t => exact writerStep_moves h
  | wakes t =>
      simp only [step] at h
      split at h
      · rename_i m hpc
        obtain rfl := Option.some.inj h
        exact .goes (by rw [hpc]; rfl) (by rw [hpc]; rfl) rfl (by simp)
      · cases h
  | get size =>
      simp only [step] at h
      split at h
      · obtain ⟨u, hstep, rfl⟩ := Option.map_eq_some_iff.mp h
        refine .takes (.getCall size) rfl hstep ?_
        split
        · rename_i hidle
          exact hidle.symm
        · rfl
      · cases h
  | peek size =>
      simp only [step] at h
      split at h
      · obtain ⟨u, hstep, rfl⟩ := Option.map_eq_some_iff.mp h
        exact .takes (.peekCall size) rfl hstep rfl
      · cases h
  | reader => exact readerStep_moves h

/-! ## One writer at a time -/

omit [DecidableEq T] in
/-- The writers inside the critical section are the owner of the mutex. -/
def Exclusive (s : ManyWriters T) : Prop :=
  ∀ t, (s.writers t).holdsMutex = true ↔ s.owner = some t

/-- A step in the ring leaves the writer inside. -/
@[simp] theorem wrote_holdsMutex (s : ManyWriters T) (t : T) (u : Unlocked) :
    ((s.wrote t u).writers t).holdsMutex = true := by
  simp only [wrote, goTo, update_self]
  split <;> rfl

@[simp] theorem wrote_producer (s : ManyWriters T) (t : T) (u : Unlocked) :
    ((s.wrote t u).writers t).producer = u.producer := by
  simp only [wrote, goTo, update_self]
  split
  · rename_i hidle
    exact hidle.symm
  · rfl

theorem wrote_of_ne {t v : T} (hne : v ≠ t) (u : Unlocked) :
    (s.wrote t u).writers v = s.writers v := by
  simp [wrote, goTo, hne]

namespace Exclusive

/-- A writer moves, and stays inside or outside. -/
theorem goes {t : T} (h : Exclusive s) (howner : s'.owner = s.owner)
    (hothers : ∀ u, u ≠ t → s'.writers u = s.writers u)
    (hsame : (s'.writers t).holdsMutex = (s.writers t).holdsMutex) : Exclusive s' := by
  intro u
  rw [howner, ← h u]
  by_cases hu : u = t
  · rw [hu, hsame]
  · rw [hothers u hu]

/-- Every step keeps the writers apart. -/
theorem moves (h : Exclusive s) (hmoves : Moves s s') : Exclusive s' := by
  cases hmoves with
  | @acquires t p hout hfree hin =>
      intro u
      by_cases hu : u = t
      · simp [goTo, hu, hin]
      · have hother : (s.writers u).holdsMutex = false :=
          Bool.eq_false_iff.mpr fun hholds => by cases hfree.symm.trans ((h u).mp hholds)
        simp [goTo, hu, hother, Ne.symm hu]
  | @releases t p hin hbefore hout =>
      intro u
      by_cases hu : u = t
      · simp [goTo, hu, hout]
      · have hother : (s.writers u).holdsMutex = false := by
          refine Bool.eq_false_iff.mpr fun hholds => hu ?_
          exact Option.some.inj (((h u).mp hholds).symm.trans ((h t).mp hin))
        simp [goTo, hu, hother]
  | @goes t p hsame =>
      refine h.goes (t := t) rfl (fun u hu => by simp [goTo, hu]) ?_
      simpa [goTo] using hsame
  | @writes t label u hin =>
      exact h.goes rfl (fun v hv => wrote_of_ne hv u) (by rw [wrote_holdsMutex, hin])
  | takes | notified => exact h

end Exclusive

/-- In every interleaving one writer at a time is inside the critical section. -/
theorem reachable_exclusive {q : RingQueue} (h : (machine q).Reachable s) : Exclusive s := by
  refine h.invariant ?_ ?_
  · rintro _ rfl t
    simp [start, WriterPc.holdsMutex]
  · rintro before after label hexclusive hstep
    exact hexclusive.moves (step_moves hstep)

omit [DecidableEq T] in
/-- A writer inside `RingQueue::put` has a step of it to make. -/
def Busy (s : ManyWriters T) : Prop := ∀ t, s.writers t ≠ .inner .idle

namespace Busy

/-- A writer moves. -/
theorem update {t : T} {p : WriterPc} (h : Busy s) (hp : p ≠ .inner .idle)
    (hwriters : s'.writers = Function.update s.writers t p) : Busy s' := by
  rw [Busy, hwriters]
  exact (forall_update_iff s.writers fun _ p => p ≠ .inner .idle).mpr ⟨hp, fun u _ => h u⟩

/-- Every step keeps this. -/
theorem moves (h : Busy s) (hmoves : Moves s s') : Busy s' := by
  cases hmoves with
  | acquires _ _ _ _ hp => exact h.update hp rfl
  | goes _ _ _ hp => exact h.update hp rfl
  | @releases t p _ _ hout =>
      refine h.update (p := p) ?_ rfl
      rintro rfl
      cases hout
  | @writes t label u =>
      refine h.update ?_ rfl
      split
      · simp
      · rename_i hbusy
        simpa using hbusy
  | takes | notified => exact h

end Busy

/-- In every interleaving the writers in the ring have a step to make. -/
theorem reachable_busy {q : RingQueue} (h : (machine q).Reachable s) : Busy s := by
  refine h.invariant ?_ ?_
  · rintro _ rfl t
    simp [start]
  · rintro before after label hbusy hstep
    exact hbusy.moves (step_moves hstep)

/-! ## The ring of one producer -/

omit [DecidableEq T] in
/-- Where the owner of the mutex is in `RingQueue::put`. -/
def producerNow (s : ManyWriters T) : ProducerPc :=
  s.owner.elim .idle fun t => (s.writers t).producer

omit [DecidableEq T] in
/-- The ring with the owner of the mutex as its producer. -/
def asUnlocked (s : ManyWriters T) : Unlocked := s.view s.producerNow

omit [DecidableEq T] in
theorem producerNow_of_owner {t : T} (h : s.owner = some t) :
    s.producerNow = (s.writers t).producer := by
  rw [producerNow, h, Option.elim_some]

/-- A step shows as one of the ring's steps or not at all. -/
theorem asUnlocked_moves (h : Exclusive s) (hmoves : Moves s s') :
    s'.asUnlocked = s.asUnlocked ∨ ∃ label, s.asUnlocked.step label = some s'.asUnlocked := by
  cases hmoves with
  | acquires hout hfree hin hafter =>
      left
      simp [asUnlocked, producerNow, hfree, goTo, hafter, view]
  | @releases t p hin hbefore hout =>
      left
      simp [asUnlocked, producerNow, (h t).mp hin, hbefore, goTo, view]
  | @goes t p hsame hbefore hafter =>
      left
      have hnow : (s.goTo t p).producerNow = s.producerNow := by
        cases howner : s.owner with
        | none => simp [producerNow, goTo, howner]
        | some v =>
            by_cases hv : v = t
            · simp [producerNow, goTo, howner, hv, hbefore, hafter]
            · simp [producerNow, goTo, howner, hv]
      rw [asUnlocked, asUnlocked, hnow]
      rfl
  | @writes t label u hin hlabel hstep =>
      right
      have howner := (h t).mp hin
      have hafter : (s.wrote t u).producerNow = u.producer := by
        rw [producerNow_of_owner (show (s.wrote t u).owner = some t from howner), wrote_producer]
      obtain ⟨hconsumer, hgot⟩ := producer_frame hlabel hstep
      refine ⟨label, ?_⟩
      rw [asUnlocked, asUnlocked, producerNow_of_owner howner, hstep, hafter]
      -- the consumer's part of the ring is that of the state before
      obtain ⟨ring, producer, consumer, accepted, got⟩ := u
      obtain rfl : consumer = s.taker.consumer := hconsumer
      obtain rfl : got = s.got := hgot
      rfl
  | @takes taker label u hlabel hstep htaker =>
      right
      obtain ⟨haccepted, hstep'⟩ := consumer_frame hlabel hstep s.producerNow
      refine ⟨label, hstep'.trans ?_⟩
      obtain ⟨ring, producer, consumer, accepted, got⟩ := u
      obtain rfl : accepted = s.accepted := haccepted
      obtain rfl : taker.consumer = consumer := htaker
      rfl
  | notified hpc =>
      left
      simp [asUnlocked, view, producerNow, hpc, TakerPc.consumer]

/-- What the writers and the reader do in the ring are steps of one producer and one consumer. -/
theorem reachable_asUnlocked {q : RingQueue} (h : (machine q).Reachable s) :
    (Unlocked.machine q).Reachable s.asUnlocked := by
  refine h.projects ?_ ?_
  · rintro _ rfl
    rfl
  · rintro before after label hbefore - hstep
    obtain hsame | ⟨label', hring⟩ :=
      asUnlocked_moves (reachable_exclusive hbefore) (step_moves hstep)
    · exact .inl hsame
    · exact .inr ⟨label', trivial, hring⟩

/-- A writer with the mutex has a step to make, unless the ring has thrown. -/
theorem holder_steps {t : T} (hbusy : s.writers t ≠ .inner .idle)
    (hthrew : s.writers t ≠ .inner .threw) (hholds : (s.writers t).holdsMutex = true) :
    (s.writerStep t).isSome := by
  cases hpc : s.writers t with
  | idle | lock m | asleep m | relock m => simp [hpc, WriterPc.holdsMutex] at hholds
  | guard | goToSleep | notify | unlock => simp [writerStep, hpc]
  | begin m => simp [writerStep, hpc, view, Unlocked.step]
  | inner p =>
      cases p with
      | idle => exact absurd hpc hbusy
      | threw => exact absurd hpc hthrew
      | bagPut m =>
          simp only [writerStep, hpc, view, Unlocked.step, Unlocked.producerStep]
          split <;> rfl
      | incIndex | wrapIndex | incSize =>
          simp [writerStep, hpc, view, Unlocked.step, Unlocked.producerStep]

/-- With any number of writers that put with the mutex held, and one reader without it: no access
to the ring is out of range, one writer at a time is in the ring, the one with the mutex is never
stuck, and the `get` calls that have returned a message have returned the accepted ones, in order
and without a gap. -/
theorem many_writers_in_order {count cellSize : Nat} (hpos : 0 < count) (hcount : count < 2 ^ 32)
    (h : (machine (.new count cellSize)).Reachable s) :
    (∀ t, s.writers t ≠ .inner .threw) ∧ s.taker ≠ .ring .threw ∧
      (∀ t u, (s.writers t).producer ≠ .idle → (s.writers u).producer ≠ .idle → t = u) ∧
      (∀ t, (s.writers t).holdsMutex = true → (s.writerStep t).isSome) ∧
      s.accepted.length = s.got.length + s.ring.base.size ∧ s.ring.base.size ≤ count ∧
      List.Forall₂ Got.ReadsFrom (s.accepted.take s.got.length) s.got := by
  have hexclusive := reachable_exclusive h
  obtain ⟨items, taken, hinv⟩ := Unlocked.reachable_inv hpos hcount (reachable_asUnlocked h)
  have hinside : ∀ t, (s.writers t).producer ≠ .idle → s.owner = some t := by
    intro t hbusy
    refine (hexclusive t).mp ?_
    cases hpc : s.writers t <;> simp_all [WriterPc.producer, WriterPc.holdsMutex]
  obtain ⟨hlength, hgot⟩ := hinv.got_of_accepted
  have hrange : ∀ t, s.writers t ≠ .inner .threw := by
    intro t hthrew
    have howner := hinside t (by simp [hthrew, WriterPc.producer])
    have hindex := hinv.producerIndex
    rw [asUnlocked, producerNow_of_owner howner, hthrew] at hindex
    exact hindex
  refine ⟨hrange, fun hthrew => ?_, fun t u ht hu => ?_, fun t => ?_, hlength, hinv.size_le, hgot⟩
  · have hindex := hinv.consumerIndex
    simp only [asUnlocked, view, hthrew, TakerPc.consumer] at hindex
    exact hindex
  · exact Option.some.inj ((hinside t ht).symm.trans (hinside u hu))
  · exact holder_steps (reachable_busy h t) (hrange t)

/-- A message is stored, a second writer is about to store another, and the reader is about to take
the first. -/
theorem many_writers_in_order_two : ∃ s : ManyWriters Bool,
    (machine (.new 2 4)).Reachable s ∧ s.writers true = .inner (.bagPut ⟨[8], by decide⟩) ∧
      s.taker = .ring (.bagGet 65535) ∧ s.accepted.length = s.got.length + s.ring.base.size := by
  have hrun : ((machine (.new 2 4)).run ([.put false ⟨[7], by decide⟩, .writer false,
      .writer false, .writer false, .put true ⟨[8], by decide⟩, .wakes false] ++
      List.replicate 8 (.writer false) ++ [.writer true, .writer true, .writer true, .wakes true,
        .writer true, .writer true, .get 65535]) (start (.new 2 4) : ManyWriters Bool)).map
      (fun s => (s.writers true, s.taker)) =
        some (.inner (.bagPut ⟨[8], by decide⟩), .ring (.bagGet 65535)) := by
    decide +kernel
  obtain ⟨s, hs, hfields⟩ := Option.map_eq_some_iff.mp hrun
  obtain ⟨hwriter, htaker⟩ := Prod.mk.inj hfields
  have hreach := Machine.reachable_of_run _ rfl hs
  obtain ⟨-, -, -, -, hlength, -, -⟩ := many_writers_in_order (by decide) (by decide) hreach
  exact ⟨s, hreach, hwriter, htaker, hlength⟩

end ManyWriters

end Shovel.Containers
