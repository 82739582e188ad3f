import Shovel.Workers.WriteThread

/-!
# Iterations of the writing loop

One iteration of `thread_write_to_source`, from the tests at the loop's head to
the next time the thread is there. Nobody asks to stop, the reading thread stays
alive, and the source takes every message that it is offered, at once or after
some calls that return zero.

The loop tells an empty queue from a message by the number that `peek` returns.
A message without bytes looks like an empty queue, so an iteration passes over
the first message exactly when it has a byte.
-/

namespace Shovel.Workers

open Containers Transition

/-- Not a call of `stop`, the death of the reading thread, or a write that fails. -/
def Undisturbed : WriteLabel → Prop
  | .stop | .readerDies => False
  | .writeReturns writeStatus => 0 ≤ writeStatus
  | .writer | .producerPut _ => True

/-- No producer puts a message either. -/
def Alone (label : WriteLabel) : Prop := Undisturbed label ∧ ∀ m, label ≠ .producerPut m

/-- The steps of the thread that are left in an iteration, writes that take nothing apart. -/
def WritePc.stepsLeft : WritePc → Nat
  | .headStop => 6
  | .peek => 5
  | .checkAlive _ => 4
  | .checkStop _ => 3
  | .write => 2
  | .pop => 1
  | .head | .finish | .done | .terminated => 0

namespace WriteState

section Iterations

variable {Q : Type} [QueueBase Q]

/-- A step that does not begin an iteration. -/
def BodyStep (allowed : WriteLabel → Prop) (s s' : WriteState Q) : Prop :=
  ∃ label, allowed label ∧ (s.pc = .head → label ≠ .writer) ∧ s.step label = some s'

/-- One iteration: the thread leaves the loop's head and comes back to it. -/
def Iteration (allowed : WriteLabel → Prop) (s s' : WriteState Q) : Prop :=
  s.pc = .head ∧ s'.pc = .head ∧
    ∃ entered, s.step .writer = some entered ∧
      Relation.ReflTransGen (BodyStep allowed) entered s'

/-- A number of iterations, one after the other. -/
def Iterations (allowed : WriteLabel → Prop) : Nat → WriteState Q → WriteState Q → Prop
  | 0, s, s' => s = s'
  | n + 1, s, s' => ∃ middle, Iteration allowed s middle ∧ Iterations allowed n middle s'

end Iterations

/-- The flags of a worker that nobody has stopped. -/
def Running {Q : Type} (s : WriteState Q) : Prop :=
  s.flags.readThreadAlive = true ∧ s.flags.stopAsked = false

/-- What an iteration that begins with this message at the front of the queue adds to the messages
the source has taken. -/
def passed (front : List UInt8) : List (List UInt8) := if front = [] then [] else [front]

/-- What the source has taken at the points of an iteration that began with this message at the
front of the queue, when the source had taken these messages. -/
def TakenAt {Q : Type} (taken : List (List UInt8)) (front : List UInt8) (s : WriteState Q) : Prop :=
  match s.pc with
  | .headStop | .peek => s.taken = taken
  | .checkAlive getStatus | .checkStop getStatus => s.taken = taken ∧ getStatus = front.length
  | .write => s.taken = taken ∧ front ≠ []
  | .pop => s.taken = taken ++ [front] ∧ front ≠ []
  | .head => s.taken = taken ++ passed front
  | .finish | .done | .terminated => False

/-- The state during an iteration that began with `front :: rest` in the queue. -/
structure InBody {Q : Type} (taken : List (List UInt8)) (front : List UInt8)
    (rest : List (List UInt8)) (s : WriteState Q) : Prop where
  running : s.Running
  kept : taken ++ front :: rest <+: s.accepted
  takenAt : s.TakenAt taken front

variable {Q : Type} {Rel : Q → MessageFifo → Prop} {s s' : WriteState Q}
variable {taken rest queued : List (List UInt8)} {front : List UInt8}

/-- As long as the first message has not been taken it is the first in the queue. -/
theorem InBody.first (h : InBody taken front rest s) (hat : s.AtPc queued) (hpc : s.pc ≠ .pop)
    (htaken : s.taken = taken) : queued.head? = some front := by
  have hkept := h.kept
  rw [← hat.conserved hpc, htaken, List.prefix_append_right_inj] at hkept
  obtain ⟨added, hadded⟩ := hkept
  rw [← hadded, List.cons_append, List.head?_cons]

/-- A step that neither accepts a message nor touches the flags. -/
theorem InBody.move (h : InBody taken front rest s) (hflags : s'.flags = s.flags)
    (haccepted : s'.accepted = s.accepted) (hat : s'.TakenAt taken front) :
    InBody taken front rest s' :=
  ⟨by rw [Running, hflags]; exact h.running, haccepted ▸ h.kept, hat⟩

/-- A write that does not fail: the source takes nothing, or the first message. -/
theorem writeReturns_inBody {writeStatus : Int} (hstatus : 0 ≤ writeStatus) (hpc : s.pc = .write)
    (hinv : Inv Rel s) (h : InBody taken front rest s) :
    InBody taken front rest (s.writeReturns writeStatus) := by
  unfold writeReturns
  split
  · exact h
  · rw [if_neg (Int.not_lt.mpr hstatus)]
    obtain ⟨a, -, hat⟩ := hinv
    have htakenAt := h.takenAt
    simp only [TakenAt, hpc] at htakenAt
    have hfirst := h.first hat (by simp [hpc]) htakenAt.1
    simp only [AtPc, hpc] at hat
    obtain ⟨-, -, hcontent⟩ := hat
    have hsame : s.arr.content = front := Option.some.inj (hcontent.symm.trans hfirst)
    refine h.move rfl rfl ⟨?_, htakenAt.2⟩
    show s.taken ++ [s.arr.content] = taken ++ [front]
    rw [htakenAt.1, hsame]

variable [QueueBase Q]

/-- A `put` of a producer only adds to the accepted messages. -/
theorem producerPut_inBody {m : Message} (h : InBody taken front rest s)
    (hstep : s.step (.producerPut m) = some s') : InBody taken front rest s' := by
  simp only [step] at hstep
  split at hstep
  · obtain rfl := Option.some.inj hstep
    refine ⟨h.running, h.kept.trans ?_, h.takenAt⟩
    simp only
    split
    · exact List.prefix_append _ _
    · exact List.prefix_rfl
  · cases hstep

/-- Peeking finds the first message with the number of its bytes. -/
theorem peek_inBody (hsim : Simulates Q Rel) (hpc : s.pc = .peek) (hinv : Inv Rel s)
    (h : InBody taken front rest s) (hstep : s.writerStep = some s') :
    InBody taken front rest s' := by
  obtain ⟨a, hrel, hat⟩ := hinv
  obtain ⟨queue, hpeek, -⟩ := hsim.peek connectionWorkerArrSize hrel
  simp only [writerStep, hpc, hpeek] at hstep
  obtain rfl := Option.some.inj hstep
  have htaken := h.takenAt
  simp only [TakenAt, hpc] at htaken
  have hfirst := h.first hat (by simp [hpc]) htaken
  rw [List.head?_map, Option.map_eq_some_iff] at hfirst
  obtain ⟨m, hm, rfl⟩ := hfirst
  refine h.move rfl rfl ⟨htaken, ?_⟩
  simp only [MessageFifo.peek, look_whole hm]
  rfl

/-- A step of the thread inside an iteration. -/
theorem writerStep_inBody (hsim : Simulates Q Rel) (hhead : s.pc ≠ .head) (hinv : Inv Rel s)
    (h : InBody taken front rest s) (hstep : s.writerStep = some s') :
    InBody taken front rest s' := by
  obtain ⟨halive, hasked⟩ := h.running
  have htakenAt := h.takenAt
  unfold TakenAt at htakenAt
  cases hpc : s.pc with
  | head => exact absurd hpc hhead
  | headStop =>
      simp only [writerStep, hpc, hasked] at hstep
      obtain rfl := Option.some.inj hstep
      simp only [hpc] at htakenAt
      exact h.move rfl rfl htakenAt
  | peek => exact peek_inBody hsim hpc hinv h hstep
  | checkAlive getStatus =>
      simp only [writerStep, hpc, halive] at hstep
      obtain rfl := Option.some.inj hstep
      simp only [hpc] at htakenAt
      exact h.move rfl rfl htakenAt
  | checkStop getStatus =>
      simp only [writerStep, hpc, hasked] at hstep
      obtain rfl := Option.some.inj hstep
      simp only [hpc] at htakenAt
      obtain ⟨htaken, rfl⟩ := htakenAt
      -- an empty message leads back to the head with nothing taken
      cases front with
      | nil => exact h.move rfl rfl (by simp [TakenAt, htaken, passed])
      | cons byte bytes => exact h.move rfl rfl ⟨htaken, List.cons_ne_nil _ _⟩
  | pop =>
      obtain ⟨a, hrel, -⟩ := hinv
      obtain ⟨queue, hget, -⟩ := hsim.get 0 hrel
      simp only [writerStep, hpc, hget] at hstep
      obtain rfl := Option.some.inj hstep
      simp only [hpc] at htakenAt
      refine h.move rfl rfl ?_
      simp only [TakenAt, passed, if_neg htakenAt.2]
      exact htakenAt.1
  | finish | done | terminated =>
      simp only [hpc] at htakenAt
  | write => simp [writerStep, hpc] at hstep

/-- Every step of an iteration that nobody disturbs. -/
theorem bodyStep_inBody (hsim : Simulates Q Rel) (hinv : Inv Rel s)
    (h : InBody taken front rest s) (hstep : BodyStep Undisturbed s s') :
    InBody taken front rest s' := by
  obtain ⟨label, hallowed, hhead, hstep⟩ := hstep
  cases label with
  | writer => exact writerStep_inBody hsim (fun hpc => hhead hpc rfl) hinv h hstep
  | writeReturns writeStatus =>
      obtain ⟨hpc, rfl⟩ := writeReturns_cases hstep
      exact writeReturns_inBody hallowed hpc hinv h
  | producerPut m => exact producerPut_inBody h hstep
  | stop | readerDies => exact absurd hallowed id

/-- A whole part of an iteration. -/
theorem bodySteps_inBody (hsim : Simulates Q Rel) (hinv : Inv Rel s)
    (h : InBody taken front rest s)
    (hsteps : Relation.ReflTransGen (BodyStep Undisturbed) s s') :
    Inv Rel s' ∧ InBody taken front rest s' := by
  induction hsteps with
  | refl => exact ⟨hinv, h⟩
  | tail _ hstep ih =>
      obtain ⟨hinv, h⟩ := ih
      obtain ⟨label, -, -, hlabel⟩ := id hstep
      exact ⟨step_inv hsim label hinv hlabel, bodyStep_inBody hsim hinv h hstep⟩

/-- The first step of an iteration. -/
theorem enter_inBody {entered : WriteState Q} (hpc : s.pc = .head) (hrunning : s.Running)
    (haccepted : s.taken ++ front :: rest = s.accepted) (hstep : s.step .writer = some entered) :
    InBody s.taken front rest entered ∧ entered.pc = .headStop ∧ entered.accepted = s.accepted := by
  simp only [step, writerStep, hpc, hrunning.1] at hstep
  obtain rfl := Option.some.inj hstep
  exact ⟨⟨hrunning, haccepted ▸ List.prefix_rfl, rfl⟩, rfl, rfl⟩

/-- An iteration that nobody disturbs, of a worker with a message in its queue: the source has
taken what the first message is passed over as, and the messages are still all there. -/
theorem iteration_taken (hsim : Simulates Q Rel) (hinv : Inv Rel s) (hrunning : s.Running)
    (haccepted : s.taken ++ front :: rest = s.accepted) (h : Iteration Undisturbed s s') :
    Inv Rel s' ∧ s'.Running ∧ s'.taken = s.taken ++ passed front ∧
      s.accepted <+: s'.accepted := by
  obtain ⟨hpc, hback, entered, hentered, hsteps⟩ := h
  obtain ⟨hbody, -, -⟩ := enter_inBody hpc hrunning haccepted hentered
  obtain ⟨hinv', hbody'⟩ := bodySteps_inBody hsim (step_inv hsim .writer hinv hentered) hbody hsteps
  have htaken := hbody'.takenAt
  simp only [TakenAt, hback] at htaken
  exact ⟨hinv', hbody'.running, htaken, haccepted ▸ hbody'.kept⟩

/-! ### Without a producer -/

theorem BodyStep.undisturbed (h : BodyStep Alone s s') : BodyStep Undisturbed s s' := by
  obtain ⟨label, hallowed, hrest⟩ := h
  exact ⟨label, hallowed.1, hrest⟩

theorem Iteration.undisturbed (h : Iteration Alone s s') : Iteration Undisturbed s s' := by
  obtain ⟨hpc, hback, entered, hentered, hsteps⟩ := h
  exact ⟨hpc, hback, entered, hentered,
    Relation.ReflTransGen.mono (fun _ _ => BodyStep.undisturbed) _ _ hsteps⟩

/-- Only a producer adds to the accepted messages. -/
theorem step_accepted {label : WriteLabel} (hlabel : ∀ m, label ≠ .producerPut m)
    (hstep : s.step label = some s') : s'.accepted = s.accepted := by
  cases label with
  | writer => exact (writerStep_frame hstep).1
  | writeReturns writeStatus =>
      obtain ⟨-, rfl⟩ := writeReturns_cases hstep
      exact (s.writeReturns_frame writeStatus).1
  | producerPut m => exact absurd rfl (hlabel m)
  | stop | readerDies =>
      obtain rfl := Option.some.inj hstep
      rfl

theorem bodySteps_accepted (h : Relation.ReflTransGen (BodyStep Alone) s s') :
    s'.accepted = s.accepted := by
  induction h with
  | refl => rfl
  | tail _ hstep ih =>
      obtain ⟨label, hallowed, -, hlabel⟩ := hstep
      rw [step_accepted hallowed.2 hlabel, ih]

/-- Inside an iteration the thread can always go on, if the source takes what it is offered. -/
theorem exists_bodyStep (hsim : Simulates Q Rel) (hpc : s.pc ≠ .head) (hinv : Inv Rel s)
    (h : InBody taken front rest s) :
    ∃ s', BodyStep Alone s s' ∧ s'.pc.stepsLeft < s.pc.stepsLeft := by
  obtain ⟨halive, hasked⟩ := h.running
  obtain ⟨a, hrel, -⟩ := hinv
  have htakenAt := h.takenAt
  unfold TakenAt at htakenAt
  have hmoves : ∀ {s'}, s.writerStep = some s' → BodyStep Alone s s' := fun hstep =>
    ⟨.writer, ⟨trivial, by simp⟩, fun hhead => absurd hhead hpc, hstep⟩
  cases hat : s.pc with
  | head => exact absurd hat hpc
  | headStop => exact ⟨_, hmoves (by simp [writerStep, hat, hasked]; rfl), Nat.lt_succ_self _⟩
  | peek =>
      obtain ⟨queue, hpeek, -⟩ := hsim.peek connectionWorkerArrSize hrel
      exact ⟨_, hmoves (by simp [writerStep, hat, hpeek]; rfl), Nat.lt_succ_self _⟩
  | checkAlive getStatus =>
      exact ⟨_, hmoves (by simp [writerStep, hat, halive]; rfl), Nat.lt_succ_self _⟩
  | checkStop getStatus =>
      refine ⟨_, hmoves (by simp [writerStep, hat, hasked]; rfl), ?_⟩
      simp only
      split <;> simp [WritePc.stepsLeft]
  | write =>
      -- the source takes the whole message
      refine ⟨s.writeReturns 1, ⟨.writeReturns 1, ⟨Int.one_nonneg, by simp⟩, by simp, ?_⟩,
        Nat.lt_succ_self _⟩
      simp [step, hat]
  | pop =>
      obtain ⟨queue, hget, -⟩ := hsim.get 0 hrel
      exact ⟨_, hmoves (by simp [writerStep, hat, hget]; rfl), Nat.lt_succ_self _⟩
  | finish | done | terminated =>
      simp only [hat] at htakenAt

/-- Such an iteration comes to its end. -/
theorem exists_bodySteps (hsim : Simulates Q Rel) (hinv : Inv Rel s)
    (h : InBody taken front rest s) :
    ∃ s', Relation.ReflTransGen (BodyStep Alone) s s' ∧ s'.pc = .head := by
  induction hleft : s.pc.stepsLeft using Nat.strong_induction_on generalizing s with
  | h left ih =>
      by_cases hpc : s.pc = .head
      · exact ⟨s, .refl, hpc⟩
      · obtain ⟨next, hstep, hless⟩ := exists_bodyStep hsim hpc hinv h
        obtain ⟨hinv', h'⟩ := bodySteps_inBody hsim hinv h (.single hstep.undisturbed)
        obtain ⟨s', hsteps, hback⟩ := ih _ (hleft ▸ hless) hinv' h' rfl
        exact ⟨s', .head hstep hsteps, hback⟩

/-- An iteration can come to its end. -/
theorem exists_iteration (hsim : Simulates Q Rel) (hinv : Inv Rel s) (hpc : s.pc = .head)
    (hrunning : s.Running) (haccepted : s.taken ++ front :: rest = s.accepted) :
    ∃ s', Iteration Alone s s' := by
  have hentered : s.step .writer = some { s with pc := .headStop } := by
    simp [step, writerStep, hpc, hrunning.1]
  obtain ⟨hbody, -, -⟩ := enter_inBody hpc hrunning haccepted hentered
  obtain ⟨s', hsteps, hback⟩ :=
    exists_bodySteps hsim (step_inv hsim .writer hinv hentered) hbody
  exact ⟨s', hpc, hback, _, hentered, hsteps⟩

/-- An iteration without a producer accepts nothing. -/
theorem Iteration.accepted (h : Iteration Alone s s') : s'.accepted = s.accepted := by
  obtain ⟨-, -, entered, hentered, hsteps⟩ := h
  rw [bodySteps_accepted hsteps, (writerStep_frame hentered).1]

/-! ### Several iterations -/

/-- Nobody stops a worker in an undisturbed run. -/
theorem step_running {label : WriteLabel} (hlabel : Undisturbed label) (h : s.Running)
    (hstep : s.step label = some s') : s'.Running := by
  cases label with
  | writer =>
      obtain ⟨-, halive, hasked⟩ := writerStep_frame hstep
      exact ⟨halive.trans h.1, hasked.trans h.2⟩
  | writeReturns writeStatus =>
      obtain ⟨-, rfl⟩ := writeReturns_cases hstep
      rw [Running, (s.writeReturns_frame writeStatus).2]
      exact h
  | producerPut m =>
      rw [Running, (producerPut_frame hstep).2]
      exact h
  | stop | readerDies => exact absurd hlabel id

theorem reachable_running {queue : Q}
    (h : (machine queue).ReachableUnder (fun _ label => Undisturbed label) s) : s.Running := by
  have hinit : ∀ s, (machine queue).init s → s.Running := by
    rintro s rfl
    exact ⟨rfl, rfl⟩
  exact h.invariant hinit fun _ _ _ hrunning hlabel hstep => step_running hlabel hrunning hstep

/-- Iterations that begin with these messages in the queue, none of them empty: each passes over
one of them, whatever is put behind. -/
theorem iterations_taken (hsim : Simulates Q Rel) {n : Nat} (hinv : Inv Rel s)
    (hrunning : s.Running) (haccepted : s.taken ++ queued = s.accepted)
    (h : Iterations Undisturbed n s s') (hn : n ≤ queued.length)
    (hbytes : ∀ m ∈ queued.take n, m ≠ []) :
    Inv Rel s' ∧ s'.taken = s.taken ++ queued.take n ∧ s.accepted <+: s'.accepted := by
  induction n generalizing s queued with
  | zero =>
      obtain rfl := h
      exact ⟨hinv, by simp, List.prefix_rfl⟩
  | succ n ih =>
      obtain ⟨middle, hfirst, hmore⟩ := h
      cases queued with
      | nil => cases hn
      | cons front rest =>
          rw [List.take_succ_cons, List.forall_mem_cons] at hbytes
          obtain ⟨hinv', hrunning', htaken, hgrown⟩ :=
            iteration_taken hsim hinv hrunning haccepted hfirst
          rw [passed, if_neg hbytes.1] at htaken
          obtain ⟨added, hadded⟩ := hgrown
          -- what was put during the first iteration stands behind the rest
          have haccepted' : middle.taken ++ (rest ++ added) = middle.accepted := by
            rw [htaken, ← hadded, ← haccepted]
            simp
          have hn' : n ≤ rest.length := Nat.le_of_succ_le_succ hn
          have hsame : (rest ++ added).take n = rest.take n := List.take_append_of_le_length hn'
          obtain ⟨hinv'', htaken', hgrown'⟩ := ih hinv' hrunning' haccepted' hmore
            (by simp; omega) (by rw [hsame]; exact hbytes.2)
          refine ⟨hinv'', ?_, List.IsPrefix.trans ⟨added, hadded⟩ hgrown'⟩
          rw [htaken', htaken, hsame]
          simp

/-- Behind an empty message nothing is ever taken. -/
theorem iterations_wedged (hsim : Simulates Q Rel) {n : Nat} (hinv : Inv Rel s)
    (hrunning : s.Running) (haccepted : s.taken ++ [] :: rest = s.accepted)
    (h : Iterations Undisturbed n s s') :
    Inv Rel s' ∧ s'.taken = s.taken ∧ s.accepted <+: s'.accepted := by
  induction n generalizing s rest with
  | zero =>
      obtain rfl := h
      exact ⟨hinv, rfl, List.prefix_rfl⟩
  | succ n ih =>
      obtain ⟨middle, hfirst, hmore⟩ := h
      obtain ⟨hinv', hrunning', htaken, added, hadded⟩ :=
        iteration_taken hsim hinv hrunning haccepted hfirst
      have hsame : middle.taken = s.taken := by simpa [passed] using htaken
      have haccepted' : middle.taken ++ [] :: (rest ++ added) = middle.accepted := by
        rw [hsame, ← hadded, ← haccepted]
        simp
      obtain ⟨hinv'', htaken', hgrown'⟩ := ih hinv' hrunning' haccepted' hmore
      exact ⟨hinv'', htaken'.trans hsame, List.IsPrefix.trans ⟨added, hadded⟩ hgrown'⟩

/-- Iterations end at the loop's head. -/
theorem Iterations.pc {allowed : WriteLabel → Prop} {n : Nat} (hpc : s.pc = .head)
    (h : Iterations allowed n s s') : s'.pc = .head := by
  induction n generalizing s with
  | zero =>
      obtain rfl := h
      exact hpc
  | succ n ih =>
      obtain ⟨middle, hfirst, hmore⟩ := h
      exact ih hfirst.2.1 hmore

end WriteState

/-! ## The writing loop over a ring queue -/

open WriteState

/-- At the loop's head the messages taken and those in the ring are the accepted ones. -/
theorem ring_conserved {s : WriteState RingQueue} (hinv : Inv Represents s) (hpc : s.pc = .head) :
    s.taken ++ s.queue.contents = s.accepted := by
  obtain ⟨a, hrel, hat⟩ := hinv
  rw [hrel.contents]
  exact hat.conserved (by rw [hpc]; decide)

/-- When some first messages of the ring have been taken, it holds the others. -/
theorem ring_holds_rest {s s' : WriteState RingQueue} {first rest : List (List UInt8)}
    (hinv : Inv Represents s') (hpc : s'.pc = .head)
    (haccepted : s.taken ++ (first ++ rest) = s.accepted) (htaken : s'.taken = s.taken ++ first)
    (hgrown : s.accepted <+: s'.accepted) : rest <+: s'.queue.contents := by
  rw [← haccepted, ← ring_conserved hinv hpc, htaken, ← List.append_assoc,
    List.prefix_append_right_inj] at hgrown
  exact hgrown

/-- An iteration without a producer leaves the messages that it does not pass over. -/
theorem alone_leaves {s s' : WriteState RingQueue} {front : List UInt8}
    {rest : List (List UInt8)} (hinv : Inv Represents s) (hrunning : s.Running)
    (haccepted : s.taken ++ front :: rest = s.accepted) (h : Iteration Alone s s') :
    passed front ++ s'.queue.contents = front :: rest := by
  obtain ⟨hinv', -, htaken, -⟩ :=
    iteration_taken ring_simulates hinv hrunning haccepted h.undisturbed
  have hconserved := ring_conserved hinv' h.2.1
  rw [h.accepted, ← haccepted, htaken, List.append_assoc] at hconserved
  exact List.append_cancel_left hconserved

/-- At the head of the loop of an undisturbed worker with messages in its ring: an iteration can
come to its end, and when no producer puts a message meanwhile, it ends with all of them but the
first exactly when the first one has a byte. So iterations take the messages one after the other as
long as none of them is empty, and none at all behind an empty one, whatever is put. -/
theorem iteration_passes_over_iff {count cellSize : Nat} {s : WriteState RingQueue}
    {front : List UInt8} {rest : List (List UInt8)} (hcount : count < 2 ^ 32)
    (hreach : (machine (RingQueue.new count cellSize)).ReachableUnder
      (fun _ label => Undisturbed label) s)
    (hpc : s.pc = .head) (hqueue : s.queue.contents = front :: rest) :
    (∃ s', Iteration Alone s s') ∧
    ((∀ s', Iteration Alone s s' → s'.queue.contents = rest) ↔ front ≠ []) ∧
    (∀ n s', Iterations Undisturbed n s s' → n ≤ (front :: rest).length →
      (∀ m ∈ (front :: rest).take n, m ≠ []) →
        s'.taken = s.taken ++ (front :: rest).take n ∧
          (front :: rest).drop n <+: s'.queue.contents) ∧
    (front = [] → ∀ n s', Iterations Undisturbed n s s' →
      s'.taken = s.taken ∧ front :: rest <+: s'.queue.contents) := by
  have hrunning := reachable_running hreach
  have hinv : Inv Represents s :=
    reachable_inv ring_simulates (Represents.new count cellSize hcount) hreach.reachable
  have haccepted : s.taken ++ front :: rest = s.accepted := hqueue ▸ ring_conserved hinv hpc
  have hends : ∃ s', Iteration Alone s s' := exists_iteration ring_simulates hinv hpc hrunning
    haccepted
  refine ⟨hends, ?_, ?_, ?_⟩
  · constructor
    · rintro hpasses rfl
      obtain ⟨s', hiteration⟩ := hends
      have hleft := alone_leaves hinv hrunning haccepted hiteration
      rw [hpasses s' hiteration] at hleft
      exact List.ne_cons_self hleft
    · intro hbytes s' hiteration
      have hleft := alone_leaves hinv hrunning haccepted hiteration
      rw [passed, if_neg hbytes] at hleft
      exact List.tail_eq_of_cons_eq hleft
  · intro n s' hiterations hn hbytes
    obtain ⟨hinv', htaken, hgrown⟩ :=
      iterations_taken ring_simulates hinv hrunning haccepted hiterations hn hbytes
    have hsplit : s.taken ++ ((front :: rest).take n ++ (front :: rest).drop n) = s.accepted := by
      rw [List.take_append_drop, haccepted]
    exact ⟨htaken, ring_holds_rest hinv' (hiterations.pc hpc) hsplit htaken hgrown⟩
  · rintro rfl n s' hiterations
    obtain ⟨hinv', htaken, hgrown⟩ :=
      iterations_wedged ring_simulates hinv hrunning haccepted hiterations
    have hnothing : s'.taken = s.taken ++ [] := by rw [htaken, List.append_nil]
    exact ⟨htaken, ring_holds_rest hinv' (hiterations.pc hpc) haccepted hnothing hgrown⟩

/-- A ring with one message of one byte: an iteration takes it. -/
theorem iteration_passes_over_iff_one : ∃ s s' : WriteState RingQueue,
    (machine (RingQueue.new 2 4)).ReachableUnder (fun _ label => Undisturbed label) s ∧
      s.queue.contents = [[7]] ∧ Iteration Alone s s' ∧ s'.queue.contents = [] := by
  have hrun : ((machine (RingQueue.new 2 4)).run [.producerPut ⟨[7], by decide⟩]
      (start (RingQueue.new 2 4))).map (fun s => (s.pc, s.queue.contents)) =
        some (.head, [[7]]) := by
    decide +kernel
  obtain ⟨s, hs, hfields⟩ := Option.map_eq_some_iff.mp hrun
  obtain ⟨hpc, hqueue⟩ : s.pc = .head ∧ s.queue.contents = [[7]] := by simpa using hfields
  have hreach : (machine (RingQueue.new 2 4)).ReachableUnder (fun _ label => Undisturbed label) s :=
    (Machine.ReachableUnder.start rfl).run _ (by simp [Undisturbed]) hs
  obtain ⟨⟨s', hiteration⟩, hpasses, -, -⟩ :=
    iteration_passes_over_iff (by decide) hreach hpc hqueue
  exact ⟨s, s', hreach, hqueue, hiteration, hpasses.mpr (by decide) s' hiteration⟩

/-- An empty message in front of a message of one byte: an iteration ends with both in the ring. -/
theorem iteration_keeps_empty_message : ∃ s s' : WriteState RingQueue,
    (machine (RingQueue.new 2 4)).ReachableUnder (fun _ label => Undisturbed label) s ∧
      s.queue.contents = [[], [7]] ∧ Iteration Alone s s' ∧ s'.queue.contents = [[], [7]] := by
  have hrun : ((machine (RingQueue.new 2 4)).run
      [.producerPut ⟨[], by decide⟩, .producerPut ⟨[7], by decide⟩]
      (start (RingQueue.new 2 4))).map (fun s => (s.pc, s.queue.contents)) =
        some (.head, [[], [7]]) := by
    decide +kernel
  obtain ⟨s, hs, hfields⟩ := Option.map_eq_some_iff.mp hrun
  obtain ⟨hpc, hqueue⟩ : s.pc = .head ∧ s.queue.contents = [[], [7]] := by simpa using hfields
  have hreach : (machine (RingQueue.new 2 4)).ReachableUnder (fun _ label => Undisturbed label) s :=
    (Machine.ReachableUnder.start rfl).run _ (by simp [Undisturbed]) hs
  have hinv : Inv Represents s :=
    reachable_inv ring_simulates (Represents.new 2 4 (by decide)) hreach.reachable
  have hrunning := reachable_running hreach
  have haccepted : s.taken ++ [] :: [[7]] = s.accepted := hqueue ▸ ring_conserved hinv hpc
  obtain ⟨s', hiteration⟩ := exists_iteration ring_simulates hinv hpc hrunning haccepted
  exact ⟨s, s', hreach, hqueue, hiteration, alone_leaves hinv hrunning haccepted hiteration⟩

end Shovel.Workers
