import Shovel.Containers.BlockingCalls

/-!
# Blocking calls are linear

The calls of the inner queue, in the order in which the threads make them, are a
history of one bounded list of messages. Since a thread returns before the next
one can call the inner queue, the calls that have returned are that history but
for one call in flight. `calls_linearize` states this for the four stacks of a
blocking or timed read decorator over a blocking or timed write decorator.
-/

namespace Shovel.Containers

open Transition Function Bounded

namespace StackState

variable {Q T : Type} [QueueBase Q] [DecidableEq T]
variable {st : BlockingStack} {s s' : StackState Q T} {label : StackLabel T}

/-! ## The history -/

variable {Rel : Q → MessageFifo → Prop} {a : MessageFifo}

/-- The calls of the inner queue so far, in order. -/
def calls (s : StackState Q T) : List QueueCall := s.history.map Event.call

/-- The history is legal for `a`, the inner queue is what `a` has become, and a call behind a
blocking wait was made while its guard was false. -/
structure Linear (Rel : Q → MessageFifo → Prop) (a : MessageFifo) (st : BlockingStack)
    (s : StackState Q T) : Prop where
  legal : Legal a s.history
  inner : Rel s.inner (a.after s.calls)
  waited : ∀ before e later, s.history = before ++ e :: later →
    st.discipline e.call = .blocking → guardHolds (a.after (before.map Event.call)) e.call = false

omit [DecidableEq T] in
/-- A call of the inner queue extends the history. -/
theorem Linear.extend (h : Linear Rel a st s) (hinner : BoundedQueue Q Rel) {e : Event T}
    {inner : Q} (hcall : Containers.call s.inner e.call = .ok (e.answer, inner))
    (hguard : st.discipline e.call = .blocking → guardHolds s.inner e.call = false)
    (hhistory : s'.history = s.history ++ [e]) (hnext : s'.inner = inner) : Linear Rel a st s' := by
  obtain ⟨q', hanswer, hrel⟩ := hinner.simulates.call_eq h.inner e.call
  obtain ⟨hsame, rfl⟩ := Outcome.answer_unique hcall hanswer
  refine ⟨?_, ?_, ?_⟩
  · rw [hhistory, Legal.append_iff]
    exact ⟨h.legal, Legal.cons_iff.mpr ⟨hsame.symm, .nil⟩⟩
  · rw [hnext, calls, hhistory, List.map_append, List.map_singleton, MessageFifo.after_concat]
    exact hrel
  · intro before e' later hsplit hblocking
    rw [hhistory] at hsplit
    rcases List.eq_nil_or_concat later with rfl | ⟨others, last, rfl⟩
    · obtain ⟨rfl, hlast⟩ := List.append_inj' hsplit rfl
      obtain rfl := List.singleton_inj.mp hlast
      exact (guardHolds_eq hinner h.inner e.call).symm.trans (hguard hblocking)
    · rw [List.concat_eq_append, ← List.cons_append, ← List.append_assoc] at hsplit
      exact h.waited before e' others (List.append_inj' hsplit rfl).1 hblocking

omit [QueueBase Q] [DecidableEq T] in
/-- A step that calls no queue leaves the history as it is. -/
theorem Linear.keep (h : Linear Rel a st s) (hhistory : s'.history = s.history)
    (hinner : s'.inner = s.inner) : Linear Rel a st s' :=
  ⟨by rw [hhistory]; exact h.legal, by rw [hinner, calls, hhistory]; exact h.inner,
    by rw [hhistory]; exact h.waited⟩

/-- Every step keeps the history linear. -/
theorem Linear.moves (h : Linear Rel a st s) (hinner : BoundedQueue Q Rel)
    (hguard : GuardKnown st s) (hmoves : Moves st s label s') : Linear Rel a st s' := by
  cases hmoves with
  | @answers t c answer inner hpc hcall =>
      have hpassed := (hguard t c).2 hpc
      exact h.extend hinner (e := ⟨t, c, answer⟩) hcall hpassed rfl rfl
  | begins | locks | sleeps | passes | releases | retests | proceeds | wakes | wakesNone | returns
  | wakesUp => exact h.keep rfl rfl

/-- The calls that have returned are those of the history but for one that is in flight. -/
def ReturnedInOrder (s : StackState Q T) : Prop :=
  (∀ t e, (s.pc t).answered = some e → s.history = s.returned ++ [e]) ∧
    ((∀ t, (s.pc t).answered = none) → s.history = s.returned)

namespace ReturnedInOrder

omit [QueueBase Q] in
/-- A thread moves without an answer of the inner queue and without returning. -/
theorem update {t : T} {p : CallPc T} (h : ReturnedInOrder s) (hhistory : s'.history = s.history)
    (hreturned : s'.returned = s.returned) (hpc : s'.pc = Function.update s.pc t p)
    (hp : p.answered = (s.pc t).answered) : ReturnedInOrder s' := by
  have hanswered : ∀ u, (s'.pc u).answered = (s.pc u).answered := by
    intro u
    rw [hpc]
    by_cases hu : u = t
    · rw [hu, Function.update_self, hp]
    · rw [Function.update_of_ne hu]
  refine ⟨fun u e he => ?_, fun hnone => ?_⟩
  · rw [hhistory, hreturned]
    exact h.1 u e ((hanswered u).symm.trans he)
  · rw [hhistory, hreturned]
    exact h.2 fun u => (hanswered u).symm.trans (hnone u)

omit [DecidableEq T] in
/-- A thread with an answer is inside the critical section. -/
theorem holdsMutex_of_answered {p : CallPc T} {e : Event T} (h : p.answered = some e) :
    p.holdsMutex = true := by
  cases p with
  | notify | unlock => rfl
  | _ => cases h

/-- Every step keeps the order. -/
theorem moves (h : ReturnedInOrder s) (hexcl : Exclusive st s) (hmoves : Moves st s label s') :
    ReturnedInOrder s' := by
  cases hmoves with
  | begins hpc => exact h.update rfl rfl rfl (by rw [hpc]; rfl)
  | locks hpc hfree => exact h.update rfl rfl rfl (by rw [hpc]; rfl)
  | sleeps hpc hguard => exact h.update rfl rfl rfl (by rw [hpc]; rfl)
  | passes hpc hguard => exact h.update rfl rfl rfl (by rw [hpc]; rfl)
  | releases hpc => exact h.update rfl rfl rfl (by rw [hpc]; rfl)
  | retests hpc hfree => exact h.update rfl rfl rfl (by rw [hpc]; rfl)
  | proceeds hpc hfree htimed => exact h.update rfl rfl rfl (by rw [hpc]; rfl)
  | @answers t c answer inner hpc hcall =>
      have hothers : ∀ u e, (s.pc u).answered = some e → u = t := fun u e he =>
        hexcl.unique (holdsMutex_of_answered he) (by rw [hpc]; rfl)
      have hbefore : s.history = s.returned := h.2 fun u => by
        by_contra hsome
        obtain ⟨e, he⟩ := Option.ne_none_iff_exists'.mp hsome
        obtain rfl := hothers u e he
        simp [hpc, CallPc.answered] at he
      have hanswered : (CallPc.afterAnswer st (⟨t, c, answer⟩ : Event T)).answered =
          some ⟨t, c, answer⟩ := by
        unfold CallPc.afterAnswer
        split <;> rfl
      refine ⟨fun u e he => ?_, fun hnone => ?_⟩
      · by_cases hu : u = t
        · simp only [hu, goTo, update_self, hanswered] at he
          obtain rfl := Option.some.inj he
          simp [goTo, hbefore]
        · simp only [goTo, update_of_ne hu] at he
          exact absurd (hothers u e he) hu
      · have hown := hnone t
        simp [goTo, hanswered] at hown
  | @wakes t u e condition hpc hcond hasleep =>
      have hwoken : ReturnedInOrder (s.goTo u (s.pc u).wake) :=
        h.update rfl rfl rfl (by cases s.pc u <;> rfl)
      refine hwoken.update rfl rfl rfl ?_
      by_cases hu : t = u
      · subst hu
        simp [hpc, CallPc.sleepsOn] at hasleep
      · simp [goTo, hu, hpc, CallPc.answered]
  | wakesNone hpc hcond hnone => exact h.update rfl rfl rfl (by rw [hpc]; rfl)
  | @returns t e hpc =>
      have hlast : s.history = s.returned ++ [e] := h.1 t e (by rw [hpc]; rfl)
      refine ⟨fun u e' he => ?_, fun _ => hlast⟩
      by_cases hu : u = t
      · simp [hu, release, CallPc.answered] at he
      · simp only [release, update_of_ne hu] at he
        have hsame := hexcl.unique (holdsMutex_of_answered he) (by rw [hpc]; rfl)
        exact absurd hsame hu
  | wakesUp hpc => exact h.update rfl rfl rfl (by rw [hpc]; rfl)

omit [QueueBase Q] [DecidableEq T] in
/-- At most one call is in flight. -/
theorem split (h : ReturnedInOrder s) :
    ∃ inFlight, s.history = s.returned ++ inFlight ∧ inFlight.length ≤ 1 := by
  by_cases hsome : ∃ t e, (s.pc t).answered = some e
  · obtain ⟨t, e, he⟩ := hsome
    exact ⟨[e], h.1 t e he, Nat.le_refl 1⟩
  · refine ⟨[], ?_, Nat.zero_le 1⟩
    rw [List.append_nil]
    refine h.2 fun t => ?_
    by_contra hne
    obtain ⟨e, he⟩ := Option.ne_none_iff_exists'.mp hne
    exact hsome ⟨t, e, he⟩

end ReturnedInOrder

/-! ## All interleavings -/

/-- What holds in every reachable state. -/
structure Inv (Rel : Q → MessageFifo → Prop) (a : MessageFifo) (st : BlockingStack)
    (s : StackState Q T) : Prop where
  exclusive : Exclusive st s
  guardKnown : GuardKnown st s
  linear : Linear Rel a st s
  inOrder : ReturnedInOrder s

variable [Fintype T]

/-- The invariant holds in every reachable state. -/
theorem reachable_inv (hinner : BoundedQueue Q Rel) {inner : Q} (hrel : Rel inner a)
    (h : (machine (T := T) st inner).Reachable s) : Inv Rel a st s := by
  have hinit : ∀ state, (machine (T := T) st inner).init state →
      Inv Rel a st state := by
    intro state hstate
    obtain rfl := hstate
    refine ⟨fun t => ?_, fun t c => by simp [start], ⟨.nil, hrel, ?_⟩, ?_, fun _ => rfl⟩
    · simp [start, CallPc.holdsMutex]
    · intro before e later hsplit
      simp [start] at hsplit
    · intro t e he
      simp [start, CallPc.answered] at he
  have hstep : ∀ state following label, Inv Rel a st state →
      (machine (T := T) st inner).step state label = some following →
        Inv Rel a st following := by
    intro state following label hinv hnext
    have hmoves := step_moves hnext
    exact ⟨hinv.exclusive.moves hmoves, hinv.guardKnown.moves hinv.exclusive hmoves,
      hinv.linear.moves hinner hinv.guardKnown hmoves, hinv.inOrder.moves hinv.exclusive hmoves⟩
  exact h.invariant hinit hstep

end StackState

/-- What a caller can rely on when the inner call found the queue `q`: a blocking `put` has stored
its message and a blocking `get` or `peek` has found one, and any other call that did not was made
on a full or an empty queue. -/
def Event.Kept {T : Type} (st : BlockingStack) (q : MessageFifo) (e : Event T) : Prop :=
  match e.call with
  | .put m =>
      (st.writer = .blocking → e.answer.status = .ok) ∧
      (e.answer.status = .ok → (q.answer e.call).2.fifo.items = q.fifo.items ++ [m]) ∧
      (e.answer.status ≠ .ok → ¬ q.fifo.HasRoom)
  | .get size | .peek size =>
      (st.reader = .blocking → e.answer.status = .ok) ∧
      (e.answer.status = .ok →
        ∃ m, q.fifo.items.head? = some m ∧ e.answer.copied = m.bytes.take size) ∧
      (e.answer.status ≠ .ok → q.fifo.items = [])

/-- A call that the abstract queue answers, made while its guard was false if it is a blocking
one. -/
theorem Event.kept_of_answer {T : Type} {st : BlockingStack} {q : MessageFifo} {e : Event T}
    (hanswer : (q.answer e.call).1 = e.answer)
    (hwaited : st.discipline e.call = .blocking → guardHolds q e.call = false) :
    e.Kept st q := by
  obtain ⟨thread, call, answer⟩ := e
  simp only at hanswer hwaited
  subst hanswer
  cases call with
  | put m =>
      by_cases hroom : q.fifo.HasRoom
      · simp [Kept, MessageFifo.answer_put_room hroom, Fifo.push_items hroom]
      · refine ⟨fun hblocking => ?_, ?_, fun _ => hroom⟩
        · have hguard := guardHolds_put (m := m) |>.mpr hroom
          rw [hwaited hblocking] at hguard
          cases hguard
        · simp [MessageFifo.answer_put_full hroom]
  | get size =>
      cases hfirst : q.fifo.items.head? with
      | some m => simp [Kept, MessageFifo.answer_get_some size hfirst, hfirst]
      | none =>
          have hempty := List.head?_eq_none_iff.mp hfirst
          refine ⟨fun hblocking => ?_, ?_, fun _ => hempty⟩
          · have hguard := guardHolds_empty.mpr hempty
            rw [show decide _ = false from hwaited hblocking] at hguard
            cases hguard
          · simp [MessageFifo.answer_get_none size hfirst]
  | peek size =>
      cases hfirst : q.fifo.items.head? with
      | some m => simp [Kept, MessageFifo.answer_peek_some size hfirst, hfirst]
      | none =>
          have hempty := List.head?_eq_none_iff.mp hfirst
          refine ⟨fun hblocking => ?_, ?_, fun _ => hempty⟩
          · have hguard := guardHolds_empty.mpr hempty
            rw [show decide _ = false from hwaited hblocking] at hguard
            cases hguard
          · simp [MessageFifo.answer_peek_none size hfirst]

open StackState in
/-- For every stack of a blocking or timed read decorator over a blocking or timed write decorator,
any number of threads and every interleaving: the calls that have returned, in the order of their
inner calls, are a legal history of one bounded list of messages, and so they are with the call
that is in flight. No message is lost, duplicated or reordered, the inner queue is what the history
makes of it, and each call was answered as its decorator promises. -/
theorem calls_linearize {Q T : Type} [QueueBase Q] [Fintype T] [DecidableEq T]
    {Rel : Q → MessageFifo → Prop} {st : BlockingStack} {inner : Q} {a : MessageFifo}
    {s : StackState Q T} (hinner : BoundedQueue Q Rel) (hrel : Rel inner a)
    (h : (machine (T := T) st inner).Reachable s) :
    Legal a s.returned ∧
      (∃ inFlight, s.history = s.returned ++ inFlight ∧ inFlight.length ≤ 1) ∧
      Legal a s.history ∧ Rel s.inner (a.after s.calls) ∧
      (∃ out, a.fifo.items ++ s.history.filterMap Event.stored =
          out ++ (a.after s.calls).fifo.items ∧
        List.Forall₂ (fun (m : Message) (got : Nat × List UInt8) => got.2 = m.bytes.take got.1) out
          (s.history.filterMap Event.removed)) ∧
      ∀ before e later, s.history = before ++ e :: later →
        e.Kept st (a.after (before.map Event.call)) := by
  obtain ⟨-, -, hlinear, hinOrder⟩ := reachable_inv hinner hrel h
  obtain ⟨inFlight, hsplit, hone⟩ := hinOrder.split
  have hlegal := hlinear.legal
  refine ⟨?_, ⟨inFlight, hsplit, hone⟩, hlegal, hlinear.inner, hlegal.conserves, ?_⟩
  · rw [hsplit] at hlegal
    exact (Legal.append_iff.mp hlegal).1
  · intro before e later hparts
    have hwaited := hlinear.waited before e later hparts
    rw [hparts, Legal.append_iff, Legal.cons_iff] at hlegal
    exact Event.kept_of_answer hlegal.2.1 hwaited

open StackState in
/-- A thread that waits for a message in a queue of one, and a thread that puts it. -/
theorem calls_linearize_woken : ∃ s : StackState MessageFifo Bool,
    (machine (T := Bool) (.ofDisciplines .blocking (.timed 5)) (MessageFifo.empty 1)).Reachable s ∧
      s.returned.map (fun e => (e.thread, e.answer)) =
        [(true, ⟨1, [], .ok⟩), (false, ⟨1, [7], .ok⟩)] ∧
      Legal (MessageFifo.empty 1) s.returned := by
  have hrun : ((machine (T := Bool) (.ofDisciplines .blocking (.timed 5)) (MessageFifo.empty 1)).run
      [.call false (.get 65535), .thread false, .thread false, .thread false,
        .call true (.put ⟨[7], by decide⟩), .thread true, .thread true, .thread true,
        .notify true (some false), .thread true,
        .thread false, .thread false, .thread false, .notify false none, .thread false]
      (start (MessageFifo.empty 1))).map (fun s => s.returned.map (fun e => (e.thread, e.answer))) =
      some [(true, ⟨1, [], .ok⟩), (false, ⟨1, [7], .ok⟩)] := by
    decide +kernel
  obtain ⟨s, hs, hreturned⟩ := Option.map_eq_some_iff.mp hrun
  have hreach := Machine.reachable_of_run _ rfl hs
  exact ⟨s, hreach, hreturned, (calls_linearize messageFifo_bounded rfl hreach).1⟩

end Shovel.Containers
