import Shovel.Workers.DestructionEnd

/-!
# The post-mortem callback

The guard thread calls `m_postmortem_callback` behind the joins of both threads, and
the callback is where a worker may be deleted. The destructor runs on the guard
thread then, which it cannot join: it detaches it. Unlike a destruction by another
thread, this one finds no thread inside the object and waits for nobody.
-/

namespace Shovel.Workers

open Containers Parsers Transition

namespace Worker

variable {Q R : Type} {s s' : Worker Q R}

/-! ## The call of the callback -/

/-- One for the step in which the guard thread calls `m_postmortem_callback`. -/
def callbackCall (s : Worker Q R) : WorkerLabel → Nat
  | .guard => if s.guard = .callback then 1 else 0
  | _ => 0

/-- One for a step of one of the two threads, a call that begins or returns included. -/
def threadStep (_ : Worker Q R) (label : WorkerLabel) : Nat := label.isThread.toNat

/-- The guard thread has joined both threads and set `m_stopped`. -/
structure Over (s : Worker Q R) : Prop where
  joined : s.Joined
  passed : s.guard = .callback ∨ s.guard = .done
  stopped : s.stopped = true

theorem Over.done (h : s.Over) : s.reader.state.pc = .done ∧ s.writer.state.pc = .done := by
  have hread : s.guard ≠ .joinRead := by rcases h.passed with hguard | hguard <;> simp [hguard]
  have hwrite : s.guard ≠ .joinWrite := by rcases h.passed with hguard | hguard <;> simp [hguard]
  exact ⟨h.joined.read hread, h.joined.write hread hwrite⟩

section Callback

variable [QueueBase Q] [QueueBase R] {parts : WorkerParts Q R} {label : WorkerLabel}

/-- The guard thread comes to its end by the call of the callback alone. -/
theorem callback_pays (h : s.step parts label = some s') :
    (if s'.guard = .done then 1 else 0) + 0 =
      (if s.guard = .done then 1 else 0) + s.callbackCall label := by
  by_cases hlabel : label = .guard
  · subst hlabel
    have hown : s.guardStep = some s' := h
    cases hguard : s.guard with
    | joinRead | joinWrite =>
        simp only [guardStep, hguard] at hown
        split at hown
        · obtain rfl := Option.some.inj hown
          simp [callbackCall, hguard]
        · cases hown
    | setStopped | callback =>
        simp only [guardStep, hguard] at hown
        obtain rfl := Option.some.inj hown
        simp [callbackCall, hguard]
    | done => simp [guardStep, hguard] at hown
  · rw [(guard_frame hlabel h).1]
    cases label with
    | guard => exact absurd rfl hlabel
    | _ => rfl

/-- Every step keeps that `m_stopped` is set behind the joins, before the callback. -/
theorem stopped_step (hiff : s.stopped = true ↔ s.guard = .callback ∨ s.guard = .done)
    (h : s.step parts label = some s') :
    s'.stopped = true ↔ s'.guard = .callback ∨ s'.guard = .done := by
  by_cases hlabel : label = .guard
  · subst hlabel
    have hown : s.guardStep = some s' := h
    cases hguard : s.guard with
    | joinRead | joinWrite =>
        simp only [guardStep, hguard] at hown
        split at hown
        · obtain rfl := Option.some.inj hown
          simpa [hguard] using hiff
        · cases hown
    | setStopped =>
        simp only [guardStep, hguard] at hown
        obtain rfl := Option.some.inj hown
        simp
    | callback =>
        simp only [guardStep, hguard] at hown
        obtain rfl := Option.some.inj hown
        simpa [hguard] using hiff
    | done => simp [guardStep, hguard] at hown
  · obtain ⟨hguard, hstopped⟩ := guard_frame hlabel h
    rw [hguard, hstopped]
    exact hiff

/-- Once `m_stopped` is set neither thread makes another step. -/
theorem Over.step (hover : s.Over) (h : s.step parts label = some s') :
    s'.Over ∧ s.threadStep label = 0 := by
  obtain ⟨hread, hwrite⟩ := hover.done
  have hiff : s'.stopped = true ↔ s'.guard = .callback ∨ s'.guard = .done :=
    stopped_step ⟨fun _ => hover.passed, fun _ => hover.stopped⟩ h
  have hpassed : s'.guard = .callback ∨ s'.guard = .done := by
    by_cases hlabel : label = .guard
    · subst hlabel
      obtain ⟨guard, stopped, hrank, rfl⟩ := guardStep_rank h
      rcases hover.passed with hguard | hguard
      · rw [hguard] at hrank
        cases guard <;> simp [GuardPc.rank] at hrank ⊢
      · rw [hguard] at hrank
        simp [GuardPc.rank] at hrank
    · rw [(guard_frame hlabel h).1]
      exact hover.passed
  refine ⟨⟨hover.joined.step h, hpassed, hiff.mpr hpassed⟩, ?_⟩
  cases label with
  | readBegins =>
      obtain ⟨hat, -⟩ := readBegins_cases h
      simp [ReadState.atRead, hread] at hat
  | read label =>
      obtain ⟨-, reader, hstep, -⟩ := read_cases h
      obtain ⟨-, hnext, -⟩ := Machine.splitCalls_other hstep
      cases label with
      | reader => simp [ReadState.machine, ReadState.step, ReadState.readerStep, hread] at hnext
      | readReturns result => simp [ReadState.machine, ReadState.step, hread] at hnext
      | consumerGet | stop | writerDies => rfl
  | writeBegins =>
      obtain ⟨hat, -⟩ := writeBegins_cases h
      simp [WriteState.atWrite, hwrite] at hat
  | write label =>
      obtain ⟨-, -, state, hnext, -⟩ := write_summary h
      cases label with
      | writer => simp [WriteState.step, WriteState.writerStep, hwrite] at hnext
      | writeReturns writeStatus => simp [WriteState.step, hwrite] at hnext
      | producerPut m | stop | readerDies => rfl
  | stop | guard | owner => rfl

/-- A joined thread has returned, in every reachable state. -/
theorem reachable_joined (h : (machine parts).Reachable s) : s.Joined := by
  have hinit : ∀ s, (machine parts).init s → s.Joined := by
    rintro s rfl
    exact ⟨fun hjoin => absurd rfl hjoin, fun hjoin => absurd rfl hjoin,
      fun hdestroyed => by cases hdestroyed⟩
  exact h.invariant hinit fun _ _ _ hjoined hstep => hjoined.step hstep

/-- `m_stopped` is set behind the joins, before the callback, in every reachable state. -/
theorem reachable_stopped (h : (machine parts).Reachable s) :
    s.stopped = true ↔ s.guard = .callback ∨ s.guard = .done := by
  have hinit : ∀ s, (machine parts).init s →
      (s.stopped = true ↔ s.guard = .callback ∨ s.guard = .done) := by
    rintro s rfl
    simp [start]
  exact h.invariant hinit fun _ _ _ hiff hstep => stopped_step hiff hstep

end Callback

/-- In every run of a worker: `m_stopped` is true exactly from the assignment behind the joins of
both threads on, and from then on neither thread makes a step, begins a call or returns from one.
The post-mortem callback is called at most once, behind that, and exactly once when the worker has
been destroyed. -/
theorem postmortem_once [QueueBase Q] [QueueBase R] {parts : WorkerParts Q R}
    {labels : List WorkerLabel} (hrun : (machine parts).run labels (start parts) = some s) :
    (machine parts).tally callbackCall labels (start parts) =
        (if s.guard = .done then 1 else 0) ∧
      (s.stopped = true ↔ s.guard = .callback ∨ s.guard = .done) ∧
      (s.owner = .destroyed →
        (machine parts).tally callbackCall labels (start parts) = 1) ∧
      (s.stopped = true → (s.reader.state.pc = .done ∧ s.writer.state.pc = .done) ∧
        ∀ more final, (machine parts).run more s = some final →
          final.stopped = true ∧ (machine parts).tally threadStep more s = 0) := by
  have hreach : (machine parts).Reachable s := Machine.reachable_of_run labels rfl hrun
  have hjoined := reachable_joined hreach
  have hcalls : (machine parts).tally callbackCall labels (start parts) =
      if s.guard = .done then 1 else 0 := by
    have hbalance := Machine.tally_balance (fun _ _ _ hstep => callback_pays hstep) hrun
    have hnothing : ∀ (state following : Worker Q R) (label : WorkerLabel), True →
        (machine parts).step state label = some following → True ∧ 0 = 0 :=
      fun _ _ _ _ _ => ⟨trivial, rfl⟩
    have hfree : (machine parts).tally (fun _ _ => 0) labels (start parts) = 0 :=
      (Machine.tally_free hnothing trivial hrun).2
    rw [hfree, Nat.add_zero] at hbalance
    simpa [start] using hbalance.symm
  have hiff := reachable_stopped hreach
  refine ⟨hcalls, hiff, fun hdestroyed => ?_, fun hstopped => ?_⟩
  · rw [hcalls, if_pos (hjoined.guard hdestroyed)]
  · have hover : s.Over := ⟨hjoined, hiff.mp hstopped, hstopped⟩
    refine ⟨hover.done, fun more final hmore => ?_⟩
    have hkept : ∀ state following label, Over state →
        (machine parts).step state label = some following →
          Over following ∧ threadStep state label = 0 :=
      fun _ _ _ hstate hstep => hstate.step hstep
    obtain ⟨hover', hfree⟩ := Machine.tally_free hkept hover hmore
    exact ⟨hover'.stopped, hfree⟩

/-- A worker that is stopped and destroyed: its callback has been called. -/
theorem postmortem_once_stopped :
    (machine twoRings).tally callbackCall
      [.stop, .read .reader, .read .reader, .read .reader, .write .writer, .write .writer,
        .guard, .guard, .guard, .guard, .owner, .owner, .owner, .owner] (start twoRings) = 1 := by
  have hrun : ((machine twoRings).run
      [.stop, .read .reader, .read .reader, .read .reader, .write .writer, .write .writer,
        .guard, .guard, .guard, .guard, .owner, .owner, .owner, .owner] (start twoRings)).map
        Worker.owner = some .destroyed := by
    decide +kernel
  obtain ⟨s, hs, howner⟩ := Option.map_eq_some_iff.mp hrun
  obtain ⟨-, -, hcalled, -⟩ := postmortem_once hs
  exact hcalled howner

/-! ## A worker that is destroyed once it is stopped -/

/-- Threads that have returned are not inside a call. -/
theorem Over.unused (hover : s.Over) (hinv : s.Inv) : ¬ s.UsesSocket := by
  obtain ⟨hread, hwrite⟩ := hover.done
  rintro (⟨hbusy, -⟩ | ⟨hbusy, -⟩)
  · cases hread.symm.trans (of_decide_eq_true (hinv.reading hbusy))
  · cases hwrite.symm.trans (of_decide_eq_true (hinv.writing hbusy))

/-- Short of the join the destruction waits for nobody. -/
theorem ownerStep_enabled (s : Worker Q R) (hjoin : s.owner ≠ .joinGuard)
    (hlast : s.owner ≠ .destroyed) :
    ∃ s', s.ownerStep = some s' ∧ s'.guard = s.guard ∧ s'.owner.rank < s.owner.rank := by
  cases howner : s.owner with
  | owning | released | baseDestructor =>
      simp only [ownerStep, howner]
      exact ⟨_, rfl, rfl, by simp [OwnerPc.rank]⟩
  | joinGuard => exact absurd howner hjoin
  | destroyed => exact absurd howner hlast

/-- If the step begins the destruction, the owner has found `is_stopped()` true. -/
def ReleasesStopped (s : Worker Q R) (label : WorkerLabel) : Prop :=
  label = .owner → s.owner = .owning → s.stopped = true

section Owned

variable [QueueBase Q] [QueueBase R] {parts : WorkerParts Q R}

/-- An owner that waits for `is_stopped()` releases the socket behind the ends of both threads. -/
theorem over_of_releasesStopped (h : (machine parts).ReachableUnder ReleasesStopped s)
    (hreleased : s.owner ≠ .owning) : s.Over := by
  have hinit : ∀ s, (machine parts).init s →
      (machine parts).Reachable s ∧ (s.owner ≠ .owning → s.Over) := by
    rintro s rfl
    exact ⟨.start rfl, fun hreleased => absurd rfl hreleased⟩
  have hkept : ∀ s s' label, (machine parts).Reachable s ∧ (s.owner ≠ .owning → s.Over) →
      ReleasesStopped s label → (machine parts).step s label = some s' →
        (machine parts).Reachable s' ∧ (s'.owner ≠ .owning → s'.Over) := by
    intro s s' label ⟨hreach, hover⟩ hguard hstep
    refine ⟨hreach.step hstep, fun hreleased => ?_⟩
    by_cases howner : s.owner = .owning
    · -- the step that leads out of `owning` is the release
      have hrelease : label = .owner := by
        by_contra hlabel
        exact hreleased ((owner_frame hlabel hstep).trans howner)
      have hstopped := hguard hrelease howner
      have hbefore : s.Over :=
        ⟨reachable_joined hreach, (reachable_stopped hreach).mp hstopped, hstopped⟩
      exact (hbefore.step hstep).1
    · exact ((hover howner).step hstep).1
  exact (h.invariant hinit hkept).2 hreleased

/-- From there on the guard thread and the owner go on to the end of the destruction. -/
theorem Over.ends (hover : s.Over) :
    ∃ final, (machine parts).Leads (fun label => label = .guard ∨ label = .owner) s final ∧
      final.owner = .destroyed := by
  have hprogress : ∀ state : Worker Q R, state.Over → ¬ state.owner = .destroyed →
      ∃ following, (machine parts).Leads (fun label => label = .guard ∨ label = .owner) state
        following ∧ following.Over ∧
        following.guard.rank + following.owner.rank < state.guard.rank + state.owner.rank := by
    intro state hstate hlast
    have hturn : ∃ label following, (label = .guard ∨ label = .owner) ∧
        (machine parts).step state label = some following ∧
        following.guard.rank + following.owner.rank < state.guard.rank + state.owner.rank := by
      by_cases hguard : state.guard = .done
      · by_cases hjoin : state.owner = .joinGuard
        · refine ⟨.owner, { state with owner := .destroyed }, .inr rfl, ?_, ?_⟩
          · simp [machine, Worker.step, ownerStep, hjoin, hguard]
          · simp [hjoin, OwnerPc.rank]
        · obtain ⟨following, hstep, hsame, hless⟩ := state.ownerStep_enabled hjoin hlast
          refine ⟨.owner, following, .inr rfl, hstep, ?_⟩
          rw [hsame]
          omega
      · obtain ⟨hread, hwrite⟩ := hstate.done
        obtain ⟨guard, stopped, hstep, hrank⟩ := guarding_progress hread hwrite hguard
        refine ⟨.guard, _, .inl rfl, hstep, ?_⟩
        simp only
        omega
    obtain ⟨label, following, hlabel, hstep, hless⟩ := hturn
    exact ⟨following, .single hlabel hstep, (hstate.step hstep).1, hless⟩
  obtain ⟨final, hleads, -, hended⟩ := Machine.Leads.descend hprogress hover
  exact ⟨final, hleads, hended⟩

end Owned

/-- In every run in which the owner begins the destruction only when it has found `is_stopped()`
true: from the release of the socket on both threads have returned, so no call on the socket is in
progress and neither thread makes another step, and the steps of the guard thread and of the owner
alone lead to the end of the destruction. -/
theorem stopped_first [QueueBase Q] [QueueBase R] {parts : WorkerParts Q R}
    (h : (machine parts).ReachableUnder ReleasesStopped s) (hreleased : s.owner ≠ .owning) :
    (s.reader.state.pc = .done ∧ s.writer.state.pc = .done) ∧ ¬ s.UsesSocket ∧
      (∀ more final, (machine parts).run more s = some final →
        (machine parts).tally threadStep more s = 0) ∧
      ∃ final, (machine parts).Leads (fun label => label = .guard ∨ label = .owner) s final ∧
        final.owner = .destroyed := by
  have hover := over_of_releasesStopped h hreleased
  have hkept : ∀ state following label, Over state →
      (machine parts).step state label = some following →
        Over following ∧ threadStep state label = 0 :=
    fun _ _ _ hstate hstep => hstate.step hstep
  exact ⟨hover.done, hover.unused (reachable_inv h.reachable),
    fun more final hmore => (Machine.tally_free hkept hover hmore).2, hover.ends⟩

/-- A worker that is stopped and whose guard thread has set `m_stopped` is released. -/
theorem stopped_first_released : ∃ s final,
    (machine twoRings).Leads (fun label => label = .guard ∨ label = .owner) s final ∧
      s.owner = .released ∧ final.owner = .destroyed := by
  have hrun : ((machine twoRings).run
      [.stop, .read .reader, .read .reader, .read .reader, .write .writer, .write .writer,
        .guard, .guard, .guard] (start twoRings)).map (fun s => (s.owner, s.stopped)) =
        some (.owning, true) := by
    decide +kernel
  obtain ⟨s, hs, hfields⟩ := Option.map_eq_some_iff.mp hrun
  obtain ⟨howner, hstopped⟩ : s.owner = .owning ∧ s.stopped = true := by simpa using hfields
  have hreach : (machine twoRings).ReachableUnder ReleasesStopped s :=
    .run _ (.start rfl) (fun label hlabel _ howner => by simp [howner] at hlabel) hs
  have hstep : (machine twoRings).step s .owner = some { s with owner := .released } := by
    simp [machine, step, ownerStep, howner]
  have hreleased := hreach.next (fun _ _ => hstopped) hstep
  obtain ⟨-, -, -, final, hleads, hended⟩ := stopped_first hreleased (by simp)
  exact ⟨_, final, hleads, rfl, hended⟩

end Worker

/-! ## A worker that its callback deletes -/

/-- A worker whose post-mortem callback deletes it. `deleted` is set when `~ConnectionWorker` has
returned. -/
structure SelfDeleting (Q R : Type) where
  worker : Worker Q R
  deleted : Bool

namespace SelfDeleting

variable {Q R : Type}

/-- `start`. -/
def start [QueueBase Q] [QueueBase R] (parts : WorkerParts Q R) : SelfDeleting Q R :=
  ⟨.start parts, false⟩

variable [QueueBase Q] [QueueBase R]

/-- One step of an interleaving. The destruction runs inside the callback; at its end
`~ConnectionWorker` finds itself on the guard thread, and `t_guard.detach()` takes the place of the
join. The callback returns behind it. -/
def step (parts : WorkerParts Q R) (s : SelfDeleting Q R) :
    WorkerLabel → Option (SelfDeleting Q R)
  | .owner =>
      if s.worker.guard = .callback ∧ s.deleted = false then
        if s.worker.owner = .joinGuard then some { s with deleted := true }
        else (s.worker.step parts .owner).map fun worker => { s with worker }
      else none
  | .guard =>
      if s.worker.guard = .callback ∧ s.deleted = false then none
      else (s.worker.step parts .guard).map fun worker => { s with worker }
  | label => (s.worker.step parts label).map fun worker => { s with worker }

/-- All interleavings of a worker with these parts that its callback deletes. -/
def machine (parts : WorkerParts Q R) : Machine (SelfDeleting Q R) WorkerLabel where
  init s := s = start parts
  step := step parts

variable {s s' : SelfDeleting Q R} {parts : WorkerParts Q R} {label : WorkerLabel}

/-- The steps in which the guard thread does not yet return from the callback, and the destruction
does not end. -/
theorem step_cases (h : s.step parts label = some s') :
    (label = .owner ∧ s.worker.owner = .joinGuard ∧ s.worker.guard = .callback ∧
      s.deleted = false ∧ s' = { s with deleted := true }) ∨
    ∃ worker, s.worker.step parts label = some worker ∧ s' = { s with worker } ∧
      (label = .owner → s.worker.guard = .callback ∧ s.deleted = false ∧
        s.worker.owner ≠ .joinGuard) ∧
      (label = .guard → s.worker.guard = .callback → s.deleted = true) := by
  cases label with
  | owner =>
      simp only [step] at h
      split at h
      · rename_i hinside
        split at h
        · rename_i hjoin
          exact .inl ⟨rfl, hjoin, hinside.1, hinside.2, (Option.some.inj h).symm⟩
        · rename_i hjoin
          obtain ⟨worker, hstep, rfl⟩ := Option.map_eq_some_iff.mp h
          exact .inr ⟨worker, hstep, rfl, fun _ => ⟨hinside.1, hinside.2, hjoin⟩,
            fun hlabel => by cases hlabel⟩
      · cases h
  | guard =>
      simp only [step] at h
      split at h
      · cases h
      · rename_i hinside
        obtain ⟨worker, hstep, rfl⟩ := Option.map_eq_some_iff.mp h
        refine .inr ⟨worker, hstep, rfl, fun hlabel => (by cases hlabel), fun _ hcallback => ?_⟩
        simpa [hcallback] using hinside
  | readBegins | writeBegins | stop | read label | write label =>
      obtain ⟨worker, hstep, rfl⟩ := Option.map_eq_some_iff.mp h
      exact .inr ⟨worker, hstep, rfl, fun hlabel => (by cases hlabel),
        fun hlabel => (by cases hlabel)⟩

/-- The worker is in a state of its own machine. -/
theorem reachable_worker (h : (machine parts).Reachable s) :
    (Worker.machine parts).Reachable s.worker := by
  refine Machine.ReachableUnder.projects ?_ (fun state following label _ _ hstep => ?_) h
  · rintro state rfl
    rfl
  · obtain ⟨-, -, -, -, rfl⟩ | ⟨worker, hworker, rfl, -⟩ := step_cases hstep
    · exact .inl rfl
    · exact .inr ⟨label, trivial, hworker⟩

/-- The destruction begins inside the callback, and the callback returns behind its end. -/
structure Inv (s : SelfDeleting Q R) : Prop where
  begun : s.worker.owner ≠ .owning → s.worker.guard = .callback ∨ s.worker.guard = .done
  deleted : s.deleted = true → s.worker.owner = .joinGuard
  returned : s.worker.guard = .done → s.deleted = true
  waits : s.worker.owner ≠ .destroyed

/-- Every step keeps the invariant. -/
theorem Inv.step (hinv : s.Inv) (h : s.step parts label = some s') : s'.Inv := by
  obtain ⟨hbegun, hdeleted, hreturned, hwaits⟩ := hinv
  obtain ⟨-, hjoin, -, -, rfl⟩ | ⟨worker, hworker, rfl, hinside, hbehind⟩ := step_cases h
  · exact ⟨hbegun, fun _ => hjoin, fun _ => rfl, hwaits⟩
  · by_cases howner : label = .owner
    · subst howner
      obtain ⟨hcallback, hexists, hjoin⟩ := hinside rfl
      obtain ⟨owner, hrank, hworker'⟩ := Worker.ownerStep_rank hworker
      have hguard : worker.guard = .callback := by
        rcases hworker' with rfl | rfl <;> exact hcallback
      have hnext : worker.owner ≠ .destroyed := by
        intro hdestroyed
        have hlast : owner = .destroyed := by
          rcases hworker' with rfl | rfl <;> exact hdestroyed
        cases hbefore : s.worker.owner <;>
          simp [hlast, hbefore, OwnerPc.rank] at hrank hjoin
      refine ⟨fun _ => .inl hguard, fun hgone => ?_, fun hdone => ?_, hnext⟩
      · cases hexists.symm.trans hgone
      · cases hguard.symm.trans hdone
    · have hsame : worker.owner = s.worker.owner := Worker.owner_frame howner hworker
      by_cases hguard : label = .guard
      · subst hguard
        obtain ⟨guard, stopped, hrank, rfl⟩ := Worker.guardStep_rank hworker
        refine ⟨fun hreleased => ?_, hdeleted, fun hdone => ?_, hwaits⟩
        · rcases hbegun hreleased with hcallback | hcallback
          · cases hafter : guard <;> simp [hcallback, hafter, GuardPc.rank] at hrank ⊢
          · simp [hcallback, GuardPc.rank] at hrank
        · cases hbefore : s.worker.guard with
          | callback => exact hbehind rfl hbefore
          | _ => simp [hbefore, show guard = .done from hdone, GuardPc.rank] at hrank
      · have hframe : worker.guard = s.worker.guard := (Worker.guard_frame hguard hworker).1
        exact ⟨by simpa only [hsame, hframe] using hbegun, by simpa only [hsame] using hdeleted,
          by simpa only [hframe] using hreturned, by simpa only [hsame] using hwaits⟩

/-- The invariant holds in every reachable state. -/
theorem reachable_inv (h : (machine parts).Reachable s) : s.Inv := by
  have hinit : ∀ s, (machine parts).init s → s.Inv := by
    rintro s rfl
    exact ⟨fun hreleased => absurd rfl hreleased, fun hdeleted => (by cases hdeleted),
      fun hdone => (by cases hdone), fun hdestroyed => by cases hdestroyed⟩
  exact h.invariant hinit fun _ _ _ hinv hstep => hinv.step hstep

/-- From the beginning of the destruction on both threads have returned. -/
theorem released_over (h : (machine parts).Reachable s) (hreleased : s.worker.owner ≠ .owning) :
    s.worker.Over := by
  have hworker := reachable_worker h
  have hpassed := (reachable_inv h).begun hreleased
  exact ⟨Worker.reachable_joined hworker, hpassed, (Worker.reachable_stopped hworker).mpr hpassed⟩

/-- The call of the callback returns behind the destruction, by steps of the guard thread alone. -/
theorem callback_ends (h : (machine parts).Reachable s)
    (hpassed : s.worker.guard = .callback ∨ s.worker.guard = .done) :
    ∃ final, (machine parts).Leads (fun label => label = .owner ∨ label = .guard) s final ∧
      final.deleted = true ∧ final.worker.guard = .done := by
  have hprogress : ∀ state : SelfDeleting Q R,
      ((machine parts).Reachable state ∧
        (state.worker.guard = .callback ∨ state.worker.guard = .done)) →
      ¬ (state.deleted = true ∧ state.worker.guard = .done) → ∃ following,
        (machine parts).Leads (fun label => label = .owner ∨ label = .guard) state following ∧
        ((machine parts).Reachable following ∧
          (following.worker.guard = .callback ∨ following.worker.guard = .done)) ∧
        following.worker.owner.rank + following.worker.guard.rank + (!following.deleted).toNat <
          state.worker.owner.rank + state.worker.guard.rank + (!state.deleted).toNat := by
    rintro state ⟨hreach, hinside⟩ hlast
    have hinv := reachable_inv hreach
    have hcallback : state.worker.guard = .callback :=
      hinside.resolve_right fun hdone => hlast ⟨hinv.returned hdone, hdone⟩
    have hturn : ∃ label following, (label = .owner ∨ label = .guard) ∧
        (machine parts).step state label = some following ∧
        (following.worker.guard = .callback ∨ following.worker.guard = .done) ∧
        following.worker.owner.rank + following.worker.guard.rank + (!following.deleted).toNat <
          state.worker.owner.rank + state.worker.guard.rank + (!state.deleted).toNat := by
      cases hdeleted : state.deleted with
      | true =>
          refine ⟨.guard, { state with worker := { state.worker with guard := .done } }, .inr rfl,
            ?_, .inr rfl, ?_⟩
          · simp [machine, step, Worker.step, Worker.guardStep, hcallback, hdeleted]
          · simp [hcallback, hdeleted, GuardPc.rank]
      | false =>
          by_cases hjoin : state.worker.owner = .joinGuard
          · refine ⟨.owner, { state with deleted := true }, .inl rfl, ?_, hinside, ?_⟩
            · simp [machine, step, hcallback, hdeleted, hjoin]
            · simp
          · obtain ⟨worker, hstep, hguard, hrank⟩ :=
              Worker.ownerStep_enabled state.worker hjoin hinv.waits
            refine ⟨.owner, { state with worker }, .inl rfl, ?_, .inl (hguard.trans hcallback), ?_⟩
            · simp [machine, step, hcallback, hdeleted, hjoin, Worker.step, hstep]
            · simp only [hguard, hdeleted]
              omega
    obtain ⟨label, following, hlabel, hstep, hnext, hless⟩ := hturn
    exact ⟨following, .single hlabel hstep, ⟨hreach.step hstep, hnext⟩, hless⟩
  obtain ⟨final, hleads, -, hended⟩ := Machine.Leads.descend hprogress ⟨h, hpassed⟩
  exact ⟨final, hleads, hended⟩

/-- Once the threads are told to leave their loops, what is left pays for every step. -/
theorem step_pays (hinv : s.Inv) (hworker : s.worker.Inv) (hreturned : s.worker.Returned)
    (hdown : s.worker.reader.state.flags.Down) (h : s.step parts label = some s') :
    s'.worker.reader.state.flags.Down ∧
      s'.worker.stepsLeft - s'.deleted.toNat + s.worker.ownStep label ≤
        s.worker.stepsLeft - s.deleted.toNat := by
  have hleft : ∀ state : SelfDeleting Q R, state.Inv →
      state.deleted.toNat ≤ state.worker.stepsLeft := by
    intro state hstate
    cases hdeleted : state.deleted with
    | false => exact Nat.zero_le _
    | true =>
        simp only [Worker.stepsLeft, hstate.deleted hdeleted, OwnerPc.rank, Bool.toNat_true]
        omega
  have hbefore := hleft s hinv
  have hafter := hleft s' (hinv.step h)
  obtain ⟨rfl, hjoin, -, hexists, rfl⟩ | ⟨worker, hstep, rfl, -⟩ := step_cases h
  · refine ⟨hdown, ?_⟩
    simp only [hexists, Worker.ownStep, Bool.toNat_true, Bool.toNat_false] at hafter ⊢
    omega
  · obtain ⟨hdown', hpays⟩ := Worker.step_pays hworker hreturned hdown hstep
    refine ⟨hdown', ?_⟩
    simp only at hafter ⊢
    omega

/-- Once the threads are told to leave their loops they lead to the call of the callback. -/
theorem comes_to_callback {RelQ : Q → MessageFifo → Prop} {RelR : R → MessageFifo → Prop}
    (hsimQ : Simulates Q RelQ) (hsimR : Simulates R RelR) (h : (machine parts).Reachable s)
    (hkept : s.worker.Kept RelQ RelR) (hdown : s.worker.reader.state.flags.Down)
    (hsound : s.worker.reader.state.Sound) :
    ∃ final, (machine parts).Leads Worker.IsOwn s final ∧ (machine parts).Reachable final ∧
      (final.worker.guard = .callback ∨ final.worker.guard = .done) := by
  have hprogress : ∀ state : SelfDeleting Q R,
      ((machine parts).Reachable state ∧ state.worker.Kept RelQ RelR ∧
        state.worker.reader.state.flags.Down ∧ state.worker.reader.state.Sound) →
      ¬ (state.worker.guard = .callback ∨ state.worker.guard = .done) → ∃ following,
        (machine parts).Leads Worker.IsOwn state following ∧
        ((machine parts).Reachable following ∧ following.worker.Kept RelQ RelR ∧
          following.worker.reader.state.flags.Down ∧ following.worker.reader.state.Sound) ∧
        5 * following.worker.stepsLeft + following.worker.callsLeft <
          5 * state.worker.stepsLeft + state.worker.callsLeft := by
    rintro state ⟨hreach, hstate, hends, hparses⟩ hbefore
    have howning : state.worker.owner = .owning := by
      by_contra hreleased
      exact hbefore ((reachable_inv hreach).begun hreleased)
    have hturn : ∃ label worker, Worker.IsOwn label ∧ label ≠ .owner ∧
        state.worker.step parts label = some worker ∧
        (worker.reader.state.flags.Down ∧ worker.reader.state.Sound) ∧
        5 * worker.stepsLeft + worker.callsLeft <
          5 * state.worker.stepsLeft + state.worker.callsLeft := by
      by_cases hdone : state.worker.reader.state.pc = .done ∧ state.worker.writer.state.pc = .done
      · obtain ⟨guard, stopped, hstep, hrank⟩ :=
          Worker.guarding_progress hdone.1 hdone.2 fun hguard => hbefore (.inr hguard)
        refine ⟨.guard, _, .inr (.inl rfl), by simp, hstep, ⟨hends, hparses⟩, ?_⟩
        simp only [Worker.stepsLeft, Worker.callsLeft]
        omega
      · obtain ⟨label, worker, hthread, hstep, hnext, hless⟩ := Worker.threads_progress hstate
          ⟨hends, .inl (by rw [howning]; rfl), hparses⟩ hdone
        refine ⟨label, worker, .inl hthread, ?_, hstep, ⟨hnext.down, hnext.sound⟩, hless⟩
        rintro rfl
        cases hthread
    obtain ⟨label, worker, hown, howner, hstep, hnext, hless⟩ := hturn
    have hlifted : (machine parts).step state label = some { state with worker } := by
      cases label with
      | owner => exact absurd rfl howner
      | guard =>
          have hcallback : state.worker.guard ≠ .callback := fun hguard => hbefore (.inl hguard)
          simp [machine, step, hcallback, hstep]
      | _ => simp [machine, step, hstep]
    exact ⟨_, .single hown hlifted,
      ⟨hreach.step hlifted, hstate.step hsimQ hsimR hstep, hnext⟩, hless⟩
  obtain ⟨final, hleads, ⟨hreach, -⟩, hpassed⟩ :=
    Machine.Leads.descend hprogress ⟨h, hkept, hdown, hsound⟩
  exact ⟨final, hleads, hreach, hpassed⟩

/-- In every run of a worker that its callback deletes: from the release of the socket on both
threads have returned, so no call on the socket is in progress and neither thread makes another
step, whatever else happens; the guard thread returns behind the deletion only; and from the call of
the callback on its own steps lead to its return, without a step of anybody else. -/
theorem deletes_itself (h : (machine parts).Reachable s) :
    (s.worker.owner ≠ .owning →
      (s.worker.reader.state.pc = .done ∧ s.worker.writer.state.pc = .done) ∧
        ¬ s.worker.UsesSocket ∧ ∀ more final, (machine parts).run more s = some final →
          (machine parts).tally (fun state => state.worker.threadStep) more s = 0) ∧
      (s.worker.guard = .done → s.deleted = true) ∧
      (s.worker.guard = .callback → ∃ final,
        (machine parts).Leads (fun label => label = .owner ∨ label = .guard) s final ∧
          final.deleted = true ∧ final.worker.guard = .done) := by
  refine ⟨fun hreleased => ?_, (reachable_inv h).returned,
    fun hguard => callback_ends h (.inl hguard)⟩
  have hover := released_over h hreleased
  have hunused := hover.unused (Worker.reachable_inv (reachable_worker h))
  refine ⟨hover.done, hunused, fun more final hmore => ?_⟩
  have hkept : ∀ state following label, state.worker.Over →
      (machine parts).step state label = some following →
        following.worker.Over ∧ state.worker.threadStep label = 0 := by
    intro state following label hstate hstep
    obtain ⟨rfl, -, -, -, rfl⟩ | ⟨worker, hworker, rfl, -⟩ := step_cases hstep
    · exact ⟨hstate, rfl⟩
    · exact hstate.step hworker
  exact (Machine.tally_free hkept hover hmore).2

/-- Where a worker with two rings stands when its destruction has begun. -/
theorem deletes_itself_released : ∃ s, (machine Worker.twoRings).Reachable s ∧
    s.worker.owner = .released ∧ ¬ s.worker.UsesSocket := by
  have hrun : ((machine Worker.twoRings).run
      [.stop, .read .reader, .read .reader, .read .reader, .write .writer, .write .writer,
        .guard, .guard, .guard, .owner] (start Worker.twoRings)).map (fun s => s.worker.owner) =
        some .released := by
    decide +kernel
  obtain ⟨s, hs, howner⟩ := Option.map_eq_some_iff.mp hrun
  have hreach := Machine.reachable_of_run _ rfl hs
  exact ⟨s, hreach, howner, ((deletes_itself hreach).1 (by simp [howner])).2.1⟩

end SelfDeleting

/-- A worker over rings of any number of cells that its callback deletes, with a parser that accepts
what it is about to parse. Once a stop has been asked for or one of the two threads has left its
loop, because its connection has failed for instance, the steps of the threads and of the guard
thread and the returns of calls can lead to its deletion from every reachable state, wherever the
other thread stands. In every run the threads and the guard thread make at most twenty-four steps
besides the beginnings and returns of calls; as long as its writes return zero, the writing thread
can go on beginning them. -/
theorem deletion_ends {count cellSize count' cellSize' : Nat} {parser : Option ParserExample}
    {s : SelfDeleting RingQueue RingQueue} (hcount : count < 2 ^ 32) (hcount' : count' < 2 ^ 32)
    (h : (SelfDeleting.machine
      ⟨RingQueue.new count cellSize, parser, RingQueue.new count' cellSize'⟩).Reachable s)
    (hdown : s.worker.reader.state.flags.Down) (hsound : s.worker.reader.state.Sound) :
    let m := SelfDeleting.machine
      ⟨RingQueue.new count cellSize, parser, RingQueue.new count' cellSize'⟩
    (∃ final, m.Leads Worker.IsOwn s final ∧ final.deleted = true ∧ final.worker.guard = .done) ∧
      ∀ labels final, m.run labels s = some final →
        m.tally (fun state => state.worker.ownStep) labels s ≤ 24 := by
  intro m
  have hkept : s.worker.Kept Represents Represents := Worker.reachable_kept ring_simulates
    ring_simulates (Represents.new count cellSize hcount) (Represents.new count' cellSize' hcount')
    (SelfDeleting.reachable_worker h)
  constructor
  · obtain ⟨middle, hfirst, hreach, hpassed⟩ :=
      SelfDeleting.comes_to_callback ring_simulates ring_simulates h hkept hdown hsound
    obtain ⟨final, ⟨labels, hlabels, hrun⟩, hended⟩ := SelfDeleting.callback_ends hreach hpassed
    refine ⟨final, hfirst.trans ⟨labels, fun label hmem => .inr ?_, hrun⟩, hended⟩
    exact (hlabels label hmem).symm
  · intro labels final hrun
    have hpays : ∀ state following label,
        (m.Reachable state ∧ state.worker.reader.state.flags.Down) → True →
        m.step state label = some following →
          (m.Reachable following ∧ following.worker.reader.state.flags.Down) ∧
            following.worker.stepsLeft - following.deleted.toNat + state.worker.ownStep label ≤
              state.worker.stepsLeft - state.deleted.toNat := by
      rintro state following label ⟨hreach, hends⟩ - hstep
      have hworker := SelfDeleting.reachable_worker hreach
      obtain ⟨hends', hless⟩ := SelfDeleting.step_pays (SelfDeleting.reachable_inv hreach)
        (Worker.reachable_inv hworker) (Worker.reachable_returned hworker) hends hstep
      exact ⟨⟨hreach.step hstep, hends'⟩, hless⟩
    obtain ⟨-, hsteps⟩ := Machine.tally_le hpays ⟨h, hdown⟩ (fun _ _ => trivial) hrun
    have hleft := s.worker.stepsLeft_le
    have howner : s.worker.owner.rank ≤ 4 := by
      cases s.worker.owner <;> simp [OwnerPc.rank]
    split at hleft <;> omega

/-- The reading thread has failed while the writing thread is about to send a message. -/
theorem deletion_ends_writing : ∃ s final, s.worker.writer.state.pc = .write ∧
    (SelfDeleting.machine Worker.twoRings).Leads Worker.IsOwn s final ∧
      final.deleted = true := by
  have hrun : ((SelfDeleting.machine Worker.twoRings).run
      [.write (.producerPut ⟨[7], by decide⟩), .write .writer, .write .writer, .write .writer,
        .write .writer, .write .writer, .read .reader, .read .reader, .readBegins,
        .read (.readReturns .error), .read .reader, .read .reader] (.start Worker.twoRings)).map
        (fun s => (s.worker.writer.state.pc, s.worker.reader.state.flags.readThreadAlive,
          s.worker.reader.state.pc)) = some (.write, false, .done) := by
    decide +kernel
  obtain ⟨s, hs, hfields⟩ := Option.map_eq_some_iff.mp hrun
  obtain ⟨hwrite, hdead, hread⟩ : s.worker.writer.state.pc = .write ∧
      s.worker.reader.state.flags.readThreadAlive = false ∧ s.worker.reader.state.pc = .done := by
    simpa using hfields
  obtain ⟨⟨final, hleads, hdeleted, -⟩, -⟩ := deletion_ends (by decide) (by decide)
    (Machine.reachable_of_run _ rfl hs) (.inr (.inl hdead))
    ⟨by simp [hread], by simp [hread, ReadPc.Parses]⟩
  exact ⟨s, final, hwrite, hleads, hdeleted⟩

end Shovel.Workers
