import Shovel.Library.Calls
import Shovel.Local.LocalSocket
import Shovel.Workers.WriteThread

/-!
# Stopping the writing thread

A call of `write_data_to_source` takes time, so here it begins and returns in two
steps. The inner loop of `thread_write_to_source` repeats a call that returns
zero without a look at `m_stop_asked`. Once a stop is asked for, every call that
begins is one that the thread already stood at or one behind a return of zero
(`calls_balance`), so the calls end when the source does not return zero again.
-/

namespace Shovel.Workers

open Containers Transition

/-- The label is the return of `write_data_to_source`. -/
def WriteLabel.isReturn : WriteLabel → Bool
  | .writeReturns _ => true
  | .writer | .producerPut _ | .stop | .readerDies => false

/-- The thread is leaving its loop, or has left it. -/
def WritePc.Leaves : WritePc → Prop
  | .finish | .done | .terminated => True
  | _ => False

/-- The label is a return of zero. -/
def returnsZero : CallLabel WriteLabel → Bool
  | .other (.writeReturns writeStatus) => writeStatus == 0
  | _ => false

theorem eq_of_returnsZero {label : CallLabel WriteLabel} (h : returnsZero label = true) :
    label = .other (.writeReturns 0) := by
  unfold returnsZero at h
  split at h
  · rw [beq_iff_eq.mp h]
  · cases h

namespace WriteState

variable {Q : Type}

/-- The thread stands at a call of `write_data_to_source`. -/
def atWrite (s : WriteState Q) : Bool := decide (s.pc = .write)

section Machine

variable [QueueBase Q]

/-- All interleavings of a worker whose writing queue is `queue`, with calls that take time. -/
def callMachine (queue : Q) : Machine (Calling (WriteState Q)) (CallLabel WriteLabel) :=
  (machine queue).splitCalls atWrite WriteLabel.isReturn

end Machine

/-- One if the next thing that the thread does is to begin a call. -/
def aboutToCall (s : Calling (WriteState Q)) : Nat :=
  if s.state.atWrite && !s.busy then 1 else 0

variable [QueueBase Q] {queue : Q} {s s' : WriteState Q}

/-- What a step of the thread has to do with its calls: it tests both flags behind the `peek`. -/
theorem writerStep_towards (h : s.writerStep = some s') :
    (s'.pc = .write →
        s.flags.stopAsked = false ∧ ∃ getStatus, 0 < getStatus ∧ s.pc = .checkStop getStatus) ∧
      (∀ getStatus, s'.pc = .checkStop getStatus → s.flags.readThreadAlive = true) ∧
      (s.pc.Leaves → s'.pc.Leaves) := by
  cases hpc : s.pc with
  | head | checkAlive getStatus =>
      simp only [writerStep, hpc] at h
      obtain rfl := Option.some.inj h
      cases halive : s.flags.readThreadAlive <;> simp [WritePc.Leaves]
  | headStop =>
      simp only [writerStep, hpc] at h
      obtain rfl := Option.some.inj h
      cases hasked : s.flags.stopAsked <;> simp [WritePc.Leaves]
  | checkStop getStatus =>
      simp only [writerStep, hpc] at h
      obtain rfl := Option.some.inj h
      cases hasked : s.flags.stopAsked with
      | true => simp [WritePc.Leaves]
      | false => by_cases hpos : 0 < getStatus <;> simp [WritePc.Leaves, hpos]
  | peek | pop =>
      simp only [writerStep, hpc] at h
      split at h
      all_goals
        obtain rfl := Option.some.inj h
        simp [WritePc.Leaves]
  | finish =>
      simp only [writerStep, hpc] at h
      obtain rfl := Option.some.inj h
      simp [WritePc.Leaves]
  | write | done | terminated => simp [writerStep, hpc] at h

/-- After a stop the thread does not come to a call any more. -/
theorem writerStep_stopped (hstop : s.flags.stopAsked = true) (h : s.writerStep = some s') :
    s.pc ≠ .write ∧ s'.pc ≠ .write := by
  refine ⟨fun hpc => ?_, fun hwrite => ?_⟩
  · simp [writerStep, hpc] at h
  · cases hstop.symm.trans ((writerStep_towards h).1 hwrite).1

/-- After a stop only the return of a call changes whether the thread stands at one. -/
theorem step_stopped {label : WriteLabel} (hstop : s.flags.stopAsked = true)
    (h : s.step label = some s') :
    s'.flags.stopAsked = true ∧ (label.isReturn = false → s'.atWrite = s.atWrite) ∧
      ∀ writeStatus, label = .writeReturns writeStatus →
        s'.atWrite = (writeStatus == 0) := by
  cases label with
  | writer =>
      obtain ⟨-, -, hasked⟩ := writerStep_frame h
      obtain ⟨hbefore, hafter⟩ := writerStep_stopped hstop h
      exact ⟨hasked.trans hstop, fun _ => by simp [atWrite, hbefore, hafter], by simp⟩
  | writeReturns writeStatus =>
      obtain ⟨hpc, rfl⟩ := writeReturns_cases h
      refine ⟨?_, by simp [WriteLabel.isReturn], fun _ hlabel => ?_⟩
      · rw [(s.writeReturns_frame writeStatus).2]
        exact hstop
      · obtain rfl := WriteLabel.writeReturns.inj hlabel
        unfold writeReturns
        repeat' split
        all_goals simp_all [atWrite]
  | producerPut m =>
      obtain ⟨hpc, hflags⟩ := producerPut_frame h
      exact ⟨by rw [hflags]; exact hstop, fun _ => by rw [atWrite, atWrite, hpc], by simp⟩
  | stop =>
      obtain rfl := Option.some.inj h
      exact ⟨rfl, fun _ => rfl, by simp⟩
  | readerDies =>
      obtain rfl := Option.some.inj h
      exact ⟨hstop, fun _ => rfl, by simp⟩

section Balance

variable {s s' : Calling (WriteState Q)}

/-- A thread that is about to begin a call can begin it. -/
theorem aboutToCall_cases (queue : Q) (s : Calling (WriteState Q)) :
    aboutToCall s = 0 ∨
      aboutToCall s = 1 ∧ (callMachine queue).step s .begins = some { s with busy := true } := by
  by_cases h : s.state.atWrite && !s.busy
  · exact .inr ⟨if_pos h, if_pos h⟩
  · exact .inl (if_neg h)

/-- What a step after a stop does to the call that the thread is about to begin. -/
theorem callStep_balance {label : CallLabel WriteLabel} (hstop : s.state.flags.stopAsked = true)
    (h : (callMachine queue).step s label = some s') :
    s'.state.flags.stopAsked = true ∧
      aboutToCall s + (if returnsZero label then 1 else 0) =
        (if label.isBegin then 1 else 0) + aboutToCall s' := by
  cases label with
  | begins =>
      obtain ⟨hat, hidle, rfl⟩ := Machine.splitCalls_begins h
      exact ⟨hstop, by simp [aboutToCall, hat, hidle, returnsZero, CallLabel.isBegin]⟩
  | other label =>
      obtain ⟨hreturn, hstep, hmark⟩ := Machine.splitCalls_other h
      obtain ⟨hstop', hsame, hback⟩ := step_stopped hstop hstep
      refine ⟨hstop', ?_⟩
      cases label with
      | writeReturns writeStatus =>
          have hbusy := hreturn rfl
          have hat := hback writeStatus rfl
          simp [aboutToCall, returnsZero, CallLabel.isBegin, hbusy, hmark, hat,
            WriteLabel.isReturn]
      | writer | producerPut m | stop | readerDies =>
          have hat := hsame rfl
          simp [aboutToCall, returnsZero, CallLabel.isBegin, hmark, hat, WriteLabel.isReturn]

/-- After a stop the calls that begin, one that is about to begin included, are the one that was
about to begin when the stop was asked for, and one behind each return of zero. -/
theorem calls_balance {labels : List (CallLabel WriteLabel)}
    (hstop : s.state.flags.stopAsked = true)
    (h : (callMachine queue).run labels s = some s') :
    aboutToCall s + labels.countP returnsZero = begun labels + aboutToCall s' := by
  induction labels generalizing s with
  | nil =>
      obtain rfl := Option.some.inj h
      simp [begun]
  | cons label rest ih =>
      obtain ⟨middle, hstep, hrest⟩ := Option.bind_eq_some_iff.mp h
      obtain ⟨hstop', hfirst⟩ := callStep_balance hstop hstep
      have hlater := ih hstop' hrest
      cases label with
      | begins =>
          rw [begun_begins, List.countP_cons_of_neg (by simp [returnsZero])]
          simp only [returnsZero, CallLabel.isBegin, if_true, Bool.false_eq_true, if_false]
            at hfirst
          omega
      | other label =>
          rw [begun_other, List.countP_cons]
          simp only [CallLabel.isBegin, Bool.false_eq_true, if_false] at hfirst
          omega

theorem run_stopped {labels : List (CallLabel WriteLabel)}
    (hstop : s.state.flags.stopAsked = true) (h : (callMachine queue).run labels s = some s') :
    s'.state.flags.stopAsked = true := by
  have hkept : ∀ s s' label, s.state.flags.stopAsked = true →
      (callMachine queue).step s label = some s' → s'.state.flags.stopAsked = true :=
    fun _ _ _ hasked hstep => (callStep_balance hasked hstep).1
  exact Machine.run_invariant (fun s => s.state.flags.stopAsked = true) hkept hstop h

/-- Behind a call that begins, each return of zero leads to another one. -/
theorem calls_behind_begins {earlier later : List (CallLabel WriteLabel)}
    (hstop : s.state.flags.stopAsked = true)
    (h : (callMachine queue).run (earlier ++ .begins :: later) s = some s') :
    begun (earlier ++ .begins :: later) + aboutToCall s' =
      begun earlier + 1 + later.countP returnsZero := by
  rw [Machine.run_append] at h
  obtain ⟨middle, hearlier, hrest⟩ := Option.bind_eq_some_iff.mp h
  obtain ⟨inside, hbegins, hlater⟩ := Option.bind_eq_some_iff.mp hrest
  have hstop' := (callStep_balance (run_stopped hstop hearlier) hbegins).1
  have hbalance := calls_balance hstop' hlater
  have hinside : aboutToCall inside = 0 := by
    obtain ⟨-, -, rfl⟩ := Machine.splitCalls_begins hbegins
    simp [aboutToCall]
  rw [begun_append, begun_begins]
  omega

end Balance

end WriteState

open WriteState Local

/-- A return of zero and the next call, a number of times. -/
def repeatedCalls : Nat → List (CallLabel WriteLabel)
  | 0 => []
  | n + 1 => .other (.writeReturns 0) :: .begins :: repeatedCalls n

/-- Every return of zero is followed by one call. -/
theorem begun_repeatedCalls (n : Nat) : begun (repeatedCalls n) = n := by
  induction n with
  | zero => rfl
  | succ n ih => simpa [repeatedCalls] using ih

/-- As long as a call returns zero the thread does nothing but repeat it, with the same array and
whatever the flags are. -/
theorem repeatedCalls_stay {Q : Type} [QueueBase Q] {queue : Q} {s : Calling (WriteState Q)}
    (hat : s.state.pc = .write) (hbusy : s.busy = true) (n : Nat) :
    (callMachine queue).run (repeatedCalls n) s = some s := by
  have hreturn : (callMachine queue).step s (.other (.writeReturns 0)) =
      some { s with busy := false } := by
    simp [callMachine, Machine.splitCalls, machine, step, writeReturns, WriteLabel.isReturn, hat,
      hbusy]
  have hbegin : (callMachine queue).step { s with busy := false } .begins = some s := by
    simp [callMachine, Machine.splitCalls, atWrite, hat, ← hbusy]
  induction n with
  | zero => rfl
  | succ n ih =>
      exact Option.bind_eq_some_iff.mpr
        ⟨_, hreturn, Option.bind_eq_some_iff.mpr ⟨s, hbegin, ih⟩⟩

/-- A worker with a local socket whose peer is absent repeats its call: what the socket reports is
the zero that leads to the next call, in every round. -/
theorem absent_peer_repeats {Q : Type} [QueueBase Q] {queue : Q} {s : Calling (WriteState Q)}
    {socket : LocalSocket} {result : Network.SendResult} (hopen : socket.fd ≠ 0)
    (habsent : PeerAbsent result) (hat : s.state.pc = .write) (hbusy : s.busy = true) (n : Nat) :
    (LocalSocketWorker.writeDataToSource ⟨some socket⟩ s.state.arr result).ret = 0 ∧
      (callMachine queue).run (repeatedCalls n) s = some s := by
  rw [writeDataToSource_absent hopen habsent]
  exact ⟨rfl, repeatedCalls_stay hat hbusy n⟩

/-- No call that begins in these labels returns zero in them. -/
def NoCallReturnsZero (labels : List (CallLabel WriteLabel)) : Prop :=
  ∀ earlier later, labels = earlier ++ .begins :: later → .other (.writeReturns 0) ∉ later

/-- Once a stop is asked for, at most one more call of `write_data_to_source` begins, one that the
thread is about to begin included, exactly when no call that begins afterwards returns zero. If one
does, the run goes on to a second call. -/
theorem stop_respected_iff {Q : Type} [QueueBase Q] {queue : Q} {s s' : Calling (WriteState Q)}
    {labels : List (CallLabel WriteLabel)} (hstop : s.state.flags.stopAsked = true)
    (hrun : (callMachine queue).run labels s = some s') :
    (begun labels + aboutToCall s' ≤ 1 ↔ NoCallReturnsZero labels) ∧
      (¬ NoCallReturnsZero labels → ∃ more s'',
        (callMachine queue).run (labels ++ more) s = some s'' ∧ 2 ≤ begun (labels ++ more)) := by
  have hzero : ¬ NoCallReturnsZero labels → 2 ≤ begun labels + aboutToCall s' := by
    intro hreturns
    simp only [NoCallReturnsZero, not_forall, not_not] at hreturns
    obtain ⟨earlier, later, rfl, hmem⟩ := hreturns
    have hpos : 0 < later.countP returnsZero := List.countP_pos_iff.mpr ⟨_, hmem, rfl⟩
    have hcalls := calls_behind_begins hstop hrun
    omega
  refine ⟨⟨fun hone => ?_, fun hnone => ?_⟩, fun hreturns => ?_⟩
  · by_contra hreturns
    have htwo := hzero hreturns
    omega
  · by_cases hbegins : .begins ∈ labels
    · -- no call but the first one begins, for none returns zero behind it
      obtain ⟨earlier, later, rfl, hnot⟩ := List.eq_append_cons_of_mem hbegins
      have hnever : later.countP returnsZero = 0 :=
        List.countP_eq_zero.mpr fun label hmem hlabel => by
          rw [eq_of_returnsZero hlabel] at hmem
          exact hnone earlier later rfl hmem
      have hfirst : begun earlier = 0 := begun_eq_zero_iff.mpr hnot
      have hcalls := calls_behind_begins hstop hrun
      omega
    · have hnone := begun_eq_zero_iff.mpr hbegins
      obtain hnot | ⟨hone, -⟩ := aboutToCall_cases queue s'
      all_goals omega
  · have htwo := hzero hreturns
    obtain hnot | ⟨hone, hstep⟩ := aboutToCall_cases queue s'
    · exact ⟨[], s', by rwa [List.append_nil], by rw [List.append_nil]; omega⟩
    · refine ⟨[.begins], { s' with busy := true }, ?_, ?_⟩
      · rw [Machine.run_append]
        refine Option.bind_eq_some_iff.mpr ⟨s', hrun, ?_⟩
        exact Option.bind_eq_some_iff.mpr ⟨_, hstep, rfl⟩
      · rw [begun_append, begun_begins, begun_nil]
        omega

/-- A stop while the thread is about to begin a call; the call takes the message. -/
theorem stop_respected_iff_taken : ∃ (s s' : Calling (WriteState RingQueue))
    (labels : List (CallLabel WriteLabel)),
    (callMachine (RingQueue.new 1 4)).Reachable s ∧ s.state.flags.stopAsked = true ∧
      (callMachine (RingQueue.new 1 4)).run labels s = some s' ∧ s'.state.pc = .done ∧
      begun labels + aboutToCall s' ≤ 1 := by
  let labels : List (CallLabel WriteLabel) := [.begins, .other (.writeReturns 1), .other .writer,
    .other .writer, .other .writer, .other .writer]
  have hrun : ((callMachine (RingQueue.new 1 4)).run
      [.other (.producerPut ⟨[7], by decide⟩), .other .writer, .other .writer, .other .writer,
        .other .writer, .other .writer, .other .stop]
      ⟨start (RingQueue.new 1 4), false⟩).bind (fun s =>
        ((callMachine (RingQueue.new 1 4)).run labels s).map fun s' =>
          (s.state.flags.stopAsked, s'.state.pc)) = some (true, .done) := by
    decide +kernel
  obtain ⟨s, hs, hrest⟩ := Option.bind_eq_some_iff.mp hrun
  obtain ⟨s', hs', hfields⟩ := Option.map_eq_some_iff.mp hrest
  obtain ⟨hstop, hdone⟩ : s.state.flags.stopAsked = true ∧ s'.state.pc = .done := by
    simpa using hfields
  refine ⟨s, s', labels, Machine.reachable_of_run _ (by exact ⟨rfl, rfl⟩) hs, hstop, hs', hdone, ?_⟩
  refine (stop_respected_iff hstop hs').1.mpr fun earlier later hlabels hzero => ?_
  have hmem : CallLabel.other (WriteLabel.writeReturns 0) ∈ labels := by
    rw [hlabels]
    simp [hzero]
  simp [labels] at hmem

/-- A stop while the thread is about to write to an absent peer: any number of calls follow. -/
theorem stop_ignored : ∃ labels s,
    (callMachine (RingQueue.new 1 4)).run labels ⟨start (RingQueue.new 1 4), false⟩ = some s ∧
      s.state.flags.stopAsked = true ∧
      ∀ n, ∃ more s', (callMachine (RingQueue.new 1 4)).run more s = some s' ∧
        begun more = n + 1 := by
  have hrun : ((callMachine (RingQueue.new 1 4)).run
      [.other (.producerPut ⟨[7], by decide⟩), .other .writer, .other .writer, .other .writer,
        .other .writer, .other .writer, .other .stop]
      ⟨start (RingQueue.new 1 4), false⟩).map (fun s =>
        (s.state.flags.stopAsked, s.state.pc, s.busy)) = some (true, .write, false) := by
    decide +kernel
  obtain ⟨s, hs, hfields⟩ := Option.map_eq_some_iff.mp hrun
  obtain ⟨hstop, hat, hbusy⟩ : s.state.flags.stopAsked = true ∧ s.state.pc = .write ∧
      s.busy = false := by simpa using hfields
  refine ⟨_, s, hs, hstop, fun n => ⟨.begins :: repeatedCalls n, { s with busy := true }, ?_, ?_⟩⟩
  · have hbegin : (callMachine (RingQueue.new 1 4)).step s .begins =
        some { s with busy := true } := by
      simp [callMachine, Machine.splitCalls, atWrite, hat, hbusy]
    have hrest : (callMachine (RingQueue.new 1 4)).run (repeatedCalls n) { s with busy := true } =
        some { s with busy := true } :=
      repeatedCalls_stay (s := { s with busy := true }) hat rfl n
    exact Option.bind_eq_some_iff.mpr ⟨_, hbegin, hrest⟩
  · rw [begun_begins, begun_repeatedCalls]

end Shovel.Workers
