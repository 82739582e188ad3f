import Mathlib.Data.List.Basic
import Shovel.Network.TCPServer

/-!
# The accept loops

`_thread_unblocked_accept` and `epoll_loop` as functions of what the other
threads store and of what the system returns, one pass after the other. A list
of passes may end before the loop does.

The unblocked loop looks at `errno` before it looks at the descriptor, so from
the first failure with `EAGAIN` on it drops what it accepts. The loop over the
events compares an unsigned index with a signed count, so after a failed wait it
runs through the whole array and beyond.
-/

namespace Shovel.Network

/-! ## The unblocked loop -/

/-- A pass of `_thread_unblocked_accept`: the flag and the master socket as they are read, and what
`accept` returns if it is called. -/
structure UnblockedPass where
  enable : Bool
  masterSocket : Int
  outcome : AcceptOutcome

/-- What follows a call of `accept` in the unblocked loop. -/
inductive AfterAccept where
  | retry
  | leave
  | callback (slaveSocket : Int)
  deriving DecidableEq

/-- The two tests after `accept`, with the `errno` of the thread. -/
def unblockedAccept (errno : Nat) (outcome : AcceptOutcome) : AfterAccept :=
  let errno := outcome.errnoAfter errno
  if errno = EAGAIN ∨ errno = EWOULDBLOCK then .retry
  else if outcome.slaveSocket = -1 then .leave
  else .callback outcome.slaveSocket

/-- What `accept` returned in the unblocked loop, the arguments of
`call_accepted_callback_function`, and whether the loop has ended. -/
structure UnblockedRun where
  returned : List AcceptOutcome
  handed : List Int
  ended : Bool
  deriving DecidableEq

/-- The same run after one more outcome at the front. -/
def UnblockedRun.after (outcome : AcceptOutcome) (handed : List Int) (run : UnblockedRun) :
    UnblockedRun :=
  { run with returned := outcome :: run.returned, handed := handed ++ run.handed }

/-- `_thread_unblocked_accept`. -/
def threadUnblockedAccept (errno : Nat) : List UnblockedPass → UnblockedRun
  | [] => ⟨[], [], false⟩
  | pass :: rest =>
      if pass.enable then
        if pass.masterSocket ≤ 0 then threadUnblockedAccept errno rest
        else
          -- the loop goes on with the `errno` that the call has left
          match unblockedAccept errno pass.outcome with
          | .retry =>
              (threadUnblockedAccept (pass.outcome.errnoAfter errno) rest).after pass.outcome []
          | .leave => ⟨[pass.outcome], [], true⟩
          | .callback slaveSocket =>
              (threadUnblockedAccept (pass.outcome.errnoAfter errno) rest).after pass.outcome
                [slaveSocket]
      else ⟨[], [], true⟩

namespace UnblockedPass

/-- `accept` is called in this pass. -/
def callsAccept (pass : UnblockedPass) : Bool := pass.enable && decide (0 < pass.masterSocket)

/-- The loop goes on after this pass: the flag was set, and `accept` did not fail except for want
of a connection. -/
def goesOn (pass : UnblockedPass) : Bool :=
  pass.enable &&
    (!pass.callsAccept || pass.outcome.connection.isSome || pass.outcome.wouldBlock)

/-- What `accept` returns in the passes before the one that ends the loop. -/
def outcomes (passes : List UnblockedPass) : List AcceptOutcome :=
  ((passes.takeWhile goesOn).filter callsAccept).map outcome

end UnblockedPass

/-- Every connection that `accept` returned went to `call_accepted_callback_function`, once and in
order. -/
def UnblockedRun.HandsOver (run : UnblockedRun) : Prop :=
  run.handed = run.returned.filterMap AcceptOutcome.connection

instance (run : UnblockedRun) : Decidable run.HandsOver :=
  inferInstanceAs (Decidable (_ = _))

/-- No connection comes after a failure with `EAGAIN`. -/
def NoConnectionAfterWouldBlock (outcomes : List AcceptOutcome) : Prop :=
  outcomes.Pairwise fun first later => first.wouldBlock = true → later.connection = none

theorem noConnectionAfterWouldBlock_cons {first : AcceptOutcome} {later : List AcceptOutcome} :
    NoConnectionAfterWouldBlock (first :: later) ↔
      (first.wouldBlock = true → ∀ outcome ∈ later, outcome.connection = none) ∧
        NoConnectionAfterWouldBlock later := by
  simp only [NoConnectionAfterWouldBlock, List.pairwise_cons]
  tauto

/-- What a pass adds to the run and to the outcomes before the loop's end, when the thread has this
`errno` and these passes follow. -/
inductive UnblockedCase (errno : Nat) (rest : List UnblockedPass) :
    UnblockedRun → List AcceptOutcome → Prop where
  | ends : UnblockedCase errno rest ⟨[], [], true⟩ []
  | skips :
      UnblockedCase errno rest (threadUnblockedAccept errno rest) (UnblockedPass.outcomes rest)
  | leaves (e : Nat) : UnblockedCase errno rest ⟨[.failed e], [], true⟩ []
  | blocks {e : Nat} (hblocks : (AcceptOutcome.failed e).wouldBlock = true) :
      UnblockedCase errno rest ((threadUnblockedAccept e rest).after (.failed e) [])
        (.failed e :: UnblockedPass.outcomes rest)
  | drops (d : { d : Int // 0 < d }) (hblocked : (AcceptOutcome.failed errno).wouldBlock = true) :
      UnblockedCase errno rest ((threadUnblockedAccept errno rest).after (.accepted d) [])
        (.accepted d :: UnblockedPass.outcomes rest)
  | hands (d : { d : Int // 0 < d }) (hfree : (AcceptOutcome.failed errno).wouldBlock = false) :
      UnblockedCase errno rest ((threadUnblockedAccept errno rest).after (.accepted d) [↑d])
        (.accepted d :: UnblockedPass.outcomes rest)

/-- The tests after `accept` see the outcome through the `errno` that it leaves. -/
theorem unblockedAccept_eq (errno : Nat) (outcome : AcceptOutcome) :
    unblockedAccept errno outcome =
      if (AcceptOutcome.failed (outcome.errnoAfter errno)).wouldBlock then .retry
      else match outcome with
        | .accepted d => .callback d
        | .failed _ => .leave := by
  cases outcome with
  | accepted d =>
      have hne : (d : Int) ≠ -1 := by
        have hpos := d.property
        omega
      simp [unblockedAccept, AcceptOutcome.wouldBlock, AcceptOutcome.slaveSocket, hne]
  | failed e => simp [unblockedAccept, AcceptOutcome.wouldBlock, AcceptOutcome.slaveSocket]

theorem UnblockedPass.outcomes_cons (pass : UnblockedPass) (rest : List UnblockedPass) :
    outcomes (pass :: rest) =
      if pass.goesOn then
        if pass.callsAccept then pass.outcome :: outcomes rest else outcomes rest
      else [] := by
  simp only [outcomes, List.takeWhile_cons]
  cases pass.goesOn with
  | false => rfl
  | true => cases hcalls : pass.callsAccept <;> simp [hcalls]

/-- Every pass is one of these cases. -/
theorem unblocked_cases (errno : Nat) (pass : UnblockedPass) (rest : List UnblockedPass) :
    UnblockedCase errno rest (threadUnblockedAccept errno (pass :: rest))
      (UnblockedPass.outcomes (pass :: rest)) := by
  obtain ⟨enable, masterSocket, outcome⟩ := pass
  rw [UnblockedPass.outcomes_cons, threadUnblockedAccept, unblockedAccept_eq]
  cases enable with
  | false => exact .ends
  | true =>
      by_cases hsocket : masterSocket ≤ 0
      · -- an error message and `continue`
        have hskips : UnblockedPass.callsAccept ⟨true, masterSocket, outcome⟩ = false := by
          simpa [UnblockedPass.callsAccept] using hsocket
        simpa [UnblockedPass.goesOn, hskips, hsocket] using UnblockedCase.skips
      · have hcalls : UnblockedPass.callsAccept ⟨true, masterSocket, outcome⟩ = true := by
          simpa [UnblockedPass.callsAccept] using hsocket
        simp only [UnblockedPass.goesOn, hcalls, hsocket]
        cases outcome with
        | accepted d =>
            by_cases hblocked : (AcceptOutcome.failed errno).wouldBlock = true
            · simpa [AcceptOutcome.errnoAfter, hblocked] using
                UnblockedCase.drops d hblocked
            · simpa [AcceptOutcome.errnoAfter, hblocked] using
                UnblockedCase.hands d (Bool.eq_false_iff.mpr hblocked)
        | failed e =>
            by_cases hblocks : (AcceptOutcome.failed e).wouldBlock = true
            · simpa [AcceptOutcome.errnoAfter, hblocks] using UnblockedCase.blocks hblocks
            · simpa [AcceptOutcome.errnoAfter, hblocks] using
                UnblockedCase.leaves e

/-- Once `errno` is `EAGAIN`, no descriptor reaches the callback any more. -/
theorem handed_of_blocked {errno : Nat} (passes : List UnblockedPass)
    (hblocked : (AcceptOutcome.failed errno).wouldBlock = true) :
    (threadUnblockedAccept errno passes).handed = [] := by
  induction passes generalizing errno with
  | nil => rfl
  | cons pass rest ih =>
      have hcase := unblocked_cases errno pass rest
      generalize threadUnblockedAccept errno (pass :: rest) = run at hcase ⊢
      generalize UnblockedPass.outcomes (pass :: rest) = outcomes at hcase
      cases hcase with
      | ends | leaves e => rfl
      | skips => exact ih hblocked
      | blocks hblocks => exact ih hblocks
      | drops d _ => exact ih hblocked
      | hands d hfree => simp [hfree] at hblocked

/-- The unblocked loop hands over every connection that `accept` returns exactly when none of them
comes after a failure with `EAGAIN`, one that the thread's `errno` still shows from before
included. -/
theorem threadUnblockedAccept_handsOver_iff (errno : Nat) (passes : List UnblockedPass) :
    (threadUnblockedAccept errno passes).HandsOver ↔
      NoConnectionAfterWouldBlock (.failed errno :: UnblockedPass.outcomes passes) := by
  induction passes generalizing errno with
  | nil => simp [threadUnblockedAccept, UnblockedRun.HandsOver, NoConnectionAfterWouldBlock,
      UnblockedPass.outcomes]
  | cons pass rest ih =>
      have hcase := unblocked_cases errno pass rest
      generalize threadUnblockedAccept errno (pass :: rest) = run at hcase ⊢
      generalize UnblockedPass.outcomes (pass :: rest) = outcomes at hcase ⊢
      cases hcase with
      | ends => simp [UnblockedRun.HandsOver, NoConnectionAfterWouldBlock]
      | leaves e => simp [UnblockedRun.HandsOver, NoConnectionAfterWouldBlock]
      | skips => exact ih errno
      | @blocks e hblocks =>
          have hafter : ((threadUnblockedAccept e rest).after (.failed e) []).HandsOver ↔
              (threadUnblockedAccept e rest).HandsOver := by
            simp [UnblockedRun.HandsOver, UnblockedRun.after, List.filterMap_cons]
          rw [hafter, ih e]
          -- the later failure forbids as much as the `errno` before it
          simp only [noConnectionAfterWouldBlock_cons, hblocks, List.forall_mem_cons,
            AcceptOutcome.connection_failed, true_and, forall_const]
          tauto
      | drops d hblocked =>
          have hnothing := handed_of_blocked rest hblocked
          simp [UnblockedRun.HandsOver, UnblockedRun.after, noConnectionAfterWouldBlock_cons,
            hnothing, hblocked]
      | hands d hfree =>
          have hafter : ((threadUnblockedAccept errno rest).after (.accepted d) [↑d]).HandsOver ↔
              (threadUnblockedAccept errno rest).HandsOver := by
            simp [UnblockedRun.HandsOver, UnblockedRun.after]
          rw [hafter, ih errno]
          simp [noConnectionAfterWouldBlock_cons, hfree]

/-- A new thread finds no connection at first; it drops the one that arrives next. -/
theorem threadUnblockedAccept_drops :
    ¬ (threadUnblockedAccept 0
      [⟨true, 3, .failed EAGAIN⟩, ⟨true, 3, .accepted ⟨5, by decide⟩⟩]).HandsOver := by
  decide

/-! ## The loop over the events -/

/-- `EPOLL_MAXEVENTS`. -/
def EPOLL_MAXEVENTS : Nat := 32

/-- A wait of `epoll_loop`: the flag before and after it, the master socket, what `epoll_wait`
returns, the descriptors that stand in `Events`, and what `accept` returns if it is called for the
event at an index. The entries from the count on are what was there before. -/
structure EpollPass where
  enable : Bool
  stillEnabled : Bool
  masterSocket : Int
  count : Int
  events : List Int
  accept : Nat → AcceptOutcome
  count_legal : count = -1 ∨ (0 ≤ count ∧ count ≤ EPOLL_MAXEVENTS)
  events_length : events.length = EPOLL_MAXEVENTS

/-- The conversion of `N` in `i < N`, where `i` is a `uint32_t`. -/
def unsignedCount (count : Int) : Nat := (count % UInt32.size).toNat

/-- The loop over the events of one wait: the indices into `Events`, what `accept` returned, the
descriptors given to the callback, and whether an index went beyond the array. -/
structure EventsRun where
  indices : List Nat
  returned : List AcceptOutcome
  handed : List Int
  beyond : Bool

/-- The same run after one more event at the front. -/
def EventsRun.after (index : Nat) (returned : List AcceptOutcome) (run : EventsRun) : EventsRun :=
  ⟨index :: run.indices, returned ++ run.returned,
    returned.flatMap (fun outcome => callAcceptedCallback outcome.slaveSocket) ++ run.handed,
    run.beyond⟩

namespace EpollPass

/-- `for (uint32_t i = 0; i < N; i++)` from an index on, with the rest of the array. An index
beyond the array has no entry to read. -/
def eventsLoop (pass : EpollPass) (i : Nat) : List Int → EventsRun
  | [] =>
      if i < unsignedCount pass.count then ⟨[i], [], [], true⟩ else ⟨[], [], [], false⟩
  | descriptor :: rest =>
      if i < unsignedCount pass.count then
        (pass.eventsLoop (i + 1) rest).after i
          (if descriptor = pass.masterSocket then [pass.accept i] else [])
      else ⟨[], [], [], false⟩

/-- The loop over the events after a wait. -/
def handleEvents (pass : EpollPass) : EventsRun := pass.eventsLoop 0 pass.events

/-- The indices of the events that `epoll_wait` reported. -/
def reported (pass : EpollPass) : List Nat := List.range pass.count.toNat

/-- What `accept` returns for the reported events on the master socket. -/
def reportedOutcomes (pass : EpollPass) : List AcceptOutcome :=
  (pass.reported.filter fun i => pass.events[i]? = some pass.masterSocket).map pass.accept

end EpollPass

/-- The loop over the events of a wait used the indices of reported events only, called `accept`
once for each reported event on the master socket, and gave every connection to the callback. -/
def EventsRun.HandlesReported (run : EventsRun) (pass : EpollPass) : Prop :=
  (∀ i ∈ run.indices, (i : Int) < pass.count) ∧ run.returned = pass.reportedOutcomes ∧
    run.handed = pass.reportedOutcomes.filterMap AcceptOutcome.connection

/-- The waits of `epoll_loop` with what the loop over the events did, and whether the loop has
ended. -/
structure EpollRun where
  waits : List (EpollPass × EventsRun)
  ended : Bool

/-- `epoll_loop`. An index beyond the array ends what can be said about it. -/
def epollLoop : List EpollPass → EpollRun
  | [] => ⟨[], false⟩
  | pass :: rest =>
      if pass.enable then
        if pass.stillEnabled then
          let run := pass.handleEvents
          if run.beyond then ⟨[(pass, run)], false⟩
          else { epollLoop rest with waits := (pass, run) :: (epollLoop rest).waits }
        else ⟨[], true⟩
      else ⟨[], true⟩

/-- The events of this wait are handled. -/
def EpollPass.handled (pass : EpollPass) : Bool := pass.enable && pass.stillEnabled

section

variable (pass : EpollPass)

/-- A count of events keeps its value when it is converted. -/
theorem unsignedCount_of_nonneg {count : Int} (hlow : 0 ≤ count) (hhigh : count ≤ EPOLL_MAXEVENTS) :
    unsignedCount count = count.toNat := by
  simp only [EPOLL_MAXEVENTS] at hhigh
  simp only [unsignedCount, UInt32.size]
  omega

/-- The callback is given the connections that `accept` returned. -/
theorem EpollPass.eventsLoop_handed (i : Nat) (entries : List Int) :
    (pass.eventsLoop i entries).handed =
      (pass.eventsLoop i entries).returned.filterMap AcceptOutcome.connection := by
  induction entries generalizing i with
  | nil => unfold eventsLoop; split <;> rfl
  | cons descriptor rest ih =>
      unfold eventsLoop
      split
      · simp only [EventsRun.after, ih, List.filterMap_append, callAcceptedCallback_slaveSocket]
        split
        · cases pass.accept i <;> rfl
        · rfl
      · rfl

/-- With a count of events, the loop runs through the reported ones. -/
theorem EpollPass.eventsLoop_eq (hcount : unsignedCount pass.count ≤ EPOLL_MAXEVENTS) (i : Nat)
    (entries : List Int) (hentries : pass.events.drop i = entries)
    (hi : i ≤ unsignedCount pass.count) :
    let indices := List.range' i (unsignedCount pass.count - i)
    (pass.eventsLoop i entries).indices = indices ∧
      (pass.eventsLoop i entries).returned =
        (indices.filter fun j => pass.events[j]? = some pass.masterSocket).map pass.accept ∧
      (pass.eventsLoop i entries).beyond = false := by
  induction entries generalizing i with
  | nil =>
      have hlength := pass.events_length
      have hend : pass.events.length ≤ i := List.drop_eq_nil_iff.mp hentries
      have hlast : i = unsignedCount pass.count := by omega
      simp [eventsLoop, ← hlast]
  | cons descriptor rest ih =>
      have hdescriptor : pass.events[i]? = some descriptor := by
        rw [← List.head?_drop, hentries, List.head?_cons]
      have hrest : pass.events.drop (i + 1) = rest := by
        rw [← List.tail_drop, hentries, List.tail_cons]
      by_cases hmore : i < unsignedCount pass.count
      · -- the event at `i` is handled, and the loop goes on behind it
        obtain ⟨hindices, hreturned, hbeyond⟩ := ih (i + 1) hrest hmore
        have hrange : List.range' i (unsignedCount pass.count - i) =
            i :: List.range' (i + 1) (unsignedCount pass.count - (i + 1)) := by
          rw [← List.range'_succ]
          congr 1
          omega
        simp only [eventsLoop, if_pos hmore, EventsRun.after, hrange, hindices, hreturned, hbeyond,
          List.filter_cons, hdescriptor, true_and, and_true]
        by_cases hmaster : descriptor = pass.masterSocket <;> simp [hmaster]
      · have hlast : unsignedCount pass.count - i = 0 := by omega
        simp [eventsLoop, hmore, hlast]

/-- A wait with a count of events is handled as reported. -/
theorem EpollPass.handlesReported_of_count (hcount : pass.count ≠ -1) :
    pass.handleEvents.HandlesReported pass ∧ pass.handleEvents.beyond = false := by
  rcases pass.count_legal with hfailed | ⟨hlow, hhigh⟩
  · exact absurd hfailed hcount
  · have hunsigned := unsignedCount_of_nonneg hlow hhigh
    obtain ⟨hindices, hreturned, hbeyond⟩ :=
      pass.eventsLoop_eq (by omega) 0 pass.events rfl (Nat.zero_le _)
    have hreported : pass.handleEvents.returned = pass.reportedOutcomes := by
      rw [handleEvents, hreturned, hunsigned, reportedOutcomes, reported, Nat.sub_zero,
        List.range_eq_range']
    refine ⟨⟨?_, hreported, ?_⟩, hbeyond⟩
    · intro i hi
      rw [handleEvents, hindices, hunsigned, List.mem_range'_1] at hi
      omega
    · rw [← hreported]
      exact pass.eventsLoop_handed 0 pass.events

/-- After a failed wait the loop starts with an index that no event has. -/
theorem EpollPass.not_handlesReported (hfailed : pass.count = -1) :
    ¬ pass.handleEvents.HandlesReported pass := by
  rintro ⟨hindices, -, -⟩
  have hlength := pass.events_length
  cases hevents : pass.events with
  | nil => simp [hevents, EPOLL_MAXEVENTS] at hlength
  | cons descriptor rest =>
      -- converted to `uint32_t`, −1 is the largest number there is
      have hmany : 0 < unsignedCount pass.count := by
        rw [hfailed]
        decide
      have hzero := hindices 0 (by simp [handleEvents, eventsLoop, hevents, hmany, EventsRun.after])
      omega

end

/-- `epoll_loop` touches only the events it was given, calls `accept` once for each of them on the
master socket and gives every connection to the callback once, exactly when none of the waits whose
result it looks at fails. -/
theorem epollLoop_handlesReported_iff (passes : List EpollPass) :
    (∀ wait ∈ (epollLoop passes).waits, wait.2.HandlesReported wait.1) ↔
      ∀ pass ∈ passes.takeWhile EpollPass.handled, pass.count ≠ -1 := by
  induction passes with
  | nil => simp [epollLoop]
  | cons pass rest ih =>
      rw [List.takeWhile_cons]
      cases henable : pass.enable with
      | false => simp [epollLoop, EpollPass.handled, henable]
      | true =>
          cases hstill : pass.stillEnabled with
          | false => simp [epollLoop, EpollPass.handled, henable, hstill]
          | true =>
              have hhandled : pass.handled = true := by simp [EpollPass.handled, henable, hstill]
              simp only [epollLoop, henable, hstill, hhandled, if_true, List.forall_mem_cons]
              by_cases hfailed : pass.count = -1
              · have hwrong := pass.not_handlesReported hfailed
                split <;> simp [hwrong, hfailed]
              · obtain ⟨hright, hinside⟩ := pass.handlesReported_of_count hfailed
                simp only [hinside, Bool.false_eq_true, if_false, List.forall_mem_cons, ih, hright,
                  true_and, ne_eq, hfailed, not_false_eq_true]

/-- A wait that fails: the loop runs over the stale entries and reads one more behind them. -/
theorem epollLoop_failed_wait :
    ∃ pass : EpollPass, pass.count = -1 ∧
      (∃ wait ∈ (epollLoop [pass]).waits,
        wait.2.indices = List.range 33 ∧ wait.2.beyond = true) ∧
      ¬ ∀ wait ∈ (epollLoop [pass]).waits, wait.2.HandlesReported wait.1 := by
  let pass : EpollPass :=
    ⟨true, true, 3, -1, List.replicate 32 3, fun _ => .accepted ⟨5, by decide⟩, .inl rfl, rfl⟩
  have hwaits : (epollLoop [pass]).waits = [(pass, pass.handleEvents)] := rfl
  refine ⟨pass, rfl, ⟨_, hwaits ▸ List.mem_singleton_self _, by decide, by decide⟩, fun hall => ?_⟩
  exact pass.not_handlesReported rfl (hall _ (hwaits ▸ List.mem_singleton_self _))

end Shovel.Network
