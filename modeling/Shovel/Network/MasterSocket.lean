import Shovel.Library.Progress
import Shovel.Network.AcceptThreads

/-!
# The master sockets of a server

Every `start` opens a master socket, and the exits of `start_listen`, the next
`start` and the destructor close it. `opens` and `closes` count the two over a run
of the whole server, and `holds` is the socket that is open in between.

`start_listen` closes an old master socket only if its descriptor is positive, the
destructor also if it is zero. So a server that has been given the descriptor 0,
because the process had closed its standard input, loses it with the next `start`.
-/

namespace Shovel.Network

open Transition

namespace ServerState

/-- One for a step in which `socket` returns this descriptor. -/
def opens (d : Int) (s : ServerState) : ServerLabel → Nat
  | .socket result =>
      match s.owner with
      | .openSocket _ => if result = d then 1 else 0
      | _ => 0
  | _ => 0

/-- One for a step in which the master socket is closed with this descriptor: an old one in
`start_listen`, one that cannot be bound or listened on, and the last one in the destructor. -/
def closes (d : Int) (s : ServerState) : ServerLabel → Nat
  | .owner =>
      match s.owner with
      | .closeOld _ => if 0 < s.server.masterSocket ∧ s.server.masterSocket = d then 1 else 0
      | .closeMaster => if 0 ≤ s.server.masterSocket ∧ s.server.masterSocket = d then 1 else 0
      | _ => 0
  | .configure answers =>
      match s.owner with
      | .configure _ =>
          if answers.setsockopt ≠ -1 ∧ (answers.bind = -1 ∨ answers.listen = -1) ∧
            s.server.masterSocket = d then 1 else 0
      | _ => 0
  | _ => 0

/-- One for a step in which `start_listen` passes over this descriptor of an old master socket. -/
def passesOver (d : Int) (s : ServerState) : ServerLabel → Nat
  | .owner =>
      match s.owner with
      | .closeOld _ => if s.server.masterSocket = 0 ∧ s.server.masterSocket = d then 1 else 0
      | _ => 0
  | _ => 0

/-- The server holds this descriptor as its master socket. Between the close of an old one and the
call of `socket` it holds none. -/
def holds (d : Int) (s : ServerState) : Nat :=
  match s.owner with
  | .openSocket _ => 0
  | _ => if s.server.masterSocket = d then 1 else 0

variable {s s' : ServerState} {d : Int}

/-- A step of a thread leaves the master socket as it is. -/
theorem threadStep_holds {i : Nat} {outcome : AcceptOutcome}
    (h : s.threadStep i outcome = some s') : s'.holds d = s.holds d := by
  obtain ⟨howner, -, ⟨-, hserver⟩ | ⟨-, hserver⟩⟩ := threadStep_cases h
  · rw [holds, holds, howner, hserver]
  · rw [holds, holds, howner, hserver]

/-- A step of the owner holds on to the socket, or closes or passes over the one it held. -/
theorem ownerStep_balance (hd : 0 ≤ d) (h : s.ownerStep = some s') :
    s'.holds d + (s.closes d .owner + s.passesOver d .owner) = s.holds d := by
  have hne : (-1 : Int) ≠ d := by omega
  obtain ⟨server, owner, threads⟩ := s
  cases owner with
  | closeOld lt =>
      obtain rfl := Option.some.inj h
      simp only [holds, closes, passesOver]
      -- the old socket is closed, passed over, or another one
      by_cases hsame : server.masterSocket = d
      · by_cases hpos : 0 < server.masterSocket
        · simp [hsame, hsame ▸ hpos, (Int.ne_of_gt (hsame ▸ hpos))]
        · have hzero : d = 0 := by omega
          simp [hsame, hzero]
      · simp [hsame]
  | closeMaster =>
      obtain rfl := Option.some.inj h
      simp only [holds, closes, passesOver, hne, if_false]
      by_cases hsame : server.masterSocket = d
      · simp [hsame, hd]
      · simp [hsame]
  | waitFinished =>
      simp only [ownerStep] at h
      split at h
      · obtain rfl := Option.some.inj h
        rfl
      · cases h
  | storeUnfinished lt | storeFinished | storeDisabled =>
      obtain rfl := Option.some.inj h
      rfl
  | idle | openSocket lt | configure lt | destroyed => simp [ownerStep] at h

/-- A new socket that cannot be bound or listened on is closed, any other is held. -/
theorem configureStep_balance (hd : 0 ≤ d) {answers : ListenAnswers}
    (h : s.configureStep answers = some s') :
    s'.holds d + s.closes d (.configure answers) = s.holds d := by
  have hne : (-1 : Int) ≠ d := by omega
  obtain ⟨server, owner, threads⟩ := s
  cases owner with
  | configure lt =>
      simp only [configureStep, TCPServer.configure] at h
      by_cases hoption : answers.setsockopt = -1
      · simp only [hoption, if_true] at h
        obtain rfl := Option.some.inj h
        simp [holds, closes, hoption]
      · by_cases hbind : answers.bind = -1
        · simp only [hoption, hbind, if_true, if_false] at h
          obtain rfl := Option.some.inj h
          simp [holds, closes, hoption, hbind, hne]
        · by_cases hlisten : answers.listen = -1
          · simp only [hoption, hbind, hlisten, if_true, if_false] at h
            obtain rfl := Option.some.inj h
            simp [holds, closes, hoption, hlisten, hne]
          · simp only [hoption, hbind, hlisten, if_false] at h
            obtain rfl := Option.some.inj h
            simp [holds, closes, hbind, hlisten]
  | _ => simp [configureStep] at h

/-- What a step opens is held from then on, and what it closes or passes over was held. -/
theorem step_balance (hd : 0 ≤ d) {label : ServerLabel} (h : s.step label = some s') :
    s'.holds d + (s.closes d label + s.passesOver d label) = s.holds d + s.opens d label := by
  have hne : (-1 : Int) ≠ d := by omega
  obtain ⟨server, owner, threads⟩ := s
  cases label with
  | start lt | destroy =>
      cases owner with
      | idle =>
          obtain rfl := Option.some.inj h
          rfl
      | _ => simp [step] at h
  | stop =>
      simp only [step] at h
      split at h
      · cases h
      · obtain rfl := Option.some.inj h
        rfl
  | owner => exact ownerStep_balance hd h
  | socket result =>
      cases owner with
      | openSocket lt =>
          obtain rfl := Option.some.inj h
          by_cases hfailed : result = -1
          · simp [holds, closes, passesOver, opens, TCPServer.openSocket, hfailed, hne]
          · simp [holds, closes, passesOver, opens, TCPServer.openSocket, hfailed]
      | _ => simp [step, socketStep] at h
  | configure answers => exact configureStep_balance hd h
  | thread i outcome =>
      rw [threadStep_holds h]
      rfl
  | wakes i answer =>
      obtain ⟨hserver, howner, -, -⟩ := wakesStep_cases h
      simp only [holds, closes, passesOver, opens, hserver, howner]

/-- Only the descriptor 0 is passed over. -/
theorem tally_passesOver (hpos : 0 < d) (labels : List ServerLabel) (s : ServerState) :
    machine.tally (passesOver d) labels s = 0 := by
  induction labels generalizing s with
  | nil => rfl
  | cons label rest ih =>
      have hnone : s.passesOver d label = 0 := by
        unfold passesOver
        split
        · split
          · exact if_neg (by omega)
          · rfl
        · rfl
      rw [Machine.tally, hnone]
      cases machine.step s label with
      | none => rfl
      | some following => simpa using ih following

/-- The destructor has closed the last master socket. -/
def Released (s : ServerState) : Prop :=
  s.owner = .waitFinished ∨ s.owner = .destroyed

/-- Behind the close in the destructor there is no master socket any more. -/
theorem step_released {label : ServerLabel} (hbefore : s.Released → s.server.masterSocket = -1)
    (h : s.step label = some s') : s'.Released → s'.server.masterSocket = -1 := by
  obtain ⟨server, owner, threads⟩ := s
  cases label with
  | thread i outcome =>
      obtain ⟨howner, -, ⟨-, hserver⟩ | ⟨-, hserver⟩⟩ := threadStep_cases h
      all_goals
        rw [Released, howner, hserver]
        exact hbefore
  | wakes i answer =>
      obtain ⟨hserver, howner, -, -⟩ := wakesStep_cases h
      rw [Released, howner, hserver]
      exact hbefore
  | stop =>
      simp only [step] at h
      split at h
      · cases h
      · obtain rfl := Option.some.inj h
        exact hbefore
  | owner =>
      cases owner with
      | closeMaster =>
          obtain rfl := Option.some.inj h
          exact fun _ => rfl
      | waitFinished =>
          simp only [step, ownerStep] at h
          split at h
          · obtain rfl := Option.some.inj h
            exact fun _ => hbefore (.inl rfl)
          · cases h
      | storeUnfinished lt | closeOld lt | storeFinished | storeDisabled =>
          obtain rfl := Option.some.inj h
          simp [Released]
      | idle | openSocket lt | configure lt | destroyed => simp [step, ownerStep] at h
  | start lt | destroy =>
      cases owner with
      | idle =>
          obtain rfl := Option.some.inj h
          simp [Released]
      | _ => simp [step] at h
  | socket result =>
      cases owner with
      | openSocket lt =>
          obtain rfl := Option.some.inj h
          by_cases hfailed : result = -1 <;> simp [Released, hfailed]
      | _ => simp [step, socketStep] at h
  | configure answers =>
      cases owner with
      | configure lt =>
          simp only [step, configureStep] at h
          split at h
          all_goals
            obtain rfl := Option.some.inj h
            simp [Released]
      | _ => simp [step, configureStep] at h

/-- In every run of a server with its threads, and whatever the system answers: as many times as
`socket` has returned a descriptor, as many times it has been closed, but for the one that the
server still holds. None is left when the destructor has closed the last one. The descriptor 0
alone is lost, once for each `start` that finds it as the old master socket. -/
theorem master_sockets_closed (hd : 0 ≤ d) {labels : List ServerLabel}
    (hrun : machine.run labels initial = some s) :
    machine.tally (opens d) labels initial =
        machine.tally (closes d) labels initial + s.holds d +
          machine.tally (passesOver d) labels initial ∧
      (0 < d → machine.tally (passesOver d) labels initial = 0) ∧
      (s.Released → s.holds d = 0) := by
  have hbalance : ∀ state following label, machine.step state label = some following →
      following.holds d + (state.closes d label + state.passesOver d label) =
        state.holds d + state.opens d label :=
    fun _ _ _ hstep => step_balance hd hstep
  have hne : (-1 : Int) ≠ d := by omega
  have hnone : initial.holds d = 0 := if_neg hne
  have hsum := Machine.tally_balance hbalance hrun
  rw [Machine.tally_add (closes d) (passesOver d), hnone] at hsum
  refine ⟨by omega, fun hpos => tally_passesOver hpos labels initial, fun hreleased => ?_⟩
  have hlast : s.Released → s.server.masterSocket = -1 := by
    refine Machine.run_invariant (m := machine)
      (fun state => state.Released → state.server.masterSocket = -1)
      (fun _ _ _ hbefore hstep => step_released hbefore hstep) ?_ hrun
    rintro (hwaits | hdestroyed)
    · cases hwaits
    · cases hdestroyed
  rw [holds]
  split
  · rfl
  · rw [hlast hreleased, if_neg hne]

/-- A server is started, started again on a port that is in use, and destroyed. -/
def twice : List ServerLabel :=
  [.start .unblocked, .owner, .owner, .socket 3, .configure ⟨0, 0, 0⟩,
    .start .unblocked, .owner, .owner, .socket 3, .configure ⟨0, -1, 0⟩, .owner, .owner,
    .destroy, .owner]

/-- It closes its two sockets, which had the same descriptor. -/
theorem master_sockets_closed_twice :
    ∃ s, machine.run twice initial = some s ∧ machine.tally (closes 3) twice initial = 2 := by
  refine ⟨_, rfl, ?_⟩
  have hthree : (0 : Int) ≤ 3 := by decide
  obtain ⟨hsum, hpassed, hheld⟩ := master_sockets_closed hthree
    (show machine.run twice initial = some _ from rfl)
  rw [hpassed (by decide), hheld (.inl rfl)] at hsum
  exact hsum.symm

end ServerState

end Shovel.Network
