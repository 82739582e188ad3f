import Shovel.Network.SharedSocket

/-!
# How often a shared TCP socket is closed

The descriptor of a `TCPSocket` under any number of threads. Nothing keeps a
second thread from passing the test of `m_descr` in `close_descriptor` before the
first one has forgotten the descriptor, so `close` can be called once by each
thread, and the later calls close what the process may have opened under the same
number in between. It is called at least once, and once `m_descr` is forgotten and
no call is under way the status refuses every further call. This is about a socket
whose `getpeername` has succeeded; if it has failed, the socket never closes its
descriptor.

`Known`, `Counted` and `Marked` are kept by every step; `Form` by every step that
does not disturb a thread between reading `m_descr` and using it.
-/

namespace Shovel.Network

open Containers Transition Function Population

/-- The two threads of a worker. -/
inductive WorkerThread where
  | reading
  | writing
  deriving DecidableEq, Inhabited

instance : Fintype WorkerThread :=
  ⟨{.reading, .writing}, fun t => by cases t <;> decide⟩

/-! ## What the threads know of the descriptor -/

namespace SocketPc

/-- The value of `m_descr` that a thread has read and not used yet. -/
def loaded : SocketPc → Option Int
  | transfer _ descr | close descr => some descr
  | _ => none

/-- The thread has found that there is no descriptor, or has forgotten it. -/
def Gone : SocketPc → Prop
  | descriptorError | setClosed => True
  | _ => False

/-- A thread has read `m_descr`, or passed the test of it in `close_descriptor`, and has not used or
forgotten it yet. -/
def Holds : SocketPc → Prop
  | transfer _ _ | closeArgument | close _ | forget => True
  | _ => False

/-- A thread about to close the descriptor `d`. -/
def closeWeight (d : Int) : SocketPc → Nat
  | close descr => if descr = d then 1 else 0
  | _ => 0

/-- A thread that has closed the descriptor and not yet forgotten it. -/
def forgetWeight : SocketPc → Nat
  | forget => 1
  | _ => 0

/-- No thread counts for both, and none twice. -/
theorem weights_le (d : Int) (p : SocketPc) : p.forgetWeight + p.closeWeight d ≤ 1 := by
  cases p with
  | close descr =>
      simp only [forgetWeight, closeWeight]
      split <;> omega
  | _ => simp [forgetWeight, closeWeight]

/-- A thread that will set the status before its call returns, if `m_descr` is forgotten. -/
def Settles : SocketPc → Prop
  | testDescr _ | descriptorError | setCause _ | closeReset | closeTest | closeArgument | close _ |
    forget | setClosed => True
  | idle | resetStatus _ | testSize _ | argument _ | transfer _ _ => False

/-- What a thread knows while `m_descr` has this value. -/
structure Knows (d now : Int) (p : SocketPc) : Prop where
  loaded : ∀ descr, p.loaded = some descr → descr = d ∨ (descr = -1 ∧ now = -1)
  gone : p.Gone → now = -1

end SocketPc

/-- A system call on the descriptor `d` or on none. -/
def SystemCall.Touches (d : Int) (c : SystemCall) : Prop :=
  ∀ descr, c.transfer = some descr ∨ c = .close descr → descr = d ∨ descr = -1

namespace SharedSocket

variable {T : Type} [DecidableEq T]

section Steps

variable {t : T} {d : Int} {s s' : SocketLife} {pcs : T → SocketPc} {p p' : SocketPc}

/-- `m_descr` is the descriptor or is forgotten, the threads know which, and no other descriptor is
touched. -/
structure Known (d : Int) (s : SocketLife) (pcs : T → SocketPc) : Prop where
  descr : s.socket.descr = d ∨ s.socket.descr = -1
  threads : ∀ t, (pcs t).Knows d s.socket.descr
  touched : ∀ c ∈ s.calls, c.Touches d

omit [DecidableEq T] in
/-- A step keeps `m_descr` or forgets it. -/
theorem Moves.descr (hmove : Moves s p s' p') :
    s'.socket.descr = s.socket.descr ∨ s'.socket.descr = -1 := by
  cases hmove with
  | forgets => exact .inr rfl
  | _ => exact .inl rfl

omit [DecidableEq T] in
/-- What a thread has read in a step is the value of `m_descr`. -/
theorem Moves.loaded (hmove : Moves s p s' p') :
    p'.loaded = none ∨ (p'.loaded = some s.socket.descr ∧ s' = s) := by
  cases hmove with
  | loads | closeLoads => exact .inr ⟨rfl, rfl⟩
  | finds c => cases c <;> exact .inl rfl
  | transfers c hcall hp =>
      obtain rfl | ⟨sentSize, rfl⟩ | ⟨status, rfl⟩ := hp
      all_goals exact .inl rfl
  | _ => exact .inl rfl

omit [DecidableEq T] in
/-- A thread that finds no descriptor or has forgotten it has seen to that. -/
theorem Moves.gone (hmove : Moves s p s' p') (hgone : p'.Gone) :
    s'.socket.descr = -1 ∨ (¬ 0 < s.socket.descr ∧ s' = s) := by
  cases hmove with
  | forgets => exact .inl rfl
  | findsNone c hnone | closeFindsNone hnone => exact .inr ⟨hnone, rfl⟩
  | finds c => cases c <;> exact hgone.elim
  | transfers c hcall hp =>
      obtain rfl | ⟨sentSize, rfl⟩ | ⟨status, rfl⟩ := hp
      all_goals exact hgone.elim
  | _ => exact hgone.elim

omit [DecidableEq T] in
/-- A system call uses what its thread has read of `m_descr`. -/
theorem Moves.uses (hmove : Moves s p s' p') :
    s'.calls = s.calls ∨ ∃ c descr, s'.calls = s.calls ++ [c] ∧ p.loaded = some descr ∧
      ∀ other, c.transfer = some other ∨ c = .close other → other = descr := by
  cases hmove with
  | @transfers c descr call p hcall hp =>
      refine .inr ⟨call, descr, rfl, rfl, ?_⟩
      rintro other (hsame | rfl)
      · exact Option.some.inj (hsame.symm.trans hcall)
      · cases hcall
  | closes descr =>
      refine .inr ⟨.close descr, descr, rfl, rfl, ?_⟩
      rintro other (hsame | hsame)
      · cases hsame
      · exact (SystemCall.close.inj hsame).symm
  | _ => exact .inl rfl

/-- Every step keeps what is known. -/
theorem Known.moves (hpos : 0 < d) (h : Known d s pcs) (hmove : Moves s (pcs t) s' p') :
    Known d s' (update pcs t p') := by
  refine ⟨?_, fun u => ?_, fun c hc => ?_⟩
  · obtain hsame | hgone := hmove.descr
    · exact hsame ▸ h.descr
    · exact .inr hgone
  · by_cases hu : u = t
    · rw [hu, update_self]
      refine ⟨fun descr hloaded => ?_, fun hgone => ?_⟩
      · obtain hnone | ⟨hsome, rfl⟩ := hmove.loaded
        · cases hnone.symm.trans hloaded
        · obtain rfl := Option.some.inj (hsome.symm.trans hloaded)
          exact h.descr.imp_right fun hnone => ⟨hnone, hnone⟩
      · obtain hforgot | ⟨hnone, rfl⟩ := hmove.gone hgone
        · exact hforgot
        · exact h.descr.resolve_left (by omega)
    · rw [update_of_ne hu]
      obtain hsame | hgone := hmove.descr
      · exact hsame ▸ h.threads u
      · rw [hgone]
        refine ⟨fun descr hloaded => ?_, fun _ => rfl⟩
        exact ((h.threads u).loaded descr hloaded).imp_right fun hnone => ⟨hnone.1, rfl⟩
  · obtain hsame | ⟨new, descr, hnew, hloaded, huses⟩ := hmove.uses
    · exact h.touched c (hsame ▸ hc)
    · rw [hnew] at hc
      obtain hearlier | hlast := List.mem_append.mp hc
      · exact h.touched c hearlier
      · obtain rfl := List.mem_singleton.mp hlast
        intro other hother
        rw [huses other hother]
        exact ((h.threads t).loaded descr hloaded).imp_right And.left

/-! ## How often it is closed -/

/-- The calls of `close` on `d`. -/
def closings (d : Int) (s : SocketLife) : Nat := s.calls.count (.close d)

/-- A step outside the closing of a descriptor. -/
structure Quiet (d : Int) (s : SocketLife) (p : SocketPc) (s' : SocketLife) (p' : SocketPc) :
    Prop where
  descr : s'.socket.descr = s.socket.descr
  closings : closings d s' = closings d s
  closing : p'.closeWeight d = p.closeWeight d
  forgetting : p'.forgetWeight = p.forgetWeight

/-- A step reads the argument of `close`, closes, forgets the descriptor, or is outside of that. -/
theorem Moves.cases_closing (hmove : Moves s p s' p') (d : Int) :
    Quiet d s p s' p' ∨ (p = .closeArgument ∧ p' = .close s.socket.descr ∧ s' = s) ∨
      (∃ descr, p = .close descr ∧ p' = .forget ∧ s' = s.record (.close descr)) ∨
      (p = .forget ∧ p' = .setClosed ∧
        s' = { s with socket := { s.socket with descr := -1 } }) := by
  cases hmove with
  | closeLoads => exact .inr (.inl ⟨rfl, rfl, rfl⟩)
  | closes descr => exact .inr (.inr (.inl ⟨descr, rfl, rfl, rfl⟩))
  | forgets => exact .inr (.inr (.inr ⟨rfl, rfl, rfl⟩))
  | finds c => cases c <;> exact .inl ⟨rfl, rfl, rfl, rfl⟩
  | @transfers c descr call p hcall hp =>
      have hother : call ≠ .close d := by
        rintro rfl
        cases hcall
      have hcount : closings d (s.record call) = closings d s := by
        simp [closings, SocketLife.record, List.count_append, hother]
      obtain rfl | ⟨sentSize, rfl⟩ | ⟨status, rfl⟩ := hp
      all_goals exact .inl ⟨rfl, hcount, rfl, rfl⟩
  | begins | refused | resets | findsNone | setsError | offers | ends | loads | setsCause |
    closeResets | closeFinds | closeFindsNone | setsClosed => exact .inl ⟨rfl, rfl, rfl, rfl⟩

section Count

variable [Fintype T]

/-- While `m_descr` is kept, `d` was closed by the threads about to forget it; once it is
forgotten `d` was closed, and each thread closes it at most once. -/
structure Counted (d : Int) (s : SocketLife) (pcs : T → SocketPc) : Prop where
  kept : s.socket.descr = d → closings d s = total SocketPc.forgetWeight pcs
  forgotten : s.socket.descr = -1 →
    1 ≤ closings d s ∧ closings d s + total (SocketPc.closeWeight d) pcs ≤ Fintype.card T

/-- A step outside the closing of a descriptor keeps the account. -/
theorem Counted.quiet (h : Counted d s pcs) (hquiet : Quiet d s (pcs t) s' p') :
    Counted d s' (update pcs t p') := by
  have hclosing := total_update (SocketPc.closeWeight d) pcs t p'
  have hforgetting := total_update SocketPc.forgetWeight pcs t p'
  have hcalls := hquiet.closings
  rw [hquiet.closing] at hclosing
  rw [hquiet.forgetting] at hforgetting
  refine ⟨fun hkept => ?_, fun hgone => ?_⟩
  · have hcount := h.kept (hquiet.descr.symm.trans hkept)
    omega
  · have hcount := h.forgotten (hquiet.descr.symm.trans hgone)
    omega

/-- So does a thread that reads the argument of `close`: once `m_descr` is forgotten it reads
−1. -/
theorem Counted.closeLoads (hpos : 0 < d) (h : Counted d s pcs) (hpc : pcs t = .closeArgument) :
    Counted d s (update pcs t (.close s.socket.descr)) := by
  have hclosing := total_update (SocketPc.closeWeight d) pcs t (.close s.socket.descr)
  have hforgetting := total_update SocketPc.forgetWeight pcs t (.close s.socket.descr)
  simp only [hpc, SocketPc.closeWeight, SocketPc.forgetWeight] at hclosing hforgetting
  refine ⟨fun hkept => ?_, fun hgone => ?_⟩
  · have hcount := h.kept hkept
    omega
  · have hcount := h.forgotten hgone
    rw [if_neg (by omega)] at hclosing
    omega

/-- A thread that closes `d` is about to forget it. -/
theorem Counted.closes (hpos : 0 < d) (hknown : Known d s pcs) (h : Counted d s pcs)
    {descr : Int} (hpc : pcs t = .close descr) :
    Counted d (s.record (.close descr)) (update pcs t .forget) := by
  have hclosing := total_update (SocketPc.closeWeight d) pcs t .forget
  have hforgetting := total_update SocketPc.forgetWeight pcs t .forget
  have hloaded := (hknown.threads t).loaded descr (by rw [hpc]; rfl)
  have hcount : closings d (s.record (.close descr)) =
      closings d s + if descr = d then 1 else 0 := by
    simp [closings, SocketLife.record, List.count_append, List.count_singleton]
  simp only [hpc, SocketPc.closeWeight, SocketPc.forgetWeight] at hclosing hforgetting
  refine ⟨fun hkept => ?_, fun hgone => ?_⟩
  · have hbefore := h.kept hkept
    have hsame : s.socket.descr = d := hkept
    rw [if_pos (by omega)] at hcount
    omega
  · have hbefore := h.forgotten hgone
    omega

/-- When the first thread forgets `d`, every thread that has closed it stands where it will forget
it. -/
theorem Counted.forgets (hpos : 0 < d) (hknown : Known d s pcs) (h : Counted d s pcs)
    (hpc : pcs t = .forget) :
    Counted d { s with socket := { s.socket with descr := -1 } } (update pcs t .setClosed) := by
  have hclosing := total_update (SocketPc.closeWeight d) pcs t .setClosed
  have hforgetting := total_update SocketPc.forgetWeight pcs t .setClosed
  simp only [hpc, SocketPc.closeWeight, SocketPc.forgetWeight] at hclosing hforgetting
  refine ⟨fun hkept => ?_, fun _ => ?_⟩
  · have hgone : (-1 : Int) = d := hkept
    omega
  · have hsame : closings d { s with socket := { s.socket with descr := -1 } } = closings d s :=
      rfl
    obtain hkept | hgone := hknown.descr
    · have hcount := h.kept hkept
      have hmost : total SocketPc.forgetWeight pcs + total (SocketPc.closeWeight d) pcs ≤
          Fintype.card T := total_add_le_card fun p => p.weights_le d
      omega
    · have hcount := h.forgotten hgone
      omega

/-- Every step keeps the account. -/
theorem Counted.moves (hpos : 0 < d) (hknown : Known d s pcs) (h : Counted d s pcs)
    (hmove : Moves s (pcs t) s' p') : Counted d s' (update pcs t p') := by
  obtain hquiet | ⟨hpc, rfl, rfl⟩ | ⟨descr, hpc, rfl, rfl⟩ | ⟨hpc, rfl, rfl⟩ :=
    hmove.cases_closing d
  · exact h.quiet hquiet
  · exact h.closeLoads hpos hpc
  · exact h.closes hpos hknown hpc
  · exact h.forgets hpos hknown hpc

end Count

/-! ## The status -/

/-- While `m_descr` is forgotten and the status is OK, a thread is about to set the status; while
`m_descr` is kept and the status is not OK, a thread is about to reset it. -/
structure Marked (d : Int) (s : SocketLife) (pcs : T → SocketPc) : Prop where
  settles : s.socket.descr = -1 → s.socket.status = .ok → ∃ t, (pcs t).Settles
  resets : s.socket.descr = d → s.socket.status ≠ .ok → ∃ t, pcs t = .closeReset

omit [DecidableEq T] in
/-- After a step, the thread that moved is about to set the status, or it was not before and the
socket was the same. -/
theorem Moves.settles (hmove : Moves s p s' p') (hgone : s'.socket.descr = -1)
    (hok : s'.socket.status = .ok) :
    p'.Settles ∨ (¬ p.Settles ∧ s.socket.descr = -1 ∧ s.socket.status = .ok) := by
  cases hmove with
  | begins | refused | offers | ends | loads => exact .inr ⟨not_false, hgone, hok⟩
  | transfers c hcall hp => exact .inr ⟨not_false, hgone, hok⟩
  | finds c hpos => omega
  | closeFinds hpos => omega
  | setsError | setsClosed => cases hok
  | resets | findsNone | setsCause | closeResets | closeFindsNone | closeLoads | closes | forgets =>
      exact .inl trivial

omit [DecidableEq T] in
/-- After a step, the thread that moved is about to reset the status, or it was not before and the
socket was the same. -/
theorem Moves.resets_next (hmove : Moves s p s' p') (hpos : 0 < d)
    (hknows : p.Knows d s.socket.descr) (hkept : s'.socket.descr = d)
    (hended : s'.socket.status ≠ .ok) :
    p' = .closeReset ∨ (p ≠ .closeReset ∧ s.socket.descr = d ∧ s.socket.status ≠ .ok) := by
  cases hmove with
  | setsCause => exact .inl rfl
  | resets | closeResets => exact absurd rfl hended
  | setsError | setsClosed =>
      have hgone := hknows.gone trivial
      have hsame : s.socket.descr = d := hkept
      omega
  | forgets =>
      have hgone : (-1 : Int) = d := hkept
      omega
  | begins | refused | offers | ends | loads | transfers | finds | findsNone | closeFinds |
    closeFindsNone | closeLoads | closes => exact .inr ⟨nofun, hkept, hended⟩

/-- Every step keeps the marks. -/
theorem Marked.moves (hpos : 0 < d) (hknown : Known d s pcs) (h : Marked d s pcs)
    (hmove : Moves s (pcs t) s' p') : Marked d s' (update pcs t p') := by
  refine ⟨fun hgone hok => ?_, fun hkept hended => ?_⟩
  · refine (exists_update_iff pcs fun _ p => p.Settles).mpr ?_
    refine (hmove.settles hgone hok).imp_right fun ⟨hnot, hgone, hok⟩ => ?_
    obtain ⟨u, hu⟩ := h.settles hgone hok
    exact ⟨u, ne_of_apply_ne pcs fun hsame => hnot (hsame ▸ hu), hu⟩
  · refine (exists_update_iff pcs fun _ p => p = SocketPc.closeReset).mpr ?_
    refine (hmove.resets_next hpos (hknown.threads t) hkept hended).imp_right
      fun ⟨hnot, hkept, hended⟩ => ?_
    obtain ⟨u, hu⟩ := h.resets hkept hended
    exact ⟨u, ne_of_apply_ne pcs fun hsame => hnot (hsame.symm.trans hu), hu⟩

end Steps

/-! ## Every interleaving -/

section Runs

variable {s s' : SharedSocket T} {d : Int}

/-- The program points of the threads. -/
def pcs (s : SharedSocket T) (t : T) : SocketPc := (s.threads t).pc

@[simp] theorem pcs_put (s : SharedSocket T) (t : T) (life : SocketLife) (th : SocketThread) :
    (s.put t life th).pcs = update s.pcs t th.pc := by
  funext u
  by_cases hu : u = t
  · subst hu
    simp [pcs]
  · simp [pcs, put, hu]

/-- What holds of the socket between any two steps. -/
structure Inv [Fintype T] (d : Int) (s : SharedSocket T) : Prop where
  known : Known d s.life s.pcs
  counted : Counted d s.life s.pcs
  marked : Marked d s.life s.pcs

omit [DecidableEq T] in
/-- A new socket whose `getpeername` has succeeded. -/
theorem start_life (hpos : 0 < d) :
    (start d 0 : SharedSocket T).life = ⟨⟨d, .ok⟩, [.getpeername d 0]⟩ := by
  simp [start, SocketLife.construct, SocketLife.setDescriptor, SocketLife.record,
    TCPSocket.resetStatus, hpos]

/-- A call on a socket whose status is not OK. -/
theorem step_closed (hrests : s.Rests) (hended : s.life.socket.status ≠ .ok)
    {label : SharedLabel T} (hstep : s.step label = some s') :
    ∃ buf, s' = s.put label.thread s.life ⟨.idle, buf, -1⟩ := by
  cases label with
  | read t buf | write t buf =>
      simp only [step, hrests t, if_true, SocketThread.beginRead, SocketThread.beginWrite,
        hended, ne_eq, not_false_eq_true] at hstep
      exact ⟨_, (Option.some.inj hstep).symm⟩
  | next t => simp [step, SocketThread.next, hrests t] at hstep
  | receives t result | sends t result => simp [step, hrests t] at hstep

/-- A thread that has returned. -/
theorem rests_put (hrests : s.Rests) {t : T} {life : SocketLife}
    {buf : SizedArray NETSOCKET_ARRAY_SIZE} {ret : Int} :
    (s.put t life ⟨.idle, buf, ret⟩).Rests := by
  intro u
  by_cases hu : u = t
  · rw [hu, put_threads_self]
  · rw [put_threads_of_ne hu]
    exact hrests u

/-- A closed socket between calls stays as it is, whatever is called, and every call returns −1. -/
theorem stays_closed (hrests : s.Rests) (hended : s.life.socket.status ≠ .ok) {d' res : Int}
    {labels : List (SharedLabel T)} (hrun : (machine d' res).run labels s = some s') :
    s'.life = s.life ∧ ∀ label ∈ labels, (s'.threads label.thread).ret = -1 := by
  -- a thread that has got −1 gets it again
  suffices hall : s'.life = s.life ∧ ∀ t, ((s.threads t).ret = -1 ∨
      ∃ label ∈ labels, label.thread = t) → (s'.threads t).ret = -1 from
    ⟨hall.1, fun label hlabel => hall.2 _ (.inr ⟨label, hlabel, rfl⟩)⟩
  induction labels generalizing s with
  | nil =>
      obtain rfl := Option.some.inj hrun
      exact ⟨rfl, fun t ht => ht.resolve_right (by simp)⟩
  | cons label rest ih =>
      obtain ⟨following, hstep, hrest⟩ := Option.bind_eq_some_iff.mp hrun
      obtain ⟨buf, rfl⟩ := step_closed hrests hended hstep
      obtain ⟨hlife, hret⟩ := ih (rests_put hrests) hended hrest
      refine ⟨hlife, fun t ht => hret t ?_⟩
      by_cases hmoved : t = label.thread
      · exact .inl (by rw [hmoved, put_threads_self])
      · rw [put_threads_of_ne hmoved]
        refine ht.imp_right ?_
        rintro ⟨other, hother, rfl⟩
        obtain rfl | hlater := List.mem_cons.mp hother
        · exact absurd rfl hmoved
        · exact ⟨other, hlater, rfl⟩

/-- The socket has forgotten its descriptor because `getpeername` has failed. -/
structure Lost (d res : Int) (s : SharedSocket T) : Prop where
  rests : s.Rests
  life : s.life = ⟨⟨-1, .descriptorError⟩, [.getpeername d res]⟩

/-- It stays so: every call returns before its first system call. -/
theorem reachable_lost {res : Int} (hpos : 0 < d) (hres : res ≠ 0)
    (h : (machine d res).Reachable s) : Lost d res s := by
  refine h.invariant ?_ ?_
  · rintro _ rfl
    refine ⟨fun _ => rfl, ?_⟩
    simp [start, SocketLife.construct, SocketLife.setDescriptor, SocketLife.record,
      TCPSocket.resetStatus, hpos, hres]
  · rintro before after label ⟨hrests, hlife⟩ hstep
    have hended : before.life.socket.status ≠ .ok := by simp [hlife]
    obtain ⟨buf, rfl⟩ := step_closed hrests hended hstep
    exact ⟨rests_put hrests, hlife⟩

variable [Fintype T]

omit [DecidableEq T] in
theorem Inv.start (hpos : 0 < d) : Inv d (start d 0 : SharedSocket T) := by
  have hgone : d ≠ -1 := by omega
  have hpcs : (SharedSocket.start d 0 : SharedSocket T).pcs = fun _ => .idle := rfl
  refine ⟨⟨?_, ?_, ?_⟩, ⟨?_, ?_⟩, ⟨?_, ?_⟩⟩
  all_goals rw [start_life hpos]
  · exact .inl rfl
  · exact fun t => ⟨nofun, nofun⟩
  · intro c hc
    obtain rfl := List.mem_singleton.mp hc
    rintro descr (hsame | hsame) <;> cases hsame
  · intro _
    simp [closings, total, hpcs, SocketPc.forgetWeight]
  · exact fun hnone => absurd hnone hgone
  · exact fun hnone => absurd hnone hgone
  · exact fun _ hended => absurd rfl hended

/-- The invariant holds in every interleaving. -/
theorem reachable_inv (hpos : 0 < d) (h : (machine d 0).Reachable s) : Inv d s := by
  refine h.invariant ?_ ?_
  · rintro _ rfl
    exact .start hpos
  · rintro before after label hinv hstep
    obtain ⟨life, th, hmove, rfl⟩ := step_moves hstep
    exact ⟨by simpa using hinv.known.moves hpos hmove,
      by simpa using hinv.counted.moves hpos hinv.known hmove,
      by simpa using hinv.marked.moves hpos hinv.known hmove⟩

/-- Between calls a socket is open, was never closed and is OK; or it was closed, at least once and
at most as many times as there are threads, and is not OK. -/
theorem rests_cases (hpos : 0 < d) (h : (machine d 0).Reachable s) (hrests : s.Rests) :
    (s.life.socket = ⟨d, .ok⟩ ∧ closings d s.life = 0) ∨
      (s.life.socket.descr = -1 ∧ s.life.socket.status ≠ .ok ∧ 1 ≤ closings d s.life ∧
        closings d s.life ≤ Fintype.card T) := by
  have hinv := reachable_inv hpos h
  obtain hkept | hgone := hinv.known.descr
  · left
    have hok : s.life.socket.status = .ok := by
      by_contra hended
      obtain ⟨t, ht⟩ := hinv.marked.resets hkept hended
      cases (hrests t).symm.trans ht
    have hnobody : total SocketPc.forgetWeight s.pcs = 0 :=
      total_eq_zero_iff.mpr fun t => by rw [pcs, hrests t]; rfl
    refine ⟨?_, (hinv.counted.kept hkept).trans hnobody⟩
    rw [← hkept, ← hok]
  · right
    have hended : s.life.socket.status ≠ .ok := by
      intro hok
      obtain ⟨t, ht⟩ := hinv.marked.settles hgone hok
      rw [pcs, hrests t] at ht
      exact ht
    have hcount := hinv.counted.forgotten hgone
    exact ⟨hgone, hended, hcount.1, by omega⟩

/-- Between calls a socket for a descriptor is open and was never closed, or it has no descriptor,
and from then on every call returns −1 without a system call. In the second case the descriptor was
closed, at least once and at most as many times as there are threads, unless `getpeername` has
failed: then it was not. No other descriptor is touched. -/
theorem closed_for_good {res : Int} (hpos : 0 < d) (h : (machine d res).Reachable s)
    (hrests : s.Rests) :
    (∀ c ∈ s.life.calls, c.Touches d) ∧
      ((res = 0 ∧ s.life.socket = ⟨d, .ok⟩ ∧ closings d s.life = 0) ∨
        (s.life.socket.descr = -1 ∧ (1 ≤ closings d s.life ↔ res = 0) ∧
          closings d s.life ≤ Fintype.card T ∧
          ∀ labels s', (machine d res).run labels s = some s' →
            s'.life = s.life ∧ ∀ label ∈ labels, (s'.threads label.thread).ret = -1)) := by
  by_cases hres : res = 0
  · subst hres
    refine ⟨(reachable_inv hpos h).known.touched, ?_⟩
    obtain ⟨hopen, hnever⟩ | ⟨hgone, hended, hleast, hmost⟩ := rests_cases hpos h hrests
    · exact .inl ⟨rfl, hopen, hnever⟩
    · exact .inr ⟨hgone, ⟨fun _ => rfl, fun _ => hleast⟩, hmost,
        fun labels s' hrun => stays_closed hrests hended hrun⟩
  · obtain ⟨-, hlife⟩ := reachable_lost hpos hres h
    have hnever : closings d s.life = 0 := by simp [closings, hlife]
    have hended : s.life.socket.status ≠ .ok := by simp [hlife]
    refine ⟨?_, .inr ⟨by rw [hlife], by simp [hnever, hres], by omega,
      fun labels s' hrun => stays_closed hrests hended hrun⟩⟩
    rw [hlife]
    intro c hc
    obtain rfl := List.mem_singleton.mp hc
    rintro descr (hsame | hsame) <;> cases hsame

/-- A socket whose reading thread has read the end of the stream. -/
theorem closed_for_good_ended : ∃ s : SharedSocket WorkerThread,
    (machine 5 0).Reachable s ∧ s.life.socket = ⟨-1, .closed⟩ ∧ closings 5 s.life = 1 ∧
      ∀ labels s', (machine 5 0).run labels s = some s' →
        s'.life = s.life ∧ ∀ label ∈ labels, (s'.threads label.thread).ret = -1 := by
  have halone := read_alone (s := start 5 0) (t := WorkerThread.reading) rfl (.new _) .endOfStream
  have hreachable := halone.reachable (.start rfl : (machine 5 0).Reachable (start 5 0))
  refine ⟨_, hreachable, rfl, rfl, ?_⟩
  obtain ⟨-, ⟨-, hopen, -⟩ | ⟨-, -, -, hstays⟩⟩ := closed_for_good (by decide) hreachable
    (fun t => by cases t <;> rfl)
  · cases hopen
  · exact hstays

end Runs

/-! ## Every number of times -/

section Closings

variable {s s' : SharedSocket T} {d : Int}

/-- One thread after another goes from one program point to another. -/
theorem one_after_another (Good : SocketLife → Prop) (start' finish : SocketPc) (each : Nat)
    (hone : ∀ (s : SharedSocket T) t, (machine d 0).Reachable s → Good s.life →
      (s.threads t).pc = start' → ∃ life th, (machine d 0).Reachable (s.put t life th) ∧
        Good life ∧ th.pc = finish ∧ closings d life = closings d s.life + each)
    {ts : List T} (hnodup : ts.Nodup) (h : (machine d 0).Reachable s) (hgood : Good s.life)
    (hstart : ∀ t ∈ ts, (s.threads t).pc = start') :
    ∃ s', (machine d 0).Reachable s' ∧ Good s'.life ∧ (∀ t ∈ ts, (s'.threads t).pc = finish) ∧
      (∀ t ∉ ts, s'.threads t = s.threads t) ∧
      closings d s'.life = closings d s.life + ts.length * each := by
  induction ts generalizing s with
  | nil => exact ⟨s, h, hgood, nofun, fun _ _ => rfl, by simp⟩
  | cons t rest ih =>
      obtain ⟨hnotin, hrest⟩ := List.nodup_cons.mp hnodup
      obtain ⟨hfirst, hlater⟩ := List.forall_mem_cons.mp hstart
      obtain ⟨life, th, hmoved, hgood', hth, hcount⟩ := hone s t h hgood hfirst
      have hstill : ∀ u ∈ rest, ((s.put t life th).threads u).pc = start' := by
        intro u hu
        rw [put_threads_of_ne (by rintro rfl; exact hnotin hu)]
        exact hlater u hu
      obtain ⟨s', hs', hgood'', hfinish, hothers, hcount'⟩ := ih hrest hmoved hgood' hstill
      refine ⟨s', hs', hgood'', ?_, ?_, ?_⟩
      · refine List.forall_mem_cons.mpr ⟨?_, hfinish⟩
        rw [hothers t hnotin, put_threads_self, hth]
      · intro u hu
        obtain ⟨hne, hnot⟩ := not_or.mp (mt List.mem_cons.mpr hu)
        rw [hothers u hnot, put_threads_of_ne hne]
      · rw [hcount', put_life, hcount, List.length_cons, Nat.add_mul, Nat.one_mul]
        omega

/-- A thread that reads the end of the stream gets to its `close`, and nobody else is told. -/
theorem reaches_close (hpos : 0 < d) (t : T) (hopen : s.life.socket = ⟨d, .ok⟩)
    (hidle : (s.threads t).pc = .idle) : ∃ life th, Alone t s (s.put t life th) ∧
      life.socket = ⟨d, .ok⟩ ∧ th.pc = .close d ∧ closings d life = closings d s.life := by
  obtain ⟨⟨socket, calls⟩, threads⟩ := s
  obtain rfl : socket = ⟨d, .ok⟩ := hopen
  refine ⟨⟨⟨d, .ok⟩, calls ++ [.recv d .endOfStream]⟩,
    ⟨.close d, (SizedArray.new _).clear.resize 0, (threads t).ret⟩, ?_, rfl, rfl, ?_⟩
  · refine .step (.read t (.new _)) rfl (if_pos hidle) (.next rfl (.next (if_pos hpos) ?_))
    -- `close_descriptor` sets the status to OK over the cause
    exact .receives .endOfStream (.next rfl (.next rfl (.next (if_pos hpos) (.next rfl .refl))))
  · simp [closings, List.count_append]

omit [DecidableEq T] in
/-- Between calls, the destructor closes an open descriptor and no other. -/
theorem closings_destroy (hpos : 0 < d) :
    (s.life.socket = ⟨d, .ok⟩ → closings d s.life.destroy = closings d s.life + 1) ∧
      (s.life.socket.descr = -1 → closings d s.life.destroy = closings d s.life) := by
  constructor
  · intro hopen
    have hne : d ≠ 0 := by omega
    simp [closings, SocketLife.destroy, SocketLife.record, SocketLife.closeDescriptor, hopen, hpos,
      hne, List.count_append]
  · intro hgone
    simp [closings, SocketLife.destroy, SocketLife.record, SocketLife.closeDescriptor, hgone,
      List.count_append]

variable [Fintype T]

/-- Any threads can each close the descriptor, if there is one. -/
theorem closed_by_each (hpos : 0 < d) {ts : List T} (hnodup : ts.Nodup) (hsome : ts ≠ []) :
    ∃ s : SharedSocket T, (machine d 0).Reachable s ∧ s.Rests ∧
      closings d s.life.destroy = ts.length := by
  have hstarted : (machine d 0).Reachable (start d 0 : SharedSocket T) := .start rfl
  -- all of them read the end of the stream and the argument of `close`, then all of them close
  obtain ⟨s₁, h₁, -, hat₁, hothers₁, hcount₁⟩ := one_after_another
    (fun life => life.socket = ⟨d, .ok⟩) .idle (.close d) 0 (fun s t h hopen hidle => by
      obtain ⟨life, th, halone, hopen', hth, hcount⟩ := reaches_close hpos t hopen hidle
      exact ⟨life, th, halone.reachable h, hopen', hth, hcount⟩)
    hnodup hstarted (by rw [start_life hpos]) (fun _ _ => rfl)
  obtain ⟨s₂, h₂, -, hat₂, hothers₂, hcount₂⟩ := one_after_another (fun _ => True) (.close d)
    .forget 1 (fun s t h _ hpc => by
      have halone := Alone.moves (s := s) (t := t) (by rw [SocketThread.next, hpc]) .refl
      exact ⟨_, _, halone.reachable h, trivial, rfl, by simp [closings, SocketLife.record]⟩)
    hnodup h₁ trivial hat₁
  obtain ⟨s₃, h₃, -, hat₃, hothers₃, hcount₃⟩ := one_after_another (fun _ => True) .forget
    .idle 0 (fun s t h _ hpc => by
      have halone := Alone.moves (s := s) (t := t) (by rw [SocketThread.next, hpc])
        (.next rfl .refl)
      exact ⟨_, _, halone.reachable h, trivial, rfl, rfl⟩)
    hnodup h₂ trivial hat₂
  have hrests : s₃.Rests := by
    intro t
    by_cases ht : t ∈ ts
    · exact hat₃ t ht
    · rw [hothers₃ t ht, hothers₂ t ht, hothers₁ t ht]
      rfl
  have hnone : closings d (start d 0 : SharedSocket T).life = 0 := by
    simp [start_life hpos, closings]
  have hpositive := List.length_pos_of_ne_nil hsome
  obtain ⟨-, hnever⟩ | ⟨hgone, -, -, -⟩ := rests_cases hpos h₃ hrests
  · omega
  · refine ⟨s₃, h₃, hrests, ?_⟩
    rw [(closings_destroy hpos).2 hgone]
    omega

/-- After its destruction the descriptor of a socket that any threads have called was closed at
least once and at most as many times as there are threads, and each of these numbers occurs. A
socket whose `getpeername` has failed never closes it. -/
theorem destroyed_closings_iff [Nonempty T] {res : Int} (hpos : 0 < d) (n : Nat) :
    (∃ s : SharedSocket T, (machine d res).Reachable s ∧ s.Rests ∧
      closings d s.life.destroy = n) ↔
        if res = 0 then 1 ≤ n ∧ n ≤ Fintype.card T else n = 0 := by
  by_cases hres : res = 0
  · subst hres
    rw [if_pos rfl]
    constructor
    · rintro ⟨s, h, hrests, rfl⟩
      obtain ⟨hopen, hnever⟩ | ⟨hgone, -, hleast, hmost⟩ := rests_cases hpos h hrests
      · have hcount := (closings_destroy hpos).1 hopen
        have hsome := Fintype.card_pos (α := T)
        omega
      · rw [(closings_destroy hpos).2 hgone]
        exact ⟨hleast, hmost⟩
    · rintro ⟨hleast, hmost⟩
      obtain ⟨ts, hnodup, hlength⟩ : ∃ ts : List T, ts.Nodup ∧ ts.length = n := by
        have hcard : n ≤ (Finset.univ : Finset T).card := hmost
        obtain ⟨chosen, -, hcard⟩ := Finset.exists_subset_card_eq hcard
        exact ⟨chosen.toList, chosen.nodup_toList, by rw [Finset.length_toList, hcard]⟩
      have hsome : ts ≠ [] := by
        rintro rfl
        simp at hlength
        omega
      obtain ⟨s, h, hrests, hcount⟩ := closed_by_each hpos hnodup hsome
      exact ⟨s, h, hrests, hcount.trans hlength⟩
  · rw [if_neg hres]
    constructor
    · rintro ⟨s, h, hrests, rfl⟩
      obtain ⟨-, hlife⟩ := reachable_lost hpos hres h
      rw [(closings_destroy hpos).2 (by rw [hlife])]
      simp [closings, hlife]
    · rintro rfl
      have hstart : (machine d res).Reachable (start d res : SharedSocket T) := .start rfl
      obtain ⟨hrests, hlife⟩ := reachable_lost hpos hres hstart
      refine ⟨_, hstart, hrests, ?_⟩
      rw [(closings_destroy hpos).2 (by rw [hlife])]
      simp [closings, hlife]

/-- The two threads of a worker close the descriptor twice. -/
theorem destroyed_closings_iff_two : ∃ s : SharedSocket WorkerThread,
    (machine 5 0).Reachable s ∧ s.Rests ∧ closings 5 s.life.destroy = 2 :=
  (destroyed_closings_iff (by decide) 2).mpr (by decide)

end Closings

/-! ## Undisturbed threads -/

section Undisturbed

variable {d : Int}

omit [DecidableEq T] in
/-- No other thread holds the descriptor. -/
def Undisturbed (s : SharedSocket T) (label : SharedLabel T) : Prop :=
  ∀ u, u ≠ label.thread → ¬ (s.threads u).pc.Holds

/-- The forms of a socket whose threads are not disturbed. -/
inductive Form (d : Int) (s : SocketLife) (pcs : T → SocketPc) : Prop where
  | opened (hdescr : s.socket.descr = d) (hnever : .close d ∉ s.calls)
      (hnobody : ∀ t, pcs t ≠ .forget)
  | closing (t) {before} (hdescr : s.socket.descr = d) (hpc : pcs t = .forget)
      (hcalls : s.calls = before ++ [.close d]) (hnever : .close d ∉ before)
      (halone : ∀ u, u ≠ t → ¬ (pcs u).Holds)
  | closed {before after} (hdescr : s.socket.descr = -1)
      (hcalls : s.calls = before ++ .close d :: after) (hnever : .close d ∉ before)
      (hafter : ∀ c ∈ after, c ≠ .close d ∧ c.transfer ≠ some d)
      (hloaded : ∀ t, (pcs t).loaded ≠ some d)

section Steps

variable {t : T} {s s' : SocketLife} {pcs : T → SocketPc} {p p' : SocketPc}

omit [DecidableEq T] in
theorem forgetWeight_of_ne (h : p ≠ .forget) : p.forgetWeight = 0 := by
  cases p with
  | forget => exact absurd rfl h
  | _ => rfl

omit [DecidableEq T] in
/-- What a thread has read it holds. -/
theorem holds_of_loaded (h : p.loaded = some d) : p.Holds := by
  cases p with
  | transfer | close => trivial
  | _ => cases h

/-- While nobody has closed `d`, a step that disturbs nobody leaves it open or closes it. -/
theorem Form.opened_moves (hpos : 0 < d) (hknown : Known d s pcs) (hdescr : s.socket.descr = d)
    (hnever : .close d ∉ s.calls) (hnobody : ∀ t, pcs t ≠ .forget)
    (halone : ∀ u, u ≠ t → ¬ (pcs u).Holds) (hmove : Moves s (pcs t) s' p') :
    Form d s' (update pcs t p') := by
  have hnobodyElse : p' ≠ .forget → ∀ u, update pcs t p' u ≠ .forget := fun hmover =>
    (forall_update_iff pcs fun _ p => p ≠ SocketPc.forget).mpr ⟨hmover, fun u _ => hnobody u⟩
  obtain hquiet | ⟨hpc, rfl, rfl⟩ | ⟨descr, hpc, rfl, rfl⟩ | ⟨hpc, -, -⟩ :=
    hmove.cases_closing d
  · refine .opened (hquiet.descr.trans hdescr) ?_ fun u => ?_
    · rw [← List.count_eq_zero] at hnever ⊢
      exact hquiet.closings.trans hnever
    · refine hnobodyElse (fun hforget => ?_) u
      have hsame := hquiet.forgetting
      rw [hforget, forgetWeight_of_ne (hnobody t)] at hsame
      cases hsame
  · exact .opened hdescr hnever (hnobodyElse nofun)
  · have hsame : descr = d := by
      have hloaded := (hknown.threads t).loaded descr (by rw [hpc]; rfl)
      omega
    subst hsame
    refine .closing t hdescr (update_self ..) rfl hnever fun u hu => ?_
    rw [update_of_ne hu]
    exact halone u hu
  · exact absurd hpc (hnobody t)

/-- The thread that has closed `d` forgets it. -/
theorem Form.closing_moves {before : List SystemCall} (hcalls : s.calls = before ++ [.close d])
    (hnever : .close d ∉ before) (hothers : ∀ u, u ≠ t → ¬ (pcs u).Holds)
    (hmove : Moves s .forget s' p') : Form d s' (update pcs t p') := by
  cases hmove with
  | forgets =>
      refine .closed rfl hcalls hnever nofun ?_
      refine (forall_update_iff pcs fun _ p => p.loaded ≠ some d).mpr ⟨nofun, fun u hu => ?_⟩
      exact fun hloaded => hothers u hu (holds_of_loaded hloaded)

/-- Once no thread has read `d` and `m_descr` is forgotten, no system call uses `d`. -/
theorem Form.closed_moves (hpos : 0 < d) {before after : List SystemCall}
    (hdescr : s.socket.descr = -1) (hcalls : s.calls = before ++ .close d :: after)
    (hnever : .close d ∉ before) (hafter : ∀ c ∈ after, c ≠ .close d ∧ c.transfer ≠ some d)
    (hloaded : ∀ t, (pcs t).loaded ≠ some d) (hmove : Moves s (pcs t) s' p') :
    Form d s' (update pcs t p') := by
  have hdescr' : s'.socket.descr = -1 := hmove.descr.elim (fun hsame => hsame.trans hdescr) id
  have hmover : p'.loaded ≠ some d := by
    intro hsome
    obtain hnone | ⟨hread, -⟩ := hmove.loaded
    · cases hnone.symm.trans hsome
    · have hsame := Option.some.inj (hread.symm.trans hsome)
      omega
  have hloaded' : ∀ u, (update pcs t p' u).loaded ≠ some d :=
    (forall_update_iff pcs fun _ p => p.loaded ≠ some d).mpr ⟨hmover, fun u _ => hloaded u⟩
  obtain hsame | ⟨c, descr, hnew, hread, huses⟩ := hmove.uses
  · exact .closed hdescr' (hsame.trans hcalls) hnever hafter hloaded'
  · have hother : descr ≠ d := by
      rintro rfl
      exact hloaded t hread
    have hcalls' : s'.calls = before ++ .close d :: (after ++ [c]) := by
      rw [hnew, hcalls, List.append_assoc, List.cons_append]
    refine .closed hdescr' hcalls' hnever (fun call hcall => ?_) hloaded'
    obtain hearlier | hlast := List.mem_append.mp hcall
    · exact hafter call hearlier
    · obtain rfl := List.mem_singleton.mp hlast
      refine ⟨?_, fun htransfer => hother (huses d (.inl htransfer)).symm⟩
      rintro rfl
      exact hother (huses d (.inr rfl)).symm

/-- A step that disturbs nobody keeps the forms. -/
theorem Form.moves (hpos : 0 < d) (hknown : Known d s pcs) (h : Form d s pcs)
    (halone : ∀ u, u ≠ t → ¬ (pcs u).Holds) (hmove : Moves s (pcs t) s' p') :
    Form d s' (update pcs t p') := by
  cases h with
  | opened hdescr hnever hnobody =>
      exact .opened_moves hpos hknown hdescr hnever hnobody halone hmove
  | closing t₀ hdescr hpc hcalls hnever hothers =>
      obtain rfl : t₀ = t := by
        by_contra hne
        exact halone t₀ hne (by rw [hpc]; trivial)
      rw [hpc] at hmove
      exact .closing_moves hcalls hnever hothers hmove
  | closed hdescr hcalls hnever hafter hloaded =>
      exact .closed_moves hpos hdescr hcalls hnever hafter hloaded hmove

end Steps

variable {s : SharedSocket T} [Fintype T]

/-- Steps that disturb nobody keep the forms. -/
theorem reachable_form (hpos : 0 < d) (h : (machine d 0).ReachableUnder Undisturbed s) :
    Form d s.life s.pcs := by
  induction h with
  | start hinit =>
      obtain rfl := hinit
      refine .opened ?_ ?_ fun _ => nofun
      · rw [start_life hpos]
      · simp [start_life hpos]
  | next hbefore hguard hstep hform =>
      obtain ⟨life, th, hmove, rfl⟩ := step_moves hstep
      rw [put_life, pcs_put]
      exact hform.moves hpos (reachable_inv hpos hbefore.reachable).known hguard hmove

omit [Fintype T] in
/-- A run of one thread beside idle ones disturbs nobody. -/
theorem Alone.undisturbed {t : T} {s' : SharedSocket T} {res : Int}
    (h : (machine d res).ReachableUnder Undisturbed s)
    (hidle : ∀ u, u ≠ t → (s.threads u).pc = .idle) (halone : Alone t s s') :
    (machine d res).ReachableUnder Undisturbed s' := by
  obtain ⟨labels, hall, hruns⟩ := halone
  have hrun := hruns d res
  clear hruns
  induction labels generalizing s with
  | nil =>
      obtain rfl := Option.some.inj hrun
      exact h
  | cons label rest ih =>
      obtain ⟨rfl, hlater⟩ := List.forall_mem_cons.mp hall
      obtain ⟨following, hstep, hrest⟩ := Option.bind_eq_some_iff.mp hrun
      obtain ⟨life, th, -, rfl⟩ := step_moves hstep
      refine ih (.next h ?_ hstep) ?_ hlater hrest
      · intro u hu
        rw [hidle u hu]
        exact not_false
      · intro u hu
        rw [put_threads_of_ne hu]
        exact hidle u hu

/-- If nobody is disturbed, the system calls up to the destruction fall into two parts at one close
of the descriptor, behind which it is not used. -/
theorem destroyed_split (hpos : 0 < d) (h : (machine d 0).ReachableUnder Undisturbed s)
    (hrests : s.Rests) :
    ∃ before after, s.life.destroy.calls = before ++ .close d :: after ∧
      .close d ∉ before ∧ ∀ c ∈ after, c ≠ .close d ∧ c.transfer ≠ some d := by
  cases reachable_form hpos h with
  | opened hdescr hnever hnobody =>
      have hne : d ≠ 0 := by omega
      refine ⟨s.life.calls ++ [.shutdown d], [], ?_, by simpa using hnever, by simp⟩
      simp [SocketLife.destroy, SocketLife.record, SocketLife.closeDescriptor, hdescr, hpos, hne]
  | closing t hdescr hpc => cases (hrests t).symm.trans hpc
  | @closed before after hdescr hcalls hnever hafter hloaded =>
      refine ⟨before, after ++ [.shutdown (-1)], ?_, hnever, fun c hc => ?_⟩
      · simp [SocketLife.destroy, SocketLife.record, SocketLife.closeDescriptor, hdescr, hcalls]
      · obtain hearlier | hlast := List.mem_append.mp hc
        · exact hafter c hearlier
        · obtain rfl := List.mem_singleton.mp hlast
          simp [SystemCall.transfer]

/-- Disturbed between reading `m_descr` and its `recv`, a thread receives on a closed descriptor. -/
example : ∃ s : SharedSocket WorkerThread,
    (machine 5 0).run ([.read .reading (.new _), .next .reading, .next .reading, .next .reading,
      .write .writing ((SizedArray.new _).resize 1), .next .writing, .next .writing,
      .next .writing, .next .writing, .sends .writing ⟨-1, 104⟩] ++
      List.replicate 7 (.next .writing) ++ [.receives .reading .endOfStream]) (start 5 0) =
        some s ∧
      s.life.calls = [.getpeername 5 0, .send 5 ⟨-1, 104⟩, .close 5, .recv 5 .endOfStream] :=
  ⟨_, rfl, rfl⟩

end Undisturbed

end SharedSocket

end Shovel.Network
