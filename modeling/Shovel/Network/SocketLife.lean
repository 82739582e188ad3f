import Shovel.Network.TCPSocket

/-!
# The life of a TCP socket

A `TCPSocket` from its constructor over any calls of `read` and `write` to its
destructor, with the system calls that it makes on the way. `Life` says in which
forms a socket can be between two calls; `call_life` that no call leads out of
them.

A socket whose `getpeername` fails forgets its descriptor without closing it. A
socket whose peer has closed the connection notes `TCPSCOKET_CLOSED_BY_PEER`, and
`close_descriptor` then writes `TCPSOCKET_CLOSED` over it.
-/

namespace Shovel.Network

open Containers

/-- `NETSOCKET_ARRAY_SIZE`. -/
def NETSOCKET_ARRAY_SIZE : Nat := 65535

def EINTR : Nat := 4

/-- What a call of `recv` with room for 65535 bytes ends with: some bytes, the end of the stream
(zero), or an error (−1). -/
inductive RecvResult where
  | received (bytes : List UInt8) (nonempty : 0 < bytes.length)
      (fits : bytes.length ≤ NETSOCKET_ARRAY_SIZE)
  | endOfStream
  | failed (errno : Nat)
  deriving DecidableEq

/-- `errno == EAGAIN or errno == EINTR or errno == EWOULDBLOCK`. -/
def ReadRetry (errno : Nat) : Prop := errno = EAGAIN ∨ errno = EINTR ∨ errno = EWOULDBLOCK

instance (errno : Nat) : Decidable (ReadRetry errno) :=
  inferInstanceAs (Decidable (_ ∨ _))

/-- A system call on a descriptor, with what it returned. -/
inductive SystemCall where
  | getpeername (descr res : Int)
  | recv (descr : Int) (result : RecvResult)
  | send (descr : Int) (result : SendResult)
  | shutdown (descr : Int)
  | close (descr : Int)
  deriving DecidableEq

/-- A socket with the system calls it has made. -/
structure SocketLife where
  socket : TCPSocket
  calls : List SystemCall
  deriving DecidableEq

/-- The end of a write: the value returned, the socket and the buffer afterwards, and the results
not consumed. -/
structure LifeWrite (Nm : Nat) where
  ret : Int
  life : SocketLife
  buf : SizedArray Nm
  unused : List SendResult

namespace SocketLife

variable {Nm : Nat}

/-- One more system call. -/
def record (s : SocketLife) (c : SystemCall) : SocketLife := { s with calls := s.calls ++ [c] }

/-- `m_status = status`. -/
def setStatus (s : SocketLife) (status : NetSocketStatus) : SocketLife :=
  { s with socket := { s.socket with status } }

/-- `close_descriptor`. -/
def closeDescriptor (s : SocketLife) : SocketLife :=
  { socket := s.socket.closeDescriptor
    calls := if 0 < s.socket.descr then s.calls ++ [.close s.socket.descr] else s.calls }

/-- `set_descriptor`, with what `getpeername` returns if it is called. -/
def setDescriptor (s : SocketLife) (descr res : Int) : SocketLife :=
  let s := { s with socket := { s.socket.resetStatus with descr } }
  if 0 < descr then
    let s := s.record (.getpeername descr res)
    if res ≠ 0 then { s with socket := ⟨-1, .descriptorError⟩ } else s
  else s

/-- The constructor. -/
def construct (descr res : Int) : SocketLife := setDescriptor ⟨⟨-1, .ok⟩, []⟩ descr res

/-- `read`: the value returned, the buffer and the socket. -/
def read (s : SocketLife) (buf : SizedArray Nm) (result : RecvResult) :
    Int × SizedArray Nm × SocketLife :=
  let buf := buf.clear.resize 0
  if s.socket.status ≠ .ok then (-1, buf, s)
  else
    let s := s.setStatus .ok
    if 0 < s.socket.descr then
      let s := s.record (.recv s.socket.descr result)
      match result with
      | .failed errno =>
          if ReadRetry errno then (0, buf, s)
          else (-1, buf, (s.setStatus .closed).closeDescriptor)
      | .endOfStream => (-1, buf, (s.setStatus .closedByPeer).closeDescriptor)
      | .received bytes _ _ => (bytes.length, (buf.store bytes).resize bytes.length, s)
    else (-1, buf, s.setStatus .descriptorError)

/-- The loop of `write`, with its local variable `sent_size`. -/
def sendLoop (s : SocketLife) (buf : SizedArray Nm) (sentSize : Nat) (results : List SendResult) :
    Option (LifeWrite Nm) :=
  if sentSize < buf.dataSize then
    match results with
    | [] => none
    | result :: rest =>
        let s := s.record (.send s.socket.descr result)
        if result.WouldBlock then some ⟨0, s, buf, rest⟩
        else if result.status < 0 then
          some ⟨-1, (s.setStatus .closed).closeDescriptor, buf, rest⟩
        else sendLoop s buf (sentSize + result.status.toNat) rest
  else some ⟨sentSize, s, buf.clear, results⟩

/-- `write`. -/
def write (s : SocketLife) (buf : SizedArray Nm) (results : List SendResult) :
    Option (LifeWrite Nm) :=
  if s.socket.status ≠ .ok then some ⟨-1, s, buf, results⟩
  else
    let s := s.setStatus .ok
    if 0 < s.socket.descr then s.sendLoop buf 0 results
    else some ⟨-1, s.setStatus .descriptorError, buf, results⟩

/-- The destructor. -/
def destroy (s : SocketLife) : SocketLife :=
  if s.socket.descr ≠ 0 then (s.record (.shutdown s.socket.descr)).closeDescriptor else s

end SocketLife

/-- A call of `read` or `write` with its buffer and what the system answers. -/
inductive SocketOp where
  | read (buf : SizedArray NETSOCKET_ARRAY_SIZE) (result : RecvResult)
  | write (buf : SizedArray NETSOCKET_ARRAY_SIZE) (results : List SendResult)

namespace SocketLife

/-- One call. A write that needs more results has not returned. -/
def call (s : SocketLife) : SocketOp → Option (Int × SocketLife)
  | .read buf result => some ((s.read buf result).1, (s.read buf result).2.2)
  | .write buf results => (s.write buf results).map fun run => (run.ret, run.life)

/-- Successive calls with the values they return. -/
def callAll : List SocketOp → SocketLife → Option (List Int × SocketLife)
  | [], s => some ([], s)
  | op :: rest, s => do
      let (ret, s) ← s.call op
      let (rets, s) ← callAll rest s
      pure (ret :: rets, s)

/-- The loop returns and leaves what `TCPSocket.sendLoop` does. -/
theorem sendLoop_eq (s : SocketLife) (buf : SizedArray Nm) (sentSize : Nat)
    (results : List SendResult) :
    (s.sendLoop buf sentSize results).map (fun run => (run.ret, run.life.socket, run.buf)) =
      (s.socket.sendLoop buf sentSize results).map fun run => (run.ret, run.socket, run.buf) := by
  induction results generalizing s sentSize with
  | nil =>
      rw [sendLoop, TCPSocket.sendLoop]
      split <;> rfl
  | cons result rest ih =>
      rw [sendLoop, TCPSocket.sendLoop]
      split
      · simp only
        split
        · rfl
        · split
          · rfl
          · rw [ih, Option.map_map]
            rfl
      · rfl

/-- A write returns and leaves what `TCPSocket.write` does. -/
theorem write_eq (s : SocketLife) (buf : SizedArray Nm) (results : List SendResult) :
    (s.write buf results).map (fun run => (run.ret, run.life.socket, run.buf)) =
      (s.socket.write buf results).map fun run => (run.ret, run.socket, run.buf) := by
  by_cases hstatus : s.socket.status ≠ .ok
  · simp [write, TCPSocket.write, hstatus]
  · by_cases hpos : 0 < s.socket.descr
    · have hloop := sendLoop_eq (s.setStatus .ok) buf 0 results
      simpa [write, TCPSocket.write, hstatus, setStatus, TCPSocket.resetStatus, hpos] using hloop
    · simp [write, TCPSocket.write, hstatus, setStatus, TCPSocket.resetStatus, hpos]

end SocketLife

/-! ## The forms of a socket -/

namespace SystemCall

/-- The descriptor on which bytes are received or sent. -/
def transfer : SystemCall → Option Int
  | recv descr _ | send descr _ => some descr
  | getpeername _ _ | shutdown _ | close _ => none

/-- The status that the event of a system call stands for, if it ends the connection. -/
def ending : SystemCall → Option NetSocketStatus
  | getpeername _ res => if res ≠ 0 then some .descriptorError else none
  | recv _ .endOfStream => some .closedByPeer
  | recv _ (.failed errno) => if ReadRetry errno then none else some .closed
  | recv _ (.received _ _ _) => none
  | send _ result => if result.status < 0 ∧ ¬ result.WouldBlock then some .closed else none
  | shutdown _ | close _ => none

/-- A system call that closes nothing and transfers nothing on another descriptor. -/
structure OnlyOn (d : Int) (c : SystemCall) : Prop where
  keeps : ∀ d', c ≠ .close d'
  same : ∀ d', c.transfer = some d' → d' = d

/-- A system call of a socket that is open and stays so. -/
structure Harmless (d : Int) (c : SystemCall) : Prop extends c.OnlyOn d where
  goesOn : c.ending = none

/-- A call that transfers bytes closes nothing. -/
theorem onlyOn_of_transfer {d : Int} {c : SystemCall} (h : c.transfer = some d) : c.OnlyOn d := by
  refine ⟨?_, fun d' hd' => Option.some.inj (hd'.symm.trans h)⟩
  rintro d' rfl
  cases h

end SystemCall

/-- A socket for a descriptor, with this answer of `getpeername`, between two calls. -/
inductive Life (d res : Int) : SocketLife → Prop where
  | opened {calls} (hopen : 0 < d ∧ res = 0) (hclean : ∀ c ∈ calls, c.Harmless d) :
      Life d res ⟨⟨d, .ok⟩, calls⟩
  | closed {calls last cause} (hopen : 0 < d ∧ res = 0) (hclean : ∀ c ∈ calls, c.Harmless d)
      (hlast : last.transfer = some d) (hcause : last.ending = some cause) :
      Life d res ⟨⟨-1, .closed⟩, calls ++ [last, .close d]⟩
  | lost (hpos : 0 < d) (hres : res ≠ 0) :
      Life d res ⟨⟨-1, .descriptorError⟩, [.getpeername d res]⟩
  | unused (hnone : d ≤ 0) : Life d res ⟨⟨d, .ok⟩, []⟩
  | unusable (hnone : d ≤ 0) : Life d res ⟨⟨d, .descriptorError⟩, []⟩

namespace SocketLife

variable {d res : Int} {s s' : SocketLife} {calls : List SystemCall}

/-- The form of a new socket. -/
theorem construct_life (d res : Int) : Life d res (construct d res) := by
  by_cases hpos : 0 < d
  · by_cases hres : res = 0
    · subst hres
      have hclean : ∀ c ∈ [SystemCall.getpeername d 0], c.Harmless d := by
        intro c hc
        obtain rfl := List.mem_singleton.mp hc
        exact ⟨⟨nofun, nofun⟩, rfl⟩
      simpa [construct, setDescriptor, record, TCPSocket.resetStatus, hpos] using
        Life.opened ⟨hpos, rfl⟩ hclean
    · have hlost : Life d res _ := .lost hpos hres
      simpa [construct, setDescriptor, record, hpos, hres] using hlost
  · have hunused : Life d res _ := .unused (Int.not_lt.mp hpos)
    simpa [construct, setDescriptor, TCPSocket.resetStatus, hpos] using hunused

/-- An open socket after a system call that does not end the connection. -/
theorem record_opened (hopen : 0 < d ∧ res = 0) (hclean : ∀ c ∈ calls, c.Harmless d)
    {last : SystemCall} (hlast : last.transfer = some d)
    (hcause : last.ending = none) : Life d res (record ⟨⟨d, .ok⟩, calls⟩ last) := by
  refine .opened hopen fun c hc => ?_
  rcases List.mem_append.mp hc with hearlier | hnew
  · exact hclean c hearlier
  · obtain rfl := List.mem_singleton.mp hnew
    exact ⟨SystemCall.onlyOn_of_transfer hlast, hcause⟩

/-- An open socket that is closed after a system call that ends the connection. -/
theorem record_closed (hopen : 0 < d ∧ res = 0) (hclean : ∀ c ∈ calls, c.Harmless d)
    {last : SystemCall} {cause : NetSocketStatus} (hlast : last.transfer = some d)
    (hcause : last.ending = some cause) (status : NetSocketStatus) :
    Life d res (((record ⟨⟨d, .ok⟩, calls⟩ last).setStatus status).closeDescriptor) := by
  have hclosed : Life d res _ := .closed hopen hclean hlast hcause
  simpa [record, setStatus, closeDescriptor, TCPSocket.closeDescriptor, TCPSocket.resetStatus,
    hopen.1] using hclosed

/-- Once the status is not OK every call returns −1 and makes no system call. -/
theorem call_ended (h : s.socket.status ≠ .ok) (op : SocketOp) : s.call op = some (-1, s) := by
  cases op with
  | read buf result => simp [call, read, h]
  | write buf results => simp [call, write, h]

/-- A read of an open socket. -/
theorem read_opened (hopen : 0 < d ∧ res = 0) (hclean : ∀ c ∈ calls, c.Harmless d)
    (buf : SizedArray Nm) (result : RecvResult) :
    Life d res (read ⟨⟨d, .ok⟩, calls⟩ buf result).2.2 := by
  have hread : read ⟨⟨d, .ok⟩, calls⟩ buf result = match result with
      | .failed errno =>
          if ReadRetry errno then (0, buf.clear.resize 0, record ⟨⟨d, .ok⟩, calls⟩ (.recv d result))
          else (-1, buf.clear.resize 0,
            ((record ⟨⟨d, .ok⟩, calls⟩ (.recv d result)).setStatus .closed).closeDescriptor)
      | .endOfStream => (-1, buf.clear.resize 0,
          ((record ⟨⟨d, .ok⟩, calls⟩ (.recv d result)).setStatus .closedByPeer).closeDescriptor)
      | .received bytes _ _ => (bytes.length,
          ((buf.clear.resize 0).store bytes).resize bytes.length,
          record ⟨⟨d, .ok⟩, calls⟩ (.recv d result)) := by
    simp [read, setStatus, hopen.1]
  rw [hread]
  cases result with
  | received bytes nonempty fits => exact record_opened hopen hclean rfl rfl
  | endOfStream => exact record_closed hopen hclean rfl rfl _
  | failed errno =>
      simp only
      split
      · rename_i hretry
        exact record_opened hopen hclean rfl (if_pos hretry)
      · rename_i hretry
        have hcause : SystemCall.ending (.recv d (.failed errno)) = some .closed := if_neg hretry
        exact record_closed hopen hclean rfl hcause _

/-- The loop of a write on an open socket. -/
theorem sendLoop_opened {buf : SizedArray Nm} {sentSize : Nat} {results : List SendResult}
    {run : LifeWrite Nm} (hopen : 0 < d ∧ res = 0) (hclean : ∀ c ∈ calls, c.Harmless d)
    (h : sendLoop ⟨⟨d, .ok⟩, calls⟩ buf sentSize results = some run) : Life d res run.life := by
  induction results generalizing calls sentSize with
  | nil =>
      rw [sendLoop] at h
      split at h
      · cases h
      · obtain rfl := Option.some.inj h
        exact .opened hopen hclean
  | cons result rest ih =>
      rw [sendLoop] at h
      split at h
      · simp only at h
        split at h
        · rename_i hblock
          obtain rfl := Option.some.inj h
          refine record_opened hopen hclean rfl (if_neg fun hfailed => ?_)
          exact hfailed.2 hblock
        · rename_i hnot
          split at h
          · rename_i hneg
            obtain rfl := Option.some.inj h
            have hcause : SystemCall.ending (.send d result) = some .closed := if_pos ⟨hneg, hnot⟩
            exact record_closed hopen hclean rfl hcause _
          · rename_i hcount
            have hsent : SystemCall.ending (.send d result) = none := if_neg fun hfailed =>
              hcount hfailed.1
            refine ih (fun c hc => ?_) h
            rcases List.mem_append.mp hc with hearlier | hnew
            · exact hclean c hearlier
            · obtain rfl := List.mem_singleton.mp hnew
              exact ⟨SystemCall.onlyOn_of_transfer rfl, hsent⟩
      · obtain rfl := Option.some.inj h
        exact .opened hopen hclean

/-- No call leads out of the forms of a socket. -/
theorem call_life {op : SocketOp} {ret : Int} (h : Life d res s)
    (hcall : s.call op = some (ret, s')) : Life d res s' := by
  by_cases hstatus : s.socket.status = .ok
  · cases h with
    | opened hopen hclean =>
        cases op with
        | read buf result =>
            obtain ⟨-, rfl⟩ := Prod.mk.inj (Option.some.inj hcall)
            exact read_opened hopen hclean buf result
        | write buf results =>
            obtain ⟨run, hrun, hend⟩ := Option.map_eq_some_iff.mp hcall
            obtain ⟨-, rfl⟩ := Prod.mk.inj hend
            simp only [write, setStatus, ne_eq, not_true_eq_false, if_false, hopen.1, if_true]
              at hrun
            exact sendLoop_opened hopen hclean hrun
    | unused hnone =>
        have hnot : ¬ 0 < d := Int.not_lt.mpr hnone
        cases op with
        | read buf result =>
            obtain ⟨-, rfl⟩ := Prod.mk.inj (Option.some.inj hcall)
            have hunusable : Life d res _ := .unusable hnone
            simpa [read, setStatus, hnot] using hunusable
        | write buf results =>
            simp only [call, write, setStatus, ne_eq, not_true_eq_false, if_false, hnot,
              Option.map_some] at hcall
            obtain ⟨-, rfl⟩ := Prod.mk.inj (Option.some.inj hcall)
            exact .unusable hnone
    | closed | lost | unusable => cases hstatus
  · rw [call_ended hstatus] at hcall
    obtain ⟨-, rfl⟩ := Prod.mk.inj (Option.some.inj hcall)
    exact h

/-- No sequence of calls does. -/
theorem callAll_life {ops : List SocketOp} {rets : List Int} (h : Life d res s)
    (hcalls : callAll ops s = some (rets, s')) : Life d res s' := by
  induction ops generalizing s rets with
  | nil =>
      obtain ⟨-, rfl⟩ := Prod.mk.inj (Option.some.inj hcalls)
      exact h
  | cons op rest ih =>
      obtain ⟨⟨ret, middle⟩, hfirst, hmore⟩ := Option.bind_eq_some_iff.mp hcalls
      obtain ⟨⟨later, last⟩, hrest, hend⟩ := Option.bind_eq_some_iff.mp hmore
      obtain ⟨-, rfl⟩ := Prod.mk.inj (Option.some.inj hend)
      exact ih (call_life h hfirst) hrest

end SocketLife

/-! ## The descriptor -/

/-- `close` was called once on the descriptor, nothing was received or sent on it afterwards, and
nothing on any other descriptor. -/
structure ClosedOnce (d : Int) (calls : List SystemCall) : Prop where
  once : calls.count (.close d) = 1
  last : ∀ earlier later, calls = earlier ++ .close d :: later → ∀ c ∈ later, c.transfer ≠ some d
  same : ∀ c ∈ calls, ∀ d', c.transfer = some d' → d' = d

/-- System calls of an open socket, one `close`, and no transfers behind it. -/
theorem ClosedOnce.of_split {d : Int} {before after : List SystemCall}
    (hbefore : ∀ c ∈ before, c.OnlyOn d)
    (hafter : ∀ c ∈ after, c ≠ .close d ∧ c.transfer = none) :
    ClosedOnce d (before ++ .close d :: after) := by
  have hnotBefore : SystemCall.close d ∉ before := fun hmem => (hbefore _ hmem).keeps d rfl
  have hnotAfter : SystemCall.close d ∉ after := fun hmem => (hafter _ hmem).1 rfl
  refine ⟨?_, fun earlier later hsplit c hc => ?_, fun c hc d' hd' => ?_⟩
  · rw [List.count_append, List.count_cons_self, List.count_eq_zero.mpr hnotBefore,
      List.count_eq_zero.mpr hnotAfter]
  · obtain ⟨-, -, rfl⟩ := (List.append_cons_inj_of_notMem hnotBefore hnotAfter).mp hsplit
    simp [(hafter c hc).2]
  · rcases List.mem_append.mp hc with hearlier | hlater
    · exact (hbefore c hearlier).same d' hd'
    · rcases List.mem_cons.mp hlater with rfl | hlater
      · cases hd'
      · cases hd'.symm.trans (hafter c hlater).2

namespace SocketLife

variable {d res : Int} {s : SocketLife} {ops : List SocketOp} {rets : List Int}

/-- A socket whose `getpeername` has succeeded closes its descriptor once. -/
theorem destroy_closedOnce (hpos : 0 < d) (h : Life d 0 s) : ClosedOnce d s.destroy.calls := by
  cases h with
  | @opened calls hopen hclean =>
      -- the destructor closes the descriptor, behind `shutdown`
      have hbefore : ∀ c ∈ calls ++ [.shutdown d], c.OnlyOn d := by
        intro c hc
        rcases List.mem_append.mp hc with hearlier | hnew
        · exact (hclean c hearlier).toOnlyOn
        · obtain rfl := List.mem_singleton.mp hnew
          exact ⟨nofun, nofun⟩
      have honce : ClosedOnce d ((calls ++ [.shutdown d]) ++ .close d :: []) :=
        .of_split hbefore (by simp)
      have hne : d ≠ 0 := by omega
      simpa [destroy, record, closeDescriptor, hpos, hne] using honce
  | @closed calls last cause hopen hclean hlast hcause =>
      have hbefore : ∀ c ∈ calls ++ [last], c.OnlyOn d := by
        intro c hc
        rcases List.mem_append.mp hc with hearlier | hnew
        · exact (hclean c hearlier).toOnlyOn
        · obtain rfl := List.mem_singleton.mp hnew
          exact SystemCall.onlyOn_of_transfer hlast
      have hafter : ∀ c ∈ [SystemCall.shutdown (-1)], c ≠ .close d ∧ c.transfer = none := by
        simp [SystemCall.transfer]
      have honce := ClosedOnce.of_split hbefore hafter
      simpa [destroy, record, closeDescriptor] using honce
  | lost _ hres => exact absurd rfl hres
  | unused hnone | unusable hnone => exact absurd hpos (Int.not_lt.mpr hnone)

/-- A socket whose `getpeername` has failed has forgotten its descriptor. -/
theorem life_lost (hpos : 0 < d) (hres : res ≠ 0) (h : Life d res s) :
    s = ⟨⟨-1, .descriptorError⟩, [.getpeername d res]⟩ := by
  cases h with
  | opened hopen _ | closed hopen _ _ _ => exact absurd hopen.2 hres
  | lost => rfl
  | unused hnone | unusable hnone => exact absurd hpos (Int.not_lt.mpr hnone)

/-- A socket for a descriptor, after any calls of `read` and `write` and its destruction, has closed
the descriptor exactly once, with no transfer behind that and none elsewhere, if and only if its
`getpeername` succeeded. -/
theorem descriptor_closedOnce_iff (hpos : 0 < d)
    (hcalls : callAll ops (construct d res) = some (rets, s)) :
    ClosedOnce d s.destroy.calls ↔ res = 0 := by
  have hlife := callAll_life (construct_life d res) hcalls
  constructor
  · intro hclosed
    by_contra hres
    obtain rfl := life_lost hpos hres hlife
    have hnever : (destroy ⟨⟨-1, .descriptorError⟩, [.getpeername d res]⟩).calls =
        [.getpeername d res, .shutdown (-1)] := rfl
    have honce := hclosed.once
    rw [hnever] at honce
    simp at honce
  · rintro rfl
    exact destroy_closedOnce hpos hlife

/-- A socket that reads the end of the stream, is read again and is destroyed. -/
theorem descriptor_closedOnce_iff_peer_gone :
    ∃ s : SocketLife, callAll [.read (.new _) .endOfStream, .read (.new _) .endOfStream]
        (construct 5 0) = some ([-1, -1], s) ∧ ClosedOnce 5 s.destroy.calls := by
  refine ⟨_, rfl, ?_⟩
  exact (descriptor_closedOnce_iff (by decide)
    (rfl : callAll [.read (.new _) .endOfStream, .read (.new _) .endOfStream] (construct 5 0) =
      _)).mpr rfl

/-- A socket whose `getpeername` fails is destroyed: the descriptor stays open. -/
theorem descriptor_never_closed :
    callAll [] (construct 5 (-1)) = some ([], construct 5 (-1)) ∧
      (construct 5 (-1)).destroy.calls = [.getpeername 5 (-1), .shutdown (-1)] ∧
      ¬ ClosedOnce 5 (construct 5 (-1)).destroy.calls := by
  refine ⟨rfl, rfl, fun hclosed => ?_⟩
  exact absurd hclosed.once (by decide)

/-! ## The status -/

/-- Once the status is not OK, all further calls return −1, without a system call and with the same
status. -/
def Sticky (s : SocketLife) : Prop :=
  s.socket.status ≠ .ok → ∀ more, callAll more s = some (List.replicate more.length (-1), s)

/-- The status of a socket constructed with this descriptor, after these calls, tells the first
event that ended the connection: that of a system call, or a call without a usable descriptor. -/
structure NamesCause (d : Int) (ops : List SocketOp) (s : SocketLife) : Prop where
  ended : ∀ cause, s.calls.findSome? SystemCall.ending = some cause → s.socket.status = cause
  unusable : d ≤ 0 → ops ≠ [] → s.socket.status = .descriptorError
  goesOn : s.calls.findSome? SystemCall.ending = none → 0 < d ∨ ops = [] → s.socket.status = .ok

theorem sticky (s : SocketLife) : s.Sticky := by
  intro hstatus more
  induction more with
  | nil => rfl
  | cons op rest ih => simp [callAll, call_ended hstatus, ih, List.replicate_succ]

/-- The first call on a socket without a descriptor finds that out. -/
theorem call_unused (hnone : d ≤ 0) (op : SocketOp) :
    call ⟨⟨d, .ok⟩, []⟩ op = some (-1, ⟨⟨d, .descriptorError⟩, []⟩) := by
  have hnot : ¬ 0 < d := Int.not_lt.mpr hnone
  cases op with
  | read buf result => simp [call, read, setStatus, hnot]
  | write buf results => simp [call, write, setStatus, hnot]

/-- A new socket without a descriptor. -/
theorem construct_unused (hnone : d ≤ 0) : construct d res = ⟨⟨d, .ok⟩, []⟩ := by
  have hnot : ¬ 0 < d := Int.not_lt.mpr hnone
  simp [construct, setDescriptor, TCPSocket.resetStatus, hnot]

/-- A socket without a descriptor after some calls. -/
theorem callAll_unused (hnone : d ≤ 0) (hops : ops ≠ [])
    (hcalls : callAll ops (construct d res) = some (rets, s)) :
    s = ⟨⟨d, .descriptorError⟩, []⟩ := by
  obtain ⟨op, rest, rfl⟩ := List.exists_cons_of_ne_nil hops
  have hlater := sticky ⟨⟨d, .descriptorError⟩, []⟩ nofun rest
  rw [construct_unused hnone, callAll, call_unused hnone] at hcalls
  simp only [Option.bind_eq_bind, Option.bind_some, hlater] at hcalls
  exact (Prod.mk.inj (Option.some.inj hcalls)).2.symm

/-- Harmless system calls end no connection. -/
theorem findSome?_harmless {calls : List SystemCall} (hclean : ∀ c ∈ calls, c.Harmless d) :
    calls.findSome? SystemCall.ending = none :=
  List.findSome?_eq_none_iff.mpr fun c hc => (hclean c hc).goesOn

/-- The end of a stream is not harmless. -/
theorem endOfStream_notMem {calls : List SystemCall} (hclean : ∀ c ∈ calls, c.Harmless d)
    (descr : Int) : .recv descr .endOfStream ∉ calls := by
  intro hmem
  have hgoesOn := (hclean _ hmem).goesOn
  cases hgoesOn

/-- A system call that transfers bytes ends the connection as `TCPSOCKET_CLOSED`, unless it is a
`recv` that finds the end of the stream. -/
theorem ending_closed_iff {last : SystemCall} {cause : NetSocketStatus}
    (hlast : last.transfer = some d) (hcause : last.ending = some cause) :
    cause = .closed ↔ last ≠ .recv d .endOfStream := by
  cases last with
  | recv descr result =>
      obtain rfl := Option.some.inj hlast
      cases result with
      | received bytes nonempty fits => cases hcause
      | endOfStream =>
          obtain rfl := Option.some.inj hcause
          simp
      | failed errno =>
          simp only [SystemCall.ending] at hcause
          split at hcause
          · cases hcause
          · obtain rfl := Option.some.inj hcause
            simp
  | send descr result =>
      simp only [SystemCall.ending] at hcause
      split at hcause
      · obtain rfl := Option.some.inj hcause
        simp
      · cases hcause
  | getpeername | shutdown | close => cases hlast

section Closed

variable {calls : List SystemCall} {last : SystemCall} {cause : NetSocketStatus}

/-- The first event of a closed socket is that of its last transfer. -/
theorem findSome?_closed (hclean : ∀ c ∈ calls, c.Harmless d) (hcause : last.ending = some cause) :
    (calls ++ [last, .close d]).findSome? SystemCall.ending = some cause := by
  rw [List.findSome?_append, findSome?_harmless hclean, Option.none_or,
    List.findSome?_cons_of_isSome (by rw [hcause]; rfl), hcause]

/-- A closed socket names its cause exactly when that is `TCPSOCKET_CLOSED`. -/
theorem namesCause_closed_iff (hpos : 0 < d) (hclean : ∀ c ∈ calls, c.Harmless d)
    (hcause : last.ending = some cause) :
    NamesCause d ops ⟨⟨-1, .closed⟩, calls ++ [last, .close d]⟩ ↔ cause = .closed := by
  have hfirst := findSome?_closed hclean hcause
  constructor
  · exact fun hnames => (hnames.ended cause hfirst).symm
  · rintro rfl
    refine ⟨fun cause hended => Option.some.inj (hfirst.symm.trans hended), ?_, ?_⟩
    · exact fun hnone => absurd hpos (Int.not_lt.mpr hnone)
    · exact fun hgoesOn => by cases hfirst.symm.trans hgoesOn

/-- In a closed socket only the last transfer can be a `recv` that has found the end of the
stream. -/
theorem endOfStream_closed_iff (hclean : ∀ c ∈ calls, c.Harmless d)
    (hlast : last.transfer = some d) :
    (∀ descr, .recv descr .endOfStream ∉ calls ++ [last, .close d]) ↔
      last ≠ .recv d .endOfStream := by
  constructor
  · rintro hnever rfl
    exact hnever d (by simp)
  · intro hnot descr hmem
    rcases List.mem_append.mp hmem with hearlier | hlater
    · exact endOfStream_notMem hclean descr hearlier
    · have hsame : last = .recv descr .endOfStream := by simpa [eq_comm] using hlater
      rw [hsame] at hlast
      obtain rfl := Option.some.inj hlast
      exact hnot hsame

end Closed

/-- After any calls of `read` and `write`, a status that is not OK stays and no call reaches the
system any more; and the status names what ended the connection if and only if no `recv` has
returned zero. -/
theorem status_namesCause_iff (hcalls : callAll ops (construct d res) = some (rets, s)) :
    (s.Sticky ∧ NamesCause d ops s) ↔ ∀ descr, .recv descr .endOfStream ∉ s.calls := by
  have hused := fun hnone hops => callAll_unused (d := d) hnone hops hcalls
  have hlife := callAll_life (construct_life d res) hcalls
  cases hlife with
  | opened hopen hclean =>
      have hnothing := findSome?_harmless hclean
      refine iff_of_true ⟨sticky _, ?_, ?_, ?_⟩ (endOfStream_notMem hclean)
      · exact fun cause hended => by cases hnothing.symm.trans hended
      · exact fun hnone => absurd hopen.1 (Int.not_lt.mpr hnone)
      · exact fun _ _ => rfl
  | closed hopen hclean hlast hcause =>
      rw [and_iff_right (sticky _), namesCause_closed_iff hopen.1 hclean hcause,
        ending_closed_iff hlast hcause, endOfStream_closed_iff hclean hlast]
  | lost hpos hres =>
      have hfirst : [SystemCall.getpeername d res].findSome? SystemCall.ending =
          some .descriptorError := by
        simp [SystemCall.ending, hres]
      refine iff_of_true ⟨sticky _, ?_, ?_, ?_⟩ (by simp)
      · exact fun cause hended => Option.some.inj (hfirst.symm.trans hended)
      · exact fun hnone => absurd hpos (Int.not_lt.mpr hnone)
      · exact fun hgoesOn => by cases hfirst.symm.trans hgoesOn
  | unused hnone =>
      have hops : ops = [] := by
        by_contra hops
        cases hused hnone hops
      refine iff_of_true ⟨sticky _, nofun, ?_, fun _ _ => rfl⟩ (by simp)
      exact fun _ hsome => absurd hops hsome
  | unusable hnone =>
      refine iff_of_true ⟨sticky _, nofun, fun _ _ => rfl, ?_⟩ (by simp)
      rintro - (hpos | rfl)
      · exact absurd hpos (Int.not_lt.mpr hnone)
      · obtain ⟨-, hunusable⟩ := Prod.mk.inj (Option.some.inj hcalls)
        rw [construct_unused hnone] at hunusable
        cases hunusable

/-- A socket whose second `recv` fails, and a write behind it. -/
theorem status_namesCause_iff_failed_recv :
    Sticky ⟨⟨-1, .closed⟩, [.getpeername 5 0, .recv 5 (.failed EAGAIN), .recv 5 (.failed 104),
        .close 5]⟩ ∧
      NamesCause 5 [.read (.new _) (.failed EAGAIN), .read (.new _) (.failed 104),
          .write (.new _) []]
        ⟨⟨-1, .closed⟩, [.getpeername 5 0, .recv 5 (.failed EAGAIN), .recv 5 (.failed 104),
          .close 5]⟩ := by
  have hcalls : callAll [.read (.new _) (.failed EAGAIN), .read (.new _) (.failed 104),
      .write (.new _) []] (construct 5 0) = some ([0, -1, -1], ⟨⟨-1, .closed⟩,
        [.getpeername 5 0, .recv 5 (.failed EAGAIN), .recv 5 (.failed 104), .close 5]⟩) := rfl
  exact (status_namesCause_iff hcalls).mpr (by simp)

/-- A socket whose peer closes the connection says that it was closed here. -/
theorem closedByPeer_overwritten :
    ∃ s : SocketLife, callAll [.read (.new _) .endOfStream] (construct 5 0) = some ([-1], s) ∧
      s.socket.status = .closed ∧ ¬ NamesCause 5 [.read (.new _) .endOfStream] s := by
  refine ⟨_, rfl, rfl, fun hnames => ?_⟩
  cases hnames.ended .closedByPeer rfl

end SocketLife

end Shovel.Network
