import Shovel.Network.SocketLife

/-!
# The TCP client

`TCPClient::connect` with the answers of the system, repeated on one client. The
run keeps what becomes of each descriptor: `socket` opens it, the connected
callback receives it inside a `TCPSocket`, the client could close it. The last
never happens: `connect` and its helper hold no call of `close`, so that an
attempt that fails behind `socket` leaves its descriptor open. The error exits of
`TCPServer::start_listen` close theirs.
-/

namespace Shovel.Network

/-- `TCPClient::NetClientStatus`. -/
inductive NetClientStatus where
  | ok
  | socketConnectError
  | socketError
  | setsockoptError
  deriving DecidableEq, Repr

/-- The members `m_status`, `m_ip` and `m_port`. -/
structure TCPClient where
  status : NetClientStatus
  ip : String
  port : UInt16
  deriving DecidableEq, Repr

def SOL_SOCKET : Nat := 1

def SOL_TCP : Nat := 6

def TCP_CLIENT_RCV_TIMEOUT_MSEC : Nat := 1000

def TCP_CLIENT_SND_TIMEOUT_MSEC : Nat := 1000

/-- An option of a socket with its value: an integer, or a `timeval`. -/
inductive SocketOption where
  | flag (level name value : Nat)
  | timeout (name seconds microseconds : Nat)
  deriving DecidableEq, Repr

/-- The options of `set_client_socket_flags`, in order: `SO_KEEPALIVE`, `TCP_KEEPIDLE`,
`TCP_KEEPCNT`, `TCP_KEEPINTVL`, `TCP_USER_TIMEOUT`, `TCP_NODELAY`, `TCP_QUICKACK`, and behind the
loop `SO_RCVTIMEO` and `SO_SNDTIMEO`. -/
def clientSocketOptions : List SocketOption :=
  [.flag SOL_SOCKET 9 1, .flag SOL_TCP 4 2, .flag SOL_TCP 6 3, .flag SOL_TCP 5 400,
    .flag SOL_TCP 18 4000, .flag SOL_TCP 1 1, .flag SOL_TCP 12 1,
    .timeout 20 (TCP_CLIENT_RCV_TIMEOUT_MSEC / 1000) (TCP_CLIENT_RCV_TIMEOUT_MSEC % 1000),
    .timeout 21 (TCP_CLIENT_SND_TIMEOUT_MSEC / 1000) (TCP_CLIENT_SND_TIMEOUT_MSEC % 1000)]

/-- A call of `connect` with what the system answers: `socket` with a positive descriptor or an
error, and the others as they are called. What `setsockopt` says of the two buffer sizes is not
read. -/
structure ConnectAttempt where
  ip : String
  port : UInt16
  socket : Int
  socket_ne : socket ≠ 0
  inetPton : Int
  connect : Int
  setsockopt : SocketOption → Int
  getpeername : Int

/-- What becomes of a descriptor: `socket` returns it, the connected callback receives a socket, the
client closes it. -/
inductive DescriptorEvent where
  | opened (descr : Int)
  | handed (socket : TCPSocket)
  | closed (descr : Int)
  deriving DecidableEq

/-- A client with the events so far. -/
structure ClientLife where
  client : TCPClient
  events : List DescriptorEvent
  deriving DecidableEq

namespace ClientLife

/-- The constructor. -/
def init : ClientLife := ⟨⟨.ok, "0.0.0.0", 0⟩, []⟩

/-- One more event. -/
def record (c : ClientLife) (e : DescriptorEvent) : ClientLife :=
  { c with events := c.events ++ [e] }

/-- `m_status = status`. -/
def setStatus (c : ClientLife) (status : NetClientStatus) : ClientLife :=
  { c with client := { c.client with status } }

/-- `set_client_socket_flags`: the first option that the system refuses ends it. -/
def setClientSocketFlags (c : ClientLife) (setsockopt : SocketOption → Int) : Int × ClientLife :=
  if clientSocketOptions.any fun option => setsockopt option < 0 then
    (-1, c.setStatus .setsockoptError)
  else (0, c)

/-- `call_connect_callback_function`. It does not look at the result of
`set_client_socket_flags`. -/
def callConnectCallback (c : ClientLife) (s : Int) (a : ConnectAttempt) : ClientLife :=
  if s ≤ 0 then c
  else
    let (_, c) := c.setClientSocketFlags a.setsockopt
    c.record (.handed (SocketLife.construct s a.getpeername).socket)

/-- `connect`. -/
def connect (c : ClientLife) (a : ConnectAttempt) : ClientLife :=
  let c : ClientLife := { c with client := { status := .ok, ip := a.ip, port := a.port } }
  if a.socket < 0 then c.setStatus .socketConnectError
  else
    let c := c.record (.opened a.socket)
    -- both `s == 0` and `s < 0` end here, with different messages
    if a.inetPton ≤ 0 then c.setStatus .socketError
    else if a.connect = 0 then c.callConnectCallback a.socket a
    else c.setStatus .socketError

/-- Successive calls of `connect`. -/
def connectAll (attempts : List ConnectAttempt) (c : ClientLife) : ClientLife :=
  attempts.foldl connect c

end ClientLife

/-! ## Who owns the descriptors -/

/-- The event gives the descriptor a last owner: a socket that holds it is handed over, or it is
closed. -/
def DescriptorEvent.settles (d : Int) : DescriptorEvent → Bool
  | opened _ => false
  | handed socket => socket.descr == d
  | closed descr => descr == d

/-- Each time `socket` returned a descriptor, the descriptor was handed over or closed, once. -/
def NoneOwnerless (events : List DescriptorEvent) : Prop :=
  ∀ d, 0 < d → events.count (.opened d) = events.countP (DescriptorEvent.settles d)

namespace ConnectAttempt

/-- The address is readable, the connection comes about, and it is still there when the
constructor of `TCPSocket` asks for the peer. -/
def Connects (a : ConnectAttempt) : Prop := 0 < a.inetPton ∧ a.connect = 0 ∧ a.getpeername = 0

instance (a : ConnectAttempt) : Decidable a.Connects :=
  inferInstanceAs (Decidable (_ ∧ _ ∧ _))

/-- The attempt gets the descriptor and leaves it without an owner. -/
def Loses (d : Int) (a : ConnectAttempt) : Prop := a.socket = d ∧ ¬ a.Connects

instance (d : Int) : DecidablePred (Loses d) := fun a =>
  inferInstanceAs (Decidable (a.socket = d ∧ ¬ a.Connects))

/-- The events of one attempt. -/
def events (a : ConnectAttempt) : List DescriptorEvent :=
  if a.socket < 0 then []
  else if a.inetPton ≤ 0 ∨ a.connect ≠ 0 then [.opened a.socket]
  else [.opened a.socket, .handed (SocketLife.construct a.socket a.getpeername).socket]

end ConnectAttempt

namespace ClientLife

variable {c : ClientLife} {a : ConnectAttempt}

@[simp] theorem record_events (c : ClientLife) (e : DescriptorEvent) :
    (c.record e).events = c.events ++ [e] := rfl

@[simp] theorem setStatus_events (c : ClientLife) (status : NetClientStatus) :
    (c.setStatus status).events = c.events := rfl

@[simp] theorem setClientSocketFlags_events (c : ClientLife) (setsockopt : SocketOption → Int) :
    (c.setClientSocketFlags setsockopt).2.events = c.events := by
  unfold setClientSocketFlags
  split <;> rfl

/-- What a call of `connect` does to the descriptors does not depend on the client. -/
theorem connect_events (c : ClientLife) (a : ConnectAttempt) :
    (c.connect a).events = c.events ++ a.events := by
  have hne := a.socket_ne
  by_cases hfailed : a.socket < 0
  · simp [connect, ConnectAttempt.events, hfailed]
  · have hnot : ¬ a.socket ≤ 0 := by omega
    by_cases hpton : a.inetPton ≤ 0
    · simp [connect, ConnectAttempt.events, hfailed, hpton]
    · by_cases hconnect : a.connect = 0
      · simp [connect, callConnectCallback, ConnectAttempt.events, hfailed, hnot, hpton, hconnect]
      · simp [connect, ConnectAttempt.events, hfailed, hpton, hconnect]

/-- The descriptor in a new socket. -/
theorem construct_descr {d : Int} (hpos : 0 < d) (res : Int) :
    (SocketLife.construct d res).socket.descr = if res = 0 then d else -1 := by
  by_cases hres : res = 0 <;>
    simp [SocketLife.construct, SocketLife.setDescriptor, SocketLife.record,
      TCPSocket.resetStatus, hpos, hres]

/-- One attempt opens as many descriptors `d` as it settles, and one more if it loses it. -/
theorem attempt_count {d : Int} (hpos : 0 < d) (a : ConnectAttempt) :
    a.events.count (.opened d) =
      a.events.countP (DescriptorEvent.settles d) + if a.Loses d then 1 else 0 := by
  by_cases hfailed : a.socket < 0
  · have hloses : ¬ a.Loses d := fun h => by have := h.1; omega
    simp [ConnectAttempt.events, hfailed, hloses]
  · by_cases hexit : a.inetPton ≤ 0 ∨ a.connect ≠ 0
    · have hloses : a.Loses d ↔ a.socket = d := by
        simp only [ConnectAttempt.Loses, ConnectAttempt.Connects]
        omega
      simp [ConnectAttempt.events, hfailed, hexit, hloses, DescriptorEvent.settles,
        List.count_singleton]
    · have hopen : 0 < a.socket := by have := a.socket_ne; omega
      have hloses : a.Loses d ↔ a.socket = d ∧ a.getpeername ≠ 0 := by
        simp only [ConnectAttempt.Loses, ConnectAttempt.Connects]
        omega
      by_cases hpeer : a.getpeername = 0
      · simp [ConnectAttempt.events, hfailed, hexit, hloses, DescriptorEvent.settles,
          List.count_cons, List.countP_cons, construct_descr hopen, hpeer]
      · have hother : (-1 : Int) ≠ d := by omega
        simp [ConnectAttempt.events, hfailed, hexit, hloses, DescriptorEvent.settles,
          List.count_cons, construct_descr hopen, hpeer, hother]

/-- The events of successive calls. -/
theorem connectAll_events (attempts : List ConnectAttempt) (c : ClientLife) :
    (connectAll attempts c).events = c.events ++ attempts.flatMap ConnectAttempt.events := by
  induction attempts generalizing c with
  | nil => simp [connectAll]
  | cons a rest ih =>
      have hrun : connectAll (a :: rest) c = connectAll rest (c.connect a) := rfl
      rw [hrun, ih, connect_events, List.flatMap_cons, List.append_assoc]

/-- Over any calls, what is opened and not settled are the descriptors that attempts lose. -/
theorem connectAll_count {d : Int} (hpos : 0 < d) (attempts : List ConnectAttempt) :
    (connectAll attempts init).events.count (.opened d) =
      (connectAll attempts init).events.countP (DescriptorEvent.settles d) +
        attempts.countP (ConnectAttempt.Loses d ·) := by
  rw [connectAll_events, init, List.nil_append]
  induction attempts with
  | nil => rfl
  | cons a rest ih =>
      rw [List.flatMap_cons, List.count_append, List.countP_append, ih, attempt_count hpos,
        List.countP_cons]
      simp only [decide_eq_true_eq]
      omega

/-- After every call of `connect` each descriptor that `socket` has returned is owned by a socket
handed to the callback or has been closed, if and only if every attempt that gets a descriptor
connects. -/
theorem noneOwnerless_iff (attempts : List ConnectAttempt) :
    (∀ done, done <+: attempts → NoneOwnerless (connectAll done init).events) ↔
      ∀ a ∈ attempts, 0 < a.socket → a.Connects := by
  constructor
  · intro hnone a ha hopen
    by_contra hnot
    have hcount := connectAll_count hopen attempts
    rw [hnone attempts (List.prefix_refl _) a.socket hopen] at hcount
    have hlost : 0 < attempts.countP (ConnectAttempt.Loses a.socket ·) :=
      List.countP_pos_iff.mpr ⟨a, ha, decide_eq_true ⟨rfl, hnot⟩⟩
    omega
  · intro hall done hdone d hpos
    have hkept : done.countP (ConnectAttempt.Loses d ·) = 0 := by
      refine List.countP_eq_zero.mpr fun a ha hloses => ?_
      obtain ⟨rfl, hnot⟩ := of_decide_eq_true hloses
      exact hnot (hall a (hdone.subset ha) hpos)
    rw [connectAll_count hpos, hkept, Nat.add_zero]

/-- An attempt to reach an address where nobody listens. -/
def refused : ConnectAttempt :=
  ⟨"127.0.0.1", 80, 5, by decide, 1, -1, fun _ => 0, 0⟩

/-- Its descriptor stays open. -/
theorem refused_ownerless :
    (connectAll [refused] init).events = [.opened 5] ∧
      ¬ ∀ done, done <+: [refused] → NoneOwnerless (connectAll done init).events := by
  refine ⟨by decide, fun hnone => ?_⟩
  exact absurd (hnone _ (List.prefix_refl _) 5 (by decide)) (by decide)

end ClientLife

end Shovel.Network
