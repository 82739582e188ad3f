import Shovel.Network.TCPSocket

/-!
# The TCP server

The members of `TCPServer` that its loops share, `start_listen` with the answers
of the system, and what one call of `accept` may return. The unblocked accept
loop reads `errno`, which is kept for each thread: a call that fails sets it and
a call that succeeds leaves it as it was.
-/

namespace Shovel.Network

/-- `TCPServer::NetServerStatus`. -/
inductive NetServerStatus where
  | ok
  | socketError
  | setsockoptError
  | bindError
  | listenError
  | acceptError
  | slavesocketError
  deriving DecidableEq, Repr

/-- `TCPServer::NetServerListenType`. -/
inductive NetServerListenType where
  | blocked
  | unblocked
  | timed
  deriving DecidableEq, Repr

/-- The members `m_master_socket`, `m_status`, `m_atomic_server_enable` and
`m_atomic_server_finished`. -/
structure TCPServer where
  masterSocket : Int
  status : NetServerStatus
  enable : Bool
  finished : Bool
  deriving DecidableEq, Repr

/-- What the system answers to `setsockopt`, `bind` and `listen`. -/
structure ListenAnswers where
  setsockopt : Int
  bind : Int
  listen : Int
  deriving DecidableEq, Repr

namespace TCPServer

/-- The constructor. -/
def init : TCPServer := ⟨-1, .ok, true, true⟩

/-- `reset_status`. An old master socket is closed next, and keeps its number. -/
def resetStatus (s : TCPServer) : TCPServer := { s with status := .ok }

/-- `m_master_socket = socket(...)` with its test. -/
def openSocket (s : TCPServer) (result : Int) : TCPServer :=
  if result = -1 then { s with masterSocket := result, status := .socketError }
  else { s with masterSocket := result }

/-- The rest of `start_listen` up to the start of the thread, and what it returns. -/
def configure (s : TCPServer) (answers : ListenAnswers) : Int × TCPServer :=
  if answers.setsockopt = -1 then (-2, { s with status := .setsockoptError })
  else if answers.bind = -1 then (-3, { s with masterSocket := -1, status := .bindError })
  else if answers.listen = -1 then (-4, { s with masterSocket := -1, status := .listenError })
  else (0, s)

/-- `start_listen` without another thread. -/
def startListen (s : TCPServer) (result : Int) (answers : ListenAnswers) : Int × TCPServer :=
  let s := s.resetStatus.openSocket result
  if result = -1 then (-1, s) else s.configure answers

/-- `start` without another thread. -/
def start (s : TCPServer) (result : Int) (answers : ListenAnswers) : TCPServer :=
  let (status, s) := { s with enable := true, finished := false }.startListen result answers
  if status < 0 then { s with finished := true, enable := false } else s

/-- `stop`. -/
def stop (s : TCPServer) : TCPServer := { s with enable := false }

section

variable (s : TCPServer) (result : Int) (answers : ListenAnswers)

@[simp] theorem openSocket_finished : (s.openSocket result).finished = s.finished := by
  unfold openSocket
  split <;> rfl

@[simp] theorem configure_finished : (s.configure answers).2.finished = s.finished := by
  unfold configure
  repeat' split
  all_goals rfl

/-- What `configure` returns depends on the answers of the system alone. -/
theorem configure_status (s' : TCPServer) :
    (s.configure answers).1 = (s'.configure answers).1 := by
  unfold configure
  repeat' split
  all_goals rfl

/-- `start_listen` touches neither of the two flags, and reports success exactly when the status
is `TCPSERVER_OK`. -/
theorem startListen_spec :
    (s.startListen result answers).2.enable = s.enable ∧
      (s.startListen result answers).2.finished = s.finished ∧
      (0 ≤ (s.startListen result answers).1 ↔
        (s.startListen result answers).2.status = .ok) := by
  simp only [startListen, configure, openSocket, resetStatus]
  repeat' split
  all_goals simp_all

/-- After `start` alone the server is finished or enabled, and not both. -/
theorem start_flags :
    (s.start result answers).finished = !(s.start result answers).enable ∧
      ((s.start result answers).finished = true ↔ (s.start result answers).status ≠ .ok) := by
  obtain ⟨henable, hfinished, hstatus⟩ :=
    startListen_spec { s with enable := true, finished := false } result answers
  simp only [start]
  split
  · rename_i hfailed
    have hnotOk := mt hstatus.mpr (by omega)
    simpa using hnotOk
  · rename_i hdone
    have hok := hstatus.mp (by omega)
    simp [henable, hfinished, hok]

end

end TCPServer

/-! ## Accepting -/

/-- A call of `accept` returns a positive descriptor, or −1 with the `errno` it sets. -/
inductive AcceptOutcome where
  | accepted (descriptor : { d : Int // 0 < d })
  | failed (errno : Nat)
  deriving DecidableEq

namespace AcceptOutcome

/-- The value that `accept` returns. -/
def slaveSocket : AcceptOutcome → Int
  | accepted d => d
  | failed _ => -1

/-- The `errno` of the thread after the call. -/
def errnoAfter (errno : Nat) : AcceptOutcome → Nat
  | accepted _ => errno
  | failed e => e

/-- The descriptor of an accepted connection. -/
def connection : AcceptOutcome → Option Int
  | accepted d => some d
  | failed _ => none

/-- The call failed because it would have to wait. -/
def wouldBlock : AcceptOutcome → Bool
  | accepted _ => false
  | failed e => e == EAGAIN || e == EWOULDBLOCK

@[simp] theorem connection_accepted (d : { d : Int // 0 < d }) :
    (accepted d).connection = some ↑d := rfl

@[simp] theorem connection_failed (e : Nat) : (failed e).connection = none := rfl

@[simp] theorem wouldBlock_accepted (d : { d : Int // 0 < d }) :
    (accepted d).wouldBlock = false := rfl

end AcceptOutcome

/-- `call_accepted_callback_function`: the descriptors given to the callback. -/
def callAcceptedCallback (s : Int) : List Int :=
  if s ≤ 0 then [] else [s]

/-- The callback is given the descriptors of accepted connections and nothing else. -/
theorem callAcceptedCallback_slaveSocket (outcome : AcceptOutcome) :
    callAcceptedCallback outcome.slaveSocket = outcome.connection.toList := by
  cases outcome with
  | accepted d =>
      have hpos : ¬ (d : Int) ≤ 0 := Int.not_le.mpr d.property
      simp [callAcceptedCallback, AcceptOutcome.slaveSocket, hpos]
  | failed e => rfl

end Shovel.Network
