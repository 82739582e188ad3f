import Shovel.Network.TCPSocket

/-!
# The local socket's write

`LocalSocket::write` sends a datagram with one call of `sendto`, and
`LocalSocketWorker::write_data_to_source` calls it. When nobody listens at the
other end, the write reports zero bytes and keeps the array, so that it can be
repeated.
-/

namespace Shovel.Local

open Containers Network

/-- The values of `errno` that `write` takes for an absent peer. -/
def ENOENT : Nat := 2

def ECONNREFUSED : Nat := 111

/-- `send_status < 0 and (errno == ENOENT or errno == ECONNREFUSED or errno == EAGAIN)`. -/
def PeerAbsent (result : SendResult) : Prop :=
  result.status < 0 ∧
    (result.errno = ENOENT ∨ result.errno = ECONNREFUSED ∨ result.errno = EAGAIN)

instance (result : SendResult) : Decidable (PeerAbsent result) :=
  inferInstanceAs (Decidable (_ ∧ _))

/-- `LocalSocket`: the member `m_fd`. -/
structure LocalSocket where
  fd : Int
  deriving DecidableEq, Repr

/-- The end of a write: the value returned, the array afterwards and the calls of `sendto`. -/
structure LocalWrite (Nm : Nat) where
  ret : Int
  buf : SizedArray Nm
  calls : List SendCall

variable {Nm : Nat}

/-- `LocalSocket::write`, with what `sendto` answers if it is called. -/
def LocalSocket.write (s : LocalSocket) (buf : SizedArray Nm) (result : SendResult) :
    LocalWrite Nm :=
  if s.fd = 0 then ⟨-1, buf, []⟩
  else
    let c : SendCall := ⟨buf.content, result⟩
    if PeerAbsent result then ⟨0, buf, [c]⟩ else ⟨result.status, buf.clear, [c]⟩

/-- `LocalSocketWorker`: the member `m_local_socket`. -/
structure LocalSocketWorker where
  localSocket : Option LocalSocket
  deriving DecidableEq, Repr

/-- `LocalSocketWorker::write_data_to_source`. -/
def LocalSocketWorker.writeDataToSource (w : LocalSocketWorker) (buf : SizedArray Nm)
    (result : SendResult) : LocalWrite Nm :=
  match w.localSocket with
  | some socket =>
      let run := socket.write buf result
      if run.ret < 0 then { run with ret := -1 } else run
  | none => ⟨-1, buf, []⟩

/-- A worker with an open socket and no peer: the write takes nothing and leaves the array as it
was, so the next write offers the same bytes. -/
theorem writeDataToSource_absent {socket : LocalSocket} {buf : SizedArray Nm} {result : SendResult}
    (hopen : socket.fd ≠ 0) (habsent : PeerAbsent result) :
    LocalSocketWorker.writeDataToSource ⟨some socket⟩ buf result =
      ⟨0, buf, [⟨buf.content, result⟩]⟩ := by
  simp [LocalSocketWorker.writeDataToSource, LocalSocket.write, hopen, habsent]

/-- A write of a worker returns zero exactly when `sendto` took nothing: nobody was there, or it
took no byte of the array. -/
theorem writeDataToSource_eq_zero_iff {w : LocalSocketWorker} {buf : SizedArray Nm}
    {result : SendResult} :
    (w.writeDataToSource buf result).ret = 0 ↔
      ∃ socket, w.localSocket = some socket ∧ socket.fd ≠ 0 ∧
        (PeerAbsent result ∨ result.status = 0) := by
  cases hsocket : w.localSocket with
  | none => simp [LocalSocketWorker.writeDataToSource, hsocket]
  | some socket =>
      simp only [LocalSocketWorker.writeDataToSource, hsocket, LocalSocket.write]
      repeat' split
      all_goals simp_all
      all_goals omega

end Shovel.Local
