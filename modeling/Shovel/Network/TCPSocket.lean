import Shovel.Containers.SizedArray

/-!
# The TCP socket's write

`TCPSocket::write` sends a buffer in a loop around `send`. The system is a list
of results, one for each call of `send`. A write that needs more results than
there are has not returned yet. The model keeps every call of `send` with the bytes
offered to it, so that the bytes accepted by the system can be read off a run.
-/

namespace Shovel.Network

open Containers

/-- `TCPSocket::NetSocketStatus`. -/
inductive NetSocketStatus where
  | ok
  | descriptorError
  | protocolError
  | closed
  | closedByPeer
  deriving DecidableEq, Repr

/-- The values of `errno` that `write` distinguishes. -/
def EAGAIN : Nat := 11

def ENOBUFS : Nat := 105

/-- On Linux the same value as `EAGAIN`. -/
def EWOULDBLOCK : Nat := 11

/-- What a call of `send` returns, with the `errno` it leaves. -/
structure SendResult where
  status : Int
  errno : Nat
  deriving DecidableEq, Repr

/-- `status < 0 and (errno == EAGAIN or errno == ENOBUFS)`. -/
def SendResult.WouldBlock (r : SendResult) : Prop :=
  r.status < 0 ∧ (r.errno = EAGAIN ∨ r.errno = ENOBUFS)

instance (r : SendResult) : Decidable r.WouldBlock :=
  inferInstanceAs (Decidable (_ ∧ _))

/-- A call of `send`: the bytes offered and the result. -/
structure SendCall where
  offered : List UInt8
  result : SendResult
  deriving DecidableEq, Repr

namespace SendCall

/-- The bytes the system took in this call. -/
def accepted (c : SendCall) : List UInt8 := c.offered.take c.result.status.toNat

/-- The system takes at least one and at most all of the offered bytes, or it would block. -/
def Legal (c : SendCall) : Prop :=
  (1 ≤ c.result.status ∧ c.result.status ≤ c.offered.length) ∨
    (c.result.status = -1 ∧ c.result.WouldBlock)

instance (c : SendCall) : Decidable c.Legal :=
  inferInstanceAs (Decidable (_ ∨ _))

end SendCall

/-- The bytes the system took over several calls. -/
def acceptedBytes (calls : List SendCall) : List UInt8 := calls.flatMap SendCall.accepted

/-- The members `m_descr` and `m_status`. -/
structure TCPSocket where
  descr : Int
  status : NetSocketStatus
  deriving DecidableEq, Repr

/-- The end of a write: the value returned, the objects afterwards, the calls of `send` and the
results not consumed. -/
structure WriteRun (Nm : Nat) where
  ret : Int
  socket : TCPSocket
  buf : SizedArray Nm
  calls : List SendCall
  unused : List SendResult

/-- The same end after one more call at the front. -/
def WriteRun.after {Nm : Nat} (c : SendCall) (run : WriteRun Nm) : WriteRun Nm :=
  { run with calls := c :: run.calls }

namespace TCPSocket

variable {Nm : Nat}

/-- `reset_status`. -/
def resetStatus (s : TCPSocket) : TCPSocket := { s with status := .ok }

/-- `close_descriptor`. -/
def closeDescriptor (s : TCPSocket) : TCPSocket :=
  let s := s.resetStatus
  let s := if 0 < s.descr then { s with descr := -1 } else s
  { s with status := .closed }

/-- The loop of `write`, with its local variable `sent_size`. -/
def sendLoop (s : TCPSocket) (buf : SizedArray Nm) (sentSize : Nat) (results : List SendResult) :
    Option (WriteRun Nm) :=
  if sentSize < buf.dataSize then
    match results with
    | [] => none
    | result :: rest =>
        let c : SendCall := ⟨buf.content.drop sentSize, result⟩
        if result.WouldBlock then some ⟨0, s, buf, [c], rest⟩
        else if result.status < 0 then some ⟨-1, s.closeDescriptor, buf, [c], rest⟩
        else (sendLoop s buf (sentSize + result.status.toNat) rest).map (.after c)
  else some ⟨sentSize, s, buf.clear, [], results⟩

/-- `TCPSocket::write`. -/
def write (s : TCPSocket) (buf : SizedArray Nm) (results : List SendResult) :
    Option (WriteRun Nm) :=
  if s.status ≠ .ok then some ⟨-1, s, buf, [], results⟩
  else
    let s := s.resetStatus
    if 0 < s.descr then s.sendLoop buf 0 results
    else some ⟨-1, { s with status := .descriptorError }, buf, [], results⟩

/-! ## What a write sends -/

/-- Bytes taken from an offset on and the bytes offered from the next offset on are the bytes
offered. -/
theorem accepted_append (content : List UInt8) (sentSize : Nat) (result : SendResult) :
    SendCall.accepted ⟨content.drop sentSize, result⟩ ++
        content.drop (sentSize + result.status.toNat) = content.drop sentSize := by
  rw [SendCall.accepted, ← List.drop_drop]
  exact List.take_append_drop _ _

/-- How a loop can end when all results are legal: all bytes from the offset on were taken by
calls with positive counts, or such calls were followed by one that would block, and neither the
socket nor the buffer has changed. -/
inductive Ended (s : TCPSocket) (buf : SizedArray Nm) (sentSize : Nat) : WriteRun Nm → Prop where
  | complete {calls unused}
      (hcounts : ∀ c ∈ calls, 0 < c.result.status)
      (hbytes : acceptedBytes calls = buf.content.drop sentSize) :
      Ended s buf sentSize ⟨buf.dataSize, s, buf.clear, calls, unused⟩
  | wouldBlock (counts) {block unused}
      (hcounts : ∀ c ∈ counts, 0 < c.result.status) (hblock : block.result.WouldBlock) :
      Ended s buf sentSize ⟨0, s, buf, counts ++ [block], unused⟩

/-- A loop whose offset has reached the data size ends without a call. -/
theorem Ended.at_end {s : TCPSocket} {buf : SizedArray Nm} {unused : List SendResult} :
    Ended s buf buf.dataSize ⟨buf.dataSize, s, buf.clear, [], unused⟩ :=
  .complete (by simp) (List.drop_of_length_le (by simp)).symm

/-- One more call with a positive count in front of a loop. -/
theorem Ended.after {s : TCPSocket} {buf : SizedArray Nm} {sentSize : Nat} {result : SendResult}
    {run : WriteRun Nm} (hcount : 0 < result.status)
    (h : Ended s buf (sentSize + result.status.toNat) run) :
    Ended s buf sentSize (run.after ⟨buf.content.drop sentSize, result⟩) := by
  cases h with
  | complete hcounts hbytes =>
      refine .complete (fun c hc => ?_) ?_
      · rcases List.mem_cons.mp hc with rfl | hrest
        · exact hcount
        · exact hcounts c hrest
      · rw [acceptedBytes, List.flatMap_cons]
        rw [acceptedBytes] at hbytes
        rw [hbytes, accepted_append]
  | wouldBlock counts hcounts hblock =>
      refine .wouldBlock (_ :: counts) (fun c hc => ?_) hblock
      rcases List.mem_cons.mp hc with rfl | hrest
      · exact hcount
      · exact hcounts c hrest

/-- Every finished loop with legal results ends in one of the two ways, having consumed the
results of its calls. -/
theorem sendLoop_ended {s : TCPSocket} {buf : SizedArray Nm} {sentSize : Nat}
    {results : List SendResult} {run : WriteRun Nm} (hle : sentSize ≤ buf.dataSize)
    (hrun : s.sendLoop buf sentSize results = some run) (hlegal : ∀ c ∈ run.calls, c.Legal) :
    results = run.calls.map (·.result) ++ run.unused ∧ Ended s buf sentSize run := by
  induction results generalizing sentSize run with
  | nil =>
      rw [sendLoop] at hrun
      split at hrun
      · cases hrun
      · obtain rfl := Option.some.inj hrun
        obtain rfl : sentSize = buf.dataSize := by omega
        exact ⟨rfl, .at_end⟩
  | cons result rest ih =>
      rw [sendLoop] at hrun
      split at hrun
      · simp only at hrun
        split at hrun
        · rename_i hblock
          obtain rfl := Option.some.inj hrun
          exact ⟨rfl, .wouldBlock [] (by simp) hblock⟩
        · rename_i hnot
          split at hrun
          · rename_i hneg
            obtain rfl := Option.some.inj hrun
            -- an error other than the two is not legal
            rcases hlegal _ (List.mem_singleton_self _) with ⟨hcount, -⟩ | ⟨-, hblock⟩
            · simp only at hcount
              omega
            · exact absurd hblock hnot
          · obtain ⟨later, hlater, rfl⟩ := Option.map_eq_some_iff.mp hrun
            obtain ⟨hcount, hmost⟩ | ⟨-, hblock⟩ := hlegal _ List.mem_cons_self
            · simp only [List.length_drop, SizedArray.length_content] at hcount hmost
              obtain ⟨hresults, hended⟩ := ih (by omega) hlater
                fun c hc => hlegal c (List.mem_cons_of_mem _ hc)
              refine ⟨?_, hended.after (by omega)⟩
              rw [hresults]
              rfl
            · exact absurd hblock hnot
      · obtain rfl := Option.some.inj hrun
        obtain rfl : sentSize = buf.dataSize := by omega
        exact ⟨rfl, .at_end⟩

end TCPSocket

end Shovel.Network
