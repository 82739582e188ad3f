import Shovel.Parsers.Forwarding
import Shovel.Workers.ReadThread
import Shovel.Workers.TCPSocketWorker
import Shovel.Workers.WriteThread

/-!
# Two workers at the ends of a connection

The writing thread of one worker sends its messages over a TCP connection, and
the reading thread of another receives them, parses them and hands them to its
consumer. Each call of `send` and of `recv` is a step of its own. The system
takes any part of the bytes that it is offered and returns any part of those
under way; it keeps them in order.

`link_delivers_in_order` puts the two sides together. A would-block result behind
a count makes `TCPSocket::write` start again from the first byte, so the runs are
those in which no call of `send` blocks in the middle of a message.
-/

namespace Shovel.Workers

open Containers Network Parsers ParserExample Incremental Scanner Transition Bounded

/-- The writing side of a worker, the local variable `sent_size` of its `write`, the bytes under
way, and the reading side of the worker at the other end. -/
structure LinkState (Q Q' : Type) where
  sender : WriteState Q
  sentSize : Nat
  wire : List UInt8
  receiver : ReadState Q'

/-- A step of one side, a call of `send` with its result, a write that finds its socket closed by
the worker's own reading thread, or a `recv` that returns some of the bytes under way. -/
inductive LinkLabel where
  | sender (label : WriteLabel)
  | send (result : SendResult)
  | writeFails
  | receiver (label : ReadLabel)
  | recv (count : Nat)

namespace LinkState

variable {Q Q' : Type}

/-- The next call of `send`. -/
def sendCall (s : LinkState Q Q') (result : SendResult) : SendCall :=
  ⟨s.sender.arr.content.drop s.sentSize, result⟩

/-- A write is going on, and the result is one that the system can give. -/
def MaySend (s : LinkState Q Q') (result : SendResult) : Prop :=
  s.sender.pc = .write ∧ s.sentSize < s.sender.arr.dataSize ∧
    result.status ≤ (s.sendCall result).offered.length

instance (s : LinkState Q Q') (result : SendResult) : Decidable (s.MaySend result) :=
  inferInstanceAs (Decidable (_ ∧ _))

/-- A call of `send` inside `TCPSocketWorker::write_data_to_source`, which returns when the call
would block, when it fails and when the whole array is sent. -/
def sendStep (s : LinkState Q Q') (result : SendResult) : Option (LinkState Q Q') :=
  if s.MaySend result then
    if result.WouldBlock then some { s with sender := s.sender.writeReturns 0, sentSize := 0 }
    else if result.status < 0 then
      some { s with sender := s.sender.writeReturns (-2), sentSize := 0 }
    else
      let sentSize := s.sentSize + result.status.toNat
      let wire := s.wire ++ (s.sendCall result).accepted
      if sentSize < s.sender.arr.dataSize then some { s with sentSize, wire }
      else some { s with sender := s.sender.writeReturns sentSize, sentSize := 0, wire }
  else none

/-- A `recv` that returns the first `count` bytes under way. -/
def recvStep (s : LinkState Q Q') (count : Nat) : Option (LinkState Q Q') :=
  if h : s.receiver.pc = .read ∧ 0 < count ∧ count ≤ s.wire.length ∧
      count ≤ connectionWorkerArrSize then
    let chunk : Chunk := ⟨s.wire.take count,
      by rw [List.length_take]; exact Nat.lt_min.mpr ⟨h.2.1, Nat.lt_of_lt_of_le h.2.1 h.2.2.1⟩,
      by rw [List.length_take]; exact Nat.le_trans (Nat.min_le_left _ _) h.2.2.2⟩
    some { s with receiver := s.receiver.readReturns (.chunk chunk), wire := s.wire.drop count }
  else none

variable [QueueBase Q] [QueueBase Q']

/-- One step of an interleaving. What a write returns and which bytes a read returns is up to
`sendStep` and `recvStep`. -/
def step (s : LinkState Q Q') : LinkLabel → Option (LinkState Q Q')
  | .sender (.writeReturns _) => none
  | .sender label => (s.sender.step label).map fun sender => { s with sender }
  | .send result => s.sendStep result
  | .writeFails =>
      if s.sender.pc = .write then
        some { s with sender := s.sender.writeReturns (-2), sentSize := 0 }
      else none
  | .receiver (.readReturns (.chunk _)) => none
  | .receiver label => (s.receiver.step label).map fun receiver => { s with receiver }
  | .recv count => s.recvStep count

/-- Before the first step. -/
def start (queue : Q) (queue' : Q') : LinkState Q Q' :=
  ⟨.start queue, 0, [], .start queue' (some .init)⟩

/-- All interleavings of a worker that writes from `queue` and one that reads into `queue'`. -/
def machine (queue : Q) (queue' : Q') : Machine (LinkState Q Q') LinkLabel where
  init s := s = start queue queue'
  step := step

/-- The producers put well-formed datagrams, and no call of `send` blocks in the middle of a
message. -/
def Orderly (s : LinkState Q Q') : LinkLabel → Prop
  | .sender (.producerPut m) => WellFormed m.bytes
  | .send result => result.WouldBlock → s.sentSize = 0
  | _ => True

/-! ## A write is a sequence of calls -/

section Write

variable {s s' : LinkState Q Q'} {result : SendResult}

omit [QueueBase Q] [QueueBase Q'] in
/-- A call that would block ends the write with nothing. -/
theorem sendStep_blocked (hmay : s.MaySend result) (hblock : result.WouldBlock) :
    s.sendStep result = some { s with sender := s.sender.writeReturns 0, sentSize := 0 } := by
  rw [sendStep, if_pos hmay, if_pos hblock]

omit [QueueBase Q] [QueueBase Q'] in
/-- A call that fails otherwise ends the write with an error. -/
theorem sendStep_failed (hmay : s.MaySend result) (hnot : ¬ result.WouldBlock)
    (hneg : result.status < 0) :
    s.sendStep result = some { s with sender := s.sender.writeReturns (-2), sentSize := 0 } := by
  rw [sendStep, if_pos hmay, if_neg hnot, if_pos hneg]

omit [QueueBase Q] [QueueBase Q'] in
/-- A call that does not take all that is left leaves the write going on. -/
theorem sendStep_more (hmay : s.MaySend result) (hnot : ¬ result.WouldBlock)
    (hcount : ¬ result.status < 0)
    (hmore : s.sentSize + result.status.toNat < s.sender.arr.dataSize) :
    s.sendStep result = some { s with
      sentSize := s.sentSize + result.status.toNat
      wire := s.wire ++ (s.sendCall result).accepted } := by
  rw [sendStep, if_pos hmay, if_neg hnot, if_neg hcount]
  exact if_pos hmore

omit [QueueBase Q] [QueueBase Q'] in
/-- The call that takes the rest ends the write with the number of bytes sent. -/
theorem sendStep_last (hmay : s.MaySend result) (hnot : ¬ result.WouldBlock)
    (hcount : ¬ result.status < 0)
    (hlast : ¬ s.sentSize + result.status.toNat < s.sender.arr.dataSize) :
    s.sendStep result = some { s with
      sender := s.sender.writeReturns (s.sentSize + result.status.toNat : Nat)
      sentSize := 0
      wire := s.wire ++ (s.sendCall result).accepted } := by
  rw [sendStep, if_pos hmay, if_neg hnot, if_neg hcount]
  exact if_neg hlast

omit [QueueBase Q] [QueueBase Q'] in
/-- What a call of `send` can do. -/
theorem send_cases (h : s.sendStep result = some s') :
    s.MaySend result ∧
      ((result.WouldBlock ∧ s' = { s with sender := s.sender.writeReturns 0, sentSize := 0 }) ∨
        (¬ result.WouldBlock ∧ result.status < 0 ∧
          s' = { s with sender := s.sender.writeReturns (-2), sentSize := 0 }) ∨
        (s.sentSize + result.status.toNat < s.sender.arr.dataSize ∧
          s' = { s with
            sentSize := s.sentSize + result.status.toNat
            wire := s.wire ++ (s.sendCall result).accepted }) ∨
        (¬ s.sentSize + result.status.toNat < s.sender.arr.dataSize ∧
          s' = { s with
            sender := s.sender.writeReturns (s.sentSize + result.status.toNat : Nat)
            sentSize := 0
            wire := s.wire ++ (s.sendCall result).accepted })) := by
  by_cases hmay : s.MaySend result
  · refine ⟨hmay, ?_⟩
    by_cases hblock : result.WouldBlock
    · rw [sendStep_blocked hmay hblock] at h
      exact .inl ⟨hblock, (Option.some.inj h).symm⟩
    · by_cases hneg : result.status < 0
      · rw [sendStep_failed hmay hblock hneg] at h
        exact .inr (.inl ⟨hblock, hneg, (Option.some.inj h).symm⟩)
      · by_cases hmore : s.sentSize + result.status.toNat < s.sender.arr.dataSize
        · rw [sendStep_more hmay hblock hneg hmore] at h
          exact .inr (.inr (.inl ⟨hmore, (Option.some.inj h).symm⟩))
        · rw [sendStep_last hmay hblock hneg hmore] at h
          exact .inr (.inr (.inr ⟨hmore, (Option.some.inj h).symm⟩))
  · rw [sendStep, if_neg hmay] at h
    cases h

/-- The calls of the loop of `TCPSocket::write`, from any offset on, are as many steps of the link:
they put the accepted bytes on the stream, and the last one makes the write return. -/
theorem sends_follow_loop {socket : TCPSocket} {results : List SendResult}
    {run : WriteRun connectionWorkerArrSize} (queue : Q) (queue' : Q') (hpc : s.sender.pc = .write)
    (hless : s.sentSize < s.sender.arr.dataSize)
    (hrun : socket.sendLoop s.sender.arr s.sentSize results = some run)
    (hmost : ∀ c ∈ run.calls, c.result.status ≤ c.offered.length) :
    (machine queue queue').run (run.calls.map fun c => .send c.result) s = some { s with
      sender := s.sender.writeReturns (if run.ret < 0 then -2 else run.ret)
      sentSize := 0
      wire := s.wire ++ acceptedBytes run.calls } := by
  induction results generalizing s run with
  | nil =>
      rw [TCPSocket.sendLoop, if_pos hless] at hrun
      cases hrun
  | cons result rest ih =>
      have hmay : ∀ calls, (∀ c ∈ s.sendCall result :: calls, c.result.status ≤ c.offered.length) →
          s.MaySend result := fun _ hmost => ⟨hpc, hless, hmost _ List.mem_cons_self⟩
      rw [TCPSocket.sendLoop, if_pos hless] at hrun
      simp only at hrun
      split at hrun
      · rename_i hblock
        obtain rfl := Option.some.inj hrun
        have hstep := sendStep_blocked (hmay [] hmost) hblock
        have hnothing : acceptedBytes [s.sendCall result] = [] := by
          rw [acceptedBytes, List.flatMap_singleton, accepted_wouldBlock hblock]
        refine (Machine.run_cons [] hstep).trans ?_
        simp only [Machine.run, sendCall] at hnothing ⊢
        rw [hnothing, List.append_nil]
        rfl
      · rename_i hnot
        split at hrun
        · rename_i hneg
          obtain rfl := Option.some.inj hrun
          have hstep := sendStep_failed (hmay [] hmost) hnot hneg
          have hnothing : acceptedBytes [s.sendCall result] = [] := by
            rw [acceptedBytes, List.flatMap_singleton, SendCall.accepted, sendCall,
              Int.toNat_of_nonpos (Int.le_of_lt hneg), List.take_zero]
          refine (Machine.run_cons [] hstep).trans ?_
          simp only [Machine.run, sendCall] at hnothing ⊢
          rw [hnothing, List.append_nil]
          rfl
        · rename_i hcount
          obtain ⟨later, hlater, rfl⟩ := Option.map_eq_some_iff.mp hrun
          have haccepted : acceptedBytes (s.sendCall result :: later.calls) =
              (s.sendCall result).accepted ++ acceptedBytes later.calls := rfl
          by_cases hmore : s.sentSize + result.status.toNat < s.sender.arr.dataSize
          · have hstep := sendStep_more (hmay later.calls hmost) hnot hcount hmore
            have hrest := ih (s := { s with
              sentSize := s.sentSize + result.status.toNat
              wire := s.wire ++ (s.sendCall result).accepted }) hpc hmore hlater
              fun c hc => hmost c (List.mem_cons_of_mem _ hc)
            refine (Machine.run_cons _ hstep).trans (hrest.trans ?_)
            simp only [WriteRun.after, sendCall] at haccepted ⊢
            rw [haccepted, List.append_assoc]
            rfl
          · -- the last call of the message
            unfold TCPSocket.sendLoop at hlater
            rw [if_neg hmore] at hlater
            obtain rfl := Option.some.inj hlater
            have hstep := sendStep_last (hmay [] hmost) hnot hcount hmore
            have hnonneg : ¬ ((s.sentSize + result.status.toNat : Nat) : Int) < 0 := by omega
            refine (Machine.run_cons [] hstep).trans ?_
            simp only [WriteRun.after, Machine.run, sendCall, hnonneg, if_false] at haccepted ⊢
            rw [haccepted]
            simp [acceptedBytes]

/-- A call of `write_data_to_source` on an open socket is a sequence of steps of the link: they put
the accepted bytes on the stream, and the write returns what the call does. -/
theorem sends_follow_write {socket : TCPSocket} {results : List SendResult}
    {run : SourceWrite connectionWorkerArrSize} (queue : Q) (queue' : Q')
    (hpc : s.sender.pc = .write) (hfirst : s.sentSize = 0) (hne : 0 < s.sender.arr.dataSize)
    (hopen : socket.status = .ok ∧ 0 < socket.descr)
    (hrun : TCPSocketWorker.writeDataToSource ⟨some socket⟩ s.sender.arr results = some run)
    (hmost : ∀ c ∈ run.calls, c.result.status ≤ c.offered.length) :
    (machine queue queue').run (run.calls.map fun c => .send c.result) s = some { s with
      sender := s.sender.writeReturns run.ret
      wire := s.wire ++ acceptedBytes run.calls } := by
  obtain ⟨written, hwrite, rfl⟩ := Option.map_eq_some_iff.mp hrun
  have hloop : socket.resetStatus.sendLoop s.sender.arr s.sentSize results = some written := by
    simpa [TCPSocket.write, hopen.1, hopen.2, TCPSocket.resetStatus, hfirst] using hwrite
  have hsteps := sends_follow_loop queue queue' hpc (by omega) hloop hmost
  simp only [← hfirst] at hsteps
  exact hsteps

/-- A datagram without payload, which the system takes in two parts. -/
theorem sends_follow_write_parts :
    ∃ (s : LinkState RingQueue RingQueue) (run : SourceWrite connectionWorkerArrSize),
      run.calls.map SendCall.result = [⟨5, 0⟩, ⟨7, 0⟩] ∧
        ((machine (RingQueue.new 1 16) (RingQueue.new 1 16)).run
          (run.calls.map fun c => .send c.result) s).map (fun s' => (s'.sender.pc, s'.wire)) =
            some (.pop, prepareDataForSending []) := by
  have hrun : (((machine (RingQueue.new 1 16) (RingQueue.new 1 16)).run
      [.sender (.producerPut ⟨prepareDataForSending [], by decide⟩), .sender .writer,
        .sender .writer, .sender .writer, .sender .writer, .sender .writer]
      (start (RingQueue.new 1 16) (RingQueue.new 1 16))).bind fun s =>
        (TCPSocketWorker.writeDataToSource ⟨some ⟨7, .ok⟩⟩ s.sender.arr [⟨5, 0⟩, ⟨7, 0⟩]).map
          fun run => ((s.sender.pc, s.sentSize, s.sender.arr.dataSize), s.wire,
            run.ret, run.calls)) =
      some ((.write, 0, 12), [], 12,
        [⟨prepareDataForSending [], ⟨5, 0⟩⟩, ⟨(prepareDataForSending []).drop 5, ⟨7, 0⟩⟩]) := by
    decide +kernel
  obtain ⟨s, -, hwrite⟩ := Option.bind_eq_some_iff.mp hrun
  obtain ⟨run, hcall, hfields⟩ := Option.map_eq_some_iff.mp hwrite
  obtain ⟨⟨hpc, hfirst, hsize⟩, hwire, hret, hcalls⟩ : (s.sender.pc = .write ∧ s.sentSize = 0 ∧
      s.sender.arr.dataSize = 12) ∧ s.wire = [] ∧ run.ret = 12 ∧ run.calls =
        [⟨prepareDataForSending [], ⟨5, 0⟩⟩, ⟨(prepareDataForSending []).drop 5, ⟨7, 0⟩⟩] := by
    simpa using hfields
  have hmost : ∀ c ∈ run.calls, c.result.status ≤ c.offered.length := by
    rw [hcalls]
    decide
  refine ⟨s, run, by rw [hcalls]; rfl, ?_⟩
  rw [sends_follow_write (RingQueue.new 1 16) (RingQueue.new 1 16) hpc hfirst (by omega)
    (by decide) hcall hmost, hwire, hret, hcalls]
  rfl

end Write

/-! ## The bytes of the stream -/

section Bytes

omit [QueueBase Q] [QueueBase Q']

/-- The bytes sent so far: those received followed by those under way. -/
def bytes (s : LinkState Q Q') : List UInt8 := s.receiver.chunks.flatten ++ s.wire

/-- The bytes sent so far are those of the messages that the source has taken. Behind them stand
the first bytes of the message that is being written or whose write has failed. -/
def Sent (s : LinkState Q Q') : Prop :=
  match s.sender.pc with
  | .write => s.bytes = s.sender.taken.flatten ++ s.sender.arr.content.take s.sentSize
  | .finish | .done =>
      s.sentSize = 0 ∧ ∃ part, s.bytes = s.sender.taken.flatten ++ part ∧
        (part = [] ∨ ∃ m, s.sender.pending = some m ∧ part <+: m)
  | _ => s.sentSize = 0 ∧ s.bytes = s.sender.taken.flatten

variable {s s' : LinkState Q Q'} {queued : List (List UInt8)}

/-- No part of a message has been sent. -/
theorem Sent.of_whole (hnone : s.sentSize = 0) (hbytes : s.bytes = s.sender.taken.flatten) :
    s.Sent := by
  unfold Sent
  cases s.sender.pc with
  | write => simpa [hnone] using hbytes
  | finish | done => exact ⟨hnone, [], by rw [hbytes, List.append_nil], .inl rfl⟩
  | _ => exact ⟨hnone, hbytes⟩

/-- Outside a write, and as long as no write has failed, only whole messages have been sent. -/
theorem Sent.whole (h : s.Sent) (hwrite : s.sender.pc ≠ .write) (hfinish : s.sender.pc ≠ .finish)
    (hdone : s.sender.pc ≠ .done) : s.sentSize = 0 ∧ s.bytes = s.sender.taken.flatten := by
  unfold Sent at h
  cases hpc : s.sender.pc with
  | write => exact absurd hpc hwrite
  | finish => exact absurd hpc hfinish
  | done => exact absurd hpc hdone
  | _ =>
      simp only [hpc] at h
      exact h

/-- What has been sent of a message whose write has not ended belongs to the first message of the
queue. -/
theorem Sent.part (h : s.Sent) (hat : s.sender.AtPc queued) :
    ∃ part, s.bytes = s.sender.taken.flatten ++ part ∧ part <+: queued.flatten ∧
      (s.sender.pc = .pop → part = []) := by
  have hfirst : ∀ m part, queued.head? = some m → part <+: m → part <+: queued.flatten := by
    intro m part hhead hpart
    obtain ⟨rest, rfl⟩ := List.head?_eq_some_iff.mp hhead
    exact hpart.trans (List.prefix_append m rest.flatten)
  unfold Sent at h
  cases hpc : s.sender.pc with
  | write =>
      simp only [hpc] at h
      simp only [WriteState.AtPc, hpc] at hat
      obtain ⟨-, -, hhead⟩ := hat
      exact ⟨_, h, hfirst _ _ hhead <| List.take_prefix _ _, fun hpop => by cases hpop⟩
  | finish | done =>
      simp only [hpc] at h
      obtain ⟨-, part, hbytes, rfl | ⟨m, hpending, hpart⟩⟩ := h
      · exact ⟨[], hbytes, List.nil_prefix, fun _ => rfl⟩
      · exact ⟨part, hbytes, hfirst m part (hat.pending_first hpending) hpart,
          fun hpop => by cases hpop⟩
  | _ =>
      simp only [hpc] at h
      exact ⟨[], by rw [h.2, List.append_nil], List.nil_prefix, fun _ => rfl⟩

/-- The bytes sent so far are the first ones of the accepted messages. When the queue is empty and
no message waits for its removal they are all of them. -/
theorem Sent.starts (h : s.Sent) (hat : s.sender.AtPc queued) :
    s.bytes <+: s.sender.accepted.flatten ∧
      (queued = [] → s.bytes = s.sender.accepted.flatten) := by
  obtain ⟨part, hbytes, hpart, hpop⟩ := h.part hat
  by_cases hpc : s.sender.pc = .pop
  · simp only [WriteState.AtPc, hpc] at hat
    obtain ⟨-, earlier, m, rest, -, hqueued, hall⟩ := hat
    rw [hbytes, hpop hpc, List.append_nil, ← hall, List.flatten_append]
    exact ⟨List.prefix_append _ _, fun hnil => by cases hqueued.symm.trans hnil⟩
  · rw [hbytes, ← hat.conserved hpc, List.flatten_append]
    refine ⟨(List.prefix_append_right_inj _).mpr hpart, ?_⟩
    rintro rfl
    rw [List.prefix_nil.mp hpart, List.flatten_nil]

/-- A write that fails leaves the loop with a part of the pending message sent. -/
theorem fails_sent (h : s.Sent) (hat : s.sender.AtPc queued) (hpc : s.sender.pc = .write) :
    Sent { s with sender := s.sender.writeReturns (-2), sentSize := 0 } := by
  simp only [Sent, hpc] at h
  simp only [WriteState.AtPc, hpc] at hat
  obtain ⟨-, hpending, -⟩ := hat
  exact ⟨rfl, _, h, .inr ⟨_, hpending, List.take_prefix _ _⟩⟩

/-- A call of `send` adds the bytes it takes; the last one of a message makes the source take the
message. -/
theorem send_sent {result : SendResult} (horderly : result.WouldBlock → s.sentSize = 0)
    (h : s.Sent) (hat : s.sender.AtPc queued) (hstep : s.sendStep result = some s') :
    s'.Sent := by
  obtain ⟨⟨hpc, hless, hmost⟩, hcases⟩ := send_cases hstep
  have hsent := h
  simp only [Sent, hpc] at hsent
  have haccepted : s.receiver.chunks.flatten ++ (s.wire ++ (s.sendCall result).accepted) =
      s.sender.taken.flatten ++
        s.sender.arr.content.take (s.sentSize + result.status.toNat) := by
    rw [← List.append_assoc, ← bytes, hsent, List.append_assoc, SendCall.accepted, sendCall,
      List.take_add]
  obtain ⟨hblock, rfl⟩ | ⟨-, -, rfl⟩ | ⟨-, rfl⟩ | ⟨hlast, rfl⟩ := hcases
  · -- nothing of the message has been sent yet
    have hnone := horderly hblock
    rw [hnone, List.take_zero, List.append_nil] at hsent
    exact .of_whole rfl hsent
  · exact fails_sent h hat hpc
  · simpa only [Sent, hpc, bytes] using haccepted
  · simp only [sendCall, List.length_drop, SizedArray.length_content] at hmost
    have hwhole : s.sentSize + result.status.toNat = s.sender.arr.dataSize := by omega
    have hpos : (s.sentSize + result.status.toNat : Nat) ≠ 0 := by omega
    have hnonneg : ¬ ((s.sentSize + result.status.toNat : Nat) : Int) < 0 := by omega
    refine .of_whole rfl ?_
    rw [hwhole, List.take_of_length_le (by simp)] at haccepted
    simp only [bytes, WriteState.writeReturns, Int.natCast_eq_zero, hpos, hnonneg, if_false,
      haccepted, List.flatten_append, List.flatten_singleton]

/-- Receiving moves bytes from those under way to those received. -/
theorem recv_bytes {count : Nat} (hstep : s.recvStep count = some s') :
    s'.bytes = s.bytes ∧ s'.sender = s.sender ∧ s'.sentSize = s.sentSize ∧
      ∃ chunk, s.receiver.pc = .read ∧ s'.receiver = s.receiver.readReturns (.chunk chunk) := by
  unfold recvStep at hstep
  split at hstep
  · rename_i hcall
    obtain rfl := Option.some.inj hstep
    refine ⟨?_, rfl, rfl, _, hcall.1, rfl⟩
    simp only [bytes, ReadState.readReturns, List.flatten_append, List.flatten_singleton,
      List.append_assoc, List.take_append_drop]
  · cases hstep

/-- What has been sent depends on the bytes and on the sender alone. -/
theorem Sent.congr (h : s.Sent) (hbytes : s'.bytes = s.bytes) (hsender : s'.sender = s.sender)
    (hsize : s'.sentSize = s.sentSize) : s'.Sent := by
  simpa only [Sent, hbytes, hsender, hsize] using h

end Bytes

/-! ## The invariant -/

variable {s s' : LinkState Q Q'} {Rel : Q → MessageFifo → Prop} {Rel' : Q' → MessageFifo → Prop}

/-- Each side keeps its own invariant, the accepted messages are well formed, and the bytes are
those of the messages. -/
structure Inv (Rel : Q → MessageFifo → Prop) (Rel' : Q' → MessageFifo → Prop)
    (s : LinkState Q Q') : Prop where
  sender : s.sender.Inv Rel
  receiver : s.receiver.Inv Rel'
  formed : ∀ m ∈ s.sender.accepted, WellFormed m
  sent : s.Sent

omit [QueueBase Q] [QueueBase Q'] in
/-- The parser accepts what has been received, and delivers the messages that end in it. -/
theorem Inv.received (hinv : Inv Rel Rel' s) :
    ∃ outputs p, putAll .init s.receiver.chunks = .ok (outputs, p) ∧
      outputs.flatten = tokensWithin s.receiver.chunks.flatten.length s.sender.accepted := by
  obtain ⟨a, -, hat⟩ := hinv.sender
  obtain ⟨hbytes, -⟩ := hinv.sent.starts hat
  exact delivers_within hinv.formed ((List.prefix_append _ s.wire).trans hbytes)

omit [QueueBase Q'] in
/-- A step of the sender other than the return of a write. -/
theorem sender_sent {label : WriteLabel} {sender : WriteState Q} (h : s.Sent)
    (hreturn : ∀ writeStatus, label ≠ .writeReturns writeStatus)
    (hstep : s.sender.step label = some sender) : Sent { s with sender } := by
  cases label with
  | writer =>
      obtain ⟨htaken, hwrite, hdone, hkeeps⟩ := WriteState.writerStep_record hstep
      by_cases hfinish : s.sender.pc = .finish
      · obtain ⟨hpc, hpending⟩ := hkeeps hfinish
        simp only [Sent, hfinish] at h
        simp only [Sent, hpc, htaken, hpending]
        exact h
      · obtain ⟨hnone, hbytes⟩ := h.whole hwrite hfinish hdone
        exact .of_whole hnone (hbytes.trans (by rw [htaken]))
  | writeReturns writeStatus => exact absurd rfl (hreturn writeStatus)
  | producerPut m =>
      simp only [WriteState.step] at hstep
      split at hstep
      · obtain rfl := Option.some.inj hstep
        exact h
      · cases hstep
  | stop | readerDies =>
      obtain rfl := Option.some.inj hstep
      exact h

omit [QueueBase Q'] in
/-- The messages that a step of the sender makes accepted are well formed in an orderly run. -/
theorem sender_formed {label : WriteLabel} {sender : WriteState Q}
    (hformed : ∀ m ∈ s.sender.accepted, WellFormed m) (horderly : s.Orderly (.sender label))
    (hstep : s.sender.step label = some sender) : ∀ m ∈ sender.accepted, WellFormed m := by
  cases label with
  | writer =>
      rw [(WriteState.writerStep_frame hstep).1]
      exact hformed
  | writeReturns writeStatus =>
      obtain ⟨-, rfl⟩ := WriteState.writeReturns_cases hstep
      rw [(WriteState.writeReturns_frame s.sender writeStatus).1]
      exact hformed
  | producerPut m =>
      simp only [WriteState.step] at hstep
      split at hstep
      · obtain rfl := Option.some.inj hstep
        simp only
        split
        · intro d hd
          rcases List.mem_append.mp hd with hearlier | hnew
          · exact hformed d hearlier
          · obtain rfl := List.mem_singleton.mp hnew
            exact horderly
        · exact hformed
      · cases hstep
  | stop | readerDies =>
      obtain rfl := Option.some.inj hstep
      exact hformed

omit [QueueBase Q] [QueueBase Q'] in
/-- A call of `send` keeps the sender's invariant: the write goes on or returns. -/
theorem send_sender {result : SendResult} (hinv : s.sender.Inv Rel)
    (hstep : s.sendStep result = some s') :
    s'.sender.Inv Rel ∧ s'.sender.accepted = s.sender.accepted ∧ s'.receiver = s.receiver := by
  have hreturns : ∀ writeStatus, s.sender.pc = .write →
      (s.sender.writeReturns writeStatus).Inv Rel ∧
        (s.sender.writeReturns writeStatus).accepted = s.sender.accepted :=
    fun writeStatus hpc => ⟨WriteState.writeReturns_inv writeStatus hpc hinv,
      (WriteState.writeReturns_frame s.sender writeStatus).1⟩
  obtain ⟨⟨hpc, -, -⟩, ⟨-, rfl⟩ | ⟨-, -, rfl⟩ | ⟨-, rfl⟩ | ⟨-, rfl⟩⟩ := send_cases hstep
  · exact ⟨(hreturns 0 hpc).1, (hreturns 0 hpc).2, rfl⟩
  · exact ⟨(hreturns (-2) hpc).1, (hreturns (-2) hpc).2, rfl⟩
  · exact ⟨hinv, rfl, rfl⟩
  · exact ⟨(hreturns _ hpc).1, (hreturns _ hpc).2, rfl⟩

/-- Every step of an orderly run keeps the invariant. -/
theorem step_inv (hsim : Simulates Q Rel) (hsim' : Simulates Q' Rel') (label : LinkLabel)
    (hinv : Inv Rel Rel' s) (horderly : s.Orderly label) (hstep : s.step label = some s') :
    Inv Rel Rel' s' := by
  obtain ⟨hsender, hreceiver, hformed, hsent⟩ := hinv
  obtain ⟨a, hrel, hat⟩ := hsender
  have hsender : s.sender.Inv Rel := ⟨a, hrel, hat⟩
  cases label with
  | sender label =>
      have hreturn : ∀ writeStatus, label ≠ .writeReturns writeStatus := by
        rintro writeStatus rfl
        cases hstep
      have hmap : (s.sender.step label).map (fun sender => { s with sender }) = some s' := by
        cases label with
        | writeReturns writeStatus => exact absurd rfl (hreturn writeStatus)
        | _ => exact hstep
      obtain ⟨sender, hown, rfl⟩ := Option.map_eq_some_iff.mp hmap
      exact ⟨WriteState.step_inv hsim label hsender hown, hreceiver,
        sender_formed hformed horderly hown, sender_sent hsent hreturn hown⟩
  | send result =>
      obtain ⟨hown, haccepted, hother⟩ := send_sender hsender hstep
      exact ⟨hown, hother ▸ hreceiver, haccepted ▸ hformed,
        send_sent horderly hsent hat hstep⟩
  | writeFails =>
      simp only [step] at hstep
      split at hstep
      · rename_i hpc
        obtain rfl := Option.some.inj hstep
        refine ⟨WriteState.writeReturns_inv _ hpc hsender, hreceiver, ?_, fails_sent hsent hat hpc⟩
        rw [(WriteState.writeReturns_frame s.sender _).1]
        exact hformed
      · cases hstep
  | receiver label =>
      have hchunk : ∀ chunk, label ≠ .readReturns (.chunk chunk) := by
        rintro chunk rfl
        cases hstep
      have hmap : (s.receiver.step label).map (fun receiver => { s with receiver }) = some s' := by
        cases label with
        | readReturns result =>
            cases result with
            | chunk chunk => exact absurd rfl (hchunk chunk)
            | _ => exact hstep
        | _ => exact hstep
      obtain ⟨receiver, hown, rfl⟩ := Option.map_eq_some_iff.mp hmap
      refine ⟨hsender, ReadState.step_inv hsim' label hreceiver hown, hformed,
        hsent.congr ?_ rfl rfl⟩
      rw [bytes, bytes, ReadState.step_chunks hchunk hown]
  | recv count =>
      obtain ⟨hbytes, hother, hsize, chunk, hpc, hown⟩ := recv_bytes hstep
      refine ⟨hother ▸ hsender, ?_, hother ▸ hformed, hsent.congr hbytes hother hsize⟩
      rw [hown]
      exact ReadState.readReturns_inv _ hpc hreceiver

/-- The invariant holds after every orderly run of two workers whose queues start empty. -/
theorem reachable_inv (hsim : Simulates Q Rel) (hsim' : Simulates Q' Rel') {queue : Q}
    {queue' : Q'} {bound bound' : Nat} (hrel : Rel queue (.empty bound))
    (hrel' : Rel' queue' (.empty bound')) (h : (machine queue queue').ReachableUnder Orderly s) :
    Inv Rel Rel' s := by
  have hinit : ∀ state, (machine queue queue').init state → Inv Rel Rel' state := by
    intro state hstate
    obtain rfl := hstate
    exact ⟨WriteState.start_inv hrel, ReadState.start_inv hrel', by simp [start, WriteState.start],
      .of_whole rfl rfl⟩
  have hstep : ∀ state following label, Inv Rel Rel' state → state.Orderly label →
      (machine queue queue').step state label = some following → Inv Rel Rel' following :=
    fun _ _ label hinv horderly hnext => step_inv hsim hsim' label hinv horderly hnext
  exact h.invariant hinit hstep

end LinkState

/-! ## From queue to consumer -/

/-- Over rings of any number of cells, in every orderly interleaving of the two workers, their
clients and the network: the receiver's thread neither forms an inverted range nor leaves the ring;
what its consumer has taken and its ring holds are the first messages that the sender's ring has
accepted; whenever its loop is at the head and nothing has stopped it, every message whose bytes
have all been received is among them; and when nothing is under way or queued at the sender, these
are all messages. -/
theorem link_delivers_in_order {count cellSize count' cellSize' : Nat}
    {s : LinkState RingQueue RingQueue} (hcount : count < 2 ^ 32) (hcount' : count' < 2 ^ 32)
    (h : (LinkState.machine (RingQueue.new count cellSize)
      (RingQueue.new count' cellSize')).ReachableUnder LinkState.Orderly s) :
    (s.receiver.pc ≠ .undefined ∧ s.receiver.pc ≠ .terminated) ∧
      s.receiver.delivered <+: s.sender.accepted ∧
      (s.receiver.pc = .head → ¬ s.receiver.Stopped →
        (∀ sent, (s.sender.accepted.take sent).flatten.length ≤ s.receiver.chunks.flatten.length →
          s.sender.accepted.take sent <+: s.receiver.delivered) ∧
        (s.sender.queue.contents = [] → s.wire = [] →
          s.receiver.delivered = s.sender.accepted)) := by
  have hinv := LinkState.reachable_inv ring_simulates ring_simulates
    (Represents.new count cellSize hcount) (Represents.new count' cellSize' hcount') h
  obtain ⟨outputs, p, hput, houtputs⟩ := hinv.received
  obtain ⟨⟨a, hrel, hat⟩, ⟨a', hrel', hat'⟩, -, hsent⟩ := hinv
  have hdelivered : s.receiver.delivered =
      s.receiver.taken ++ a'.fifo.items.map Message.bytes := by
    rw [ReadState.delivered, hrel'.contents]
  obtain ⟨-, hall⟩ := hsent.starts hat
  rw [hdelivered]
  refine ⟨⟨fun hpc => ?_, fun hpc => ?_⟩, ?_, fun hpc hgoing => ?_⟩
  · simp only [ReadState.AtPc, hpc] at hat'
    obtain ⟨⟨fault, hfault⟩, -⟩ := hat'
    cases hfault.symm.trans hput
  · simp only [ReadState.AtPc, hpc] at hat'
  · refine (hat'.partly.starts hput).trans ?_
    rw [houtputs]
    exact tokensWithin_starts _ _
  · simp only [ReadState.AtPc, hpc] at hat'
    obtain ⟨others, q, -, hothers, hflat⟩ := hat'.handedOver hgoing
    obtain ⟨rfl, -⟩ := Outcome.answer_unique hput hothers
    rw [List.append_nil] at hflat
    rw [hflat, houtputs]
    refine ⟨fun sent hlength => take_starts_tokensWithin hlength, fun hnone hidle => ?_⟩
    rw [hrel.contents] at hnone
    have hwhole := hall hnone
    rw [LinkState.bytes, hidle, List.append_nil] at hwhole
    exact tokensWithin_all (Nat.le_of_eq (congrArg List.length hwhole.symm))

/-- A datagram without payload is sent in two parts and received in two others. -/
def headerInParts : List LinkLabel :=
  [.sender (.producerPut ⟨prepareDataForSending [], by decide⟩),
    .sender .writer, .sender .writer, .sender .writer, .sender .writer, .sender .writer,
    .send ⟨5, 0⟩, .receiver .reader, .receiver .reader, .recv 3, .send ⟨7, 0⟩, .sender .writer,
    .receiver .reader, .receiver .reader, .receiver .reader, .receiver .reader, .receiver .reader,
    .receiver .reader, .recv 9, .receiver .reader, .receiver .reader, .receiver .reader,
    .receiver .reader, .receiver .reader, .receiver .reader, .receiver .reader, .receiver .reader,
    .receiver .reader, .receiver .reader]

/-- It goes from one ring of one cell to the other. -/
theorem link_delivers_in_order_parts :
    ∃ s, (LinkState.machine (RingQueue.new 1 16) (RingQueue.new 1 16)).ReachableUnder
        LinkState.Orderly s ∧ s.receiver.pc = .head ∧
      s.receiver.delivered = [prepareDataForSending []] := by
  have hguard : ∀ label ∈ headerInParts, ∀ state : LinkState RingQueue RingQueue,
      state.Orderly label := by
    have hformed : WellFormed (prepareDataForSending []) := wellFormed_prepare (by decide)
    simp [headerInParts, LinkState.Orderly, hformed, SendResult.WouldBlock]
  have hrun : ((LinkState.machine (RingQueue.new 1 16) (RingQueue.new 1 16)).run headerInParts
      (LinkState.start (RingQueue.new 1 16) (RingQueue.new 1 16))).map
        (fun s => ((s.receiver.pc, s.receiver.flags), s.sender.queue.contents, s.wire,
          s.sender.accepted)) =
      some ((.head, .run), [], [], [prepareDataForSending []]) := by
    decide +kernel
  obtain ⟨s, hs, hfields⟩ := Option.map_eq_some_iff.mp hrun
  obtain ⟨⟨hpc, hflags⟩, hqueue, hwire, haccepted⟩ : (s.receiver.pc = .head ∧
      s.receiver.flags = .run) ∧ s.sender.queue.contents = [] ∧ s.wire = [] ∧
        s.sender.accepted = [prepareDataForSending []] := by
    simpa using hfields
  have hreach := Machine.ReachableUnder.run _ (.start rfl) hguard hs
  have hgoing : ¬ s.receiver.Stopped := by
    rw [ReadState.Stopped, hflags]
    decide
  obtain ⟨-, -, hall⟩ := link_delivers_in_order (by decide) (by decide) hreach
  exact ⟨s, hreach, hpc, ((hall hpc hgoing).2 hqueue hwire).trans haccepted⟩

end Shovel.Workers
