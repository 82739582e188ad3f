import Shovel.Local.LocalSocket
import Shovel.Workers.ReadWithoutParser
import Shovel.Workers.WriteThread

/-!
# Two workers at the ends of a local socket

The writing thread of one worker sends its messages with `LocalSocket::write`, and
the reading thread of another receives them. The system keeps datagrams whole and in
order, and a `sendto` takes a whole datagram or fails. A failure for an absent peer
makes the thread repeat its call.

Without a parser the receiver hands each datagram to its queue once. What is lost is
lost there alone, when the queue is full: `local_link_delivers` follows the messages
from the one queue to the consumer of the other.
-/

namespace Shovel.Workers

open Containers Local Network Parsers Transition Bounded

/-! ## What the receiver's queue keeps -/

namespace Recording

variable {Q : Type} [QueueBase Q] {q : Recording Q} {inner : Q}

theorem put_eq {m : Message} {ret : Nat} (h : QueueBase.put q.inner m = .ok (ret, inner)) :
    QueueBase.put q m = .ok (ret, ⟨inner, q.calls ++ [(m, ret)]⟩) :=
  Outcome.bind_eq_ok.mpr ⟨_, h, rfl⟩

theorem get_eq {size : Nat} {read : Read} (h : QueueBase.get q.inner size = .ok (read, inner)) :
    QueueBase.get q size = .ok (read, { q with inner }) :=
  Outcome.bind_eq_ok.mpr ⟨_, h, rfl⟩

omit [QueueBase Q] in
/-- A call that returns zero adds nothing to what is accepted, any other one its message. -/
theorem accepted_put (inner inner' : Q) (calls : List (Message × Nat)) (m : Message) (ret : Nat) :
    accepted ⟨inner', calls ++ [(m, ret)]⟩ =
      accepted ⟨inner, calls⟩ ++ if ret = 0 then [] else [m.bytes] := by
  by_cases hzero : ret = 0 <;> simp [accepted, hzero]

omit [QueueBase Q] in
/-- What is accepted are some of the bytes offered, in their order. -/
theorem accepted_sublist (q : Recording Q) : q.accepted.Sublist q.offered :=
  List.filter_sublist.map _

end Recording

namespace ReadState

variable {Q : Type} {s s' : ReadState (Recording Q)} {Rel : Q → MessageFifo → Prop}

/-- A reading thread without a parser: what it offers are the first chunks, no chunk is empty, and
the consumer finds what the queue has accepted. -/
structure Hands (Rel : Q → MessageFifo → Prop) (s : ReadState (Recording Q)) : Prop where
  parser : s.parser = none
  offers : s.Offers
  starts : s.queue.offered <+: s.chunks
  chunks : ∀ c ∈ s.chunks, c ≠ []
  kept : ∃ a, Rel s.queue.inner a ∧ s.taken ++ a.fifo.items.map Message.bytes = s.queue.accepted

variable [QueueBase Q]

/-- A `put` of the chunk in the local array: it is kept whole, or refused. -/
theorem parse_hands (hsim : Simulates Q Rel) (hpc : s.pc = .parse) (h : s.Hands Rel)
    (hoffers : s'.Offers) (hstep : s.readerStep = some s') : s'.Hands Rel := by
  obtain ⟨hparser, hbefore, -, hchunks, a, hrel, hkept⟩ := h
  simp only [Offers, hpc] at hbefore
  have hfits : s.arr.content.length < 2 ^ 16 := by
    rw [s.arr.length_content]
    exact Nat.lt_succ_of_le s.arr.fits
  have hbytes : (castMessage s.arr.content).bytes = s.arr.content := castMessage_bytes hfits
  have hsize : (castMessage s.arr.content).size ≠ 0 := by
    have hne := hchunks s.arr.content (by rw [hbefore]; simp)
    rw [Message.size, hbytes]
    exact fun hzero => hne (List.length_eq_zero_iff.mp hzero)
  obtain ⟨inner, hput, hnext⟩ := hsim.put (castMessage s.arr.content) hrel
  simp only [readerStep, hpc, hparser, Recording.put_eq hput] at hstep
  obtain rfl := Option.some.inj hstep
  refine ⟨rfl, hoffers, ?_, hchunks, _, hnext, ?_⟩
  · rw [show s.chunks = _ from hbefore]
    simp [Recording.offered, hbytes]
  · show s.taken ++ _ = Recording.accepted ⟨inner, _⟩
    rw [Recording.accepted_put s.queue.inner, ← hkept, List.append_assoc]
    by_cases hroom : a.fifo.HasRoom
    · simp [MessageFifo.put_room hroom, Fifo.push_items hroom, hsize]
    · simp [MessageFifo.put_full hroom]

/-- A `get` of the consumer takes the first message that the queue keeps. -/
theorem consumerGet_hands (hsim : Simulates Q Rel) (h : s.Hands Rel) (hoffers : s'.Offers)
    (hstep : s.step .consumerGet = some s') : s'.Hands Rel := by
  obtain ⟨hparser, -, hstarts, hchunks, a, hrel, hkept⟩ := h
  obtain ⟨inner, hget, hnext⟩ := hsim.get connectionWorkerArrSize hrel
  simp only [step, Recording.get_eq hget] at hstep
  obtain rfl := Option.some.inj hstep
  refine ⟨hparser, hoffers, hstarts, hchunks, _, hnext, ?_⟩
  show _ = Recording.accepted ⟨s.queue.inner, s.queue.calls⟩
  rw [← hkept]
  cases hitems : a.fifo.items with
  | nil =>
      have hread := MessageFifo.look_none (q := a) connectionWorkerArrSize (by simp [hitems])
      simp [MessageFifo.get, hread, hitems]
  | cons m rest =>
      have hread := look_whole (a := a) (m := m) (by simp [hitems])
      have hsize : m.size ≠ 0 := by
        intro hzero
        have hmem : m.bytes ∈ s.queue.offered := by
          refine (s.queue.accepted_sublist).subset ?_
          rw [← hkept, hitems]
          simp
        exact hchunks _ (hstarts.subset hmem) (List.length_eq_zero_iff.mp hzero)
      simp [MessageFifo.get, hread, hitems, hsize]

/-- Every step keeps the receiver's side in order. -/
theorem Hands.step (hsim : Simulates Q Rel) {label : ReadLabel} (h : s.Hands Rel)
    (hstep : s.step label = some s') : s'.Hands Rel := by
  obtain ⟨hparser', hoffers⟩ := step_offers h.parser h.offers hstep
  cases label with
  | reader =>
      have hown : s.readerStep = some s' := hstep
      by_cases hpc : s.pc = .parse
      · exact parse_hands hsim hpc h hoffers hown
      · have hput : ∀ kg rest, s.pc ≠ .put kg rest := by
          intro kg rest hpc
          have hbefore := h.offers
          simp only [Offers, hpc] at hbefore
        obtain ⟨hsame, htaken⟩ := readerStep_record hown
        have hqueue := readerStep_queue hpc hput hown
        exact ⟨hparser', hoffers, by rw [hqueue, hsame]; exact h.starts,
          by rw [hsame]; exact h.chunks, by rw [hqueue, htaken]; exact h.kept⟩
  | readReturns result =>
      obtain ⟨-, rfl⟩ := readReturns_cases hstep
      obtain ⟨-, -, hstarts, hchunks, hkept⟩ := h
      cases result with
      | chunk c =>
          refine ⟨hparser', hoffers, hstarts.trans (List.prefix_append _ _), fun d hd => ?_, hkept⟩
          rcases List.mem_append.mp hd with hearlier | hnew
          · exact hchunks d hearlier
          · obtain rfl := List.mem_singleton.mp hnew
            exact List.length_pos_iff.mp c.nonempty
      | zero | error => exact ⟨hparser', hoffers, hstarts, hchunks, hkept⟩
  | consumerGet => exact consumerGet_hands hsim h hoffers hstep
  | stop | writerDies =>
      obtain rfl := Option.some.inj hstep
      exact ⟨hparser', hoffers, h.starts, h.chunks, h.kept⟩

end ReadState

/-! ## What the sender's thread offers -/

namespace WriteState

variable {Q : Type} {s s' : WriteState Q}

/-- A message that the thread has found a size of is not empty. -/
def HasBytes (s : WriteState Q) : Prop :=
  match s.pc with
  | .checkAlive getStatus | .checkStop getStatus => 0 < getStatus → 0 < s.arr.dataSize
  | .write => 0 < s.arr.dataSize
  | _ => True

/-- Whatever a write returns, a thread that writes again has something to offer. -/
theorem HasBytes.writeReturns (h : s.HasBytes) (writeStatus : Int) :
    (s.writeReturns writeStatus).HasBytes := by
  unfold WriteState.writeReturns
  repeat' split
  · exact h
  · trivial
  · trivial

/-- Every other step keeps it so. -/
theorem HasBytes.step [QueueBase Q] {label : WriteLabel} (h : s.HasBytes)
    (hreturn : ∀ writeStatus, label ≠ .writeReturns writeStatus)
    (hstep : s.step label = some s') : s'.HasBytes := by
  cases label with
  | writer =>
      have hown : s.writerStep = some s' := hstep
      cases hpc : s.pc with
      | head =>
          simp only [writerStep, hpc] at hown
          obtain rfl := Option.some.inj hown
          cases halive : s.flags.readThreadAlive <;> simp [HasBytes]
      | headStop =>
          simp only [writerStep, hpc] at hown
          obtain rfl := Option.some.inj hown
          cases hasked : s.flags.stopAsked <;> simp [HasBytes]
      | peek =>
          simp only [writerStep, hpc] at hown
          split at hown
          all_goals obtain rfl := Option.some.inj hown
          · intro hpos
            rw [SizedArray.resize_dataSize]
            exact Nat.lt_min.mpr ⟨hpos, by decide⟩
          · trivial
      | checkAlive getStatus =>
          simp only [HasBytes, hpc] at h
          simp only [writerStep, hpc] at hown
          obtain rfl := Option.some.inj hown
          cases halive : s.flags.readThreadAlive with
          | false => trivial
          | true => exact h
      | checkStop getStatus =>
          simp only [HasBytes, hpc] at h
          simp only [writerStep, hpc] at hown
          obtain rfl := Option.some.inj hown
          by_cases hasked : s.flags.stopAsked = true
          · simp [HasBytes, hasked]
          · by_cases hpos : 0 < getStatus
            · simpa [HasBytes, hasked, hpos] using h hpos
            · simp [HasBytes, hasked, hpos]
      | pop =>
          simp only [writerStep, hpc] at hown
          split at hown
          all_goals
            obtain rfl := Option.some.inj hown
            trivial
      | finish =>
          simp only [writerStep, hpc] at hown
          obtain rfl := Option.some.inj hown
          trivial
      | write | done | terminated => simp [writerStep, hpc] at hown
  | writeReturns writeStatus => exact absurd rfl (hreturn writeStatus)
  | producerPut m =>
      simp only [WriteState.step] at hstep
      split at hstep
      · obtain rfl := Option.some.inj hstep
        exact h
      · cases hstep
  | stop | readerDies =>
      obtain rfl := Option.some.inj hstep
      exact h

end WriteState

/-! ## The link -/

/-- The writing side of a worker with its socket, the datagrams under way, and the reading side of
the worker at the other end. -/
structure LocalLinkState (Q Q' : Type) where
  worker : LocalSocketWorker
  sender : WriteState Q
  wire : List (List UInt8)
  receiver : ReadState Q'

/-- A step of one side, a `write_data_to_source` with what `sendto` answers if it is called, or a
`recvfrom` that returns the next datagram. -/
inductive LocalLinkLabel where
  | sender (label : WriteLabel)
  | sendto (result : SendResult)
  | receiver (label : ReadLabel)
  | recvfrom

/-- The datagram that a call of `sendto` has put under way. -/
def sentDatagram (c : SendCall) : Option (List UInt8) :=
  if 0 ≤ c.result.status then some c.offered else none

namespace LocalLinkState

variable {Q Q' : Type}

/-- A `sendto` takes a whole datagram, or it fails. -/
def MaySendto (s : LocalLinkState Q Q') (result : SendResult) : Prop :=
  s.sender.pc = .write ∧ (result.status < 0 ∨ result.status = s.sender.arr.dataSize)

instance (s : LocalLinkState Q Q') (result : SendResult) : Decidable (s.MaySendto result) :=
  inferInstanceAs (Decidable (_ ∧ _))

/-- A call of `LocalSocketWorker::write_data_to_source`. -/
def sendtoStep (s : LocalLinkState Q Q') (result : SendResult) : Option (LocalLinkState Q Q') :=
  if s.MaySendto result then
    let run := s.worker.writeDataToSource s.sender.arr result
    some { s with
      sender := s.sender.writeReturns run.ret
      wire := s.wire ++ run.calls.filterMap sentDatagram }
  else none

/-- A `recvfrom` that returns the next datagram, which fits into the socket's buffer. -/
def recvfromStep (s : LocalLinkState Q Q') : Option (LocalLinkState Q Q') :=
  match s.wire with
  | [] => none
  | datagram :: rest =>
      if h : s.receiver.pc = .read ∧ 0 < datagram.length ∧
          datagram.length ≤ connectionWorkerArrSize then
        some { s with
          receiver := s.receiver.readReturns (.chunk ⟨datagram, h.2.1, h.2.2⟩)
          wire := rest }
      else none

variable [QueueBase Q] [QueueBase Q']

/-- One step of an interleaving. What a write returns and which datagram a read returns is up to
`sendtoStep` and `recvfromStep`. -/
def step (s : LocalLinkState Q Q') : LocalLinkLabel → Option (LocalLinkState Q Q')
  | .sender (.writeReturns _) => none
  | .sender label => (s.sender.step label).map fun sender => { s with sender }
  | .sendto result => s.sendtoStep result
  | .receiver (.readReturns (.chunk _)) => none
  | .receiver label => (s.receiver.step label).map fun receiver => { s with receiver }
  | .recvfrom => s.recvfromStep

/-- Before the first step. -/
def start (worker : LocalSocketWorker) (queue : Q) (parser : Option ParserExample) (queue' : Q') :
    LocalLinkState Q Q' :=
  ⟨worker, .start queue, [], .start queue' parser⟩

/-- All interleavings of a worker that writes from `queue` and one that reads into `queue'`. -/
def machine (worker : LocalSocketWorker) (queue : Q) (parser : Option ParserExample)
    (queue' : Q') : Machine (LocalLinkState Q Q') LocalLinkLabel where
  init s := s = start worker queue parser queue'
  step := step

/-- The sender's side is in order, and the datagrams received and those under way are the messages
that the source has taken. -/
structure Carries (Rel : Q → MessageFifo → Prop) (s : LocalLinkState Q Q') : Prop where
  sender : s.sender.Inv Rel
  offers : s.sender.HasBytes
  sent : s.receiver.chunks ++ s.wire = s.sender.taken

variable {s s' : LocalLinkState Q Q'} {Rel : Q → MessageFifo → Prop}

/-- A step of the sender's side that is not the return of a write. -/
theorem sender_cases {label : WriteLabel} (h : s.step (.sender label) = some s') :
    (∀ writeStatus, label ≠ .writeReturns writeStatus) ∧
      ∃ sender, s.sender.step label = some sender ∧ s' = { s with sender } := by
  have hreturn : ∀ writeStatus, label ≠ .writeReturns writeStatus := by
    rintro writeStatus rfl
    cases h
  have hmap : (s.sender.step label).map (fun sender => { s with sender }) = some s' := by
    cases label with
    | writeReturns writeStatus => exact absurd rfl (hreturn writeStatus)
    | _ => exact h
  obtain ⟨sender, hown, rfl⟩ := Option.map_eq_some_iff.mp hmap
  exact ⟨hreturn, sender, hown, rfl⟩

/-- A step of the receiver's side that does not receive a datagram. -/
theorem receiver_cases {label : ReadLabel} (h : s.step (.receiver label) = some s') :
    (∀ chunk, label ≠ .readReturns (.chunk chunk)) ∧
      ∃ receiver, s.receiver.step label = some receiver ∧ s' = { s with receiver } := by
  have hchunk : ∀ chunk, label ≠ .readReturns (.chunk chunk) := by
    rintro chunk rfl
    cases h
  have hmap : (s.receiver.step label).map (fun receiver => { s with receiver }) = some s' := by
    cases label with
    | readReturns result =>
        cases result with
        | chunk chunk => exact absurd rfl (hchunk chunk)
        | _ => exact h
    | _ => exact h
  obtain ⟨receiver, hown, rfl⟩ := Option.map_eq_some_iff.mp hmap
  exact ⟨hchunk, receiver, hown, rfl⟩

omit [QueueBase Q] [QueueBase Q'] in
/-- A write finds nobody at the other end, or fails, or puts its message under way. -/
theorem sendto_cases {result : SendResult} (hstep : s.sendtoStep result = some s') :
    s.sender.pc = .write ∧
      (s' = { s with sender := s.sender.writeReturns 0 } ∨
        s' = { s with sender := s.sender.writeReturns (-1) } ∨
        s' = { s with
          sender := s.sender.writeReturns s.sender.arr.dataSize
          wire := s.wire ++ [s.sender.arr.content] }) := by
  unfold sendtoStep at hstep
  split at hstep
  · rename_i hcall
    obtain ⟨hpc, hwhole⟩ := hcall
    obtain rfl := Option.some.inj hstep
    refine ⟨hpc, ?_⟩
    cases hsocket : s.worker.localSocket with
    | none => exact .inr (.inl (by simp [LocalSocketWorker.writeDataToSource, hsocket]))
    | some socket =>
        by_cases hclosed : socket.fd = 0
        · refine .inr (.inl ?_)
          simp [LocalSocketWorker.writeDataToSource, LocalSocket.write, hsocket, hclosed]
        · by_cases habsent : PeerAbsent result
          · have hnone : sentDatagram ⟨s.sender.arr.content, result⟩ = none :=
              if_neg (Int.not_le.mpr habsent.1)
            refine .inl ?_
            simp [LocalSocketWorker.writeDataToSource, LocalSocket.write, hsocket, hclosed, habsent,
              hnone]
          · by_cases hfailed : result.status < 0
            · have hnone : sentDatagram ⟨s.sender.arr.content, result⟩ = none :=
                if_neg (Int.not_le.mpr hfailed)
              refine .inr (.inl ?_)
              simp [LocalSocketWorker.writeDataToSource, LocalSocket.write, hsocket, hclosed,
                habsent, hfailed, hnone]
            · have hstatus := hwhole.resolve_left hfailed
              have hone : sentDatagram ⟨s.sender.arr.content, result⟩ = some s.sender.arr.content :=
                if_pos (Int.not_lt.mp hfailed)
              refine .inr (.inr ?_)
              simp [LocalSocketWorker.writeDataToSource, LocalSocket.write, hsocket, hclosed,
                habsent, hfailed, hone, ← hstatus]
  · cases hstep

omit [QueueBase Q] [QueueBase Q'] in
/-- A `recvfrom` makes a chunk of the next datagram. -/
theorem recvfrom_cases (hstep : s.recvfromStep = some s') :
    ∃ chunk, s.receiver.pc = .read ∧ s.wire = chunk.bytes :: s'.wire ∧
      s'.sender = s.sender ∧ s'.receiver = s.receiver.readReturns (.chunk chunk) := by
  unfold recvfromStep at hstep
  split at hstep
  · cases hstep
  · rename_i datagram rest hwire
    split at hstep
    · rename_i hcall
      obtain rfl := Option.some.inj hstep
      exact ⟨⟨datagram, hcall.2.1, hcall.2.2⟩, hcall.1, hwire, rfl, rfl⟩
    · cases hstep

omit [QueueBase Q] in
/-- The return of the read is a step of the receiver. -/
theorem recvfrom_step (hstep : s.recvfromStep = some s') :
    ∃ chunk, s.receiver.step (.readReturns (.chunk chunk)) = some s'.receiver := by
  obtain ⟨chunk, hpc, -, -, hown⟩ := recvfrom_cases hstep
  refine ⟨chunk, ?_⟩
  rw [hown]
  exact if_pos hpc

/-- Every step keeps the datagrams. -/
theorem Carries.step (hsim : Simulates Q Rel) {label : LocalLinkLabel} (h : s.Carries Rel)
    (hstep : s.step label = some s') : s'.Carries Rel := by
  obtain ⟨hsender, hbytes, hsent⟩ := h
  cases label with
  | sender label =>
      obtain ⟨hreturn, sender, hown, rfl⟩ := sender_cases hstep
      exact ⟨WriteState.step_inv hsim label hsender hown, hbytes.step hreturn hown,
        hsent.trans (WriteState.step_taken hreturn hown).symm⟩
  | sendto result =>
      obtain ⟨hpc, rfl | rfl | rfl⟩ := sendto_cases hstep
      · exact ⟨hsender, hbytes, hsent⟩
      · exact ⟨WriteState.writeReturns_inv _ hpc hsender, hbytes.writeReturns (-1), hsent⟩
      · have hafter := hbytes.writeReturns s.sender.arr.dataSize
        refine ⟨WriteState.writeReturns_inv _ hpc hsender, hafter, ?_⟩
        simp only [WriteState.HasBytes, hpc] at hbytes
        have hpos : (s.sender.arr.dataSize : Int) ≠ 0 := by omega
        have hnonneg : ¬ (s.sender.arr.dataSize : Int) < 0 := by omega
        simp only [WriteState.writeReturns, hpos, hnonneg, if_false]
        rw [← List.append_assoc, hsent]
  | receiver label =>
      obtain ⟨hchunk, receiver, hown, rfl⟩ := receiver_cases hstep
      refine ⟨hsender, hbytes, ?_⟩
      show receiver.chunks ++ s.wire = s.sender.taken
      rw [ReadState.step_chunks hchunk hown, hsent]
  | recvfrom =>
      obtain ⟨chunk, -, hwire, hother, hown⟩ := recvfrom_cases hstep
      refine ⟨hother ▸ hsender, hother ▸ hbytes, ?_⟩
      rw [hother, ← hsent, hwire, hown, ReadState.readReturns, List.append_assoc,
        List.singleton_append]

/-- What a step does to the receiver is a step of its own machine. -/
theorem step_receiver {label : LocalLinkLabel} (hstep : s.step label = some s') :
    s'.receiver = s.receiver ∨ ∃ label', s.receiver.step label' = some s'.receiver := by
  cases label with
  | sender label =>
      obtain ⟨-, sender, -, rfl⟩ := sender_cases hstep
      exact .inl rfl
  | sendto result =>
      obtain ⟨-, rfl | rfl | rfl⟩ := sendto_cases hstep
      all_goals exact .inl rfl
  | receiver label =>
      obtain ⟨-, receiver, hown, rfl⟩ := receiver_cases hstep
      exact .inr ⟨label, hown⟩
  | recvfrom =>
      obtain ⟨chunk, hreads⟩ := recvfrom_step hstep
      exact .inr ⟨_, hreads⟩

section Runs

variable {worker : LocalSocketWorker} {queue : Q} {bound : Nat}

/-- The datagrams are kept in every run of two workers, of which the sender's queue starts empty. -/
theorem reachable_carries (hsim : Simulates Q Rel) (hrel : Rel queue (.empty bound))
    {parser : Option ParserExample} {queue' : Q'}
    (h : (machine worker queue parser queue').Reachable s) : s.Carries Rel := by
  have hinit : ∀ state, (machine worker queue parser queue').init state → state.Carries Rel := by
    rintro state rfl
    exact ⟨WriteState.start_inv hrel, trivial, rfl⟩
  exact h.invariant hinit fun _ _ _ hcarries hstep => hcarries.step hsim hstep

/-- Without a parser the receiver's side is in order in every run, if its queue starts empty. -/
theorem reachable_hands {Rel' : Q' → MessageFifo → Prop} {queue' : Q'} {bound' : Nat}
    {s : LocalLinkState Q (Recording Q')} (hsim' : Simulates Q' Rel')
    (hrel' : Rel' queue' (.empty bound'))
    (h : (machine worker queue none (.new queue')).Reachable s) : s.receiver.Hands Rel' := by
  have hinit : ∀ state : LocalLinkState Q (Recording Q'),
      (machine worker queue none (.new queue')).init state → state.receiver.Hands Rel' := by
    rintro state rfl
    exact ⟨rfl, rfl, List.nil_prefix, fun _ hmem => absurd hmem List.not_mem_nil, _, hrel', rfl⟩
  refine h.invariant hinit fun state following label hhands hstep => ?_
  obtain hsame | ⟨label', hown⟩ := step_receiver hstep
  · exact hsame ▸ hhands
  · exact hhands.step hsim' hown

end Runs

end LocalLinkState

section Rings

variable {Q' : Type} {s : LocalLinkState RingQueue Q'}

/-- The datagrams received are the first messages that the sender's ring has accepted. -/
theorem LocalLinkState.Carries.starts (h : s.Carries Represents) :
    s.receiver.chunks <+: s.sender.accepted := by
  obtain ⟨⟨a, -, hat⟩, -, hsent⟩ := h
  have hchunks : s.receiver.chunks <+: s.sender.taken := ⟨s.wire, hsent⟩
  exact hchunks.trans hat.taken_starts

/-- When nothing is queued at the sender or under way, they are all messages. -/
theorem LocalLinkState.Carries.received (h : s.Carries Represents)
    (hnone : s.sender.queue.contents = []) (hwire : s.wire = []) :
    s.receiver.chunks = s.sender.accepted := by
  obtain ⟨⟨a, hrel, hat⟩, -, hsent⟩ := h
  have hpop : s.sender.pc ≠ .pop := by
    intro hpc
    simp only [WriteState.AtPc, hpc] at hat
    obtain ⟨-, earlier, m, rest, -, hqueued, -⟩ := hat
    rw [hrel.contents, hqueued] at hnone
    cases hnone
  have hall := hat.conserved hpop
  rw [← hrel.contents, hnone, List.append_nil, ← hsent, hwire, List.append_nil] at hall
  exact hall

end Rings

/-- Over rings of any number of cells, whatever socket the sender has and in every interleaving:
what the consumer has taken and the receiver's ring holds is what this ring has accepted, and that
are some of the messages offered to it, whole and in order; the offered messages are the first ones
that the sender's ring has accepted. When nothing is queued at the sender or under way and the
receiver's thread is at the head of its loop, every message has been offered, and all of them are
at the consumer or in the ring exactly if the ring has refused none. -/
theorem local_link_delivers {count cellSize count' cellSize' : Nat} {worker : LocalSocketWorker}
    {s : LocalLinkState RingQueue (Recording RingQueue)} (hcount : count < 2 ^ 32)
    (hcount' : count' < 2 ^ 32)
    (h : (LocalLinkState.machine worker (RingQueue.new count cellSize) none
      (.new (RingQueue.new count' cellSize'))).Reachable s) :
    s.receiver.taken ++ s.receiver.queue.inner.contents = s.receiver.queue.accepted ∧
      s.receiver.queue.accepted.Sublist s.receiver.queue.offered ∧
      s.receiver.queue.offered <+: s.sender.accepted ∧
      (s.receiver.pc = .head → s.sender.queue.contents = [] → s.wire = [] →
        s.receiver.queue.offered = s.sender.accepted ∧
          (s.receiver.taken ++ s.receiver.queue.inner.contents = s.sender.accepted ↔
            s.receiver.queue.NoneRefused)) := by
  have hcarries := LocalLinkState.reachable_carries ring_simulates
    (Represents.new count cellSize hcount) h
  obtain ⟨-, hoffers, hstarts, -, a', hrel', hkept⟩ :=
    LocalLinkState.reachable_hands ring_simulates (Represents.new count' cellSize' hcount') h
  rw [← hrel'.contents] at hkept
  refine ⟨hkept, s.receiver.queue.accepted_sublist, hstarts.trans hcarries.starts,
    fun hhead hnone hwire => ?_⟩
  simp only [ReadState.Offers, hhead] at hoffers
  have hall := hcarries.received hnone hwire
  refine ⟨hoffers.trans hall, ?_⟩
  rw [hkept, ← Recording.accepted_eq_offered_iff, hoffers, hall]

/-- A message of one byte goes from one ring of one cell to the other, behind a write that finds
nobody at the other end. -/
theorem local_link_delivers_byte :
    ∃ s, (LocalLinkState.machine ⟨some ⟨5⟩⟩ (RingQueue.new 1 4) none
        (Recording.new (RingQueue.new 1 4))).Reachable s ∧
      s.receiver.queue.inner.contents = [[7]] := by
  have hrun : ((LocalLinkState.machine ⟨some ⟨5⟩⟩ (RingQueue.new 1 4) none
      (Recording.new (RingQueue.new 1 4))).run
      [.sender (.producerPut ⟨[7], by decide⟩), .sender .writer, .sender .writer, .sender .writer,
        .sender .writer, .sender .writer, .sendto ⟨-1, ECONNREFUSED⟩, .sendto ⟨1, 0⟩,
        .sender .writer, .receiver .reader, .receiver .reader, .recvfrom, .receiver .reader,
        .receiver .reader, .receiver .reader]
      (LocalLinkState.start ⟨some ⟨5⟩⟩ (RingQueue.new 1 4) none
        (Recording.new (RingQueue.new 1 4)))).map
        (fun s => (s.receiver.pc, s.receiver.queue.calls.map Prod.snd, s.sender.accepted,
          s.receiver.taken ++ s.sender.queue.contents ++ s.wire)) =
      some (.head, [1], [[7]], []) := by
    decide +kernel
  obtain ⟨s, hs, hfields⟩ := Option.map_eq_some_iff.mp hrun
  obtain ⟨hpc, hcalls, haccepted, htaken, hqueue, hwire⟩ : s.receiver.pc = .head ∧
      s.receiver.queue.calls.map Prod.snd = [1] ∧ s.sender.accepted = [[7]] ∧
      s.receiver.taken = [] ∧ s.sender.queue.contents = [] ∧ s.wire = [] := by
    simpa using hfields
  have hreach := Machine.reachable_of_run _ rfl hs
  have hnone : s.receiver.queue.NoneRefused := by
    intro call hcall
    have hret : call.2 ∈ s.receiver.queue.calls.map Prod.snd := List.mem_map_of_mem hcall
    rw [hcalls, List.mem_singleton] at hret
    omega
  obtain ⟨-, -, -, hend⟩ := local_link_delivers (by decide) (by decide) hreach
  have hall := ((hend hpc hqueue hwire).2).mpr hnone
  rw [htaken, List.nil_append] at hall
  exact ⟨s, hreach, hall.trans haccepted⟩

end Shovel.Workers
