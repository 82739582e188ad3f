import Shovel.Workers.Link
import Shovel.Workers.LocalLink

/-!
# A local link whose receiver parses

The subprocesses of the repository set a `ParserExample` at the worker that reads
from a local socket. Each of its datagrams is a chunk for the parser then. Seen as
bytes such a link is one of `Link`: a `sendto` is a `send` that takes all bytes, an
absent peer is a `send` that would block before the first byte, and a `recvfrom` is
a `recv` that ends where a `sendto` ended. So what holds on a TCP connection holds
here, and the parser never waits for the rest of a datagram.
-/

namespace Shovel.Workers

open Containers Local Network Parsers ParserExample Incremental Scanner Transition Bounded

namespace LocalLinkState

variable {Q Q' : Type}

/-- The link as one over a stream of bytes. No write stands between two of its calls. -/
def asLink (s : LocalLinkState Q Q') : LinkState Q Q' :=
  ⟨s.sender, 0, s.wire.flatten, s.receiver⟩

/-- The producers put well-formed datagrams. -/
def Formed (_ : LocalLinkState Q Q') : LocalLinkLabel → Prop
  | .sender (.producerPut m) => WellFormed m.bytes
  | _ => True

variable {s s' : LocalLinkState Q Q'} {Rel : Q → MessageFifo → Prop}

section Steps

variable [QueueBase Q] [QueueBase Q'] {label : LocalLinkLabel}

/-- A `sendto` as a step of the link over bytes. -/
theorem sendto_asLink {result : SendResult} (hbytes : s.sender.HasBytes)
    (hstep : s.sendtoStep result = some s') :
    ∃ label, s.asLink.Orderly label ∧ s.asLink.step label = some s'.asLink := by
  obtain ⟨hpc, houtcome⟩ := sendto_cases hstep
  simp only [WriteState.HasBytes, hpc] at hbytes
  obtain rfl | rfl | rfl := houtcome
  · -- nobody was there: a `send` that would block
    refine ⟨.send ⟨-1, EAGAIN⟩, fun _ => rfl, ?_⟩
    have hmay : s.asLink.MaySend ⟨-1, EAGAIN⟩ := ⟨hpc, hbytes, by simp⟩
    have hblock : SendResult.WouldBlock ⟨-1, EAGAIN⟩ := ⟨by decide, .inl rfl⟩
    exact LinkState.sendStep_blocked hmay hblock
  · refine ⟨.writeFails, trivial, ?_⟩
    simp only [LinkState.step]
    exact if_pos hpc
  · refine ⟨.send ⟨s.sender.arr.dataSize, 0⟩, fun hblock => absurd hblock.1 (by simp), ?_⟩
    have hmay : s.asLink.MaySend ⟨s.sender.arr.dataSize, 0⟩ := by
      refine ⟨hpc, hbytes, ?_⟩
      simp [LinkState.sendCall, asLink, SizedArray.length_content]
    have hnot : ¬ SendResult.WouldBlock ⟨s.sender.arr.dataSize, 0⟩ := fun hblock =>
      absurd hblock.1 (by simp)
    have hnonneg : ¬ (s.sender.arr.dataSize : Int) < 0 := by omega
    have hall : (s.asLink.sendCall ⟨s.sender.arr.dataSize, 0⟩).accepted =
        s.sender.arr.content := by
      simp [LinkState.sendCall, SendCall.accepted, asLink, ← SizedArray.length_content]
    simp only [LinkState.step, LinkState.sendStep, if_pos hmay, if_neg hnot, hnonneg, if_false,
      hall]
    simp [asLink]

/-- Every step is one of the link over bytes. -/
theorem step_asLink (hbytes : s.sender.HasBytes) (hformed : s.Formed label)
    (hstep : s.step label = some s') :
    ∃ label', s.asLink.Orderly label' ∧ s.asLink.step label' = some s'.asLink := by
  cases label with
  | sender label =>
      obtain ⟨hreturn, sender, hown, rfl⟩ := sender_cases hstep
      refine ⟨.sender label, ?_, ?_⟩
      · cases label with
        | producerPut m => exact hformed
        | _ => trivial
      · cases label with
        | writeReturns writeStatus => exact absurd rfl (hreturn writeStatus)
        | _ =>
            simp only [LinkState.step, asLink, hown, Option.map_some]
  | sendto result => exact sendto_asLink hbytes hstep
  | receiver label =>
      obtain ⟨hchunk, receiver, hown, rfl⟩ := receiver_cases hstep
      refine ⟨.receiver label, trivial, ?_⟩
      cases label with
      | readReturns result =>
          cases result with
          | chunk chunk => exact absurd rfl (hchunk chunk)
          | _ => simp only [LinkState.step, asLink, hown, Option.map_some]
      | _ => simp only [LinkState.step, asLink, hown, Option.map_some]
  | recvfrom =>
      obtain ⟨chunk, hpc, hwire, hother, hown⟩ := recvfrom_cases hstep
      refine ⟨.recv chunk.bytes.length, trivial, ?_⟩
      have hflat : s.wire.flatten = chunk.bytes ++ s'.wire.flatten := by
        rw [hwire, List.flatten_cons]
      have hcall : s.asLink.receiver.pc = .read ∧ 0 < chunk.bytes.length ∧
          chunk.bytes.length ≤ s.asLink.wire.length ∧
          chunk.bytes.length ≤ connectionWorkerArrSize := by
        refine ⟨hpc, chunk.nonempty, ?_, chunk.fits⟩
        rw [asLink, hflat, List.length_append]
        exact Nat.le_add_right _ _
      simp only [LinkState.step, LinkState.recvStep, dif_pos hcall]
      simp [asLink, hflat, hother, hown]

/-- In every run in which the producers put well-formed datagrams, the link is in a state that the
one over bytes can come to as well. -/
theorem reachable_asLink (hsim : Simulates Q Rel) {worker : LocalSocketWorker} {queue : Q}
    {queue' : Q'} {bound : Nat} (hrel : Rel queue (.empty bound))
    (h : (machine worker queue (some .init) queue').ReachableUnder Formed s) :
    (LinkState.machine queue queue').ReachableUnder LinkState.Orderly s.asLink := by
  refine Machine.ReachableUnder.projects ?_ (fun state _ _ hbefore hformed hstep => .inr ?_) h
  · rintro state rfl
    rfl
  · have hcarries : state.Carries Rel := reachable_carries hsim hrel hbefore.reachable
    exact step_asLink hcarries.offers hformed hstep

end Steps

end LocalLinkState

/-- Over rings of any number of cells, whatever socket the sender has, in every interleaving in
which the producers put well-formed datagrams: the link shows as an orderly run of the one over
bytes; the receiver's thread neither forms an inverted range nor leaves the ring; what its consumer
has taken and its ring holds are the first datagrams received, and these are the first messages that
the sender's ring has accepted. Whenever its loop is at the head and nothing has stopped it, it has
handed over every datagram received, and when nothing is under way or queued at the sender, every
message. -/
theorem parsed_local_link_delivers {count cellSize count' cellSize' : Nat}
    {worker : LocalSocketWorker} {s : LocalLinkState RingQueue RingQueue}
    (hcount : count < 2 ^ 32) (hcount' : count' < 2 ^ 32)
    (h : (LocalLinkState.machine worker (RingQueue.new count cellSize) (some .init)
      (RingQueue.new count' cellSize')).ReachableUnder LocalLinkState.Formed s) :
    (LinkState.machine (RingQueue.new count cellSize)
        (RingQueue.new count' cellSize')).ReachableUnder LinkState.Orderly s.asLink ∧
      (s.receiver.pc ≠ .undefined ∧ s.receiver.pc ≠ .terminated) ∧
      s.receiver.delivered <+: s.receiver.chunks ∧ s.receiver.chunks <+: s.sender.accepted ∧
      (s.receiver.pc = .head → ¬ s.receiver.Stopped →
        s.receiver.delivered = s.receiver.chunks ∧
        (s.sender.queue.contents = [] → s.wire = [] →
          s.receiver.delivered = s.sender.accepted)) := by
  have hrel := Represents.new count cellSize hcount
  have hcarries := LocalLinkState.reachable_carries ring_simulates hrel h.reachable
  have hlink := LocalLinkState.reachable_asLink ring_simulates hrel h
  have hinv := LinkState.reachable_inv ring_simulates ring_simulates hrel
    (Represents.new count' cellSize' hcount') hlink
  have hstarts := hcarries.starts
  -- the datagrams received are whole, so the parser has delivered just these
  have hreceived : ∃ outputs p, putAll .init s.receiver.chunks = .ok (outputs, p) ∧
      outputs.flatten = s.receiver.chunks := by
    obtain ⟨outputs, p, hput, houtputs⟩ := hinv.received
    obtain ⟨later, hlater⟩ := hstarts
    refine ⟨outputs, p, hput, houtputs.trans ?_⟩
    have hne : ∀ m ∈ later, m ≠ [] := by
      rintro m hmem rfl
      have haccepted : [] ∈ s.sender.accepted := hlater ▸ List.mem_append_right _ hmem
      exact absurd (hinv.formed [] haccepted).low (by decide)
    show tokensWithin s.receiver.chunks.flatten.length s.sender.accepted = _
    rw [← hlater, tokensWithin_flatten hne]
  obtain ⟨outputs, p, hput, houtputs⟩ := hreceived
  obtain ⟨a', hrel', hat'⟩ : s.receiver.Inv Represents := hinv.receiver
  rw [ReadState.delivered, hrel'.contents]
  refine ⟨hlink, ⟨fun hpc => ?_, fun hpc => ?_⟩, ?_, hstarts, fun hpc hgoing => ?_⟩
  · simp only [ReadState.AtPc, hpc] at hat'
    obtain ⟨⟨fault, hfault⟩, -⟩ := hat'
    cases hfault.symm.trans hput
  · simp only [ReadState.AtPc, hpc] at hat'
  · rw [← houtputs]
    exact hat'.partly.starts hput
  · simp only [ReadState.AtPc, hpc] at hat'
    obtain ⟨others, q, -, hothers, hflat⟩ := hat'.handedOver hgoing
    obtain ⟨rfl, -⟩ := Outcome.answer_unique hput hothers
    rw [List.append_nil] at hflat
    rw [hflat, houtputs]
    exact ⟨rfl, hcarries.received⟩

/-- A datagram of one byte is sent again behind a write that finds nobody at the other end. -/
def byteBehindNobody : List LocalLinkLabel :=
  [.sender (.producerPut ⟨prepareDataForSending [7], by decide⟩),
    .sender .writer, .sender .writer, .sender .writer, .sender .writer, .sender .writer,
    .sendto ⟨-1, ECONNREFUSED⟩, .sendto ⟨13, 0⟩, .sender .writer, .receiver .reader,
    .receiver .reader, .recvfrom, .receiver .reader, .receiver .reader, .receiver .reader,
    .receiver .reader, .receiver .reader, .receiver .reader, .receiver .reader, .receiver .reader,
    .receiver .reader, .receiver .reader]

/-- It goes from one ring of one cell to the other. -/
theorem parsed_local_link_delivers_byte :
    ∃ s, (LocalLinkState.machine ⟨some ⟨5⟩⟩ (RingQueue.new 1 16) (some .init)
        (RingQueue.new 1 16)).ReachableUnder LocalLinkState.Formed s ∧
      s.receiver.delivered = [prepareDataForSending [7]] := by
  have hrun : ((LocalLinkState.machine ⟨some ⟨5⟩⟩ (RingQueue.new 1 16) (some .init)
      (RingQueue.new 1 16)).run byteBehindNobody
      (LocalLinkState.start ⟨some ⟨5⟩⟩ (RingQueue.new 1 16) (some .init) (RingQueue.new 1 16))).map
        (fun s => ((s.receiver.pc, s.receiver.flags), s.sender.queue.contents, s.wire,
          s.sender.accepted)) =
      some ((.head, .run), [], [], [prepareDataForSending [7]]) := by
    decide +kernel
  have hguard : ∀ label ∈ byteBehindNobody,
      ∀ state : LocalLinkState RingQueue RingQueue, state.Formed label := by
    have hformed : WellFormed (prepareDataForSending [7]) := wellFormed_prepare (by decide)
    simp [byteBehindNobody, LocalLinkState.Formed, hformed]
  obtain ⟨s, hs, hfields⟩ := Option.map_eq_some_iff.mp hrun
  obtain ⟨⟨hpc, hflags⟩, hqueue, hwire, haccepted⟩ : (s.receiver.pc = .head ∧
      s.receiver.flags = .run) ∧ s.sender.queue.contents = [] ∧ s.wire = [] ∧
        s.sender.accepted = [prepareDataForSending [7]] := by
    simpa using hfields
  have hreach := Machine.ReachableUnder.run _ (.start rfl) hguard hs
  have hgoing : ¬ s.receiver.Stopped := by
    rw [ReadState.Stopped, hflags]
    decide
  obtain ⟨-, -, -, -, hall⟩ := parsed_local_link_delivers (by decide) (by decide) hreach
  exact ⟨s, hreach, ((hall hpc hgoing).2 hqueue hwire).trans haccepted⟩

end Shovel.Workers
