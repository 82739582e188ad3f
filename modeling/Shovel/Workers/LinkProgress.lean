import Shovel.Workers.Link
import Shovel.Workers.NextCalls

/-!
# Nothing stays between two workers

`link_delivers_in_order` says what the consumer can have taken. Here the two
threads, the network and the consumer bring it everything: from every state of a
smooth run, in which nobody stops a worker and no call fails, their steps alone
lead to one in which the consumer has taken every message that the sender's queue
has accepted. So neither the two threads, nor their queues, nor a message cut by
the network can wait for each other for ever.
-/

namespace Shovel.Workers

open Containers Network Parsers ParserExample Incremental Scanner Transition Bounded

/-- A step of the two threads, the network or the consumer; no `send` is refused. -/
def LinkLabel.IsOwn : LinkLabel → Prop
  | .sender label => label = .writer
  | .send result => 0 < result.status
  | .receiver label => ReadState.OwnOrConsumer label
  | .recv _ => True
  | .writeFails => False

namespace LinkState

variable {Q Q' : Type}

/-- The producers put well-formed datagrams, nobody stops a worker, no call fails, and no `send`
blocks in the middle of a message. -/
def Smooth (s : LinkState Q Q') : LinkLabel → Prop
  | .sender (.producerPut m) => WellFormed m.bytes
  | .sender .stop | .sender .readerDies | .writeFails | .receiver .stop | .receiver .writerDies
  | .receiver (.readReturns .error) => False
  | .send result =>
      (result.WouldBlock → s.sentSize = 0) ∧ (result.status < 0 → result.WouldBlock)
  | _ => True

variable {s s' : LinkState Q Q'} {label : LinkLabel}
variable {Rel : Q → MessageFifo → Prop} {Rel' : Q' → MessageFifo → Prop}

theorem Smooth.orderly (h : s.Smooth label) : s.Orderly label := by
  cases label with
  | sender label =>
      cases label with
      | producerPut m => exact h
      | _ => trivial
  | send result => exact h.1
  | writeFails | receiver label | recv count => trivial

/-- The steps that need nobody else are smooth. -/
theorem smooth_of_isOwn (h : label.IsOwn) : s.Smooth label := by
  cases label with
  | sender label =>
      obtain rfl := h
      trivial
  | send result =>
      have hpos : ¬ result.status < 0 := Int.not_lt.mpr (Int.le_of_lt h)
      exact ⟨fun hblock => absurd hblock.1 hpos, fun hneg => absurd hneg hpos⟩
  | receiver label =>
      cases label with
      | reader | consumerGet => trivial
      | _ => exact h.elim
  | recv count => trivial
  | writeFails => exact h.elim

/-- The state of a smooth run: besides the invariant of the link, both threads go on, and a write
that has not returned has bytes left to offer. -/
structure Live (Rel : Q → MessageFifo → Prop) (Rel' : Q' → MessageFifo → Prop)
    (s : LinkState Q Q') : Prop extends Inv Rel Rel' s where
  sending : s.sender.Going
  offers : s.sender.pc = .write → s.sentSize < s.sender.arr.dataSize
  receiving : s.receiver.Going

theorem Inv.chunksAccepted (hinv : Inv Rel Rel' s) : s.receiver.ChunksAccepted := by
  obtain ⟨outputs, p, hput, -⟩ := hinv.received
  exact ⟨outputs, p, hput⟩

/-- No accepted message is empty. -/
theorem Inv.ne_nil (hinv : Inv Rel Rel' s) : ∀ m ∈ s.sender.accepted, m ≠ [] := by
  rintro m hm rfl
  exact absurd (hinv.formed [] hm).low (by decide)

/-- A thread that has come to a write has a message to offer. -/
theorem Inv.array_ne_nil (hinv : Inv Rel Rel' s) (hpc : s.sender.pc = .write) :
    0 < s.sender.arr.dataSize := by
  obtain ⟨a, -, hat⟩ := hinv.sender
  have haccepted := hat.queued_accepted (by simp [hpc]) s.sender.arr.content
  simp only [WriteState.AtPc, hpc] at hat
  have hmem := haccepted (List.mem_of_head? hat.2.2)
  have hne := hinv.ne_nil _ hmem
  rw [← s.sender.arr.length_content]
  exact List.length_pos_iff.mpr hne

section Steps

variable [QueueBase Q] [QueueBase Q']

omit [QueueBase Q'] in
/-- A step of the sender that is smooth: its thread goes on, and a write that begins has bytes to
offer. -/
theorem Live.sender_step {label : WriteLabel} {sender : WriteState Q} (hsim : Simulates Q Rel)
    (hlive : Live Rel Rel' s) (hsmooth : s.Smooth (.sender label))
    (hreturn : ∀ writeStatus, label ≠ .writeReturns writeStatus)
    (hstep : s.sender.step label = some sender) (hinv : Inv Rel Rel' { s with sender }) :
    Live Rel Rel' { s with sender } := by
  cases label with
  | writer =>
      have hgoing := WriteState.writerStep_going hsim hlive.sender hlive.sending hstep
      refine ⟨hinv, hgoing, fun hpc => ?_, hlive.receiving⟩
      obtain ⟨hnone, -⟩ := hlive.sent.whole (WriteState.writerStep_record hstep).2.1
        (fun hfinish => hlive.sending.inLoop (by rw [hfinish]; trivial))
        (fun hdone => hlive.sending.inLoop (by rw [hdone]; trivial))
      show s.sentSize < sender.arr.dataSize
      rw [hnone]
      exact hinv.array_ne_nil hpc
  | writeReturns writeStatus => exact absurd rfl (hreturn writeStatus)
  | producerPut m =>
      obtain ⟨hpc, hflags⟩ := WriteState.producerPut_frame hstep
      have harr : sender.arr = s.sender.arr := by
        simp only [WriteState.step] at hstep
        split at hstep
        · obtain rfl := Option.some.inj hstep
          rfl
        · cases hstep
      refine ⟨hinv, ⟨?_, ?_⟩, fun hwrite => ?_, hlive.receiving⟩
      · show sender.Running
        rw [WriteState.Running, hflags]
        exact hlive.sending.running
      · show ¬ sender.pc.Leaves
        rw [hpc]
        exact hlive.sending.inLoop
      · show s.sentSize < sender.arr.dataSize
        rw [harr]
        exact hlive.offers (hpc.symm.trans hwrite)
  | stop | readerDies => exact hsmooth.elim

omit [QueueBase Q] [QueueBase Q'] in
/-- A call of `send` that does not fail: the write goes on with what is left, or returns. -/
theorem Live.send_step {result : SendResult} (hlive : Live Rel Rel' s)
    (hsmooth : s.Smooth (.send result)) (hstep : s.sendStep result = some s')
    (hinv : Inv Rel Rel' s') : Live Rel Rel' s' := by
  obtain ⟨hfirst, hnot⟩ := hsmooth
  obtain ⟨⟨-, hless, -⟩, ⟨-, rfl⟩ | ⟨hblock, hneg, -⟩ | ⟨hmore, rfl⟩ | ⟨hlast, rfl⟩⟩ :=
    send_cases hstep
  · exact ⟨hinv, hlive.sending, fun hpc => hinv.array_ne_nil hpc, hlive.receiving⟩
  · exact absurd (hnot hneg) hblock
  · exact ⟨hinv, hlive.sending, fun _ => hmore, hlive.receiving⟩
  · have hpos : (s.sentSize + result.status.toNat : Nat) ≠ 0 := by omega
    have hnonneg : ¬ ((s.sentSize + result.status.toNat : Nat) : Int) < 0 := by omega
    have hpc : (s.sender.writeReturns (s.sentSize + result.status.toNat : Nat)).pc = .pop := by
      simp only [WriteState.writeReturns, Int.natCast_eq_zero, hpos, hnonneg, if_false]
    refine ⟨hinv, ⟨?_, ?_⟩, fun hwrite => ?_, hlive.receiving⟩
    · show WriteState.Running _
      rw [WriteState.Running, (WriteState.writeReturns_frame s.sender _).2]
      exact hlive.sending.running
    · rw [hpc]
      exact id
    · cases hpc.symm.trans hwrite

omit [QueueBase Q] in
/-- A smooth step of the receiver: its thread goes on. -/
theorem Live.receiver_step {label : ReadLabel} {receiver : ReadState Q'}
    (hsim' : Simulates Q' Rel') (hlive : Live Rel Rel' s) (hsmooth : s.Smooth (.receiver label))
    (hstep : s.receiver.step label = some receiver) (hinv : Inv Rel Rel' { s with receiver }) :
    Live Rel Rel' { s with receiver } := by
  refine ⟨hinv, hlive.sending, hlive.offers, ?_⟩
  show receiver.Going
  cases label with
  | reader =>
      exact ReadState.readerStep_going hsim' hlive.receiver hlive.receiving
        hlive.toInv.chunksAccepted hstep
  | readReturns result =>
      obtain ⟨-, rfl⟩ := ReadState.readReturns_cases hstep
      cases result with
      | chunk chunk => exact hlive.receiving.move rfl (Int.not_lt.mpr (Int.natCast_nonneg _))
      | zero => exact hlive.receiving.move rfl (Int.lt_irrefl 0)
      | error => exact hsmooth.elim
  | consumerGet =>
      obtain ⟨hpc, hflags⟩ := ReadState.consumerGet_frame hstep
      exact hlive.receiving.move hflags (by rw [hpc]; exact hlive.receiving.inLoop)
  | stop | writerDies => exact hsmooth.elim

/-- Every smooth step keeps the link alive. -/
theorem Live.step (hsim : Simulates Q Rel) (hsim' : Simulates Q' Rel') (hlive : Live Rel Rel' s)
    (hsmooth : s.Smooth label) (hstep : s.step label = some s') : Live Rel Rel' s' := by
  have hinv := step_inv hsim hsim' label hlive.toInv hsmooth.orderly hstep
  cases label with
  | sender label =>
      cases label with
      | writeReturns writeStatus => cases hstep
      | stop | readerDies => exact hsmooth.elim
      | writer | producerPut m =>
          obtain ⟨sender, hown, rfl⟩ := Option.map_eq_some_iff.mp hstep
          exact hlive.sender_step hsim hsmooth (fun _ hlabel => by cases hlabel) hown hinv
  | send result => exact hlive.send_step hsmooth hstep hinv
  | writeFails => exact hsmooth.elim
  | receiver label =>
      have hmap : ∃ receiver, s.receiver.step label = some receiver ∧
          { s with receiver } = s' := by
        cases label with
        | readReturns result =>
            cases result with
            | chunk chunk => cases hstep
            | _ => exact Option.map_eq_some_iff.mp hstep
        | _ => exact Option.map_eq_some_iff.mp hstep
      obtain ⟨receiver, hown, rfl⟩ := hmap
      exact hlive.receiver_step hsim' hsmooth hown hinv
  | recv count =>
      obtain ⟨-, hother, hsize, chunk, -, hown⟩ := recv_bytes hstep
      refine ⟨hinv, hother ▸ hlive.sending, ?_, ?_⟩
      · rw [hother, hsize]
        exact hlive.offers
      · rw [hown]
        exact hlive.receiving.move rfl (Int.not_lt.mpr (Int.natCast_nonneg _))

/-- A link is alive after every smooth run of two workers whose queues start empty. -/
theorem reachable_live (hsim : Simulates Q Rel) (hsim' : Simulates Q' Rel') {queue : Q}
    {queue' : Q'} {bound bound' : Nat} (hrel : Rel queue (.empty bound))
    (hrel' : Rel' queue' (.empty bound')) (h : (machine queue queue').ReachableUnder Smooth s) :
    Live Rel Rel' s := by
  have hinit : ∀ state, (machine queue queue').init state → Live Rel Rel' state := by
    intro state hstate
    obtain rfl := hstate
    refine ⟨reachable_inv hsim hsim' hrel hrel' (.start rfl), ⟨⟨rfl, rfl⟩, id⟩, fun hpc => ?_,
      ⟨by simp [ReadState.Stopped, start, ReadState.start, WorkerFlags.run], id⟩⟩
    cases hpc
  have hstep : ∀ state following label, Live Rel Rel' state → state.Smooth label →
      (machine queue queue').step state label = some following → Live Rel Rel' following :=
    fun _ _ _ hlive hsmooth hnext => hlive.step hsim hsim' hsmooth hnext
  exact h.invariant hinit hstep

/-! ## Towards the consumer -/

variable (queue : Q) (queue' : Q')

/-- What the receiver and its consumer do is part of the link. -/
theorem receiver_leads {parser : Option ParserExample}
    {receiver : ReadState Q'}
    (h : (ReadState.machine queue' parser).Leads ReadState.OwnOrConsumer s.receiver receiver) :
    (machine queue queue').Leads LinkLabel.IsOwn s { s with receiver } := by
  have hstep : ∀ label r r' t, ReadState.OwnOrConsumer label → t = { s with receiver := r } →
      (ReadState.machine queue' parser).step r label = some r' →
        ∃ t', (machine queue queue').step t (.receiver label) = some t' ∧
          t' = { s with receiver := r' } := by
    rintro label r r' t hown rfl hnext
    have hmap : (machine queue queue').step { s with receiver := r } (.receiver label) =
        (r.step label).map fun receiver => { s with receiver } := by
      cases label with
      | reader | consumerGet => rfl
      | readReturns result => exact hown.elim
      | stop | writerDies => exact hown.elim
    exact ⟨_, hmap.trans (congrArg (Option.map _) hnext), rfl⟩
  have hallowed : ∀ label, ReadState.OwnOrConsumer label → (LinkLabel.receiver label).IsOwn :=
    fun _ hown => hown
  obtain ⟨final, hleads, rfl⟩ := h.follows hstep hallowed rfl
  exact hleads

/-- What the sender's thread does is part of the link. -/
theorem sender_leads {sender : WriteState Q}
    (h : (WriteState.machine queue).Leads (· = .writer) s.sender sender) :
    (machine queue queue').Leads LinkLabel.IsOwn s { s with sender } := by
  have hstep : ∀ label w w' t, label = .writer → t = { s with sender := w } →
      (WriteState.machine queue).step w label = some w' →
        ∃ t', (machine queue queue').step t (.sender label) = some t' ∧
          t' = { s with sender := w' } := by
    rintro label w w' t rfl rfl hnext
    exact ⟨_, congrArg (Option.map _) hnext, rfl⟩
  have hallowed : ∀ label, label = .writer → (LinkLabel.sender label).IsOwn := fun _ hown => hown
  obtain ⟨final, hleads, rfl⟩ := h.follows hstep hallowed rfl
  exact hleads

/-- The steps that need nobody else keep the link alive. -/
theorem Live.leads (hsim : Simulates Q Rel) (hsim' : Simulates Q' Rel')
    (hlive : Live Rel Rel' s) (h : (machine queue queue').Leads LinkLabel.IsOwn s s') :
    Live Rel Rel' s' :=
  h.keeps (fun _ _ _ hown hstate hstep => hstate.step hsim hsim' (smooth_of_isOwn hown) hstep) hlive

/-- The bytes that have been accepted and not received. -/
def unreceived (s : LinkState Q Q') : Nat :=
  s.sender.accepted.flatten.length - s.receiver.chunks.flatten.length

/-- A byte under way can be received by a thread that stands at its read. -/
theorem recv_one (hread : s.receiver.pc = .read) (hwire : s.wire ≠ [])
    (hsome : s.unreceived ≠ 0) :
    ∃ t, (machine queue queue').Leads LinkLabel.IsOwn s t ∧
      t.sender.accepted = s.sender.accepted ∧ t.unreceived < s.unreceived := by
  have hpos : 0 < s.wire.length := List.length_pos_iff.mpr hwire
  have hcall : s.receiver.pc = .read ∧ 0 < 1 ∧ 1 ≤ s.wire.length ∧ 1 ≤ connectionWorkerArrSize :=
    ⟨hread, Nat.one_pos, hpos, by decide⟩
  obtain ⟨t, hstep⟩ : ∃ t, s.recvStep 1 = some t := ⟨_, by rw [recvStep, dif_pos hcall]⟩
  obtain ⟨hbytes, hsender, -, chunk, -, hown⟩ := recv_bytes hstep
  have hlonger : t.receiver.chunks.flatten.length =
      s.receiver.chunks.flatten.length + chunk.bytes.length := by
    rw [hown]
    simp [ReadState.readReturns]
  have hown : (LinkLabel.recv 1).IsOwn := trivial
  have hchunk := chunk.nonempty
  refine ⟨t, .single hown hstep, congrArg _ hsender, ?_⟩
  unfold unreceived at hsome ⊢
  rw [hsender, hlonger]
  omega

/-- A call of `send` that takes the rest of the message puts it under way. -/
theorem send_rest (hpc : s.sender.pc = .write)
    (hless : s.sentSize < s.sender.arr.dataSize) :
    ∃ t, (machine queue queue').Leads LinkLabel.IsOwn s t ∧ t.receiver = s.receiver ∧
      t.sender.accepted = s.sender.accepted ∧ t.wire ≠ [] := by
  let result : SendResult := ⟨(s.sender.arr.dataSize - s.sentSize : Nat), 0⟩
  have hpos : 0 < result.status := by
    show (0 : Int) < (s.sender.arr.dataSize - s.sentSize : Nat)
    omega
  have hoffered : (s.sendCall result).offered.length = s.sender.arr.dataSize - s.sentSize := by
    rw [sendCall, List.length_drop, SizedArray.length_content]
  have hmay : s.MaySend result := ⟨hpc, hless, Int.ofNat_le.mpr (Nat.le_of_eq hoffered.symm)⟩
  have hblock : ¬ result.WouldBlock := fun hblock => absurd hblock.1 (Int.not_lt.mpr hpos.le)
  have hlast : ¬ s.sentSize + result.status.toNat < s.sender.arr.dataSize := by
    show ¬ s.sentSize + (s.sender.arr.dataSize - s.sentSize) < s.sender.arr.dataSize
    omega
  have hstep := sendStep_last hmay hblock (Int.not_lt.mpr hpos.le) hlast
  have hown : (LinkLabel.send result).IsOwn := hpos
  refine ⟨_, .single hown hstep, rfl, (WriteState.writeReturns_frame s.sender _).1, fun hnone => ?_⟩
  have hlength := congrArg List.length hnone
  rw [List.length_append, SendCall.accepted, List.length_take, hoffered] at hlength
  simp only [sendCall, result, Int.toNat_natCast, List.length_nil] at hlength
  omega

/-- A sender that has not put everything under way brings more bytes there. -/
theorem Live.sends (hsim : Simulates Q Rel) (hsim' : Simulates Q' Rel')
    (hlive : Live Rel Rel' s) (hwire : s.wire = []) (hsome : s.unreceived ≠ 0) :
    ∃ t, (machine queue queue').Leads LinkLabel.IsOwn s t ∧ t.receiver = s.receiver ∧
      t.sender.accepted = s.sender.accepted ∧ t.wire ≠ [] := by
  by_cases hwrite : s.sender.pc = .write
  · exact send_rest queue queue' hwrite (hlive.offers hwrite)
  · have hbytes : s.receiver.chunks.flatten = s.sender.taken.flatten := by
      obtain ⟨-, hwhole⟩ := hlive.sent.whole hwrite
        (fun hfinish => hlive.sending.inLoop (by rw [hfinish]; trivial))
        (fun hdone => hlive.sending.inLoop (by rw [hdone]; trivial))
      rw [← hwhole, bytes, hwire, List.append_nil]
    have hleft : s.sender.taken.length < s.sender.accepted.length := by
      obtain ⟨a, -, hat⟩ := hlive.sender
      obtain ⟨rest, hrest⟩ := hat.taken_starts
      rw [← hrest, List.length_append, Nat.lt_add_right_iff_pos, List.length_pos_iff]
      rintro rfl
      rw [unreceived, hbytes, ← hrest, List.append_nil, Nat.sub_self] at hsome
      exact hsome rfl
    obtain ⟨sender, hleads, ⟨-, -, -, haccepted⟩, hpc⟩ :=
      WriteState.comes_to_write queue hsim hlive.sender hlive.sending hleft
        hlive.toInv.ne_nil
    have hcome := sender_leads queue queue' hleads
    have hlive' := hlive.leads queue queue' hsim hsim' hcome
    obtain ⟨t, hsend, hreceiver, hsame, hmore⟩ := send_rest queue queue' hpc (hlive'.offers hpc)
    exact ⟨t, hcome.trans hsend, hreceiver, hsame.trans haccepted, hmore⟩

/-- The receiver comes back to its read, and nothing else changes. -/
theorem Live.reads (hsim' : Simulates Q' Rel') (hroom : ∀ {q a}, Rel' q a → 0 < a.fifo.bound)
    (hlive : Live Rel Rel' s) :
    ∃ receiver, (machine queue queue').Leads LinkLabel.IsOwn s { s with receiver } ∧
      receiver.chunks = s.receiver.chunks ∧ receiver.pc = .read := by
  obtain ⟨receiver, hleads, ⟨-, -, hchunks⟩, hpc⟩ :=
    ReadState.comes_to_read queue' none hsim' hroom hlive.receiver hlive.receiving
      hlive.toInv.chunksAccepted
  exact ⟨receiver, receiver_leads queue queue' hleads, hchunks, hpc⟩

/-- As long as accepted bytes have not been received, more of them can be. -/
theorem Live.advances (hsim : Simulates Q Rel) (hsim' : Simulates Q' Rel')
    (hroom : ∀ {q a}, Rel' q a → 0 < a.fifo.bound)
    (hlive : Live Rel Rel' s) (hsome : s.unreceived ≠ 0) :
    ∃ t, (machine queue queue').Leads LinkLabel.IsOwn s t ∧
      (Live Rel Rel' t ∧ t.sender.accepted = s.sender.accepted) ∧ t.unreceived < s.unreceived := by
  obtain ⟨receiver, hreads, hchunks, hread⟩ := hlive.reads queue queue' hsim' hroom
  have hsame : unreceived { s with receiver } = s.unreceived := by
    rw [unreceived, unreceived, hchunks]
  rw [← hsame] at hsome
  have hlive' := hlive.leads queue queue' hsim hsim' hreads
  -- bytes are under way, or the sender puts some there
  have hmore : ∃ t, (machine queue queue').Leads LinkLabel.IsOwn { s with receiver } t ∧
      t.receiver = receiver ∧ t.sender.accepted = s.sender.accepted ∧ t.wire ≠ [] := by
    by_cases hwire : s.wire = []
    · exact hlive'.sends queue queue' hsim hsim' hwire hsome
    · exact ⟨_, .refl _, rfl, rfl, hwire⟩
  obtain ⟨t, hsend, hreceiver, haccepted, hwire⟩ := hmore
  have hsome' : t.unreceived = s.unreceived := by
    rw [← hsame, unreceived, unreceived, hreceiver, haccepted]
  rw [hsame, ← hsome'] at hsome
  obtain ⟨u, hrecv, hsame', hless⟩ :=
    recv_one queue queue' (by rw [hreceiver]; exact hread) hwire hsome
  have hall := hreads.trans (hsend.trans hrecv)
  exact ⟨u, hall, ⟨hlive.leads queue queue' hsim hsim' hall, hsame'.trans haccepted⟩,
    hsome' ▸ hless⟩

/-- Everything that has been accepted comes to the consumer. -/
theorem Live.drains (hsim : Simulates Q Rel) (hsim' : Simulates Q' Rel')
    (hroom : ∀ {q a}, Rel' q a → 0 < a.fifo.bound)
    (hlive : Live Rel Rel' s) :
    ∃ final, (machine queue queue').Leads LinkLabel.IsOwn s final ∧
      final.receiver.taken = s.sender.accepted := by
  have hadvances : ∀ state, Live Rel Rel' state ∧ state.sender.accepted = s.sender.accepted →
      ¬ state.unreceived = 0 → ∃ following,
        (machine queue queue').Leads LinkLabel.IsOwn state following ∧
        (Live Rel Rel' following ∧ following.sender.accepted = s.sender.accepted) ∧
        following.unreceived < state.unreceived := by
    rintro state ⟨hstate, hsame⟩ hsome
    obtain ⟨t, hleads, ⟨hnext, haccepted⟩, hless⟩ :=
      hstate.advances queue queue' hsim hsim' hroom hsome
    exact ⟨t, hleads, ⟨hnext, haccepted.trans hsame⟩, hless⟩
  obtain ⟨t, hall, ⟨hlive', haccepted⟩, hnone⟩ :=
    Machine.Leads.descend hadvances ⟨hlive, rfl⟩
  obtain ⟨receiver, hreads, hchunks, hread⟩ := hlive'.reads queue queue' hsim' hroom
  obtain ⟨outputs, p, hput, houtputs⟩ := hlive'.toInv.received
  have hinv := (hlive'.leads queue queue' hsim hsim' hreads).receiver
  obtain ⟨last, htakes, htaken⟩ :=
    ReadState.consumer_takes_all queue' none hsim' hinv hread (by rw [hchunks]; exact hput)
  refine ⟨_, hall.trans (hreads.trans (receiver_leads queue queue' htakes)), ?_⟩
  show last.taken = s.sender.accepted
  rw [htaken, houtputs, ← haccepted]
  exact tokensWithin_all (Nat.sub_eq_zero_iff_le.mp hnone)

end Steps

end LinkState

/-- Over rings of any number of cells, but at least one at the receiver, in every state of every
smooth interleaving: the two threads, the network and the consumer have steps that bring every
message the sender's ring has accepted to the consumer, in order and unchanged, without a stop and
without another message. -/
theorem link_drains {count cellSize count' cellSize' : Nat} {s : LinkState RingQueue RingQueue}
    (hcount : count < 2 ^ 32) (hcount' : count' < 2 ^ 32) (hsome : 0 < count')
    (h : (LinkState.machine (RingQueue.new count cellSize)
      (RingQueue.new count' cellSize')).ReachableUnder LinkState.Smooth s) :
    ∃ final, (LinkState.machine (RingQueue.new count cellSize)
        (RingQueue.new count' cellSize')).Leads LinkLabel.IsOwn s final ∧
      final.receiver.taken = s.sender.accepted := by
  have hlive := LinkState.reachable_live ring_simulates ring_simulates.withRoom
    (Represents.new count cellSize hcount) ⟨Represents.new count' cellSize' hcount', hsome⟩ h
  exact hlive.drains _ _ ring_simulates ring_simulates.withRoom And.right

/-- Two datagrams are put while the sender is inside a write of the first, of which five bytes are
under way. -/
theorem link_drains_two :
    ∃ s final, (LinkState.machine (RingQueue.new 2 16) (RingQueue.new 1 16)).Leads
        LinkLabel.IsOwn s final ∧ s.wire.length = 5 ∧
      final.receiver.taken = [prepareDataForSending [], prepareDataForSending []] := by
  let labels : List LinkLabel :=
    [.sender (.producerPut ⟨prepareDataForSending [], by decide⟩),
      .sender .writer, .sender .writer, .sender .writer, .sender .writer, .sender .writer,
      .send ⟨5, 0⟩, .sender (.producerPut ⟨prepareDataForSending [], by decide⟩)]
  have hguard : ∀ label ∈ labels, ∀ state : LinkState RingQueue RingQueue, state.Smooth label := by
    have hformed : WellFormed (prepareDataForSending []) := wellFormed_prepare (by decide)
    simp [labels, LinkState.Smooth, hformed, SendResult.WouldBlock]
  have hrun : ((LinkState.machine (RingQueue.new 2 16) (RingQueue.new 1 16)).run labels
      (LinkState.start (RingQueue.new 2 16) (RingQueue.new 1 16))).map
        (fun s => (s.wire.length, s.sender.accepted)) =
      some (5, [prepareDataForSending [], prepareDataForSending []]) := by
    decide +kernel
  obtain ⟨s, hs, hfields⟩ := Option.map_eq_some_iff.mp hrun
  obtain ⟨hwire, haccepted⟩ := Prod.mk.inj hfields
  have hreach := Machine.ReachableUnder.run _ (.start rfl) hguard hs
  obtain ⟨final, hleads, htaken⟩ := link_drains (by decide) (by decide) (by decide) hreach
  exact ⟨s, final, hleads, hwire, htaken.trans haccepted⟩

end Shovel.Workers
