import Mathlib.Data.List.Chain
import Shovel.Network.TCPSocket

/-!
# Repeated writes to a TCP socket

`TCPSocketWorker::write_data_to_source` calls the socket's `write`, and the
inner loop of `thread_write_to_source` repeats it on the same buffer while it
returns zero. A `write` that returns zero because `send` would block forgets the
bytes it has already sent, so the repetition starts from the first byte again.
The bytes on the stream are those of the buffer exactly when no count was
followed by a would-block result.
-/

namespace Shovel.Workers

open Containers Network

/-- `TCPSocketWorker`: the member `m_net_socket`. -/
structure TCPSocketWorker where
  netSocket : Option TCPSocket
  deriving DecidableEq, Repr

/-- The end of `write_data_to_source`, once or repeated. -/
structure SourceWrite (Nm : Nat) where
  ret : Int
  worker : TCPSocketWorker
  buf : SizedArray Nm
  calls : List SendCall
  unused : List SendResult

/-- The same end with earlier calls at the front. -/
def SourceWrite.after {Nm : Nat} (earlier : List SendCall) (run : SourceWrite Nm) :
    SourceWrite Nm :=
  { run with calls := earlier ++ run.calls }

/-- No would-block result directly follows a positive count. -/
def NoBlockAfterCount (results : List SendResult) : Prop :=
  results.IsChain fun r next => 0 < r.status → ¬ next.WouldBlock

instance (results : List SendResult) : Decidable (NoBlockAfterCount results) :=
  inferInstanceAs (Decidable (List.IsChain _ _))

section NoBlockAfterCount

variable {block : SendResult} {counts rest : List SendResult}

/-- A would-block result in front changes nothing. -/
theorem noBlockAfterCount_block_cons (hblock : block.WouldBlock) :
    NoBlockAfterCount (block :: rest) ↔ NoBlockAfterCount rest := by
  have hneg := hblock.1
  rw [NoBlockAfterCount, List.isChain_cons]
  exact and_iff_right fun next _ hpos => by omega

/-- Counts alone contain no would-block result. -/
theorem noBlockAfterCount_of_counts (hcounts : ∀ r ∈ counts, 0 < r.status) :
    NoBlockAfterCount counts := by
  refine List.Pairwise.isChain (List.pairwise_of_forall_mem_list fun r _ next hnext _ hblock => ?_)
  have hpos := hcounts next hnext
  have hneg := hblock.1
  omega

/-- A would-block result behind counts follows a positive count. -/
theorem not_noBlockAfterCount (rest : List SendResult) (hne : counts ≠ [])
    (hcounts : ∀ r ∈ counts, 0 < r.status) (hblock : block.WouldBlock) :
    ¬ NoBlockAfterCount (counts ++ block :: rest) := by
  intro h
  have hlast := h.rel_getLast_head_of_append hne (by simp)
  exact hlast (hcounts _ (List.getLast_mem hne)) hblock

end NoBlockAfterCount

/-- Legal calls with positive counts take at least a byte. -/
theorem acceptedBytes_pos {counts : List SendCall} (hne : counts ≠ [])
    (hcounts : ∀ c ∈ counts, 0 < c.result.status) (hlegal : ∀ c ∈ counts, c.Legal) :
    0 < (acceptedBytes counts).length := by
  obtain ⟨c, rest, rfl⟩ := List.exists_cons_of_ne_nil hne
  have hcount := hcounts c List.mem_cons_self
  have hoffered : c.result.status ≤ c.offered.length := by
    rcases hlegal c List.mem_cons_self with ⟨-, hmost⟩ | ⟨hneg, -⟩
    · exact hmost
    · omega
  rw [acceptedBytes, List.flatMap_cons, List.length_append, SendCall.accepted, List.length_take]
  omega

/-- A would-block call takes no byte. -/
theorem accepted_wouldBlock {block : SendCall} (h : block.result.WouldBlock) :
    block.accepted = [] := by
  have hneg := h.1
  rw [SendCall.accepted, Int.toNat_of_nonpos (by omega), List.take_zero]

namespace TCPSocketWorker

variable {Nm : Nat}

/-- `TCPSocketWorker::write_data_to_source`. -/
def writeDataToSource (w : TCPSocketWorker) (buf : SizedArray Nm) (results : List SendResult) :
    Option (SourceWrite Nm) :=
  match w.netSocket with
  | some socket => (socket.write buf results).map fun run =>
      ⟨if run.ret < 0 then -2 else run.ret, ⟨some run.socket⟩, run.buf, run.calls, run.unused⟩
  | none => some ⟨-1, w, buf, [], results⟩

/-- `while (write_status == 0) write_status = write_data_to_source(write_data_arr)`, for a loop
that ends within `rounds` rounds. -/
def retryWrite : Nat → TCPSocketWorker → SizedArray Nm → List SendResult →
    Option (SourceWrite Nm)
  | 0, _, _, _ => none
  | rounds + 1, w, buf, results => do
      let run ← w.writeDataToSource buf results
      if run.ret = 0 then
        (retryWrite rounds run.worker run.buf run.unused).map (.after run.calls)
      else pure run

/-- A write with legal results that reports no error either took the whole buffer with positive
counts or ended with a would-block result and left the buffer as it was. -/
theorem writeDataToSource_legal {w : TCPSocketWorker} {buf : SizedArray Nm}
    {results : List SendResult} {run : SourceWrite Nm}
    (hrun : w.writeDataToSource buf results = some run) (hlegal : ∀ c ∈ run.calls, c.Legal)
    (hret : 0 ≤ run.ret) :
    results = run.calls.map (·.result) ++ run.unused ∧
      ((run.ret = buf.dataSize ∧ (∀ c ∈ run.calls, 0 < c.result.status) ∧
          acceptedBytes run.calls = buf.content) ∨
        (run.ret = 0 ∧ run.buf = buf ∧ ∃ counts block, run.calls = counts ++ [block] ∧
          (∀ c ∈ counts, 0 < c.result.status) ∧ block.result.WouldBlock)) := by
  unfold writeDataToSource at hrun
  split at hrun
  · rename_i socket _
    obtain ⟨written, hwrite, rfl⟩ := Option.map_eq_some_iff.mp hrun
    have hnonneg : ¬ written.ret < 0 := fun hneg => by
      simp only [hneg, if_true] at hret
      omega
    simp only [hnonneg, if_false] at hlegal ⊢
    unfold TCPSocket.write at hwrite
    split at hwrite
    · obtain rfl := Option.some.inj hwrite
      exact absurd (by decide : (-1 : Int) < 0) hnonneg
    · simp only at hwrite
      split at hwrite
      · obtain ⟨hresults, hended⟩ :=
          TCPSocket.sendLoop_ended (Nat.zero_le _) hwrite hlegal
        refine ⟨hresults, ?_⟩
        cases hended with
        | complete hcounts hbytes => exact .inl ⟨rfl, hcounts, hbytes⟩
        | wouldBlock counts hcounts hblock => exact .inr ⟨rfl, rfl, counts, _, rfl, hcounts, hblock⟩
      · obtain rfl := Option.some.inj hwrite
        exact absurd (by decide : (-1 : Int) < 0) hnonneg
  · obtain rfl := Option.some.inj hrun
    simp at hret

/-- Repeated writes with legal results that end with a positive value: the value is the buffer's
length, at least that many bytes were taken, and they are the buffer's bytes exactly when no
would-block result followed a count. The induction is on the rounds; a round that ends with a
would-block result adds the bytes it took in front of those of the rounds after it. -/
theorem retryWrite_legal {w : TCPSocketWorker} {buf : SizedArray Nm} {results : List SendResult}
    {rounds : Nat} {run : SourceWrite Nm} (hne : 0 < buf.dataSize)
    (hrun : retryWrite rounds w buf results = some run) (hlegal : ∀ c ∈ run.calls, c.Legal)
    (hret : 0 < run.ret) :
    results = run.calls.map (·.result) ++ run.unused ∧ run.ret = buf.dataSize ∧
      buf.content.length ≤ (acceptedBytes run.calls).length ∧
      (acceptedBytes run.calls = buf.content ↔
        NoBlockAfterCount (run.calls.map (·.result))) := by
  induction rounds generalizing w buf results run with
  | zero => cases hrun
  | succ rounds ih =>
      obtain ⟨first, hfirst, hrest⟩ := Option.bind_eq_some_iff.mp hrun
      split at hrest
      · rename_i hzero
        obtain ⟨later, hlater, rfl⟩ := Option.map_eq_some_iff.mp hrest
        have hlegalFirst : ∀ c ∈ first.calls, c.Legal :=
          fun c hc => hlegal c (List.mem_append_left _ hc)
        have hlegalLater : ∀ c ∈ later.calls, c.Legal :=
          fun c hc => hlegal c (List.mem_append_right _ hc)
        obtain ⟨hresults, ⟨hfull, -⟩ | ⟨-, hbuf, counts, block, hcalls, hcounts, hblock⟩⟩ :=
          writeDataToSource_legal hfirst hlegalFirst (by omega)
        · omega
        rw [hbuf] at hlater
        obtain ⟨hunused, hlength, hmost, hiff⟩ := ih hne hlater hlegalLater hret
        have hbytes : acceptedBytes (first.calls ++ later.calls) =
            acceptedBytes counts ++ acceptedBytes later.calls := by
          simp [acceptedBytes, hcalls, accepted_wouldBlock hblock]
        have hmap : (first.calls ++ later.calls).map (·.result) =
            counts.map (·.result) ++ block.result :: later.calls.map (·.result) := by
          simp [hcalls]
        refine ⟨?_, hlength, ?_, ?_⟩
        · rw [hresults, hunused]
          simp [SourceWrite.after]
        · simp only [SourceWrite.after, hbytes, List.length_append]
          omega
        · simp only [SourceWrite.after, hbytes, hmap]
          by_cases hnil : counts = []
          · subst counts
            rw [List.map_nil, List.nil_append, noBlockAfterCount_block_cons hblock, ← hiff]
            rfl
          · have hpos := acceptedBytes_pos hnil hcounts
              fun c hc => hlegalFirst c (by simp [hcalls, hc])
            have hlong : acceptedBytes counts ++ acceptedBytes later.calls ≠ buf.content := by
              intro heq
              have hlengths := congrArg List.length heq
              rw [List.length_append] at hlengths
              omega
            have hfollows := not_noBlockAfterCount (later.calls.map (·.result))
              (mt List.map_eq_nil_iff.mp hnil)
              (fun r hr => by
                obtain ⟨c, hc, rfl⟩ := List.mem_map.mp hr
                exact hcounts c hc)
              hblock
            exact iff_of_false hlong hfollows
      · obtain rfl := Option.some.inj hrest
        obtain ⟨hresults, ⟨hfull, hcounts, hbytes⟩ | ⟨hzero, -⟩⟩ :=
          writeDataToSource_legal hfirst hlegal (by omega)
        · refine ⟨hresults, hfull, by rw [hbytes], iff_of_true hbytes ?_⟩
          refine noBlockAfterCount_of_counts fun r hr => ?_
          obtain ⟨c, hc, rfl⟩ := List.mem_map.mp hr
          exact hcounts c hc
        · omega

/-- A write that is repeated while it returns zero and ends with a positive value has put exactly
the buffer's bytes on the stream, and returned their number, if and only if no would-block result
of `send` directly followed a positive count. -/
theorem retryWrite_exactly_once_iff {w : TCPSocketWorker} {buf : SizedArray Nm}
    {results : List SendResult} {rounds : Nat} {run : SourceWrite Nm} (hne : 0 < buf.dataSize)
    (hrun : retryWrite rounds w buf results = some run) (hall : run.unused = [])
    (hlegal : ∀ c ∈ run.calls, c.Legal) (hret : 0 < run.ret) :
    (acceptedBytes run.calls = buf.content ∧ run.ret = buf.dataSize) ↔
      NoBlockAfterCount results := by
  obtain ⟨hresults, hlength, -, hiff⟩ := retryWrite_legal hne hrun hlegal hret
  rw [hall, List.append_nil] at hresults
  rw [hresults, ← hiff]
  exact and_iff_left hlength

/-- A buffer of two bytes. -/
def pairBuffer : SizedArray 2 := ⟨[1, 2], 2, rfl, Nat.le_refl 2⟩

/-- An open socket. -/
def openWorker : TCPSocketWorker := ⟨some ⟨5, .ok⟩⟩

/-- A would-block result in front of two single bytes: the bytes go out once. -/
theorem retryWrite_exactly_once_block_first :
    ∃ run, retryWrite 2 openWorker pairBuffer [⟨-1, EAGAIN⟩, ⟨1, 0⟩, ⟨1, 0⟩] = some run ∧
      acceptedBytes run.calls = [1, 2] ∧ run.ret = 2 := by
  refine ⟨_, rfl, ?_⟩
  exact (retryWrite_exactly_once_iff (by decide)
    (rfl : retryWrite 2 openWorker pairBuffer [⟨-1, EAGAIN⟩, ⟨1, 0⟩, ⟨1, 0⟩] = _)
    rfl (by decide) (by decide)).mpr (by decide)

/-- A single byte, a would-block result, and the whole buffer: the first byte goes out twice. -/
theorem retryWrite_repeats_first_byte :
    ∃ run, retryWrite 2 openWorker pairBuffer [⟨1, 0⟩, ⟨-1, EAGAIN⟩, ⟨2, 0⟩] = some run ∧
      (∀ c ∈ run.calls, c.Legal) ∧ run.ret = 2 ∧ acceptedBytes run.calls = [1, 1, 2] ∧
      acceptedBytes run.calls ≠ pairBuffer.content := by
  refine ⟨_, rfl, ?_, ?_, ?_, ?_⟩ <;> decide

end TCPSocketWorker

end Shovel.Workers
