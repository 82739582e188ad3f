import Shovel.Containers.RingQueueFifo
import Shovel.Parsers.Accounting
import Shovel.Workers.ConnectionWorker

/-!
# Datagrams on their way to the queue

The reading thread hands each datagram of a call of the parser to its queue with
`put(kg.data(), (uint16_t)kg.size())` and repeats the call while it returns zero.
Every datagram fits into sixteen bits and has at least a header, so the cast keeps
its size, the size is not zero, and a `put` that returns zero has stored nothing.
-/

namespace Shovel.Workers

open Containers Parsers ParserExample Incremental

/-- The cast keeps the size of a well-formed datagram, which is not zero. -/
theorem castMessage_wellFormed {d : List UInt8} (h : WellFormed d) :
    (castMessage d).bytes = d ∧ (castMessage d).size = d.length ∧ 0 < (castMessage d).size := by
  have hbytes := castMessage_bytes (Nat.lt_succ_of_le h.high)
  have hsize : (castMessage d).size = d.length := congrArg List.length hbytes
  have hlow := h.low
  simp only [sizeofDataHead] at hlow
  exact ⟨hbytes, hsize, by omega⟩

/-- From every reachable state a call that returns cuts the bytes kept before and the bytes of the
chunk into discarded bytes, datagrams and the bytes kept afterwards. Every datagram is well formed,
so the cast in front of the queue is exact and never zero, and a ring queue that returns zero for it
has not stored it. At no discarded byte an accepted header begins. -/
theorem put_accounts_for_bytes {chunks : List (List UInt8)} {outputs : List (List (List UInt8))}
    {p p' : ParserExample} {chunk : List UInt8} {found : List (List UInt8)}
    (hreach : putAll init chunks = .ok (outputs, p)) (hput : put p chunk = .ok (found, p')) :
    (∃ gap parts, found = parts.map Prod.fst ∧
      p.parsingBuffer ++ chunk =
        gap ++ (parts.flatMap (fun part => part.1 ++ part.2) ++ p'.parsingBuffer) ∧
      ∀ k ∈ Scanner.discardedFrom 0 gap parts,
        ¬ AcceptedWindow ((p.parsingBuffer ++ chunk).drop k)) ∧
    ∀ d ∈ found, WellFormed d ∧ (castMessage d).bytes = d ∧ (castMessage d).size = d.length ∧
      0 < (castMessage d).size ∧
      ∀ q q' : RingQueue, q.put (castMessage d) = .ok (0, q') → q' = q.setStatus .full := by
  obtain ⟨haccount, hformed⟩ := put_accounts hreach hput
  refine ⟨haccount, fun d hd => ?_⟩
  obtain ⟨hbytes, hsize, hpos⟩ := castMessage_wellFormed (hformed d hd)
  exact ⟨hformed d hd, hbytes, hsize, hpos, fun q q' hzero => RingQueue.put_zero hpos hzero⟩

/-- A garbage byte, a datagram without payload, and the first byte of the next header. -/
theorem put_accounts_for_bytes_one :
    ∃ found p', put init [7, 0xff, 0xff, 0xff, 0xff, 1, 0, 1, 0, 12, 0, 0, 0, 0xff] =
        .ok (found, p') ∧ found.length = 1 ∧
      ∃ (gap : List UInt8) (parts : List (List UInt8 × List UInt8)), found = parts.map Prod.fst ∧
        [7, 0xff, 0xff, 0xff, 0xff, 1, 0, 1, 0, 12, 0, 0, 0, 0xff] =
          gap ++ (parts.flatMap (fun part => part.1 ++ part.2) ++ p'.parsingBuffer) := by
  obtain ⟨p', hput, -⟩ := parser_tracks.put_ok
    [7, 0xff, 0xff, 0xff, 0xff, 1, 0, 1, 0, 12, 0, 0, 0, 0xff] init_restsAt (by decide +kernel)
  obtain ⟨⟨gap, parts, hfound, hbytes, -⟩, -⟩ :=
    put_accounts_for_bytes (rfl : putAll init [] = .ok ([], init)) hput
  exact ⟨_, p', hput, by decide +kernel, gap, parts, hfound, hbytes⟩

end Shovel.Workers
