import Shovel.Library.TokenStreams
import Shovel.Parsers.Accounting

/-!
# Forwarded datagrams

What one parser delivers is put on another stream as it is: a queue holds whole
datagrams, and a worker writes them one behind the other. A well-formed datagram
is a whole token of the scanner, so the parser at the other end delivers the same
datagrams in the same order, wherever the stream is cut.
-/

namespace Shovel.Parsers

open Incremental Scanner

namespace ParserExample

variable {d : List UInt8}

/-- A well-formed datagram in front of any input is emitted. -/
theorem WellFormed.examine_emits (h : WellFormed d) (more : List UInt8) :
    examine (d ++ more) = .emit d.length := by
  have hlow := h.low
  have hten : 10 ≤ d.length := Nat.le_trans (by decide) hlow
  have hsize : sizeField (d ++ more) = d.length := by rw [sizeField_append more hten, h.size]
  have haccept : AcceptsHeader (d ++ more) := by
    rw [acceptsHeader_append more hlow]
    exact ⟨h.mainWord, by rw [h.size]; exact hlow⟩
  rw [examine, if_neg (by rw [List.length_append]; omega), if_pos haccept, hsize,
    if_neg (by rw [List.length_append]; omega)]

/-- The scanner waits for the rest of a well-formed datagram that is cut off. -/
theorem WellFormed.examine_waits (h : WellFormed d) {limit : Nat} (hcut : limit < d.length) :
    examine (d.take limit) = .wait := by
  have hlength : (d.take limit).length = limit := by
    rw [List.length_take]
    omega
  rw [examine, hlength]
  by_cases hfew : limit < sizeofDataHead
  · rw [if_pos hfew]
  · have hlong : sizeofDataHead ≤ (d.take limit).length := by omega
    have hten : 10 ≤ (d.take limit).length := Nat.le_trans (by decide) hlong
    have hsize : sizeField (d.take limit) = d.length := by
      rw [← sizeField_append (d.drop limit) hten, List.take_append_drop, h.size]
    have haccept : AcceptsHeader (d.take limit) := by
      rw [← acceptsHeader_append (d.drop limit) hlong, List.take_append_drop]
      exact ⟨h.mainWord, by rw [h.size]; exact h.low⟩
    rw [if_neg hfew, if_pos haccept, hsize, if_pos hcut]

/-- A well-formed datagram is a whole token of the scanner. -/
theorem WellFormed.whole (h : WellFormed d) : Whole scanner ShortHeader d where
  emits := h.examine_emits
  waits _ hcut := h.examine_waits hcut
  good more hshort := by
    have hten : 10 ≤ d.length := Nat.le_trans (by decide) h.low
    have hlow := h.low
    have hshorter := hshort.2.2.2
    rw [sizeField_append more hten, h.size] at hshorter
    omega

/-- The encoder's datagrams are well formed. -/
theorem wellFormed_prepare {payload : List UInt8}
    (h : payload.length ≤ uint16Max - sizeofDataHead) :
    WellFormed (prepareDataForSending payload) where
  mainWord := by simpa using prepare_hasMainWord h []
  size := by simpa using prepare_sizeField h []
  low := by
    rw [length_prepare h]
    omega
  high := by
    rw [length_prepare h]
    simp only [uint16Max, sizeofDataHead] at h ⊢
    omega

/-- The datagrams that a parser has delivered are those of the scan of its chunks. -/
theorem delivered_eq_scan {chunks : List (List UInt8)} {outputs : List (List (List UInt8))}
    {p : ParserExample} (h : putAll init chunks = .ok (outputs, p)) :
    outputs.flatten = (scan chunks.flatten).emitted := by
  have hgood : scanner.Avoids ShortHeader chunks.flatten := by
    by_contra hbad
    cases h.symm.trans (putAll_of_hits chunks hbad)
  obtain ⟨others, hok, hlength, htokens⟩ := putAll_of_avoids chunks hgood
  obtain ⟨rfl, -⟩ := Outcome.answer_unique h hok
  have hall := htokens chunks.length
  rwa [List.take_length, ← hlength, List.take_length] at hall

/-- A parser that has been fed with the first bytes of a stream of well-formed datagrams has
delivered those that end among these bytes. -/
theorem delivers_within {datagrams chunks : List (List UInt8)}
    (hformed : ∀ d ∈ datagrams, WellFormed d) (hstart : chunks.flatten <+: datagrams.flatten) :
    ∃ outputs p, putAll init chunks = .ok (outputs, p) ∧
      outputs.flatten = tokensWithin chunks.flatten.length datagrams := by
  obtain ⟨hemitted, havoids⟩ := scan_take_tokens shortHeader_settled
    (fun d hd => (hformed d hd).whole) chunks.flatten.length
  rw [← List.prefix_iff_eq_take.mp hstart] at hemitted havoids
  obtain ⟨outputs, hok, -⟩ := putAll_of_avoids chunks havoids
  exact ⟨outputs, _, hok, (delivered_eq_scan hok).trans hemitted⟩

/-- The datagrams that a parser has delivered, put on another stream one behind the other and cut
there in any other way, make another parser deliver the same datagrams in the same order, and leave
it as it was constructed; whatever other bytes were between them, and wherever the first stream was
cut. Neither a fault nor a byte kept back is left of the first stream. -/
theorem forwarded_unchanged {chunks forwarded : List (List UInt8)}
    {outputs : List (List (List UInt8))} {p : ParserExample}
    (h : putAll init chunks = .ok (outputs, p))
    (hcut : forwarded.flatten = outputs.flatten.flatten) :
    ∃ outputs', putAll init forwarded = .ok (outputs', init) ∧
      outputs'.flatten = outputs.flatten := by
  have hformed : ∀ d ∈ outputs.flatten, WellFormed d := by
    rw [delivered_eq_scan h]
    exact scan_emitted_wellFormed _
  have hwhole := fun d hd => (hformed d hd).whole
  obtain ⟨-, havoids⟩ :=
    scan_take_tokens shortHeader_settled hwhole outputs.flatten.flatten.length
  rw [List.take_length, ← hcut] at havoids
  have hscan : scan forwarded.flatten = ⟨outputs.flatten, []⟩ := by
    rw [hcut]
    exact scan_tokens hwhole
  obtain ⟨outputs', hok, -⟩ := putAll_of_avoids forwarded havoids
  have hdelivered := delivered_eq_scan hok
  rw [hscan] at hok hdelivered
  exact ⟨outputs', hok, hdelivered⟩

/-- A datagram of twelve bytes behind a byte of garbage, forwarded in two pieces. -/
theorem forwarded_unchanged_header :
    ∃ outputs', putAll init [[0xff, 0xff, 0xff], [0xff, 0, 0, 0, 0, 12, 0, 0, 0]] =
        .ok (outputs', init) ∧
      outputs'.flatten = [[0xff, 0xff, 0xff, 0xff, 0, 0, 0, 0, 12, 0, 0, 0]] := by
  obtain ⟨outputs, hok, -⟩ := putAll_of_avoids
    [[7, 0xff, 0xff, 0xff, 0xff, 0, 0, 0, 0, 12, 0, 0, 0]] (by decide +kernel)
  have hdelivered : outputs.flatten = [[0xff, 0xff, 0xff, 0xff, 0, 0, 0, 0, 12, 0, 0, 0]] := by
    rw [delivered_eq_scan hok]
    decide +kernel
  have hcut : [[0xff, 0xff, 0xff], [0xff, 0, 0, 0, 0, 12, 0, 0, 0]].flatten =
      outputs.flatten.flatten := by
    rw [hdelivered]
    rfl
  obtain ⟨outputs', hagain, hsame⟩ := forwarded_unchanged hok hcut
  exact ⟨outputs', hagain, hsame.trans hdelivered⟩

end ParserExample

end Shovel.Parsers
