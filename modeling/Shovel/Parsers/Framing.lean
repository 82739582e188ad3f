import Shovel.Parsers.Scan

/-!
# Encoded datagrams over a byte stream

A sender puts frames made by `prepareDataForSending` on a stream, with strings
between them that contain no byte of the marker. `scan_take_stream` computes the
scan of every prefix of such a stream: exactly the frames that end inside the
prefix. Since the parser follows the scan call by call, every frame is delivered
once, in order, by the call that supplies its last byte.
-/

namespace Shovel.Parsers

open Incremental

/-- A payload that fits into a frame, and the string without `0xff` that follows the frame. -/
structure Transmission where
  payload : List UInt8
  fits : payload.length ≤ uint16Max - sizeofDataHead
  garbage : List UInt8
  clean : 0xff ∉ garbage

namespace Transmission

/-- The datagram that carries the payload. -/
def frame (sent : Transmission) : List UInt8 :=
  prepareDataForSending sent.payload

end Transmission

/-- The stream of a sender: a first string of garbage, then every frame with the garbage behind
it. -/
def stream (garbage : List UInt8) : List Transmission → List UInt8
  | [] => garbage
  | sent :: rest => garbage ++ (sent.frame ++ stream sent.garbage rest)

/-- The frames whose last byte is among the first `limit` bytes of the stream. -/
def framesWithin (limit : Nat) (garbage : List UInt8) : List Transmission → List (List UInt8)
  | [] => []
  | sent :: rest =>
      if garbage.length + sent.frame.length ≤ limit then
        sent.frame :: framesWithin (limit - (garbage.length + sent.frame.length)) sent.garbage rest
      else []

/-- The whole stream holds all frames. -/
theorem framesWithin_of_length (garbage : List UInt8) (sents : List Transmission) {limit : Nat}
    (h : (stream garbage sents).length ≤ limit) :
    framesWithin limit garbage sents = sents.map (·.frame) := by
  induction sents generalizing garbage limit with
  | nil => rfl
  | cons sent rest ih =>
      simp only [stream, List.length_append] at h
      rw [framesWithin, if_pos (by omega), ih sent.garbage (by omega)]
      rfl

variable {garbage tail : List UInt8}

/-- Bytes without the marker at their front are no header. -/
theorem examine_unmarked {bytes : List UInt8} (hnone : ¬ hasMainWord bytes)
    (h : sizeofDataHead ≤ bytes.length) : examine bytes = .skip 1 := by
  rw [examine, if_neg (Nat.not_lt.mpr h), if_neg fun haccept => hnone haccept.1]

/-- Bytes at which no marker begins, in front of an input, change neither the datagrams nor whether
a short header is examined. -/
theorem scan_unmarked (hnone : ∀ i < garbage.length, ¬ hasMainWord ((garbage ++ tail).drop i)) :
    (scan (garbage ++ tail)).emitted = (scan tail).emitted ∧
      (scanner.Avoids ShortHeader tail → scanner.Avoids ShortHeader (garbage ++ tail)) := by
  induction garbage with
  | nil => exact ⟨rfl, id⟩
  | cons byte garbage ih =>
      have hfirst : ¬ hasMainWord (byte :: (garbage ++ tail)) := hnone 0 (Nat.zero_lt_succ _)
      obtain ⟨hemitted, havoids⟩ := ih fun i hi => hnone (i + 1) (Nat.succ_lt_succ hi)
      by_cases hlength : sizeofDataHead ≤ (byte :: (garbage ++ tail)).length
      · have hskip : scanner.examine (byte :: (garbage ++ tail)) = .skip 1 :=
          examine_unmarked hfirst hlength
        refine ⟨?_, fun hgood => ?_⟩
        · rw [List.cons_append, scan, Scanner.scan_skip hskip]
          exact hemitted
        · exact (Scanner.avoids_skip hskip).mpr ⟨fun hshort => hfirst hshort.2.1, havoids hgood⟩
      · have hfew := Nat.lt_of_not_le hlength
        have hwait : scanner.examine (byte :: (garbage ++ tail)) = .wait := by
          show examine _ = _
          rw [examine, if_pos hfew]
        have htail : scanner.examine tail = .wait := by
          show examine _ = _
          rw [examine, if_pos]
          simp only [List.length_cons, List.length_append] at hfew
          omega
        refine ⟨?_, fun _ => ?_⟩
        · rw [List.cons_append, scan, scan, Scanner.scan_wait hwait, Scanner.scan_wait htail]
        · exact (Scanner.avoids_wait hwait).mpr fun hshort =>
            shortHeader_settled.not_wait hshort hwait

/-- Garbage without `0xff` in front of an input changes neither the datagrams nor whether a
short header is examined. -/
theorem scan_garbage (hclean : 0xff ∉ garbage) (tail : List UInt8) :
    (scan (garbage ++ tail)).emitted = (scan tail).emitted ∧
      (scanner.Avoids ShortHeader tail → scanner.Avoids ShortHeader (garbage ++ tail)) := by
  refine scan_unmarked fun i hi hmark => hclean ?_
  rw [List.drop_append_of_le_length (Nat.le_of_lt hi), List.drop_eq_getElem_cons hi] at hmark
  simp only [hasMainWord, List.cons_append, List.take_succ_cons, List.replicate_succ,
    List.cons.injEq] at hmark
  exact hmark.1 ▸ List.getElem_mem hi

/-- An input at which the scanner waits holds no datagram and no short header. -/
theorem scan_of_wait (h : examine tail = .wait) :
    (scan tail).emitted = [] ∧ scanner.Avoids ShortHeader tail := by
  refine ⟨?_, (Scanner.avoids_wait h).mpr fun hshort => shortHeader_settled.not_wait hshort h⟩
  rw [scan, Scanner.scan_wait h]

/-- Garbage without `0xff` alone holds no datagram and no short header. -/
theorem scan_clean (hclean : 0xff ∉ garbage) :
    (scan garbage).emitted = [] ∧ scanner.Avoids ShortHeader garbage := by
  obtain ⟨hemitted, havoids⟩ := scan_garbage hclean []
  obtain ⟨hnone, hgood⟩ := scan_of_wait (show examine [] = .wait from rfl)
  rw [List.append_nil] at hemitted havoids
  exact ⟨hemitted.trans hnone, havoids hgood⟩

namespace Transmission

variable (sent : Transmission)

theorem length_frame : sent.frame.length = sizeofDataHead + sent.payload.length :=
  length_prepare sent.fits

/-- A frame carries its own length, whatever follows it. -/
theorem sizeField_frame (tail : List UInt8) : sizeField (sent.frame ++ tail) = sent.frame.length :=
  prepare_sizeField sent.fits tail

/-- A frame is an accepted header, whatever follows it. -/
theorem acceptsHeader_frame (tail : List UInt8) : AcceptsHeader (sent.frame ++ tail) := by
  refine ⟨prepare_hasMainWord sent.fits tail, ?_⟩
  rw [sent.sizeField_frame, sent.length_frame]
  omega

/-- A frame is no short header, whatever follows it. -/
theorem not_shortHeader_frame (tail : List UInt8) : ¬ ShortHeader (sent.frame ++ tail) :=
  fun hshort => absurd hshort.2.2.2 (Nat.not_lt.mpr (sent.acceptsHeader_frame tail).2)

/-- A frame in front of any input is emitted. -/
theorem examine_frame (tail : List UInt8) :
    examine (sent.frame ++ tail) = .emit sent.frame.length := by
  have hsize := sent.sizeField_frame tail
  have hlength := sent.length_frame
  have haccept := sent.acceptsHeader_frame tail
  rw [examine, if_neg (by rw [List.length_append]; omega), if_pos haccept, hsize,
    if_neg (by rw [List.length_append]; omega)]

/-- The scanner waits for the rest of a frame that is cut off. -/
theorem examine_cut {limit : Nat} (h : limit < sent.frame.length) :
    examine (sent.frame.take limit) = .wait := by
  have hcut : (sent.frame.take limit).length = limit := by
    rw [List.length_take]
    omega
  unfold examine
  by_cases hfew : (sent.frame.take limit).length < sizeofDataHead
  · rw [if_pos hfew]
  · have hlong : sizeofDataHead ≤ (sent.frame.take limit).length := Nat.not_lt.mp hfew
    have hten : 10 ≤ (sent.frame.take limit).length := by
      simp only [sizeofDataHead] at hlong
      omega
    have hsize : sizeField (sent.frame.take limit) = sent.frame.length := by
      rw [← sizeField_append (sent.frame.drop limit) hten, List.take_append_drop]
      simpa using sent.sizeField_frame []
    have haccept : AcceptsHeader (sent.frame.take limit) := by
      rw [← acceptsHeader_append (sent.frame.drop limit) hlong, List.take_append_drop]
      simpa using sent.acceptsHeader_frame []
    rw [if_neg hfew, if_pos haccept, if_pos (by rw [hcut, hsize]; exact h)]

end Transmission

/-- The scan of a prefix of the stream emits exactly the frames that end inside the prefix, and
examines no short header. -/
theorem scan_take_stream (limit : Nat) (hclean : 0xff ∉ garbage) (sents : List Transmission) :
    (scan ((stream garbage sents).take limit)).emitted = framesWithin limit garbage sents ∧
      scanner.Avoids ShortHeader ((stream garbage sents).take limit) := by
  induction sents generalizing garbage limit with
  | nil => exact scan_clean fun h => hclean (List.mem_of_mem_take h)
  | cons sent rest ih =>
      by_cases hgarbage : garbage.length ≤ limit
      · have hsplit : (stream garbage (sent :: rest)).take limit = garbage ++
            (sent.frame ++ stream sent.garbage rest).take (limit - garbage.length) := by
          rw [stream, List.take_append, List.take_of_length_le hgarbage]
        obtain ⟨hemitted, havoids⟩ := scan_garbage hclean
          ((sent.frame ++ stream sent.garbage rest).take (limit - garbage.length))
        rw [hsplit, hemitted]
        by_cases hframe : garbage.length + sent.frame.length ≤ limit
        · -- the frame is complete: it is emitted, and the rest is a shorter stream
          have hwhole : (sent.frame ++ stream sent.garbage rest).take (limit - garbage.length) =
              sent.frame ++ (stream sent.garbage rest).take
                (limit - (garbage.length + sent.frame.length)) := by
            rw [List.take_append, List.take_of_length_le (by omega), Nat.sub_add_eq]
          have hemit : scanner.examine (sent.frame ++ (stream sent.garbage rest).take
              (limit - (garbage.length + sent.frame.length))) = .emit sent.frame.length :=
            sent.examine_frame _
          obtain ⟨hrest, hgood⟩ :=
            ih (limit - (garbage.length + sent.frame.length)) sent.clean
          rw [hwhole] at havoids ⊢
          constructor
          · rw [scan, Scanner.scan_emit hemit, List.take_left, List.drop_left, ← scan, hrest,
              framesWithin, if_pos hframe]
          · refine havoids ((Scanner.avoids_emit hemit).mpr ⟨sent.not_shortHeader_frame _, ?_⟩)
            rwa [List.drop_left]
        · -- the frame is cut off: the scanner waits for its rest
          have hcut : (sent.frame ++ stream sent.garbage rest).take (limit - garbage.length) =
              sent.frame.take (limit - garbage.length) :=
            List.take_append_of_le_length (by omega)
          obtain ⟨hnone, hgood⟩ := scan_of_wait
            (sent.examine_cut (show limit - garbage.length < sent.frame.length by omega))
          rw [hcut] at havoids ⊢
          rw [hnone, framesWithin, if_neg hframe]
          exact ⟨rfl, havoids hgood⟩
      · have hpart : (stream garbage (sent :: rest)).take limit = garbage.take limit := by
          rw [stream, List.take_append_of_le_length (by omega)]
        rw [hpart, framesWithin, if_neg (by omega)]
        exact scan_clean fun h => hclean (List.mem_of_mem_take h)

open ParserExample in
/-- Whatever way the stream is cut into chunks, a fresh parser delivers exactly the frames, in
order; after every number of calls it has delivered those that end inside the chunks so far, so
that the call that supplies a frame's last byte delivers it; and removing the header of a frame
gives its payload. The encoder answers an oversized payload with the empty vector, and what it
returns otherwise carries its own length. -/
theorem decode_encode_stream (garbage : List UInt8) (sents : List Transmission)
    (chunks : List (List UInt8)) (hclean : 0xff ∉ garbage)
    (hcut : chunks.flatten = stream garbage sents) :
    (∃ outputs p, putAll init chunks = .ok (outputs, p) ∧ outputs.length = chunks.length ∧
      outputs.flatten = sents.map (fun sent => prepareDataForSending sent.payload) ∧
      (∀ calls, (outputs.take calls).flatten =
        framesWithin (chunks.take calls).flatten.length garbage sents) ∧
      outputs.flatten.map (·.drop sizeofDataHead) = sents.map (·.payload)) ∧
    ∀ payload : List UInt8,
      (uint16Max - sizeofDataHead < payload.length → prepareDataForSending payload = []) ∧
      (prepareDataForSending payload ≠ [] →
        sizeField (prepareDataForSending payload) = (prepareDataForSending payload).length) := by
  have hprefix : ∀ calls, (chunks.take calls).flatten =
      (stream garbage sents).take (chunks.take calls).flatten.length := by
    intro calls
    have hsplit : chunks.flatten = (chunks.take calls).flatten ++ (chunks.drop calls).flatten := by
      rw [← List.flatten_append, List.take_append_drop]
    rw [← hcut, hsplit, List.take_left]
  have havoids : scanner.Avoids ShortHeader chunks.flatten := by
    obtain ⟨-, hgood⟩ := scan_take_stream (stream garbage sents).length hclean sents
    rwa [List.take_length, ← hcut] at hgood
  obtain ⟨outputs, hok, hlength, htokens⟩ := putAll_of_avoids chunks havoids
  have hcalls : ∀ calls, (outputs.take calls).flatten =
      framesWithin (chunks.take calls).flatten.length garbage sents := by
    intro calls
    rw [htokens, hprefix, (scan_take_stream _ hclean sents).1, ← hprefix]
  have hall : outputs.flatten = sents.map (fun sent => prepareDataForSending sent.payload) := by
    have hlast := hcalls chunks.length
    rw [List.take_length, ← hlength, List.take_length,
      framesWithin_of_length garbage sents (Nat.le_of_eq (congrArg List.length hcut.symm))] at hlast
    exact hlast
  refine ⟨⟨outputs, _, hok, hlength, hall, hcalls, ?_⟩, fun payload => ⟨prepare_oversize, ?_⟩⟩
  · rw [hall, List.map_map]
    exact List.map_congr_left fun sent _ => drop_prepare sent.fits
  · intro hsome
    have hfits : payload.length ≤ uint16Max - sizeofDataHead :=
      Nat.not_lt.mp fun hlong => hsome (prepare_oversize hlong)
    simpa using prepare_sizeField hfits []

open ParserExample in
/-- A payload that imitates the marker, behind one byte of garbage, cut inside the header and
inside the payload. -/
theorem decode_encode_stream_cut :
    ∃ outputs p, putAll init [[1, 0xff, 0xff], [0xff, 0xff, 1, 0, 1, 0, 16, 0, 0, 0, 0xff, 0xff],
        [0xff, 0xff, 2]] = .ok (outputs, p) ∧
      outputs.flatten = [prepareDataForSending [0xff, 0xff, 0xff, 0xff]] := by
  obtain ⟨⟨outputs, p, hok, -, hall, -⟩, -⟩ :=
    decode_encode_stream [1] [⟨[0xff, 0xff, 0xff, 0xff], by decide, [2], by decide⟩]
      [[1, 0xff, 0xff], [0xff, 0xff, 1, 0, 1, 0, 16, 0, 0, 0, 0xff, 0xff], [0xff, 0xff, 2]]
      (by decide) (by decide)
  exact ⟨outputs, p, hok, hall⟩

end Shovel.Parsers
