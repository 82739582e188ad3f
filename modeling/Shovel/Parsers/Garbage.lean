import Mathlib.Data.List.DropRight
import Shovel.Parsers.Framing

/-!
# Garbage in front of a datagram

The marker is a run of equal bytes. If the garbage in front of a frame ends with
bytes of the marker, a marker begins in the garbage and ends in the frame, and the
parser reads the size field one, two or three bytes too early. With three such
bytes it finds 256; with one or two it finds the low byte of the frame's length as
a high byte, which makes no datagram only when that byte is zero.
-/

namespace Shovel.Parsers

open Incremental

/-- The marker does not occur in the string. -/
def Unmarked (bytes : List UInt8) : Prop := ∀ k, ¬ hasMainWord (bytes.drop k)

/-- The number of bytes of the marker at the end of a string. -/
def trailingMarkBytes (bytes : List UInt8) : Nat :=
  (bytes.rtakeWhile (· == mainWordFirstByte)).length

/-- The garbage does not end with a byte of the marker; or it ends with one or two, and the low byte
of the frame's length is zero. -/
def Harmless (garbage payload : List UInt8) : Prop :=
  trailingMarkBytes garbage = 0 ∨
    trailingMarkBytes garbage ≤ 2 ∧ (sizeofDataHead + payload.length) % 256 = 0

instance (garbage payload : List UInt8) : Decidable (Harmless garbage payload) :=
  inferInstanceAs (Decidable (_ ∨ _))

/-- A string is one that does not end with a byte of the marker, followed by such bytes. -/
theorem split_trailing (bytes : List UInt8) :
    ∃ head, bytes = head ++ List.replicate (trailingMarkBytes bytes) 0xff ∧
      ∀ h : head ≠ [], head.getLast h ≠ 0xff := by
  refine ⟨bytes.rdropWhile (· == mainWordFirstByte), ?_, fun h => ?_⟩
  · have htail : bytes.rtakeWhile (· == mainWordFirstByte) =
        List.replicate (trailingMarkBytes bytes) 0xff := by
      refine List.eq_replicate_iff.mpr ⟨rfl, fun b hb => ?_⟩
      simpa [mainWordFirstByte] using List.mem_rtakeWhile_imp hb
    rw [← htail, List.rdropWhile_append_rtakeWhile]
  · simpa [mainWordFirstByte] using List.rdropWhile_last_not (· == mainWordFirstByte) bytes h

/-- No marker begins in front of the bytes of the marker at the end, whatever follows. -/
theorem not_hasMainWord_head {head : List UInt8} {k : Nat}
    (hunmarked : Unmarked (head ++ List.replicate k 0xff))
    (hlast : ∀ h : head ≠ [], head.getLast h ≠ 0xff) (more : List UInt8) :
    ∀ i < head.length, ¬ hasMainWord ((head ++ more).drop i) := by
  intro i hi hmark
  rw [List.drop_append_of_le_length (Nat.le_of_lt hi)] at hmark
  by_cases hlong : 4 ≤ (head.drop i).length
  · -- the marker would lie in the string
    refine hunmarked i ?_
    rw [List.drop_append_of_le_length (Nat.le_of_lt hi)]
    exact (hasMainWord_append _ hlong).mpr ((hasMainWord_append _ hlong).mp hmark)
  · -- the marker would cover the last byte in front of its own bytes
    have hne : head.drop i ≠ [] := fun hnil => by
      have hend := List.drop_eq_nil_iff.mp hnil
      omega
    have hhead : head ≠ [] := fun hnil => by simp [hnil] at hi
    refine hlast hhead ?_
    rw [hasMainWord, List.take_append, List.take_of_length_le (by omega)] at hmark
    have hmem : (head.drop i).getLast hne ∈ List.replicate 4 (0xff : UInt8) := by
      rw [← hmark]
      exact List.mem_append_left _ (List.getLast_mem hne)
    rw [← List.getLast_drop hne]
    exact List.eq_of_mem_replicate hmem

/-- A string without the marker ends with at most three of its bytes. -/
theorem trailing_le_three {head : List UInt8} {k : Nat}
    (hunmarked : Unmarked (head ++ List.replicate k 0xff)) : k ≤ 3 := by
  by_contra hmany
  refine hunmarked head.length ?_
  rw [List.drop_left, hasMainWord, List.take_replicate, Nat.min_eq_left (by omega)]

/-! ## A frame behind bytes of the marker -/

namespace Transmission

variable (sent : Transmission)

/-- The bytes of a frame. -/
theorem frame_bytes :
    sent.frame = 0xff :: 0xff :: 0xff :: 0xff :: 1 :: 0 :: 1 :: 0 ::
      UInt8.ofNat sent.frame.length :: UInt8.ofNat (sent.frame.length / 256) :: 0 :: 0 ::
        sent.payload := by
  have hfits := sent.fits
  have hsmall : (sizeofDataHead + sent.payload.length) % 65536 =
      sizeofDataHead + sent.payload.length := by
    simp only [uint16Max, sizeofDataHead] at hfits ⊢
    omega
  rw [sent.length_frame, frame, prepare_eq sent.fits]
  simp [sendHead, DataHead.toBytes, LittleEndian.encode, MAIN_WORD, hsmall]

/-- A frame alone is emitted. -/
theorem scan_frame :
    (scan sent.frame).emitted = [sent.frame] ∧ scanner.Avoids ShortHeader sent.frame := by
  have hemit : scanner.examine sent.frame = .emit sent.frame.length := by
    show examine _ = _
    simpa using sent.examine_frame []
  have hshort : ¬ ShortHeader sent.frame := by simpa using sent.not_shortHeader_frame []
  obtain ⟨hnone, hgood⟩ := scan_of_wait (show examine [] = .wait from rfl)
  rw [scan, Scanner.scan_emit hemit, Scanner.avoids_emit hemit, List.take_length, List.drop_length]
  exact ⟨congrArg (sent.frame :: ·) hnone, hshort, hgood⟩

/-- One byte too early, the size is read from the low byte of the length. -/
theorem sizeField_one :
    sizeField (0xff :: sent.frame) = 256 * ((sizeofDataHead + sent.payload.length) % 256) := by
  rw [sent.frame_bytes, sent.length_frame]
  simp [sizeField, LittleEndian.decode]

theorem sizeField_two : sizeField (0xff :: 0xff :: sent.frame) = 1 := by
  rw [sent.frame_bytes]
  rfl

theorem sizeField_three : sizeField (0xff :: 0xff :: 0xff :: sent.frame) = 256 := by
  rw [sent.frame_bytes]
  rfl

end Transmission

variable (sent : Transmission) {bytes : List UInt8}

/-- A size below a pointer's size costs one byte. -/
theorem scan_of_small (hlength : sizeofDataHead ≤ (0xff :: bytes).length)
    (hsmall : sizeField (0xff :: bytes) < sizeofHeadPointer) :
    (scan (0xff :: bytes)).emitted = (scan bytes).emitted ∧
      (scanner.Avoids ShortHeader bytes → scanner.Avoids ShortHeader (0xff :: bytes)) := by
  simp only [sizeofHeadPointer] at hsmall
  have hreject : ¬ AcceptsHeader (0xff :: bytes) := fun haccept => by
    have hhead := haccept.2
    simp only [sizeofDataHead] at hhead
    omega
  have hskip : scanner.examine (0xff :: bytes) = .skip 1 := by
    show examine _ = _
    rw [examine, if_neg (Nat.not_lt.mpr hlength), if_neg hreject]
  refine ⟨by rw [scan, Scanner.scan_skip hskip]; rfl, fun hgood => ?_⟩
  refine (Scanner.avoids_skip hskip).mpr ⟨fun hshort => ?_, hgood⟩
  have hpointer := hshort.2.2.1
  simp only [sizeofHeadPointer] at hpointer
  omega

/-- A header that is accepted too early: its fifth byte belongs to the marker of the frame, which
is not the fifth byte of a frame. -/
theorem scan_of_early (haccept : AcceptsHeader bytes) (hfifth : bytes[4]? = some 0xff) :
    (scan bytes).emitted ≠ [sent.frame] := by
  intro hemitted
  rw [scan] at hemitted
  cases hverdict : examine bytes with
  | wait =>
      rw [Scanner.scan_wait hverdict] at hemitted
      cases hemitted
  | skip count => exact (examine_skip hverdict).2.2 haccept
  | emit count =>
      obtain ⟨rfl, hhead, -, -⟩ := examine_emit hverdict
      rw [Scanner.scan_emit hverdict] at hemitted
      have hframe : bytes.take (sizeField bytes) = sent.frame := (List.cons.inj hemitted).1
      have hbyte : sent.frame[4]? = some 0xff := by
        simp only [sizeofDataHead] at hhead
        rw [← hframe, List.getElem?_take_of_lt (by omega), hfifth]
      rw [sent.frame_bytes] at hbyte
      cases hbyte

/-- One byte of the marker in front of a frame. -/
theorem scan_one :
    ((scan (0xff :: sent.frame)).emitted = [sent.frame] ↔
        (sizeofDataHead + sent.payload.length) % 256 = 0) ∧
      ((sizeofDataHead + sent.payload.length) % 256 = 0 →
        scanner.Avoids ShortHeader (0xff :: sent.frame)) := by
  have hsize := sent.sizeField_one
  obtain ⟨hemitted, hgood⟩ := sent.scan_frame
  by_cases hlow : (sizeofDataHead + sent.payload.length) % 256 = 0
  · -- the size read too early is zero
    have hlength : sizeofDataHead ≤ (0xff :: sent.frame).length := by
      rw [List.length_cons, sent.length_frame]
      omega
    obtain ⟨hsame, havoids⟩ := scan_of_small hlength (by rw [hsize, hlow]; decide)
    exact ⟨⟨fun _ => hlow, fun _ => hsame.trans hemitted⟩, fun _ => havoids hgood⟩
  · have haccept : AcceptsHeader (0xff :: sent.frame) := by
      refine ⟨?_, ?_⟩
      · rw [sent.frame_bytes]
        rfl
      · rw [hsize]
        simp only [sizeofDataHead] at hlow ⊢
        omega
    have hfifth : (0xff :: sent.frame)[4]? = some 0xff := by
      rw [sent.frame_bytes]
      rfl
    refine ⟨⟨fun hexact => ?_, fun h => absurd h hlow⟩, fun h => absurd h hlow⟩
    exact absurd hexact (scan_of_early sent haccept hfifth)

/-- Up to three bytes of the marker in front of a frame. -/
theorem scan_behind_mark_bytes {k : Nat} (hk : k ≤ 3) :
    ((scan (List.replicate k 0xff ++ sent.frame)).emitted = [sent.frame] ↔
        k = 0 ∨ k ≤ 2 ∧ (sizeofDataHead + sent.payload.length) % 256 = 0) ∧
      (k = 0 ∨ k ≤ 2 ∧ (sizeofDataHead + sent.payload.length) % 256 = 0 →
        scanner.Avoids ShortHeader (List.replicate k 0xff ++ sent.frame)) := by
  obtain ⟨hone, honeAvoids⟩ := scan_one sent
  match k, hk with
  | 0, _ =>
      obtain ⟨hemitted, hgood⟩ := sent.scan_frame
      exact ⟨⟨fun _ => .inl rfl, fun _ => hemitted⟩, fun _ => hgood⟩
  | 1, _ => simpa using ⟨hone, honeAvoids⟩
  | 2, _ =>
      -- the size read two bytes too early is one, so the first byte is dropped
      have hlength : sizeofDataHead ≤ (0xff :: 0xff :: sent.frame).length := by
        rw [List.length_cons, List.length_cons, sent.length_frame]
        omega
      obtain ⟨hsame, havoids⟩ := scan_of_small hlength (by rw [sent.sizeField_two]; decide)
      have htwo : List.replicate 2 0xff ++ sent.frame = 0xff :: 0xff :: sent.frame := rfl
      rw [htwo, hsame, hone]
      refine ⟨by simp, fun hharmless => havoids (honeAvoids ?_)⟩
      simpa using hharmless
  | 3, _ =>
      -- the size read three bytes too early is 256, whatever the frame's length is
      have haccept : AcceptsHeader (0xff :: 0xff :: 0xff :: sent.frame) := by
        refine ⟨?_, by rw [sent.sizeField_three]; decide⟩
        rw [sent.frame_bytes]
        rfl
      have hfifth : (0xff :: 0xff :: 0xff :: sent.frame)[4]? = some 0xff := by
        rw [sent.frame_bytes]
        rfl
      have hthree : List.replicate 3 0xff ++ sent.frame = 0xff :: 0xff :: 0xff :: sent.frame := rfl
      have hnot := scan_of_early sent haccept hfifth
      rw [hthree]
      exact ⟨⟨fun hexact => absurd hexact hnot, by simp⟩, by simp⟩

open ParserExample in
/-- Garbage without the marker, and a frame behind it, cut into chunks in any way: a fresh parser
delivers the frame as its only datagram exactly when the garbage does not end with a byte of the
marker, or ends with one or two and the low byte of the frame's length is zero. -/
theorem delivers_behind_garbage_iff {garbage payload : List UInt8} {chunks : List (List UInt8)}
    (hunmarked : Unmarked garbage) (hfits : payload.length ≤ uint16Max - sizeofDataHead)
    (hcut : chunks.flatten = garbage ++ prepareDataForSending payload) :
    (∃ outputs p, putAll init chunks = .ok (outputs, p) ∧
      outputs.flatten = [prepareDataForSending payload]) ↔ Harmless garbage payload := by
  let sent : Transmission := ⟨payload, hfits, [], by simp⟩
  obtain ⟨head, hsplit, hlast⟩ := split_trailing garbage
  have hunmarked' := hsplit ▸ hunmarked
  obtain ⟨hexact, havoids⟩ := scan_behind_mark_bytes sent (trailing_le_three hunmarked')
  have hbytes : chunks.flatten =
      head ++ (List.replicate (trailingMarkBytes garbage) 0xff ++ sent.frame) := by
    rw [hcut, ← List.append_assoc, ← hsplit]
    rfl
  obtain ⟨hemitted, hgood⟩ := scan_unmarked (not_hasMainWord_head hunmarked' hlast
    (List.replicate (trailingMarkBytes garbage) 0xff ++ sent.frame))
  rw [← hbytes] at hemitted hgood
  constructor
  · intro ⟨outputs, p, hok, hflat⟩
    by_cases hclear : scanner.Avoids ShortHeader chunks.flatten
    · obtain ⟨others, q, hothers, -, htokens, -⟩ := putAll_refines_scan chunks hclear
      obtain ⟨rfl, -⟩ := Outcome.answer_unique hok hothers
      exact hexact.mp (hemitted.symm.trans (htokens.symm.trans hflat))
    · cases hok.symm.trans (putAll_of_hits chunks hclear)
  · intro hharmless
    obtain ⟨outputs, p, hok, -, htokens, -⟩ :=
      putAll_refines_scan chunks (hgood (havoids hharmless))
    exact ⟨outputs, p, hok, htokens.trans (hemitted.trans (hexact.mpr hharmless))⟩

open ParserExample in
/-- Two bytes of the marker in front of a frame of 256 bytes. -/
theorem delivers_behind_garbage_iff_two :
    ∃ outputs p, putAll init [[7, 0xff, 0xff], prepareDataForSending (List.replicate 244 5)] =
        .ok (outputs, p) ∧ outputs.flatten = [prepareDataForSending (List.replicate 244 5)] := by
  have hunmarked : Unmarked [7, 0xff, 0xff] := by
    intro k
    match k with
    | 0 | 1 | 2 => decide
    | k + 3 => simp [hasMainWord]
  have hlength : (List.replicate 244 (5 : UInt8)).length = 244 := List.length_replicate
  generalize List.replicate 244 (5 : UInt8) = payload at hlength ⊢
  have hharmless : Harmless [7, 0xff, 0xff] payload := .inr ⟨by decide, by rw [hlength]; rfl⟩
  refine (delivers_behind_garbage_iff hunmarked ?_ ?_).mpr hharmless
  · rw [hlength]
    decide
  · rw [List.flatten_cons, List.flatten_singleton]

open ParserExample in
/-- One byte of the marker in front of a frame without payload: the parser waits for 3072 bytes. -/
theorem garbage_costs_datagram :
    Unmarked [0xff] ∧
      ¬ ∃ outputs p, putAll init [[0xff] ++ prepareDataForSending []] = .ok (outputs, p) ∧
        outputs.flatten = [prepareDataForSending []] := by
  refine ⟨fun k => ?_, ?_⟩
  · match k with
    | 0 => decide
    | k + 1 => simp [hasMainWord]
  · rintro ⟨outputs, p, hok, hflat⟩
    obtain ⟨others, q, hothers, -, htokens, -⟩ :=
      putAll_refines_scan [[0xff] ++ prepareDataForSending []] (by decide +kernel)
    obtain ⟨rfl, -⟩ := Outcome.answer_unique hok hothers
    exact absurd (htokens.symm.trans hflat) (by decide +kernel)

end Shovel.Parsers
