import Mathlib.Logic.Basic
import Shovel.Parsers.Scan

/-!
# What a call of the parser leaves and discards

After every call the parser rests in one of two forms: it has seen less than a
header, or it holds an accepted header and waits for the rest of the datagram.
Since the scan that a call resumes accounts for its input, so does the call: the
bytes in front of it are cut into discarded bytes, datagrams and the bytes that
it keeps, and no discarded byte is the beginning of an accepted header.
-/

namespace Shovel.Parsers

open Incremental

namespace ParserExample

/-! ## The loop stops -/

/-- The loop of `_parse_data`, given up when it has tested its condition this many times. -/
def parseWithin : Nat → ParserExample → List (List UInt8) →
    Option (Except Fault (ParserExample × List (List UInt8)))
  | 0, _, _ => none
  | limit + 1, p, out =>
      if p.parsingBuffer = [] then some (.ok (p, out))
      else
        match p.parseStep out with
        | .error fault => some (.error fault)
        | .ok (.leave next found) => some (.ok (next, found))
        | .ok (.again next found) => parseWithin limit next found

/-- From every state the loop stops after as many tests as its measure allows. -/
theorem parseWithin_eq {limit : Nat} {p : ParserExample} {out : List (List UInt8)}
    (h : p.rank < limit) : parseWithin limit p out = some (p.parseData out) := by
  induction limit generalizing p out with
  | zero => exact absurd h (Nat.not_lt_zero _)
  | succ limit ih =>
      by_cases hempty : p.parsingBuffer = []
      · rw [parseWithin, if_pos hempty, parseData_empty hempty]
      · rw [parseWithin, if_neg hempty]
        cases hstep : p.parseStep out with
        | error fault => simp only [parseData_error hempty hstep]
        | ok pass =>
            cases pass with
            | leave next found => simp only [parseData_leave hempty hstep]
            | again next found =>
                have hless := rank_lt_of_again hempty hstep
                simp only [parseData_again hempty hstep]
                exact ih (by omega)

/-! ## The resting state -/

/-- No header has been seen: `STATE_NODATA`, and less than a header is kept. -/
structure Idle (p : ParserExample) : Prop where
  state : p.state = .nodata
  tmpDgBuf : p.tmpDgBuf = []
  few : p.parsingBuffer.length < sizeofDataHead

/-- An accepted header is held: `STATE_RECEIVING_DATA`, the header is copied, and the rest of its
datagram is missing. -/
structure Holding (p : ParserExample) : Prop where
  state : p.state = .receivingData
  tmpDgBuf : p.tmpDgBuf = p.parsingBuffer.take sizeofDataHead
  header : AcceptsHeader p.parsingBuffer
  some : sizeofDataHead ≤ p.parsingBuffer.length
  missing : p.parsingBuffer.length < sizeField p.parsingBuffer

/-- A complete datagram stands at the front of the bytes. -/
def StartsWithDatagram (bytes : List UInt8) : Prop :=
  sizeofDataHead ≤ bytes.length ∧ AcceptsHeader bytes ∧ sizeField bytes ≤ bytes.length

variable {p p' : ParserExample} {left chunk : List UInt8} {chunks found : List (List UInt8)}
variable {outputs : List (List (List UInt8))}

theorem RestsAt.parsingBuffer_eq (h : RestsAt p left) : p.parsingBuffer = left := by
  obtain ⟨rfl, -⟩ := h
  unfold rest
  split <;> rfl

/-- Between calls the parser is idle or holds a header. -/
theorem RestsAt.idle_or_holding (h : RestsAt p left) : Idle p ∨ Holding p := by
  obtain ⟨rfl, hwait⟩ := h
  rcases examine_wait hwait with hfew | ⟨hlength, haccept, hmissing⟩
  · rw [rest, if_neg (Nat.not_le.mpr hfew)]
    exact .inl ⟨rfl, rfl, hfew⟩
  · rw [rest, if_pos hlength]
    exact .inr ⟨rfl, rfl, haccept, hlength, hmissing⟩

theorem Idle.not_holding (h : Idle p) : ¬ Holding p := fun hholding => by
  cases h.state.symm.trans hholding.state

/-- An idle or holding parser keeps no complete datagram, and at most 65534 bytes. -/
theorem retained_of_rests (h : Idle p ∨ Holding p) :
    ¬ StartsWithDatagram p.parsingBuffer ∧ p.parsingBuffer.length ≤ uint16Max - 1 := by
  rcases h with hidle | hholding
  · have hfew := hidle.few
    refine ⟨fun hcomplete => absurd hcomplete.1 (Nat.not_le.mpr hfew), ?_⟩
    simp only [sizeofDataHead] at hfew
    simp only [uint16Max]
    omega
  · have hmissing := hholding.missing
    have hfield := sizeField_le p.parsingBuffer
    refine ⟨fun hcomplete => absurd hcomplete.2.2 (Nat.not_le.mpr hmissing), ?_⟩
    omega

/-- A parser that some calls have left rests in front of the leftover of their bytes. -/
theorem restsAt_of_putAll (h : putAll init chunks = .ok (outputs, p)) :
    RestsAt p (scan chunks.flatten).leftover := by
  by_cases hgood : scanner.Avoids ShortHeader chunks.flatten
  · obtain ⟨others, hok, -, -⟩ := putAll_of_avoids chunks hgood
    obtain ⟨-, rfl⟩ := Outcome.answer_unique h hok
    exact ⟨rfl, scanner.examine_leftover _⟩
  · cases h.symm.trans (putAll_of_hits chunks hgood)

/-- What one call does from a resting state: it returns the datagrams of the resumed scan and rests
again, or it forms the inverted range. -/
theorem RestsAt.put_cases (h : RestsAt p left) (chunk : List UInt8) :
    (∃ p', put p chunk = .ok ((scan (left ++ chunk)).emitted, p') ∧
        RestsAt p' (scan (left ++ chunk)).leftover) ∨
      put p chunk = .error .rangeInverted := by
  by_cases hgood : scanner.Avoids ShortHeader (left ++ chunk)
  · exact .inl (parser_tracks.put_ok chunk h hgood)
  · exact .inr (parser_tracks.put_error chunk h hgood)

/-- From every reachable state the loop of `put` stops; the call fails with the inverted range of
the insertion or rests in exactly one of the two forms, with no complete datagram at the front of
the buffer and at most 65534 bytes in it. -/
theorem put_rests (hreach : putAll init chunks = .ok (outputs, p)) (chunk : List UInt8) :
    (∃ limit, ∀ more, parseWithin (limit + more)
      { p with parsingBuffer := p.parsingBuffer ++ chunk } [] =
        some (parseData { p with parsingBuffer := p.parsingBuffer ++ chunk } [])) ∧
    (∀ fault, put p chunk = .error fault → fault = .rangeInverted) ∧
    ∀ found p', put p chunk = .ok (found, p') → Xor (Idle p') (Holding p') ∧
      ¬ StartsWithDatagram p'.parsingBuffer ∧ p'.parsingBuffer.length ≤ 65534 := by
  refine ⟨⟨_, fun more => parseWithin_eq (Nat.lt_add_right more (Nat.lt_succ_self _))⟩, ?_⟩
  rcases (restsAt_of_putAll hreach).put_cases chunk with ⟨next, hput, hrests⟩ | hput
  · refine ⟨fun fault hfault => ?_, fun found p' hok => ?_⟩
    · cases hput.symm.trans hfault
    · obtain ⟨-, rfl⟩ := Outcome.answer_unique hput hok
      have hform := hrests.idle_or_holding
      refine ⟨?_, retained_of_rests hform⟩
      rcases hform with hidle | hholding
      · exact .inl ⟨hidle, hidle.not_holding⟩
      · exact .inr ⟨hholding, fun hidle => hidle.not_holding hholding⟩
  · refine ⟨fun fault hfault => ?_, fun found p' hok => ?_⟩
    · exact (Except.error.inj (hput.symm.trans hfault)).symm
    · cases hput.symm.trans hok

/-- A garbage byte and a header that announces one byte more than there is. -/
theorem put_rests_holding :
    ∃ found p', put init [7, 0xff, 0xff, 0xff, 0xff, 1, 0, 1, 0, 13, 0, 0, 0] = .ok (found, p') ∧
      Xor (Idle p') (Holding p') ∧ p'.parsingBuffer.length = 12 := by
  obtain ⟨p', hput, hrests⟩ := parser_tracks.put_ok
    [7, 0xff, 0xff, 0xff, 0xff, 1, 0, 1, 0, 13, 0, 0, 0] init_restsAt (by decide +kernel)
  have hkept := RestsAt.parsingBuffer_eq hrests
  obtain ⟨-, -, hreturns⟩ :=
    put_rests (rfl : putAll init [] = .ok ([], init))
      [7, 0xff, 0xff, 0xff, 0xff, 1, 0, 1, 0, 13, 0, 0, 0]
  refine ⟨_, p', hput, (hreturns _ p' hput).1, ?_⟩
  rw [hkept]
  decide +kernel

/-! ## The bytes of a call -/

/-- What the receiver of a datagram relies on: it starts with the marker and its size field is its
own length, between 12 and 65535. -/
structure WellFormed (d : List UInt8) : Prop where
  mainWord : hasMainWord d
  size : sizeField d = d.length
  low : sizeofDataHead ≤ d.length
  high : d.length ≤ uint16Max

/-- Twelve bytes are there that begin with the marker and whose size covers them. -/
def AcceptedWindow (bytes : List UInt8) : Prop :=
  sizeofDataHead ≤ bytes.length ∧ AcceptsHeader bytes

/-- Every datagram of a scan is well formed. -/
theorem scan_emitted_wellFormed (bytes : List UInt8) :
    ∀ d ∈ (scan bytes).emitted, WellFormed d := by
  intro d hd
  obtain ⟨more, hverdict⟩ := Scanner.examine_emitted bytes d hd
  obtain ⟨hlength, hhead, -, hmark⟩ := examine_emit hverdict
  obtain ⟨hlow, hhigh⟩ := scan_emitted_bounds bytes d hd
  have hten : 10 ≤ d.length := Nat.le_trans (by decide) hlow
  rw [hasMainWord_append more (Nat.le_trans (by decide) hten)] at hmark
  rw [sizeField_append more hten] at hlength
  exact ⟨hmark, hlength.symm, hlow, hhigh⟩

/-- From every reachable state a call that returns accounts for the bytes kept before and the bytes
of the chunk: discarded bytes, the datagrams between them, and the bytes kept afterwards. The
datagrams are well formed, and at no discarded byte an accepted header begins. -/
theorem put_accounts (hreach : putAll init chunks = .ok (outputs, p))
    (hput : put p chunk = .ok (found, p')) :
    (∃ gap parts, found = parts.map Prod.fst ∧
      p.parsingBuffer ++ chunk =
        gap ++ (parts.flatMap (fun part => part.1 ++ part.2) ++ p'.parsingBuffer) ∧
      ∀ k ∈ Scanner.discardedFrom 0 gap parts,
        ¬ AcceptedWindow ((p.parsingBuffer ++ chunk).drop k)) ∧
    ∀ d ∈ found, WellFormed d := by
  have hrests := restsAt_of_putAll hreach
  rcases hrests.put_cases chunk with ⟨next, hok, hnext⟩ | herror
  · obtain ⟨rfl, rfl⟩ := Outcome.answer_unique hok hput
    rw [hrests.parsingBuffer_eq, hnext.parsingBuffer_eq]
    generalize (scan chunks.flatten).leftover ++ chunk = bytes
    have hone : ∀ {input count}, scanner.examine input = .skip count → count = 1 :=
      fun h => (examine_skip h).1
    obtain ⟨gap, parts, hfound, hbytes, hskipped⟩ := Scanner.scan_accounts hone bytes
    refine ⟨⟨gap, parts, hfound, hbytes, fun k hk hwindow => ?_⟩, scan_emitted_wellFormed bytes⟩
    -- the scan has looked at every byte that it drops
    obtain ⟨-, -, hreject⟩ := examine_skip (hskipped bytes 0 rfl k hk)
    exact hreject hwindow.2
  · cases herror.symm.trans hput

end ParserExample

end Shovel.Parsers
