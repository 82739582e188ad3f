import Shovel.Parsers.DataHead
import Shovel.Library.Scanner
import Shovel.Library.Outcome

/-!
# The stateful datagram parser

`ParserExample` with its three working functions, the loop `_parse_data` and the
entry point `put`. Every range that the code forms with deque iterators is
checked: a range that is inverted or leaves the buffer ends the run with a
`Fault`, since the standard gives it no meaning. `parseData` is the `while` loop
itself; it terminates from every state because `rank` decreases.
-/

namespace Shovel.Parsers

open Outcome

/-- `PARSER_EXAMPLE_STATE`. -/
inductive ParserState where
  | nodata
  | receivingHeader
  | receivingData
  | receivingWaitNewData
  | receivingComplete
  | error
  deriving DecidableEq, Repr

/-- The ill-formed accesses: dereferencing the end iterator, a range whose end lies before its
beginning, a range that leaves the buffer, and a header read from fewer than twelve bytes. -/
inductive Fault where
  | endDereferenced
  | rangeInverted
  | rangeOutside
  | headTruncated
  deriving DecidableEq, Repr

/-- The members of `ParserExample` and its base: `m_parsing_buffer`, `m_state` and
`m_tmp_dg_buf`. -/
structure ParserExample where
  parsingBuffer : List UInt8
  state : ParserState
  tmpDgBuf : List UInt8
  deriving DecidableEq, Repr

/-- The range `[begin + first, begin + last)` of a deque. -/
def range (buffer : List UInt8) (first last : Nat) : Except Fault (List UInt8) :=
  if last < first then .error .rangeInverted
  else if buffer.length < last then .error .rangeOutside
  else .ok ((buffer.take last).drop first)

namespace ParserExample

/-- The constructor: no data, an empty buffer. -/
def init : ParserExample := ⟨[], .nodata, []⟩

/-- `_receiving_header`. The buffer's first byte is compared with the first byte of the marker
before the header is copied. -/
def receivingHeader (p : ParserExample) : Except Fault ParserExample :=
  match p.parsingBuffer with
  | [] => .error .endDereferenced
  | first :: _ =>
      if first ≠ mainWordFirstByte then .ok { p with state := .error }
      else do
        let tmpDgBuf ← range p.parsingBuffer 0 sizeofDataHead
        let head := DataHead.ofBytes tmpDgBuf
        -- `sizeof(head)` is the size of the pointer
        if head.mainWord ≠ MAIN_WORD ∨ head.size.toNat < sizeofHeadPointer then
          .ok { p with tmpDgBuf, state := .error }
        else
          .ok { p with tmpDgBuf, state := .receivingData }

/-- `_receiving_data`. -/
def receivingData (p : ParserExample) : Except Fault ParserExample :=
  if p.tmpDgBuf.length < sizeofDataHead then .error .headTruncated
  else
    let head := DataHead.ofBytes p.tmpDgBuf
    if p.parsingBuffer.length < head.size.toNat then
      .ok { p with state := .receivingWaitNewData }
    else do
      let inserted ← range p.parsingBuffer p.tmpDgBuf.length head.size.toNat
      .ok { p with tmpDgBuf := p.tmpDgBuf ++ inserted, state := .receivingComplete }

/-- `_receiving_complete`: erase the datagram's prefix of the buffer and append the datagram to
the output. -/
def receivingComplete (p : ParserExample) (out : List (List UInt8)) :
    Except Fault (ParserExample × List (List UInt8)) := do
  let _erased ← range p.parsingBuffer 0 p.tmpDgBuf.length
  .ok (⟨p.parsingBuffer.drop p.tmpDgBuf.length, .nodata, []⟩, out ++ [p.tmpDgBuf])

/-- The end of one pass through the loop body of `_parse_data`: the loop goes on, or a `break`
leaves it. -/
inductive Pass where
  | again (p : ParserExample) (out : List (List UInt8))
  | leave (p : ParserExample) (out : List (List UInt8))
  deriving DecidableEq, Repr

/-- One pass through the loop body of `_parse_data`. -/
def parseStep (p : ParserExample) (out : List (List UInt8)) : Except Fault Pass :=
  match p.state with
  | .nodata =>
      if sizeofDataHead ≤ p.parsingBuffer.length then
        .ok (.again { p with state := .receivingHeader } out)
      else .ok (.leave p out)
  | .receivingHeader => do
      let next ← p.receivingHeader
      .ok (.again next out)
  | .receivingData => do
      let next ← p.receivingData
      .ok (.again next out)
  | .receivingWaitNewData => .ok (.leave { p with state := .receivingData } out)
  | .receivingComplete => do
      let (next, found) ← p.receivingComplete out
      .ok (.again next found)
  | .error => .ok (.again ⟨p.parsingBuffer.tail, .nodata, []⟩ out)

/-- A bound on the passes the loop still makes without consuming input. A completion with an
empty datagram consumes nothing, so it stands above `nodata`. -/
def statePasses (p : ParserExample) : Nat :=
  match p.state with
  | .nodata => 5
  | .receivingHeader => 4
  | .receivingData => 3
  | .receivingComplete => if p.tmpDgBuf = [] then 6 else 1
  | .receivingWaitNewData => 0
  | .error => 0

/-- The termination measure of `_parse_data`. -/
def rank (p : ParserExample) : Nat :=
  8 * p.parsingBuffer.length + p.statePasses

/-- `_receiving_header` keeps the input; when it accepts a header, the temporary buffer holds
it. -/
theorem receivingHeader_ok {p next : ParserExample} (h : p.receivingHeader = .ok next) :
    next.parsingBuffer = p.parsingBuffer ∧
      (next.state = .error ∨
        next.state = .receivingData ∧ next.tmpDgBuf = p.parsingBuffer.take sizeofDataHead) := by
  unfold receivingHeader at h
  split at h
  · cases h
  · rename_i first rest hbuffer
    split at h
    · cases h
      exact ⟨rfl, .inl rfl⟩
    · simp only [range, Nat.not_lt_zero, if_false] at h
      split at h
      · cases h
      · simp only [bind, Except.bind, List.drop_zero] at h
        split at h <;> cases h
        · exact ⟨rfl, .inl rfl⟩
        · exact ⟨rfl, .inr ⟨rfl, rfl⟩⟩

/-- `_receiving_data` keeps the input and either waits or completes a datagram of at least
twelve bytes. -/
theorem receivingData_ok {p next : ParserExample} (h : p.receivingData = .ok next) :
    next.parsingBuffer = p.parsingBuffer ∧
      (next.state = .receivingWaitNewData ∨
        next.state = .receivingComplete ∧ next.tmpDgBuf ≠ []) := by
  unfold receivingData at h
  split at h
  · cases h
  · rename_i hlong
    simp only at h
    split at h
    · cases h
      exact ⟨rfl, .inl rfl⟩
    · cases hrange : range p.parsingBuffer p.tmpDgBuf.length
          (DataHead.ofBytes p.tmpDgBuf).size.toNat with
      | error fault => simp [hrange, bind, Except.bind] at h
      | ok inserted =>
          simp only [hrange, bind, Except.bind] at h
          cases h
          refine ⟨rfl, .inr ⟨rfl, ?_⟩⟩
          intro hnil
          obtain ⟨htmp, -⟩ := List.append_eq_nil_iff.mp hnil
          exact hlong (by simp [htmp, sizeofDataHead])

/-- `_receiving_complete` removes the temporary buffer's length from the input. -/
theorem receivingComplete_ok {p next : ParserExample} {out found : List (List UInt8)}
    (h : p.receivingComplete out = .ok (next, found)) :
    next = ⟨p.parsingBuffer.drop p.tmpDgBuf.length, .nodata, []⟩ ∧
      found = out ++ [p.tmpDgBuf] := by
  unfold receivingComplete at h
  cases hrange : range p.parsingBuffer 0 p.tmpDgBuf.length with
  | error fault => simp [hrange, bind, Except.bind] at h
  | ok erased =>
      simp only [hrange, bind, Except.bind] at h
      cases h
      exact ⟨rfl, rfl⟩

/-- A pass that does not leave the loop decreases the measure. -/
theorem rank_lt_of_again {p next : ParserExample} {out found : List (List UInt8)}
    (hne : p.parsingBuffer ≠ []) (h : p.parseStep out = .ok (.again next found)) :
    next.rank < p.rank := by
  have hpos : 0 < p.parsingBuffer.length := List.length_pos_iff.mpr hne
  unfold parseStep at h
  cases hstate : p.state with
  | nodata =>
      simp only [hstate] at h
      split at h <;> cases h
      simp [rank, statePasses, hstate]
  | receivingHeader =>
      simp only [hstate] at h
      obtain ⟨reached, hok, h⟩ := bind_eq_ok.mp h
      cases h
      obtain ⟨hbuffer, herror | ⟨hdata, -⟩⟩ := receivingHeader_ok hok
      · simp [rank, statePasses, hstate, hbuffer, herror]
      · simp [rank, statePasses, hstate, hbuffer, hdata]
  | receivingData =>
      simp only [hstate] at h
      obtain ⟨reached, hok, h⟩ := bind_eq_ok.mp h
      cases h
      obtain ⟨hbuffer, hwait | ⟨hcomplete, htmp⟩⟩ := receivingData_ok hok
      · simp [rank, statePasses, hstate, hbuffer, hwait]
      · simp [rank, statePasses, hstate, hbuffer, hcomplete, htmp]
  | receivingWaitNewData => simp [hstate] at h
  | receivingComplete =>
      simp only [hstate] at h
      obtain ⟨⟨reached, collected⟩, hok, h⟩ := bind_eq_ok.mp h
      cases h
      obtain ⟨rfl, -⟩ := receivingComplete_ok hok
      by_cases htmp : p.tmpDgBuf = []
      · simp [rank, statePasses, hstate, htmp]
      · have htmpPos : 0 < p.tmpDgBuf.length := List.length_pos_iff.mpr htmp
        simp only [rank, statePasses, hstate, htmp, List.length_drop, if_false]
        omega
  | error =>
      simp only [hstate] at h
      cases h
      simp only [rank, statePasses, hstate, List.length_tail]
      omega

/-- `_parse_data`: `while (!m_parsing_buffer.empty())`. -/
def parseData (p : ParserExample) (out : List (List UInt8)) :
    Except Fault (ParserExample × List (List UInt8)) :=
  if hne : p.parsingBuffer = [] then .ok (p, out)
  else
    match h : p.parseStep out with
    | .error fault => .error fault
    | .ok (.leave next found) => .ok (next, found)
    | .ok (.again next found) =>
        have := rank_lt_of_again hne h
        parseData next found
termination_by p.rank

/-- `put`: clear the output vector, append the chunk to the buffer and parse. -/
def put (p : ParserExample) (buf : List UInt8) :
    Except Fault (List (List UInt8) × ParserExample) := do
  let (next, found) ← parseData { p with parsingBuffer := p.parsingBuffer ++ buf } []
  .ok (found, next)

/-- Successive `put` calls on one parser. -/
def putAll (p : ParserExample) (chunks : List (List UInt8)) :
    Except Fault (List (List (List UInt8)) × ParserExample) :=
  Incremental.feed put p chunks

/-! ## Unfolding the loop -/

variable {p next : ParserExample} {out found : List (List UInt8)}

theorem parseData_empty (h : p.parsingBuffer = []) : p.parseData out = .ok (p, out) := by
  rw [parseData, dif_pos h]

theorem parseData_error {fault : Fault} (hne : p.parsingBuffer ≠ [])
    (h : p.parseStep out = .error fault) : p.parseData out = .error fault := by
  rw [parseData, dif_neg hne]
  split <;> simp_all

theorem parseData_leave (hne : p.parsingBuffer ≠ [])
    (h : p.parseStep out = .ok (.leave next found)) : p.parseData out = .ok (next, found) := by
  rw [parseData, dif_neg hne]
  split <;> simp_all

theorem parseData_again (hne : p.parsingBuffer ≠ [])
    (h : p.parseStep out = .ok (.again next found)) :
    p.parseData out = next.parseData found := by
  rw [parseData, dif_neg hne]
  split <;> simp_all

end ParserExample

end Shovel.Parsers
