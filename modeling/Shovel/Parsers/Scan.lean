import Shovel.Parsers.ParserExample

/-!
# The parser refines a stateless scanner

`scan` cuts a byte string into datagrams without any state: it looks at twelve
bytes, emits an accepted datagram or drops one byte. `ParserExample` carries a
state, a copy of the header and the unparsed bytes from call to call. The
resting state of the parser is a function of the scanner's leftover (`rest`),
and `put` is one resumed scan (`parser_tracks`).

The parser accepts a size field of 8 to 11, which no datagram can have, since it
compares the field with the size of a pointer. The scanner does not. Such a
header at an examined position (`ShortHeader`) is exactly where the parser forms
an inverted range.
-/

namespace Shovel.Parsers

open Incremental

/-- A header is accepted at the front: the marker is there and the size covers the header. -/
def AcceptsHeader (bytes : List UInt8) : Prop :=
  hasMainWord bytes ∧ sizeofDataHead ≤ sizeField bytes

instance (bytes : List UInt8) : Decidable (AcceptsHeader bytes) :=
  inferInstanceAs (Decidable (_ ∧ _))

/-- What the scanner does at the front of a byte string. -/
def examine (bytes : List UInt8) : Verdict :=
  if bytes.length < sizeofDataHead then .wait
  else if AcceptsHeader bytes then
    if bytes.length < sizeField bytes then .wait else .emit (sizeField bytes)
  else .skip 1

/-- A full header with the marker and a size from 8 to 11. -/
def ShortHeader (bytes : List UInt8) : Prop :=
  sizeofDataHead ≤ bytes.length ∧ hasMainWord bytes ∧
    sizeofHeadPointer ≤ sizeField bytes ∧ sizeField bytes < sizeofDataHead

instance : DecidablePred ShortHeader := fun _ => inferInstanceAs (Decidable (_ ∧ _))

variable {bytes : List UInt8} {count : Nat}

theorem acceptsHeader_append (more : List UInt8) (h : sizeofDataHead ≤ bytes.length) :
    AcceptsHeader (bytes ++ more) ↔ AcceptsHeader bytes := by
  simp only [sizeofDataHead] at h
  rw [AcceptsHeader, hasMainWord_append more (by omega), sizeField_append more (by omega),
    AcceptsHeader]

theorem examine_skip (h : examine bytes = .skip count) :
    count = 1 ∧ sizeofDataHead ≤ bytes.length ∧ ¬ AcceptsHeader bytes := by
  unfold examine at h
  split_ifs at h with hlength haccept
  exact ⟨(Verdict.skip.inj h).symm, Nat.not_lt.mp hlength, haccept⟩

theorem examine_emit (h : examine bytes = .emit count) :
    count = sizeField bytes ∧ sizeofDataHead ≤ sizeField bytes ∧
      sizeField bytes ≤ bytes.length ∧ hasMainWord bytes := by
  unfold examine at h
  split_ifs at h with hlength haccept hsize
  exact ⟨(Verdict.emit.inj h).symm, haccept.2, Nat.not_lt.mp hsize, haccept.1⟩

theorem examine_wait (h : examine bytes = .wait) :
    bytes.length < sizeofDataHead ∨
      sizeofDataHead ≤ bytes.length ∧ AcceptsHeader bytes ∧ bytes.length < sizeField bytes := by
  unfold examine at h
  split_ifs at h with hlength haccept hsize
  · exact .inl hlength
  · exact .inr ⟨Nat.not_lt.mp hlength, haccept, hsize⟩

/-- A decision of the scanner other than to wait stands when more input arrives. -/
theorem examine_append (more : List UInt8) (h : examine bytes ≠ .wait) :
    examine (bytes ++ more) = examine bytes := by
  have hlength : sizeofDataHead ≤ bytes.length := by
    by_contra hshort
    exact h (by simp [examine, Nat.lt_of_not_le hshort])
  have hsize : sizeField (bytes ++ more) = sizeField bytes :=
    sizeField_append more (by simp only [sizeofDataHead] at hlength; omega)
  have hlater : ¬ (bytes ++ more).length < sizeofDataHead := by
    rw [List.length_append]
    omega
  have haccept := acceptsHeader_append more hlength
  unfold examine at h ⊢
  rw [if_neg (Nat.not_lt.mpr hlength)] at h ⊢
  rw [if_neg hlater, hsize]
  by_cases hhead : AcceptsHeader bytes
  · rw [if_pos hhead] at h ⊢
    rw [if_pos (haccept.mpr hhead)]
    have hfits : ¬ bytes.length < sizeField bytes := fun hwait => h (if_pos hwait)
    rw [if_neg hfits, if_neg (by rw [List.length_append]; omega)]
  · rw [if_neg hhead, if_neg (mt haccept.mp hhead)]

/-- The scanner drops a byte that is there. -/
theorem examine_skip_bounds (h : examine bytes = .skip count) :
    0 < count ∧ count ≤ bytes.length := by
  obtain ⟨rfl, hlength, -⟩ := examine_skip h
  simp only [sizeofDataHead] at hlength
  omega

/-- The scanner emits bytes that are there. -/
theorem examine_emit_bounds (h : examine bytes = .emit count) :
    0 < count ∧ count ≤ bytes.length := by
  obtain ⟨rfl, hhead, hsize, -⟩ := examine_emit h
  simp only [sizeofDataHead] at hhead
  omega

/-- The stateless scanner. -/
def scanner : Scanner UInt8 where
  examine := examine
  skip_bounds := examine_skip_bounds
  emit_bounds := examine_emit_bounds
  stable := examine_append

/-- `scan` on byte strings: with fewer than twelve bytes stop; at an accepted header emit the
datagram, or stop when it is not complete; otherwise drop one byte. -/
def scan (bytes : List UInt8) : Scanned UInt8 :=
  scanner.scan bytes

/-- A short header is never mistaken for a wait, and later input does not change it. -/
theorem shortHeader_settled : scanner.Settled ShortHeader where
  not_wait := by
    rintro bytes ⟨hlength, -, -, hshort⟩ hwait
    rcases examine_wait hwait with hfew | ⟨-, haccept, -⟩
    · omega
    · exact absurd haccept.2 (Nat.not_le.mpr hshort)
  stable := by
    intro bytes more h
    have hlength : sizeofDataHead ≤ bytes.length := by
      by_contra hshort
      exact h (by simp [scanner, examine, Nat.lt_of_not_le hshort])
    have hten : 10 ≤ bytes.length := by
      simp only [sizeofDataHead] at hlength
      omega
    have hlater : sizeofDataHead ≤ (bytes ++ more).length := by
      rw [List.length_append]
      omega
    simp only [ShortHeader, hasMainWord_append more (Nat.le_trans (by omega) hten),
      sizeField_append more hten, hlength, hlater]

/-! ## The passes of the loop, verdict by verdict -/

namespace ParserExample

/-- The parser between datagrams, in front of these bytes. -/
def atStart (bytes : List UInt8) : ParserExample := ⟨bytes, .nodata, []⟩

/-- The parser that has copied the header in front of these bytes and waits for the rest. -/
def inDatagram (bytes : List UInt8) : ParserExample :=
  ⟨bytes, .receivingData, bytes.take sizeofDataHead⟩

/-- The state in which the parser rests when the scanner waits in front of these bytes. -/
def rest (bytes : List UInt8) : ParserExample :=
  if sizeofDataHead ≤ bytes.length then inDatagram bytes else atStart bytes

variable {out : List (List UInt8)}

theorem ne_nil_of_length (h : sizeofDataHead ≤ bytes.length) : bytes ≠ [] := by
  rintro rfl
  simp [sizeofDataHead] at h

/-- The copy of a header that is there reads inside the buffer. -/
theorem range_head (h : sizeofDataHead ≤ bytes.length) :
    range bytes 0 sizeofDataHead = .ok (bytes.take sizeofDataHead) := by
  simp [range, Nat.not_lt.mpr h]

/-- The parser accepts the marker and a size of at least a pointer's size. -/
theorem receivingHeader_accept (h : sizeofDataHead ≤ bytes.length) (hmark : hasMainWord bytes)
    (hsize : sizeofHeadPointer ≤ sizeField bytes) (tmp : List UInt8) :
    receivingHeader ⟨bytes, .receivingHeader, tmp⟩ = .ok (inDatagram bytes) := by
  have hword := (ofBytes_mainWord_iff (Nat.le_trans (by decide) h)).mpr hmark
  cases bytes with
  | nil => exact absurd rfl (ne_nil_of_length h)
  | cons first more =>
      have hfirst : first = mainWordFirstByte := by
        simp only [hasMainWord, List.take_succ_cons, List.replicate_succ, List.cons.injEq]
          at hmark
        exact hmark.1
      unfold receivingHeader
      simp only [hfirst, ne_eq, not_true_eq_false, if_false]
      rw [← hfirst, range_head h]
      simp [bind, Except.bind, DataHead.ofBytes_take, ofBytes_size, hword, Nat.not_lt.mpr hsize,
        inDatagram]

/-- The parser turns every other header into its error state. -/
theorem receivingHeader_reject (h : sizeofDataHead ≤ bytes.length)
    (hreject : ¬ (hasMainWord bytes ∧ sizeofHeadPointer ≤ sizeField bytes)) (tmp : List UInt8) :
    ∃ copied, receivingHeader ⟨bytes, .receivingHeader, tmp⟩ = .ok ⟨bytes, .error, copied⟩ := by
  have hword := ofBytes_mainWord_iff (Nat.le_trans (by decide) h)
  cases bytes with
  | nil => exact absurd rfl (ne_nil_of_length h)
  | cons first more =>
      by_cases hfirst : first = mainWordFirstByte
      · have hfields : ¬ hasMainWord (first :: more) ∨
            sizeField (first :: more) < sizeofHeadPointer := by
          by_cases hmark : hasMainWord (first :: more)
          · exact .inr (Nat.lt_of_not_le fun hsize => hreject ⟨hmark, hsize⟩)
          · exact .inl hmark
        refine ⟨(first :: more).take sizeofDataHead, ?_⟩
        unfold receivingHeader
        simp only [hfirst, ne_eq, not_true_eq_false, if_false]
        rw [← hfirst, range_head h]
        simp only [bind, Except.bind, DataHead.ofBytes_take, ofBytes_size, hword]
        rw [if_pos hfields]
      · exact ⟨tmp, by simp [receivingHeader, hfirst]⟩

/-- A rejected header costs one byte. -/
theorem parse_reject (h : sizeofDataHead ≤ bytes.length)
    (hreject : ¬ (hasMainWord bytes ∧ sizeofHeadPointer ≤ sizeField bytes)) :
    parseData (atStart bytes) out = parseData (atStart (bytes.drop 1)) out := by
  have hne := ne_nil_of_length h
  obtain ⟨copied, hheader⟩ := receivingHeader_reject h hreject []
  have hlook : parseStep (atStart bytes) out = .ok (.again ⟨bytes, .receivingHeader, []⟩ out) := by
    simp [parseStep, atStart, h]
  have hcheck : parseStep ⟨bytes, .receivingHeader, []⟩ out =
      .ok (.again ⟨bytes, .error, copied⟩ out) := by
    simp [parseStep, hheader, bind, Except.bind]
  have hdrop : parseStep ⟨bytes, .error, copied⟩ out =
      .ok (.again (atStart (bytes.drop 1)) out) := by
    simp [parseStep, atStart]
  rw [parseData_again hne hlook, parseData_again hne hcheck, parseData_again hne hdrop]

/-- A header with the marker and a size of at least a pointer's size takes the parser into the
datagram. -/
theorem parse_accept (h : sizeofDataHead ≤ bytes.length) (hmark : hasMainWord bytes)
    (hsize : sizeofHeadPointer ≤ sizeField bytes) :
    parseData (atStart bytes) out = parseData (inDatagram bytes) out := by
  have hne := ne_nil_of_length h
  have hlook : parseStep (atStart bytes) out = .ok (.again ⟨bytes, .receivingHeader, []⟩ out) := by
    simp [parseStep, atStart, h]
  have hcheck : parseStep ⟨bytes, .receivingHeader, []⟩ out =
      .ok (.again (inDatagram bytes) out) := by
    simp [parseStep, receivingHeader_accept h hmark hsize, bind, Except.bind]
  rw [parseData_again hne hlook, parseData_again hne hcheck]

/-- The copied header is long enough to be read, and its size is the size at the front of the
buffer. -/
theorem inDatagram_head (h : sizeofDataHead ≤ bytes.length) :
    (bytes.take sizeofDataHead).length = sizeofDataHead ∧
      (DataHead.ofBytes (bytes.take sizeofDataHead)).size.toNat = sizeField bytes := by
  rw [DataHead.ofBytes_take, ofBytes_size]
  exact ⟨by simp [h], rfl⟩

/-- A datagram whose size is less than the header's forms an inverted range. -/
theorem parse_short (h : ShortHeader bytes) :
    parseData (inDatagram bytes) out = .error .rangeInverted := by
  obtain ⟨hlength, -, -, hshort⟩ := h
  obtain ⟨hcopied, hfield⟩ := inDatagram_head hlength
  refine parseData_error (ne_nil_of_length hlength) ?_
  have hfits : ¬ bytes.length < sizeField bytes := by omega
  simp [parseStep, receivingData, inDatagram, hcopied, hfield, hfits, range, hshort, bind,
    Except.bind]

/-- An incomplete datagram leaves the parser waiting where it was. -/
theorem parse_hold (hlength : sizeofDataHead ≤ bytes.length)
    (hwait : bytes.length < sizeField bytes) :
    parseData (inDatagram bytes) out = .ok (inDatagram bytes, out) := by
  obtain ⟨hcopied, hfield⟩ := inDatagram_head hlength
  have hne := ne_nil_of_length hlength
  have hask : parseStep (inDatagram bytes) out =
      .ok (.again { inDatagram bytes with state := .receivingWaitNewData } out) := by
    simp [parseStep, receivingData, inDatagram, hcopied, hfield, hwait, bind, Except.bind]
  rw [parseData_again hne hask]
  exact parseData_leave hne rfl

/-- A complete datagram is handed over and its bytes are erased. -/
theorem parse_complete (hhead : sizeofDataHead ≤ sizeField bytes)
    (hfits : sizeField bytes ≤ bytes.length) :
    parseData (inDatagram bytes) out =
      parseData (atStart (bytes.drop (sizeField bytes)))
        (out ++ [bytes.take (sizeField bytes)]) := by
  have hlength := Nat.le_trans hhead hfits
  obtain ⟨hcopied, hfield⟩ := inDatagram_head hlength
  have hne := ne_nil_of_length hlength
  have hjoin : bytes.take sizeofDataHead ++
      (bytes.take (sizeField bytes)).drop sizeofDataHead = bytes.take (sizeField bytes) := by
    have hsplit := List.take_append_drop sizeofDataHead (bytes.take (sizeField bytes))
    rwa [List.take_take, Nat.min_eq_left hhead] at hsplit
  have hfill : parseStep (inDatagram bytes) out =
      .ok (.again ⟨bytes, .receivingComplete, bytes.take (sizeField bytes)⟩ out) := by
    simp [parseStep, receivingData, inDatagram, hcopied, hfield, range, Nat.not_lt.mpr hhead,
      Nat.not_lt.mpr hfits, hjoin, bind, Except.bind]
  have hhand : parseStep ⟨bytes, .receivingComplete, bytes.take (sizeField bytes)⟩ out =
      .ok (.again (atStart (bytes.drop (sizeField bytes)))
        (out ++ [bytes.take (sizeField bytes)])) := by
    simp [parseStep, receivingComplete, range, atStart, Nat.min_eq_left hfits, Nat.not_lt.mpr hfits,
      bind, Except.bind]
  rw [parseData_again hne hfill, parseData_again hne hhand]

theorem parse_few (h : bytes.length < sizeofDataHead) :
    parseData (atStart bytes) out = .ok (atStart bytes, out) := by
  by_cases hne : bytes = []
  · exact parseData_empty hne
  · exact parseData_leave hne (by simp [parseStep, atStart, Nat.not_le.mpr h])

/-! ## The loop is a scan -/

/-- The loop, started between datagrams, emits the datagrams of the scan and rests in front of
its leftover. -/
theorem parseData_of_avoids (bytes : List UInt8) (out : List (List UInt8))
    (h : scanner.Avoids ShortHeader bytes) :
    parseData (atStart bytes) out =
      .ok (rest (scan bytes).leftover, out ++ (scan bytes).emitted) := by
  induction bytes using scanner.scan_induction generalizing out with
  | wait bytes hverdict =>
      rw [scan, Scanner.scan_wait hverdict, List.append_nil]
      rcases examine_wait hverdict with hfew | ⟨hlength, haccept, hwait⟩
      · rw [parse_few hfew, rest, if_neg (Nat.not_le.mpr hfew)]
      · have hpointer : sizeofHeadPointer ≤ sizeField bytes := Nat.le_trans (by decide) haccept.2
        rw [parse_accept hlength haccept.1 hpointer, parse_hold hlength hwait, rest,
          if_pos hlength]
  | skip bytes count hverdict ih =>
      obtain ⟨hgood, hrest⟩ := (Scanner.avoids_skip hverdict).mp h
      obtain ⟨rfl, hlength, hreject⟩ := examine_skip hverdict
      have hpointer : ¬ (hasMainWord bytes ∧ sizeofHeadPointer ≤ sizeField bytes) := by
        rintro ⟨hmark, hsize⟩
        exact hgood ⟨hlength, hmark, hsize, Nat.lt_of_not_le fun hhead => hreject ⟨hmark, hhead⟩⟩
      rw [parse_reject hlength hpointer, ih out hrest, scan, scan, Scanner.scan_skip hverdict]
  | emit bytes count hverdict ih =>
      obtain ⟨-, hrest⟩ := (Scanner.avoids_emit hverdict).mp h
      obtain ⟨rfl, hhead, hfits, hmark⟩ := examine_emit hverdict
      have hpointer : sizeofHeadPointer ≤ sizeField bytes := Nat.le_trans (by decide) hhead
      rw [parse_accept (Nat.le_trans hhead hfits) hmark hpointer, parse_complete hhead hfits,
        ih _ hrest, scan, scan, Scanner.scan_emit hverdict, List.append_assoc,
        List.singleton_append]

/-- The loop forms an inverted range when the scan examines a short header. -/
theorem parseData_of_hits (bytes : List UInt8) (out : List (List UInt8))
    (h : ¬ scanner.Avoids ShortHeader bytes) :
    parseData (atStart bytes) out = .error .rangeInverted := by
  induction bytes using scanner.scan_induction generalizing out with
  | wait bytes hverdict =>
      exact absurd ((Scanner.avoids_wait hverdict).mpr fun hshort =>
        shortHeader_settled.not_wait hshort hverdict) h
  | skip bytes count hverdict ih =>
      rw [Scanner.avoids_skip hverdict] at h
      obtain ⟨rfl, hlength, hreject⟩ := examine_skip hverdict
      by_cases hshort : ShortHeader bytes
      · rw [parse_accept hlength hshort.2.1 hshort.2.2.1, parse_short hshort]
      · have hpointer : ¬ (hasMainWord bytes ∧ sizeofHeadPointer ≤ sizeField bytes) := by
          rintro ⟨hmark, hsize⟩
          exact hshort ⟨hlength, hmark, hsize, Nat.lt_of_not_le fun hhead => hreject ⟨hmark, hhead⟩⟩
        rw [parse_reject hlength hpointer, ih out fun hrest => h ⟨hshort, hrest⟩]
  | emit bytes count hverdict ih =>
      rw [Scanner.avoids_emit hverdict] at h
      obtain ⟨rfl, hhead, hfits, hmark⟩ := examine_emit hverdict
      have hgood : ¬ ShortHeader bytes := fun hshort => by
        have := hshort.2.2.2
        omega
      have hpointer : sizeofHeadPointer ≤ sizeField bytes := Nat.le_trans (by decide) hhead
      rw [parse_accept (Nat.le_trans hhead hfits) hmark hpointer, parse_complete hhead hfits,
        ih _ fun hrest => h ⟨hgood, hrest⟩]

/-- The state between calls: the parser rests in front of bytes at which the scanner waits. -/
def RestsAt (p : ParserExample) (left : List UInt8) : Prop :=
  p = rest left ∧ examine left = .wait

/-- A parser that holds a header resumes as if it had just looked at it. -/
theorem parseData_rest {left : List UInt8} (more : List UInt8) (h : examine left = .wait) :
    parseData { rest left with parsingBuffer := (rest left).parsingBuffer ++ more } [] =
      parseData (atStart (left ++ more)) [] := by
  rcases examine_wait h with hfew | ⟨hlength, haccept, -⟩
  · rw [rest, if_neg (Nat.not_le.mpr hfew)]
    rfl
  · have hlater : sizeofDataHead ≤ (left ++ more).length := by
      rw [List.length_append]
      omega
    have hheld : ({ rest left with parsingBuffer := (rest left).parsingBuffer ++ more } :
        ParserExample) = inDatagram (left ++ more) := by
      simp [rest, hlength, inDatagram, List.take_append_of_le_length hlength]
    have hagain := (acceptsHeader_append more hlength).mpr haccept
    have hpointer : sizeofHeadPointer ≤ sizeField (left ++ more) :=
      Nat.le_trans (by decide) hagain.2
    rw [hheld, parse_accept hlater hagain.1 hpointer]

/-- `put` is one resumed scan. -/
theorem parser_tracks : Tracks scanner ShortHeader .rangeInverted put RestsAt where
  waits h := h.2
  settled := shortHeader_settled
  put_ok := by
    rintro p left chunk ⟨rfl, hwait⟩ hgood
    refine ⟨rest (scan (left ++ chunk)).leftover, ?_, rfl, scanner.examine_leftover _⟩
    simp [put, parseData_rest chunk hwait, parseData_of_avoids _ [] hgood, bind, Except.bind, scan]
  put_error := by
    rintro p left chunk ⟨rfl, hwait⟩ hbad
    simp [put, parseData_rest chunk hwait, parseData_of_hits _ [] hbad, bind, Except.bind]

theorem init_restsAt : RestsAt init [] :=
  ⟨rfl, rfl⟩

/-! ## All streams, all cuts -/

/-- Every access of a run of `put` calls is well formed: no call ends in a fault. -/
def AccessesWellFormed (chunks : List (List UInt8)) : Prop :=
  ∀ fault, putAll init chunks ≠ .error fault

/-- A run on which the scan meets no short header: all calls return, after every number of calls
the datagrams so far are those of the scan of the bytes so far, and the parser rests in front of
the scan's leftover. -/
theorem putAll_of_avoids (chunks : List (List UInt8))
    (h : scanner.Avoids ShortHeader chunks.flatten) :
    ∃ outputs, putAll init chunks = .ok (outputs, rest (scan chunks.flatten).leftover) ∧
      outputs.length = chunks.length ∧
      ∀ calls, (outputs.take calls).flatten = (scan (chunks.take calls).flatten).emitted := by
  obtain ⟨outputs, final, hfeed, hlength, htokens, hfinal⟩ :=
    parser_tracks.feed_spec chunks init_restsAt h
  obtain ⟨rfl, -⟩ := hfinal
  exact ⟨outputs, hfeed, hlength, htokens⟩

/-- A run on which the scan meets a short header ends in the inverted range. -/
theorem putAll_of_hits (chunks : List (List UInt8))
    (h : ¬ scanner.Avoids ShortHeader chunks.flatten) :
    putAll init chunks = .error .rangeInverted :=
  parser_tracks.feed_error chunks init_restsAt h

/-- Every datagram of a scan has between 12 and 65535 bytes. -/
theorem scan_emitted_bounds (bytes : List UInt8) :
    ∀ d ∈ (scan bytes).emitted, sizeofDataHead ≤ d.length ∧ d.length ≤ uint16Max := by
  intro d hd
  obtain ⟨more, hverdict⟩ := Scanner.examine_emitted bytes d hd
  obtain ⟨hlength, hhead, -, -⟩ := examine_emit hverdict
  rw [hlength]
  exact ⟨hhead, sizeField_le _⟩

/-- Every datagram that a parser delivers has between 12 and 65535 bytes. -/
theorem putAll_bounds {chunks : List (List UInt8)} {outputs : List (List (List UInt8))}
    {p : ParserExample} (h : putAll init chunks = .ok (outputs, p)) :
    ∀ d ∈ outputs.flatten, sizeofDataHead ≤ d.length ∧ d.length ≤ uint16Max := by
  by_cases hgood : scanner.Avoids ShortHeader chunks.flatten
  · obtain ⟨others, hok, hlength, htokens⟩ := putAll_of_avoids chunks hgood
    obtain ⟨rfl, -⟩ := Outcome.answer_unique h hok
    have hall := htokens chunks.length
    rw [List.take_length, ← hlength, List.take_length] at hall
    rw [hall]
    exact scan_emitted_bounds _
  · cases h.symm.trans (putAll_of_hits chunks hgood)

/-- The accesses of every run are well formed exactly when the scan of its bytes examines no
header whose size is 8 to 11, and the only ill-formed access of any run is the inverted range of
the insertion. -/
theorem accessesWellFormed_iff (chunks : List (List UInt8)) :
    (AccessesWellFormed chunks ↔ scanner.Avoids ShortHeader chunks.flatten) ∧
      ∀ fault, putAll init chunks = .error fault → fault = .rangeInverted := by
  by_cases h : scanner.Avoids ShortHeader chunks.flatten
  · obtain ⟨outputs, hok, -⟩ := putAll_of_avoids chunks h
    refine ⟨⟨fun _ => h, fun _ fault hfault => ?_⟩, fun fault hfault => ?_⟩
    · simp [hok] at hfault
    · simp [hok] at hfault
  · have herror := putAll_of_hits chunks h
    refine ⟨⟨fun hgood => absurd herror (hgood _), fun hgood => absurd hgood h⟩,
      fun fault hfault => ?_⟩
    rw [herror] at hfault
    exact (Except.error.inj hfault).symm

/-- Twelve bytes with the marker and a size of 8 make the parser form an inverted range. -/
theorem size_eight_inverts :
    ¬ AccessesWellFormed [[0xff, 0xff, 0xff, 0xff, 0, 0, 0, 0, 8, 0, 0, 0]] := by
  intro h
  exact h .rangeInverted (putAll_of_hits _ (by decide +kernel))

/-- However a stream without short headers at examined positions is cut into chunks, the parser
delivers the datagrams of the scan of the whole stream and keeps the scan's leftover. -/
theorem putAll_refines_scan (chunks : List (List UInt8))
    (h : scanner.Avoids ShortHeader chunks.flatten) :
    ∃ outputs p, putAll init chunks = .ok (outputs, p) ∧ outputs.length = chunks.length ∧
      outputs.flatten = (scan chunks.flatten).emitted ∧
      p.parsingBuffer = (scan chunks.flatten).leftover := by
  obtain ⟨outputs, hok, hlength, htokens⟩ := putAll_of_avoids chunks h
  refine ⟨outputs, _, hok, hlength, ?_, ?_⟩
  · have hall := htokens chunks.length
    rwa [List.take_length, ← hlength, List.take_length] at hall
  · unfold rest
    split <;> rfl

/-- A garbage byte, a datagram of thirteen bytes cut inside its header, and three bytes more. -/
theorem putAll_refines_scan_cut :
    ∃ outputs p, putAll init [[7, 0xff, 0xff, 0xff, 0xff, 1, 0], [1, 0, 13, 0, 0, 0, 42, 1, 2, 3]] =
        .ok (outputs, p) ∧ outputs.length = 2 ∧
      outputs.flatten = [[0xff, 0xff, 0xff, 0xff, 1, 0, 1, 0, 13, 0, 0, 0, 42]] ∧
      p.parsingBuffer = [1, 2, 3] := by
  obtain ⟨outputs, p, hok, hlength, htokens, hleft⟩ :=
    putAll_refines_scan [[7, 0xff, 0xff, 0xff, 0xff, 1, 0], [1, 0, 13, 0, 0, 0, 42, 1, 2, 3]]
      (by decide +kernel)
  refine ⟨outputs, p, hok, hlength, htokens.trans ?_, hleft.trans ?_⟩
  · decide +kernel
  · decide +kernel

end ParserExample

end Shovel.Parsers
