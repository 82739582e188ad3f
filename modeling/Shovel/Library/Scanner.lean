import Mathlib.Data.List.Basic

/-!
# Resumable scanners

A `Scanner` looks at the front of a string and decides to wait for more input,
to skip some symbols or to emit some symbols as a token. Its decision may not
change when more input arrives behind it. `Scanner.scan` repeats the decision
until the scanner waits. `Scanner.scan_append` says that a scan can be resumed
from its leftover, and `Tracks.feed_spec` that a stateful receiver which keeps
only the leftover produces the tokens of the whole stream, however the stream
is cut into chunks.
-/

namespace Incremental

universe u v w

/-- What a scanner does at the front of its input. -/
inductive Verdict where
  | wait
  | skip (count : Nat)
  | emit (count : Nat)
  deriving DecidableEq, Repr

/-- A scanner's decision function. A skip or an emission consumes at least one symbol of the
input, and a decision other than to wait is final. -/
structure Scanner (β : Type u) where
  examine : List β → Verdict
  skip_bounds : ∀ {input count}, examine input = .skip count →
    0 < count ∧ count ≤ input.length
  emit_bounds : ∀ {input count}, examine input = .emit count →
    0 < count ∧ count ≤ input.length
  stable : ∀ {input} (more), examine input ≠ .wait → examine (input ++ more) = examine input

/-- The tokens a scan emits and the input at which it waits. -/
structure Scanned (β : Type u) where
  emitted : List (List β)
  leftover : List β
  deriving DecidableEq, Repr

namespace Scanner

variable {β : Type u} (sc : Scanner β)

/-- Repeat the scanner's decision until it waits. -/
def scan (input : List β) : Scanned β :=
  match _h : sc.examine input with
  | .wait => ⟨[], input⟩
  | .skip count => scan (input.drop count)
  | .emit count =>
      let rest := scan (input.drop count)
      ⟨input.take count :: rest.emitted, rest.leftover⟩
termination_by input.length
decreasing_by
  · have := sc.skip_bounds _h
    simp only [List.length_drop]
    omega
  · have := sc.emit_bounds _h
    simp only [List.length_drop]
    omega

/-- The suffixes of the input that the scan examines, in order. -/
def visited (input : List β) : List (List β) :=
  match _h : sc.examine input with
  | .wait => [input]
  | .skip count => input :: visited (input.drop count)
  | .emit count => input :: visited (input.drop count)
termination_by input.length
decreasing_by
  · have := sc.skip_bounds _h
    simp only [List.length_drop]
    omega
  · have := sc.emit_bounds _h
    simp only [List.length_drop]
    omega

/-- No suffix that the scan examines is `bad`. -/
def Avoids (bad : List β → Prop) (input : List β) : Prop :=
  ∀ suffix ∈ sc.visited input, ¬ bad suffix

instance (bad : List β → Prop) [DecidablePred bad] (input : List β) :
    Decidable (sc.Avoids bad input) :=
  inferInstanceAs (Decidable (∀ suffix ∈ sc.visited input, ¬ bad suffix))

variable {sc} {input : List β} {count : Nat}

theorem scan_wait (h : sc.examine input = .wait) : sc.scan input = ⟨[], input⟩ := by
  rw [scan]
  split <;> simp_all

theorem scan_skip (h : sc.examine input = .skip count) :
    sc.scan input = sc.scan (input.drop count) := by
  rw [scan]
  split <;> simp_all

theorem scan_emit (h : sc.examine input = .emit count) :
    sc.scan input = ⟨input.take count :: (sc.scan (input.drop count)).emitted,
      (sc.scan (input.drop count)).leftover⟩ := by
  rw [scan]
  split <;> simp_all

theorem visited_wait (h : sc.examine input = .wait) : sc.visited input = [input] := by
  rw [visited]
  split <;> simp_all

theorem visited_skip (h : sc.examine input = .skip count) :
    sc.visited input = input :: sc.visited (input.drop count) := by
  rw [visited]
  split <;> simp_all

theorem visited_emit (h : sc.examine input = .emit count) :
    sc.visited input = input :: sc.visited (input.drop count) := by
  rw [visited]
  split <;> simp_all

variable (sc) in
/-- Induction along a scan: one case for each verdict. -/
theorem scan_induction {motive : List β → Prop}
    (wait : ∀ input, sc.examine input = .wait → motive input)
    (skip : ∀ input count, sc.examine input = .skip count →
      motive (input.drop count) → motive input)
    (emit : ∀ input count, sc.examine input = .emit count →
      motive (input.drop count) → motive input) (input : List β) : motive input := by
  induction hn : input.length using Nat.strongRecOn generalizing input with
  | ind n ih =>
      cases h : sc.examine input with
      | wait => exact wait input h
      | skip count =>
          have hb := sc.skip_bounds h
          exact skip input count h (ih _ (by simp only [List.length_drop]; omega) _ rfl)
      | emit count =>
          have hb := sc.emit_bounds h
          exact emit input count h (ih _ (by simp only [List.length_drop]; omega) _ rfl)

/-- A scan ends where the scanner waits. -/
theorem examine_leftover (input : List β) :
    sc.examine (sc.scan input).leftover = .wait := by
  induction input using sc.scan_induction with
  | wait input h => rw [scan_wait h]; exact h
  | skip input count h ih => rw [scan_skip h]; exact ih
  | emit input count h ih => rw [scan_emit h]; exact ih

/-- A scan can be stopped anywhere and resumed from its leftover. -/
theorem scan_append (input more : List β) :
    sc.scan (input ++ more) =
      ⟨(sc.scan input).emitted ++ (sc.scan ((sc.scan input).leftover ++ more)).emitted,
        (sc.scan ((sc.scan input).leftover ++ more)).leftover⟩ := by
  induction input using sc.scan_induction with
  | wait input h => simp [scan_wait h]
  | skip input count h ih =>
      have hlater : sc.examine (input ++ more) = .skip count := by
        rw [sc.stable more (by simp [h]), h]
      rw [scan_skip h, scan_skip hlater,
        List.drop_append_of_le_length (sc.skip_bounds h).2, ih]
  | emit input count h ih =>
      have hlater : sc.examine (input ++ more) = .emit count := by
        rw [sc.stable more (by simp [h]), h]
      rw [scan_emit h, scan_emit hlater, List.drop_append_of_le_length (sc.emit_bounds h).2,
        List.take_append_of_le_length (sc.emit_bounds h).2, ih]
      rfl

/-- Every token of a scan was emitted in front of some input. -/
theorem examine_emitted (input : List β) :
    ∀ token ∈ (sc.scan input).emitted, ∃ more, sc.examine (token ++ more) = .emit token.length := by
  induction input using sc.scan_induction with
  | wait input h =>
      rw [scan_wait h]
      exact nofun
  | skip input count h ih => rwa [scan_skip h]
  | emit input count h ih =>
      have hbounds := sc.emit_bounds h
      rw [scan_emit h]
      refine List.forall_mem_cons.mpr ⟨⟨input.drop count, ?_⟩, ih⟩
      rw [List.take_append_drop, h, List.length_take, Nat.min_eq_left hbounds.2]

section Discarded

/-- The positions of the symbols that are skipped, when the skipped strings are `gap` in front of
the first token and the second components of `parts` behind the tokens. -/
def discardedFrom (start : Nat) (gap : List β) : List (List β × List β) → List Nat
  | [] => List.range' start gap.length
  | (token, next) :: rest =>
      List.range' start gap.length ++
        discardedFrom (start + gap.length + token.length) next rest

theorem discardedFrom_cons (start : Nat) (symbol : β) (gap : List β)
    (parts : List (List β × List β)) :
    discardedFrom start (symbol :: gap) parts = start :: discardedFrom (start + 1) gap parts := by
  cases parts with
  | nil => rfl
  | cons part rest =>
      have hshift : start + (gap.length + 1) = start + 1 + gap.length := by omega
      simp only [discardedFrom, List.length_cons, List.range'_succ, hshift, List.cons_append]

theorem discardedFrom_nil_cons (start : Nat) (token next : List β)
    (rest : List (List β × List β)) :
    discardedFrom start [] ((token, next) :: rest) =
      discardedFrom (start + token.length) next rest := by
  simp [discardedFrom]

/-- A scanner that skips one symbol at a time accounts for its whole input: the skipped strings,
the tokens between them and the leftover make it up, and it examined every skipped symbol. -/
theorem scan_accounts (hone : ∀ {input count}, sc.examine input = .skip count → count = 1)
    (input : List β) :
    ∃ gap parts, (sc.scan input).emitted = parts.map Prod.fst ∧
      input = gap ++ (parts.flatMap (fun part => part.1 ++ part.2) ++ (sc.scan input).leftover) ∧
      ∀ (whole : List β) (start : Nat), whole.drop start = input →
        ∀ k ∈ discardedFrom start gap parts, sc.examine (whole.drop k) = .skip 1 := by
  induction input using sc.scan_induction with
  | wait input h =>
      refine ⟨[], [], ?_, ?_, ?_⟩
      · rw [scan_wait h]
        rfl
      · rw [scan_wait h]
        rfl
      · exact nofun
  | skip input count h ih =>
      obtain rfl := hone h
      obtain ⟨gap, parts, hemitted, hbytes, hskipped⟩ := ih
      rw [scan_skip h]
      cases input with
      | nil => exact absurd (sc.skip_bounds h).2 (by simp)
      | cons symbol rest =>
          refine ⟨symbol :: gap, parts, hemitted, congrArg (symbol :: ·) hbytes, ?_⟩
          intro whole start hstart k hk
          rw [discardedFrom_cons] at hk
          rcases List.mem_cons.mp hk with rfl | hlater
          · rw [hstart, h]
          · refine hskipped whole (start + 1) ?_ k hlater
            rw [← List.drop_drop, hstart]
  | emit input count h ih =>
      obtain ⟨gap, parts, hemitted, hbytes, hskipped⟩ := ih
      have hbounds := sc.emit_bounds h
      have hlength : (input.take count).length = count := by
        rw [List.length_take, Nat.min_eq_left hbounds.2]
      rw [scan_emit h]
      refine ⟨[], (input.take count, gap) :: parts, by rw [hemitted]; rfl, ?_, ?_⟩
      · rw [List.nil_append, List.flatMap_cons, List.append_assoc, List.append_assoc, ← hbytes,
          List.take_append_drop]
      · intro whole start hstart k hk
        rw [discardedFrom_nil_cons, hlength] at hk
        refine hskipped whole (start + count) ?_ k hk
        rw [← List.drop_drop, hstart]

end Discarded

section Avoids

variable {bad : List β → Prop}

theorem avoids_wait (h : sc.examine input = .wait) : sc.Avoids bad input ↔ ¬ bad input := by
  simp [Avoids, visited_wait h]

theorem avoids_skip (h : sc.examine input = .skip count) :
    sc.Avoids bad input ↔ ¬ bad input ∧ sc.Avoids bad (input.drop count) := by
  simp [Avoids, visited_skip h]

theorem avoids_emit (h : sc.examine input = .emit count) :
    sc.Avoids bad input ↔ ¬ bad input ∧ sc.Avoids bad (input.drop count) := by
  simp [Avoids, visited_emit h]

variable (sc) in
/-- Whether the front of an input is `bad` is settled once the scanner stops waiting there. -/
structure Settled (bad : List β → Prop) : Prop where
  not_wait : ∀ {input}, bad input → sc.examine input ≠ .wait
  stable : ∀ {input} (more), sc.examine input ≠ .wait → (bad (input ++ more) ↔ bad input)

/-- A scan that is stopped and resumed examines no bad suffix exactly when neither part
does. -/
theorem avoids_append (hbad : sc.Settled bad) (input more : List β) :
    sc.Avoids bad (input ++ more) ↔
      sc.Avoids bad input ∧ sc.Avoids bad ((sc.scan input).leftover ++ more) := by
  induction input using sc.scan_induction with
  | wait input h =>
      have hgood : ¬ bad input := fun hb => hbad.not_wait hb h
      simp [avoids_wait h, scan_wait h, hgood]
  | skip input count h ih =>
      have hne : sc.examine input ≠ .wait := by simp [h]
      have hlater : sc.examine (input ++ more) = .skip count := by rw [sc.stable more hne, h]
      rw [avoids_skip hlater, avoids_skip h, scan_skip h, hbad.stable more hne,
        List.drop_append_of_le_length (sc.skip_bounds h).2, ih, and_assoc]
  | emit input count h ih =>
      have hne : sc.examine input ≠ .wait := by simp [h]
      have hlater : sc.examine (input ++ more) = .emit count := by rw [sc.stable more hne, h]
      rw [avoids_emit hlater, avoids_emit h, scan_emit h, hbad.stable more hne,
        List.drop_append_of_le_length (sc.emit_bounds h).2, ih, and_assoc]

end Avoids

end Scanner

/-! ## Receivers that are fed in chunks -/

section Feed

variable {β : Type u} {σ : Type v} {ε : Type w}

/-- Feed the chunks one by one, collecting the tokens of each call. -/
def feed (put : σ → List β → Except ε (List (List β) × σ)) :
    σ → List (List β) → Except ε (List (List (List β)) × σ)
  | state, [] => .ok ([], state)
  | state, chunk :: rest => do
      let (tokens, following) ← put state chunk
      let (later, final) ← feed put following rest
      pure (tokens :: later, final)

variable {put : σ → List β → Except ε (List (List β) × σ)}

theorem feed_cons_ok {state following : σ} {chunk : List β} {tokens : List (List β)}
    (rest : List (List β)) (h : put state chunk = .ok (tokens, following)) :
    feed put state (chunk :: rest) =
      (feed put following rest).map fun later => (tokens :: later.1, later.2) := by
  simp only [feed, h, bind, Except.bind]
  cases feed put following rest <;> rfl

theorem feed_cons_error {state : σ} {chunk : List β} {fault : ε}
    (rest : List (List β)) (h : put state chunk = .error fault) :
    feed put state (chunk :: rest) = .error fault := by
  simp [feed, h, bind, Except.bind]

/-- Feeding `first ++ second` is feeding `first` and then `second`. -/
theorem feed_append (first second : List (List β)) (state : σ) :
    feed put state (first ++ second) = (do
      let (earlier, middle) ← feed put state first
      let (later, final) ← feed put middle second
      pure (earlier ++ later, final)) := by
  induction first generalizing state with
  | nil => cases h : feed put state second <;> simp [feed, h, bind, Except.bind, pure, Except.pure]
  | cons chunk rest ih =>
      cases hchunk : put state chunk with
      | error fault => simp [feed, hchunk, bind, Except.bind]
      | ok result =>
          obtain ⟨tokens, following⟩ := result
          rw [List.cons_append, feed_cons_ok _ hchunk, feed_cons_ok _ hchunk, ih]
          cases hrest : feed put following rest with
          | error fault => rfl
          | ok later =>
              cases hlast : feed put later.2 second <;>
                simp [hlast, Except.map, bind, Except.bind, pure, Except.pure]

/-- The receiver `put` tracks the scanner `sc` when a state related to the leftover of a scan
answers a chunk with the tokens of the resumed scan, and ends with `fault` when the resumed scan
would examine a `bad` suffix. -/
structure Tracks (sc : Scanner β) (bad : List β → Prop) (fault : ε)
    (put : σ → List β → Except ε (List (List β) × σ)) (At : σ → List β → Prop) : Prop where
  waits : ∀ {state left}, At state left → sc.examine left = .wait
  settled : sc.Settled bad
  put_ok : ∀ {state left} (chunk), At state left → sc.Avoids bad (left ++ chunk) →
    ∃ following, put state chunk = .ok ((sc.scan (left ++ chunk)).emitted, following) ∧
      At following (sc.scan (left ++ chunk)).leftover
  put_error : ∀ {state left} (chunk), At state left → ¬ sc.Avoids bad (left ++ chunk) →
    put state chunk = .error fault

namespace Tracks

variable {sc : Scanner β} {bad : List β → Prop} {fault : ε} {At : σ → List β → Prop}

/-- Feeding chunks whose concatenation is scanned without a bad suffix succeeds. After every
number of calls the tokens so far are those of the scan of the chunks so far, and the final
state is related to the leftover of the whole scan. -/
theorem feed_spec (h : Tracks sc bad fault put At) (chunks : List (List β)) {state : σ}
    {left : List β} (hat : At state left) (hgood : sc.Avoids bad (left ++ chunks.flatten)) :
    ∃ outputs final, feed put state chunks = .ok (outputs, final) ∧
      outputs.length = chunks.length ∧
      (∀ calls, (outputs.take calls).flatten =
        (sc.scan (left ++ (chunks.take calls).flatten)).emitted) ∧
      At final (sc.scan (left ++ chunks.flatten)).leftover := by
  induction chunks generalizing state left with
  | nil =>
      have hscan := Scanner.scan_wait (h.waits hat)
      refine ⟨[], state, rfl, rfl, fun calls => ?_, ?_⟩
      · simp [hscan]
      · simpa [hscan] using hat
  | cons chunk rest ih =>
      rw [List.flatten_cons, ← List.append_assoc,
        Scanner.avoids_append h.settled] at hgood
      obtain ⟨following, hput, hnext⟩ := h.put_ok chunk hat hgood.1
      obtain ⟨later, final, hfeed, hlength, htokens, hfinal⟩ := ih hnext hgood.2
      refine ⟨(sc.scan (left ++ chunk)).emitted :: later, final, ?_, by simp [hlength],
        fun calls => ?_, ?_⟩
      · rw [feed_cons_ok rest hput, hfeed]
        rfl
      · cases calls with
        | zero => simp [Scanner.scan_wait (h.waits hat)]
        | succ calls =>
            rw [List.take_succ_cons, List.take_succ_cons, List.flatten_cons, List.flatten_cons,
              ← List.append_assoc left, Scanner.scan_append (left ++ chunk), htokens]
      · rw [List.flatten_cons, ← List.append_assoc left, Scanner.scan_append (left ++ chunk)]
        exact hfinal

/-- Feeding chunks whose concatenation makes the scan examine a bad suffix faults. -/
theorem feed_error (h : Tracks sc bad fault put At) (chunks : List (List β)) {state : σ}
    {left : List β} (hat : At state left) (hbad : ¬ sc.Avoids bad (left ++ chunks.flatten)) :
    feed put state chunks = .error fault := by
  induction chunks generalizing state left with
  | nil =>
      have hwait := h.waits hat
      have hgood : sc.Avoids bad left :=
        (Scanner.avoids_wait hwait).mpr fun hb => h.settled.not_wait hb hwait
      exact absurd (by simpa using hgood) hbad
  | cons chunk rest ih =>
      by_cases hchunk : sc.Avoids bad (left ++ chunk)
      · obtain ⟨following, hput, hnext⟩ := h.put_ok chunk hat hchunk
        rw [List.flatten_cons, ← List.append_assoc,
          Scanner.avoids_append h.settled] at hbad
        have hfault := ih hnext fun hrest => hbad ⟨hchunk, hrest⟩
        rw [feed_cons_ok rest hput, hfault]
        rfl
      · exact feed_cons_error rest (h.put_error chunk hat hchunk)

end Tracks

end Feed

end Incremental
