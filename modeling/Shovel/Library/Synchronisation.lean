import Shovel.Library.TokenStreams

/-!
# Scanners that find their place again

A scanner that begins in the middle of a stream of whole tokens, or behind
symbols that belong to none, does not know where the next token begins. If it
finds no token inside another one (`Separate`), it is in step with the stream
again as soon as it has passed what it may take for a token at first. `Bounded`
limits how far that is, and `scan_behind` says that no token is lost that begins
later.
-/

namespace Incremental

universe u

namespace Scanner

variable {β : Type u} {sc : Scanner β} {bad : List β → Prop}

/-- The scanner never consumes more than `reach` symbols at once, and waits only for less. -/
structure Bounded (sc : Scanner β) (reach : Nat) : Prop where
  skips : ∀ {input count}, sc.examine input = .skip count → count ≤ reach
  emits : ∀ {input count}, sc.examine input = .emit count → count ≤ reach
  waits : ∀ {input}, sc.examine input = .wait → input.length < reach

/-- Inside a token of the stream the scanner skips symbol by symbol; inside the last one it may
wait. -/
def Separate (sc : Scanner β) : List (List β) → Prop
  | [] => True
  | token :: rest =>
      (∀ i, 0 < i → i < token.length →
        sc.examine (token.drop i ++ rest.flatten) = .skip 1 ∨
          sc.examine (token.drop i ++ rest.flatten) = .wait ∧ rest = []) ∧
        Separate sc rest

/-- A scan of the stream or of its last part: the tokens but the first `lost` ones, each of which
begins before `offset`, and nothing is left if there is one. -/
def InStep (tokens : List (List β)) (offset : Nat) (scanned : Scanned β) : Prop :=
  ∃ extra lost, scanned.emitted = extra ++ tokens.drop lost ∧
    (lost < tokens.length → scanned.leftover = []) ∧
    ∀ first < lost, (tokens.take first).flatten.length < offset

variable {tokens : List (List β)} {reach : Nat}

/-- From inside a token the scanner comes to the next one. -/
theorem scan_inside {token : List β} {rest : List (List β)}
    (hwhole : ∀ t ∈ rest, Whole sc bad t) (hseparate : Separate sc (token :: rest)) {i : Nat}
    (hpos : 0 < i) (hle : i ≤ token.length) :
    (sc.scan (token.drop i ++ rest.flatten)).emitted = rest ∧
      (rest ≠ [] → (sc.scan (token.drop i ++ rest.flatten)).leftover = []) := by
  induction hn : token.length - i generalizing i with
  | zero =>
      have hend : token.drop i = [] := List.drop_eq_nil_iff.mpr (by omega)
      rw [hend, List.nil_append, scan_tokens hwhole]
      exact ⟨rfl, fun _ => rfl⟩
  | succ n ih =>
      rcases hseparate.1 i hpos (by omega) with hskip | ⟨hwait, rfl⟩
      · have hnext : (token.drop i ++ rest.flatten).drop 1 =
            token.drop (i + 1) ++ rest.flatten := by
          rw [List.drop_append_of_le_length (by rw [List.length_drop]; omega), List.drop_drop]
        rw [scan_skip hskip, hnext]
        exact ih (by omega) (by omega) (by omega)
      · rw [scan_wait hwait]
        exact ⟨rfl, fun hsome => absurd rfl hsome⟩

/-- From any place in the stream the scanner loses only tokens that begin before it. -/
theorem scan_drop (hwhole : ∀ token ∈ tokens, Whole sc bad token) (hseparate : Separate sc tokens)
    (place : Nat) : InStep tokens place (sc.scan (tokens.flatten.drop place)) := by
  induction tokens generalizing place with
  | nil =>
      refine ⟨[], 0, ?_, nofun, nofun⟩
      rw [List.flatten_nil, List.drop_nil, scan_wait examine_nil]
      rfl
  | cons token rest ih =>
      by_cases hstart : place = 0
      · subst hstart
        rw [List.drop_zero, scan_tokens hwhole]
        exact ⟨[], 0, rfl, fun _ => rfl, nofun⟩
      · obtain ⟨-, hlater⟩ := List.forall_mem_cons.mp hwhole
        rw [List.flatten_cons]
        by_cases hinside : place < token.length
        · obtain ⟨hemitted, hleft⟩ :=
            scan_inside hlater hseparate (Nat.pos_of_ne_zero hstart) (Nat.le_of_lt hinside)
          rw [List.drop_append_of_le_length (Nat.le_of_lt hinside)]
          refine ⟨[], 1, hemitted, fun hmore => hleft ?_, fun first hfirst => ?_⟩
          · rintro rfl
            simp at hmore
          · obtain rfl : first = 0 := by omega
            simpa using Nat.pos_of_ne_zero hstart
        · -- the whole first token is behind this place
          obtain ⟨extra, lost, hemitted, hleft, hbefore⟩ :=
            ih hlater hseparate.2 (place - token.length)
          rw [List.drop_append, List.drop_of_length_le (by omega), List.nil_append]
          refine ⟨extra, lost + 1, hemitted, fun hmore => hleft ?_, fun first hfirst => ?_⟩
          · simp only [List.length_cons] at hmore
            omega
          · cases first with
            | zero => simpa using Nat.pos_of_ne_zero hstart
            | succ first =>
                have hlast := hbefore first (by omega)
                simp only [List.take_succ_cons, List.flatten_cons, List.length_append]
                omega

/-- Tokens in front of a scan leave it in step. -/
theorem InStep.behind {offset : Nat} {scanned : Scanned β} (h : InStep tokens offset scanned)
    (token : List β) : InStep tokens offset ⟨token :: scanned.emitted, scanned.leftover⟩ := by
  obtain ⟨extra, lost, hemitted, hleft, hbefore⟩ := h
  exact ⟨token :: extra, lost, by rw [hemitted]; rfl, hleft, hbefore⟩

/-- Consuming some symbols in front of the stream, or in front and in its first part. -/
theorem inStep_of_consumed (hwhole : ∀ token ∈ tokens, Whole sc bad token)
    (hseparate : Separate sc tokens) {front : List β} {count : Nat} (hfront : front ≠ [])
    (hcount : count ≤ reach)
    (hshorter : count < front.length →
      InStep tokens reach (sc.scan (front.drop count ++ tokens.flatten))) :
    InStep tokens reach (sc.scan ((front ++ tokens.flatten).drop count)) := by
  by_cases hinside : count < front.length
  · rw [List.drop_append_of_le_length (Nat.le_of_lt hinside)]
    exact hshorter hinside
  · have hpos := List.length_pos_iff.mpr hfront
    obtain ⟨extra, lost, hemitted, hleft, hbefore⟩ :=
      scan_drop hwhole hseparate (count - front.length)
    rw [List.drop_append, List.drop_of_length_le (by omega), List.nil_append]
    refine ⟨extra, lost, hemitted, hleft, fun first hfirst => ?_⟩
    have hplace := hbefore first hfirst
    omega

/-- Whatever is in front of a stream of separate tokens: a bounded scanner loses at most tokens
that begin less than its reach behind it. -/
theorem scan_behind (hbounded : Bounded sc reach) (hwhole : ∀ token ∈ tokens, Whole sc bad token)
    (hseparate : Separate sc tokens) (front : List β) :
    InStep tokens reach (sc.scan (front ++ tokens.flatten)) := by
  induction hn : front.length using Nat.strongRecOn generalizing front with
  | ind n ih =>
      by_cases hfront : front = []
      · obtain ⟨extra, lost, hemitted, hleft, hbefore⟩ := scan_drop hwhole hseparate 0
        rw [hfront]
        refine ⟨extra, lost, hemitted, hleft, fun first hfirst => ?_⟩
        exact absurd (hbefore first hfirst) (Nat.not_lt_zero _)
      · have hshorter : ∀ count, 0 < count → count < front.length →
            InStep tokens reach (sc.scan (front.drop count ++ tokens.flatten)) := by
          intro count hpos hinside
          refine ih (front.length - count) (by omega) _ ?_
          rw [List.length_drop]
        cases hverdict : sc.examine (front ++ tokens.flatten) with
        | wait =>
            -- the scanner waits in front of the stream, which is then short
            have hshort := hbounded.waits hverdict
            rw [List.length_append] at hshort
            rw [scan_wait hverdict]
            refine ⟨[], tokens.length, by simp, fun h => absurd h (Nat.lt_irrefl _), ?_⟩
            intro first _
            have hsplit : tokens.flatten =
                (tokens.take first).flatten ++ (tokens.drop first).flatten := by
              rw [← List.flatten_append, List.take_append_drop]
            rw [hsplit, List.length_append] at hshort
            omega
        | skip count =>
            rw [scan_skip hverdict]
            exact inStep_of_consumed hwhole hseparate hfront (hbounded.skips hverdict)
              (hshorter count (sc.skip_bounds hverdict).1)
        | emit count =>
            rw [scan_emit hverdict]
            exact (inStep_of_consumed hwhole hseparate hfront (hbounded.emits hverdict)
              (hshorter count (sc.emit_bounds hverdict).1)).behind _

end Scanner

end Incremental
