import Shovel.Library.Scanner

/-!
# Streams of whole tokens

A sender that puts nothing but complete tokens on a stream makes the receiver's
work easy: the scan of every prefix of the stream emits exactly the tokens that
end inside the prefix (`scan_take_tokens`). A token is `Whole` when the scanner
emits it whatever follows it and waits for the rest of it while it is cut off.
-/

namespace Incremental

universe u

namespace Scanner

variable {β : Type u} {sc : Scanner β} {bad : List β → Prop}

/-- A string that the scanner emits as one token, whatever follows it, and that it waits for while
it is cut off. -/
structure Whole (sc : Scanner β) (bad : List β → Prop) (token : List β) : Prop where
  emits : ∀ more, sc.examine (token ++ more) = .emit token.length
  waits : ∀ limit < token.length, sc.examine (token.take limit) = .wait
  good : ∀ more, ¬ bad (token ++ more)

/-- The tokens whose last symbol is among the first `limit` symbols of their concatenation. -/
def tokensWithin (limit : Nat) : List (List β) → List (List β)
  | [] => []
  | token :: rest =>
      if token.length ≤ limit then token :: tokensWithin (limit - token.length) rest else []

variable {tokens : List (List β)} {limit : Nat}

/-- The tokens within a limit are the first ones. -/
theorem tokensWithin_starts (limit : Nat) (tokens : List (List β)) :
    tokensWithin limit tokens <+: tokens := by
  induction tokens generalizing limit with
  | nil => exact List.prefix_refl _
  | cons token rest ih =>
      rw [tokensWithin]
      split
      · exact (List.prefix_cons_inj token).mpr (ih _)
      · exact List.nil_prefix

/-- The first tokens are within a limit that their symbols do not exceed. -/
theorem take_starts_tokensWithin {count : Nat}
    (h : (tokens.take count).flatten.length ≤ limit) :
    tokens.take count <+: tokensWithin limit tokens := by
  induction tokens generalizing limit count with
  | nil => simp [tokensWithin]
  | cons token rest ih =>
      cases count with
      | zero => exact List.nil_prefix
      | succ count =>
          simp only [List.take_succ_cons, List.flatten_cons, List.length_append] at h ⊢
          rw [tokensWithin, if_pos (by omega)]
          exact (List.prefix_cons_inj token).mpr (ih (by omega))

/-- All tokens are within the length of their concatenation. -/
theorem tokensWithin_all (h : tokens.flatten.length ≤ limit) :
    tokensWithin limit tokens = tokens := by
  have hall : tokens.take tokens.length <+: tokensWithin limit tokens :=
    take_starts_tokensWithin (by rwa [List.take_length])
  rw [List.take_length] at hall
  exact (tokensWithin_starts limit tokens).eq_of_length_le hall.length_le

/-- Within the length of the first tokens are just these, if no later one is empty. -/
theorem tokensWithin_flatten {later : List (List β)} (hne : ∀ token ∈ later, token ≠ []) :
    tokensWithin tokens.flatten.length (tokens ++ later) = tokens := by
  induction tokens with
  | nil =>
      cases later with
      | nil => rfl
      | cons token rest =>
          have hfirst : token ≠ [] := hne token List.mem_cons_self
          rw [List.nil_append, tokensWithin, if_neg (by simpa using hfirst)]
  | cons token rest ih =>
      rw [List.cons_append, tokensWithin, List.flatten_cons, List.length_append,
        if_pos (Nat.le_add_right _ _), Nat.add_sub_cancel_left, ih]

/-- At the end of the input the scanner waits. -/
theorem examine_nil : sc.examine [] = .wait := by
  cases h : sc.examine [] with
  | wait => rfl
  | skip count =>
      have hbounds := sc.skip_bounds h
      simp only [List.length_nil] at hbounds
      omega
  | emit count =>
      have hbounds := sc.emit_bounds h
      simp only [List.length_nil] at hbounds
      omega

/-- An input at which the scanner waits holds no token and nothing bad. -/
theorem scan_of_wait (hbad : sc.Settled bad) {input : List β} (h : sc.examine input = .wait) :
    (sc.scan input).emitted = [] ∧ sc.Avoids bad input :=
  ⟨by rw [scan_wait h], (avoids_wait h).mpr fun hb => hbad.not_wait hb h⟩

/-- The scan of the first symbols of a stream of whole tokens emits the tokens that end among them,
and examines nothing bad. -/
theorem scan_take_tokens (hbad : sc.Settled bad) (hwhole : ∀ token ∈ tokens, Whole sc bad token)
    (limit : Nat) :
    (sc.scan (tokens.flatten.take limit)).emitted = tokensWithin limit tokens ∧
      sc.Avoids bad (tokens.flatten.take limit) := by
  induction tokens generalizing limit with
  | nil => simpa [tokensWithin] using scan_of_wait hbad examine_nil
  | cons token rest ih =>
      obtain ⟨hfirst, hlater⟩ := List.forall_mem_cons.mp hwhole
      rw [List.flatten_cons, tokensWithin]
      by_cases hfits : token.length ≤ limit
      · -- the token is complete: it is emitted, and the rest is a shorter stream
        have hsplit : (token ++ rest.flatten).take limit =
            token ++ rest.flatten.take (limit - token.length) := by
          rw [List.take_append, List.take_of_length_le hfits]
        have hemit := hfirst.emits (rest.flatten.take (limit - token.length))
        obtain ⟨hrest, havoids⟩ := ih hlater (limit - token.length)
        rw [hsplit, scan_emit hemit, List.take_left, List.drop_left, hrest, if_pos hfits]
        refine ⟨rfl, (avoids_emit hemit).mpr ⟨hfirst.good _, ?_⟩⟩
        rwa [List.drop_left]
      · -- the token is cut off: the scanner waits for its rest
        rw [List.take_append_of_le_length (by omega), if_neg hfits]
        exact scan_of_wait hbad (hfirst.waits limit (by omega))

/-- The scan of a whole stream of tokens emits them and leaves nothing. -/
theorem scan_tokens (hwhole : ∀ token ∈ tokens, Whole sc bad token) :
    sc.scan tokens.flatten = ⟨tokens, []⟩ := by
  induction tokens with
  | nil => exact scan_wait examine_nil
  | cons token rest ih =>
      obtain ⟨hfirst, hlater⟩ := List.forall_mem_cons.mp hwhole
      rw [List.flatten_cons, scan_emit (hfirst.emits _), List.take_left, List.drop_left,
        ih hlater]

end Scanner

end Incremental
