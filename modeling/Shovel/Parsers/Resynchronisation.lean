import Mathlib.Tactic.IntervalCases
import Shovel.Library.Synchronisation
import Shovel.Parsers.Forwarding
import Shovel.Parsers.Garbage

/-!
# Finding the datagrams again

A parser that is attached to a running stream, or that has been fed with other
bytes before, takes the first header that it finds for one, and what follows for
its datagram. Where no header can be found inside a datagram it is back in step
once that datagram has been passed: it loses only datagrams that begin less than
65535 bytes behind the foreign bytes.
-/

namespace Shovel.Parsers

open Incremental Scanner

/-- At no byte inside one of the datagrams an accepted header begins, those of the following
datagrams included. -/
def Unmistakable : List (List UInt8) → Prop
  | [] => True
  | d :: rest =>
      (∀ i < d.length, 0 < i → ¬ ParserExample.AcceptedWindow (d.drop i ++ rest.flatten)) ∧
        Unmistakable rest

namespace ParserExample

/-- A header that is accepted begins with the marker and has its twelve bytes. -/
instance (bytes : List UInt8) : Decidable (AcceptedWindow bytes) :=
  inferInstanceAs (Decidable (_ ∧ _))

/-- The scanner consumes at most one datagram at once, and waits for one at most. -/
theorem scanner_bounded : Bounded scanner uint16Max where
  skips h := by
    obtain ⟨rfl, -, -⟩ := examine_skip h
    decide
  emits h := by
    obtain ⟨rfl, -, -, -⟩ := examine_emit h
    exact sizeField_le _
  waits h := by
    rcases examine_wait h with hfew | ⟨-, -, hshort⟩
    · exact Nat.lt_trans hfew (by decide)
    · exact Nat.lt_of_lt_of_le hshort (sizeField_le _)

/-- Datagrams that cannot be mistaken are separate tokens of the scanner. -/
theorem separate_of_unmistakable {datagrams : List (List UInt8)}
    (hformed : ∀ d ∈ datagrams, WellFormed d) (h : Unmistakable datagrams) :
    Separate scanner datagrams := by
  induction datagrams with
  | nil => trivial
  | cons d rest ih =>
      obtain ⟨-, hlater⟩ := List.forall_mem_cons.mp hformed
      refine ⟨fun i hpos hinside => ?_, ih hlater h.2⟩
      have hnone := h.1 i hinside hpos
      by_cases hlength : sizeofDataHead ≤ (d.drop i ++ rest.flatten).length
      · have hreject : ¬ AcceptsHeader (d.drop i ++ rest.flatten) := fun haccept =>
          hnone ⟨hlength, haccept⟩
        left
        show examine _ = _
        rw [examine, if_neg (Nat.not_lt.mpr hlength), if_neg hreject]
      · have hfew := Nat.lt_of_not_le hlength
        refine .inr ⟨?_, ?_⟩
        · show examine _ = _
          rw [examine, if_pos hfew]
        · -- another datagram would have twelve bytes of its own
          cases rest with
          | nil => rfl
          | cons next rest =>
              have hlow := (hlater next List.mem_cons_self).low
              simp only [List.flatten_cons, List.length_append] at hfew
              omega

/-- The header of a frame and a payload in which the marker neither occurs nor begins hide no other
header. -/
theorem not_hasMainWord_inside (sent : Transmission) (hunmarked : Unmarked sent.payload)
    (hlast : ∀ h : sent.payload ≠ [], sent.payload.getLast h ≠ 0xff) (more : List UInt8) {i : Nat}
    (hpos : 0 < i) (hinside : i < sent.frame.length) :
    ¬ hasMainWord (sent.frame.drop i ++ more) := by
  have hlength := sent.length_frame
  simp only [sizeofDataHead] at hlength
  rw [sent.frame_bytes]
  by_cases hhead : i < 12
  · interval_cases i
    all_goals simp [hasMainWord]
  · obtain ⟨k, rfl⟩ := Nat.exists_eq_add_of_le (Nat.not_lt.mp hhead)
    have hpayload : k < sent.payload.length := by omega
    have hnone := not_hasMainWord_head (k := 0) (by simpa using hunmarked) hlast more k hpayload
    rw [List.drop_append_of_le_length (Nat.le_of_lt hpayload)] at hnone
    rwa [Nat.add_comm]

/-- Frames with such payloads cannot be mistaken. -/
theorem unmistakable_frames {sents : List Transmission}
    (h : ∀ sent ∈ sents, Unmarked sent.payload ∧
      ∀ hsome : sent.payload ≠ [], sent.payload.getLast hsome ≠ 0xff) :
    Unmistakable (sents.map (·.frame)) := by
  induction sents with
  | nil => trivial
  | cons sent rest ih =>
      obtain ⟨⟨hunmarked, hlast⟩, hlater⟩ := List.forall_mem_cons.mp h
      refine ⟨fun i hinside hpos hwindow => ?_, ih hlater⟩
      exact not_hasMainWord_inside sent hunmarked hlast _ hpos hinside hwindow.2.1

end ParserExample

end Shovel.Parsers
