import Mathlib.Computability.Language

/-!
# Viable prefixes

A text is viable when it can be completed to a word of the language. In a text
that is not viable there is one byte at which it stops being so, and this is
where an error belongs.
-/

namespace ViablePrefix

universe u

variable {α : Type u} {L M : Language α} {u v w : List α} {a : α} {i j : Nat}

/-- The text begins some word of the language. -/
def Viable (L : Language α) (w : List α) : Prop := ∃ v, w ++ v ∈ L

namespace Viable

theorem of_mem (h : w ∈ L) : Viable L w := ⟨[], (List.append_nil w).symm ▸ h⟩

theorem of_append (h : Viable L (u ++ v)) : Viable L u := by
  obtain ⟨z, hz⟩ := h
  exact ⟨v ++ z, List.append_assoc u v z ▸ hz⟩

theorem take (h : Viable L w) (i : Nat) : Viable L (w.take i) := by
  rw [← List.take_append_drop i w] at h
  exact h.of_append

/-- After a text that is continued by the words of another language. -/
theorem append_iff (hcut : ∀ w, u ++ w ∈ L ↔ w ∈ M) : Viable L (u ++ v) ↔ Viable M v :=
  exists_congr fun w => by rw [List.append_assoc, hcut]

end Viable

/-- The letter at `i` is the first that cannot continue a word of the language. -/
structure Offends (L : Language α) (w : List α) (i : Nat) : Prop where
  lt : i < w.length
  before : Viable L (w.take i)
  here : ¬Viable L (w.take (i + 1))

namespace Offends

theorem of_stuck (hu : Viable L u) (ha : ¬Viable L (u ++ [a])) :
    Offends L (u ++ a :: v) u.length := by
  refine ⟨by simp, ?_, ?_⟩
  · rwa [List.take_left]
  · rwa [List.take_length_add_append]

theorem append (hcut : ∀ w, u ++ w ∈ L ↔ w ∈ M) (h : Offends M v i) :
    Offends L (u ++ v) (u.length + i) := by
  refine ⟨?_, ?_, ?_⟩
  · rw [List.length_append]
    exact Nat.add_lt_add_left h.lt _
  · rw [List.take_length_add_append]
    exact (Viable.append_iff hcut).mpr h.before
  · rw [Nat.add_assoc, List.take_length_add_append]
    exact fun hviable => h.here ((Viable.append_iff hcut).mp hviable)

/-- A text that goes on with a word of the language does not fail where it still does. -/
theorem not_of_viable (hu : Viable L u) (hi : i < u.length) : ¬Offends L (u ++ v) i := by
  intro h
  apply h.here
  rw [List.take_append_of_le_length hi]
  exact hu.take (i + 1)

end Offends

end ViablePrefix
