import Mathlib.Tactic.Common

/-!
# Escaped symbols

A symbol that must not stand in a text is written as a mark and a letter, and
read back where these two stand side by side. The text may hold the two of
itself, and then reading is not the inverse of writing.
-/

universe u

namespace Escape

variable {α : Type u} [DecidableEq α] {c c' mark letter letter' : α} {s : List α}

/-- Writes `c` as the mark and the letter. -/
def escapeAll (c mark letter : α) (s : List α) : List α :=
  s.flatMap fun d => if d = c then [mark, letter] else [d]

/-- Reads the mark and the letter as `c`, from left to right. -/
def unescapeAll (c mark letter : α) : List α → List α
  | [] => []
  | [a] => [a]
  | a :: b :: s =>
    if a = mark ∧ b = letter then c :: unescapeAll c mark letter s
    else a :: unescapeAll c mark letter (b :: s)

theorem escapeAll_cons_self : escapeAll c mark letter (c :: s) =
    mark :: letter :: escapeAll c mark letter s := by
  simp [escapeAll]

theorem escapeAll_cons_of_ne {d : α} (h : d ≠ c) : escapeAll c mark letter (d :: s) =
    d :: escapeAll c mark letter s := by
  simp [escapeAll, h]

theorem escapeAll_of_not_mem (h : c ∉ s) : escapeAll c mark letter s = s := by
  induction s with
  | nil => rfl
  | cons d s ih =>
    have hd : d ≠ c := fun hd => h (hd ▸ List.mem_cons_self)
    rw [escapeAll_cons_of_ne hd, ih fun hs => h (List.mem_cons_of_mem d hs)]

theorem mem_escapeAll {d : α} (h : d ∈ escapeAll c mark letter s) :
    (d ∈ s ∧ d ≠ c) ∨ d = mark ∨ d = letter := by
  rw [escapeAll, List.mem_flatMap] at h
  obtain ⟨a, ha, hd⟩ := h
  by_cases hac : a = c
  · rw [if_pos hac] at hd
    exact Or.inr (by simpa using hd)
  · rw [if_neg hac, List.mem_singleton] at hd
    subst hd
    exact Or.inl ⟨ha, hac⟩

theorem unescapeAll_pair : unescapeAll c mark letter (mark :: letter :: s) =
    c :: unescapeAll c mark letter s := by
  simp [unescapeAll]

theorem unescapeAll_cons_of_ne {a : α} (h : a ≠ mark) : unescapeAll c mark letter (a :: s) =
    a :: unescapeAll c mark letter s := by
  cases s with
  | nil => rfl
  | cons b s => simp [unescapeAll, h]

theorem unescapeAll_cons_cons {a b : α} (h : ¬(a = mark ∧ b = letter)) :
    unescapeAll c mark letter (a :: b :: s) = a :: unescapeAll c mark letter (b :: s) := by
  rw [unescapeAll, if_neg h]

/-- Reading what was written is reading the text itself. -/
theorem unescapeAll_escapeAll (hmark : mark ≠ c) (hletter : letter ≠ c) (hne : mark ≠ letter)
    (s : List α) :
    unescapeAll c mark letter (escapeAll c mark letter s) = unescapeAll c mark letter s := by
  induction s using unescapeAll.induct mark letter with
  | case1 => rfl
  | case2 a =>
    by_cases ha : a = c
    · subst ha
      rw [escapeAll_cons_self, unescapeAll_pair]
      rfl
    · rw [escapeAll_cons_of_ne ha]
      rfl
  | case3 a b s hab ih =>
    obtain ⟨rfl, rfl⟩ := hab
    rw [escapeAll_cons_of_ne hmark, escapeAll_cons_of_ne hletter, unescapeAll_pair,
      unescapeAll_pair, ih]
  | case4 a b s hab ih =>
    rw [unescapeAll_cons_cons hab, ← ih]
    by_cases ha : a = c
    · subst ha
      rw [escapeAll_cons_self, unescapeAll_pair]
    · rw [escapeAll_cons_of_ne ha]
      by_cases hb : b = c
      · subst hb
        rw [escapeAll_cons_self, unescapeAll_cons_cons fun h => hne h.2]
      · rw [escapeAll_cons_of_ne hb, unescapeAll_cons_cons hab]

/-- Reading one letter does not meet the writing of another. -/
theorem unescapeAll_escapeAll_comm (hcc : c ≠ c') (hmark : mark ≠ c') (hletter : letter ≠ c')
    (hne : mark ≠ letter) (hletters : letter' ≠ letter) (hmark' : letter' ≠ mark) (s : List α) :
    unescapeAll c mark letter (escapeAll c' mark letter' s) =
      escapeAll c' mark letter' (unescapeAll c mark letter s) := by
  induction s using unescapeAll.induct mark letter with
  | case1 => rfl
  | case2 a =>
    by_cases ha : a = c'
    · subst ha
      rw [unescapeAll, escapeAll_cons_self, unescapeAll_cons_cons fun h => hletters h.2,
        unescapeAll_cons_of_ne hmark']
      rfl
    · rw [unescapeAll, escapeAll_cons_of_ne ha]
      rfl
  | case3 a b s hab ih =>
    obtain ⟨rfl, rfl⟩ := hab
    rw [escapeAll_cons_of_ne hmark, escapeAll_cons_of_ne hletter, unescapeAll_pair,
      unescapeAll_pair, escapeAll_cons_of_ne hcc, ih]
  | case4 a b s hab ih =>
    rw [unescapeAll_cons_cons hab]
    by_cases ha : a = c'
    · subst ha
      rw [escapeAll_cons_self, escapeAll_cons_self, ← ih,
        unescapeAll_cons_cons fun h => hletters h.2, unescapeAll_cons_of_ne hmark']
    · rw [escapeAll_cons_of_ne ha, escapeAll_cons_of_ne ha, ← ih]
      by_cases hb : b = c'
      · subst hb
        rw [escapeAll_cons_self, unescapeAll_cons_cons fun h => hne h.2]
      · rw [escapeAll_cons_of_ne hb, unescapeAll_cons_cons hab]

theorem length_unescapeAll_le (c mark letter : α) (s : List α) :
    (unescapeAll c mark letter s).length ≤ s.length := by
  induction s using unescapeAll.induct mark letter with
  | case1 => exact Nat.le_refl _
  | case2 a => exact Nat.le_refl _
  | case3 a b s hab ih =>
    obtain ⟨rfl, rfl⟩ := hab
    rw [unescapeAll_pair, List.length_cons, List.length_cons, List.length_cons]
    omega
  | case4 a b s hab ih =>
    rw [unescapeAll_cons_cons hab, List.length_cons, List.length_cons (a := a)]
    exact Nat.succ_le_succ ih

/-- The length tells whether there was anything to read. -/
theorem not_infix_of_length_le (h : s.length ≤ (unescapeAll c mark letter s).length) :
    ¬[mark, letter] <:+: s := by
  induction s using unescapeAll.induct mark letter with
  | case1 =>
    intro hin
    exact absurd hin.length_le (by simp)
  | case2 a =>
    intro hin
    exact absurd hin.length_le (by simp)
  | case3 a b s hab ih =>
    obtain ⟨rfl, rfl⟩ := hab
    have hle := length_unescapeAll_le c a b s
    rw [unescapeAll_pair, List.length_cons, List.length_cons, List.length_cons] at h
    omega
  | case4 a b s hab ih =>
    have htail : (b :: s).length ≤ (unescapeAll c mark letter (b :: s)).length := by
      rw [unescapeAll_cons_cons hab, List.length_cons (a := a), List.length_cons (a := a)] at h
      omega
    rw [List.infix_cons_iff]
    rintro (hpre | hin)
    · have hhead := List.cons_prefix_cons.mp hpre
      exact hab ⟨hhead.1.symm, (List.cons_prefix_cons.mp hhead.2).1.symm⟩
    · exact ih htail hin

theorem unescapeAll_eq_self (h : ¬[mark, letter] <:+: s) :
    unescapeAll c mark letter s = s := by
  induction s using unescapeAll.induct mark letter with
  | case1 => rfl
  | case2 a => rfl
  | case3 a b s hab ih =>
    obtain ⟨rfl, rfl⟩ := hab
    exact absurd ⟨[], s, rfl⟩ h
  | case4 a b s hab ih =>
    rw [unescapeAll_cons_cons hab, ih fun hin => h (List.infix_cons hin)]

end Escape
