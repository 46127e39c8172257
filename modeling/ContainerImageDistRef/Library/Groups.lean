import Mathlib.Data.List.DropRight
import Mathlib.Data.List.Infix
import ContainerImageDistRef.Library.SeparatedList

/-!
# Groups joined by a separator

A scanner that counts separators sees no groups. What it can know of the text
it has read is how many separators there were, how many it ends with, and
whether two of them stood in a row; the lemmas below turn this back into the
groups between them.
-/

namespace Groups

universe u

variable {α : Type u}

/-- How many symbols with `p` a list ends with. -/
def trailing (p : α → Bool) (w : List α) : Nat := (w.rtakeWhile p).length

@[simp] theorem trailing_nil (p : α → Bool) : trailing p [] = 0 := rfl

@[simp] theorem trailing_concat (p : α → Bool) (w : List α) (c : α) :
    trailing p (w ++ [c]) = if p c = true then trailing p w + 1 else 0 := by
  rw [trailing, List.rtakeWhile_concat]
  split
  · rw [List.length_append, List.length_singleton, trailing]
  · rfl

theorem trailing_eq_zero {p : α → Bool} {w : List α} :
    trailing p w = 0 ↔ ∀ c, w.getLast? = some c → p c = false := by
  rcases List.eq_nil_or_concat' w with rfl | ⟨w, c, rfl⟩
  · simp
  · simp [trailing_concat]

theorem trailing_append {p : α → Bool} (u : List α) {v : List α} (h : ∀ c ∈ v, p c = true) :
    trailing p (u ++ v) = v.length + trailing p u := by
  rw [trailing, List.rtakeWhile, List.reverse_append, List.takeWhile_append_of_pos,
    List.length_reverse, List.length_append, List.length_reverse, trailing, List.rtakeWhile,
    List.length_reverse]
  intro c hc
  exact h c (List.mem_reverse.mp hc)

/-- The count at the end has gone through every smaller number. -/
theorem exists_of_lt_trailing {p : α → Bool} {w : List α} {n : Nat} (h : n < trailing p w) :
    ∃ u c v, w = u ++ c :: v ∧ trailing p u = n ∧ p c = true := by
  induction w using List.reverseRecOn with
  | nil => exact absurd h (Nat.not_lt_zero n)
  | append_singleton w c ih =>
    rw [trailing_concat] at h
    split at h
    · rename_i hc
      rcases Nat.lt_succ_iff_lt_or_eq.mp h with hlt | rfl
      · obtain ⟨u, d, v, rfl, hu, hd⟩ := ih hlt
        exact ⟨u, d, v ++ [c], by simp, hu, hd⟩
      · exact ⟨w, c, [], rfl, rfl, hc⟩
    · exact absurd h (Nat.not_lt_zero n)

/-- The symbols at the end, as many as were counted. -/
theorem exists_of_trailing {p : α → Bool} {w : List α} {n : Nat} (h : n ≤ trailing p w) :
    ∃ u v, w = u ++ v ∧ v.length = n ∧ ∀ c ∈ v, p c = true := by
  rw [trailing] at h
  refine ⟨w.rdropWhile p ++ (w.rtakeWhile p).take ((w.rtakeWhile p).length - n),
    (w.rtakeWhile p).drop ((w.rtakeWhile p).length - n), ?_, ?_, ?_⟩
  · rw [List.append_assoc, List.take_append_drop, List.rdropWhile_append_rtakeWhile]
  · rw [List.length_drop]
    omega
  · intro c hc
    exact List.mem_rtakeWhile_imp (List.mem_of_mem_drop hc)

section Doubled
variable {a : α} {w : List α}

/-- Two separators stand in a row. -/
def Doubled (a : α) (w : List α) : Prop := [a, a] <:+: w

theorem not_doubled_nil : ¬Doubled a [] := by
  intro h
  exact absurd (List.IsInfix.length_le h) (by simp)

/-- A pair of separators is read with its second one. -/
theorem doubled_concat {c : α} :
    Doubled a (w ++ [c]) ↔ Doubled a w ∨ c = a ∧ w.getLast? = some a := by
  rw [Doubled, List.infix_concat_iff]
  constructor
  · rintro (h | h)
    · obtain ⟨u, hu⟩ := h
      have hcons : u ++ [a] ++ [a] = w ++ [c] := by simpa using hu
      obtain ⟨rfl, hc⟩ := List.append_inj' hcons rfl
      exact Or.inr ⟨(List.singleton_inj.mp hc).symm, List.getLast?_concat⟩
    · exact Or.inl h
  · rintro (h | ⟨rfl, h⟩)
    · exact Or.inr h
    · obtain ⟨u, rfl⟩ := List.getLast?_eq_some_iff.mp h
      exact Or.inl ⟨u, by simp⟩

theorem doubled_append {u v : List α} :
    Doubled a (u ++ v) ↔
      Doubled a u ∨ Doubled a v ∨ u.getLast? = some a ∧ v.head? = some a := by
  induction v using List.reverseRecOn with
  | nil => simp [not_doubled_nil]
  | append_singleton v c ih =>
    rw [← List.append_assoc, doubled_concat, doubled_concat, ih]
    cases v with
    | nil =>
      have hhead : ([] ++ [c] : List α).head? = some a ↔ c = a := by simp
      rw [hhead, List.append_nil]
      simp [not_doubled_nil, and_comm]
    | cons d v =>
      rw [List.getLast?_append_of_ne_nil _ (List.cons_ne_nil d v)]
      simp only [List.cons_append, List.head?_cons]
      tauto

theorem doubled_reverse : Doubled a w.reverse ↔ Doubled a w := by
  have h : [a, a].reverse <:+: w.reverse ↔ [a, a] <:+: w := List.reverse_infix
  exact h

/-- `u`, two separators and `v`, with no other two in a row. -/
structure SplitAtDouble (a : α) (u v w : List α) : Prop where
  text : w = u ++ a :: a :: v
  left : ¬Doubled a u
  right : ¬Doubled a v
  left_end : u.getLast? ≠ some a
  right_start : v.head? ≠ some a

theorem SplitAtDouble.reverse {u v : List α} (h : SplitAtDouble a u v w) :
    SplitAtDouble a v.reverse u.reverse w.reverse := by
  refine ⟨by rw [h.text]; simp, doubled_reverse.not.mpr h.right, doubled_reverse.not.mpr h.left,
    ?_, ?_⟩
  · rw [List.getLast?_reverse]
    exact h.right_start
  · rw [List.head?_reverse]
    exact h.left_end

/-- A further symbol that makes no pair. -/
theorem SplitAtDouble.concat {u v : List α} {c : α} (h : SplitAtDouble a u v w)
    (hc : c = a → v ≠ [] ∧ v.getLast? ≠ some a) : SplitAtDouble a u (v ++ [c]) (w ++ [c]) := by
  refine ⟨by rw [h.text]; simp, h.left, ?_, h.left_end, ?_⟩
  · rw [doubled_concat]
    rintro (hv | ⟨rfl, hlast⟩)
    · exact h.right hv
    · exact (hc rfl).2 hlast
  · cases v with
    | nil =>
      intro hhead
      exact (hc (Option.some.inj hhead)).1 rfl
    | cons d v => exact h.right_start

end Doubled

section Join
variable {sep : α}

/-- Groups with no separator in them, and none of them empty. -/
def Proper (sep : α) (gs : List (List α)) : Prop := ∀ g ∈ gs, g ≠ [] ∧ sep ∉ g

theorem Proper.tail {g : List α} {gs : List (List α)} (h : Proper sep (g :: gs)) :
    Proper sep gs :=
  fun x hx => h x (List.mem_cons_of_mem g hx)

theorem intercalate_head {g : List α} (hg : g ≠ []) (gs : List (List α)) :
    (List.intercalate [sep] (g :: gs)).head? = g.head? := by
  cases gs with
  | nil => rw [List.intercalate_singleton]
  | cons g' gs =>
    rw [List.intercalate_cons_cons, List.append_assoc, List.head?_append_of_ne_nil _ hg]

/-- The joined text does not begin with a separator. -/
theorem Proper.head_ne {gs : List (List α)} (h : Proper sep gs) :
    (List.intercalate [sep] gs).head? ≠ some sep := by
  cases gs with
  | nil => simp
  | cons g gs =>
    obtain ⟨hne, hsep⟩ := h g (by simp)
    rw [intercalate_head hne]
    intro hhead
    exact hsep (List.mem_of_mem_head? hhead)

/-- The joined text does not end with a separator. -/
theorem Proper.last_ne {gs : List (List α)} (h : Proper sep gs) :
    (List.intercalate [sep] gs).getLast? ≠ some sep := by
  induction gs with
  | nil => simp
  | cons g gs ih =>
    obtain ⟨hne, hsep⟩ := h g (by simp)
    cases gs with
    | nil =>
      rw [List.intercalate_singleton]
      intro hlast
      exact hsep (List.mem_of_getLast? hlast)
    | cons g' gs =>
      have hne' : List.intercalate [sep] (g' :: gs) ≠ [] := by
        intro hnil
        have hhead : (List.intercalate [sep] (g' :: gs)).head? = g'.head? :=
          intercalate_head (h g' (by simp)).1 gs
        rw [hnil] at hhead
        exact (h g' (by simp)).1 (List.head?_eq_none_iff.mp hhead.symm)
      rw [List.intercalate_cons_cons, List.getLast?_append_of_ne_nil _ hne']
      exact ih h.tail

/-- Between groups no two separators stand in a row. -/
theorem Proper.not_doubled {gs : List (List α)} (h : Proper sep gs) :
    ¬Doubled sep (List.intercalate [sep] gs) := by
  have hgroup : ∀ g : List α, sep ∉ g → ¬Doubled sep g := fun g hg hd =>
    hg (hd.subset List.mem_cons_self)
  induction gs with
  | nil => exact not_doubled_nil
  | cons g gs ih =>
    obtain ⟨-, hsep⟩ := h g (by simp)
    cases gs with
    | nil =>
      rw [List.intercalate_singleton]
      exact hgroup g hsep
    | cons g' gs =>
      rw [List.intercalate_cons_cons, doubled_append, doubled_concat]
      rintro ((hg | ⟨-, hlast⟩) | hrest | ⟨-, hhead⟩)
      · exact hgroup g hsep hg
      · exact hsep (List.mem_of_getLast? hlast)
      · exact ih h.tail hrest
      · exact h.tail.head_ne hhead

/-- A text with single separators inside it is a row of groups, one more than separators. -/
theorem exists_groups [DecidableEq α] {w : List α} (hne : w ≠ []) (hdouble : ¬Doubled sep w)
    (hstart : w.head? ≠ some sep) (hend : w.getLast? ≠ some sep) :
    ∃ gs, Proper sep gs ∧ w = List.intercalate [sep] gs ∧ gs.length = w.count sep + 1 := by
  induction w using SeparatedList.split_induction (p := (· == sep)) with
  | last x hx =>
    have hsep : sep ∉ x := fun hmem => by simpa using hx sep hmem
    refine ⟨[x], ?_, List.intercalate_singleton.symm, ?_⟩
    · intro g hg
      rw [List.mem_singleton.mp hg]
      exact ⟨hne, hsep⟩
    · rw [List.count_eq_zero_of_not_mem hsep]
      rfl
  | cons x s w hx hs ih =>
    obtain rfl : s = sep := eq_of_beq hs
    have hsep : s ∉ x := fun hmem => by simpa using hx s hmem
    have hxne : x ≠ [] := by
      rintro rfl
      exact hstart rfl
    have hwne : w ≠ [] := by
      rintro rfl
      exact hend List.getLast?_concat
    obtain ⟨gs, hgs, rfl, hlen⟩ := ih hwne
      (fun h => hdouble (h.trans ⟨x ++ [s], [], by simp⟩))
      (fun h => by
        obtain ⟨v, rfl⟩ := List.head?_eq_some_iff.mp h
        exact hdouble ⟨x, v, by simp⟩)
      (fun h => hend (by
        rw [List.getLast?_append_of_ne_nil _ (List.cons_ne_nil s _), List.getLast?_cons, h]
        rfl))
    refine ⟨x :: gs, ?_, ?_, ?_⟩
    · intro g hg
      rcases List.mem_cons.mp hg with rfl | hg
      · exact ⟨hxne, hsep⟩
      · exact hgs g hg
    · cases gs with
      | nil => exact absurd List.intercalate_nil hwne
      | cons g gs =>
        rw [List.intercalate_cons_cons, List.append_assoc, List.singleton_append]
    · rw [List.count_append, List.count_eq_zero_of_not_mem hsep, List.count_cons_self,
        List.length_cons, hlen, Nat.zero_add]

/-- As `exists_groups`, where there may be no group at all. -/
theorem exists_groups_le [DecidableEq α] {w : List α} (hdouble : ¬Doubled sep w)
    (hstart : w.head? ≠ some sep) (hend : w.getLast? ≠ some sep) :
    ∃ gs, Proper sep gs ∧ w = List.intercalate [sep] gs ∧ gs.length ≤ w.count sep + 1 := by
  by_cases hne : w = []
  · have hproper : Proper sep [] := by
      intro g hg
      cases hg
    exact ⟨[], hproper, by rw [hne, List.intercalate_nil], Nat.zero_le _⟩
  · obtain ⟨gs, hgs, hw, hlen⟩ := exists_groups hne hdouble hstart hend
    exact ⟨gs, hgs, hw, Nat.le_of_eq hlen⟩

/-- Between groups stand separators, one fewer than groups. -/
theorem count_intercalate [DecidableEq α] {gs : List (List α)} (h : Proper sep gs) :
    (List.intercalate [sep] gs).count sep = gs.length - 1 := by
  induction gs with
  | nil => rfl
  | cons g gs ih =>
    have hg := List.count_eq_zero_of_not_mem (h g (by simp)).2
    cases gs with
    | nil => rw [List.intercalate_singleton, hg, List.length_singleton]
    | cons g' gs =>
      rw [List.intercalate_cons_cons, List.count_append, List.count_append, hg, ih h.tail,
        List.count_singleton_self]
      simp only [List.length_cons]
      omega

theorem length_intercalate_le {n : Nat} {gs : List (List α)} (h : ∀ g ∈ gs, g.length ≤ n) :
    (List.intercalate [sep] gs).length ≤ (n + 1) * gs.length := by
  induction gs with
  | nil => simp
  | cons g gs ih =>
    have hg := h g (by simp)
    have hgs := ih fun x hx => h x (List.mem_cons_of_mem g hx)
    cases gs with
    | nil =>
      rw [List.intercalate_singleton, List.length_singleton]
      omega
    | cons g' gs =>
      rw [List.intercalate_cons_cons, List.length_append, List.length_append,
        List.length_singleton, List.length_cons, Nat.mul_succ]
      omega

theorem mem_intercalate {gs : List (List α)} {c : α} (h : c ∈ List.intercalate [sep] gs) :
    c = sep ∨ ∃ g ∈ gs, c ∈ g := by
  induction gs with
  | nil => simp at h
  | cons g gs ih =>
    cases gs with
    | nil =>
      rw [List.intercalate_singleton] at h
      exact Or.inr ⟨g, by simp, h⟩
    | cons g' gs =>
      rw [List.intercalate_cons_cons, List.mem_append, List.mem_append, List.mem_singleton] at h
      rcases h with (h | h) | h
      · exact Or.inr ⟨g, by simp, h⟩
      · exact Or.inl h
      · rcases ih h with h | ⟨x, hx, hc⟩
        · exact Or.inl h
        · exact Or.inr ⟨x, List.mem_cons_of_mem g hx, hc⟩

theorem mem_intercalate_of_mem {gs : List (List α)} {g : List α} {c : α} (hg : g ∈ gs)
    (hc : c ∈ g) : c ∈ List.intercalate [sep] gs := by
  induction gs with
  | nil => cases hg
  | cons x gs ih =>
    cases gs with
    | nil =>
      rw [List.intercalate_singleton, ← List.mem_singleton.mp hg]
      exact hc
    | cons y gs =>
      rw [List.intercalate_cons_cons, List.mem_append, List.mem_append]
      rcases List.mem_cons.mp hg with rfl | hg
      · exact Or.inl (Or.inl hc)
      · exact Or.inr (ih hg)

end Join

end Groups
