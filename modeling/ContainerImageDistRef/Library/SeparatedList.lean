import Mathlib.Computability.Language
import Mathlib.Data.List.TakeWhile

/-!
# Languages of separated lists

`sepBy L S` is the language written `L (S L)*` in a grammar. It is used from
its right end: a word of it is extended either inside its last item or by a
separator and a new item, which is how a left-to-right scanner meets it.
-/

namespace SeparatedList

open scoped Computability

universe u

variable {α : Type u}

/-- The words of one symbol. -/
def symbol (p : α → Bool) : Language α := {w | ∃ c, p c = true ∧ w = [c]}

/-- One or more, `L+`. -/
def many1 (L : Language α) : Language α := L * L∗

/-- At least `n` symbols. -/
def atLeast (n : Nat) (p : α → Bool) : Language α :=
  {w | n ≤ w.length ∧ ∀ c ∈ w, p c = true}

/-- At most `n` symbols. -/
def atMost (n : Nat) (p : α → Bool) : Language α :=
  {w | w.length ≤ n ∧ ∀ c ∈ w, p c = true}

def sepBy (L S : Language α) : Language α := L * (S * L)∗

theorem mem_symbol {p : α → Bool} {w : List α} :
    w ∈ symbol p ↔ ∃ c, p c = true ∧ w = [c] := Iff.rfl

@[simp] theorem singleton_mem_symbol {p : α → Bool} {c : α} :
    [c] ∈ symbol p ↔ p c = true := by
  simp [mem_symbol]

theorem mem_atLeast {n : Nat} {p : α → Bool} {w : List α} :
    w ∈ atLeast n p ↔ n ≤ w.length ∧ ∀ c ∈ w, p c = true := Iff.rfl

theorem kstar_append {L : Language α} {w x : List α} (hw : w ∈ L∗) (hx : x ∈ L) :
    w ++ x ∈ L∗ :=
  (kstar_mul_le_kstar : L∗ * L ≤ L∗) (Language.append_mem_mul hw hx)

/-- Induction over a repetition, one item at a time from the left. -/
theorem kstar_induction {L : Language α} {P : (w : List α) → w ∈ L∗ → Prop}
    (nil : P [] (Language.nil_mem_kstar L))
    (snoc : ∀ w x (hw : w ∈ L∗) (hx : x ∈ L), P w hw → P (w ++ x) (kstar_append hw hx))
    {w : List α} (h : w ∈ L∗) : P w h := by
  obtain ⟨items, rfl, hitems⟩ := Language.mem_kstar.mp h
  induction items using List.reverseRecOn with
  | nil => exact nil
  | append_singleton items x ih =>
    have hprefix : ∀ y ∈ items, y ∈ L := fun y hy => hitems y (List.mem_append_left _ hy)
    have hw : items.flatten ∈ L∗ := Language.join_mem_kstar hprefix
    have hstep := snoc _ x hw (hitems x (by simp)) (ih hprefix hw)
    have he : (items ++ [x]).flatten = items.flatten ++ x := by simp
    simpa only [he] using hstep

theorem mem_kstar_symbol {p : α → Bool} {w : List α} :
    w ∈ (symbol p)∗ ↔ ∀ c ∈ w, p c = true := by
  constructor
  · intro h
    induction h using kstar_induction with
    | nil => simp
    | snoc w x _ hx ih =>
      obtain ⟨c, hc, rfl⟩ := hx
      intro d hd
      rcases List.mem_append.mp hd with hd | hd
      · exact ih d hd
      · exact List.mem_singleton.mp hd ▸ hc
  · intro h
    induction w using List.reverseRecOn with
    | nil => exact Language.nil_mem_kstar _
    | append_singleton w c ih =>
      exact kstar_append (ih fun d hd => h d (List.mem_append_left _ hd))
        (singleton_mem_symbol.mpr (h c (by simp)))

theorem mem_many1_of_mem {L : Language α} {x : List α} (hx : x ∈ L) : x ∈ many1 L :=
  ⟨x, hx, [], Language.nil_mem_kstar L, List.append_nil x⟩

theorem many1_append {L : Language α} {w x : List α} (hw : w ∈ many1 L) (hx : x ∈ L) :
    w ++ x ∈ many1 L := by
  obtain ⟨y, hy, r, hr, rfl⟩ := hw
  exact ⟨y, hy, r ++ x, kstar_append hr hx, (List.append_assoc y r x).symm⟩

theorem mem_many1_symbol {p : α → Bool} {w : List α} :
    w ∈ many1 (symbol p) ↔ w ≠ [] ∧ ∀ c ∈ w, p c = true := by
  constructor
  · rintro ⟨x, ⟨c, hc, rfl⟩, y, hy, rfl⟩
    constructor
    · exact List.cons_ne_nil c y
    · intro d hd
      rcases List.mem_cons.mp hd with rfl | hd
      · exact hc
      · exact mem_kstar_symbol.mp hy d hd
  · rintro ⟨hne, h⟩
    cases w with
    | nil => exact absurd rfl hne
    | cons c w =>
      exact ⟨[c], singleton_mem_symbol.mpr (h c (by simp)), w,
        mem_kstar_symbol.mpr fun d hd => h d (List.mem_cons_of_mem c hd), rfl⟩

section SepBy
variable {L S : Language α}

theorem mem_sepBy_of_mem {x : List α} (hx : x ∈ L) : x ∈ sepBy L S :=
  ⟨x, hx, [], Language.nil_mem_kstar _, List.append_nil x⟩

theorem sepBy_append_kstar {w t : List α} (hw : w ∈ sepBy L S) (ht : t ∈ (S * L)∗) :
    w ++ t ∈ sepBy L S := by
  obtain ⟨x, hx, r, hr, rfl⟩ := hw
  refine ⟨x, hx, r ++ t, ?_, by simp⟩
  rw [← kstar_mul_kstar (S * L)]
  exact Language.append_mem_mul hr ht

/-- A separator and a new item at the right end. -/
theorem sepBy_append {w s x : List α} (hw : w ∈ sepBy L S) (hs : s ∈ S) (hx : x ∈ L) :
    w ++ s ++ x ∈ sepBy L S := by
  rw [List.append_assoc]
  apply sepBy_append_kstar hw
  simpa using kstar_append (Language.nil_mem_kstar (S * L)) (Language.append_mem_mul hs hx)

theorem sepBy_induction {P : (w : List α) → w ∈ sepBy L S → Prop}
    (single : ∀ x (hx : x ∈ L), P x (mem_sepBy_of_mem hx))
    (snoc : ∀ w s x (hw : w ∈ sepBy L S) (hs : s ∈ S) (hx : x ∈ L), P w hw →
      P (w ++ s ++ x) (sepBy_append hw hs hx))
    {w : List α} (h : w ∈ sepBy L S) : P w h := by
  obtain ⟨x, hx, r, hr, rfl⟩ := h
  induction hr using kstar_induction with
  | nil => simpa only [List.append_nil] using single x hx
  | snoc r y hr hy ih =>
    obtain ⟨s, hs, z, hz, rfl⟩ := hy
    have h := snoc (x ++ r) s z ⟨x, hx, r, hr, rfl⟩ hs hz ih
    simpa only [List.append_assoc] using h

/-- The last item, and what stands before it. -/
theorem sepBy_last {w : List α} (hw : w ∈ sepBy L S) :
    w ∈ L ∨ ∃ v s x, w = v ++ s ++ x ∧ v ∈ sepBy L S ∧ s ∈ S ∧ x ∈ L := by
  obtain ⟨x, hx, r, hr, rfl⟩ := hw
  obtain ⟨items, rfl, hitems⟩ := Language.mem_kstar.mp hr
  rcases List.eq_nil_or_concat' items with rfl | ⟨items, y, rfl⟩
  · have hw : x ++ [] ∈ L := by rwa [List.append_nil]
    exact Or.inl hw
  · right
    obtain ⟨s, hs, z, hz, rfl⟩ := hitems y (by simp)
    have hinit : items.flatten ∈ (S * L)∗ :=
      Language.join_mem_kstar fun y hy => hitems y (List.mem_append_left _ hy)
    exact ⟨x ++ items.flatten, s, z, by simp, ⟨x, hx, _, hinit, rfl⟩, hs, hz⟩

/-- Growing the last item. -/
theorem sepBy_extend {t : List α} (ht : ∀ x, x ∈ L → x ++ t ∈ L) {w : List α}
    (hw : w ∈ sepBy L S) : w ++ t ∈ sepBy L S := by
  rcases sepBy_last hw with hw | ⟨v, s, x, rfl, hv, hs, hx⟩
  · exact mem_sepBy_of_mem (ht w hw)
  · rw [List.append_assoc]
    exact sepBy_append hv hs (ht x hx)

/-- A property of all symbols of the items and of the separators. -/
theorem sepBy_forall {p : α → Prop} (hL : ∀ x, x ∈ L → ∀ c ∈ x, p c)
    (hS : ∀ s, s ∈ S → ∀ c ∈ s, p c) {w : List α} (hw : w ∈ sepBy L S) : ∀ c ∈ w, p c := by
  induction hw using sepBy_induction with
  | single x hx => exact hL x hx
  | snoc w s x _ hs hx ih =>
    intro c hc
    rcases List.mem_append.mp hc with hc | hc
    · rcases List.mem_append.mp hc with hc | hc
      · exact ih c hc
      · exact hS s hs c hc
    · exact hL x hx c hc

end SepBy

/-- What stands before the first separator. -/
theorem takeWhile_sep [DecidableEq α] {a : α} {x : List α} (hx : a ∉ x) (r : List α) :
    (x ++ a :: r).takeWhile (· != a) = x := by
  rw [List.takeWhile_append_of_pos fun c hc => by
    simp only [bne_iff_ne]
    rintro rfl
    exact hx hc]
  simp

/-- A word without the separator is looked for before the separator. -/
theorem isPrefixOf_sep [BEq α] [LawfulBEq α] {a : α} {x : List α} (hx : a ∉ x)
    (u v : List α) : x.isPrefixOf (u ++ a :: v) = x.isPrefixOf u := by
  induction x generalizing u with
  | nil => simp
  | cons c x ih =>
    have hc : c ≠ a := fun hc => hx (hc ▸ List.mem_cons_self)
    cases u with
    | nil => simp [List.isPrefixOf, hc]
    | cons d u =>
      rw [List.cons_append, List.isPrefixOf, List.isPrefixOf,
        ih fun hmem => hx (List.mem_cons_of_mem c hmem)]

section Split
variable {p : α → Bool}

/-- Induction over the parts between the symbols with `p`. -/
theorem split_induction {P : List α → Prop} (last : ∀ x, (∀ c ∈ x, p c = false) → P x)
    (cons : ∀ x s w, (∀ c ∈ x, p c = false) → p s = true → P w → P (x ++ s :: w))
    (w : List α) : P w := by
  induction hn : w.length using Nat.strong_induction_on generalizing w with
  | _ n ih =>
    have htake : ∀ c ∈ w.takeWhile (fun c => !p c), p c = false := fun c hc => by
      simpa using List.mem_takeWhile_imp hc
    have hsplit := List.takeWhile_append_dropWhile (p := fun c => !p c) (l := w)
    cases hd : w.dropWhile (fun c => !p c) with
    | nil =>
      rw [hd, List.append_nil] at hsplit
      exact last w (hsplit ▸ htake)
    | cons s r =>
      have hs : p s = true := by
        have h := List.head?_dropWhile_not (fun c => !p c) w
        rw [hd] at h
        simpa using h
      have hlen : r.length < n := by
        rw [hd] at hsplit
        rw [← hn, ← hsplit, List.length_append, List.length_cons]
        omega
      rw [← hsplit, hd]
      exact cons _ s r htake hs (ih r.length hlen r rfl)

theorem splitOnP_map {β : Type u} (f : β → α) (p : α → Bool) (w : List β) :
    (w.map f).splitOnP p = (w.splitOnP fun b => p (f b)).map (List.map f) := by
  induction w with
  | nil => rfl
  | cons b w ih =>
    rw [List.map_cons, List.splitOnP_cons_eq_if_modifyHead, List.splitOnP_cons_eq_if_modifyHead, ih]
    split
    · rfl
    · cases hw : w.splitOnP fun b => p (f b) with
      | nil => exact absurd hw (List.splitOnP_ne_nil _ _)
      | cons x xs => rfl

theorem infix_of_mem_splitOnP {w x : List α} (h : x ∈ w.splitOnP p) : x <:+: w := by
  induction w using split_induction (p := p) with
  | last y hy =>
    rw [List.splitOnP_eq_singleton hy, List.mem_singleton] at h
    exact h ▸ List.infix_rfl
  | cons y s w hy hs ih =>
    rw [List.splitOnP_append_cons y w hs, List.splitOnP_eq_singleton hy] at h
    rcases List.mem_append.mp h with h | h
    · rw [List.mem_singleton.mp h]
      exact (List.prefix_append y (s :: w)).isInfix
    · exact ((ih h).trans (List.suffix_cons s w).isInfix).trans
        (List.suffix_append y (s :: w)).isInfix

/-- A list with single-symbol separators is in the language if every part is. -/
theorem mem_sepBy_symbol {L : Language α} (hL : ∀ x, x ∈ L → ∀ c ∈ x, p c = false)
    {w : List α} : w ∈ sepBy L (symbol p) ↔ ∀ x ∈ w.splitOnP p, x ∈ L := by
  constructor
  · intro h
    induction h using sepBy_induction with
    | single x hx =>
      rw [List.splitOnP_eq_singleton (hL x hx)]
      simpa using hx
    | snoc w s x hw hs hx ih =>
      obtain ⟨c, hc, rfl⟩ := hs
      rw [List.append_assoc, List.singleton_append, List.splitOnP_append_cons w x hc,
        List.splitOnP_eq_singleton (hL x hx)]
      intro y hy
      rcases List.mem_append.mp hy with hy | hy
      · exact ih y hy
      · exact List.mem_singleton.mp hy ▸ hx
  · intro h
    induction w using split_induction (p := p) with
    | last x hx =>
      rw [List.splitOnP_eq_singleton hx] at h
      exact mem_sepBy_of_mem (h x (by simp))
    | cons x s w hx hs ih =>
      rw [List.splitOnP_append_cons x w hs, List.splitOnP_eq_singleton hx] at h
      obtain ⟨y, hy, r, hr, rfl⟩ := ih fun z hz => h z (by simp [hz])
      have hone : [s] ++ y ∈ symbol p * L :=
        Language.append_mem_mul (singleton_mem_symbol.mpr hs) hy
      have hmul := Language.append_mem_mul
        ((le_kstar : symbol p * L ≤ (symbol p * L)∗) hone) hr
      rw [kstar_mul_kstar] at hmul
      exact ⟨x, h x (by simp), _, hmul, by simp⟩

end Split

end SeparatedList
