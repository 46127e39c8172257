import ContainerImageDistRef.Name.Domain.Ipv6.Scanning

/-!
# The addresses that the IPv6 parser accepts

The addresses of the grammar are groups of digits, and the parser decides by
the colons alone. A lone colon at an end passes for a group, and a pair of
colons at an end takes the place of two groups.
-/

namespace ContainerImageDistRef

open ByteString Groups

namespace Ipv6

/-- Eight groups, or at most seven around a double colon. -/
inductive Address (group : List UInt8 → Prop) : List UInt8 → Prop
  | full {gs : List (List UInt8)} (h : ∀ g ∈ gs, group g) (hlen : gs.length = 8) :
      Address group (List.intercalate [byte ':'] gs)
  | compressed {left right : List (List UInt8)} (hleft : ∀ g ∈ left, group g)
      (hright : ∀ g ∈ right, group g) (hlen : left.length + right.length ≤ 7) :
      Address group (List.intercalate [byte ':'] left ++
        byte ':' :: byte ':' :: List.intercalate [byte ':'] right)

/-- One or more hex digits. -/
def HexGroup (g : List UInt8) : Prop := g ≠ [] ∧ ∀ c ∈ g, isHexDigit c = true

/-- One to four hex digits. -/
def H16 (g : List UInt8) : Prop :=
  1 ≤ g.length ∧ g.length ≤ 4 ∧ ∀ c ∈ g, isHexDigit c = true

theorem HexGroup.not_mem {g : List UInt8} (h : HexGroup g) : byte ':' ∉ g :=
  fun hmem => ne_colon_of_isHexDigit _ (h.2 _ hmem) rfl

theorem H16.hexGroup {g : List UInt8} (h : H16 g) : HexGroup g := by
  refine ⟨?_, h.2.2⟩
  rintro rfl
  exact absurd h.1 (by decide)

theorem proper_of_hexGroup {gs : List (List UInt8)} (h : ∀ g ∈ gs, HexGroup g) :
    Proper (byte ':') gs :=
  fun g hg => ⟨(h g hg).1, (h g hg).not_mem⟩

/-- A colon at the start that no second one follows. -/
def LoneStart (w : List UInt8) : Prop :=
  w.head? = some (byte ':') ∧ w.tail.head? ≠ some (byte ':')

/-- A colon at the start or at the end that is not one of a pair. -/
def LoneColon (w : List UInt8) : Prop := LoneStart w ∨ LoneStart w.reverse

/-- Where a pair of colons follows, a lone first colon stands before it. -/
theorem LoneStart.head {u v : List UInt8} (h : LoneStart (u ++ byte ':' :: byte ':' :: v)) :
    u.head? = some (byte ':') := by
  cases u with
  | nil => exact absurd rfl h.2
  | cons c u => exact h.1

theorem not_loneColon {w : List UInt8} (h : Address HexGroup w) : ¬LoneColon w := by
  cases h with
  | full h hlen =>
    have hp := proper_of_hexGroup h
    rintro (hlone | hlone)
    · exact hp.head_ne hlone.1
    · exact hp.last_ne (by rw [← List.head?_reverse, hlone.1])
  | compressed hleft hright hlen =>
    rintro (hlone | hlone)
    · exact (proper_of_hexGroup hleft).head_ne hlone.head
    · rw [List.reverse_append, List.reverse_cons, List.reverse_cons, List.append_assoc,
        List.append_assoc] at hlone
      exact (proper_of_hexGroup hright).last_ne (by rw [← List.head?_reverse, hlone.head])

theorem loneStart_or_doubled {w : List UInt8} (h : w.head? = some (byte ':')) :
    LoneStart w ∨ Doubled (byte ':') w := by
  by_cases htail : w.tail.head? = some (byte ':')
  · obtain ⟨v, hv⟩ := List.head?_eq_some_iff.mp h
    subst hv
    obtain ⟨v', rfl⟩ := List.head?_eq_some_iff.mp htail
    exact Or.inr ⟨[], v', rfl⟩
  · exact Or.inl ⟨h, htail⟩

theorem head_ne_of_not_lone {w : List UInt8} (hlone : ¬LoneStart w)
    (hdouble : ¬Doubled (byte ':') w) : w.head? ≠ some (byte ':') :=
  fun h => (loneStart_or_doubled h).elim hlone hdouble

/-- What stands before the pair of colons does not begin with a colon either. -/
theorem left_start_of_split {u v w : List UInt8} (h : SplitAtDouble (byte ':') u v w)
    (hlone : ¬LoneStart w) : u.head? ≠ some (byte ':') := by
  intro hu
  rcases loneStart_or_doubled hu with hstart | hdouble
  · obtain ⟨v', rfl⟩ := List.head?_eq_some_iff.mp hu
    cases v' with
    | nil => exact h.left_end rfl
    | cons c v' =>
      apply hlone
      rw [h.text]
      exact hstart
  · exact h.left hdouble

/-- The groups of a text of hex digits and colons. -/
theorem hexGroup_of_mem {gs : List (List UInt8)} (hp : Proper (byte ':') gs)
    (hinner : ∀ c ∈ List.intercalate [byte ':'] gs, isInner c = true) :
    ∀ g ∈ gs, HexGroup g := by
  intro g hg
  refine ⟨(hp g hg).1, fun c hc => ?_⟩
  apply isHexDigit_of_isInner (hinner c (mem_intercalate_of_mem hg hc))
  rintro rfl
  exact (hp g hg).2 hc

/-- The colons that the scan accepts, without a lone one at an end, separate groups. -/
theorem address_of_colons {w : List UInt8} (hl : Legal w)
    (hcolons : w.count (byte ':') = 7 ∨ Doubled (byte ':') w) (hlone : ¬LoneColon w) :
    Address HexGroup w := by
  rw [LoneColon, not_or] at hlone
  obtain ⟨hstart, hend⟩ := hlone
  by_cases hdouble : Doubled (byte ':') w
  · rcases hl.pairs with hnone | ⟨u, v, hsplit⟩
    · exact absurd hdouble hnone
    · have hustart := left_start_of_split hsplit hstart
      have hvend : v.getLast? ≠ some (byte ':') := by
        rw [← List.head?_reverse]
        exact left_start_of_split hsplit.reverse hend
      obtain ⟨left, hleft, rfl, hllen⟩ := exists_groups_le hsplit.left hustart hsplit.left_end
      obtain ⟨right, hright, rfl, hrlen⟩ := exists_groups_le hsplit.right hsplit.right_start hvend
      have htext := hsplit.text
      have hcount := hl.count
      rw [htext, List.count_append, List.count_cons_self, List.count_cons_self] at hcount
      rw [htext] at hl ⊢
      refine .compressed (hexGroup_of_mem hleft fun c hc => ?_)
        (hexGroup_of_mem hright fun c hc => ?_) (by omega)
      · exact hl.inner c (List.mem_append_left _ hc)
      · exact hl.inner c (by simp [hc])
  · have hcount := hcolons.resolve_right hdouble
    have hne : w ≠ [] := by
      rintro rfl
      cases hcount
    have hlast : w.getLast? ≠ some (byte ':') := by
      rw [← List.head?_reverse]
      exact head_ne_of_not_lone hend (doubled_reverse.not.mpr hdouble)
    obtain ⟨gs, hp, rfl, hlen⟩ :=
      exists_groups hne hdouble (head_ne_of_not_lone hstart hdouble) hlast
    exact .full (hexGroup_of_mem hp hl.inner) (by omega)

end Ipv6

namespace Ipv6Span

open Ipv6

/-- An accepted literal is made of groups unless a colon stands alone at one of its ends: the
scan counts colons and does not look for the groups beside them. -/
theorem groups_iff {src : String} {span : Ipv6Span} (h : new src = .ok span) :
    Address HexGroup (between src) ↔ ¬LoneColon (between src) := by
  obtain ⟨hl, hcolons⟩ := between_of_ok h
  exact ⟨not_loneColon, address_of_colons hl hcolons⟩

theorem groups_iff_loopback :
    new "[::1]" = .ok ⟨⟨5, by decide, by decide⟩⟩ ∧
      (Address HexGroup (between "[::1]") ↔ ¬LoneColon (between "[::1]")) := by
  have h : new "[::1]" = .ok ⟨⟨5, by decide, by decide⟩⟩ := by decide +kernel
  exact ⟨h, groups_iff h⟩

/-- Seven groups and a last colon are accepted. -/
theorem groups_fail :
    new "[1:2:3:4:5:6:7:]" = .ok ⟨⟨16, by decide, by decide⟩⟩ ∧
      ¬Address HexGroup (between "[1:2:3:4:5:6:7:]") := by
  have hlone : LoneColon (between "[1:2:3:4:5:6:7:]") :=
    Or.inr ⟨by decide, by decide⟩
  exact ⟨by decide +kernel, fun h => not_loneColon h hlone⟩

end Ipv6Span

namespace Ipv6

/-- A pair of colons at an end and seven groups. -/
def SevenAtEdge (w : List UInt8) : Prop :=
  ∃ gs, gs.length = 7 ∧ (∀ g ∈ gs, H16 g) ∧
    (w = byte ':' :: byte ':' :: List.intercalate [byte ':'] gs ∨
      w = List.intercalate [byte ':'] gs ++ [byte ':', byte ':'])

theorem inner_of_groups {gs : List (List UInt8)} (h : ∀ g ∈ gs, HexGroup g) :
    ∀ c ∈ List.intercalate [byte ':'] gs, isInner c = true := by
  intro c hc
  rcases mem_intercalate hc with rfl | ⟨g, hg, hc⟩
  · rfl
  · rw [isInner, (h g hg).2 c hc]
    rfl

namespace Address

variable {group : List UInt8 → Prop} {w : List UInt8}

theorem inner (hgroup : ∀ g, group g → HexGroup g) (h : Address group w) :
    ∀ c ∈ w, isInner c = true := by
  cases h with
  | full h hlen => exact inner_of_groups fun g hg => hgroup g (h g hg)
  | compressed hleft hright hlen =>
    intro c hc
    rw [List.mem_append, List.mem_cons, List.mem_cons] at hc
    rcases hc with hc | rfl | rfl | hc
    · exact inner_of_groups (fun g hg => hgroup g (hleft g hg)) c hc
    · rfl
    · rfl
    · exact inner_of_groups (fun g hg => hgroup g (hright g hg)) c hc

theorem pairsOnce (hgroup : ∀ g, group g → HexGroup g) (h : Address group w) :
    PairsOnce w := by
  cases h with
  | full h hlen => exact Or.inl (proper_of_hexGroup fun g hg => hgroup g (h g hg)).not_doubled
  | compressed hleft hright hlen =>
    have hl := proper_of_hexGroup fun g hg => hgroup g (hleft g hg)
    have hr := proper_of_hexGroup fun g hg => hgroup g (hright g hg)
    exact Or.inr ⟨_, _, rfl, hl.not_doubled, hr.not_doubled, hl.last_ne, hr.head_ne⟩

/-- The colons of an address pass the check behind the closing bracket. -/
theorem colons (hgroup : ∀ g, group g → HexGroup g) (h : Address group w) :
    w.count (byte ':') = 7 ∨ Doubled (byte ':') w := by
  cases h with
  | full h hlen =>
    rw [count_intercalate (proper_of_hexGroup fun g hg => hgroup g (h g hg)), hlen]
    exact Or.inl rfl
  | @compressed left right hleft hright hlen =>
    exact Or.inr ⟨List.intercalate [byte ':'] left, List.intercalate [byte ':'] right, by simp⟩

theorem length_le (h : Address H16 w) : w.length ≤ 40 := by
  have hwidth : ∀ {gs : List (List UInt8)}, (∀ g ∈ gs, H16 g) →
      (List.intercalate [byte ':'] gs).length ≤ 5 * gs.length := fun hgs =>
    length_intercalate_le fun g hg => (hgs g hg).2.1
  cases h with
  | full h hlen =>
    have hle := hwidth h
    omega
  | compressed hleft hright hlen =>
    have hl := hwidth hleft
    have hr := hwidth hright
    rw [List.length_append, List.length_cons, List.length_cons]
    omega

/-- The scan can count the colons of an address unless a pair at an end meets seven groups. -/
theorem count_iff (h : Address H16 w) : w.count (byte ':') ≤ 7 ↔ ¬SevenAtEdge w := by
  have hcount : ∀ {gs : List (List UInt8)}, (∀ g ∈ gs, H16 g) →
      (List.intercalate [byte ':'] gs).count (byte ':') = gs.length - 1 := fun hgs =>
    count_intercalate (proper_of_hexGroup fun g hg => (hgs g hg).hexGroup)
  constructor
  · rintro hle ⟨gs, hlen, hgs, rfl | rfl⟩
    · rw [List.count_cons_self, List.count_cons_self, hcount hgs] at hle
      omega
    · rw [List.count_append, hcount hgs, List.count_cons_self, List.count_singleton_self] at hle
      omega
  · intro hseven
    cases h with
    | full h hlen =>
      rw [hcount h]
      omega
    | @compressed left right hleft hright hlen =>
      rw [List.count_append, List.count_cons_self, List.count_cons_self, hcount hleft,
        hcount hright]
      apply Nat.le_of_not_lt
      intro hlt
      apply hseven
      cases left with
      | nil =>
        rw [List.length_nil] at hlt hlen
        exact ⟨right, by omega, hright, Or.inl rfl⟩
      | cons l left =>
        cases right with
        | nil =>
          rw [List.length_nil] at hlt hlen
          exact ⟨l :: left, by omega, hleft, Or.inr rfl⟩
        | cons r right =>
          rw [List.length_cons, List.length_cons] at hlt hlen
          omega

end Address

end Ipv6

namespace Ipv6Span

open Ipv6

theorem h16_singleton {c : UInt8} (hc : isHexDigit c = true) : H16 [c] :=
  ⟨Nat.le_refl 1, Nat.succ_le_succ (Nat.zero_le 3), fun _ hd => List.mem_singleton.mp hd ▸ hc⟩

theorem address_loopback : Address H16 (asBytes "::1") := by
  have hone : ∀ g ∈ [[byte '1']], H16 g := by
    intro g hg
    rw [List.mem_singleton.mp hg]
    exact h16_singleton (by decide)
  exact @Address.compressed H16 [] [[byte '1']] (by simp) hone (by decide)

/-- An address is consumed, whatever follows it, unless a pair of colons at one of its ends
stands beside seven groups: the pair takes the place of two groups wherever it is. -/
theorem complete_iff {a : String} (h : Address H16 (asBytes a)) (rest : String) :
    (∃ span, new ("[" ++ a ++ "]" ++ rest) = .ok span ∧
      span.length.val = len ("[" ++ a ++ "]")) ↔ ¬SevenAtEdge (asBytes a) := by
  have hgroup : ∀ g, H16 g → HexGroup g := fun _ hg => hg.hexGroup
  have hsrc : asBytes ("[" ++ a ++ "]" ++ rest) =
      byte '[' :: (asBytes a ++ byte ']' :: asBytes rest) := by
    have hopen : asBytes "[" = [byte '['] := by decide
    have hclose : asBytes "]" = [byte ']'] := by decide
    rw [asBytes_append, asBytes_append, asBytes_append, hopen, hclose]
    simp
  have hlen : len ("[" ++ a ++ "]") = (asBytes a).length + 2 := by
    have hopen : len "[" = 1 := by decide
    have hclose : len "]" = 1 := by decide
    rw [len_append, len_append, length_asBytes, hopen, hclose]
    omega
  have hbracket : byte ']' ∉ asBytes a := fun hmem =>
    absurd (h.inner hgroup _ hmem) (by decide)
  have hle := h.length_le
  rw [← h.count_iff]
  constructor
  · rintro ⟨span, hnew, -⟩
    exact ((new_eq_ok_iff hsrc hbracket).mp hnew).2.1.count
  · intro hcount
    have hshort : (asBytes a).length + 2 ≤ maxU8 := by
      have hmax : 42 ≤ maxU8 := by decide
      omega
    refine ⟨⟨⟨(asBytes a).length + 2, Nat.succ_pos _, hshort⟩⟩, ?_, hlen.symm⟩
    exact (new_eq_ok_iff hsrc hbracket).mpr
      ⟨rfl, ⟨h.inner hgroup, hcount, h.pairsOnce hgroup⟩, h.colons hgroup⟩

theorem complete_iff_loopback :
    Address H16 (asBytes "::1") ∧
      ((∃ span, new ("[" ++ "::1" ++ "]" ++ ":80") = .ok span ∧
        span.length.val = len ("[" ++ "::1" ++ "]")) ↔ ¬SevenAtEdge (asBytes "::1")) :=
  ⟨address_loopback, complete_iff address_loopback ":80"⟩

/-- A pair of colons before seven groups is not read to its end. -/
theorem complete_fails :
    Address H16 (asBytes "::1:2:3:4:5:6:7") ∧
      ¬∃ span, new ("[" ++ "::1:2:3:4:5:6:7" ++ "]" ++ "") = .ok span := by
  have hgroups : ∀ g ∈ (asBytes "1234567").map fun c => [c], H16 g := by
    intro g hg
    obtain ⟨c, hc, rfl⟩ := List.mem_map.mp hg
    exact h16_singleton (List.all_eq_true.mp (by decide : (asBytes "1234567").all isHexDigit) c hc)
  refine ⟨@Address.compressed H16 [] _ (by simp) hgroups (by decide), ?_⟩
  rintro ⟨span, hspan⟩
  have herr : new ("[" ++ "::1:2:3:4:5:6:7" ++ "]" ++ "") = .err ⟨14, .ipv6TooManyGroups⟩ := by
    decide +kernel
  rw [herr] at hspan
  cases hspan

end Ipv6Span

end ContainerImageDistRef
