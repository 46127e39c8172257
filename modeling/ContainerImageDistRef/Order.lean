import ContainerImageDistRef.Language
import ContainerImageDistRef.TagLanguage
import Mathlib.Data.Prod.Lex

/-!
# References by information

References are ordered by which of the optional parts they have: the more of
them, the smaller. The rank packs three flags into a byte, so its order is the
lexicographic one, and a domain outweighs a tag, and a tag a digest. The texts
of the parts do not count.
-/

namespace ContainerImageDistRef

open ByteString

namespace RefSpan

/-- higher = more information -/
def rank (span : RefSpan) : UInt8 :=
  (span.name.domain.map fun _ => (1 : UInt8) <<< 2).getD 0 |||
    (span.tag.map fun _ => (1 : UInt8) <<< 1).getD 0 |||
    (span.digest.map fun _ => (1 : UInt8) <<< 0).getD 0

/-- If other has more information than self, then other is ordered before self. -/
def partialCmp (self other : RefSpan) : Option Ordering := some (compare other.rank self.rank)

end RefSpan

def ImgRef.partialCmp (self other : ImgRef) : Option Ordering := self.span.partialCmp other.span

/-- The optional parts that are there, by weight. -/
abbrev Information := Bool ×ₗ Bool ×ₗ Bool

def Information.of (domain tag digest : Bool) : Information := toLex (domain, toLex (tag, digest))

theorem Information.of_inj {a b c a' b' c' : Bool} :
    Information.of a b c = Information.of a' b' c' ↔ a = a' ∧ b = b' ∧ c = c' := by
  simp [Information.of, Prod.ext_iff]

theorem Information.digest_lt : ∀ a b : Bool, of a b false < of a b true := by decide

theorem Information.tag_lt : ∀ a b c : Bool, of a false b < of a true c := by decide

/-- The flags as the bits of a byte. -/
def Information.pack (domain tag digest : Bool) : UInt8 :=
  (if domain then (1 : UInt8) <<< 2 else 0) ||| (if tag then (1 : UInt8) <<< 1 else 0) |||
    (if digest then (1 : UInt8) <<< 0 else 0)

theorem Information.compare_pack : ∀ a b c a' b' c' : Bool,
    compare (pack a b c) (pack a' b' c') = compare (of a b c) (of a' b' c') := by
  decide

def View.information (v : View) : Information :=
  .of v.domain.isSome v.tag.isSome v.digest.isSome

def Parts.information (p : Parts) : Information :=
  .of p.domain.isSome p.tag.isSome p.digest.isSome

namespace RefSpan

def information (span : RefSpan) : Information :=
  .of span.name.domain.isSome span.tag.isSome span.digest.isSome

/-- The order of the packed flags is the lexicographic one. -/
theorem compare_rank (s s' : RefSpan) :
    compare s.rank s'.rank = compare s.information s'.information := by
  have hrank : ∀ s : RefSpan,
      s.rank = Information.pack s.name.domain.isSome s.tag.isSome s.digest.isSome := by
    intro s
    rw [rank]
    cases s.name.domain <;> cases s.tag <;> cases s.digest <;> rfl
  rw [hrank, hrank]
  exact Information.compare_pack ..

theorem partialCmp_eq (s s' : RefSpan) :
    s.partialCmp s' = some (compare s'.information s.information) :=
  congrArg some (compare_rank s' s)

end RefSpan

namespace Parts

variable {p : Parts} {span : RefSpan}

theorem rel_isSome {α β : Type} {R : α → β → Prop} {x : Option α} {y : Option β}
    (h : Option.Rel R x y) : x.isSome = y.isSome := by
  cases h <;> rfl

theorem Spans.information (h : p.Spans span) : span.information = p.information := by
  rw [RefSpan.information, Parts.information, rel_isSome h.domain, rel_isSome h.tag,
    rel_isSome h.digest]

theorem Spans.view_information (h : p.Spans span) {v : View}
    (hv : ImgRef.Shows ⟨p.print, span⟩ v) : v.information = p.information := by
  obtain rfl := hv.unique h.shows
  obtain ⟨hdomain, hdigest⟩ := h.view_isSome
  rw [View.information, Parts.information, hdomain, hdigest]
  rfl

end Parts

namespace ImgRef

/-- What the comparison of two parsed references sees of them. -/
theorem partialCmp_information {a b : String} {img img' : ImgRef} {v v' : View}
    (himg : ImgRef.new a = .ok img) (himg' : ImgRef.new b = .ok img') (hv : img.Shows v)
    (hv' : img'.Shows v') :
    img.partialCmp img' = some (compare v'.information v.information) ∧
      (img.partialCmp img' = some .eq ↔ v.domain.isSome = v'.domain.isSome ∧
        v.tag.isSome = v'.tag.isSome ∧ v.digest.isSome = v'.digest.isSome) := by
  obtain ⟨p, span, rfl, hp, rfl⟩ := ImgRef.new_eq_ok.mp himg
  obtain ⟨q, span', rfl, hq, rfl⟩ := ImgRef.new_eq_ok.mp himg'
  have hcmp : ImgRef.partialCmp ⟨p.print, span⟩ ⟨q.print, span'⟩ =
      some (compare v'.information v.information) := by
    rw [ImgRef.partialCmp, RefSpan.partialCmp_eq, hp.information, hq.information,
      hp.view_information hv, hq.view_information hv']
  refine ⟨hcmp, ?_⟩
  rw [hcmp, Option.some_inj, compare_eq_iff_eq, View.information, View.information,
    Information.of_inj]
  simp only [eq_comm]

theorem partialCmp_information_texts :
    ∃ img img' v v', ImgRef.new "a:1" = .ok img ∧ ImgRef.new "b_c/d:e" = .ok img' ∧
      img.Shows v ∧ img'.Shows v' ∧ v.tag ≠ v'.tag ∧ img.partialCmp img' = some .eq := by
  obtain ⟨img, himg, htag, hdomain, hdigest⟩ := Outcome.Sat.exists_ok (by decide +kernel :
    (ImgRef.new "a:1").Sat (fun img => img.tag (ε := Empty) = .ok (some "1") ∧
      img.domain (ε := Empty) = .ok none ∧ img.digest (ε := Empty) = .ok none) fun _ => False)
  obtain ⟨img', himg', htag', hdomain', hdigest'⟩ := Outcome.Sat.exists_ok (by decide +kernel :
    (ImgRef.new "b_c/d:e").Sat (fun img => img.tag (ε := Empty) = .ok (some "e") ∧
      img.domain (ε := Empty) = .ok none ∧ img.digest (ε := Empty) = .ok none) fun _ => False)
  obtain ⟨v, hv⟩ := ImgRef.exists_shows himg
  obtain ⟨v', hv'⟩ := ImgRef.exists_shows himg'
  rw [hv.tag, Outcome.ok.injEq] at htag
  rw [hv.domain, Outcome.ok.injEq] at hdomain
  rw [hv.digest, Outcome.ok.injEq] at hdigest
  rw [hv'.tag, Outcome.ok.injEq] at htag'
  rw [hv'.domain, Outcome.ok.injEq] at hdomain'
  rw [hv'.digest, Outcome.ok.injEq] at hdigest'
  refine ⟨img, img', v, v', himg, himg', hv, hv', ?_, ?_⟩
  · rw [htag, htag']
    decide
  · apply (partialCmp_information himg himg' hv hv').2.mpr
    rw [htag, htag', hdomain, hdomain', hdigest, hdigest']
    exact ⟨rfl, rfl, rfl⟩

theorem partialCmp_of_spans {p q : Parts} {span span' : RefSpan} (hp : p.Spans span)
    (hq : q.Spans span') (h : p.information < q.information) :
    ImgRef.partialCmp ⟨q.print, span'⟩ ⟨p.print, span⟩ = some .lt := by
  rw [ImgRef.partialCmp, RefSpan.partialCmp_eq, hp.information, hq.information,
    compare_lt_iff_lt.mpr h]

end ImgRef

namespace Parts

variable {p q : Parts}

theorem pinned_eq {r d : String} (hr : byte '@' ∉ asBytes r) (hp : r = p.print)
    (hq : r ++ "@" ++ d = q.print) :
    q.domain = p.domain ∧ q.tag = p.tag ∧ p.digest = none ∧ q.digest = some d := by
  obtain ⟨hname, hdigest⟩ := print_eq_pinned hr hq
  have hnone : ∀ x, (none : Option String) = some x → (DigestSpan.new x).Succeeds := by simp
  have hprint : r = (q.withDigest none hnone).print := by
    rw [hname, print, withDigest, digestText, String.append_empty]
    rfl
  obtain rfl : p = q.withDigest none hnone := RefSpan.print_injective (hp.symm.trans hprint)
  exact ⟨rfl, rfl, rfl, hdigest⟩

/-- A digest adds information. -/
theorem information_lt_pinned {r d : String} (hr : byte '@' ∉ asBytes r) (hp : r = p.print)
    (hq : r ++ "@" ++ d = q.print) : p.information < q.information := by
  obtain ⟨hdomain, htag, hnone, hsome⟩ := pinned_eq hr hp hq
  rw [information, information, hdomain, htag, hnone, hsome]
  exact Information.digest_lt ..

/-- A tag adds information, and more than a digest does. -/
theorem information_lt_tagged {t : String} (hp : p.tag = none) (hq : q.tag = some t)
    (hname : q.name = p.name) : p.information < q.information := by
  rw [information, information, (eq_of_name hname).1, hp, hq]
  exact Information.tag_lt ..

end Parts

/-- Attaching a part to a reference moves it before the references without that part. -/
theorem attached_before (r : String) {img : ImgRef} (himg : ImgRef.new r = .ok img) :
    (∀ d pinned, byte '@' ∉ asBytes r → ImgRef.new (r ++ "@" ++ d) = .ok pinned →
        pinned.partialCmp img = some .lt) ∧
      ∀ t tagged, byte '/' ∉ asBytes t → byte '@' ∉ asBytes t →
        img.tag (ε := Empty) = .ok none → img.digest (ε := Empty) = .ok none →
        ImgRef.new (r ++ ":" ++ t) = .ok tagged → tagged.partialCmp img = some .lt ∧
          ∀ d pinned, ImgRef.new (r ++ "@" ++ d) = .ok pinned →
            tagged.partialCmp pinned = some .lt := by
  obtain ⟨p, span, rfl, hp, rfl⟩ := ImgRef.new_eq_ok.mp himg
  constructor
  · intro d pinned hr hpinned
    obtain ⟨q, span', hq, hspans, rfl⟩ := ImgRef.new_eq_ok.mp hpinned
    exact ImgRef.partialCmp_of_spans hp hspans (Parts.information_lt_pinned hr rfl hq)
  · intro t tagged hslash hat htag hdigest htagged
    obtain ⟨htag, hdigest⟩ := hp.bare htag hdigest
    obtain ⟨q, span', hq, hspans, rfl⟩ := ImgRef.new_eq_ok.mp htagged
    obtain ⟨hname, hqtag, -⟩ := Parts.eq_tagged htag hdigest hslash hat hq
    refine ⟨ImgRef.partialCmp_of_spans hp hspans
      (Parts.information_lt_tagged htag hqtag hname), ?_⟩
    intro d pinned hpinned
    obtain ⟨o, span'', ho, hospans, rfl⟩ := ImgRef.new_eq_ok.mp hpinned
    have hr : byte '@' ∉ asBytes p.print := by
      rw [Parts.print_bare htag hdigest]
      exact p.at_not_mem_name
    obtain ⟨hodomain, hotag, -, -⟩ := Parts.pinned_eq hr rfl ho
    apply ImgRef.partialCmp_of_spans hospans hspans
    rw [Parts.information, Parts.information, hodomain, hotag, htag, hqtag,
      (Parts.eq_of_name hname).1]
    exact Information.tag_lt ..

theorem attached_before_pinned :
    ∃ img tagged pinned, ImgRef.new "a" = .ok img ∧ ImgRef.new ("a" ++ ":" ++ "1") = .ok tagged ∧
      ImgRef.new ("a" ++ "@" ++ "x:0") = .ok pinned ∧ pinned.partialCmp img = some .lt ∧
      tagged.partialCmp pinned = some .lt := by
  obtain ⟨img, himg, htag, hdigest⟩ := Outcome.Sat.exists_ok (by decide +kernel :
    (ImgRef.new "a").Sat (fun img => img.tag (ε := Empty) = .ok none ∧
      img.digest (ε := Empty) = .ok none) fun _ => False)
  obtain ⟨tagged, htagged, -⟩ := Outcome.Sat.exists_ok (by decide +kernel :
    (ImgRef.new ("a" ++ ":" ++ "1")).Sat (fun _ => True) fun _ => False)
  obtain ⟨pinned, hpinned, -⟩ := Outcome.Sat.exists_ok (by decide +kernel :
    (ImgRef.new ("a" ++ "@" ++ "x:0")).Sat (fun _ => True) fun _ => False)
  obtain ⟨hdigests, htags⟩ := attached_before "a" himg
  refine ⟨img, tagged, pinned, himg, htagged, hpinned,
    hdigests "x:0" pinned (by decide) hpinned, ?_⟩
  exact (htags "1" tagged (by decide) (by decide) htag hdigest htagged).2 "x:0" pinned hpinned

end ContainerImageDistRef
