import ContainerImageDistRef.Language
import ContainerImageDistRef.Safety

/-!
# Canonical references

A canonical reference is a reference whose name begins with a domain and that
has a digest. The conversion of a parsed reference and the parser of canonical
references refuse the same strings with the same errors, and the way back to a
plain reference forgets nothing.
-/

namespace ContainerImageDistRef

open ByteString Grammar

/-- The texts of a canonical reference. -/
structure CanonicalText (name : String) (tag : Option String) (digest : String) : Prop where
  text : ReferenceText name tag (some digest)
  domained : ¬Undomained (asBytes name)

/-- What a reference lacks that is not canonical. -/
inductive Lacks (src : String) : Error → Prop
  | host {name : String} {tag digest : Option String}
      (hsrc : src = name ++ tagText tag ++ digestText digest)
      (htext : ReferenceText name tag digest) (hname : Undomained (asBytes name)) :
      Lacks src ⟨0, .hostMissing⟩
  | digest {name : String} {tag : Option String} (hsrc : src = name ++ tagText tag)
      (htext : ReferenceText name tag none) (hname : ¬Undomained (asBytes name)) :
      Lacks src ⟨len src, .algorithmMissing⟩

namespace Parts

variable {p : Parts} {span : RefSpan}

theorem Spans.domain_eq_none (h : p.Spans span) : span.name.domain = none ↔ p.domain = none := by
  rcases rel_cases h.domain with ⟨hd, hs⟩ | ⟨d, s, hd, hs, -⟩ <;> simp [hd, hs]

theorem Spans.digest_eq_none (h : p.Spans span) : span.digest = none ↔ p.digest = none := by
  rcases rel_cases h.digest with ⟨hd, hs⟩ | ⟨d, s, hd, hs, -⟩ <;> simp [hd, hs]

/-- The domain is missed before the digest. -/
theorem Spans.fromSpan_eq (h : p.Spans span) : CanonicalSpan.fromSpan span =
    if p.domain = none then .err ⟨0, .hostMissing⟩
    else if p.digest = none then .err ⟨len p.print, .algorithmMissing⟩
    else .ok ⟨span⟩ := by
  rw [CanonicalSpan.fromSpan]
  cases hd : span.name.domain with
  | none =>
    rw [if_pos (h.domain_eq_none.mp hd)]
    rfl
  | some d =>
    have hdomain : p.domain ≠ none := by
      intro hnone
      cases hd.symm.trans (h.domain_eq_none.mpr hnone)
    rw [if_neg hdomain, Outcome.okOr_some, Outcome.ok_bind]
    cases hg : span.digest with
    | none =>
      have hdigest := h.digest_eq_none.mp hg
      rw [if_pos hdigest, h.digestIndex_none hdigest]
      rfl
    | some g =>
      rw [if_neg, Outcome.okOr_some, Outcome.ok_bind]
      intro hnone
      cases hg.symm.trans (h.digest_eq_none.mpr hnone)

theorem Spans.fromSpan_err (h : p.Spans span) {e : Error}
    (he : CanonicalSpan.fromSpan span = .err e) : Lacks p.print e := by
  rw [h.fromSpan_eq] at he
  split at he
  · rename_i hd
    cases he
    exact .host rfl p.referenceText (p.domain_eq_none_iff.mp hd)
  split at he
  · rename_i hd hg
    cases he
    have htext := p.referenceText
    rw [hg] at htext
    refine .digest ?_ htext fun hname => hd (p.domain_eq_none_iff.mpr hname)
    rw [print, hg, digestText, String.append_empty]
  · cases he

end Parts

/-- What is missing does not depend on how the string is read. -/
theorem Lacks.parts {src : String} {e : Error} (h : Lacks src e) : ∃ p : Parts,
    src = p.print ∧ (p.domain = none ∧ e = ⟨0, .hostMissing⟩ ∨
      p.domain ≠ none ∧ p.digest = none ∧ e = ⟨len p.print, .algorithmMissing⟩) := by
  cases h with
  | host hsrc htext hname =>
    obtain ⟨p, rfl, rfl, rfl⟩ := htext.exists_parts
    exact ⟨p, hsrc, Or.inl ⟨p.domain_eq_none_iff.mpr hname, rfl⟩⟩
  | digest hsrc htext hname =>
    obtain ⟨p, rfl, rfl, hg⟩ := htext.exists_parts
    have hprint : src = p.print := by
      rw [hsrc, Parts.print, hg, digestText, String.append_empty]
    refine ⟨p, hprint, Or.inr ⟨fun hd => hname (p.domain_eq_none_iff.mp hd), hg, ?_⟩⟩
    rw [hprint]

theorem CanonicalImgRef.new_eq (src : String) :
    CanonicalImgRef.new src = ImgRef.new src >>= ImgRef.tryInto := by
  rw [CanonicalImgRef.new, CanonicalSpan.new, ImgRef.new]
  cases RefSpan.new src <;> rfl

/-- Converting an accepted reference. -/
theorem Parts.Spans.tryInto {p : Parts} {span : RefSpan} (h : p.Spans span) :
    ImgRef.tryInto ⟨p.print, span⟩ = CanonicalImgRef.new p.print := by
  rw [CanonicalImgRef.new_eq, ImgRef.new_eq_ok.mpr ⟨p, span, rfl, h, rfl⟩, Outcome.ok_bind]

theorem CanonicalImgRef.new_eq_err {src : String} {e : Error} :
    CanonicalImgRef.new src = .err e ↔ ImgRef.new src = .err e ∨ Lacks src e := by
  rw [CanonicalImgRef.new_eq, Outcome.bind_eq_err]
  apply or_congr_right
  constructor
  · rintro ⟨img, himg, herr⟩
    obtain ⟨p, span, rfl, hp, rfl⟩ := ImgRef.new_eq_ok.mp himg
    rw [ImgRef.tryInto, Outcome.bind_eq_err] at herr
    rcases herr with herr | ⟨c, -, herr⟩
    · exact hp.fromSpan_err herr
    · cases herr
  · intro h
    obtain ⟨p, rfl, hcases⟩ := h.parts
    obtain ⟨span, -, hp⟩ := RefSpan.new_print p
    refine ⟨⟨p.print, span⟩, ImgRef.new_eq_ok.mpr ⟨p, span, rfl, hp, rfl⟩, ?_⟩
    rw [ImgRef.tryInto, RefSpan.tryInto, hp.fromSpan_eq]
    rcases hcases with ⟨hd, rfl⟩ | ⟨hd, hg, rfl⟩
    · rw [if_pos hd]
      rfl
    · rw [if_neg hd, if_pos hg]
      rfl

/-- The canonical references, and the error of every other string. -/
theorem canonical_accepted_iff (src : String) :
    ((CanonicalImgRef.new src).Succeeds ↔ ∃ name tag digest,
        src = name ++ tagText tag ++ digestText (some digest) ∧
          CanonicalText name tag digest) ∧
      ∀ e, CanonicalImgRef.new src = .err e ↔ ImgRef.new src = .err e ∨ Lacks src e := by
  constructor
  · constructor
    · rintro ⟨c, hc⟩
      obtain ⟨p, span, rfl, -, ⟨d, hd⟩, ⟨g, hg⟩, -⟩ := CanonicalImgRef.new_eq_ok.mp hc
      have htext := p.referenceText
      rw [hg] at htext
      refine ⟨p.name, p.tag, g, ?_, htext, ?_⟩
      · rw [Parts.print, hg]
      · intro hname
        cases hd.symm.trans (p.domain_eq_none_iff.mpr hname)
    · rintro ⟨name, tag, digest, rfl, htext, hname⟩
      obtain ⟨p, rfl, rfl, hg⟩ := htext.exists_parts
      obtain ⟨span, -, hp⟩ := RefSpan.new_print p
      have hd : p.domain ≠ none := fun hd => hname (p.domain_eq_none_iff.mp hd)
      rw [← hg]
      exact ⟨_, CanonicalImgRef.new_eq_ok.mpr ⟨p, span, rfl, hp,
        Option.ne_none_iff_exists'.mp hd, ⟨digest, hg⟩, rfl⟩⟩
  · intro e
    exact CanonicalImgRef.new_eq_err

/-- The conversions between the two kinds of reference. -/
theorem canonical_conversions (src : String) :
    (∀ c, CanonicalImgRef.new src = .ok c →
      ImgRef.new src = .ok (.fromCanonical c) ∧ (ImgRef.fromCanonical c).tryInto = .ok c) ∧
      ∀ img, ImgRef.new src = .ok img →
        img.tryInto = CanonicalImgRef.new src ∧
          (img.tryInto.Succeeds ↔ (∃ d, img.domain (ε := Empty) = .ok (some d)) ∧
            ∃ g, img.digest (ε := Empty) = .ok (some g)) ∧
          ∀ c, img.tryInto = .ok c → ImgRef.fromCanonical c = img := by
  constructor
  · intro c hc
    obtain ⟨p, span, rfl, hp, -, -, rfl⟩ := CanonicalImgRef.new_eq_ok.mp hc
    refine ⟨ImgRef.new_eq_ok.mpr ⟨p, span, rfl, hp, rfl⟩, ?_⟩
    exact hp.tryInto.trans hc
  · intro img himg
    obtain ⟨p, span, rfl, hp, rfl⟩ := ImgRef.new_eq_ok.mp himg
    refine ⟨hp.tryInto, ?_, ?_⟩
    · obtain ⟨hdomain, hdigest⟩ := hp.view_isSome
      simp only [hp.shows.domain, hp.shows.digest, Outcome.ok.injEq,
        ← Option.isSome_iff_exists, hdomain, hdigest]
      rw [hp.tryInto]
      constructor
      · rintro ⟨c, hc⟩
        obtain ⟨q, span', hq, -, hd, hg, -⟩ := CanonicalImgRef.new_eq_ok.mp hc
        obtain rfl : p = q := RefSpan.print_injective hq
        exact ⟨Option.isSome_iff_exists.mpr hd, Option.isSome_iff_exists.mpr hg⟩
      · rintro ⟨hd, hg⟩
        exact ⟨_, CanonicalImgRef.new_eq_ok.mpr ⟨p, span, rfl, hp,
          Option.isSome_iff_exists.mp hd, Option.isSome_iff_exists.mp hg, rfl⟩⟩
    · intro c hc
      rw [ImgRef.tryInto, Outcome.bind_eq_ok] at hc
      obtain ⟨s, hs, ⟨⟩⟩ := hc
      obtain ⟨-, -, rfl⟩ := CanonicalSpan.fromSpan_eq_ok.mp hs
      rfl

end ContainerImageDistRef
