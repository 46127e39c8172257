import ContainerImageDistRef.Accessors

/-!
# The reference parser and the parsers of its parts

Inside a reference a part is read ambiguously and narrowed later; on its own it
is read by its own parser. Both give the same span.
-/

namespace ContainerImageDistRef

open ByteString Grammar

/-- A span of a domain is what the standalone parser makes of its text. -/
theorem DomainSpan.new_of_spans {h : String} {p : Option String} {d : DomainSpan}
    (hd : d.Spans h p) : DomainSpan.new (DomainSpan.text h p) = .ok d := by
  have hlen : ByteString.len h ≤ maxU8 := hd.host.length ▸ d.host.length.le
  obtain ⟨d', hnew, hd'⟩ := DomainSpan.new_ok hd.host.text hlen hd.digits hd.bound
  rw [hnew, hd'.unique hd]

theorem TagSpan.new_of_length {t : String} {span : TagSpan}
    (ht : PortOrTag.TagText (asBytes t)) (hle : len t ≤ 129) (hlen : span.length.val = len t) :
    TagSpan.new t = .ok span := by
  obtain ⟨s, hs, hslen⟩ := TagSpan.new_ok "" ht hle (stopsAt_nil _)
  rw [String.append_empty] at hs
  have hsame : s.length = span.length := Length.ext (hslen.trans hlen.symm)
  cases s
  cases span
  cases hsame
  exact hs

/-- The standalone parsers read the parts of an accepted reference to their ends, into the
same spans. -/
theorem parts_reparse {src : String} {img : ImgRef} (h : ImgRef.new src = .ok img) :
    ∃ v, img.Shows v ∧
      (∀ d, v.domain = some d → img.span.name.domain = some d.span ∧
        DomainSpan.new d.toStr = .ok d.span ∧ d.span.len = len d.toStr) ∧
      (∃ path, v.path.toStr (ε := Empty) = .ok path ∧
        PathSpan.new path = .ok img.span.name.path ∧ img.span.name.path.length.val = len path) ∧
      (∀ t, v.tag = some t → ∃ s, img.span.tag = some s ∧ TagSpan.new t = .ok s ∧
        s.length.val = len t) ∧
      ∀ d, v.digest = some d → img.span.digest = some d.span ∧
        DigestSpan.new d.toStr = .ok d.span := by
  obtain ⟨p, span, rfl, hp, rfl⟩ := ImgRef.new_eq_ok.mp h
  refine ⟨p.view span, hp.shows, fun d hd => ?_,
    ⟨p.path, Parts.path_toStr hp, PathSpan.new_of_length p.path_mem hp.path, hp.path⟩,
    fun t ht => ?_, fun d hd => ?_⟩
  · rcases Parts.rel_cases hp.domain with ⟨hn, hs⟩ | ⟨x, s, hx, hs, hspans⟩
    · rw [Parts.view, hn] at hd
      cases hd
    · rw [Parts.view, hx, hs] at hd
      cases hd
      exact ⟨hs, DomainSpan.new_of_spans hspans, hspans.len⟩
  · rcases Parts.rel_cases hp.tag with ⟨hn, -⟩ | ⟨x, s, hx, hs, hlen⟩
    · cases ht.symm.trans hn
    · obtain rfl : t = x := Option.some.inj (ht.symm.trans hx)
      obtain ⟨htext, hle⟩ := p.tag_mem t hx
      exact ⟨s, hs, TagSpan.new_of_length htext (Nat.le_trans hle (Parts.tagLimit_le _ _)) hlen,
        hlen⟩
  · rcases Parts.rel_cases hp.digest with ⟨hn, hs⟩ | ⟨x, s, hx, hs, hnew⟩
    · rw [Parts.view, hn] at hd
      cases hd
    · rw [Parts.view, hx, hs] at hd
      cases hd
      exact ⟨hs, hnew⟩

theorem parts_reparse_ambiguous :
    ∃ img v d path t g, ImgRef.new "a.b:1/c_d:e@x:0" = .ok img ∧ img.Shows v ∧
      (v.domain = some d ∧ img.span.name.domain = some d.span ∧
        DomainSpan.new d.toStr = .ok d.span ∧ d.span.len = len d.toStr) ∧
      (v.path.toStr (ε := Empty) = .ok path ∧ PathSpan.new path = .ok img.span.name.path) ∧
      (v.tag = some t ∧ ∃ s, img.span.tag = some s ∧ TagSpan.new t = .ok s ∧
        s.length.val = len t) ∧
      v.digest = some g ∧ img.span.digest = some g.span ∧
        DigestSpan.new g.toStr = .ok g.span := by
  obtain ⟨img, himg, hsome⟩ := Outcome.Sat.exists_ok (by decide +kernel :
    (ImgRef.new "a.b:1/c_d:e@x:0").Sat (fun img =>
      (img.domain (ε := Empty)).Sat (fun d => d.isSome = true) (fun _ => False) ∧
      (img.tag (ε := Empty)).Sat (fun t => t.isSome = true) (fun _ => False) ∧
      (img.digest (ε := Empty)).Sat (fun g => g.isSome = true) fun _ => False) fun _ => False)
  obtain ⟨v, hv, hdomain, ⟨path, hpath, hnew, -⟩, htag, hdigest⟩ := parts_reparse himg
  obtain ⟨d, hd⟩ := Option.isSome_iff_exists.mp (hsome.1.of_ok hv.domain)
  obtain ⟨t, ht⟩ := Option.isSome_iff_exists.mp (hsome.2.1.of_ok hv.tag)
  obtain ⟨g, hg⟩ := Option.isSome_iff_exists.mp (hsome.2.2.of_ok hv.digest)
  exact ⟨img, v, d, path, t, g, himg, hv, ⟨hd, hdomain d hd⟩, ⟨hpath, hnew⟩, ⟨ht, htag t ht⟩,
    hg, hdigest g hg⟩

end ContainerImageDistRef
