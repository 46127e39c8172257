import ContainerImageDistRef.Accessors

/-!
# Pinning by digest

Attaching a digest to a reference without one changes neither whether the rest
is accepted nor what it means.
-/

namespace ContainerImageDistRef

open ByteString Grammar

namespace Parts

/-- The same reference with another digest, or with none. -/
def withDigest (p : Parts) (digest : Option String)
    (h : ∀ d, digest = some d → (DigestSpan.new d).Succeeds) : Parts :=
  { p with digest := digest, digest_ok := h }

variable {p : Parts} {span : RefSpan}

theorem at_not_mem_name (p : Parts) : byte '@' ∉ asBytes p.name := by
  have hpath : byte '@' ∉ asBytes p.path := fun hmem =>
    absurd (isPathByte_of_mem p.path_mem _ hmem) (by decide)
  rw [name, nameText.eq_def]
  cases p.domain with
  | none => exact hpath
  | some d =>
    simp only [asBytes_append, List.mem_append, not_or]
    exact ⟨⟨fun hmem => absurd (isHostByte_of_mem d _ hmem) (by decide), by decide⟩, hpath⟩

theorem at_not_mem_tagText (p : Parts) : byte '@' ∉ asBytes (tagText p.tag) := by
  cases ht : p.tag with
  | none => simp [tagText]
  | some t =>
    rw [tagText, asBytes_append, List.mem_append, not_or]
    constructor
    · decide
    · intro hmem
      exact absurd ((p.tag_mem t ht).1.forall _ hmem) (by decide)

/-- Only a digest brings an `@`. -/
theorem at_not_mem (p : Parts) : byte '@' ∉ asBytes (p.name ++ tagText p.tag) := by
  rw [asBytes_append, List.mem_append, not_or]
  exact ⟨p.at_not_mem_name, p.at_not_mem_tagText⟩

theorem digest_eq_none {r : String} (hr : byte '@' ∉ asBytes r) (h : r = p.print) :
    p.digest = none := by
  cases hd : p.digest with
  | none => rfl
  | some d =>
    rw [h, print, hd, digestText] at hr
    refine absurd ?_ hr
    simp only [asBytes_append, List.mem_append]
    exact Or.inr (Or.inl (by decide))

theorem print_withDigest (p : Parts) (d : String)
    (h : ∀ x, some d = some x → (DigestSpan.new x).Succeeds) (hp : p.digest = none) :
    (p.withDigest (some d) h).print = p.print ++ "@" ++ d := by
  have hprint : p.print = p.name ++ tagText p.tag := by
    rw [print, hp, digestText, String.append_empty]
  rw [hprint]
  exact (String.append_assoc ..).symm

/-- A reference that is pinned is read as the unpinned one and a digest. -/
theorem print_eq_pinned {r d : String} (hr : byte '@' ∉ asBytes r)
    (h : r ++ "@" ++ d = p.print) :
    r = p.name ++ tagText p.tag ∧ p.digest = some d := by
  cases hg : p.digest with
  | none =>
    rw [print, hg, digestText, String.append_empty] at h
    have hmem : byte '@' ∈ asBytes (r ++ "@" ++ d) := by
      simp only [asBytes_append, List.mem_append]
      exact Or.inl (Or.inr (by decide))
    rw [h] at hmem
    exact absurd hmem p.at_not_mem
  | some g =>
    have hprint : p.print = p.name ++ tagText p.tag ++ "@" ++ g := by
      rw [print, hg, digestText, ← String.append_assoc]
    obtain ⟨hname, hdigest⟩ :=
      append_inj_of_notMem "@" rfl hr p.at_not_mem (h.trans hprint)
    exact ⟨hname, congrArg some hdigest.symm⟩

theorem Spans.withDigest (h : p.Spans span) {dg : Option String} {s : Option DigestSpan}
    (hdg : ∀ d, dg = some d → (DigestSpan.new d).Succeeds)
    (hs : Option.Rel (fun d s => DigestSpan.new d = .ok s) dg s) :
    (p.withDigest dg hdg).Spans { span with digest := s } :=
  ⟨h.domain, h.path, h.tag, hs⟩

/-- Where the unpinned reference and the digest are parsed, so is the pinned one. -/
theorem Spans.pin (h : p.Spans span) (hp : p.digest = none) {d : String} {s : DigestSpan}
    (hs : DigestSpan.new d = .ok s) :
    ImgRef.new (p.print ++ "@" ++ d) =
      .ok ⟨p.print ++ "@" ++ d, { span with digest := some s }⟩ := by
  have hdg : ∀ x, some d = some x → (DigestSpan.new x).Succeeds := by
    rintro _ ⟨⟩
    exact ⟨s, hs⟩
  rw [← print_withDigest p d hdg hp]
  exact ImgRef.new_eq_ok.mpr ⟨_, _, rfl, h.withDigest hdg (.some hs), rfl⟩

end Parts

/-- Attaching a digest is compositional. -/
theorem new_pinned_iff (r d : String) (hr : byte '@' ∉ asBytes r) :
    ((ImgRef.new (r ++ "@" ++ d)).Succeeds ↔
        (ImgRef.new r).Succeeds ∧ (DigestSpan.new d).Succeeds) ∧
      ∀ img img', ImgRef.new r = .ok img → ImgRef.new (r ++ "@" ++ d) = .ok img' →
        ∃ v v' s, img.Shows v ∧ img'.Shows v' ∧ v'.domain = v.domain ∧ v'.port = v.port ∧
          v'.path = v.path ∧ v'.tag = v.tag ∧ v'.name = v.name ∧
          DigestSpan.new d = .ok s ∧ v'.digest = some ⟨d, s⟩ := by
  refine ⟨⟨?_, ?_⟩, ?_⟩
  · rintro ⟨img, himg⟩
    obtain ⟨p, span, hsrc, hp, -⟩ := ImgRef.new_eq_ok.mp himg
    obtain ⟨hname, hg⟩ := Parts.print_eq_pinned hr hsrc
    have hnone : ∀ x, (none : Option String) = some x → (DigestSpan.new x).Succeeds := by simp
    have hr' : r = (p.withDigest none hnone).print := by
      rw [hname, Parts.print, Parts.withDigest, digestText, String.append_empty]
      rfl
    refine ⟨⟨_, ImgRef.new_eq_ok.mpr ⟨_, _, hr', hp.withDigest hnone .none, rfl⟩⟩, ?_⟩
    exact p.digest_ok d hg
  · rintro ⟨⟨img, himg⟩, s, hs⟩
    obtain ⟨p, span, rfl, hp, -⟩ := ImgRef.new_eq_ok.mp himg
    exact ⟨_, hp.pin (Parts.digest_eq_none hr rfl) hs⟩
  · intro img img' himg himg'
    obtain ⟨p, span, rfl, hp, rfl⟩ := ImgRef.new_eq_ok.mp himg
    obtain ⟨q, span', hsrc, hq, rfl⟩ := ImgRef.new_eq_ok.mp himg'
    have hdigest := Parts.digest_eq_none hr rfl
    obtain ⟨s, hs⟩ := q.digest_ok d (Parts.print_eq_pinned hr hsrc).2
    have hdg : ∀ x, some d = some x → (DigestSpan.new x).Succeeds := by
      rintro _ ⟨⟩
      exact ⟨s, hs⟩
    obtain rfl : q = p.withDigest (some d) hdg :=
      RefSpan.print_injective (hsrc.symm.trans (Parts.print_withDigest p d hdg hdigest).symm)
    obtain rfl := hq.span_unique (hp.withDigest hdg (.some hs))
    exact ⟨_, _, s, hp.shows, hq.shows, rfl, rfl, rfl, rfl, rfl, hs, rfl⟩

theorem new_pinned_iff_tagged :
    ∃ img img' v v', ImgRef.new "h.io/a:1" = .ok img ∧
      ImgRef.new ("h.io/a:1" ++ "@" ++ "x:0") = .ok img' ∧ img.Shows v ∧ img'.Shows v' ∧
      v'.domain = v.domain ∧ v'.tag = v.tag := by
  obtain ⟨hiff, hsame⟩ := new_pinned_iff "h.io/a:1" "x:0" (by decide)
  obtain ⟨img, himg⟩ : (ImgRef.new "h.io/a:1").Succeeds := by decide +kernel
  obtain ⟨img', himg'⟩ := hiff.mpr ⟨⟨img, himg⟩, by decide +kernel⟩
  obtain ⟨v, v', s, hv, hv', hdomain, -, -, htag, -⟩ := hsame img img' himg himg'
  exact ⟨img, img', v, v', himg, himg', hv, hv', hdomain, htag⟩

end ContainerImageDistRef
