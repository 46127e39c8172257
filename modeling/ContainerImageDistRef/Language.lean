import ContainerImageDistRef.Accessors
import ContainerImageDistRef.Digest.Language
import ContainerImageDistRef.Name.DomainLanguage

/-!
# The reference language

`reference ::= name (":" tag)? ("@" digest)?`, with the limits of the code. The
set of the accepted strings does not mention the choice between a host and a
first path component: a name that could be read both ways is accepted either
way. What the choice costs is one byte in the limit of a tag.
-/

namespace ContainerImageDistRef

open ByteString Grammar

/-- A reference shows one view. -/
theorem ImgRef.Shows.unique {img : ImgRef} {v w : View} (hv : img.Shows v) (hw : img.Shows w) :
    v = w := by
  obtain ⟨name, domain, port, path, tag, digest⟩ := v
  obtain ⟨name', domain', port', path', tag', digest'⟩ := w
  cases Outcome.ok.inj (hv.name.symm.trans hw.name)
  cases Outcome.ok.inj (hv.domain.symm.trans hw.domain)
  cases hv.port.symm.trans hw.port
  cases Outcome.ok.inj (hv.path.symm.trans hw.path)
  cases Outcome.ok.inj (hv.tag.symm.trans hw.tag)
  cases Outcome.ok.inj (hv.digest.symm.trans hw.digest)
  rfl

theorem ImgRef.exists_shows {src : String} {img : ImgRef} (h : ImgRef.new src = .ok img) :
    ∃ v, img.Shows v := by
  obtain ⟨p, span, -, hp, rfl⟩ := ImgRef.new_eq_ok.mp h
  exact ⟨_, hp.shows⟩

/-- `(domain "/")? path` -/
def IsName (name : String) : Prop :=
  asBytes name ∈ Grammar.path ∨
    ∃ d u, name = d ++ "/" ++ u ∧ IsDomain d ∧ asBytes u ∈ Grammar.path

/-- The texts of a reference. -/
structure ReferenceText (name : String) (tag digest : Option String) : Prop where
  name_mem : IsName name
  name_le : len name ≤ 255
  tag_mem : ∀ t, tag = some t → PortOrTag.TagText (asBytes t) ∧
    len t ≤ if byte '/' ∈ asBytes name then 129 else 128
  digest_mem : ∀ d, digest = some d → ∃ a e, d = a ++ ":" ++ e ∧ Digest.DigestText a e

/-- Without an underscore, a path component is a domain name. -/
theorem mem_domainName_of_pathComponent {x : List UInt8} (h : x ∈ pathComponent)
    (hunder : byte '_' ∉ x) : x ∈ domainName := by
  obtain ⟨g, -, hrun⟩ := HostOrPath.Shape.run_pathComponent (f := .neutral) (by simp) h
  obtain ⟨c, hc, hlower⟩ := head_of_mem_pathComponent h
  have hclass : ∀ c, isLowerAlnum c = true → ¬(c = byte '.' ∨ c = byte '-' ∨ c = byte '_') :=
    forall_byte (by decide)
  obtain ⟨-, hhost, hg⟩ := HostOrPath.segment_of_run hrun (by rintro rfl; cases hc)
    fun d hd => by
      cases hc.symm.trans hd
      exact hclass c hlower
  apply hhost
  rw [hg, HostOrPath.flavorOf, if_neg hunder]
  split <;> simp

namespace Parts

/-- The accessors show the optional parts that are there. -/
theorem Spans.view_isSome {p : Parts} {span : RefSpan} (h : p.Spans span) :
    (p.view span).domain.isSome = p.domain.isSome ∧
      (p.view span).digest.isSome = p.digest.isSome := by
  constructor
  · rcases h.view_domain with ⟨hd, hv⟩ | ⟨d, s, hd, hv, -⟩
    · rw [hd, hv]
      rfl
    · rw [hd, hv]
      rfl
  · rcases h.view_digest with ⟨hg, hv⟩ | ⟨g, s, hg, hv, -⟩
    · rw [hg, hv]
      rfl
    · rw [hg, hv]
      rfl

theorem Spans.view_domain_none {p : Parts} {span : RefSpan} (h : p.Spans span)
    (hd : p.domain = none) : (p.view span).domain = none := by
  have hsome := h.view_isSome.1
  rw [hd] at hsome
  exact Option.isNone_iff_eq_none.mp (by simpa using hsome)

theorem Spans.view_digest_none {p : Parts} {span : RefSpan} (h : p.Spans span)
    (hg : p.digest = none) : (p.view span).digest = none := by
  have hsome := h.view_isSome.2
  rw [hg] at hsome
  exact Option.isNone_iff_eq_none.mp (by simpa using hsome)

theorem isName (p : Parts) : IsName p.name := by
  cases hd : p.domain with
  | none =>
    rw [name_of_none hd]
    exact Or.inl p.path_mem
  | some d =>
    have hle := p.name_le
    rw [hd, len_nameText_some] at hle
    have hhost : len d.host ≤ maxU8 := by
      have htext : len d.host ≤ len d.text := by
        rw [DomainParts.text, DomainSpan.text.eq_def]
        split
        · exact Nat.le_refl _
        · rw [len_append, len_append, Nat.add_assoc]
          exact Nat.le_add_right _ _
      have hmax : Name.MAX_LEN = maxU8 := rfl
      omega
    refine Or.inr ⟨d.text, p.path, ?_, ⟨d.host, d.port, rfl, ?_, d.port_mem⟩, p.path_mem⟩
    · rw [name, hd, nameText]
    · exact isHost_iff.mpr ⟨d.host_mem, hhost⟩

theorem referenceText (p : Parts) : ReferenceText p.name p.tag p.digest where
  name_mem := p.isName
  name_le := p.name_le
  tag_mem := by
    intro t ht
    rw [← p.tagLimit_eq]
    exact p.tag_mem t ht
  digest_mem := by
    intro d hd
    obtain ⟨span, hspan⟩ := p.digest_ok d hd
    obtain ⟨a, e, rfl, hspans⟩ := (DigestSpan.new_sat d).of_ok hspan
    exact ⟨a, e, rfl, Digest.text_of_spans hspans⟩

end Parts

/-- A name has a domain in one of its readings. -/
theorem IsName.exists_domain {name : String} (h : IsName name) :
    ∃ (d : Option DomainParts) (path : String), nameText d path = name ∧
      asBytes path ∈ Grammar.path ∧ (d = none → Undomained (asBytes path)) := by
  rcases h with hpath | ⟨_, u, rfl, ⟨h, p, rfl, hhost, hport⟩, hu⟩
  · by_cases hshape : Undomained (asBytes name)
    · exact ⟨none, name, rfl, hpath, fun _ => hshape⟩
    · obtain ⟨x, hx, r, hr, hxr⟩ := mem_path.mp hpath
      rw [← hxr, undomained_iff hx hr, not_or] at hshape
      obtain ⟨hr0, hunder⟩ := hshape
      rcases pathRest_cases hr with rfl | ⟨y, hy, r', hr', rfl⟩
      · exact absurd rfl hr0
      · have hascii : ∀ c ∈ x ++ [byte '/'], c < 128 := by
          intro c hc
          rcases List.mem_append.mp hc with hc | hc
          · exact ascii_of_isComponentByte c (isComponentByte_of_mem hx c hc)
          · rw [List.mem_singleton.mp hc]
            decide
        obtain ⟨host, hhost⟩ := exists_of_ascii x fun c hc => hascii c (by simp [hc])
        obtain ⟨u, v, rfl, hu, hv⟩ := exists_append_of_ascii (r := y ++ r')
          (by rw [← hxr, List.append_cons]) hascii
        obtain rfl : u = host ++ "/" := by
          apply asBytes_inj.mp
          rw [hu, asBytes_append, hhost]
          rfl
        refine ⟨some ⟨host, none, ⟨.name, ?_⟩, by simp⟩, v, rfl, ?_, by simp⟩
        · change asBytes host ∈ domainName
          rw [hhost]
          exact mem_domainName_of_pathComponent hx hunder
        · rw [hv]
          exact mem_path.mpr ⟨y, hy, r', hr', rfl⟩
  · exact ⟨some ⟨h, p, (isHost_iff.mp hhost).1, hport⟩, u, rfl, hu, by simp⟩

theorem ReferenceText.exists_parts {name : String} {tag digest : Option String}
    (h : ReferenceText name tag digest) :
    ∃ p : Parts, p.name = name ∧ p.tag = tag ∧ p.digest = digest := by
  obtain ⟨d, path, rfl, hpath, hshape⟩ := h.name_mem.exists_domain
  have hdigest : ∀ g, digest = some g → (DigestSpan.new g).Succeeds := by
    intro g hg
    obtain ⟨a, e, rfl, htext⟩ := h.digest_mem g hg
    obtain ⟨span, hspan, -⟩ := htext.exists_spans
    exact ⟨span, hspan⟩
  let p : Parts := ⟨d, path, none, none, hpath, hshape, h.name_le, by simp, by simp⟩
  have htag : ∀ t, tag = some t → PortOrTag.TagText (asBytes t) ∧ len t ≤ tagLimit d path := by
    intro t ht
    have hlimit : tagLimit d path = _ := p.tagLimit_eq
    rw [hlimit]
    exact h.tag_mem t ht
  exact ⟨{ p with tag := tag, digest := digest, tag_mem := htag, digest_ok := hdigest },
    rfl, rfl, rfl⟩

/-- What is returned for a reference. -/
theorem ReferenceText.exists_view {name : String} {tag digest : Option String}
    (h : ReferenceText name tag digest) :
    ∃ img v, ImgRef.new (name ++ tagText tag ++ digestText digest) = .ok img ∧
      img.Shows v ∧ v.name.toStr (ε := Empty) = .ok name ∧ v.tag = tag ∧
      v.digest.map Digest.toStr = digest := by
  obtain ⟨p, rfl, rfl, rfl⟩ := h.exists_parts
  obtain ⟨span, -, hspans⟩ := RefSpan.new_print p
  exact ⟨_, p.view span, ImgRef.new_eq_ok.mpr ⟨p, span, rfl, hspans, rfl⟩, hspans.shows,
    Parts.name_toStr hspans, rfl, hspans.map_toStr⟩

/-- The references that are accepted, and the texts that are returned for them. -/
theorem reference_accepted_iff (src : String) :
    ((ImgRef.new src).Succeeds ↔ ∃ name tag digest,
        src = name ++ tagText tag ++ digestText digest ∧ ReferenceText name tag digest) ∧
      ∀ name tag digest, ReferenceText name tag digest →
        ∃ img v, ImgRef.new (name ++ tagText tag ++ digestText digest) = .ok img ∧
          img.Shows v ∧ v.name.toStr (ε := Empty) = .ok name ∧ v.tag = tag ∧
          v.digest.map Digest.toStr = digest := by
  constructor
  · constructor
    · rintro ⟨img, himg⟩
      obtain ⟨p, span, rfl, -, -⟩ := ImgRef.new_eq_ok.mp himg
      exact ⟨p.name, p.tag, p.digest, rfl, p.referenceText⟩
    · rintro ⟨name, tag, digest, rfl, h⟩
      obtain ⟨img, -, himg, -⟩ := h.exists_view
      exact ⟨img, himg⟩
  · intro name tag digest h
    exact h.exists_view

end ContainerImageDistRef
