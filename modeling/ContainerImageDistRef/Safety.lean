import ContainerImageDistRef.Accessors

/-!
# No panic, and errors that point into the source

No input reaches a panic, neither in the two constructors nor in an accessor
of what they return. The index of an error cuts the source inside its leading
ASCII text.
-/

namespace ContainerImageDistRef

open ByteString

/-- The accessors of a name do not panic. -/
def Name.Safe (name : Name) : Prop :=
  (name.domain (ε := Empty)).NoPanic ∧ (name.path (ε := Empty)).NoPanic

def Domain.Safe (domain : Domain) : Prop :=
  (domain.host (ε := Empty)).NoPanic ∧ (domain.port (ε := Empty)).NoPanic

def Digest.Safe (digest : Digest) : Prop :=
  (digest.algorithm (ε := Empty)).NoPanic ∧ (digest.encoded (ε := Empty)).NoPanic

/-- No accessor of the reference panics, nor one of what it returns. The port is read with
`get`, which cannot panic. -/
structure ImgRef.Safe (img : ImgRef) : Prop where
  name : (img.name (ε := Empty)).Sat Name.Safe fun _ => False
  domain : (img.domain (ε := Empty)).Sat (fun d => ∀ x, d = some x → x.Safe) fun _ => False
  path : (img.path (ε := Empty)).NoPanic
  tag : (img.tag (ε := Empty)).NoPanic
  digest : (img.digest (ε := Empty)).Sat (fun d => ∀ x, d = some x → x.Safe) fun _ => False

structure CanonicalImgRef.Safe (img : CanonicalImgRef) : Prop where
  name : (img.name (ε := Empty)).Sat Name.Safe fun _ => False
  domain : (img.domain (ε := Empty)).Sat Domain.Safe fun _ => False
  path : (img.path (ε := Empty)).NoPanic
  tag : (img.tag (ε := Empty)).NoPanic
  digest : (img.digest (ε := Empty)).Sat Digest.Safe fun _ => False

namespace Parts

variable {p : Parts} {span : RefSpan}

theorem Spans.name_safe (h : p.Spans span) : (p.view span).name.Safe :=
  ⟨Outcome.noPanic_of_eq (name_domain h), Outcome.noPanic_of_eq (name_path h)⟩

theorem Spans.domain_safe (h : p.Spans span) : ∀ x, (p.view span).domain = some x → x.Safe := by
  intro x hx
  rcases h.view_domain with ⟨-, hv⟩ | ⟨d, s, -, hv, hs⟩
  · cases hx.symm.trans hv
  · cases hx.symm.trans hv
    exact ⟨Outcome.noPanic_of_eq (host_eq hs), Outcome.noPanic_of_eq (port_eq hs)⟩

theorem Spans.digest_safe (h : p.Spans span) : ∀ x, (p.view span).digest = some x → x.Safe := by
  intro x hx
  rcases h.view_digest with ⟨-, hv⟩ | ⟨d, s, -, hv, hs⟩
  · cases hx.symm.trans hv
  · cases hx.symm.trans hv
    obtain ⟨a, e, -, ha, he⟩ := digest_eq hs
    exact ⟨Outcome.noPanic_of_eq ha, Outcome.noPanic_of_eq he⟩

theorem Spans.safe (h : p.Spans span) : ImgRef.Safe ⟨p.print, span⟩ where
  name := by
    rw [h.shows.name]
    exact h.name_safe
  domain := by
    rw [h.shows.domain]
    exact h.domain_safe
  path := Outcome.noPanic_of_eq h.shows.path
  tag := Outcome.noPanic_of_eq h.shows.tag
  digest := by
    rw [h.shows.digest]
    exact h.digest_safe

theorem Spans.canonical_safe (h : p.Spans span) {d : DomainParts} {g : String}
    (hd : p.domain = some d) (hg : p.digest = some g) :
    CanonicalImgRef.Safe ⟨p.print, ⟨span⟩⟩ where
  name := by
    rw [(h.canonical_shows hd hg).name]
    exact h.name_safe
  domain := by
    obtain ⟨x, hx, hdomain⟩ := (h.canonical_shows hd hg).domain
    rw [hdomain]
    exact h.domain_safe x hx
  path := Outcome.noPanic_of_eq (h.canonical_shows hd hg).path
  tag := Outcome.noPanic_of_eq (h.canonical_shows hd hg).tag
  digest := by
    obtain ⟨x, hx, hdigest⟩ := (h.canonical_shows hd hg).digest
    rw [hdigest]
    exact h.digest_safe x hx

/-- All the text of a reference without a digest is ASCII. -/
theorem isAscii_print (p : Parts) (hg : p.digest = none) : IsAscii p.print := by
  have hpre : IsAscii p.pathPrefix := by
    rw [pathPrefix]
    cases p.domain with
    | none => decide
    | some d =>
      have hbyte : ∀ c, isHostByte c = true → c < 128 := forall_byte (by decide)
      exact IsAscii.append (fun c hc => hbyte c (isHostByte_of_mem d c hc)) (by decide)
  rw [print_eq, hg]
  refine (hpre.append (isAscii_of_path p.path_mem)).append (IsAscii.append ?_ (by decide))
  exact isAscii_tagText fun x hx => (p.tag_mem x hx).1

/-- Without a digest, the index at which one is missed is the end. -/
theorem Spans.digestIndex_none (h : p.Spans span) (hg : p.digest = none) :
    asU16 span.digestIndex = len p.print := by
  have hprint : len p.print = len p.name + len (tagText p.tag) := by
    rw [print, hg, digestText, String.append_empty, len_append]
  have hindex : span.digestIndex = len p.print := by
    rw [RefSpan.digestIndex, RefSpan.tagIndex, h.len_name, hprint]
    rcases rel_cases h.digest with ⟨-, hs⟩ | ⟨d, s, hd, -, -⟩
    · rw [hs]
      rcases rel_cases h.tag with ⟨ht, hs⟩ | ⟨t, s, ht, hs, hlen⟩
      · rw [ht, hs]
        rfl
      · rw [ht, hs, len_tagText_some, ← hlen]
        simp only [Option.map_some, Option.getD_some, Option.map_none, Option.getD_none]
        omega
    · cases hg.symm.trans hd
  have hbound : len p.print ≤ maxU8 + 1 + 129 := by
    have hle : len (p.name ++ tagText p.tag) ≤ maxU8 + 1 + 129 :=
      RefSpan.len_tagged_le p.name_le RefSpan.tag_le
    rwa [len_append, ← hprint] at hle
  have hmax : maxU8 + 1 + 129 ≤ maxU16 := by decide
  rw [hindex, asU16]
  exact Nat.mod_eq_of_lt (by omega)

/-- A reference that is not canonical lacks a domain, or a digest after all of its text. -/
theorem Spans.canonical_sat (h : p.Spans span) :
    (CanonicalSpan.fromSpan span).Sat (fun _ => True) fun e => AsciiUpTo p.print e.index := by
  rw [CanonicalSpan.fromSpan]
  refine Outcome.Sat.bind (P := fun _ => True) (Outcome.sat_okOr (fun _ _ => trivial)
    fun _ => asciiUpTo_zero _) fun _ _ => ?_
  refine Outcome.Sat.bind (P := fun _ => True) (Outcome.sat_okOr (fun _ _ => trivial)
    fun hs => ?_) fun _ _ => trivial
  have hg : p.digest = none := by
    rcases rel_cases h.digest with ⟨hg, -⟩ | ⟨d, s, -, hs', -⟩
    · exact hg
    · cases hs.symm.trans hs'
  dsimp only
  rw [h.digestIndex_none hg]
  exact (isAscii_print p hg).upTo

end Parts

theorem ImgRef.new_sat (src : String) :
    (ImgRef.new src).Sat (fun _ => True) fun e => AsciiUpTo src e.index :=
  Outcome.Sat.bind (RefSpan.new_sat src) fun _ _ => trivial

theorem CanonicalImgRef.new_sat (src : String) :
    (CanonicalImgRef.new src).Sat (fun _ => True) fun e => AsciiUpTo src e.index := by
  have hspan : (CanonicalSpan.new src).Sat (fun _ => True) fun e => AsciiUpTo src e.index := by
    apply Outcome.Sat.bind (RefSpan.new_sat src)
    intro span
    rintro ⟨p, rfl, hp⟩
    exact hp.canonical_sat
  exact Outcome.Sat.bind hspan fun _ _ => trivial

/-- No input makes a constructor or an accessor panic. -/
theorem no_panic (src : String) :
    (ImgRef.new src).Sat ImgRef.Safe (fun _ => True) ∧
      (CanonicalImgRef.new src).Sat CanonicalImgRef.Safe fun _ => True := by
  constructor
  · cases himg : ImgRef.new src with
    | ok img =>
      obtain ⟨p, span, rfl, hp, rfl⟩ := ImgRef.new_eq_ok.mp himg
      exact hp.safe
    | err e => exact trivial
    | panic c => exact (ImgRef.new_sat src).ne_panic c himg
  · cases hc : CanonicalImgRef.new src with
    | ok c =>
      obtain ⟨p, span, rfl, hp, ⟨d, hd⟩, ⟨g, hg⟩, rfl⟩ := CanonicalImgRef.new_eq_ok.mp hc
      exact hp.canonical_safe hd hg
    | err e => exact trivial
    | panic cause => exact (CanonicalImgRef.new_sat src).ne_panic cause hc

/-- The index of an error cuts the source between characters, after ASCII text only. -/
theorem error_index_slices {src : String} {e : Error}
    (h : ImgRef.new src = .err e ∨ CanonicalImgRef.new src = .err e) :
    e.index ≤ len src ∧ (∀ c ∈ (asBytes src).take e.index, c < 128) ∧
      ∃ text, sliceTo (ε := Empty) src e.index = .ok text := by
  have hascii : AsciiUpTo src e.index := by
    rcases h with h | h
    · exact (ImgRef.new_sat src).of_err h
    · exact (CanonicalImgRef.new_sat src).of_err h
  obtain ⟨u, v, huv, hindex⟩ := isCharBoundary_iff.mp hascii.isCharBoundary
  refine ⟨hascii.1, hascii.2, u, ?_⟩
  rw [huv, hindex, sliceTo_append]

theorem error_index_slices_eacute :
    ∃ e, ImgRef.new "aé" = .err e ∧ e.index = 1 ∧
      ∃ text, sliceTo (ε := Empty) "aé" e.index = .ok text := by
  have herr : ImgRef.new "aé" = .err ⟨1, .hostOrPathInvalidChar⟩ := by decide +kernel
  exact ⟨_, herr, rfl, (error_index_slices (Or.inl herr)).2.2⟩

end ContainerImageDistRef
