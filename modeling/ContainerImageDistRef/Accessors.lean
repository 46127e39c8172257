import ContainerImageDistRef.Parsing

/-!
# What the accessors return

Each accessor recomputes the offset of its part from the stored lengths. On
the print of some parts the offsets fall on the places where the parts meet,
so every accessor returns its part and none panics.
-/

namespace ContainerImageDistRef

open ByteString

/-- The values of the accessors of a reference. -/
structure View where
  name : Name
  domain : Option Domain
  port : Option String
  path : Path
  tag : Option String
  digest : Option Digest
  deriving DecidableEq, Repr

/-- Every accessor of the reference returns its value in the view. -/
structure ImgRef.Shows (img : ImgRef) (v : View) : Prop where
  name : img.name (ε := Empty) = .ok v.name
  domain : img.domain (ε := Empty) = .ok v.domain
  port : img.port = v.port
  path : img.path (ε := Empty) = .ok v.path
  tag : img.tag (ε := Empty) = .ok v.tag
  digest : img.digest (ε := Empty) = .ok v.digest

/-- The same for the accessors of a canonical reference, which has no accessor for the port. -/
structure CanonicalImgRef.Shows (img : CanonicalImgRef) (v : View) : Prop where
  name : img.name (ε := Empty) = .ok v.name
  domain : ∃ d, v.domain = some d ∧ img.domain (ε := Empty) = .ok d
  path : img.path (ε := Empty) = .ok v.path
  tag : img.tag (ε := Empty) = .ok v.tag
  digest : ∃ d, v.digest = some d ∧ img.digest (ε := Empty) = .ok d

namespace Parts

variable {p : Parts} {span : RefSpan}

/-- The view of a reference that has been printed from parts. -/
def view (p : Parts) (span : RefSpan) : View where
  name := ⟨p.name, span.name⟩
  domain := Option.map₂ (fun d s => ⟨DomainParts.text d, s⟩) p.domain span.name.domain
  port := p.domain.bind DomainParts.port
  path := ⟨p.path, span.name.path⟩
  tag := p.tag
  digest := Option.map₂ (fun d s => ⟨d, s⟩) p.digest span.digest

/-- The text before the path. -/
def pathPrefix (p : Parts) : String :=
  match p.domain with
  | none => ""
  | some d => d.text ++ "/"

/-- The text before the digest, with its separator. -/
def beforeDigest (p : Parts) : String := p.name ++ tagText p.tag ++ "@"

theorem name_eq (p : Parts) : p.name = p.pathPrefix ++ p.path := by
  cases hd : p.domain with
  | none => rw [name, pathPrefix, hd, nameText, String.empty_append]
  | some d => rw [name, pathPrefix, hd, nameText]

theorem Spans.pathIndex (h : p.Spans span) : span.pathIndex = len p.pathPrefix := by
  rw [RefSpan.pathIndex, pathPrefix]
  rcases rel_cases h.domain with ⟨hd, hs⟩ | ⟨d, s, hd, hs, hx⟩
  · rw [hd, hs]
    rfl
  · rw [hd, hs]
    dsimp only
    rw [len_append]
    exact congrArg (· + 1) hx.len

theorem Spans.len_name (h : p.Spans span) :
    span.pathIndex + span.name.path.length.val = len p.name := by
  rw [h.pathIndex, h.path, name_eq, len_append]

theorem Spans.pathRange (h : p.Spans span) :
    span.pathRange = (len p.pathPrefix, len p.pathPrefix + len p.path) := by
  have hindex := h.pathIndex
  rw [RefSpan.pathIndex] at hindex
  rw [RefSpan.pathRange, ← h.path, ← hindex]
  cases span.name.domain with
  | none => simp only [Option.map_none, Option.getD_none, Nat.zero_add]
  | some d => rfl

/-- The length of a name is stored without saturation. -/
theorem Spans.shortLen (h : p.Spans span) :
    ∃ l, span.name.shortLen (ε := Empty) = .ok l ∧ l.val = len p.name := by
  have hname := h.len_name
  have hle : len p.name ≤ maxU8 := p.name_le
  have hpos := span.name.path.length.pos
  have hmax : maxU8 ≤ maxU16 := by decide
  have hdomain : ((span.name.domain.map fun d => saturatingAddU16 d.shortLen.val 1).getD 0) =
      span.pathIndex := by
    rw [RefSpan.pathIndex]
    rw [RefSpan.pathIndex] at hname
    cases hd : span.name.domain with
    | none => rfl
    | some d =>
      rw [hd] at hname
      simp only [Option.map_some, Option.getD_some, DomainSpan.len] at hname ⊢
      exact saturatingAddU16_of_le (by omega)
  have hnew : LongLength.new (len p.name) = some ⟨len p.name, by omega, by omega⟩ :=
    Length.new_eq_some.mpr rfl
  refine ⟨⟨len p.name, by omega, by omega⟩, ?_, rfl⟩
  rw [NameSpan.shortLen, hdomain, ShortLength.widen_val, saturatingAddU16_of_le (by omega),
    Nat.add_comm, hname, LongLength.nonzero, hnew]

theorem Spans.tagIndex (h : p.Spans span) {t : String} (ht : p.tag = some t) :
    span.tagIndex = len (p.name ++ ":") := by
  obtain ⟨s, hs, -⟩ := rel_some h.tag ht
  rw [RefSpan.tagIndex, h.len_name, len_append, hs]
  rfl

theorem Spans.digestIndex (h : p.Spans span) {d : String} (hd : p.digest = some d) :
    span.digestIndex = len p.beforeDigest := by
  have hat : len "@" = 1 := rfl
  obtain ⟨s, hs, -⟩ := rel_some h.digest hd
  rw [RefSpan.digestIndex, RefSpan.tagIndex, h.len_name, beforeDigest, len_append, len_append,
    hs, hat]
  simp only [Option.map_some, Option.getD_some]
  rcases rel_cases h.tag with ⟨ht, ht'⟩ | ⟨t, t', ht, ht', hlen⟩
  · rw [ht, ht']
    rfl
  · rw [ht, ht', len_tagText_some]
    simp only [Option.map_some, Option.getD_some, hlen]
    omega

theorem print_eq (p : Parts) :
    p.print = p.pathPrefix ++ p.path ++ (tagText p.tag ++ digestText p.digest) := by
  rw [print, name_eq, String.append_assoc]

/-- A domain stands at the start of the text. -/
theorem print_domain {d : DomainParts} (hd : p.domain = some d) :
    p.print = d.text ++ ("/" ++ p.path ++ (tagText p.tag ++ digestText p.digest)) := by
  rw [print_eq, pathPrefix, hd]
  simp only [String.append_assoc]

theorem getRange_domain {d : DomainParts} (hd : p.domain = some d) :
    getRange p.print 0 (len d.text) = some d.text := by
  have hcut := getRange_append "" d.text ("/" ++ p.path ++ (tagText p.tag ++ digestText p.digest))
  rwa [String.empty_append, ← print_domain hd, len_empty, Nat.zero_add] at hcut

theorem getRange_tag {t : String} (ht : p.tag = some t) :
    getRange p.print (len (p.name ++ ":")) (len (p.name ++ ":") + len t) = some t := by
  rw [print, ht, tagText, ← String.append_assoc, getRange_append]

theorem print_digest (p : Parts) {d : String} (hd : p.digest = some d) :
    p.print = p.beforeDigest ++ d := by
  rw [print, beforeDigest, hd, digestText, ← String.append_assoc]

theorem getRange_digest {d : String} (hd : p.digest = some d) :
    getRange p.print (len p.beforeDigest) (len p.beforeDigest + len d) = some d := by
  have hcut := getRange_append p.beforeDigest d ""
  rwa [String.append_empty, ← print_digest p hd] at hcut

theorem fromSpan_name (h : p.Spans span) :
    Name.fromSpan (ε := Empty) span.name p.name = .ok ⟨p.name, span.name⟩ := by
  obtain ⟨l, hl, hlen⟩ := h.shortLen
  rw [Name.fromSpan, hl, Outcome.ok_bind, Outcome.assert_true hlen, Outcome.ok_bind]

theorem fromSpan_path (h : p.Spans span) :
    Path.fromSpan (ε := Empty) span.name.path p.path = .ok ⟨p.path, span.name.path⟩ := by
  rw [Path.fromSpan, Outcome.assert_true h.path, Outcome.ok_bind]

theorem fromSpan_domain {d : DomainParts} {s : DomainSpan} (hs : s.Spans d.host d.port) :
    Domain.fromSpan (ε := Empty) s d.text = .ok ⟨d.text, s⟩ := by
  have hlen : s.len = len d.text := hs.len
  rw [Domain.fromSpan, Outcome.assert_true hlen, Outcome.ok_bind]

theorem slice_path (h : p.Spans span) :
    slice (ε := Empty) p.print span.pathRange.1 span.pathRange.2 = .ok p.path := by
  rw [h.pathRange, print_eq, slice_append]

/-- The port stands between the host and the slash. -/
theorem getRange_port (d : DomainParts) {q : String} (hq : d.port = some q) (rest : String) :
    getRange (d.text ++ rest) (len d.host + 1) (len d.host + 1 + len q) = some q := by
  have hcolon : len d.host + 1 = len (d.host ++ ":") := (len_append d.host ":").symm
  have htext : d.text ++ rest = d.host ++ ":" ++ q ++ rest := by
    rw [DomainParts.text, hq, DomainSpan.text]
  rw [hcolon, htext, getRange_append]

theorem Spans.port (h : p.Spans span) :
    ImgRef.port ⟨p.print, span⟩ = p.domain.bind DomainParts.port := by
  rw [ImgRef.port, RefSpan.portRange]
  rcases rel_cases h.domain with ⟨hd, hs⟩ | ⟨d, s, hd, hs, hx⟩
  · rw [hd, hs]
    rfl
  · have hport := hx.port
    rw [hd, hs, print_domain hd]
    simp only [Option.bind_eq_bind, Option.bind_some, hx.host.length]
    cases hq : d.port with
    | none =>
      rw [hq] at hport
      rw [Option.map_eq_none_iff.mp hport]
      rfl
    | some q =>
      rw [hq] at hport
      obtain ⟨ps, hps, hlen⟩ := Option.map_eq_some_iff.mp hport
      simp only [hps, Option.bind_some, hlen]
      exact getRange_port d hq _

/-- The range of the tag, where there is one, cuts out the tag. -/
theorem Spans.tagRange (h : p.Spans span) :
    Option.Rel (fun t range => getRange p.print range.1 range.2 = some t) p.tag
      span.tagRange := by
  rw [RefSpan.tagRange]
  rcases rel_cases h.tag with ⟨ht, hs⟩ | ⟨t, s, ht, hs, hlen⟩
  · rw [ht, hs]
    exact .none
  · rw [h.tagIndex ht, ht, hs]
    refine .some ?_
    dsimp only
    rw [hlen, getRange_tag ht]

theorem getFrom_digest (h : p.Spans span) {d : String} (hd : p.digest = some d) :
    getFrom p.print span.digestIndex = some d := by
  have hlen : len p.print = len p.beforeDigest + len d := by rw [print_digest p hd, len_append]
  rw [getFrom, h.digestIndex hd, hlen, getRange_digest hd]

/-- Every accessor returns its part. -/
theorem Spans.shows (h : p.Spans span) : ImgRef.Shows ⟨p.print, span⟩ (p.view span) where
  name := by
    obtain ⟨l, hl, hlen⟩ := h.shortLen
    rw [ImgRef.name, ImgRef.nameStr, NameSpan.spanOf, hl, Outcome.ok_bind, hlen, print,
      String.append_assoc, sliceTo_append, Outcome.ok_bind, fromSpan_name h]
    rfl
  domain := by
    rw [ImgRef.domain, view]
    rcases rel_cases h.domain with ⟨hd, hs⟩ | ⟨d, s, hd, hs, hx⟩
    · rw [hd, hs]
      rfl
    · have hlen : s.len = len d.text := hx.len
      rw [hd, hs, print_domain hd]
      dsimp only
      rw [hlen, sliceTo_append, Outcome.ok_bind, fromSpan_domain hx]
      rfl
  port := h.port
  path := by
    rw [ImgRef.path, ImgRef.pathStr, slice_path h, Outcome.ok_bind, fromSpan_path h]
    rfl
  tag := by
    rw [ImgRef.tag, view]
    rcases rel_cases h.tagRange with ⟨ht, hr⟩ | ⟨t, range, ht, hr, hget⟩
    · rw [hr, ht]
    · rw [hr, ht]
      dsimp only
      rw [hget]
      rfl
  digest := by
    rw [ImgRef.digest, view]
    rcases rel_cases h.digest with ⟨hd, hs⟩ | ⟨d, s, hd, hs, -⟩
    · rw [hs, hd]
      rfl
    · rw [hs, hd]
      dsimp only
      rw [getFrom_digest h hd]
      rfl

section Shown

theorem Spans.view_domain (h : p.Spans span) :
    (p.domain = none ∧ (p.view span).domain = none) ∨
      ∃ d s, p.domain = some d ∧ (p.view span).domain = some ⟨d.text, s⟩ ∧
        s.Spans d.host d.port := by
  rw [view]
  rcases rel_cases h.domain with ⟨hd, hs⟩ | ⟨d, s, hd, hs, hx⟩
  · exact Or.inl ⟨hd, by rw [hd, hs]; rfl⟩
  · exact Or.inr ⟨d, s, hd, by rw [hd, hs]; rfl, hx⟩

theorem Spans.view_digest (h : p.Spans span) :
    (p.digest = none ∧ (p.view span).digest = none) ∨
      ∃ d s, p.digest = some d ∧ (p.view span).digest = some ⟨d, s⟩ ∧
        DigestSpan.new d = .ok s := by
  rw [view]
  rcases rel_cases h.digest with ⟨hd, hs⟩ | ⟨d, s, hd, hs, hx⟩
  · exact Or.inl ⟨hd, by rw [hd, hs]; rfl⟩
  · exact Or.inr ⟨d, s, hd, by rw [hd, hs]; rfl, hx⟩

theorem Spans.map_toStr (h : p.Spans span) :
    (p.view span).digest.map Digest.toStr = p.digest := by
  rcases h.view_digest with ⟨hd, hv⟩ | ⟨d, s, hd, hv, -⟩
  · rw [hd, hv]
    rfl
  · rw [hd, hv]
    rfl

/-- Parts that show no digest have none. -/
theorem Spans.undigested (h : p.Spans span)
    (hdigest : ImgRef.digest (ε := Empty) ⟨p.print, span⟩ = .ok none) : p.digest = none := by
  rw [← h.map_toStr, Outcome.ok.inj (h.shows.digest.symm.trans hdigest)]
  rfl

/-- Parts that show neither a tag nor a digest have none. -/
theorem Spans.bare (h : p.Spans span) (htag : ImgRef.tag (ε := Empty) ⟨p.print, span⟩ = .ok none)
    (hdigest : ImgRef.digest (ε := Empty) ⟨p.print, span⟩ = .ok none) :
    p.tag = none ∧ p.digest = none :=
  ⟨Outcome.ok.inj (h.shows.tag.symm.trans htag), h.undigested hdigest⟩

end Shown

section Inner

theorem host_eq {d : DomainParts} {s : DomainSpan} (hs : s.Spans d.host d.port) :
    Domain.host (ε := Empty) ⟨d.text, s⟩ = .ok ⟨s.host.kind, d.host⟩ := by
  have htext : ∃ rest, d.text = d.host ++ rest := by
    rw [DomainParts.text, DomainSpan.text.eq_def]
    cases d.port with
    | none => exact ⟨"", (String.append_empty).symm⟩
    | some q => exact ⟨":" ++ q, String.append_assoc ..⟩
  obtain ⟨rest, hrest⟩ := htext
  have hlen := hs.host.length
  rw [Domain.host, hlen, hrest, sliceTo_append, Outcome.ok_bind, Host.fromSpan,
    Outcome.assert_true hlen, Outcome.ok_bind, hlen, sliceTo_len, Outcome.ok_bind]

theorem port_eq {d : DomainParts} {s : DomainSpan} (hs : s.Spans d.host d.port) :
    Domain.port (ε := Empty) ⟨d.text, s⟩ = .ok d.port :=
  Domain.port_of_reads hs.reads

theorem name_toStr (h : p.Spans span) :
    Name.toStr (ε := Empty) ⟨p.name, span.name⟩ = .ok p.name := by
  obtain ⟨l, hl, hlen⟩ := h.shortLen
  rw [Name.toStr, NameSpan.spanOf, hl, Outcome.ok_bind, hlen, sliceTo_len]

theorem name_domain (h : p.Spans span) :
    Name.domain (ε := Empty) ⟨p.name, span.name⟩ = .ok (p.view span).domain := by
  rw [Name.domain, view]
  rcases rel_cases h.domain with ⟨hd, hs⟩ | ⟨d, s, hd, hs, hx⟩
  · rw [hd, hs]
    rfl
  · have hlen : s.len = len d.text := hx.len
    have hname : p.name = d.text ++ ("/" ++ p.path) := by
      rw [name, hd, nameText, String.append_assoc]
    rw [hd, hs, hname]
    dsimp only
    rw [hlen, sliceTo_append, Outcome.ok_bind, fromSpan_domain hx]
    rfl

theorem name_path (h : p.Spans span) :
    Name.path (ε := Empty) ⟨p.name, span.name⟩ = .ok (p.view span).path := by
  have hindex := h.pathIndex
  rw [RefSpan.pathIndex] at hindex
  rw [Name.path, hindex, name_eq, sliceFrom_append, Outcome.ok_bind, fromSpan_path h]
  rfl

theorem path_toStr (h : p.Spans span) :
    Path.toStr (ε := Empty) ⟨p.path, span.name.path⟩ = .ok p.path := by
  rw [Path.toStr, h.path, sliceTo_len]

theorem digest_eq {d : String} {s : DigestSpan} (hs : DigestSpan.new d = .ok s) :
    ∃ a e, d = DigestSpan.text a e ∧ Digest.algorithm (ε := Empty) ⟨d, s⟩ = .ok ⟨a⟩ ∧
      Digest.encoded (ε := Empty) ⟨d, s⟩ = .ok ⟨e⟩ := by
  obtain ⟨a, e, rfl, hspans⟩ := (DigestSpan.new_sat d).of_ok hs
  exact ⟨a, e, rfl, Digest.algorithm_eq hspans, Digest.encoded_eq hspans⟩

end Inner

section Canonical

theorem path_ne_empty (p : Parts) : p.path ≠ "" := by
  have h := RefSpan.path_ne_empty p.path_mem ""
  rwa [String.append_empty] at h

theorem name_ne_empty (p : Parts) : p.name ≠ "" := by
  intro hnil
  rw [name_eq, ← len_eq_zero, len_append] at hnil
  exact path_ne_empty p (len_eq_zero.mp (by omega))

theorem digest_ne_empty {g : String} {span : DigestSpan} (h : DigestSpan.new g = .ok span) :
    g ≠ "" := by
  rintro rfl
  have hpos := span.shortLen.pos
  rw [(DigestSpan.len_of_new h).1, len_empty] at hpos
  exact absurd hpos (by decide)

theorem Spans.canonical_name (h : p.Spans span) :
    CanonicalImgRef.name (ε := Empty) ⟨p.print, ⟨span⟩⟩ = .ok ⟨p.name, span.name⟩ := by
  have hrange : span.nameRange = (0, len p.name) := by rw [RefSpan.nameRange, h.len_name]
  rw [CanonicalImgRef.name, CanonicalImgRef.nameStr, hrange]
  dsimp only
  rw [← sliceTo, print, String.append_assoc, sliceTo_append, Outcome.ok_bind,
    Outcome.assert_true (name_ne_empty p), Outcome.ok_bind, Outcome.ok_bind, fromSpan_name h]

theorem canonical_domain {d : DomainParts} {s : DomainSpan} (hd : p.domain = some d)
    (hs : span.name.domain = some s) (hx : s.Spans d.host d.port) :
    CanonicalImgRef.domain (ε := Empty) ⟨p.print, ⟨span⟩⟩ = .ok ⟨d.text, s⟩ := by
  have hlen : s.len = len d.text := hx.len
  rw [CanonicalImgRef.domain, CanonicalImgRef.domainStr, hs]
  dsimp only [CanonicalImgRef.unwrap]
  rw [hlen, getRange_domain hd, Outcome.ok_bind, Outcome.assert_true Option.isSome_some,
    Outcome.ok_bind, Outcome.ok_bind]
  exact fromSpan_domain hx

theorem Spans.canonical_path (h : p.Spans span) :
    CanonicalImgRef.path (ε := Empty) ⟨p.print, ⟨span⟩⟩ = .ok ⟨p.path, span.name.path⟩ := by
  rw [CanonicalImgRef.path, CanonicalImgRef.pathStr, slice_path h, Outcome.ok_bind,
    Outcome.assert_true (path_ne_empty p), Outcome.ok_bind, Outcome.ok_bind, fromSpan_path h]

theorem Spans.canonical_digest (h : p.Spans span) {g : String} {gs : DigestSpan}
    (hg : p.digest = some g) (hgs : span.digest = some gs) (hgx : DigestSpan.new g = .ok gs) :
    CanonicalImgRef.digest (ε := Empty) ⟨p.print, ⟨span⟩⟩ = .ok ⟨g, gs⟩ := by
  have hfrom : sliceFrom (ε := Empty) p.print span.digestIndex = .ok g := by
    have hget := getFrom_digest h hg
    rw [getFrom] at hget
    rw [sliceFrom, slice, hget]
  rw [CanonicalImgRef.digest, RefSpan.digestRange, hgs]
  dsimp only [CanonicalImgRef.unwrap, Option.map_some]
  rw [Outcome.ok_bind, hfrom, Outcome.ok_bind, Outcome.assert_true (digest_ne_empty hgx),
    Outcome.ok_bind, Outcome.ok_bind]
  rfl

/-- A canonical reference has a domain and a digest, and then its accessors return the same. -/
theorem Spans.canonical_shows (h : p.Spans span) {d : DomainParts} {g : String}
    (hd : p.domain = some d) (hg : p.digest = some g) :
    CanonicalImgRef.Shows ⟨p.print, ⟨span⟩⟩ (p.view span) := by
  obtain ⟨s, hs, hx⟩ := rel_some h.domain hd
  obtain ⟨gs, hgs, hgx⟩ := rel_some h.digest hg
  have hdomain : (p.view span).domain = some ⟨d.text, s⟩ := by
    rw [view, hd, hs]
    rfl
  have hdigest : (p.view span).digest = some ⟨g, gs⟩ := by
    rw [view, hg, hgs]
    rfl
  exact ⟨h.canonical_name, ⟨_, hdomain, canonical_domain hd hs hx⟩, h.canonical_path,
    h.shows.tag, ⟨_, hdigest, h.canonical_digest hg hgs hgx⟩⟩

end Canonical

end Parts

section Accepted

/-- A string is accepted when it is the print of some parts. -/
theorem ImgRef.new_eq_ok {src : String} {img : ImgRef} :
    ImgRef.new src = .ok img ↔
      ∃ (p : Parts) (span : RefSpan), src = p.print ∧ p.Spans span ∧ img = ⟨p.print, span⟩ := by
  rw [ImgRef.new, Outcome.bind_eq_ok]
  constructor
  · rintro ⟨span, hspan, ⟨⟩⟩
    obtain ⟨p, rfl, hp⟩ := RefSpan.new_eq_ok.mp hspan
    exact ⟨p, span, rfl, hp, rfl⟩
  · rintro ⟨p, span, rfl, hp, rfl⟩
    exact ⟨span, RefSpan.new_eq_ok.mpr ⟨p, rfl, hp⟩, rfl⟩

theorem CanonicalSpan.fromSpan_eq_ok {span : RefSpan} {c : CanonicalSpan} :
    CanonicalSpan.fromSpan span = .ok c ↔
      (∃ d, span.name.domain = some d) ∧ (∃ g, span.digest = some g) ∧ c = ⟨span⟩ := by
  rw [CanonicalSpan.fromSpan, Outcome.bind_eq_ok]
  constructor
  · rintro ⟨d, hd, hrest⟩
    rw [Outcome.bind_eq_ok] at hrest
    obtain ⟨g, hg, ⟨⟩⟩ := hrest
    exact ⟨⟨d, Outcome.okOr_eq_ok.mp hd⟩, ⟨g, Outcome.okOr_eq_ok.mp hg⟩, rfl⟩
  · rintro ⟨⟨d, hd⟩, ⟨g, hg⟩, rfl⟩
    refine ⟨d, Outcome.okOr_eq_ok.mpr hd, ?_⟩
    rw [hg, Outcome.okOr_some, Outcome.ok_bind]

/-- A canonical reference is a reference with a domain and a digest. -/
theorem CanonicalImgRef.new_eq_ok {src : String} {c : CanonicalImgRef} :
    CanonicalImgRef.new src = .ok c ↔
      ∃ (p : Parts) (span : RefSpan), src = p.print ∧ p.Spans span ∧
        (∃ d, p.domain = some d) ∧ (∃ g, p.digest = some g) ∧ c = ⟨p.print, ⟨span⟩⟩ := by
  have hparts : ∀ {p : Parts} {span : RefSpan}, p.Spans span →
      ((∃ d, span.name.domain = some d) ↔ ∃ d, p.domain = some d) ∧
      ((∃ g, span.digest = some g) ↔ ∃ g, p.digest = some g) := by
    intro p span h
    constructor
    · rcases Parts.rel_cases h.domain with ⟨hd, hs⟩ | ⟨d, s, hd, hs, -⟩ <;> simp [hd, hs]
    · rcases Parts.rel_cases h.digest with ⟨hd, hs⟩ | ⟨d, s, hd, hs, -⟩ <;> simp [hd, hs]
  rw [CanonicalImgRef.new, Outcome.bind_eq_ok]
  simp only [CanonicalSpan.new, Outcome.bind_eq_ok, CanonicalSpan.fromSpan_eq_ok]
  constructor
  · rintro ⟨_, ⟨span, hspan, hd, hg, rfl⟩, ⟨⟩⟩
    obtain ⟨p, rfl, hp⟩ := RefSpan.new_eq_ok.mp hspan
    exact ⟨p, span, rfl, hp, (hparts hp).1.mp hd, (hparts hp).2.mp hg, rfl⟩
  · rintro ⟨p, span, rfl, hp, hd, hg, rfl⟩
    exact ⟨⟨span⟩, ⟨span, RefSpan.new_eq_ok.mpr ⟨p, rfl, hp⟩, (hparts hp).1.mpr hd,
      (hparts hp).2.mpr hg, rfl⟩, rfl⟩

end Accepted

end ContainerImageDistRef
