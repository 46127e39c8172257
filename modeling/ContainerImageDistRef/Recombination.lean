import ContainerImageDistRef.Language
import ContainerImageDistRef.TagLanguage

/-!
# Taking references apart and putting them together

The parts of accepted references may be exchanged: a name takes the tag and the
digest of any other reference, or none, up to the one byte by which the limits
of the two tag routes differ. A path and a domain are references of their own,
but they are read anew: the first component of a path becomes a host where it
can, and a port becomes a tag.
-/

namespace ContainerImageDistRef

open ByteString Grammar

/-- A tag of some reference. -/
def IsTag (t : String) : Prop :=
  ∃ src img, ImgRef.new src = .ok img ∧ img.tag (ε := Empty) = .ok (some t)

/-- A digest of some reference. -/
def IsDigest (g : String) : Prop :=
  ∃ src img d, ImgRef.new src = .ok img ∧ img.digest (ε := Empty) = .ok (some d) ∧ d.toStr = g

theorem IsTag.text {t : String} (h : IsTag t) : PortOrTag.TagText (asBytes t) ∧ len t ≤ 129 := by
  obtain ⟨src, img, himg, htag⟩ := h
  obtain ⟨p, span, rfl, hp, rfl⟩ := ImgRef.new_eq_ok.mp himg
  exact RefSpan.tag_le t (Outcome.ok.inj (hp.shows.tag.symm.trans htag))

theorem IsDigest.ok {g : String} (h : IsDigest g) : (DigestSpan.new g).Succeeds := by
  obtain ⟨src, img, d, himg, hd, rfl⟩ := h
  obtain ⟨p, span, rfl, hp, rfl⟩ := ImgRef.new_eq_ok.mp himg
  have hview : (p.view span).digest = some d := Outcome.ok.inj (hp.shows.digest.symm.trans hd)
  rcases hp.view_digest with ⟨-, hv⟩ | ⟨g, s, -, hv, hs⟩
  · cases hview.symm.trans hv
  · cases hview.symm.trans hv
    exact ⟨s, hs⟩

namespace Parts

variable {p q : Parts} {span span' : RefSpan}

/-- Two readings of one name differ in the tag and in the digest only. -/
theorem view_eq (hp : p.Spans span) (hq : q.Spans span') (hname : q.name = p.name) :
    (q.view span').name = (p.view span).name ∧ (q.view span').domain = (p.view span).domain ∧
      (q.view span').port = (p.view span).port ∧ (q.view span').path = (p.view span).path := by
  obtain ⟨hdomain, hpath⟩ := eq_of_name hname
  have hspan := name_unique hq hp hdomain hpath
  simp only [view, hname, hdomain, hpath, hspan, and_self]

/-- The tag of a name without a slash keeps the shorter limit, whatever follows it. -/
theorem tag_le_of_print {p q : Parts} {t : String} {digest : Option String}
    (ht : PortOrTag.TagText (asBytes t)) (hslash : byte '/' ∉ asBytes p.name)
    (h : p.name ++ tagText (some t) ++ digestText digest = q.print) : len t ≤ 128 := by
  have hbyte : ∀ c, isTagByte c = true → c ≠ byte '/' ∧ c ≠ byte '@' := forall_byte (by decide)
  have hts : byte '/' ∉ asBytes t := fun hmem => (hbyte _ (ht.forall _ hmem)).1 rfl
  have hta : byte '@' ∉ asBytes t := fun hmem => (hbyte _ (ht.forall _ hmem)).2 rfl
  let bare : Parts :=
    { p with tag := none, tag_mem := by simp, digest := none, digest_ok := by simp }
  have hbare : bare.print = p.name := print_bare rfl rfl
  have hread : ∀ q : Parts, p.name ++ ":" ++ t = q.print → len t ≤ 128 := by
    intro q hq
    rw [← hbare] at hq
    obtain ⟨hname, htag, -⟩ := eq_tagged (p := bare) rfl rfl hts hta hq
    have hle := (q.tag_mem t htag).2
    rwa [q.tagLimit_eq, hname, if_neg (show byte '/' ∉ asBytes bare.name from hslash)] at hle
  rw [tagText, ← String.append_assoc] at h
  cases digest with
  | none =>
    rw [digestText, String.append_empty] at h
    exact hread q h
  | some g =>
    have hat : byte '@' ∉ asBytes (p.name ++ ":" ++ t) := by
      rw [asBytes_append, asBytes_append, List.mem_append, List.mem_append]
      rintro ((hmem | hmem) | hmem)
      · exact p.at_not_mem_name hmem
      · exact absurd hmem (by decide)
      · exact hta hmem
    rw [digestText, ← String.append_assoc] at h
    have hname := (print_eq_pinned hat h).1
    refine hread { q with digest := none, digest_ok := by simp } ?_
    rw [hname, print, digestText, String.append_empty]
    rfl

/-- A name takes the tag and the digest of any other reference. -/
theorem referenceText_exchange (p : Parts) {tag digest : Option String}
    (htag : ∀ t, tag = some t → IsTag t) (hdigest : ∀ g, digest = some g → IsDigest g)
    (hlimit : ¬(byte '/' ∉ asBytes p.name ∧ ∃ t, tag = some t ∧ len t = 129)) :
    ReferenceText p.name tag digest where
  name_mem := p.isName
  name_le := p.name_le
  tag_mem := by
    intro t ht
    obtain ⟨htext, hle⟩ := (htag t ht).text
    refine ⟨htext, ?_⟩
    split
    · exact hle
    · rename_i hslash
      have hne : len t ≠ 129 := fun heq => hlimit ⟨hslash, t, ht, heq⟩
      omega
  digest_mem := by
    intro g hg
    obtain ⟨s, hs⟩ := (hdigest g hg).ok
    obtain ⟨a, e, rfl, hspans⟩ := (DigestSpan.new_sat g).of_ok hs
    exact ⟨a, e, rfl, Digest.text_of_spans hspans⟩

end Parts

/-- The parts of accepted references may be exchanged. -/
theorem recombined_iff {src name : String} {img : ImgRef} {v : View} {tag digest : Option String}
    (himg : ImgRef.new src = .ok img) (hv : img.Shows v)
    (hname : v.name.toStr (ε := Empty) = .ok name) (htag : ∀ t, tag = some t → IsTag t)
    (hdigest : ∀ g, digest = some g → IsDigest g) :
    ((ImgRef.new (name ++ tagText tag ++ digestText digest)).Succeeds ↔
        ¬(byte '/' ∉ asBytes name ∧ ∃ t, tag = some t ∧ len t = 129)) ∧
      ∀ img', ImgRef.new (name ++ tagText tag ++ digestText digest) = .ok img' →
        ∃ v', img'.Shows v' ∧ v'.name = v.name ∧ v'.domain = v.domain ∧ v'.port = v.port ∧
          v'.path = v.path ∧ v'.tag = tag ∧ v'.digest.map Digest.toStr = digest := by
  obtain ⟨p, span, rfl, hp, rfl⟩ := ImgRef.new_eq_ok.mp himg
  obtain rfl := hv.unique hp.shows
  obtain rfl : p.name = name := Outcome.ok.inj ((Parts.name_toStr hp).symm.trans hname)
  have hlimit : ∀ img', ImgRef.new (p.name ++ tagText tag ++ digestText digest) = .ok img' →
      ¬(byte '/' ∉ asBytes p.name ∧ ∃ t, tag = some t ∧ len t = 129) := by
    rintro img' himg' ⟨hslash, t, rfl, ht⟩
    obtain ⟨q, span', hq, -, -⟩ := ImgRef.new_eq_ok.mp himg'
    have hle := Parts.tag_le_of_print (htag t rfl).text.1 hslash hq
    omega
  constructor
  · constructor
    · rintro ⟨img', himg'⟩
      exact hlimit img' himg'
    · intro hnot
      obtain ⟨img', -, himg', -⟩ := (p.referenceText_exchange htag hdigest hnot).exists_view
      exact ⟨img', himg'⟩
  · intro img' himg'
    have htext := p.referenceText_exchange htag hdigest (hlimit img' himg')
    obtain ⟨q, hqname, rfl, rfl⟩ := htext.exists_parts
    rw [← hqname] at himg'
    obtain ⟨o, span', ho, hspans, rfl⟩ := ImgRef.new_eq_ok.mp himg'
    obtain rfl : q = o := RefSpan.print_injective ho
    obtain ⟨hvname, hvdomain, hvport, hvpath⟩ := Parts.view_eq hp hspans hqname
    exact ⟨_, hspans.shows, hvname, hvdomain, hvport, hvpath, rfl, hspans.map_toStr⟩

theorem recombined_iff_retagged :
    ∃ img img' v v', ImgRef.new "h.io/a@x:0" = .ok img ∧ img.Shows v ∧
      ImgRef.new ("h.io/a" ++ tagText (some "v2") ++ digestText none) = .ok img' ∧
      img'.Shows v' ∧ v'.domain = v.domain ∧ v'.path = v.path ∧ v'.tag = some "v2" := by
  obtain ⟨img, himg, htext⟩ := Outcome.Sat.exists_ok (by decide +kernel :
    (ImgRef.new "h.io/a@x:0").Sat
      (fun img => (img.name (ε := Empty) >>= fun n => n.toStr) = .ok "h.io/a") fun _ => False)
  obtain ⟨other, hother, htag⟩ := Outcome.Sat.exists_ok (by decide +kernel :
    (ImgRef.new "b:v2").Sat (fun img => img.tag (ε := Empty) = .ok (some "v2")) fun _ => False)
  obtain ⟨v, hv⟩ := ImgRef.exists_shows himg
  rw [hv.name, Outcome.ok_bind] at htext
  have hv2 : ∀ t, some "v2" = some t → IsTag t := by
    rintro _ ⟨⟩
    exact ⟨"b:v2", other, hother, htag⟩
  have hnone : ∀ g, (none : Option String) = some g → IsDigest g := by simp
  obtain ⟨hiff, hparts⟩ := recombined_iff himg hv htext hv2 hnone
  obtain ⟨img', himg'⟩ := hiff.mpr fun hnot => hnot.1 (by decide)
  obtain ⟨v', hv', -, hdomain, -, hpath, htag', -⟩ := hparts img' himg'
  exact ⟨img, img', v, v', himg, hv, himg', hv', hdomain, hpath, htag'⟩

section Reread

/-- Without an uppercase letter, a domain name is a path component. -/
theorem mem_pathComponent_of_domainName {x : List UInt8} (h : x ∈ domainName)
    (hupper : ∀ c ∈ x, isUpper c = false) : x ∈ pathComponent := by
  obtain ⟨g, -, hrun⟩ := HostOrPath.Shape.run_domainName (f := .neutral) (by simp) h
  obtain ⟨c, hc, halnum⟩ := head_of_mem_domainName h
  have hclass : ∀ c, isAlnum c = true → ¬(c = byte '.' ∨ c = byte '-' ∨ c = byte '_') :=
    forall_byte (by decide)
  obtain ⟨hpath, -, hg⟩ := HostOrPath.segment_of_run hrun (by rintro rfl; cases hc)
    fun d hd => by
      cases hc.symm.trans hd
      exact hclass c halnum
  have hnone : ¬∃ c ∈ x, isUpper c = true := by
    rintro ⟨c, hc, hu⟩
    cases (hupper c hc).symm.trans hu
  apply hpath
  rw [hg, HostOrPath.flavorOf, if_neg (HostOrPath.not_underscore_of_domainName h), if_neg hnone]
  simp

variable {p : Parts}

/-- A text of path bytes that has a domain begins with a host name and has no port. -/
theorem Parts.domain_of_pathBytes {d : DomainParts} (hd : p.domain = some d)
    (hbytes : ∀ c ∈ asBytes p.name, isPathByte c = true) :
    d.port = none ∧ asBytes d.host ∈ domainName := by
  have hname := asBytes_name hd
  have hport : d.port = none := by
    cases hq : d.port with
    | none => rfl
    | some q =>
      have hmem : byte ':' ∈ asBytes p.name := by
        rw [hname, DomainParts.text, hq, DomainSpan.text, asBytes_sep ":" rfl]
        exact List.mem_append_left _ (List.mem_append_right _ List.mem_cons_self)
      exact absurd (hbytes _ hmem) (by decide)
  refine ⟨hport, ?_⟩
  obtain ⟨kind, hkind⟩ := d.host_mem
  cases kind with
  | name => exact hkind
  | ipv6 =>
    obtain ⟨c, hc, rfl⟩ := hkind.head
    have hmem : byte '[' ∈ asBytes p.name := by
      rw [hname, DomainParts.text, hport, DomainSpan.text]
      exact List.mem_append_left _ (List.mem_of_mem_head? hc)
    exact absurd (hbytes _ hmem) (by decide)

/-- The path of a reference is a reference, and its first component is a host where it can be
one. -/
theorem path_reread {src u : String} {img : ImgRef} (himg : ImgRef.new src = .ok img)
    (hu : (img.path (ε := Empty) >>= fun path => path.toStr) = .ok u) :
    ∃ img' v, ImgRef.new u = .ok img' ∧ img'.Shows v ∧ v.name.toStr (ε := Empty) = .ok u ∧
      v.tag = none ∧ v.digest = none ∧
      (Undomained (asBytes u) → v.domain = none ∧ v.path.toStr (ε := Empty) = .ok u) ∧
      (¬Undomained (asBytes u) → ∃ d host rest, v.domain = some d ∧
        d.host (ε := Empty) = .ok host ∧ host.kind = .name ∧ d.port (ε := Empty) = .ok none ∧
        v.path.toStr (ε := Empty) = .ok rest ∧ u = host.toStr ++ "/" ++ rest) := by
  obtain ⟨p, span, rfl, hp, rfl⟩ := ImgRef.new_eq_ok.mp himg
  obtain rfl : p.path = u := by
    rw [hp.shows.path, Outcome.ok_bind] at hu
    exact Outcome.ok.inj ((Parts.path_toStr hp).symm.trans hu)
  have hle : len p.path ≤ 255 := by
    have hname : len p.name ≤ Name.MAX_LEN := p.name_le
    rw [p.name_eq, len_append] at hname
    exact Nat.le_trans (Nat.le_add_left _ _) hname
  have htext : ReferenceText p.path none none :=
    ⟨Or.inl p.path_mem, hle, by simp, by simp⟩
  obtain ⟨q, hname, htag, hdigest⟩ := htext.exists_parts
  have hprint : p.path = q.print := (Parts.print_bare htag hdigest).symm ▸ hname.symm
  obtain ⟨span', -, hq⟩ := RefSpan.new_print q
  refine ⟨⟨q.print, span'⟩, q.view span', ImgRef.new_eq_ok.mpr ⟨q, span', hprint, hq, rfl⟩,
    hq.shows, hname ▸ Parts.name_toStr hq, htag, hq.view_digest_none hdigest, ?_, ?_⟩
  · intro hshape
    rw [← hname, ← q.domain_eq_none_iff] at hshape
    refine ⟨hq.view_domain_none hshape, ?_⟩
    rw [← hname, Parts.name_of_none hshape]
    exact Parts.path_toStr hq
  · intro hshape
    rw [← hname, ← q.domain_eq_none_iff] at hshape
    rcases hq.view_domain with ⟨hd, -⟩ | ⟨d, s, hd, hv, hs⟩
    · exact absurd hd hshape
    · obtain ⟨hport, hhost⟩ := Parts.domain_of_pathBytes hd fun c hc =>
        isPathByte_of_mem p.path_mem c (hname ▸ hc)
      refine ⟨_, _, q.path, hv, Parts.host_eq hs, ?_, ?_, Parts.path_toStr hq, ?_⟩
      · exact hs.host.text.unique hhost
      · rw [Parts.port_eq hs, hport]
      · rw [← hname, Parts.name, hd, nameText, DomainParts.text, hport]
        rfl

theorem path_reread_library :
    ∃ img img' v d, ImgRef.new "h.io/lib/a:t" = .ok img ∧ ImgRef.new "lib/a" = .ok img' ∧
      img'.Shows v ∧ v.domain = some d ∧ v.tag = none := by
  obtain ⟨img, himg, hpath⟩ := Outcome.Sat.exists_ok (by decide +kernel :
    (ImgRef.new "h.io/lib/a:t").Sat
      (fun img => (img.path (ε := Empty) >>= fun path => path.toStr) = .ok "lib/a") fun _ => False)
  obtain ⟨img', v, himg', hv, -, htag, -, -, hdomained⟩ := path_reread himg hpath
  obtain ⟨d, -, -, hd, -⟩ := hdomained (by rw [Undomained]; decide)
  exact ⟨img, img', v, d, himg, himg', hv, hd, htag⟩

theorem DomainParts.text_eq (d : DomainParts) : d.text = d.host ++ tagText d.port := by
  rw [DomainParts.text]
  cases d.port with
  | none => exact String.append_empty.symm
  | some q => exact String.append_assoc ..

/-- A domain that is read as a reference is a path and a tag. -/
theorem Parts.of_domain_text {d : DomainParts} {q : Parts} (h : d.text = q.print) :
    asBytes d.host ∈ domainName ∧ q.domain = none ∧ q.path = d.host ∧ q.tag = d.port ∧
      q.digest = none := by
  have hbytes := isHostByte_of_mem d
  rw [h] at hbytes
  have hat : byte '@' ∉ asBytes q.print := fun hmem => absurd (hbytes _ hmem) (by decide)
  have hdigest : q.digest = none := digest_eq_none hat rfl
  have hdomain : q.domain = none := by
    cases hd : q.domain with
    | none => rfl
    | some x =>
      have hmem : byte '/' ∈ asBytes q.print := by
        rw [print, asBytes_append, asBytes_append, asBytes_name hd]
        simp
      exact absurd (hbytes _ hmem) (by decide)
  have htext : d.host ++ tagText d.port = q.path ++ tagText q.tag := by
    rw [← d.text_eq, h, print, hdigest, digestText, String.append_empty, name_of_none hdomain]
  have hpath : byte ':' ∉ asBytes q.path := fun hmem =>
    absurd (isPathByte_of_mem q.path_mem _ hmem) (by decide)
  have hhost : asBytes d.host ∈ domainName := by
    obtain ⟨kind, hkind⟩ := d.host_mem
    cases kind with
    | name => exact hkind
    | ipv6 =>
      obtain ⟨c, hc, rfl⟩ := hkind.head
      obtain ⟨x, hx, r, -, hxr⟩ := mem_path.mp q.path_mem
      obtain ⟨e, he, hlower⟩ := head_of_mem_pathComponent hx
      have hheads : (asBytes (d.host ++ tagText d.port)).head? =
          (asBytes (q.path ++ tagText q.tag)).head? := by rw [htext]
      rw [asBytes_append, asBytes_append, List.head?_append, hc, ← hxr, List.append_assoc,
        List.head?_append, he] at hheads
      cases hheads
      exact absurd hlower (by decide)
  have hcolon : byte ':' ∉ asBytes d.host := fun hmem =>
    absurd (isDomainByte_of_mem hhost _ hmem) (by decide)
  refine ⟨hhost, hdomain, ?_⟩
  cases hport : d.port with
  | none =>
    cases htag : q.tag with
    | none =>
      rw [hport, htag, tagText, String.append_empty, String.append_empty] at htext
      exact ⟨htext.symm, rfl, hdigest⟩
    | some t =>
      rw [hport, htag, tagText, String.append_empty] at htext
      rw [htext, tagText, asBytes_append, asBytes_append] at hcolon
      exact absurd (List.mem_append_right _ (List.mem_append_left _ List.mem_cons_self)) hcolon
  | some x =>
    cases htag : q.tag with
    | none =>
      rw [hport, htag, tagText, tagText, String.append_empty] at htext
      rw [← htext, asBytes_append, asBytes_append] at hpath
      exact absurd (List.mem_append_right _ (List.mem_append_left _ List.mem_cons_self)) hpath
    | some t =>
      rw [hport, htag, tagText, tagText, ← String.append_assoc, ← String.append_assoc] at htext
      obtain ⟨hname, rfl⟩ := append_inj_of_notMem ":" rfl hcolon hpath htext
      exact ⟨hname.symm, rfl, hdigest⟩

/-- The domain of a reference is a reference where its host is a path component and its port
a tag. -/
theorem domain_reread {src : String} {img : ImgRef} {d : Domain} {host : Host}
    {port : Option String} (himg : ImgRef.new src = .ok img)
    (hd : img.domain (ε := Empty) = .ok (some d)) (hhost : d.host (ε := Empty) = .ok host)
    (hport : d.port (ε := Empty) = .ok port) :
    ((ImgRef.new d.toStr).Succeeds ↔ host.kind = .name ∧
        (∀ c ∈ asBytes host.toStr, isUpper c = false) ∧ ∀ q, port = some q → len q ≤ 128) ∧
      ∀ img', ImgRef.new d.toStr = .ok img' → ∃ v, img'.Shows v ∧ v.domain = none ∧
        v.path.toStr (ε := Empty) = .ok host.toStr ∧ v.tag = port ∧ v.digest = none := by
  obtain ⟨p, span, rfl, hp, rfl⟩ := ImgRef.new_eq_ok.mp himg
  have hview : (p.view span).domain = some d := Outcome.ok.inj (hp.shows.domain.symm.trans hd)
  obtain ⟨x, s, hx, hv, hs⟩ : ∃ x s, p.domain = some x ∧ (p.view span).domain = some ⟨x.text, s⟩ ∧
      s.Spans x.host x.port := by
    rcases hp.view_domain with ⟨-, hv⟩ | h
    · cases hview.symm.trans hv
    · exact h
  cases hview.symm.trans hv
  cases (Parts.host_eq hs).symm.trans hhost
  cases (Parts.port_eq hs).symm.trans hport
  change ((ImgRef.new x.text).Succeeds ↔ s.host.kind = .name ∧ _) ∧ _
  constructor
  · constructor
    · rintro ⟨img', himg'⟩
      obtain ⟨q, -, hq, -, -⟩ := ImgRef.new_eq_ok.mp himg'
      obtain ⟨hname, hdomain, hpath, htag, -⟩ := Parts.of_domain_text hq
      have hslash : byte '/' ∉ asBytes q.name := by
        intro hmem
        rw [Parts.name_of_none hdomain, hpath] at hmem
        exact absurd (isDomainByte_of_mem hname _ hmem) (by decide)
      refine ⟨hs.host.text.unique hname, ?_, ?_⟩
      · have hclass : ∀ c, isPathByte c = true → isUpper c = false := forall_byte (by decide)
        intro c hc
        rw [← show q.path = x.host from hpath] at hc
        exact hclass c (isPathByte_of_mem q.path_mem c hc)
      · intro t ht
        have hle := (q.tag_mem t (htag.trans ht)).2
        rwa [q.tagLimit_eq, if_neg hslash] at hle
    · rintro ⟨hkind, hupper, hlimit⟩
      have hname : asBytes x.host ∈ domainName := by
        have htext := hs.host.text
        rwa [hkind] at htext
      obtain ⟨hmem, -⟩ := DomainOrRefSpan.segment_mem_path
        (mem_pathComponent_of_domainName hname hupper)
      have htext : ReferenceText x.host x.port none := by
        refine ⟨Or.inl hmem, ?_, ?_, by simp⟩
        · exact hs.host.length ▸ s.host.length.le
        · intro t ht
          refine ⟨(PortSpan.mem_portNumber.mp (x.port_mem t ht)).1, ?_⟩
          exact Nat.le_trans (hlimit t ht) (by split <;> decide)
      obtain ⟨img', -, himg', -⟩ := htext.exists_view
      rw [digestText, String.append_empty, ← x.text_eq] at himg'
      exact ⟨img', himg'⟩
  · intro img' himg'
    obtain ⟨q, span', hq, hspans, rfl⟩ := ImgRef.new_eq_ok.mp himg'
    obtain ⟨-, hdomain, hpath, htag, hdigest⟩ := Parts.of_domain_text hq
    exact ⟨_, hspans.shows, hspans.view_domain_none hdomain, hpath ▸ Parts.path_toStr hspans,
      htag, hspans.view_digest_none hdigest⟩

theorem domain_reread_localhost :
    ∃ img img' v, ImgRef.new "localhost:5000/a" = .ok img ∧
      ImgRef.new "localhost:5000" = .ok img' ∧ img'.Shows v ∧ v.domain = none ∧
      v.tag = some "5000" := by
  let d : Domain := ⟨"localhost:5000", ⟨⟨⟨9, by decide, by decide⟩, .name⟩,
    some ⟨⟨4, by decide, by decide⟩⟩⟩⟩
  obtain ⟨img, himg, hd⟩ := Outcome.Sat.exists_ok (by decide +kernel :
    (ImgRef.new "localhost:5000/a").Sat (fun img => img.domain (ε := Empty) = .ok (some d))
      fun _ => False)
  have hhost : d.host (ε := Empty) = .ok ⟨.name, "localhost"⟩ := by decide +kernel
  have hport : d.port (ε := Empty) = .ok (some "5000") := by decide +kernel
  obtain ⟨hiff, hparts⟩ := domain_reread himg hd hhost hport
  obtain ⟨img', himg'⟩ := hiff.mpr ⟨rfl, by decide +kernel, by rintro _ ⟨⟩; decide⟩
  obtain ⟨v, hv, hdomain, -, htag, -⟩ := hparts img' himg'
  exact ⟨img, img', v, himg, himg', hv, hdomain, htag⟩

end Reread

end ContainerImageDistRef
