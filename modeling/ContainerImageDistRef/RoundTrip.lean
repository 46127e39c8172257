import ContainerImageDistRef.Accessors

/-!
# Parsing undoes printing

Texts in the languages of their rules, joined by their separators, are parsed
into the same texts; and every accepted name is such a join, with the grammar's
ambiguity between a host and a path settled by the slash and the underscore.
-/

namespace ContainerImageDistRef

open ByteString Grammar

/-- `host [":" port] "/"` -/
def domainText (domain : Option (String × Option String)) : String :=
  match domain with
  | none => ""
  | some (h, p) => DomainSpan.text h p ++ "/"

/-- The accessors return the texts that were printed. -/
structure View.Reads (v : View) (domain : Option (String × Option String)) (path : String)
    (tag digest : Option String) : Prop where
  domain : match domain with
    | none => v.domain = none
    | some (h, p) => ∃ d host, v.domain = some d ∧ d.host (ε := Empty) = .ok host ∧
        host.toStr = h ∧ d.port (ε := Empty) = .ok p
  path : v.path.toStr (ε := Empty) = .ok path
  tag : v.tag = tag
  digest : v.digest.map Digest.toStr = digest

/-- Parsing undoes printing. -/
theorem new_print_reads (domain : Option (String × Option String)) (path : String)
    (tag digest : Option String)
    (hdomain : ∀ h p, domain = some (h, p) → (asBytes h ∈ domainName ∨ Ipv6Literal h) ∧
      ∀ q, p = some q → asBytes q ∈ portNumber)
    (hpath : asBytes path ∈ Grammar.path)
    (hshape : domain = none → Undomained (asBytes path))
    (htag : ∀ t, tag = some t → asBytes t ∈ Grammar.tag)
    (hdigest : ∀ d, digest = some d → (DigestSpan.new d).Succeeds)
    (hname : len (domainText domain ++ path) ≤ 255) :
    ∃ img v, ImgRef.new (domainText domain ++ path ++ tagText tag ++ digestText digest) =
        .ok img ∧ img.Shows v ∧ v.Reads domain path tag digest := by
  obtain ⟨d, hd, hnone⟩ : ∃ d : Option DomainParts,
      (d.map fun x => (x.host, x.port)) = domain ∧ (d = none → domain = none) := by
    rcases domain with - | ⟨h, p⟩
    · exact ⟨none, rfl, fun _ => rfl⟩
    · obtain ⟨hh, hp⟩ := hdomain h p rfl
      exact ⟨some ⟨h, p, HostSpan.hostText_iff.mpr hh, hp⟩, rfl, fun hn => by cases hn⟩
  have hnametext : nameText d path = domainText domain ++ path := by
    subst hd
    cases d with
    | none => exact (String.empty_append).symm
    | some x => rfl
  have htags : ∀ t, tag = some t → PortOrTag.TagText (asBytes t) ∧ len t ≤ tagLimit d path := by
    intro t ht
    obtain ⟨htext, hlen⟩ := TagSpan.mem_tag.mp (htag t ht)
    refine ⟨htext, Nat.le_trans hlen ?_⟩
    rw [tagLimit]
    split <;> decide
  let p : Parts := ⟨d, path, tag, digest, hpath, fun hn => hshape (hnone hn),
    hnametext ▸ hname, htags, hdigest⟩
  obtain ⟨span, hspan, hp⟩ := RefSpan.new_print p
  have hprint : p.print = domainText domain ++ path ++ tagText tag ++ digestText digest := by
    rw [Parts.print, Parts.name]
    exact congrArg (fun s => s ++ tagText tag ++ digestText digest) hnametext
  refine ⟨⟨p.print, span⟩, p.view span, ?_, hp.shows, ?_, Parts.path_toStr hp, rfl, ?_⟩
  · rw [← hprint]
    exact ImgRef.new_eq_ok.mpr ⟨p, span, rfl, hp, rfl⟩
  · subst hd
    rcases hp.view_domain with ⟨hd, hv⟩ | ⟨x, s, hd, hv, hx⟩
    · obtain rfl : d = none := hd
      exact hv
    · obtain rfl : d = some x := hd
      exact ⟨_, _, hv, Parts.host_eq hx, rfl, Parts.port_eq hx⟩
  · exact hp.map_toStr

theorem new_print_reads_full :
    ∃ img v, ImgRef.new "h:5/a:t@x:0" = .ok img ∧ img.Shows v ∧
      v.Reads (some ("h", some "5")) "a" (some "t") (some "x:0") := by
  have hhost : asBytes "h" ∈ domainName := symbol_mem_domainName (by decide)
  have hport : asBytes "5" ∈ portNumber :=
    SeparatedList.mem_many1_symbol.mpr ⟨by decide, List.all_eq_true.mp (by decide)⟩
  have hpath : asBytes "a" ∈ Grammar.path :=
    (DomainOrRefSpan.segment_mem_path (symbol_mem_pathComponent (by decide))).1
  have htag : asBytes "t" ∈ Grammar.tag :=
    TagSpan.mem_tag.mpr ⟨⟨_, [], rfl, by decide, by simp⟩, by decide⟩
  refine new_print_reads (some ("h", some "5")) "a" (some "t") (some "x:0") ?_ hpath (by simp)
    ?_ ?_ (by decide)
  · rintro _ _ ⟨⟩
    exact ⟨Or.inl hhost, by rintro _ ⟨⟩; exact hport⟩
  · rintro _ ⟨⟩
    exact htag
  · rintro _ ⟨⟩
    decide +kernel

/-- What an accepted name is, and when it has a domain. -/
theorem accepted_name {src : String} {img : ImgRef} (h : ImgRef.new src = .ok img) :
    ∃ v name path, img.Shows v ∧ v.name.toStr (ε := Empty) = .ok name ∧
      v.path.toStr (ε := Empty) = .ok path ∧ asBytes path ∈ Grammar.path ∧ len name ≤ 255 ∧
      (v.domain = none ↔
        byte '/' ∉ asBytes name ∨ byte '_' ∈ (asBytes name).takeWhile (· != byte '/')) ∧
      ∀ d, v.domain = some d → ∃ host port, d.host (ε := Empty) = .ok host ∧
        d.port (ε := Empty) = .ok port ∧
        (asBytes host.toStr ∈ domainName ∨ Ipv6Literal host.toStr) ∧
        ∀ q, port = some q → asBytes q ∈ portNumber := by
  obtain ⟨p, span, rfl, hp, rfl⟩ := ImgRef.new_eq_ok.mp h
  refine ⟨p.view span, p.name, p.path, hp.shows, Parts.name_toStr hp, Parts.path_toStr hp,
    p.path_mem, p.name_le, ?_, ?_⟩
  · rw [← Undomained, ← p.domain_eq_none_iff]
    rcases hp.view_domain with ⟨hd, hv⟩ | ⟨d, s, hd, hv, -⟩
    · exact iff_of_true hv hd
    · rw [hd, hv]
      exact iff_of_false (Option.some_ne_none _) (Option.some_ne_none _)
  · intro d hd
    rcases hp.view_domain with ⟨-, hv⟩ | ⟨d', s, -, hv, hx⟩
    · cases hd.symm.trans hv
    · cases hd.symm.trans hv
      exact ⟨_, _, Parts.host_eq hx, Parts.port_eq hx,
        HostSpan.hostText_iff.mp d'.host_mem, d'.port_mem⟩

theorem accepted_name_full :
    ∃ img v name path, ImgRef.new "[::1]:5/a_b/c" = .ok img ∧ img.Shows v ∧
      v.name.toStr (ε := Empty) = .ok name ∧ v.path.toStr (ε := Empty) = .ok path ∧
      asBytes path ∈ Grammar.path := by
  obtain ⟨img, himg⟩ : (ImgRef.new "[::1]:5/a_b/c").Succeeds := by decide +kernel
  obtain ⟨v, name, path, hshows, hname, hpath, hmem, -⟩ := accepted_name himg
  exact ⟨img, v, name, path, himg, hshows, hname, hpath, hmem⟩

end ContainerImageDistRef
