import ContainerImageDistRef.Ambiguous.DomainOrRefErrors
import ContainerImageDistRef.Canonical
import ContainerImageDistRef.Digest.Errors

/-!
# Every error of a reference

The parts of a reference are read one after the other, and the parser fails with
the error of the first part that fails. The table says for every text with
which one, and by how much its index has been moved.
-/

namespace ContainerImageDistRef

open ByteString Grammar

namespace TagSpan

/-- The error of a port or tag, told as that of a tag. -/
def disambiguated (e : Error) : Error :=
  match e.kind with
  | .portOrTagInvalidChar => ⟨e.index, .tagInvalidChar⟩
  | .portOrTagMissing => ⟨e.index, .tagMissing⟩
  | kind => ⟨e.index, kind⟩

/-- The errors of a tag. -/
def Fails (src : String) (e : Error) : Prop :=
  ∃ e', PortOrTagSpan.Fails .tag src e' ∧ e = disambiguated e'

theorem new_eq_err_iff {src : String} {e : Error} : new src = .err e ↔ Fails src e := by
  constructor
  · intro h
    rcases Outcome.bind_eq_err.mp h with h | ⟨_, -, h⟩
    · obtain ⟨e', he', rfl⟩ := Outcome.mapErr_eq_err.mp h
      exact ⟨e', PortOrTagSpan.new_eq_err_iff.mp he', rfl⟩
    · cases h
  · rintro ⟨e', he', rfl⟩
    rw [new, he'.new_eq, Outcome.mapErr_err, Outcome.err_bind]
    rfl

theorem Fails.index_le {src : String} {e : Error} (h : Fails src e) : e.index ≤ maxU8 := by
  obtain ⟨e', he', rfl⟩ := h
  have hindex : (disambiguated e').index = e'.index := by
    rw [disambiguated]
    split <;> rfl
  rw [hindex]
  exact ((PortOrTagSpan.new_sat src .tag).of_err he'.new_eq).2

end TagSpan

/-- The length that the parser checks: the host and the port, without the colon. -/
def DomainParts.Counted (d : DomainParts) : Prop :=
  len d.host ≤ maxU8 ∧ ∀ q, d.port = some q → len d.host + len q ≤ maxU8

namespace RefSpan

/-- The error of a tag behind a name: moved there if the name has a domain, else left as it is. -/
def movedTag (p : Parts) (e : Error) : Error :=
  match p.domain with
  | some _ => ⟨len p.name + 1 + e.index, e.kind⟩
  | none => e

/-- The errors of a reference. -/
inductive Fails (src : String) : Error → Prop
  | missing (hsrc : src = "") : Fails src ⟨0, .refMissing⟩
  | opening {e : Error} (hne : src ≠ "") (he : DomainOrRefSpan.Fails src e) : Fails src e
  | path {d : DomainParts} {rest : String} {e : Error} (hsrc : src = d.text ++ "/" ++ rest)
      (hd : d.Counted) (he : PathSpan.Fails rest e) : Fails src ⟨len d.text + e.index, e.kind⟩
  | name {d : DomainParts} {u after : String} (hsrc : src = d.text ++ "/" ++ (u ++ after))
      (hd : d.Counted) (hu : asBytes u ∈ Grammar.path) (hlen : len u ≤ maxU8)
      (hstop : StopsAt PathSpan.isEnd (asBytes after))
      (hlong : Name.MAX_LEN < len (d.text ++ "/" ++ u)) : Fails src ⟨255, .nameTooLong⟩
  | tag {p : Parts} {rest : String} {e : Error} (hsrc : src = p.name ++ (":" ++ rest))
      (hmany : p.domain = none → byte '/' ∈ asBytes p.path) (he : TagSpan.Fails rest e) :
      Fails src (movedTag p e)
  | digest {p : Parts} {d : String} {e : Error} (hsrc : src = p.print ++ "@" ++ d)
      (hp : p.digest = none) (he : DigestSpan.Fails d e) :
      Fails src ⟨len p.print + 1 + e.index, e.kind⟩

theorem digestError_eq {done d : String} {e : Error} (hmax : len done ≤ maxU8 + 1 + 129)
    (he : DigestSpan.Fails d e) : digestError done e = ⟨len done + 1 + e.index, e.kind⟩ := by
  have hindex := he.index_le
  have hat : len (done ++ "@") = len done + 1 := len_append done "@"
  have hbound : maxU8 + 1 + 129 + 1 + 1280 ≤ maxU16 := by decide
  rw [digestError, hat, saturatingAddU16_of_le (by omega)]

theorem tagError_domain {name rest : String} {d : DomainSpan} {e : Error} (hname : len name ≤ maxU8)
    (he : TagSpan.Fails rest e) :
    tagError name (.domain d) e = ⟨len name + 1 + e.index, e.kind⟩ := by
  have hindex := he.index_le
  have hbound : maxU8 + 1 + maxU8 ≤ maxU16 := by decide
  rw [tagError, saturatingAddU16_of_le (a := len name) (by omega),
    saturatingAddU16_of_le (by omega)]

/-- A tag that fails behind a name. -/
theorem suffix_tag_err {name rest : String} {pfx : DomainOrRefSpan} {e : Error} (nspan : NameSpan)
    (hname : len name ≤ Name.MAX_LEN) (hpfx : ∀ path tag, pfx ≠ .taggedRef path (some tag))
    (he : TagSpan.Fails rest e) :
    suffix (name ++ (":" ++ rest)) pfx nspan (len name) = .err (tagError name pfx e) := by
  rw [suffix, if_neg (Nat.not_lt_of_le hname), parseTag_colon name rest hpfx,
    TagSpan.new_eq_err_iff.mpr he, Outcome.mapErr_err, Outcome.err_bind, Outcome.err_bind]

theorem new_of_domain {d : DomainParts} (rest : String) (hd : d.Counted) :
    ∃ ds : DomainSpan, ds.Spans d.host d.port ∧
      new (d.text ++ "/" ++ rest) = newFrom (d.text ++ "/" ++ rest) (.domain ds) := by
  obtain ⟨kind, hkind⟩ := d.host_mem
  obtain ⟨ds, hds, hspans⟩ := DomainOrRefSpan.domain_ok rest hkind hd.1 d.port_mem hd.2
  refine ⟨ds, hspans, ?_⟩
  have hne : d.text ++ ("/" ++ rest) ≠ "" := append_sep_ne_empty "/" rfl _ _
  rw [String.append_assoc]
  exact new_eq_newFrom hne hds

theorem len_text_le {d : DomainParts} (hd : d.Counted) : len d.text ≤ maxU8 + 1 := by
  have hhost := hd.1
  rw [DomainParts.text, DomainSpan.len_text]
  cases hq : d.port with
  | none =>
    simp only [Option.map_none, Option.getD_none]
    omega
  | some q =>
    have hport := hd.2 q hq
    simp only [Option.map_some, Option.getD_some]
    omega

/-- An error of the table is the error of the parser. -/
theorem Fails.new_eq {src : String} {e : Error} (h : Fails src e) : new src = .err e := by
  cases h with
  | missing hsrc =>
    subst hsrc
    rfl
  | opening hne he =>
    have hbytes : asBytes src ≠ [] := fun hnil => hne (asBytes_inj.mp hnil)
    rw [new, if_neg hbytes, he.new_eq, Outcome.err_bind]
  | @path d rest e hsrc hd he =>
    subst hsrc
    obtain ⟨ds, hspans, hnew⟩ := new_of_domain rest hd
    have hpath := PathSpan.new_eq_err_iff.mpr he
    have hindex := ((PathSpan.new_sat rest).of_err hpath).2
    have hlen := len_text_le hd
    have hbound : maxU8 + 1 + maxU8 ≤ maxU16 := by decide
    rw [hnew, DomainParts.text, newFrom_domain rest hspans, hpath, Outcome.mapErr_err,
      Outcome.err_bind]
    rw [DomainParts.text] at hlen
    rw [saturatingAddU16_of_le (by omega)]
  | @name d u after hsrc hd hu hlen hstop hlong =>
    subst hsrc
    obtain ⟨ds, hspans, hnew⟩ := new_of_domain (u ++ after) hd
    obtain ⟨path, hpath, hplen⟩ := PathSpan.new_ok after hu hlen hstop
    rw [hnew, DomainParts.text, newFrom_domain (u ++ after) hspans, hpath, Outcome.mapErr_ok,
      Outcome.ok_bind, hplen, ← len_append, suffix]
    exact if_pos hlong
  | @tag p rest e hsrc hmany he =>
    subst hsrc
    have hstop : StopsAt PathSpan.isEnd (asBytes (":" ++ rest)) := stopsAt_sep ":" rfl rfl rest
    have hname : len p.name ≤ Name.MAX_LEN := p.name_le
    rw [movedTag]
    cases hd : p.domain with
    | some d =>
      obtain ⟨ds, path, -, -, hnew⟩ := new_domain hd hstop
      rw [hnew, suffix_tag_err _ hname (by simp) he, tagError_domain hname he]
    | none =>
      obtain ⟨path, hpath, hlen⟩ := pfx_underscore hd (hmany hd) hstop
      rw [Parts.name_of_none hd, new_eq_newFrom (path_ne_empty p.path_mem _) hpath,
        newFrom_untagged hlen hstop, suffix_tag_err _ (Parts.path_le hd) (by simp) he]
      rfl
  | digest hsrc hp he =>
    subst hsrc
    rw [new_digest_err hp (DigestSpan.new_eq_err.mpr he), digestError_eq (len_print_le hp) he]

section Sound

variable {name : String} {e : Error}

/-- After a name and a tag only a digest can fail. -/
theorem finish_err {rest : String} {t : Option String} {tag : Option TagSpan} {nspan : NameSpan}
    (hascii : IsAscii name) (hname : len name ≤ maxU8)
    (htext : ∀ x, t = some x → PortOrTag.TagText (asBytes x) ∧ len x ≤ 129)
    (htag : Option.Rel (fun t (s : TagSpan) => s.length.val = len t) t tag)
    (hstop : StopsAt TagSpan.isEnd (asBytes rest))
    (h : finish (name ++ tagText t ++ rest) nspan tag (len name) = .err e) :
    ∃ d e', rest = "@" ++ d ∧ DigestSpan.Fails d e' ∧
      e = ⟨len (name ++ tagText t) + 1 + e'.index, e'.kind⟩ := by
  have hlen := len_tagged_le hname htext
  obtain ⟨dg, rfl⟩ : ∃ dg, rest = digestText dg := by
    cases hhead : (asBytes rest).head? with
    | none => exact ⟨none, head?_eq_none.mp hhead⟩
    | some c =>
      obtain rfl : c = byte '@' := eq_of_beq (hstop c hhead)
      obtain ⟨d, rfl⟩ := exists_append_of_head "@" hhead rfl (by decide)
      exact ⟨some d, rfl⟩
  cases hok : dg.map DigestSpan.new with
  | none =>
    obtain rfl := Option.map_eq_none_iff.mp hok
    have hnone : ∀ d, (none : Option String) = some d → (DigestSpan.new d).Succeeds := by simp
    obtain ⟨span, hspan, -⟩ := finish_ok nspan hascii hname htext htag hnone
    cases hspan.symm.trans h
  | some x =>
    obtain ⟨d, rfl, hx⟩ := Option.map_eq_some_iff.mp hok
    cases x with
    | panic p => exact absurd hx ((DigestSpan.new_sat d).ne_panic p)
    | ok s =>
      have hsome : ∀ y, some d = some y → (DigestSpan.new y).Succeeds := by
        rintro _ ⟨⟩
        exact ⟨s, hx⟩
      obtain ⟨span, hspan, -⟩ := finish_ok nspan hascii hname htext htag hsome
      cases hspan.symm.trans h
    | err e' =>
      have he' := DigestSpan.new_eq_err.mp hx
      rw [finish, index_tag hname htag, parseDigest_err hlen hx, Outcome.err_bind,
        digestError_eq hlen he'] at h
      cases h
      exact ⟨d, e', rfl, he', rfl⟩

/-- After a name a tag or a digest can fail. -/
theorem suffix_err {after : String} {pfx : DomainOrRefSpan} {nspan : NameSpan}
    (hascii : IsAscii name) (hname : len name ≤ Name.MAX_LEN)
    (hpfx : ∀ path tag, pfx ≠ .taggedRef path (some tag))
    (hstop : StopsAt PathSpan.isEnd (asBytes after))
    (h : suffix (name ++ after) pfx nspan (len name) = .err e) :
    (∃ rest e', after = ":" ++ rest ∧ TagSpan.Fails rest e' ∧ e = tagError name pfx e') ∨
      ∃ t d e', after = tagText t ++ ("@" ++ d) ∧
        (∀ x, t = some x → PortOrTag.TagText (asBytes x) ∧ len x ≤ 129) ∧
        DigestSpan.Fails d e' ∧ e = ⟨len (name ++ tagText t) + 1 + e'.index, e'.kind⟩ := by
  rw [suffix, if_neg (Nat.not_lt_of_le hname)] at h
  by_cases hcolon : (asBytes after).head? = some (byte ':')
  · obtain ⟨rest, rfl⟩ := exists_append_of_head ":" hcolon rfl (by decide)
    rw [parseTag_colon name rest hpfx] at h
    cases htag : TagSpan.new rest with
    | panic p => exact absurd htag ((TagSpan.new_sat rest).ne_panic p)
    | err e' =>
      rw [htag, Outcome.mapErr_err, Outcome.err_bind, Outcome.err_bind] at h
      cases h
      exact Or.inl ⟨rest, e', rfl, TagSpan.new_eq_err_iff.mp htag, rfl⟩
    | ok tag =>
      obtain ⟨x, r, rfl, hx, hle, hlen, hend⟩ := (TagSpan.new_sat rest).of_ok htag
      have htext : ∀ y, some x = some y → PortOrTag.TagText (asBytes y) ∧ len y ≤ 129 := by
        rintro _ ⟨⟩
        exact ⟨hx, hle⟩
      have hcat : name ++ (":" ++ (x ++ r)) = name ++ tagText (some x) ++ r := by
        simp only [tagText, String.append_assoc]
      rw [htag, Outcome.mapErr_ok, Outcome.ok_bind, Outcome.ok_bind, hcat] at h
      obtain ⟨d, e', rfl, he', rfl⟩ := finish_err hascii hname htext (.some hlen) hend h
      exact Or.inr ⟨some x, d, e', (String.append_assoc ..).symm, htext, he', rfl⟩
  · have hend : StopsAt TagSpan.isEnd (asBytes after) := by
      intro c hc
      have hstop' := hstop c hc
      have hne : (c == byte ':') = false := beq_eq_false_iff_ne.mpr fun hcc => hcolon (hcc ▸ hc)
      rwa [PathSpan.isEnd, hne, Bool.false_or] at hstop'
    rcases parseTag_none name hpfx hcolon with htag | ⟨-, hnot⟩
    · have htext : ∀ x, none = some x → PortOrTag.TagText (asBytes x) ∧ len x ≤ 129 := by simp
      have hempty : name ++ tagText none = name := String.append_empty
      rw [htag, Outcome.ok_bind] at h
      have hfinish : finish (name ++ tagText none ++ after) nspan none (len name) = .err e := by
        rw [hempty, h]
      obtain ⟨d, e', rfl, he', rfl⟩ := finish_err hascii hname htext .none hend hfinish
      exact Or.inr ⟨none, d, e', (String.empty_append).symm, htext, he', rfl⟩
    · exact absurd hend hnot

/-- The parts that have been read before a tag or a digest failed. -/
theorem fails_of_suffix (domain : Option DomainParts) {u after : String} {pfx : DomainOrRefSpan}
    {nspan : NameSpan} (hascii : IsAscii (nameText domain u))
    (hname : len (nameText domain u) ≤ Name.MAX_LEN)
    (hu : asBytes u ∈ Grammar.path) (hshape : domain = none → Undomained (asBytes u))
    (hmany : (asBytes after).head? = some (byte ':') → domain = none → byte '/' ∈ asBytes u)
    (hpfx : ∀ path tag, pfx ≠ .taggedRef path (some tag))
    (herror : ∀ rest e', TagSpan.Fails rest e' → ∀ p : Parts, p.domain = domain → p.path = u →
      tagError (nameText domain u) pfx e' = movedTag p e')
    (hstop : StopsAt PathSpan.isEnd (asBytes after))
    (h : suffix (nameText domain u ++ after) pfx nspan (len (nameText domain u)) = .err e) :
    Fails (nameText domain u ++ after) e := by
  rcases suffix_err hascii hname hpfx hstop h with
    ⟨rest, e', rfl, he', rfl⟩ | ⟨t, d, e', rfl, ht, he', rfl⟩
  · let p : Parts := ⟨domain, u, none, none, hu, hshape, hname, by simp, by simp⟩
    rw [herror rest e' he' p rfl rfl]
    exact .tag (p := p) rfl (hmany (head?_sep ":" rfl rest)) he'
  · have hlimit : ∀ x, t = some x →
        PortOrTag.TagText (asBytes x) ∧ len x ≤ tagLimit domain u := by
      rintro x rfl
      refine ⟨(ht x rfl).1, ?_⟩
      have hcolon : (asBytes (tagText (some x) ++ ("@" ++ d))).head? = some (byte ':') := by
        rw [tagText, String.append_assoc]
        exact head?_sep ":" rfl _
      rw [tagLimit, if_neg]
      · exact (ht x rfl).2
      · rintro ⟨hnone, hslash⟩
        exact hslash (hmany hcolon (Option.isNone_iff_eq_none.mp hnone))
    let p : Parts := ⟨domain, u, t, none, hu, hshape, hname, hlimit, by simp⟩
    have hprint : p.print = nameText domain u ++ tagText t := String.append_empty
    rw [← hprint]
    refine .digest (p := p) ?_ rfl he'
    rw [hprint]
    simp only [String.append_assoc]

/-- Behind a domain the path, the length of the name, the tag or the digest can fail. -/
theorem fails_of_domain {h rest : String} {p : Option String} {d : DomainSpan} (hd : d.Spans h p)
    (herr : newFrom (DomainSpan.text h p ++ "/" ++ rest) (.domain d) = .err e) :
    Fails (DomainSpan.text h p ++ "/" ++ rest) e := by
  let parts : DomainParts := ⟨h, p, ⟨_, hd.host.text⟩, hd.digits⟩
  have hcounted : parts.Counted := ⟨hd.host.length ▸ d.host.length.le, hd.bound⟩
  have hlen : len (DomainSpan.text h p) ≤ maxU8 + 1 := len_text_le hcounted
  rw [newFrom_domain rest hd] at herr
  rcases Outcome.bind_eq_err.mp herr with herr | ⟨path, hpath, herr⟩
  · obtain ⟨e', he', rfl⟩ := Outcome.mapErr_eq_err.mp herr
    have hindex := ((PathSpan.new_sat rest).of_err he').2
    have hbound : maxU8 + 1 + maxU8 ≤ maxU16 := by decide
    rw [saturatingAddU16_of_le (by omega)]
    exact .path (d := parts) rfl hcounted (PathSpan.new_eq_err_iff.mp he')
  · obtain ⟨u, after, rfl, hu, hplen, hstop⟩ :=
      (PathSpan.new_sat rest).of_ok (Outcome.mapErr_eq_ok.mp hpath)
    have hule : len u ≤ maxU8 := hplen ▸ path.length.le
    rw [hplen, ← len_append, ← String.append_assoc] at herr
    by_cases hlong : Name.MAX_LEN < len (DomainSpan.text h p ++ "/" ++ u)
    · rw [suffix, if_pos hlong] at herr
      cases herr
      exact .name (d := parts) rfl hcounted hu hule hstop hlong
    · have hname := Nat.le_of_not_lt hlong
      have hascii : IsAscii (DomainSpan.text h p ++ "/" ++ u) :=
        ((isAscii_of_domain hd).append (by decide)).append (isAscii_of_path hu)
      rw [← String.append_assoc]
      refine fails_of_suffix (some parts) hascii hname hu (by simp) (by simp) (by simp) ?_
        hstop herr
      intro r e' he' q hq hqu
      have hqname : q.name = DomainSpan.text h p ++ "/" ++ u := by
        rw [Parts.name, hq, hqu]
        rfl
      rw [movedTag, hq, hqname]
      exact tagError_domain hname he'

theorem fails_of_err {src : String} (herr : new src = .err e) : Fails src e := by
  by_cases hne : src = ""
  · subst hne
    cases herr
    exact .missing rfl
  cases hpfx : DomainOrRefSpan.new src with
  | panic p => exact absurd hpfx ((DomainOrRefSpan.new_sat src).ne_panic p)
  | err e' =>
    have he' := DomainOrRefSpan.new_eq_err_iff.mp hpfx
    cases (Fails.opening hne he').new_eq.symm.trans herr
    exact .opening hne he'
  | ok pfx =>
    rw [new_eq_newFrom hne hpfx] at herr
    cases (DomainOrRefSpan.new_sat src).of_ok hpfx with
    | domain hsrc hd =>
      subst hsrc
      exact fails_of_domain hd herr
    | @untagged u rest path hsrc hu hshape hlen hstop hsegment =>
      subst hsrc
      have hule : len u ≤ Name.MAX_LEN := hlen ▸ path.length.le
      rw [newFrom_untagged hlen hstop] at herr
      refine fails_of_suffix none (isAscii_of_path hu) hule hu (fun _ => hshape) ?_
        (by simp) ?_ hstop herr
      · intro hcolon _
        by_contra hslash
        exact absurd (hsegment hslash _ hcolon) (by decide)
      · intro r e' he' q hq hqu
        rw [movedTag, hq]
        rfl
    | @tagged u t rest path tag hsrc hu hlen ht hle htlen hstop =>
      subst hsrc
      obtain ⟨hmem, hshape⟩ := DomainOrRefSpan.segment_mem_path hu
      have hule : len u ≤ Name.MAX_LEN := hlen ▸ path.length.le
      have htext : ∀ x, some t = some x → PortOrTag.TagText (asBytes x) ∧ len x ≤ 129 := by
        rintro _ ⟨⟩
        exact ⟨ht, Nat.le_trans hle (by decide)⟩
      have hlimit : tagLimit none u = Tag.MAX_LEN :=
        if_pos ⟨rfl, slash_not_mem_pathComponent hu⟩
      let p : Parts := ⟨none, u, some t, none, hmem, fun _ => hshape, hule, by
        rintro _ ⟨⟩
        exact ⟨ht, hlimit ▸ hle⟩, by simp⟩
      have hcat : u ++ ":" ++ t ++ rest = u ++ (":" ++ t ++ rest) := by
        simp only [String.append_assoc]
      rw [hcat, newFrom_tagged hlen htlen hstop] at herr
      obtain ⟨d, e', rfl, he', rfl⟩ :=
        finish_err (isAscii_of_path hmem) hule htext (.some htlen) hstop herr
      have hprint : p.print = u ++ tagText (some t) := String.append_empty
      rw [← hprint]
      refine .digest (p := p) ?_ rfl he'
      rw [hprint]
      simp only [tagText, String.append_assoc]

end Sound

theorem new_eq_err_iff {src : String} {e : Error} : new src = .err e ↔ Fails src e :=
  ⟨fails_of_err, Fails.new_eq⟩

end RefSpan

theorem ImgRef.new_eq_err_iff {src : String} {e : Error} :
    ImgRef.new src = .err e ↔ RefSpan.Fails src e := by
  rw [← RefSpan.new_eq_err_iff, ImgRef.new, Outcome.bind_eq_err]
  constructor
  · rintro (h | ⟨span, -, h⟩)
    · exact h
    · cases h
  · exact Or.inl

/-- The errors of a reference are those of the table; a canonical reference can also lack a part. -/
theorem reference_refuses_iff (src : String) (e : Error) :
    (ImgRef.new src = .err e ↔ RefSpan.Fails src e) ∧
      (CanonicalImgRef.new src = .err e ↔ RefSpan.Fails src e ∨ Lacks src e) :=
  ⟨ImgRef.new_eq_err_iff, CanonicalImgRef.new_eq_err.trans (or_congr_left ImgRef.new_eq_err_iff)⟩

example : ImgRef.new "localhost:5000/a:b/c" = .err ⟨17, .portInvalidChar⟩ := by decide +kernel

end ContainerImageDistRef
