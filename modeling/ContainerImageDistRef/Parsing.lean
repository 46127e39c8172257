import ContainerImageDistRef.Parts

/-!
# What the reference parser recognises

A successful parse has read the print of some parts and returns their span,
and the print of any parts is parsed. An error stands inside the ASCII text
that has been read, and nothing panics.
-/

namespace ContainerImageDistRef

open ByteString Grammar

theorem isAscii_of_tagText {t : String} (h : PortOrTag.TagText (asBytes t)) : IsAscii t :=
  fun c hc => PortOrTag.ascii_of_isTagByte c (h.forall c hc)

theorem isAscii_of_path {u : String} (h : asBytes u ∈ Grammar.path) : IsAscii u :=
  fun c hc => ascii_of_isPathByte c (isPathByte_of_mem h c hc)

theorem isAscii_of_domain {h : String} {p : Option String} {d : DomainSpan}
    (hd : d.Spans h p) : IsAscii (DomainSpan.text h p) := by
  have hh : IsAscii h := hd.host.text.ascii
  cases p with
  | none => exact hh
  | some q =>
    have hq : IsAscii q :=
      isAscii_of_tagText (PortSpan.mem_portNumber.mp (hd.digits q rfl)).1
    exact (hh.append (by decide)).append hq

theorem isAscii_tagText {t : Option String}
    (h : ∀ x, t = some x → PortOrTag.TagText (asBytes x)) : IsAscii (tagText t) := by
  cases t with
  | none => decide
  | some x => exact IsAscii.append (by decide) (isAscii_of_tagText (h x rfl))

namespace RefSpan

/-- No index up to the end of a digest saturates. -/
theorem index_bound : maxU8 + 1 + 129 + 1 + (maxU8 + 1 + Encoded.MAX_LEN) ≤ maxU16 := by decide

theorem parseDigest_sat {done : String} (rest : String) (hdone : IsAscii done)
    (hmax : len done ≤ maxU8 + 1 + 129) :
    (parseDigest (done ++ rest) (len done)).Sat
      (fun r => ∃ dg, rest = digestText dg ∧
        Option.Rel (fun d s => DigestSpan.new d = .ok s) dg r.1 ∧
        saturatingAddU16 r.2 ((r.1.map fun s => s.shortLen.val).getD 0) = len (done ++ rest))
      fun e => AsciiUpTo (done ++ rest) e.index := by
  have here := hdone.upTo_append (Nat.le_refl _) rest
  have hbound := index_bound
  rw [parseDigest, getElem?_append_len]
  cases hhead : (asBytes rest).head? with
  | none =>
    obtain rfl := head?_eq_none.mp hhead
    refine ⟨none, rfl, .none, ?_⟩
    rw [String.append_empty]
    simp only [Option.map_none, Option.getD_none]
    exact saturatingAddU16_of_le (by omega)
  | some c =>
    dsimp only
    by_cases hat : c = byte '@'
    · subst hat
      obtain ⟨d, rfl⟩ := exists_append_of_head "@" hhead rfl (by decide)
      have hcat : done ++ ("@" ++ d) = (done ++ "@") ++ d := (String.append_assoc ..).symm
      have hindex : saturatingAddU16 (len done) 1 = len (done ++ "@") := by
        rw [saturatingAddU16_of_le (by omega), len_append]
        rfl
      have hascii : IsAscii (done ++ "@") := hdone.append (by decide)
      rw [if_pos rfl, hindex, hcat, sliceFrom_append, Outcome.ok_bind]
      have hsat := (DigestSpan.new_sat d).mapErr
        (S := fun e => AsciiUpTo (done ++ "@" ++ d) e.index)
        (f := fun e => (⟨saturatingAddU16 (len (done ++ "@")) e.index, e.kind⟩ : Error))
        fun e he => (hascii.upTo.append he).mono (saturatingAddU16_le _ _)
      apply Outcome.Sat.bind_eq hsat
      intro s hs _
      rw [Outcome.mapErr_eq_ok] at hs
      refine ⟨some d, rfl, .some hs, ?_⟩
      obtain ⟨hlen, hle⟩ := DigestSpan.len_of_new hs
      have hat : len (done ++ "@") = len done + 1 := len_append done "@"
      simp only [Option.map_some, Option.getD_some, hlen]
      rw [saturatingAddU16_of_le (by omega), len_append (done ++ "@")]
    · rw [if_neg hat]
      exact here

/-- The index after the tag. -/
theorem index_tag {name : String} {t : Option String} {tag : Option TagSpan}
    (hname : len name ≤ maxU8)
    (htag : Option.Rel (fun t (s : TagSpan) => s.length.val = len t) t tag) :
    saturatingAddU16 (len name) ((tag.map fun t => saturatingAddU16 t.length.val 1).getD 0) =
      len (name ++ tagText t) := by
  have hmax : maxU8 + (maxU8 + 1) ≤ maxU16 := by decide
  cases htag with
  | none =>
    simp only [Option.map_none, Option.getD_none, tagText, String.append_empty]
    exact saturatingAddU16_of_le (by omega)
  | @some t s hs =>
    have hle := s.length.le
    have htext := Parts.len_tagText_some t
    simp only [Option.map_some, Option.getD_some]
    rw [saturatingAddU16_of_le (a := s.length.val) (by omega), saturatingAddU16_of_le (by omega),
      len_append, htext, hs]
    omega

theorem len_tagged_le {name : String} {t : Option String} (hname : len name ≤ maxU8)
    (htext : ∀ x, t = some x → PortOrTag.TagText (asBytes x) ∧ len x ≤ 129) :
    len (name ++ tagText t) ≤ maxU8 + 1 + 129 := by
  rw [len_append]
  cases t with
  | none => exact Nat.le_trans (Nat.add_le_add_right hname _) (by decide)
  | some x =>
    have := (htext x rfl).2
    rw [Parts.len_tagText_some]
    omega

/-- The end of a parse: everything that is left is a digest, or there is nothing left. -/
theorem finish_sat {name : String} {t : Option String} {tag : Option TagSpan} (rest : String)
    (span : NameSpan) (hascii : IsAscii name) (hname : len name ≤ maxU8)
    (htext : ∀ x, t = some x → PortOrTag.TagText (asBytes x) ∧ len x ≤ 129)
    (htag : Option.Rel (fun t (s : TagSpan) => s.length.val = len t) t tag) :
    (finish (name ++ tagText t ++ rest) span tag (len name)).Sat
      (fun r => r.name = span ∧ r.tag = tag ∧ ∃ dg, rest = digestText dg ∧
        Option.Rel (fun d s => DigestSpan.new d = .ok s) dg r.digest)
      fun e => AsciiUpTo (name ++ tagText t ++ rest) e.index := by
  have hpre : IsAscii (name ++ tagText t) :=
    hascii.append (isAscii_tagText fun x hx => (htext x hx).1)
  have hlen := len_tagged_le hname htext
  rw [finish, index_tag hname htag]
  refine Outcome.Sat.bind (parseDigest_sat rest hpre hlen) fun ⟨digest, index⟩ => ?_
  rintro ⟨dg, hrest, hrel, hindex⟩
  dsimp only at hrel hindex ⊢
  rw [hindex, Outcome.assert_true rfl, Outcome.ok_bind]
  exact ⟨rfl, rfl, dg, hrest, hrel⟩

/-- What `parseTag` finds after a name. -/
def FoundTag (after : String) (tag : Option TagSpan) : Prop :=
  ∃ t rest, after = tagText t ++ rest ∧
    (∀ x, t = some x → PortOrTag.TagText (asBytes x) ∧ len x ≤ 129) ∧
    Option.Rel (fun t (s : TagSpan) => s.length.val = len t) t tag

theorem foundTag_none (after : String) : FoundTag after none :=
  ⟨none, after, (String.empty_append).symm, by simp, .none⟩

/-- What becomes of an error of the tag parser: after a domain it is moved behind the colon. -/
def tagError (name : String) : DomainOrRefSpan → Error → Error
  | .domain _, e => ⟨saturatingAddU16 (saturatingAddU16 (len name) 1) e.index, e.kind⟩
  | .taggedRef _ _, e => e

theorem tagError_index_le (name : String) (pfx : DomainOrRefSpan) (e : Error) :
    (tagError name pfx e).index ≤ len (name ++ ":") + e.index := by
  have hlen : len (name ++ ":") = len name + 1 := len_append name ":"
  cases pfx with
  | domain d =>
    have h1 := saturatingAddU16_le (len name) 1
    have h2 := saturatingAddU16_le (saturatingAddU16 (len name) 1) e.index
    dsimp only [tagError]
    omega
  | taggedRef path tag => exact Nat.le_add_left _ _

/-- After a name and a colon comes a tag. -/
theorem parseTag_colon (name rest : String) {pfx : DomainOrRefSpan}
    (hpfx : ∀ path tag, pfx ≠ .taggedRef path (some tag)) :
    parseTag (name ++ (":" ++ rest)) pfx (len name) =
      (TagSpan.new rest).mapErr (tagError name pfx) >>= fun tag => .ok (some tag) := by
  have hlen : len (name ++ ":") = len name + 1 := len_append name ":"
  have hhead : (asBytes (":" ++ rest)).head? = some (byte ':') := head?_sep ":" rfl rest
  have hslice : (sliceFrom (name ++ (":" ++ rest)) (len name + 1) : Outcome Error String) =
      .ok rest := by
    rw [← String.append_assoc, ← hlen, sliceFrom_append]
  rw [parseTag.eq_def]
  cases pfx with
  | domain d =>
    dsimp only
    rw [getElem?_append_len, if_pos hhead, hslice, Outcome.ok_bind]
    rfl
  | taggedRef path tag =>
    cases tag with
    | some tag => exact absurd rfl (hpfx path tag)
    | none =>
      dsimp only
      rw [getElem?_append_len, hhead]
      dsimp only
      rw [if_pos rfl, hslice, Outcome.ok_bind]
      exact congrArg (· >>= fun tag => Outcome.ok (some tag)) (Outcome.mapErr_id _).symm

/-- Without a colon there is no tag. -/
theorem parseTag_none (name : String) {after : String} {pfx : DomainOrRefSpan}
    (hpfx : ∀ path tag, pfx ≠ .taggedRef path (some tag))
    (hcolon : (asBytes after).head? ≠ some (byte ':')) :
    parseTag (name ++ after) pfx (len name) = .ok none ∨
      parseTag (name ++ after) pfx (len name) = .err ⟨0, .pathInvalidChar⟩ ∧
        ¬StopsAt TagSpan.isEnd (asBytes after) := by
  rw [parseTag.eq_def]
  cases pfx with
  | domain d =>
    dsimp only
    rw [getElem?_append_len]
    exact Or.inl (if_neg hcolon)
  | taggedRef path tag =>
    cases tag with
    | some tag => exact absurd rfl (hpfx path tag)
    | none =>
      dsimp only
      rw [getElem?_append_len]
      cases hhead : (asBytes after).head? with
      | none => exact Or.inl rfl
      | some c =>
        have hc : c ≠ byte ':' := by
          rintro rfl
          exact hcolon hhead
        dsimp only
        rw [if_neg hc]
        split
        · exact Or.inl rfl
        · rename_i hat
          exact Or.inr ⟨rfl, fun hend => hat (eq_of_beq (hend c hhead))⟩

/-- A tag that the prefix has not read yet. -/
theorem parseTag_sat {name : String} (after : String) {pfx : DomainOrRefSpan}
    (hname : IsAscii name) (hpfx : ∀ path tag, pfx ≠ .taggedRef path (some tag)) :
    (parseTag (name ++ after) pfx (len name)).Sat (FoundTag after)
      fun e => AsciiUpTo (name ++ after) e.index := by
  by_cases hcolon : (asBytes after).head? = some (byte ':')
  · obtain ⟨rest, rfl⟩ := exists_append_of_head ":" hcolon rfl (by decide)
    have hascii : IsAscii (name ++ ":") := hname.append (by decide)
    rw [parseTag_colon name rest hpfx, ← String.append_assoc]
    refine Outcome.Sat.bind ((TagSpan.new_sat rest).mapErr fun e he => ?_) fun tag => ?_
    · exact (hascii.upTo.append he).mono (tagError_index_le name pfx e)
    · rintro ⟨t, r, rfl, ht, hle, hl, -⟩
      refine ⟨some t, r, (String.append_assoc ..).symm, ?_, .some hl⟩
      rintro _ ⟨⟩
      exact ⟨ht, hle⟩
  · rcases parseTag_none name hpfx hcolon with h | ⟨h, -⟩
    · rw [h]
      exact foundTag_none after
    · rw [h]
      exact asciiUpTo_zero _

/-- What a span says of the text after a name. -/
structure Suffix (nspan : NameSpan) (after : String) (span : RefSpan) (t dg : Option String) :
    Prop where
  name : span.name = nspan
  text : after = tagText t ++ digestText dg
  tag_mem : ∀ x, t = some x → PortOrTag.TagText (asBytes x) ∧ len x ≤ 129
  tag : Option.Rel (fun t (s : TagSpan) => s.length.val = len t) t span.tag
  digest : Option.Rel (fun d s => DigestSpan.new d = .ok s) dg span.digest

/-- The part of `newFrom` after the path. -/
def suffix (src : String) (pfx : DomainOrRefSpan) (nspan : NameSpan) (index : Nat) :
    Outcome Error RefSpan :=
  if Name.MAX_LEN < index then .err ⟨255, .nameTooLong⟩
  else do
    let tag ← parseTag src pfx index
    finish src nspan tag index

theorem suffix_sat {name : String} (after : String) {pfx : DomainOrRefSpan} (nspan : NameSpan)
    (hname : IsAscii name) (hpfx : ∀ path tag, pfx ≠ .taggedRef path (some tag)) :
    (suffix (name ++ after) pfx nspan (len name)).Sat
      (fun span => len name ≤ Name.MAX_LEN ∧ ∃ t dg, Suffix nspan after span t dg)
      fun e => AsciiUpTo (name ++ after) e.index := by
  rw [suffix]
  split
  · rename_i hlong
    exact hname.upTo_append (Nat.le_of_lt hlong) after
  · rename_i hle
    replace hle : len name ≤ Name.MAX_LEN := Nat.le_of_not_lt hle
    apply Outcome.Sat.bind (parseTag_sat after hname hpfx)
    intro tag
    rintro ⟨t, rest, rfl, htext, htag⟩
    rw [← String.append_assoc]
    refine (finish_sat rest nspan hname hle htext htag).mono ?_ fun e he => he
    rintro span ⟨hn, ht, dg, rfl, hdg⟩
    exact ⟨hle, t, dg, hn, rfl, htext, ht ▸ htag, hdg⟩

/-- The digest of a suffix has been parsed. -/
theorem Suffix.digest_ok {nspan : NameSpan} {after : String} {span : RefSpan}
    {t dg : Option String} (h : Suffix nspan after span t dg) :
    ∀ d, dg = some d → (DigestSpan.new d).Succeeds := by
  rintro d rfl
  have hd := h.digest
  cases hs : span.digest with
  | none =>
    rw [hs] at hd
    cases hd
  | some s =>
    rw [hs] at hd
    cases hd with
    | some hd => exact ⟨s, hd⟩

/-- A name and a suffix make up a reference. -/
theorem Suffix.exists_parts (domain : Option DomainParts) {u after : String} {nspan : NameSpan}
    {span : RefSpan} {t dg : Option String} (h : Suffix nspan after span t dg)
    (hd : Option.Rel (fun (d : DomainParts) s => s.Spans d.host d.port) domain nspan.domain)
    (hu : asBytes u ∈ Grammar.path) (hlen : nspan.path.length.val = len u)
    (hshape : domain = none → Undomained (asBytes u))
    (hle : len (nameText domain u) ≤ Name.MAX_LEN)
    (hlimit : ∀ x, t = some x → len x ≤ tagLimit domain u) :
    ∃ parts : Parts, nameText domain u ++ after = parts.print ∧ parts.Spans span := by
  have hdg := h.digest_ok
  obtain ⟨rfl, rfl, htag, htagrel, hdigest⟩ := h
  refine ⟨⟨domain, u, t, dg, hu, hshape, hle, fun x hx => ⟨(htag x hx).1, hlimit x hx⟩, hdg⟩,
    ?_, ⟨hd, hlen, htagrel, hdigest⟩⟩
  exact (String.append_assoc ..).symm

theorem len_domain_le {h : String} {p : Option String} {d : DomainSpan} (hd : d.Spans h p) :
    len (DomainSpan.text h p) ≤ maxU8 + 1 := by
  have hh := hd.host.length
  have hle := d.host.length.le
  rw [DomainSpan.len_text]
  cases p with
  | none =>
    simp only [Option.map_none, Option.getD_none]
    omega
  | some q =>
    have := hd.bound q rfl
    simp only [Option.map_some, Option.getD_some]
    omega

/-- After a domain comes a slash, and then a path. -/
theorem newFrom_domain {h : String} {p : Option String} (rest : String) {d : DomainSpan}
    (hd : d.Spans h p) :
    newFrom (DomainSpan.text h p ++ "/" ++ rest) (.domain d) =
      (PathSpan.new rest).mapErr (fun e =>
        (⟨saturatingAddU16 (len (DomainSpan.text h p)) e.index, e.kind⟩ : Error)) >>=
      fun path => suffix (DomainSpan.text h p ++ "/" ++ rest) (.domain d) ⟨some d, path⟩
        (len (DomainSpan.text h p ++ "/") + path.length.val) := by
  have hdl : d.shortLen.val = len (DomainSpan.text h p) := hd.len
  have hbound := len_domain_le hd
  have hmax : maxU8 + 1 + 1 + maxU8 ≤ maxU16 := by decide
  have hslash : len (DomainSpan.text h p ++ "/") = len (DomainSpan.text h p) + 1 := len_append _ "/"
  have hindex : saturatingAddU16 (len (DomainSpan.text h p)) 1 =
      len (DomainSpan.text h p ++ "/") := by
    rw [hslash]
    exact saturatingAddU16_of_le (by omega)
  have hhead : (asBytes (DomainSpan.text h p ++ "/" ++ rest))[len (DomainSpan.text h p)]? =
      some (byte '/') := by
    rw [String.append_assoc, getElem?_append_len]
    exact head?_sep "/" rfl rest
  have hpath : parsePath (DomainSpan.text h p ++ "/" ++ rest) (.domain d)
      (len (DomainSpan.text h p)) =
      (PathSpan.new rest).mapErr (fun e =>
        (⟨saturatingAddU16 (len (DomainSpan.text h p)) e.index, e.kind⟩ : Error)) >>=
      fun path => .ok (path, len (DomainSpan.text h p ++ "/")) := by
    rw [parsePath, DomainOrRefSpan.len, DomainOrRefSpan.shortLen, hdl, hhead]
    dsimp only
    rw [if_pos rfl, hindex, ← hslash, sliceFrom_append, Outcome.ok_bind]
  rw [newFrom]
  simp only [Option.map_some, Option.getD_some, hdl, hpath]
  rw [bind_assoc]
  congr 1
  funext path
  have := path.length.le
  rw [Outcome.ok_bind]
  dsimp only
  rw [saturatingAddU16_of_le (a := len (DomainSpan.text h p ++ "/")) (by omega)]
  rfl

theorem parsePath_tagged {src : String} {path : PathSpan} {tag : Option TagSpan} {index : Nat}
    (hnext : ∀ c, (asBytes src)[(DomainOrRefSpan.taggedRef path tag).len]? = some c →
      c = byte '@' ∨ c = byte ':') :
    parsePath src (.taggedRef path tag) index = .ok (path, index) := by
  rw [parsePath.eq_def]
  cases hhead : (asBytes src)[(DomainOrRefSpan.taggedRef path tag).len]? with
  | none => rfl
  | some c =>
    have hc := hnext c hhead
    have hslash : c ≠ byte '/' := by
      rintro rfl
      exact absurd hc (by decide)
    dsimp only
    rw [if_neg hslash, if_pos hc]

/-- After a path that is not followed by a tag yet. -/
theorem newFrom_untagged {u after : String} {path : PathSpan} (hlen : path.length.val = len u)
    (hstop : StopsAt PathSpan.isEnd (asBytes after)) :
    newFrom (u ++ after) (.taggedRef path none) =
      suffix (u ++ after) (.taggedRef path none) ⟨none, path⟩ (len u) := by
  have hpl : (DomainOrRefSpan.taggedRef path none).len = len u := hlen
  have hmax : maxU8 ≤ maxU16 := by decide
  have hpath : parsePath (u ++ after) (.taggedRef path none) 0 = .ok (path, 0) := by
    apply parsePath_tagged
    intro c hc
    rw [hpl, getElem?_append_len] at hc
    simpa [PathSpan.isEnd, or_comm] using hstop c hc
  have hindex : saturatingAddU16 0 path.length.val = len u := by
    have := path.length.le
    rw [hlen, saturatingAddU16_of_le (by omega), Nat.zero_add]
  rw [newFrom]
  simp only [Option.map_none, Option.getD_none]
  rw [hpath, Outcome.ok_bind]
  dsimp only
  rw [hindex]
  rfl

/-- After a single segment and its tag only a digest can follow. -/
theorem newFrom_tagged {u t after : String} {path : PathSpan} {tag : TagSpan}
    (hlen : path.length.val = len u) (htlen : tag.length.val = len t)
    (hstop : StopsAt TagSpan.isEnd (asBytes after)) :
    newFrom (u ++ (":" ++ t ++ after)) (.taggedRef path (some tag)) =
      finish (u ++ tagText (some t) ++ after) ⟨none, path⟩ (some tag) (len u) := by
  have hule : len u ≤ maxU8 := hlen ▸ path.length.le
  have htle : len t ≤ maxU8 := htlen ▸ tag.length.le
  have hmax : maxU8 + 1 + maxU8 ≤ maxU16 := by decide
  have hcat : u ++ (":" ++ t ++ after) = u ++ ":" ++ t ++ after := by
    simp only [String.append_assoc]
  have hpl : (DomainOrRefSpan.taggedRef path (some tag)).len = len (u ++ ":" ++ t) := by
    have hcolon : len ":" = 1 := rfl
    have h1 : saturatingAddU16 path.length.val 1 = path.length.val + 1 :=
      saturatingAddU16_of_le (by omega)
    rw [DomainOrRefSpan.len, DomainOrRefSpan.shortLen]
    simp only [LongLength.saturatingAdd_val, ShortLength.widen_val, h1]
    rw [saturatingAddU16_of_le (by omega), len_append, len_append, hcolon, hlen, htlen]
  have hpath : parsePath (u ++ ":" ++ t ++ after) (.taggedRef path (some tag)) 0 =
      .ok (path, 0) := by
    apply parsePath_tagged
    intro c hc
    rw [hpl, getElem?_append_len] at hc
    exact Or.inl (eq_of_beq (hstop c hc))
  have hindex : saturatingAddU16 0 path.length.val = len u := by
    rw [hlen, saturatingAddU16_of_le (by omega), Nat.zero_add]
  have hcat' : u ++ ":" ++ t ++ after = u ++ tagText (some t) ++ after := by
    simp only [tagText, String.append_assoc]
  have hshort : ¬Name.MAX_LEN < len u := Nat.not_lt_of_le hule
  rw [newFrom, hcat]
  simp only [Option.map_none, Option.getD_none]
  rw [hpath, Outcome.ok_bind]
  dsimp only
  rw [hindex, if_neg hshort, parseTag, Outcome.ok_bind, hcat']

theorem newFrom_domain_sat {h : String} {p : Option String} (rest : String) {d : DomainSpan}
    (hd : d.Spans h p) :
    (newFrom (DomainSpan.text h p ++ "/" ++ rest) (.domain d)).Sat
      (fun span => ∃ parts : Parts,
        DomainSpan.text h p ++ "/" ++ rest = parts.print ∧ parts.Spans span)
      fun e => AsciiUpTo (DomainSpan.text h p ++ "/" ++ rest) e.index := by
  have hascii : IsAscii (DomainSpan.text h p ++ "/") := (isAscii_of_domain hd).append (by decide)
  have hslash : len (DomainSpan.text h p ++ "/") = len (DomainSpan.text h p) + 1 := len_append _ "/"
  rw [newFrom_domain rest hd]
  refine Outcome.Sat.bind ((PathSpan.new_sat rest).mapErr fun e he => ?_) fun path => ?_
  · have h1 := saturatingAddU16_le (len (DomainSpan.text h p)) e.index
    exact (hascii.upTo.append he.1).mono (by simp only; omega)
  rintro ⟨u, after, rfl, hu, hlen, -⟩
  rw [hlen, ← len_append, ← String.append_assoc]
  refine (suffix_sat after ⟨some d, path⟩ (hascii.append (isAscii_of_path hu)) (by simp)).mono ?_
    fun e he => he
  rintro span ⟨hle, t, dg, hsuffix⟩
  have hlimit : tagLimit (some ⟨h, p, ⟨_, hd.host.text⟩, hd.digits⟩) u = 129 := if_neg (by simp)
  exact hsuffix.exists_parts (some ⟨h, p, ⟨_, hd.host.text⟩, hd.digits⟩) (.some hd)
    hu hlen (fun hnone => by cases hnone) hle fun x hx => hlimit ▸ (hsuffix.tag_mem x hx).2

theorem newFrom_untagged_sat {u after : String} {path : PathSpan}
    (hu : asBytes u ∈ Grammar.path) (hshape : Undomained (asBytes u))
    (hlen : path.length.val = len u) (hstop : StopsAt PathSpan.isEnd (asBytes after))
    (hsegment : byte '/' ∉ asBytes u → StopsAt TagSpan.isEnd (asBytes after)) :
    (newFrom (u ++ after) (.taggedRef path none)).Sat
      (fun span => ∃ parts : Parts, u ++ after = parts.print ∧ parts.Spans span)
      fun e => AsciiUpTo (u ++ after) e.index := by
  rw [newFrom_untagged hlen hstop]
  refine (suffix_sat after ⟨none, path⟩ (isAscii_of_path hu) (by simp)).mono ?_ fun e he => he
  rintro span ⟨hle, t, dg, hsuffix⟩
  apply hsuffix.exists_parts none .none hu hlen (fun _ => hshape) hle
  intro x hx
  by_cases hs : byte '/' ∈ asBytes u
  · have hlimit : tagLimit none u = 129 := if_neg (by simp [hs])
    exact hlimit ▸ (hsuffix.tag_mem x hx).2
  · -- after a single segment the tag has been read already
    have hend := hsegment hs
    rw [hsuffix.text, hx, tagText, String.append_assoc] at hend
    exact absurd (hend _ (head?_sep ":" rfl _)) (by decide)

theorem newFrom_tagged_sat {u t after : String} {path : PathSpan} {tag : TagSpan}
    (hu : asBytes u ∈ pathComponent) (hlen : path.length.val = len u)
    (ht : PortOrTag.TagText (asBytes t)) (hle : len t ≤ Tag.MAX_LEN)
    (htlen : tag.length.val = len t) (hstop : StopsAt TagSpan.isEnd (asBytes after)) :
    (newFrom (u ++ (":" ++ t ++ after)) (.taggedRef path (some tag))).Sat
      (fun span => ∃ parts : Parts, u ++ (":" ++ t ++ after) = parts.print ∧ parts.Spans span)
      fun e => AsciiUpTo (u ++ (":" ++ t ++ after)) e.index := by
  obtain ⟨hmem, hshape⟩ := DomainOrRefSpan.segment_mem_path hu
  have hule : len u ≤ maxU8 := hlen ▸ path.length.le
  have hcat : u ++ (":" ++ t ++ after) = u ++ tagText (some t) ++ after := by
    simp only [tagText, String.append_assoc]
  have htext : ∀ x, some t = some x → PortOrTag.TagText (asBytes x) ∧ len x ≤ 129 := by
    rintro _ ⟨⟩
    exact ⟨ht, Nat.le_trans hle (by decide)⟩
  rw [newFrom_tagged hlen htlen hstop, hcat]
  refine (finish_sat after ⟨none, path⟩ (isAscii_of_path hmem) hule htext (.some htlen)).mono ?_
    fun e he => he
  rintro span ⟨hn, htag, dg, rfl, hdg⟩
  have hsuffix : Suffix ⟨none, path⟩ (tagText (some t) ++ digestText dg) span (some t) dg :=
    ⟨hn, rfl, htext, htag ▸ .some htlen, hdg⟩
  rw [String.append_assoc]
  apply hsuffix.exists_parts none .none hmem hlen (fun _ => hshape) hule
  rintro _ ⟨⟩
  have hlimit : tagLimit none u = Tag.MAX_LEN :=
    if_pos ⟨rfl, slash_not_mem_pathComponent hu⟩
  exact hlimit ▸ hle

/-- Soundness: a successful parse has read the print of some parts. -/
theorem new_sat (src : String) :
    (new src).Sat (fun span => ∃ parts : Parts, src = parts.print ∧ parts.Spans span)
      fun e => AsciiUpTo src e.index := by
  rw [new]
  split
  · exact asciiUpTo_zero src
  · refine Outcome.Sat.bind (DomainOrRefSpan.new_sat src) fun pfx hpfx => ?_
    cases hpfx with
    | domain hsrc hd =>
      rw [hsrc]
      exact newFrom_domain_sat _ hd
    | untagged hsrc hu hshape hlen hstop hsegment =>
      rw [hsrc]
      exact newFrom_untagged_sat hu hshape hlen hstop hsegment
    | @tagged u t rest path tag hsrc hu hlen ht hle htlen hstop =>
      have hcat : u ++ ":" ++ t ++ rest = u ++ (":" ++ t ++ rest) := by
        simp only [String.append_assoc]
      rw [hsrc, hcat]
      exact newFrom_tagged_sat hu hlen ht hle htlen hstop

theorem parseDigest_ok {done : String} {dg : Option String} (hmax : len done ≤ maxU8 + 1 + 129)
    (hdg : ∀ d, dg = some d → (DigestSpan.new d).Succeeds) :
    (parseDigest (done ++ digestText dg) (len done)).Succeeds := by
  have hbound := index_bound
  rw [parseDigest, getElem?_append_len]
  cases dg with
  | none => exact ⟨_, rfl⟩
  | some d =>
    obtain ⟨s, hs⟩ := hdg d rfl
    have hhead : (asBytes (digestText (some d))).head? = some (byte '@') := head?_sep "@" rfl d
    have hcat : done ++ digestText (some d) = (done ++ "@") ++ d := (String.append_assoc ..).symm
    have hindex : saturatingAddU16 (len done) 1 = len (done ++ "@") := by
      rw [saturatingAddU16_of_le (by omega), len_append]
      rfl
    rw [hhead]
    dsimp only
    rw [if_pos rfl, hindex, hcat, sliceFrom_append, Outcome.ok_bind, hs]
    exact ⟨_, rfl⟩

theorem finish_ok {name : String} {t dg : Option String} {tag : Option TagSpan} (nspan : NameSpan)
    (hascii : IsAscii name) (hname : len name ≤ maxU8)
    (htext : ∀ x, t = some x → PortOrTag.TagText (asBytes x) ∧ len x ≤ 129)
    (htag : Option.Rel (fun t (s : TagSpan) => s.length.val = len t) t tag)
    (hdg : ∀ d, dg = some d → (DigestSpan.new d).Succeeds) :
    ∃ span, finish (name ++ tagText t ++ digestText dg) nspan tag (len name) = .ok span ∧
      Suffix nspan (tagText t ++ digestText dg) span t dg := by
  have hpre : IsAscii (name ++ tagText t) :=
    hascii.append (isAscii_tagText fun x hx => (htext x hx).1)
  have hlen := len_tagged_le hname htext
  obtain ⟨⟨digest, index⟩, hr⟩ := parseDigest_ok hlen hdg
  have hfin : finish (name ++ tagText t ++ digestText dg) nspan tag (len name) =
      .ok ⟨nspan, tag, digest⟩ := by
    obtain ⟨_, -, -, hindex⟩ := (parseDigest_sat (digestText dg) hpre hlen).of_ok hr
    rw [finish, index_tag hname htag, hr, Outcome.ok_bind]
    dsimp only at hindex ⊢
    rw [hindex, Outcome.assert_true rfl, Outcome.ok_bind]
  obtain ⟨-, -, dg', hdg', hrel⟩ :=
    (finish_sat (digestText dg) nspan hascii hname htext htag).of_ok hfin
  exact ⟨_, hfin, rfl, rfl, htext, htag, digestText_injective hdg' ▸ hrel⟩

theorem stopsAt_digest (dg : Option String) : StopsAt TagSpan.isEnd (asBytes (digestText dg)) := by
  cases dg with
  | none => exact stopsAt_nil _
  | some d => exact stopsAt_sep "@" rfl rfl d

theorem stopsAt_suffix (t dg : Option String) :
    StopsAt PathSpan.isEnd (asBytes (tagText t ++ digestText dg)) := by
  cases t with
  | none =>
    rw [tagText, String.empty_append]
    refine (stopsAt_digest dg).mono fun c hc => ?_
    simpa [PathSpan.isEnd, TagSpan.isEnd] using Or.inr hc
  | some x =>
    rw [tagText, String.append_assoc]
    exact stopsAt_sep ":" rfl rfl _

/-- A tag that no prefix has read is read here. -/
theorem parseTag_ok (name : String) {t : Option String} (dg : Option String) {pfx : DomainOrRefSpan}
    (hpfx : ∀ path tag, pfx ≠ .taggedRef path (some tag))
    (htext : ∀ x, t = some x → PortOrTag.TagText (asBytes x) ∧ len x ≤ 129) :
    ∃ tag, parseTag (name ++ (tagText t ++ digestText dg)) pfx (len name) = .ok tag ∧
      Option.Rel (fun t (s : TagSpan) => s.length.val = len t) t tag := by
  cases t with
  | none =>
    have hend := stopsAt_digest dg
    have hcolon : (asBytes (digestText dg)).head? ≠ some (byte ':') := fun hc =>
      absurd (hend _ hc) (by decide)
    rw [tagText, String.empty_append]
    rcases parseTag_none name hpfx hcolon with h | ⟨-, hnot⟩
    · exact ⟨none, h, .none⟩
    · exact absurd hend hnot
  | some x =>
    obtain ⟨hx, hle⟩ := htext x rfl
    obtain ⟨tag, htag, hlen⟩ := TagSpan.new_ok _ hx hle (stopsAt_digest dg)
    refine ⟨some tag, ?_, .some hlen⟩
    rw [tagText, String.append_assoc, parseTag_colon name _ hpfx, htag, Outcome.mapErr_ok,
      Outcome.ok_bind]

/-- A tag that no prefix has read is read here, and the rest is left to `finish`. -/
theorem suffix_eq_finish {name : String} {t : Option String} (dg : Option String)
    (pfx : DomainOrRefSpan) (nspan : NameSpan) (hname : len name ≤ Name.MAX_LEN)
    (hpfx : ∀ path tag, pfx ≠ .taggedRef path (some tag))
    (htext : ∀ x, t = some x → PortOrTag.TagText (asBytes x) ∧ len x ≤ 129) :
    ∃ tag, suffix (name ++ (tagText t ++ digestText dg)) pfx nspan (len name) =
        finish (name ++ tagText t ++ digestText dg) nspan tag (len name) ∧
      Option.Rel (fun t (s : TagSpan) => s.length.val = len t) t tag := by
  obtain ⟨tag, htag, hrel⟩ := parseTag_ok name dg hpfx htext
  refine ⟨tag, ?_, hrel⟩
  rw [suffix, if_neg (Nat.not_lt_of_le hname), htag, Outcome.ok_bind, ← String.append_assoc]

theorem tag_le {p : Parts} : ∀ x, p.tag = some x →
    PortOrTag.TagText (asBytes x) ∧ len x ≤ 129 := fun x hx =>
  ⟨(p.tag_mem x hx).1, Nat.le_trans (p.tag_mem x hx).2 (Parts.tagLimit_le _ _)⟩

theorem new_eq_newFrom {src : String} {pfx : DomainOrRefSpan} (hne : src ≠ "")
    (hpfx : DomainOrRefSpan.new src = .ok pfx) : new src = newFrom src pfx := by
  have hbytes : asBytes src ≠ [] := fun h => hne (asBytes_inj.mp h)
  rw [new, if_neg hbytes, hpfx, Outcome.ok_bind]

theorem path_ne_empty {u : String} (h : asBytes u ∈ Grammar.path) (after : String) :
    u ++ after ≠ "" := by
  intro hnil
  obtain ⟨x, hx, r, -, hxr⟩ := mem_path.mp h
  obtain ⟨c, hc, -⟩ := head_of_mem_pathComponent hx
  have hb := congrArg asBytes hnil
  rw [asBytes_append, ← hxr] at hb
  cases x with
  | nil => cases hc
  | cons d x => cases hb

/-- A name with a domain is read, whatever follows it. -/
theorem new_domain {p : Parts} {d : DomainParts} (hd : p.domain = some d) {after : String}
    (hstop : StopsAt PathSpan.isEnd (asBytes after)) :
    ∃ ds path, ds.Spans d.host d.port ∧ path.length.val = len p.path ∧
      new (p.name ++ after) =
        suffix (p.name ++ after) (.domain ds) ⟨some ds, path⟩ (len p.name) := by
  obtain ⟨k, hk⟩ := d.host_mem
  have hname := p.name_le
  rw [hd, Parts.len_nameText_some, DomainParts.text, DomainSpan.len_text] at hname
  have hmax : Name.MAX_LEN = maxU8 := rfl
  have hpname : p.name = DomainSpan.text d.host d.port ++ "/" ++ p.path := by
    rw [Parts.name, hd]
    rfl
  have hcat : p.name ++ after = DomainSpan.text d.host d.port ++ "/" ++ (p.path ++ after) := by
    rw [hpname, String.append_assoc]
  obtain ⟨ds, hds, hspans⟩ := DomainOrRefSpan.domain_ok (p.path ++ after) hk (by omega)
    d.port_mem fun q hq => by
      rw [hq] at hname
      simp only [Option.map_some, Option.getD_some] at hname
      omega
  obtain ⟨path, hpath, hlen⟩ := PathSpan.new_ok _ p.path_mem (by omega) hstop
  have hne : DomainSpan.text d.host d.port ++ ("/" ++ (p.path ++ after)) ≠ "" :=
    append_sep_ne_empty "/" rfl _ _
  refine ⟨ds, path, hspans, hlen, ?_⟩
  rw [hcat, String.append_assoc, new_eq_newFrom hne hds, ← String.append_assoc,
    newFrom_domain _ hspans, hpath, Outcome.mapErr_ok, Outcome.ok_bind, hlen, ← len_append, hpname]

/-- Everything before the digest has been read, and the rest is left to `finish`. -/
def ReadToDigest (p : Parts) (dg : Option String) : Prop :=
  ∃ nspan tag, new (p.name ++ tagText p.tag ++ digestText dg) =
      finish (p.name ++ tagText p.tag ++ digestText dg) nspan tag (len p.name) ∧
    Option.Rel (fun (d : DomainParts) s => s.Spans d.host d.port) p.domain nspan.domain ∧
    nspan.path.length.val = len p.path ∧
    Option.Rel (fun t (s : TagSpan) => s.length.val = len t) p.tag tag

/-- A reference with a domain is read up to its digest. -/
theorem readToDigest_domain {p : Parts} {d : DomainParts} (hd : p.domain = some d)
    (dg : Option String) : ReadToDigest p dg := by
  obtain ⟨ds, path, hspans, hlen, hnew⟩ := new_domain hd (stopsAt_suffix p.tag dg)
  obtain ⟨tag, htag, hrel⟩ := suffix_eq_finish dg (.domain ds) ⟨some ds, path⟩ p.name_le
    (by simp) tag_le
  refine ⟨⟨some ds, path⟩, tag, ?_, ?_, hlen, hrel⟩
  · rw [String.append_assoc, hnew, ← String.append_assoc]
    rwa [← String.append_assoc] at htag
  · rw [hd]
    exact .some hspans

/-- The first segment of a longer name without a domain has an underscore, and the name is read
as a path. -/
theorem pfx_underscore {p : Parts} (hd : p.domain = none) (hslash : byte '/' ∈ asBytes p.path)
    {after : String} (hstop : StopsAt PathSpan.isEnd (asBytes after)) :
    ∃ path, DomainOrRefSpan.new (p.path ++ after) = .ok (.taggedRef path none) ∧
      path.length.val = len p.path := by
  obtain ⟨x, hx, r, hr, hxr⟩ := mem_path.mp p.path_mem
  obtain ⟨w, v, hwv, rfl, rfl⟩ := exists_append_of_ascii hxr.symm fun c hc =>
    ascii_of_isComponentByte c (isComponentByte_of_mem hx c hc)
  have hv : v ≠ "" := by
    rintro rfl
    rw [hwv, String.append_empty] at hslash
    exact slash_not_mem_pathComponent hx hslash
  have hshape := p.undomained hd
  rw [← hxr, undomained_iff hx hr] at hshape
  have hunder : byte '_' ∈ asBytes w := by
    refine hshape.resolve_left fun hnil => hv ?_
    exact asBytes_inj.mp hnil
  have hlenp : len p.path = len w + len v := by rw [hwv, len_append]
  have hle : len w + len v ≤ maxU8 := hlenp ▸ Parts.path_le hd
  obtain ⟨path, hpath, hlen⟩ := DomainOrRefSpan.underscore_ok hx hunder hr hv hle hstop
  refine ⟨path, ?_, hlen.trans hlenp.symm⟩
  rw [hwv, String.append_assoc, hpath]

/-- A path that is not a single segment, or has no tag. -/
theorem readToDigest_untagged {p : Parts} (hd : p.domain = none) {dg : Option String}
    (path : PathSpan)
    (hpfx : DomainOrRefSpan.new (p.path ++ (tagText p.tag ++ digestText dg)) =
      .ok (.taggedRef path none))
    (hlen : path.length.val = len p.path) : ReadToDigest p dg := by
  obtain ⟨tag, htag, hrel⟩ := suffix_eq_finish dg (.taggedRef path none) ⟨none, path⟩
    (Parts.path_le hd) (by simp) tag_le
  refine ⟨⟨none, path⟩, tag, ?_, ?_, hlen, hrel⟩
  · rw [Parts.name_of_none hd, ← htag, String.append_assoc,
      new_eq_newFrom (path_ne_empty p.path_mem _) hpfx,
      newFrom_untagged hlen (stopsAt_suffix p.tag dg)]
  · rw [hd]
    exact .none

/-- A single segment with a tag. -/
theorem readToDigest_tagged {p : Parts} {t : String} (hd : p.domain = none)
    (ht : p.tag = some t) (hu : asBytes p.path ∈ pathComponent) (dg : Option String) :
    ReadToDigest p dg := by
  have hlimit : tagLimit p.domain p.path = Tag.MAX_LEN := by
    rw [hd]
    exact if_pos ⟨rfl, slash_not_mem_pathComponent hu⟩
  obtain ⟨htext, hle⟩ := p.tag_mem t ht
  rw [hlimit] at hle
  obtain ⟨path, tag, hpfx, hlen, htlen⟩ :=
    DomainOrRefSpan.tagged_ok (digestText dg) hu (Parts.path_le hd) htext hle (stopsAt_digest _)
  have hne : p.path ++ (":" ++ t ++ digestText dg) ≠ "" := path_ne_empty p.path_mem _
  have hcat : p.path ++ tagText (some t) ++ digestText dg =
      p.path ++ (":" ++ t ++ digestText dg) := by
    simp only [tagText, String.append_assoc]
  refine ⟨⟨none, path⟩, some tag, ?_, ?_, hlen, ht ▸ .some htlen⟩
  · rw [Parts.name_of_none hd, ht, ← newFrom_tagged hlen htlen (stopsAt_digest dg), hcat,
      new_eq_newFrom hne hpfx]
  · rw [hd]
    exact .none

/-- Whatever digest follows, the parts before it are read. -/
theorem readToDigest (p : Parts) (dg : Option String) : ReadToDigest p dg := by
  cases hd : p.domain with
  | some d => exact readToDigest_domain hd dg
  | none =>
    by_cases hslash : byte '/' ∈ asBytes p.path
    · obtain ⟨path, hpath, hlen⟩ := pfx_underscore hd hslash (stopsAt_suffix p.tag dg)
      exact readToDigest_untagged hd path hpath hlen
    · have hx := mem_pathComponent_of_path p.path_mem hslash
      cases ht : p.tag with
      | some t => exact readToDigest_tagged hd ht hx dg
      | none =>
        obtain ⟨path, hpath, hlen⟩ := DomainOrRefSpan.segment_ok hx (Parts.path_le hd)
          (stopsAt_digest dg)
        refine readToDigest_untagged hd path ?_ hlen
        rw [ht, tagText, String.empty_append, hpath]

theorem isAscii_name (p : Parts) : IsAscii p.name := by
  have hhost : ∀ c, isHostByte c = true → c < 128 := forall_byte (by decide)
  have hpath := isAscii_of_path p.path_mem
  rw [Parts.name, nameText.eq_def]
  cases p.domain with
  | none => exact hpath
  | some d =>
    have hd : IsAscii d.text := fun c hc => hhost c (isHostByte_of_mem d c hc)
    exact (hd.append (by decide)).append hpath

/-- Completeness: the print of any parts is parsed, and the span describes them. -/
theorem new_print (p : Parts) : ∃ span, new p.print = .ok span ∧ p.Spans span := by
  obtain ⟨nspan, tag, hnew, hdomain, hpath, htag⟩ := readToDigest p p.digest
  obtain ⟨span, hspan, hsuffix⟩ := finish_ok nspan (isAscii_name p) p.name_le tag_le htag
    p.digest_ok
  refine ⟨span, hnew.trans hspan, ⟨?_, ?_, hsuffix.tag, hsuffix.digest⟩⟩
  · rw [hsuffix.name]
    exact hdomain
  · rw [hsuffix.name]
    exact hpath

/-- A reference can be read in one way only. -/
theorem print_injective {p q : Parts} (h : p.print = q.print) : p = q := by
  obtain ⟨span, hspan, hp⟩ := new_print p
  obtain ⟨span', hspan', hq⟩ := new_print q
  rw [h, hspan'] at hspan
  cases hspan
  exact hp.unique hq h

/-- The parser accepts exactly the prints of parts, and returns their spans. -/
theorem new_eq_ok {src : String} {span : RefSpan} :
    new src = .ok span ↔ ∃ p : Parts, src = p.print ∧ p.Spans span := by
  constructor
  · exact fun h => (new_sat src).of_ok h
  · rintro ⟨p, rfl, hp⟩
    obtain ⟨span', hspan, hp'⟩ := new_print p
    rw [hspan, hp.span_unique hp']

end RefSpan

end ContainerImageDistRef
