import ContainerImageDistRef.PinByDigest

/-!
# The language of tags

After every name a colon and a text without a slash can only be read as a tag.
The limit on its length is one byte higher in the tag parser than where a tag
follows a single segment.
-/

namespace ContainerImageDistRef

open ByteString Grammar

/-- After a colon in a name there is still a slash. -/
theorem Parts.slash_mem_of_name_eq {p : Parts} {x y : List UInt8}
    (h : asBytes p.name = x ++ byte ':' :: y) : byte '/' ∈ y := by
  have hpath : byte ':' ∉ asBytes p.path := fun hmem =>
    absurd (isPathByte_of_mem p.path_mem _ hmem) (by decide)
  cases hd : p.domain with
  | none =>
    rw [name_of_none hd] at h
    rw [h] at hpath
    exact absurd (by simp) hpath
  | some d =>
    have hbytes := (asBytes_name hd).symm.trans h
    rcases List.append_eq_append_iff.mp hbytes with ⟨z, -, hz⟩ | ⟨z, -, hz⟩
    · -- the colon would stand in the path
      cases z with
      | nil => exact absurd (List.cons.inj hz).1 (by decide)
      | cons c z =>
        obtain ⟨-, hz⟩ := List.cons.inj hz
        rw [hz] at hpath
        exact absurd (by simp) hpath
    · cases z with
      | nil => exact absurd (List.cons.inj hz).1 (by decide)
      | cons c z =>
        obtain ⟨-, hz⟩ := List.cons.inj hz
        rw [hz]
        simp

/-- Two names, each followed by a colon and a text, where the first text has no slash and the
second no colon. -/
theorem Parts.eq_of_name_colon {p q : Parts} {t x : String} (hslash : byte '/' ∉ asBytes t)
    (hcolon : byte ':' ∉ asBytes x) (h : p.name ++ ":" ++ t = q.name ++ ":" ++ x) :
    q.name = p.name ∧ x = t := by
  have hlen : len p.name = len q.name := by
    have hbytes : asBytes p.name ++ byte ':' :: asBytes t =
        asBytes q.name ++ byte ':' :: asBytes x :=
      (asBytes_sep ":" rfl p.name t).symm.trans
        ((congrArg asBytes h).trans (asBytes_sep ":" rfl q.name x))
    rcases List.append_eq_append_iff.mp hbytes with ⟨z, hq, hz⟩ | ⟨z, hp, hz⟩
    · cases z with
      | nil => rw [len, len, hq, List.append_nil]
      | cons c z =>
        obtain ⟨rfl, htail⟩ := List.cons.inj hz
        rw [htail] at hslash
        exact absurd (List.mem_append_left _ (slash_mem_of_name_eq hq)) hslash
    · cases z with
      | nil => rw [len, len, hp, List.append_nil]
      | cons c z =>
        obtain ⟨-, hz⟩ := List.cons.inj hz
        rw [hz] at hcolon
        exact absurd (by simp) hcolon
  rw [String.append_assoc, String.append_assoc] at h
  obtain ⟨hname, hrest⟩ := append_inj h hlen
  exact ⟨hname.symm, ((String.append_right_inj _).mp hrest).symm⟩

/-- A name and a text without a slash are read as a name and a tag. -/
theorem Parts.eq_tagged {p q : Parts} {t : String} (hp : p.tag = none) (hpd : p.digest = none)
    (hslash : byte '/' ∉ asBytes t) (hat : byte '@' ∉ asBytes t)
    (h : p.print ++ ":" ++ t = q.print) :
    q.name = p.name ∧ q.tag = some t ∧ q.digest = none := by
  have hprint := print_bare hp hpd
  have hqd : q.digest = none := by
    refine digest_eq_none ?_ h
    rw [hprint, asBytes_append, asBytes_append, List.mem_append, List.mem_append]
    rintro ((hmem | hmem) | hmem)
    · exact p.at_not_mem_name hmem
    · exact absurd hmem (by decide)
    · exact hat hmem
  rw [hprint, print, hqd, digestText, String.append_empty] at h
  cases hq : q.tag with
  | none =>
    rw [hq, tagText, String.append_empty] at h
    have hname : asBytes q.name = asBytes p.name ++ byte ':' :: asBytes t := by
      rw [← h]
      exact asBytes_sep ":" rfl p.name t
    exact absurd (slash_mem_of_name_eq hname) hslash
  | some x =>
    have hcolon : byte ':' ∉ asBytes x := fun hmem =>
      absurd ((q.tag_mem x hq).1.forall _ hmem) (by decide)
    rw [hq, tagText, ← String.append_assoc] at h
    obtain ⟨hname, rfl⟩ := eq_of_name_colon hslash hcolon h
    exact ⟨hname, rfl, hqd⟩

/-- A name without a tag and with one has the same domain and path. -/
theorem Parts.eq_of_name {p q : Parts} (h : q.name = p.name) :
    q.domain = p.domain ∧ q.path = p.path := by
  let p' : Parts := { p with tag := none, tag_mem := by simp, digest := none, digest_ok := by simp }
  let q' : Parts := { q with tag := none, tag_mem := by simp, digest := none, digest_ok := by simp }
  have hprint : q'.print = p'.print := congrArg (fun s => s ++ "" ++ "") h
  have hparts : q' = p' := RefSpan.print_injective hprint
  have hdomain : q'.domain = p'.domain := by rw [hparts]
  have hpath : q'.path = p'.path := by rw [hparts]
  exact ⟨hdomain, hpath⟩

/-- Exactly the texts within the limit of the route are read as a tag. -/
theorem Parts.tagged_iff {p : Parts} {t : String} (hp : p.tag = none) (hpd : p.digest = none)
    (hslash : byte '/' ∉ asBytes t) (hat : byte '@' ∉ asBytes t) :
    (ImgRef.new (p.print ++ ":" ++ t)).Succeeds ↔
      PortOrTag.TagText (asBytes t) ∧ len t ≤ tagLimit p.domain p.path := by
  have hprint := print_bare hp hpd
  constructor
  · rintro ⟨img, himg⟩
    obtain ⟨q, span, hq, -, -⟩ := ImgRef.new_eq_ok.mp himg
    obtain ⟨hname, htag, -⟩ := eq_tagged hp hpd hslash hat hq
    obtain ⟨hdomain, hpath⟩ := eq_of_name hname
    rw [← hdomain, ← hpath]
    exact q.tag_mem t htag
  · intro ht
    let q : Parts := { p with
      tag := some t
      tag_mem := by
        rintro _ ⟨⟩
        exact ht }
    obtain ⟨span, -, hq⟩ := RefSpan.new_print q
    have hqp : p.print ++ ":" ++ t = q.print := by
      rw [hprint, String.append_assoc]
      have hqprint : q.print = p.name ++ (":" ++ t) ++ digestText p.digest := rfl
      rw [hqprint, hpd, digestText, String.append_empty]
    exact ⟨_, ImgRef.new_eq_ok.mpr ⟨q, span, hqp, hq, rfl⟩⟩

/-- The standalone tag parser, on a text that does not end before its end. -/
theorem Tag.new_iff {t : String} (hslash : byte '/' ∉ asBytes t) (hat : byte '@' ∉ asBytes t) :
    (Tag.new t).Succeeds ↔ PortOrTag.TagText (asBytes t) ∧ len t ≤ 129 := by
  rw [Tag.new]
  constructor
  · rintro ⟨tag, htag⟩
    obtain ⟨span, hspan, -⟩ := Outcome.bind_eq_ok.mp htag
    obtain ⟨u, rest, rfl, htext, hle, -, hstop⟩ := (TagSpan.new_sat t).of_ok hspan
    have hrest : rest = "" := by
      apply hstop.eq_empty
      intro c hc
      apply beq_false_of_ne
      rintro rfl
      apply hat
      rw [asBytes_append, List.mem_append]
      exact Or.inr hc
    subst hrest
    rw [String.append_empty]
    exact ⟨htext, hle⟩
  · rintro ⟨htext, hle⟩
    obtain ⟨span, hspan, hlen⟩ := TagSpan.new_ok "" htext hle (stopsAt_nil _)
    rw [String.append_empty] at hspan
    rw [hspan, Outcome.ok_bind, hlen, sliceTo_len]
    exact ⟨_, rfl⟩

/-- What `[\w][\w.-]{0,127}` is for the tags after one reference. -/
structure TagsAfter (r t : String) (img : ImgRef) : Prop where
  succeeds : (ImgRef.new (r ++ ":" ++ t)).Succeeds ↔ asBytes t ∈ Grammar.tag
  parts : ∀ tagged, ImgRef.new (r ++ ":" ++ t) = .ok tagged →
    tagged.name (ε := Empty) = img.name ∧ tagged.tag (ε := Empty) = .ok (some t)

/-- What it is for the tags after one reference and for the tag parser. -/
structure TagLanguage (r t : String) (img : ImgRef) : Prop extends TagsAfter r t img where
  standalone : (Tag.new t).Succeeds ↔ asBytes t ∈ Grammar.tag

/-- What a tagged reference shows does not depend on the length of its tag. -/
theorem Parts.Spans.tagged {p : Parts} {span : RefSpan} (h : p.Spans span) (hp : p.tag = none)
    (hpd : p.digest = none) {t : String} (hslash : byte '/' ∉ asBytes t)
    (hat : byte '@' ∉ asBytes t) {tagged : ImgRef}
    (htagged : ImgRef.new (p.print ++ ":" ++ t) = .ok tagged) :
    tagged.name (ε := Empty) = ImgRef.name ⟨p.print, span⟩ ∧
      tagged.tag (ε := Empty) = .ok (some t) := by
  obtain ⟨q, span', hq, hqs, rfl⟩ := ImgRef.new_eq_ok.mp htagged
  obtain ⟨hname, htag, -⟩ := eq_tagged hp hpd hslash hat hq
  obtain ⟨hdomain, hpath⟩ := eq_of_name hname
  have hspan : span'.name = span.name := name_unique hqs h hdomain hpath
  rw [hqs.shows.name, h.shows.name, hqs.shows.tag]
  constructor
  · rw [view, view, hname, hspan]
  · exact congrArg Outcome.ok htag

/-- A limit one byte higher makes a difference for the texts of 129 bytes only. -/
theorem tagText_le_iff {n : Nat} (hn : n = 128 ∨ n = 129) (t : String) :
    (PortOrTag.TagText (asBytes t) ∧ len t ≤ n ↔ asBytes t ∈ Grammar.tag) ↔
      ¬(n = 129 ∧ len t = 129 ∧ PortOrTag.TagText (asBytes t)) := by
  have hmax : Tag.MAX_LEN = 128 := rfl
  rw [TagSpan.mem_tag, hmax]
  constructor
  · rintro hiff ⟨rfl, hlen, htext⟩
    have hle := (hiff.mp ⟨htext, Nat.le_of_eq hlen⟩).2
    omega
  · intro hnot
    apply and_congr_right
    intro htext
    have hne : ¬(n = 129 ∧ len t = 129) := fun h => hnot ⟨h.1, h.2, htext⟩
    omega

/-- After a reference the limit is that of the route on which its tag is read. -/
theorem tagsAfter_of_spans {p : Parts} {span : RefSpan} (h : p.Spans span)
    (hp : p.tag = none) (hpd : p.digest = none) {t : String} (hslash : byte '/' ∉ asBytes t)
    (hat : byte '@' ∉ asBytes t) :
    TagsAfter p.print t ⟨p.print, span⟩ ↔
      ¬(byte '/' ∈ asBytes p.print ∧ len t = 129 ∧ PortOrTag.TagText (asBytes t)) := by
  have hlimit : tagLimit p.domain p.path = 129 ↔ byte '/' ∈ asBytes p.print := by
    rw [p.tagLimit_eq, ← Parts.print_bare hp hpd]
    split <;> simp_all
  have hcases : tagLimit p.domain p.path = 128 ∨ tagLimit p.domain p.path = 129 := by
    rw [p.tagLimit_eq]
    split <;> simp
  rw [← hlimit, ← tagText_le_iff hcases, ← Parts.tagged_iff hp hpd hslash hat]
  constructor
  · intro htags
    exact htags.succeeds
  · intro hsucceeds
    exact ⟨hsucceeds, fun tagged htagged => h.tagged hp hpd hslash hat htagged⟩

/-- The tag parser has the higher limit. -/
theorem Tag.mem_iff {t : String} (hslash : byte '/' ∉ asBytes t) (hat : byte '@' ∉ asBytes t) :
    ((Tag.new t).Succeeds ↔ asBytes t ∈ Grammar.tag) ↔
      ¬(len t = 129 ∧ PortOrTag.TagText (asBytes t)) := by
  have hiff := tagText_le_iff (Or.inr rfl : 129 = 128 ∨ 129 = 129) t
  rw [← Tag.new_iff hslash hat] at hiff
  exact hiff.trans (not_congr (and_iff_right rfl))

/-- The texts read as tags are the tags, but for texts of 129 bytes: after a name with a slash,
and by the tag parser. -/
theorem tag_language_iff {r t : String} {img : ImgRef} (h : ImgRef.new r = .ok img)
    (htag : img.tag (ε := Empty) = .ok none) (hdigest : img.digest (ε := Empty) = .ok none)
    (hslash : byte '/' ∉ asBytes t) (hat : byte '@' ∉ asBytes t) :
    (TagLanguage r t img ↔ ¬(len t = 129 ∧ PortOrTag.TagText (asBytes t))) ∧
      (TagsAfter r t img ↔
        ¬(byte '/' ∈ asBytes r ∧ len t = 129 ∧ PortOrTag.TagText (asBytes t))) ∧
      (((Tag.new t).Succeeds ↔ asBytes t ∈ Grammar.tag) ↔
        ¬(len t = 129 ∧ PortOrTag.TagText (asBytes t))) := by
  obtain ⟨p, span, rfl, hp, rfl⟩ := ImgRef.new_eq_ok.mp h
  obtain ⟨hptag, hpdigest⟩ := hp.bare htag hdigest
  have hafter := tagsAfter_of_spans hp hptag hpdigest hslash hat
  have hstandalone := Tag.mem_iff hslash hat
  refine ⟨⟨?_, ?_⟩, hafter, hstandalone⟩
  · intro hlanguage
    exact hstandalone.mp hlanguage.standalone
  · intro hnot
    exact ⟨hafter.mpr fun hlong => hnot hlong.2, hstandalone.mpr hnot⟩

theorem tag_language_iff_latest :
    ∃ img, ImgRef.new "a_b/c" = .ok img ∧ TagLanguage "a_b/c" "latest" img := by
  obtain ⟨img, himg⟩ : (ImgRef.new "a_b/c").Succeeds := by decide +kernel
  have hnone : (ImgRef.new "a_b/c").Sat (fun img =>
      img.tag (ε := Empty) = .ok none ∧ img.digest (ε := Empty) = .ok none)
      fun _ => False := by decide +kernel
  obtain ⟨htag, hdigest⟩ := hnone.of_ok himg
  have hslash : byte '/' ∉ asBytes "latest" := by decide
  have hat : byte '@' ∉ asBytes "latest" := by decide
  obtain ⟨hlanguage, -⟩ := tag_language_iff himg htag hdigest hslash hat
  exact ⟨img, himg, hlanguage.mpr fun h => absurd h.1 (by decide)⟩

theorem asBytes_replicate (n : Nat) :
    asBytes (String.ofList (List.replicate n 'a')) = List.replicate n (byte 'a') := by
  have h := asBytes_ofList (List.replicate n (byte 'a')) fun c hc => by
    rw [List.eq_of_mem_replicate hc]
    decide
  rw [List.map_replicate] at h
  exact h

/-- A reference of one letter, after a host of one letter or alone. -/
theorem exists_letter_parts (host : Bool) : ∃ p : Parts,
    p.print = (if host then "a/b" else "a") ∧ p.tag = none ∧ p.digest = none ∧
      tagLimit p.domain p.path = if host then 129 else 128 := by
  have hpath : ∀ c, isLowerAlnum c = true → [c] ∈ Grammar.path ∧ Undomained [c] := fun c hc =>
    DomainOrRefSpan.segment_mem_path (symbol_mem_pathComponent hc)
  cases host with
  | false =>
    obtain ⟨hmem, hshape⟩ := hpath (byte 'a') (by decide)
    have hslash : byte '/' ∉ asBytes "a" := by decide
    exact ⟨⟨none, "a", none, none, hmem, fun _ => hshape, by decide, by simp, by simp⟩, rfl, rfl,
      rfl, if_pos ⟨rfl, hslash⟩⟩
  | true =>
    have hhost : asBytes "a" ∈ domainName := symbol_mem_domainName (by decide)
    obtain ⟨hmem, -⟩ := hpath (byte 'b') (by decide)
    let d : DomainParts := ⟨"a", none, HostSpan.hostText_iff.mpr (Or.inl hhost), by simp⟩
    have hname : len (nameText (some d) "b") ≤ Name.MAX_LEN := by
      have htext : d.text = "a" := rfl
      rw [Parts.len_nameText_some, htext]
      decide
    exact ⟨⟨some d, "b", none, none, hmem, by simp, hname, by simp, by simp⟩, rfl, rfl, rfl, rfl⟩

/-- A tag of 129 bytes is accepted after a path with a slash and by the tag parser, and
rejected after a single segment. -/
theorem tag_language_fails :
    ∃ img, ImgRef.new "a/b" = .ok img ∧
      ¬TagLanguage "a/b" (String.ofList (List.replicate 129 'a')) img ∧
      (ImgRef.new ("a/b" ++ ":" ++ String.ofList (List.replicate 129 'a'))).Succeeds ∧
      ¬(ImgRef.new ("a" ++ ":" ++ String.ofList (List.replicate 129 'a'))).Succeeds ∧
      asBytes (String.ofList (List.replicate 129 'a')) ∉ Grammar.tag := by
  have hbytes := asBytes_replicate 129
  have hlen : len (String.ofList (List.replicate 129 'a')) = 129 := by
    rw [len, hbytes, List.length_replicate]
  have htext : PortOrTag.TagText (asBytes (String.ofList (List.replicate 129 'a'))) := by
    refine ⟨byte 'a', List.replicate 128 (byte 'a'), hbytes, by decide, fun d hd => ?_⟩
    rw [List.eq_of_mem_replicate hd]
    decide
  have hslash : byte '/' ∉ asBytes (String.ofList (List.replicate 129 'a')) := fun hmem =>
    absurd (htext.forall _ hmem) (by decide)
  have hat : byte '@' ∉ asBytes (String.ofList (List.replicate 129 'a')) := fun hmem =>
    absurd (htext.forall _ hmem) (by decide)
  have hnot : asBytes (String.ofList (List.replicate 129 'a')) ∉ Grammar.tag := fun hmem => by
    have hle := (TagSpan.mem_tag.mp hmem).2
    rw [hlen] at hle
    exact absurd hle (by decide)
  obtain ⟨p, hp, hptag, hpdigest, hplimit⟩ := exists_letter_parts true
  obtain ⟨q, hq, hqtag, hqdigest, hqlimit⟩ := exists_letter_parts false
  obtain ⟨span, -, hspan⟩ := RefSpan.new_print p
  have htagged := Parts.tagged_iff hptag hpdigest hslash hat
  have huntagged := Parts.tagged_iff hqtag hqdigest hslash hat
  rw [hp, hlen, hplimit] at htagged
  rw [hq, hlen, hqlimit] at huntagged
  have hsucceeds := htagged.mpr ⟨htext, Nat.le_refl _⟩
  refine ⟨⟨p.print, span⟩, ImgRef.new_eq_ok.mpr ⟨p, span, hp.symm, hspan, rfl⟩,
    fun h => hnot (h.succeeds.mp hsucceeds), hsucceeds, fun h => ?_, hnot⟩
  exact absurd (huntagged.mp h).2 (by decide)

end ContainerImageDistRef
