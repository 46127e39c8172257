import ContainerImageDistRef.Accessors

/-!
# Where the errors of a path, a port and a tag stand

A part is parsed from a slice, and its error is moved to where the slice
starts. Three of these moves are short: a path after a domain is moved to the
slash and not behind it, a port in a domain of its own is moved to the colon
and not behind it, and the tag of a path without a domain is not moved.
-/

namespace ContainerImageDistRef

open ByteString Grammar

universe u

/-- The call fails, and its error stands at `i`. -/
def FailsAt {α : Type u} (x : Outcome Error α) (i : Nat) : Prop := ∃ kind, x = .err ⟨i, kind⟩

namespace FailsAt

variable {α β : Type u} {x : Outcome Error α} {i j : Nat}

theorem bind (h : FailsAt x i) (f : α → Outcome Error β) : FailsAt (x >>= f) i := by
  obtain ⟨kind, rfl⟩ := h
  exact ⟨kind, rfl⟩

theorem mapErr (h : FailsAt x i) {f : Error → Error} (hf : ∀ kind, (f ⟨i, kind⟩).index = j) :
    FailsAt (x.mapErr f) j := by
  obtain ⟨kind, rfl⟩ := h
  refine ⟨(f ⟨i, kind⟩).kind, ?_⟩
  rw [Outcome.mapErr_err, ← hf kind]

theorem unique (hi : FailsAt x i) (hj : FailsAt x j) : i = j := by
  obtain ⟨kind, rfl⟩ := hi
  obtain ⟨kind', h⟩ := hj
  cases h
  rfl

/-- An error at one place is not one at another. -/
theorem not_at {k k' : Err.Kind} (h : x = .err ⟨i, k⟩) (hij : i ≠ j) : ¬x = .err ⟨j, k'⟩ := by
  intro h'
  exact hij (unique ⟨k, h⟩ ⟨k', h'⟩)

end FailsAt

/-- A failed reference is a failed span. -/
theorem ImgRef.new_eq_err {src : String} {e : Error} (h : RefSpan.new src = .err e) :
    ImgRef.new src = .err e := by
  rw [ImgRef.new, h]
  rfl

/-- The text before the slash, where a domain has been read up to it. -/
theorem DomainOrRefSpan.domain_of_new {d s : String} {dspan : DomainSpan}
    (h : new (d ++ "/" ++ s) = .ok (.domain dspan)) (hlen : dspan.len = ByteString.len d) :
    ∃ host p, d = DomainSpan.text host p ∧ dspan.Spans host p := by
  cases (new_sat _).of_ok h with
  | @domain host rest p _ hsrc hd =>
    have hsplit : d ++ ("/" ++ s) = DomainSpan.text host p ++ ("/" ++ rest) := by
      rw [← String.append_assoc, hsrc, String.append_assoc]
    exact ⟨host, p, (append_inj hsplit (hlen.symm.trans hd.len)).1, hd⟩

/-- A path error after a domain stands one byte too far to the left, always: it is moved by the
length of the domain and not by that of the slash. -/
theorem path_error_index {d s : String} {dspan : DomainSpan} {i : Nat} {k : Err.Kind}
    (hd : DomainOrRefSpan.new (d ++ "/" ++ s) = .ok (.domain dspan)) (hlen : dspan.len = len d)
    (hs : PathSpan.new s = .err ⟨i, k⟩) :
    ImgRef.new (d ++ "/" ++ s) = .err ⟨len d + i, k⟩ ∧
      ¬ImgRef.new (d ++ "/" ++ s) = .err ⟨len d + 1 + i, k⟩ := by
  obtain ⟨host, p, rfl, hspans⟩ := DomainOrRefSpan.domain_of_new hd hlen
  have hi : i ≤ maxU8 := ((PathSpan.new_sat s).of_err hs).2
  have hbound := RefSpan.len_domain_le hspans
  have hmax : maxU8 + 1 + maxU8 ≤ maxU16 := by decide
  have hne : DomainSpan.text host p ++ "/" ++ s ≠ "" := by
    rw [String.append_assoc]
    exact append_sep_ne_empty "/" rfl _ s
  have herr : ImgRef.new (DomainSpan.text host p ++ "/" ++ s) =
      .err ⟨len (DomainSpan.text host p) + i, k⟩ := by
    apply ImgRef.new_eq_err
    rw [RefSpan.new_eq_newFrom hne hd, RefSpan.newFrom_domain s hspans, hs, Outcome.mapErr_err,
      Outcome.err_bind]
    dsimp only
    rw [saturatingAddU16_of_le (by omega)]
  exact ⟨herr, FailsAt.not_at herr (by omega)⟩

theorem path_error_index_bang :
    ImgRef.new "a/!" = .err ⟨1, .pathInvalidChar⟩ ∧
      ¬ImgRef.new "a/!" = .err ⟨2, .pathInvalidChar⟩ := by
  have hd : DomainOrRefSpan.new ("a" ++ "/" ++ "!") =
      .ok (.domain ⟨⟨ShortLength.one, .name⟩, none⟩) := by decide +kernel
  have hs : PathSpan.new "!" = .err ⟨0, .pathInvalidChar⟩ := by decide +kernel
  exact path_error_index hd (by decide) hs

/-- The error of an uppercase path stands at the slash. -/
theorem path_error_index_fails :
    DomainOrRefSpan.new "a/B" = .ok (.domain ⟨⟨ShortLength.one, .name⟩, none⟩) ∧
      PathSpan.new "B" = .err ⟨0, .pathInvalidChar⟩ ∧
      ImgRef.new "a/B" = .err ⟨1, .pathInvalidChar⟩ :=
  ⟨by decide +kernel, by decide +kernel, by decide +kernel⟩

/-- A host is read up to a colon as it is read alone. -/
theorem HostSpan.new_before_colon {h : String} (p : String) {host : HostSpan}
    (hh : new h = .ok host) (hlen : host.length.val = len h) :
    new (h ++ (":" ++ p)) = .ok host := by
  have hspans := spans_of_new hh hlen
  obtain ⟨host', hhost, hspans'⟩ := new_ok (":" ++ p) hspans.text (hlen ▸ host.length.le)
    (stopsAt_sep ":" rfl rfl p)
  rw [hhost, hspans.unique hspans']

/-- In a reference the error of a port stands at its byte, whatever the host. -/
theorem port_error_in_reference {h p : String} {host : HostSpan} {i : Nat} {k : Err.Kind}
    (hh : HostSpan.new h = .ok host) (hlen : host.length.val = len h)
    (hp : PortSpan.new p = .err ⟨i, k⟩) : FailsAt (ImgRef.new (h ++ ":" ++ p)) (len h + 1 + i) := by
  have hmax : maxU8 + 1 + maxU8 ≤ maxU16 := by decide
  have hle : len h ≤ maxU8 := hlen ▸ host.length.le
  obtain ⟨hi, kind, hport⟩ := PortSpan.new_err hp
  dsimp only at hi hport
  have hspans := HostSpan.spans_of_new hh hlen
  obtain ⟨left, hleft, hamb, -⟩ := HostSpan.ambiguous_ok (":" ++ p) hspans.text hle
    (stopsAt_sep ":" rfl rfl p)
  have hlook := DomainOrRefSpan.lookahead_colon p (hamb.elim (·.length) (·.length))
  have hbytes : asBytes (h ++ (":" ++ p)) ≠ [] := fun hnil =>
    append_sep_ne_empty ":" rfl h p (asBytes_inj.mp hnil)
  rw [String.append_assoc]
  refine FailsAt.bind ?_ _
  rw [RefSpan.new, if_neg hbytes, DomainOrRefSpan.new, hleft, Outcome.ok_bind, hlook, hport]
  refine ⟨kind, ?_⟩
  rw [Outcome.mapErr_err, Outcome.err_bind, Outcome.err_bind, Outcome.err_bind]
  dsimp only
  rw [saturatingAddU16_of_le (by omega)]

/-- The error of a port in a domain of its own stands one byte too far to the left, always: it
is moved by the length of the host and not by that of the colon. -/
theorem port_error_index {h p : String} {host : HostSpan} {i : Nat} {k : Err.Kind}
    (hh : HostSpan.new h = .ok host) (hlen : host.length.val = len h)
    (hp : PortSpan.new p = .err ⟨i, k⟩) :
    Domain.new (h ++ ":" ++ p) = .err ⟨len h + i, k⟩ ∧
      ¬Domain.new (h ++ ":" ++ p) = .err ⟨len h + 1 + i, k⟩ ∧
      FailsAt (ImgRef.new (h ++ ":" ++ p)) (len h + 1 + i) := by
  have hmax : maxU8 + maxU8 ≤ maxU16 := by decide
  have hle : len h ≤ maxU8 := hlen ▸ host.length.le
  have hi : i ≤ maxU8 := (PortSpan.new_err hp).1
  have herr : Domain.new (h ++ ":" ++ p) = .err ⟨len h + i, k⟩ := by
    rw [String.append_assoc, Domain.new,
      DomainSpan.new_colon (HostSpan.new_before_colon p hh hlen) hlen, hp, Outcome.mapErr_err,
      Outcome.err_bind, Outcome.err_bind]
    dsimp only
    rw [saturatingAddU16_of_le (by omega)]
  exact ⟨herr, FailsAt.not_at herr (by omega), port_error_in_reference hh hlen hp⟩

theorem port_error_index_ipv6 :
    Domain.new ("[::1]" ++ ":" ++ "80!") = .err ⟨7, .portInvalidChar⟩ := by
  have hh : HostSpan.new "[::1]" = .ok ⟨⟨5, by decide, by decide⟩, .ipv6⟩ := by decide +kernel
  have hp : PortSpan.new "80!" = .err ⟨2, .portInvalidChar⟩ := by decide +kernel
  exact (port_error_index hh (by decide) hp).1

/-- The domain parser reports the wrong byte of `a:!` at the colon, the reference parser where
it stands. -/
theorem port_error_index_fails :
    HostSpan.new "a" = .ok ⟨ShortLength.one, .name⟩ ∧
      PortSpan.new "!" = .err ⟨0, .portInvalidChar⟩ ∧
      Domain.new ("a" ++ ":" ++ "!") = .err ⟨1, .portInvalidChar⟩ ∧
      ¬Domain.new ("a" ++ ":" ++ "!") = .err ⟨len "a" + 1 + 0, .portInvalidChar⟩ ∧
      ImgRef.new ("a" ++ ":" ++ "!") = .err ⟨2, .portOrTagInvalidChar⟩ :=
  ⟨by decide +kernel, by decide +kernel, by decide +kernel, by decide +kernel, by decide +kernel⟩

/-- The first byte of a text that no tag has at its place is the one at `j`. -/
def FirstBad (t : String) (j : Nat) : Prop :=
  ∃ u c v, asBytes t = u ++ c :: v ∧ u.length = j ∧
    (u = [] ∧ isWord c = false ∨ PortOrTag.TagText u ∧ isTagByte c = false)

namespace PortOrTag

/-- Whether a port or a tag is asked for, the parser fails at the first byte that no tag has. -/
theorem new_bad (mode : Kind) {t : String} {j : Nat} (hbad : FirstBad t j) (hj : j < 128)
    (hslash : byte '/' ∉ asBytes t) (hat : byte '@' ∉ asBytes t) :
    FailsAt (PortOrTagSpan.new t mode) j := by
  obtain ⟨u, c, v, ht, rfl, hcase⟩ := hbad
  have hc : c ∈ asBytes t := by rw [ht]; simp
  have hstop : isStop c = false := by
    simp only [isStop, Bool.or_eq_false_iff, beq_eq_false_iff_ne]
    exact ⟨fun h => hslash (h ▸ hc), fun h => hat (h ▸ hc)⟩
  rcases hcase with ⟨rfl, hword⟩ | ⟨htext, hbyte⟩
  · obtain ⟨kind, hkind⟩ := PortOrTagSpan.firstKind_other mode hword
    rw [PortOrTagSpan.new, ht, List.nil_append, List.head?_cons, hkind]
    exact ⟨kind, rfl⟩
  · have hmax : 129 < maxU8 := by decide
    have hread : Readable mode u := ⟨htext, by omega, fun _ => by omega⟩
    obtain ⟨s, hs, hnew⟩ := PortOrTagSpan.new_of_readable ht hread
    rw [hnew, scanLoop_cons s v hstop, update_other s hbyte hstop, ← hs.len]
    exact ⟨_, rfl⟩

end PortOrTag

theorem TagSpan.new_bad {t : String} {j : Nat} (hbad : FirstBad t j) (hj : j < 128)
    (hslash : byte '/' ∉ asBytes t) (hat : byte '@' ∉ asBytes t) : FailsAt (new t) j := by
  refine ((PortOrTag.new_bad .tag hbad hj hslash hat).mapErr fun kind => ?_).bind _
  dsimp only
  split <;> rfl

namespace RefSpan

/-- The move of a tag's error is the one that `tagError` makes. -/
theorem suffix_bad {name t : String} {pfx : DomainOrRefSpan} {i j : Nat} (span : NameSpan)
    (hname : len name ≤ Name.MAX_LEN) (hpfx : ∀ path tag, pfx ≠ .taggedRef path (some tag))
    (hindex : ∀ kind, (tagError name pfx ⟨j, kind⟩).index = i) (ht : FailsAt (TagSpan.new t) j) :
    FailsAt (suffix (name ++ (":" ++ t)) pfx span (len name)) i := by
  rw [suffix, if_neg (Nat.not_lt_of_le hname), parseTag_colon name t hpfx]
  exact ((ht.mapErr hindex).bind _).bind _

section Tagged
variable {p : Parts} {t : String} {j : Nat}

theorem stopsAt_colon (t : String) : StopsAt PathSpan.isEnd (asBytes (":" ++ t)) :=
  stopsAt_sep ":" rfl rfl t

/-- After a domain and a path the error of a tag is moved to where it stands. -/
theorem new_bad_domain {d : DomainParts} (hd : p.domain = some d) (hj : j < 128)
    (ht : FailsAt (TagSpan.new t) j) :
    FailsAt (new (p.name ++ (":" ++ t))) (len p.name + 1 + j) := by
  have hmax : Name.MAX_LEN + 1 + 128 ≤ maxU16 := by decide
  have hname := p.name_le
  rw [← Parts.name] at hname
  obtain ⟨ds, path, -, -, hnew⟩ := new_domain hd (stopsAt_colon t)
  rw [hnew]
  apply suffix_bad _ hname (by simp) _ ht
  intro kind
  dsimp only [tagError]
  rw [saturatingAddU16_of_le (a := len p.name) (by omega), saturatingAddU16_of_le (by omega)]

/-- After a path of several segments the error of a tag stays where it is in the tag. -/
theorem new_bad_underscore (hd : p.domain = none) (hslash : byte '/' ∈ asBytes p.path)
    (ht : FailsAt (TagSpan.new t) j) : FailsAt (new (p.path ++ (":" ++ t))) j := by
  obtain ⟨path, hpfx, hlen⟩ := pfx_underscore hd hslash (stopsAt_colon t)
  rw [new_eq_newFrom (path_ne_empty p.path_mem _) hpfx, newFrom_untagged hlen (stopsAt_colon t)]
  exact suffix_bad _ (Parts.path_le hd) (by simp) (fun _ => rfl) ht

/-- After a single segment the text after the colon is scanned with it, and the error is moved
to where it stands. -/
theorem new_bad_segment (hd : p.domain = none) (hslash : byte '/' ∉ asBytes p.path)
    (hj : j < 128) (ht : FailsAt (PortOrTagSpan.new t .port) j) :
    FailsAt (new (p.path ++ (":" ++ t))) (len p.path + 1 + j) := by
  have hmax : maxU8 + 1 + 128 ≤ maxU16 := by decide
  have hle : len p.path ≤ maxU8 := Parts.path_le hd
  obtain ⟨left, hleft, hspans, -⟩ := DomainOrRefSpan.component_ok (":" ++ t)
    (mem_pathComponent_of_path p.path_mem hslash) hle (stopsAt_sep ":" rfl rfl t)
  have hlook := DomainOrRefSpan.lookahead_colon t hspans.length
  have hbytes : asBytes (p.path ++ (":" ++ t)) ≠ [] := fun h =>
    path_ne_empty p.path_mem _ (asBytes_inj.mp h)
  rw [new, if_neg hbytes, DomainOrRefSpan.new, hleft, Outcome.ok_bind, hlook]
  refine ((((ht.mapErr fun kind => ?_).bind _).bind _).bind _)
  dsimp only
  rw [saturatingAddU16_of_le (by omega)]

end Tagged

end RefSpan

/-- A name of several segments without a domain. -/
theorem Parts.underscored_iff {p : Parts} :
    byte '/' ∈ asBytes p.name ∧ byte '_' ∈ (asBytes p.name).takeWhile (· != byte '/') ↔
      p.domain = none ∧ byte '/' ∈ asBytes p.path := by
  have hundomained : byte '/' ∈ asBytes p.name →
      (byte '_' ∈ (asBytes p.name).takeWhile (· != byte '/') ↔ p.domain = none) := fun hmem =>
    (or_iff_right (not_not_intro hmem)).symm.trans p.domain_eq_none_iff.symm
  rw [and_congr_right hundomained, and_comm]
  apply and_congr_right
  intro hd
  rw [name_of_none hd]

/-- The error of a bad tag, by what stands before the tag. -/
theorem Parts.bad_tag {p : Parts} {t : String} {j : Nat} (hbad : FirstBad t j) (hj : j < 128)
    (hslash : byte '/' ∉ asBytes t) (hat : byte '@' ∉ asBytes t) :
    FailsAt (ImgRef.new (p.name ++ ":" ++ t))
      (if p.domain = none ∧ byte '/' ∈ asBytes p.path then j else len p.name + 1 + j) := by
  have htag := TagSpan.new_bad hbad hj hslash hat
  rw [String.append_assoc]
  refine FailsAt.bind ?_ _
  cases hd : p.domain with
  | some d =>
    rw [if_neg (by simp)]
    exact RefSpan.new_bad_domain hd hj htag
  | none =>
    rw [name_of_none hd]
    split
    · rename_i hcond
      exact RefSpan.new_bad_underscore hd hcond.2 htag
    · rename_i hcond
      exact RefSpan.new_bad_segment hd (fun hmem => hcond ⟨rfl, hmem⟩) hj
        (PortOrTag.new_bad .port hbad hj hslash hat)

/-- A tag's error stands at its byte, but not after a path of several segments without a
domain. -/
theorem tag_error_index_iff {r t : String} {img : ImgRef} {j : Nat} (h : ImgRef.new r = .ok img)
    (htag : img.tag (ε := Empty) = .ok none) (hdigest : img.digest (ε := Empty) = .ok none)
    (hslash : byte '/' ∉ asBytes t) (hat : byte '@' ∉ asBytes t) (hbad : FirstBad t j)
    (hj : j < 128) :
    FailsAt (ImgRef.new (r ++ ":" ++ t)) (len r + 1 + j) ↔
      ¬(byte '/' ∈ asBytes r ∧ byte '_' ∈ (asBytes r).takeWhile (· != byte '/')) := by
  obtain ⟨p, span, rfl, hp, rfl⟩ := ImgRef.new_eq_ok.mp h
  obtain ⟨hptag, hpdigest⟩ := hp.bare htag hdigest
  rw [Parts.print_bare hptag hpdigest]
  have hfails := p.bad_tag hbad hj hslash hat
  rw [Parts.underscored_iff]
  constructor
  · intro hindex hmem
    rw [if_pos hmem] at hfails
    have := hindex.unique hfails
    omega
  · intro hmem
    rwa [if_neg hmem] at hfails

theorem tag_error_index_iff_bang :
    ∃ img, ImgRef.new "a/b" = .ok img ∧ FailsAt (ImgRef.new ("a/b" ++ ":" ++ "v!")) 5 := by
  obtain ⟨img, himg⟩ : (ImgRef.new "a/b").Succeeds := by decide +kernel
  have hnone : (ImgRef.new "a/b").Sat (fun img =>
      img.tag (ε := Empty) = .ok none ∧ img.digest (ε := Empty) = .ok none)
      fun _ => False := by decide +kernel
  obtain ⟨htag, hdigest⟩ := hnone.of_ok himg
  have htext : PortOrTag.TagText [byte 'v'] := ⟨byte 'v', [], rfl, by decide, by simp⟩
  have hbad : FirstBad "v!" 1 := ⟨[byte 'v'], byte '!', [], rfl, rfl, Or.inr ⟨htext, by decide⟩⟩
  exact ⟨img, himg, (tag_error_index_iff himg htag hdigest (by decide) (by decide) hbad
    (by decide)).mpr fun h => absurd h.2 (by decide)⟩

/-- After `a_b/c` the error of the tag `!` stands at the start of the name. -/
theorem tag_error_index_fails :
    (∃ img, ImgRef.new "a_b/c" = .ok img ∧ img.tag (ε := Empty) = .ok none ∧
      img.digest (ε := Empty) = .ok none) ∧
      FirstBad "!" 0 ∧ ImgRef.new ("a_b/c" ++ ":" ++ "!") = .err ⟨0, .tagInvalidChar⟩ ∧
      ¬FailsAt (ImgRef.new ("a_b/c" ++ ":" ++ "!")) (len "a_b/c" + 1 + 0) := by
  obtain ⟨img, himg⟩ : (ImgRef.new "a_b/c").Succeeds := by decide +kernel
  have hnone : (ImgRef.new "a_b/c").Sat (fun img =>
      img.tag (ε := Empty) = .ok none ∧ img.digest (ε := Empty) = .ok none)
      fun _ => False := by decide +kernel
  have herr : ImgRef.new ("a_b/c" ++ ":" ++ "!") = .err ⟨0, .tagInvalidChar⟩ := by decide +kernel
  refine ⟨⟨img, himg, hnone.of_ok himg⟩, ⟨[], byte '!', [], rfl, rfl, Or.inl ⟨rfl, by decide⟩⟩,
    herr, ?_⟩
  rw [herr]
  rintro ⟨kind, h⟩
  cases h

end ContainerImageDistRef
