import ContainerImageDistRef.Canonical
import ContainerImageDistRef.ErrorKinds
import ContainerImageDistRef.ParseStdin

/-!
# What is read off a printed row

The columns of an accepted reference are printable and without a backslash, so
that escaping leaves them alone and both readers give back the parts. A text
that is refused comes back as it was, unless it holds by itself what escaping
writes.
-/

namespace ContainerImageDistRef

open ByteString Grammar

section Printable

/-- The bytes that neither escaping nor a reader changes. -/
def isPrintable (c : UInt8) : Bool := byte ' ' ≤ c && c ≤ byte '~' && c != byte '\\'

def Printable (s : String) : Prop := ∀ c ∈ asBytes s, isPrintable c = true

instance (s : String) : Decidable (Printable s) :=
  inferInstanceAs (Decidable (∀ c ∈ asBytes s, isPrintable c = true))

namespace Printable

variable {s t : String}

theorem empty : Printable "" := fun _ hc => absurd hc List.not_mem_nil

theorem append (hs : Printable s) (ht : Printable t) : Printable (s ++ t) := by
  intro c hc
  rw [asBytes_append] at hc
  rcases List.mem_append.mp hc with hc | hc
  · exact hs c hc
  · exact ht c hc

theorem left (h : Printable (s ++ t)) : Printable s := by
  intro c hc
  apply h c
  rw [asBytes_append]
  exact List.mem_append_left _ hc

theorem right (h : Printable (s ++ t)) : Printable t := by
  intro c hc
  apply h c
  rw [asBytes_append]
  exact List.mem_append_right _ hc

/-- A character of one byte that is not printable does not occur. -/
theorem not_mem (h : Printable s) (x : String) {b : UInt8} {c : Char} (hbyte : asBytes x = [b])
    (hchar : x.toList = [c]) (hb : isPrintable b = false) : c ∉ s.toList := by
  intro hmem
  obtain ⟨l, r, hlr⟩ := List.append_of_mem hmem
  have hcut : s = String.ofList l ++ x ++ String.ofList r := by
    apply String.toList_inj.mp
    simp [hchar, hlr]
  have hs : b ∈ asBytes s := by
    rw [hcut, asBytes_sep x hbyte]
    exact List.mem_append_right _ List.mem_cons_self
  cases hb.symm.trans (h b hs)

theorem tab_not_mem (h : Printable s) : '\t' ∉ s.toList := h.not_mem "\t" rfl rfl (by decide)

theorem feed_not_mem (h : Printable s) : '\n' ∉ s.toList := h.not_mem "\n" rfl rfl (by decide)

theorem return_not_mem (h : Printable s) : '\r' ∉ s.toList := h.not_mem "\r" rfl rfl (by decide)

theorem backslash_not_mem (h : Printable s) : '\\' ∉ s.toList :=
  h.not_mem "\\" rfl rfl (by decide)

end Printable

theorem printable_algorithm {a : String} (h : Algorithm.AlgorithmText (asBytes a)) :
    Printable a := by
  have halnum : ∀ c, isAlnum c = true → isPrintable c = true := forall_byte (by decide)
  have hsep : ∀ c, Algorithm.isSeparator c = true → isPrintable c = true :=
    forall_byte (by decide)
  have hmem : asBytes a ∈ SeparatedList.sepBy
      {x : List UInt8 | ∀ b ∈ x, isAlnum b = true ∧ Algorithm.isSeparator b = false}
      (SeparatedList.symbol Algorithm.isSeparator) := by
    refine (SeparatedList.mem_sepBy_symbol fun x hx c hc => (hx c hc).2).mpr ?_
    have hplain : ∀ c, isAlnum c = true → Algorithm.isSeparator c = false :=
      forall_byte (by decide)
    exact fun x hx b hb => ⟨(h.alnum x hx).2 b hb, hplain b ((h.alnum x hx).2 b hb)⟩
  refine SeparatedList.sepBy_forall (fun x hx c hc => ?_) (fun s hs c hc => ?_) hmem
  · exact halnum c (hx c hc).1
  · obtain ⟨d, hd, rfl⟩ := hs
    rw [List.mem_singleton.mp hc]
    exact hsep d hd

theorem printable_encoded {e : String} (h : asBytes e ∈ Oci.encoded) : Printable e := by
  have hbyte : ∀ c, Encoded.isHex c = true ∨ Encoded.isOciOnly c = true → isPrintable c = true :=
    forall_byte (by decide)
  exact fun c hc => hbyte c ((Encoded.mem_ociEncoded.mp h).2 c hc)

theorem printable_digest {g : String} (h : (DigestSpan.new g).Succeeds) : Printable g := by
  obtain ⟨span, hspan⟩ := h
  obtain ⟨a, e, rfl, hspans⟩ := (DigestSpan.new_sat g).of_ok hspan
  have htext := Digest.text_of_spans hspans
  have hcolon : Printable ":" := by decide +kernel
  exact ((printable_algorithm htext.algorithm).append hcolon).append
    (printable_encoded htext.encoded)

theorem DomainParts.printable_text (d : DomainParts) : Printable d.text := by
  have hbyte : ∀ c, isHostByte c = true → isPrintable c = true := forall_byte (by decide)
  exact fun c hc => hbyte c (isHostByte_of_mem d c hc)

theorem Parts.printable_path (p : Parts) : Printable p.path := by
  have hbyte : ∀ c, isPathByte c = true → isPrintable c = true := forall_byte (by decide)
  exact fun c hc => hbyte c (isPathByte_of_mem p.path_mem c hc)

theorem Parts.printable_name (p : Parts) : Printable p.name := by
  rw [name_eq, pathPrefix]
  cases p.domain with
  | none =>
    rw [String.empty_append]
    exact p.printable_path
  | some d => exact (d.printable_text.append (by decide +kernel)).append p.printable_path

theorem Parts.printable_tag (p : Parts) {t : String} (ht : p.tag = some t) : Printable t := by
  have hbyte : ∀ c, isTagByte c = true → isPrintable c = true :=
    forall_byte (by decide)
  exact fun c hc => hbyte c ((p.tag_mem t ht).1.forall c hc)

theorem Parts.printable_print (p : Parts) : Printable p.print := by
  have htag : Printable (tagText p.tag) := by
    cases ht : p.tag with
    | none => exact .empty
    | some t => exact Printable.append (by decide +kernel) (p.printable_tag ht)
  have hdigest : Printable (digestText p.digest) := by
    cases hg : p.digest with
    | none => exact .empty
    | some g => exact Printable.append (by decide +kernel) (printable_digest (p.digest_ok g hg))
  exact (p.printable_name.append htag).append hdigest

theorem Err.Kind.printable_debug (kind : Err.Kind) : Printable kind.debug := by
  cases kind <;> decide +kernel

theorem printable_ofList {l : List Char} (h : ∀ c ∈ l, Printable (String.singleton c)) :
    Printable (String.ofList l) := by
  induction l with
  | nil => exact .empty
  | cons c l ih =>
    have hcons : String.ofList (c :: l) = String.singleton c ++ String.ofList l := by
      apply String.toList_inj.mp
      simp
    rw [hcons]
    exact (h c List.mem_cons_self).append (ih fun d hd => h d (List.mem_cons_of_mem c hd))

theorem printable_of_isDigit {c : Char} (h : c.isDigit = true) :
    Printable (String.singleton c) := by
  have hdigits : ∀ k < 10, Printable (String.singleton (Char.ofNat (48 + k))) := by decide +kernel
  have hrange : 48 ≤ c.toNat ∧ c.toNat ≤ 57 := by
    simpa [Char.isDigit, UInt32.le_iff_toNat_le] using h
  have hc : Char.ofNat (48 + (c.toNat - 48)) = c := by
    rw [Nat.add_sub_cancel' hrange.1, Char.ofNat_toNat]
  have hdigit := hdigits (c.toNat - 48) (by omega)
  rwa [hc] at hdigit

theorem printable_toString (n : Nat) : Printable (toString n) := by
  rw [Nat.toString_eq_ofList_toDigits]
  apply printable_ofList
  intro c hc
  exact printable_of_isDigit (Nat.isDigit_of_mem_toDigits (by decide) (by decide) hc)

/-- The kinds, to find the one of a printed name. -/
def Err.Kind.all : List Err.Kind :=
  [.hostOrPathMissing, .hostOrPathTooLong, .hostOrPathInvalidChar, .hostOrPathInvalidComponentEnd,
    .portOrTagMissing, .portOrTagInvalidChar, .nameTooLong, .hostMissing,
    .hostComponentInvalidEnd, .hostInvalidChar, .hostTooLong, .ipv6InvalidChar, .ipv6TooLong,
    .ipv6BadColon, .ipv6TooManyHexDigits, .ipv6TooManyGroups, .ipv6TooFewGroups,
    .ipv6MissingClosingBracket, .port, .portInvalidChar, .portTooLong, .portMissing,
    .pathMissing, .pathComponentInvalidEnd, .pathInvalidChar, .pathTooLong, .tagTooLong,
    .tagInvalidChar, .tagMissing, .algorithmMissing, .invalidOciAlgorithm,
    .algorithmInvalidNumericPrefix, .ociRegisteredAlgorithmWrongDigestLength,
    .algorithmInvalidChar, .algorithmTooLong, .encodedMissing, .encodedInvalidChar,
    .encodedNonLowerHex, .ociRegisteredDigestInvalidChar, .encodingTooShort, .encodingTooLong,
    .refMissing]

theorem Err.Kind.find_debug (kind : Err.Kind) :
    all.find? (fun other => other.debug = kind.debug) = some kind := by
  cases kind <;> decide +kernel

theorem Err.Kind.debug_injective {kind kind' : Err.Kind} (h : kind.debug = kind'.debug) :
    kind = kind' := by
  have hfind := find_debug kind
  rw [h, find_debug kind'] at hfind
  exact (Option.some.inj hfind).symm

theorem Err.Kind.space_not_mem (kind : Err.Kind) : ' ' ∉ kind.debug.toList := by
  cases kind <;> decide +kernel

theorem Error.toList_display (e : Error) : e.display.toList =
    e.kind.debug.toList ++ ' ' :: ('@' :: ' ' :: (toString e.index).toList) := by
  simp [display]

theorem Error.display_ne_empty (e : Error) : e.display ≠ "" := by
  intro hnil
  have hchars := e.toList_display
  rw [hnil] at hchars
  simp at hchars

/-- The printed error tells the kind and the index. -/
theorem Error.display_injective {e e' : Error} (h : e.display = e'.display) : e = e' := by
  have hchars := congrArg String.toList h
  rw [toList_display, toList_display] at hchars
  have hkind := congrArg (List.takeWhile (· != ' ')) hchars
  rw [SeparatedList.takeWhile_sep e.kind.space_not_mem,
    SeparatedList.takeWhile_sep e'.kind.space_not_mem] at hkind
  have hindex : toString e.index = toString e'.index := by
    rw [hkind] at hchars
    apply String.toList_inj.mp
    simpa using hchars
  rw [Nat.toString_eq_ofList_toDigits, Nat.toString_eq_ofList_toDigits] at hindex
  have hdigits := congrArg (fun s => Nat.ofDigitChars 10 (String.toList s) 0) hindex
  simp only [String.toList_ofList, Nat.ofDigitChars_ten_toDigits] at hdigits
  obtain ⟨i, kind⟩ := e
  obtain ⟨i', kind'⟩ := e'
  obtain rfl : i = i' := hdigits
  obtain rfl := Err.Kind.debug_injective (String.toList_inj.mp hkind)
  rfl

theorem Error.printable_display (e : Error) : Printable e.display :=
  (e.kind.printable_debug.append (by decide +kernel)).append (printable_toString e.index)

end Printable

section Escaped

open ParseStdin ReferenceOracle Escape

theorem Printable.escape_eq {s : String} (h : Printable s) : escape s = s := by
  rw [escape, escapeAll_of_not_mem h.tab_not_mem, escapeAll_of_not_mem h.feed_not_mem,
    escapeAll_of_not_mem h.return_not_mem, String.ofList_toList]

/-- The text holds what escaping writes for one of the letters. -/
def HoldsEscape (s : String) : Prop := ∃ x ∈ ['t', 'n', 'r'], ['\\', x] <:+: s.toList

theorem Printable.not_holdsEscape {s : String} (h : Printable s) : ¬HoldsEscape s := by
  rintro ⟨x, -, hx⟩
  exact h.backslash_not_mem (hx.subset List.mem_cons_self)

theorem unescape_eq_self_iff {s : String} : unescape s = s ↔ ¬HoldsEscape s := by
  constructor
  · intro h
    have hchars := congrArg String.toList h
    rw [unescape, String.toList_ofList] at hchars
    have hlen := congrArg List.length hchars
    have hn := length_unescapeAll_le '\n' '\\' 'n'
      (unescapeAll '\t' '\\' 't' s.toList)
    have hr := length_unescapeAll_le '\r' '\\' 'r'
      (unescapeAll '\n' '\\' 'n' (unescapeAll '\t' '\\' 't' s.toList))
    -- no pass makes the text shorter, so each leaves it as it is
    have hnt : ¬['\\', 't'] <:+: s.toList :=
      not_infix_of_length_le (c := '\t') (by omega)
    rw [unescapeAll_eq_self hnt] at hlen hn hr
    have hnn : ¬['\\', 'n'] <:+: s.toList :=
      not_infix_of_length_le (c := '\n') (by omega)
    rw [unescapeAll_eq_self hnn] at hlen
    have hnr : ¬['\\', 'r'] <:+: s.toList :=
      not_infix_of_length_le (c := '\r') (by omega)
    rintro ⟨x, hx, hin⟩
    simp only [List.mem_cons, List.not_mem_nil, or_false] at hx
    rcases hx with rfl | rfl | rfl
    · exact hnt hin
    · exact hnn hin
    · exact hnr hin
  · intro h
    have hnot : ∀ x ∈ ['t', 'n', 'r'], ¬['\\', x] <:+: s.toList := fun x hx hin => h ⟨x, hx, hin⟩
    rw [unescape, unescapeAll_eq_self (hnot 't' (by decide)),
      unescapeAll_eq_self (hnot 'n' (by decide)),
      unescapeAll_eq_self (hnot 'r' (by decide)), String.ofList_toList]

/-- Unescaping what was escaped is unescaping the text itself. -/
theorem unescape_escape (s : String) : unescape (escape s) = unescape s := by
  rw [unescape, escape, String.toList_ofList]
  rw [unescapeAll_escapeAll_comm, unescapeAll_escapeAll_comm, unescapeAll_escapeAll]
  · rw [unescapeAll_escapeAll_comm, unescapeAll_escapeAll, unescapeAll_escapeAll, unescape]
    all_goals decide
  all_goals decide

/-- Escaping leaves none of the three characters. -/
theorem not_mem_escape {c : Char} (h : c = '\t' ∨ c = '\n' ∨ c = '\r') (s : String) :
    c ∉ (escape s).toList := by
  have hmarks : c ≠ '\\' ∧ c ≠ 't' ∧ c ≠ 'n' ∧ c ≠ 'r' := by
    rcases h with rfl | rfl | rfl <;> decide
  obtain ⟨hmark, ht, hn, hr⟩ := hmarks
  intro hmem
  rw [escape, String.toList_ofList] at hmem
  obtain ⟨hmem, hnr⟩ := (mem_escapeAll hmem).resolve_right (not_or.mpr ⟨hmark, hr⟩)
  obtain ⟨hmem, hnn⟩ := (mem_escapeAll hmem).resolve_right (not_or.mpr ⟨hmark, hn⟩)
  obtain ⟨-, hnt⟩ := (mem_escapeAll hmem).resolve_right (not_or.mpr ⟨hmark, ht⟩)
  rcases h with h | h | h
  · exact hnt h
  · exact hnn h
  · exact hnr h

end Escaped

section Rows

open ParseStdin ReferenceOracle

/-- A column that may be left empty, and that is printable and not empty where it is there. -/
def Column (x : Option String) : Prop := ∀ s, x = some s → Printable s ∧ s ≠ ""

theorem Column.printable {x : Option String} (h : Column x) : Printable (x.getD "") := by
  cases x with
  | none => exact .empty
  | some s => exact (h s rfl).1

theorem Column.escape_eq {x : Option String} (h : Column x) :
    escape (x.getD "") = x.getD "" := h.printable.escape_eq

theorem Column.unescape_eq {x : Option String} (h : Column x) :
    unescape (x.getD "") = x.getD "" :=
  unescape_eq_self_iff.mpr h.printable.not_holdsEscape

theorem Column.maybe_eq {x : Option String} (h : Column x) :
    TestCase.maybe (x.getD "") = x := by
  cases x with
  | none => rfl
  | some s => rw [Option.getD_some, TestCase.maybe, if_neg (h s rfl).2]

theorem column_none : Column none := nofun

theorem column_some {s : String} (h : Printable s) (hne : s ≠ "") : Column (some s) := by
  rintro _ ⟨⟩
  exact ⟨h, hne⟩

theorem row_eq (input name domain path tag digestAlgo digestEncoded err : String) :
    row input name domain path tag digestAlgo digestEncoded err = "\t".intercalate
      [input, name, domain, path, tag, digestAlgo, digestEncoded, err ++ "\n"] := by
  simp only [row, String.intercalate_cons_cons, String.intercalate_singleton, String.append_assoc]

theorem columns_intercalate {l : List String} (hne : l ≠ []) (h : ∀ s ∈ l, '\t' ∉ s.toList) :
    columns ("\t".intercalate l) = l := by
  have hcut := String.toList_split_intercalate h
  rw [if_neg hne] at hcut
  exact hcut

theorem not_mem_intercalate {c : Char} {sep : String} (hsep : c ∉ sep.toList) {l : List String}
    (h : ∀ s ∈ l, c ∉ s.toList) : c ∉ (sep.intercalate l).toList := by
  induction l with
  | nil => simp
  | cons x l ih =>
    have hx := h x List.mem_cons_self
    have hl := ih fun s hs => h s (List.mem_cons_of_mem x hs)
    cases l with
    | nil => rwa [String.intercalate_singleton]
    | cons y l =>
      rw [String.intercalate_cons_cons]
      simp only [String.toList_append, List.mem_append, not_or]
      exact ⟨⟨hx, hsep⟩, hl⟩

theorem trimRight_feed {s : String} (h : '\n' ∉ s.toList) : trimRight (s ++ "\n") = s := by
  have hlast : (s ++ "\n").toList = s.toList ++ ['\n'] := by simp
  have hself : s.toList.rdropWhile (· = '\n') = s.toList := by
    rw [List.rdropWhile_eq_self_iff]
    intro hl heq
    exact h (of_decide_eq_true heq ▸ List.getLast_mem hl)
  rw [trimRight, hlast, List.rdropWhile_concat_pos _ _ _ (by decide), hself, String.ofList_toList]

namespace TestCase

variable {t : TestCase}

/-- The columns that a test case is read from. -/
def cells (t : TestCase) : List String :=
  [t.input, t.name.getD "", t.domain.getD "", t.path.getD "", t.tag.getD "",
    t.digestAlgo.getD "", t.digestEncoded.getD "", t.err.getD ""]

/-- The row without its line feed. -/
def line (t : TestCase) : String := "\t".intercalate t.cells

theorem line_feed (t : TestCase) : t.line ++ "\n" = row t.input (t.name.getD "")
    (t.domain.getD "") (t.path.getD "") (t.tag.getD "") (t.digestAlgo.getD "")
    (t.digestEncoded.getD "") (t.err.getD "") := by
  simp only [line, cells, row, String.intercalate_cons_cons, String.intercalate_singleton,
    String.append_assoc]

/-- The test cases that a row keeps. -/
structure Kept (t : TestCase) : Prop where
  input : '\t' ∉ t.input.toList ∧ '\n' ∉ t.input.toList
  name : Column t.name
  domain : Column t.domain
  path : Column t.path
  tag : Column t.tag
  digestAlgo : Column t.digestAlgo
  digestEncoded : Column t.digestEncoded
  err : Column t.err

theorem Kept.tab_not_mem (h : t.Kept) : ∀ s ∈ t.cells, '\t' ∉ s.toList := by
  have hcolumn : ∀ {x : Option String}, Column x → '\t' ∉ (x.getD "").toList := fun hx =>
    hx.printable.tab_not_mem
  simp only [cells, List.forall_mem_cons]
  exact ⟨h.input.1, hcolumn h.name, hcolumn h.domain, hcolumn h.path, hcolumn h.tag,
    hcolumn h.digestAlgo, hcolumn h.digestEncoded, hcolumn h.err, by simp⟩

/-- The row is one line. -/
theorem Kept.feed_not_mem (h : t.Kept) : '\n' ∉ t.line.toList := by
  have hcolumn : ∀ {x : Option String}, Column x → '\n' ∉ (x.getD "").toList := fun hx =>
    hx.printable.feed_not_mem
  apply not_mem_intercalate (by simp)
  simp only [cells, List.forall_mem_cons]
  exact ⟨h.input.2, hcolumn h.name, hcolumn h.domain, hcolumn h.path, hcolumn h.tag,
    hcolumn h.digestAlgo, hcolumn h.digestEncoded, hcolumn h.err, by simp⟩

theorem Kept.fromLine_line (h : t.Kept) : fromLine (ε := Empty) t.line = .ok t := by
  have hne : t.cells ≠ [] := List.cons_ne_nil _ _
  rw [fromLine, line, columns_intercalate hne h.tab_not_mem]
  simp only [cells, h.name.maybe_eq, h.domain.maybe_eq, h.path.maybe_eq, h.tag.maybe_eq,
    h.digestAlgo.maybe_eq, h.digestEncoded.maybe_eq, h.err.maybe_eq]

/-- The harness reads the same columns, the first one unescaped. -/
theorem Kept.parseTsv_line (h : t.Kept) : parseTsv (ε := Empty) (t.line ++ "\n") =
    .ok ⟨unescape t.input, t.name.getD "", t.domain.getD "", t.path.getD "", t.tag.getD "",
      t.digestAlgo.getD "", t.digestEncoded.getD "", t.err.getD ""⟩ := by
  have hcells : columns (t.line ++ "\n") = [t.input, t.name.getD "", t.domain.getD "",
      t.path.getD "", t.tag.getD "", t.digestAlgo.getD "", t.digestEncoded.getD "",
      t.err.getD "" ++ "\n"] := by
    have htab := h.tab_not_mem
    rw [t.line_feed, row_eq]
    refine columns_intercalate (List.cons_ne_nil _ _) ?_
    simp only [cells, List.forall_mem_cons] at htab ⊢
    obtain ⟨h1, h2, h3, h4, h5, h6, h7, h8, -⟩ := htab
    refine ⟨h1, h2, h3, h4, h5, h6, h7, ?_, by simp⟩
    simp [h8]
  rw [parseTsv, hcells]
  simp only [trimRight_feed h.err.printable.feed_not_mem, h.name.unescape_eq,
    h.domain.unescape_eq, h.path.unescape_eq, h.tag.unescape_eq, h.digestAlgo.unescape_eq,
    h.digestEncoded.unescape_eq, h.err.unescape_eq]

end TestCase

end Rows

section Run

open ParseStdin ReferenceOracle

variable {p : Parts} {span : RefSpan} {stdin : List UInt8}

namespace Parts

theorem Spans.nameStr_eq (h : p.Spans span) :
    ImgRef.nameStr (ε := Empty) ⟨p.print, span⟩ = .ok p.name := by
  obtain ⟨l, hl, hlen⟩ := h.shortLen
  rw [ImgRef.nameStr, NameSpan.spanOf, hl, Outcome.ok_bind, hlen, print, String.append_assoc,
    sliceTo_append]

theorem Spans.domain_column (h : p.Spans span) :
    Column ((p.view span).domain.map Domain.toStr) := by
  rcases h.view_domain with ⟨-, hv⟩ | ⟨d, s, -, hv, hx⟩
  · rw [hv]
    exact column_none
  · rw [hv]
    refine column_some d.printable_text fun hnil => ?_
    have hempty : d.text = "" := hnil
    have hlen : s.len = len d.text := hx.len
    rw [hempty, len_empty] at hlen
    exact absurd hlen (Nat.ne_of_gt s.shortLen.pos)

theorem tag_column (p : Parts) : Column p.tag := by
  intro t ht
  refine ⟨p.printable_tag ht, ?_⟩
  rintro rfl
  obtain ⟨⟨c, u, hu, -⟩, -⟩ := p.tag_mem "" ht
  cases hu

/-- The two columns of the digest. -/
theorem Spans.digest_columns (h : p.Spans span) :
    ∃ a e, (p.view span).digest.mapM (Digest.algorithm (ε := Empty)) = .ok a ∧
      (p.view span).digest.mapM (Digest.encoded (ε := Empty)) = .ok e ∧
      Column (a.map Algorithm.toStr) ∧ Column (e.map Encoded.toStr) := by
  rcases h.view_digest with ⟨-, hv⟩ | ⟨g, s, -, hv, hg⟩
  · rw [hv]
    exact ⟨none, none, rfl, rfl, column_none, column_none⟩
  · have hprintable := printable_digest ⟨s, hg⟩
    obtain ⟨a, e, rfl, hspans⟩ := (DigestSpan.new_sat g).of_ok hg
    have ha : a ≠ "" := by
      rintro rfl
      exact absurd hspans.algorithm (Nat.ne_of_gt s.algorithm.length.pos)
    have he : e ≠ "" := by
      rintro rfl
      exact absurd hspans.encoded (Nat.ne_of_gt s.encoded.length.pos)
    rw [hv]
    refine ⟨some ⟨a⟩, some ⟨e⟩, ?_, ?_, ?_, ?_⟩
    · rw [Option.mapM_some, Digest.algorithm_eq hspans]
      rfl
    · rw [Option.mapM_some, Digest.encoded_eq hspans]
      rfl
    · exact column_some hprintable.left.left ha
    · exact column_some hprintable.right he

theorem name_column (p : Parts) : Column (some p.name) := by
  exact column_some p.printable_name (name_ne_empty p)

theorem path_column (p : Parts) : Column (some p.path) :=
  column_some p.printable_path (path_ne_empty p)

/-- The row of an accepted reference is the one of its test case. -/
theorem Spans.exitOk_eq (h : p.Spans span) :
    ∃ t, TestCase.asTestCase (ε := Empty) ⟨p.print, span⟩ = .ok t ∧
      exitOk (ε := Empty) p.print ⟨p.print, span⟩ = .ok ⟨t.line ++ "\n", 0⟩ ∧
      t.input = p.print ∧ t.Kept := by
  obtain ⟨a, e, ha, he, hacol, hecol⟩ := h.digest_columns
  have hname : (p.view span).name.toStr (ε := Empty) = .ok p.name := name_toStr h
  have hpath : (p.view span).path.toStr (ε := Empty) = .ok p.path := path_toStr h
  have htag : (p.view span).tag = p.tag := rfl
  have hdomain := h.domain_column
  refine ⟨⟨p.print, some p.name, (p.view span).domain.map Domain.toStr, some p.path, p.tag,
    a.map Algorithm.toStr, e.map Encoded.toStr, none⟩, ?_, ?_, rfl, ?_⟩
  · rw [TestCase.asTestCase, h.nameStr_eq, Outcome.ok_bind, h.shows.domain, Outcome.ok_bind,
      h.shows.path, Outcome.ok_bind, hpath, Outcome.ok_bind, h.shows.tag, Outcome.ok_bind,
      h.shows.digest, Outcome.ok_bind, ha, Outcome.ok_bind, he, Outcome.ok_bind, htag]
  · rw [exitOk, h.shows.name, Outcome.ok_bind, hname, Outcome.ok_bind, h.shows.domain,
      Outcome.ok_bind, h.shows.path, Outcome.ok_bind, hpath, Outcome.ok_bind, h.shows.tag,
      Outcome.ok_bind, h.shows.digest, Outcome.ok_bind, ha, Outcome.ok_bind, he, Outcome.ok_bind,
      htag, p.printable_print.escape_eq, p.printable_name.escape_eq, hdomain.escape_eq,
      p.printable_path.escape_eq, p.tag_column.escape_eq, hacol.escape_eq, hecol.escape_eq,
      TestCase.line_feed]
    rfl
  · exact ⟨⟨p.printable_print.tab_not_mem, p.printable_print.feed_not_mem⟩, p.name_column,
      hdomain, p.path_column, p.tag_column, hacol, hecol, column_none⟩

end Parts

theorem readLine_eq {line : String} (h : asBytes line = firstLine stdin) :
    readLine (ε := Empty) stdin = .ok line := by
  rw [readLine, fromUTF8?_eq_some.mpr h]

theorem readLine_eq_panic (h : ∀ line, asBytes line ≠ firstLine stdin) :
    readLine (ε := Empty) stdin = .panic .unwrap := by
  have hnone : String.fromUTF8? ⟨(firstLine stdin).toArray⟩ = none := by
    rw [Option.eq_none_iff_forall_ne_some]
    exact fun line hline => h line (fromUTF8?_eq_some.mp hline)
  rw [readLine, hnone]

/-- The test case of a text, which is what its row says, and the code of the exit. -/
inductive Told (text : String) : TestCase → Nat → Prop
  | accepted {img : ImgRef} {t : TestCase} (hnew : ImgRef.new text = .ok img)
      (ht : TestCase.asTestCase (ε := Empty) img = .ok t) : Told text t 0
  | refused {e : Error} (hnew : ImgRef.new text = .err e) :
      Told text ⟨escape text, none, none, none, none, none, none, some e.display⟩ 1

theorem TestCase.err_of_asTestCase {img : ImgRef} {t : TestCase}
    (h : asTestCase (ε := Empty) img = .ok t) : t.err = none := by
  simp only [asTestCase, Outcome.bind_eq_ok] at h
  obtain ⟨_, -, _, -, _, -, _, -, _, -, _, -, _, -, _, -, ⟨⟩⟩ := h
  rfl

theorem Told.printed (text : String) (e : Error) : exitErr text e =
    ⟨TestCase.line ⟨escape text, none, none, none, none, none, none, some e.display⟩ ++ "\n",
      1⟩ := by
  rw [exitErr, TestCase.line_feed]
  rfl

theorem kept_refused (text : String) (e : Error) :
    TestCase.Kept ⟨escape text, none, none, none, none, none, none, some e.display⟩ where
  input := ⟨not_mem_escape (by simp) text, not_mem_escape (by simp) text⟩
  name := column_none
  domain := column_none
  path := column_none
  tag := column_none
  digestAlgo := column_none
  digestEncoded := column_none
  err := column_some e.printable_display e.display_ne_empty

/-- What a run prints for a line of text. -/
theorem main_eq {line : String} (h : asBytes line = firstLine stdin) :
    ∃ t code, Told (trimEnd line) t code ∧ t.Kept ∧
      unescape t.input = unescape (trimEnd line) ∧
      main (ε := Empty) stdin = .ok ⟨t.line ++ "\n", code⟩ := by
  rw [main, readLine_eq h, Outcome.ok_bind]
  dsimp only
  cases hnew : ImgRef.new (trimEnd line) with
  | ok img =>
    obtain ⟨p, span, hp, hspans, rfl⟩ := ImgRef.new_eq_ok.mp hnew
    obtain ⟨t, ht, hexit, hinput, hkept⟩ := hspans.exitOk_eq
    rw [hp]
    rw [hp] at hnew
    exact ⟨t, 0, .accepted hnew ht, hkept, by rw [hinput], hexit⟩
  | err e =>
    refine ⟨_, 1, .refused hnew, kept_refused _ e, unescape_escape _, ?_⟩
    exact congrArg Outcome.ok (Told.printed _ e)
  | panic cause => exact absurd hnew ((ImgRef.new_sat _).ne_panic cause)

theorem main_eq_panic (h : ∀ line, asBytes line ≠ firstLine stdin) :
    main (ε := Empty) stdin = .panic .unwrap := by
  rw [main, readLine_eq_panic h, Outcome.panic_bind]

theorem Told.input_eq {text : String} {t : TestCase} (h : Told text t 0) :
    unescape text = text := by
  cases h with
  | accepted hnew _ =>
    obtain ⟨p, span, rfl, -, -⟩ := ImgRef.new_eq_ok.mp hnew
    exact unescape_eq_self_iff.mpr p.printable_print.not_holdsEscape

/-- The last column is the error of the text. -/
theorem Told.err_eq_iff {text : String} {t : TestCase} {code : Nat} (h : Told text t code)
    (e : Error) : t.err.getD "" = e.display ↔ ImgRef.new text = .err e := by
  cases h with
  | @accepted img t hnew ht =>
    rw [TestCase.err_of_asTestCase ht, hnew]
    exact iff_of_false e.display_ne_empty.symm (by simp)
  | @refused e' hnew =>
    rw [hnew, Outcome.err.injEq]
    constructor
    · exact Error.display_injective
    · rintro rfl
      rfl

/-- Every run prints one row, and both readers take it apart again. -/
theorem row_read_back (stdin : List UInt8) :
    (main (ε := Empty) stdin = .panic .unwrap ∧ ∀ line, asBytes line ≠ firstLine stdin) ∨
      ∃ line t code, asBytes line = firstLine stdin ∧ Told (trimEnd line) t code ∧
        main (ε := Empty) stdin = .ok ⟨t.line ++ "\n", code⟩ ∧ '\n' ∉ t.line.toList ∧
        TestCase.fromLine (ε := Empty) t.line = .ok t ∧
        ∃ r : ParseResult, parseTsv (ε := Empty) (t.line ++ "\n") = .ok r ∧
          r = ⟨unescape (trimEnd line), t.name.getD "", t.domain.getD "", t.path.getD "",
            t.tag.getD "", t.digestAlgo.getD "", t.digestEncoded.getD "", t.err.getD ""⟩ ∧
          (r.input = trimEnd line ↔ ¬HoldsEscape (trimEnd line)) ∧
          (code = 0 → r.input = trimEnd line) ∧
          ∀ e : Error, r.err = e.display ↔ ImgRef.new (trimEnd line) = .err e := by
  by_cases h : ∃ line, asBytes line = firstLine stdin
  · obtain ⟨line, hline⟩ := h
    obtain ⟨t, code, htold, hkept, hinput, hmain⟩ := main_eq hline
    refine Or.inr ⟨line, t, code, hline, htold, hmain, hkept.feed_not_mem, hkept.fromLine_line,
      _, hkept.parseTsv_line, ?_, ?_, ?_, htold.err_eq_iff⟩
    · rw [hinput]
    · rw [hinput]
      exact unescape_eq_self_iff
    · rintro rfl
      rw [hinput]
      exact htold.input_eq
  · have hnot : ∀ line, asBytes line ≠ firstLine stdin := fun line hline => h ⟨line, hline⟩
    exact Or.inl ⟨main_eq_panic hnot, hnot⟩

example : main (ε := Empty) (asBytes "a/b\tc\n") =
    .ok ⟨"a/b\\tc\t\t\t\t\t\t\tPathInvalidChar @ 2\n", 1⟩ := by decide +kernel

end Run

section Excused

open ReferenceOracle

/-- The kinds that the harness lets the parser refuse alone. -/
def excused : List Err.Kind :=
  [.ipv6TooLong, .ipv6BadColon, .ipv6TooManyHexDigits, .ipv6TooManyGroups, .ipv6TooFewGroups]

theorem hasPrefix_display (e : Error) {x : String} (hx : ' ' ∉ x.toList) :
    ipv6ExpectedFailure.hasPrefix e.display x =
      ipv6ExpectedFailure.hasPrefix e.kind.debug x := by
  rw [ipv6ExpectedFailure.hasPrefix, ipv6ExpectedFailure.hasPrefix, e.toList_display,
    SeparatedList.isPrefixOf_sep hx]

/-- The prefixes that are looked for are whole names. -/
theorem ipv6ExpectedFailure_iff (e : Error) :
    ipv6ExpectedFailure e.display = true ↔ e.kind ∈ excused := by
  have hkinds : ∀ kind : Err.Kind, ipv6ExpectedFailure kind.debug = decide (kind ∈ excused) := by
    intro kind
    cases kind <;> decide +kernel
  have hdisplay : ipv6ExpectedFailure e.display = ipv6ExpectedFailure e.kind.debug := by
    simp only [ipv6ExpectedFailure, hasPrefix_display e (x := "Ipv6") (by decide +kernel),
      hasPrefix_display e (x := "Ipv6TooLong") (by decide +kernel),
      hasPrefix_display e (x := "Ipv6BadColon") (by decide +kernel),
      hasPrefix_display e (x := "Ipv6TooManyHexDigits") (by decide +kernel),
      hasPrefix_display e (x := "Ipv6TooManyGroups") (by decide +kernel),
      hasPrefix_display e (x := "Ipv6TooFewGroups") (by decide +kernel)]
  rw [hdisplay, hkinds, decide_eq_true_eq]

/-- The harness excuses what the scan of the brackets at the start of the text refuses, but for
a foreign character and a bracket that is not closed. -/
theorem excused_iff (text : String) (e : Error) :
    ImgRef.new text = .err e ∧ ipv6ExpectedFailure e.display = true ↔
      (asBytes text).head? = some (byte '[') ∧ Ipv6Span.Fails text e ∧
        e.kind ≠ .ipv6InvalidChar ∧ e.kind ≠ .ipv6MissingClosingBracket := by
  have hexcused : ∀ kind ∈ bracketKinds,
      (kind ∈ excused ↔ kind ≠ .ipv6InvalidChar ∧ kind ≠ .ipv6MissingClosingBracket) := by decide
  have houtside : ∀ kind ∈ excused, outside kind = false := by decide
  rw [ipv6ExpectedFailure_iff]
  constructor
  · rintro ⟨hnew, hkind⟩
    rcases (ImgRef.new_eq_err_iff.mp hnew).bracketed_or with ⟨hhead, he⟩ | hout
    · exact ⟨hhead, he, (hexcused _ (he.kind_mem hhead)).mp hkind⟩
    · cases (houtside _ hkind).symm.trans hout
  · rintro ⟨hhead, he, hkind⟩
    refine ⟨?_, (hexcused _ (he.kind_mem hhead)).mpr hkind⟩
    have hne : text ≠ "" := by
      rintro rfl
      cases hhead
    exact ImgRef.new_eq_err_iff.mpr (.opening hne (.bracketed hhead he))

end Excused

end ContainerImageDistRef
