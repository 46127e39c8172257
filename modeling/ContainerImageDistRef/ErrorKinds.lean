import ContainerImageDistRef.Name.Domain.Ipv6.Errors
import ContainerImageDistRef.ReferenceErrors
import ContainerImageDistRef.TagLanguage

/-!
# Which kinds of error a reference is refused with

Six kinds of the enumeration are never told by the parser of references, and
one of them by the parser of canonical references only. Every other kind is the
answer to some text.
-/

namespace ContainerImageDistRef

open ByteString Grammar

namespace Err.Kind

/-- The kinds that no reference is refused with. -/
def unreported : List Err.Kind :=
  [.hostMissing, .hostComponentInvalidEnd, .hostTooLong, .ipv6TooManyHexDigits, .port,
    .portMissing]

/-- The kinds that only long texts are refused with. -/
def ofLength : List Err.Kind :=
  [.hostOrPathTooLong, .nameTooLong, .ipv6TooLong, .portTooLong, .pathTooLong, .tagTooLong,
    .algorithmTooLong, .encodingTooLong]

end Err.Kind

open Err.Kind

section Tables

variable {src : String} {e : Error}

/-- The kinds of the scan of a bracketed address. -/
def bracketKinds : List Err.Kind :=
  [.ipv6InvalidChar, .ipv6TooLong, .ipv6BadColon, .ipv6TooManyGroups, .ipv6TooFewGroups,
    .ipv6MissingClosingBracket]

theorem Ipv6Span.Fails.kind_mem (hhead : (asBytes src).head? = some (byte '['))
    (h : Ipv6Span.Fails src e) : e.kind ∈ bracketKinds := by
  cases h with
  | missing hsrc =>
    rw [hsrc] at hhead
    cases hhead
  | unopened hsrc hc =>
    rw [hsrc] at hhead
    exact absurd (Option.some.inj hhead) hc
  | refused _ _ _ _ hkind => cases hkind <;> simp [bracketKinds]
  | unclosed => simp [bracketKinds]
  | long => simp [bracketKinds]
  | longClosed => simp [bracketKinds]
  | few => simp [bracketKinds]

/-- A kind that is told of a text outside of brackets. -/
def outside (kind : Err.Kind) : Bool := kind ∉ unreported ∧ kind ∉ bracketKinds

/-- The kinds of the scan of a segment. -/
def segmentKinds : List Err.Kind :=
  [.hostOrPathMissing, .hostOrPathTooLong, .hostOrPathInvalidChar, .hostOrPathInvalidComponentEnd]

theorem HostOrPathSpan.Fails.kind_mem {f : HostOrPath.Flavor} (h : HostOrPathSpan.Fails f src e) :
    e.kind ∈ segmentKinds := by
  cases h with
  | refused _ _ _ _ hkind => cases hkind <;> simp [segmentKinds]
  | missing => simp [segmentKinds]
  | first => simp [segmentKinds]
  | long => simp [segmentKinds]
  | ended => simp [segmentKinds]

/-- The kinds of the scan of a port or tag. -/
def portOrTagKinds : List Err.Kind :=
  [.portOrTagMissing, .portOrTagInvalidChar, .portInvalidChar, .tagTooLong, .portTooLong]

theorem PortOrTagSpan.Fails.kind_mem {mode : PortOrTag.Kind}
    (h : PortOrTagSpan.Fails mode src e) : e.kind ∈ portOrTagKinds := by
  cases h <;> simp [portOrTagKinds]

theorem TagSpan.Fails.kind_outside (h : TagSpan.Fails src e) : outside e.kind = true := by
  have hkinds : ∀ kind ∈ portOrTagKinds, outside (disambiguated ⟨0, kind⟩).kind = true := by
    decide
  obtain ⟨⟨i, kind⟩, he, rfl⟩ := h
  have hkind := hkinds kind he.kind_mem
  cases kind <;> exact hkind

theorem PathSpan.mapError_outside (h : e.kind ∈ segmentKinds) :
    outside (Path.mapError e).kind = true := by
  have hkinds : ∀ kind ∈ segmentKinds, outside (Path.mapError ⟨0, kind⟩).kind = true := by
    decide
  obtain ⟨i, kind⟩ := e
  have hkind := hkinds kind h
  cases kind <;> exact hkind

theorem PathSpan.Fails.kind_outside (h : PathSpan.Fails src e) : outside e.kind = true := by
  cases h with
  | first h => exact mapError_outside h.kind_mem
  | later _ _ _ h =>
    rw [componentError]
    split
    · dsimp only
      split
      · rfl
      · exact mapError_outside h.kind_mem
    · rfl
  | long => rfl

theorem DigestSpan.Fails.kind_outside (h : DigestSpan.Fails src e) : outside e.kind = true := by
  cases h with
  | algorithm h =>
    cases h with
    | missing => rfl
    | component _ _ h =>
      cases h with
      | refused _ _ _ hkind => cases hkind <;> rfl
      | long => rfl
    | long => rfl
  | ended => rfl
  | cut => rfl
  | encoded _ _ _ h => cases h <;> rfl
  | invalid _ _ _ _ _ _ h => cases h <;> rfl

theorem DomainOrRefSpan.Fails.bracketed_or (h : DomainOrRefSpan.Fails src e) :
    (asBytes src).head? = some (byte '[') ∧ Ipv6Span.Fails src e ∨ outside e.kind = true := by
  have hsegment : ∀ kind ∈ segmentKinds, outside kind = true := by decide
  have hright : ∀ kind ∈ portOrTagKinds, outside kind = true := by decide
  cases h with
  | bracketed hhead he => exact Or.inl ⟨hhead, he⟩
  | segment _ he => exact Or.inr (hsegment _ he.kind_mem)
  | colon _ _ he => exact Or.inr (hright _ he.kind_mem)
  | notPath _ _ _ _ he => cases he <;> exact Or.inr rfl
  | path _ _ _ _ he => exact Or.inr he.kind_outside
  | foreign => exact Or.inr rfl
  | tagLong => exact Or.inr rfl
  | notHost => exact Or.inr rfl
  | portLong => exact Or.inr rfl

/-- The kinds of an address are told of the brackets at the start of the text. -/
theorem RefSpan.Fails.bracketed_or (h : RefSpan.Fails src e) :
    (asBytes src).head? = some (byte '[') ∧ Ipv6Span.Fails src e ∨ outside e.kind = true := by
  cases h with
  | missing => exact Or.inr rfl
  | opening _ he => exact he.bracketed_or
  | path _ _ he => exact Or.inr he.kind_outside
  | name => exact Or.inr rfl
  | @tag p rest e _ _ he =>
    right
    rw [movedTag]
    split <;> exact he.kind_outside
  | digest _ _ he => exact Or.inr he.kind_outside

theorem RefSpan.Fails.reported (h : RefSpan.Fails src e) : e.kind ∉ unreported := by
  have hbrackets : ∀ kind ∈ bracketKinds, kind ∉ unreported := by decide
  rcases h.bracketed_or with ⟨hhead, he⟩ | hkind
  · exact hbrackets _ (he.kind_mem hhead)
  · exact (of_decide_eq_true hkind).1

end Tables

/-- Some reference is refused with the kind. -/
def Reported (kind : Err.Kind) : Prop :=
  ∃ src e, ImgRef.new src = .err e ∧ e.kind = kind

/-- A short text that is refused with the kind. -/
def sample : Err.Kind → String
  | .hostOrPathMissing => ":a"
  | .hostOrPathInvalidChar => "-"
  | .hostOrPathInvalidComponentEnd => "a-"
  | .portOrTagMissing => "a:"
  | .portOrTagInvalidChar => "[::]x"
  | .hostInvalidChar => "a_b:1/c"
  | .ipv6InvalidChar => "[x"
  | .ipv6BadColon => "[:::"
  | .ipv6TooManyGroups => "[1:2:3:4:5:6:7:8:"
  | .ipv6TooFewGroups => "[1]"
  | .ipv6MissingClosingBracket => "["
  | .portInvalidChar => "a:b/"
  | .pathMissing => "h/"
  | .pathComponentInvalidEnd => "h/a/"
  | .pathInvalidChar => "A"
  | .tagInvalidChar => "h/a:!"
  | .tagMissing => "h/a:"
  | .algorithmMissing => "a@"
  | .invalidOciAlgorithm => "a@1+A"
  | .algorithmInvalidNumericPrefix => "a@A+1"
  | .ociRegisteredAlgorithmWrongDigestLength => "a@sha256:0"
  | .algorithmInvalidChar => "a@!"
  | .encodedMissing => "a@a:"
  | .encodedInvalidChar => "a@a:!"
  | .encodedNonLowerHex => "a@A:="
  | .ociRegisteredDigestInvalidChar => "a@sha256:A"
  | .encodingTooShort => "a@A:0"
  | _ => ""

theorem reported_sample : ∀ kind, kind ∉ unreported → kind ∉ ofLength → Reported kind := by
  have hsample : ∀ kind, kind ∉ unreported → kind ∉ ofLength →
      (ImgRef.new (sample kind)).Sat (fun _ => False) fun e => e.kind = kind := by
    intro kind
    cases kind <;> decide +kernel
  intro kind hreported hlength
  obtain ⟨e, he, hkind⟩ := (hsample kind hreported hlength).exists_err
  exact ⟨_, e, he, hkind⟩

theorem reported_of_fails {src : String} {i : Nat} {kind : Err.Kind}
    (h : RefSpan.Fails src ⟨i, kind⟩) : Reported kind :=
  ⟨src, ⟨i, kind⟩, ImgRef.new_eq_err_iff.mpr h, rfl⟩

section Long

/-- A text of `n` letters. -/
def letters (n : Nat) : String := String.ofList (List.replicate n 'a')

theorem asBytes_letters (n : Nat) : asBytes (letters n) = List.replicate n (byte 'a') :=
  asBytes_replicate n

theorem len_letters (n : Nat) : len (letters n) = n := by
  rw [← length_asBytes, asBytes_letters, List.length_replicate]

theorem forall_letters {n : Nat} {p : UInt8 → Bool} (h : p (byte 'a') = true) :
    ∀ c ∈ asBytes (letters n), p c = true := by
  intro c hc
  rw [asBytes_letters] at hc
  rw [List.eq_of_mem_replicate hc, h]

variable {n : Nat}

theorem letters_mem_component (hn : 0 < n) : asBytes (letters n) ∈ pathComponent := by
  refine SeparatedList.mem_sepBy_of_mem (SeparatedList.mem_many1_symbol.mpr ⟨?_, ?_⟩)
  · intro hnil
    have hlen := congrArg List.length hnil
    rw [length_asBytes, len_letters] at hlen
    exact absurd hlen (Nat.ne_of_gt hn)
  · exact forall_letters (by decide)

theorem letters_mem_domainName (hn : 0 < n) : asBytes (letters n) ∈ domainName := by
  refine mem_domainName_of_pathComponent (letters_mem_component hn) fun hmem => ?_
  have hbyte := forall_letters (p := isLowerAlnum) (by decide) _ hmem
  exact absurd hbyte (by decide)

theorem letters_fails (f : HostOrPath.Flavor) (hf : f ≠ .host) (hn : maxU8 < n) :
    HostOrPathSpan.Fails f (letters n) ⟨maxU8, .hostOrPathTooLong⟩ := by
  have hsegment : HostOrPath.Segment f (asBytes (letters n)) :=
    Or.inl ⟨hf, letters_mem_component (Nat.zero_lt_of_lt hn)⟩
  have hlen : maxU8 < len (letters n) := by rwa [len_letters]
  have h := HostOrPathSpan.fails_long hsegment hlen ""
  rwa [String.append_empty] at h

/-- A domain of one letter. -/
theorem exists_letter_domain : ∃ d : DomainParts, d.text = "a" ∧ d.Counted := by
  have hhost : asBytes "a" ∈ domainName := symbol_mem_domainName (by decide)
  have hle : len "a" ≤ maxU8 := by decide
  exact ⟨⟨"a", none, HostSpan.hostText_iff.mpr (Or.inl hhost), by simp⟩, rfl, hle, by simp⟩

theorem reported_hostOrPathTooLong : Reported .hostOrPathTooLong := by
  have hne : letters 256 ≠ "" := by
    intro hnil
    exact absurd (congrArg len hnil) (by rw [len_letters]; decide)
  have hhead : (asBytes (letters 256)).head? ≠ some (byte '[') := by
    rw [asBytes_letters]
    decide
  have hfails := letters_fails (n := 256) .neutral (by simp) (by decide)
  exact reported_of_fails (.opening hne (.segment hhead hfails))

theorem reported_pathTooLong : Reported .pathTooLong := by
  obtain ⟨d, -, hd⟩ := exists_letter_domain
  have hfails := letters_fails (n := 256) .path (by simp) (by decide)
  exact reported_of_fails (.path rfl hd (.first hfails))

theorem reported_nameTooLong : Reported .nameTooLong := by
  obtain ⟨d, htext, hd⟩ := exists_letter_domain
  have hsrc : d.text ++ "/" ++ letters 254 = d.text ++ "/" ++ (letters 254 ++ "") := by
    rw [String.append_empty]
  have hpath : asBytes (letters 254) ∈ Grammar.path :=
    SeparatedList.mem_sepBy_of_mem (letters_mem_component (by decide))
  have hlen : len (letters 254) ≤ maxU8 := by
    rw [len_letters]
    decide
  have hlong : Name.MAX_LEN < len (d.text ++ "/" ++ letters 254) := by
    rw [htext, len_append, len_letters]
    decide
  exact reported_of_fails (.name hsrc hd hpath hlen (stopsAt_nil _) hlong)

theorem reported_portTooLong : Reported .portTooLong := by
  have hhost : HostSpan.HostText .name (letters 255) := letters_mem_domainName (by decide)
  have hlen : len (letters 255) ≤ maxU8 := by
    rw [len_letters]
    decide
  have hport : asBytes "1" ∈ portNumber :=
    SeparatedList.mem_many1_symbol.mpr (by decide +kernel)
  have hover : maxU8 < len (letters 255) + len "1" := by
    rw [len_letters]
    decide
  have hne : letters 255 ++ (":" ++ "1" ++ ("/" ++ "")) ≠ "" := by
    rw [← String.append_assoc]
    exact append_sep_ne_empty "/" rfl _ _
  exact reported_of_fails (.opening hne (.portLong rfl hhost hlen hport (by decide) hover))

theorem reported_tagTooLong : Reported .tagTooLong := by
  have hx : asBytes (letters 1) ∈ pathComponent := letters_mem_component (by decide)
  have hxlen : len (letters 1) ≤ maxU8 := by
    rw [len_letters]
    decide
  have htext : PortOrTag.TagText (asBytes (letters 129)) := by
    refine ⟨byte 'a', List.replicate 128 (byte 'a'), asBytes_letters 129, by decide, ?_⟩
    intro c hc
    rw [List.eq_of_mem_replicate hc]
    decide
  have hlen : (asBytes (letters 129)).length = 129 := len_letters 129
  have hread : PortOrTag.Readable .port (asBytes (letters 129)) :=
    ⟨htext, by rw [hlen]; decide, fun _ => Nat.le_of_eq hlen⟩
  have hlong : Tag.MAX_LEN < len (letters 129) := by
    rw [len_letters]
    decide
  have hne : letters 1 ++ (":" ++ letters 129 ++ "") ≠ "" := by
    rw [String.append_assoc]
    exact append_sep_ne_empty ":" rfl _ _
  exact reported_of_fails (.opening hne (.tagLong rfl hx hxlen hread hlong (stopsAt_nil _)))

theorem reported_ipv6TooLong : Reported .ipv6TooLong := by
  have hcount : (asBytes (letters 255)).count (byte ':') = 0 := by
    rw [List.count_eq_zero]
    intro hmem
    exact absurd (forall_letters (p := isLowerAlnum) (by decide) _ hmem) (by decide)
  have hdouble : ¬Groups.Doubled (byte ':') (asBytes (letters 255)) := by
    intro hd
    have hle := hd.sublist.count_le (byte ':')
    rw [hcount] at hle
    exact absurd hle (by decide)
  have hlegal : Ipv6.Legal (asBytes (letters 255)) :=
    ⟨forall_letters (by decide), by rw [hcount]; decide, Or.inl hdouble⟩
  have hsrc : asBytes ("[" ++ letters 255) = byte '[' :: (asBytes (letters 255) ++ []) := by
    rw [asBytes_append, List.append_nil]
    rfl
  have hlen : (asBytes (letters 255)).length = maxU8 := len_letters 255
  have hne : "[" ++ letters 255 ≠ "" := by
    intro hnil
    rw [hnil] at hsrc
    cases hsrc
  have hhead : (asBytes ("[" ++ letters 255)).head? = some (byte '[') := by rw [hsrc]; rfl
  exact reported_of_fails (.opening hne (.bracketed hhead (.long hsrc hlegal hlen)))

/-- A digest that fails behind a reference of one letter. -/
theorem reported_of_digest {d : String} {i : Nat} {kind : Err.Kind}
    (h : DigestSpan.Fails d ⟨i, kind⟩) : Reported kind := by
  obtain ⟨p, -, -, hp, -⟩ := exists_letter_parts false
  exact reported_of_fails (.digest rfl hp h)

theorem letters_algorithm (hn : 0 < n) : Algorithm.AlgorithmText (asBytes (letters n)) := by
  obtain ⟨m, rfl⟩ : ∃ m, n = m + 1 := Nat.exists_eq_add_one.mpr hn
  refine Algorithm.algorithmText_iff.mpr ⟨.universal, Algorithm.threads_component ?_⟩
  refine ⟨byte 'a', List.replicate m (byte 'a'), asBytes_letters _, rfl, ?_⟩
  intro b hb
  rw [List.eq_of_mem_replicate hb]
  rfl

theorem reported_algorithmTooLong : Reported .algorithmTooLong := by
  have hplain : ∀ b ∈ asBytes (letters 256), Algorithm.isSeparator b = false := by
    intro b hb
    rw [asBytes_letters] at hb
    rw [List.eq_of_mem_replicate hb]
    decide
  have htext : Algorithm.AlgorithmText ([] ++ asBytes (letters 256)) := by
    rw [List.nil_append]
    exact letters_algorithm (by decide)
  have hread : Algorithm.ReadsBehind [] (asBytes (letters 256)) := ⟨htext, hplain⟩
  have hfails : Algorithm.FailsBehind [] (asBytes (letters 256)) ⟨255, .algorithmTooLong⟩ :=
    .long (List.append_nil _).symm hread (len_letters 256)
  exact reported_of_digest (.algorithm (.component rfl .start hfails))

theorem reported_encodingTooLong : Reported .encodingTooLong := by
  have hhex : ∀ b ∈ asBytes (letters 1025), Encoded.isHex b = true := forall_letters (by decide)
  have hlen : len (letters 1) ≤ 255 := by
    rw [len_letters]
    decide
  have hcount : (asBytes (letters 1025)).length = 1025 := len_letters 1025
  have hfails : ∀ strict, Encoded.Fails strict (letters 1025) ⟨1024, .encodingTooLong⟩ :=
    fun strict => .long (List.append_nil _).symm (fun b hb => Or.inl (hhex b hb)) hcount
  have hdigest := DigestSpan.Fails.encoded rfl (letters_algorithm Nat.one_pos) hlen (hfails _)
  exact reported_of_digest hdigest

theorem reported_ofLength {kind : Err.Kind} (h : kind ∈ ofLength) : Reported kind := by
  simp only [ofLength, List.mem_cons, List.not_mem_nil, or_false] at h
  rcases h with rfl | rfl | rfl | rfl | rfl | rfl | rfl | rfl
  · exact reported_hostOrPathTooLong
  · exact reported_nameTooLong
  · exact reported_ipv6TooLong
  · exact reported_portTooLong
  · exact reported_pathTooLong
  · exact reported_tagTooLong
  · exact reported_algorithmTooLong
  · exact reported_encodingTooLong

end Long

/-- The kinds that references and canonical references are refused with. -/
theorem reported_iff (kind : Err.Kind) :
    ((∃ src e, ImgRef.new src = .err e ∧ e.kind = kind) ↔ kind ∉ unreported) ∧
      ((∃ src e, CanonicalImgRef.new src = .err e ∧ e.kind = kind) ↔
        kind ∉ unreported ∨ kind = .hostMissing) := by
  have himg : Reported kind ↔ kind ∉ unreported := by
    constructor
    · rintro ⟨src, e, h, rfl⟩
      exact (ImgRef.new_eq_err_iff.mp h).reported
    · intro hreported
      by_cases hlength : kind ∈ ofLength
      · exact reported_ofLength hlength
      · exact reported_sample kind hreported hlength
  refine ⟨himg, ?_⟩
  rw [← himg]
  constructor
  · rintro ⟨src, e, h, rfl⟩
    rcases CanonicalImgRef.new_eq_err.mp h with h | h
    · exact Or.inl ⟨src, e, h, rfl⟩
    · cases h with
      | host => exact Or.inr rfl
      | digest => exact Or.inl (reported_sample .algorithmMissing (by decide) (by decide))
  · rintro (⟨src, e, h, hkind⟩ | rfl)
    · exact ⟨src, e, CanonicalImgRef.new_eq_err.mpr (Or.inl h), hkind⟩
    · have hsample : (CanonicalImgRef.new "a").Sat (fun _ => False)
          fun e => e.kind = .hostMissing := by decide +kernel
      obtain ⟨e, he, hkind⟩ := hsample.exists_err
      exact ⟨"a", e, he, hkind⟩

end ContainerImageDistRef
