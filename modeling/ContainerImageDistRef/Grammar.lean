import ContainerImageDistRef.Library.ByteString
import ContainerImageDistRef.Library.SeparatedList

/-!
# The reference grammar

The rules of the README and of the two digest specifications, as languages of
bytes. Bracketed IPv6 literals have no rule of their own here: what the IPv6
parser consumes entirely is taken for them.
-/

namespace ContainerImageDistRef

namespace Grammar

open ByteString SeparatedList
open scoped Computability

/-- A literal character. -/
def char (c : Char) : Language UInt8 := symbol (· == byte c)

def isAlnumDash (c : UInt8) : Bool := isAlnum c || c == byte '-'

/-- `[a-z0-9]` -/
def isLowerAlnum (c : UInt8) : Bool := isLower c || isDigit c

/-- `\w` -/
def isWord (c : UInt8) : Bool := isAlnum c || c == byte '_'

/-- `[\w.-]` -/
def isTagByte (c : UInt8) : Bool := isWord c || c == byte '.' || c == byte '-'

/-- `[a-zA-Z0-9]|[a-zA-Z0-9][a-zA-Z0-9-]*[a-zA-Z0-9]` -/
def domainComponent : Language UInt8 :=
  symbol isAlnum + symbol isAlnum * (symbol isAlnumDash)∗ * symbol isAlnum

/-- `domain-component ("." domain-component)*` -/
def domainName : Language UInt8 := sepBy domainComponent (char '.')

/-- `[0-9]+` -/
def portNumber : Language UInt8 := many1 (symbol isDigit)

/-- `[_.] | "__" | "-"+` -/
def separator : Language UInt8 :=
  symbol (fun c => c == byte '_' || c == byte '.') + char '_' * char '_' + many1 (char '-')

/-- `[a-z0-9]+ (separator [a-z0-9]+)*` -/
def pathComponent : Language UInt8 := sepBy (many1 (symbol isLowerAlnum)) separator

/-- `("/" path-component)*` -/
def pathRest : Language UInt8 := (char '/' * pathComponent)∗

/-- `path-component ("/" path-component)*` -/
def path : Language UInt8 := sepBy pathComponent (char '/')

/-- `[\w][\w.-]{0,127}` -/
def tag : Language UInt8 := symbol isWord * atMost 127 isTagByte

/-- `[+._-]` -/
def algorithmSeparator : Language UInt8 :=
  symbol fun c => c == byte '+' || c == byte '.' || c == byte '_' || c == byte '-'

/-- `component (separator component)*` -/
def algorithm (component : Language UInt8) : Language UInt8 :=
  sepBy component algorithmSeparator

/-- `algorithm ":" encoded` -/
def digest (component encoded : Language UInt8) : Language UInt8 :=
  algorithm component * char ':' * encoded

namespace Oci

/-- `[a-z0-9]+` -/
def component : Language UInt8 := many1 (symbol isLowerAlnum)

def isEncodedByte (c : UInt8) : Bool :=
  isAlnum c || c == byte '=' || c == byte '_' || c == byte '-'

/-- `[a-zA-Z0-9=_-]+` -/
def encoded : Language UInt8 := many1 (symbol isEncodedByte)

def digest : Language UInt8 := Grammar.digest component encoded

end Oci

namespace Distribution

/-- `[A-Za-z][A-Za-z0-9]*` -/
def component : Language UInt8 :=
  symbol (fun c => isUpper c || isLower c) * (symbol isAlnum)∗

def isHex (c : UInt8) : Bool :=
  byte 'a' ≤ c && c ≤ byte 'f' || byte 'A' ≤ c && c ≤ byte 'F' || isDigit c

/-- `[a-fA-F0-9]{32,}` -/
def encoded : Language UInt8 := atLeast 32 isHex

def digest : Language UInt8 := Grammar.digest component encoded

end Distribution

theorem mem_char {c : Char} {w : List UInt8} : w ∈ char c ↔ w = [byte c] := by
  simp [char, mem_symbol]

theorem isAlnum_of_isLowerAlnum : ∀ c : UInt8, isLowerAlnum c = true → isAlnum c = true :=
  forall_byte (by decide)

/-- A domain component begins and ends with a letter or a digit. -/
theorem mem_domainComponent {w : List UInt8} :
    w ∈ domainComponent ↔
      (∀ c ∈ w, isAlnumDash c = true) ∧ (∃ a, w.head? = some a ∧ isAlnum a = true) ∧
        ∃ b, w.getLast? = some b ∧ isAlnum b = true := by
  have hdash : ∀ c, isAlnum c = true → isAlnumDash c = true := fun c h => by
    simp [isAlnumDash, h]
  constructor
  · rintro (⟨a, ha, rfl⟩ | ⟨_, ⟨_, ⟨a, ha, rfl⟩, m, hm, rfl⟩, _, ⟨b, hb, rfl⟩, rfl⟩)
    · exact ⟨by simpa using hdash a ha, by simpa using ha, by simpa using ha⟩
    · refine ⟨fun c hc => ?_, ⟨a, rfl, ha⟩, ⟨b, List.getLast?_concat, hb⟩⟩
      simp only [List.cons_append, List.nil_append, List.mem_cons, List.mem_append,
        List.not_mem_nil, or_false] at hc
      rcases hc with rfl | hc | rfl
      · exact hdash c ha
      · exact mem_kstar_symbol.mp hm c hc
      · exact hdash c hb
  · rintro ⟨hall, ⟨a, ha, haa⟩, b, hb, hbb⟩
    cases w with
    | nil => cases ha
    | cons c w =>
      cases ha
      rcases List.eq_nil_or_concat w with rfl | ⟨m, d, rfl⟩
      · exact Or.inl ⟨a, haa, rfl⟩
      · have hd : d = b := by
          rw [List.concat_eq_append, ← List.cons_append, List.getLast?_concat] at hb
          exact Option.some.inj hb
        subst hd
        refine Or.inr ⟨[a] ++ m, ⟨[a], ⟨a, haa, rfl⟩, m, ?_, rfl⟩, [d], ⟨d, hbb, rfl⟩, by simp⟩
        exact mem_kstar_symbol.mpr fun c hc => hall c (by simp [hc])

/-- Dashes and a letter or a digit continue a domain component. -/
theorem domainComponent_snoc {w : List UInt8} {c : UInt8} (hw : w ∈ domainComponent)
    (ds : List UInt8) (hds : ∀ d ∈ ds, d = byte '-') (hc : isAlnum c = true) :
    w ++ (ds ++ [c]) ∈ domainComponent := by
  obtain ⟨hall, ⟨a, ha, haa⟩, -⟩ := mem_domainComponent.mp hw
  refine mem_domainComponent.mpr ⟨fun d hd => ?_, ⟨a, ?_, haa⟩, c, ?_, hc⟩
  · simp only [List.mem_append, List.mem_singleton] at hd
    rcases hd with hd | hd | rfl
    · exact hall d hd
    · rw [hds d hd]
      decide
    · simp [isAlnumDash, hc]
  · rw [List.head?_append, ha]
    rfl
  · rw [← List.append_assoc, List.getLast?_append]
    rfl

theorem symbol_mem_domainName {c : UInt8} (hc : isAlnum c = true) : [c] ∈ domainName :=
  mem_sepBy_of_mem (Or.inl (singleton_mem_symbol.mpr hc))

theorem symbol_mem_pathComponent {c : UInt8} (hc : isLowerAlnum c = true) :
    [c] ∈ pathComponent :=
  mem_sepBy_of_mem (mem_many1_symbol.mpr ⟨by simp, by simpa using hc⟩)

/-- The bytes of a domain name. -/
def isDomainByte (c : UInt8) : Bool := isAlnumDash c || c == byte '.'

/-- The bytes of a path component. -/
def isComponentByte (c : UInt8) : Bool :=
  isLowerAlnum c || c == byte '_' || c == byte '.' || c == byte '-'

theorem ascii_of_isDomainByte : ∀ c : UInt8, isDomainByte c = true → c < 128 :=
  forall_byte (by decide)

theorem ascii_of_isComponentByte : ∀ c : UInt8, isComponentByte c = true → c < 128 :=
  forall_byte (by decide)

theorem isDomainByte_of_mem {w : List UInt8} (hw : w ∈ domainName) :
    ∀ c ∈ w, isDomainByte c = true := by
  refine sepBy_forall (fun x hx c hc => ?_) (fun s hs c hc => ?_) hw
  · simp [isDomainByte, (mem_domainComponent.mp hx).1 c hc]
  · rw [mem_char.mp hs, List.mem_singleton] at hc
    simp [isDomainByte, hc]

theorem isComponentByte_of_mem {w : List UInt8} (hw : w ∈ pathComponent) :
    ∀ c ∈ w, isComponentByte c = true := by
  refine sepBy_forall (fun x hx c hc => ?_) (fun s hs c hc => ?_) hw
  · simp [isComponentByte, (mem_many1_symbol.mp hx).2 c hc]
  · rcases hs with (⟨d, hd, rfl⟩ | hs) | hs
    · rw [List.mem_singleton] at hc
      subst hc
      rcases (Bool.or_eq_true _ _).mp hd with h | h <;> simp [isComponentByte, eq_of_beq h]
    · obtain ⟨x, hx, y, hy, rfl⟩ := Language.mem_mul.mp hs
      rw [mem_char] at hx hy
      subst hx hy
      have hu : c = byte '_' := by simpa using hc
      simp [isComponentByte, hu]
    · have h := (mem_many1_symbol.mp hs).2 c hc
      simp [isComponentByte, eq_of_beq h]

theorem head_of_mem_domainName {w : List UInt8} (hw : w ∈ domainName) :
    ∃ c, w.head? = some c ∧ isAlnum c = true := by
  obtain ⟨x, hx, r, -, rfl⟩ := hw
  obtain ⟨-, ⟨a, ha, haa⟩, -⟩ := mem_domainComponent.mp hx
  exact ⟨a, by simp [ha], haa⟩

theorem head_of_mem_pathComponent {w : List UInt8} (hw : w ∈ pathComponent) :
    ∃ c, w.head? = some c ∧ isLowerAlnum c = true := by
  obtain ⟨x, hx, r, -, rfl⟩ := hw
  obtain ⟨hne, hall⟩ := mem_many1_symbol.mp hx
  cases x with
  | nil => exact absurd rfl hne
  | cons c x => exact ⟨c, rfl, hall c (by simp)⟩

theorem mem_path {w : List UInt8} :
    w ∈ path ↔ ∃ x ∈ pathComponent, ∃ r ∈ pathRest, x ++ r = w :=
  Language.mem_mul

/-- The bytes of a path. -/
def isPathByte (c : UInt8) : Bool := isComponentByte c || c == byte '/'

theorem ascii_of_isPathByte : ∀ c : UInt8, isPathByte c = true → c < 128 :=
  forall_byte (by decide)

theorem isPathByte_of_mem_rest {w : List UInt8} (hw : w ∈ pathRest) :
    ∀ c ∈ w, isPathByte c = true := by
  induction hw using kstar_induction with
  | nil => simp
  | snoc w x _ hx ih =>
    obtain ⟨s, hs, y, hy, rfl⟩ := Language.mem_mul.mp hx
    obtain rfl := mem_char.mp hs
    intro c hc
    rcases List.mem_append.mp hc with hc | hc
    · exact ih c hc
    · rcases List.mem_cons.mp hc with rfl | hc
      · decide
      · simp [isPathByte, isComponentByte_of_mem hy c hc]

theorem isPathByte_of_mem {w : List UInt8} (hw : w ∈ path) : ∀ c ∈ w, isPathByte c = true := by
  obtain ⟨x, hx, r, hr, rfl⟩ := mem_path.mp hw
  intro c hc
  rcases List.mem_append.mp hc with hc | hc
  · simp [isPathByte, isComponentByte_of_mem hx c hc]
  · exact isPathByte_of_mem_rest hr c hc

/-- A continuation of a path is empty or begins with a slash. -/
theorem pathRest_cases {w : List UInt8} (hw : w ∈ pathRest) :
    w = [] ∨ ∃ x ∈ pathComponent, ∃ r ∈ pathRest, w = byte '/' :: (x ++ r) := by
  obtain ⟨items, rfl, hitems⟩ := Language.mem_kstar.mp hw
  cases items with
  | nil => exact Or.inl rfl
  | cons y items =>
    obtain ⟨s, hs, x, hx, rfl⟩ := Language.mem_mul.mp (hitems y (by simp))
    obtain rfl := mem_char.mp hs
    have hr : items.flatten ∈ pathRest :=
      Language.join_mem_kstar fun z hz => hitems z (List.mem_cons_of_mem _ hz)
    exact Or.inr ⟨x, hx, items.flatten, hr, rfl⟩

theorem pathRest_cons {x r : List UInt8} (hx : x ∈ pathComponent) (hr : r ∈ pathRest) :
    byte '/' :: (x ++ r) ∈ pathRest := by
  have hitem : [byte '/'] ++ x ∈ char '/' * pathComponent :=
    Language.append_mem_mul (mem_char.mpr rfl) hx
  have hone : [byte '/'] ++ x ∈ pathRest :=
    (le_kstar : char '/' * pathComponent ≤ pathRest) hitem
  have h := Language.append_mem_mul hone hr
  rw [pathRest, kstar_mul_kstar] at h
  exact h

/-- The names that have no domain: a single segment, or an underscore in the first. -/
def Undomained (u : List UInt8) : Prop :=
  byte '/' ∉ u ∨ byte '_' ∈ u.takeWhile (· != byte '/')

theorem slash_not_mem_pathComponent {u : List UInt8} (h : u ∈ pathComponent) :
    byte '/' ∉ u := by
  intro hu
  exact absurd (isComponentByte_of_mem h _ hu) (by decide)

theorem undomained_iff {x r : List UInt8} (hx : x ∈ pathComponent) (hr : r ∈ pathRest) :
    Undomained (x ++ r) ↔ r = [] ∨ byte '_' ∈ x := by
  have hslash := slash_not_mem_pathComponent hx
  rcases pathRest_cases hr with rfl | ⟨y, -, r, -, rfl⟩
  · simp [Undomained, hslash]
  · rw [Undomained, takeWhile_sep hslash]
    simp

/-- A path without a slash is a single component. -/
theorem mem_pathComponent_of_path {u : List UInt8} (hu : u ∈ path) (hslash : byte '/' ∉ u) :
    u ∈ pathComponent := by
  obtain ⟨x, hx, r, hr, rfl⟩ := mem_path.mp hu
  rcases pathRest_cases hr with rfl | ⟨y, -, r, -, rfl⟩
  · rwa [List.append_nil]
  · exact absurd (List.mem_append_right _ List.mem_cons_self) hslash

/-- Where the first segment is a host, the name has a domain. -/
theorem not_undomained {x : List UInt8} (hslash : byte '/' ∉ x) (hx : byte '_' ∉ x)
    (r : List UInt8) : ¬Undomained (x ++ byte '/' :: r) := by
  rw [Undomained, takeWhile_sep hslash]
  simp [hx]

end Grammar

end ContainerImageDistRef
