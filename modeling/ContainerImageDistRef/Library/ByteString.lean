import Mathlib.Data.List.TakeWhile
import ContainerImageDistRef.Library.Outcome

/-!
# Strings read as UTF-8 bytes

A string slice is addressed by byte offsets and may only be cut between
characters. A cut of `u ++ v` at the length of `u` is always such a place, so
the lemmas below turn offsets back into concatenations. What a byte scanner
has consumed is such a left part as soon as it consumed ASCII bytes only.
-/

namespace ByteString

universe u

/-- The test of `P` on every byte, in sixteen rows of sixteen. -/
def allBytes (P : UInt8 → Prop) [DecidablePred P] : Bool :=
  (List.range 16).all fun i => (List.range 16).all fun j => decide (P (UInt8.ofNat (16 * i + j)))

/-- Statements about all bytes are decided by running through them. -/
theorem forall_byte {P : UInt8 → Prop} [DecidablePred P] (h : allBytes P = true) : ∀ c, P c := by
  intro c
  have hlt : c.toNat < 256 := c.toNat_lt
  have hrow := List.all_eq_true.mp h (c.toNat / 16) (List.mem_range.mpr (by omega))
  have hbyte := List.all_eq_true.mp hrow (c.toNat % 16) (List.mem_range.mpr (by omega))
  have hc : UInt8.ofNat (16 * (c.toNat / 16) + c.toNat % 16) = c := by
    rw [Nat.div_add_mod, UInt8.ofNat_toNat]
  rw [hc] at hbyte
  exact of_decide_eq_true hbyte

def asBytes (s : String) : List UInt8 := s.toByteArray.data.toList

/-- The length in bytes. -/
def len (s : String) : Nat := (asBytes s).length

@[simp] theorem asBytes_empty : asBytes "" = [] := rfl

@[simp] theorem asBytes_append (s t : String) : asBytes (s ++ t) = asBytes s ++ asBytes t := by
  simp [asBytes, ByteArray.data_append]

theorem asBytes_inj {s t : String} : asBytes s = asBytes t ↔ s = t := by
  constructor
  · intro h
    exact String.toByteArray_inj.mp (ByteArray.ext (Array.toList_inj.mp h))
  · rintro rfl
    rfl

/-- The text of bytes is the text that has these bytes. -/
theorem fromUTF8?_eq_some {l : List UInt8} {s : String} :
    String.fromUTF8? ⟨l.toArray⟩ = some s ↔ asBytes s = l := by
  rw [String.fromUTF8?]
  constructor
  · intro h
    split at h
    · cases h
      exact List.toList_toArray
    · cases h
  · rintro rfl
    have hbytes : (⟨(asBytes s).toArray⟩ : ByteArray) = s.toByteArray := by
      rw [asBytes, Array.toArray_toList]
    rw [hbytes, dif_pos s.isValidUTF8]
    rfl

@[simp] theorem length_asBytes (s : String) : (asBytes s).length = len s := rfl

@[simp] theorem len_empty : len "" = 0 := rfl

@[simp] theorem len_append (s t : String) : len (s ++ t) = len s + len t := by
  rw [len, asBytes_append, List.length_append, length_asBytes, length_asBytes]

theorem len_eq_zero {s : String} : len s = 0 ↔ s = "" := by
  rw [len, List.length_eq_zero_iff, ← asBytes_empty, asBytes_inj]

theorem head?_eq_none {s : String} : (asBytes s).head? = none ↔ s = "" := by
  rw [List.head?_eq_none_iff, ← asBytes_empty, asBytes_inj]

theorem len_eq_utf8ByteSize (s : String) : len s = s.utf8ByteSize := by
  simp [len, asBytes, ← String.size_toByteArray]

theorem append_inj {s s' t t' : String} (h : s ++ t = s' ++ t') (hl : len s = len s') :
    s = s' ∧ t = t' := by
  have hb : asBytes s ++ asBytes t = asBytes s' ++ asBytes t' := by
    simpa using congrArg asBytes h
  obtain ⟨h1, h2⟩ := List.append_inj hb hl
  exact ⟨asBytes_inj.mp h1, asBytes_inj.mp h2⟩

/-- A separator of one byte between two texts. -/
theorem asBytes_sep (sep : String) {c : UInt8} (hsep : asBytes sep = [c]) (s t : String) :
    asBytes (s ++ sep ++ t) = asBytes s ++ c :: asBytes t := by
  rw [asBytes_append, asBytes_append, hsep, List.append_assoc, List.singleton_append]

theorem head?_sep (sep : String) {c : UInt8} (hsep : asBytes sep = [c]) (t : String) :
    (asBytes (sep ++ t)).head? = some c := by
  rw [asBytes_append, hsep, List.singleton_append, List.head?_cons]

/-- The first separator cuts a string in one way. -/
theorem append_inj_of_notMem (sep : String) {s s' t t' : String} {c : UInt8}
    (hsep : asBytes sep = [c]) (hs : c ∉ asBytes s) (hs' : c ∉ asBytes s')
    (h : s ++ sep ++ t = s' ++ sep ++ t') : s = s' ∧ t = t' := by
  have htake : ∀ {u v : String}, c ∉ asBytes u →
      (asBytes (u ++ sep ++ v)).takeWhile (· != c) = asBytes u := by
    intro u v hu
    have hne : ∀ d ∈ asBytes u, (d != c) = true := fun d hd => by
      simp only [bne_iff_ne]
      rintro rfl
      exact hu hd
    rw [asBytes_append, asBytes_append, hsep, List.append_assoc,
      List.takeWhile_append_of_pos hne]
    simp
  have hss : s = s' := asBytes_inj.mp (by rw [← htake hs, h, htake hs'])
  subst hss
  exact ⟨rfl, (String.append_right_inj _).mp h⟩

/-- A byte offset between two characters. -/
abbrev IsCharBoundary (s : String) (i : Nat) : Prop := (String.Pos.Raw.mk i).IsValid s

theorem isCharBoundary_iff {s : String} {i : Nat} :
    IsCharBoundary s i ↔ ∃ u v, s = u ++ v ∧ i = len u := by
  rw [IsCharBoundary, String.Pos.Raw.isValid_iff_exists_append]
  simp only [String.Pos.Raw.ext_iff, String.byteIdx_rawEndPos, len_eq_utf8ByteSize]

theorem isCharBoundary_append (s t : String) : IsCharBoundary (s ++ t) (len s) :=
  isCharBoundary_iff.mpr ⟨s, t, rfl, rfl⟩

/-- The part of `s` between two offsets, if both are character boundaries. -/
def getRange (s : String) (a b : Nat) : Option String :=
  if h : a ≤ b ∧ IsCharBoundary s a ∧ IsCharBoundary s b then
    some ⟨s.toByteArray.extract a b,
      (String.Pos.Raw.isValidUTF8_extract_iff ⟨a⟩ ⟨b⟩ h.1 h.2.2.le_rawEndPos).mpr
        (Or.inr h.2)⟩
  else none

def getFrom (s : String) (a : Nat) : Option String := getRange s a (len s)

/-- Indexing with a range panics where the range does not cut between characters. -/
def slice {ε : Type u} (s : String) (a b : Nat) : Outcome ε String :=
  match getRange s a b with
  | some t => .ok t
  | none => .panic .slice

def sliceFrom {ε : Type u} (s : String) (a : Nat) : Outcome ε String := slice s a (len s)

def sliceTo {ε : Type u} (s : String) (b : Nat) : Outcome ε String := slice s 0 b

theorem asBytes_getRange {s t : String} {a b : Nat} (h : getRange s a b = some t) :
    asBytes t = ((asBytes s).take b).drop a := by
  rw [getRange] at h
  split at h
  · cases h
    simp [asBytes, ByteArray.data_extract, List.extract, List.drop_take]
  · cases h

theorem getRange_append (s t u : String) :
    getRange (s ++ t ++ u) (len s) (len s + len t) = some t := by
  have ha : IsCharBoundary (s ++ t ++ u) (len s) := by
    rw [String.append_assoc]
    exact isCharBoundary_append s (t ++ u)
  have hb : IsCharBoundary (s ++ t ++ u) (len s + len t) := by
    simpa using isCharBoundary_append (s ++ t) u
  have hs : (getRange (s ++ t ++ u) (len s) (len s + len t)).isSome := by
    simp [getRange, ha, hb]
  obtain ⟨r, hr⟩ := Option.isSome_iff_exists.mp hs
  have hbytes : asBytes r = asBytes t := by
    have := asBytes_getRange hr
    rw [asBytes_append, ← len_append, ← length_asBytes (s ++ t), List.take_left,
      asBytes_append, ← length_asBytes s, List.drop_left] at this
    exact this
  rw [hr, asBytes_inj.mp hbytes]

section Slices
variable {ε : Type u}

@[simp] theorem slice_append (s t u : String) :
    (slice (s ++ t ++ u) (len s) (len s + len t) : Outcome ε String) = .ok t := by
  simp only [slice, getRange_append]

@[simp] theorem sliceFrom_append (s t : String) :
    (sliceFrom (s ++ t) (len s) : Outcome ε String) = .ok t := by
  have h := slice_append (ε := ε) s t ""
  rw [String.append_empty] at h
  rw [sliceFrom, len_append]
  exact h

@[simp] theorem sliceTo_append (s t : String) :
    (sliceTo (s ++ t) (len s) : Outcome ε String) = .ok s := by
  have h := slice_append (ε := ε) "" s t
  simpa only [sliceTo, String.empty_append, len_empty, Nat.zero_add] using h

@[simp] theorem sliceTo_len (s : String) : (sliceTo s (len s) : Outcome ε String) = .ok s := by
  have h := sliceTo_append (ε := ε) s ""
  rwa [String.append_empty] at h

end Slices

/-- An ASCII byte is a character of its own. -/
theorem utf8EncodeChar_of_ascii :
    ∀ c : UInt8, c < 128 → String.utf8EncodeChar (Char.ofUInt8 c) = [c] :=
  forall_byte (by decide)

theorem utf8Encode_of_ascii (l : List UInt8) (h : ∀ c ∈ l, c < 128) :
    (l.map Char.ofUInt8).flatMap String.utf8EncodeChar = l := by
  induction l with
  | nil => rfl
  | cons c l ih =>
    rw [List.map_cons, List.flatMap_cons, utf8EncodeChar_of_ascii c (h c List.mem_cons_self),
      ih fun d hd => h d (List.mem_cons_of_mem c hd)]
    rfl

/-- The string whose bytes are the given ASCII bytes. -/
theorem asBytes_ofList (l : List UInt8) (h : ∀ c ∈ l, c < 128) :
    asBytes (String.ofList (l.map Char.ofUInt8)) = l := by
  rw [asBytes, String.toByteArray_ofList, List.utf8Encode, List.toList_data_toByteArray]
  exact utf8Encode_of_ascii l h

theorem exists_of_ascii (l : List UInt8) (h : ∀ c ∈ l, c < 128) : ∃ s, asBytes s = l :=
  ⟨_, asBytes_ofList l h⟩

/-- What follows an ASCII prefix is a string again. -/
theorem exists_append_of_ascii {s : String} {l r : List UInt8} (hs : asBytes s = l ++ r)
    (h : ∀ c ∈ l, c < 128) : ∃ u v, s = u ++ v ∧ asBytes u = l ∧ asBytes v = r := by
  obtain ⟨u, hu⟩ := exists_of_ascii l h
  have hlen : len u = l.length := by rw [← length_asBytes, hu]
  have hpos : IsCharBoundary s (len u) := by
    refine String.Pos.Raw.isValid_iff_isValidUTF8_extract_zero.mpr ⟨?_, ?_⟩
    · rw [String.Pos.Raw.le_iff, String.byteIdx_rawEndPos, ← len_eq_utf8ByteSize,
        ← length_asBytes s, hs, List.length_append]
      change len u ≤ _
      omega
    · have he : s.toByteArray.extract 0 (len u) = u.toByteArray := by
        refine ByteArray.ext (Array.toList_inj.mp ?_)
        change ((s.toByteArray.extract 0 (len u)).data).toList = asBytes u
        rw [ByteArray.data_extract, Array.toList_extract]
        change (asBytes s).extract 0 (len u) = asBytes u
        simp [hs, hlen, hu, List.extract]
      rw [he]
      exact u.isValidUTF8
  obtain ⟨u', v, huv, hl⟩ := isCharBoundary_iff.mp hpos
  have hb : l ++ r = asBytes u' ++ asBytes v := by rw [← hs, huv, asBytes_append]
  obtain ⟨h1, h2⟩ := List.append_inj hb (by rw [← hlen, hl, length_asBytes])
  exact ⟨u', v, huv, h1.symm, h2.symm⟩

/-- The byte after a left part is the first one of the right part. -/
@[simp] theorem getElem?_append_len (s t : String) :
    (asBytes (s ++ t))[len s]? = (asBytes t).head? := by
  have hle : (asBytes s).length ≤ len s := Nat.le_refl _
  rw [asBytes_append, List.getElem?_append_right hle, length_asBytes, Nat.sub_self,
    List.head?_eq_getElem?]

theorem exists_append_of_head (sep : String) {s : String} {c : UInt8}
    (hs : (asBytes s).head? = some c) (hsep : asBytes sep = [c]) (hc : c < 128) :
    ∃ t, s = sep ++ t := by
  obtain ⟨l, hl⟩ := List.head?_eq_some_iff.mp hs
  obtain ⟨u, v, rfl, hu, -⟩ := exists_append_of_ascii (l := [c]) hl (by simpa using hc)
  exact ⟨v, by rw [asBytes_inj.mp (hu.trans hsep.symm)]⟩

/-- The first `n` bytes exist and are ASCII. -/
def AsciiUpTo (s : String) (n : Nat) : Prop :=
  n ≤ len s ∧ ∀ c ∈ (asBytes s).take n, c < 128

instance (s : String) (n : Nat) : Decidable (AsciiUpTo s n) :=
  @instDecidableAnd _ _ (Nat.decLe _ _) (List.decidableBAll _ _)

theorem AsciiUpTo.mono {s : String} {m n : Nat} (h : AsciiUpTo s n) (hm : m ≤ n) :
    AsciiUpTo s m := by
  constructor
  · exact Nat.le_trans hm h.1
  · intro c hc
    exact h.2 c (List.take_subset_take_left (asBytes s) hm hc)

theorem asciiUpTo_zero (s : String) : AsciiUpTo s 0 := ⟨Nat.zero_le _, by simp⟩

theorem asciiUpTo_of_bytes {s : String} {l r : List UInt8} (hs : asBytes s = l ++ r)
    (h : ∀ c ∈ l, c < 128) : AsciiUpTo s l.length := by
  constructor
  · rw [len, hs, List.length_append]
    exact Nat.le_add_right _ _
  · rw [hs, List.take_left]
    exact h

/-- An offset into the right part, counted from the start of the whole. -/
theorem AsciiUpTo.append {s t : String} {n : Nat} (hs : AsciiUpTo s (len s))
    (ht : AsciiUpTo t n) : AsciiUpTo (s ++ t) (len s + n) := by
  constructor
  · rw [len_append]
    exact Nat.add_le_add_left ht.1 _
  · rw [asBytes_append, len, List.take_length_add_append]
    intro c hc
    rcases List.mem_append.mp hc with hc | hc
    · exact hs.2 c (by rw [len, List.take_length]; exact hc)
    · exact ht.2 c hc

theorem AsciiUpTo.append_right {s : String} {n : Nat} (h : AsciiUpTo s n) (t : String) :
    AsciiUpTo (s ++ t) n := by
  constructor
  · rw [len_append]
    exact Nat.le_add_right_of_le h.1
  · rw [asBytes_append, List.take_append_of_le_length h.1]
    exact h.2

theorem AsciiUpTo.isCharBoundary {s : String} {n : Nat} (h : AsciiUpTo s n) :
    IsCharBoundary s n := by
  obtain ⟨u, v, huv, hu, -⟩ :=
    exists_append_of_ascii (List.take_append_drop n (asBytes s)).symm h.2
  refine isCharBoundary_iff.mpr ⟨u, v, huv, ?_⟩
  rw [len, hu, List.length_take, length_asBytes]
  exact (Nat.min_eq_left h.1).symm

/-- A text of ASCII bytes only. -/
def IsAscii (s : String) : Prop := ∀ c ∈ asBytes s, c < 128

instance (s : String) : Decidable (IsAscii s) :=
  List.decidableBAll _ _

theorem IsAscii.append {s t : String} (hs : IsAscii s) (ht : IsAscii t) : IsAscii (s ++ t) := by
  intro c hc
  rw [asBytes_append] at hc
  rcases List.mem_append.mp hc with hc | hc
  · exact hs c hc
  · exact ht c hc

theorem IsAscii.upTo {s : String} (h : IsAscii s) : AsciiUpTo s (len s) :=
  asciiUpTo_of_bytes (List.append_nil _).symm h

/-- An offset into an ASCII left part. -/
theorem IsAscii.upTo_append {s : String} (h : IsAscii s) {n : Nat} (hn : n ≤ len s)
    (t : String) : AsciiUpTo (s ++ t) n :=
  (h.upTo.append_right t).mono hn

/-- What a scanner leaves: nothing, or bytes that begin with one it stops at. -/
def StopsAt (p : UInt8 → Bool) (rest : List UInt8) : Prop :=
  ∀ c, rest.head? = some c → p c = true

@[simp] theorem stopsAt_nil (p : UInt8 → Bool) : StopsAt p [] := by
  intro c h
  cases h

@[simp] theorem stopsAt_cons {p : UInt8 → Bool} {c : UInt8} {rest : List UInt8} :
    StopsAt p (c :: rest) ↔ p c = true := by
  simp [StopsAt]

theorem stopsAt_of_head? {p : UInt8 → Bool} {rest : List UInt8} {c : UInt8}
    (h : rest.head? = some c) (hc : p c = true) : StopsAt p rest := by
  intro d hd
  cases h.symm.trans hd
  exact hc

theorem stopsAt_of_head?_none {p : UInt8 → Bool} {rest : List UInt8} (h : rest.head? = none) :
    StopsAt p rest := by
  rw [List.head?_eq_none_iff.mp h]
  exact stopsAt_nil p

theorem stopsAt_sep {p : UInt8 → Bool} {c : UInt8} (sep : String) (hsep : asBytes sep = [c])
    (hc : p c = true) (t : String) : StopsAt p (asBytes (sep ++ t)) :=
  stopsAt_of_head? (head?_sep sep hsep t) hc

theorem append_sep_ne_empty {c : UInt8} (sep : String) (hsep : asBytes sep = [c]) (u v : String) :
    u ++ (sep ++ v) ≠ "" := by
  intro hnil
  have hbytes := congrArg asBytes hnil
  rw [asBytes_append, asBytes_append, hsep] at hbytes
  simp at hbytes

theorem StopsAt.eq_empty {p : UInt8 → Bool} {rest : String} (h : StopsAt p (asBytes rest))
    (hnone : ∀ c ∈ asBytes rest, p c = false) : rest = "" := by
  cases hhead : (asBytes rest).head? with
  | none => exact head?_eq_none.mp hhead
  | some c =>
    have hc := hnone c (List.mem_of_mem_head? hhead)
    rw [h c hhead] at hc
    cases hc

theorem StopsAt.mono {p q : UInt8 → Bool} {rest : List UInt8} (h : StopsAt p rest)
    (hpq : ∀ c, p c = true → q c = true) : StopsAt q rest :=
  fun c hc => hpq c (h c hc)

/-- The part of `l` before the first byte that satisfies `p`, or all of it. -/
def before (p : UInt8 → Bool) (l : List UInt8) : List UInt8 := l.takeWhile fun c => !p c

theorem eq_false_of_mem_before {p : UInt8 → Bool} {l : List UInt8} {c : UInt8}
    (h : c ∈ before p l) : p c = false := by
  simpa using List.mem_takeWhile_imp h

theorem before_append {p : UInt8 → Bool} {u rest : List UInt8} (hu : ∀ c ∈ u, p c = false)
    (hrest : StopsAt p rest) : before p (u ++ rest) = u := by
  have hall : ∀ c ∈ u, (!p c) = true := by
    intro c hc
    rw [hu c hc]
    rfl
  rw [before, List.takeWhile_append_of_pos hall]
  cases rest with
  | nil => exact List.append_nil u
  | cons c rest => simp [stopsAt_cons.mp hrest]

/-- A list goes on after that part with a byte that satisfies `p`, or ends there. -/
theorem exists_before (p : UInt8 → Bool) (l : List UInt8) :
    ∃ rest, l = before p l ++ rest ∧ StopsAt p rest := by
  refine ⟨l.dropWhile fun c => !p c, List.takeWhile_append_dropWhile.symm, fun c hc => ?_⟩
  have hhead := List.head?_dropWhile_not (fun c => !p c) l
  rw [hc] at hhead
  simpa using hhead

/-- A string is cut there if that part is ASCII. -/
theorem exists_append_before {p : UInt8 → Bool} {s : String}
    (h : ∀ c ∈ before p (asBytes s), c < 128) :
    ∃ u rest, s = u ++ rest ∧ asBytes u = before p (asBytes s) ∧ StopsAt p (asBytes rest) := by
  obtain ⟨r, hr, hstop⟩ := exists_before p (asBytes s)
  obtain ⟨u, rest, hs, hu, rfl⟩ := exists_append_of_ascii hr h
  exact ⟨u, rest, hs, hu, hstop⟩

/-- Two tests that agree on the elements of a list find the same one first. -/
theorem findIdx?_congr {α : Type} {p q : α → Bool} {l : List α} (h : ∀ c ∈ l, p c = q c) :
    l.findIdx? p = l.findIdx? q := by
  induction l with
  | nil => rfl
  | cons c l ih =>
    rw [List.findIdx?_cons, List.findIdx?_cons, h c List.mem_cons_self,
      ih fun d hd => h d (List.mem_cons_of_mem c hd)]

/-- The byte literal of an ASCII character. -/
abbrev byte (c : Char) : UInt8 := c.toUInt8

def isDigit (c : UInt8) : Bool := byte '0' ≤ c && c ≤ byte '9'

def isLower (c : UInt8) : Bool := byte 'a' ≤ c && c ≤ byte 'z'

def isUpper (c : UInt8) : Bool := byte 'A' ≤ c && c ≤ byte 'Z'

def isAlnum (c : UInt8) : Bool := isLower c || isUpper c || isDigit c

theorem ascii_of_isAlnum : ∀ c : UInt8, isAlnum c = true → c < 128 :=
  forall_byte (by decide)

end ByteString
