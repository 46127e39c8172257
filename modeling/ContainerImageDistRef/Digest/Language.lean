import ContainerImageDistRef.Digest.Compliance

/-!
# The digest language

What the digest parser accepts, said of the whole text. The parser narrows its
compliance from component to component, so the order of the components counts
in one place only: behind the first component that begins with a digit no
uppercase letter may follow. Everything else is a condition on the set of the
components and on the encoded value, and so is the compliance it returns.
-/

namespace ContainerImageDistRef

open ByteString Digest

namespace Algorithm

def beginsWith (p : UInt8 → Bool) (x : List UInt8) : Bool := x.head?.any p

/-- The components from the first one on that begins with a digit. -/
def fromDigit (xs : List (List UInt8)) : List (List UInt8) :=
  xs.dropWhile fun x => !beginsWith isDigit x

/-- What the components satisfy where they are read under the compliance `c`. -/
structure Admitted (c : Compliance) (xs : List (List UInt8)) : Prop where
  alnum : ∀ x ∈ xs, x ≠ [] ∧ ∀ b ∈ x, isAlnum b = true
  unmixed : ¬(SomeStart isUpper xs ∧ SomeStart isDigit xs)
  lower : ∀ x ∈ fromDigit xs, ∀ b ∈ x, isUpper b = false
  oci : c = .oci → ∀ x ∈ xs, ∀ b ∈ x, isUpper b = false
  distribution : c = .distribution → ¬SomeStart isDigit xs

theorem fromDigit_cons (x : List UInt8) (xs : List (List UInt8)) :
    fromDigit (x :: xs) = if beginsWith isDigit x = true then x :: xs else fromDigit xs := by
  rw [fromDigit, List.dropWhile_cons]
  cases beginsWith isDigit x <;> rfl

theorem mem_of_mem_fromDigit {xs : List (List UInt8)} {x : List UInt8}
    (h : x ∈ fromDigit xs) : x ∈ xs :=
  (List.dropWhile_sublist _).subset h

theorem someStart_of_lower {xs : List (List UInt8)}
    (h : ∀ x ∈ xs, ∀ b ∈ x, isUpper b = false) : ¬SomeStart isUpper xs := by
  rintro ⟨x, hx, hany⟩
  obtain ⟨b, hb, hupper⟩ := (Option.any_eq_true _ _).mp hany
  exact absurd hupper (by simp [h x hx b (List.mem_of_mem_head? hb)])

section Step

variable {c c' : Compliance} {x : List UInt8} {xs : List (List UInt8)}

theorem Component.admitted_cons (hx : Component c c' x) (h : Admitted c' xs) :
    Admitted c (x :: xs) := by
  obtain ⟨hdist, hoci⟩ := hx.compliance
  have hlower : c' = .oci → ∀ b ∈ x, isUpper b = false := by
    have hfirst : ∀ d, firstCompliance c d = .ok .oci → isUpper d = false := by
      cases c <;> exact forall_byte (by decide)
    have hcheck : ∀ e, checkByte .oci e = .ok () → isUpper e = false := forall_byte (by decide)
    obtain ⟨d, w, rfl, hd, hw⟩ := hx
    rintro rfl b hb
    rcases List.mem_cons.mp hb with rfl | hb
    · exact hfirst b hd
    · exact hcheck b (hw b hb)
  have hall : c' = .oci → ∀ y ∈ x :: xs, ∀ b ∈ y, isUpper b = false := by
    intro hc y hy
    rcases List.mem_cons.mp hy with rfl | hy
    · exact hlower hc
    · exact h.oci hc y hy
  constructor
  · intro y hy
    rcases List.mem_cons.mp hy with rfl | hy
    · obtain ⟨d, w, rfl, -⟩ := id hx
      exact ⟨List.cons_ne_nil d w, hx.alnum⟩
    · exact h.alnum y hy
  · rintro ⟨hupper, hdigit⟩
    rcases someStart_cons.mp hdigit with hd | hd
    · exact someStart_of_lower (hall (hoci.mpr (Or.inr hd))) hupper
    · rcases someStart_cons.mp hupper with hu | hu
      · exact h.distribution (hdist.mpr (Or.inr hu)) hd
      · exact h.unmixed ⟨hu, hd⟩
  · intro y hy
    rw [fromDigit_cons] at hy
    by_cases hd : beginsWith isDigit x = true
    · rw [if_pos hd] at hy
      exact hall (hoci.mpr (Or.inr hd)) y hy
    · rw [if_neg hd] at hy
      exact h.lower y hy
  · intro hc
    exact hall (hoci.mpr (Or.inl hc))
  · intro hc hdigit
    rcases someStart_cons.mp hdigit with hd | hd
    · cases (hoci.mpr (Or.inr hd)).symm.trans (hdist.mpr (Or.inl hc))
    · exact h.distribution (hdist.mpr (Or.inl hc)) hd

/-- The first component of an admitted list can be read, and the rest stays admitted. -/
theorem Admitted.exists_component (h : Admitted c (x :: xs)) :
    ∃ c', Component c c' x ∧ Admitted c' xs := by
  have hfirst : ∀ d, isAlnum d = true → (c = .oci → isUpper d = false) →
      (c = .distribution → isDigit d = false) → ∃ c', firstCompliance c d = .ok c' := by
    intro d
    have hdecide : ∀ d, isAlnum d = true → (c = .oci → isUpper d = false) →
        (c = .distribution → isDigit d = false) → (firstCompliance c d).Succeeds := by
      cases c <;> exact forall_byte (by decide)
    exact hdecide d
  have hcheck : ∀ (c' : Compliance) e, isAlnum e = true → (c' = .oci → isUpper e = false) →
      checkByte c' e = .ok () := by
    intro c'
    cases c' <;> exact forall_byte (by decide)
  obtain ⟨hne, halnum⟩ := h.alnum x List.mem_cons_self
  cases x with
  | nil => exact absurd rfl hne
  | cons d w =>
    have hd : d ∈ d :: w := List.mem_cons_self
    have hdigit : c = .distribution → isDigit d = false := by
      intro hc
      rw [← Bool.not_eq_true]
      intro hd
      exact h.distribution hc (someStart_cons.mpr (Or.inl hd))
    obtain ⟨c', hc'⟩ := hfirst d (halnum d hd)
      (fun hc => h.oci hc _ List.mem_cons_self d hd) hdigit
    have hcompliance := Component.compliance (x := [d]) ⟨d, [], rfl, hc', by simp⟩
    have hlower : c' = .oci → ∀ y ∈ (d :: w) :: xs, ∀ b ∈ y, isUpper b = false := by
      intro hoci
      rcases hcompliance.2.mp hoci with hc | hd
      · exact h.oci hc
      · have hfrom := h.lower
        rwa [fromDigit_cons, if_pos (show beginsWith isDigit (d :: w) = true from hd)] at hfrom
    refine ⟨c', ⟨d, w, rfl, hc', fun e he => hcheck c' e (halnum e (by simp [he]))
      fun hoci => hlower hoci _ List.mem_cons_self e (by simp [he])⟩, ?_⟩
    constructor
    · intro y hy
      exact h.alnum y (List.mem_cons_of_mem _ hy)
    · rintro ⟨hu, hd⟩
      exact h.unmixed ⟨someStart_cons.mpr (Or.inr hu), someStart_cons.mpr (Or.inr hd)⟩
    · intro y hy
      by_cases hd : beginsWith isDigit (d :: w) = true
      · exact hlower (hcompliance.2.mpr (Or.inr hd)) y
          (List.mem_cons_of_mem _ (mem_of_mem_fromDigit hy))
      · have hfrom := h.lower
        rw [fromDigit_cons, if_neg hd] at hfrom
        exact hfrom y hy
    · intro hoci y hy
      exact hlower hoci y (List.mem_cons_of_mem _ hy)
    · intro hdist hdigit
      have hsome : SomeStart isDigit ((d :: w) :: xs) := someStart_cons.mpr (Or.inr hdigit)
      rcases hcompliance.1.mp hdist with hc | hu
      · exact h.distribution hc hsome
      · exact h.unmixed ⟨someStart_cons.mpr (Or.inl hu), hsome⟩

end Step

/-- Reading the components in order succeeds on the admitted lists. -/
theorem exists_threads_iff (c : Compliance) (xs : List (List UInt8)) :
    (∃ c', Threads c xs c') ↔ Admitted c xs := by
  constructor
  · rintro ⟨c', h⟩
    induction h with
    | nil c => constructor <;> simp [SomeStart, fromDigit]
    | cons hx _ ih => exact hx.admitted_cons ih
  · intro h
    induction xs generalizing c with
    | nil => exact ⟨c, .nil c⟩
    | cons x xs ih =>
      obtain ⟨c', hx, hxs⟩ := h.exists_component
      obtain ⟨c'', hthreads⟩ := ih c' hxs
      exact ⟨c'', .cons hx hthreads⟩

/-- The text of an algorithm. -/
structure AlgorithmText (w : List UInt8) : Prop where
  alnum : ∀ x ∈ components w, x ≠ [] ∧ ∀ b ∈ x, isAlnum b = true
  unmixed : ¬(SomeStart isUpper (components w) ∧ SomeStart isDigit (components w))
  lower : ∀ x ∈ fromDigit (components w), ∀ b ∈ x, isUpper b = false

theorem algorithmText_iff {w : List UInt8} :
    AlgorithmText w ↔ ∃ c, Threads .universal (components w) c := by
  rw [exists_threads_iff]
  constructor
  · intro h
    constructor
    · exact h.alnum
    · exact h.unmixed
    · exact h.lower
    · intro hc
      cases hc
    · intro hc
      cases hc
  · intro h
    exact ⟨h.alnum, h.unmixed, h.lower⟩

section Parts

/-- The parts are the components, as texts. -/
theorem map_parts {a : String} (h : AlgorithmText (asBytes a)) :
    (parts ⟨a⟩).map asBytes = components (asBytes a) := by
  have hascii : ∀ x ∈ components (asBytes a), ∀ b ∈ x, b < 128 := fun x hx b hb =>
    ascii_of_isAlnum b ((h.alnum x hx).2 b hb)
  have hchar : ∀ b ∈ asBytes a, b < 128 := by
    obtain ⟨c, hc⟩ := algorithmText_iff.mp h
    exact fun b hb => (hc.ascii b hb).1
  have htext : a.toList = (asBytes a).map Char.ofUInt8 := by
    rw [← String.toList_ofList (l := (asBytes a).map Char.ofUInt8)]
    exact congrArg String.toList (asBytes_inj.mp (asBytes_ofList _ hchar)).symm
  have hsep : ∀ b : UInt8, isSeparator (Char.ofUInt8 b).toUInt8 = isSeparator b :=
    forall_byte (by decide)
  rw [parts, toStr, String.toList_split_bool, htext, SeparatedList.splitOnP_map]
  simp only [hsep, List.map_map]
  have hback : ∀ x ∈ components (asBytes a),
      (asBytes ∘ String.ofList ∘ List.map Char.ofUInt8) x = x :=
    fun x hx => asBytes_ofList x (hascii x hx)
  exact (List.map_congr_left hback).trans (List.map_id' _)

theorem mem_parts {a x : String} (h : AlgorithmText (asBytes a)) (hx : x ∈ parts ⟨a⟩) :
    asBytes x ∈ components (asBytes a) := by
  rw [← map_parts h]
  exact List.mem_map_of_mem hx

theorem someStart_parts {a : String} (h : AlgorithmText (asBytes a)) (p : UInt8 → Bool) :
    SomeStart p (components (asBytes a)) ↔ ∃ x ∈ parts ⟨a⟩, beginsWith p (asBytes x) = true := by
  rw [← map_parts h, SomeStart]
  simp [beginsWith]

theorem mem_fromDigit {xs : List (List UInt8)} {x : List UInt8} (hx : x ∈ xs)
    (hdigit : beginsWith isDigit x = true) : x ∈ fromDigit xs := by
  induction xs with
  | nil => exact absurd hx (List.not_mem_nil)
  | cons y xs ih =>
    rw [fromDigit_cons]
    split
    · exact hx
    · rename_i hy
      rcases List.mem_cons.mp hx with rfl | hx
      · exact absurd hdigit hy
      · exact ih hx

/-- A part of an algorithm is an algorithm. -/
theorem AlgorithmText.part {w x : List UInt8} (h : AlgorithmText w) (hx : x ∈ components w) :
    AlgorithmText x := by
  have hplain : ∀ c, isAlnum c = true → isSeparator c = false := forall_byte (by decide)
  have hone : components x = [x] :=
    List.splitOnP_eq_singleton fun b hb => hplain b ((h.alnum x hx).2 b hb)
  constructor
  · rw [hone]
    simpa using h.alnum x hx
  · have hclass : ∀ c, ¬(isUpper c = true ∧ isDigit c = true) := forall_byte (by decide)
    rw [hone]
    simp only [SomeStart, List.mem_singleton, exists_eq_left]
    rintro ⟨hupper, hdigit⟩
    cases x with
    | nil => cases hupper
    | cons b x => exact hclass b ⟨hupper, hdigit⟩
  · rw [hone]
    intro y hy
    obtain rfl : y = x := List.mem_singleton.mp (mem_of_mem_fromDigit hy)
    have hdigit : beginsWith isDigit y = true := by
      rw [fromDigit_cons] at hy
      split at hy
      · assumption
      · cases hy
    exact h.lower y (mem_fromDigit hx hdigit)

/-- What is matched exactly. -/
theorem fromExactMatch_eq_ok {src : String} {a : Algorithm} {c : Compliance} :
    fromExactMatch src = .ok (a, c) ↔
      Threads .universal (components (asBytes src)) c ∧ len src ≤ maxU8 ∧ a = ⟨src⟩ := by
  constructor
  · intro h
    obtain ⟨⟨span, c'⟩, hexact, hend⟩ := Outcome.bind_eq_ok.mp h
    obtain ⟨⟨span', c''⟩, hnew, hfull⟩ := Outcome.bind_eq_ok.mp hexact
    obtain ⟨a', rest, rfl, hthreads, hlen, -⟩ := (AlgorithmSpan.new_sat _).of_ok hnew
    dsimp only at hfull hthreads hlen
    split at hfull
    · rename_i hall
      cases hfull
      have hrest : rest = "" := by
        rw [← len_eq_zero]
        rw [len_append] at hall
        omega
      subst hrest
      rw [String.append_empty] at hend ⊢
      dsimp only at hend
      rw [fromSpan, hlen, sliceTo_len, Outcome.ok_bind, Outcome.ok_bind] at hend
      cases hend
      exact ⟨hthreads, hlen ▸ span.length.le, rfl⟩
    · cases hfull
  · rintro ⟨hthreads, hlen, rfl⟩
    obtain ⟨span, hspan, hspanlen⟩ := AlgorithmSpan.new_ok "" hthreads hlen (stopsAt_nil _)
    rw [String.append_empty] at hspan
    rw [fromExactMatch, AlgorithmSpan.fromExactMatch, hspan, Outcome.ok_bind]
    dsimp only
    rw [if_pos hspanlen, Outcome.ok_bind]
    dsimp only
    rw [fromSpan, hspanlen, sliceTo_len, Outcome.ok_bind, Outcome.ok_bind]

/-- What is matched exactly, and its parts. -/
theorem exact_match_parts (src : String) :
    ((fromExactMatch src).Succeeds ↔ AlgorithmText (asBytes src) ∧ len src ≤ maxU8) ∧
      ∀ a c, fromExactMatch src = .ok (a, c) →
        a.toStr = src ∧ a.parts.map asBytes = components (asBytes src) ∧
          (∀ x ∈ a.parts, (fromExactMatch x).Succeeds) ∧
          (c = .distribution ↔ ∃ x ∈ a.parts, beginsWith isUpper (asBytes x) = true) ∧
          (c = .oci ↔ ∃ x ∈ a.parts, beginsWith isDigit (asBytes x) = true) := by
  have hsucceeds : ∀ src, (fromExactMatch src).Succeeds ↔
      AlgorithmText (asBytes src) ∧ len src ≤ maxU8 := by
    intro src
    rw [algorithmText_iff]
    constructor
    · rintro ⟨⟨a, c⟩, h⟩
      obtain ⟨hthreads, hlen, -⟩ := fromExactMatch_eq_ok.mp h
      exact ⟨⟨c, hthreads⟩, hlen⟩
    · rintro ⟨⟨c, hthreads⟩, hlen⟩
      exact ⟨(⟨src⟩, c), fromExactMatch_eq_ok.mpr ⟨hthreads, hlen, rfl⟩⟩
  refine ⟨hsucceeds src, ?_⟩
  intro a c h
  obtain ⟨hthreads, hlen, rfl⟩ := fromExactMatch_eq_ok.mp h
  have htext : AlgorithmText (asBytes src) := algorithmText_iff.mpr ⟨c, hthreads⟩
  refine ⟨rfl, map_parts htext, ?_, ?_, ?_⟩
  · intro x hx
    have hmem := mem_parts htext hx
    have hle : len x ≤ len src := (SeparatedList.infix_of_mem_splitOnP hmem).length_le
    exact (hsucceeds x).mpr ⟨htext.part hmem, hle.trans hlen⟩
  · rw [← someStart_parts htext]
    simpa using hthreads.compliance.1
  · rw [← someStart_parts htext]
    simpa using hthreads.compliance.2

end Parts

end Algorithm

namespace Digest

open Algorithm Encoded DigestSpan

/-- The texts of a digest's two parts. -/
structure DigestText (a e : String) : Prop where
  algorithm : AlgorithmText (asBytes a)
  algorithm_le : len a ≤ 255
  encoded : asBytes e ∈ Grammar.Oci.encoded
  encoded_le : len e ≤ 1024
  upper : SomeStart isUpper (components (asBytes a)) → asBytes e ∈ Grammar.Distribution.encoded
  registered : Registered a e

/-- The compliance of a digest, read off its text. -/
def complianceOf (a e : String) : Compliance :=
  if SomeStart isUpper (components (asBytes a)) then .distribution
  else if SomeStart isDigit (components (asBytes a)) ∨ ¬(asBytes e).all isHex = true then .oci
  else .universal

theorem complianceOf_eq {a e : String} {span : DigestSpan} (h : Spans a e span) :
    span.compliance = complianceOf a e := by
  obtain ⟨c, hthreads, htext⟩ := h.components
  have hdist : c = .distribution ↔ SomeStart isUpper (components (asBytes a)) := by
    simpa using hthreads.compliance.1
  have hoci : c = .oci ↔ SomeStart isDigit (components (asBytes a)) := by
    simpa using hthreads.compliance.2
  simp only [htext.compliance, complianceOf, ← hdist, ← hoci]
  by_cases hall : (asBytes e).all isHex = true
  · rw [if_pos hall]
    cases c <;> simp [hall]
  · have hnot : c ≠ .distribution := fun hc => hall (List.all_eq_true.mpr (htext.hex hc))
    rw [if_neg hall, if_neg hnot, if_pos (Or.inr hall)]

theorem text_of_spans {a e : String} {span : DigestSpan} (h : Spans a e span) : DigestText a e := by
  obtain ⟨c, hthreads, htext⟩ := h.components
  have hne : asBytes e ≠ [] := by
    intro hnil
    have hpos := span.encoded.length.pos
    rw [h.encoded, ByteString.len, hnil] at hpos
    exact absurd hpos (by decide)
  exact {
    algorithm := algorithmText_iff.mpr ⟨c, hthreads⟩
    algorithm_le := h.algorithm ▸ span.algorithm.length.le
    encoded := mem_ociEncoded.mpr ⟨hne, htext.bytes⟩
    encoded_le := h.max
    upper := fun hupper => mem_distributionEncoded.mpr ⟨(h.upper hupper).2.2, (h.upper hupper).2.1⟩
    registered := h.registered }

theorem DigestText.exists_spans {a e : String} (h : DigestText a e) :
    ∃ span, DigestSpan.new (DigestSpan.text a e) = .ok span ∧ Spans a e span := by
  obtain ⟨c, hthreads⟩ := algorithmText_iff.mp h.algorithm
  obtain ⟨hne, hbytes⟩ := mem_ociEncoded.mp h.encoded
  have hdist : c = .distribution → asBytes e ∈ Grammar.Distribution.encoded := by
    intro hc
    exact h.upper (by simpa [hc] using hthreads.compliance.1)
  have hhex : c = .distribution → ∀ b ∈ asBytes e, isHex b = true := fun hc =>
    (mem_distributionEncoded.mp (hdist hc)).2
  have htext : EncodedText c (asBytes e) (if (asBytes e).all isHex then c else .oci) :=
    ⟨hbytes, rfl, hhex⟩
  obtain ⟨span, hspan, -⟩ := DigestSpan.new_ok hthreads h.algorithm_le htext
    (List.length_pos_iff.mpr hne) h.encoded_le h.registered fun hc => by
      split at hc
      · exact (mem_distributionEncoded.mp (hdist hc)).1
      · cases hc
  exact ⟨span, hspan, spans_of_new hspan fun hcolon => (hthreads.ascii _ hcolon).2 rfl⟩

theorem DigestText.exists_digest {a e : String} (h : DigestText a e) :
    ∃ d, Digest.new (a ++ ":" ++ e) = .ok d ∧ d.toStr = a ++ ":" ++ e ∧
      d.algorithm (ε := Empty) = .ok ⟨a⟩ ∧ d.encoded (ε := Empty) = .ok ⟨e⟩ ∧
      d.compliance = complianceOf a e := by
  obtain ⟨span, hspan, hspans⟩ := h.exists_spans
  exact ⟨_, new_eq_ok.mpr ⟨span, hspan, rfl⟩, rfl, algorithm_eq hspans, encoded_eq hspans,
    complianceOf_eq hspans⟩

/-- The digests that are accepted, and what is returned for them. -/
theorem accepted_iff (src : String) :
    ((Digest.new src).Succeeds ↔ ∃ a e, src = a ++ ":" ++ e ∧ DigestText a e) ∧
      ∀ a e, DigestText a e → ∃ d, Digest.new (a ++ ":" ++ e) = .ok d ∧
        d.toStr = a ++ ":" ++ e ∧ d.algorithm (ε := Empty) = .ok ⟨a⟩ ∧
        d.encoded (ε := Empty) = .ok ⟨e⟩ ∧ d.compliance = complianceOf a e := by
  constructor
  · constructor
    · rintro ⟨d, hd⟩
      obtain ⟨span, hspan, rfl⟩ := new_eq_ok.mp hd
      obtain ⟨a, e, rfl, hspans⟩ := (DigestSpan.new_sat src).of_ok hspan
      exact ⟨a, e, rfl, text_of_spans hspans⟩
    · rintro ⟨a, e, rfl, h⟩
      obtain ⟨d, hd, -⟩ := h.exists_digest
      exact ⟨d, hd⟩
  · intro a e h
    exact h.exists_digest

end Digest

end ContainerImageDistRef
