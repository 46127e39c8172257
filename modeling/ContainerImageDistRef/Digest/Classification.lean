import ContainerImageDistRef.Digest.Compliance

/-!
# The two classifications of an algorithm

The parser narrows the compliance at the first byte of each component and at
no other byte. The accessor classifies the text again, byte by byte, without
separators in mind. Where the two are what the grammars say, and where they
agree with each other, is decided by the uppercase letters of the text.
-/

namespace ContainerImageDistRef

open ByteString Grammar SeparatedList

universe u

namespace Algorithm

open Digest

/-- The bytes that `Algorithm::new` can read: up to a colon, and no more than a u8 counts. -/
def readable (src : String) : List UInt8 :=
  ((asBytes src).take maxU8).takeWhile (· != byte ':')

theorem readable_append {a rest : String} (ha : ∀ b ∈ asBytes a, b ≠ byte ':')
    (hlen : len a ≤ maxU8) (hend : len a = maxU8 ∨ StopsAt AlgorithmSpan.isEnd (asBytes rest)) :
    readable (a ++ rest) = asBytes a := by
  have hall : ∀ b ∈ asBytes a, (b != byte ':') = true := fun b hb => bne_iff_ne.mpr (ha b hb)
  have hrest : ((asBytes rest).take (maxU8 - len a)).takeWhile (· != byte ':') = [] := by
    rcases hend with hfull | hstop
    · rw [hfull, Nat.sub_self]
      rfl
    · cases hbytes : asBytes rest with
      | nil => simp
      | cons b bytes =>
        rw [hbytes, stopsAt_cons, AlgorithmSpan.isEnd, beq_iff_eq] at hstop
        cases maxU8 - len a with
        | zero => rfl
        | succ n => simp [hstop]
  rw [readable, asBytes_append, List.take_append, length_asBytes,
    List.take_of_length_le (by rwa [length_asBytes]), List.takeWhile_append_of_pos hall, hrest,
    List.append_nil]

/-- What an accepted algorithm is. -/
theorem threads_of_new {src : String} {a : Algorithm} {c : Compliance}
    (h : new src = .ok (a, c)) :
    asBytes a.src = readable src ∧ Threads .universal (components (readable src)) c := by
  obtain ⟨rest, rfl, hthreads, hlen, hend⟩ := new_eq_ok h
  rw [readable_append (fun b hb => (hthreads.ascii b hb).2) hlen hend.full]
  exact ⟨rfl, hthreads⟩

/-- The compliance is what the two grammars say of the algorithm, and no component that only
one standard allows stands beside one that only the other allows. -/
structure Classified (w : List UInt8) (c : Compliance) : Prop where
  oci : c.compliantWith .oci = true ↔ w ∈ Grammar.algorithm Oci.component
  distribution : c.compliantWith .distribution = true ↔
    w ∈ Grammar.algorithm Distribution.component
  unmixed : ¬((∃ x ∈ components w, x ∈ Oci.component ∧ x ∉ Distribution.component) ∧
    ∃ x ∈ components w, x ∈ Distribution.component ∧ x ∉ Oci.component)

/-- An uppercase letter comes with a component that begins with one. -/
def LettersFirst (w : List UInt8) : Prop :=
  (∃ x ∈ components w, ∃ b ∈ x, isUpper b = true) → SomeStart isUpper (components w)

/-- A component that only the OCI grammar allows begins with a digit. -/
theorem digit_of_oci_only {x : List UInt8} (hoci : x ∈ Oci.component)
    (hdist : x ∉ Distribution.component) : x.head?.any isDigit = true := by
  have hbyte : ∀ b, isLowerAlnum b = true → ¬isDigit b = true →
      (isUpper b || isLower b) = true := forall_byte (by decide)
  obtain ⟨hne, hall⟩ := mem_ociComponent.mp hoci
  cases x with
  | nil => exact absurd rfl hne
  | cons d v =>
    by_contra hdigit
    apply hdist
    refine mem_distributionComponent.mpr ⟨d, v, rfl, hbyte d (hall d (by simp)) hdigit, ?_⟩
    intro b hb
    exact isAlnum_of_isLowerAlnum b (hall b (List.mem_cons_of_mem d hb))

/-- A component that only the distribution grammar allows has an uppercase letter. -/
theorem upper_of_distribution_only {x : List UInt8} (hdist : x ∈ Distribution.component)
    (hoci : x ∉ Oci.component) : ∃ b ∈ x, isUpper b = true := by
  have hbyte : ∀ b, isAlnum b = true → ¬isUpper b = true → isLowerAlnum b = true :=
    forall_byte (by decide)
  by_contra hnone
  apply hoci
  refine mem_ociComponent.mpr ⟨?_, fun b hb => ?_⟩
  · obtain ⟨d, v, rfl, -⟩ := mem_distributionComponent.mp hdist
    exact List.cons_ne_nil d v
  · exact hbyte b (@alnum_of_mem_component .distribution x hdist b hb)
      fun hupper => hnone ⟨b, hb, hupper⟩

theorem classified_of_threads {w : List UInt8} {c : Compliance}
    (h : Threads .universal (components w) c) : Classified w c ↔ LettersFirst w := by
  have hmemOci : w ∈ Grammar.algorithm Oci.component ↔
      ¬∃ x ∈ components w, ∃ b ∈ x, isUpper b = true := h.mem_oci
  constructor
  · rintro hclass hletter
    by_contra hnone
    exact hmemOci.mp (hclass.oci.mp (h.oci_iff.mpr hnone)) hletter
  · intro hfirst
    refine ⟨?_, ?_, ?_⟩
    · rw [h.oci_iff, hmemOci]
      exact not_congr ⟨someStart_upper, hfirst⟩
    · rw [h.distribution_iff]
      exact h.mem_distribution.symm
    · rintro ⟨⟨x, hx, hxo, hxd⟩, y, hy, hyd, hyo⟩
      have hdigit : SomeStart isDigit (components w) := ⟨x, hx, digit_of_oci_only hxo hxd⟩
      have hupper : SomeStart isUpper (components w) :=
        hfirst ⟨y, hy, upper_of_distribution_only hyd hyo⟩
      have hoci : c = .oci := h.compliance.2.mpr (Or.inr hdigit)
      have hdist : c = .distribution := h.compliance.1.mpr (Or.inr hupper)
      rw [hoci] at hdist
      cases hdist

/-- The parsed compliance is what the grammars say unless an uppercase letter stands in the
text and no component begins with one: later letters narrow nothing. -/
theorem classified_iff {src : String} {a : Algorithm} {c : Compliance}
    (h : new src = .ok (a, c)) : Classified (asBytes a.src) c ↔ LettersFirst (readable src) := by
  obtain ⟨hread, hthreads⟩ := threads_of_new h
  rw [hread]
  exact classified_of_threads hthreads

theorem classified_iff_components :
    new "a+B1:00" = .ok (⟨"a+B1"⟩, .distribution) ∧ Classified (asBytes "a+B1") .distribution := by
  have h : new "a+B1:00" = .ok (⟨"a+B1"⟩, .distribution) := by decide +kernel
  have hread : components (readable "a+B1:00") = [asBytes "a", asBytes "B1"] := by decide +kernel
  have hfirst : SomeStart isUpper (components (readable "a+B1:00")) := by
    rw [hread]
    exact ⟨asBytes "B1", by decide, by decide⟩
  exact ⟨h, (classified_iff h).mpr fun _ => hfirst⟩

/-- A letter inside a component is uppercase, and the OCI grammar has been kept. -/
theorem not_classified :
    new "aB" = .ok (⟨"aB"⟩, .universal) ∧ ¬Classified (asBytes "aB") .universal := by
  have h : new "aB" = .ok (⟨"aB"⟩, .universal) := by decide +kernel
  obtain ⟨hread, hthreads⟩ := threads_of_new h
  refine ⟨h, fun hclass => ?_⟩
  rw [← hread] at hthreads
  exact hthreads.mem_oci.mp (hclass.oci.mp rfl)
    ⟨asBytes "aB", by decide, byte 'B', by decide, by decide⟩

/-- The bytes before the first separator. -/
def firstComponent (w : List UInt8) : List UInt8 := w.takeWhile fun b => !isSeparator b

theorem firstComponent_append {c c' d : Compliance} {x u : List UInt8} (hx : Component c c' x)
    (hu : Continues c' u d) : firstComponent (x ++ u) = x := by
  have hall : ∀ b ∈ x, (!isSeparator b) = true := fun b hb => by
    rw [hx.noSeparator b hb]
    rfl
  rw [firstComponent, List.takeWhile_append_of_pos hall]
  rcases hu with ⟨rfl, -⟩ | ⟨s, v, rfl, hs, -⟩
  · exact List.append_nil x
  · simp [hs]

/-- The loop returns at the first uppercase letter of a component, or reads all of it. -/
theorem complianceLoop_append {ε : Type u} {v : List UInt8} (hv : ∀ b ∈ v, isAlnum b = true)
    (u : List UInt8) : (complianceLoop (v ++ u) : Outcome ε Compliance) =
      if v.any isUpper = true then .ok .distribution else complianceLoop u := by
  have hbyte : ∀ b, isAlnum b = true → (isLower b || isDigit b) = !isUpper b :=
    forall_byte (by decide)
  induction v with
  | nil => rfl
  | cons b v ih =>
    rw [List.cons_append, complianceLoop, hbyte b (hv b (by simp)), List.any_cons,
      ih fun e he => hv e (List.mem_cons_of_mem b he)]
    cases isUpper b <;> rfl

/-- The loop takes no separator into account. -/
theorem complianceLoop_continues {ε : Type u} {c c' : Compliance} {u : List UInt8}
    (h : Continues c u c') : (complianceLoop u : Outcome ε Compliance) =
      if u.any isSeparator = true then .panic .unreachable else .ok .universal := by
  have hbyte : ∀ s, isSeparator s = true →
      (isLower s || isDigit s) = false ∧ isUpper s = false := forall_byte (by decide)
  rcases h with ⟨rfl, -⟩ | ⟨s, w, rfl, hs, -⟩
  · rfl
  · obtain ⟨hlower, hupper⟩ := hbyte s hs
    rw [complianceLoop, hlower, hupper, List.any_cons, hs]
    rfl

/-- What the accessor returns for an accepted algorithm. -/
theorem compliance_eq {ε : Type u} {a : Algorithm} {c : Compliance}
    (h : Threads .universal (components (asBytes a.src)) c) :
    (a.compliance : Outcome ε Compliance) =
      if (asBytes a.src).head?.any isDigit = true then .ok .oci
      else if (firstComponent (asBytes a.src)).any isUpper = true then .ok .distribution
      else if (asBytes a.src).any isSeparator = true then .panic .unreachable
      else .ok .universal := by
  have hclass : ∀ d, isAlnum d = true → isLower d = true ∧ isDigit d = false ∧
      isUpper d = false ∨ isLower d = false ∧ isDigit d = true ∨
        isLower d = false ∧ isDigit d = false ∧ isUpper d = true := forall_byte (by decide)
  obtain ⟨x, u, c', hxu, hx, hu⟩ := exists_of_threads h
  have hnosep : x.any isSeparator = false := by
    rw [List.any_eq_false]
    intro b hb
    rw [hx.noSeparator b hb]
    exact Bool.false_ne_true
  have hfirst := firstComponent_append hx hu
  have halnum := hx.alnum
  obtain ⟨d, v, rfl, -, -⟩ := hx
  rw [hxu, hfirst, compliance, hxu, List.any_append, hnosep, Bool.false_or, List.cons_append,
    List.head?_cons, Option.any_some, List.any_cons]
  dsimp only
  rcases hclass d (halnum d (by simp)) with ⟨hl, hd, hup⟩ | ⟨hl, hd⟩ | ⟨hl, hd, hup⟩
  · rw [hl, hd, hup, if_pos rfl, Bool.false_or,
      complianceLoop_append (fun b hb => halnum b (List.mem_cons_of_mem d hb)),
      complianceLoop_continues hu]
    rfl
  · rw [hl, hd]
    rfl
  · rw [hl, hd, hup]
    rfl

/-- The accessor finds an end before the first separator. -/
def Decided (w : List UInt8) : Prop :=
  w.head?.any isDigit = true ∨ (∃ b ∈ firstComponent w, isUpper b = true) ∨
    ∀ b ∈ w, isSeparator b = false

/-- The accessor finds what the parser has narrowed. -/
def Agreeing (w : List UInt8) : Prop :=
  w.head?.any isDigit = true ∨
    (∃ b ∈ firstComponent w, isUpper b = true) ∧ SomeStart isUpper (components w) ∨
    ∀ b ∈ w, isSeparator b = false ∧ isUpper b = false

theorem noPanic_iff {ε : Type u} {a : Algorithm} {c : Compliance}
    (h : Threads .universal (components (asBytes a.src)) c) :
    (a.compliance : Outcome ε Compliance).NoPanic ↔ Decided (asBytes a.src) := by
  rw [compliance_eq h, Decided]
  by_cases hdigit : (asBytes a.src).head?.any isDigit = true
  · rw [if_pos hdigit]
    exact iff_of_true trivial (Or.inl hdigit)
  by_cases hupper : (firstComponent (asBytes a.src)).any isUpper = true
  · rw [if_neg hdigit, if_pos hupper]
    exact iff_of_true trivial (Or.inr (Or.inl (List.any_eq_true.mp hupper)))
  rw [if_neg hdigit, if_neg hupper]
  by_cases hsep : (asBytes a.src).any isSeparator = true
  · rw [if_pos hsep]
    refine iff_of_false id ?_
    rintro (hd | hu | hnone)
    · exact hdigit hd
    · exact hupper (List.any_eq_true.mpr hu)
    · obtain ⟨b, hb, hs⟩ := List.any_eq_true.mp hsep
      rw [hnone b hb] at hs
      cases hs
  · rw [if_neg hsep]
    refine iff_of_true trivial (Or.inr (Or.inr fun b hb => ?_))
    exact Bool.eq_false_iff.mpr fun hs => hsep (List.any_eq_true.mpr ⟨b, hb, hs⟩)

theorem components_of_noSeparator {w : List UInt8} (h : ∀ b ∈ w, isSeparator b = false) :
    components w = [w] ∧ firstComponent w = w := by
  constructor
  · exact List.splitOnP_eq_singleton h
  · rw [firstComponent, List.takeWhile_eq_self_iff]
    intro b hb
    rw [h b hb]
    rfl

theorem mem_components {c c' d : Compliance} {x u : List UInt8} (hx : Component c c' x)
    (hu : Continues c' u d) : x ∈ components (x ++ u) := by
  rcases hu with ⟨rfl, -⟩ | ⟨s, v, rfl, hs, -⟩
  · rw [List.append_nil, components, List.splitOnP_eq_singleton hx.noSeparator]
    exact List.mem_singleton_self x
  · rw [components, List.splitOnP_append_cons x v hs, List.splitOnP_eq_singleton hx.noSeparator]
    exact List.mem_cons_self

/-- The first byte of the text is the first byte of a component. -/
theorem someStart_of_head {p : UInt8 → Bool} {w : List UInt8} {c c' : Compliance}
    (h : Threads c (components w) c') (hhead : w.head?.any p = true) :
    SomeStart p (components w) := by
  obtain ⟨x, u, d, rfl, hx, hu⟩ := exists_of_threads h
  refine ⟨x, mem_components hx hu, ?_⟩
  obtain ⟨b, v, rfl, -⟩ := hx
  exact hhead

theorem compliance_noSeparator {w : List UInt8} {c : Compliance}
    (h : Threads .universal (components w) c) (hsep : ∀ b ∈ w, isSeparator b = false)
    (hdigit : ¬w.head?.any isDigit = true) (hupper : ¬w.any isUpper = true) :
    c = .universal := by
  have hone := (components_of_noSeparator hsep).1
  have hnone : ∀ p : UInt8 → Bool, SomeStart p (components w) → w.head?.any p = true := by
    intro p hp
    rw [hone, someStart_cons] at hp
    rcases hp with hp | ⟨x, hx, -⟩
    · exact hp
    · cases hx
  have hdist := h.compliance.1.mp
  have hoci := h.compliance.2.mp
  cases c with
  | universal => rfl
  | oci =>
    rcases hoci rfl with hc | hstart
    · cases hc
    · exact absurd (hnone _ hstart) hdigit
  | distribution =>
    rcases hdist rfl with hc | hstart
    · cases hc
    · obtain ⟨b, hb, hup⟩ := (Option.any_eq_true _ _).mp (hnone _ hstart)
      exact absurd (List.any_eq_true.mpr ⟨b, List.mem_of_mem_head? hb, hup⟩) hupper

/-- Where the accessor returns the compliance of the parser. -/
theorem compliance_eq_iff {ε : Type u} {a : Algorithm} {c : Compliance}
    (h : Threads .universal (components (asBytes a.src)) c) :
    (a.compliance : Outcome ε Compliance) = .ok c ↔ Agreeing (asBytes a.src) := by
  rw [compliance_eq h, Agreeing]
  by_cases hdigit : (asBytes a.src).head?.any isDigit = true
  · have hc : c = .oci := h.compliance.2.mpr (Or.inr (someStart_of_head h hdigit))
    rw [if_pos hdigit, hc]
    exact iff_of_true rfl (Or.inl hdigit)
  by_cases hupper : (firstComponent (asBytes a.src)).any isUpper = true
  · rw [if_neg hdigit, if_pos hupper]
    obtain ⟨b, hb, hup⟩ := List.any_eq_true.mp hupper
    constructor
    · intro hc
      have hstart := h.compliance.1.mp (Outcome.ok.inj hc).symm
      exact Or.inr (Or.inl ⟨⟨b, hb, hup⟩, hstart.resolve_left Compliance.noConfusion⟩)
    · rintro (hd | ⟨-, hstart⟩ | hnone)
      · exact absurd hd hdigit
      · rw [h.compliance.1.mpr (Or.inr hstart)]
      · have hmem := (List.takeWhile_sublist _).mem hb
        rw [(hnone b hmem).2] at hup
        cases hup
  rw [if_neg hdigit, if_neg hupper]
  by_cases hsep : (asBytes a.src).any isSeparator = true
  · rw [if_pos hsep]
    have hpanic : ¬(Outcome.panic .unreachable : Outcome ε Compliance) = .ok c := by
      intro hc
      cases hc
    refine iff_of_false hpanic ?_
    rintro (hd | ⟨hu, -⟩ | hnone)
    · exact hdigit hd
    · exact hupper (List.any_eq_true.mpr hu)
    · obtain ⟨b, hb, hs⟩ := List.any_eq_true.mp hsep
      rw [(hnone b hb).1] at hs
      cases hs
  · have hnosep : ∀ b ∈ asBytes a.src, isSeparator b = false := fun b hb =>
      Bool.eq_false_iff.mpr fun hs => hsep (List.any_eq_true.mpr ⟨b, hb, hs⟩)
    rw [(components_of_noSeparator hnosep).2] at hupper
    rw [if_neg hsep, compliance_noSeparator h hnosep hdigit hupper]
    refine iff_of_true rfl (Or.inr (Or.inr fun b hb => ⟨hnosep b hb, ?_⟩))
    exact Bool.eq_false_iff.mpr fun hup => hupper (List.any_eq_true.mpr ⟨b, hb, hup⟩)

/-- The algorithm of an accepted digest has been parsed. -/
theorem threads_of_digest {src : String} {d : Digest} {a : Algorithm}
    (h : Digest.new src = .ok d) (ha : d.algorithm (ε := Empty) = .ok a) :
    asBytes a.src = Digest.algorithmBytes src ∧
      ∃ c, Threads .universal (components (asBytes a.src)) c := by
  obtain ⟨span, hspan, rfl⟩ := Digest.new_eq_ok.mp h
  obtain ⟨a', e, rfl, hspans⟩ := (DigestSpan.new_sat src).of_ok hspan
  obtain ⟨c, hthreads, -⟩ := hspans.components
  rw [Digest.algorithm_eq hspans] at ha
  obtain rfl := Outcome.ok.inj ha
  exact ⟨(Digest.bytes_of_text e hspans.colon).1.symm, c, hthreads⟩

/-- The accessor agrees with the parser only where it decides before the first separator, and
panics at a separator: it takes the text for a single component. -/
theorem compliance_agrees_iff (src : String) :
    (∀ a c, new src = .ok (a, c) →
      (a.compliance (ε := Empty) = .ok c ↔ Agreeing (readable src))) ∧
    ∀ d a, Digest.new src = .ok d → d.algorithm (ε := Empty) = .ok a →
      ((a.compliance (ε := Empty)).NoPanic ↔ Decided (Digest.algorithmBytes src)) := by
  constructor
  · intro a c h
    obtain ⟨hread, hthreads⟩ := threads_of_new h
    rw [← hread] at hthreads ⊢
    exact compliance_eq_iff hthreads
  · intro d a h ha
    obtain ⟨hbytes, c, hthreads⟩ := threads_of_digest h ha
    rw [← hbytes]
    exact noPanic_iff hthreads

theorem compliance_agrees_iff_sha256 :
    (⟨"sha256"⟩ : Algorithm).compliance (ε := Empty) = .ok .universal ∧
      ((⟨"A+b"⟩ : Algorithm).compliance (ε := Empty)).NoPanic := by
  have hplain : ((asBytes "sha256").all fun b => !isSeparator b && !isUpper b) = true := by decide
  have h : new "sha256" = .ok (⟨"sha256"⟩, .universal) := by decide +kernel
  obtain ⟨d, hd⟩ : (Digest.new "A+b:00000000000000000000000000000000").Succeeds := by
    decide +kernel
  obtain ⟨span, hspan, rfl⟩ := Digest.new_eq_ok.mp hd
  have hspans : DigestSpan.Spans "A+b" "00000000000000000000000000000000" span :=
    DigestSpan.spans_of_new hspan (by decide)
  constructor
  · refine ((compliance_agrees_iff "sha256").1 _ _ h).mpr (Or.inr (Or.inr fun b hb => ?_))
    simpa using List.all_eq_true.mp hplain b hb
  · have halg := Digest.algorithm_eq (ε := Empty) hspans
    refine ((compliance_agrees_iff _).2 _ _ hd halg).mpr (Or.inr (Or.inl ?_))
    exact ⟨byte 'A', by decide, by decide⟩

/-- The accessor panics at the separator of an algorithm that both standards allow. -/
theorem compliance_panics :
    new "a+b" = .ok (⟨"a+b"⟩, .universal) ∧
      (⟨"a+b"⟩ : Algorithm).compliance (ε := Empty) = .panic .unreachable :=
  ⟨by decide +kernel, by decide +kernel⟩

end Algorithm

end ContainerImageDistRef
