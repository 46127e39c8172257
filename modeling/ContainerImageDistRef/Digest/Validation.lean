import ContainerImageDistRef.Digest.Compliance

/-!
# The two steps of validating an encoded value

`Encoded::new` checks the characters and narrows the compliance, which it
drops. `validate_algorithm` checks the length and starts again from the level
of the caller.
-/

namespace ContainerImageDistRef

open ByteString Grammar SeparatedList

namespace Encoded

open Digest

/-- The level that is returned, and what has been checked for it. -/
theorem validateAlgorithm_eq_ok {e : Encoded} {a : Algorithm} {c c' : Compliance}
    (hpos : 0 < len e.src) (hmax : len e.src ≤ MAX_LEN) (h : e.validateAlgorithm a c = .ok c') :
    (c' = if c = .universal ∧ len e.src < MIN_LEN then .oci else c) ∧
      (c = .distribution → MIN_LEN ≤ len e.src) := by
  refine ⟨?_, ((validateAlgorithm_sat a c hpos hmax).of_ok h).2⟩
  rw [validateAlgorithm.eq_def] at h
  obtain ⟨_, -, h⟩ := Outcome.bind_eq_ok.mp h
  cases c with
  | oci => exact (Outcome.ok.inj h).symm
  | distribution =>
    obtain ⟨_, -, h⟩ := Outcome.bind_eq_ok.mp h
    exact (Outcome.ok.inj h).symm
  | universal =>
    dsimp only at h
    by_cases hmin : MIN_LEN ≤ len e.src
    · rw [validateDistribution_ok hmin hmax] at h
      rw [if_neg fun hlt => absurd hmin (Nat.not_le_of_lt hlt.2)]
      exact (Outcome.ok.inj h).symm
    · rw [if_pos ⟨rfl, Nat.lt_of_not_le hmin⟩]
      have hdist := validateDistribution_sat hpos hmax
      cases hv : e.validateDistribution with
      | ok u => exact absurd (hdist.of_ok hv) hmin
      | err err =>
        rw [hv] at h
        exact (Outcome.ok.inj h).symm
      | panic p => exact absurd hv (hdist.ne_panic p)

theorem new_eq_ok {src : String} {c : Compliance} {e : Encoded} (h : new src c = .ok e) :
    e = ⟨src⟩ ∧ 0 < len src ∧ len src ≤ MAX_LEN ∧ ∃ c', EncodedText c (asBytes src) c' := by
  obtain ⟨⟨span, c'⟩, hspan, h⟩ := Outcome.bind_eq_ok.mp h
  obtain ⟨htext, hlen, hmax⟩ := (EncodedSpan.new_sat src c).of_ok hspan
  dsimp only at h htext hlen
  rw [fromSpan, hlen, sliceTo_len, Outcome.ok_bind] at h
  exact ⟨(Outcome.ok.inj h).symm, hlen ▸ span.length.pos, hmax, c', htext⟩

/-- The returned level is one that the value is in the grammar of. -/
structure Sound (e : String) (c' : Compliance) : Prop where
  oci : c'.compliantWith .oci = true → asBytes e ∈ Oci.encoded
  distribution : c'.compliantWith .distribution = true → asBytes e ∈ Distribution.encoded

/-- The two steps together are sound unless a long value with a byte that is no hex digit is
checked against both standards. -/
theorem validation_sound_iff {e : String} {a : Algorithm} {c c' : Compliance} {enc : Encoded}
    (he : new e c = .ok enc) (hv : enc.validateAlgorithm a c = .ok c') :
    Sound e c' ↔ ¬(c = .universal ∧ 32 ≤ len e ∧ ∃ b ∈ asBytes e, isHex b = false) := by
  obtain ⟨rfl, hpos, hmax, d', htext⟩ := new_eq_ok he
  obtain ⟨hc', hmin⟩ := validateAlgorithm_eq_ok hpos hmax hv
  have hoci : asBytes e ∈ Oci.encoded :=
    mem_ociEncoded.mpr ⟨List.ne_nil_of_length_pos hpos, htext.bytes⟩
  constructor
  · rintro hsound ⟨rfl, hlong, b, hb, hhex⟩
    have huniversal : c' = .universal := by
      rw [hc', if_neg fun h => absurd hlong (Nat.not_le_of_lt h.2)]
    have hmem := (mem_distributionEncoded.mp (hsound.distribution (by rw [huniversal]; rfl))).2
    rw [hmem b hb] at hhex
    cases hhex
  · intro hnot
    refine ⟨fun _ => hoci, fun hdist => ?_⟩
    rw [mem_distributionEncoded, length_asBytes]
    cases c with
    | oci =>
      rw [hc', if_neg fun h => by cases h.1] at hdist
      cases hdist
    | distribution => exact ⟨hmin rfl, htext.hex rfl⟩
    | universal =>
      have hlong : MIN_LEN ≤ len e := by
        apply Nat.le_of_not_lt
        intro hshort
        rw [hc', if_pos ⟨rfl, hshort⟩] at hdist
        cases hdist
      refine ⟨hlong, fun b hb => ?_⟩
      rw [← Bool.not_eq_false]
      exact fun hhex => hnot ⟨rfl, hlong, b, hb, hhex⟩

theorem validation_sound_iff_short :
    Sound "0000" .oci ∧ (new "0000" .universal).Succeeds := by
  have he : new "0000" .universal = .ok ⟨"0000"⟩ := by decide +kernel
  have hv : (⟨"0000"⟩ : Encoded).validateAlgorithm ⟨"a"⟩ .universal = .ok .oci := by
    decide +kernel
  have hshort : ¬32 ≤ len "0000" := by decide
  exact ⟨(validation_sound_iff he hv).mpr fun h => hshort h.2.1, _, he⟩

/-- A long value in base 64 is taken for one of both standards. -/
theorem validation_unsound :
    ∃ enc, new "zzzzzzzzzzzzzzzzzzzzzzzzzzzzzzzz" .universal = .ok enc ∧
      enc.validateAlgorithm ⟨"a"⟩ .universal = .ok .universal ∧
      Algorithm.new "a" = .ok (⟨"a"⟩, .universal) ∧
      ¬Sound "zzzzzzzzzzzzzzzzzzzzzzzzzzzzzzzz" .universal := by
  refine ⟨⟨"zzzzzzzzzzzzzzzzzzzzzzzzzzzzzzzz"⟩, by decide +kernel, by decide +kernel,
    by decide +kernel, fun h => ?_⟩
  have hmem := (mem_distributionEncoded.mp (h.distribution rfl)).2 (byte 'z') (by decide)
  cases hmem

end Encoded

end ContainerImageDistRef
