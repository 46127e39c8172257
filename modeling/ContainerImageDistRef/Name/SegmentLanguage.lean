import ContainerImageDistRef.Name.Domain.Host
import ContainerImageDistRef.Name.Path

/-!
# The language of the first segment

The scan runs two grammars as one automaton. It accepts their union, tells by
the kind which of the two are left, and keeps the place of the first byte that
ruled one of them out.
-/

namespace ContainerImageDistRef

open ByteString Grammar

namespace HostOrPathSpan

open HostOrPath

/-- What the scan says of the segment `u`, and what the two narrower spans make of it. -/
structure Classifies (u : List UInt8) (span : HostOrPathSpan) : Prop where
  length : span.length.val = u.length
  path : span.kind = .path ↔ byte '_' ∈ u
  host : span.kind = .host ↔ ∃ c ∈ u, isUpper c = true
  hostOrPath : span.kind = .hostOrPath ↔ byte '_' ∉ u ∧ ¬∃ c ∈ u, isUpper c = true
  hostSpan : (HostSpan.tryFrom span).Succeeds ↔ u ∈ domainName
  hostError : u ∉ domainName → ∃ i, u.findIdx? (· == byte '_') = some i ∧
    HostSpan.tryFrom span = .err ⟨i, .hostInvalidChar⟩
  pathSpan : (PathSpan.tryFrom span).Succeeds ↔ u ∈ pathComponent
  pathError : u ∉ pathComponent → ∃ i, u.findIdx? isUpper = some i ∧
    PathSpan.tryFrom span = .err ⟨i, .pathInvalidChar⟩

section Flavors
variable {u : String} {span : HostOrPathSpan}

/-- A segment with an underscore is a path component only. -/
theorem Spans.classifies_path (h : span.Spans .neutral u) (hunder : byte '_' ∈ asBytes u) :
    Classifies (asBytes u) span := by
  have hf : flavorOf .neutral (asBytes u) = .path := if_pos hunder
  have hpath : asBytes u ∈ pathComponent := h.path (by simp [hf])
  have hhost : asBytes u ∉ domainName := fun hu => not_underscore_of_domainName hu hunder
  have hupper := not_upper_of_pathComponent hpath
  have hkind : span.kind = .path := by rw [h.kind, hf]; rfl
  have hpathSpan := PathSpan.tryFrom_ok h (by simp [hf])
  obtain ⟨i, hi⟩ : ∃ i, (asBytes u).findIdx? (· == byte '_') = some i :=
    ⟨_, List.findIdx?_eq_some_of_exists ⟨byte '_', hunder, rfl⟩⟩
  have hdecider := h.decider_underscore hupper hi
  have herr : HostSpan.tryFrom span = .err ⟨i, .hostInvalidChar⟩ := by
    rw [HostSpan.tryFrom, hkind]
    dsimp only
    rw [narrow.eq_def, hkind, ← hdecider]
    rfl
  exact
    { length := h.length
      path := iff_of_true hkind hunder
      host := iff_of_false (by simp [hkind]) hupper
      hostOrPath := iff_of_false (by simp [hkind]) fun hno => hno.1 hunder
      hostSpan := iff_of_false (Outcome.not_succeeds_of_err herr) hhost
      hostError := fun _ => ⟨i, hi, herr⟩
      pathSpan := iff_of_true ⟨_, hpathSpan⟩ hpath
      pathError := fun hnot => absurd hpath hnot }

/-- A segment with an uppercase letter is a domain name only. -/
theorem Spans.classifies_host (h : span.Spans .neutral u)
    (hupper : ∃ c ∈ asBytes u, isUpper c = true) : Classifies (asBytes u) span := by
  have hpath : asBytes u ∉ pathComponent := fun hu => not_upper_of_pathComponent hu hupper
  have hunder : byte '_' ∉ asBytes u := by
    intro hunder
    have hf : flavorOf .neutral (asBytes u) = .path := if_pos hunder
    exact hpath (h.path (by simp [hf]))
  have hf : flavorOf .neutral (asBytes u) = .host := by
    rw [flavorOf, if_neg hunder, if_pos hupper]
  have hhost : asBytes u ∈ domainName := h.host (by simp [hf])
  have hkind : span.kind = .host := by rw [h.kind, hf]; rfl
  obtain ⟨host, hhostSpan, -⟩ :=
    HostSpan.tryFrom_ok (Or.inl h) (by simp [hkind]) (by simp [hkind])
  obtain ⟨i, hi⟩ : ∃ i, (asBytes u).findIdx? isUpper = some i :=
    ⟨_, List.findIdx?_eq_some_of_exists hupper⟩
  have hdecider := h.decider_upper hunder hi
  have herr : PathSpan.tryFrom span = .err ⟨i, .pathInvalidChar⟩ := by
    rw [PathSpan.tryFrom, narrow.eq_def, hkind, ← hdecider]
    rfl
  exact
    { length := h.length
      path := iff_of_false (by simp [hkind]) hunder
      host := iff_of_true hkind hupper
      hostOrPath := iff_of_false (by simp [hkind]) fun hno => hno.2 hupper
      hostSpan := iff_of_true ⟨host, hhostSpan⟩ hhost
      hostError := fun hnot => absurd hhost hnot
      pathSpan := iff_of_false (Outcome.not_succeeds_of_err herr) hpath
      pathError := fun _ => ⟨i, hi, herr⟩ }

/-- A segment with neither is both. -/
theorem Spans.classifies_neutral (h : span.Spans .neutral u) (hunder : byte '_' ∉ asBytes u)
    (hupper : ¬∃ c ∈ asBytes u, isUpper c = true) : Classifies (asBytes u) span := by
  have hf : flavorOf .neutral (asBytes u) = .neutral := by
    rw [flavorOf, if_neg hunder, if_neg hupper]
  have hkind : span.kind = .hostOrPath := by rw [h.kind, hf]; rfl
  have hpath : asBytes u ∈ pathComponent := h.path (by simp [hf])
  have hhost : asBytes u ∈ domainName := h.host (by simp [hf])
  obtain ⟨host, hhostSpan, -⟩ :=
    HostSpan.tryFrom_ok (Or.inl h) (by simp [hkind]) (by simp [hkind])
  have hpathSpan := PathSpan.tryFrom_ok h (by simp [hf])
  exact
    { length := h.length
      path := iff_of_false (by simp [hkind]) hunder
      host := iff_of_false (by simp [hkind]) hupper
      hostOrPath := iff_of_true hkind ⟨hunder, hupper⟩
      hostSpan := iff_of_true ⟨host, hhostSpan⟩ hhost
      hostError := fun hnot => absurd hhost hnot
      pathSpan := iff_of_true ⟨_, hpathSpan⟩ hpath
      pathError := fun hnot => absurd hpath hnot }

theorem Spans.classifies (h : span.Spans .neutral u) : Classifies (asBytes u) span := by
  by_cases hunder : byte '_' ∈ asBytes u
  · exact h.classifies_path hunder
  · by_cases hupper : ∃ c ∈ asBytes u, isUpper c = true
    · exact h.classifies_host hupper
    · exact h.classifies_neutral hunder hupper

/-- Each segment is in one of the two grammars. -/
theorem Spans.mem (h : span.Spans .neutral u) :
    asBytes u ∈ domainName ∨ asBytes u ∈ pathComponent := by
  cases hf : flavorOf .neutral (asBytes u) with
  | neutral => exact Or.inl (h.host (by simp [hf]))
  | host => exact Or.inl (h.host (by simp [hf]))
  | path => exact Or.inr (h.path (by simp [hf]))

end Flavors

/-- An accepted first segment is what stands before the first stop byte. -/
theorem spans_of_new {src : String} (hsrc : (asBytes src).head? ≠ some (byte '['))
    {span : HostOrPathSpan} (h : new src .any = .ok span) :
    ∃ u, asBytes u = before isStop (asBytes src) ∧ span.Spans .neutral u := by
  cases hhead : (asBytes src).head? with
  | none =>
    rw [new.eq_def, hhead] at h
    cases h
  | some c =>
    have hc : c ≠ byte '[' := by
      rintro rfl
      exact hsrc hhead
    obtain ⟨u, rest, rfl, hstop, hspans⟩ := (scan_sat (by simp) hhead hc).of_ok h
    refine ⟨u, ?_, hspans⟩
    rw [asBytes_append, before_append (not_isStop_of_mem hspans.mem) hstop]

/-- A first segment of either grammar is accepted, whatever follows it. -/
theorem new_of_mem {src : String} (hlen : (before isStop (asBytes src)).length ≤ maxU8)
    (hmem : before isStop (asBytes src) ∈ domainName ∨
      before isStop (asBytes src) ∈ pathComponent) : (new src .any).Succeeds := by
  have hseg : Segment Kind.any.flavor (before isStop (asBytes src)) :=
    hmem.symm.imp (fun h => ⟨by simp [Kind.flavor], h⟩) fun h => ⟨by simp [Kind.flavor], h⟩
  have hascii : ∀ c ∈ before isStop (asBytes src), c < 128 := by
    intro c hc
    rcases hmem with h | h
    · exact ascii_of_isDomainByte c (isDomainByte_of_mem h c hc)
    · exact ascii_of_isComponentByte c (isComponentByte_of_mem h c hc)
  obtain ⟨u, rest, hsrc, hu, hstop⟩ := exists_append_before hascii
  rw [← hu] at hseg hlen
  obtain ⟨span, hspan, -⟩ := new_segment .any rest (by simp) hseg hlen hstop
  rw [hsrc]
  exact ⟨span, hspan⟩

/-- The scan accepts the union of the two grammars and classifies it. -/
theorem new_any_iff (src : String) (hsrc : (asBytes src).head? ≠ some (byte '[')) :
    ((new src .any).Succeeds ↔
        (1 ≤ (before isStop (asBytes src)).length ∧
          (before isStop (asBytes src)).length ≤ 255) ∧
        (before isStop (asBytes src) ∈ domainName ∨
          before isStop (asBytes src) ∈ pathComponent)) ∧
      ∀ span, new src .any = .ok span → Classifies (before isStop (asBytes src)) span := by
  constructor
  · constructor
    · rintro ⟨span, hspan⟩
      obtain ⟨u, hu, hspans⟩ := spans_of_new hsrc hspan
      have hlen : span.length.val = (asBytes u).length := hspans.length
      rw [← hu]
      exact ⟨⟨hlen ▸ span.length.pos, hlen ▸ span.length.le⟩, hspans.mem⟩
    · rintro ⟨⟨-, hlen⟩, hmem⟩
      exact new_of_mem hlen hmem
  · intro span hspan
    obtain ⟨u, hu, hspans⟩ := spans_of_new hsrc hspan
    rw [← hu]
    exact hspans.classifies

theorem new_any_iff_underscore :
    ∃ span, new "a__b/c" .any = .ok span ∧ span.kind = .path ∧
      HostSpan.tryFrom span = .err ⟨1, .hostInvalidChar⟩ := by
  obtain ⟨span, hspan⟩ : (new "a__b/c" .any).Succeeds := by decide +kernel
  have hclass := (new_any_iff "a__b/c" (by decide)).2 span hspan
  have hunder : byte '_' ∈ before isStop (asBytes "a__b/c") := by decide
  have hnot : before isStop (asBytes "a__b/c") ∉ domainName := fun hmem =>
    not_underscore_of_domainName hmem hunder
  obtain ⟨i, hi, herr⟩ := hclass.hostError hnot
  obtain rfl : 1 = i := Option.some.inj ((by decide :
    some 1 = (before isStop (asBytes "a__b/c")).findIdx? (· == byte '_')).trans hi)
  exact ⟨span, hspan, hclass.path.mpr hunder, herr⟩

end HostOrPathSpan

end ContainerImageDistRef
