import ContainerImageDistRef.Ambiguous.SegmentErrors

/-!
# Narrowing agrees with scanning again

The first segment is scanned once, for whatever it may be, and its span is
narrowed when the rest of the text has settled the question. A scan that knows
the answer in advance returns the same span, and it fails at the byte that the
narrowing blames.
-/

namespace ContainerImageDistRef

open ByteString Grammar ViablePrefix

namespace HostOrPath

/-- Up to a byte that decides, the reading asked for does not matter. -/
theorem Shape.run_undecided {f : Flavor} {t : Tail} {w : List UInt8} {a : Shape}
    (hw : ∀ c ∈ w, isDeciding c = false) (h : Shape.run ⟨.neutral, t⟩ w = .ok a) :
    Shape.run ⟨f, t⟩ w = .ok ⟨f, a.tail⟩ := by
  induction w generalizing t with
  | nil =>
    cases h
    rfl
  | cons c w ih =>
    rw [run_cons, Outcome.bind_eq_ok] at h
    obtain ⟨b, hb, hrun⟩ := h
    have hc := hw c List.mem_cons_self
    have htail : ∀ d ∈ w, isDeciding d = false := fun d hd => hw d (List.mem_cons_of_mem c hd)
    have hstep : ∃ s, b = ⟨.neutral, s⟩ ∧ Step ⟨f, t⟩ c ⟨f, s⟩ := by
      cases step_eq_ok.mp hb with
      | lowerAlnum hl => exact ⟨_, rfl, .lowerAlnum hl⟩
      | upper hu hf => simp [isDeciding, hu] at hc
      | underscore hf ht => cases hc
      | underscores hf ht => cases hc
      | dot ht => exact ⟨_, rfl, .dot ht⟩
      | dash ht => exact ⟨_, rfl, .dash ht⟩
    obtain ⟨s, rfl, hs⟩ := hstep
    rw [run_cons, step_eq_ok.mpr hs, Outcome.ok_bind]
    exact ih htail hrun

theorem viable_undecided {f : Flavor} {w : List UInt8} (hw : ∀ c ∈ w, isDeciding c = false)
    (h : Viable (segments .neutral) w) : Viable (segments f) w := by
  obtain ⟨⟨a, ha⟩, hhead⟩ := viable_iff.mp h
  exact viable_iff.mpr ⟨⟨_, Shape.run_undecided hw ha⟩, hhead⟩

end HostOrPath

namespace HostOrPathSpan

open HostOrPath

variable {f : Flavor} {u : String} {span span' : HostOrPathSpan} {target : Kind}

theorem Spans.unique (h : Spans f u span) (h' : Spans f u span') : span = span' := by
  obtain ⟨length, kind, decider⟩ := span
  obtain ⟨length', kind', decider'⟩ := span'
  obtain rfl : length = length' := Length.ext (h.length.trans h'.length.symm)
  obtain rfl : kind = kind' := h.kind.trans h'.kind.symm
  obtain rfl : decider = decider' := h.decider.trans h'.decider.symm
  rfl

theorem Spans.segment (h : Spans f u span) : Segment f (asBytes u) := by
  by_cases hf : flavorOf f (asBytes u) = .host
  · refine Or.inr ⟨?_, h.host (by simp [hf])⟩
    rintro rfl
    cases hf
  · refine Or.inl ⟨?_, h.path hf⟩
    rintro rfl
    exact hf rfl

theorem Segment.neutral {w : List UInt8} (h : Segment f w) : Segment .neutral w :=
  h.imp (fun h => ⟨by simp, h.2⟩) fun h => ⟨by simp, h.2⟩

/-- The kinds that a scan is narrowed to. -/
def targets : List Kind := [.hostOrPath, .host, .path]

theorem Spans.of_path (h : Spans .neutral u span) (hf : flavorOf .neutral (asBytes u) ≠ .host) :
    Spans .path u ⟨span.length, .path, span.decider⟩ where
  path _ := h.path hf
  host hne := absurd rfl hne
  length := h.length
  kind := rfl
  decider := h.decider

theorem Spans.of_host (h : Spans .neutral u span) (hf : flavorOf .neutral (asBytes u) ≠ .path) :
    Spans .host u ⟨span.length, .host, span.decider⟩ where
  path hne := absurd rfl hne
  host _ := h.host hf
  length := h.length
  kind := rfl
  decider := h.decider

/-- What rules a reading out stands where the span says that it was decided. -/
theorem Spans.exists_decider (h : Spans .neutral u span)
    (hf : flavorOf .neutral (asBytes u) ≠ .neutral) :
    ∃ w c v, asBytes u = w ++ c :: v ∧ w.length = span.decider ∧ isDeciding c = true ∧
      ∀ d ∈ w, isDeciding d = false := by
  have hsome : ∃ c ∈ asBytes u, isDeciding c = true := by
    rw [flavorOf] at hf
    split at hf
    · rename_i hunder
      exact ⟨_, hunder, by decide⟩
    split at hf
    · rename_i hupper
      obtain ⟨c, hc, hcu⟩ := hupper
      exact ⟨c, hc, by simp [isDeciding, hcu]⟩
    · exact absurd rfl hf
  obtain ⟨r, hr, hstop⟩ := exists_before isDeciding (asBytes u)
  have hw : ∀ d ∈ before isDeciding (asBytes u), isDeciding d = false := fun d hd =>
    eq_false_of_mem_before hd
  generalize before isDeciding (asBytes u) = w at hr hw
  cases r with
  | nil =>
    obtain ⟨c, hc, hdec⟩ := hsome
    rw [hr, List.append_nil] at hc
    cases hdec.symm.trans (hw c hc)
  | cons c v =>
    have hc := stopsAt_cons.mp hstop
    refine ⟨w, c, v, hr, ?_, hc, hw⟩
    have hnone := List.findIdx?_eq_none_iff.mpr hw
    rw [h.decider, hr, List.findIdx?_append]
    simp [hnone, List.findIdx?_cons, hc]

/-- What narrowing makes of the span of a segment. -/
theorem Spans.narrow_cases (h : Spans .neutral u span) (htarget : target ∈ targets) :
    (∃ span', span.narrow target = .ok span' ∧ Spans target.flavor u span') ∨
      ∃ kind, span.narrow target = .err ⟨span.decider, kind⟩ ∧
        (target = .path ∧ flavorOf .neutral (asBytes u) = .host ∨
          target = .host ∧ flavorOf .neutral (asBytes u) = .path) := by
  have hkind := h.kind
  obtain ⟨length, kind, decider⟩ := span
  simp only [targets, List.mem_cons, List.not_mem_nil, or_false] at htarget
  cases hf : flavorOf .neutral (asBytes u) with
  | neutral =>
    rw [hf] at hkind
    cases hkind
    rcases htarget with rfl | rfl | rfl
    · exact Or.inl ⟨_, rfl, h⟩
    · exact Or.inl ⟨_, rfl, h.of_host (by simp [hf])⟩
    · exact Or.inl ⟨_, rfl, h.of_path (by simp [hf])⟩
  | host =>
    rw [hf] at hkind
    cases hkind
    rcases htarget with rfl | rfl | rfl
    · exact Or.inl ⟨_, rfl, h⟩
    · exact Or.inl ⟨_, rfl, h.of_host (by simp [hf])⟩
    · exact Or.inr ⟨_, rfl, Or.inl ⟨rfl, rfl⟩⟩
  | path =>
    rw [hf] at hkind
    cases hkind
    rcases htarget with rfl | rfl | rfl
    · exact Or.inl ⟨_, rfl, h⟩
    · exact Or.inr ⟨_, rfl, Or.inr ⟨rfl, rfl⟩⟩
    · exact Or.inl ⟨_, rfl, h.of_path (by simp [hf])⟩

theorem ne_of_targets (htarget : target ∈ targets) : target ≠ .ipV6 ∧ target ≠ .any := by
  simp only [targets, List.mem_cons, List.not_mem_nil, or_false] at htarget
  rcases htarget with rfl | rfl | rfl <;> simp

/-- No reading but that of an address begins with a bracket. -/
theorem SpansIpv6.narrow_eq (h : SpansIpv6 u span) (htarget : target ∈ targets) :
    span.narrow target = .err ⟨0, .hostOrPathInvalidChar⟩ := by
  obtain ⟨length, kind, decider⟩ := span
  cases h.kind
  simp only [targets, List.mem_cons, List.not_mem_nil, or_false] at htarget
  rcases htarget with rfl | rfl | rfl <;> rfl

/-- Where narrowing fails, a scan for the reading asked for has failed at the same byte. -/
theorem Spans.fails_of_narrow (h : Spans .neutral u span) (rest : String)
    (hcase : target = .path ∧ flavorOf .neutral (asBytes u) = .host ∨
      target = .host ∧ flavorOf .neutral (asBytes u) = .path) :
    Fails target.flavor (u ++ rest) ⟨span.decider, .hostOrPathInvalidChar⟩ := by
  have hf : flavorOf .neutral (asBytes u) ≠ .neutral := by
    rcases hcase with ⟨-, hf⟩ | ⟨-, hf⟩ <;> simp [hf]
  obtain ⟨w, c, v, hcut, hlen, hdec, hw⟩ := h.exists_decider hf
  have hsrc : asBytes (u ++ rest) = w ++ c :: (v ++ asBytes rest) := by
    rw [asBytes_append, hcut, List.append_assoc]
    rfl
  have hviable : Viable (segments target.flavor) w := by
    apply viable_undecided hw
    exact ⟨c :: v, hcut ▸ h.segment⟩
  have hmem : c ∈ asBytes u := by
    rw [hcut]
    exact List.mem_append_right _ List.mem_cons_self
  have hle : w.length ≤ maxU8 := hlen ▸ h.decider_le.trans (h.length ▸ span.length.le)
  have hsplit : ∀ c, isDeciding c = true →
      (isUpper c = true ∨ c = byte '_') ∧ isStop c = false := forall_byte (by decide)
  obtain ⟨hc, hstop⟩ := hsplit c hdec
  rw [← hlen]
  apply Fails.refused hsrc hviable hle hstop
  rcases hcase with ⟨rfl, hf⟩ | ⟨rfl, hf⟩
  · -- a host name has no underscore
    rcases hc with hc | rfl
    · exact .upper hc (Or.inl rfl)
    · exact absurd hmem (not_underscore_of_domainName (h.host (by simp [hf])))
  · rcases hc with hc | rfl
    · exact absurd ⟨c, hmem, hc⟩ (not_upper_of_pathComponent (h.path (by simp [hf])))
    · exact .underscore (Or.inl rfl)

/-- A scan that knows the answer in advance stops behind the same segment as one that does not. -/
theorem Spans.narrow_of_target (h : Spans target.flavor u span) (htarget : target ∈ targets)
    (rest : String) (hrest : StopsAt isStop (asBytes rest)) :
    ∃ scanned, new (u ++ rest) .any = .ok scanned ∧ scanned.narrow target = .ok span := by
  obtain ⟨scanned, hscanned, hspans⟩ := new_segment .any rest (by simp)
    (Segment.neutral h.segment)
    (h.length ▸ span.length.le) hrest
  refine ⟨scanned, hscanned, ?_⟩
  rcases hspans.narrow_cases htarget with ⟨span', hnarrow, hspan'⟩ | ⟨kind, -, hcase⟩
  · rw [hnarrow, hspan'.unique h]
  · rcases hcase with ⟨rfl, hf⟩ | ⟨rfl, hf⟩
    · have hpath : asBytes u ∈ pathComponent := h.path (by simp [Kind.flavor, flavorOf])
      exact absurd hf (flavorOf_ne_host (by simp) hpath)
    · have hhost : asBytes u ∈ domainName := h.host (by simp [Kind.flavor, flavorOf])
      exact absurd hf (flavorOf_ne_path (by simp) hhost)

/-- Scanning for any reading and narrowing is scanning for the reading. -/
theorem narrow_iff (src : String) (htarget : target ∈ targets) :
    (∀ span, (new src .any >>= fun scanned => scanned.narrow target) = .ok span ↔
      new src target = .ok span) ∧
    ∀ scanned e, new src .any = .ok scanned → scanned.narrow target = .err e →
      new src target = .err ⟨e.index, .hostOrPathInvalidChar⟩ := by
  obtain ⟨hipv6, hany⟩ := ne_of_targets htarget
  constructor
  · intro span
    constructor
    · intro h
      obtain ⟨scanned, hscanned, hnarrow⟩ := Outcome.bind_eq_ok.mp h
      obtain ⟨u, rest, rfl, ⟨hrest, hspans⟩ | hspans⟩ := (new_any_sat src).of_ok hscanned
      · rcases hspans.narrow_cases htarget with ⟨span', hspan', hspans'⟩ | ⟨kind, herr, -⟩
        · cases hspan'.symm.trans hnarrow
          obtain ⟨again, hagain, hspans''⟩ := new_segment target rest hipv6 hspans'.segment
            (hspans'.length ▸ span.length.le) hrest
          rw [hagain, hspans''.unique hspans']
        · cases herr.symm.trans hnarrow
      · cases (hspans.narrow_eq htarget).symm.trans hnarrow
    · intro h
      cases hhead : (asBytes src).head? with
      | none =>
        rw [new.eq_def, hhead] at h
        cases h
      | some c =>
        by_cases hc : c = byte '['
        · cases (new_first hhead (fun _ => ⟨hipv6, hany⟩) (Or.inl hc)).symm.trans h
        · obtain ⟨u, rest, rfl, hrest, hspans⟩ := (scan_sat hipv6 hhead hc).of_ok h
          exact Outcome.bind_eq_ok.mpr (hspans.narrow_of_target htarget rest hrest)
  · intro scanned e hscanned hnarrow
    obtain ⟨u, rest, rfl, ⟨hrest, hspans⟩ | hspans⟩ := (new_any_sat src).of_ok hscanned
    · rcases hspans.narrow_cases htarget with ⟨span', hspan', -⟩ | ⟨kind, herr, hcase⟩
      · cases hspan'.symm.trans hnarrow
      · cases herr.symm.trans hnarrow
        exact (hspans.fails_of_narrow rest hcase).new_eq hipv6 fun h => absurd h hany
    · cases (hspans.narrow_eq htarget).symm.trans hnarrow
      obtain ⟨inner, hinner, -⟩ := hspans.literal.bytes
      have hhead : (asBytes (u ++ rest)).head? = some (byte '[') := by
        rw [asBytes_append, hinner]
        rfl
      exact new_first hhead (fun _ => ⟨hipv6, hany⟩) (Or.inl rfl)

theorem narrow_iff_underscore :
    new "a__b/c" .host = .err ⟨1, .hostOrPathInvalidChar⟩ := by
  have hhost : Kind.host ∈ targets := by decide
  obtain ⟨scanned, hscanned, hnarrow⟩ := Outcome.Sat.exists_ok (by decide +kernel :
    (new "a__b/c" .any).Sat (fun scanned => scanned.narrow .host = .err ⟨1, .hostInvalidChar⟩)
      fun _ => False)
  exact (narrow_iff "a__b/c" hhost).2 scanned _ hscanned hnarrow

end HostOrPathSpan

end ContainerImageDistRef
