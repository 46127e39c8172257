import ContainerImageDistRef.Ambiguous.ScanMeaning
import ContainerImageDistRef.Reference

/-!
# The errors of the first segment

The scan of a segment fails at the first byte that no segment goes on with, at
a separator that ends the segment, or where the length runs over; a reference
that is not bracketed and fails there fails with the same error.
-/

namespace ContainerImageDistRef

open ByteString Grammar ViablePrefix

namespace HostOrPath

/-- The texts of a segment, as a language. -/
def segments (f : Flavor) : Language UInt8 := {u | Segment f u}

/-- The automaton reads what begins a segment, where no separator comes first. -/
theorem viable_iff {f : Flavor} {w : List UInt8} :
    Viable (segments f) w ↔ (∃ a, Shape.run ⟨f, .item⟩ w = .ok a) ∧
      ∀ c, w.head? = some c → ¬(c = byte '.' ∨ c = byte '-' ∨ c = byte '_') := by
  constructor
  · rintro ⟨v, hv⟩
    have hsegment : Segment f (w ++ v) := hv
    constructor
    · obtain ⟨g, hg⟩ := hsegment.run
      rw [Shape.run_append] at hg
      obtain ⟨a, ha, -⟩ := Outcome.bind_eq_ok.mp hg
      exact ⟨a, ha⟩
    · intro c hc
      obtain ⟨d, hd, halnum⟩ := hsegment.head
      rw [List.head?_append, hc] at hd
      cases hd
      have hclass : ∀ c, isAlnum c = true → ¬(c = byte '.' ∨ c = byte '-' ∨ c = byte '_') :=
        forall_byte (by decide)
      exact hclass c halnum
  · rintro ⟨⟨a, ha⟩, hhead⟩
    have hlower : isLowerAlnum (byte 'a') = true := by decide
    refine ⟨[byte 'a'], Segment.of_run (g := a.flavor) ?_ (by simp) fun c hc => ?_⟩
    · rw [Shape.run_concat, ha, Outcome.ok_bind, Shape.step_eq_ok.mpr (.lowerAlnum hlower)]
    · cases w with
      | nil =>
        cases hc
        decide
      | cons d w => exact hhead c hc

theorem isAlnum_of_viable {f : Flavor} {w : List UInt8} {c : UInt8}
    (hw : Viable (segments f) w) (hc : w.head? = some c) : isAlnum c = true := by
  obtain ⟨v, hv⟩ := hw
  obtain ⟨d, hd, halnum⟩ := Segment.head hv
  rw [List.head?_append, hc] at hd
  cases hd
  exact halnum

theorem Refused.kind_of_nil {f : Flavor} {c : UInt8} {kind : Err.Kind} (h : Refused f [] c kind) :
    kind = .hostOrPathInvalidChar := by
  cases h with
  | foreign hc hsep => rfl
  | upper hc h => rfl
  | underscore h => rfl
  | third hhost h => rfl
  | joined hhost h => simp at h
  | dash h => simp at h
  | dot h => simp at h

/-- What begins a segment is one where the automaton has read no separator last. -/
theorem segment_iff {f : Flavor} {w : List UInt8} {a : Shape} (hw : Viable (segments f) w)
    (hne : w ≠ []) (ha : Shape.run ⟨f, .item⟩ w = .ok a) : Segment f w ↔ a.tail = .item := by
  constructor
  · intro h
    obtain ⟨g, hg⟩ := h.run
    cases Outcome.ok.inj (ha.symm.trans hg)
    rfl
  · intro ht
    obtain ⟨g, t⟩ := a
    cases ht
    exact Segment.of_run ha hne (viable_iff.mp hw).2

end HostOrPath

namespace HostOrPathSpan

open HostOrPath

/-- Why a segment is refused, and where. -/
inductive Fails (f : Flavor) (src : String) : Error → Prop
  | missing (hstop : StopsAt isStop (asBytes src)) : Fails f src ⟨0, .hostOrPathMissing⟩
  | first {c : UInt8} (hhead : (asBytes src).head? = some c)
      (hc : c = byte '.' ∨ c = byte '-' ∨ c = byte '_') : Fails f src ⟨0, .hostOrPathInvalidChar⟩
  | refused {w rest : List UInt8} {c : UInt8} {kind : Err.Kind}
      (hsrc : asBytes src = w ++ c :: rest) (hw : Viable (segments f) w) (hlen : w.length ≤ maxU8)
      (hc : isStop c = false) (hkind : Refused f w c kind) : Fails f src ⟨w.length, kind⟩
  | long {w rest : List UInt8} {c : UInt8} (hsrc : asBytes src = w ++ c :: rest)
      (hw : Viable (segments f) (w ++ [c])) (hlen : w.length = maxU8) :
      Fails f src ⟨maxU8, .hostOrPathTooLong⟩
  | ended {w rest : List UInt8} (hsrc : asBytes src = w ++ rest) (hstop : StopsAt isStop rest)
      (hw : Viable (segments f) w) (hne : w ≠ []) (hnot : ¬Segment f w)
      (hlen : w.length ≤ maxU8) :
      Fails f src ⟨w.length - 1, .hostOrPathInvalidComponentEnd⟩

/-- A segment that no u8 can count is too long, whatever stands behind it. -/
theorem fails_long {f : Flavor} {u : String} (hu : Segment f (asBytes u)) (hlen : maxU8 < len u)
    (rest : String) : Fails f (u ++ rest) ⟨maxU8, .hostOrPathTooLong⟩ := by
  obtain ⟨w, c, v, hcut, hw⟩ : ∃ w c v, asBytes u = w ++ c :: v ∧ w.length = maxU8 :=
    ⟨_, _, _, (List.take_append_drop maxU8 (asBytes u)).symm.trans
      (by rw [List.drop_eq_getElem_cons hlen]), List.length_take_of_le (Nat.le_of_lt hlen)⟩
  have hviable : Viable (segments f) (w ++ [c]) := ⟨v, by rwa [← List.append_cons, ← hcut]⟩
  have hsrc : asBytes (u ++ rest) = w ++ c :: (v ++ asBytes rest) := by
    rw [asBytes_append, hcut, List.append_assoc]
    rfl
  exact .long hsrc hviable hw

theorem scanLoop_stop {s : State} {rest : List UInt8} (h : StopsAt isStop rest) :
    scanLoop s rest = .ok s := by
  cases rest with
  | nil => rfl
  | cons c rest => rw [scanLoop, if_pos (stopsAt_cons.mp h)]

/-- A separator that was read last ends no segment. -/
theorem finish_separator {src : String} {f : Flavor} {w : List UInt8} {s : State} {a : Shape}
    (h : Reads f w s) (ha : Shape.run ⟨f, .item⟩ w = .ok a) (ht : a.tail ≠ .item) :
    finish src s = .err ⟨w.length - 1, .hostOrPathInvalidComponentEnd⟩ := by
  obtain ⟨b, hb, hscan⟩ := h.run
  obtain rfl := Outcome.ok.inj (ha.symm.trans hb)
  have hend : ¬(a.tail == .item) = true := by simpa using ht
  rw [finish, State.checkComponentEnd, hscan, Shape.encode_end, if_neg hend, h.len]
  rfl

theorem finish_empty {src : String} {f : Flavor} {s : State} (h : Reads f [] s) :
    finish src s = .err ⟨0, .hostOrPathMissing⟩ := by
  obtain ⟨a, ha, hscan⟩ := h.run
  obtain rfl := Outcome.ok.inj ha
  have hlen : s.len = 0 := h.len
  have hslice : (sliceFrom src 0 : Outcome Error String) = .ok src := by
    have hempty := sliceFrom_append (ε := Error) "" src
    rwa [String.empty_append] at hempty
  have hnone : ShortLength.new 0 = none := rfl
  rw [finish, State.checkComponentEnd, hscan, Shape.encode_end, if_pos (by rfl), Outcome.ok_bind,
    hlen, hslice, Outcome.ok_bind, Outcome.assert_true (Nat.zero_le _), Outcome.ok_bind, hnone]
  rfl

section

variable {src : String} {kind : Kind} {e : Error}

theorem new_of_looping {c : UInt8} (hhead : (asBytes src).head? = some c) (hc : c ≠ byte '[')
    (hsep : ¬(c = byte '.' ∨ c = byte '-' ∨ c = byte '_')) {w todo : List UInt8} {s : State}
    (h : Looping kind (asBytes src) w s todo) : new src kind = scanLoop s todo >>= finish src := by
  rw [new_eq hhead hc hsep, h.scanLoop_eq]

/-- The scan comes to an error of the table. -/
theorem fails_of_err (hk : kind ≠ .ipV6) {c : UInt8} (hhead : (asBytes src).head? = some c)
    (hc : c ≠ byte '[') (hsep : ¬(c = byte '.' ∨ c = byte '-' ∨ c = byte '_'))
    (h : new src kind = .err e) : Fails kind.flavor src e := by
  have hfirst : ∀ {w rest : List UInt8}, asBytes src = w ++ rest →
      ∀ d, w.head? = some d → ¬(d = byte '.' ∨ d = byte '-' ∨ d = byte '_') := by
    intro w rest hsrc d hd
    rw [hsrc, List.head?_append, hd] at hhead
    cases hhead
    exact hsep
  rw [new_eq hhead hc hsep] at h
  rcases Outcome.bind_eq_err.mp h with hloop | ⟨s, hloop, hend⟩
  · obtain ⟨w, t, d, rest, hstop, hd, hturn⟩ := Looping.exists_stop .start hloop
    rw [List.nil_append] at hstop
    obtain ⟨hsrc, hreads⟩ := hstop.spec hk
    obtain ⟨a, ha, -⟩ := hreads.run
    rcases hreads.turn_eq_err.mp hturn with ⟨kind', hkind, rfl⟩ | ⟨hnot, hmax, rfl⟩
    · exact .refused hsrc (viable_iff.mpr ⟨⟨a, ha⟩, hfirst hsrc⟩) hreads.le hd hkind
    · refine .long hsrc (viable_iff.mpr ⟨?_, ?_⟩) hmax
      · cases hstep : a.step d with
        | ok b => exact ⟨b, by rw [Shape.run_concat, ha, Outcome.ok_bind, hstep]⟩
        | err kind' => exact absurd ((Shape.means_of_run ha).step_eq_err.mp hstep) (hnot kind')
        | panic p => exact absurd hstep (Shape.step_ne_panic a d p)
      · have hsrc' : asBytes src = (w ++ [d]) ++ rest := by rw [hsrc, List.append_cons]
        exact hfirst hsrc'
  · obtain ⟨w, rest, hended, hstop⟩ := Looping.exists_end .start hloop
    rw [List.nil_append] at hended
    obtain ⟨hsrc, hreads⟩ := hended.spec hk
    obtain ⟨a, ha, -⟩ := hreads.run
    by_cases hne : w = []
    · subst hne
      rw [finish_empty hreads] at hend
      cases hend
      rw [List.nil_append] at hsrc
      exact .missing (hsrc ▸ hstop)
    have hviable := viable_iff.mpr ⟨⟨a, ha⟩, hfirst hsrc⟩
    by_cases ht : a.tail = .item
    · obtain ⟨u, v, rfl, rfl, rfl⟩ := exists_append_of_ascii hsrc hreads.ascii
      obtain ⟨g, t⟩ := a
      cases ht
      have hu : u ≠ "" := by
        rintro rfl
        exact hne rfl
      obtain ⟨span, hspan⟩ := finish_ok v hreads ha hu
      cases hspan.symm.trans hend
    · rw [finish_separator hreads ha ht] at hend
      cases hend
      exact .ended hsrc hstop hviable hne (fun hseg => ht ((segment_iff hviable hne ha).mp hseg))
        hreads.le

end

section

variable {src : String} {kind : Kind} {w rest : List UInt8} {c : UInt8}

/-- A first byte that begins nothing. -/
theorem new_first (hhead : (asBytes src).head? = some c)
    (hbracket : c = byte '[' → kind ≠ .ipV6 ∧ kind ≠ .any)
    (hc : c = byte '[' ∨ c = byte '.' ∨ c = byte '-' ∨ c = byte '_') :
    new src kind = .err ⟨0, .hostOrPathInvalidChar⟩ := by
  rw [new.eq_def, hhead]
  dsimp only
  rcases hc with rfl | hc
  · obtain ⟨hipv6, hany⟩ := hbracket rfl
    rw [if_pos rfl]
    cases kind with
    | ipV6 => exact absurd rfl hipv6
    | any => exact absurd rfl hany
    | path => rfl
    | host => rfl
    | hostOrPath => rfl
  · have hne : c ≠ byte '[' := by
      rintro rfl
      exact absurd hc (by decide)
    rw [if_neg hne, if_pos hc]

/-- The loop gets behind what begins a segment. -/
theorem exists_looping (hk : kind ≠ .ipV6) (hsrc : asBytes src = w ++ rest)
    (hw : Viable (segments kind.flavor) w) (hlen : w.length ≤ maxU8)
    (hhead : ∃ c, (asBytes src).head? = some c ∧
      ¬(c = byte '[' ∨ c = byte '.' ∨ c = byte '-' ∨ c = byte '_')) :
    ∃ s a, Reads kind.flavor w s ∧ Shape.run ⟨kind.flavor, .item⟩ w = .ok a ∧
      new src kind = scanLoop s rest >>= finish src := by
  obtain ⟨⟨a, ha⟩, -⟩ := viable_iff.mp hw
  obtain ⟨s, hs⟩ := Looping.of_run hk rest ha hlen
  obtain ⟨c, hc, hclass⟩ := hhead
  rw [not_or] at hclass
  rw [← hsrc] at hs
  exact ⟨s, a, (hs.spec hk).2, ha, new_of_looping hc hclass.1 hclass.2 hs⟩

theorem exists_head (hsrc : asBytes src = w ++ rest) (hw : Viable (segments kind.flavor) w)
    (hne : w ≠ []) : ∃ c, (asBytes src).head? = some c ∧
      ¬(c = byte '[' ∨ c = byte '.' ∨ c = byte '-' ∨ c = byte '_') := by
  obtain ⟨c, hc⟩ : ∃ c, w.head? = some c := Option.isSome_iff_exists.mp (by simpa using hne)
  have hclass : ∀ c, isAlnum c = true →
      ¬(c = byte '[' ∨ c = byte '.' ∨ c = byte '-' ∨ c = byte '_') := forall_byte (by decide)
  refine ⟨c, ?_, hclass c (isAlnum_of_viable hw hc)⟩
  rw [hsrc, List.head?_append, hc]
  rfl

end

/-- An error of the table is the error of the scan. -/
theorem Fails.new_eq {src : String} {kind : Kind} {e : Error} (hk : kind ≠ .ipV6)
    (hbracket : kind = .any → (asBytes src).head? ≠ some (byte '['))
    (h : Fails kind.flavor src e) : new src kind = .err e := by
  cases h with
  | missing hstop =>
    cases hhead : (asBytes src).head? with
    | none =>
      rw [new.eq_def, hhead]
    | some c =>
      have hclass : ∀ c, isStop c = true →
          c ≠ byte '[' ∧ ¬(c = byte '.' ∨ c = byte '-' ∨ c = byte '_') := forall_byte (by decide)
      obtain ⟨hc, hsep⟩ := hclass c (hstop c hhead)
      have hinit : Reads kind.flavor [] (init kind) := reads_init _ _ (ofKind_eq hk)
      rw [new_of_looping hhead hc hsep .start, scanLoop_stop hstop, Outcome.ok_bind,
        finish_empty hinit]
  | first hhead hc =>
    apply new_first hhead _ (Or.inr hc)
    rintro rfl
    exact absurd hc (by decide)
  | @refused w rest c kind' hsrc hw hlen hc hkind =>
    by_cases hfirst : w = [] ∧ (c = byte '[' ∨ c = byte '.' ∨ c = byte '-' ∨ c = byte '_')
    · obtain ⟨rfl, hfirst⟩ := hfirst
      obtain rfl := hkind.kind_of_nil
      have hhead : (asBytes src).head? = some c := by
        rw [hsrc]
        rfl
      apply new_first hhead _ hfirst
      rintro rfl
      exact ⟨hk, fun hany => hbracket hany hhead⟩
    · have hhead : ∃ c, (asBytes src).head? = some c ∧
          ¬(c = byte '[' ∨ c = byte '.' ∨ c = byte '-' ∨ c = byte '_') := by
        by_cases hne : w = []
        · subst hne
          exact ⟨c, by rw [hsrc]; rfl, fun hc => hfirst ⟨rfl, hc⟩⟩
        · exact exists_head hsrc hw hne
      obtain ⟨s, a, hreads, -, hnew⟩ := exists_looping hk hsrc hw hlen hhead
      rw [hnew, scanLoop_cons s rest hc, hreads.turn_eq_err.mpr (Or.inl ⟨kind', hkind, rfl⟩)]
      rfl
  | @long w rest c hsrc hw hlen =>
    have hne : w ≠ [] := by
      rintro rfl
      exact absurd hlen (by decide)
    have hw' : Viable (segments kind.flavor) w := hw.of_append
    obtain ⟨s, a, hreads, ha, hnew⟩ :=
      exists_looping hk hsrc hw' (Nat.le_of_eq hlen) (exists_head hsrc hw' hne)
    obtain ⟨⟨b, hb⟩, -⟩ := viable_iff.mp hw
    rw [Shape.run_concat, ha, Outcome.ok_bind] at hb
    have hnot : ∀ kind', ¬Refused kind.flavor w c kind' := by
      intro kind' hkind
      cases hb.symm.trans ((Shape.means_of_run ha).step_eq_err.mpr hkind)
    rw [hnew, scanLoop_cons s rest (not_isStop_of_step hb),
      hreads.turn_eq_err.mpr (Or.inr ⟨hnot, hlen, rfl⟩)]
    rfl
  | @ended w rest hsrc hstop hw hne hnot hlen =>
    obtain ⟨s, a, hreads, ha, hnew⟩ :=
      exists_looping hk hsrc hw hlen (exists_head hsrc hw hne)
    have ht : a.tail ≠ .item := fun ht => hnot ((segment_iff hw hne ha).mpr ht)
    rw [hnew, scanLoop_stop hstop, Outcome.ok_bind, finish_separator hreads ha ht]

theorem new_eq_err_iff {kind : Kind} {src : String} {e : Error} (hk : kind ≠ .ipV6)
    (hbracket : kind = .any → (asBytes src).head? ≠ some (byte '[')) :
    new src kind = .err e ↔ Fails kind.flavor src e := by
  constructor
  · intro h
    cases hhead : (asBytes src).head? with
    | none =>
      rw [new.eq_def, hhead] at h
      cases h
      exact .missing (stopsAt_of_head?_none hhead)
    | some c =>
      by_cases hsep : c = byte '.' ∨ c = byte '-' ∨ c = byte '_'
      · have hne : c = byte '[' → kind ≠ .ipV6 ∧ kind ≠ .any := by
          rintro rfl
          exact absurd hsep (by decide)
        cases (new_first hhead hne (Or.inr hsep)).symm.trans h
        exact .first hhead hsep
      by_cases hc : c = byte '['
      · subst hc
        have hany : kind ≠ .any := fun hany => hbracket hany hhead
        cases (new_first hhead (fun _ => ⟨hk, hany⟩) (Or.inl rfl)).symm.trans h
        obtain ⟨rest, hrest⟩ := List.head?_eq_some_iff.mp hhead
        have hnil : Viable (segments kind.flavor) [] :=
          viable_iff.mpr ⟨⟨_, rfl⟩, by simp⟩
        exact .refused (w := []) hrest hnil (Nat.zero_le _) (by decide)
          (.foreign (by decide) (by decide))
      · exact fails_of_err hk hhead hc hsep h
  · exact Fails.new_eq hk hbracket

end HostOrPathSpan

end ContainerImageDistRef
