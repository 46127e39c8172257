import ContainerImageDistRef.Name.Domain.Ipv6.Scanning

/-!
# What the packed state means

After any text that the scan has read, the fields of its one byte are the
numbers they are named after, and the next colon is refused for what that text
is. The position in the group is the one field that means nothing.
-/

namespace ContainerImageDistRef

open ByteString Groups

namespace Ipv6

/-- What the fields say of the text `w`. -/
structure Means (w : List UInt8) (s : State) : Prop where
  group : s.currentGroup.toNat = w.count (byte ':')
  group_le : s.currentGroup.toNat ≤ 7
  run : s.colonCount.toNat = trailing isColon w
  run_le : s.colonCount.toNat ≤ 2
  double : s.doubleColonAlreadySeen = true ↔ Doubled (byte ':') w

/-- A colon after `w` is the third in a row, completes a second pair or is the eighth. -/
def BadColon (w : List UInt8) : Prop :=
  trailing isColon w = 2 ∨ (trailing isColon w = 1 ∧ Doubled (byte ':') w) ∨
    w.count (byte ':') = 7

/-- The loop fails at a colon, whatever follows, and not because it can count no further. -/
def FailsAtColon (s : State) (i : ShortLength) : Prop :=
  ∃ kind, kind ≠ .ipv6TooLong ∧ ∀ rest, scan s i (byte ':' :: rest) = .err ⟨i.val, kind⟩

theorem Reads.means {w : List UInt8} {s : State} (h : Reads w s.colons) : Means w s where
  group := h.count
  group_le := Nat.le_trans (Nat.le_of_eq h.count) h.legal.count
  run := h.run
  run_le := h.run_le
  double := h.double

theorem Colons.colon_eq_err {a : Colons} {kind : Err.Kind} (h : a.colon = .err kind) :
    kind ≠ .ipv6TooLong := by
  rw [colon] at h
  split at h
  · cases h
    simp
  · split at h
    · cases h
      simp
    · cases h

theorem Colons.colon_fails_iff (a : Colons) :
    (∃ kind, a.colon = .err kind) ↔
      (2 ≤ a.run ∨ a.run = 1 ∧ a.double = true) ∨ 7 ≤ a.count := by
  rw [colon]
  split
  · rename_i hbad
    exact iff_of_true ⟨_, rfl⟩ (Or.inl hbad)
  · rename_i hbad
    split
    · rename_i hcount
      exact iff_of_true ⟨_, rfl⟩ (Or.inr hcount)
    · rename_i hcount
      refine iff_of_false ?_ (not_or.mpr ⟨hbad, hcount⟩)
      rintro ⟨kind, h⟩
      cases h

theorem update_colon (s : State) : update s (byte ':') = s.setColon := by
  have hhex : ¬isHexDigit (byte ':') = true := by decide
  rw [update, if_neg hhex, if_pos rfl]

/-- The packed state and the plain machine fail at the same colons. -/
theorem update_colon_eq_err {s : State} {kind : Err.Kind} :
    update s (byte ':') = .err kind ↔ s.colons.colon = .err kind := by
  rw [update_colon, ← setColon_colons, Outcome.map_eq_err]

/-- The text tells whether the next colon is read. -/
theorem Reads.colon_fails_iff {w : List UInt8} {s : State} (h : Reads w s.colons) :
    (∃ kind, update s (byte ':') = .err kind) ↔ BadColon w := by
  have hrun := h.run
  have hrun_le := h.run_le
  have hcount := h.count
  have hcount_le := h.legal.count
  simp only [update_colon_eq_err]
  rw [Colons.colon_fails_iff, h.double, BadColon, or_assoc]
  constructor
  · rintro (hthird | ⟨hone, hpair⟩ | hfull)
    · exact Or.inl (by omega)
    · exact Or.inr (Or.inl ⟨by omega, hpair⟩)
    · exact Or.inr (Or.inr (by omega))
  · rintro (hthird | ⟨hone, hpair⟩ | hfull)
    · exact Or.inl (by omega)
    · exact Or.inr (Or.inl ⟨by omega, hpair⟩)
    · exact Or.inr (Or.inr (by omega))

/-- The loop fails at a colon exactly where the state does. -/
theorem failsAtColon_iff (s : State) (i : ShortLength) :
    FailsAtColon s i ↔ ∃ kind, update s (byte ':') = .err kind := by
  have hbracket : ¬byte ':' = byte ']' := by decide
  constructor
  · rintro ⟨kind, hkind, hscan⟩
    have hend := hscan []
    rw [scan, if_neg hbracket] at hend
    cases hu : update s (byte ':') with
    | err kind' => exact ⟨kind', rfl⟩
    | panic p => exact absurd hu ((update_sat s _).ne_panic p)
    | ok t =>
      rw [hu, Outcome.mapErr_ok, Outcome.ok_bind] at hend
      rcases Outcome.bind_eq_err.mp hend with hlong | ⟨j, hj, hend⟩
      · -- the colon is read, but the index overflows
        obtain ⟨-, herr⟩ := Outcome.okOr_eq_err.mp hlong
        exact absurd (congrArg Error.kind herr).symm hkind
      · have hji := Length.checkedAdd_eq_some.mp (Outcome.okOr_eq_ok.mp hj)
        rw [scan] at hend
        have hindex : j.val = i.val := congrArg Error.index (Outcome.err.inj hend)
        omega
  · rintro ⟨kind, hu⟩
    refine ⟨kind, Colons.colon_eq_err (update_colon_eq_err.mp hu), fun rest => ?_⟩
    rw [scan, if_neg hbracket, hu]
    rfl

/-- The loop over `w` leaves the state and the index behind it. -/
theorem scan_append {w : List UInt8} {s : State} (h : w.foldlM update ⟨0⟩ = .ok s)
    {i : ShortLength} (hi : i.val = w.length + 1) (rest : List UInt8) :
    scan ⟨0⟩ ShortLength.one (w ++ rest) = scan s i rest := by
  have hle := i.le
  obtain ⟨s', i', hscanning⟩ := Scanning.of_legal rest (reads_of_update h).legal (by omega)
  obtain ⟨-, hi', hs'⟩ := hscanning.spec
  obtain rfl : s = s' := Outcome.ok.inj (h.symm.trans hs')
  obtain rfl : i = i' := Length.ext (hi.trans hi'.symm)
  exact hscanning.scan_eq

/-- The packed state simulates its plain meaning. -/
theorem state_simulates {w : List UInt8} {s : State} (h : w.foldlM update ⟨0⟩ = .ok s) :
    Means w s ∧ ((∃ kind, update s (byte ':') = .err kind) ↔ BadColon w) ∧
      ∀ i : ShortLength, i.val = w.length + 1 →
        (∀ rest, scan ⟨0⟩ ShortLength.one (w ++ rest) = scan s i rest) ∧
          (FailsAtColon s i ↔ BadColon w) := by
  have hreads := reads_of_update h
  refine ⟨hreads.means, hreads.colon_fails_iff, fun i hi => ⟨scan_append h hi, ?_⟩⟩
  rw [failsAtColon_iff]
  exact hreads.colon_fails_iff

theorem state_simulates_pair :
    ∃ s, (asBytes "a::").foldlM update ⟨0⟩ = .ok s ∧ Means (asBytes "a::") s ∧
      FailsAtColon s ⟨4, by decide, by decide⟩ := by
  obtain ⟨s, hs⟩ : ((asBytes "a::").foldlM update ⟨0⟩).Succeeds := by decide
  have hall := state_simulates hs
  exact ⟨s, hs, hall.1, ((hall.2.2 ⟨4, by decide, by decide⟩ rfl).2).mpr (Or.inl rfl)⟩

end Ipv6

end ContainerImageDistRef
