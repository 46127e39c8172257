import ContainerImageDistRef.Name.Domain.Ipv6.Colons

/-!
# The literals that the IPv6 parser accepts

A literal is accepted when its colons are: seven of them, or a pair in a row.
The groups of digits between the colons are only counted through them, and the
width of a group is not counted at all.
-/

namespace ContainerImageDistRef

open ByteString Groups

namespace Ipv6

/-- The loop of the scan over `bytes`, as it stands after some of them: with its state, its
index and the bytes not yet read. -/
inductive Scanning (bytes : List UInt8) :
    List UInt8 → State → ShortLength → List UInt8 → Prop
  | start : Scanning bytes [] ⟨0⟩ ShortLength.one bytes
  | step {w todo : List UInt8} {s t : State} {i j : ShortLength} {c : UInt8}
      (h : Scanning bytes w s i (c :: todo)) (hc : c ≠ byte ']') (ht : update s c = .ok t)
      (hj : i.checkedAdd 1 = some j) : Scanning bytes (w ++ [c]) t j todo

namespace Scanning

variable {bytes w todo : List UInt8} {s : State} {i : ShortLength}

/-- What is left to scan decides how the scan ends. -/
theorem scan_eq (h : Scanning bytes w s i todo) :
    scan ⟨0⟩ ShortLength.one bytes = scan s i todo := by
  induction h with
  | start => rfl
  | step h hc ht hj ih => rw [ih, scan, if_neg hc, ht, Outcome.mapErr_ok, Outcome.ok_bind, hj,
      Outcome.okOr_some, Outcome.ok_bind]

theorem spec (h : Scanning bytes w s i todo) :
    bytes = w ++ todo ∧ i.val = w.length + 1 ∧ w.foldlM update ⟨0⟩ = .ok s := by
  induction h with
  | start => exact ⟨rfl, rfl, rfl⟩
  | step h hc ht hj ih =>
    obtain ⟨rfl, hi, hrun⟩ := ih
    have hji := Length.checkedAdd_eq_some.mp hj
    refine ⟨by simp, ?_, ?_⟩
    · rw [← hji, hi, List.length_append]
      rfl
    · rw [List.foldlM_append, hrun, Outcome.ok_bind, List.foldlM_cons, ht]
      rfl

theorem reads (h : Scanning bytes w s i todo) : Reads w s.colons := reads_of_update h.spec.2.2

/-- The scan of a text without a closing bracket that it can count goes on behind it. -/
theorem of_legal (todo : List UInt8) (hl : Legal w) (hlen : w.length < maxU8) :
    ∃ s i, Scanning (w ++ todo) w s i todo := by
  induction w using List.reverseRecOn generalizing todo with
  | nil => exact ⟨_, _, .start⟩
  | append_singleton w c ih =>
    rw [List.length_append, List.length_singleton] at hlen
    obtain ⟨s, i, h⟩ := ih (c :: todo) hl.of_concat (by omega)
    obtain ⟨t, ht⟩ := update_iff.mpr hl
    rw [List.foldlM_append, h.spec.2.2, Outcome.ok_bind, List.foldlM_cons] at ht
    obtain ⟨t, ht, -⟩ := Outcome.bind_eq_ok.mp ht
    have hc : c ≠ byte ']' := by
      rintro rfl
      exact absurd (hl.inner _ (List.mem_append_right _ (List.mem_singleton_self _))) (by decide)
    have hi := h.spec.2.1
    have hj : i.checkedAdd 1 = some ⟨i.val + 1, Nat.succ_pos _, by omega⟩ :=
      Length.checkedAdd_eq_some.mpr rfl
    rw [List.append_assoc]
    exact ⟨t, _, .step h hc ht hj⟩

/-- A scan that ends has come to a closing bracket. -/
theorem exists_end {s' : State} {i' : ShortLength} (h : Scanning bytes w s i todo)
    (hscan : scan s i todo = .ok (s', i')) :
    ∃ inner rest, Scanning bytes (w ++ inner) s' i' (byte ']' :: rest) := by
  induction todo generalizing w s i with
  | nil => cases hscan
  | cons c todo ih =>
    rw [scan] at hscan
    split at hscan
    · rename_i hc
      cases hscan
      subst hc
      exact ⟨[], todo, by simpa using h⟩
    · rename_i hc
      obtain ⟨t, ht, hscan⟩ := Outcome.bind_eq_ok.mp hscan
      obtain ⟨j, hj, hscan⟩ := Outcome.bind_eq_ok.mp hscan
      obtain ⟨inner, rest, hend⟩ := ih (.step h hc (Outcome.mapErr_eq_ok.mp ht)
        (Outcome.okOr_eq_ok.mp hj)) hscan
      exact ⟨[c] ++ inner, rest, by rwa [← List.append_assoc]⟩

end Scanning

end Ipv6

namespace Ipv6Span

open Ipv6

theorem checkGroups_eq_ok {w : List UInt8} {s : State} {i : ShortLength} {span : Ipv6Span}
    (h : Reads w s.colons) :
    checkGroups s i = .ok span ↔
      span.length = i ∧ (w.count (byte ':') = 7 ∨ Doubled (byte ':') w) := by
  have hgroup : s.currentGroup.toNat = w.count (byte ':') := h.count
  have hdouble : s.doubleColonAlreadySeen = true ↔ Doubled (byte ':') w := h.double
  rw [checkGroups, ← hdouble, ← hgroup]
  rcases currentGroup_le s with hle | hseven
  · have hne : s.currentGroup.toNat ≠ 7 := fun heq => by
      have := UInt8.le_iff_toNat_le.mp hle
      rw [heq] at this
      exact absurd this (by decide)
    rw [if_pos hle]
    cases hd : s.doubleColonAlreadySeen with
    | true =>
      rw [if_pos rfl]
      constructor
      · intro h
        cases h
        exact ⟨rfl, Or.inr rfl⟩
      · rintro ⟨hlen, -⟩
        rw [← hlen]
    | false => simp [hne]
  · have hle : ¬s.currentGroup ≤ 6 := by rw [hseven]; decide
    rw [if_neg hle, if_pos hseven, hseven]
    constructor
    · intro h
      cases h
      exact ⟨rfl, Or.inl rfl⟩
    · rintro ⟨hlen, -⟩
      rw [← hlen]

theorem bracket_not_mem {w : List UInt8} (h : Legal w) : byte ']' ∉ w :=
  fun hmem => absurd (h.inner _ hmem) (by decide)

/-- The literals that are accepted: seven colons, or a pair of them. -/
theorem new_eq_ok_iff {src : String} {w rest : List UInt8} {span : Ipv6Span}
    (hsrc : asBytes src = byte '[' :: (w ++ byte ']' :: rest)) (hw : byte ']' ∉ w) :
    new src = .ok span ↔ span.length.val = w.length + 2 ∧ Legal w ∧
      (w.count (byte ':') = 7 ∨ Doubled (byte ':') w) := by
  have hend : ∀ {s : State} {i : ShortLength} {todo : List UInt8},
      Scanning (w ++ byte ']' :: rest) w s i (byte ']' :: todo) →
      (new src = .ok span ↔ ∃ j, i.checkedAdd 1 = some j ∧ checkGroups s j = .ok span) := by
    intro s i todo h
    have hi : i.val = w.length + 1 := h.spec.2.1
    rw [new_bracket hsrc, h.scan_eq, scan, if_pos rfl, Outcome.ok_bind]
    dsimp only
    rw [finish_eq hsrc hi, Outcome.bind_eq_ok]
    simp only [Outcome.okOr_eq_ok]
  constructor
  · intro hnew
    have hok := hnew
    rw [new_bracket hsrc] at hok
    obtain ⟨⟨s, i⟩, hscan, -⟩ := Outcome.bind_eq_ok.mp hok
    obtain ⟨inner, rest', h⟩ := Scanning.exists_end .start hscan
    rw [List.nil_append] at h
    have hinner := bracket_not_mem h.reads.legal
    obtain rfl : w = inner := by
      rw [← SeparatedList.takeWhile_sep hw rest, h.spec.1, SeparatedList.takeWhile_sep hinner]
    obtain ⟨j, hj, hgroups⟩ := (hend h).mp hnew
    obtain ⟨hlen, hcolons⟩ := (checkGroups_eq_ok h.reads).mp hgroups
    have hi := h.spec.2.1
    have hji := Length.checkedAdd_eq_some.mp hj
    exact ⟨by rw [hlen]; omega, h.reads.legal, hcolons⟩
  · rintro ⟨hlen, hl, hcolons⟩
    have hle := span.length.le
    obtain ⟨s, i, h⟩ := Scanning.of_legal (byte ']' :: rest) hl (by omega)
    have hi := h.spec.2.1
    have hj : i.checkedAdd 1 = some span.length :=
      Length.checkedAdd_eq_some.mpr (by omega)
    exact (hend h).mpr ⟨span.length, hj, (checkGroups_eq_ok h.reads).mpr ⟨rfl, hcolons⟩⟩

/-- A literal, spelled out. -/
theorem ipv6Literal_iff {h : String} {w : List UInt8}
    (hh : asBytes h = byte '[' :: (w ++ [byte ']'])) :
    Ipv6Literal h ↔ w.length + 2 ≤ maxU8 ∧ Legal w ∧
      (w.count (byte ':') = 7 ∨ Doubled (byte ':') w) := by
  have hlen : len h = w.length + 2 := by
    rw [len, hh]
    simp
  constructor
  · intro hl
    obtain ⟨inner, hbytes, hall⟩ := hl.bytes
    have hw : byte ']' ∉ w := by
      rw [hh] at hbytes
      obtain rfl : w = inner := by simpa using hbytes
      exact fun hmem => absurd (hall _ hmem) (by decide)
    obtain ⟨span, hspan, hspanlen⟩ := hl
    have hle := span.length.le
    exact ⟨by omega, ((new_eq_ok_iff hh hw).mp hspan).2⟩
  · rintro ⟨hle, hlegal, hcolons⟩
    let span : Ipv6Span := ⟨⟨w.length + 2, Nat.succ_pos _, hle⟩⟩
    have hspan : new h = .ok span :=
      (new_eq_ok_iff hh (bracket_not_mem hlegal)).mpr ⟨rfl, hlegal, hcolons⟩
    exact ⟨span, hspan, hlen.symm⟩

/-- The text between the brackets. -/
def between (src : String) : List UInt8 := (asBytes src).tail.takeWhile (· != byte ']')

theorem between_eq {src : String} {w rest : List UInt8}
    (hsrc : asBytes src = byte '[' :: (w ++ byte ']' :: rest)) (hw : byte ']' ∉ w) :
    between src = w := by
  rw [between, hsrc]
  exact SeparatedList.takeWhile_sep hw rest

/-- What is accepted, in terms of the text between the brackets. -/
theorem between_of_ok {src : String} {span : Ipv6Span} (h : new src = .ok span) :
    Legal (between src) ∧
      ((between src).count (byte ':') = 7 ∨ Doubled (byte ':') (between src)) := by
  obtain ⟨w, rest, hsrc, hinner, -, -⟩ := new_eq_ok h
  have hw : byte ']' ∉ w := fun hmem => absurd (hinner _ hmem) (by decide)
  rw [between_eq hsrc hw]
  exact ((new_eq_ok_iff hsrc hw).mp h).2

/-- The hex digits since the last colon, or since the opening bracket. -/
def digits (w : List UInt8) : Nat := trailing isHexDigit w

/-- No accepted group is wider than four digits, and a fifth digit is an error. -/
structure WidthBounded (src : String) : Prop where
  accepted : ∀ span, new src = .ok span →
    ∀ run, run <:+: between src → (∀ c ∈ run, isHexDigit c = true) → run.length ≤ 4
  fifth : ∀ bytes, asBytes src = byte '[' :: bytes →
    ∀ w s i c todo, Scanning bytes w s i (c :: todo) → digits w = 4 → isHexDigit c = true →
      new src = .err ⟨i.val, .ipv6TooManyHexDigits⟩

/-- The packed position says how wide the open group is. -/
def PositionExact (src : String) : Prop :=
  ∀ bytes, asBytes src = byte '[' :: bytes →
    ∀ w s i todo, Scanning bytes w s i todo → 1 ≤ digits w →
      s.positionInGroup.toNat = digits w - 1

/-- The widths are bounded, and the packed position follows them. -/
structure GroupWidth (src : String) : Prop extends WidthBounded src where
  position : PositionExact src

/-- A fifth hex digit stands at a place that the scan reaches: the colons before it are in
order. -/
def FifthDigit (src : String) : Prop :=
  ∃ w c rest, asBytes src = byte '[' :: (w ++ c :: rest) ∧ Legal w ∧ w.length < maxU8 ∧
    digits w = 4 ∧ isHexDigit c = true

/-- Two hex digits stand in a row, where the colons before them are in order. -/
def TwoDigits (src : String) : Prop :=
  ∃ w rest, asBytes src = byte '[' :: (w ++ rest) ∧ Legal w ∧ w.length < maxU8 ∧ 2 ≤ digits w

theorem FifthDigit.twoDigits {src : String} (h : FifthDigit src) : TwoDigits src := by
  obtain ⟨w, c, rest, hsrc, hlegal, hlen, hfour, -⟩ := h
  exact ⟨w, c :: rest, hsrc, hlegal, hlen, by omega⟩

/-- The packed position stays at zero along a scan. -/
theorem position_of_scanning {bytes w todo : List UInt8} {s : State} {i : ShortLength}
    (h : Scanning bytes w s i todo) : s.positionInGroup = 0 := by
  cases h with
  | start => rfl
  | step h hc ht hj => exact (update_position _ _).of_ok ht

/-- No scan is given up for a digit. -/
theorem scan_kind {s : State} {i : ShortLength} {bytes : List UInt8} {e : Error}
    (h : scan s i bytes = .err e) : e.kind ≠ .ipv6TooManyHexDigits := by
  induction bytes generalizing s i with
  | nil =>
    cases h
    exact fun h => Err.Kind.noConfusion h
  | cons c bytes ih =>
    rw [scan] at h
    split at h
    · cases h
    rcases Outcome.bind_eq_err.mp h with h | ⟨t, -, h⟩
    · obtain ⟨kind, hkind, rfl⟩ := Outcome.mapErr_eq_err.mp h
      exact (update_position s c).of_err hkind
    rcases Outcome.bind_eq_err.mp h with h | ⟨j, -, h⟩
    · obtain ⟨-, rfl⟩ := Outcome.okOr_eq_err.mp h
      exact fun h => Err.Kind.noConfusion h
    · exact ih h

theorem digits_lt_two {src : String} (htwo : ¬TwoDigits src) {bytes w todo : List UInt8}
    {s : State} {i : ShortLength} (hsrc : asBytes src = byte '[' :: bytes)
    (h : Scanning bytes w s i todo) : digits w < 2 := by
  obtain ⟨rfl, hi, -⟩ := h.spec
  have hle := i.le
  apply Nat.lt_of_not_le
  intro hd
  exact htwo ⟨w, todo, hsrc, h.reads.legal, by omega, hd⟩

theorem legal_prefix {u v : List UInt8} (h : Legal (u ++ v)) : Legal u := by
  induction v using List.reverseRecOn with
  | nil => rwa [List.append_nil] at h
  | append_singleton v c ih =>
    rw [← List.append_assoc] at h
    exact ih h.of_concat

/-- Of a run of five digits in an accepted literal, the fifth has been read. -/
theorem fifthDigit_of_run {src : String} {span : Ipv6Span} (h : new src = .ok span)
    {run : List UInt8} (hrun : run <:+: between src) (hall : ∀ c ∈ run, isHexDigit c = true)
    (hlen : 4 < run.length) : FifthDigit src := by
  obtain ⟨w, rest, hsrc, hinner, -, -⟩ := new_eq_ok h
  have hw : byte ']' ∉ w := fun hmem => absurd (hinner _ hmem) (by decide)
  rw [between_eq hsrc hw] at hrun
  obtain ⟨hspan, hlegal, -⟩ := (new_eq_ok_iff hsrc hw).mp h
  obtain ⟨u, v, rfl⟩ := hrun
  have hle := span.length.le
  have hdigits : digits (u ++ run) = run.length + digits u := trailing_append u hall
  obtain ⟨x, c, y, hx, hfour, hc⟩ :=
    exists_of_lt_trailing (show 4 < digits (u ++ run) by omega)
  rw [hx, List.append_assoc] at hsrc hlegal
  rw [hx, List.length_append, List.length_append] at hspan
  refine ⟨x, c, y ++ (v ++ byte ']' :: rest), by simpa using hsrc, legal_prefix hlegal, ?_,
    hfour, hc⟩
  omega

theorem finish_kind {src : String} {s : State} {i : ShortLength} {e : Error}
    (h : finish src s i = .err e) : e.kind ≠ .ipv6TooManyHexDigits := by
  rw [finish] at h
  rcases Outcome.bind_eq_err.mp h with h | ⟨_, -, h⟩
  · exact absurd h Outcome.assert_ne_err
  rcases Outcome.bind_eq_err.mp h with h | ⟨_, -, h⟩
  · exact absurd h Outcome.assert_ne_err
  rcases Outcome.bind_eq_err.mp h with h | ⟨j, -, h⟩
  · obtain ⟨-, rfl⟩ := Outcome.okOr_eq_err.mp h
    exact fun h => Err.Kind.noConfusion h
  rw [checkGroups] at h
  split at h
  · split at h
    · cases h
    · cases h
      exact fun h => Err.Kind.noConfusion h
  · split at h <;> cases h

/-- No literal is refused for its digits. -/
theorem new_kind {src : String} {bytes : List UInt8} {e : Error}
    (hsrc : asBytes src = byte '[' :: bytes) (h : new src = .err e) :
    e.kind ≠ .ipv6TooManyHexDigits := by
  rw [new_bracket hsrc] at h
  rcases Outcome.bind_eq_err.mp h with h | ⟨_, -, h⟩
  · exact scan_kind h
  · exact finish_kind h

theorem widthBounded_iff (src : String) : WidthBounded src ↔ ¬FifthDigit src := by
  constructor
  · rintro hwidth ⟨w, c, rest, hsrc, hlegal, hlen, hfour, hc⟩
    obtain ⟨s, i, hscan⟩ := Scanning.of_legal (c :: rest) hlegal hlen
    exact new_kind hsrc (hwidth.fifth _ hsrc w s i c rest hscan hfour hc) rfl
  · intro hfifth
    refine ⟨?_, ?_⟩
    · intro span hnew run hrun hall
      apply Nat.le_of_not_lt
      intro hlen
      exact hfifth (fifthDigit_of_run hnew hrun hall hlen)
    · intro bytes hsrc w s i c todo hscan hfour hc
      obtain ⟨rfl, hi, -⟩ := hscan.spec
      have hle := i.le
      exact absurd ⟨w, c, todo, hsrc, hscan.reads.legal, by omega, hfour, hc⟩ hfifth

theorem positionExact_iff (src : String) : PositionExact src ↔ ¬TwoDigits src := by
  constructor
  · rintro hposition ⟨w, rest, hsrc, hlegal, hlen, htwo⟩
    obtain ⟨s, i, hscan⟩ := Scanning.of_legal rest hlegal hlen
    have hpos := hposition _ hsrc w s i rest hscan (by omega)
    rw [position_of_scanning hscan] at hpos
    have hzero : (0 : UInt8).toNat = 0 := rfl
    omega
  · intro htwo bytes hsrc w s i todo hscan hone
    have hlt := digits_lt_two htwo hsrc hscan
    have hdigits : digits w - 1 = 0 := by omega
    rw [position_of_scanning hscan, hdigits]
    rfl

/-- The widths of groups are bounded where no fifth digit is reached, and the packed position
is right where no group has two digits: it is worked out from a colon count that has just been
cleared, so it stays at zero. -/
theorem group_width_iff (src : String) :
    (GroupWidth src ↔ ¬TwoDigits src) ∧ (WidthBounded src ↔ ¬FifthDigit src) ∧
      (PositionExact src ↔ ¬TwoDigits src) := by
  refine ⟨?_, widthBounded_iff src, positionExact_iff src⟩
  constructor
  · intro hwidth
    exact (positionExact_iff src).mp hwidth.position
  · intro htwo
    have hfifth : ¬FifthDigit src := fun hfifth => htwo hfifth.twoDigits
    exact ⟨(widthBounded_iff src).mpr hfifth, (positionExact_iff src).mpr htwo⟩

/-- The scan accepts a group of five digits. -/
theorem group_width_fails : ¬GroupWidth "[12345::]" ∧ ¬WidthBounded "[12345::]" := by
  have hwidth : ¬WidthBounded "[12345::]" := by
    intro h
    have hnew : new "[12345::]" = .ok ⟨⟨9, by decide, by decide⟩⟩ := by decide +kernel
    have hrun : (asBytes "12345") <:+: between "[12345::]" := ⟨[], asBytes "::", by decide⟩
    have hall : ∀ c ∈ asBytes "12345", isHexDigit c = true := List.all_eq_true.mp (by decide)
    exact absurd (h.accepted _ hnew _ hrun hall) (by decide)
  exact ⟨fun h => hwidth h.toWidthBounded, hwidth⟩

end Ipv6Span

end ContainerImageDistRef
