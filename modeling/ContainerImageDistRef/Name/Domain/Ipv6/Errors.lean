import ContainerImageDistRef.Name.Domain.Ipv6.StateMeaning
import ContainerImageDistRef.Reference

/-!
# The errors of the IPv6 parser

Every failure stands at the first byte that the colons and digits before it do
not allow, or at the end. The kind of it follows from these two alone.
-/

namespace ContainerImageDistRef

open ByteString Groups

namespace Ipv6

/-- Why the byte `c` is refused after the text `w`. -/
inductive Refused (w : List UInt8) : UInt8 → Err.Kind → Prop
  | slash : Refused w (byte '/') .ipv6MissingClosingBracket
  | foreign {c : UInt8} (hinner : isInner c = false) (hslash : c ≠ byte '/') :
      Refused w c .ipv6InvalidChar
  | pair (h : trailing isColon w = 2 ∨ trailing isColon w = 1 ∧ Doubled (byte ':') w) :
      Refused w (byte ':') .ipv6BadColon
  | group (h : trailing isColon w = 0 ∨ trailing isColon w = 1 ∧ ¬Doubled (byte ':') w)
      (hcount : w.count (byte ':') = 7) : Refused w (byte ':') .ipv6TooManyGroups

theorem Reads.colon_eq_err {w : List UInt8} {a : Colons} (h : Reads w a) {kind : Err.Kind}
    (hkind : a.colon = .err kind) : Refused w (byte ':') kind := by
  have hrun := h.run
  have hrun_le := h.run_le
  have hcount := h.count
  have hcount_le := h.legal.count
  rw [Colons.colon] at hkind
  split at hkind
  · rename_i hbad
    cases hkind
    apply Refused.pair
    rcases hbad with hthird | ⟨hone, hpair⟩
    · exact Or.inl (by omega)
    · exact Or.inr ⟨by omega, h.double.mp hpair⟩
  · rename_i hbad
    rw [not_or, not_and, h.double] at hbad
    split at hkind
    · cases hkind
      refine .group ?_ (by omega)
      by_cases hzero : a.run = 0
      · exact Or.inl (by omega)
      · have hone : a.run = 1 := by omega
        exact Or.inr ⟨by omega, hbad.2 hone⟩
    · cases hkind

theorem Reads.colon_of_refused {w : List UInt8} {a : Colons} (h : Reads w a) {kind : Err.Kind}
    (hkind : Refused w (byte ':') kind) : a.colon = .err kind := by
  have hrun := h.run
  have hcount := h.count
  have hdouble := h.double
  rw [Colons.colon]
  cases hkind with
  | foreign hinner => exact absurd hinner (by decide)
  | pair hpair =>
    apply if_pos
    rcases hpair with hthird | ⟨hone, hpair⟩
    · exact Or.inl (by omega)
    · exact Or.inr ⟨by omega, hdouble.mpr hpair⟩
  | group hpair hseven =>
    rw [if_neg, if_pos (by omega)]
    rintro (hthird | ⟨hone, htwice⟩)
    · omega
    · rcases hpair with hzero | ⟨-, hnone⟩
      · omega
      · exact hnone (hdouble.mp htwice)

/-- A turn of the scan fails for the text before it and the byte. -/
theorem Reads.update_eq_err {w : List UInt8} {s : State} (h : Reads w s.colons) {c : UInt8}
    {kind : Err.Kind} : update s c = .err kind ↔ Refused w c kind := by
  by_cases hcolon : c = byte ':'
  · subst hcolon
    rw [update_colon_eq_err]
    exact ⟨h.colon_eq_err, h.colon_of_refused⟩
  constructor
  · intro hu
    rw [update] at hu
    split at hu
    · have hread := (incrementPositionInGroup_colons s).symm.trans (Outcome.map_eq_err.mpr hu)
      cases hread
    · rename_i hhex
      split at hu
      · rename_i hslash
        cases hu
        subst hslash
        exact .slash
      · rename_i hslash
        cases hu
        refine .foreign ?_ hslash
        simpa [isInner, hcolon] using hhex
  · intro hrefused
    cases hrefused with
    | slash => rfl
    | foreign hinner hslash =>
      have hhex : ¬isHexDigit c = true := by
        rw [isInner, Bool.or_eq_false_iff] at hinner
        simp [hinner.1]
      rw [update, if_neg hhex, if_neg hcolon, if_neg hslash]
    | pair hpair => exact absurd rfl hcolon
    | group hpair hcount => exact absurd rfl hcolon

namespace Scanning

variable {bytes w todo : List UInt8} {s : State} {i : ShortLength}

/-- Where the scan stops, with the error of it. -/
theorem exists_stop {e : Error} (h : Scanning bytes w s i todo) (hscan : scan s i todo = .err e) :
    ∃ inner t j rest, Scanning bytes (w ++ inner) t j rest ∧
      (rest = [] ∧ e = ⟨j.val, .ipv6MissingClosingBracket⟩ ∨
        ∃ c rest', rest = c :: rest' ∧ c ≠ byte ']' ∧
          ((∃ kind, update t c = .err kind ∧ e = ⟨j.val, kind⟩) ∨
            (∃ t', update t c = .ok t') ∧ j.checkedAdd 1 = none ∧ e = ⟨maxU8, .ipv6TooLong⟩)) := by
  induction todo generalizing w s i with
  | nil =>
    cases hscan
    exact ⟨[], s, i, [], by simpa using h, Or.inl ⟨rfl, rfl⟩⟩
  | cons c todo ih =>
    rw [scan] at hscan
    split at hscan
    · cases hscan
    · rename_i hc
      have hstart : Scanning bytes (w ++ []) s i (c :: todo) := by simpa using h
      rcases Outcome.bind_eq_err.mp hscan with hu | ⟨t, hu, hscan⟩
      · obtain ⟨kind, hkind, rfl⟩ := Outcome.mapErr_eq_err.mp hu
        exact ⟨[], s, i, _, hstart, Or.inr ⟨c, todo, rfl, hc, Or.inl ⟨kind, hkind, rfl⟩⟩⟩
      rw [Outcome.mapErr_eq_ok] at hu
      rcases Outcome.bind_eq_err.mp hscan with hlong | ⟨j, hj, hscan⟩
      · obtain ⟨hnone, rfl⟩ := Outcome.okOr_eq_err.mp hlong
        exact ⟨[], s, i, _, hstart,
          Or.inr ⟨c, todo, rfl, hc, Or.inr ⟨⟨t, hu⟩, hnone, rfl⟩⟩⟩
      · obtain ⟨inner, t', j', rest, hend, hstop⟩ :=
          ih (.step h hc hu (Outcome.okOr_eq_ok.mp hj)) hscan
        exact ⟨[c] ++ inner, t', j', rest, by rwa [← List.append_assoc], hstop⟩

end Scanning

end Ipv6

namespace Ipv6Span

open Ipv6

theorem checkGroups_eq_err {w : List UInt8} {s : State} {i : ShortLength} {e : Error}
    (h : Reads w s.colons) :
    checkGroups s i = .err e ↔
      w.count (byte ':') ≠ 7 ∧ ¬Doubled (byte ':') w ∧ e = ⟨i.val, .ipv6TooFewGroups⟩ := by
  have hok : checkGroups s i = .ok ⟨i⟩ ↔ _ := checkGroups_eq_ok h
  constructor
  · intro herr
    rw [herr] at hok
    have hnone : ¬(w.count (byte ':') = 7 ∨ Doubled (byte ':') w) := fun hcolons => by
      cases hok.mpr ⟨rfl, hcolons⟩
    rw [not_or] at hnone
    refine ⟨hnone.1, hnone.2, ?_⟩
    rw [checkGroups] at herr
    split at herr
    · split at herr
      · cases herr
      · cases herr
        rfl
    · split at herr <;> cases herr
  · rintro ⟨hcount, hdouble, rfl⟩
    have hgroup : s.currentGroup.toNat = w.count (byte ':') := h.count
    have hpair : ¬s.doubleColonAlreadySeen = true := h.double.not.mpr hdouble
    rw [checkGroups]
    rcases currentGroup_le s with hle | hseven
    · rw [if_pos hle, if_neg hpair]
    · rw [hseven] at hgroup
      exact absurd hgroup.symm hcount

/-- Why a text is refused, and where. -/
inductive Fails (src : String) : Error → Prop
  | missing (hsrc : asBytes src = []) : Fails src ⟨0, .hostMissing⟩
  | unopened {c : UInt8} {rest : List UInt8} (hsrc : asBytes src = c :: rest)
      (hc : c ≠ byte '[') : Fails src ⟨0, .ipv6InvalidChar⟩
  | unclosed {w : List UInt8} (hsrc : asBytes src = byte '[' :: w) (hl : Legal w)
      (hlen : w.length < maxU8) : Fails src ⟨w.length + 1, .ipv6MissingClosingBracket⟩
  | refused {w rest : List UInt8} {c : UInt8} {kind : Err.Kind}
      (hsrc : asBytes src = byte '[' :: (w ++ c :: rest)) (hl : Legal w)
      (hlen : w.length < maxU8) (hc : c ≠ byte ']') (hkind : Refused w c kind) :
      Fails src ⟨w.length + 1, kind⟩
  | long {w rest : List UInt8} (hsrc : asBytes src = byte '[' :: (w ++ rest)) (hl : Legal w)
      (hlen : w.length = maxU8) : Fails src ⟨maxU8, .ipv6TooLong⟩
  | longClosed {w rest : List UInt8} (hsrc : asBytes src = byte '[' :: (w ++ byte ']' :: rest))
      (hl : Legal w) (hlen : w.length + 1 = maxU8) : Fails src ⟨maxU8, .ipv6TooLong⟩
  | few {w rest : List UInt8} (hsrc : asBytes src = byte '[' :: (w ++ byte ']' :: rest))
      (hl : Legal w) (hlen : w.length + 1 < maxU8) (hcount : w.count (byte ':') ≠ 7)
      (hdouble : ¬Doubled (byte ':') w) : Fails src ⟨w.length + 2, .ipv6TooFewGroups⟩

section Scanning

variable {src : String} {w rest todo : List UInt8} {s : State} {i : ShortLength}

theorem new_of_scanning (hsrc : asBytes src = byte '[' :: (w ++ todo))
    (h : Scanning (w ++ todo) w s i todo) :
    new src = scan s i todo >>= fun scanned => finish src scanned.1 scanned.2 := by
  rw [new_bracket hsrc, h.scan_eq]

theorem new_of_closed (hsrc : asBytes src = byte '[' :: (w ++ byte ']' :: rest))
    (h : Scanning (w ++ byte ']' :: rest) w s i (byte ']' :: rest)) :
    new src = Outcome.okOr (i.checkedAdd 1) ⟨maxU8, .ipv6TooLong⟩ >>= checkGroups s := by
  rw [new_of_scanning hsrc h, scan, if_pos rfl, Outcome.ok_bind]
  exact finish_eq hsrc h.spec.2.1

/-- The scan comes to an error of the table. -/
theorem fails_of_err {e : Error} {bytes : List UInt8} (hsrc : asBytes src = byte '[' :: bytes)
    (h : new src = .err e) : Fails src e := by
  rw [new_bracket hsrc] at h
  rcases Outcome.bind_eq_err.mp h with hscan | ⟨⟨s, i⟩, hscan, hend⟩
  · obtain ⟨w, t, j, rest, hstop, hcases⟩ := Scanning.exists_stop .start hscan
    rw [List.nil_append] at hstop
    obtain ⟨rfl, hj, hrun⟩ := hstop.spec
    have hreads := hstop.reads
    have hle := j.le
    rcases hcases with ⟨rfl, rfl⟩ | ⟨c, rest, rfl, hc, ⟨kind, hkind, rfl⟩ | ⟨⟨t', ht'⟩, hnone, rfl⟩⟩
    · rw [List.append_nil] at hsrc
      rw [hj]
      exact .unclosed hsrc hreads.legal (by omega)
    · rw [hj]
      exact .refused hsrc hreads.legal (by omega) hc (hreads.update_eq_err.mp hkind)
    · have hover := Length.checkedAdd_eq_none.mp hnone
      have hlegal : Legal (w ++ [c]) := by
        apply update_iff.mp
        refine ⟨t', ?_⟩
        rw [List.foldlM_append, hrun, Outcome.ok_bind, List.foldlM_cons, ht']
        rfl
      have hsrc' : asBytes src = byte '[' :: ((w ++ [c]) ++ rest) := by
        rw [hsrc, List.append_assoc, List.singleton_append]
      refine .long hsrc' hlegal ?_
      rw [List.length_append, List.length_singleton]
      omega
  · obtain ⟨w, rest, hclosed⟩ := Scanning.exists_end .start hscan
    rw [List.nil_append] at hclosed
    obtain ⟨rfl, hi, -⟩ := hclosed.spec
    have hreads := hclosed.reads
    have hle := i.le
    change finish src s i = .err e at hend
    rw [finish_eq hsrc hi] at hend
    rcases Outcome.bind_eq_err.mp hend with hlong | ⟨j, hj, hgroups⟩
    · obtain ⟨hnone, rfl⟩ := Outcome.okOr_eq_err.mp hlong
      have hover := Length.checkedAdd_eq_none.mp hnone
      exact .longClosed hsrc hreads.legal (by omega)
    · have hji := Length.checkedAdd_eq_some.mp (Outcome.okOr_eq_ok.mp hj)
      have hjle := j.le
      obtain ⟨hcount, hdouble, rfl⟩ := (checkGroups_eq_err hreads).mp hgroups
      rw [← hji, hi]
      exact .few hsrc hreads.legal (by omega) hcount hdouble

end Scanning

theorem checkedAdd_one_none {i : ShortLength} (h : i.val = maxU8) : i.checkedAdd 1 = none :=
  Length.checkedAdd_eq_none.mpr (by omega)

/-- An error of the table is the error of the parser. -/
theorem Fails.new_eq {src : String} {e : Error} (h : Fails src e) : new src = .err e := by
  cases h with
  | missing hsrc => rw [new, hsrc]
  | unopened hsrc hc =>
    rw [new, hsrc]
    exact if_neg hc
  | @unclosed w hsrc hl hlen =>
    obtain ⟨s, i, hscan⟩ := Scanning.of_legal [] hl hlen
    have hsrc' : asBytes src = byte '[' :: (w ++ []) := by simpa using hsrc
    rw [new_of_scanning hsrc' hscan, scan, hscan.spec.2.1]
    rfl
  | @refused w rest c kind hsrc hl hlen hc hkind =>
    obtain ⟨s, i, hscan⟩ := Scanning.of_legal (c :: rest) hl hlen
    rw [new_of_scanning hsrc hscan, scan, if_neg hc, hscan.reads.update_eq_err.mpr hkind,
      hscan.spec.2.1]
    rfl
  | @long w rest hsrc hl hlen =>
    obtain ⟨u, c, rfl⟩ : ∃ u c, w = u ++ [c] := by
      rcases List.eq_nil_or_concat w with rfl | ⟨u, c, rfl⟩
      · exact absurd hlen (by decide)
      · exact ⟨u, c, List.concat_eq_append⟩
    rw [List.length_append, List.length_singleton] at hlen
    rw [List.append_assoc] at hsrc
    obtain ⟨s, i, hscan⟩ := Scanning.of_legal ([c] ++ rest) hl.of_concat (by omega)
    obtain ⟨t, ht⟩ := update_iff.mpr hl
    rw [List.foldlM_append, hscan.spec.2.2, Outcome.ok_bind, List.foldlM_cons] at ht
    obtain ⟨t', ht', -⟩ := Outcome.bind_eq_ok.mp ht
    have hc : c ≠ byte ']' := by
      rintro rfl
      exact bracket_not_mem hl (List.mem_append_right _ (List.mem_singleton_self _))
    have hi := hscan.spec.2.1
    rw [new_of_scanning hsrc hscan, List.singleton_append, scan, if_neg hc, ht', Outcome.mapErr_ok,
      Outcome.ok_bind, checkedAdd_one_none (by omega)]
    rfl
  | @longClosed w rest hsrc hl hlen =>
    obtain ⟨s, i, hscan⟩ := Scanning.of_legal (byte ']' :: rest) hl (by omega)
    have hi := hscan.spec.2.1
    rw [new_of_closed hsrc hscan, checkedAdd_one_none (by omega)]
    rfl
  | @few w rest hsrc hl hlen hcount hdouble =>
    obtain ⟨s, i, hscan⟩ := Scanning.of_legal (byte ']' :: rest) hl (by omega)
    have hi := hscan.spec.2.1
    let j : ShortLength := ⟨w.length + 2, Nat.succ_pos _, hlen⟩
    have hj : i.checkedAdd 1 = some j := Length.checkedAdd_eq_some.mpr (by rw [hi])
    rw [new_of_closed hsrc hscan, hj, Outcome.okOr_some, Outcome.ok_bind]
    exact (checkGroups_eq_err hscan.reads).mpr ⟨hcount, hdouble, rfl⟩

theorem new_eq_err_iff {src : String} {e : Error} : new src = .err e ↔ Fails src e := by
  constructor
  · intro h
    cases hsrc : asBytes src with
    | nil =>
      rw [new, hsrc] at h
      cases h
      exact .missing hsrc
    | cons c bytes =>
      by_cases hc : c = byte '['
      · subst hc
        exact fails_of_err hsrc h
      · rw [new, hsrc] at h
        dsimp only at h
        rw [if_neg hc] at h
        cases h
        exact .unopened hsrc hc
  · exact Fails.new_eq

end Ipv6Span

end ContainerImageDistRef
