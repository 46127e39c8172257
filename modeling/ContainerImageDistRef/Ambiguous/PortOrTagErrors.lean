import ContainerImageDistRef.Ambiguous.PortOrTag
import ContainerImageDistRef.Reference

/-!
# Ports, tags and their errors

What the scan behind a colon returns is a function of the text up to the stop
byte, the place of the first byte that only a tag can have included. Its errors
are a table over the text read so far and the next byte.
-/

namespace ContainerImageDistRef

open ByteString Grammar

namespace PortOrTag

namespace Reads

variable {mode : Kind} {u : List UInt8} {s : State} {c : UInt8}

/-- A turn fails at a foreign byte, or at the limit of the kind. -/
theorem turn_eq_err (h : Reads mode u s) (hstop : isStop c = false) {e : Error} :
    (s.update c >>= State.advance) = .err e ↔
      (isTagByte c = false ∧ e = ⟨u.length, .portOrTagInvalidChar⟩) ∨
        (isTagByte c = true ∧ kindOf mode (u ++ [c]) = .tag ∧ 129 ≤ u.length ∧
          e = ⟨u.length, .tagTooLong⟩) ∨
        (isTagByte c = true ∧ kindOf mode (u ++ [c]) = .port ∧ u.length = maxU8 ∧
          e = ⟨maxU8, .portTooLong⟩) := by
  have hlen := h.len
  have hle := s.len.le
  cases hc : isTagByte c with
  | false =>
    rw [update_other s hc hstop, hlen]
    simp [eq_comm]
  | true =>
    rw [h.update hc, Outcome.ok_bind, State.advance]
    dsimp only
    cases hk : kindOf mode (u ++ [c]) with
    | tag =>
      by_cases hlimit : 129 ≤ u.length
      · rw [if_pos ⟨by omega, rfl⟩, hlen]
        simp [hlimit, eq_comm]
      · have hadd : s.len.checkedAdd 1 = some ⟨s.len.val + 1, Nat.succ_pos _, by
            have hmax : 129 < maxU8 := by decide
            omega⟩ := Length.checkedAdd_eq_some.mpr rfl
        rw [if_neg fun hnot => hlimit (by omega), hadd]
        simp [hlimit]
    | port =>
      rw [if_neg fun hnot => by cases hnot.2]
      constructor
      · intro herr
        rcases Outcome.bind_eq_err.mp herr with herr | ⟨len, -, herr⟩
        · obtain ⟨hnone, rfl⟩ := Outcome.okOr_eq_err.mp herr
          have hover := Length.checkedAdd_eq_none.mp hnone
          have hmax : u.length = maxU8 := by omega
          exact Or.inr (Or.inr ⟨rfl, rfl, hmax, by rw [hlen, hmax]⟩)
        · cases herr
      · rintro (⟨hnot, -⟩ | ⟨-, hnot, -⟩ | ⟨-, -, hmax, rfl⟩)
        · cases hnot
        · cases hnot
        · have hnone : s.len.checkedAdd 1 = none :=
            Length.checkedAdd_eq_none.mpr (by omega)
          rw [hnone, hlen, hmax]
          rfl

end Reads

end PortOrTag

namespace PortOrTagSpan

open PortOrTag

/-- Why a port or tag is refused, and where. -/
inductive Fails (mode : Kind) (src : String) : Error → Prop
  | missing (hstop : StopsAt isStop (asBytes src)) : Fails mode src ⟨0, .portOrTagMissing⟩
  | first {c : UInt8} (hhead : (asBytes src).head? = some c) (hc : isWord c = false)
      (hstop : isStop c = false) : Fails mode src ⟨0, .portOrTagInvalidChar⟩
  | foreign {u rest : List UInt8} {c : UInt8} (hsrc : asBytes src = u ++ c :: rest)
      (hu : Readable mode u) (hc : isTagByte c = false) (hstop : isStop c = false) :
      Fails mode src ⟨u.length, .portOrTagInvalidChar⟩
  | slash {u rest : List UInt8} (hsrc : asBytes src = u ++ byte '/' :: rest)
      (hu : Readable mode u) (hk : kindOf mode u = .tag) :
      Fails mode src ⟨firstTagCharOf mode u, .portInvalidChar⟩
  | tagLong {u rest : List UInt8} {c : UInt8} (hsrc : asBytes src = u ++ c :: rest)
      (hu : Readable mode u) (hc : isTagByte c = true) (hk : kindOf mode (u ++ [c]) = .tag)
      (hlen : 129 ≤ u.length) : Fails mode src ⟨u.length, .tagTooLong⟩
  | portLong {u rest : List UInt8} {c : UInt8} (hsrc : asBytes src = u ++ c :: rest)
      (hu : Readable mode u) (hc : isTagByte c = true) (hk : kindOf mode (u ++ [c]) = .port)
      (hlen : u.length = maxU8) : Fails mode src ⟨maxU8, .portTooLong⟩

/-- The text and what follows it determine the span. -/
theorem Spans.unique {mode : Kind} {u rest : String} {span span' : PortOrTagSpan}
    (h : Spans mode u rest span) (h' : Spans mode u rest span') : span = span' := by
  obtain ⟨length, kind, first⟩ := span
  obtain ⟨length', kind', first'⟩ := span'
  obtain rfl : length = length' := Length.ext (h.len.trans h'.len.symm)
  obtain rfl : kind = kind' := h.kind.trans h'.kind.symm
  obtain rfl : first = first' := h.first.trans h'.first.symm
  rfl

section

variable {mode : Kind} {src : String} {e : Error}

/-- The scan fails as the table says. -/
theorem Fails.new_eq (h : Fails mode src e) : new src mode = .err e := by
  cases h with
  | missing hstop =>
    have hkind : firstKind mode (asBytes src).head? = .err .portOrTagMissing := by
      cases hhead : (asBytes src).head? with
      | none => rfl
      | some c =>
        rcases isStop_cases (hstop c hhead) with rfl | rfl <;> rfl
    rw [new, hkind]
    rfl
  | @first c hhead hc hstop =>
    have hkind : firstKind mode (some c) = .err .portOrTagInvalidChar := by
      have hclass : ∀ c, isWord c = false → isStop c = false → isDigit c = false ∧
          (isLower c || isUpper c || c == byte '_') = false ∧ ¬(c = byte '/' ∨ c = byte '@') :=
        forall_byte (by decide)
      obtain ⟨hd, hw, hs⟩ := hclass c hc hstop
      rw [firstKind, hd, hw, if_neg Bool.false_ne_true, if_neg Bool.false_ne_true, if_neg hs]
    rw [new, hhead, hkind]
    rfl
  | foreign hsrc hu hc hstop =>
    obtain ⟨s, hs, hnew⟩ := new_of_readable hsrc hu
    rw [hnew, scanLoop_cons s _ hstop, (hs.turn_eq_err hstop).mpr (Or.inl ⟨hc, rfl⟩)]
    rfl
  | slash hsrc hu hk =>
    obtain ⟨s, hs, hnew⟩ := new_of_readable hsrc hu
    rw [hnew, scanLoop_stop s _ (by decide), hs.update_slash, if_pos hk]
    rfl
  | tagLong hsrc hu hc hk hlen =>
    obtain ⟨s, hs, hnew⟩ := new_of_readable hsrc hu
    have hstop := isStop_of_isTagByte _ hc
    rw [hnew, scanLoop_cons s _ hstop,
      (hs.turn_eq_err hstop).mpr (Or.inr (Or.inl ⟨hc, hk, hlen, rfl⟩))]
    rfl
  | portLong hsrc hu hc hk hlen =>
    obtain ⟨s, hs, hnew⟩ := new_of_readable hsrc hu
    have hstop := isStop_of_isTagByte _ hc
    rw [hnew, scanLoop_cons s _ hstop,
      (hs.turn_eq_err hstop).mpr (Or.inr (Or.inr ⟨hc, hk, hlen, rfl⟩))]
    rfl

/-- A call that fails comes to an error of the table. -/
theorem fails_of_err (h : new src mode = .err e) : ∃ e', Fails mode src e' := by
  by_cases hmissing : StopsAt isStop (asBytes src)
  · exact ⟨_, .missing hmissing⟩
  obtain ⟨c, hhead, hstop⟩ : ∃ c, (asBytes src).head? = some c ∧ isStop c = false := by
    simpa [StopsAt] using hmissing
  cases hc : isWord c with
  | false => exact ⟨_, .first hhead hc hstop⟩
  | true =>
    obtain ⟨bytes, hbytes⟩ := List.head?_eq_some_iff.mp hhead
    obtain ⟨w, rest, t, rfl, ht, hloop, hend⟩ := (Reads.start mode hc).exists_end bytes
    have hsrc : asBytes src = [c] ++ w ++ rest := by simpa using hbytes
    have hu := ht.readable
    rcases hend with hend | ⟨d, rest, e, rfl, hd, herr⟩
    · by_cases hslash : rest.head? = some (byte '/') ∧ kindOf mode ([c] ++ w) = .tag
      · obtain ⟨r, rfl⟩ := List.head?_eq_some_iff.mp hslash.1
        exact ⟨_, .slash hsrc hu hslash.2⟩
      · have hport : rest.head? = some (byte '/') → kindOf mode ([c] ++ w) = .port := by
          intro hr
          cases hk : kindOf mode ([c] ++ w) with
          | port => rfl
          | tag => exact absurd ⟨hr, hk⟩ hslash
        obtain ⟨t', ht', hends⟩ := ht.scanLoop_end hend hport
        obtain ⟨u, after, rfl, hubytes, rfl⟩ := exists_append_of_ascii hsrc fun d hd =>
          ascii_of_isTagByte d (ht.text.forall d hd)
        rw [← hubytes] at hends
        rw [new_word hbytes hc, hloop, ht', Outcome.ok_bind, finish_eq hends] at h
        cases h
    · rcases (ht.turn_eq_err hd).mp herr with ⟨hd', -⟩ | ⟨hd', hk, hlen, -⟩ | ⟨hd', hk, hlen, -⟩
      · exact ⟨_, .foreign hsrc hu hd' hd⟩
      · exact ⟨_, .tagLong hsrc hu hd' hk hlen⟩
      · exact ⟨_, .portLong hsrc hu hd' hk hlen⟩

theorem new_eq_ok_iff {span : PortOrTagSpan} :
    new src mode = .ok span ↔ ∃ u rest, src = u ++ rest ∧ Spans mode u rest span := by
  constructor
  · exact (new_sat src mode).of_ok
  · rintro ⟨u, rest, rfl, hspan⟩
    have hlen : len u ≤ maxU8 := Nat.le_trans (Nat.le_of_eq hspan.len.symm) span.length.le
    obtain ⟨span', hnew, hspan'⟩ :=
      new_ok mode hspan.text hlen hspan.bound hspan.stops hspan.slash
    rw [hnew, hspan.unique hspan']

theorem new_eq_err_iff : new src mode = .err e ↔ Fails mode src e := by
  constructor
  · intro h
    obtain ⟨e', he⟩ := fails_of_err h
    cases h.symm.trans he.new_eq
    exact he
  · exact Fails.new_eq

end

/-- What the scan behind a colon returns and how it fails, also in a reference: there the error
stands behind the first segment and its colon. -/
theorem port_or_tag_iff (mode : Kind) (src : String) :
    (∀ span, new src mode = .ok span ↔
        ∃ u rest, src = u ++ rest ∧ Spans mode u rest span) ∧
      (∀ e, new src mode = .err e ↔ Fails mode src e) ∧
      ∀ h e, (Ipv6Literal h ∨ HostOrPath.Segment .neutral (asBytes h) ∧ len h ≤ 255) →
        Fails .port src e →
        ImgRef.new (h ++ ":" ++ src) = .err ⟨len h + 1 + e.index, e.kind⟩ := by
  refine ⟨fun span => new_eq_ok_iff, fun e => new_eq_err_iff, ?_⟩
  intro h e hh hfails
  have herr := hfails.new_eq
  have hindex : e.index ≤ maxU8 := ((new_sat src .port).of_err herr).2
  obtain ⟨left, hleft, hlen⟩ : ∃ left, HostOrPathSpan.new (h ++ (":" ++ src)) .any = .ok left ∧
      left.length.val = len h := by
    rcases hh with hliteral | ⟨hsegment, hle⟩
    · obtain ⟨left, hleft, hspans⟩ := HostOrPathSpan.new_ipv6 hliteral (":" ++ src)
      exact ⟨left, hleft, hspans.length⟩
    · have hstop : StopsAt HostOrPath.isStop (asBytes (":" ++ src)) := by
        rw [asBytes_append]
        exact stopsAt_cons.mpr (by decide)
      obtain ⟨left, hleft, hspans⟩ :=
        HostOrPathSpan.new_segment .any (":" ++ src) (by simp) hsegment hle hstop
      exact ⟨left, hleft, hspans.length⟩
  have hle : len h ≤ maxU8 := hlen ▸ left.length.le
  have hcolon : asBytes ":" = [byte ':'] := by decide
  have hne : asBytes (h ++ (":" ++ src)) ≠ [] := by
    rw [asBytes_append, asBytes_append, hcolon]
    simp
  have hsum : saturatingAddU16 (len h + 1) e.index = len h + 1 + e.index := by
    apply saturatingAddU16_of_le
    have hmax : maxU8 + 1 + maxU8 ≤ maxU16 := by decide
    omega
  rw [String.append_assoc, ImgRef.new, RefSpan.new, if_neg hne, DomainOrRefSpan.new, hleft,
    Outcome.ok_bind, DomainOrRefSpan.lookahead_colon src hlen, herr, Outcome.mapErr_err, hsum]
  rfl

end PortOrTagSpan

end ContainerImageDistRef
