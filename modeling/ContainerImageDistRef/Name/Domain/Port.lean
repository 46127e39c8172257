import ContainerImageDistRef.Ambiguous.PortOrTag

/-! # Ports -/

namespace ContainerImageDistRef

open ByteString Grammar SeparatedList

namespace Port

def disambiguateErr (e : Error) : Error :=
  match e.kind with
  | .portOrTagInvalidChar => ⟨e.index, .portInvalidChar⟩
  | kind => ⟨e.index, kind⟩

end Port

structure PortSpan where
  length : ShortLength
  deriving DecidableEq, Repr

namespace PortSpan

def new (src : String) : Outcome Error PortSpan := do
  let span ← (PortOrTagSpan.new src .port).mapErr Port.disambiguateErr
  .ok ⟨span.length⟩

/-- `TryFrom<PortOrTagSpan>` -/
def tryFrom (ambiguous : PortOrTagSpan) : Outcome Error PortSpan := do
  let span ← ambiguous.narrow .port
  .ok ⟨span.length⟩

open PortOrTag

/-- What is read as a port and not as a tag is a port number. -/
theorem mem_portNumber {u : List UInt8} :
    u ∈ portNumber ↔ TagText u ∧ kindOf .port u = .port := by
  have hword : ∀ c, isDigit c = true → isWord c = true ∧ isTagByte c = true :=
    forall_byte (by decide)
  rw [portNumber, mem_many1_symbol, kindOf]
  constructor
  · rintro ⟨hne, hall⟩
    constructor
    · cases u with
      | nil => exact absurd rfl hne
      | cons c w =>
        exact ⟨c, w, rfl, (hword c (hall c (by simp))).1,
          fun d hd => (hword d (hall d (by simp [hd]))).2⟩
    · exact if_pos (List.all_eq_true.mpr hall)
  · rintro ⟨⟨c, w, rfl, -, -⟩, hk⟩
    constructor
    · exact List.cons_ne_nil c w
    · rw [← List.all_eq_true]
      by_contra hall
      rw [if_neg hall] at hk
      cases hk

theorem tryFrom_sat {u rest : String} {span : PortOrTagSpan} (h : span.Spans .port u rest) :
    (tryFrom span).Sat (fun p => p.length = span.length ∧ span.kind = .port)
      fun e => e.index ≤ len u := by
  cases hk : span.kind with
  | port =>
    rw [tryFrom, PortOrTagSpan.narrow, hk]
    exact ⟨rfl, rfl⟩
  | tag =>
    rw [tryFrom, PortOrTagSpan.narrow, hk]
    exact h.first_le

/-- The text of a tag is read as well: only its length is kept. -/
theorem new_text_ok {u : String} (rest : String) (hu : TagText (asBytes u)) (hlen : len u ≤ maxU8)
    (hlimit : kindOf .port (asBytes u) = .tag → len u ≤ 129)
    (hstop : StopsAt isStop (asBytes rest))
    (hslash : (asBytes rest).head? = some (byte '/') → kindOf .port (asBytes u) = .port) :
    ∃ p, new (u ++ rest) = .ok p ∧ p.length.val = len u := by
  obtain ⟨span, hspan, hspans⟩ := PortOrTagSpan.new_ok .port hu hlen hlimit hstop hslash
  refine ⟨⟨span.length⟩, ?_, hspans.len⟩
  rw [new, hspan]
  rfl

/-- An error keeps the index that the ambiguous parser gives it, which fits a byte. -/
theorem new_err {src : String} {e : Error} (h : new src = .err e) :
    e.index ≤ maxU8 ∧ ∃ kind, PortOrTagSpan.new src .port = .err ⟨e.index, kind⟩ := by
  have hindex : ∀ err : Error, (Port.disambiguateErr err).index = err.index := by
    intro err
    rw [Port.disambiguateErr.eq_def]
    split <;> rfl
  rcases Outcome.bind_eq_err.mp h with h | ⟨span, -, h⟩
  · cases hnew : PortOrTagSpan.new src .port with
    | ok span =>
      rw [hnew] at h
      cases h
    | err err =>
      rw [hnew] at h
      rw [← Outcome.err.inj h, hindex]
      exact ⟨((PortOrTagSpan.new_sat src .port).of_err hnew).2, err.kind, rfl⟩
    | panic p =>
      rw [hnew] at h
      cases h
  · cases h

/-- What has been read for a port. -/
theorem new_eq_ok {src : String} {port : PortSpan} (h : new src = .ok port) :
    ∃ u rest, src = u ++ rest ∧ port.length.val = len u ∧ TagText (asBytes u) ∧
      (kindOf .port (asBytes u) = .tag → len u ≤ 129) ∧ StopsAt isStop (asBytes rest) := by
  obtain ⟨span, hspan, hport⟩ := Outcome.bind_eq_ok.mp h
  obtain rfl := Outcome.ok.inj hport
  obtain ⟨u, rest, rfl, hs⟩ :=
    (PortOrTagSpan.new_sat src .port).of_ok (Outcome.mapErr_eq_ok.mp hspan)
  exact ⟨u, rest, rfl, hs.len, hs.text, hs.bound, hs.stops⟩

end PortSpan

end ContainerImageDistRef
