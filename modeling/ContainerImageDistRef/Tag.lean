import ContainerImageDistRef.Ambiguous.PortOrTag

/-! # Tags -/

namespace ContainerImageDistRef

open ByteString Grammar

universe u

namespace Tag

/-- The maximum length of a tag. -/
def MAX_LEN : Nat := 128

end Tag

structure TagSpan where
  length : ShortLength
  deriving DecidableEq, Repr

namespace TagSpan

/-- `TryFrom<PortOrTagSpan>` -/
def tryFrom (ambiguous : PortOrTagSpan) : Outcome Error TagSpan :=
  if ambiguous.length.val ≤ Tag.MAX_LEN then .ok ⟨ambiguous.length⟩
  else .err ⟨Tag.MAX_LEN, .tagTooLong⟩

def new (src : String) : Outcome Error TagSpan := do
  let span ← (PortOrTagSpan.new src .tag).mapErr fun e =>
    match e.kind with
    | .portOrTagInvalidChar => (⟨e.index, .tagInvalidChar⟩ : Error)
    | .portOrTagMissing => ⟨e.index, .tagMissing⟩
    | kind => ⟨e.index, kind⟩
  .ok ⟨span.length⟩

end TagSpan

namespace TagSpan

open PortOrTag

/-- The only byte that ends a tag. -/
def isEnd (c : UInt8) : Bool := c == byte '@'

theorem isStop_of_isEnd (c : UInt8) (h : isEnd c = true) : isStop c = true := by
  simp only [isEnd, isStop, Bool.or_eq_true] at h ⊢
  exact Or.inr h

theorem kindOf_tag (u : List UInt8) : kindOf .tag u = .tag := by
  simp [kindOf]

/-- The rule of a tag is its text and its limit. -/
theorem mem_tag {t : String} :
    asBytes t ∈ Grammar.tag ↔ PortOrTag.TagText (asBytes t) ∧ len t ≤ Tag.MAX_LEN := by
  rw [Grammar.tag, Language.mem_mul]
  constructor
  · rintro ⟨_, ⟨c, hc, rfl⟩, w, ⟨hlen, hw⟩, hcw⟩
    refine ⟨⟨c, w, hcw.symm, hc, hw⟩, ?_⟩
    rw [len, ← hcw]
    exact Nat.succ_le_succ hlen
  · rintro ⟨⟨c, w, hcw, hc, hw⟩, hlen⟩
    rw [len, hcw] at hlen
    exact ⟨[c], ⟨c, hc, rfl⟩, w, ⟨Nat.le_of_succ_le_succ hlen, hw⟩, hcw.symm⟩

/-- The limit that `new` puts on a tag; it is one byte above `Tag.MAX_LEN`. -/
theorem new_sat (src : String) :
    (new src).Sat
      (fun t => ∃ u rest, src = u ++ rest ∧ TagText (asBytes u) ∧ len u ≤ 129 ∧
        t.length.val = len u ∧ StopsAt isEnd (asBytes rest))
      fun e => AsciiUpTo src e.index := by
  refine Outcome.Sat.bind ((PortOrTagSpan.new_sat src .tag).mapErr fun e he => ?_)
    fun span => ?_
  · split <;> exact he.1
  · rintro ⟨u, rest, rfl, hspan⟩
    refine ⟨u, rest, rfl, hspan.text, hspan.bound (kindOf_tag _), hspan.len, fun c hc => ?_⟩
    rcases isStop_cases (hspan.stops c hc) with rfl | rfl
    · cases (kindOf_tag _).symm.trans (hspan.slash hc)
    · rfl

theorem new_ok {u : String} (rest : String) (hu : TagText (asBytes u)) (hlen : len u ≤ 129)
    (hstop : StopsAt isEnd (asBytes rest)) :
    ∃ t, new (u ++ rest) = .ok t ∧ t.length.val = len u := by
  have hslash : (asBytes rest).head? ≠ some (byte '/') := fun h =>
    absurd (hstop _ h) (by decide)
  obtain ⟨span, hspan, hspans⟩ := PortOrTagSpan.new_ok .tag hu
    (Nat.le_trans hlen (by decide)) (fun _ => hlen) (hstop.mono isStop_of_isEnd)
    fun h => absurd h hslash
  refine ⟨⟨span.length⟩, ?_, hspans.len⟩
  rw [new, hspan]
  rfl

/-- The limit of the other route. -/
theorem tryFrom_sat (span : PortOrTagSpan) :
    (tryFrom span).Sat (fun t => t.length = span.length ∧ span.length.val ≤ Tag.MAX_LEN)
      fun e => e.index ≤ span.length.val := by
  rw [tryFrom]
  split
  · rename_i h
    exact ⟨rfl, h⟩
  · rename_i h
    exact Nat.le_of_lt (Nat.lt_of_not_le h)

end TagSpan

structure Tag where
  src : String
  deriving DecidableEq, Repr

namespace Tag

def new (src : String) : Outcome Error Tag := do
  let span ← TagSpan.new src
  let text ← sliceTo src span.length.val
  .ok ⟨text⟩

def toStr (tag : Tag) : String := tag.src

end Tag

end ContainerImageDistRef
