import ContainerImageDistRef.Err
import ContainerImageDistRef.Span

/-!
# Bracketed IPv6 hosts

The scan keeps one byte of state: a 3-bit group number, a 2-bit position in
the group, a 2-bit run of colons and a flag for the double colon. What a
successful scan has read is a bracketed text of hex digits and colons, and
nothing after the closing bracket has been looked at.
-/

namespace ContainerImageDistRef

open ByteString

namespace Ipv6

structure State where
  bits : UInt8
  deriving DecidableEq, Repr

namespace State

def CURRENT_GROUP : UInt8 := 0b0111

def POSITION_IN_GROUP : UInt8 := (3 : UInt8) <<< 3

def COLON_COUNT : UInt8 := (0b0011 : UInt8) <<< 5

def DOUBLE_COLON : UInt8 := (1 : UInt8) <<< 7

def currentGroup (s : State) : UInt8 := s.bits &&& CURRENT_GROUP

def doubleColonAlreadySeen (s : State) : Bool := s.bits &&& DOUBLE_COLON == DOUBLE_COLON

def colonCount (s : State) : UInt8 := (s.bits &&& COLON_COUNT) >>> 5

def lastWasColon (s : State) : Bool := 0 < s.colonCount

def positionInGroup (s : State) : UInt8 := (s.bits &&& POSITION_IN_GROUP) >>> 3

def setLastWasColon (s : State) (lastWasColon : Bool) : State :=
  ⟨s.bits ||| ((if lastWasColon then (1 : UInt8) else 0) <<< 5)⟩

def setDoubleColon (s : State) : Outcome Err.Kind State :=
  if s.doubleColonAlreadySeen then .err .ipv6BadColon
  else .ok ⟨s.bits ||| DOUBLE_COLON⟩

def setColonCount (s : State) (count : UInt8) : Outcome Err.Kind State := do
  let s ←
    if count = 0 then .ok (s.setLastWasColon false)
    else if count = 1 then .ok (s.setLastWasColon true)
    else if count = 2 then (s.setLastWasColon true).setDoubleColon
    else .err .ipv6BadColon
  .ok ⟨(s.bits &&& ~~~COLON_COUNT) ||| (count <<< 5)⟩

/-- `u8::saturating_add(1)` -/
def saturatingSucc (n : UInt8) : UInt8 := if n = 255 then 255 else n + 1

def incrementColonCount (s : State) : Outcome Err.Kind State :=
  s.setColonCount (saturatingSucc s.colonCount)

def setPositionInGroup (s : State) (pos : UInt8) : Outcome Err.Kind State :=
  if pos ≤ 3 then .ok ⟨(s.bits &&& ~~~POSITION_IN_GROUP) ||| (pos <<< 3)⟩
  else .err .ipv6TooManyHexDigits

def setGroup (s : State) (group : UInt8) : Outcome Err.Kind State :=
  if group ≤ 7 then .ok ⟨(s.bits &&& ~~~CURRENT_GROUP) ||| (group &&& CURRENT_GROUP)⟩
  else .err .ipv6TooManyGroups

def incrementGroup (s : State) : Outcome Err.Kind State :=
  s.setGroup (saturatingSucc s.currentGroup)

def setColon (s : State) : Outcome Err.Kind State := do
  let s ← s.incrementColonCount
  let s ← s.incrementGroup
  s.setPositionInGroup 0

def incrementPositionInGroup (s : State) : Outcome Err.Kind State := do
  let s ← s.setColonCount 0
  -- the colon count has just been cleared, so this is always zero
  let pos := if s.lastWasColon then saturatingSucc s.positionInGroup else 0
  s.setPositionInGroup pos

end State

def isHexDigit (c : UInt8) : Bool :=
  byte 'a' ≤ c && c ≤ byte 'f' || byte 'A' ≤ c && c ≤ byte 'F' || isDigit c

/-- One turn of the scan on a byte other than the closing bracket. -/
def update (s : State) (c : UInt8) : Outcome Err.Kind State :=
  if isHexDigit c then s.incrementPositionInGroup
  else if c = byte ':' then s.setColon
  else if c = byte '/' then .err .ipv6MissingClosingBracket
  else .err .ipv6InvalidChar

/-- The scan from `index` on, over the bytes not yet read. -/
def scan (state : State) (index : ShortLength) : List UInt8 → Outcome Error (State × ShortLength)
  | [] => .err ⟨index.val, .ipv6MissingClosingBracket⟩
  | c :: rest =>
    if c = byte ']' then .ok (state, index)
    else do
      let state ← (update state c).mapErr fun kind => ⟨index.val, kind⟩
      let index ← Outcome.okOr (index.checkedAdd 1) ⟨maxU8, .ipv6TooLong⟩
      scan state index rest

end Ipv6

structure Ipv6Span where
  length : ShortLength
  deriving DecidableEq, Repr

namespace Ipv6Span

open Ipv6

/-- The last check: a group is missing unless a double colon stands for it. -/
def checkGroups (state : State) (index : ShortLength) : Outcome Error Ipv6Span :=
  if state.currentGroup ≤ 6 then
    if state.doubleColonAlreadySeen then .ok ⟨index⟩
    else .err ⟨index.val, .ipv6TooFewGroups⟩
  else if state.currentGroup = 7 then .ok ⟨index⟩
  else .panic .unreachable

/-- What follows the scan, which has stopped at the closing bracket. -/
def finish (src : String) (state : State) (index : ShortLength) : Outcome Error Ipv6Span := do
  Outcome.assert ((asBytes src)[0]? = some (byte '['))
  Outcome.assert ((asBytes src)[index.val]? = some (byte ']'))
  let index ← Outcome.okOr (index.checkedAdd 1) ⟨maxU8, .ipv6TooLong⟩
  checkGroups state index

def new (src : String) : Outcome Error Ipv6Span :=
  match asBytes src with
  | [] => .err ⟨0, .hostMissing⟩
  | c :: ascii =>
    if c = byte '[' then do
      let scanned ← scan ⟨0⟩ ShortLength.one ascii
      finish src scanned.1 scanned.2
    else .err ⟨0, .ipv6InvalidChar⟩

end Ipv6Span

namespace Ipv6

/-- The bytes between the brackets. -/
def isInner (c : UInt8) : Bool := isHexDigit c || c == byte ':'

theorem ascii_of_isInner : ∀ c : UInt8, isInner c = true → c < 128 :=
  forall_byte (by decide)

theorem ascii_of_bracketed {inner : List UInt8} (h : ∀ c ∈ inner, isInner c = true) :
    ∀ d ∈ byte '[' :: (inner ++ [byte ']']), d < 128 := by
  intro d hd
  rcases List.mem_cons.mp hd with rfl | hd
  · decide
  rcases List.mem_append.mp hd with hd | hd
  · exact ascii_of_isInner d (h d hd)
  · rw [List.mem_singleton.mp hd]
    decide

theorem setColon_noPanic : ∀ bits : UInt8, (State.setColon ⟨bits⟩).NoPanic :=
  forall_byte (by decide)

theorem incrementPositionInGroup_noPanic :
    ∀ bits : UInt8, (State.incrementPositionInGroup ⟨bits⟩).NoPanic :=
  forall_byte (by decide)

theorem currentGroup_le (s : State) : s.currentGroup ≤ 6 ∨ s.currentGroup = 7 := by
  have h : ∀ bits : UInt8, bits &&& State.CURRENT_GROUP ≤ 6 ∨
      bits &&& State.CURRENT_GROUP = 7 :=
    forall_byte (by decide)
  exact h s.bits

/-- Only an inner byte is read without an error. -/
theorem update_sat (s : State) (c : UInt8) :
    (update s c).Sat (fun _ => isInner c = true) fun _ => True := by
  rw [update]
  split
  · rename_i h
    exact (incrementPositionInGroup_noPanic s.bits).mono (fun _ _ => by simp [isInner, h])
      fun _ _ => trivial
  · split
    · rename_i h
      exact (setColon_noPanic s.bits).mono (fun _ _ => by simp [isInner, h])
        fun _ _ => trivial
    · split <;> trivial

/-- A finished scan has read inner bytes up to the first closing bracket, and
would have ended the same whatever follows. -/
theorem scan_eq_ok {s s' : State} {i i' : ShortLength} {bs : List UInt8}
    (h : scan s i bs = .ok (s', i')) :
    ∃ inner rest, bs = inner ++ byte ']' :: rest ∧ (∀ c ∈ inner, isInner c = true) ∧
      i'.val = i.val + inner.length ∧
      ∀ rest', scan s i (inner ++ byte ']' :: rest') = .ok (s', i') := by
  induction bs generalizing s i with
  | nil => cases h
  | cons c bs ih =>
    rw [scan] at h
    split at h
    · rename_i hc
      cases h
      exact ⟨[], bs, by simp [hc], by simp, by simp, fun rest' => by simp [scan]⟩
    · rename_i hc
      obtain ⟨t, ht, h⟩ := Outcome.bind_eq_ok.mp h
      obtain ⟨j, hj, h⟩ := Outcome.bind_eq_ok.mp h
      obtain ⟨inner, rest, rfl, hinner, hlen, hrest⟩ := ih h
      have hb : isInner c = true := (update_sat s c).of_ok (Outcome.mapErr_eq_ok.mp ht)
      have hji := Length.checkedAdd_eq_some.mp (Outcome.okOr_eq_ok.mp hj)
      refine ⟨c :: inner, rest, rfl, ?_, ?_, fun rest' => ?_⟩
      · intro d hd
        rcases List.mem_cons.mp hd with rfl | hd
        · exact hb
        · exact hinner d hd
      · simp only [List.length_cons]
        omega
      · rw [List.cons_append, scan, if_neg hc, ht, Outcome.ok_bind, hj, Outcome.ok_bind]
        exact hrest rest'

/-- The scan does not panic, and an error of it stands in what was read. -/
theorem scan_sat {src : String} {bs : List UInt8} (done : List UInt8) (s : State) (i : ShortLength)
    (hsrc : asBytes src = done ++ bs) (hdone : ∀ c ∈ done, c < 128)
    (hi : i.val = done.length) :
    (scan s i bs).Sat (fun _ => True) fun e => AsciiUpTo src e.index := by
  have here : AsciiUpTo src i.val := hi ▸ asciiUpTo_of_bytes hsrc hdone
  induction bs generalizing s i done with
  | nil => exact here
  | cons c bs ih =>
    rw [scan]
    split
    · trivial
    · refine Outcome.Sat.bind ((update_sat s c).mapErr fun _ _ => here) fun t hc => ?_
      have hnext : asBytes src = (done ++ [c]) ++ bs := by simpa using hsrc
      have hascii : ∀ d ∈ done ++ [c], d < 128 := by
        intro d hd
        rcases List.mem_append.mp hd with hd | hd
        · exact hdone d hd
        · exact List.mem_singleton.mp hd ▸ ascii_of_isInner c hc
      have hto : AsciiUpTo src (i.val + 1) := by
        simpa [hi] using asciiUpTo_of_bytes hnext hascii
      refine Outcome.Sat.bind (Outcome.sat_okOr (P := fun j : ShortLength => i.val + 1 = j.val)
        (fun j hj => Length.checkedAdd_eq_some.mp hj) fun hj => ?_) fun j hj => ?_
      · have hover := Length.checkedAdd_eq_none.mp hj
        exact hto.mono (by show maxU8 ≤ _; omega)
      · exact ih _ t j hnext hascii (by simp; omega) (hj ▸ hto)

end Ipv6

namespace Ipv6Span

open Ipv6

theorem checkGroups_sat (s : State) (i : ShortLength) :
    (checkGroups s i).Sat (fun span => span.length = i) fun e => e.index = i.val := by
  rw [checkGroups]
  rcases currentGroup_le s with h | h
  · rw [if_pos h]
    split <;> rfl
  · rw [h]
    rfl

theorem finish_eq {src : String} {inner rest : List UInt8} {s : State} {i : ShortLength}
    (hsrc : asBytes src = byte '[' :: (inner ++ byte ']' :: rest))
    (hi : i.val = inner.length + 1) :
    finish src s i = (do
      let i ← Outcome.okOr (i.checkedAdd 1) ⟨maxU8, .ipv6TooLong⟩
      checkGroups s i) := by
  have hfirst : (asBytes src)[0]? = some (byte '[') := by simp [hsrc]
  have hlast : (asBytes src)[i.val]? = some (byte ']') := by simp [hsrc, hi]
  rw [finish, Outcome.assert_true hfirst, Outcome.assert_true hlast]
  rfl

theorem new_bracket {src : String} {ascii : List UInt8} (h : asBytes src = byte '[' :: ascii) :
    new src = (do
      let scanned ← scan ⟨0⟩ ShortLength.one ascii
      finish src scanned.1 scanned.2) := by
  rw [new, h]
  rfl

/-- A literal depends on nothing after its closing bracket. -/
theorem new_eq_ok {src : String} {span : Ipv6Span} (h : new src = .ok span) :
    ∃ inner rest, asBytes src = byte '[' :: (inner ++ byte ']' :: rest) ∧
      (∀ c ∈ inner, isInner c = true) ∧ span.length.val = inner.length + 2 ∧
      ∀ src' rest', asBytes src' = byte '[' :: (inner ++ byte ']' :: rest') →
        new src' = .ok span := by
  cases hsrc : asBytes src with
  | nil => simp [new, hsrc] at h
  | cons c ascii =>
    by_cases hc : c = byte '['
    · subst hc
      rw [new_bracket hsrc] at h
      obtain ⟨⟨s, i⟩, hscan, hend⟩ := Outcome.bind_eq_ok.mp h
      obtain ⟨inner, rest, rfl, hinner, hlen, hrest⟩ := scan_eq_ok hscan
      have hi : i.val = inner.length + 1 := by
        rw [hlen, ShortLength.one, Nat.add_comm]
      change finish src s i = .ok span at hend
      rw [finish_eq hsrc hi] at hend
      obtain ⟨j, hj, hgroups⟩ := Outcome.bind_eq_ok.mp hend
      have hji := Length.checkedAdd_eq_some.mp (Outcome.okOr_eq_ok.mp hj)
      have hspan : span.length = j := (checkGroups_sat s j).of_ok hgroups
      refine ⟨inner, rest, rfl, hinner, by rw [hspan]; omega, fun src' rest' h' => ?_⟩
      rw [new_bracket h', hrest rest', Outcome.ok_bind, finish_eq h' hi]
      exact hend
    · simp [new, hsrc, hc] at h

theorem new_sat (src : String) :
    (new src).Sat (fun _ => True) fun e => AsciiUpTo src e.index := by
  cases hsrc : asBytes src with
  | nil => simpa [new, hsrc] using asciiUpTo_zero src
  | cons c ascii =>
    by_cases hc : c = byte '['
    · subst hc
      rw [new_bracket hsrc]
      have hscan := scan_sat [byte '['] ⟨0⟩ ShortLength.one hsrc
        (List.forall_mem_singleton.mpr (by decide)) rfl
      refine hscan.bind_eq fun ⟨s, i⟩ hok _ => ?_
      obtain ⟨inner, rest, rfl, hinner, hlen, -⟩ := scan_eq_ok hok
      have hi : i.val = inner.length + 1 := by
        rw [hlen, ShortLength.one, Nat.add_comm]
      have hto : AsciiUpTo src (i.val + 1) := by
        have hbytes : asBytes src = (byte '[' :: inner ++ [byte ']']) ++ rest := by
          rw [hsrc]
          simp
        have h := asciiUpTo_of_bytes hbytes (ascii_of_bracketed hinner)
        simpa [hi] using h
      rw [finish_eq hsrc hi]
      refine Outcome.Sat.bind (Outcome.sat_okOr (P := fun j : ShortLength => i.val + 1 = j.val)
        (fun j hj => Length.checkedAdd_eq_some.mp hj) fun hj => ?_) fun j hj => ?_
      · have hover := Length.checkedAdd_eq_none.mp hj
        exact hto.mono (by show maxU8 ≤ _; omega)
      · exact (checkGroups_sat s j).mono (fun _ _ => trivial) fun e he => by
          rw [he, ← hj]
          exact hto
    · simpa [new, hsrc, hc] using asciiUpTo_zero src

end Ipv6Span

/-- A bracketed literal that the IPv6 parser consumes entirely. -/
def Ipv6Literal (h : String) : Prop :=
  ∃ span, Ipv6Span.new h = .ok span ∧ span.length.val = len h

namespace Ipv6Literal

open Ipv6

theorem bytes {h : String} (hl : Ipv6Literal h) :
    ∃ inner, asBytes h = byte '[' :: inner ++ [byte ']'] ∧ ∀ c ∈ inner, isInner c = true := by
  obtain ⟨span, hspan, hlen⟩ := hl
  obtain ⟨inner, rest, hbytes, hinner, hspanlen, -⟩ := Ipv6Span.new_eq_ok hspan
  have hrest : rest = [] := by
    have hl : (asBytes h).length = inner.length + rest.length + 2 := by
      rw [hbytes]
      simp
      omega
    rw [length_asBytes] at hl
    exact List.length_eq_zero_iff.mp (by omega)
  exact ⟨inner, by simp [hbytes, hrest], hinner⟩

/-- Whatever follows a literal, the parser consumes exactly the literal. -/
theorem new_append {h : String} (hl : Ipv6Literal h) (rest : String) :
    ∃ span, Ipv6Span.new (h ++ rest) = .ok span ∧ span.length.val = len h := by
  obtain ⟨span, hspan, hlen⟩ := hl
  obtain ⟨inner, hbytes, -⟩ := Ipv6Literal.bytes ⟨span, hspan, hlen⟩
  obtain ⟨inner', rest', hbytes', -, hspanlen, hlocal⟩ := Ipv6Span.new_eq_ok hspan
  refine ⟨span, hlocal (h ++ rest) (rest' ++ asBytes rest) ?_, hlen⟩
  rw [asBytes_append, hbytes']
  simp

end Ipv6Literal

/-- The parser consumes a literal, or it fails. -/
theorem Ipv6Span.new_literal {src : String} {span : Ipv6Span} (h : Ipv6Span.new src = .ok span) :
    ∃ host rest, src = host ++ rest ∧ len host = span.length.val ∧ Ipv6Literal host := by
  obtain ⟨inner, rest, hbytes, hinner, hlen, hlocal⟩ := new_eq_ok h
  have hsplit : asBytes src = (byte '[' :: inner ++ [byte ']']) ++ rest := by
    rw [hbytes]
    simp
  obtain ⟨host, tail, hsrc, hhost, -⟩ :=
    exists_append_of_ascii hsplit (Ipv6.ascii_of_bracketed hinner)
  have hl : len host = span.length.val := by
    rw [← length_asBytes, hhost, hlen]
    simp
  exact ⟨host, tail, hsrc, hl, span, hlocal host [] (by simp [hhost]), hl.symm⟩

end ContainerImageDistRef
