import ContainerImageDistRef.Name.Domain.Ipv6

/-!
# Hosts and paths that cannot be told apart yet

The first segment of a reference is scanned once, as a host or as a path
component. One byte of state records the last separator and whether an
uppercase letter or an underscore has ruled one of the two out.
-/

namespace ContainerImageDistRef

open ByteString

universe u

namespace HostOrPath

inductive Kind where
  /-- incompatible with a host name: contains an underscore -/
  | path
  /-- incompatible with a path: contains an uppercase letter -/
  | host
  | ipV6
  | hostOrPath
  | any
  deriving DecidableEq, Repr

structure Scan where
  bits : UInt8
  deriving DecidableEq, Repr

namespace Scan

def UNDERSCORE_COUNT : UInt8 := 0b0011

def HAS_UNDERSCORE : UInt8 := (1 : UInt8) <<< 2

def HAS_UPPERCASE : UInt8 := (1 : UInt8) <<< 3

def LAST_WAS_DOT : UInt8 := (1 : UInt8) <<< 4

def LAST_WAS_DASH : UInt8 := (1 : UInt8) <<< 5

def IPV6 : UInt8 := (1 : UInt8) <<< 6

def ofKind : Kind → Scan
  | .host => ⟨HAS_UPPERCASE⟩
  | .path => ⟨HAS_UNDERSCORE⟩
  | .ipV6 => ⟨IPV6⟩
  | .hostOrPath => ⟨0⟩
  | .any => ⟨0⟩

def hasUpper (s : Scan) : Bool := s.bits &&& HAS_UPPERCASE == HAS_UPPERCASE

def lastWasDot (s : Scan) : Bool := s.bits &&& LAST_WAS_DOT == LAST_WAS_DOT

def lastWasDash (s : Scan) : Bool := s.bits &&& LAST_WAS_DASH == LAST_WAS_DASH

def underscoreCount (s : Scan) : UInt8 := s.bits &&& UNDERSCORE_COUNT

def hasUnderscore (s : Scan) : Bool := s.bits &&& HAS_UNDERSCORE == HAS_UNDERSCORE

def setUnderscoreCount (s : Scan) (count : UInt8) : Outcome Err.Kind Scan :=
  if count ≤ 2 then .ok ⟨(s.bits &&& ~~~UNDERSCORE_COUNT) ||| count⟩
  else .err .hostOrPathInvalidChar

def unsetLastWasDot (s : Scan) : Scan := ⟨s.bits &&& ~~~LAST_WAS_DOT⟩

def unsetLastWasDash (s : Scan) : Scan := ⟨s.bits &&& ~~~LAST_WAS_DASH⟩

def resetUnderscoreCount (s : Scan) : Outcome Err.Kind Scan :=
  match s.setUnderscoreCount 0 with
  | .ok s => .ok s
  | .err _ => .panic .unwrap
  | .panic p => .panic p

def reset (s : Scan) : Outcome Err.Kind Scan := do
  let s ← s.resetUnderscoreCount
  .ok s.unsetLastWasDash.unsetLastWasDot

def setDot (s : Scan) : Outcome Err.Kind Scan :=
  if s.lastWasDot || s.lastWasDash || 0 < s.underscoreCount then
    .err .hostOrPathInvalidComponentEnd
  else .ok ⟨s.bits ||| LAST_WAS_DOT⟩

def setDash (s : Scan) : Outcome Err.Kind Scan :=
  if s.lastWasDot || 0 < s.underscoreCount then .err .hostOrPathInvalidComponentEnd
  else .ok ⟨s.bits ||| LAST_WAS_DASH⟩

def setUpper (s : Scan) : Outcome Err.Kind Scan :=
  if s.hasUnderscore then .err .hostOrPathInvalidChar
  else (⟨s.bits ||| HAS_UPPERCASE⟩ : Scan).reset

def addUnderscore (s : Scan) : Outcome Err.Kind Scan :=
  if s.hasUpper then .err .hostOrPathInvalidChar
  else if s.lastWasDash || s.lastWasDot then .err .hostOrPathInvalidComponentEnd
  else
    let s : Scan := ⟨s.bits ||| HAS_UNDERSCORE⟩
    if s.underscoreCount = 255 then .err .hostOrPathTooLong
    else s.setUnderscoreCount (s.underscoreCount + 1)

end Scan

/-- `From<Scan> for Kind` -/
def Kind.ofScan {ε : Type u} (scan : Scan) : Outcome ε Kind :=
  let any := Scan.IPV6 ||| Scan.HAS_UPPERCASE ||| Scan.HAS_UNDERSCORE
  if scan.bits &&& any = 0 then .ok .hostOrPath
  else if scan.bits &&& any = Scan.HAS_UPPERCASE then .ok .host
  else if scan.bits &&& any = Scan.HAS_UNDERSCORE then .ok .path
  else .panic .unreachable

structure State where
  len : Nat
  scan : Scan
  decidingChar : Option Nat
  deriving DecidableEq, Repr

namespace State

def advance (s : State) : Outcome Error State := do
  let len ← Outcome.okOr (checkedAddU8 s.len 1) ⟨s.len, .hostOrPathTooLong⟩
  .ok { s with len := len }

/-- The position of the first deciding byte is kept. -/
def updateDecider (s : State) : State :=
  { s with decidingChar := s.decidingChar.or (some s.len) }

def setScan (s : State) (scan : Outcome Err.Kind Scan) : Outcome Err.Kind State := do
  let scan ← scan
  .ok { s with scan := scan }

def update (s : State) (c : UInt8) : Outcome Error State :=
  (if isLower c || isDigit c then s.setScan s.scan.reset
    else if isUpper c then do
      let s ← s.setScan s.scan.setUpper
      .ok s.updateDecider
    else if c = byte '_' then do
      let s ← s.setScan s.scan.addUnderscore
      .ok s.updateDecider
    else if c = byte '.' then s.setScan s.scan.setDot
    else if c = byte '-' then s.setScan s.scan.setDash
    else .err .hostOrPathInvalidChar).mapErr fun kind => ⟨s.len, kind⟩

def checkComponentEnd (s : State) : Outcome Error Unit :=
  if !s.scan.lastWasDash && !s.scan.lastWasDot && s.scan.underscoreCount == 0 then .ok ()
  else .err ⟨s.len - 1, .hostOrPathInvalidComponentEnd⟩

end State

def isStop (c : UInt8) : Bool := c == byte ':' || c == byte '/' || c == byte '@'

/-- The loop over the bytes: it breaks at a stop byte and at the end. -/
def scanLoop (s : State) : List UInt8 → Outcome Error State
  | [] => .ok s
  | c :: rest =>
    if isStop c then .ok s
    else do
      let s ← s.update c
      let s ← s.advance
      scanLoop s rest

end HostOrPath

structure HostOrPathSpan where
  length : ShortLength
  kind : HostOrPath.Kind
  /-- where the byte stands that ruled out the other reading -/
  decider : Nat
  deriving DecidableEq, Repr

namespace HostOrPathSpan

open HostOrPath

def new (src : String) (kind : Kind) : Outcome Error HostOrPathSpan :=
  let state : State := { len := 0, scan := Scan.ofKind kind, decidingChar := none }
  match (asBytes src).head? with
  | none => .err ⟨0, .hostOrPathMissing⟩
  | some c =>
    if c = byte '[' then
      match kind with
      | .ipV6 | .any => do
        let span ← Ipv6Span.new src
        .ok ⟨span.length, .ipV6, 0⟩
      | _ => .err ⟨0, .hostOrPathInvalidChar⟩
    else if c = byte '.' ∨ c = byte '-' ∨ c = byte '_' then .err ⟨0, .hostOrPathInvalidChar⟩
    else do
      let state ← scanLoop state (asBytes src)
      state.checkComponentEnd
      let _rest ← sliceFrom src state.len
      Outcome.assert (state.len ≤ len src)
      let length ← Outcome.okOr (ShortLength.new state.len) ⟨0, .hostOrPathMissing⟩
      let kind ← Kind.ofScan state.scan
      .ok ⟨length, kind, state.decidingChar.getD 0⟩

def narrow (span : HostOrPathSpan) (targetKind : Kind) : Outcome Error HostOrPathSpan :=
  match span.kind, targetKind with
  | _, .any => .panic .unreachable
  | .path, .hostOrPath | .host, .hostOrPath => .ok span
  | .any, _ | .hostOrPath, .path | .hostOrPath, .host =>
    .ok ⟨span.length, targetKind, span.decider⟩
  | .ipV6, .ipV6 | .path, .path | .host, .host | .hostOrPath, .hostOrPath => .ok span
  | _, .ipV6 | .ipV6, _ => .err ⟨0, .hostOrPathInvalidChar⟩
  | .host, .path => .err ⟨span.decider, .pathInvalidChar⟩
  | .path, .host => .err ⟨span.decider, .hostInvalidChar⟩

end HostOrPathSpan

end ContainerImageDistRef
