import ContainerImageDistRef.Name.Domain
import ContainerImageDistRef.Name.Path

/-! # Names: an optional domain and a required path -/

namespace ContainerImageDistRef

open ByteString

universe u

namespace Name

/-- the maximum total number of characters in a repository name -/
def MAX_LEN : Nat := 255

end Name

structure NameSpan where
  domain : Option DomainSpan
  path : PathSpan
  deriving DecidableEq, Repr

namespace NameSpan

def shortLen {ε : Type u} (span : NameSpan) : Outcome ε LongLength :=
  LongLength.nonzero <| saturatingAddU16 span.path.length.widen.val
    ((span.domain.map fun d => saturatingAddU16 d.shortLen.val 1).getD 0)

/-- `Lengthy::span_of` -/
def spanOf {ε : Type u} (span : NameSpan) (src : String) : Outcome ε String := do
  let length ← span.shortLen
  sliceTo src length.val

end NameSpan

structure Name where
  src : String
  span : NameSpan
  deriving DecidableEq, Repr

namespace Name

def fromSpan {ε : Type u} (span : NameSpan) (src : String) : Outcome ε Name := do
  let length ← span.shortLen
  Outcome.assert (length.val = len src)
  .ok ⟨src, span⟩

def domain {ε : Type u} (name : Name) : Outcome ε (Option Domain) :=
  match name.span.domain with
  | none => .ok none
  | some span => do
    let text ← sliceTo name.src span.len
    let domain ← Domain.fromSpan span text
    .ok (some domain)

def path {ε : Type u} (name : Name) : Outcome ε Path := do
  let start := (name.span.domain.map fun d => d.len + 1).getD 0
  let src ← sliceFrom name.src start
  Path.fromSpan name.span.path src

def toStr {ε : Type u} (name : Name) : Outcome ε String := name.span.spanOf name.src

end Name

end ContainerImageDistRef
