import ContainerImageDistRef.Ambiguous.DomainOrTaggedRef
import ContainerImageDistRef.Name.Name
import ContainerImageDistRef.Digest.Digest

/-! # Image references -/

namespace ContainerImageDistRef

open ByteString

universe u

structure RefSpan where
  name : NameSpan
  tag : Option TagSpan
  digest : Option DigestSpan
  deriving DecidableEq, Repr

namespace RefSpan

/-- The path after `prefix`, and the index it starts at. -/
def parsePath (src : String) (pfx : DomainOrRefSpan) (index : Nat) :
    Outcome Error (PathSpan × Nat) :=
  match (asBytes src)[pfx.len]? with
  | some c =>
    if c = byte '/' then
      match pfx with
      | .taggedRef pathStart tag =>
        match tag with
        | some _ => .panic .unreachable
        | none => do
          let rest ← sliceFrom src pfx.len
          let path ← (pathStart.extend rest).mapErr fun e =>
            (⟨saturatingAddU16 pfx.len e.index, e.kind⟩ : Error)
          .ok (path, index)
      | .domain _ => do
        let index := saturatingAddU16 index 1
        let rest ← sliceFrom src (pfx.len + 1)
        let path ← (PathSpan.new rest).mapErr fun e =>
          (⟨saturatingAddU16 pfx.len e.index, e.kind⟩ : Error)
        .ok (path, index)
    else if c = byte '@' ∨ c = byte ':' then
      match pfx with
      | .taggedRef name _ => .ok (name, index)
      | .domain _ => .panic .unreachable
    else .err ⟨index, .pathInvalidChar⟩
  | none =>
    match pfx with
    | .taggedRef name _ => .ok (name, index)
    | .domain _ => .panic .unreachable

/-- The tag, where `prefix` has not read it already. -/
def parseTag (src : String) (pfx : DomainOrRefSpan) (index : Nat) :
    Outcome Error (Option TagSpan) :=
  match pfx with
  | .taggedRef _ (some tag) => .ok (some tag)
  | .taggedRef _ none =>
    match (asBytes src)[index]? with
    | none => .ok none
    | some c =>
      if c = byte ':' then do
        let rest ← sliceFrom src (index + 1)
        let tag ← TagSpan.new rest
        .ok (some tag)
      else if c = byte '@' then .ok none
      else .err ⟨0, .pathInvalidChar⟩
  | .domain _ =>
    if (asBytes src)[index]? = some (byte ':') then do
      let rest ← sliceFrom src (index + 1)
      let tag ← (TagSpan.new rest).mapErr fun e =>
        (⟨saturatingAddU16 (saturatingAddU16 index 1) e.index, e.kind⟩ : Error)
      .ok (some tag)
    else .ok none

/-- The digest, and the index after a leading `@`. -/
def parseDigest (src : String) (index : Nat) : Outcome Error (Option DigestSpan × Nat) :=
  match (asBytes src)[index]? with
  | none => .ok (none, index)
  | some c =>
    if c = byte '@' then do
      let index := saturatingAddU16 index 1
      let rest ← sliceFrom src index
      let digest ← (DigestSpan.new rest).mapErr fun e =>
        (⟨saturatingAddU16 index e.index, e.kind⟩ : Error)
      .ok (some digest, index)
    else .err ⟨index, .algorithmMissing⟩

/-- The digest, and the check that the whole string has been read. -/
def finish (src : String) (name : NameSpan) (tag : Option TagSpan) (index : Nat) :
    Outcome Error RefSpan := do
  let index := saturatingAddU16 index
    ((tag.map fun t => saturatingAddU16 t.length.val 1).getD 0)
  let (digest, index) ← parseDigest src index
  let index := saturatingAddU16 index ((digest.map fun d => d.shortLen.val).getD 0)
  Outcome.assert (index = len src)
  .ok ⟨name, tag, digest⟩

/-- The path, the tag and the digest, once the text before them has been read. -/
def newFrom (src : String) (pfx : DomainOrRefSpan) : Outcome Error RefSpan := do
  let domain :=
    match pfx with
    | .domain domain => some domain
    | .taggedRef _ _ => none
  let index := (domain.map fun d => d.shortLen.val).getD 0
  let (path, index) ← parsePath src pfx index
  let index := saturatingAddU16 index path.length.val
  if Name.MAX_LEN < index then .err ⟨255, .nameTooLong⟩
  else do
    let tag ← parseTag src pfx index
    finish src ⟨domain, path⟩ tag index

def new (src : String) : Outcome Error RefSpan :=
  if asBytes src = [] then .err ⟨0, .refMissing⟩
  else do
    let pfx ← DomainOrRefSpan.new src
    newFrom src pfx

/-- the offset at which the path starts -/
def pathIndex (span : RefSpan) : Nat :=
  (span.name.domain.map fun d => d.len + 1).getD 0

/-- the offset at which the tag starts, after its leading ':' -/
def tagIndex (span : RefSpan) : Nat :=
  span.pathIndex + span.name.path.length.val + (span.tag.map fun _ => 1).getD 0

def digestIndex (span : RefSpan) : Nat :=
  span.tagIndex + (span.tag.map fun t => t.length.val).getD 0 +
    (span.digest.map fun _ => 1).getD 0

def portRange (span : RefSpan) : Option (Nat × Nat) := do
  let domain ← span.name.domain
  let port ← domain.port
  let start := domain.host.length.val + 1
  some (start, start + port.length.val)

def pathRange (span : RefSpan) : Nat × Nat :=
  match span.name.domain with
  | some d => (d.len + 1, d.len + 1 + span.name.path.length.val)
  | none => (0, span.name.path.length.val)

def nameRange (span : RefSpan) : Nat × Nat :=
  (0, span.pathIndex + span.name.path.length.val)

def tagRange (span : RefSpan) : Option (Nat × Nat) := do
  let tag ← span.tag
  some (span.tagIndex, span.tagIndex + tag.length.val)

def digestRange (span : RefSpan) : Option Nat :=
  span.digest.map fun _ => span.digestIndex

end RefSpan

structure ImgRef where
  src : String
  span : RefSpan
  deriving DecidableEq, Repr

namespace ImgRef

variable {ε : Type u}

def new (src : String) : Outcome Error ImgRef := do
  let span ← RefSpan.new src
  .ok ⟨src, span⟩

def nameStr (img : ImgRef) : Outcome ε String := img.span.name.spanOf img.src

def name (img : ImgRef) : Outcome ε Name := do
  let src ← img.nameStr
  Name.fromSpan img.span.name src

def domain (img : ImgRef) : Outcome ε (Option Domain) :=
  match img.span.name.domain with
  | none => .ok none
  | some d => do
    let text ← sliceTo img.src d.len
    let domain ← Domain.fromSpan d text
    .ok (some domain)

def port (img : ImgRef) : Option String := do
  let range ← img.span.portRange
  getRange img.src range.1 range.2

def pathStr (img : ImgRef) : Outcome ε String :=
  slice img.src img.span.pathRange.1 img.span.pathRange.2

def path (img : ImgRef) : Outcome ε Path := do
  let src ← img.pathStr
  Path.fromSpan img.span.name.path src

def tag (img : ImgRef) : Outcome ε (Option String) :=
  match img.span.tagRange with
  | none => .ok none
  | some range => do
    Outcome.assert ((getRange img.src range.1 range.2).isSome = true)
    .ok (getRange img.src range.1 range.2)

def digest (img : ImgRef) : Outcome ε (Option Digest) :=
  match img.span.digest with
  | none => .ok none
  | some digestSpan => do
    Outcome.assert ((getFrom img.src img.span.digestIndex).isSome = true)
    .ok ((getFrom img.src img.span.digestIndex).map fun src => Digest.fromSpan src digestSpan)

end ImgRef

structure CanonicalSpan where
  span : RefSpan
  deriving DecidableEq, Repr

namespace CanonicalSpan

def fromSpan (span : RefSpan) : Outcome Error CanonicalSpan := do
  let _ ← Outcome.okOr span.name.domain ⟨0, .hostMissing⟩
  let _ ← Outcome.okOr span.digest ⟨asU16 span.digestIndex, .algorithmMissing⟩
  .ok ⟨span⟩

def new (src : String) : Outcome Error CanonicalSpan := do
  let span ← RefSpan.new src
  fromSpan span

end CanonicalSpan

/-- A reference with a domain, a path, and a digest. -/
structure CanonicalImgRef where
  src : String
  span : CanonicalSpan
  deriving DecidableEq, Repr

namespace CanonicalImgRef

variable {ε : Type u}

def new (src : String) : Outcome Error CanonicalImgRef := do
  let span ← CanonicalSpan.new src
  .ok ⟨src, span⟩

/-- `Option::unwrap` -/
def unwrap {α : Type} (x : Option α) : Outcome ε α :=
  match x with
  | some a => .ok a
  | none => .panic .unwrap

def domainStr (img : CanonicalImgRef) : Outcome ε String :=
  match img.span.span.name.domain with
  | none => .ok ""
  | some d => do
    Outcome.assert ((getRange img.src 0 d.len).isSome = true)
    .ok ((getRange img.src 0 d.len).getD "")

def pathStr (img : CanonicalImgRef) : Outcome ε String := do
  let path ← slice img.src img.span.span.pathRange.1 img.span.span.pathRange.2
  Outcome.assert (path ≠ "")
  .ok path

def nameStr (img : CanonicalImgRef) : Outcome ε String := do
  let result ← slice img.src img.span.span.nameRange.1 img.span.span.nameRange.2
  Outcome.assert (result ≠ "")
  .ok result

def name (img : CanonicalImgRef) : Outcome ε Name := do
  let src ← img.nameStr
  Name.fromSpan img.span.span.name src

def domain (img : CanonicalImgRef) : Outcome ε Domain := do
  let span ← unwrap img.span.span.name.domain
  let src ← img.domainStr
  Domain.fromSpan span src

def path (img : CanonicalImgRef) : Outcome ε Path := do
  let src ← img.pathStr
  Path.fromSpan img.span.span.name.path src

def tag (img : CanonicalImgRef) : Outcome ε (Option String) :=
  match img.span.span.tagRange with
  | none => .ok none
  | some range => do
    Outcome.assert ((getRange img.src range.1 range.2).isSome = true)
    .ok (getRange img.src range.1 range.2)

def digest (img : CanonicalImgRef) : Outcome ε Digest := do
  let start ← unwrap img.span.span.digestRange
  let digest ← sliceFrom img.src start
  Outcome.assert (digest ≠ "")
  let span ← unwrap img.span.span.digest
  .ok (Digest.fromSpan digest span)

end CanonicalImgRef

/-- `From<CanonicalImgRef>` -/
def ImgRef.fromCanonical (value : CanonicalImgRef) : ImgRef := ⟨value.src, value.span.span⟩

/-- `TryInto<CanonicalSpan>` -/
def RefSpan.tryInto (span : RefSpan) : Outcome Error CanonicalSpan := CanonicalSpan.fromSpan span

/-- `TryInto<CanonicalImgRef>` -/
def ImgRef.tryInto (img : ImgRef) : Outcome Error CanonicalImgRef := do
  let canonical ← img.span.tryInto
  .ok ⟨img.src, canonical⟩

end ContainerImageDistRef
