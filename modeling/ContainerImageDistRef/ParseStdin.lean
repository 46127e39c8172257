import ContainerImageDistRef.Library.Escape
import ContainerImageDistRef.Reference
import Mathlib.Data.List.DropRight

/-!
# The programs over the parser and the readers of their rows

`parse_stdin` and `parse_canonical` read a line and print one row of eight
columns. The rows are read on the other side by the harness of the fuzz tests,
which unescapes the columns, and by the unit tests, which do not.
-/

namespace ContainerImageDistRef

open ByteString

namespace Err

/-- The name that `{:?}` prints. -/
def Kind.debug : Kind → String
  | .hostOrPathMissing => "HostOrPathMissing"
  | .hostOrPathTooLong => "HostOrPathTooLong"
  | .hostOrPathInvalidChar => "HostOrPathInvalidChar"
  | .hostOrPathInvalidComponentEnd => "HostOrPathInvalidComponentEnd"
  | .portOrTagMissing => "PortOrTagMissing"
  | .portOrTagInvalidChar => "PortOrTagInvalidChar"
  | .nameTooLong => "NameTooLong"
  | .hostMissing => "HostMissing"
  | .hostComponentInvalidEnd => "HostComponentInvalidEnd"
  | .hostInvalidChar => "HostInvalidChar"
  | .hostTooLong => "HostTooLong"
  | .ipv6InvalidChar => "Ipv6InvalidChar"
  | .ipv6TooLong => "Ipv6TooLong"
  | .ipv6BadColon => "Ipv6BadColon"
  | .ipv6TooManyHexDigits => "Ipv6TooManyHexDigits"
  | .ipv6TooManyGroups => "Ipv6TooManyGroups"
  | .ipv6TooFewGroups => "Ipv6TooFewGroups"
  | .ipv6MissingClosingBracket => "Ipv6MissingClosingBracket"
  | .port => "Port"
  | .portInvalidChar => "PortInvalidChar"
  | .portTooLong => "PortTooLong"
  | .portMissing => "PortMissing"
  | .pathMissing => "PathMissing"
  | .pathComponentInvalidEnd => "PathComponentInvalidEnd"
  | .pathInvalidChar => "PathInvalidChar"
  | .pathTooLong => "PathTooLong"
  | .tagTooLong => "TagTooLong"
  | .tagInvalidChar => "TagInvalidChar"
  | .tagMissing => "TagMissing"
  | .algorithmMissing => "AlgorithmMissing"
  | .invalidOciAlgorithm => "InvalidOciAlgorithm"
  | .algorithmInvalidNumericPrefix => "AlgorithmInvalidNumericPrefix"
  | .ociRegisteredAlgorithmWrongDigestLength => "OciRegisteredAlgorithmWrongDigestLength"
  | .algorithmInvalidChar => "AlgorithmInvalidChar"
  | .algorithmTooLong => "AlgorithmTooLong"
  | .encodedMissing => "EncodedMissing"
  | .encodedInvalidChar => "EncodedInvalidChar"
  | .encodedNonLowerHex => "EncodedNonLowerHex"
  | .ociRegisteredDigestInvalidChar => "OciRegisteredDigestInvalidChar"
  | .encodingTooShort => "EncodingTooShort"
  | .encodingTooLong => "EncodingTooLong"
  | .refMissing => "RefMissing"

end Err

/-- `format!("{:?} @ {}", e.kind(), e.index())` -/
def Error.display (e : Error) : String := e.kind.debug ++ " @ " ++ toString e.index

/-- What a program has printed and the code it exits with. -/
structure Ran where
  stdout : String
  code : Nat
  deriving DecidableEq, Repr

namespace ParseStdin

def escape (s : String) : String :=
  String.ofList (Escape.escapeAll '\r' '\\' 'r' (Escape.escapeAll '\n' '\\' 'n'
    (Escape.escapeAll '\t' '\\' 't' s.toList)))

/-- The bytes that `read_line` takes, with the line feed. -/
def firstLine : List UInt8 → List UInt8
  | [] => []
  | b :: rest => if b = byte '\n' then [b] else b :: firstLine rest

/-- `stdin().read_line(&mut input).unwrap()` -/
def readLine {ε : Type} (stdin : List UInt8) : Outcome ε String :=
  match String.fromUTF8? ⟨(firstLine stdin).toArray⟩ with
  | some line => .ok line
  | none => .panic .unwrap

/-- `input.trim_end_matches(['\r', '\n'])` -/
def trimEnd (line : String) : String :=
  String.ofList (line.toList.rdropWhile fun c => c = '\r' ∨ c = '\n')

/-- The `println!` of both programs. -/
def row (input name domain path tag digestAlgo digestEncoded err : String) : String :=
  input ++ "\t" ++ name ++ "\t" ++ domain ++ "\t" ++ path ++ "\t" ++ tag ++ "\t" ++
    digestAlgo ++ "\t" ++ digestEncoded ++ "\t" ++ err ++ "\n"

/-- The branch of an accepted reference. -/
def exitOk {ε : Type} (input : String) (refStr : ImgRef) : Outcome ε Ran := do
  let name ← refStr.name
  let name ← name.toStr
  let domain ← refStr.domain
  let path ← refStr.path
  let path ← path.toStr
  let tag ← refStr.tag
  let digest ← refStr.digest
  let digestAlgo ← digest.mapM Digest.algorithm
  let digestEncoded ← digest.mapM Digest.encoded
  .ok ⟨row (escape input) (escape name) (escape ((domain.map Domain.toStr).getD ""))
    (escape path) (escape (tag.getD "")) (escape ((digestAlgo.map Algorithm.toStr).getD ""))
    (escape ((digestEncoded.map Encoded.toStr).getD "")) "", 0⟩

/-- The branch of an error, which is that of both programs. -/
def exitErr (input : String) (e : Error) : Ran :=
  ⟨row (escape input) "" "" "" "" "" "" e.display, 1⟩

def main {ε : Type} (stdin : List UInt8) : Outcome ε Ran := do
  let line ← readLine stdin
  let input := trimEnd line
  match ImgRef.new input with
  | .ok refStr => exitOk input refStr
  | .err e => .ok (exitErr input e)
  | .panic cause => .panic cause

end ParseStdin

namespace ParseCanonical

open ParseStdin (escape readLine trimEnd row exitErr)

def exitOk {ε : Type} (input : String) (refStr : CanonicalImgRef) : Outcome ε Ran := do
  let name ← refStr.name
  let name ← name.toStr
  let domain ← refStr.domain
  let path ← refStr.path
  let path ← path.toStr
  let tag ← refStr.tag
  let digest ← refStr.digest
  let digestAlgo ← digest.algorithm
  let digestEncoded ← digest.encoded
  .ok ⟨row (escape input) (escape name) (escape domain.toStr) (escape path)
    (escape (tag.getD "")) (escape digestAlgo.toStr) (escape digestEncoded.toStr) "", 0⟩

def main {ε : Type} (stdin : List UInt8) : Outcome ε Ran := do
  let line ← readLine stdin
  let input := trimEnd line
  match CanonicalImgRef.new input with
  | .ok refStr => exitOk input refStr
  | .err e => .ok (exitErr input e)
  | .panic cause => .panic cause

end ParseCanonical

/-- The columns of a row between its tabs. -/
def columns (row : String) : List String := (row.split '\t').toList.map String.Slice.copy

/-- A row as the unit tests read it. -/
structure TestCase where
  input : String
  name : Option String
  domain : Option String
  path : Option String
  tag : Option String
  digestAlgo : Option String
  digestEncoded : Option String
  err : Option String
  deriving DecidableEq, Repr

namespace TestCase

def maybe (s : String) : Option String := if s = "" then none else some s

/-- `From<&str>`, where each column is the next one, unwrapped. -/
def fromLine {ε : Type} (line : String) : Outcome ε TestCase :=
  match columns line with
  | input :: name :: domain :: path :: tag :: digestAlgo :: digestEncoded :: err :: _ =>
    .ok ⟨input, maybe name, maybe domain, maybe path, maybe tag, maybe digestAlgo,
      maybe digestEncoded, maybe err⟩
  | _ => .panic .unwrap

def asTestCase {ε : Type} (span : ImgRef) : Outcome ε TestCase := do
  let name ← span.nameStr
  let domain ← span.domain
  let path ← span.path
  let path ← path.toStr
  let tag ← span.tag
  let digest ← span.digest
  let digestAlgo ← digest.mapM Digest.algorithm
  let digestEncoded ← digest.mapM Digest.encoded
  .ok ⟨span.src, some name, domain.map Domain.toStr, some path, tag,
    digestAlgo.map Algorithm.toStr, digestEncoded.map Encoded.toStr, none⟩

end TestCase

namespace ReferenceOracle

/-- A row as the harness of the fuzz tests reads it. -/
structure ParseResult where
  input : String
  name : String
  domain : String
  path : String
  tag : String
  digestAlgo : String
  digestEncoded : String
  err : String
  deriving DecidableEq, Repr

def ipv6ExpectedFailure (errName : String) : Bool :=
  hasPrefix "Ipv6" && (hasPrefix "Ipv6TooLong" || hasPrefix "Ipv6BadColon" ||
    hasPrefix "Ipv6TooManyHexDigits" || hasPrefix "Ipv6TooManyGroups" ||
    hasPrefix "Ipv6TooFewGroups")
where
  hasPrefix (p : String) : Bool := p.toList.isPrefixOf errName.toList

def unescape (s : String) : String :=
  String.ofList (Escape.unescapeAll '\r' '\\' 'r' (Escape.unescapeAll '\n' '\\' 'n'
    (Escape.unescapeAll '\t' '\\' 't' s.toList)))

/-- `strings.TrimRight(s, "\n")` -/
def trimRight (s : String) : String := String.ofList (s.toList.rdropWhile (· = '\n'))

/-- A row of another number of columns is a panic. -/
def parseTsv {ε : Type} (row : String) : Outcome ε ParseResult :=
  match columns row with
  | [input, name, domain, path, tag, digestAlgo, digestEncoded, err] =>
    .ok ⟨unescape input, unescape name, unescape domain, unescape path, unescape tag,
      unescape digestAlgo, unescape digestEncoded, unescape (trimRight err)⟩
  | _ => .panic .assertion

end ReferenceOracle

end ContainerImageDistRef
