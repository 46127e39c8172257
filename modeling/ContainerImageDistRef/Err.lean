import ContainerImageDistRef.Library.Outcome

/-!
# Errors

Each error is a kind and the byte index it reports. The source counts indices
in u8 or u16 and widens the first to the second when an error is passed on, so
an index is a plain number here; where the source adds with a check or with
saturation, the bound is written at that place.
-/

namespace ContainerImageDistRef

namespace Err

inductive Kind where
  | hostOrPathMissing
  | hostOrPathTooLong
  | hostOrPathInvalidChar
  | hostOrPathInvalidComponentEnd
  | portOrTagMissing
  | portOrTagInvalidChar
  | nameTooLong
  | hostMissing
  | hostComponentInvalidEnd
  | hostInvalidChar
  | hostTooLong
  | ipv6InvalidChar
  | ipv6TooLong
  | ipv6BadColon
  | ipv6TooManyHexDigits
  | ipv6TooManyGroups
  | ipv6TooFewGroups
  | ipv6MissingClosingBracket
  | port
  | portInvalidChar
  | portTooLong
  | portMissing
  | pathMissing
  | pathComponentInvalidEnd
  | pathInvalidChar
  | pathTooLong
  | tagTooLong
  | tagInvalidChar
  | tagMissing
  | algorithmMissing
  | invalidOciAlgorithm
  | algorithmInvalidNumericPrefix
  | ociRegisteredAlgorithmWrongDigestLength
  | algorithmInvalidChar
  | algorithmTooLong
  | encodedMissing
  | encodedInvalidChar
  | encodedNonLowerHex
  | ociRegisteredDigestInvalidChar
  | encodingTooShort
  | encodingTooLong
  | refMissing
  deriving DecidableEq, Repr

end Err

structure Error where
  index : Nat
  kind : Err.Kind
  deriving DecidableEq, Repr

end ContainerImageDistRef
