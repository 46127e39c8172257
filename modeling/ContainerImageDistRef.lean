import ContainerImageDistRef.Partition
import ContainerImageDistRef.RoundTrip
import ContainerImageDistRef.Safety
import ContainerImageDistRef.PinByDigest
import ContainerImageDistRef.TagLanguage
import ContainerImageDistRef.DigestErrorOffsets
import ContainerImageDistRef.PartParsers
import ContainerImageDistRef.Name.Domain.Ipv6.Address
import ContainerImageDistRef.Name.Domain.Ipv6.StateMeaning
import ContainerImageDistRef.Name.HostLanguage
import ContainerImageDistRef.Name.SegmentLanguage
import ContainerImageDistRef.Name.PathLanguage
import ContainerImageDistRef.Name.PathErrors
import ContainerImageDistRef.Name.DomainLength
import ContainerImageDistRef.Name.PartialParsing
import ContainerImageDistRef.Digest.Classification
import ContainerImageDistRef.Digest.Validation
import ContainerImageDistRef.Digest.AlgorithmLength
import ContainerImageDistRef.Canonical
import ContainerImageDistRef.Order
import ContainerImageDistRef.Recombination
import ContainerImageDistRef.Name.Domain.Ipv6.Errors
import ContainerImageDistRef.Ambiguous.SegmentErrors
import ContainerImageDistRef.Ambiguous.Narrow
import ContainerImageDistRef.Ambiguous.PortOrTagErrors
import ContainerImageDistRef.Digest.Errors
import ContainerImageDistRef.Name.PathFailures
import ContainerImageDistRef.Ambiguous.DomainOrRefErrors
import ContainerImageDistRef.ReferenceErrors
import ContainerImageDistRef.ErrorKinds
import ContainerImageDistRef.ParseStdinRows
