import Jetsam.Block.Body
import Jetsam.Wire.Reader

/-!
# Identifiers of the network actors

Points of the chain, the claims a plan makes and the exact objects peers advertise for them.
-/

namespace Jetsam

structure ChainPoint where
  height : Nat
  hash : Digest
  deriving DecidableEq

/-- A header that passed the native checks, with its hash and the work of the chain up to it. -/
structure ValidatedHeader (D : Type) where
  header : BlockHeader D
  hash : Digest
  cumulativeWork : BitVec 256
  deriving DecidableEq

def ValidatedHeader.point {D : Type} (node : ValidatedHeader D) : ChainPoint :=
  ⟨node.header.height, node.hash⟩

structure BlockBodyClaimId where
  height : Nat
  blockHash : Digest
  deriving DecidableEq

/-- The terminal of one block in a proof class. -/
structure TerminalClaimId where
  height : Nat
  semanticHeaderId : Digest
  proofClass : BitVec 8
  deriving DecidableEq

/-- One generation of the state at its boundary. -/
structure SnapshotId where
  boundary : ChainPoint
  stateRoot : Digest
  manifestDigest : Digest
  formatVersion : BitVec 32
  deriving DecidableEq

structure StateSegmentId where
  snapshot : SnapshotId
  segmentId : BitVec 16
  segmentRoot : Digest
  encodedLen : Nat
  deriving DecidableEq

inductive ObjectClaimId where
  | blockBody (claim : BlockBodyClaimId)
  | terminal (claim : TerminalClaimId)
  | snapshotManifest (snapshot : SnapshotId)
  | stateSegment (segment : StateSegmentId)
  deriving DecidableEq

/-- The hashes of the network layer, and the byte bounds of the deployment. -/
structure NetworkRules (D : Type) where
  blockId : BlockHeader D → Digest
  semanticHeaderId : BlockHeader D → Digest
  bodyDigest : List Wire.Byte → Digest
  terminalDigest : List Wire.Byte → Digest
  maxBlockBytes : Nat
  terminalBytesLimit : Nat → Nat
  historyStepClassCount : Nat
  maxObjectsPerRequest : Nat
  maxObjectResponsePayloadBytes : Nat

end Jetsam
