import Hotstuff.Consensus.Types

/-! The protobuf messages of package `hotstuffpb` and the conversions to and from the values of the protocol. A pointer
to a message is an `Option`, a `oneof` an optional inductive value. The getters of an absent message return zero values,
so a converter takes the pointer and not the message. Decompression of points of G2 is a parameter. -/
namespace Hotstuff
open Library

/-- `Signature.FromBytes`: the outer `none` is the panic on a slice that holds no signer, the inner one the error of
the decompression. -/
def Bls12Signature.fromBytes (fromCompressed : List UInt8 → Option PointG2) (b : List UInt8) :
    Option (Option Bls12Signature) :=
  if b.length < 4 then none
  else some ((fromCompressed (b.drop 4)).map fun p => ⟨UInt32.ofNat (leValue (b.take 4)),p⟩)

/-- `copy` into a zero hash: bytes beyond the 32nd are ignored, missing ones stay zero. -/
def Hash.copy (b : List UInt8) : Hash := BitVec.ofNat 256 (leValue (b.take 32))

namespace Pb

structure ECDSASignature where
  signer : UInt32
  r : List UInt8
  s : List UInt8
  deriving DecidableEq, Repr

structure BLS12Signature where
  sig : List UInt8
  deriving DecidableEq, Repr

inductive Signature.Sig where
  | ecdsaSig : ECDSASignature → Signature.Sig
  | bls12Sig : BLS12Signature → Signature.Sig
  deriving DecidableEq, Repr

structure Signature where
  sig : Option Signature.Sig
  deriving DecidableEq, Repr

structure PartialCert where
  sig : Option Signature
  hash : List UInt8
  deriving DecidableEq, Repr

structure ECDSAThresholdSignature where
  sigs : List ECDSASignature
  deriving DecidableEq, Repr

structure BLS12AggregateSignature where
  sig : List UInt8
  participants : List UInt8
  deriving DecidableEq, Repr

inductive ThresholdSignature.AggSig where
  | ecdsaSigs : ECDSAThresholdSignature → ThresholdSignature.AggSig
  | bls12Sig : BLS12AggregateSignature → ThresholdSignature.AggSig
  deriving DecidableEq, Repr

structure ThresholdSignature where
  aggSig : Option ThresholdSignature.AggSig
  deriving DecidableEq, Repr

structure QuorumCert where
  sig : Option ThresholdSignature
  view : UInt64
  hash : List UInt8
  deriving DecidableEq, Repr

structure TimeoutCert where
  sig : Option ThresholdSignature
  view : UInt64
  deriving DecidableEq, Repr

structure AggQC where
  qcs : List (UInt32 × QuorumCert)
  sig : Option ThresholdSignature
  view : UInt64
  nodup : (qcs.map Prod.fst).Nodup
  deriving DecidableEq, Repr

structure SyncInfo where
  qc : Option QuorumCert
  tc : Option TimeoutCert
  aggQC : Option AggQC
  deriving DecidableEq, Repr

structure Block where
  parent : List UInt8
  qc : Option QuorumCert
  view : UInt64
  command : List UInt8
  proposer : UInt32
  deriving DecidableEq, Repr

structure Proposal where
  block : Option Block
  aggQC : Option AggQC
  deriving DecidableEq, Repr

structure TimeoutMsg where
  view : UInt64
  syncInfo : Option SyncInfo
  viewSig : Option Signature
  msgSig : Option Signature
  deriving DecidableEq, Repr

/-- The orders in which the sender iterates over its maps of signatures and certificates. -/
structure Iteration where
  sigs : List EcdsaSignature → List EcdsaSignature
  sigs_perm : ∀ l, (sigs l).Perm l
  qcs : List (ID × Hotstuff.QuorumCert) → List (ID × Hotstuff.QuorumCert)
  qcs_perm : ∀ l, (qcs l).Perm l

section ToProto
variable (it : Iteration)

def ecdsaToProto (g : EcdsaSignature) : ECDSASignature := ⟨g.signer,beBytes g.r,beBytes g.s⟩

def signatureToProto : Option Hotstuff.Signature → Signature
  | some (.ecdsa g) => ⟨some (.ecdsaSig (ecdsaToProto g))⟩
  | some (.bls12 g) => ⟨some (.bls12Sig ⟨g.toBytes⟩)⟩
  | none => ⟨none⟩

def thresholdSignatureToProto : Option Hotstuff.ThresholdSignature → ThresholdSignature
  | some (.ecdsa t) => ⟨some (.ecdsaSigs ⟨(it.sigs t.entries).map ecdsaToProto⟩)⟩
  | some (.bls12 a) => ⟨some (.bls12Sig ⟨a.sig.compressed,a.participants⟩)⟩
  | none => ⟨none⟩

def partialCertToProto (cert : Hotstuff.PartialCert) : PartialCert where
  sig := some (signatureToProto cert.signature)
  hash := Hash.toBytes cert.blockHash

def quorumCertToProto (qc : Hotstuff.QuorumCert) : QuorumCert where
  sig := some (thresholdSignatureToProto it qc.signature)
  view := qc.view
  hash := Hash.toBytes qc.hash

def timeoutCertToProto (tc : Hotstuff.TimeoutCert) : TimeoutCert where
  sig := some (thresholdSignatureToProto it tc.signature)
  view := tc.view

def aggregateQCToProto (a : AggregateQC) : AggQC where
  qcs := (it.qcs a.qcs).map fun e => (e.1,quorumCertToProto it e.2)
  sig := some (thresholdSignatureToProto it a.sig)
  view := a.view
  nodup := by
    rw [List.map_map]
    exact ((it.qcs_perm a.qcs).map Prod.fst).nodup_iff.mpr a.nodup

def blockToProto (block : Hotstuff.Block) : Block where
  parent := Hash.toBytes block.parent
  qc := some (quorumCertToProto it block.cert)
  view := block.view
  command := block.cmd
  proposer := block.proposer

def proposalToProto (proposal : ProposeMsg) : Proposal where
  block := some (blockToProto it proposal.block)
  aggQC := proposal.aggQC.map (aggregateQCToProto it)

def syncInfoToProto (si : Hotstuff.SyncInfo) : SyncInfo where
  qc := si.qc.map (quorumCertToProto it)
  tc := si.tc.map (timeoutCertToProto it)
  aggQC := si.aggQC.map (aggregateQCToProto it)

/-- The view signature is always set, if only to an empty message; the message signature is not. -/
def timeoutMsgToProto (m : Hotstuff.TimeoutMsg) : TimeoutMsg where
  view := m.view
  syncInfo := some (syncInfoToProto it m.syncInfo)
  viewSig := some (signatureToProto m.viewSignature)
  msgSig := m.msgSignature.map fun g => signatureToProto (some g)

end ToProto

section FromProto
variable (fromCompressed : List UInt8 → Option PointG2)

def ecdsaFromProto (m : ECDSASignature) : EcdsaSignature := ⟨beValue m.r,beValue m.s,m.signer⟩

/-- The outer `none` is a panic, the inner one a nil signature. -/
def signatureFromProto (sig : Option Signature) : Option (Option Hotstuff.Signature) :=
  match sig.bind Signature.sig with
  | some (.ecdsaSig m) => some (some (.ecdsa (ecdsaFromProto m)))
  | some (.bls12Sig m) => (Bls12Signature.fromBytes fromCompressed m.sig).map (Option.map .bls12)
  | none => some none

def thresholdSignatureFromProto (sig : Option ThresholdSignature) : Option Hotstuff.ThresholdSignature :=
  match sig.bind ThresholdSignature.aggSig with
  | some (.ecdsaSigs m) => some (.ecdsa (.restore (m.sigs.map ecdsaFromProto)))
  | some (.bls12Sig m) => (fromCompressed m.sig).map fun p => .bls12 ⟨p,m.participants⟩
  | none => none

def partialCertFromProto (cert : PartialCert) : Option Hotstuff.PartialCert :=
  (signatureFromProto fromCompressed cert.sig).map fun sig => ⟨sig,Hash.copy cert.hash⟩

def quorumCertFromProto : Option QuorumCert → Hotstuff.QuorumCert
  | some qc => ⟨thresholdSignatureFromProto fromCompressed qc.sig,qc.view,Hash.copy qc.hash⟩
  | none => .zero

def timeoutCertFromProto (m : TimeoutCert) : Hotstuff.TimeoutCert :=
  ⟨thresholdSignatureFromProto fromCompressed m.sig,m.view⟩

def aggregateQCFromProto (m : AggQC) : AggregateQC where
  qcs := m.qcs.map fun e => (e.1,quorumCertFromProto fromCompressed (some e.2))
  sig := thresholdSignatureFromProto fromCompressed m.sig
  view := m.view
  nodup := by rw [List.map_map]; exact m.nodup

/-- An absent block is the genesis block. -/
def blockFromProto : Option Block → Hotstuff.Block
  | some m => ⟨Hash.copy m.parent,m.proposer,m.command,quorumCertFromProto fromCompressed m.qc,m.view⟩
  | none => genesis

def proposalFromProto (p : Proposal) : ProposeMsg where
  id := 0
  block := blockFromProto fromCompressed p.block
  aggQC := p.aggQC.map (aggregateQCFromProto fromCompressed)

def syncInfoFromProto : Option SyncInfo → Hotstuff.SyncInfo
  | some m =>
    ⟨m.qc.map fun qc => quorumCertFromProto fromCompressed (some qc),m.tc.map (timeoutCertFromProto fromCompressed),
      m.aggQC.map (aggregateQCFromProto fromCompressed)⟩
  | none => {}

/-- The message signature is read only if there is a view signature. The ID is left for the caller to set. -/
def timeoutMsgFromProto (m : TimeoutMsg) : Option Hotstuff.TimeoutMsg := do
  let viewSignature ← signatureFromProto fromCompressed m.viewSig
  let msgSignature ← if m.viewSig.isSome then signatureFromProto fromCompressed m.msgSig else some none
  return ⟨0,m.view,viewSignature,msgSignature,syncInfoFromProto fromCompressed m.syncInfo⟩

end FromProto
end Pb
end Hotstuff
