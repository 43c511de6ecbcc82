import Hotstuff.Wire.Convert
import Hotstuff.Replica.State

/-! The handlers of the gorums server: they turn an incoming message into an event of the replica. What `getClientID`
finds in the context of the call is a parameter; it is `none` if that returns an error. -/
namespace Hotstuff
namespace Pb

inductive Request where
  | propose (proposal : Proposal)
  | vote (cert : PartialCert)
  | newView (msg : SyncInfo)
  | timeout (msg : TimeoutMsg)

namespace Server
variable (fromCompressed : List UInt8 → Option PointG2)

/-- The sender is written into the block before it is converted. As in every handler the outer `none` is a panic, and
the inner one says that no event is added. -/
def propose (client : Option ID) (proposal : Proposal) : Option (Option Event) :=
  match client with
  | none => some none
  | some id => do
    let block ← proposal.block
    let proposeMsg := proposalFromProto fromCompressed { proposal with block := some { block with proposer := id } }
    return some (.propose { proposeMsg with id := id })

def vote (client : Option ID) (cert : PartialCert) : Option (Option Event) :=
  match client with
  | none => some none
  | some id => do
    let partialCert ← partialCertFromProto fromCompressed cert
    return some (.vote ⟨id,partialCert,false⟩)

def newView (client : Option ID) (msg : SyncInfo) : Option (Option Event) :=
  match client with
  | none => some none
  | some id => some (some (.newView ⟨id,syncInfoFromProto fromCompressed (some msg)⟩))

/-- The message is converted before the sender is known, and is added under ID 0 if it stays unknown. -/
def timeout (client : Option ID) (msg : TimeoutMsg) : Option (Option Event) := do
  let timeoutMsg ← timeoutMsgFromProto fromCompressed msg
  return some (.timeout { timeoutMsg with id := client.getD 0 })

def handle (client : Option ID) : Request → Option (Option Event)
  | .propose proposal => propose fromCompressed client proposal
  | .vote cert => vote fromCompressed client cert
  | .newView msg => newView fromCompressed client msg
  | .timeout msg => timeout fromCompressed client msg

end Server

def Signature.Truncated (sig : Option Signature) : Prop :=
  ∃ m, sig.bind Signature.sig = some (.bls12Sig m) ∧ m.sig.length < 4

/-- What a message needs so that its handler returns. An unknown sender is found out before a proposal or a vote is
looked at, but only after a timeout message is. -/
def Request.Decodable (client : Option ID) : Request → Prop
  | .propose proposal => client.isSome → proposal.block.isSome
  | .vote cert => client.isSome → ¬Signature.Truncated cert.sig
  | .newView _ => True
  | .timeout msg => ¬Signature.Truncated msg.viewSig ∧ (msg.viewSig.isSome → ¬Signature.Truncated msg.msgSig)

theorem signatureFromProto_isSome_iff (fromCompressed : List UInt8 → Option PointG2) (sig : Option Signature) :
    (signatureFromProto fromCompressed sig).isSome ↔ ¬Signature.Truncated sig := by
  rw [signatureFromProto,Signature.Truncated]
  rcases sig.bind Signature.sig with _ | m | m
  · simp
  · simp
  · by_cases h : m.sig.length < 4 <;> simp [Bls12Signature.fromBytes,h]

theorem timeoutMsgFromProto_isSome_iff (fromCompressed : List UInt8 → Option PointG2) (m : TimeoutMsg) :
    (timeoutMsgFromProto fromCompressed m).isSome ↔
      ¬Signature.Truncated m.viewSig ∧ (m.viewSig.isSome → ¬Signature.Truncated m.msgSig) := by
  rw [← signatureFromProto_isSome_iff fromCompressed m.viewSig,← signatureFromProto_isSome_iff fromCompressed m.msgSig,
    timeoutMsgFromProto]
  rcases signatureFromProto fromCompressed m.viewSig with _ | viewSig
  · simp
  · by_cases hv : m.viewSig.isSome
    · rcases signatureFromProto fromCompressed m.msgSig with _ | msgSig <;> simp [hv]
    · simp [hv]

/-- A handler of the server panics exactly on a proposal without a block and on a BLS12 signature that is too short to
hold its signer; every other absent field and every other length of a byte string is handled. -/
theorem Server.handler_returns_iff (fromCompressed : List UInt8 → Option PointG2) (client : Option ID) (r : Request) :
    (Server.handle fromCompressed client r).isSome ↔ r.Decodable client := by
  rcases r with proposal | cert | msg | msg
  · rcases client with _ | id
    · simp [handle,propose,Request.Decodable]
    · rcases hb : proposal.block with _ | block <;> simp [handle,propose,Request.Decodable,hb]
  · rcases client with _ | id
    · simp [handle,vote,Request.Decodable]
    · have hs := signatureFromProto_isSome_iff fromCompressed cert.sig
      rcases h : signatureFromProto fromCompressed cert.sig with _ | sig <;>
        simp_all [handle,vote,partialCertFromProto,Request.Decodable]
  · rcases client with _ | id <;> simp [handle,newView,Request.Decodable]
  · rw [Request.Decodable,← timeoutMsgFromProto_isSome_iff fromCompressed msg,handle,timeout]
    rcases timeoutMsgFromProto fromCompressed msg with _ | m <;> simp

end Pb

namespace Sample

def fromCompressed (b : List UInt8) : Option PointG2 := if b.length = 96 then some ⟨b⟩ else none

/-- No block, and a vote and a timeout message whose signatures have no byte or three: the handlers panic. -/
theorem handlers_panic :
    Pb.Server.handle fromCompressed (some 2) (.propose ⟨none,none⟩) = none ∧
    Pb.Server.handle fromCompressed (some 2) (.vote ⟨some ⟨some (.bls12Sig ⟨[]⟩)⟩,[]⟩) = none ∧
    Pb.Server.handle fromCompressed none (.timeout ⟨7,none,some ⟨some (.bls12Sig ⟨[2,0,0]⟩)⟩,none⟩) = none :=
  ⟨rfl,rfl,rfl⟩

end Sample
end Hotstuff
