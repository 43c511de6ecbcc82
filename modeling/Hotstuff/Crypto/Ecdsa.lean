import Hotstuff.Consensus.Types
import Mathlib.Data.Finset.Card

/-! The ECDSA crypto implementation without a signature cache. SHA-256 and the
curve's verification equation are parameters; everything around them is executed. -/
namespace Hotstuff

def numFaulty (n : Nat) : Nat := (n-1)/3

def quorumSize (n : Nat) : Nat := n - numFaulty n

theorem quorumSize_pos {n : Nat} (h : 0 < n) : 0 < quorumSize n := by
  rw [quorumSize,numFaulty]
  omega

/-- One configuration: the hash function, the replicas, and `ecdsa.Verify` under
the public key that the configuration holds for an ID. -/
structure Setup where
  sha256 : List UInt8 → Hash
  replicas : Finset ID
  ecdsaVerify : ID → Hash → Nat → Nat → Bool

namespace Setup
variable (S : Setup)

def quorum : Nat := quorumSize S.replicas.card

theorem quorum_pos (h : S.replicas.Nonempty) : 0 < S.quorum := quorumSize_pos h.card_pos

end Setup

def Block.hash (S : Setup) (b : Block) : Hash := S.sha256 b.toBytes

def TimeoutMsg.hash (S : Setup) (m : TimeoutMsg) : Hash := S.sha256 m.toBytes

inductive CryptoError where
  | notAQuorum
  | partialDuplicate
  | wrongType
  deriving DecidableEq, Repr

namespace Setup
variable (S : Setup)

def verifyEcdsa (g : EcdsaSignature) (h : Hash) : Bool :=
  decide (g.signer ∈ S.replicas) && S.ecdsaVerify g.signer h g.r g.s

def verify (sig : Option Signature) (h : Hash) : Bool :=
  match sig with
  | some (.ecdsa g) => S.verifyEcdsa g h
  | _ => false

def addPartial (hashOf : ID → Option Hash) (acc : EcdsaThreshold × List CryptoError)
    (s : Signature) : EcdsaThreshold × List CryptoError :=
  if acc.1.contains s.signer then (acc.1,acc.2 ++ [.partialDuplicate])
  else match hashOf s.signer with
    | none => acc
    | some h => match s with
      | .ecdsa g => if S.verifyEcdsa g h then (acc.1.insert g,acc.2) else acc
      | .bls12 _ => (acc.1,acc.2 ++ [.wrongType])

def createFrom (hashOf : ID → Option Hash) (partials : List Signature) :
    Except (List CryptoError) EcdsaThreshold :=
  let acc := partials.foldl (S.addPartial hashOf) (.empty,[])
  if S.quorum ≤ acc.1.entries.length then .ok acc.1 else .error (.notAQuorum :: acc.2)

def createThresholdSignature (partials : List Signature) (h : Hash) :
    Except (List CryptoError) EcdsaThreshold := S.createFrom (fun _ => some h) partials

def createThresholdSignatureForMessageSet (partials : List Signature) (hashes : List (ID × Hash)) :
    Except (List CryptoError) EcdsaThreshold := S.createFrom (fun id => hashes.lookup id) partials

/-- Invalid entries are only not counted; they do not make the signature invalid. -/
def verifyThresholdSignature (sig : Option ThresholdSignature) (h : Hash) : Bool :=
  match sig with
  | some (.ecdsa t) =>
    if t.entries.length < S.quorum then false
    else decide (S.quorum ≤ (t.entries.filter (fun g => S.verifyEcdsa g h)).length)
  | _ => false

def startedFor (t : EcdsaThreshold) : List (ID × Hash) → List Hash → Option (List (EcdsaSignature × Hash))
  | [], _ => some []
  | (id,h) :: rest, seen =>
    if h ∈ seen then none
    else match t.find id with
      | none => none
      | some g => (startedFor t rest (h :: seen)).map ((g,h) :: ·)

/-- One result is received for every entry of the signature, so with fewer goroutines
than entries the call never returns (`none`). -/
def verifyThresholdSignatureForMessageSet (sig : Option ThresholdSignature)
    (hashes : List (ID × Hash)) : Option Bool :=
  match sig with
  | some (.ecdsa t) =>
    match startedFor t hashes [] with
    | none => some false
    | some started =>
      if started.length < t.entries.length then none
      else some (decide (S.quorum ≤ (started.filter (fun x => S.verifyEcdsa x.1 x.2)).length))
  | _ => some false

end Setup
end Hotstuff
