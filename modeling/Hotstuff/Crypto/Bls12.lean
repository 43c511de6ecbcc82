import Hotstuff.Crypto.Ecdsa

/-! The BLS12-381 crypto implementation without a signature cache. The curve is a parameter:
hashing to it, addition, multiplication by the own key and the pairing equation. -/
namespace Hotstuff

/-- A set of IDs; bit `i` stands for ID `i+1`. -/
abbrev Bitfield := List UInt8

namespace Bitfield

def isSet (byte : UInt8) (bitIdx : Nat) : Bool := byte &&& (1 <<< UInt8.ofNat bitIdx) ≠ 0

/-- The index of ID 0 is negative and setting it panics. -/
def add (bm : Bitfield) (id : ID) : Option Bitfield :=
  if id = 0 then none
  else
    let i := id.toNat - 1
    let bm := bm ++ List.replicate (i/8 + 1 - bm.length) 0
    some (bm.modify (i/8) (· ||| (1 <<< UInt8.ofNat (i%8))))

def forEach (bm : Bitfield) : List ID :=
  bm.zipIdx.flatMap fun e => (List.range 8).filterMap fun bitIdx =>
    if isSet e.1 bitIdx then some (UInt32.ofNat (1 + e.2*8 + bitIdx)) else none

end Bitfield

/-- One configuration: the replicas, and the curve with the keys that the configuration holds.
`pairing s l` says that the pairings of the generator with `s` and of the keys of `l` with its
points cancel; `mulSecret` multiplies by the own private key. -/
structure Bls12 where
  replicas : Finset ID
  hashToCurve : Hash → Option PointG2
  infinity : PointG2
  add : PointG2 → PointG2 → PointG2
  mulSecret : PointG2 → PointG2
  pairing : PointG2 → List (ID × PointG2) → Bool

namespace Bls12
variable (B : Bls12)

def quorum : Nat := quorumSize B.replicas.card

def sign (id : ID) (h : Hash) : Option Bls12Signature := (B.hashToCurve h).map fun p => ⟨id,B.mulSecret p⟩

/-- Another type of signature, or a signer without a key, makes the call panic (`none`). -/
def verify (sig : Option Signature) (h : Hash) : Option Bool :=
  match sig with
  | some (.bls12 s) =>
    if s.signer ∉ B.replicas then none
    else match B.hashToCurve h with
      | none => some false
      | some p => some (B.pairing s.s [(s.signer,p)])
  | _ => none

def verifyThresholdSignature (sig : Option ThresholdSignature) (h : Hash) : Bool :=
  match sig with
  | some (.bls12 a) =>
    let pubKeys := (Bitfield.forEach a.participants).filter (· ∈ B.replicas)
    match B.hashToCurve h with
    | none => false
    | some p => if pubKeys.length < B.quorum then false else B.pairing a.sig (pubKeys.map (·,p))
  | _ => false

/-- The pairs added in one iteration over the map, a repeated hash being passed over, and the
set of hashes seen; `none` after an early `return false`. -/
def pairs : List (ID × Hash) → List Hash → Option (List (ID × PointG2) × List Hash)
  | [], seen => some ([],seen)
  | (id,h) :: rest, seen =>
    if h ∈ seen then pairs rest seen
    else if id ∉ B.replicas then none
    else match B.hashToCurve h with
      | none => none
      | some p => (pairs rest (h :: seen)).map fun r => ((id,p) :: r.1,r.2)

def verifyThresholdSignatureForMessageSet (sig : Option ThresholdSignature) (hashes : List (ID × Hash)) : Bool :=
  match sig with
  | some (.bls12 a) => match B.pairs hashes [] with
    | none => false
    | some (l,seen) => if B.pairing a.sig l = false then false else decide (B.quorum ≤ seen.length)
  | _ => false

def addPartial (acc : List Bls12Signature × List CryptoError) (s : Signature) :
    List Bls12Signature × List CryptoError :=
  if acc.1.any (fun g => g.signer = s.signer) then (acc.1,acc.2 ++ [.partialDuplicate])
  else match s with
    | .bls12 g => (acc.1 ++ [g],acc.2)
    | .ecdsa _ => (acc.1,acc.2 ++ [.wrongType])

theorem foldl_addPartial {l : List Bls12Signature} (h : (l.map Bls12Signature.signer).Nodup) :
    (l.map Signature.bls12).foldl addPartial ([],[]) = (l,[]) := by
  induction l using List.reverseRecOn with
  | nil => rfl
  | append_singleton l g ih =>
    rw [List.map_append,List.nodup_append] at h
    obtain ⟨hl,-,hne⟩ := h
    have hnew : l.any (fun x => x.signer = g.signer) = false := by
      rw [List.any_eq_false]
      intro x hx
      simpa using hne _ (List.mem_map.mpr ⟨x,hx,rfl⟩) _ (List.mem_singleton_self _)
    have hsigner : (Signature.bls12 g).signer = g.signer := rfl
    rw [List.map_append,List.foldl_append,ih hl,List.map_singleton,List.foldl_cons,List.foldl_nil,addPartial,hsigner]
    dsimp only
    rw [hnew]
    rfl

/-- Without signatures the result is a nil pointer, whose bytes are empty. -/
def aggregateSignatures (l : List Bls12Signature) : Option AggregateSignature :=
  if l = [] then some ⟨⟨[]⟩,[]⟩
  else l.foldlM (fun a g => (Bitfield.add a.participants g.signer).map fun ps => ⟨B.add a.sig g.s,ps⟩)
    ⟨B.infinity,[]⟩

def createThresholdSignature (order : List Bls12Signature → List Bls12Signature) (partials : List Signature) :
    Option (Except (List CryptoError) AggregateSignature) :=
  if partials.length < B.quorum then some (.error [.notAQuorum])
  else
    let acc := partials.foldl addPartial ([],[])
    if acc.1.length < B.quorum then some (.error (.notAQuorum :: acc.2))
    else (B.aggregateSignatures (order acc.1)).map .ok

end Bls12
end Hotstuff
