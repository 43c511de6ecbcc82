import Hotstuff.Library.Bytes
import Mathlib.Data.List.Sort

/-! Wire-independent values of the protocol: signatures, certificates, blocks and
messages, with the byte forms that are hashed and signed. -/
namespace Hotstuff
open Library

abbrev ID := UInt32
abbrev View := UInt64
/-- A SHA-256 digest, its 32 bytes read as a little-endian number. -/
abbrev Hash := BitVec 256
abbrev Command := List UInt8

instance : LawfulBEq Hash := inferInstance

namespace ID
def toBytes (id : ID) : List UInt8 := leBytes 4 id.toNat
end ID

namespace View
def toBytes (v : View) : List UInt8 := leBytes 8 v.toNat

/-- The view written into the first eight bytes of an otherwise zero hash. -/
def toHash (v : View) : Hash := BitVec.ofNat 256 v.toNat
end View

namespace Hash
def toBytes (h : Hash) : List UInt8 := leBytes 32 h.toNat
end Hash

structure EcdsaSignature where
  r : Nat
  s : Nat
  signer : ID
  deriving DecidableEq, Repr

/-- The signer is not part of the bytes, nor is the boundary between `r` and `s`. -/
def EcdsaSignature.toBytes (g : EcdsaSignature) : List UInt8 := beBytes g.r ++ beBytes g.s

structure PointG2 where
  compressed : List UInt8
  deriving DecidableEq, Repr

structure Bls12Signature where
  signer : ID
  s : PointG2
  deriving DecidableEq, Repr

def Bls12Signature.toBytes (g : Bls12Signature) : List UInt8 := ID.toBytes g.signer ++ g.s.compressed

/-- The dynamic type behind `consensus.Signature`; a nil interface is `none`. -/
inductive Signature where
  | ecdsa : EcdsaSignature → Signature
  | bls12 : Bls12Signature → Signature
  deriving DecidableEq, Repr

namespace Signature
def signer : Signature → ID
  | ecdsa g => g.signer
  | bls12 g => g.signer

def toBytes : Signature → List UInt8
  | ecdsa g => g.toBytes
  | bls12 g => g.toBytes
end Signature

/-- `ecdsa.ThresholdSignature`: a map keyed by the signers of its entries, kept in key order. -/
structure EcdsaThreshold where
  entries : List EcdsaSignature
  sorted : entries.Pairwise (fun a b => a.signer < b.signer)
  deriving DecidableEq, Repr

namespace EcdsaThreshold
def contains (t : EcdsaThreshold) (id : ID) : Bool := t.entries.any (fun g => g.signer = id)

def find (t : EcdsaThreshold) (id : ID) : Option EcdsaSignature :=
  t.entries.find? (fun g => g.signer = id)

private def insertEntry (g : EcdsaSignature) : List EcdsaSignature → List EcdsaSignature
  | [] => [g]
  | e :: l => if g.signer < e.signer then g :: e :: l
    else if g.signer = e.signer then g :: l else e :: insertEntry g l

private theorem mem_insertEntry {g x : EcdsaSignature} {l : List EcdsaSignature}
    (h : l.Pairwise (fun a b => a.signer < b.signer)) :
    x ∈ insertEntry g l ↔ x = g ∨ x ∈ l ∧ x.signer ≠ g.signer := by
  induction l with
  | nil => simp [insertEntry]
  | cons e l ih =>
    obtain ⟨he,hl⟩ := List.pairwise_cons.mp h
    rw [insertEntry]
    split_ifs with h1 h2
    · have above (y : EcdsaSignature) (hy : y ∈ e :: l) : y.signer ≠ g.signer := by
        rcases List.mem_cons.mp hy with rfl | hy
        · exact (UInt32.ne_of_lt h1).symm
        · exact (UInt32.ne_of_lt (UInt32.lt_trans h1 (he y hy))).symm
      rw [List.mem_cons]
      exact or_congr_right ⟨fun hx => ⟨hx,above x hx⟩,And.left⟩
    · have above (y : EcdsaSignature) (hy : y ∈ l) : y.signer ≠ g.signer :=
        fun hyg => UInt32.ne_of_lt (he y hy) (h2.symm.trans hyg.symm)
      rw [List.mem_cons,List.mem_cons]
      refine or_congr_right ⟨fun hx => ⟨.inr hx,above x hx⟩,fun hx => hx.1.resolve_left ?_⟩
      rintro rfl
      exact hx.2 h2.symm
    · rw [List.mem_cons,List.mem_cons,ih hl]
      have hne (hx : x = e) : x.signer ≠ g.signer := hx ▸ Ne.symm h2
      tauto

private theorem insertEntry_sorted (g : EcdsaSignature) {l : List EcdsaSignature}
    (h : l.Pairwise (fun a b => a.signer < b.signer)) :
    (insertEntry g l).Pairwise (fun a b => a.signer < b.signer) := by
  induction l with
  | nil => simp [insertEntry]
  | cons e l ih =>
    obtain ⟨he,hl⟩ := List.pairwise_cons.mp h
    rw [insertEntry]
    split_ifs with h1 h2
    · exact List.pairwise_cons.mpr ⟨fun x hx => by
        rcases List.mem_cons.mp hx with rfl | hx
        · exact h1
        · exact UInt32.lt_trans h1 (he x hx),h⟩
    · exact List.pairwise_cons.mpr ⟨fun x hx => h2 ▸ he x hx,hl⟩
    · refine List.pairwise_cons.mpr ⟨fun x hx => ?_,ih hl⟩
      rcases (mem_insertEntry hl).mp hx with rfl | ⟨hx,-⟩
      · exact UInt32.lt_of_le_of_ne (UInt32.not_lt.mp h1) (Ne.symm h2)
      · exact he x hx

def insert (t : EcdsaThreshold) (g : EcdsaSignature) : EcdsaThreshold :=
  ⟨insertEntry g t.entries,insertEntry_sorted g t.sorted⟩

theorem mem_insert {t : EcdsaThreshold} {g x : EcdsaSignature} :
    x ∈ (t.insert g).entries ↔ x = g ∨ x ∈ t.entries ∧ x.signer ≠ g.signer := mem_insertEntry t.sorted

theorem contains_iff {t : EcdsaThreshold} {id : ID} : t.contains id = true ↔ ∃ g ∈ t.entries, g.signer = id := by
  simp [contains]

def empty : EcdsaThreshold := ⟨[],.nil⟩

def restore (l : List EcdsaSignature) : EcdsaThreshold := l.foldl insert empty

private theorem mem_restore {l : List EcdsaSignature} (h : (l.map EcdsaSignature.signer).Nodup) {x : EcdsaSignature} :
    x ∈ (restore l).entries ↔ x ∈ l := by
  induction l using List.reverseRecOn with
  | nil => rfl
  | append_singleton l g ih =>
    rw [List.map_append,List.map_singleton,List.nodup_append] at h
    have hne (hx : x ∈ l) : x.signer ≠ g.signer :=
      fun he => h.2.2 _ (List.mem_map_of_mem hx) _ (List.mem_singleton_self _) he
    have hs : restore (l ++ [g]) = (restore l).insert g := List.foldl_append
    rw [hs,mem_insert,ih h.1,List.mem_append,List.mem_singleton]
    tauto

theorem nodup_signers (t : EcdsaThreshold) : (t.entries.map EcdsaSignature.signer).Nodup :=
  List.pairwise_map.mpr (t.sorted.imp UInt32.ne_of_lt)

/-- Nothing is replaced when the signers differ. -/
theorem perm_restore {l : List EcdsaSignature} (h : (l.map EcdsaSignature.signer).Nodup) :
    (restore l).entries.Perm l :=
  (List.perm_ext_iff_of_nodup (restore l).nodup_signers.of_map h.of_map).mpr fun _ => mem_restore h

/-- The map is the same in whatever order its entries arrive. -/
theorem restore_perm (t : EcdsaThreshold) {l : List EcdsaSignature} (h : l.Perm t.entries) : restore l = t := by
  have hp : (restore l).entries.Perm t.entries :=
    (perm_restore ((h.map _).nodup_iff.mpr t.nodup_signers)).trans h
  have he : (restore l).entries = t.entries := by
    refine hp.eq_of_pairwise (fun a b _ _ hab hba => ?_) (restore l).sorted t.sorted
    exact absurd (UInt32.lt_trans hab hba) (UInt32.lt_irrefl _)
  cases t
  cases hr : restore l
  simpa [hr] using he

def order (iteration : List EcdsaSignature) : List ID :=
  iteration.foldl (fun o g => o.orderedInsert (· < ·) g.signer) []

def toBytesFrom (t : EcdsaThreshold) (iteration : List EcdsaSignature) : List UInt8 :=
  (order iteration).flatMap (fun id => ((t.find id).map EcdsaSignature.toBytes).getD [])

def toBytes (t : EcdsaThreshold) : List UInt8 := t.toBytesFrom t.entries
end EcdsaThreshold

structure AggregateSignature where
  sig : PointG2
  participants : List UInt8
  deriving DecidableEq, Repr

inductive ThresholdSignature where
  | ecdsa : EcdsaThreshold → ThresholdSignature
  | bls12 : AggregateSignature → ThresholdSignature
  deriving DecidableEq, Repr

def ThresholdSignature.toBytes : ThresholdSignature → List UInt8
  | ecdsa t => t.toBytes
  | bls12 a => a.sig.compressed

structure PartialCert where
  signature : Option Signature
  blockHash : Hash
  deriving DecidableEq, Repr

structure QuorumCert where
  signature : Option ThresholdSignature
  view : View
  hash : Hash
  deriving DecidableEq, Repr

namespace QuorumCert
def zero : QuorumCert := ⟨none,0,0⟩

def toBytes (qc : QuorumCert) : List UInt8 :=
  View.toBytes qc.view ++ Hash.toBytes qc.hash ++ (qc.signature.map ThresholdSignature.toBytes).getD []

def equals (qc other : QuorumCert) : Bool :=
  if qc.view ≠ other.view then false
  else if qc.hash ≠ other.hash then false
  else match qc.signature, other.signature with
    | some a, some b => a.toBytes = b.toBytes
    | a, b => a.isNone && b.isNone

def content (qc : QuorumCert) : View × Hash × Option (List UInt8) :=
  (qc.view,qc.hash,qc.signature.map ThresholdSignature.toBytes)

theorem equals_iff {qc other : QuorumCert} : qc.equals other = true ↔ qc.content = other.content := by
  rw [equals,content,content,Prod.mk.injEq,Prod.mk.injEq]
  by_cases hv : qc.view = other.view
  · by_cases hh : qc.hash = other.hash
    · rw [if_neg (not_not.mpr hv),if_neg (not_not.mpr hh)]
      cases qc.signature <;> cases other.signature <;> simp [hv,hh]
    · simp [hh]
  · simp [hv]

end QuorumCert

structure TimeoutCert where
  signature : Option ThresholdSignature
  view : View
  deriving DecidableEq, Repr

/-- The certificate map is listed in the order of one iteration over it. -/
structure AggregateQC where
  qcs : List (ID × QuorumCert)
  sig : Option ThresholdSignature
  view : View
  nodup : (qcs.map Prod.fst).Nodup
  deriving DecidableEq, Repr

structure SyncInfo where
  qc : Option QuorumCert := none
  tc : Option TimeoutCert := none
  aggQC : Option AggregateQC := none
  deriving DecidableEq, Repr

structure Block where
  parent : Hash
  proposer : ID
  cmd : Command
  cert : QuorumCert
  view : View
  deriving DecidableEq, Repr

namespace Block
def toBytes (b : Block) : List UInt8 :=
  Hash.toBytes b.parent ++ ID.toBytes b.proposer ++ View.toBytes b.view ++ b.cmd ++ b.cert.toBytes
end Block

/-- All fields of the genesis block are zero values; so are those of `BlockFromProto(nil)`. -/
def genesis : Block := ⟨0,0,[],.zero,0⟩

structure ProposeMsg where
  id : ID
  block : Block
  aggQC : Option AggregateQC
  deriving DecidableEq, Repr

structure VoteMsg where
  id : ID
  cert : PartialCert
  deferred : Bool
  deriving DecidableEq, Repr

structure TimeoutMsg where
  id : ID
  view : View
  viewSignature : Option Signature
  msgSignature : Option Signature
  syncInfo : SyncInfo
  deriving DecidableEq, Repr

/-- What `TimeoutMsg.Hash` feeds to SHA-256: view, certified hash and sender, no certificate view. -/
def TimeoutMsg.toBytes (m : TimeoutMsg) : List UInt8 :=
  View.toBytes m.view ++ (m.syncInfo.qc.map (fun qc => Hash.toBytes qc.hash)).getD [] ++ ID.toBytes m.id

structure NewViewMsg where
  id : ID
  syncInfo : SyncInfo
  deriving DecidableEq, Repr

end Hotstuff
