import Hotstuff.Crypto.Base

/-! What the byte forms of blocks and timeout messages determine. The header fields of a
block have fixed widths; the command and the certificate after them have not. -/
namespace Hotstuff
open Library

namespace ID
theorem toBytes_append_inj {a b : ID} {x y : List UInt8} (h : toBytes a ++ x = toBytes b ++ y) :
    a = b ∧ x = y := by
  obtain ⟨hn,hx⟩ := leBytes_append_inj (by simpa using a.toNat_lt) (by simpa using b.toNat_lt) h
  exact ⟨UInt32.toNat_inj.mp hn,hx⟩
end ID

namespace View
theorem toBytes_append_inj {a b : View} {x y : List UInt8} (h : toBytes a ++ x = toBytes b ++ y) :
    a = b ∧ x = y := by
  obtain ⟨hn,hx⟩ := leBytes_append_inj (by simpa using a.toNat_lt) (by simpa using b.toNat_lt) h
  exact ⟨UInt64.toNat_inj.mp hn,hx⟩
end View

namespace Hash
theorem toBytes_append_inj {a b : Hash} {x y : List UInt8} (h : toBytes a ++ x = toBytes b ++ y) :
    a = b ∧ x = y := by
  obtain ⟨hn,hx⟩ := leBytes_append_inj (by simpa using a.isLt) (by simpa using b.isLt) h
  exact ⟨BitVec.eq_of_toNat_eq hn,hx⟩
end Hash

namespace Block
theorem header_of_toBytes {b b' : Block} (h : b.toBytes = b'.toBytes) :
    b.parent = b'.parent ∧ b.proposer = b'.proposer ∧ b.view = b'.view ∧
      b.cmd ++ b.cert.toBytes = b'.cmd ++ b'.cert.toBytes := by
  simp only [toBytes,List.append_assoc] at h
  obtain ⟨hp,h⟩ := Hash.toBytes_append_inj h
  obtain ⟨hi,h⟩ := ID.toBytes_append_inj h
  obtain ⟨hv,h⟩ := View.toBytes_append_inj h
  exact ⟨hp,hi,hv,h⟩

theorem le_length_toBytes (b : Block) : 84 ≤ b.toBytes.length := by
  simp only [toBytes,QuorumCert.toBytes,Hash.toBytes,ID.toBytes,View.toBytes,List.length_append,length_leBytes]
  omega

def viewOf (x : List UInt8) : Nat := leValue ((x.drop 36).take 8)

theorem viewOf_toBytes (b : Block) : viewOf b.toBytes = b.view.toNat := by
  have hd : b.toBytes.drop 36 = View.toBytes b.view ++ (b.cmd ++ b.cert.toBytes) := by
    rw [toBytes,List.append_assoc,List.append_assoc]
    exact List.drop_left' (by simp [Hash.toBytes,ID.toBytes])
  rw [viewOf,hd,List.take_left' (by simp [View.toBytes]),View.toBytes,
    leValue_leBytes _ _ (by simpa using b.view.toNat_lt)]
end Block

namespace TimeoutMsg
theorem length_toBytes_le (m : TimeoutMsg) : m.toBytes.length ≤ 44 := by
  rw [toBytes]
  cases m.syncInfo.qc <;> simp [Hash.toBytes,ID.toBytes,View.toBytes]

/-- View, certified hash and sender are what a timeout signature binds; the presence of a
certificate shows in the length. -/
theorem toBytes_inj {m m' : TimeoutMsg} (h : m.toBytes = m'.toBytes) :
    m.view = m'.view ∧ m.syncInfo.qc.map QuorumCert.hash = m'.syncInfo.qc.map QuorumCert.hash ∧
      m.id = m'.id := by
  simp only [toBytes,List.append_assoc] at h
  obtain ⟨hv,h⟩ := View.toBytes_append_inj h
  refine ⟨hv,?_⟩
  have hl := congrArg List.length h
  have inj {a b : ID} (h : ID.toBytes a = ID.toBytes b) : a = b :=
    (ID.toBytes_append_inj (x := []) (y := []) (by simpa using h)).1
  cases hq : m.syncInfo.qc with
  | none =>
    cases hq' : m'.syncInfo.qc with
    | none => exact ⟨rfl,inj (by simpa [hq,hq'] using h)⟩
    | some q' => simp [hq,hq',Hash.toBytes,ID.toBytes] at hl
  | some q =>
    cases hq' : m'.syncInfo.qc with
    | none => simp [hq,hq',Hash.toBytes,ID.toBytes] at hl
    | some q' =>
      obtain ⟨hh,hi⟩ := Hash.toBytes_append_inj (by simpa [hq,hq'] using h)
      exact ⟨by simp [hh],inj hi⟩
end TimeoutMsg

/-- A block and a timeout message never have the same bytes. -/
theorem Block.toBytes_ne_timeout (b : Block) (m : TimeoutMsg) : b.toBytes ≠ m.toBytes := by
  intro h
  have hb := b.le_length_toBytes
  have hm := m.length_toBytes_le
  rw [h] at hb
  omega

namespace EcdsaThreshold

private theorem order_perm (l : List EcdsaSignature) : (order l).Perm (l.map EcdsaSignature.signer) := by
  induction l using List.reverseRecOn with
  | nil => exact .refl _
  | append_singleton l g ih =>
    rw [order,List.foldl_append,List.map_append]
    exact (List.perm_orderedInsert _ g.signer _).trans ((ih.cons _).trans (List.perm_append_singleton _ _).symm)

private theorem orderedInsert_sorted (id : ID) {l : List ID} (h : l.Pairwise (· ≤ ·)) :
    (l.orderedInsert (· < ·) id).Pairwise (· ≤ ·) := by
  induction l with
  | nil => simp
  | cons a l ih =>
    obtain ⟨ha,hl⟩ := List.pairwise_cons.mp h
    rw [List.orderedInsert_cons]
    split_ifs with hlt
    · refine List.pairwise_cons.mpr ⟨fun x hx => ?_,h⟩
      rcases List.mem_cons.mp hx with rfl | hx
      · exact UInt32.le_of_lt hlt
      · exact UInt32.le_trans (UInt32.le_of_lt hlt) (ha x hx)
    · refine List.pairwise_cons.mpr ⟨fun x hx => ?_,ih hl⟩
      rcases List.mem_cons.mp ((List.perm_orderedInsert _ id l).mem_iff.mp hx) with rfl | hx
      · exact UInt32.not_lt.mp hlt
      · exact ha x hx

theorem order_sorted (l : List EcdsaSignature) : (order l).Pairwise (· ≤ ·) := by
  induction l using List.reverseRecOn with
  | nil => exact .nil
  | append_singleton l g ih =>
    rw [order,List.foldl_append]
    exact orderedInsert_sorted g.signer ih

private theorem find_of_mem (t : EcdsaThreshold) {g : EcdsaSignature} (hg : g ∈ t.entries) :
    t.find g.signer = some g := by
  obtain ⟨l,h⟩ := t
  rw [find]
  change g ∈ l at hg
  induction l with
  | nil => cases hg
  | cons e l ih =>
    obtain ⟨he,hl⟩ := List.pairwise_cons.mp h
    rcases List.mem_cons.mp hg with rfl | hg
    · simp
    · rw [List.find?_cons_of_neg]
      · exact ih hl hg
      · simpa using UInt32.ne_of_lt (he g hg)

/-- In whatever order the map is iterated, the signers come out sorted. -/
theorem order_eq (t : EcdsaThreshold) {iteration : List EcdsaSignature} (h : iteration.Perm t.entries) :
    order iteration = t.entries.map EcdsaSignature.signer := by
  refine ((order_perm iteration).trans (h.map _)).eq_of_pairwise (fun a b _ _ => UInt32.le_antisymm)
    (order_sorted iteration) (List.pairwise_map.mpr ?_)
  exact t.sorted.imp UInt32.le_of_lt

/-- The signatures are concatenated by signer. -/
theorem toBytesFrom_eq (t : EcdsaThreshold) {iteration : List EcdsaSignature} (h : iteration.Perm t.entries) :
    t.toBytesFrom iteration = t.entries.flatMap EcdsaSignature.toBytes := by
  rw [toBytesFrom,order_eq t h,List.flatMap_map]
  refine List.flatMap_congr fun g hg => ?_
  rw [find_of_mem t hg]
  rfl

theorem toBytes_eq (t : EcdsaThreshold) : t.toBytes = t.entries.flatMap EcdsaSignature.toBytes :=
  t.toBytesFrom_eq (.refl _)

end EcdsaThreshold

/-- The signer, which is not in the bytes, and the lengths of the two numbers. -/
def EcdsaSignature.shape (g : EcdsaSignature) : ID × Nat × Nat :=
  (g.signer,(beBytes g.r).length,(beBytes g.s).length)

/-- What the bytes of a signature leave open: its kind, and the shapes of its entries or its participants. -/
inductive Shape where
  | ecdsa (entries : List (ID × Nat × Nat))
  | bls12 (participants : List UInt8)
  deriving DecidableEq, Repr

def ThresholdSignature.shape : ThresholdSignature → Shape
  | .ecdsa t => .ecdsa (t.entries.map EcdsaSignature.shape)
  | .bls12 a => .bls12 a.participants

/-- Where a block's bytes are to be cut: the length of the command and the shape of the signature. -/
def Block.layout (b : Block) : Nat × Option Shape :=
  (b.cmd.length,b.cert.signature.map ThresholdSignature.shape)

private theorem entries_of_shape {l l' : List EcdsaSignature}
    (h : l.flatMap EcdsaSignature.toBytes = l'.flatMap EcdsaSignature.toBytes)
    (hs : l.map EcdsaSignature.shape = l'.map EcdsaSignature.shape) : l = l' := by
  induction l generalizing l' with
  | nil => exact (List.map_eq_nil_iff.mp hs.symm).symm
  | cons g l ih =>
    cases l' with
    | nil => cases hs
    | cons g' l' =>
      obtain ⟨hg,hl⟩ := List.cons_eq_cons.mp hs
      simp only [EcdsaSignature.shape,Prod.mk.injEq] at hg
      obtain ⟨hsigner,hr,hslen⟩ := hg
      simp only [List.flatMap_cons,EcdsaSignature.toBytes,List.append_assoc] at h
      obtain ⟨hr,h⟩ := List.append_inj h hr
      obtain ⟨hs,hrest⟩ := List.append_inj h hslen
      cases g
      cases g'
      cases beBytes_injective hr
      cases beBytes_injective hs
      cases hsigner
      rw [ih hrest hl]

private theorem signature_of_shape {sig sig' : Option ThresholdSignature}
    (h : (sig.map ThresholdSignature.toBytes).getD [] = (sig'.map ThresholdSignature.toBytes).getD [])
    (hs : sig.map ThresholdSignature.shape = sig'.map ThresholdSignature.shape) : sig = sig' := by
  rcases sig with _ | t | a <;> rcases sig' with _ | t' | a' <;> try cases hs
  · rfl
  · have he := entries_of_shape (by simpa [ThresholdSignature.toBytes,EcdsaThreshold.toBytes_eq] using h)
      (by simpa [ThresholdSignature.shape] using hs)
    cases t
    cases t'
    cases he
    rfl
  · obtain ⟨⟨c⟩,ps⟩ := a
    obtain ⟨⟨c'⟩,ps'⟩ := a'
    simp only [Option.map_some,ThresholdSignature.shape,Option.some.injEq,Shape.bls12.injEq] at hs
    simp only [Option.map_some,ThresholdSignature.toBytes,Option.getD_some] at h
    rw [h,hs]

namespace Block

theorem eq_of_layout {b b' : Block} (h : b.toBytes = b'.toBytes) (hl : b.layout = b'.layout) : b = b' := by
  obtain ⟨hp,hi,hv,h⟩ := header_of_toBytes h
  obtain ⟨hlen,hs⟩ := Prod.mk.inj hl
  obtain ⟨hcmd,h⟩ := List.append_inj h hlen
  simp only [QuorumCert.toBytes,List.append_assoc] at h
  obtain ⟨hcv,h⟩ := View.toBytes_append_inj h
  obtain ⟨hch,h⟩ := Hash.toBytes_append_inj h
  have hsig := signature_of_shape h hs
  obtain ⟨_,_,_,⟨_,_,_⟩,_⟩ := b
  obtain ⟨_,_,_,⟨_,_,_⟩,_⟩ := b'
  simp_all

end Block

/-- A block's hash binds its content exactly as far as the layout is known: equal hashes mean
equal blocks just when they mean equal layouts. -/
theorem content_iff_layout (S : Setup) {b b' : Block}
    (hcol : S.sha256 b.toBytes = S.sha256 b'.toBytes → b.toBytes = b'.toBytes) :
    (b.hash S = b'.hash S → b = b') ↔ (b.hash S = b'.hash S → b.layout = b'.layout) :=
  ⟨fun h he => congrArg Block.layout (h he),fun h he => Block.eq_of_layout (hcol he) (h he)⟩

namespace Sample

/-- A block whose command is the start of the other block's certificate. -/
private def plain : Block :=
  ⟨setup.genesisHash,4,View.toBytes 9746 ++ Hash.toBytes setup.genesisHash,genesisQC 2,3⟩

/-- The same bytes with no command, and a signature with an entry that nobody checks. -/
private def folded : Block :=
  ⟨setup.genesisHash,4,[],⟨some (.ecdsa (.restore [⟨beValue (genesisQC 2).toBytes,0,7⟩])),9746,setup.genesisHash⟩,3⟩

private theorem folded_toBytes : folded.toBytes = plain.toBytes := by decide +kernel

theorem content_iff_layout_folded : (folded.hash setup = plain.hash setup → folded = plain) ↔
    (folded.hash setup = plain.hash setup → folded.layout = plain.layout) :=
  content_iff_layout setup fun _ => folded_toBytes

/-- Two blocks with accepted certificates and one hash, whose commands and certificates differ. -/
theorem hash_not_binding : ∃ b b' : Block, setup.verifyQuorumCert b.cert = true ∧
    setup.verifyQuorumCert b'.cert = true ∧ b.toBytes = b'.toBytes ∧ b.hash setup = b'.hash setup ∧
    b.cmd ≠ b'.cmd ∧ b.cert.view ≠ b'.cert.view ∧ b.cert.signature ≠ b'.cert.signature :=
  ⟨folded,plain,by decide +kernel,by decide +kernel,folded_toBytes,congrArg setup.sha256 folded_toBytes,
    by decide +kernel,by decide +kernel,by decide +kernel⟩

end Sample
end Hotstuff
