import Hotstuff.System.Replay
import Hotstuff.Consensus.Encoding

/-! What an accepted quorum certificate stands for: a quorum whose correct members voted for
a block with the certified hash. No two blocks of one view get that far. -/
namespace Hotstuff
open Library Replica
variable {S : Setup} {R : RuleSet}

def ecdsaEntries : Option ThresholdSignature → List EcdsaSignature
  | some (.ecdsa t) => t.entries
  | _ => []

def QuorumCert.sigs (qc : QuorumCert) : List EcdsaSignature := ecdsaEntries qc.signature

private theorem card_signers {l : List EcdsaSignature} (h : l.Pairwise (fun a b => a.signer < b.signer)) :
    (l.map EcdsaSignature.signer).toFinset.card = l.length := by
  rw [List.toFinset_card_of_nodup,List.length_map]
  exact List.pairwise_map.mpr (h.imp UInt32.ne_of_lt)

/-- Entries that do not verify are not counted, and no signer is counted twice. -/
theorem exists_quorum_of_verify (F : Faults S) {sig : Option ThresholdSignature} {h : Hash}
    (hv : S.verifyThresholdSignature sig h = true) :
    ∃ Q, F.committee.IsQuorum Q ∧
      ∀ i ∈ Q, ∃ g ∈ ecdsaEntries sig, g.signer = i ∧ S.verifyEcdsa g h = true := by
  rcases sig with _ | t | a
  · cases hv
  · simp only [Setup.verifyThresholdSignature] at hv
    split_ifs at hv
    set valid := t.entries.filter (fun g => S.verifyEcdsa g h) with hvalid
    have mem (i : ID) (hi : i ∈ (valid.map EcdsaSignature.signer).toFinset) :
        ∃ g ∈ t.entries, g.signer = i ∧ S.verifyEcdsa g h = true := by
      obtain ⟨g,hg,rfl⟩ := List.mem_map.mp (List.mem_toFinset.mp hi)
      obtain ⟨hg,hgv⟩ := List.mem_filter.mp hg
      exact ⟨g,hg,rfl,hgv⟩
    refine ⟨(valid.map EcdsaSignature.signer).toFinset,⟨fun i hi => ?_,?_⟩,mem⟩
    · obtain ⟨g,-,rfl,hgv⟩ := mem i hi
      simp only [Setup.verifyEcdsa,Bool.and_eq_true,decide_eq_true_eq] at hgv
      exact hgv.1
    · rw [card_signers (t.sorted.sublist List.filter_sublist)]
      exact of_decide_eq_true hv
  · cases hv

/-- Nobody signs in the name of a correct replica: each of its valid signatures on the
certificate's hash was made by that replica. -/
def Genuine (F : Faults S) (σ : System) (qc : QuorumCert) : Prop :=
  ∀ g ∈ qc.sigs, S.verifyEcdsa g qc.hash = true → g.signer ∉ F.byzantine →
    Signed S (σ g.signer).log qc.hash

theorem Ideal.Covers.voted {I : Ideal S} {σ : System} (hc : I.Covers σ) {i : ID}
    (hi : Recorded S R (σ i)) {b : Block} (hb : .vote b ∈ (σ i).log) : b ∈ I.blocks :=
  hc.blocks i _ (hi.stored b hb)

theorem Ideal.bytes_of_hash (I : Ideal S) {a b : Block} (ha : a ∈ I.blocks) (hb : b ∈ I.blocks)
    (h : a.hash S = b.hash S) : a.toBytes = b.toBytes :=
  I.injOn (.inl ⟨a,ha,rfl⟩) (.inl ⟨b,hb,rfl⟩) h

/-- A signature on the hash of a block is a vote for a block with the same bytes. -/
theorem Ideal.Covers.vote_of_signed {I : Ideal S} {σ : System} (hc : I.Covers σ) {i : ID}
    (hi : Recorded S R (σ i)) {o : List Effect} (ho : o <:+ (σ i).log) {b : Block} (hb : b ∈ I.blocks)
    (hs : Signed S o (b.hash S)) : ∃ a, .vote a ∈ o ∧ a.toBytes = b.toBytes := by
  obtain ⟨e,he,hsig⟩ := hs
  cases e with
  | vote a => exact ⟨a,he,I.bytes_of_hash (hc.voted hi (ho.mem he)) hb (Option.some.inj hsig)⟩
  | signView v => exact absurd (Option.some.inj hsig).symm (I.not_view _ (.inl ⟨b,hb,rfl⟩) v)
  | signTimeout m =>
    have hm := I.injOn (.inl ⟨b,hb,rfl⟩) (.inr ⟨m,hc.timeouts i m (ho.mem he),rfl⟩) (Option.some.inj hsig).symm
    exact absurd hm (b.toBytes_ne_timeout m)
  | _ => cases hsig

/-- Votes seen as votes for byte strings, with the view read off the bytes. -/
def bytesVoting (F : Faults S) (σ : System) : Voting ID (List UInt8) where
  toCommittee := F.committee
  view := Block.viewOf
  root := genesis.toBytes
  up _ _ := False
  voted i x := ∃ b, .vote b ∈ (σ i).log ∧ b.toBytes = x

theorem bytesVoting_increasing (F : Faults S) {σ : System} (hr : ∀ i, Recorded S R (σ i)) :
    (bytesVoting F σ).Increasing where
  once := by
    rintro i - _ _ ⟨a,ha,rfl⟩ ⟨b,hb,rfl⟩ hv
    have hv' : a.view.toNat = b.view.toNat := by
      rw [← Block.viewOf_toBytes,← Block.viewOf_toBytes]
      exact hv
    rw [(hr i).vote_unique ha hb (UInt64.toNat_inj.mp hv')]
  above := by
    rintro i - _ ⟨b,hb,rfl⟩
    have hpos := UInt64.lt_iff_toNat_lt.mp ((hr i).view_pos hb)
    change Block.viewOf genesis.toBytes < Block.viewOf b.toBytes
    rw [Block.viewOf_toBytes,Block.viewOf_toBytes]
    exact hpos

theorem certified_bytes {F : Faults S} {I : Ideal S} {σ : System} (hc : I.Covers σ)
    (hr : ∀ i, Recorded S R (σ i)) {qc : QuorumCert} (hv : S.verifyQuorumCert qc = true)
    (hg : Genuine F σ qc) {b : Block} (hb : b ∈ I.blocks) (hh : b.hash S = qc.hash) :
    (bytesVoting F σ).Certified b.toBytes := by
  rw [Setup.verifyQuorumCert] at hv
  split_ifs at hv with hgen
  · exact .inl (I.bytes_of_hash hb I.genesis_mem (hh.trans hgen))
  · obtain ⟨Q,hQ,hval⟩ := exists_quorum_of_verify F hv
    refine .inr ⟨Q,hQ,fun i hi hf => ?_⟩
    obtain ⟨g,hgm,rfl,hgv⟩ := hval i hi
    have hs := hg g hgm hgv hf
    rw [← hh] at hs
    exact hc.vote_of_signed (hr g.signer) List.suffix_rfl hb hs

/-- Two accepted certificates whose blocks have the same view are for the same hash, in every
state that correct replicas can reach, for every number of replicas and any rule set. -/
theorem certified_block_unique (F : Faults S) (I : Ideal S) {σ : System}
    (hr : Reachable R F (fun _ _ _ => True) σ) (hc : I.Covers σ) {qc qc' : QuorumCert}
    (hv : S.verifyQuorumCert qc = true) (hv' : S.verifyQuorumCert qc' = true)
    (hg : Genuine F σ qc) (hg' : Genuine F σ qc') {b b' : Block} (hb : b ∈ I.blocks) (hb' : b' ∈ I.blocks)
    (hh : b.hash S = qc.hash) (hh' : b'.hash S = qc'.hash) (hview : b.view = b'.view) :
    b.hash S = b'.hash S := by
  have hrec := hr.recorded
  have hcert := certified_bytes hc hrec hv hg hb hh
  have hcert' := certified_bytes hc hrec hv' hg' hb' hh'
  have hbytes := hcert.unique (bytesVoting_increasing F hrec) hcert' (by
    change Block.viewOf _ = Block.viewOf _
    rw [Block.viewOf_toBytes,Block.viewOf_toBytes,hview])
  rw [Block.hash,Block.hash,hbytes]

namespace Sample

private def paddedQC : QuorumCert :=
  ⟨some (.ecdsa (.restore [⟨1,((line 1).hash setup).toNat,1⟩,⟨2,((line 1).hash setup).toNat,2⟩,⟨0,0,3⟩,
    ⟨4,((line 1).hash setup).toNat,4⟩])),2,(line 1).hash setup⟩

private theorem padded_run : collisionTest setup lineKnown = true ∧
    coversTest lineKnown [1,2,3] (after .chained lineKnown lineOrder) = true ∧
    setup.verifyQuorumCert (qcOf [1,2,4] (line 1)) = true ∧ setup.verifyQuorumCert paddedQC = true ∧
    (∀ qc ∈ [qcOf [1,2,4] (line 1),paddedQC], ∀ g ∈ qc.sigs, setup.verifyEcdsa g qc.hash = true →
      g.signer ∉ faults.byzantine →
        ∃ e ∈ (after .chained lineKnown lineOrder g.signer).log, e.signedHash setup = some qc.hash) ∧
    line 1 ∈ lineKnown ∧ genesis ∈ lineKnown ∧ (qcOf [1,2,4] (line 1)).sigs ≠ paddedQC.sigs := by decide +kernel

theorem certified_block_unique_padded : ∃ qc qc' : QuorumCert, qc.sigs ≠ qc'.sigs ∧
    ∃ b b' : Block, b.hash setup = qc.hash ∧ b'.hash setup = qc'.hash ∧ b.hash setup = b'.hash setup := by
  obtain ⟨hcol,hcov,hv,hv',hgen,hm,hg,hne⟩ := padded_run
  obtain ⟨hr,hw⟩ := reachable_after .chained lineKnown lineOrder_correct
  let I : Ideal setup := .ofList lineKnown hg digest_ne_view hcol
  have hc : I.Covers (after .chained lineKnown lineOrder) := covers_of_test (fun b hb => hb) hw hcov
  exact ⟨_,_,hne,line 1,line 1,rfl,rfl,certified_block_unique faults I hr hc hv hv' (hgen _ (by simp))
    (hgen _ (by simp)) hm hm rfl rfl rfl⟩

end Sample
end Hotstuff
