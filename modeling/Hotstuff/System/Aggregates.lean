import Hotstuff.Crypto.Aggregate
import Hotstuff.System.Binding
import Hotstuff.System.Fast

/-! What an accepted aggregate says about the timeouts that replicas have signed. The signatures bind the hash of a
certificate's block; the view beside it, by which the high QC is chosen, is the sender's word. -/
namespace Hotstuff
open Library Replica
variable {S : Setup}

def Ideal.NotAbove (I : Ideal S) (qc high : QuorumCert) : Prop :=
  ∃ a ∈ I.blocks, a.hash S = qc.hash ∧ ∀ b ∈ I.blocks, b.hash S = high.hash → a.view ≤ b.view

/-- The aggregate holds a signature of the entry's sender that verifies for its timeout message. -/
def AggregateQC.EcdsaSigned (S : Setup) (agg : AggregateQC) (e : ID × QuorumCert) : Prop :=
  ∃ g ∈ ecdsaEntries agg.sig, g.signer = e.1 ∧ S.verifyEcdsa g ((Setup.timeoutOf agg.view e).hash S) = true

/-- Everything that each replica, Byzantine ones included, has put its signature on; for a correct replica these
are the entries of its log. -/
structure Signatures (I : Ideal S) where
  made : ID → Set Effect
  blocks : ∀ i b, .vote b ∈ made i → b ∈ I.blocks
  timeouts : ∀ i m, .signTimeout m ∈ made i → m ∈ I.timeouts

namespace Signatures
variable {I : Ideal S} (G : Signatures I)

def Signed (i : ID) (h : Hash) : Prop := ∃ e ∈ G.made i, e.signedHash S = some h

/-- The hash of a timeout message was signed for a timeout with the same bytes. -/
theorem timeout_of_signed {i : ID} {m : TimeoutMsg} (hm : m ∈ I.timeouts) (h : G.Signed i (m.hash S)) :
    ∃ m', .signTimeout m' ∈ G.made i ∧ m'.toBytes = m.toBytes := by
  obtain ⟨e,he,hsig⟩ := h
  cases e with
  | vote b =>
    have hb := I.injOn (.inl ⟨b,G.blocks i b he,rfl⟩) (.inr ⟨m,hm,rfl⟩) (Option.some.inj hsig)
    exact absurd hb (b.toBytes_ne_timeout m)
  | signView v => exact absurd (Option.some.inj hsig).symm (I.not_view _ (.inr ⟨m,hm,rfl⟩) v)
  | signTimeout m' =>
    exact ⟨m',he,I.injOn (.inr ⟨m',G.timeouts i m' he,rfl⟩) (.inr ⟨m,hm,rfl⟩) (Option.some.inj hsig)⟩
  | _ => cases hsig

/-- A quorum of replicas have signed a timeout for the view of the aggregate, with a certificate whose block is
not above the block that `high` certifies. -/
def Supports (replicas : Finset ID) (quorum : Nat) (agg : AggregateQC) (high : QuorumCert) : Prop :=
  ∃ Q ⊆ replicas, quorum ≤ Q.card ∧ ∀ i ∈ Q, ∃ m qc, .signTimeout m ∈ G.made i ∧ m.id = i ∧ m.view = agg.view ∧
    m.syncInfo.qc = some qc ∧ I.NotAbove qc high

def EcdsaUnforged (agg : AggregateQC) : Prop :=
  ∀ e ∈ agg.qcs, agg.EcdsaSigned S e → G.Signed e.1 ((Setup.timeoutOf agg.view e).hash S)

/-- If the pairing equation of the aggregate holds for its messages, each of them was signed. -/
def BlsUnforged (B : Bls12) (agg : AggregateQC) : Prop :=
  ∀ a, agg.sig = some (.bls12 a) → ∀ l : List (ID × Hash),
    l.Perm (agg.qcs.map fun e => (e.1,(Setup.timeoutOf agg.view e).hash S)) →
    (∀ e ∈ l, (B.hashToCurve e.2).isSome = true) →
    B.pairing a.sig (l.filterMap fun e => (B.hashToCurve e.2).map (e.1,·)) = true → ∀ e ∈ l, G.Signed e.1 e.2

end Signatures

/-- A quorum of the entries that count are for blocks not above the block that `high` certifies. -/
def Ideal.LowQuorum (I : Ideal S) (replicas : Finset ID) (quorum : Nat) (agg : AggregateQC)
    (counts : ID × QuorumCert → Prop) (high : QuorumCert) : Prop :=
  ∃ Q ⊆ replicas, quorum ≤ Q.card ∧ ∀ i ∈ Q, ∃ e ∈ agg.qcs, e.1 = i ∧ counts e ∧ I.NotAbove e.2 high

variable {I : Ideal S} {agg : AggregateQC} {high : QuorumCert} {replicas : Finset ID} {quorum : Nat}
  {counts : ID × QuorumCert → Prop}

section Covered
variable (hcovers : ∀ e ∈ agg.qcs, Setup.timeoutOf agg.view e ∈ I.timeouts)
include hcovers

theorem Ideal.LowQuorum.supports (h : I.LowQuorum replicas quorum agg counts high) {G : Signatures I}
    (hsigned : ∀ e ∈ agg.qcs, counts e → G.Signed e.1 ((Setup.timeoutOf agg.view e).hash S)) :
    G.Supports replicas quorum agg high := by
  obtain ⟨Q,hQ,hcard,hall⟩ := h
  refine ⟨Q,hQ,hcard,fun i hi => ?_⟩
  obtain ⟨e,he,rfl,hc,a,ha,hah,hlow⟩ := hall i hi
  obtain ⟨m,hm,hbytes⟩ := G.timeout_of_signed (hcovers e he) (hsigned e he hc)
  obtain ⟨hview,hqc,hid⟩ := TimeoutMsg.toBytes_inj hbytes
  obtain ⟨qc,hmqc,hhash⟩ := Option.map_eq_some_iff.mp (hqc.trans (Option.map_some ..))
  exact ⟨m,qc,hm,hid,hview,hmqc,a,ha,hah.trans hhash.symm,hlow⟩

def Signatures.least (counts : ID × QuorumCert → Prop) : Signatures I where
  made i := {x | ∃ e ∈ agg.qcs, e.1 = i ∧ counts e ∧ x = .signTimeout (Setup.timeoutOf agg.view e)}
  blocks := by
    rintro i b ⟨e,-,-,-,hx⟩
    cases hx
  timeouts := by
    rintro i m ⟨e,he,-,-,hx⟩
    cases hx
    exact hcovers e he

theorem Signatures.least_signed {e : ID × QuorumCert} (he : e ∈ agg.qcs) (hc : counts e) :
    (Signatures.least hcovers counts).Signed e.1 ((Setup.timeoutOf agg.view e).hash S) :=
  ⟨_,⟨e,he,rfl,hc,rfl⟩,rfl⟩

theorem Signatures.least_supports
    (h : (Signatures.least hcovers counts).Supports replicas quorum agg high) :
    I.LowQuorum replicas quorum agg counts high := by
  obtain ⟨Q,hQ,hcard,hall⟩ := h
  refine ⟨Q,hQ,hcard,fun i hi => ?_⟩
  obtain ⟨m,qc,⟨e,he,hei,hc,hm⟩,-,-,hqc,hlow⟩ := hall i hi
  cases hm
  cases hqc
  exact ⟨e,he,hei,hc,hlow⟩

end Covered

/-- With true views beside the certificates no block is above that of the certificate with the largest view. -/
theorem Ideal.notAbove_of_carries (hcarry : ∀ e ∈ agg.qcs, I.Carries e.2) (hhigh : ∃ e ∈ agg.qcs, e.2 = high)
    (hmax : ∀ e ∈ agg.qcs, e.2.view ≤ high.view) {e : ID × QuorumCert} (he : e ∈ agg.qcs) : I.NotAbove e.2 high := by
  obtain ⟨a,ha,hah,hav⟩ := hcarry e he
  refine ⟨a,ha,hah,fun b hb hbh => ?_⟩
  obtain ⟨f,hf,rfl⟩ := hhigh
  obtain ⟨c,hc,hch,hcv⟩ := hcarry f hf
  calc a.view = e.2.view := hav
    _ ≤ f.2.view := hmax e he
    _ = c.view := hcv.symm
    _ = b.view := I.view_of_hash hc hb (hch.trans hbh.symm)

private theorem nodup_ids {C : Base} {hashes : List (ID × Hash)} (h : hashes.Perm (C.hashes agg.view agg.qcs)) :
    (hashes.map Prod.fst).Nodup := by
  rw [(h.map _).nodup_iff,Base.hashes,List.map_map]
  exact agg.nodup

/-- An accepted aggregate of ECDSA signatures has a quorum of entries that verify. -/
private theorem ecdsa_quorum {self : ID} {rand : Nat → Hash → Option (Nat × Nat)} (hne : S.replicas.Nonempty)
    (h : (Base.ecdsa S self rand).Outcome agg (some (some high))) : ∃ Q ⊆ S.replicas, S.quorum ≤ Q.card ∧
      ∀ i ∈ Q, ∃ e ∈ agg.qcs, e.1 = i ∧ agg.EcdsaSigned S e := by
  obtain ⟨hashes,ho,hv,-⟩ := h.of_accepted
  have hset : S.verifyThresholdSignatureForMessageSet agg.sig hashes = some true :=
    (Impl.ecdsa_messageSet S self rand agg.sig hashes).symm.trans hv
  obtain ⟨Q,⟨hsub,hcard⟩,hmem⟩ := exists_quorum_of_messageSet ⟨∅,hne,by simp⟩ (nodup_ids ho) hset
  refine ⟨Q,hsub,hcard,fun i hi => ?_⟩
  obtain ⟨x,hx,g,hg,rfl,hgv⟩ := hmem i hi
  obtain ⟨e,he,heq⟩ := List.mem_map.mp (ho.mem_iff.mp hx)
  rw [Prod.mk.injEq] at heq
  obtain ⟨hid,rfl⟩ := heq
  exact ⟨e,he,hid,g,hg,hid.symm,hgv⟩

/-- An accepted aggregate signature of BLS12 is over all entries, and these are a quorum. -/
private theorem bls12_quorum {B : Bls12} {self : ID} {order : Nat → List Bls12Signature → List Bls12Signature}
    (hcovers : ∀ e ∈ agg.qcs, Setup.timeoutOf agg.view e ∈ I.timeouts)
    (h : (Base.bls12 B S.sha256 self order).Outcome agg (some (some high))) :
    (∃ Q ⊆ B.replicas, B.quorum ≤ Q.card ∧ ∀ i ∈ Q, ∃ e ∈ agg.qcs, e.1 = i) ∧
    ∀ G : Signatures I, G.BlsUnforged B agg → ∀ e ∈ agg.qcs, G.Signed e.1 ((Setup.timeoutOf agg.view e).hash S) := by
  obtain ⟨hashes,ho,hv,-⟩ := h.of_accepted
  have hinj : Set.InjOn S.sha256 {x | ∃ e ∈ agg.qcs, x = (Setup.timeoutOf agg.view e).toBytes} := by
    rintro - ⟨e,he,rfl⟩ - ⟨f,hf,rfl⟩
    exact I.injOn (.inr ⟨_,hcovers e he,rfl⟩) (.inr ⟨_,hcovers f hf,rfl⟩)
  have hnodup : (hashes.map Prod.snd).Nodup :=
    (ho.map _).nodup_iff.mpr (Base.hashes_nodup (C := Base.bls12 B S.sha256 self order) hinj)
  obtain ⟨a,ha,hin,hpair,hcount⟩ := Bls12.of_verifyMessageSet hnodup (Option.some.inj hv)
  refine ⟨⟨(hashes.map Prod.fst).toFinset,fun i hi => ?_,?_,fun i hi => ?_⟩,fun G hun e he => ?_⟩
  · obtain ⟨e,he,rfl⟩ := List.mem_map.mp (List.mem_toFinset.mp hi)
    exact (hin e he).1
  · rwa [List.toFinset_card_of_nodup (nodup_ids ho),List.length_map]
  · obtain ⟨x,hx,rfl⟩ := List.mem_map.mp (List.mem_toFinset.mp hi)
    obtain ⟨e,he,rfl⟩ := List.mem_map.mp (ho.mem_iff.mp hx)
    exact ⟨e,he,rfl⟩
  · have hx : (e.1,(Setup.timeoutOf agg.view e).hash S) ∈ hashes := ho.mem_iff.mpr (List.mem_map.mpr ⟨e,he,rfl⟩)
    exact hun a ha hashes ho (fun e he => (hin e he).2) hpair _ hx

namespace Sample

private def idealOf (blocks : List Block) (timeouts : List TimeoutMsg) (hg : genesis ∈ blocks)
    (h : ((blocks.map Block.toBytes ++ timeouts.map TimeoutMsg.toBytes).map setup.sha256).Nodup) : Ideal setup where
  blocks := {b | b ∈ blocks}
  timeouts := {m | m.toBytes ∈ timeouts.map TimeoutMsg.toBytes}
  genesis_mem := hg
  injOn := by
    have mem (x : List UInt8) (hx : x ∈ Block.toBytes '' {b | b ∈ blocks} ∪
        TimeoutMsg.toBytes '' {m | m.toBytes ∈ timeouts.map TimeoutMsg.toBytes}) :
        x ∈ blocks.map Block.toBytes ++ timeouts.map TimeoutMsg.toBytes := by
      rcases hx with hx | ⟨m,hm,rfl⟩
      · exact List.mem_append_left _ (List.mem_map.mpr hx)
      · exact List.mem_append_right _ hm
    exact fun x hx y hy he => List.inj_on_of_nodup_map h (mem x hx) (mem y hy) he
  not_view x _ := digest_ne_view x

private def reports : List (ID × QuorumCert) := (1,genesisQC 0) :: [2,3,4].map (·,qcOf [2,3,4] ahead)

private def reported : Ideal setup :=
  idealOf [genesis,ahead] (reports.map (Setup.timeoutOf 6)) (by simp) (by decide +kernel)

private def reportSignatures : Signatures reported where
  made i := {x | ∃ e ∈ reports, e.1 = i ∧ x = .signTimeout (Setup.timeoutOf 6 e)}
  blocks := by
    rintro i b ⟨e,-,-,hx⟩
    cases hx
  timeouts := by
    rintro i m ⟨e,he,-,hx⟩
    cases hx
    exact List.mem_map.mpr ⟨_,List.mem_map.mpr ⟨e,he,rfl⟩,rfl⟩

private def reportsWith (claimed : ID → View) : AggregateQC where
  qcs := reports.map fun e => (e.1,{ e.2 with view := claimed e.1 })
  sig := some (.ecdsa (.restore (reports.map fun e => ⟨e.1.toNat,((Setup.timeoutOf 6 e).hash setup).toNat,e.1⟩)))
  view := 6
  nodup := by
    rw [List.map_map]
    exact (by decide : (reports.map Prod.fst).Nodup)

/-- The views are not part of what was signed. -/
private theorem reportsWith_unforged (claimed : ID → View) : reportSignatures.EcdsaUnforged (reportsWith claimed) := by
  intro e he _
  obtain ⟨x,hx,rfl⟩ := List.mem_map.mp he
  exact ⟨_,⟨x,hx,rfl,rfl⟩,rfl⟩

private def uncachedAt (self : ID) : Base := .ecdsa setup self fun _ _ => none

private theorem outcome_of_eq {agg : AggregateQC} {r : Option (Option QuorumCert)}
    (h : (uncachedAt 1).verifyAggregateQC agg ((uncachedAt 1).hashes agg.view agg.qcs) = r) :
    (uncachedAt 1).Outcome agg r := ⟨agg.qcs,_,.refl _,.refl _,h⟩

end Sample
end Hotstuff
