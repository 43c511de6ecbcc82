import Hotstuff.Crypto.Base

/-! When the ECDSA implementation creates a threshold signature, and that what it creates is
accepted: only distinct signers with a valid partial signature count. -/
namespace Hotstuff

namespace EcdsaThreshold
variable {t : EcdsaThreshold}

def signers (t : EcdsaThreshold) : Finset ID := (t.entries.map EcdsaSignature.signer).toFinset

theorem mem_signers {id : ID} : id ∈ t.signers ↔ ∃ g ∈ t.entries, g.signer = id := by
  simp [signers]

theorem card_signers (t : EcdsaThreshold) : t.signers.card = t.entries.length := by
  rw [signers,List.toFinset_card_of_nodup,List.length_map]
  exact List.pairwise_map.mpr (t.sorted.imp UInt32.ne_of_lt)

end EcdsaThreshold

namespace Setup
variable (S : Setup)

def validFor (hashOf : ID → Option Hash) (g : EcdsaSignature) : Bool := (hashOf g.signer).any (S.verifyEcdsa g)

def validSigners (hashOf : ID → Option Hash) (partials : List Signature) : Finset ID :=
  (partials.filterMap fun
    | .ecdsa g => if S.validFor hashOf g then some g.signer else none
    | .bls12 _ => none).toFinset

/-- What the loop over the partial signatures has built: valid ones, and one for each signer that has any. -/
structure Made (hashOf : ID → Option Hash) (partials : List Signature) (t : EcdsaThreshold) : Prop where
  valid : ∀ g ∈ t.entries, .ecdsa g ∈ partials ∧ S.validFor hashOf g = true
  all : ∀ g, .ecdsa g ∈ partials → S.validFor hashOf g = true → g.signer ∈ t.signers

variable {S} {hashOf : ID → Option Hash} {partials : List Signature} {t : EcdsaThreshold}

theorem mem_validSigners {id : ID} : id ∈ S.validSigners hashOf partials ↔
    ∃ g, .ecdsa g ∈ partials ∧ S.validFor hashOf g = true ∧ g.signer = id := by
  rw [validSigners,List.mem_toFinset,List.mem_filterMap]
  constructor
  · rintro ⟨g | g,hg,he⟩
    · dsimp only at he
      split_ifs at he with hv
      exact ⟨g,hg,hv,Option.some.inj he⟩
    · cases he
  · rintro ⟨g,hg,hv,rfl⟩
    exact ⟨.ecdsa g,hg,if_pos hv⟩

theorem verifyEcdsa_of_validFor {g : EcdsaSignature} {h : Hash} (hv : S.validFor hashOf g = true)
    (hh : hashOf g.signer = some h) : S.verifyEcdsa g h = true := by
  rwa [validFor,hh] at hv

namespace Made

theorem signers_eq (h : S.Made hashOf partials t) : t.signers = S.validSigners hashOf partials := by
  ext id
  rw [EcdsaThreshold.mem_signers,mem_validSigners]
  constructor
  · rintro ⟨g,hg,rfl⟩
    exact ⟨g,(h.valid g hg).1,(h.valid g hg).2,rfl⟩
  · rintro ⟨g,hg,hv,rfl⟩
    exact EcdsaThreshold.mem_signers.mp (h.all g hg hv)

/-- A partial signature that is passed over is not valid, or its signer is already there. -/
private theorem skip (h : S.Made hashOf partials t) {s : Signature}
    (hs : ∀ g, s = .ecdsa g → S.validFor hashOf g = true → g.signer ∈ t.signers) :
    S.Made hashOf (partials ++ [s]) t := by
  refine ⟨fun g hg => ⟨List.mem_append_left _ (h.valid g hg).1,(h.valid g hg).2⟩,fun g hg hv => ?_⟩
  rcases List.mem_append.mp hg with hg | hg
  · exact h.all g hg hv
  · exact hs g (List.mem_singleton.mp hg).symm hv

private theorem insert (h : S.Made hashOf partials t) {g : EcdsaSignature} (hv : S.validFor hashOf g = true) :
    S.Made hashOf (partials ++ [.ecdsa g]) (t.insert g) := by
  refine ⟨fun x hx => ?_,fun x hx hxv => ?_⟩
  · rcases EcdsaThreshold.mem_insert.mp hx with rfl | ⟨hx,-⟩
    · exact ⟨by simp,hv⟩
    · exact ⟨List.mem_append_left _ (h.valid x hx).1,(h.valid x hx).2⟩
  · rw [EcdsaThreshold.mem_signers]
    by_cases he : x.signer = g.signer
    · exact ⟨g,EcdsaThreshold.mem_insert.mpr (.inl rfl),he.symm⟩
    · have hx : .ecdsa x ∈ partials := by
        rcases List.mem_append.mp hx with hx | hx
        · exact hx
        · cases List.mem_singleton.mp hx
          exact absurd rfl he
      obtain ⟨y,hy,hys⟩ := EcdsaThreshold.mem_signers.mp (h.all x hx hxv)
      exact ⟨y,EcdsaThreshold.mem_insert.mpr (.inr ⟨hy,hys ▸ he⟩),hys⟩

private theorem addPartial (h : S.Made hashOf partials t) (errors : List CryptoError) (s : Signature) :
    S.Made hashOf (partials ++ [s]) (S.addPartial hashOf (t,errors) s).1 := by
  rw [Setup.addPartial]
  split_ifs with hc
  · refine h.skip ?_
    rintro g rfl -
    exact EcdsaThreshold.mem_signers.mpr (EcdsaThreshold.contains_iff.mp hc)
  split
  · rename_i hn
    refine h.skip ?_
    rintro g rfl hv
    rw [validFor,show hashOf g.signer = none from hn] at hv
    cases hv
  · rename_i hash hh
    cases s with
    | ecdsa g =>
      dsimp only
      split_ifs with hv
      · refine h.insert ?_
        rw [validFor,show hashOf g.signer = some hash from hh]
        exact hv
      · refine h.skip ?_
        rintro _ ⟨⟩ hg
        exact absurd (verifyEcdsa_of_validFor hg hh) hv
    | bls12 g => exact h.skip (by simp)

theorem foldl (hashOf : ID → Option Hash) (partials : List Signature) :
    S.Made hashOf partials (partials.foldl (S.addPartial hashOf) (.empty,[])).1 := by
  induction partials using List.reverseRecOn with
  | nil => exact ⟨by simp [EcdsaThreshold.empty],by simp⟩
  | append_singleton partials s ih =>
    rw [List.foldl_append,List.foldl_cons,List.foldl_nil]
    exact ih.addPartial _ s

end Made

/-- A created signature has a quorum of valid entries. -/
theorem made_of_createFrom (h : S.createFrom hashOf partials = .ok t) :
    S.Made hashOf partials t ∧ S.quorum ≤ t.entries.length := by
  rw [createFrom] at h
  split_ifs at h with hq
  cases h
  exact ⟨Made.foldl hashOf partials,hq⟩

/-- Creation succeeds exactly on a quorum of distinct signers with a valid signature. -/
theorem createFrom_ok_iff : (∃ t, S.createFrom hashOf partials = .ok t) ↔
    S.quorum ≤ (S.validSigners hashOf partials).card := by
  have hm := Made.foldl (S := S) hashOf partials
  rw [← hm.signers_eq,EcdsaThreshold.card_signers]
  constructor
  · rintro ⟨t,ht⟩
    rw [createFrom] at ht
    split_ifs at ht with hq
    exact hq
  · intro hq
    exact ⟨_,if_pos hq⟩

theorem verify_of_createThresholdSignature {h : Hash} (ht : S.createThresholdSignature partials h = .ok t) :
    S.verifyThresholdSignature (some (.ecdsa t)) h = true := by
  obtain ⟨hm,hq⟩ := made_of_createFrom ht
  have hall : t.entries.filter (fun g => S.verifyEcdsa g h) = t.entries :=
    List.filter_eq_self.mpr fun g hg => verifyEcdsa_of_validFor (hm.valid g hg).2 rfl
  rw [verifyThresholdSignature,if_neg (Nat.not_lt.mpr hq),hall]
  exact decide_eq_true hq

theorem mem_validSigners_const {h : Hash} {id : ID} : id ∈ S.validSigners (fun _ => some h) partials ↔
    id ∈ S.replicas ∧ ∃ g, .ecdsa g ∈ partials ∧ g.signer = id ∧ S.ecdsaVerify id h g.r g.s = true := by
  rw [mem_validSigners]
  constructor
  · rintro ⟨g,hg,hv,rfl⟩
    have hv := verifyEcdsa_of_validFor hv rfl
    rw [verifyEcdsa,Bool.and_eq_true,decide_eq_true_eq] at hv
    exact ⟨hv.1,g,hg,rfl,hv.2⟩
  · rintro ⟨hid,g,hg,rfl,hv⟩
    refine ⟨g,hg,?_,rfl⟩
    change S.verifyEcdsa g h = true
    rw [verifyEcdsa,Bool.and_eq_true,decide_eq_true_eq]
    exact ⟨hid,hv⟩

/-- Creation succeeds exactly if a quorum of replicas have a valid signature in the list; what it creates holds valid
signatures of the list, each under its signer, and verifies. -/
theorem createThresholdSignature_exact (S : Setup) (partials : List Signature) (h : Hash) :
    ((∃ t, S.createThresholdSignature partials h = .ok t) ↔ ∃ ids : Finset ID, S.quorum ≤ ids.card ∧ ∀ id ∈ ids,
      id ∈ S.replicas ∧ ∃ g, .ecdsa g ∈ partials ∧ g.signer = id ∧ S.ecdsaVerify id h g.r g.s = true) ∧
    ∀ t, S.createThresholdSignature partials h = .ok t →
      (∀ id g, t.find id = some g → g.signer = id ∧ .ecdsa g ∈ partials ∧ id ∈ S.replicas ∧
        S.ecdsaVerify id h g.r g.s = true) ∧
      S.verifyThresholdSignature (some (.ecdsa t)) h = true := by
  refine ⟨?_,fun t ht => ⟨fun id g hg => ?_,verify_of_createThresholdSignature ht⟩⟩
  · rw [createThresholdSignature,createFrom_ok_iff]
    constructor
    · intro hq
      exact ⟨_,hq,fun id hid => mem_validSigners_const.mp hid⟩
    · rintro ⟨ids,hq,hids⟩
      apply hq.trans
      apply Finset.card_le_card
      intro id hid
      exact mem_validSigners_const.mpr (hids id hid)
  · have hs : g.signer = id := by simpa using List.find?_some hg
    obtain ⟨hmem,hv⟩ := (made_of_createFrom ht).1.valid g (List.mem_of_find?_eq_some hg)
    have hv := verifyEcdsa_of_validFor hv rfl
    rw [verifyEcdsa,Bool.and_eq_true,decide_eq_true_eq,hs] at hv
    exact ⟨hs,hmem,hv.1,hv.2⟩

private def mixed : List Signature :=
  [.ecdsa ⟨9,9,2⟩,.ecdsa ⟨7,5,7⟩,.ecdsa ⟨2,5,2⟩,.ecdsa ⟨3,5,3⟩,.ecdsa ⟨3,5,3⟩,.ecdsa ⟨4,5,4⟩]

theorem createThresholdSignature_exact_mixed : ∃ t, Sample.setup.createThresholdSignature mixed 5 = .ok t ∧
    Sample.setup.verifyThresholdSignature (some (.ecdsa t)) 5 = true := by
  obtain ⟨hiff,hcreated⟩ := createThresholdSignature_exact Sample.setup mixed 5
  have hok : ∃ t, Sample.setup.createThresholdSignature mixed 5 = .ok t := by
    refine hiff.mpr ⟨{2,3,4},by decide,fun id hid => ?_⟩
    simp only [Finset.mem_insert,Finset.mem_singleton] at hid
    rcases hid with rfl | rfl | rfl
    · exact ⟨by decide,⟨2,5,2⟩,by simp [mixed],rfl,by decide⟩
    · exact ⟨by decide,⟨3,5,3⟩,by simp [mixed],rfl,by decide⟩
    · exact ⟨by decide,⟨4,5,4⟩,by simp [mixed],rfl,by decide⟩
  obtain ⟨t,ht⟩ := hok
  exact ⟨t,ht,(hcreated t ht).2⟩

section QuorumCert
variable {block : Block} {certs : List PartialCert} (hg : block.hash S ≠ S.genesisHash)
include hg

theorem createQuorumCert_ok_iff : (∃ qc, S.createQuorumCert block certs = .ok qc) ↔
    S.quorum ≤ (S.validSigners (fun _ => some (block.hash S)) (certs.filterMap PartialCert.signature)).card := by
  rw [← createFrom_ok_iff,createQuorumCert,if_neg hg,createThresholdSignature]
  split
  · rename_i t ht
    exact iff_of_true ⟨_,rfl⟩ ⟨t,ht⟩
  · rename_i e he
    exact iff_of_false (by simp) (by simp [he])

theorem createQuorumCert_ok {qc : QuorumCert} (h : S.createQuorumCert block certs = .ok qc) :
    qc.hash = block.hash S ∧ qc.view = block.view ∧ S.verifyQuorumCert qc = true := by
  rw [createQuorumCert,if_neg hg] at h
  split at h
  · rename_i t ht
    cases h
    refine ⟨rfl,rfl,?_⟩
    rw [verifyQuorumCert,if_neg hg]
    exact verify_of_createThresholdSignature ht
  · cases h

end QuorumCert

section TimeoutCert
variable {view : View} {timeouts : List TimeoutMsg}

theorem createTimeoutCert_ok_iff (hv : view ≠ 0) : (∃ tc, S.createTimeoutCert view timeouts = .ok tc) ↔
    S.quorum ≤ (S.validSigners (fun _ => some (View.toHash view))
      (timeouts.filterMap TimeoutMsg.viewSignature)).card := by
  rw [← createFrom_ok_iff,createTimeoutCert,if_neg hv,createThresholdSignature]
  split
  · rename_i t ht
    exact iff_of_true ⟨_,rfl⟩ ⟨t,ht⟩
  · rename_i e he
    exact iff_of_false (by simp) (by simp [he])

theorem createTimeoutCert_ok {tc : TimeoutCert} (h : S.createTimeoutCert view timeouts = .ok tc) :
    tc.view = view ∧ S.verifyTimeoutCert tc = true := by
  rw [createTimeoutCert] at h
  split_ifs at h with hv
  · cases h
    exact ⟨hv.symm,rfl⟩
  split at h
  · rename_i t ht
    cases h
    refine ⟨rfl,?_⟩
    rw [verifyTimeoutCert,if_neg hv]
    exact verify_of_createThresholdSignature ht
  · cases h

end TimeoutCert
end Setup
end Hotstuff
