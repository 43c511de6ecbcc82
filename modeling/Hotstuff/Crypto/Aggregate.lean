import Hotstuff.Consensus.Encoding
import Hotstuff.Crypto.Implementations
import Mathlib.Algebra.BigOperators.Group.List.Basic

/-! `VerifyAggregateQC` over either implementation. It reads two maps, the certificates and the hashes
rebuilt from them, each in an order of its own. -/
namespace Hotstuff

/-- `crypto.New(impl)` without a cache: the implementation is its own registered verifier. -/
structure Base where
  impl : Impl
  sha256 : List UInt8 → Hash

def AggregateQC.read (agg : AggregateQC) (qcs : List (ID × QuorumCert)) (h : qcs.Perm agg.qcs) : AggregateQC :=
  ⟨qcs,agg.sig,agg.view,(h.map _).nodup_iff.mpr agg.nodup⟩

namespace Base
variable (C : Base)

def genesisHash : Hash := C.sha256 genesis.toBytes

def verifyQuorumCert (qc : QuorumCert) : Option Bool :=
  if qc.hash = C.genesisHash then some true else C.impl.value (C.impl.threshold qc.signature qc.hash)

def hashes (view : View) (qcs : List (ID × QuorumCert)) : List (ID × Hash) :=
  qcs.map fun e => (e.1,C.sha256 (Setup.timeoutOf view e).toBytes)

/-- `none` if the call panics or never returns, else the verdict and the high QC. -/
def verifyAggregateQC (agg : AggregateQC) (order : List (ID × Hash)) : Option (Option QuorumCert) :=
  match C.impl.value (C.impl.messageSet agg.sig order) with
  | none => none
  | some false => some none
  | some true => match Setup.highest agg.qcs with
    | some qc => (C.verifyQuorumCert qc).map fun ok => if ok then some qc else none
    | none => none

/-- What a call can return, by the orders in which it happens to read the maps. -/
def Outcome (agg : AggregateQC) (r : Option (Option QuorumCert)) : Prop :=
  ∃ qcs order, ∃ h : qcs.Perm agg.qcs, order.Perm (C.hashes agg.view agg.qcs) ∧
    C.verifyAggregateQC (agg.read qcs h) order = r

/-- What stands behind a high QC that is returned. -/
theorem Outcome.of_accepted {C : Base} {agg : AggregateQC} {high : QuorumCert} (h : C.Outcome agg (some (some high))) :
    ∃ order, order.Perm (C.hashes agg.view agg.qcs) ∧ C.impl.value (C.impl.messageSet agg.sig order) = some true ∧
      (∃ e ∈ agg.qcs, e.2 = high) ∧ ∀ e ∈ agg.qcs, e.2.view ≤ high.view := by
  obtain ⟨qcs,order,hq,ho,h⟩ := h
  rw [verifyAggregateQC] at h
  split at h
  · cases h
  · cases h
  · rename_i hv
    split at h
    · rename_i q hq'
      obtain ⟨ok,-,hok⟩ := Option.map_eq_some_iff.mp h
      split_ifs at hok
      cases hok
      obtain ⟨e,he,heq⟩ := Setup.mem_of_highest hq'
      exact ⟨order,ho,hv,⟨e,hq.mem_iff.mp he,heq⟩,fun f hf => Setup.le_highest hq' (hq.mem_iff.mpr hf)⟩
    · cases h

def decision (cert : QuorumCert) : Option (Option QuorumCert) → Option Bool
  | none => none
  | some none => some false
  | some (some high) => if cert.equals high then C.verifyQuorumCert cert else some false

end Base

def Agree : Option (Option QuorumCert) → Option (Option QuorumCert) → Prop
  | some (some q), some (some q') => q.equals q' = true
  | r, r' => r = r'

theorem Agree.refl (r : Option (Option QuorumCert)) : Agree r r := by
  rcases r with _ | _ | q
  · rfl
  · rfl
  · exact QuorumCert.equals_iff.mpr rfl

def AggregateQC.Top (agg : AggregateQC) (e : ID × QuorumCert) : Prop :=
  e ∈ agg.qcs ∧ ∀ f ∈ agg.qcs, f.2.view ≤ e.2.view

namespace Base
variable {C : Base} {agg : AggregateQC}

theorem decision_of_agree (cert : QuorumCert) {r r' : Option (Option QuorumCert)} (h : Agree r r') :
    C.decision cert r = C.decision cert r' := by
  rcases r with _ | _ | q <;> rcases r' with _ | _ | q' <;> try cases h
  · rfl
  · rfl
  · have hc := QuorumCert.equals_iff.mp h
    have hiff : cert.equals q = true ↔ cert.equals q' = true := by
      rw [QuorumCert.equals_iff,QuorumCert.equals_iff,hc]
    rw [decision,decision,if_congr hiff rfl rfl]

def Uniform (C : Base) (agg : AggregateQC) : Prop := ∀ r r', C.Outcome agg r → C.Outcome agg r' → Agree r r'

def OneDecision (C : Base) (agg : AggregateQC) : Prop :=
  ∀ cert r r', C.Outcome agg r → C.Outcome agg r' → C.decision cert r = C.decision cert r'

def Steady (C : Base) (agg : AggregateQC) : Prop :=
  ∀ order, order.Perm (C.hashes agg.view agg.qcs) → C.impl.value (C.impl.messageSet agg.sig order) =
    C.impl.value (C.impl.messageSet agg.sig (C.hashes agg.view agg.qcs))

/-- The signature is not accepted, or any two certificates of the largest claimed view are both rejected,
or both accepted and Equal. -/
def Clear (C : Base) (agg : AggregateQC) : Prop :=
  C.impl.value (C.impl.messageSet agg.sig (C.hashes agg.view agg.qcs)) = some true →
    ∀ e e', agg.Top e → agg.Top e' → C.verifyQuorumCert e.2 = C.verifyQuorumCert e'.2 ∧
      (C.verifyQuorumCert e.2 = some true → e.2.equals e'.2 = true)

private def verdict (C : Base) (qc : QuorumCert) : Option (Option QuorumCert) :=
  (C.verifyQuorumCert qc).map fun ok => if ok then some qc else none

private theorem agree_verdict_iff {q q' : QuorumCert} : Agree (C.verdict q) (C.verdict q') ↔
    C.verifyQuorumCert q = C.verifyQuorumCert q' ∧ (C.verifyQuorumCert q = some true → q.equals q' = true) := by
  rw [verdict,verdict]
  rcases C.verifyQuorumCert q with _ | _ | _ <;> rcases C.verifyQuorumCert q' with _ | _ | _ <;> simp [Agree]

/-- Different outcomes are told apart by the certificate that one of them returns. -/
private theorem agree_of_decision {q q' : QuorumCert}
    (h : ∀ cert, C.decision cert (C.verdict q) = C.decision cert (C.verdict q')) :
    Agree (C.verdict q) (C.verdict q') := by
  have heq (q : QuorumCert) : q.equals q = true := QuorumCert.equals_iff.mpr rfl
  have hq := h q
  have hq' := h q'
  rw [verdict,verdict] at *
  rcases hv : C.verifyQuorumCert q with _ | _ | _ <;> rcases hv' : C.verifyQuorumCert q' with _ | _ | _ <;>
    simp_all [Agree,decision]

section Steady
variable (hC : C.Steady agg)
include hC

private theorem eq_of_not_accepted {r r' : Option (Option QuorumCert)}
    (hv : C.impl.value (C.impl.messageSet agg.sig (C.hashes agg.view agg.qcs)) ≠ some true)
    (h : C.Outcome agg r) (h' : C.Outcome agg r') : r = r' := by
  obtain ⟨qcs,order,hq,ho,rfl⟩ := h
  obtain ⟨qcs',order',hq',ho',rfl⟩ := h'
  rw [verifyAggregateQC,verifyAggregateQC,AggregateQC.read,AggregateQC.read,hC order ho,hC order' ho']
  rcases hm : C.impl.value (C.impl.messageSet agg.sig (C.hashes agg.view agg.qcs)) with _ | _ | _
  · rfl
  · rfl
  · exact absurd hm hv

/-- With an accepted signature, every certificate of the largest view can become the high QC, and no other. -/
private theorem outcome_iff {r : Option (Option QuorumCert)}
    (hv : C.impl.value (C.impl.messageSet agg.sig (C.hashes agg.view agg.qcs)) = some true) (hne : agg.qcs ≠ []) :
    C.Outcome agg r ↔ ∃ e, agg.Top e ∧ r = C.verdict e.2 := by
  constructor
  · rintro ⟨qcs,order,hq,ho,rfl⟩
    have hne' : qcs ≠ [] := fun h => hne (List.nil_perm.mp (h ▸ hq))
    obtain ⟨q,hhigh⟩ := Setup.exists_highest hne'
    obtain ⟨e,he,rfl⟩ := Setup.mem_of_highest hhigh
    refine ⟨e,⟨hq.mem_iff.mp he,fun f hf => Setup.le_highest hhigh (hq.mem_iff.mpr hf)⟩,?_⟩
    rw [verifyAggregateQC,AggregateQC.read,hC order ho,hv]
    dsimp only
    rw [hhigh]
    rfl
  · rintro ⟨e,⟨he,hmax⟩,rfl⟩
    have hperm := (List.perm_cons_erase he).symm
    refine ⟨e :: agg.qcs.erase e,_,hperm,.refl _,?_⟩
    have hhigh : Setup.highest (e :: agg.qcs.erase e) = some e.2 :=
      Setup.highest_cons_of_le fun f hf => hmax f (List.mem_of_mem_erase hf)
    rw [verifyAggregateQC,AggregateQC.read,hv]
    dsimp only
    rw [hhigh]
    rfl

/-- The high QC has the largest claimed view and has been verified. -/
theorem Outcome.top {r : Option (Option QuorumCert)} (h : C.Outcome agg r)
    (hv : C.impl.value (C.impl.messageSet agg.sig (C.hashes agg.view agg.qcs)) = some true) (hne : agg.qcs ≠ []) :
    ∃ e, agg.Top e ∧ r = (C.verifyQuorumCert e.2).map fun ok => if ok then some e.2 else none :=
  (outcome_iff hC hv hne).mp h

private theorem eq_none_of_nil {r : Option (Option QuorumCert)}
    (hv : C.impl.value (C.impl.messageSet agg.sig (C.hashes agg.view agg.qcs)) = some true) (hnil : agg.qcs = [])
    (h : C.Outcome agg r) : r = none := by
  obtain ⟨qcs,order,hq,ho,rfl⟩ := h
  have hqcs : qcs = [] := List.perm_nil.mp (hnil ▸ hq)
  rw [verifyAggregateQC,AggregateQC.read,hC order ho,hv]
  dsimp only
  rw [hqcs]
  rfl

theorem uniform_iff_clear : C.Uniform agg ↔ C.Clear agg := by
  constructor
  · intro hall hv e e' he he'
    have hne : agg.qcs ≠ [] := List.ne_nil_of_mem he.1
    exact agree_verdict_iff.mp (hall _ _ ((outcome_iff hC hv hne).mpr ⟨e,he,rfl⟩)
      ((outcome_iff hC hv hne).mpr ⟨e',he',rfl⟩))
  · intro hclear r r' hr hr'
    by_cases hv : C.impl.value (C.impl.messageSet agg.sig (C.hashes agg.view agg.qcs)) = some true
    · by_cases hnil : agg.qcs = []
      -- an accepted empty map leaves highQC nil, and reading it panics
      · rw [eq_none_of_nil hC hv hnil hr,eq_none_of_nil hC hv hnil hr']
        exact .refl _
      · obtain ⟨e,he,rfl⟩ := (outcome_iff hC hv hnil).mp hr
        obtain ⟨e',he',rfl⟩ := (outcome_iff hC hv hnil).mp hr'
        exact agree_verdict_iff.mpr (hclear hv e e' he he')
    · rw [eq_of_not_accepted hC hv hr hr']
      exact .refl _

theorem oneDecision_iff_clear : C.OneDecision agg ↔ C.Clear agg := by
  constructor
  · intro hall hv e e' he he'
    have hne : agg.qcs ≠ [] := List.ne_nil_of_mem he.1
    refine agree_verdict_iff.mp (agree_of_decision fun cert => ?_)
    exact hall cert _ _ ((outcome_iff hC hv hne).mpr ⟨e,he,rfl⟩) ((outcome_iff hC hv hne).mpr ⟨e',he',rfl⟩)
  · intro hclear cert r r' hr hr'
    exact decision_of_agree cert ((uniform_iff_clear hC).mpr hclear r r' hr hr')

end Steady
end Base

namespace Setup
variable {S : Setup}

structure Fits (t : EcdsaThreshold) (l : List (ID × Hash)) (seen : List Hash) : Prop where
  new : ∀ e ∈ l, e.2 ∉ seen
  nodup : (l.map Prod.snd).Nodup
  found : ∀ e ∈ l, (t.find e.1).isSome = true

theorem fits_cons {t : EcdsaThreshold} {id : ID} {h : Hash} {l : List (ID × Hash)} {seen : List Hash} :
    Fits t ((id,h) :: l) seen ↔ h ∉ seen ∧ (t.find id).isSome = true ∧ Fits t l (h :: seen) := by
  constructor
  · rintro ⟨hnew,hnodup,hfound⟩
    obtain ⟨hh,hnodup⟩ := List.nodup_cons.mp hnodup
    refine ⟨hnew _ List.mem_cons_self,hfound _ List.mem_cons_self,fun e he hm => ?_,hnodup,
      fun e he => hfound e (List.mem_cons_of_mem _ he)⟩
    rcases List.mem_cons.mp hm with heq | hm
    · exact hh (List.mem_map.mpr ⟨e,he,heq⟩)
    · exact hnew e (List.mem_cons_of_mem _ he) hm
  · rintro ⟨hh,hid,hnew,hnodup,hfound⟩
    refine ⟨List.forall_mem_cons.mpr ⟨hh,fun e he hm => hnew e he (List.mem_cons_of_mem _ hm)⟩,
      List.nodup_cons.mpr ⟨fun hm => ?_,hnodup⟩,List.forall_mem_cons.mpr ⟨hid,hfound⟩⟩
    obtain ⟨e,he,rfl⟩ := List.mem_map.mp hm
    exact hnew e he List.mem_cons_self

theorem Fits.perm {t : EcdsaThreshold} {l l' : List (ID × Hash)} {seen : List Hash} (hf : Fits t l seen)
    (h : l.Perm l') : Fits t l' seen where
  new e he := hf.new e (h.mem_iff.mpr he)
  nodup := (h.map _).nodup_iff.mp hf.nodup
  found e he := hf.found e (h.mem_iff.mpr he)

/-- The verifications that are started, one for every message. -/
theorem startedFor_eq_some_iff {t : EcdsaThreshold} {l : List (ID × Hash)} {seen : List Hash}
    {r : List (EcdsaSignature × Hash)} : startedFor t l seen = some r ↔
      Fits t l seen ∧ r = l.filterMap fun e => (t.find e.1).map (·,e.2) := by
  induction l generalizing seen r with
  | nil => exact ⟨fun h => ⟨⟨by simp,List.nodup_nil,by simp⟩,(Option.some.inj h).symm⟩,fun h => congrArg some h.2.symm⟩
  | cons e l ih =>
    obtain ⟨id,h⟩ := e
    rw [startedFor,fits_cons]
    by_cases hs : h ∈ seen
    · simp [hs]
    rw [if_neg hs]
    cases hf : t.find id with
    | none => simp
    | some g =>
      dsimp only
      rw [List.filterMap_cons,hf,Option.map_eq_some_iff]
      simp [ih,hs,eq_comm]

theorem verifyMessageSet_perm (sig : Option ThresholdSignature) {l l' : List (ID × Hash)} (h : l.Perm l') :
    S.verifyThresholdSignatureForMessageSet sig l = S.verifyThresholdSignatureForMessageSet sig l' := by
  rcases sig with _ | t | a
  · rfl
  · rw [verifyThresholdSignatureForMessageSet,verifyThresholdSignatureForMessageSet]
    cases hl : startedFor t l [] with
    | some r =>
      obtain ⟨hf,rfl⟩ := startedFor_eq_some_iff.mp hl
      have hstart := h.filterMap fun e => (t.find e.1).map (·,e.2)
      rw [startedFor_eq_some_iff.mpr ⟨hf.perm h,rfl⟩]
      dsimp only
      rw [hstart.length_eq,(hstart.filter _).length_eq]
    | none =>
      have hl' : startedFor t l' [] = none := Option.eq_none_iff_forall_ne_some.mpr fun r hr => by
        obtain ⟨hf,-⟩ := startedFor_eq_some_iff.mp hr
        cases hl.symm.trans (startedFor_eq_some_iff.mpr ⟨hf.perm h.symm,rfl⟩)
      rw [hl']
  · rfl

theorem verifyMessageSet_nil (hne : S.replicas.Nonempty) (sig : Option ThresholdSignature) :
    S.verifyThresholdSignatureForMessageSet sig [] ≠ some true := by
  have hq := Nat.not_le.mpr (S.quorum_pos hne)
  rcases sig with _ | t | a
  · simp [verifyThresholdSignatureForMessageSet]
  · rw [verifyThresholdSignatureForMessageSet,startedFor]
    dsimp only
    split_ifs
    · simp
    · simpa using hq
  · simp [verifyThresholdSignatureForMessageSet]

end Setup

/-- The pairing equation, in the target group: `gen` pairs a point with the generator, `key` with a replica's key. -/
structure Bls12.Bilinear (B : Bls12) (G : Type) [CommMonoid G] where
  gen : PointG2 → G
  key : ID → PointG2 → G
  pairing_iff : ∀ s l, B.pairing s l = true ↔ gen s = (l.map fun x => key x.1 x.2).prod
  gen_infinity : gen B.infinity = 1
  gen_add : ∀ s t, gen (B.add s t) = gen s * gen t

namespace Bls12
variable {B : Bls12} {G : Type} [CommMonoid G]

theorem Bilinear.pairing_perm (E : B.Bilinear G) (s : PointG2) {l l' : List (ID × PointG2)} (h : l.Perm l') :
    B.pairing s l = B.pairing s l' := by
  rw [Bool.eq_iff_iff,E.pairing_iff,E.pairing_iff,(h.map _).prod_eq]

/-- The points that one iteration pairs, if no hash comes twice. -/
theorem pairs_eq_some_iff {l : List (ID × Hash)} {seen : List Hash} {r : List (ID × PointG2) × List Hash}
    (hn : (l.map Prod.snd).Nodup) (hseen : ∀ e ∈ l, e.2 ∉ seen) : B.pairs l seen = some r ↔
      (∀ e ∈ l, e.1 ∈ B.replicas ∧ (B.hashToCurve e.2).isSome = true) ∧
        r = (l.filterMap fun e => (B.hashToCurve e.2).map (e.1,·),(l.map Prod.snd).reverse ++ seen) := by
  induction l generalizing seen r with
  | nil => exact ⟨fun h => ⟨by simp,(Option.some.inj h).symm⟩,fun h => congrArg some h.2.symm⟩
  | cons e l ih =>
    obtain ⟨id,h⟩ := e
    obtain ⟨hh,hl⟩ := List.forall_mem_cons.mp hseen
    obtain ⟨hnew,hn⟩ := List.nodup_cons.mp hn
    rw [pairs,if_neg hh,List.forall_mem_cons]
    by_cases hid : id ∈ B.replicas
    · rw [if_neg (not_not.mpr hid)]
      cases hp : B.hashToCurve h with
      | none => simp
      | some p =>
        have hseen' : ∀ e ∈ l, e.2 ∉ h :: seen := fun e he hm => by
          rcases List.mem_cons.mp hm with heq | hm
          · exact hnew (List.mem_map.mpr ⟨e,he,heq⟩)
          · exact hl e he hm
        dsimp only
        rw [List.filterMap_cons,hp,Option.map_eq_some_iff]
        simp only [ih hn hseen']
        constructor
        · rintro ⟨_,⟨hin,rfl⟩,rfl⟩
          exact ⟨⟨⟨hid,rfl⟩,hin⟩,by simp⟩
        · rintro ⟨⟨-,hin⟩,rfl⟩
          exact ⟨_,⟨hin,rfl⟩,by simp⟩
    · simp [hid]

/-- What an accepted signature for different messages says. -/
theorem of_verifyMessageSet {sig : Option ThresholdSignature} {l : List (ID × Hash)} (hn : (l.map Prod.snd).Nodup)
    (h : B.verifyThresholdSignatureForMessageSet sig l = true) : ∃ a, sig = some (.bls12 a) ∧
      (∀ e ∈ l, e.1 ∈ B.replicas ∧ (B.hashToCurve e.2).isSome = true) ∧
      B.pairing a.sig (l.filterMap fun e => (B.hashToCurve e.2).map (e.1,·)) = true ∧ B.quorum ≤ l.length := by
  rcases sig with _ | t | a
  · cases h
  · cases h
  · rw [verifyThresholdSignatureForMessageSet] at h
    cases hl : B.pairs l [] with
    | some r =>
      obtain ⟨hin,rfl⟩ := (pairs_eq_some_iff hn (by simp)).mp hl
      rw [hl] at h
      dsimp only at h
      split_ifs at h with hp
      exact ⟨a,rfl,hin,by simpa using hp,by simpa using h⟩
    | none =>
      rw [hl] at h
      cases h

/-- Verification does not use the own key. -/
theorem pairs_mulSecret (secret : PointG2 → PointG2) (l : List (ID × Hash)) (seen : List Hash) :
    ({ B with mulSecret := secret } : Bls12).pairs l seen = B.pairs l seen := by
  induction l generalizing seen with
  | nil => rfl
  | cons e l ih => simp only [pairs,ih]

theorem verifyMessageSet_perm (E : B.Bilinear G) (sig : Option ThresholdSignature) {l l' : List (ID × Hash)}
    (hn : (l'.map Prod.snd).Nodup) (h : l.Perm l') :
    B.verifyThresholdSignatureForMessageSet sig l = B.verifyThresholdSignatureForMessageSet sig l' := by
  rcases sig with _ | t | a
  · rfl
  · rfl
  · have hn' : (l.map Prod.snd).Nodup := (h.map _).nodup_iff.mpr hn
    rw [verifyThresholdSignatureForMessageSet,verifyThresholdSignatureForMessageSet]
    cases hl : B.pairs l [] with
    | some r =>
      obtain ⟨hin,rfl⟩ := (pairs_eq_some_iff hn' (by simp)).mp hl
      rw [(pairs_eq_some_iff hn (by simp)).mpr ⟨fun e he => hin e (h.mem_iff.mpr he),rfl⟩]
      dsimp only
      rw [E.pairing_perm a.sig (h.filterMap _)]
      simp [h.length_eq]
    | none =>
      have hl' : B.pairs l' [] = none := Option.eq_none_iff_forall_ne_some.mpr fun r hr => by
        obtain ⟨hin,-⟩ := (pairs_eq_some_iff hn (by simp)).mp hr
        cases hl.symm.trans ((pairs_eq_some_iff hn' (by simp)).mpr ⟨fun e he => hin e (h.mem_iff.mp he),rfl⟩)
      rw [hl']

end Bls12

namespace Base
variable (S : Setup) (B : Bls12) (sha256 : List UInt8 → Hash) (self : ID)

def ecdsa (rand : Nat → Hash → Option (Nat × Nat)) : Base := ⟨.ecdsa S self rand,S.sha256⟩

def bls12 (order : Nat → List Bls12Signature → List Bls12Signature) : Base := ⟨.bls12 B self order,sha256⟩

variable {S B sha256 self} {rand : Nat → Hash → Option (Nat × Nat)}
  {order : Nat → List Bls12Signature → List Bls12Signature} {agg : AggregateQC}

theorem ecdsa_verifyQuorumCert (qc : QuorumCert) :
    (ecdsa S self rand).verifyQuorumCert qc = some (S.verifyQuorumCert qc) := by
  rw [verifyQuorumCert,Setup.verifyQuorumCert]
  split_ifs with hg hg'
  · rfl
  · exact absurd hg hg'
  · rename_i hg'
    exact absurd hg' hg
  · exact Impl.ecdsa_threshold S self rand qc.signature qc.hash

theorem ecdsa_steady : (ecdsa S self rand).Steady agg := by
  intro order ho
  exact (Impl.ecdsa_messageSet S self rand agg.sig order).trans
    ((Setup.verifyMessageSet_perm agg.sig ho).trans (Impl.ecdsa_messageSet S self rand agg.sig _).symm)

/-- A quorum needs a signature, so there is an entry when the signature is accepted. -/
theorem ecdsa_verifyAggregateQC (hne : S.replicas.Nonempty) :
    (ecdsa S self rand).verifyAggregateQC agg ((ecdsa S self rand).hashes agg.view agg.qcs) =
      S.verifyAggregateQC agg := by
  have hset : (ecdsa S self rand).impl.value ((ecdsa S self rand).impl.messageSet agg.sig
      ((ecdsa S self rand).hashes agg.view agg.qcs)) = S.verifyThresholdSignatureForMessageSet agg.sig
        (agg.qcs.map fun e => (e.1,(Setup.timeoutOf agg.view e).hash S)) :=
    Impl.ecdsa_messageSet S self rand agg.sig _
  rw [verifyAggregateQC,Setup.verifyAggregateQC,hset]
  rcases hv : S.verifyThresholdSignatureForMessageSet agg.sig
    (agg.qcs.map fun e => (e.1,(Setup.timeoutOf agg.view e).hash S)) with _ | _ | _
  · simp only [hv]
  · simp only [hv]
  · simp only [hv]
    cases hh : Setup.highest agg.qcs with
    | some qc =>
      dsimp only
      rw [ecdsa_verifyQuorumCert]
      rfl
    | none =>
      have hnil : agg.qcs = [] := by
        by_contra hnil
        obtain ⟨q,hq⟩ := Setup.exists_highest hnil
        cases hh.symm.trans hq
      rw [hnil,List.map_nil] at hv
      exact absurd hv (S.verifyMessageSet_nil hne agg.sig)

theorem bls12_steady {G : Type} [CommMonoid G] (E : B.Bilinear G)
    (hn : ((bls12 B sha256 self order).hashes agg.view agg.qcs |>.map Prod.snd).Nodup) :
    (bls12 B sha256 self order).Steady agg := fun _ ho =>
  congrArg some (Bls12.verifyMessageSet_perm E agg.sig hn ho)

/-- All replicas of a configuration verify alike. -/
theorem bls12_outcome {secret : PointG2 → PointG2} {self' : ID}
    {order' : Nat → List Bls12Signature → List Bls12Signature} {r : Option (Option QuorumCert)}
    (h : (bls12 { B with mulSecret := secret } sha256 self' order').Outcome agg r) :
    (bls12 B sha256 self order).Outcome agg r := by
  have hset (sig : Option ThresholdSignature) (l : List (ID × Hash)) :
      ({ B with mulSecret := secret } : Bls12).verifyThresholdSignatureForMessageSet sig l =
        B.verifyThresholdSignatureForMessageSet sig l := by
    unfold Bls12.verifyThresholdSignatureForMessageSet
    simp only [Bls12.pairs_mulSecret]
    rfl
  obtain ⟨qcs,hashes,hq,ho,rfl⟩ := h
  refine ⟨qcs,hashes,hq,ho,?_⟩
  rw [verifyAggregateQC,verifyAggregateQC]
  have hvalue : (bls12 { B with mulSecret := secret } sha256 self' order').impl.value
      ((bls12 { B with mulSecret := secret } sha256 self' order').impl.messageSet (agg.read qcs hq).sig hashes) =
      (bls12 B sha256 self order).impl.value
        ((bls12 B sha256 self order).impl.messageSet (agg.read qcs hq).sig hashes) := congrArg some (hset _ _)
  rw [hvalue]
  rfl

/-- Different senders have different hashes unless two of the byte strings collide. -/
theorem hashes_nodup {C : Base}
    (hinj : Set.InjOn C.sha256 {x | ∃ e ∈ agg.qcs, x = (Setup.timeoutOf agg.view e).toBytes}) :
    ((C.hashes agg.view agg.qcs).map Prod.snd).Nodup := by
  rw [hashes,List.map_map]
  refine List.Nodup.map_on (fun e he f hf h => ?_) (agg.nodup.of_map _)
  have hid : e.1 = f.1 := (TimeoutMsg.toBytes_inj (hinj ⟨e,he,rfl⟩ ⟨f,hf,rfl⟩ h)).2.2
  exact List.inj_on_of_nodup_map agg.nodup he hf hid

end Base
end Hotstuff
