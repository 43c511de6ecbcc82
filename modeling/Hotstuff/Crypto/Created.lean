import Hotstuff.Crypto.Aggregate
import Hotstuff.Crypto.Threshold

/-! What `CreateAggregateQC` makes of timeouts that are in order is accepted by `VerifyAggregateQC`, over
either implementation. -/
namespace Hotstuff

namespace Setup

theorem assign_of_not_mem {β : Type} {m : List (ID × β)} {id : ID} (h : id ∉ m.map Prod.fst) (x : β) :
    assign m id x = m ++ [(id,x)] := by
  rw [assign,List.filter_eq_self.mpr]
  intro e he
  exact decide_eq_true fun heq => h (List.mem_map.mpr ⟨e,he,heq⟩)

/-- Assignments under different IDs list the map in the order of the loop. -/
theorem foldl_assign {α β : Type} (key : α → ID) (f : α → β) {l : List α} (h : (l.map key).Nodup) :
    l.foldl (fun m t => assign m (key t) (f t)) [] = l.map fun t => (key t,f t) := by
  induction l using List.reverseRecOn with
  | nil => rfl
  | append_singleton l t ih =>
    rw [List.map_append,List.nodup_append] at h
    obtain ⟨hl,-,hne⟩ := h
    have hnew : key t ∉ (l.map fun t => (key t,f t)).map Prod.fst := by
      rw [List.map_map]
      exact fun hm => hne _ hm _ List.mem_cons_self rfl
    rw [List.foldl_append,ih hl,List.foldl_cons,List.foldl_nil,assign_of_not_mem hnew,List.map_append]
    rfl

/-- The certificates of timeouts of different senders, each of which has one. -/
theorem collect_eq {timeouts : List TimeoutMsg} (hids : (timeouts.map TimeoutMsg.id).Nodup)
    (hqc : ∀ t ∈ timeouts, t.syncInfo.qc.isSome = true) :
    (collect timeouts).1 = timeouts.map fun t => (t.id,t.syncInfo.qc.getD .zero) := by
  rw [← foldl_assign TimeoutMsg.id _ hids]
  clear hids
  induction timeouts using List.reverseRecOn with
  | nil => rfl
  | append_singleton l t ih =>
    have hl := ih fun t ht => hqc t (List.mem_append_left _ ht)
    obtain ⟨qc,hqc⟩ := Option.isSome_iff_exists.mp (hqc t (by simp))
    rw [collect] at hl ⊢
    rw [List.foldl_append,List.foldl_append,List.foldl_cons,List.foldl_nil,List.foldl_cons,List.foldl_nil,← hl]
    simp [hqc]

end Setup

namespace Base
variable (C : Base)

def aggregateOf (qcs : { m : List (ID × QuorumCert) // (m.map Prod.fst).Nodup }) (view : View)
    (sig : ThresholdSignature) : AggregateQC := ⟨qcs.1,some sig,view,qcs.2⟩

def createAggregateQC (k : Nat) (view : View) (timeouts : List TimeoutMsg) :
    Option (Except (List CryptoError) AggregateQC) :=
  let signed := timeouts.filter (fun t => t.msgSignature.isSome)
  let hashes := signed.foldl (fun m t => Setup.assign m t.id (C.sha256 t.toBytes)) []
  ((C.impl.createSet k (signed.filterMap TimeoutMsg.msgSignature) hashes).eval fun g h => C.impl.verify (some g) h).map
    (Except.map (aggregateOf (Setup.collect timeouts) view))

/-- Timeouts for the view of the aggregate, from different senders, each with an accepted certificate and its
sender's signature on the message; no two of the messages collide. -/
structure InOrder (view : View) (timeouts : List TimeoutMsg) : Prop where
  ids : (timeouts.map TimeoutMsg.id).Nodup
  views : ∀ t ∈ timeouts, t.view = view
  cert : ∀ t ∈ timeouts, ∃ qc, t.syncInfo.qc = some qc ∧ C.verifyQuorumCert qc = some true
  signed : ∀ t ∈ timeouts, ∃ g, t.msgSignature = some g ∧ g.signer = t.id ∧
    C.impl.verify (some g) (C.sha256 t.toBytes) = some true
  injOn : Set.InjOn C.sha256 {x | ∃ t ∈ timeouts, x = t.toBytes}

namespace InOrder
variable {C} {view : View} {timeouts : List TimeoutMsg} (h : C.InOrder view timeouts)
include h

theorem collect_eq : (Setup.collect timeouts).1 = timeouts.map fun t => (t.id,t.syncInfo.qc.getD .zero) :=
  Setup.collect_eq h.ids fun t ht => by
    obtain ⟨qc,hqc,-⟩ := h.cert t ht
    simp [hqc]

/-- The verifier rebuilds the hashes that were signed. -/
theorem hashes_eq : C.hashes view (Setup.collect timeouts).1 = timeouts.map fun t => (t.id,C.sha256 t.toBytes) := by
  rw [h.collect_eq,hashes,List.map_map]
  refine List.map_congr_left fun t ht => ?_
  obtain ⟨qc,hqc,-⟩ := h.cert t ht
  have hbytes : (Setup.timeoutOf view (t.id,qc)).toBytes = t.toBytes := by
    rw [TimeoutMsg.toBytes,TimeoutMsg.toBytes,Setup.timeoutOf,h.views t ht,hqc]
  simp [hqc,hbytes]

theorem filter_signed : timeouts.filter (fun t => t.msgSignature.isSome) = timeouts :=
  List.filter_eq_self.mpr fun t ht => by
    obtain ⟨g,hg,-⟩ := h.signed t ht
    simp [hg]

theorem hashes_nodup : ((timeouts.map fun t => (t.id,C.sha256 t.toBytes)).map Prod.snd).Nodup := by
  rw [List.map_map]
  refine List.Nodup.map_on (fun t ht u hu heq => ?_) (h.ids.of_map _)
  have hid : t.id = u.id := (TimeoutMsg.toBytes_inj (h.injOn ⟨t,ht,rfl⟩ ⟨u,hu,rfl⟩ heq)).2.2
  exact List.inj_on_of_nodup_map h.ids ht hu hid

/-- Once the signature is accepted, so is the aggregate, in whatever order its maps are read. -/
theorem accepted {agg : AggregateQC} (hagg : agg.qcs = (Setup.collect timeouts).1) (hne : timeouts ≠ [])
    (hsteady : C.Steady agg)
    (hv : C.impl.value (C.impl.messageSet agg.sig (C.hashes agg.view agg.qcs)) = some true)
    {r : Option (Option QuorumCert)} (hr : C.Outcome agg r) : ∃ q, r = some (some q) := by
  rw [h.collect_eq] at hagg
  have hqcs : agg.qcs ≠ [] := by simpa [hagg] using hne
  obtain ⟨e,he,hr⟩ := hr.top hsteady hv hqcs
  obtain ⟨t,ht,hte⟩ := List.mem_map.mp (hagg ▸ he.1)
  obtain ⟨qc,hqc,hok⟩ := h.cert t ht
  have hcert : e.2 = qc := by
    rw [← hte,hqc]
    rfl
  rw [hcert,hok] at hr
  exact ⟨qc,hr⟩

end InOrder

section Ecdsa
variable {S : Setup} {self : ID} {rand : Nat → Hash → Option (Nat × Nat)} {view : View} {timeouts : List TimeoutMsg}

/-- Over ECDSA it is the function of the replica model. -/
theorem ecdsa_createAggregateQC (k : Nat) (view : View) (timeouts : List TimeoutMsg) :
    (ecdsa S self rand).createAggregateQC k view timeouts = some (S.createAggregateQC view timeouts) := by
  rw [createAggregateQC,Setup.createAggregateQC,Setup.createThresholdSignatureForMessageSet]
  refine (congrArg (Option.map _) (Impl.ecdsa_build S _ _)).trans ?_
  dsimp only [TimeoutMsg.hash,ecdsa]
  cases S.createFrom _ _ <;> rfl

variable (h : (ecdsa S self rand).InOrder view timeouts) {sig : EcdsaThreshold}
  (hc : S.createThresholdSignatureForMessageSet (timeouts.filterMap TimeoutMsg.msgSignature)
    (timeouts.map fun t => (t.id,t.hash S)) = .ok sig)
include h hc

/-- Every sender has an entry in the signature, and it is valid. -/
private theorem ecdsa_find {t : TimeoutMsg} (ht : t ∈ timeouts) :
    ∃ g, sig.find t.id = some g ∧ S.verifyEcdsa g (t.hash S) = true := by
  have hmade := (Setup.made_of_createFrom hc).1
  have hkeys : ((timeouts.map fun t => (t.id,t.hash S)).map Prod.fst).Nodup := by
    rw [List.map_map]
    exact h.ids
  have hlookup : (timeouts.map fun t => (t.id,t.hash S)).lookup t.id = some (t.hash S) :=
    Library.lookup_of_mem hkeys (List.mem_map.mpr ⟨t,ht,rfl⟩)
  obtain ⟨g,hg,hsigner,hv⟩ := h.signed t ht
  cases g with
  | bls12 g => cases hv
  | ecdsa g =>
    have hid : g.signer = t.id := hsigner
    have hvalid : S.validFor (fun id => (timeouts.map fun t => (t.id,t.hash S)).lookup id) g = true := by
      rw [Setup.validFor,hid,hlookup]
      exact Option.some.inj hv
    have hmem := hmade.all g (List.mem_filterMap.mpr ⟨t,ht,hg⟩) hvalid
    rw [hid] at hmem
    obtain ⟨x,hx,hxs⟩ := EcdsaThreshold.mem_signers.mp hmem
    cases hf : sig.find t.id with
    | none =>
      have hnone := List.find?_eq_none.mp hf x hx
      exact absurd (decide_eq_true hxs) hnone
    | some y =>
      have hys : y.signer = t.id := by simpa using List.find?_some hf
      exact ⟨y,rfl,Setup.verifyEcdsa_of_validFor (hmade.valid y (List.mem_of_find?_eq_some hf)).2 (hys ▸ hlookup)⟩

private theorem ecdsa_length : sig.entries.length ≤ timeouts.length := by
  have hmade := (Setup.made_of_createFrom hc).1
  have hsub : sig.signers ⊆ (timeouts.map TimeoutMsg.id).toFinset := by
    intro id hid
    obtain ⟨g,hg,rfl⟩ := EcdsaThreshold.mem_signers.mp hid
    obtain ⟨t,ht,hgt⟩ := List.mem_filterMap.mp (hmade.valid g hg).1
    obtain ⟨g',hg',hsigner,-⟩ := h.signed t ht
    cases hgt.symm.trans hg'
    exact List.mem_toFinset.mpr (List.mem_map.mpr ⟨t,ht,hsigner.symm⟩)
  calc sig.entries.length = sig.signers.card := sig.card_signers.symm
    _ ≤ (timeouts.map TimeoutMsg.id).toFinset.card := Finset.card_le_card hsub
    _ ≤ (timeouts.map TimeoutMsg.id).length := List.toFinset_card_le _
    _ = timeouts.length := List.length_map _

private theorem ecdsa_messageSet : S.verifyThresholdSignatureForMessageSet (some (.ecdsa sig))
    (timeouts.map fun t => (t.id,t.hash S)) = some true := by
  set hashes := timeouts.map fun t => (t.id,t.hash S) with hhashes
  have hfind : ∀ e ∈ hashes, ∃ g, sig.find e.1 = some g ∧ S.verifyEcdsa g e.2 = true := by
    intro e he
    obtain ⟨t,ht,rfl⟩ := List.mem_map.mp he
    exact ecdsa_find h hc ht
  have hsome : ∀ e ∈ hashes, (sig.find e.1).isSome = true := fun e he => by
    obtain ⟨g,hg,-⟩ := hfind e he
    simp [hg]
  set started := hashes.filterMap fun e => (sig.find e.1).map (·,e.2) with hstarted
  have hlength : started.length = timeouts.length := by
    rw [hstarted,List.length_filterMap_eq_countP,List.countP_eq_length.mpr fun e he => by simpa using hsome e he,
      hhashes,List.length_map]
  have hall : started.filter (fun x => S.verifyEcdsa x.1 x.2) = started := by
    refine List.filter_eq_self.mpr fun x hx => ?_
    obtain ⟨e,he,hxe⟩ := List.mem_filterMap.mp hx
    obtain ⟨g,hg,hgv⟩ := hfind e he
    rw [hg] at hxe
    cases hxe
    exact hgv
  have hquorum := (Setup.made_of_createFrom hc).2
  have hentries := ecdsa_length h hc
  have hstart : Setup.startedFor sig hashes [] = some started :=
    Setup.startedFor_eq_some_iff.mpr ⟨⟨by simp,h.hashes_nodup,hsome⟩,rfl⟩
  rw [Setup.verifyThresholdSignatureForMessageSet,hstart]
  dsimp only
  rw [hall,hlength,if_neg (Nat.not_lt.mpr hentries),decide_eq_true (hquorum.trans hentries)]

end Ecdsa

/-- Over ECDSA, what is created from timeouts in order is accepted by every replica. -/
theorem ecdsa_created {S : Setup} {self : ID} {rand : Nat → Hash → Option (Nat × Nat)} {view : View}
    {timeouts : List TimeoutMsg} (hne : S.replicas.Nonempty) (h : (ecdsa S self rand).InOrder view timeouts)
    {agg : AggregateQC} (hagg : S.createAggregateQC view timeouts = .ok agg) {self' : ID}
    {rand' : Nat → Hash → Option (Nat × Nat)} {r : Option (Option QuorumCert)}
    (hr : (ecdsa S self' rand').Outcome agg r) : ∃ q, r = some (some q) := by
  have hids : (timeouts.foldl (fun m t => Setup.assign m t.id (t.hash S)) []) =
      timeouts.map fun t => (t.id,t.hash S) := Setup.foldl_assign TimeoutMsg.id _ h.ids
  rw [Setup.createAggregateQC,h.filter_signed,hids] at hagg
  split at hagg
  · rename_i sig hc
    cases hagg
    have hv := ecdsa_messageSet h hc
    have hnil : timeouts ≠ [] := by
      rintro rfl
      exact S.verifyMessageSet_nil hne _ hv
    refine h.accepted rfl hnil ecdsa_steady ?_ hr
    dsimp only
    rw [h.hashes_eq]
    exact (Impl.ecdsa_messageSet S self rand _ _).trans hv
  · cases hagg

end Base

namespace Bls12
variable {B : Bls12} {G : Type} [CommMonoid G]

/-- An aggregate signature pairs like the product of its parts. -/
theorem Bilinear.aggregate (E : B.Bilinear G) {l : List Bls12Signature} (hl : l ≠ []) {a : AggregateSignature}
    (ha : B.aggregateSignatures l = some a) : E.gen a.sig = (l.map fun g => E.gen g.s).prod := by
  have fold (l : List Bls12Signature) (a₀ : AggregateSignature)
      (ha : l.foldlM (fun a g => (Bitfield.add a.participants g.signer).map fun ps =>
        (⟨B.add a.sig g.s,ps⟩ : AggregateSignature)) a₀ = some a) :
      E.gen a.sig = E.gen a₀.sig * (l.map fun g => E.gen g.s).prod := by
    induction l generalizing a₀ with
    | nil =>
      cases ha
      rw [List.map_nil,List.prod_nil,mul_one]
    | cons g l ih =>
      rw [List.foldlM_cons] at ha
      obtain ⟨a₁,ha₁,ha⟩ := Option.bind_eq_some_iff.mp ha
      obtain ⟨ps,-,rfl⟩ := Option.map_eq_some_iff.mp ha₁
      rw [ih _ ha,E.gen_add,List.map_cons,List.prod_cons,mul_assoc]
  rw [aggregateSignatures,if_neg hl] at ha
  rw [fold l _ ha,E.gen_infinity,one_mul]

end Bls12

namespace Base
section Bls12
variable {B : Bls12} {G : Type} [CommMonoid G] (E : B.Bilinear G) {sha256 : List UInt8 → Hash} {self : ID}
  {order : Nat → List Bls12Signature → List Bls12Signature} (horder : ∀ k l, (order k l).Perm l) {view : View}
  {timeouts : List TimeoutMsg}

/-- A signed timeout has a point and a signature that pairs with it. -/
private theorem bls12_signed (h : (bls12 B sha256 self order).InOrder view timeouts) :
    ∃ (sig : TimeoutMsg → Bls12Signature) (point : TimeoutMsg → PointG2), ∀ t ∈ timeouts,
      t.msgSignature = some (.bls12 (sig t)) ∧ (sig t).signer = t.id ∧ t.id ∈ B.replicas ∧
        B.hashToCurve (sha256 t.toBytes) = some (point t) ∧ B.pairing (sig t).s [(t.id,point t)] = true := by
  have each : ∀ t ∈ timeouts, ∃ g p, t.msgSignature = some (.bls12 g) ∧ g.signer = t.id ∧ t.id ∈ B.replicas ∧
      B.hashToCurve (sha256 t.toBytes) = some p ∧ B.pairing g.s [(t.id,p)] = true := by
    intro t ht
    obtain ⟨g,hg,hsigner,hv⟩ := h.signed t ht
    cases g with
    | ecdsa g => cases hv
    | bls12 g =>
      have hid : g.signer = t.id := hsigner
      change B.verify (some (.bls12 g)) (sha256 t.toBytes) = some true at hv
      rw [Bls12.verify] at hv
      split_ifs at hv with hr
      split at hv
      · cases hv
      · rename_i p hp
        rw [hid] at hr hv
        exact ⟨g,p,hg,hid,hr,hp,Option.some.inj hv⟩
  have : Nonempty Bls12Signature := ⟨⟨0,⟨[]⟩⟩⟩
  have : Nonempty PointG2 := ⟨⟨[]⟩⟩
  choose! sig point hall using each
  exact ⟨sig,point,hall⟩

include E horder in
/-- The aggregate of all message signatures is accepted for the messages. -/
private theorem bls12_messageSet (h : (bls12 B sha256 self order).InOrder view timeouts) (hne : timeouts ≠ [])
    {k : Nat} {a : AggregateSignature}
    (hc : B.createThresholdSignature (order k) (timeouts.filterMap TimeoutMsg.msgSignature) = some (.ok a)) :
    B.verifyThresholdSignatureForMessageSet (some (.bls12 a))
      (timeouts.map fun t => (t.id,sha256 t.toBytes)) = true := by
  obtain ⟨sig,point,hall⟩ := bls12_signed h
  have hpartials : timeouts.filterMap TimeoutMsg.msgSignature = (timeouts.map sig).map .bls12 := by
    rw [List.map_map,← List.filterMap_eq_map]
    exact List.filterMap_congr fun t ht => (hall t ht).1
  have hsigners : (timeouts.map sig).map Bls12Signature.signer = timeouts.map TimeoutMsg.id := by
    rw [List.map_map]
    exact List.map_congr_left fun t ht => (hall t ht).2.1
  have hpoints : (timeouts.map fun t => (t.id,sha256 t.toBytes)).filterMap
      (fun e => (B.hashToCurve e.2).map (e.1,·)) = timeouts.map fun t => (t.id,point t) := by
    rw [List.filterMap_map,← List.filterMap_eq_map]
    refine List.filterMap_congr fun t ht => ?_
    simp [(hall t ht).2.2.2.1]
  rw [Bls12.createThresholdSignature,hpartials,Bls12.foldl_addPartial (hsigners ▸ h.ids)] at hc
  simp only [List.length_map] at hc
  split_ifs at hc with hq
  · simp at hc
  obtain ⟨a',ha,haa⟩ := Option.map_eq_some_iff.mp hc
  cases haa
  have hperm := horder k (timeouts.map sig)
  have hnil : order k (timeouts.map sig) ≠ [] := fun hnil => by
    rw [hnil,List.nil_perm] at hperm
    exact hne (List.map_eq_nil_iff.mp hperm)
  have hpair : B.pairing a.sig (timeouts.map fun t => (t.id,point t)) = true := by
    rw [E.pairing_iff,E.aggregate hnil ha,(hperm.map _).prod_eq,List.map_map,List.map_map]
    refine congrArg List.prod (List.map_congr_left fun t ht => ?_)
    simpa using (E.pairing_iff _ _).mp (hall t ht).2.2.2.2
  have hin : ∀ e ∈ timeouts.map (fun t => (t.id,sha256 t.toBytes)),
      e.1 ∈ B.replicas ∧ (B.hashToCurve e.2).isSome = true := by
    intro e he
    obtain ⟨t,ht,rfl⟩ := List.mem_map.mp he
    exact ⟨(hall t ht).2.2.1,by simp [(hall t ht).2.2.2.1]⟩
  have hnodup : ((timeouts.map fun t => (t.id,sha256 t.toBytes)).map Prod.snd).Nodup := h.hashes_nodup
  rw [Bls12.verifyThresholdSignatureForMessageSet,(Bls12.pairs_eq_some_iff hnodup (by simp)).mpr ⟨hin,rfl⟩,hpoints]
  dsimp only
  rw [hpair]
  simpa using hq

end Bls12

/-- Over BLS12-381, what is created from timeouts in order is accepted by every replica: the own key of
the verifier does not matter. -/
theorem bls12_created {B : Bls12} {G : Type} [CommMonoid G] (E : B.Bilinear G) {sha256 : List UInt8 → Hash} {self : ID}
    {order : Nat → List Bls12Signature → List Bls12Signature} (horder : ∀ k l, (order k l).Perm l) {view : View}
    {timeouts : List TimeoutMsg} (hne : B.replicas.Nonempty) (h : (bls12 B sha256 self order).InOrder view timeouts)
    {k : Nat} {agg : AggregateQC}
    (hagg : (bls12 B sha256 self order).createAggregateQC k view timeouts = some (.ok agg))
    {self' : ID} {order' : Nat → List Bls12Signature → List Bls12Signature} {secret : PointG2 → PointG2}
    {r : Option (Option QuorumCert)} (hr : (bls12 { B with mulSecret := secret } sha256 self' order').Outcome agg r) :
    ∃ q, r = some (some q) := by
  rw [createAggregateQC,h.filter_signed] at hagg
  obtain ⟨x,hx,hxa⟩ := Option.map_eq_some_iff.mp hagg
  obtain ⟨y,hy,rfl⟩ := Option.map_eq_some_iff.mp hx
  cases y with
  | error e => cases hxa
  | ok a =>
    cases hxa
    have hnil : timeouts ≠ [] := by
      rintro rfl
      have hq : 0 < B.quorum := quorumSize_pos hne.card_pos
      rw [Bls12.createThresholdSignature,if_pos (by simpa using hq)] at hy
      simp at hy
    have hv := bls12_messageSet E horder h hnil hy
    have hset := h.hashes_eq
    have hr' : (bls12 B sha256 self order).Outcome _ r := bls12_outcome hr
    refine h.accepted rfl hnil (bls12_steady E ?_) ?_ hr'
    · dsimp only [aggregateOf]
      rw [hset]
      exact h.hashes_nodup
    · dsimp only [aggregateOf]
      rw [hset]
      exact congrArg some hv

end Base

namespace Sample

def curve (self : ID) : Bls12 where
  replicas := {1,2,3,4}
  hashToCurve h := some ⟨List.replicate (h.toNat % 7 + 1) 0⟩
  infinity := ⟨[]⟩
  add p q := ⟨p.compressed ++ q.compressed⟩
  mulSecret p := ⟨List.replicate (self.toNat * p.compressed.length) 0⟩
  pairing s l := decide (s.compressed.length = (l.map fun x => x.1.toNat * x.2.compressed.length).sum)

def curveBilinear (self : ID) : (curve self).Bilinear (Multiplicative Nat) where
  gen p := .ofAdd p.compressed.length
  key id p := .ofAdd (id.toNat * p.compressed.length)
  pairing_iff s l := by
    have hprod : (l.map fun x => Multiplicative.ofAdd (x.1.toNat * x.2.compressed.length)).prod =
        .ofAdd (l.map fun x => x.1.toNat * x.2.compressed.length).sum := by
      induction l with
      | nil => rfl
      | cons x l ih => rw [List.map_cons,List.map_cons,List.prod_cons,List.sum_cons,ih,ofAdd_add]
    rw [hprod]
    exact decide_eq_true_iff
  gen_infinity := rfl
  gen_add s t := by simp [curve,ofAdd_add]

end Sample
end Hotstuff
