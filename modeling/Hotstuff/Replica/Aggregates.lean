import Hotstuff.Crypto.Created
import Hotstuff.Replica.Timeouts

/-! Aggregates at a replica: the check of a proposal reads the certificate map in an order of its own, and
which of the aggregates that `OnRemoteTimeout` attaches are accepted. -/
namespace Hotstuff
namespace Replica
variable {S : Setup} {R : RuleSet} {env : Env} {agg : AggregateQC} {self : ID} {rand : Nat → Hash → Option (Nat × Nat)}

/-- A call of `VerifyAggregateQC` at a replica is one with some order of the maps. -/
theorem outcome_reorder (hne : S.replicas.Nonempty) (env : Env) (agg : AggregateQC) (k : Nat) :
    (Base.ecdsa S self rand).Outcome agg (S.verifyAggregateQC (reorder env agg k)) :=
  ⟨env.qcOrder k agg.qcs,_,env.qcOrder_perm k agg.qcs,(env.qcOrder_perm k agg.qcs).map _,
    Base.ecdsa_verifyAggregateQC hne⟩

theorem checkCerts_eq_decision {p : ProposeMsg} (hp : p.aggQC = some agg) (hR : R.useAggQC = true) (k : Nat) :
    checkCerts S R env p k =
      (Base.ecdsa S self rand).decision p.block.cert (S.verifyAggregateQC (reorder env agg k)) := by
  rw [checkCerts,if_pos hR,hp]
  dsimp only
  rcases S.verifyAggregateQC (reorder env agg k) with _ | _ | high
  · rfl
  · rfl
  · rw [Base.decision,Base.ecdsa_verifyQuorumCert]
    dsimp only
    cases p.block.cert.equals high <;> simp

/-- The outcome of `VerifyAggregateQC`, and the decision of `OnPropose` on a block, do not depend on how the maps are
read exactly if the certificates of the largest claimed view are all rejected, or all accepted and Equal. -/
theorem aggregate_order_iff (agg : AggregateQC) :
    (∀ S self rand, ((Base.ecdsa S self rand).Uniform agg ↔ (Base.ecdsa S self rand).Clear agg) ∧
      ((Base.ecdsa S self rand).OneDecision agg ↔ (Base.ecdsa S self rand).Clear agg)) ∧
    (∀ B sha256 self order (G : Type) [CommMonoid G], B.Bilinear G →
      Set.InjOn sha256 {x | ∃ e ∈ agg.qcs, x = (Setup.timeoutOf agg.view e).toBytes} →
      ((Base.bls12 B sha256 self order).Uniform agg ↔ (Base.bls12 B sha256 self order).Clear agg) ∧
      ((Base.bls12 B sha256 self order).OneDecision agg ↔ (Base.bls12 B sha256 self order).Clear agg)) ∧
    ∀ S self rand p R env env' k k', S.replicas.Nonempty → p.aggQC = some agg →
      (Base.ecdsa S self rand).Clear agg → checkCerts S R env p k = checkCerts S R env' p k' := by
  refine ⟨fun S self rand => ?_,fun B sha256 self order G _ E hinj => ?_,?_⟩
  · exact ⟨Base.uniform_iff_clear Base.ecdsa_steady,Base.oneDecision_iff_clear Base.ecdsa_steady⟩
  · have hsteady : (Base.bls12 B sha256 self order).Steady agg := Base.bls12_steady E (Base.hashes_nodup hinj)
    exact ⟨Base.uniform_iff_clear hsteady,Base.oneDecision_iff_clear hsteady⟩
  · intro S self rand p R env env' k k' hne hp hclear
    by_cases hR : R.useAggQC = true
    · have hdecision (env : Env) (k : Nat) : checkCerts S R env p k =
          (Base.ecdsa S self rand).decision p.block.cert (S.verifyAggregateQC (reorder env agg k)) :=
        checkCerts_eq_decision hp hR k
      rw [hdecision,hdecision]
      exact (Base.oneDecision_iff_clear Base.ecdsa_steady).mpr hclear _ _ _ (outcome_reorder hne env agg k)
        (outcome_reorder hne env' agg k')
    · rw [checkCerts,checkCerts,if_neg hR]

end Replica

namespace Sample
open Replica

private def aggregateOf (view : View) (l : List (ID × QuorumCert)) (h : (l.map Prod.fst).Nodup) : AggregateQC :=
  ⟨l,some (.ecdsa (.restore (l.map fun e => ⟨e.1.toNat,((Setup.timeoutOf view e).hash setup).toNat,e.1⟩))),view,h⟩

private def uncached : Base := .ecdsa setup 1 fun _ _ => none

private def alike : AggregateQC :=
  aggregateOf 2 ([2,3,4].map (·,qcOf [2,3,4] (first 1))) (by simp)

theorem aggregate_order_alike : uncached.Uniform alike := by
  refine ((aggregate_order_iff alike).1 setup 1 fun _ _ => none).1.mpr fun _ e e' he he' => ?_
  have hcert : ∀ e ∈ alike.qcs, e.2 = qcOf [2,3,4] (first 1) := by
    intro e he
    obtain ⟨id,-,rfl⟩ := List.mem_map.mp he
    rfl
  rw [hcert e he.1,hcert e' he'.1]
  exact ⟨rfl,fun _ => QuorumCert.equals_iff.mpr rfl⟩

private def mixedSigners : AggregateQC :=
  aggregateOf 2 [(2,qcOf [1,2,3] (first 1)),(3,qcOf [2,3,4] (first 1)),(4,qcOf [2,3,4] (first 1))] (by simp)

private def backwards : Env :=
  { env 1 [] with qcOrder := fun _ l => l.reverse, qcOrder_perm := fun _ l => l.reverse_perm }

private theorem mixedSigners_outcomes :
    setup.verifyAggregateQC (reorder (env 1 []) mixedSigners 0) = some (some (qcOf [1,2,3] (first 1))) ∧
      setup.verifyAggregateQC (reorder backwards mixedSigners 0) = some (some (qcOf [2,3,4] (first 1))) ∧
      (qcOf [1,2,3] (first 1)).equals (qcOf [2,3,4] (first 1)) = false := by decide +kernel

/-- The certificate that is met first is returned. A block with one of them is accepted by a replica that
meets it first, and turned down by one that meets the other first. -/
theorem aggregate_order_matters : ∃ (agg : AggregateQC) (q q' : QuorumCert),
    uncached.Outcome agg (some (some q)) ∧ uncached.Outcome agg (some (some q')) ∧ q.equals q' = false ∧
    ∃ (p : ProposeMsg) (env env' : Env), p.aggQC = some agg ∧
      checkCerts setup .fast env p 0 = some true ∧ checkCerts setup .fast env' p 0 = some false := by
  have hne : setup.replicas.Nonempty := ⟨1,by decide⟩
  obtain ⟨hfirst,hlast,hdiffer⟩ := mixedSigners_outcomes
  refine ⟨mixedSigners,_,_,hfirst ▸ outcome_reorder hne _ _ 0,hlast ▸ outcome_reorder hne _ _ 0,hdiffer,
    ⟨4,next [1,2,3] (first 1) 3,some mixedSigners⟩,env 1 [],backwards,rfl,?_⟩
  decide +kernel

end Sample

/-- A timeout as a correct replica makes it: an accepted certificate, and its own signature on the message. -/
structure TimeoutMsg.Sound (S : Setup) (t : TimeoutMsg) : Prop where
  cert : ∃ qc, t.syncInfo.qc = some qc ∧ S.verifyQuorumCert qc = true
  signed : ∃ g, t.msgSignature = some g ∧ g.signer = t.id ∧ S.verify (some g) (t.hash S) = true

structure TimeoutMsg.SoundIn (C : Base) (t : TimeoutMsg) : Prop where
  cert : ∃ qc, t.syncInfo.qc = some qc ∧ C.verifyQuorumCert qc = some true
  signed : ∃ g, t.msgSignature = some g ∧ g.signer = t.id ∧ C.impl.verify (some g) (C.sha256 t.toBytes) = some true

theorem TimeoutMsg.Sound.soundIn {S : Setup} {t : TimeoutMsg} (h : t.Sound S) : t.SoundIn (.ecdsa S 0 fun _ _ => none) := by
  obtain ⟨⟨qc,hqc,hv⟩,g,hg,hsigner,hsig⟩ := h
  exact ⟨⟨qc,hqc,by rw [Base.ecdsa_verifyQuorumCert,hv]⟩,g,hg,hsigner,congrArg some hsig⟩

namespace Replica
variable {S : Setup} {R : RuleSet} {env : Env}

/-- What `OnRemoteTimeout` makes of the collected timeouts, whatever signs them: the first of a view under each ID is
kept, and those of a view or of old views are dropped. -/
inductive Gathered : List TimeoutMsg → Prop
  | nil : Gathered []
  | keep {l : List TimeoutMsg} (m : TimeoutMsg) : Gathered l →
      Gathered (if l.any (fun t => t.view = m.view ∧ t.id = m.id) then l else l ++ [m])
  | drop {l : List TimeoutMsg} (p : TimeoutMsg → Bool) : Gathered l → Gathered (l.filter p)

namespace Gathered
variable {s t : Replica}

/-- One timeout is kept for each view and ID. -/
theorem nodup {l : List TimeoutMsg} (h : Gathered l) : (l.map fun t => (t.view,t.id)).Nodup := by
  induction h with
  | nil => exact List.nodup_nil
  | keep m _ ih =>
    split_ifs with hm
    · exact ih
    · rw [List.map_append,List.nodup_append]
      refine ⟨ih,by simp,?_⟩
      intro x hx y hy hxy
      obtain ⟨t,ht,rfl⟩ := List.mem_map.mp hx
      rw [List.mem_singleton.mp hy,Prod.mk.injEq] at hxy
      exact hm (List.any_eq_true.mpr ⟨t,ht,decide_eq_true hxy⟩)
  | drop p _ ih => exact (List.filter_sublist.map _).nodup ih

theorem keepTimeout (h : Gathered s.timeouts) (m : TimeoutMsg) : Gathered (s.keepTimeout m).timeouts := by
  have hkeep := h.keep m
  rw [Replica.keepTimeout]
  split_ifs at hkeep ⊢ <;> exact hkeep

private theorem andThen {f : Replica → Replica} (h : Gathered t.timeouts) (hf : Gathered (f t).timeouts) :
    Gathered (t.andThen f).timeouts :=
  andThen_rec (P := fun t => Gathered t.timeouts) h fun _ => hf

private theorem advanceView (h : Gathered s.timeouts) (si : SyncInfo) :
    Gathered (advanceView S R env env.fuel si s).timeouts := by
  rw [(advanceView_inside _ _ _).timeouts]
  exact h

theorem onRemoteTimeout (h : Gathered s.timeouts) (m : TimeoutMsg) : Gathered (onRemoteTimeout S R env m s).timeouts := by
  have hcollect {u : Replica} (hu : Gathered u.timeouts) : Gathered (collectTimeout S R env m u).timeouts := by
    rcases collectTimeout_cases S R env m u with ⟨he,-⟩ | ⟨tc,-,he⟩
    · rw [he]
      exact hu.keepTimeout m
    · rw [he]
      exact Gathered.advanceView (s := (u.keepTimeout m).tick.dropTimeouts m.view) ((hu.keepTimeout m).drop _) _
  rw [onRemoteTimeout_def]
  split_ifs
  · exact h.andThen (h.drop _)
  · have hadv : Gathered (Replica.advanceView S R env env.fuel m.syncInfo s).timeouts := h.advanceView m.syncInfo
    have hc := hadv.andThen (hcollect hadv)
    exact hc.andThen (hc.drop _)

private theorem onLocalTimeout (h : Gathered s.timeouts) : Gathered (onLocalTimeout S R env s).timeouts := by
  have hnew : Gathered (newTimeout S R env s).timeouts := by
    obtain ⟨n,l,-,⟨he,-⟩ | ⟨m,-,-,he,-⟩⟩ := newTimeout_cases (fun _ => True) S R env s
    · rw [he]
      exact h
    · rw [he,sendTimeout_eq]
      exact Gathered.onRemoteTimeout (s := (s.afterSigning n l).announced m) h m
  rw [Replica.onLocalTimeout,onLocalTimeoutWith]
  split
  · split_ifs
    · exact h
    · exact hnew
  · exact hnew

theorem handle (h : Gathered s.timeouts) (ev : Event) : Gathered (handle S R env ev s).timeouts := by
  by_cases hs : s.halted = true
  · rwa [handle_halted hs]
  rcases handle_cases (Bool.eq_false_iff.mpr hs) ev with ⟨-,hi | hi⟩ | ⟨m,-,he⟩ | ⟨-,he⟩
  · exact hi.timeouts ▸ h
  · exact hi.timeouts ▸ h
  · exact he ▸ h.onRemoteTimeout m
  · exact he ▸ h.onLocalTimeout

theorem run (id : ID) (l : List (Env × Event)) : Gathered (run S R (init S id) l).timeouts := by
  induction l using List.reverseRecOn with
  | nil => exact .nil
  | append_singleton l e ih =>
    rw [run_append]
    exact ih.handle e.2

/-- Sound timeouts of a view, in any order, make an aggregate for that view. -/
theorem inOrder {l timeouts : List TimeoutMsg} {v : View} {C : Base} (h : Gathered l)
    (hperm : timeouts.Perm (l.filter fun t => t.view = v)) (hsound : ∀ t ∈ timeouts, t.SoundIn C)
    (hinj : Set.InjOn C.sha256 {x | ∃ t ∈ timeouts, x = t.toBytes}) : C.InOrder v timeouts := by
  have hview {t : TimeoutMsg} (ht : t ∈ l.filter fun t => t.view = v) : t.view = v := by
    simpa using (List.mem_filter.mp ht).2
  have hkeys := (h.drop fun t => t.view = v).nodup
  refine ⟨(hperm.map _).nodup_iff.mpr (List.Nodup.map_on (fun t ht u hu heq => ?_) (hkeys.of_map _)),
    fun t ht => hview (hperm.mem_iff.mp ht),fun t ht => (hsound t ht).cert,fun t ht => (hsound t ht).signed,hinj⟩
  exact List.inj_on_of_nodup_map hkeys ht hu (by rw [hview ht,hview hu,heq])

end Gathered

variable (S R env) in
def kept (m : TimeoutMsg) (s : Replica) : Replica := (advanceView S R env env.fuel m.syncInfo s).keepTimeout m

variable (S R env) in
/-- `OnRemoteTimeout` with `m` in the state `s` advances with the SyncInfo `si`: the message is valid, and with it
there is a quorum that makes a certificate. -/
def Advances (m : TimeoutMsg) (s : Replica) (si : SyncInfo) : Prop :=
  m.Valid S ∧ (advanceView S R env env.fuel m.syncInfo s).halted = false ∧
    S.quorum ≤ (collected env m.view (kept S R env m s)).length ∧
    ∃ tc, S.createTimeoutCert m.view (collected env m.view (kept S R env m s)) = .ok tc ∧
      si = collectedInfo S R env tc m.view (kept S R env m s)

theorem Advances.onRemoteTimeout_eq {m : TimeoutMsg} {s : Replica} {si : SyncInfo} (h : Advances S R env m s si) :
    onRemoteTimeout S R env m s =
      (advanceView S R env env.fuel si ((kept S R env m s).tick.dropTimeouts m.view)).andThen dropOldTimeouts := by
  obtain ⟨hv,hh,hq,tc,htc,rfl⟩ := h
  have hcollect : (advanceView S R env env.fuel m.syncInfo s).andThen (collectTimeout S R env m) =
      collectTimeout S R env m (advanceView S R env env.fuel m.syncInfo s) := by
    rw [andThen,if_neg (by simp [hh])]
  rw [onRemoteTimeout_def,if_neg (by simp [show S.verify _ _ = true from hv]),hcollect]
  rcases collectTimeout_cases S R env m (advanceView S R env env.fuel m.syncInfo s) with ⟨-,hlt | ⟨e,he⟩⟩ | ⟨tc',htc',he⟩
  · exact absurd hq (Nat.not_le.mpr hlt)
  · cases htc.symm.trans he
  · cases htc.symm.trans htc'
    rw [he]
    rfl

theorem collectedInfo_aggQC (tc : TimeoutCert) (v : View) (s : Replica) :
    (collectedInfo S R env tc v s).aggQC = attached S R env v s := rfl

section Collected
variable {S : Setup} {R : RuleSet} {env : Env} {m : TimeoutMsg} {s : Replica}

private theorem created_of_attached {agg : AggregateQC} (hview : s.currentView = m.view)
    (h : attached S R env m.view s = some agg) : S.createAggregateQC m.view (collected env m.view s) = .ok agg := by
  rw [attached] at h
  split_ifs at h
  -- the source passes `s.currentView` here, not the timeouts' view
  rw [hview] at h
  cases hc : S.createAggregateQC m.view (collected env m.view s) with
  | error e =>
    rw [hc] at h
    cases h
  | ok agg' =>
    rw [hc] at h
    cases h
    rfl

end Collected

/-- An attached aggregate is accepted by every replica if the timeouts are for the view in which the replica is by then,
and each has an accepted certificate and its sender's signature. Over BLS12-381 the same holds of an aggregate that is
created from timeouts collected in this way. -/
theorem aggregates_accepted (S : Setup) :
    (∀ R env env' id l m s si agg k, S.replicas.Nonempty → s.timeouts = (run S R (init S id) l).timeouts →
      Advances S R env m s si → si.aggQC = some agg → (kept S R env m s).currentView = m.view →
      (∀ t ∈ collected env m.view (kept S R env m s), t.Sound S) →
      Set.InjOn S.sha256 {x | ∃ t ∈ collected env m.view (kept S R env m s), x = t.toBytes} →
      ∃ q, S.verifyAggregateQC (reorder env' agg k) = some (some q)) ∧
    ∀ B self order (G : Type) [CommMonoid G] k view l timeouts agg, B.Bilinear G → B.replicas.Nonempty →
      (∀ k l, (order k l).Perm l) → Gathered l → timeouts.Perm (l.filter fun t => t.view = view) →
      (∀ t ∈ timeouts, t.SoundIn (.bls12 B S.sha256 self order)) →
      Set.InjOn S.sha256 {x | ∃ t ∈ timeouts, x = t.toBytes} →
      (Base.bls12 B S.sha256 self order).createAggregateQC k view timeouts = some (.ok agg) →
      ∀ secret self' order' r, (Base.bls12 { B with mulSecret := secret } S.sha256 self' order').Outcome agg r →
        ∃ q, r = some (some q) := by
  refine ⟨?_,?_⟩
  · intro R env env' id l m s si agg k hne htimeouts hadv hagg hview hsound hinj
    obtain ⟨-,-,-,tc,-,rfl⟩ := hadv
    have hgathered : Gathered s.timeouts := htimeouts ▸ Gathered.run id l
    have hkept : Gathered (kept S R env m s).timeouts := (hgathered.advanceView m.syncInfo).keepTimeout m
    have horder := hkept.inOrder (env.timeoutOrder_perm _ _) (fun t ht => (hsound t ht).soundIn) hinj
    rw [collectedInfo_aggQC] at hagg
    have houtcome : (Base.ecdsa S 0 fun _ _ => none).Outcome agg (S.verifyAggregateQC (reorder env' agg k)) :=
      outcome_reorder hne env' agg k
    exact Base.ecdsa_created hne horder (created_of_attached hview hagg) houtcome
  · intro B self order G _ k view l timeouts agg E hne horder hl hperm hsound hinj hagg secret self' order' r hr
    exact Base.bls12_created E horder hne (hl.inOrder hperm hsound hinj) hagg hr

end Replica

namespace Sample
open Replica

private def timeoutIn (v : View) (i : ID) : TimeoutMsg :=
  { id := i, view := v, viewSignature := some (.ecdsa ⟨i.toNat,(View.toHash v).toNat,i⟩),
    msgSignature := some (.ecdsa ⟨i.toNat,((Setup.timeoutOf v (i,genesisQC 0)).hash setup).toNat,i⟩),
    syncInfo := { qc := some (genesisQC 0) } }

private theorem timeoutIn_sound {v : View} {i : ID} (hi : i ∈ setup.replicas) : (timeoutIn v i).Sound setup := by
  refine ⟨⟨genesisQC 0,rfl,if_pos rfl⟩,_,rfl,rfl,?_⟩
  change (decide (i ∈ setup.replicas) && decide (_ = _ ∧ _ = _)) = true
  rw [Bool.and_eq_true,decide_eq_true_iff,decide_eq_true_iff]
  exact ⟨hi,rfl,rfl⟩

private def timeoutsIn (v : View) (l : List ID) : List (Env × Event) :=
  l.map fun i => (env 1 [],.timeout (timeoutIn v i))

private def twoCollected : Replica := run setup .fast (init setup 1) (timeoutsIn 1 [2,3])

private def threeCollected : Replica := kept setup .fast (env 1 []) (timeoutIn 1 4) twoCollected

private theorem collected_three : collected (env 1 []) 1 threeCollected = [2,3,4].map (timeoutIn 1) := by
  decide +kernel

private def blsTimeoutIn (v : View) (i : ID) : TimeoutMsg :=
  { timeoutIn v i with
    msgSignature := ((curve i).sign i ((Setup.timeoutOf v (i,genesisQC 0)).hash setup)).map .bls12 }

private def blsAt (self : ID) : Base := .bls12 (curve self) setup.sha256 self fun _ l => l

private theorem blsTimeoutIn_sound : ∀ t ∈ [2,3,4].map (blsTimeoutIn 1), t.SoundIn (blsAt 1) := by
  intro t ht
  obtain ⟨i,hi,rfl⟩ := List.mem_map.mp ht
  refine ⟨⟨genesisQC 0,rfl,if_pos rfl⟩,_,rfl,rfl,?_⟩
  simp only [List.mem_cons,List.not_mem_nil,or_false] at hi
  rcases hi with rfl | rfl | rfl <;> decide +kernel

private theorem blsTimeoutIn_gathered : Gathered ([2,3,4].map (blsTimeoutIn 1)) :=
  ((Gathered.nil.keep (blsTimeoutIn 1 2)).keep (blsTimeoutIn 1 3)).keep (blsTimeoutIn 1 4)

private theorem blsTimeoutIn_injOn : Set.InjOn setup.sha256 {x | ∃ t ∈ [2,3,4].map (blsTimeoutIn 1), x = t.toBytes} := by
  have hnodup : ((([2,3,4].map (blsTimeoutIn 1)).map TimeoutMsg.toBytes).map setup.sha256).Nodup := by decide +kernel
  rintro - ⟨t,ht,rfl⟩ - ⟨u,hu,rfl⟩ h
  exact List.inj_on_of_nodup_map hnodup (List.mem_map_of_mem ht) (List.mem_map_of_mem hu) h

theorem aggregates_accepted_three :
    (∃ si agg q, Advances setup .fast (env 1 []) (timeoutIn 1 4) twoCollected si ∧
      si.aggQC = some agg ∧ setup.verifyAggregateQC (reorder (env 2 []) agg 0) = some (some q)) ∧
    ∃ agg, (blsAt 1).createAggregateQC 0 1 ([2,3,4].map (blsTimeoutIn 1)) = some (.ok agg) ∧
      ∀ r, (blsAt 2).Outcome agg r → ∃ q, r = some (some q) := by
  have hcount : setup.quorum ≤ (setup.validSigners (fun _ => some (View.toHash 1))
      (([2,3,4].map (timeoutIn 1)).filterMap TimeoutMsg.viewSignature)).card := by decide +kernel
  obtain ⟨tc,htc⟩ := (Setup.createTimeoutCert_ok_iff (by decide)).mpr hcount
  have hattached : (attached setup .fast (env 1 []) 1 threeCollected).isSome = true := by decide +kernel
  rw [← collectedInfo_aggQC tc] at hattached
  obtain ⟨agg,hagg⟩ := Option.isSome_iff_exists.mp hattached
  have hadv : Advances setup .fast (env 1 []) (timeoutIn 1 4) twoCollected
      (collectedInfo setup .fast (env 1 []) tc 1 threeCollected) := by
    refine ⟨show _ = true by decide +kernel,by decide +kernel,?_,tc,?_,rfl⟩
    · exact le_of_le_of_eq (by decide) (congrArg List.length collected_three).symm
    · exact (congrArg (setup.createTimeoutCert 1) collected_three).trans htc
  have hsound : ∀ t ∈ collected (env 1 []) 1 threeCollected, t.Sound setup := by
    intro t ht
    rw [collected_three] at ht
    obtain ⟨i,hi,rfl⟩ := List.mem_map.mp ht
    exact timeoutIn_sound (by simp only [setup]; grind)
  have hinj : Set.InjOn setup.sha256 {x | ∃ t ∈ collected (env 1 []) 1 threeCollected, x = t.toBytes} := by
    have hnodup : ((([2,3,4].map (timeoutIn 1)).map TimeoutMsg.toBytes).map setup.sha256).Nodup := by decide +kernel
    rintro - ⟨t,ht,rfl⟩ - ⟨u,hu,rfl⟩ h
    rw [collected_three] at ht hu
    exact List.inj_on_of_nodup_map hnodup (List.mem_map_of_mem ht) (List.mem_map_of_mem hu) h
  obtain ⟨q,hq⟩ := (aggregates_accepted setup).1 .fast (env 1 []) (env 2 []) 1 (timeoutsIn 1 [2,3]) (timeoutIn 1 4)
    twoCollected _ agg 0 ⟨1,by decide⟩ rfl hadv hagg (by decide +kernel) hsound hinj
  have hbls : ((blsAt 1).createAggregateQC 0 1 ([2,3,4].map (blsTimeoutIn 1))).any (fun e => e.isOk) = true := by
    decide +kernel
  obtain ⟨e,hcreate,hok⟩ := (Option.any_eq_true _ _).mp hbls
  rcases e with e | a
  · cases hok
  refine ⟨⟨_,agg,q,hadv,hagg,hq⟩,a,hcreate,fun r hr => ?_⟩
  have hview : ([2,3,4].map (blsTimeoutIn 1)).filter (fun t => t.view = 1) = [2,3,4].map (blsTimeoutIn 1) := rfl
  exact (aggregates_accepted setup).2 (curve 1) 1 _ _ 0 1 _ _ a (curveBilinear 1) ⟨1,by decide⟩ (fun _ _ => .refl _)
    blsTimeoutIn_gathered (hview ▸ .refl _) blsTimeoutIn_sound blsTimeoutIn_injOn hcreate (curve 2).mulSecret 2
    (fun _ l => l) r hr

private def carriesRefused : Effect → Bool
  | .sendNewView _ si => si.aggQC.any fun agg => setup.verifyAggregateQC agg = some none
  | _ => false

/-- Replica 1 is in view 1 when it gets the timeouts of three others for view 2. The aggregate that it sends to the
leader is for view 1, and the signatures do not fit. -/
theorem aggregate_not_accepted : ∃ (l : List (Env × Event)) (id : ID) (si : SyncInfo) (agg : AggregateQC),
    (∀ e ∈ l, ∃ m : TimeoutMsg, e.2 = .timeout m ∧ m.Valid setup ∧ m.Sound setup) ∧
    .sendNewView id si ∈ (run setup .fast (init setup 1) l).log ∧ si.aggQC = some agg ∧
    setup.verifyAggregateQC agg = some none := by
  have hany : (run setup .fast (init setup 1) (timeoutsIn 2 [2,3,4])).log.any carriesRefused = true := by decide +kernel
  obtain ⟨e,he,hbad⟩ := List.any_eq_true.mp hany
  cases e with
  | sendNewView id si =>
    obtain ⟨agg,hagg,hrefused⟩ := (Option.any_eq_true _ _).mp hbad
    refine ⟨timeoutsIn 2 [2,3,4],id,si,agg,fun e he => ?_,he,hagg,of_decide_eq_true hrefused⟩
    obtain ⟨i,hi,rfl⟩ := List.mem_map.mp he
    have hi' : i ∈ setup.replicas := by
      simp only [setup]
      grind
    refine ⟨_,rfl,?_,timeoutIn_sound hi'⟩
    change (decide (i ∈ setup.replicas) && decide (_ = _ ∧ _ = _)) = true
    rw [Bool.and_eq_true,decide_eq_true_iff,decide_eq_true_iff]
    exact ⟨hi',rfl,rfl⟩
  | _ => cases hbad

end Sample
end Hotstuff
