import Hotstuff.System.Certificates

/-! The network that agreement is stated for, and a state of the system read as a voting:
blocks with their certificate links and the votes that correct replicas have signed. -/
namespace Hotstuff
open Library Replica
variable {S : Setup}

def ProposeMsg.checks (S : Setup) (p : ProposeMsg) : List (EcdsaSignature × Hash) :=
  p.block.cert.sigs.map (fun g => (g,p.block.cert.hash)) ++ match p.aggQC with
    | none => []
    | some agg => agg.qcs.flatMap (fun e => ((ecdsaEntries agg.sig).filter (fun g => g.signer = e.1)).map
        (fun g => (g,(Setup.timeoutOf agg.view e).hash S)))

/-- A signature of a correct replica that verifies in an accepted proposal was made before
the proposal was handled. -/
def Unforgeable (F : Faults S) (σ : System) : Prop :=
  ∀ i p o, .handle p :: o <:+ (σ i).log → ∀ c ∈ p.checks S, S.verifyEcdsa c.1 c.2 = true →
    c.1.signer ∉ F.byzantine → Signed S (if c.1.signer = i then o else (σ c.1.signer).log) c.2

def Ideal.Up (I : Ideal S) (b a : Block) : Prop := a ∈ I.blocks ∧ a.hash S = b.cert.hash

def Ideal.voting (I : Ideal S) (F : Faults S) (σ : System) : Voting ID Block where
  toCommittee := F.committee
  view b := b.view.toNat
  root := genesis
  up := I.Up
  voted i b := .vote b ∈ (σ i).log

/-- Signatures are unforgeable and certified blocks can always be fetched. -/
structure Network (I : Ideal S) (F : Faults S) (env : Env) (σ : System) : Prop where
  unforgeable : Unforgeable F σ
  not_canceled : ∀ k, env.canceled k = false
  retrievable : ∀ b ∈ I.blocks, (I.voting F σ).Certified b → ∀ k, fetch S env k (b.hash S) ≠ none

def Grows (σ σ' : System) : Prop := ∀ i, (σ i).log <:+ (σ' i).log

structure Mid (R : RuleSet) (I : Ideal S) (F : Faults S) (env : Env) (σ : System) : Prop
    extends Network I F env σ where
  covers : I.Covers σ
  unambiguous : Set.InjOn Block.toBytes I.blocks
  recorded : ∀ i, Recorded S R (σ i)
  keyed : ∀ i, Keyed S (σ i)

section Voting
variable {R : RuleSet} {I : Ideal S} {F : Faults S} {σ σ' : System}

theorem Ideal.eq_of_hash (I : Ideal S) (hu : Set.InjOn Block.toBytes I.blocks) {a b : Block}
    (ha : a ∈ I.blocks) (hb : b ∈ I.blocks) (h : a.hash S = b.hash S) : a = b :=
  hu ha hb (I.bytes_of_hash ha hb h)

theorem Ideal.hash_ne_zero (I : Ideal S) {a : Block} (ha : a ∈ I.blocks) : a.hash S ≠ 0 :=
  I.not_view _ (.inl ⟨a,ha,rfl⟩) 0

theorem Grows.certified (h : Grows σ σ') {b : Block} (hb : (I.voting F σ).Certified b) :
    (I.voting F σ').Certified b :=
  hb.imp id fun ⟨Q,hQ,hv⟩ => ⟨Q,hQ,fun i hi hf => (h i).mem (hv i hi hf)⟩

section State
variable (hc : I.Covers σ) (hu : Set.InjOn Block.toBytes I.blocks) (hr : ∀ i, Recorded S R (σ i))
  (hf : Unforgeable F σ)
include hc hu hr

theorem vote_of_signed {i : ID} {o : List Effect} (ho : o <:+ (σ i).log) {b : Block} (hb : b ∈ I.blocks)
    (hs : Signed S o (b.hash S)) : .vote b ∈ o := by
  obtain ⟨a,ha,he⟩ := hc.vote_of_signed (hr i) ho hb hs
  rwa [← hu (hc.voted (hr i) (ho.mem ha)) hb he]

include hf

/-- The block that an accepted proposal's certificate names is the genesis block, or a quorum
voted for it, each correct member before it handled the proposal. -/
theorem quorum_of_handled {i : ID} {p : ProposeMsg} (hp : .handle p ∈ (σ i).log) {a : Block}
    (ha : I.Up p.block a) : a = genesis ∨ ∃ Q, F.committee.IsQuorum Q ∧
      ∀ j ∈ Q, j ∉ F.byzantine → .vote a ∈ (σ j).log ∧
        ∀ p' o, p'.block = p.block → .handle p' :: o <:+ (σ j).log → .vote a ∈ o := by
  obtain ⟨haI,hah⟩ := ha
  obtain ⟨env,k,hcheck⟩ := (hr i).checked hp
  have hv := verifyQuorumCert_of_checkCerts hcheck
  rw [Setup.verifyQuorumCert] at hv
  split_ifs at hv with hgen
  · exact .inl (I.eq_of_hash hu haI I.genesis_mem (hah.trans hgen))
  obtain ⟨Q,hQ,hval⟩ := exists_quorum_of_verify F hv
  refine .inr ⟨Q,hQ,fun j hj hjf => ?_⟩
  obtain ⟨g,hg,rfl,hgv⟩ := hval j hj
  have mem {p' : ProposeMsg} (hb : p'.block = p.block) : (g,p.block.cert.hash) ∈ p'.checks S :=
    List.mem_append_left _ (List.mem_map.mpr ⟨g,hb ▸ hg,by rw [hb]⟩)
  constructor
  · obtain ⟨o,ho⟩ := exists_suffix_of_mem hp
    have hs := hf i p o ho _ (mem rfl) hgv hjf
    rw [← hah] at hs
    split_ifs at hs with hi
    · have hoi := (List.suffix_cons _ _).trans ho
      rw [← show g.signer = i from hi] at hoi
      exact hoi.mem (vote_of_signed hc hu hr hoi haI hs)
    · exact vote_of_signed hc hu hr List.suffix_rfl haI hs
  · intro p' o hb ho
    have hs := hf g.signer p' o ho _ (mem hb) hgv hjf
    rw [if_pos rfl,← hah] at hs
    exact vote_of_signed hc hu hr ((List.suffix_cons _ _).trans ho) haI hs

/-- A state of the system is a voting in which certificates stand for earlier votes. -/
theorem voting_backed : (I.voting F σ).Backed where
  once i _ a b ha hb hv := (hr i).vote_unique ha hb (UInt64.toNat_inj.mp hv)
  above i _ b hb := UInt64.lt_iff_toNat_lt.mp ((hr i).view_pos hb)
  root_up a ha := I.hash_ne_zero ha.1 ha.2
  up_unique a a' b ha ha' := I.eq_of_hash hu ha.1 ha'.1 (ha.2.trans ha'.2.symm)
  backed i _ b hb a ha := by
    obtain ⟨p,rfl,hp⟩ := (hr i).handled hb
    refine (quorum_of_handled hc hu hr hf hp ha).imp id fun ⟨Q,hQ,hj⟩ => ⟨Q,hQ,fun j hjQ hjf => ?_⟩
    obtain ⟨hva,hbefore⟩ := hj j hjQ hjf
    refine ⟨hva,fun hvb => ?_⟩
    obtain ⟨o,ho⟩ := exists_suffix_of_mem hvb
    obtain ⟨-,hlt,-,p',hp',hm⟩ := (hr j).vote_follows ho
    obtain ⟨o',ho'⟩ := exists_suffix_of_mem hm
    have hvo := hbefore p' o' hp' (ho'.trans ((List.suffix_cons _ _).trans ho))
    exact UInt64.lt_iff_toNat_lt.mp (hlt a (ho'.mem (List.mem_cons_of_mem _ hvo)))

theorem certified_of_handled {i : ID} {p : ProposeMsg} (hp : .handle p ∈ (σ i).log) {a : Block}
    (ha : I.Up p.block a) : (I.voting F σ).Certified a :=
  (quorum_of_handled hc hu hr hf hp ha).imp id fun ⟨Q,hQ,hj⟩ => ⟨Q,hQ,fun j hjQ hjf => (hj j hjQ hjf).1⟩

end State
namespace Mid
variable {env : Env} (h : Mid R I F env σ)
include h

theorem backed : (I.voting F σ).Backed := voting_backed h.covers h.unambiguous h.recorded h.unforgeable

theorem up_of_mem {i : ID} {b a : Block} (ha : (b.cert.hash,a) ∈ (σ i).blocks) : I.Up b a :=
  ⟨h.covers.blocks i _ ha,h.keyed i _ ha⟩

theorem up_of_localGet {i : ID} {b a : Block} (ha : (σ i).localGet b.cert.hash = some a) : I.Up b a :=
  h.up_of_mem (localGet_mem ha)

theorem handled {i : ID} {p : ProposeMsg} (hp : .handle p ∈ (σ i).log) {a : Block} (ha : I.Up p.block a) :
    (I.voting F σ).Certified a :=
  certified_of_handled h.covers h.unambiguous h.recorded h.unforgeable hp ha

/-- A lookup that fails was not for a certified block. -/
theorem not_missing {b a : Block} (ha : I.Up b a) (hc : (I.voting F σ).Certified a) :
    ¬ Missing S env b.cert.hash := by
  rintro (hz | ⟨k,hk⟩)
  · exact I.hash_ne_zero ha.1 (ha.2.trans hz)
  · exact h.retrievable a ha.1 hc k (ha.2 ▸ hk)

end Mid

theorem Signed.mono {l l' : List Effect} (hl : l <:+ l') {h : Hash} (hs : Signed S l h) : Signed S l' h :=
  hs.imp fun _ he => ⟨hl.mem he.1,he.2⟩

section Middle
variable {i : ID} {s t : Replica}

theorem grows_update (h : (σ i).log <:+ t.log) : Grows σ (Function.update σ i t) :=
  (Function.forall_update_iff σ fun j s => (σ j).log <:+ s.log).mpr ⟨h,fun _ _ => List.suffix_rfl⟩

theorem Grows.update (h : t.log <:+ s.log) : Grows (Function.update σ i t) (Function.update σ i s) := by
  have hg : Grows (Function.update σ i t) (Function.update (Function.update σ i t) i s) :=
    grows_update (by simpa using h)
  rwa [Function.update_idem] at hg

theorem Unforgeable.mid (h : Unforgeable F σ) (h' : Unforgeable F (Function.update σ i s))
    (ht : (σ i).log <:+ t.log) (hs : t.log <:+ s.log) : Unforgeable F (Function.update σ i t) := by
  intro j p o ho c hcm hv hf
  by_cases hj : j = i
  · subst hj
    rw [Function.update_self] at ho
    have hsig := h' j p o (by simpa using ho.trans hs) c hcm hv hf
    split_ifs at hsig ⊢ with hself
    · exact hsig
    · rwa [Function.update_of_ne hself] at hsig ⊢
  · rw [Function.update_of_ne hj] at ho
    have hsig := h j p o ho c hcm hv hf
    split_ifs at hsig ⊢ with hself
    · exact hsig
    · exact hsig.mono (grows_update ht _)

theorem Ideal.Covers.mid (h : I.Covers (Function.update σ i s)) (hl : t.log <:+ s.log)
    (hb : t.blocks <:+ s.blocks) : I.Covers (Function.update σ i t) := by
  let stored (_ : ID) (r : Replica) : Prop := ∀ e ∈ r.blocks, e.2 ∈ I.blocks
  let signed (_ : ID) (r : Replica) : Prop := ∀ m, .signTimeout m ∈ r.log → m ∈ I.timeouts
  obtain ⟨hs,hstored⟩ := (Function.forall_update_iff σ stored).mp h.blocks
  obtain ⟨ht,hsigned⟩ := (Function.forall_update_iff σ signed).mp h.timeouts
  exact ⟨(Function.forall_update_iff σ stored).mpr ⟨fun e he => hs e (hb.mem he),hstored⟩,
    (Function.forall_update_iff σ signed).mpr ⟨fun m hm => ht m (hl.mem hm),hsigned⟩⟩

end Middle

/-- Every step of the run met the network assumptions. -/
abbrev Runs (R : RuleSet) (I : Ideal S) (F : Faults S) : System → Prop :=
  Reachable R F fun _ st σ' => Network I F st.env σ'

theorem Reachable.unforgeable (h : Runs R I F σ) : Unforgeable F σ := by
  rcases h.cases_tail with rfl | ⟨_,-,st,-,-,-,hok⟩
  · intro i p o ho
    simp [System.init,Replica.init] at ho
  · exact hok.unforgeable

theorem Reachable.keyed (h : Runs R I F σ) : ∀ i, Keyed S (σ i) := by
  induction h with
  | refl => exact keyed_init
  | tail _ ht ih =>
    obtain ⟨st,-,-,rfl,hok⟩ := ht
    exact System.step_each ((handle_micro st.event _).keyed hok.not_canceled (ih st.replica)) ih

/-- An invariant of each replica that may refer to all logs, from the small steps of one of
them. `C` is a condition on the run that is inherited by the states before. -/
theorem Reachable.invariant {P : System → Replica → Option Block → Prop} {C : System → Prop}
    (hinit : ∀ i, P (System.init S) (Replica.init S i) none)
    (hmono : ∀ σ σ' s x, Grows σ σ' → P σ s x → P σ' s x) (hC : ∀ σ σ', Grows σ σ' → C σ' → C σ)
    (hstep : ∀ i env σ u x y, Micro S R env (fun _ => True) (σ i,x) (u,y) →
      Mid R I F env (Function.update σ i u) → C (Function.update σ i u) →
      (∀ j, P σ (σ j) (if j = i then x else none)) → P (Function.update σ i u) u y)
    (hu : Set.InjOn Block.toBytes I.blocks) (h : Runs R I F σ) (hc : I.Covers σ) (hCσ : C σ) :
    ∀ i, P σ (σ i) none := by
  induction h with
  | refl => exact hinit
  | @tail σ σ' hr ht ih =>
    have hg : Grows σ σ' := fun i => (ht.grows i).1
    have ih := ih (hc.back ht) (hC _ _ hg hCσ)
    have hrec := Reachable.recorded hr
    have hkey := Reachable.keyed hr
    have hunf := Reachable.unforgeable hr
    obtain ⟨st,-,-,rfl,hnet⟩ := ht
    set i := st.replica with hi
    set s' := handle S R st.env st.event (σ i) with hs'
    change I.Covers (Function.update σ i s') at hc
    change Network I F st.env (Function.update σ i s') at hnet
    change C (Function.update σ i s') at hCσ
    change ∀ j, P (Function.update σ i s') (Function.update σ i s' j) none
    have hrun : Steps S R st.env (fun _ => True) (σ i,none) (s',none) := handle_micro st.event (σ i)
    -- the small steps of this event, each before a state that meets the assumptions
    have key := invariant_of_below (fun a : Phase => a.1.log <:+ s'.log ∧ a.1.blocks <:+ s'.blocks)
      (fun a : Phase => (σ i).log <:+ a.1.log ∧ Recorded S R a.1 ∧ Keyed S a.1 ∧ ∀ j,
        P (Function.update σ i a.1) (Function.update σ i a.1 j) (if j = i then a.2 else none)) hrun
      ⟨List.suffix_rfl,List.suffix_rfl⟩
      (fun a b hm hb => ⟨hm.grows.1.trans hb.1,hm.grows.2.1.trans hb.2⟩) ?_
      ⟨List.suffix_rfl,hrec i,hkey i,by simpa using ih⟩
    · simpa using key.2.2.2
    · rintro ⟨t,x⟩ ⟨u,y⟩ hm ⟨hlog,hblocks⟩ ⟨hst,hrt,hkt,hP⟩
      have hsu := hst.trans hm.grows.1
      have hru := hm.recorded hrt
      have hku := Steps.keyed hnet.not_canceled (.single hm) hkt
      have each {Q : Replica → Prop} (hQ : ∀ j, Q (σ j)) (hi : Q u) : ∀ j, Q (Function.update σ i u j) :=
        (Function.forall_update_iff σ fun _ => Q).mpr ⟨hi,fun j _ => hQ j⟩
      have hmid : Mid R I F st.env (Function.update σ i u) :=
        { unforgeable := hunf.mid hnet.unforgeable hsu hlog
          not_canceled := hnet.not_canceled
          retrievable := fun b hb hcert => hnet.retrievable b hb ((Grows.update hlog).certified hcert)
          covers := hc.mid hlog hblocks
          unambiguous := hu
          recorded := each hrec hru
          keyed := each hkey hku }
      have hgu : Grows (Function.update σ i t) (Function.update σ i u) := Grows.update hm.grows.1
      refine ⟨hsu,hru,hku,fun j => ?_⟩
      by_cases hj : j = i
      · subst hj
        have := hstep i st.env (Function.update σ i t) u x y (by simpa using hm)
          (by simpa using hmid) (by simpa using hC _ _ (Grows.update hlog) hCσ) hP
        simpa using this
      · have := hmono _ _ _ _ hgu (hP j)
        simpa [Function.update_of_ne hj,hj] using this

end Voting
section Test
variable {R : RuleSet}

def unforgeableTest (S : Setup) (faulty : Finset ID) (ids : List ID) (σ : System) : Bool :=
  ids.all fun i => (σ i).log.tails.all fun
    | .handle p :: o => (p.checks S).all fun c =>
        !S.verifyEcdsa c.1 c.2 || decide (c.1.signer ∈ faulty) ||
          (if c.1.signer = i then o else (σ c.1.signer).log).any fun e => e.signedHash S = some c.2
    | _ => true

theorem unforgeable_of_test (F : Faults S) {ids : List ID} {σ : System} (hw : σ.Within S ids)
    (h : unforgeableTest S F.byzantine ids σ = true) : Unforgeable F σ := by
  intro i p o ho c hc hv hf
  by_cases hi : i ∈ ids
  · have ht := List.all_eq_true.mp (List.all_eq_true.mp h i hi) _ ((List.mem_tails _ _).mpr ho)
    have hsig := List.all_eq_true.mp ht c hc
    simp only [hv,hf,Bool.not_true,decide_false,Bool.or_self,Bool.false_or,List.any_eq_true,
      decide_eq_true_eq] at hsig
    exact hsig
  · rw [hw i hi] at ho
    simp [Replica.init] at ho

def replays (S : Setup) (R : RuleSet) (faulty : Finset ID) (ids : List ID) : System → List Step → Bool
  | _, [] => true
  | σ, st :: steps => decide (st.replica ∈ ids) && unforgeableTest S faulty ids (σ.step S R st) &&
      replays S R faulty ids (σ.step S R st) steps

def Env.Serves (S : Setup) (I : Ideal S) (env : Env) : Prop :=
  (∀ k, env.canceled k = false) ∧ ∀ b ∈ I.blocks, ∀ k, fetch S env k (b.hash S) ≠ none

theorem runs_of_replays {I : Ideal S} {F : Faults S} {ids : List ID}
    (hids : ∀ i ∈ ids, i ∈ S.replicas ∧ i ∉ F.byzantine) {σ : System} (hr : Runs R I F σ)
    (hw : σ.Within S ids) {steps : List Step} (henv : ∀ st ∈ steps, st.env.Serves S I)
    (h : replays S R F.byzantine ids σ steps = true) :
    Runs R I F (σ.run S R steps) ∧ (σ.run S R steps).Within S ids := by
  induction steps generalizing σ with
  | nil => exact ⟨hr,hw⟩
  | cons st steps ih =>
    simp only [replays,Bool.and_eq_true,decide_eq_true_eq] at h
    obtain ⟨⟨hst,hunf⟩,hrest⟩ := h
    obtain ⟨hc,hf⟩ := henv st List.mem_cons_self
    have hw' : (σ.step S R st).Within S ids := hw.step hst
    have hok : Network I F st.env (σ.step S R st) :=
      ⟨unforgeable_of_test F hw' hunf,hc,fun b hb _ k => hf b hb k⟩
    exact ih (hr.tail ⟨st,(hids _ hst).1,(hids _ hst).2,rfl,hok⟩) hw'
      (fun st' hst' => henv st' (List.mem_cons_of_mem _ hst')) hrest

end Test

namespace Sample

def runTest (R : RuleSet) (known : List Block) (l : List (ID × Block)) : Bool :=
  decide (genesis ∈ known) && collisionTest setup known && coversTest known [1,2,3] (after R known l) &&
    replays setup R {4} [1,2,3] (System.init setup) (deliver known l)

/-- A run that passes the test meets the assumptions on signatures, hashes and retrieval. -/
theorem runs_of_test {R : RuleSet} {known : List Block} {l : List (ID × Block)}
    (h : runTest R known l = true) : ∃ I : Ideal setup, (∀ b, b ∈ I.blocks ↔ b ∈ known) ∧
      Runs R I faults (after R known l) ∧ I.Covers (after R known l) ∧ (after R known l).Within setup [1,2,3] := by
  simp only [runTest,Bool.and_eq_true,decide_eq_true_eq] at h
  obtain ⟨⟨⟨hg,hcol⟩,hcov⟩,hrep⟩ := h
  refine ⟨.ofList known hg digest_ne_view hcol,fun _ => .rfl,?_⟩
  have henv : ∀ st ∈ deliver known l, st.env.Serves setup (.ofList known hg digest_ne_view hcol) := by
    intro st hst
    obtain ⟨e,-,rfl⟩ := List.mem_map.mp hst
    refine ⟨fun _ => rfl,fun b hb k hn => ?_⟩
    rw [fetch] at hn
    split at hn
    · cases hn
    · rename_i hnone
      exact absurd (List.find?_eq_none.mp hnone b hb) (by simp)
  obtain ⟨hruns,hw⟩ := runs_of_replays (F := faults) correct_replicas .refl (fun _ _ => rfl) henv hrep
  exact ⟨hruns,covers_of_test (fun b hb => hb) hw hcov,hw⟩

end Sample
end Hotstuff
