import Hotstuff.System.Locking

/-! Agreement for FastHotStuff. There is no lock: after a timeout an aggregate has to name a
certificate as high as any that a quorum had seen, which holds once the views written
beside certificates and aggregates are the true ones. -/
namespace Hotstuff
open Library Replica
variable {S : Setup}

section Aggregate
variable {t : EcdsaThreshold} {hashes : List (ID × Hash)} {seen : List Hash}

/-- One verification is started per entry of the message set, under that entry's signer. -/
private theorem startedFor_map {st : List (EcdsaSignature × Hash)}
    (h : Setup.startedFor t hashes seen = some st) :
    st.map (fun x => (x.1.signer,x.2)) = hashes ∧ ∀ x ∈ st, x.1 ∈ t.entries := by
  induction hashes generalizing seen st with
  | nil =>
    cases h
    simp
  | cons e hashes ih =>
    obtain ⟨id,hash⟩ := e
    rw [Setup.startedFor] at h
    split_ifs at h
    split at h
    · cases h
    · rename_i g hg
      obtain ⟨st',hst',rfl⟩ := Option.map_eq_some_iff.mp h
      obtain ⟨hm,hmem⟩ := ih hst'
      have hid : g.signer = id := by simpa using List.find?_some hg
      refine ⟨by simp [hm,hid],fun x hx => ?_⟩
      rcases List.mem_cons.mp hx with rfl | hx
      · exact List.mem_of_find?_eq_some hg
      · exact hmem x hx

/-- A verified aggregate has a quorum of senders whose entry carries their valid signature. -/
theorem exists_quorum_of_messageSet (F : Faults S) {sig : Option ThresholdSignature}
    (hn : (hashes.map Prod.fst).Nodup)
    (hv : S.verifyThresholdSignatureForMessageSet sig hashes = some true) :
    ∃ Q, F.committee.IsQuorum Q ∧ ∀ i ∈ Q, ∃ h, (i,h) ∈ hashes ∧
      ∃ g ∈ ecdsaEntries sig, g.signer = i ∧ S.verifyEcdsa g h = true := by
  rcases sig with _ | t | a
  · cases hv
  · simp only [Setup.verifyThresholdSignatureForMessageSet] at hv
    split at hv
    · cases hv
    · rename_i st hst
      split_ifs at hv
      obtain ⟨hmap,hmem⟩ := startedFor_map hst
      set valid := st.filter (fun x => S.verifyEcdsa x.1 x.2) with hvalid
      have mem (i : ID) (hi : i ∈ (valid.map (fun x => x.1.signer)).toFinset) : ∃ h, (i,h) ∈ hashes ∧
          ∃ g ∈ t.entries, g.signer = i ∧ S.verifyEcdsa g h = true := by
        obtain ⟨x,hx,rfl⟩ := List.mem_map.mp (List.mem_toFinset.mp hi)
        obtain ⟨hx,hxv⟩ := List.mem_filter.mp hx
        exact ⟨x.2,hmap ▸ List.mem_map.mpr ⟨x,hx,rfl⟩,x.1,hmem x hx,rfl,hxv⟩
      refine ⟨(valid.map (fun x => x.1.signer)).toFinset,⟨fun i hi => ?_,?_⟩,mem⟩
      · obtain ⟨h,-,g,-,rfl,hgv⟩ := mem i hi
        simp only [Setup.verifyEcdsa,Bool.and_eq_true,decide_eq_true_eq] at hgv
        exact hgv.1
      · have hnodup : (valid.map (fun x => x.1.signer)).Nodup := by
          rw [← hmap,List.map_map] at hn
          exact (List.filter_sublist.map _).nodup hn
        rw [List.toFinset_card_of_nodup hnodup,List.length_map]
        exact of_decide_eq_true (Option.some.inj hv)
  · cases hv

theorem QuorumCert.fields_of_equals {q q' : QuorumCert} (h : q.equals q' = true) :
    q.view = q'.view ∧ q.hash = q'.hash := by
  rw [QuorumCert.equals] at h
  split_ifs at h with hv hh
  exact ⟨not_not.mp hv,not_not.mp hh⟩

/-- What the checks of a proposal with an aggregate establish, whatever the order in which the
certificate map was read. -/
theorem quorum_of_aggregate (F : Faults S) {env : Env} {p : ProposeMsg} {k : Nat} {agg : AggregateQC}
    (hp : p.aggQC = some agg) (h : checkCerts S .fast env p k = some true) :
    ∃ Q, F.committee.IsQuorum Q ∧ ∀ i ∈ Q, ∃ qc, (i,qc) ∈ agg.qcs ∧ qc.view ≤ p.block.cert.view ∧
      ∃ g ∈ ecdsaEntries agg.sig, g.signer = i ∧
        S.verifyEcdsa g ((Setup.timeoutOf agg.view (i,qc)).hash S) = true := by
  simp only [checkCerts,RuleSet.useAggQC,if_true,hp] at h
  split at h
  · cases h
  · cases h
  rename_i high hver
  simp only [Option.some.injEq,Bool.and_eq_true] at h
  have hview := (QuorumCert.fields_of_equals h.1).1
  rw [Setup.verifyAggregateQC] at hver
  split at hver
  · cases hver
  · cases hver
  rename_i hms
  split at hver
  · rename_i q hq
    obtain rfl : q = high := by
      split_ifs at hver
      · exact Option.some.inj (Option.some.inj hver)
      · simp at hver
    have hperm : ((reorder env agg k).qcs).Perm agg.qcs := env.qcOrder_perm k agg.qcs
    obtain ⟨Q,hQ,hmem⟩ := exists_quorum_of_messageSet F (by
      rw [List.map_map]
      exact (reorder env agg k).nodup) hms
    refine ⟨Q,hQ,fun i hi => ?_⟩
    obtain ⟨hash,hhash,g,hg,hgs,hgv⟩ := hmem i hi
    obtain ⟨e,he,heq⟩ := List.mem_map.mp hhash
    cases heq
    exact ⟨e.2,hperm.mem_iff.mp he,hview ▸ Setup.le_highest hq he,g,hg,hgs,hgv⟩
  · cases hver

end Aggregate
variable {I : Ideal S} {F : Faults S} {σ σ' : System}

def Ideal.Below (I : Ideal S) (log : List Effect) (x : Option Block) (hash : Hash) : Prop :=
  ∃ q ∈ I.blocks, q.hash S = hash ∧
    ∀ b, .vote b ∈ log → some b ≠ x → ∀ a, I.Up b a → a.view ≤ q.view

def Ideal.FastVote (I : Ideal S) (log : List Effect) (b : Block) : Prop :=
  ∃ p, p.block = b ∧ .handle p ∈ log ∧ match p.aggQC with
    | some _ => ∃ a, I.Up b a ∧ Relation.ReflTransGen I.Parent b a
    | none => b.view = b.cert.view + 1

/-- The high QC of a replica, up to the block it has yet to settle, and with it the
certificates that it reported in timeouts, are as high as the parents of its votes. -/
structure Raised (I : Ideal S) (s : Replica) (x : Option Block) : Prop where
  raised : s.halted = true ∨ I.Below s.log x s.highQC.hash
  timeouts : ∀ m o, .signTimeout m :: o <:+ s.log →
    ∃ qc, m.syncInfo.qc = some qc ∧ I.Below o none qc.hash
  votes : ∀ b, .vote b ∈ s.log → I.FastVote s.log b

theorem Ideal.FastVote.mono {l l' : List Effect} (h : l <:+ l') {b : Block} (hb : I.FastVote l b) :
    I.FastVote l' b := hb.imp fun _ hp => ⟨hp.1,h.mem hp.2.1,hp.2.2⟩

/-- Steps that add no vote and no timeout and leave the high QC alone. -/
private theorem Raised.keep {s t : Replica} {x : Option Block} {l : List Effect} (h : Raised I s x)
    (hq : t.highQC = s.highQC) (hh : s.halted = true → t.halted = true) (hl : t.log = l ++ s.log)
    (hv : ∀ b, .vote b ∉ l) (ht : ∀ m, .signTimeout m ∉ l) : Raised I t x := by
  have old {b : Block} (hb : .vote b ∈ t.log) : .vote b ∈ s.log := by
    rw [hl,List.mem_append] at hb
    exact hb.resolve_left (hv b)
  refine ⟨?_,fun m o ho => ?_,fun b hb => ?_⟩
  · exact h.raised.imp hh fun ⟨q,hq',hqh,hle⟩ => ⟨q,hq',hq ▸ hqh,fun b hb => hle b (old hb)⟩
  · exact h.timeouts m o (suffix_of_append (hl ▸ ho) (ht m))
  · exact (h.votes b (old hb)).mono (hl ▸ List.suffix_append _ _)

private theorem parent_of_path {env : Env} (m : Mid .fast I F env σ) {i : ID} {s : Replica}
    (hblocks : s.blocks <:+ (σ i).blocks) {t b : Block} (ht : t ∈ I.blocks) (hb : b ∈ I.blocks)
    (h : Path S s t b) : Relation.ReflTransGen I.Parent b t := by
  induction h with
  | here _ hh =>
    rw [I.eq_of_hash m.unambiguous hb ht hh]
  | up _ ha _ ih =>
    have hmem := hblocks.mem (localGet_mem ha)
    have haI := m.covers.blocks i _ hmem
    exact .head ⟨haI,m.keyed i _ hmem⟩ (ih haI)

private theorem fastVote_of_mayVote {env : Env} (m : Mid .fast I F env σ) {i : ID} {p : ProposeMsg}
    {s : Replica} (hblocks : s.blocks <:+ (σ i).blocks) (hb : p.block ∈ I.blocks) (hp : .handle p ∈ s.log)
    (hmay : MayVote S .fast p s) : I.FastVote s.log p.block := by
  refine ⟨p,rfl,hp,?_⟩
  simp only [MayVote] at hmay
  split
  · rename_i agg hagg
    simp only [hagg] at hmay
    obtain ⟨a,ha,hpath⟩ := hmay
    have hua := m.up_of_mem (hblocks.mem (localGet_mem ha))
    exact ⟨a,hua,parent_of_path m hblocks hua.1 hb hpath⟩
  · rename_i hagg
    simp only [hagg] at hmay
    exact hmay.2

private theorem below_of_settled {env : Env} (m : Mid .fast I F env σ) {i : ID} {b : Block}
    (hb : .vote b ∈ (σ i).log) (hs : Settled S env .fast b (σ i)) {a q : Block} (ha : I.Up b a)
    (hq : q ∈ I.blocks) (hqh : q.hash S = (σ i).highQC.hash) : a.view ≤ q.view := by
  obtain ⟨p,rfl,hp⟩ := (m.recorded i).handled hb
  rcases hs with hs | ⟨a',q',ha',hq',hle⟩
  · exact absurd hs (m.not_missing ha (m.handled hp ha))
  · obtain rfl := m.backed.up_unique _ _ _ (m.up_of_localGet ha') ha
    have hqI := m.covers.blocks i _ (localGet_mem hq')
    have hqe := (m.keyed i).hash_eq hq'
    rwa [I.eq_of_hash m.unambiguous hq hqI (hqh.trans hqe.symm)]

private theorem Raised.stopVoting {s : Replica} {l : List Effect} {v : View} (h : Raised I s none)
    (hs : s.halted = false) (hl : ∀ e ∈ l, ∃ m, e = .signTimeout m ∧ m.syncInfo.qc = some s.highQC) :
    Raised I { s with lastVote := v, log := l ++ s.log } none := by
  have hvote {o : List Effect} (ho : o <:+ l ++ s.log) {b : Block} (hb : .vote b ∈ o) : .vote b ∈ s.log := by
    refine (List.mem_append.mp (ho.mem hb)).resolve_left fun hm => ?_
    obtain ⟨_,he,-⟩ := hl _ hm
    cases he
  obtain ⟨q,hq,hqh,hle⟩ := h.raised.resolve_left (by simp [hs])
  have below {o : List Effect} (ho : o <:+ l ++ s.log) : I.Below o none s.highQC.hash :=
    ⟨q,hq,hqh,fun b hb => hle b (hvote ho hb)⟩
  refine ⟨.inr (below List.suffix_rfl),fun m o ho => ?_,fun b hb => ?_⟩
  · by_cases hm : .signTimeout m ∈ l
    · obtain ⟨m',he,hqc⟩ := hl _ hm
      cases he
      exact ⟨_,hqc,below ((List.suffix_cons _ _).trans ho)⟩
    · exact h.timeouts m o (suffix_of_append ho hm)
  · exact (h.votes b (hvote List.suffix_rfl hb)).mono (List.suffix_append _ _)

private theorem Raised.micro {env : Env} {i : ID} {s u : Replica} {x y : Option Block} (hi : σ i = u)
    (hm : Micro S .fast env (fun _ => True) (s,x) (u,y)) (m : Mid .fast I F env σ) (h : Raised I s x) :
    Raised I u y := by
  have hblocks : s.blocks <:+ (σ i).blocks := hi ▸ hm.grows.2.1
  cases hm with
  | look hf => exact h.keep (l := []) hf.highQC_eq (fun hh => hf.halted_eq ▸ hh) hf.log_eq (by simp) (by simp)
  | stop => exact h.keep (l := []) rfl (fun _ => rfl) rfl (by simp) (by simp)
  | note l hl => exact h.keep rfl id rfl (fun b hb => by cases hl _ hb) (fun b hb => by cases hl _ hb)
  | check p => exact h.keep (l := [_]) rfl id rfl (by simp) (by simp)
  | decide p => exact h.keep (l := [_]) rfl id rfl (by simp) (by simp)
  | commit => exact h.keep rfl id rfl (by simp) (by simp)
  | enter v t => exact h.keep (l := [_]) rfl id rfl (by simp) (by simp)
  | stopVoting l hs hl => exact h.stopVoting hs fun e he => (hl e he).imp fun m hm => ⟨hm.1,hm.2.2.2⟩
  | vote p hs hp hv hmay =>
    have hvote : .vote p.block ∈ (σ i).log := hi ▸ List.mem_cons_self
    have hb : p.block ∈ I.blocks := m.covers.voted (m.recorded i) hvote
    obtain ⟨q,hq,hqh,hle⟩ := h.raised.resolve_left (by simp [hs])
    refine ⟨.inr ⟨q,hq,hqh,fun b hbm hne => ?_⟩,fun m o ho => ?_,fun b hbm => ?_⟩
    · refine hle b ((List.mem_cons.mp hbm).resolve_left fun he => ?_) (by simp)
      cases he
      exact hne rfl
    · exact h.timeouts m o (suffix_of_append (l := [_]) ho (by simp))
    · rcases List.mem_cons.mp hbm with he | hbm
      · cases he
        exact (fastVote_of_mayVote m hblocks hb hp hmay).mono (List.suffix_cons _ _)
      · exact (h.votes b hbm).mono (List.suffix_cons _ _)
  | @high _ _ qc b old hv _ hb hold hlt =>
    have hbI := hblocks.mem (localGet_mem hb)
    have holdI := hblocks.mem (localGet_mem hold)
    have hbm : b ∈ I.blocks := m.covers.blocks i (qc.hash,b) hbI
    have hbh : b.hash S = qc.hash := m.keyed i (qc.hash,b) hbI
    refine ⟨h.raised.imp id fun ⟨q,hq,hqh,hle⟩ => ⟨b,hbm,hbh,fun c hc hne a ha => ?_⟩,
      h.timeouts,h.votes⟩
    rw [I.eq_of_hash m.unambiguous hq (m.covers.blocks i _ holdI) (hqh.trans (m.keyed i _ holdI).symm)] at hle
    exact UInt64.le_trans (hle c hc hne a ha) (UInt64.le_of_lt hlt)
  | @settle _ b hs =>
    refine ⟨?_,h.timeouts,h.votes⟩
    rcases hs with hs | hs
    · exact .inl hs
    · refine h.raised.imp id fun ⟨q,hq,hqh,hle⟩ => ⟨q,hq,hqh,fun c hc _ a ha => ?_⟩
      by_cases hcb : c = b
      · subst hcb
        subst hi
        exact below_of_settled m hc hs ha hq hqh
      · exact hle c hc (by simpa using hcb) a ha
  | _ => exact h.keep (l := []) rfl id rfl (by simp) (by simp)

/-- The high QC invariant in every state of a FastHotStuff run. -/
theorem raised_of_runs (hu : Set.InjOn Block.toBytes I.blocks) (h : Runs .fast I F σ) (hc : I.Covers σ)
    (i : ID) : Raised I (σ i) none := by
  refine Reachable.invariant (P := fun _ => Raised I) (C := fun _ => True) (fun i => ?_)
    (fun _ _ _ _ _ h => h) (fun _ _ _ h => h)
    (fun i env σ u x y hm m _ ih => ?_) hu h hc trivial i
  · have hg : (genesis.hash S) = S.genesisHash := rfl
    exact ⟨.inr ⟨genesis,I.genesis_mem,hg,by simp [Replica.init]⟩,
      by simp [Replica.init],by simp [Replica.init]⟩
  · have hself : Raised I (σ i) x := by simpa using ih i
    exact hself.micro (Function.update_self i u σ) hm m

def Ideal.Carries (I : Ideal S) (qc : QuorumCert) : Prop :=
  ∃ a ∈ I.blocks, a.hash S = qc.hash ∧ a.view = qc.view

/-- The views beside the certificates of a proposal are true, an aggregate is from the view
before, and without one the parent is the certified block. -/
def Ideal.Faithful (I : Ideal S) (p : ProposeMsg) : Prop :=
  I.Carries p.block.cert ∧ match p.aggQC with
    | none => p.block.parent = p.block.cert.hash
    | some agg => p.block.view = agg.view + 1 ∧ ∀ e ∈ agg.qcs, I.Carries e.2

def Ideal.CoversAggregates (I : Ideal S) (σ : System) : Prop :=
  ∀ i p agg, .handle p ∈ (σ i).log → p.aggQC = some agg → ∀ e ∈ agg.qcs,
    Setup.timeoutOf agg.view e ∈ I.timeouts

/-- A signature on the hash of a timeout message was made for a timeout with the same bytes. -/
theorem timeout_of_signed (hc : I.Covers σ) {i : ID} (hi : Recorded S .fast (σ i)) {m : TimeoutMsg}
    (hm : m ∈ I.timeouts) (hs : Signed S (σ i).log (m.hash S)) :
    ∃ m', .signTimeout m' ∈ (σ i).log ∧ m'.toBytes = m.toBytes := by
  obtain ⟨e,he,hsig⟩ := hs
  cases e with
  | vote b =>
    have hb := I.injOn (.inl ⟨b,hc.voted hi he,rfl⟩) (.inr ⟨m,hm,rfl⟩) (Option.some.inj hsig)
    exact absurd hb (b.toBytes_ne_timeout m)
  | signView v => exact absurd (Option.some.inj hsig).symm (I.not_view _ (.inr ⟨m,hm,rfl⟩) v)
  | signTimeout m' =>
    exact ⟨m',he,I.injOn (.inr ⟨m',hc.timeouts i m' he,rfl⟩) (.inr ⟨m,hm,rfl⟩) (Option.some.inj hsig)⟩
  | _ => cases hsig

section Safety
variable (hu : Set.InjOn Block.toBytes I.blocks) (h : Runs .fast I F σ) (hc : I.Covers σ)
include hu h hc

/-- A member of an aggregate's quorum had no vote with a parent above the certificate that
the aggregate settles on. -/
private theorem le_of_aggregate (hagg : I.CoversAggregates σ) {i : ID} {p : ProposeMsg} {agg : AggregateQC}
    (hp : .handle p ∈ (σ i).log) (hpa : p.aggQC = some agg) (hf : I.Faithful p) {a : Block}
    (ha : I.Up p.block a) : ∃ Q, F.committee.IsQuorum Q ∧ ∀ j ∈ Q, j ∉ F.byzantine →
      ∀ b', .vote b' ∈ (σ j).log → b'.view ≤ agg.view → ∀ a', I.Up b' a' → a'.view ≤ a.view := by
  have hrec := Reachable.recorded h
  obtain ⟨env,k,hcheck⟩ := (hrec i).checked hp
  obtain ⟨Q,hQ,hmem⟩ := quorum_of_aggregate F hpa hcheck
  refine ⟨Q,hQ,fun j hj hjf b' hb' hle a' ha' => ?_⟩
  obtain ⟨qc,hqc,hqcv,g,hg,rfl,hgv⟩ := hmem j hj
  simp only [Ideal.Faithful,hpa] at hf
  obtain ⟨⟨c,hcI,hch,hcv⟩,-,hcarry⟩ := hf
  obtain ⟨q,hqI,hqh,hqv⟩ := hcarry _ hqc
  obtain rfl := I.eq_of_hash hu hcI ha.1 (hch.trans ha.2.symm)
  have hsigned : Signed S (σ g.signer).log ((Setup.timeoutOf agg.view (g.signer,qc)).hash S) := by
    obtain ⟨o,ho⟩ := exists_suffix_of_mem hp
    have hck : (g,(Setup.timeoutOf agg.view (g.signer,qc)).hash S) ∈ p.checks S := by
      rw [ProposeMsg.checks,hpa]
      refine List.mem_append_right _ (List.mem_flatMap.mpr ⟨_,hqc,List.mem_map.mpr ⟨g,?_,rfl⟩⟩)
      exact List.mem_filter.mpr ⟨hg,by simp⟩
    have hs := Reachable.unforgeable h i p o ho _ hck hgv hjf
    split_ifs at hs with hself
    · rw [← show g.signer = i from hself] at ho
      exact hs.mono ((List.suffix_cons _ _).trans ho)
    · exact hs
  obtain ⟨m,hm,hbytes⟩ := timeout_of_signed hc (hrec _) (hagg i p agg hp hpa _ hqc) hsigned
  obtain ⟨hmv,hmq,-⟩ := TimeoutMsg.toBytes_inj hbytes
  obtain ⟨o,ho⟩ := exists_suffix_of_mem hm
  obtain ⟨qc',hqc',q',hqI',hqh',hbelow⟩ := (raised_of_runs hu h hc g.signer).timeouts m o ho
  -- the member voted for `b'` before it reported its high QC, which covered that vote
  have hb'o := (hrec _).vote_before_timeout hb' ho (hmv ▸ hle)
  have hqq : q' = q := by
    refine I.eq_of_hash hu hqI' hqI (hqh'.trans (Eq.trans ?_ hqh.symm))
    simpa [hqc',Setup.timeoutOf] using hmq
  subst hqq
  calc a'.view ≤ q'.view := hbelow b' hb'o (by simp) a' ha'
    _ = qc.view := hqv
    _ ≤ p.block.cert.view := hqcv
    _ = c.view := hcv.symm

/-- With true views beside its certificates a FastHotStuff run is safe for two-chains. -/
theorem fast_safe (hagg : I.CoversAggregates σ) (hf : ∀ i p, .handle p ∈ (σ i).log → I.Faithful p) :
    (I.voting F σ).Safe 1 where
  toBacked := voting_backed hc hu (Reachable.recorded h) (Reachable.unforgeable h)
  recent b hb hne := by
    have hback := voting_backed hc hu (Reachable.recorded h) (Reachable.unforgeable h)
    obtain ⟨i,-,-,hv⟩ := hb.exists_voter hne
    obtain ⟨p,rfl,hp,hrule⟩ := (raised_of_runs hu h hc i).votes b hv
    have hfp := hf i p hp
    cases hpa : p.aggQC with
    | none =>
      simp only [hpa] at hrule
      obtain ⟨⟨a,haI,hah,hav⟩,-⟩ := hfp
      have ha : I.Up p.block a := ⟨haI,hah⟩
      exact ⟨a,ha,.inl (toNat_of_succ (hav ▸ hrule) (hback.up_certified hb ha).2)⟩
    | some agg =>
      simp only [hpa] at hrule
      obtain ⟨a,ha,-⟩ := hrule
      obtain ⟨Q,hQ,hle⟩ := le_of_aggregate hu h hc hagg hp hpa hfp ha
      refine ⟨a,ha,.inr ⟨Q,hQ,fun j hj hjf b' hb' hlt x hx => ?_⟩⟩
      obtain ⟨a',ha',rfl⟩ := hx
      have hview : p.block.view = agg.view + 1 := by
        simp only [Ideal.Faithful,hpa] at hfp
        exact hfp.2.1
      refine UInt64.le_iff_toNat_le.mp (hle j hj hjf b' hb' ?_ a' ha')
      have hlt' : b'.view.toNat < (agg.view.toNat + 1) % 2^64 := by
        rw [show (agg.view.toNat + 1) % 2^64 = p.block.view.toNat by rw [hview,UInt64.toNat_add]; rfl]
        exact hlt
      exact UInt64.le_iff_toNat_le.mpr (by omega)

theorem decided_of_fast {i : ID} {b c : Block} (hd : .decide b c ∈ (σ i).log) :
    (I.voting F σ).Decided 1 c := by
  have hb := voting_backed hc hu (Reachable.recorded h) (Reachable.unforgeable h)
  obtain ⟨p,hp,hcc,-,-,-,hv⟩ := chain_of_decide hu h hc hd
  have hcp := certified_of_decide hu h hc hd hp
  exact ⟨p,hcp,c,hcc,toNat_of_succ hv (hb.up_certified hcp hcc).2,rfl⟩

/-- A certified block descends by `Parent` links from the block its certificate names. -/
theorem ancestor_of_link (hf : ∀ i p, .handle p ∈ (σ i).log → I.Faithful p) {b a : Block}
    (hl : (I.voting F σ).Link b a) : Relation.ReflTransGen I.Parent b a := by
  obtain ⟨hcert,ha⟩ := hl
  have hb := voting_backed hc hu (Reachable.recorded h) (Reachable.unforgeable h)
  obtain ⟨i,-,-,hv⟩ := hcert.exists_voter fun hg => hb.root_up a (hg ▸ ha)
  obtain ⟨p,rfl,hp,hrule⟩ := (raised_of_runs hu h hc i).votes b hv
  have hfp := hf i p hp
  cases hpa : p.aggQC with
  | none =>
    simp only [Ideal.Faithful,hpa] at hfp
    exact .single ⟨ha.1,hfp.2 ▸ ha.2⟩
  | some agg =>
    simp only [hpa] at hrule
    obtain ⟨a',ha',hpath⟩ := hrule
    rwa [hb.up_unique _ _ _ ha ha']

end Safety

/-- FastHotStuff: any two decided blocks lie on one branch, if accepted proposals carry the
true views of their certificates and aggregates, follow their certificate where there is
no aggregate, and no two different blocks of the run have the same bytes. -/
theorem fast_agreement (F : Faults S) (I : Ideal S) (hu : Set.InjOn Block.toBytes I.blocks)
    (h : Runs .fast I F σ) (hc : I.Covers σ) (hagg : I.CoversAggregates σ)
    (hf : ∀ i p, .handle p ∈ (σ i).log → I.Faithful p) {i j : ID} {b c b' c' : Block}
    (hd : .decide b c ∈ (σ i).log) (hd' : .decide b' c' ∈ (σ j).log) :
    Relation.ReflTransGen I.Parent c c' ∨ Relation.ReflTransGen I.Parent c' c := by
  have hp {b a : Block} (hl : Relation.ReflTransGen (I.voting F σ).Link b a) :
      Relation.ReflTransGen I.Parent b a := by
    induction hl with
    | refl => exact .refl
    | tail _ hl ih => exact ih.trans (ancestor_of_link hu h hc hf hl)
  exact ((fast_safe hu h hc hagg hf).agreement (decided_of_fast hu h hc hd) (decided_of_fast hu h hc hd')).imp
    hp hp

def faithfulTest (S : Setup) (known : List Block) : Effect → Bool
  | .handle p => p.aggQC.isNone && decide (p.block.parent = p.block.cert.hash) &&
      known.any fun a => decide (a.hash S = p.block.cert.hash ∧ a.view = p.block.cert.view)
  | _ => true

theorem faithful_of_test {known : List Block} (hI : ∀ b ∈ known, b ∈ I.blocks) {ids : List ID}
    (hw : σ.Within S ids) (h : ids.all (fun i => (σ i).log.all (faithfulTest S known)) = true) :
    I.CoversAggregates σ ∧ ∀ i p, .handle p ∈ (σ i).log → I.Faithful p := by
  have each {i : ID} {p : ProposeMsg} (hp : .handle p ∈ (σ i).log) : p.aggQC = none ∧
      p.block.parent = p.block.cert.hash ∧ ∃ a ∈ known, a.hash S = p.block.cert.hash ∧ a.view = p.block.cert.view := by
    simpa [faithfulTest,and_assoc] using hw.of_log _ h i _ hp
  refine ⟨fun i p agg hp ha => by simp [(each hp).1] at ha,fun i p hp => ?_⟩
  obtain ⟨hnone,hparent,a,ha,hcert⟩ := each hp
  refine ⟨⟨a,hI a ha,hcert⟩,?_⟩
  rw [hnone]
  exact hparent

namespace Sample

private theorem fast_line : runTest .fast lineKnown lineOrder = true ∧
    .decide (line 4) (line 2) ∈ (after .fast lineKnown lineOrder 1).log ∧
    .decide (line 3) (line 1) ∈ (after .fast lineKnown lineOrder 2).log ∧
    [1,2,3].all (fun i => (after .fast lineKnown lineOrder i).log.all (faithfulTest setup lineKnown)) = true := by
  decide +kernel

theorem fast_agreement_line : ∃ I : Ideal setup, Runs .fast I faults (after .fast lineKnown lineOrder) ∧
    (Relation.ReflTransGen I.Parent (line 2) (line 1) ∨ Relation.ReflTransGen I.Parent (line 1) (line 2)) := by
  obtain ⟨ht,hd,hd',hl⟩ := fast_line
  obtain ⟨I,hI,hr,hc,hw⟩ := runs_of_test ht
  obtain ⟨hagg,hf⟩ := faithful_of_test (fun b hb => (hI b).mpr hb) hw hl
  exact ⟨I,hr,fast_agreement faults I (line_unambiguous hI) hr hc hagg hf hd hd'⟩

private def u1 : Block := first 1
private def u2 : Block := next [1,2,4] u1 2
private def u3 : Block := next [1,2,4] u2 3

private def v4 : Block := ⟨setup.genesisHash,4,[],genesisQC 3,4⟩
private def v5 : Block := next [1,2,4] v4 5
private def v6 : Block := next [1,2,4] v5 6

private def alteredBlocks : List Block := [u1,u2,u3,v4,v5,v6]

private def alteredOrder : List (ID × Block) := alteredBlocks.flatMap fun b => [(1,b),(2,b)]

private theorem altered_run : runTest .fast (genesis :: alteredBlocks) alteredOrder = true ∧
    .decide u3 u1 ∈ (after .fast (genesis :: alteredBlocks) alteredOrder 1).log ∧
    .decide v6 v4 ∈ (after .fast (genesis :: alteredBlocks) alteredOrder 2).log ∧
    apart Block.parent (genesis :: alteredBlocks) u1 v4 = true := by decide +kernel

/-- Four replicas, one of them Byzantine: the blocks of views 1 and 4 are decided, neither an
ancestor of the other. -/
theorem fast_disagreement : ∃ (F : Faults setup) (I : Ideal setup) (σ : System) (b c b' c' : Block),
    Runs .fast I F σ ∧ I.Covers σ ∧ .decide b c ∈ (σ 1).log ∧ .decide b' c' ∈ (σ 2).log ∧
      1 ∉ F.byzantine ∧ 2 ∉ F.byzantine ∧
      ¬ (Relation.ReflTransGen I.Parent c c' ∨ Relation.ReflTransGen I.Parent c' c) := by
  obtain ⟨ht,hd,hd',ha⟩ := altered_run
  obtain ⟨I,hI,hr,hc,-⟩ := runs_of_test ht
  refine ⟨faults,I,_,u3,u1,v6,v4,hr,hc,hd,hd',by decide,by decide,?_⟩
  exact not_comparable_of_apart (fun _ b hp => ⟨(hI b).mp hp.1,hp.2⟩) ha

end Sample
end Hotstuff
