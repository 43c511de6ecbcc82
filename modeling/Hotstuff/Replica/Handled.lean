import Hotstuff.Replica.Steps

/-! Each handler, and so each event, is a run of small steps that ends settled. -/
namespace Hotstuff

namespace Replica
variable {S : Setup} {R : RuleSet} {env : Env} {P : QuorumCert → Prop}

/-- Nothing is executed unless the whole descent to the last executed view returns. -/
theorem commitInner_spec (k : Nat) (b : Block) (s : Replica) (hs : s.halted = false) :
    (∃ t, Fetched S env s t ∧ commitInner S env k b s = t.halt) ∨
      ∃ t l, Fetched S env s t ∧ Walk S env t s.bExec.view b l ∧
        commitInner S env k b s = { t with bExec := l.headD t.bExec, log := l.map .exec ++ t.log } := by
  induction k generalizing b s with
  | zero => exact .inl ⟨s,.refl s,rfl⟩
  | succ k ih =>
    rw [commitInner]
    split_ifs with hv
    · rcases hg : get S env b.parent s with ⟨_ | parent,t⟩
      · obtain ⟨hf,-,hm⟩ := get_eq hg
        exact .inr ⟨t,[b],hf,.gap hv (hm rfl),rfl⟩
      · obtain ⟨hf,hl,-⟩ := get_eq hg
        dsimp only
        rcases ih parent t (hf.halted_eq.trans hs) with ⟨u,hf',he⟩ | ⟨u,l,hf',hw,he⟩
        · exact .inl ⟨u,hf.trans hf',by rw [he]; rfl⟩
        · have hu : u.halted = false := (hf.trans hf').halted_eq.trans hs
          refine .inr ⟨u,b :: l,hf.trans hf',.up hv (hf'.localGet hl) (hf.bExec_eq ▸ hw),?_⟩
          rw [he,andThen,if_neg (by simp [hu])]
          rfl
    · exact .inr ⟨s,[],.refl s,.done hv,rfl⟩

private theorem pruneToHeight_steps (v : View) (s : Replica) (x : Option Block) :
    Steps S R env P (s,x) (pruneToHeight env v s,x) := by
  rw [pruneToHeight]
  split
  · exact halt_steps s x
  · rename_i views _
    have hfork : ∀ e ∈ ((s.forkedBlocks v views).map Effect.fork).reverse, ∃ f, .fork f = e := fun e he =>
      (List.mem_map.mp (List.mem_reverse.mp he)).imp fun _ h => h.2
    refine (Relation.ReflTransGen.single (.note
      ((s.forkedBlocks v views).map Effect.fork).reverse (fun e he => ?_) (fun e he qc hqc => ?_))).tail
        (.book s.highTC s.lastTimeout s.timeouts
          (s.blockAtHeight.filter (fun e => ¬ (s.pruneHeight < e.1 ∧ e.1 ≤ v))) v s.verifiedVotes s.pending ?_)
    · exact ⟨fun _ => .inl,fun _ => .inl,fun _ => .inl⟩
    · obtain ⟨f,rfl⟩ := hfork e he
      rfl
    · obtain ⟨f,rfl⟩ := hfork e he
      cases hqc

private theorem andThen_steps {a : Phase} {s : Replica} {x : Option Block} {f : Replica → Replica}
    (h : Steps S R env P a (s,x)) (hf : s.halted = false → Steps S R env P (s,x) (f s,x)) :
    Steps S R env P a (s.andThen f,x) :=
  andThen_rec (P := fun t => Steps S R env P a (t,x)) h fun hh => h.trans (hf hh)

private theorem commit_steps {b c : Block} {s : Replica} (hs : s.halted = false)
    (hd : .decide b c ∈ s.log) (x : Option Block) : Steps S R env P (s,x) (commit S env c s,x) := by
  refine andThen_steps ?_ (fun _ => pruneToHeight_steps _ _ _)
  rcases commitInner_spec (S := S) env.fuel c s hs with ⟨t,hf,he⟩ | ⟨t,l,hf,hw,he⟩
  · rw [he]
    exact (hf.steps x).trans (halt_steps t x)
  · rw [he]
    rw [← hf.bExec_eq] at hw
    exact (hf.steps x).tail (.commit (hf.log_eq ▸ hd) hw)

/-- The vote, if there is one, leaves the block to be settled. -/
private theorem vote_steps (env : Env) {p : ProposeMsg} {s : Replica} (hs : s.halted = false)
    (hp : .handle p ∈ s.log) (hm : MayVote S R p s) :
    ∃ x, Steps S R env P (s,none) (vote S env p.block (store S p.block s),x) ∧
      (x = none ∨ x = some p.block) ∧ (vote S env p.block (store S p.block s)).halted = false := by
  have hstore : Steps S R env P (s,none) (store S p.block s,none) := .single (.store p.block)
  rw [vote]
  split_ifs with hv
  · exact ⟨none,hstore,.inl rfl,hs⟩
  rw [sign]
  rcases env.sign (store S p.block s).now (p.block.hash S) with _ | ⟨r,t⟩
  · exact ⟨none,hstore.trans ((Fetched.tick _).steps none),.inl rfl,hs⟩
  · refine ⟨some p.block,?_,.inr rfl,by dsimp only [getLeader]; split_ifs <;> exact hs⟩
    have hvote : Steps S R env P (s,none) ({ store S p.block s.tick with
        lastVote := p.block.view, log := .vote p.block :: s.log },some p.block) :=
      ((Fetched.tick s).steps none).tail (.vote p hs hp (UInt64.not_le.mp hv) hm.tick)
    dsimp only [getLeader]
    split_ifs
    · exact (hvote.trans ((Fetched.tick _).steps _)).trans (emit_steps rfl rfl _ _)
    · exact hvote.trans ((Fetched.tick _).steps _)

/-- Accepting a block settles it, except that without a lock the high QC is raised later. -/
private theorem accepted_steps (env : Env) {p : ProposeMsg} {s : Replica} (hP : P p.block.cert)
    (hs : s.halted = false) (hp : .handle p ∈ s.log) (hm : MayVote S R p s) :
    ∃ x, Steps S R env P (s,none) (accepted S R env p.block s,x) ∧
      (x = none ∨ R = .fast ∧ x = some p.block) := by
  obtain ⟨x,hvote,hx,hh⟩ := vote_steps (P := P) env hs hp hm
  have hr : Ruled S R env P p _ x (commitRule S env R p.block _) := commitRule_ruled hP (hvote.grows.1.mem hp) hh x
  have hsettle : ∃ y, Steps S R env P (s,none) ((commitRule S env R p.block
      (vote S env p.block (store S p.block s))).2,y) ∧ (y = none ∨ R = .fast ∧ y = some p.block) := by
    rcases hx with rfl | rfl
    · exact ⟨none,hvote.trans hr.steps,.inl rfl⟩
    · by_cases hR : R = .fast
      · exact ⟨some p.block,hvote.trans hr.steps,.inr ⟨hR,rfl⟩⟩
      · exact ⟨none,(hvote.trans hr.steps).tail (.settle (hr.settled hR)),.inl rfl⟩
  obtain ⟨y,hy,hyR⟩ := hsettle
  refine ⟨y,?_,hyR⟩
  rw [accepted]
  rcases hc : commitRule S env R p.block (vote S env p.block (store S p.block s)) with ⟨_ | c,t⟩
  · rwa [hc] at hy
  · rw [hc] at hy hr
    obtain ⟨hth,hdec⟩ := hr.decides c rfl
    have hpt : .handle p ∈ t.log := hr.log ▸ hvote.grows.1.mem hp
    have hd : Steps S R env P (s,none) (t.emit (.decide p.block c),y) := hy.tail (.decide p hpt hdec)
    exact hd.trans (commit_steps (s := t.emit _) hth List.mem_cons_self y)

theorem MayVote.tellProposed {p : ProposeMsg} {s : Replica} (h : MayVote S R p s) (b : Block) :
    MayVote S R p (tellProposed S env b s) := by
  rw [Replica.tellProposed]
  rcases hg : get S env b.cert.hash s with ⟨_ | a,t⟩
  · exact h.fetched (get_eq hg).1
  · exact MayVote.mono (s := t) (fun _ _ h => h) rfl rfl (h.fetched (get_eq hg).1)

private theorem tellProposed_steps (env : Env) {p : ProposeMsg} {s : Replica} (hs : s.halted = false)
    (hp : .handle p ∈ s.log) :
    Steps S R env P (s,none) (tellProposed S env p.block s,none) ∧
      (tellProposed S env p.block s).halted = false ∧ .handle p ∈ (tellProposed S env p.block s).log := by
  rw [tellProposed]
  rcases hg : get S env p.block.cert.hash s with ⟨_ | a,t⟩
  · have hf := (get_eq hg).1
    exact ⟨hf.steps none,hf.halted_eq.trans hs,hf.log_eq ▸ hp⟩
  · have hf := (get_eq hg).1
    exact ⟨(hf.steps none).trans (emit_steps rfl rfl _ _),hf.halted_eq.trans hs,List.mem_cons_of_mem _ (hf.log_eq ▸ hp)⟩

theorem consider_steps (env : Env) {p : ProposeMsg} {s : Replica} (hP : P p.block.cert)
    (hs : s.halted = false) (hp : .handle p ∈ s.log) :
    ∃ x, Steps S R env P (s,none) (consider S R env p s,x) ∧ (x = none ∨ R = .fast ∧ x = some p.block) := by
  have htick : Steps S R env P (s,none) (s.tick,none) := (Fetched.tick s).steps none
  have hv : Verdict S env s.tick (MayVote S R p) _ := voteRule_spec p s.tick
  rcases consider_cases S R env p s with hc | ⟨t,hr,hc⟩ | ⟨t,hr,hc⟩
  · exact ⟨none,hc ▸ htick.trans ((Fetched.tick _).steps none),.inl rfl⟩
  · rw [hr] at hv
    exact ⟨none,hc ▸ htick.trans (hv.steps none),.inl rfl⟩
  rw [hr] at hv
  obtain ⟨-,hf,hm⟩ := hv.resolve_right (by simp)
  have ht : Steps S R env P (s,none) (t,none) := htick.trans (hf.steps none)
  have hth : t.halted = false := hf.halted_eq.trans hs
  have hpt : .handle p ∈ t.log := hf.log_eq ▸ hp
  obtain ⟨hut,huh,hup⟩ := tellProposed_steps env hth hpt
  have hut' : Steps S R env P (s,none) ((tellProposed S env p.block t).tick,none) :=
    (ht.trans hut).trans ((Fetched.tick _).steps none)
  rcases hc with hc | hc
  · exact ⟨none,hc ▸ hut',.inl rfl⟩
  · obtain ⟨x,hx,hxR⟩ := accepted_steps env (s := (tellProposed S env p.block t).tick) hP huh hup
      (hm.tellProposed p.block).tick
    exact ⟨x,hc ▸ hut'.trans hx,hxR⟩

theorem verifyQuorumCert_of_checkCerts {p : ProposeMsg} {k : Nat} (h : checkCerts S R env p k = some true) :
    S.verifyQuorumCert p.block.cert = true := by
  unfold checkCerts at h
  split at h
  · simpa using h
  · split at h <;> simp_all

section View
variable {propose : SyncInfo → Replica → Replica}
  (hprop : ∀ si s, s.halted = false → si.Carries P → Steps S R env P (s,none) (propose si s,none))
include hprop

theorem enterView_steps {si : SyncInfo} {v : View} {timeout : Bool} {s : Replica}
    (hs : s.halted = false) (hsi : si.Carries P) (hv : Enters S P v timeout) :
    Steps S R env P (s,none) (enterView S env propose si v timeout s,none) := by
  rw [enterView]
  split_ifs with hlt
  · exact .refl
  have henter : Steps S R env P (s,none) (_,none) :=
    (Relation.ReflTransGen.single (.enter v timeout hlt hv)).trans ((Fetched.tick _).steps none)
  dsimp only [getLeader]
  split_ifs
  · exact henter.trans (hprop si _ hs hsi)
  · exact henter.trans (send_steps (e := .sendNewView _ si) rfl hsi _ _)
  · exact henter

theorem advanceViewWith_steps (si : SyncInfo) (s : Replica) (hs : s.halted = false)
    (hsi : si.Carries P) :
    Steps S R env P (s,none) (advanceViewWith S env propose si s,none) := by
  rw [advanceViewWith]
  split
  · rename_i tc _
    split_ifs with hv ht
    · exact .refl
    · exact (Relation.ReflTransGen.single (.book tc s.lastTimeout s.timeouts s.blockAtHeight s.pruneHeight
        s.verifiedVotes s.pending ⟨fun _ => .inl,fun _ => .inl,fun _ => .inl⟩)).trans
          (enterView_steps hprop hs hsi ⟨tc,Bool.not_eq_false _ ▸ hv,rfl⟩)
    · exact enterView_steps hprop hs hsi ⟨tc,Bool.not_eq_false _ ▸ hv,rfl⟩
  · split
    · rename_i qc hqc
      split_ifs with hv
      · exact .refl
      · refine andThen_steps (updateHighQC_steps (hsi.qc hqc) s none) (fun hh => ?_)
        exact (emit_steps rfl rfl _ _).trans
          (enterView_steps hprop hh hsi (.inr ⟨qc,hsi.qc hqc,Bool.not_eq_false _ ▸ hv,rfl⟩))
    · exact enterView_steps hprop hs hsi (.inl rfl)

/-- `OnPropose` settles the block that it votes for before it enters a view. -/
theorem onProposeWith_steps (p : ProposeMsg) (s : Replica) (hs : s.halted = false)
    (hP : P p.block.cert) :
    Steps S R env P (s,none) (onProposeWith S R env (advanceViewWith S env propose) p s,none) := by
  have htick : Steps S R env P (s,none) (s.tick,none) := (Fetched.tick s).steps none
  rw [onProposeWith]
  rcases hc : checkCerts S R env p s.now with _ | _ | _
  · exact htick.trans (halt_steps _ _)
  · exact htick
  have hcheck : Steps S R env P (s,none) (s.tick.emit (.handle p),none) := htick.tail (.check p _ hc hP)
  obtain ⟨x,hx,hxR⟩ := consider_steps (R := R) env (s := s.tick.emit (.handle p)) hP hs List.mem_cons_self
  dsimp only
  set t := consider S R env p (s.tick.emit (.handle p))
  have ht : Steps S R env P (s,none) (t,x) := hcheck.trans hx
  have hsi : ({ qc := some p.block.cert } : SyncInfo).Carries P := SyncInfo.carries_some hP
  rw [andThen]
  rcases hxR with rfl | ⟨rfl,rfl⟩
  · split_ifs with hh
    · exact ht
    · exact ht.trans (advanceViewWith_steps hprop _ _ (by simpa using hh) hsi)
  · split_ifs with hh
    · exact ht.tail (.settle (.inl hh))
    · -- FastHotStuff has no lock: the update of the high QC in `AdvanceView` settles the block
      have hv := verifyQuorumCert_of_checkCerts hc
      have hu : Steps S .fast env P (s,none) (updateHighQC S env p.block.cert t,none) :=
        (ht.trans (updateHighQC_steps hP _ _)).tail (.settle (updateHighQC_settled p.block t hv))
      rw [advanceViewWith]
      dsimp only
      rw [if_neg (by simp [hv])]
      refine andThen_steps hu (fun hh => ?_)
      exact (emit_steps rfl rfl _ _).trans (enterView_steps hprop hh hsi (.inr ⟨_,hP,hv,rfl⟩))

end View

theorem proposeWith_steps {onPropose : ProposeMsg → Replica → Replica}
    (hzero : P .zero)
    (hon : ∀ p s, s.halted = false → P p.block.cert → Steps S R env P (s,none) (onPropose p s,none))
    (si : SyncInfo) (s : Replica) (hs : s.halted = false) (hsi : si.Carries P) :
    Steps S R env P (s,none) (proposeWith S R env onPropose si s,none) := by
  have hP : P (si.qc.getD .zero) := by
    cases hqc : si.qc with
    | none => exact hzero
    | some qc => exact hsi.qc hqc
  have hagg : ∀ qc ∈ (if R.useAggQC then si.aggQC else none).toList.flatMap AggregateQC.certs, P qc := by
    intro qc hqc
    split_ifs at hqc
    · exact hsi qc (List.mem_append_right _ hqc)
    · cases hqc
  have block (t : Replica) (ht : t.halted = false) :
      Steps S R env P (t,none) (proposeBlock S R env onPropose si t,none) := by
    rw [proposeBlock]
    split
    · exact (Fetched.tick t).steps none
    · refine (((Fetched.tick t).steps none).tail (.store _)).trans ((send_steps rfl ?_ _ _).trans (hon _ _ ht hP))
      exact List.forall_mem_cons.mpr ⟨hP,hagg⟩
  rw [proposeWith]
  split
  · exact block s hs
  · rename_i qc _
    rcases hg : get S env qc.hash s with ⟨_ | b,t⟩
    · exact (get_eq hg).1.steps none
    · have hf := (get_eq hg).1
      exact ((hf.steps none).trans (emit_steps rfl rfl _ _)).trans (block _ (hf.halted_eq.trans hs))

theorem syncInfo_qc (s : Replica) : s.syncInfo.qc = some s.highQC := by
  rw [syncInfo]
  split_ifs <;> rfl

private theorem syncInfo_carries {s : Replica} (h : P s.highQC) : s.syncInfo.Carries P := by
  rw [syncInfo]
  split_ifs
  · exact SyncInfo.carries_some h
  · exact SyncInfo.carries_some (P := P) h

theorem timeouts_steps {l : List TimeoutMsg} {s : Replica} (hl : ∀ m ∈ l, m ∈ s.timeouts ∨ m.syncInfo.Carries P) :
    Steps S R env P (s,none) ({ s with timeouts := l },none) :=
  .single (.book s.highTC s.lastTimeout l s.blockAtHeight s.pruneHeight s.verifiedVotes s.pending
    ⟨fun _ => .inl,hl,fun _ => .inl⟩)

def signing : Effect → Bool
  | .signView _ | .signTimeout _ | .viewTimeout => true
  | _ => false

def afterSigning (n : Nat) (l : List Effect) (s : Replica) : Replica := { s with now := n, log := l ++ s.log }

/-- The state in which a replica handles its own timeout: it has stopped voting in its view. -/
def announced (m : TimeoutMsg) (s : Replica) : Replica :=
  { s with
    lastTimeout := some m,
    lastVote := if s.lastVote < s.currentView then s.currentView else s.lastVote,
    log := .sendTimeout m :: s.log }

theorem sendTimeout_eq (m : TimeoutMsg) (s : Replica) :
    sendTimeout S R env m s = onRemoteTimeout S R env m (s.announced m) := rfl

private theorem announced_steps {s : Replica} (hs : s.halted = false) {m : TimeoutMsg} (hm : m.syncInfo.Carries P)
    {l : List Effect} (hl : ∀ e ∈ l, ∃ m, e = .signTimeout m ∧ m.id = s.id ∧ m.view = s.currentView ∧
      m.syncInfo.qc = some s.highQC) :
    Steps S R env P (s,none) (announced m { s with log := l ++ s.log },none) :=
  ((Relation.ReflTransGen.single (.stopVoting l hs hl)).tail (.book s.highTC (some m) s.timeouts
    s.blockAtHeight s.pruneHeight s.verifiedVotes s.pending
      ⟨fun _ h => .inr (Option.some.inj h ▸ hm),fun _ => .inl,fun _ => .inl⟩)).trans (send_steps (e := .sendTimeout m) rfl hm _ _)

variable (P) in
/-- A new timeout is for the current view; it is not sent if signing fails. -/
theorem newTimeout_cases (S : Setup) (R : RuleSet) (env : Env) (s : Replica) : ∃ n l,
    (∀ e ∈ l, signing e = true) ∧
    (newTimeout S R env s = s.afterSigning n l ∧ Steps S R env P (s,none) (s.afterSigning n l,none) ∨
      ∃ m : TimeoutMsg, m.view = s.currentView ∧ m.syncInfo = s.syncInfo ∧
        newTimeout S R env s = sendTimeout S R env m (s.afterSigning n l) ∧
        (s.halted = false → P s.highQC → Steps S R env P (s,none) ((s.afterSigning n l).announced m,none))) := by
  have hv : Steps S R env P (s,none) ((s.emit .viewTimeout).tick,none) :=
    (emit_steps rfl rfl _ _).trans ((Fetched.tick _).steps none)
  unfold newTimeout newTimeoutWith
  rw [sign]
  rcases env.sign (s.emit .viewTimeout).now (View.toHash s.currentView) with _ | ⟨r,t⟩
  · exact ⟨_,[.viewTimeout],List.all_eq_true.mp rfl,.inl ⟨rfl,hv⟩⟩
  have hsign : Steps S R env P (s,none) ((s.emit .viewTimeout).tick.emit (.signView s.currentView),none) :=
    hv.trans (emit_steps rfl rfl _ _)
  dsimp only
  split_ifs
  · rw [sign]
    have htick := hsign.trans ((Fetched.tick _).steps none)
    set u := (s.emit .viewTimeout).tick.emit (.signView s.currentView)
    rcases env.sign u.now _ with _ | ⟨r',t'⟩
    · exact ⟨_,[.signView _,.viewTimeout],List.all_eq_true.mp rfl,.inl ⟨rfl,htick⟩⟩
    · refine ⟨_,[.signTimeout _,.signView _,.viewTimeout],List.all_eq_true.mp rfl,
        .inr ⟨_,rfl,rfl,rfl,fun hs hP => htick.trans ?_⟩⟩
      refine announced_steps (s := u.tick) hs (syncInfo_carries hP) (l := [.signTimeout _]) fun e he => ?_
      exact ⟨_,List.mem_singleton.mp he,rfl,rfl,syncInfo_qc s⟩
  · refine ⟨_,[.signView _,.viewTimeout],List.all_eq_true.mp rfl,.inr ⟨_,rfl,rfl,rfl,fun hs hP => hsign.trans ?_⟩⟩
    exact announced_steps (s := (s.emit .viewTimeout).tick.emit (.signView s.currentView)) hs (syncInfo_carries hP)
      (l := []) (by simp)

section Certificates
variable (hzero : P .zero)
include hzero

theorem onPropose_steps (k : Nat) (p : ProposeMsg) (s : Replica) (hs : s.halted = false)
    (hP : P p.block.cert) : Steps S R env P (s,none) (onPropose S R env k p s,none) := by
  induction k generalizing p s with
  | zero => exact halt_steps s none
  | succ k ih => exact onProposeWith_steps (proposeWith_steps hzero ih) p s hs hP

theorem propose_steps (k : Nat) (si : SyncInfo) (s : Replica) (hs : s.halted = false)
    (hsi : si.Carries P) : Steps S R env P (s,none) (propose S R env k si s,none) :=
  proposeWith_steps hzero (onPropose_steps hzero k) si s hs hsi

theorem advanceView_steps (k : Nat) (si : SyncInfo) (s : Replica) (hs : s.halted = false)
    (hsi : si.Carries P) : Steps S R env P (s,none) (advanceView S R env k si s,none) :=
  advanceViewWith_steps (propose_steps hzero k) si s hs hsi

private theorem collectTimeout_steps {m : TimeoutMsg} (hm : m.syncInfo.Carries P) {s : Replica} (hs : s.halted = false)
    (h : Holds S P s) : Steps S R env P (s,none) (collectTimeout S R env m s,none) := by
  rw [collectTimeout,collectTimeoutWith]
  set t : Replica := if s.timeouts.any (fun t => t.view = m.view ∧ t.id = m.id) then s
    else { s with timeouts := s.timeouts ++ [m] } with ht
  have hst : Steps S R env P (s,none) (t.tick,none) ∧ t.halted = false := by
    rw [ht]
    split_ifs
    · exact ⟨(Fetched.tick s).steps none,hs⟩
    · refine ⟨(timeouts_steps fun m' hm' => ?_).trans ((Fetched.tick _).steps none),hs⟩
      rcases List.mem_append.mp hm' with hm' | hm'
      · exact .inl hm'
      · exact .inr (by rwa [List.mem_singleton.mp hm'])
  have htick : Holds S P t.tick := hst.1.holds h
  have hdrop : Steps S R env P (s,none) ({ t.tick with timeouts := t.timeouts.filter (fun t => t.view ≠ m.view) },none) :=
    hst.1.trans (timeouts_steps (s := t.tick) fun m' hm' => .inl (List.mem_of_mem_filter hm'))
  have hsi : t.tick.syncInfo.Carries P := syncInfo_carries htick.high
  dsimp only
  split_ifs
  · exact hst.1
  split
  · exact hst.1
  · refine hdrop.trans (advanceView_steps hzero _ _ _ hst.2 ?_)
    split
    · rename_i agg hagg
      -- the certificates of the aggregate are those of the collected timeouts
      refine fun qc hqc => (List.mem_append.mp hqc).elim (fun hqc => hsi qc (List.mem_append_left _ hqc)) fun hqc => ?_
      obtain ⟨e,he,rfl⟩ := List.mem_map.mp (show qc ∈ agg.certs by simpa using hqc)
      obtain ⟨m',hm',hqc'⟩ := S.createAggregateQC_mem hagg he
      exact (htick.timeouts m' (List.mem_of_mem_filter ((env.timeoutOrder_perm _ _).mem_iff.mp hm'))).qc hqc'
    · exact hsi
  split
  · exact hst.1
  · exact hdrop.trans (advanceView_steps hzero _ _ _ hst.2 hsi)

private theorem onRemoteTimeout_steps {m : TimeoutMsg} (hm : m.syncInfo.Carries P) {s : Replica} (hs : s.halted = false)
    (h : Holds S P s) : Steps S R env P (s,none) (onRemoteTimeout S R env m s,none) := by
  rw [onRemoteTimeout_def]
  refine andThen_steps ?_ (fun _ => timeouts_steps fun m' hm' => .inl (List.mem_of_mem_filter hm'))
  split_ifs
  · exact .refl
  · have hadv : Steps S R env P (s,none) (_,none) := advanceView_steps hzero env.fuel m.syncInfo s hs hm
    exact andThen_steps hadv (fun hh => collectTimeout_steps hzero hm hh (hadv.holds h))

private theorem newTimeout_steps {s : Replica} (hs : s.halted = false) (h : Holds S P s) :
    Steps S R env P (s,none) (newTimeout S R env s,none) := by
  obtain ⟨n,l,-,⟨he,hsteps⟩ | ⟨m,-,hm,he,hsteps⟩⟩ := newTimeout_cases P S R env s
  · exact he ▸ hsteps
  · have hann := hsteps hs h.high
    exact he ▸ hann.trans (onRemoteTimeout_steps hzero (hm ▸ syncInfo_carries h.high) hs (hann.holds h))

private theorem onLocalTimeout_steps {s : Replica} (hs : s.halted = false) (h : Holds S P s) :
    Steps S R env P (s,none) (onLocalTimeout S R env s,none) := by
  rw [onLocalTimeout,onLocalTimeoutWith]
  split
  · rename_i m hm
    split_ifs
    · exact send_steps (e := .sendTimeout m) rfl (h.last m hm) _ _
    · exact newTimeout_steps hzero hs h
  · exact newTimeout_steps hzero hs h

private theorem start_steps {s : Replica} (hs : s.halted = false) (h : Holds S P s) :
    Steps S R env P (s,none) (start S R env s,none) := by
  rw [start,startWith]
  split_ifs
  · dsimp only [getLeader]
    split_ifs
    · exact ((Fetched.tick s).steps none).trans (propose_steps hzero _ _ _ hs (syncInfo_carries h.high))
    · exact (Fetched.tick s).steps none
  · exact .refl

end Certificates

private theorem votes_steps (verified : List PartialCert) {pending : List (PartialCert × Block)} {s : Replica}
    (h : ∀ e ∈ pending, e ∈ s.pending ∨ Makes S P e.2) :
    Steps S R env P (s,none) ({ s with verifiedVotes := verified, pending := pending },none) :=
  .single (.book s.highTC s.lastTimeout s.timeouts s.blockAtHeight s.pruneHeight verified pending
    ⟨fun _ => .inl,fun _ => .inl,h⟩)

private theorem spawnVerify_blocks (cert : PartialCert) (b : Block) (s : Replica) :
    (s.spawnVerify cert b).blocks = s.blocks := by
  rw [spawnVerify]
  split_ifs <;> rfl

private theorem onVote_steps {m : VoteMsg} {s : Replica} (hmade : ∀ e ∈ (onVote S env m s).blocks, Makes S P e.2) :
    Steps S R env P (s,none) (onVote S env m s,none) := by
  have spawn {b : Block} {t : Replica} (hb : t.localGet m.cert.blockHash = some b)
      (hmade : ∀ e ∈ (t.spawnVerify m.cert b).blocks, Makes S P e.2) :
      Steps S R env P (t,none) (t.spawnVerify m.cert b,none) := by
    rw [spawnVerify_blocks] at hmade
    rw [spawnVerify]
    split_ifs
    · exact .refl
    · refine votes_steps t.verifiedVotes fun e he => (List.mem_append.mp he).imp (fun h => h) fun he => ?_
      rw [List.mem_singleton.mp he]
      exact hmade _ (localGet_mem hb)
  rw [onVote] at hmade ⊢
  split_ifs at hmade ⊢
  · rcases hg : get S env m.cert.blockHash s with ⟨_ | b,t⟩
    · exact (get_eq hg).1.steps none
    · rw [hg] at hmade
      obtain ⟨hf,hl,-⟩ := get_eq hg
      exact (hf.steps none).trans (spawn hl hmade)
  · cases hl : s.localGet m.cert.blockHash with
    | none => exact emit_steps rfl rfl _ _
    | some b =>
      rw [hl] at hmade
      exact spawn hl hmade

private theorem verifyCert_steps {cert : PartialCert} {b : Block} {s : Replica}
    (hmade : Makes S P b) : Steps S R env P (s,none) (verifyCert S cert b s,none) := by
  have votes (verified : List PartialCert) (t : Replica) :
      Steps S R env P (t,none) ({ t with verifiedVotes := verified },none) :=
    votes_steps verified fun _ h => .inl h
  rw [verifyCert]
  dsimp only
  split_ifs
  · exact .refl
  · exact votes _ s
  split
  · exact votes _ s
  · rename_i qc hqc
    have hP : ∀ qc' ∈ (Effect.newViewEvent qc).certs, P qc' := fun qc' h =>
      List.mem_singleton.mp h ▸ hmade _ qc hqc
    exact (send_steps rfl hP _ _).trans (votes _ _)

/-- One event of one replica, seen as small steps. The certificates that it makes itself are
for blocks that it stores. -/
theorem handle_steps (hzero : P .zero) (ev : Event) (hev : ∀ qc ∈ ev.certs, P qc) {s : Replica} (h : Holds S P s)
    (hmade : ∀ e ∈ (handle S R env ev s).blocks, Makes S P e.2) :
    Steps S R env P (s,none) (handle S R env ev s,none) := by
  unfold handle at hmade ⊢
  split_ifs at hmade ⊢ with hh
  · exact .refl
  have hs : s.halted = false := by simpa using hh
  cases ev with
  | start => exact start_steps hzero hs h
  | propose p => exact onPropose_steps hzero _ p s hs (hev _ List.mem_cons_self)
  | newView m => exact advanceView_steps hzero _ _ s hs hev
  | timeout m => exact onRemoteTimeout_steps hzero hev hs h
  | localTimeout => exact onLocalTimeout_steps hzero hs h
  | vote m => exact onVote_steps hmade
  | verifyCert k =>
    dsimp only
    split
    · rename_i cert b hk
      exact (votes_steps s.verifiedVotes fun e he => .inl (List.mem_of_mem_eraseIdx he)).trans
        (verifyCert_steps (h.pending _ (List.mem_of_getElem? hk)))
    · exact .refl

/-- The same when nothing is known of the certificates. -/
theorem handle_micro (ev : Event) (s : Replica) :
    Steps S R env (fun _ => True) (s,none) (handle S R env ev s,none) :=
  handle_steps trivial ev (fun _ _ => trivial) ⟨trivial,fun _ _ _ _ => trivial,fun _ _ _ _ => trivial,
    fun _ _ _ _ => trivial,fun _ _ _ _ _ => trivial⟩ fun _ _ _ _ _ => trivial

end Replica
end Hotstuff
