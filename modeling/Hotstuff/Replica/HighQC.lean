import Hotstuff.Replica.Rows

/-! The high QC of a replica and its leaf block: they belong together, they only move up, and which
certificates of a SyncInfo reach them. -/
namespace Hotstuff
open Library
namespace Replica
variable {S : Setup} {R : RuleSet} {env : Env} {P : QuorumCert → Prop}

structure Coupled (S : Setup) (s : Replica) : Prop where
  leaf : s.leafBlock.hash S = s.highQC.hash
  accepted : S.verifyQuorumCert s.highQC = true
  stored : (s.highQC.hash,s.leafBlock) ∈ s.blocks
  filed : Filed S s

namespace Coupled
variable {s : Replica}

theorem init (id : ID) : Coupled S (init S id) where
  leaf := rfl
  accepted := if_pos rfl
  stored := List.mem_singleton_self _
  filed := filed_init id

theorem known (h : Coupled S s) : ∃ q, s.localGet s.highQC.hash = some q := by
  cases hq : s.localGet s.highQC.hash with
  | some q => exact ⟨q,rfl⟩
  | none =>
    rw [localGet,List.lookup_eq_none_iff] at hq
    simpa using hq _ h.stored

end Coupled

/-- A block that is found above another one is not the genesis block in a wrong place. -/
theorem Filed.hash_eq {s : Replica} (h : Filed S s) {k : Hash} {b : Block} {v : View} (hb : s.localGet k = some b)
    (hv : v < b.view) : b.hash S = k := by
  rcases h _ (localGet_mem hb) with he | he
  · exact he
  · dsimp only at he
    rw [he] at hv
    exact absurd hv UInt64.not_lt_zero

inductive Turn (S : Setup) (env : Env) : Replica → Replica → Prop
  | look {s t : Replica} : Fetched S env s t → Turn S env s t
  | keep {s t : Replica} : t.blocks = s.blocks → t.highQC = s.highQC → t.leafBlock = s.leafBlock → Turn S env s t
  | store {s t : Replica} (b : Block) : t.blocks = (b.hash S,b) :: s.blocks → t.highQC = s.highQC →
      t.leafBlock = s.leafBlock → Turn S env s t
  | high {s : Replica} (qc : QuorumCert) {b old : Block} : S.verifyQuorumCert qc = true →
      s.localGet qc.hash = some b → s.localGet s.highQC.hash = some old → old.view < b.view →
      Turn S env s { s with highQC := qc, leafBlock := b }

theorem Micro.turn {a b : Phase} (hm : Micro S R env P a b) : Turn S env a.1 b.1 := by
  cases hm with
  | look hf => exact .look hf
  | store b => exact .store b rfl rfl rfl
  | vote p => exact .store p.block rfl rfl rfl
  | high qc hv _ hb hold hlt => exact .high qc hv hb hold hlt
  | _ => exact .keep rfl rfl rfl

namespace Turn
variable {s t : Replica}

theorem grows (h : Turn S env s t) : s.blocks <:+ t.blocks := by
  cases h with
  | look hf =>
    obtain ⟨n,bs,bh,rfl,-⟩ := hf
    exact List.suffix_append _ _
  | keep hb => exact hb ▸ List.suffix_rfl
  | store b hb => exact hb ▸ List.suffix_cons _ _
  | high => exact List.suffix_rfl

theorem filed (h : Turn S env s t) (hs : Filed S s) : Filed S t := by
  cases h with
  | look hf =>
    obtain ⟨n,bs,bh,rfl,hnew,-⟩ := hf
    intro e he
    rcases List.mem_append.mp he with he | he
    · obtain ⟨k,hk⟩ := hnew e he
      exact hash_or_genesis_of_fetch hk
    · exact hs e he
  | keep hb => exact fun e he => hs e (hb ▸ he)
  | store b hb =>
    intro e he
    rcases List.mem_cons.mp (hb ▸ he) with rfl | he
    · exact .inl rfl
    · exact hs e he
  | high => exact hs

theorem coupled (h : Turn S env s t) (hs : Coupled S s) : Coupled S t := by
  have hstored := h.grows.mem hs.stored
  have hfiled := h.filed hs.filed
  have keep (hq : t.highQC = s.highQC) (hl : t.leafBlock = s.leafBlock) : Coupled S t :=
    ⟨hl ▸ hq ▸ hs.leaf,hq ▸ hs.accepted,hl ▸ hq ▸ hstored,hfiled⟩
  cases h with
  | look hf => exact keep hf.highQC_eq hf.leafBlock_eq
  | keep _ hq hl => exact keep hq hl
  | store b _ hq hl => exact keep hq hl
  | high qc hv hb _ hlt => exact ⟨hfiled.hash_eq hb hlt,hv,localGet_mem hb,hfiled⟩

end Turn

theorem Micro.coupled {a b : Phase} (hm : Micro S R env P a b) (h : Coupled S a.1) : Coupled S b.1 :=
  hm.turn.coupled h

theorem Steps.coupled {a b : Phase} (hm : Steps S R env P a b) (h : Coupled S a.1) : Coupled S b.1 := by
  induction hm with
  | refl => exact h
  | tail _ hm ih => exact hm.coupled ih

theorem run_coupled (id : ID) (l : List (Env × Event)) : Coupled S (run S R (init S id) l) := by
  induction l using List.reverseRecOn with
  | nil => exact .init id
  | append_singleton l e ih =>
    rw [run_append]
    exact (handle_micro e.2 _).coupled ih

theorem Visited.coupled {id : ID} {s : Replica} (h : Visited S R id s) : Coupled S s := by
  obtain ⟨l,env,hrow⟩ := h
  exact Row.of_steps (Q := fun s t => Coupled S s → Coupled S t) (fun _ h => h) (fun h h' hs => h' (h hs))
    (fun hm => hm.coupled) hrow (run_coupled id l)

section Injective
variable {B : Set Block} (hinj : Set.InjOn (Block.hash S) B)
include hinj

/-- Among blocks with different hashes, what is found under its own hash stays there. -/
theorem store_localGet {s : Replica} {b q : Block} {k : Hash} (hq : s.localGet k = some q) (hk : q.hash S = k)
    (hbB : b ∈ B) (hqB : q ∈ B) : (store S b s).localGet k = some q := by
  rw [store,localGet_insertBlock]
  split_ifs with he
  · rw [hinj hbB hqB (he.symm.trans hk.symm)]
  · exact hq

theorem Micro.localGet {a b : Phase} (hm : Micro S R env P a b) (hB : ∀ e ∈ b.1.blocks, e.2 ∈ B) {k : Hash} {q : Block}
    (hq : a.1.localGet k = some q) (hk : q.hash S = k) : b.1.localGet k = some q := by
  have hqB : q ∈ B := hB _ (hm.grows.2.1.mem (localGet_mem hq))
  cases hm with
  | look hf => exact hf.localGet hq
  | store b => exact store_localGet hinj hq hk (hB _ List.mem_cons_self) hqB
  | vote p => exact store_localGet hinj hq hk (hB _ List.mem_cons_self) hqB
  | _ => exact hq

theorem Steps.localGet {a b : Phase} (hm : Steps S R env P a b) (hB : ∀ e ∈ b.1.blocks, e.2 ∈ B) {k : Hash} {q : Block}
    (hq : a.1.localGet k = some q) (hk : q.hash S = k) : b.1.localGet k = some q := by
  induction hm with
  | refl => exact hq
  | tail _ hm ih => exact hm.localGet hinj hB (ih fun e he => hB e (hm.grows.2.1.mem he)) hk

end Injective

structure Rooted (S : Setup) (s : Replica) : Prop extends Coupled S s where
  lookup : s.localGet s.highQC.hash = some s.leafBlock

section Rooted
variable {B : Set Block} (hinj : Set.InjOn (Block.hash S) B)
include hinj

/-- The leaf only moves up. -/
theorem Micro.rooted {a b : Phase} (hm : Micro S R env P a b) (hB : ∀ e ∈ b.1.blocks, e.2 ∈ B) (h : Rooted S a.1) :
    Rooted S b.1 ∧ a.1.leafBlock.view ≤ b.1.leafBlock.view := by
  have hc := hm.coupled h.toCoupled
  have hlook := hm.localGet hinj hB h.lookup h.leaf
  cases hm with
  | look hf => exact ⟨⟨hc,hf.leafBlock_eq ▸ hf.highQC_eq ▸ hlook⟩,UInt64.le_of_eq (by rw [hf.leafBlock_eq])⟩
  | high qc hv _ hb hold hlt =>
    cases h.lookup.symm.trans hold
    exact ⟨⟨hc,hb⟩,UInt64.le_of_lt hlt⟩
  | _ => exact ⟨⟨hc,hlook⟩,UInt64.le_refl _⟩

theorem Steps.rooted {a b : Phase} (hm : Steps S R env P a b) (hB : ∀ e ∈ b.1.blocks, e.2 ∈ B) (h : Rooted S a.1) :
    Rooted S b.1 ∧ a.1.leafBlock.view ≤ b.1.leafBlock.view := by
  induction hm with
  | refl => exact ⟨h,UInt64.le_refl _⟩
  | tail _ hm ih =>
    obtain ⟨hr,hle⟩ := ih fun e he => hB e (hm.grows.2.1.mem he)
    exact (hm.rooted hinj hB hr).imp_right (UInt64.le_trans hle)

private theorem run_rooted (id : ID) (l : List (Env × Event)) (hB : ∀ e ∈ (run S R (init S id) l).blocks, e.2 ∈ B) :
    Rooted S (run S R (init S id) l) := by
  induction l using List.reverseRecOn with
  | nil => exact ⟨.init id,by simp [run,init,localGet]⟩
  | append_singleton l e ih =>
    rw [run_append] at hB ⊢
    have hstep : Steps S R e.1 _ (_,none) (_,none) := handle_micro e.2 (run S R (init S id) l)
    exact (hstep.rooted hinj hB (ih fun e he => hB e (hstep.grows.2.1.mem he))).1

theorem Visited.rooted {id : ID} {s : Replica} (h : Visited S R id s) (hB : ∀ e ∈ s.blocks, e.2 ∈ B) :
    Rooted S s := by
  obtain ⟨l,env,hrow⟩ := h
  induction hrow with
  | refl => exact run_rooted hinj id l hB
  | tail _ hp ih =>
    obtain ⟨x,hx⟩ := hp.steps
    exact (hx.rooted hinj hB (ih fun e he => hB e (hx.grows.2.1.mem he))).1

end Rooted

/-- A lookup of `h` gives `b`: it is stored, or can be fetched at any time. -/
def Available (S : Setup) (env : Env) (h : Hash) (b : Block) (s : Replica) : Prop :=
  s.localGet h = some b ∨ s.localGet h = none ∧ ∀ k, fetch S env k h = some b

theorem Available.get {h : Hash} {b : Block} {s : Replica} (ha : Available S env h b s) :
    ∃ t, get S env h s = (some b,t) := by
  unfold Replica.get
  rcases ha with hb | ⟨hn,hf⟩
  · rw [hb]
    exact ⟨s,rfl⟩
  · rw [hn,hf]
    exact ⟨_,rfl⟩

/-- `Propose` has the certified block stored when it asks for a command. -/
theorem Available.readied {si : SyncInfo} {qc : QuorumCert} {b : Block} {s u : Replica}
    (ha : Available S env qc.hash b s) (hqc : si.qc = some qc) (hu : Readied S env si s u) :
    u.localGet qc.hash = some b := by
  obtain ⟨t,hg⟩ := ha.get
  rw [Readied,hqc] at hu
  obtain ⟨b',t',hg',rfl⟩ := hu
  cases hg.symm.trans hg'
  exact (get_eq hg).2.1

/-- An accepted certificate whose block is available counts. -/
theorem Rooted.updateHighQC {s : Replica} (h : Rooted S s) {qc : QuorumCert} {b : Block}
    (hv : S.verifyQuorumCert qc = true) (ha : Available S env qc.hash b s) : ∃ t, Fetched S env s t ∧
      updateHighQC S env qc s =
        if s.leafBlock.view < b.view then { t with highQC := qc, leafBlock := b } else t := by
  obtain ⟨t,hg⟩ := ha.get
  have hf := (get_eq hg).1
  have hold : Replica.get S env t.highQC.hash t = (some s.leafBlock,t) := by
    rw [Replica.get,hf.highQC_eq,hf.localGet h.lookup]
  refine ⟨t,hf,?_⟩
  rw [Replica.updateHighQC,if_neg (by simp [hv]),hg]
  dsimp only
  rw [hold]

section Advance
variable {B : Set Block} (hinj : Set.InjOn (Block.hash S) B) {s : Replica} {si : SyncInfo} {qc : QuorumCert} {b : Block}
  {k : Nat}
include hinj

/-- Without a timeout certificate the quorum certificate is used. -/
theorem advanceView_raises (h : Rooted S s) (hs : s.halted = false)
    (hB : ∀ e ∈ (advanceView S R env k si s).blocks, e.2 ∈ B) (htc : si.tc = none) (hqc : si.qc = some qc)
    (hv : S.verifyQuorumCert qc = true) (ha : Available S env qc.hash b s) :
    b.view ≤ (advanceView S R env k si s).leafBlock.view := by
  obtain ⟨t,hf,he⟩ := h.updateHighQC hv ha
  have hup : (updateHighQC S env qc s).halted = false ∧ b.view ≤ (updateHighQC S env qc s).leafBlock.view := by
    rw [he]
    split_ifs with hlt
    · exact ⟨hf.halted_eq.trans hs,UInt64.le_refl _⟩
    · rw [hf.leafBlock_eq]
      exact ⟨hf.halted_eq.trans hs,UInt64.not_lt.mp hlt⟩
  have hadv : advanceView S R env k si s =
      enterView S env (propose S R env k) si qc.view false ((updateHighQC S env qc s).emit .viewSucceeded) := by
    rw [advanceView,advanceViewWith_qc S env _ htc hqc,if_neg (by simp [hv]),if_neg (by simp [hup.1])]
  have hsteps : Steps S R env (fun _ => True) (updateHighQC S env qc s,none) (advanceView S R env k si s,none) := by
    rw [hadv]
    refine (emit_steps rfl rfl _ _).trans (enterView_steps (propose_steps trivial k) hup.1 (fun _ _ => trivial) ?_)
    exact .inr ⟨qc,trivial,hv,rfl⟩
  have hfirst : Steps S R env (fun _ => True) (s,none) (updateHighQC S env qc s,none) :=
    updateHighQC_steps trivial s none
  have hr := (hfirst.rooted hinj (fun e he => hB e (hsteps.grows.2.1.mem he)) h).1
  exact UInt64.le_trans hup.2 (hsteps.rooted hinj hB hr).2

omit hinj in
/-- A timeout certificate does not touch the blocks. -/
private theorem Calls.available {u : Replica} (hu : Calls S env si s u) {tc : TimeoutCert} (htc : si.tc = some tc)
    (ha : Available S env qc.hash b s) : Available S env qc.hash b u := by
  cases hu.reaches with
  | timeout _ _ _ =>
    unfold learnTC
    split_ifs <;> exact ha
  | quorum hn _ _ _ _ => exact absurd (htc.symm.trans hn) (by simp)
  | bare hn _ _ => exact absurd (htc.symm.trans hn) (by simp)

/-- A proposal carries the certificate of the SyncInfo, whose block is stored by then. -/
private theorem Broadcasts.certified {u w : Replica} {p : ProposeMsg} (hw : Broadcasts S R env si u p w)
    (hqc : si.qc = some qc) (hb : b.hash S = qc.hash) (ha : Available S env qc.hash b u)
    (hB : ∀ e ∈ w.blocks, e.2 ∈ B) : p.block.cert = qc ∧ w.localGet qc.hash = some b := by
  obtain ⟨r,cmd,hr,hp,rfl⟩ := hw.made
  have hrb : r.localGet qc.hash = some b := ha.readied hqc hr
  refine ⟨?_,?_⟩
  · rw [hp,proposalOf,hqc]
    rfl
  · exact store_localGet hinj (s := r.tick) hrb hb (hB _ List.mem_cons_self)
      (hB _ (List.mem_cons_of_mem _ (localGet_mem hrb)))

/-- The leader's own proposal brings the certificate back, now on its own. -/
theorem advanceView_raises_leader (h : Rooted S s) (hs : s.halted = false)
    (hB : ∀ e ∈ (advanceView S R env k si s).blocks, e.2 ∈ B) {tc : TimeoutCert} (htc : si.tc = some tc)
    (hqc : si.qc = some qc) (hv : S.verifyQuorumCert qc = true) (hb : b.hash S = qc.hash)
    (ha : Available S env qc.hash b s) (hh : (advanceView S R env k si s).halted = false) {u w : Replica}
    {p : ProposeMsg} (hu : Calls S env si s u) (hw : Broadcasts S R env si u p w)
    (hc : checkCerts S R env p w.now = some true) : b.view ≤ (advanceView S R env k si s).leafBlock.view := by
  have hadv : advanceView S R env k si s = onPropose S R env k p w := by
    rw [advanceView,hu,propose,hw]
  have hwr := hw.running (hu.running hs)
  cases k with
  -- without fuel the nested `OnPropose` counts as one that does not return
  | zero =>
    rw [hadv] at hh
    cases hh
  | succ k =>
    rw [onPropose] at hadv
    rcases onProposeWith_tail S R env p w with ⟨-,hj,hp⟩ | ⟨hhalt,hp⟩
    · rw [hp] at hadv
      change _ = advanceView S R env k { qc := some p.block.cert } (judge S R env p w) at hadv
      obtain ⟨x,hjudge⟩ := judge_steps (S := S) (R := R) hwr p
      have hlast : Steps S R env (fun _ => True) (judge S R env p w,none) (_,none) :=
        advanceView_steps trivial k { qc := some p.block.cert } _ hj fun _ _ => trivial
      rw [hadv] at hB ⊢
      have hBj : ∀ e ∈ (judge S R env p w).blocks, e.2 ∈ B := fun e he => hB e (hlast.grows.2.1.mem he)
      have hBw : ∀ e ∈ w.blocks, e.2 ∈ B := fun e he => hBj e (hjudge.grows.2.1.mem he)
      have hsteps : Steps S R env (fun _ => True) (s,none) (judge S R env p w,x) :=
        ((hu.steps hs).trans (hw.steps (hu.running hs))).trans hjudge
      have hroot := (hsteps.rooted hinj hBj h).1
      obtain ⟨hcert,hwb⟩ := hw.certified hinj hqc hb (hu.available htc ha) hBw
      refine advanceView_raises hinj hroot hj hB rfl rfl (hcert ▸ hv) (.inl ?_)
      rw [hcert]
      exact hjudge.localGet hinj hBj hwb hb
    · rw [hadv,hp,hhalt hc] at hh
      cases hh

end Advance

/-- With a timeout certificate, and without a proposal of its own that passes the checks, a replica
does not look at the quorum certificate. -/
theorem advanceView_keeps {s : Replica} {si : SyncInfo} {tc : TimeoutCert} {k : Nat} (htc : si.tc = some tc)
    (hh : (advanceView S R env k si s).halted = false)
    (hno : ∀ u p w, Calls S env si s u → Broadcasts S R env si u p w → checkCerts S R env p w.now ≠ some true) :
    (advanceView S R env k si s).highQC = s.highQC := by
  have hlearn := learnTC_highQC tc s
  rw [advanceView,advanceViewWith_tc S env _ htc] at hh ⊢
  by_cases hv : S.verifyTimeoutCert tc = false
  · rw [if_pos hv]
  rw [if_neg hv,enterView_eq] at hh ⊢
  by_cases hlt : tc.view < (s.learnTC tc).currentView
  · rwa [if_pos hlt]
  rw [if_neg hlt] at hh ⊢
  by_cases hl : env.leader (s.learnTC tc).now (tc.view+1) = (s.learnTC tc).id
  · rw [if_pos hl] at hh ⊢
    have hcall : Calls S env si s ((s.learnTC tc).entered tc.view true) := fun propose => by
      rw [advanceViewWith_tc S env _ htc,if_neg hv,enterView_eq,if_neg hlt,if_pos hl]
    rw [propose] at hh ⊢
    rcases proposeWith_tail S R env si ((s.learnTC tc).entered tc.view true) with ⟨u,cmd,hu,hp⟩ | ⟨t,ht,hp⟩
    · have hfail := hno _ _ _ hcall hp
      rw [hp] at hh ⊢
      cases k with
      | zero => cases hh
      | succ k =>
        rw [onPropose,onProposeWith] at hh ⊢
        rcases hc : checkCerts S R env _ _ with _ | _ | _
        · rw [hc] at hh
          cases hh
        · exact hu.highQC_eq.trans hlearn
        · exact absurd hc hfail
    · rw [hp]
      rcases ht with hf | ⟨u,hu,rfl⟩
      · exact hf.highQC_eq.trans hlearn
      · exact hu.highQC_eq.trans hlearn
  · rw [if_neg hl]
    split_ifs <;> exact hlearn

section Lead
/-- The call on which `Propose` asks the queue for a command: the leader is looked up before, and the
certified block is fetched if it is not stored. -/
def queueCall (qc : QuorumCert) (s : Replica) : Nat := if s.localGet qc.hash = none then s.now+2 else s.now+1

variable (S R env) in
/-- With the timeout certificate the replica enters a view that it leads, its queue has a command, and an
aggregate that goes into the proposal is accepted and has the same certificate on top. -/
structure Leads (si : SyncInfo) (qc : QuorumCert) (tc : TimeoutCert) (s : Replica) : Prop where
  certificate : si.tc = some tc
  accepted : S.verifyTimeoutCert tc = true
  current : s.currentView ≤ tc.view
  leader : env.leader s.now (tc.view+1) = s.id
  command : env.command (queueCall qc s) ≠ none
  aggregate : R.useAggQC = true → ∀ agg, si.aggQC = some agg → ∃ high,
    S.verifyAggregateQC (reorder env agg (queueCall qc s + 1)) = some (some high) ∧ qc.equals high = true

/-- The checks of a proposal whose certificate is accepted come down to the aggregate. -/
private theorem checkCerts_iff {p : ProposeMsg} (hv : S.verifyQuorumCert p.block.cert = true) (n : Nat) :
    checkCerts S R env p n = some true ↔ (R.useAggQC = true → ∀ agg, p.aggQC = some agg → ∃ high,
      S.verifyAggregateQC (reorder env agg n) = some (some high) ∧ p.block.cert.equals high = true) := by
  rw [checkCerts,hv]
  cases R.useAggQC with
  | false => simp
  | true =>
    cases p.aggQC with
    | none => simp
    | some agg =>
      rcases hagg : S.verifyAggregateQC (reorder env agg n) with _ | _ | high <;> simp [hagg]

variable {s u w : Replica} {si : SyncInfo} {p : ProposeMsg} {qc : QuorumCert} {tc : TimeoutCert} {b : Block}

/-- A state that is there before the call cannot be what every continuation makes of it. -/
private theorem not_tail {α : Type*} (x : Replica) (a : α) (u : Replica) : ¬ ∀ f : α → Replica → Replica, x = f a u := by
  intro h
  have he := (h fun _ s => { s with halted := true }).symm.trans (h fun _ s => { s with halted := false })
  exact absurd (congrArg halted he) Bool.noConfusion

/-- With a timeout certificate `Propose` is called by the leader of the next view. -/
private theorem calls_iff (htc : si.tc = some tc) : Calls S env si s u ↔ S.verifyTimeoutCert tc = true ∧
    s.currentView ≤ tc.view ∧ env.leader s.now (tc.view+1) = s.id ∧ u = (s.learnTC tc).entered tc.view true := by
  obtain ⟨hview,hnow,hid,-⟩ := learnTC_frame tc s
  constructor
  · intro h
    cases h.reaches with
    | timeout htc' hv hlt =>
      cases htc.symm.trans htc'
      have hcur := hlt
      rw [hview] at hcur
      refine ⟨hv,UInt64.not_lt.mp hcur,?_,rfl⟩
      by_contra hl
      rw [← hnow,← hid] at hl
      simp only [Calls,advanceViewWith_tc S env _ htc,hv,Bool.true_eq_false,if_false,enterView_eq,if_neg hlt,if_neg hl] at h
      exact not_tail _ _ _ h
    | quorum hn _ _ _ _ => cases htc.symm.trans hn
    | bare hn _ _ => cases htc.symm.trans hn
  · rintro ⟨hv,hcur,hl,rfl⟩ propose
    rw [← hview] at hcur
    rw [← hnow,← hid] at hl
    rw [advanceViewWith_tc S env _ htc,if_neg (by simp [hv]),enterView_eq,if_neg (UInt64.not_lt.mpr hcur),if_pos hl]

/-- The certified block is found after the view has been entered. -/
private theorem get_entered (tc : TimeoutCert) (ha : Available S env qc.hash b s) :
    ∃ t, get S env qc.hash ((s.learnTC tc).entered tc.view true) = (some b,t) ∧ t.now = queueCall qc s := by
  obtain ⟨-,hnow,-,hblocks⟩ := learnTC_frame tc s
  have hlook : ((s.learnTC tc).entered tc.view true).localGet qc.hash = s.localGet qc.hash :=
    congrArg (List.lookup qc.hash) hblocks
  rw [get,hlook,queueCall,← hnow]
  rcases ha with hb | ⟨hn,hf⟩
  · rw [hb]
    exact ⟨_,rfl,rfl⟩
  · rw [hn,hf]
    exact ⟨_,rfl,rfl⟩

/-- `Propose` broadcasts something exactly if the queue has a command. -/
private theorem broadcasts_iff (hqc : si.qc = some qc) {t : Replica} (hg : get S env qc.hash u = (some b,t)) :
    (∃ p w, Broadcasts S R env si u p w) ↔ env.command t.now ≠ none := by
  unfold Broadcasts
  simp only [proposeWith,hqc,hg,proposeBlock,emit]
  cases hc : env.command t.now with
  | none => simpa using fun p w => not_tail _ p w
  | some cmd => exact ⟨fun _ => by simp,fun _ => ⟨_,_,fun _ => rfl⟩⟩

/-- The certificate comes back with the leader's own proposal exactly if `Leads` holds. -/
theorem leads_iff (htc : si.tc = some tc) (hqc : si.qc = some qc) (hv : S.verifyQuorumCert qc = true)
    (ha : Available S env qc.hash b s) :
    (∃ u p w, Calls S env si s u ∧ Broadcasts S R env si u p w ∧ checkCerts S R env p w.now = some true) ↔
      Leads S R env si qc tc s := by
  obtain ⟨t,hg,hnow⟩ := get_entered tc ha
  have hcheck {p : ProposeMsg} {w : Replica} (hw : Broadcasts S R env si ((s.learnTC tc).entered tc.view true) p w) :
      checkCerts S R env p w.now = some true ↔ (R.useAggQC = true → ∀ agg, si.aggQC = some agg → ∃ high,
        S.verifyAggregateQC (reorder env agg (queueCall qc s + 1)) = some (some high) ∧ qc.equals high = true) := by
    obtain ⟨r,cmd,hr,rfl,rfl⟩ := hw.made
    have hr' : r.now = queueCall qc s := by
      rw [Readied,hqc] at hr
      obtain ⟨b',t',hg',rfl⟩ := hr
      cases hg.symm.trans hg'
      exact hnow
    have hcert : (proposalOf S R si cmd r).block.cert = qc := by
      rw [proposalOf,hqc]
      rfl
    refine (checkCerts_iff (hcert ▸ hv) _).trans (forall_congr' fun hR => ?_)
    rw [hcert,← hr',show (proposalOf S R si cmd r).aggQC = si.aggQC from if_pos hR]
    rfl
  constructor
  · rintro ⟨u,p,w,hu,hw,hc⟩
    obtain ⟨htv,hcur,hl,rfl⟩ := (calls_iff htc).mp hu
    exact ⟨htc,htv,hcur,hl,hnow ▸ (broadcasts_iff hqc hg).mp ⟨p,w,hw⟩,(hcheck hw).mp hc⟩
  · intro h
    obtain ⟨p,w,hw⟩ := (broadcasts_iff (R := R) hqc hg).mpr (hnow ▸ h.command)
    exact ⟨_,p,w,(calls_iff htc).mpr ⟨h.accepted,h.current,h.leader,rfl⟩,hw,(hcheck hw).mpr h.aggregate⟩

end Lead

variable (S R) in
/-- After `AdvanceView` the high QC is at least as high as the certificate it was given exactly if there
is no timeout certificate beside it, if it was before, or if the replica leads the view that it enters
and has a command, and no aggregate stands against its proposal. -/
theorem advance_view_raises_iff (id : ID) {B : Set Block} (hinj : Set.InjOn (Block.hash S) B) {s : Replica}
    (hr : Visited S R id s) (hs : s.halted = false) {k : Nat} {si : SyncInfo} {qc : QuorumCert} {b : Block}
    (hqc : si.qc = some qc) (hv : S.verifyQuorumCert qc = true) (hb : b.hash S = qc.hash)
    (ha : Available S env qc.hash b s) (hh : (advanceView S R env k si s).halted = false)
    (hB : ∀ e ∈ (advanceView S R env k si s).blocks, e.2 ∈ B) :
    (∃ q, (advanceView S R env k si s).localGet (advanceView S R env k si s).highQC.hash = some q ∧
        b.view ≤ q.view) ↔
      si.tc = none ∨ (∃ q, s.localGet s.highQC.hash = some q ∧ b.view ≤ q.view) ∨
        ∃ tc, Leads S R env si qc tc s := by
  have hsteps : Steps S R env (fun _ => True) (s,none) (advanceView S R env k si s,none) :=
    advanceView_steps trivial k si s hs fun _ _ => trivial
  have hroot : Rooted S s := hr.rooted hinj fun e he => hB e (hsteps.grows.2.1.mem he)
  obtain ⟨hroot',hle⟩ := hsteps.rooted hinj hB hroot
  rw [hroot'.lookup,hroot.lookup]
  simp only [Option.some.injEq,exists_eq_left']
  constructor
  · intro hview
    cases hcase : si.tc with
    | none => exact .inl rfl
    | some tc =>
      by_cases hlead : Leads S R env si qc tc s
      · exact .inr (.inr ⟨tc,hlead⟩)
      · have hkeep := advanceView_keeps (R := R) hcase hh fun u p w hu hw hc =>
          hlead ((leads_iff hcase hqc hv ha).mp ⟨u,p,w,hu,hw,hc⟩)
        have hlook := hsteps.localGet hinj hB hroot.lookup hroot.leaf
        rw [← hkeep,hroot'.lookup] at hlook
        exact .inr (.inl (Option.some.inj hlook ▸ hview))
  · rintro (hnone | hold | ⟨tc,hlead⟩)
    · exact advanceView_raises hinj hroot hs hB hnone hqc hv ha
    · exact UInt64.le_trans hold hle
    · obtain ⟨u,p,w,hu,hw,hc⟩ := (leads_iff hlead.certificate hqc hv ha).mpr hlead
      exact advanceView_raises_leader hinj hroot hs hB hlead.certificate hqc hv hb ha hh hu hw hc

end Replica

namespace Sample
open Replica

private def stored : Replica := run setup .chained (init setup 1) [(env 1 [],.propose ⟨4,first 1,none⟩)]

private theorem stored_visited : Visited setup .chained 1 stored := ⟨_,env 1 [],.refl⟩

theorem advance_view_raises_bare : ∃ q : Block, (first 1).view ≤ q.view ∧
    (advanceView setup .chained (env 1 []) 20 { qc := some (qcOf [2,3,4] (first 1)) } stored).localGet
      (advanceView setup .chained (env 1 []) 20 { qc := some (qcOf [2,3,4] (first 1)) } stored).highQC.hash =
        some q := by
  have hinj : Set.InjOn (Block.hash setup) {b | b ∈ [genesis,first 1]} := injOn_pair (by decide +kernel)
  have hB : (advanceView setup .chained (env 1 []) 20 { qc := some (qcOf [2,3,4] (first 1)) } stored).blocks.all
      (fun e => e.2 ∈ [genesis,first 1]) = true := by decide +kernel
  obtain ⟨q,hq,hle⟩ := (advance_view_raises_iff setup .chained 1 hinj stored_visited (by decide +kernel) rfl
    (by decide +kernel) (b := first 1) (by decide +kernel) (.inl (by decide +kernel)) (by decide +kernel) fun e he =>
      of_decide_eq_true (List.all_eq_true.mp hB e he)).mpr (.inl rfl)
  exact ⟨q,hle,hq⟩

private def withTC : SyncInfo := { qc := some (qcOf [2,3,4] (first 1)), tc := some (tcOf [2,3,4] 2) }

/-- A replica that is not the leader enters view 3 with a timeout certificate of view 2; the quorum certificate
for the block of view 1 in the same SyncInfo is lost. -/
theorem advance_view_ignores : ∃ (s : Replica) (si : SyncInfo) (qc : QuorumCert) (b : Block),
    Visited setup .chained 1 s ∧ s.halted = false ∧ si.qc = some qc ∧ setup.verifyQuorumCert qc = true ∧
    b.hash setup = qc.hash ∧ Available setup (env 1 []) qc.hash b s ∧
    (∀ tc, si.tc = some tc → setup.verifyTimeoutCert tc = true) ∧
    (advanceView setup .chained (env 1 []) 20 si s).halted = false ∧
    ¬ ∃ q, (advanceView setup .chained (env 1 []) 20 si s).localGet
        (advanceView setup .chained (env 1 []) 20 si s).highQC.hash = some q ∧ b.view ≤ q.view := by
  refine ⟨stored,withTC,_,first 1,stored_visited,
    by decide +kernel,rfl,by decide +kernel,by decide +kernel,.inl (by decide +kernel),?_,by decide +kernel,?_⟩
  · rintro tc ⟨⟩
    decide +kernel
  · rintro ⟨q,hq,hle⟩
    have hgen : (advanceView setup .chained (env 1 []) 20 withTC stored).localGet
        (advanceView setup .chained (env 1 []) 20 withTC stored).highQC.hash = some genesis := by decide +kernel
    cases hgen.symm.trans hq
    exact absurd hle (by decide)

end Sample
end Hotstuff
