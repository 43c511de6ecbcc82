import Hotstuff.Progress.Follow
import Hotstuff.Replica.Frame

/-! The handlers of a replica that follows a chain: what it sends when it is shown the next block, leads a view or
collects votes. -/
namespace Hotstuff

def Effect.message : Effect → Bool
  | .sendPropose _ => true
  | .sendVote _ _ => true
  | .sendNewView _ _ => true
  | .sendTimeout _ => true
  | .newViewEvent _ => true
  | _ => false

/-- A vote for the block that other replicas accept as one of replica `i`. -/
structure PartialCert.Counts (S : Setup) (b : Block) (i : ID) (c : PartialCert) : Prop where
  hash : c.blockHash = b.hash S
  valid : S.verifyPartialCert c = true
  signer : c.signature.map Signature.signer = some i

/-- A view below another is not the last one. -/
theorem View.succ_le {v w : View} (h : v < w) : v + 1 ≤ w := by
  rw [UInt64.lt_iff_toNat_lt] at h
  have hw := w.toNat_lt
  rw [UInt64.le_iff_toNat_le,UInt64.toNat_add,show (1 : View).toNat = 1 from rfl]
  omega

theorem View.le_succ_of_lt {v w : View} (h : v < w) : v ≤ v + 1 := by
  rw [UInt64.lt_iff_toNat_lt] at h
  have hw := w.toNat_lt
  rw [UInt64.le_iff_toNat_le,UInt64.toNat_add,show (1 : View).toNat = 1 from rfl]
  omega

namespace Replica

def outbox (s : Replica) : List Effect := s.log.filter Effect.message

structure Stays (s s' : Replica) : Prop where
  id : s'.id = s.id
  currentView : s'.currentView = s.currentView
  highTC : s'.highTC = s.highTC
  lastTimeout : s'.lastTimeout = s.lastTimeout
  timeouts : s'.timeouts = s.timeouts
  verifiedVotes : s'.verifiedVotes = s.verifiedVotes
  pending : s'.pending = s.pending

variable {S : Setup} {R : RuleSet} {env : Env} {s : Replica} {l d : List Block} {a b : Block} {leader : View → ID}

private theorem outbox_executedTo (b : Block) (mid : List Block) (s : Replica) : (s.executedTo b mid).outbox = s.outbox := by
  have hnone : (mid.map Effect.exec).filter Effect.message = [] := by simp [Effect.message]
  rw [outbox,executedTo,List.filter_append,hnone,List.nil_append,outbox]

theorem vote_eq (he : env.Cooperates S leader s.id) (hv : s.lastVote < b.view)
    (hlead : leader b.view ∈ S.replicas) : ∃ c : PartialCert, c.Counts S b s.id ∧ vote S env b s = { s with
      now := s.now+2, lastVote := b.view, log := .sendVote (leader b.view) c :: .vote b :: s.log } := by
  obtain ⟨r,t,hsign,hvalid⟩ := he.sign s.now (b.hash S)
  refine ⟨⟨some (.ecdsa ⟨r,t,s.id⟩),b.hash S⟩,⟨rfl,hvalid,rfl⟩,?_⟩
  rw [vote,if_neg (UInt64.not_le.mpr hv),sign,hsign]
  dsimp only [getLeader]
  rw [he.leader,if_pos (.inr hlead)]
  rfl

structure Ready (S : Setup) (R : RuleSet) (leader : View → ID) (env : Env) (b : Block) (l : List Block) (s : Replica) :
    Prop where
  cooperates : env.Cooperates S leader s.id
  lineage : Lineage S (b :: l)
  base : ∃ d, (d = l ∨ d = b :: l) ∧ Knows S d s ∧ Executes d (R.settled l) s
  leaf : s.leafBlock ∈ l
  lastVote : s.lastVote < b.view
  leader_mem : leader b.view ∈ S.replicas
  fuel : l.length + 1 < env.fuel

structure Added (S : Setup) (R : RuleSet) (leader : View → ID) (b : Block) (l : List Block) (s s' : Replica) :
    Prop extends Stays s s' where
  knows : Knows S (b :: l) s'
  executes : Executes (b :: l) (R.settled (b :: l)) s'
  leaf : s'.leafBlock ∈ l
  lastVote : s'.lastVote = b.view
  sent : ∃ c : PartialCert, c.Counts S b s.id ∧ s'.outbox = .sendVote (leader b.view) c :: s.outbox

/-- What came before is neither a message nor a change of the state. -/
theorem Added.after {s' : Replica} {now : Nat} {log : List Effect} (h : Added S R leader b l { s with now := now, log := log } s')
    (hlog : ({ s with log := log } : Replica).outbox = s.outbox) : Added S R leader b l s s' :=
  ⟨⟨h.id,h.currentView,h.highTC,h.lastTimeout,h.timeouts,h.verifiedVotes,h.pending⟩,h.knows,h.executes,h.leaf,h.lastVote,
    hlog ▸ h.sent⟩

namespace Ready

theorem frame (h : Ready S R leader env b l s) (now : Nat) (log : List Effect)
    (hlog : ({ s with log := log } : Replica).executed = s.executed) :
    Ready S R leader env b l { s with now := now, log := log } :=
  ⟨h.cooperates,h.lineage,h.base.imp fun _ hd => ⟨hd.1,hd.2.1.frame,hd.2.2.frame hlog⟩,h.leaf,h.lastVote,h.leader_mem,h.fuel⟩

theorem accepted (h : Ready S R leader env b l s) : Added S R leader b l s (accepted S R env b s) := by
  obtain ⟨c,hc,hvote⟩ := vote_eq (s := store S b s) h.cooperates h.lastVote h.leader_mem
  obtain ⟨d,hd,hk,hx⟩ := h.base
  have hkv : Knows S (b :: l) (vote S env b (store S b s)) := hvote ▸ (hk.store h.lineage hd).frame
  have hxv : Executes (b :: l) (R.settled l) (vote S env b (store S b s)) :=
    hvote ▸ (hx.store h.lineage hd (RuleSet.settled_suffix l)).frame rfl
  clear hd hk hx
  obtain ⟨n,lock,qc,leaf,hrule,hkj,hleaf⟩ := hkv.commitRule (R := R) h.lineage (by rw [hvote]; exact h.leaf)
    h.cooperates.missing
  obtain ⟨a,l,rfl⟩ := List.exists_cons_of_ne_nil (List.ne_nil_of_mem h.leaf)
  have hset := RuleSet.settled.eq_3 R b a l
  rw [Replica.accepted,hrule]
  cases hd : R.decided (b :: a :: l) with
  | none =>
    rw [hd] at hset
    rw [hvote] at hkj hxv ⊢
    exact ⟨⟨rfl,rfl,rfl,rfl,rfl,rfl,rfl⟩,hkj,hset ▸ hxv.frame rfl,hleaf,rfl,c,hc,rfl⟩
  | some d =>
    obtain ⟨mid,rfl⟩ := RuleSet.settled_suffix_decided hd
    rw [hd] at hset
    have hs : mid ++ R.settled (a :: l) <:+ b :: a :: l := by
      rw [(RuleSet.decided_suffix hd).1]
      exact List.drop_suffix _ _
    obtain ⟨x,t,ht⟩ := List.exists_cons_of_ne_nil (l := mid ++ R.settled (a :: l))
      (List.append_ne_nil_of_right_ne_nil _ (RuleSet.settled_ne_nil (by simp)))
    have hhead : (mid ++ R.settled (a :: l)).head? = some x := by rw [ht]; rfl
    rw [Option.bind_some,hhead]
    dsimp only
    rw [hvote] at hkj hxv ⊢
    obtain ⟨hcommit,hxc⟩ := Knows.commit (s := emit (.decide b x) (judged n lock qc leaf _)) hkj.frame (hxv.frame rfl)
      h.lineage hs hhead h.fuel
    rw [hcommit]
    refine ⟨⟨rfl,rfl,rfl,rfl,rfl,rfl,rfl⟩,hkj.frame,hset ▸ hxc,hleaf,rfl,c,hc,?_⟩
    rw [outbox_executedTo]
    rfl

variable {p : ProposeMsg}

/-- A proposal of the leader for the next block of the chain reaches the vote. -/
theorem consider (h : Ready S R leader env p.block (a :: l) s) (hid : p.id = leader p.block.view)
    (hcur : s.currentView ≤ p.block.view) (hfast : R = .fast → p.aggQC = none → p.block.view = a.view + 1) :
    Added S R leader p.block (a :: l) s (consider S R env p s) := by
  obtain ⟨d,hd,hk,-⟩ := h.base
  have ha : a ∈ d := by rcases hd with rfl | rfl <;> simp
  have hlow : s.lock = genesis ∨ s.lock ∈ l := by
    refine hk.lock.imp (fun hg => hg) fun hm => ?_
    rcases hd with rfl | rfl
    · exact List.mem_of_mem_drop (i := 1) hm
    · exact hm
  have hk' : Knows S d s.tick := hk.frame
  have hrule : voteRule S env R p s.tick = (true,s.tick) :=
    hk'.voteRule h.lineage ha hlow (by have := h.fuel; omega) hcur hfast
  have heq : Replica.consider S R env p s = Replica.accepted S R env p.block { s with
      now := s.now+2, log := .proposed a.cmd :: s.log } := by
    rw [Replica.consider]
    dsimp only [getLeader]
    rw [h.cooperates.leader,if_neg (by simp [hid]),hrule]
    dsimp only
    rw [tellProposed,hk'.get ha h.lineage.link.2.hash]
    dsimp only [accept]
    rw [h.cooperates.accept]
    rfl
  rw [heq]
  exact (h.frame (s.now+2) (.proposed a.cmd :: s.log) rfl).accepted.after rfl

/-- `OnPropose` up to the deferred `AdvanceView`. -/
theorem onProposeWith (h : Ready S R leader env p.block (a :: l) s) (hid : p.id = leader p.block.view)
    (hcur : s.currentView ≤ p.block.view) (hfast : R = .fast → p.aggQC = none → p.block.view = a.view + 1)
    (hcheck : checkCerts S R env p s.now = some true) (advance : SyncInfo → Replica → Replica) :
    ∃ t, onProposeWith S R env advance p s = advance { qc := some p.block.cert } t ∧ Added S R leader p.block (a :: l) s t := by
  have hadd := (h.frame (s.now+1) (.handle p :: s.log) rfl).consider hid hcur hfast
  refine ⟨_,?_,hadd.after rfl⟩
  rw [Replica.onProposeWith,hcheck]
  exact if_neg (ne_true_of_eq_false hadd.knows.halted)

end Ready

def learned (qc : QuorumCert) (a : Block) (s : Replica) : Replica :=
  if s.leafBlock.view < a.view then { s with highQC := qc, leafBlock := a } else s

/-- A replica that has been shown the chain `l` and holds no votes. -/
structure Tracks (S : Setup) (R : RuleSet) (l : List Block) (s : Replica) : Prop where
  knows : Knows S l s
  executes : Executes l (R.settled l) s
  verifiedVotes : s.verifiedVotes = []
  pending : s.pending = []

structure Calm (S : Setup) (s : Replica) : Prop where
  timeouts : s.timeouts = []
  lastTimeout : s.lastTimeout = none
  valid : S.verifyTimeoutCert s.highTC = true
  below : s.highTC.view < s.currentView

structure Follows (S : Setup) (R : RuleSet) (l : List Block) (s : Replica) : Prop extends Tracks S R l s where
  calm : Calm S s

/-- A replica in view `v` that has seen the certificate of the block `b` on top of the chain `l`, and no more. -/
structure Idle (S : Setup) (R : RuleSet) (v : View) (b : Block) (l : List Block) (i : ID) (s : Replica) : Prop where
  follows : Follows S R (b :: l) s
  id : s.id = i
  leaf : s.leafBlock = b
  lastVote : s.lastVote < v
  currentView : s.currentView = v

section Learned
variable {qc : QuorumCert}

theorem learned_cases (qc : QuorumCert) (a : Block) (s : Replica) : s.learned qc a = { s with highQC := qc, leafBlock := a } ∨
    s.learned qc a = s ∧ a.view ≤ s.leafBlock.view := by
  rw [learned]
  split_ifs with hlt
  · exact .inl rfl
  · exact .inr ⟨rfl,UInt64.not_lt.mp hlt⟩

theorem Knows.learned (h : Knows S l s) (ha : a ∈ l) (hq : qc.Certifies S a) : Knows S l (s.learned qc a) := by
  rcases learned_cases qc a s with he | ⟨he,-⟩
  · exact he ▸ h.learn ha hq
  · rw [he]
    exact h

theorem Tracks.frame (h : Tracks S R l s) {id now lastVote currentView highTC lastTimeout timeouts log}
    (hlog : ({ s with log := log } : Replica).executed = s.executed) : Tracks S R l { s with
      id := id, now := now, lastVote := lastVote, currentView := currentView, highTC := highTC, lastTimeout := lastTimeout,
      timeouts := timeouts, log := log } :=
  ⟨h.knows.frame,h.executes.frame hlog,h.verifiedVotes,h.pending⟩

theorem Tracks.learned (h : Tracks S R l s) (ha : a ∈ l) (hq : qc.Certifies S a) : Tracks S R l (s.learned qc a) := by
  rcases learned_cases qc a s with he | ⟨he,-⟩
  · rw [he]
    exact ⟨h.knows.learn ha hq,h.executes.frame rfl,h.verifiedVotes,h.pending⟩
  · rw [he]
    exact h

theorem Follows.learned (h : Follows S R l s) (ha : a ∈ l) (hq : qc.Certifies S a) : Follows S R l (s.learned qc a) := by
  refine ⟨h.toTracks.learned ha hq,?_⟩
  have hc := h.calm
  rcases learned_cases qc a s with he | ⟨he,-⟩
  · rw [he]
    exact ⟨hc.timeouts,hc.lastTimeout,hc.valid,hc.below⟩
  · rw [he]
    exact hc

theorem Follows.frame (h : Follows S R l s) {id now lastVote log}
    (hlog : ({ s with log := log } : Replica).executed = s.executed) : Follows S R l { s with
      id := id, now := now, lastVote := lastVote, log := log } :=
  ⟨h.toTracks.frame hlog,h.calm.timeouts,h.calm.lastTimeout,h.calm.valid,h.calm.below⟩

/-- A later view is entered, and no timeout of it is there. -/
theorem Follows.enter (h : Follows S R l s) {v : View} (hv : s.currentView ≤ v) {now log}
    (hlog : ({ s with log := log } : Replica).executed = s.executed) : Follows S R l { s with
      now := now, currentView := v, lastTimeout := none, log := log } :=
  ⟨h.toTracks.frame hlog,h.calm.timeouts,rfl,h.calm.valid,UInt64.lt_of_lt_of_le h.calm.below hv⟩

/-- The newest certified block of a chain becomes the leaf. -/
theorem learned_leafBlock (hl : Lineage S (a :: l)) (hleaf : s.leafBlock ∈ a :: l) : (s.learned qc a).leafBlock = a := by
  rcases learned_cases qc a s with he | ⟨he,hle⟩
  · rw [he]
  · rw [he]
    exact hl.eq_of_view hleaf List.mem_cons_self (UInt64.le_antisymm (hl.le_of_mem hleaf) hle)

theorem enterView_old {propose : SyncInfo → Replica → Replica} {si : SyncInfo} {v : View} {timeout : Bool}
    (h : v < s.currentView) : enterView S env propose si v timeout s = s := if_pos h

theorem Knows.advanceViewWith (h : Knows S l s) (ha : a ∈ l) (hq : qc.Certifies S a) {si : SyncInfo}
    (hsi : si.qc = some qc) (htc : si.tc = none) (propose : SyncInfo → Replica → Replica) :
    advanceViewWith S env propose si s =
      enterView S env propose si a.view false ((s.learned qc a).emit .viewSucceeded) := by
  have hk := h.learned ha hq
  rw [Replica.advanceViewWith,htc,hsi]
  dsimp only
  rw [if_neg (by simp [hq.valid]),h.updateHighQC ha hq,← Replica.learned,andThen,if_neg (by simp [hk.halted]),hq.view]

end Learned

def lastBallot (s : Replica) : Option PartialCert := s.outbox.findSome? fun
  | .sendVote _ c => some c
  | _ => none

def lastProposal (s : Replica) : Option ProposeMsg := s.outbox.findSome? fun
  | .sendPropose p => some p
  | _ => none

def lastCertificate (s : Replica) : Option QuorumCert := s.outbox.findSome? fun
  | .newViewEvent qc => some qc
  | _ => none

structure Shown (S : Setup) (R : RuleSet) (b a : Block) (l : List Block) (s s' : Replica) : Prop where
  follows : Follows S R (b :: a :: l) s'
  leaf : s'.leafBlock = a
  lastVote : s'.lastVote = b.view
  id : s'.id = s.id
  vote : ∃ c : PartialCert, c.Counts S b s.id ∧ s'.lastBallot = some c
  proposal : s'.lastProposal = s.lastProposal
  newest : a.view < s.currentView → ∃ i c, s'.outbox.head? = some (.sendVote i c)

/-- `OnPropose` on the leader's proposal for the next block of the chain. Afterwards the replica is past the view of the
block's certificate. -/
theorem Ready.onPropose {p : ProposeMsg} (h : Ready S R leader env p.block (a :: l) s) (hid : p.id = leader p.block.view)
    (hcur : s.currentView ≤ p.block.view) (hfast : R = .fast → p.aggQC = none → p.block.view = a.view + 1)
    (hcheck : checkCerts S R env p s.now = some true) (hvotes : s.verifiedVotes = []) (hpending : s.pending = [])
    (hcalm : Calm S s) (hlead : s.currentView ≤ a.view → leader (a.view + 1) ≠ s.id ∧ leader (a.view + 1) ∈ S.replicas) (k : Nat) :
    Shown S R p.block a l s (onPropose S R env (k+1) p s) ∧ (onPropose S R env (k+1) p s).currentView =
      if a.view < s.currentView then s.currentView else a.view + 1 := by
  obtain ⟨t,heq,hadd⟩ := h.onProposeWith hid hcur hfast hcheck
    (Replica.advanceViewWith S env (proposeWith S R env (Replica.onPropose S R env k)))
  have hcert := h.lineage.link.2
  have hmem : a ∈ p.block :: a :: l := by simp
  have hfol : Follows S R (p.block :: a :: l) t :=
    ⟨⟨hadd.knows,hadd.executes,hadd.verifiedVotes.trans hvotes,hadd.pending.trans hpending⟩,
      hadd.timeouts.trans hcalm.timeouts,hadd.lastTimeout.trans hcalm.lastTimeout,hadd.highTC ▸ hcalm.valid,
      hadd.highTC ▸ hadd.currentView ▸ hcalm.below⟩
  have hfol' := hfol.learned hmem hcert
  have hleaf : (t.learned p.block.cert a).leafBlock = a := learned_leafBlock h.lineage.tail hadd.leaf
  obtain ⟨c,hc,hout⟩ := hadd.sent
  have hsame : (t.learned p.block.cert a).lastVote = p.block.view ∧ (t.learned p.block.cert a).id = s.id ∧
      (t.learned p.block.cert a).currentView = s.currentView ∧ (t.learned p.block.cert a).outbox = t.outbox := by
    rcases learned_cases p.block.cert a t with he | ⟨he,-⟩
    · rw [he]
      exact ⟨hadd.lastVote,hadd.id,hadd.currentView,rfl⟩
    · rw [he]
      exact ⟨hadd.lastVote,hadd.id,hadd.currentView,rfl⟩
  obtain ⟨hlast,hid',hview,hout'⟩ := hsame
  rw [Replica.onPropose,heq,hadd.knows.advanceViewWith hmem hcert rfl rfl]
  generalize t.learned p.block.cert a = u at *
  rw [enterView]
  have hcur' : (u.emit .viewSucceeded).currentView = s.currentView := hview
  rw [hcur']
  rw [hout] at hout'
  split_ifs with hlt
  · refine ⟨⟨hfol'.frame rfl,hleaf,hlast,hid',⟨c,hc,?_⟩,?_,fun _ => ⟨leader p.block.view,c,?_⟩⟩,hview⟩
    · change List.findSome? _ u.outbox = _
      rw [hout']
      rfl
    · change List.findSome? _ u.outbox = _
      rw [hout']
      rfl
    · change u.outbox.head? = _
      rw [hout']
      rfl
  · obtain ⟨hne,hin⟩ := hlead (UInt64.not_lt.mp hlt)
    dsimp only [getLeader,tick,emit]
    rw [h.cooperates.leader,if_neg (hid' ▸ hne),if_pos hin]
    have hle : u.currentView ≤ a.view + 1 :=
      UInt64.le_trans (hview ▸ UInt64.not_lt.mp hlt) (View.le_succ_of_lt (h.lineage.lt_of_mem List.mem_cons_self))
    refine ⟨⟨hfol'.enter hle rfl,hleaf,hlast,hid',⟨c,hc,?_⟩,?_,fun hlt' => absurd hlt' hlt⟩,rfl⟩
    · change List.findSome? _ (Effect.sendNewView _ _ :: u.outbox) = _
      rw [hout']
      rfl
    · change List.findSome? _ (Effect.sendNewView _ _ :: u.outbox) = _
      rw [hout']
      rfl

def blockOn (S : Setup) (a : Block) (qc : QuorumCert) (cmd : Command) (s : Replica) : Block :=
  ⟨a.hash S,s.id,cmd,qc,s.currentView⟩

section Propose
variable {qc : QuorumCert} {si : SyncInfo}

def proposalFor (R : RuleSet) (si : SyncInfo) (b : Block) (s : Replica) : ProposeMsg :=
  ⟨s.id,b,if R.useAggQC then si.aggQC else none⟩

theorem Follows.propose_eq (h : Follows S R (a :: l) s) (hleaf : s.leafBlock = a) (hq : qc.Certifies S a)
    (hsi : si.qc = some qc) {cmd : Command} (hcmd : env.command s.now = some cmd) (k : Nat) :
    propose S R env k si s = onPropose S R env k (s.proposalFor R si (s.blockOn S a qc cmd))
      ((store S (s.blockOn S a qc cmd) ((s.emit (.proposed a.cmd)).tick)).emit
        (.sendPropose (s.proposalFor R si (s.blockOn S a qc cmd)))) := by
  have hcmd' : env.command (s.emit (.proposed a.cmd)).now = some cmd := hcmd
  rw [propose,proposeWith,hsi]
  dsimp only
  rw [h.knows.get List.mem_cons_self hq.hash]
  dsimp only
  rw [proposeBlock,hcmd']
  dsimp only
  rw [hsi]
  subst hleaf
  rfl

structure Proposed (S : Setup) (R : RuleSet) (p : ProposeMsg) (a : Block) (l : List Block) (s : Replica) : Prop where
  follows : Follows S R (p.block :: a :: l) s
  leaf : s.leafBlock = a
  lastVote : s.lastVote = p.block.view
  currentView : s.currentView = p.block.view
  vote : ∃ c : PartialCert, c.Counts S p.block s.id ∧ s.lastBallot = some c
  proposal : s.lastProposal = some p
  newest : ∃ i c, s.outbox.head? = some (.sendVote i c)

/-- The leader of the current view proposes on top of the leaf and votes for its block. -/
theorem Follows.propose (h : Follows S R (a :: l) s) (he : env.Cooperates S leader s.id) (hleaf : s.leafBlock = a)
    (hq : qc.Certifies S a) (hsi : si.qc = some qc) {cmd : Command} (hcmd : env.command s.now = some cmd)
    (hl : Lineage S (s.blockOn S a qc cmd :: a :: l)) (hlead : leader s.currentView = s.id) (hmem : s.id ∈ S.replicas)
    (hv : s.lastVote < s.currentView) (hfast : R = .fast → si.aggQC = none → s.currentView = a.view + 1)
    (hcheck : ∀ k, checkCerts S R env (s.proposalFor R si (s.blockOn S a qc cmd)) k = some true)
    (hfuel : l.length + 2 < env.fuel) (k : Nat) :
    Proposed S R (s.proposalFor R si (s.blockOn S a qc cmd)) a l (propose S R env (k+1) si s) ∧
      (propose S R env (k+1) si s).id = s.id := by
  rw [h.propose_eq hleaf hq hsi hcmd]
  set b := s.blockOn S a qc cmd with hb
  set t := (store S b ((s.emit (.proposed a.cmd)).tick)).emit (.sendPropose (s.proposalFor R si b)) with ht
  have hknows : Knows S (b :: a :: l) t := (h.knows.store hl (.inl rfl)).frame
  have hexec : Executes (b :: a :: l) (R.settled (a :: l)) t :=
    (h.executes.store hl (.inl rfl) (RuleSet.settled_suffix _)).frame rfl
  have hready : Ready S R leader env (s.proposalFor R si b).block (a :: l) t :=
    ⟨he,hl,⟨_,.inr rfl,hknows,hexec⟩,hleaf ▸ List.mem_cons_self,hv,hlead ▸ hmem,hfuel⟩
  have hfast' : R = .fast → (s.proposalFor R si b).aggQC = none → b.view = a.view + 1 := by
    rintro rfl hagg
    exact hfast rfl hagg
  have habove : a.view < t.currentView := hl.lt_of_mem List.mem_cons_self
  obtain ⟨hshown,hview⟩ := hready.onPropose hlead.symm (UInt64.le_refl _) hfast' (hcheck _) h.verifiedVotes h.pending
    ⟨h.calm.timeouts,h.calm.lastTimeout,h.calm.valid,h.calm.below⟩ (fun hle => absurd habove (UInt64.not_lt.mpr hle)) k
  rw [if_pos habove] at hview
  obtain ⟨c,hc,hballot⟩ := hshown.vote
  exact ⟨⟨hshown.follows,hshown.leaf,hshown.lastVote,hview,⟨c,hshown.id ▸ hc,hballot⟩,hshown.proposal.trans rfl,
    hshown.newest habove⟩,hshown.id⟩

/-- Without an aggregate the certificate alone is checked. -/
theorem checkCerts_of_none {p : ProposeMsg} (hagg : p.aggQC = none) (hv : S.verifyQuorumCert p.block.cert = true) (k : Nat) :
    checkCerts S R env p k = some true := by
  rw [checkCerts,hagg,ite_self]
  exact congrArg some hv

end Propose

section NewView
variable {qc : QuorumCert}

/-- A certificate for the newest block takes the replica to the next view. -/
theorem Follows.advanceView (h : Follows S R (b :: l) s) (hl : Lineage S (b :: l)) (he : env.Cooperates S leader s.id)
    (hq : qc.Certifies S b) (si : SyncInfo) (hsi : si.qc = some qc) (htc : si.tc = none) (hcur : s.currentView ≤ b.view)
    (hlt : b.view < b.view + 1) (k : Nat) :
    ∃ u : Replica, Follows S R (b :: l) u ∧ u.leafBlock = b ∧ u.currentView = b.view + 1 ∧ u.id = s.id ∧
      u.lastVote = s.lastVote ∧ u.outbox = s.outbox ∧ Replica.advanceView S R env k si s =
        if leader (b.view + 1) = s.id then Replica.propose S R env k si u
        else if leader (b.view + 1) ∈ S.replicas then u.emit (.sendNewView (leader (b.view + 1)) si) else u := by
  have hfol := h.learned List.mem_cons_self hq
  have hleaf : (s.learned qc b).leafBlock = b := learned_leafBlock hl h.knows.leaf
  have hsame : (s.learned qc b).lastVote = s.lastVote ∧ (s.learned qc b).id = s.id ∧
      (s.learned qc b).currentView = s.currentView ∧ (s.learned qc b).outbox = s.outbox := by
    rcases learned_cases qc b s with he | ⟨he,-⟩
    · rw [he]
      exact ⟨rfl,rfl,rfl,rfl⟩
    · rw [he]
      exact ⟨rfl,rfl,rfl,rfl⟩
  obtain ⟨hlast,hid,hview,hout⟩ := hsame
  rw [Replica.advanceView,h.knows.advanceViewWith List.mem_cons_self hq hsi htc]
  generalize s.learned qc b = u at *
  have hnot : ¬ b.view < (u.emit .viewSucceeded).currentView := by
    change ¬ b.view < u.currentView
    rw [hview]
    exact UInt64.not_lt.mpr hcur
  refine ⟨{ u with now := u.now+1, currentView := b.view + 1, lastTimeout := none,
                   log := .viewChange u.currentView b.view false :: .viewSucceeded :: u.log },
    hfol.enter (hview ▸ UInt64.le_trans hcur (UInt64.le_of_lt hlt)) rfl,hleaf,rfl,hid,hlast,hout,?_⟩
  rw [enterView,if_neg hnot]
  dsimp only [getLeader,tick,emit]
  rw [he.leader,hid]

private theorem blocks_onPropose (k : Nat) (p : ProposeMsg) (s : Replica) (hs : s.halted = false) :
    s.blocks <:+ (onPropose S R env k p s).blocks :=
  (onPropose_steps (P := fun _ => True) trivial k p s hs trivial).grows.2.1

/-- A proposed block is in the leader's store, whatever becomes of the proposal. -/
theorem Follows.mem_propose {si : SyncInfo} (h : Follows S R (a :: l) s) (hleaf : s.leafBlock = a) (hq : qc.Certifies S a)
    (hsi : si.qc = some qc) {cmd : Command} (hcmd : env.command s.now = some cmd) (k : Nat) :
    ((s.blockOn S a qc cmd).hash S,s.blockOn S a qc cmd) ∈ (Replica.propose S R env k si s).blocks := by
  rw [h.propose_eq hleaf hq hsi hcmd]
  refine List.IsSuffix.mem ?_ (blocks_onPropose k _ _ ?_)
  · exact List.mem_cons_self
  · exact h.knows.halted

/-- The replica has made the block `b'` of view `v` on top of the chain `b :: l`. If that is a longer chain it has sent
the block out and voted for it. -/
structure Offers (S : Setup) (R : RuleSet) (env : Env) (v : View) (b : Block) (l : List Block) (b' : Block) (s : Replica) :
    Prop where
  view : b'.view = v
  proposer : b'.proposer = s.id
  command : ∃ n, env.command n = some b'.cmd
  stored : (b'.hash S,b') ∈ s.blocks
  parent : b'.parent = b.hash S
  cert : b'.cert.Certifies S b
  proposed : Lineage S (b' :: b :: l) → Proposed S R ⟨s.id,b',none⟩ b l s

/-- What the leader of the current view proposes on top of its leaf. -/
theorem Follows.proposes (h : Follows S R (b :: l) s) (si : SyncInfo) (he : env.Cooperates S leader s.id) (hc : env.Supplied)
    (hleaf : s.leafBlock = b) (hq : qc.Certifies S b) (hsi : si.qc = some qc)
    (hagg : (if R.useAggQC then si.aggQC else none) = none) (hlead : leader s.currentView = s.id) (hmem : s.id ∈ S.replicas)
    (hv : s.lastVote < s.currentView) (hfast : R = .fast → s.currentView = b.view + 1) (hfuel : l.length + 2 < env.fuel) :
    (∃ b' : Block, Offers S R env s.currentView b l b' (Replica.propose S R env env.fuel si s)) ∧
      (Replica.propose S R env env.fuel si s).id = s.id := by
  obtain ⟨k,hk⟩ := Nat.exists_eq_succ_of_ne_zero (show env.fuel ≠ 0 by omega)
  obtain ⟨cmd,hcmd⟩ := hc s.now
  have hid : (Replica.propose S R env env.fuel si s).id = s.id := (propose_inside _ _ _).id
  have hprop : s.proposalFor R si (s.blockOn S b qc cmd) = ⟨s.id,s.blockOn S b qc cmd,none⟩ := by
    rw [proposalFor,hagg]
  refine ⟨⟨s.blockOn S b qc cmd,rfl,hid.symm,⟨_,hcmd⟩,h.mem_propose hleaf hq hsi hcmd _,rfl,hq,fun hl => ?_⟩,hid⟩
  rw [hid,← hprop,hk]
  refine (h.propose he hleaf hq hsi hcmd hl hlead hmem hv (fun hr _ => hfast hr) (fun k => ?_) hfuel k).1
  rw [hprop]
  exact checkCerts_of_none rfl hq.valid k

/-- A leader without a command only tells that the newest block was proposed. -/
theorem Follows.silent (h : Follows S R (b :: l) s) {si : SyncInfo} (hc : env.Silent) (hq : qc.Certifies S b)
    (hsi : si.qc = some qc) (k : Nat) :
    Replica.propose S R env k si s = { s with now := s.now+1, log := .proposed b.cmd :: s.log } := by
  have hnone : env.command (s.emit (.proposed b.cmd)).now = none := hc _
  rw [Replica.propose,proposeWith,hsi]
  dsimp only
  rw [h.knows.get List.mem_cons_self hq.hash]
  dsimp only
  rw [proposeBlock,hnone]
  rfl

/-- A replica that does not lead the view after the newest block, or has no command for it, just enters it. -/
theorem Follows.enters (h : Follows S R (b :: l) s) (hl : Lineage S (b :: l)) (he : env.Cooperates S leader s.id)
    (hmute : leader (b.view + 1) = s.id → env.Silent) (hmem : leader (b.view + 1) ∈ S.replicas) (hq : qc.Certifies S b)
    {si : SyncInfo} (hsi : si.qc = some qc) (htc : si.tc = none) (hcur : s.currentView ≤ b.view) (hvote : s.lastVote ≤ b.view)
    (hlt : b.view < b.view + 1) (k : Nat) : Idle S R (b.view + 1) b l s.id (Replica.advanceView S R env k si s) ∧
      (Replica.advanceView S R env k si s).outbox = if leader (b.view + 1) = s.id then s.outbox
        else .sendNewView (leader (b.view + 1)) si :: s.outbox := by
  obtain ⟨u,hu,hleaf,hview,hid,hlast,hout,heq⟩ := h.advanceView hl he hq si hsi htc hcur hlt k
  have hvote' : u.lastVote < b.view + 1 := hlast ▸ UInt64.lt_of_le_of_lt hvote hlt
  rw [heq]
  split_ifs with hlead
  · rw [hu.silent (hmute hlead) hq hsi]
    exact ⟨⟨hu.frame rfl,hid,hleaf,hvote',hview⟩,hout⟩
  · exact ⟨⟨hu.frame rfl,hid,hleaf,hvote',hview⟩,congrArg (List.cons _) hout⟩

/-- The leader of the view after the newest block proposes as soon as it has the block's certificate. -/
theorem Follows.lead (h : Follows S R (b :: l) s) (hl : Lineage S (b :: l)) (he : env.Cooperates S leader s.id)
    (hc : env.Supplied) (hq : qc.Certifies S b) (hcur : s.currentView ≤ b.view)
    (hv : s.lastVote ≤ b.view) (hlt : b.view < b.view + 1)
    (hlead : leader (b.view + 1) = s.id) (hmem : s.id ∈ S.replicas) (hfuel : l.length + 2 < env.fuel) (i : ID) :
    (∃ b' : Block, Offers S R env (b.view + 1) b l b' (handle S R env (.newView ⟨i,{ qc := some qc }⟩) s)) ∧
      (handle S R env (.newView ⟨i,{ qc := some qc }⟩) s).id = s.id := by
  obtain ⟨u,hu,hleaf,hview,hid,hlast,-,heq⟩ := h.advanceView hl he hq { qc := some qc } rfl rfl hcur hlt env.fuel
  rw [if_pos hlead] at heq
  have hhandle : handle S R env (.newView ⟨i,{ qc := some qc }⟩) s = Replica.propose S R env env.fuel { qc := some qc } u := by
    rw [handle,if_neg (by simp [h.knows.halted])]
    exact heq
  rw [hhandle,← hview,← hid]
  refine hu.proposes _ (hid ▸ he) hc hleaf hq rfl (ite_self _) (by rw [hview,hlead,hid]) (hid ▸ hmem) ?_ (fun _ => hview) hfuel
  rw [hlast,hview]
  exact UInt64.lt_of_le_of_lt hv hlt

end NewView

end Replica
end Hotstuff
