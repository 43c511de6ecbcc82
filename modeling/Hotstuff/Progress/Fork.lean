import Hotstuff.Progress.Run
import Hotstuff.Replica.Strategy

/-! The turn of a leader with the fork strategy, among replicas that follow a chain: it leaves out the newest certified
block, and two of the three rule sets vote for that. -/
namespace Hotstuff
open Replica

namespace Replica
variable {S : Setup} {R : RuleSet} {env : Env} {s : Replica} {l : List Block} {a b c : Block} {leader : View → ID}

/-- What the strategy proposes: a block beside the leaf, with the certificate that the block below both has. -/
theorem proposeRule_fork (h : Knows S l s) (ha : a ∈ l) (hleaf : s.leafBlock.parent = a.hash S) (si : SyncInfo)
    (cmd : Command) : proposeRule S R env .fork si cmd s =
      (some ⟨s.id,⟨a.hash S,s.id,cmd,a.cert,s.currentView⟩,if R.useAggQC then si.aggQC else none⟩,s) := by
  rw [proposeRule,h.get ha hleaf]
  dsimp only
  rw [h.get ha rfl]

section Voter
variable {p : ProposeMsg}

/-- The block below the forked one is on the branch of the lock. -/
private theorem extendsBranch_fork (h : Knows S (b :: a :: c :: l) s) (hl : Lineage S (b :: a :: c :: l)) {f : Block}
    (hparent : f.parent = a.hash S) (hlt : b.view < f.view) (hf : 3 ≤ env.fuel) :
    extendsBranch S env env.fuel f c s = (true,s) := by
  obtain ⟨k,hk⟩ := Nat.exists_eq_add_of_le' hf
  have hba : a.view < b.view := hl.lt_of_mem List.mem_cons_self
  have hac : c.view < a.view := hl.tail.lt_of_mem List.mem_cons_self
  have hcf : c.view < f.view := UInt64.lt_trans hac (UInt64.lt_trans hba hlt)
  rw [hk,extendsBranch,if_pos hcf,h.get (b := a) (by simp) hparent]
  dsimp only
  rw [extendsBranch,if_pos hac,h.get (b := c) (by simp) hl.tail.link.1]
  dsimp only
  rw [extendsBranch,if_neg (UInt64.lt_irrefl _),decide_eq_true rfl]

/-- ChainedHotStuff and SimpleHotStuff vote for the forked block: its certificate is not older than the lock. -/
private theorem voteRule_fork (h : Knows S (b :: a :: c :: l) s) (hl : Lineage S (b :: a :: c :: l)) (hR : R ≠ .fast)
    (hparent : p.block.parent = a.hash S) (hcert : p.block.cert = a.cert) (hlt : b.view < p.block.view)
    (hcur : s.currentView ≤ p.block.view) (hf : 3 ≤ env.fuel) : voteRule S env R p s = (true,s) := by
  have hget : get S env p.block.cert.hash s = (some c,s) := h.get (by simp) (hcert ▸ hl.tail.link.2.hash)
  have hlock : s.lock ∈ c :: l := by
    rcases h.lock with hg | hm
    · exact hg ▸ hl.tail.tail.genesis_mem
    · exact hm
  cases R with
  | chained =>
    rw [voteRule,chainedVoteRule,hget]
    dsimp only
    split_ifs with hhigh
    · rfl
    · have hview := UInt64.le_antisymm (hl.tail.tail.le_of_mem hlock) (UInt64.not_lt.mp hhigh)
      rw [hl.tail.tail.eq_of_view hlock List.mem_cons_self hview]
      exact extendsBranch_fork h hl hparent hlt hf
  | simple =>
    rw [voteRule,simpleVoteRule,if_neg (UInt64.not_lt.mpr hcur),hget]
    dsimp only
    rw [if_neg (UInt64.not_lt.mpr (hl.tail.tail.le_of_mem hlock))]
  | fast => exact absurd rfl hR

/-- Once a block is accepted the vote for it is sent, whatever comes after. -/
private theorem sendVote_accepted (he : env.Cooperates S leader s.id) (hv : s.lastVote < b.view)
    (hlead : leader b.view ∈ S.replicas) : ∃ v : PartialCert, v.Counts S b s.id ∧
      .sendVote (leader b.view) v ∈ (accepted S R env b s).log := by
  obtain ⟨v,hcounts,hvote⟩ := vote_eq (s := store S b s) he hv hlead
  have hmem : .sendVote (leader b.view) v ∈ (vote S env b (store S b s)).log := hvote ▸ List.mem_cons_self
  have hrule : (commitRule S env R b (vote S env b (store S b s))).2.log = (vote S env b (store S b s)).log := by
    have hout : (commitRule S env R b (vote S env b (store S b s))).2.outline = (vote S env b (store S b s)).outline :=
      commitRule_outline _ _
    simp only [outline,Prod.mk.injEq] at hout
    exact hout.2.2.2.2.2.2.2
  refine ⟨v,hcounts,?_⟩
  rw [accepted]
  rcases hc : commitRule S env R b (vote S env b (store S b s)) with ⟨_ | d,t⟩
  · rw [hc] at hrule
    exact hrule ▸ hmem
  · rw [hc] at hrule
    have hcommit : Inner (fun _ => true) (t.emit (.decide b d)) (commit S env d (t.emit (.decide b d))) :=
      commit_inner (fun _ _ => rfl) _ _
    obtain ⟨l,hl,-⟩ := hcommit.log
    dsimp only
    rw [hl]
    exact List.mem_append_right _ (List.mem_cons_of_mem _ (hrule ▸ hmem))

/-- The forked block is certified like the block it is built on. -/
private theorem checkCerts_fork (hl : Lineage S (b :: a :: c :: l)) (hcert : p.block.cert = a.cert)
    (hagg : p.aggQC = none) (k : Nat) :
    checkCerts S R env p k = some true :=
  checkCerts_of_none hagg (hcert ▸ hl.tail.link.2.valid) k

theorem sendVote_fork (h : Knows S (b :: a :: c :: l) s) (hl : Lineage S (b :: a :: c :: l)) (hR : R ≠ .fast)
    (he : env.Cooperates S leader s.id) (hid : p.id = leader p.block.view) (hlead : leader p.block.view ∈ S.replicas)
    (hparent : p.block.parent = a.hash S) (hcert : p.block.cert = a.cert) (hagg : p.aggQC = none)
    (hlt : b.view < p.block.view) (hcur : s.currentView ≤ p.block.view) (hvote : s.lastVote < p.block.view)
    (hf : 3 ≤ env.fuel) : ∃ v : PartialCert, v.Counts S p.block s.id ∧
      .sendVote (leader p.block.view) v ∈ (handle S R env (.propose p) s).log := by
  have hk : Knows S (b :: a :: c :: l) (s.tick.emit (.handle p)).tick := h.frame
  have hrule : voteRule S env R p (s.tick.emit (.handle p)).tick = (true,(s.tick.emit (.handle p)).tick) :=
    voteRule_fork hk hl hR hparent hcert hlt hcur hf
  have hget : get S env p.block.cert.hash (s.tick.emit (.handle p)).tick = (some c,(s.tick.emit (.handle p)).tick) :=
    hk.get (by simp) (hcert ▸ hl.tail.link.2.hash)
  have hconsider : consider S R env p (s.tick.emit (.handle p)) = accepted S R env p.block
      (((s.tick.emit (.handle p)).tick.emit (.proposed c.cmd)).tick) := by
    rw [consider]
    dsimp only [getLeader]
    rw [he.leader,if_neg (by simp [hid]),hrule]
    dsimp only
    rw [tellProposed,hget]
    dsimp only [accept]
    rw [he.accept]
  obtain ⟨v,hcounts,hmem⟩ := sendVote_accepted (R := R) (b := p.block)
    (s := ((s.tick.emit (.handle p)).tick.emit (.proposed c.cmd)).tick) he hvote hlead
  refine ⟨v,hcounts,?_⟩
  rw [handle,if_neg (by simp [h.halted]),onPropose,onProposeWith,checkCerts_fork hl hcert hagg]
  dsimp only
  rw [hconsider,andThen]
  split_ifs
  · exact hmem
  · -- the deferred `AdvanceView` only adds to the log
    have hin : Inside (accepted S R env p.block ((s.tick.emit (.handle p)).tick.emit (.proposed c.cmd)).tick)
        (advanceView S R env env.fuel { qc := some p.block.cert }
          (accepted S R env p.block ((s.tick.emit (.handle p)).tick.emit (.proposed c.cmd)).tick)) := advanceView_inside _ _ _
    obtain ⟨m,hm,-⟩ := hin.log
    exact hm ▸ List.mem_append_right _ hmem

/-- FastHotStuff does not vote for it: the certificate is not of the view before. -/
theorem outbox_fork (h : Knows S (b :: a :: c :: l) s) (hl : Lineage S (b :: a :: c :: l)) (he : env.Cooperates S leader s.id)
    (hid : p.id = leader p.block.view) (hcert : p.block.cert = a.cert) (hagg : p.aggQC = none) (hlt : b.view < p.block.view)
    (hcur : c.view < s.currentView) : (handle S .fast env (.propose p) s).outbox = s.outbox := by
  have hac : c.view < a.view := hl.tail.lt_of_mem List.mem_cons_self
  have hba : a.view < b.view := hl.lt_of_mem List.mem_cons_self
  have hne : p.block.view ≠ p.block.cert.view + 1 := fun heq => by
    rw [hcert,hl.tail.link.2.view] at heq
    exact UInt64.lt_irrefl _ (UInt64.lt_of_lt_of_le (UInt64.lt_trans hba hlt) (heq ▸ View.succ_le hac))
  have hrule : voteRule S env .fast p (s.tick.emit (.handle p)).tick = (false,(s.tick.emit (.handle p)).tick) := by
    rw [voteRule,fastVoteRule,hagg]
    dsimp only
    rw [decide_eq_false hne,Bool.and_false]
  have hconsider : consider S .fast env p (s.tick.emit (.handle p)) = (s.tick.emit (.handle p)).tick := by
    rw [consider]
    dsimp only [getLeader]
    rw [he.leader,if_neg (by simp [hid]),hrule]
  have hk : Knows S (b :: a :: c :: l) (s.tick.emit (.handle p)).tick := h.frame
  have hq : p.block.cert.Certifies S c := hcert ▸ hl.tail.link.2
  rw [handle,if_neg (by simp [h.halted]),onPropose,onProposeWith,checkCerts_fork hl hcert hagg]
  dsimp only
  rw [hconsider,andThen,if_neg (by simp [hk.halted]),hk.advanceViewWith (a := c) (by simp) hq rfl rfl]
  have hsame : (((s.tick.emit (.handle p)).tick.learned p.block.cert c).emit .viewSucceeded).currentView = s.currentView ∧
      (((s.tick.emit (.handle p)).tick.learned p.block.cert c).emit .viewSucceeded).outbox = s.outbox := by
    rcases learned_cases p.block.cert c (s.tick.emit (.handle p)).tick with hlearn | ⟨hlearn,-⟩
    · rw [hlearn]
      exact ⟨rfl,rfl⟩
    · rw [hlearn]
      exact ⟨rfl,rfl⟩
  rw [enterView_old (hsame.1 ▸ hcur),hsame.2]

end Voter

end Replica

/-- The turn of a leader with the fork strategy when the newest blocks are `b :: a :: c :: l`: it proposes a block beside
`b` on top of `a`, with the certificate for `c`. A replica that knows the chain and has not voted in the view votes for it
under ChainedHotStuff and SimpleHotStuff, and sends nothing under FastHotStuff. -/
theorem fork_turn (S : Setup) (R : RuleSet) (leader : View → ID) (env env' : Env) (b a c : Block) (l m : List Block)
    (hl : Lineage S (b :: a :: c :: l)) {s t : Replica} (hs : Knows S m s) (ha : a ∈ m) (hleaf : s.leafBlock = b)
    (hlead : leader s.currentView = s.id) (hmem : s.id ∈ S.replicas) (hlt : b.view < s.currentView) (si : SyncInfo)
    (hagg : si.aggQC = none) (cmd : Command) (ht : Knows S (b :: a :: c :: l) t) (he : env'.Cooperates S leader t.id)
    (hvote : t.lastVote < s.currentView) (hlow : c.view < t.currentView) (hcur : t.currentView ≤ s.currentView)
    (hf : 3 ≤ env'.fuel) : ∃ p : ProposeMsg, proposeRule S R env .fork si cmd s = (some p,s) ∧
      p.block.parent = a.hash S ∧ p.block.cert = a.cert ∧ p.block.view = s.currentView ∧
      (R ≠ .fast → ∃ v : PartialCert, v.Counts S p.block t.id ∧ .sendVote s.id v ∈ (handle S R env' (.propose p) t).log) ∧
      (R = .fast → (handle S R env' (.propose p) t).outbox = t.outbox) := by
  have hnone : (if R.useAggQC then si.aggQC else none) = none := by rw [hagg,ite_self]
  refine ⟨_,proposeRule_fork hs ha (hleaf ▸ hl.link.1) si cmd,rfl,rfl,rfl,fun hR => ?_,?_⟩
  · obtain ⟨v,hcounts,hsent⟩ := sendVote_fork (p := ⟨s.id,⟨a.hash S,s.id,cmd,a.cert,s.currentView⟩,_⟩) ht hl hR he hlead.symm
      (hlead ▸ hmem) rfl rfl hnone hlt hcur hvote hf
    exact ⟨v,hcounts,hlead ▸ hsent⟩
  · rintro rfl
    exact outbox_fork ht hl he hlead.symm rfl hnone hlt hlow

namespace Sample

/-- After four views the leader of the fifth could leave out the block of the fourth. -/
theorem fork_turn_five : ∃ p : ProposeMsg, p.block.view = 5 ∧ p.block.cert.view = 2 ∧
    ∃ v : PartialCert, v.Counts setup p.block 1 ∧
      .sendVote 2 v ∈ (handle setup .chained (busyEnv 1) (.propose p) (turnRun .chained 4 1)).log := by
  have hd : Distinct setup {1,2,3} (turnRun .chained 4) :=
    distinct_of_test (by simp) (show distinctTest setup [1,2,3] _ = true by decide +kernel)
  obtain ⟨b,a,l,hview,hcons,hlen,-,hp⟩ := liveRun_poised (R := .chained) busy (show ([1,2,3] : List ID).Nodup by decide)
    (by simp) turn_mem (fun _ => turnRound_fits) 4 (by decide) (fun i _ => show 4+3 < 20 by decide) hd
  -- the chain is `b :: a :: c :: d :: l'`, of the views from 5 down
  obtain ⟨c,d,l,rfl⟩ : ∃ c d l', l = c :: d :: l' := by
    match l, hlen with
    | c :: d :: l, _ => exact ⟨c,d,l,rfl⟩
  have hviews : (b :: a :: c :: d :: l).map Block.view = [5,4,3,2,1,0] :=
    (RuleSet.Consecutive.views hcons hview (congrArg (· + 1) hlen)).trans (by decide)
  obtain ⟨hb,ha,-,hd,-⟩ : b.view = 5 ∧ a.view = 4 ∧ c.view = 3 ∧ d.view = 2 ∧ l.map Block.view = [1,0] := by
    simpa only [List.map_cons,List.cons.injEq] using hviews
  have hleader : turn b.view = 2 := by rw [hb]; decide
  have hs : Proposed setup .chained ⟨turn b.view,b,none⟩ a (c :: d :: l) (turnRun .chained 4 (turn b.view)) := hp.proposed
  have hid : (turnRun .chained 4 (turn b.view)).id = turn b.view := hp.id
  have ht : Awaits setup .chained turn b.view a (c :: d :: l) 1 (turnRun .chained 4 1) :=
    hp.others 1 (by decide) (by rw [hleader]; decide)
  rw [hleader] at hs hid
  rw [hb] at ht
  have hcur : (turnRun .chained 4 2).currentView = 5 := hs.currentView.trans hb
  have hcoop : (busyEnv 1).Cooperates setup turn (turnRun .chained 4 1).id := by
    rw [ht.id]
    exact busy.cooperates 1 (by decide)
  obtain ⟨p,-,-,hcert,hpview,hvote,-⟩ := fork_turn setup .chained turn (busyEnv 2) (busyEnv 1) a c d l _ hp.lineage.tail
    hs.follows.knows (by simp) hs.leaf (by rw [hcur,hid]; decide) (by rw [hid]; decide) (by rw [hcur,ha]; decide) {} rfl []
    ht.follows.knows hcoop (by rw [hcur]; exact ht.lastVote) (by rw [hd]; decide +kernel)
    (by rw [hcur]; exact ht.currentView) (show 3 ≤ 20 by decide)
  refine ⟨p,hpview.trans hcur,?_,?_⟩
  · rw [hcert,hp.lineage.tail.tail.link.2.view,hd]
  · have hvote' := hvote (by decide)
    rwa [hid,ht.id] at hvote'

end Sample

end Hotstuff
