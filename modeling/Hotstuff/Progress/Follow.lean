import Hotstuff.Progress.Lineage
import Hotstuff.System.Execution

/-! One replica that is shown a growing chain of certified blocks. It votes for each of them, and what it executes is
the part of the chain that its commit rule has decided. -/
namespace Hotstuff

/-- The calls of replica `i` that leave it turn out well: everyone agrees on the leaders, commands are accepted, signing
works, and no block with hash 0 turns up. -/
structure Env.Cooperates (S : Setup) (leader : View → ID) (i : ID) (env : Env) : Prop where
  leader : ∀ k v, env.leader k v = leader v
  accept : ∀ k cmd, env.accept k cmd = true
  sign : ∀ k h, ∃ r t, env.sign k h = some (r,t) ∧ S.verifyEcdsa ⟨r,t,i⟩ h = true
  missing : ∀ k, Replica.fetch S env k 0 = none

def Env.Supplied (env : Env) : Prop := ∀ k, ∃ cmd, env.command k = some cmd

def Env.Silent (env : Env) : Prop := ∀ k, env.command k = none

namespace Replica

/-- What a replica knows of the chain `l` that it has been shown. -/
structure Knows (S : Setup) (l : List Block) (s : Replica) : Prop where
  halted : s.halted = false
  stored : ∀ b ∈ l, s.localGet (b.hash S) = some b
  zero : s.localGet 0 = none
  leaf : s.leafBlock ∈ l
  highQC : s.highQC.Certifies S s.leafBlock
  lock : s.lock = genesis ∨ s.lock ∈ l.drop 2

structure Indexes (l : List Block) (s : Replica) : Prop where
  heights : ∀ e ∈ s.blockAtHeight, e = (0,genesis) ∨ s.pruneHeight < e.1 ∧ e.2 ∈ l ∧ e.1 = e.2.view
  kept : ∀ b ∈ l, s.pruneHeight < b.view → s.blockAtHeight.lookup b.view = some b

/-- The part `d` of the chain `l` is executed, and pruned. -/
structure Executes (l d : List Block) (s : Replica) : Prop extends Indexes l s where
  last : d.head? = some s.bExec
  executed : s.executed = d.dropLast
  pruneHeight : s.pruneHeight = s.bExec.view

variable {S : Setup} {R : RuleSet} {env : Env} {s : Replica} {l d : List Block} {a b : Block}

theorem Knows.frame (h : Knows S l s) {id now lastVote bExec currentView highTC lastTimeout timeouts blockAtHeight
    pruneHeight verifiedVotes pending log} : Knows S l { s with
      id := id, now := now, lastVote := lastVote, bExec := bExec, currentView := currentView, highTC := highTC,
      lastTimeout := lastTimeout, timeouts := timeouts, blockAtHeight := blockAtHeight, pruneHeight := pruneHeight,
      verifiedVotes := verifiedVotes, pending := pending, log := log } :=
  ⟨h.halted,h.stored,h.zero,h.leaf,h.highQC,h.lock⟩

namespace Knows

theorem get (h : Knows S l s) (hb : b ∈ l) {k : Hash} (hk : k = b.hash S) : get S env k s = (some b,s) := by
  rw [Replica.get,hk,h.stored b hb]

theorem get_zero (h : Knows S l s) (hm : ∀ k, fetch S env k 0 = none) : Replica.get S env 0 s = (none,s.tick) := by
  rw [Replica.get,h.zero]
  dsimp only
  rw [hm]

theorem qcRef (h : Knows S l s) (hl : Lineage S l) (hb : b ∈ l) {qc : QuorumCert} (hq : qc.hash = b.hash S) :
    qcRef S env qc s = (some b,s) := by
  rw [Replica.qcRef,if_neg (hq ▸ hl.ne_zero hb)]
  exact h.get hb hq

/-- A block is stored once more without harm. -/
theorem store (h : Knows S d s) (hl : Lineage S (b :: l)) (hd : d = l ∨ d = b :: l) :
    Knows S (b :: l) (store S b s) where
  halted := h.halted
  stored x hx := by
    rw [Replica.store,localGet_insertBlock]
    rcases List.mem_cons.mp hx with rfl | hx
    · exact if_pos rfl
    · rw [if_neg (hl.fresh hx)]
      rcases hd with rfl | rfl
      · exact h.stored x hx
      · exact h.stored x (List.mem_cons_of_mem _ hx)
  zero := by
    rw [Replica.store,localGet_insertBlock,if_neg (hl.ne_zero List.mem_cons_self).symm]
    exact h.zero
  leaf := by
    rcases hd with rfl | rfl
    · exact List.mem_cons_of_mem _ h.leaf
    · exact h.leaf
  highQC := h.highQC
  lock := by
    rcases hd with rfl | rfl
    · refine h.lock.imp (fun hg => hg) fun hm => ?_
      rw [show 2 = 1+1 from rfl,← List.drop_drop] at hm
      exact List.mem_of_mem_drop hm
    · exact h.lock

/-- The certificate of a known block is learned if the block is above the leaf. -/
theorem updateHighQC (h : Knows S l s) (hb : b ∈ l) {qc : QuorumCert} (hq : qc.Certifies S b) :
    updateHighQC S env qc s = if s.leafBlock.view < b.view then { s with highQC := qc, leafBlock := b } else s := by
  rw [Replica.updateHighQC,if_neg (by simp [hq.valid]),h.get hb hq.hash]
  dsimp only
  rw [h.get h.leaf h.highQC.hash]

theorem learn (h : Knows S l s) (hb : b ∈ l) {qc : QuorumCert} (hq : qc.Certifies S b) :
    Knows S l { s with highQC := qc, leafBlock := b } :=
  ⟨h.halted,h.stored,h.zero,hb,hq,h.lock⟩

theorem raiseLock (h : Knows S l s) (hb : b ∈ l.drop 2) : Knows S l (s.raiseLock b) := by
  rw [Replica.raiseLock]
  split_ifs
  · exact ⟨h.halted,h.stored,h.zero,h.leaf,h.highQC,.inr hb⟩
  · exact h

theorem extendsBranch (h : Knows S d s) (hl : Lineage S (b :: a :: l)) (ha : a ∈ d) (hf : 2 ≤ env.fuel) :
    extendsBranch S env env.fuel b a s = (true,s) := by
  obtain ⟨k,hk⟩ := Nat.exists_eq_add_of_le' hf
  rw [hk,Replica.extendsBranch,if_pos (hl.lt_of_mem List.mem_cons_self),h.get ha hl.link.1]
  dsimp only
  rw [Replica.extendsBranch,if_neg (UInt64.lt_irrefl _),decide_eq_true rfl]

/-- The next block of the chain passes the vote rule. -/
theorem voteRule (h : Knows S d s) {p : ProposeMsg} (hl : Lineage S (p.block :: a :: l)) (ha : a ∈ d)
    (hlow : s.lock = genesis ∨ s.lock ∈ l) (hf : 2 ≤ env.fuel) (hcur : s.currentView ≤ p.block.view)
    (hfast : R = .fast → p.aggQC = none → p.block.view = a.view + 1) :
    voteRule S env R p s = (true,s) := by
  have hext := h.extendsBranch hl ha hf
  have hcert := hl.link.2
  have hget : Replica.get S env p.block.cert.hash s = (some a,s) := h.get ha hcert.hash
  cases R with
  | chained =>
    change chainedVoteRule S env p s = _
    rw [chainedVoteRule,hget]
    dsimp only
    split_ifs with hlock
    · rfl
    · -- only genesis is not above the lock
      have hlock : s.lock = a := by
        rcases hlow with hg | hm
        · by_contra hne
          rw [hg] at hne hlock
          exact hlock (hl.tail.pos_of_ne_genesis List.mem_cons_self (Ne.symm hne))
        · exact absurd (hl.tail.lt_of_mem hm) hlock
      rw [hlock]
      exact hext
  | simple =>
    change simpleVoteRule S env p s = _
    rw [simpleVoteRule,if_neg (UInt64.not_lt.mpr hcur),hget]
    dsimp only
    refine if_neg (UInt64.not_lt.mpr ?_)
    rcases hlow with hg | hm
    · rw [hg]
      exact UInt64.zero_le
    · exact UInt64.le_of_lt (hl.tail.lt_of_mem hm)
  | fast =>
    change fastVoteRule S env p s = _
    rw [fastVoteRule]
    cases hagg : p.aggQC with
    | none =>
      dsimp only
      rw [decide_eq_true hcur,hcert.view,decide_eq_true (hfast rfl hagg),Bool.and_self]
    | some agg =>
      dsimp only
      rw [hget]
      exact hext

end Knows

def judged (n : Nat) (lock : Block) (qc : QuorumCert) (leaf : Block) (s : Replica) : Replica :=
  { s with now := n, lock := lock, highQC := qc, leafBlock := leaf }

/-- The lookup of the block that a block of the chain certifies; genesis certifies none. -/
private theorem Knows.qcRef_next (h : Knows S d s) (hd : Lineage S d) (hl : Lineage S (b :: l)) (hs : b :: l <:+ d) :
    Replica.qcRef S env b.cert s = (l.head?,s) := by
  cases l with
  | nil =>
    cases hl with
    | genesis => rfl
  | cons a l =>
    exact h.qcRef hd (hs.mem (by simp)) hl.link.2.hash

private theorem Knows.get_next (h : Knows S d s) (hm : ∀ k, fetch S env k 0 = none) (hl : Lineage S (b :: l))
    (hs : b :: l <:+ d) : ∃ n, Replica.get S env b.cert.hash s = (l.head?,{ s with now := n }) := by
  cases l with
  | nil =>
    cases hl with
    | genesis => exact ⟨_,h.get_zero hm⟩
  | cons a l => exact ⟨_,h.get (hs.mem (by simp)) hl.link.2.hash⟩

private theorem Knows.chainedCommitRule (h : Knows S (b :: l) s) (hl : Lineage S (b :: l))
    (hold : s.leafBlock ∈ l) : ∃ n lock qc leaf, chainedCommitRule S env b s =
        ((RuleSet.chained.decided (b :: l)).bind List.head?,s.judged n lock qc leaf) ∧
      Knows S (b :: l) (s.judged n lock qc leaf) ∧ leaf ∈ l := by
  obtain ⟨a,l,rfl⟩ := List.exists_cons_of_ne_nil (List.ne_nil_of_mem hold)
  have hcert := hl.link.2
  have ha : a ∈ b :: a :: l := by simp
  obtain ⟨qc,leaf,hupd,hk,hleaf⟩ : ∃ qc leaf, Replica.updateHighQC S env b.cert s = s.judged s.now s.lock qc leaf ∧
      Knows S (b :: a :: l) (s.judged s.now s.lock qc leaf) ∧ leaf ∈ a :: l := by
    rw [h.updateHighQC ha hcert]
    split_ifs
    · exact ⟨_,_,rfl,h.learn ha hcert,List.mem_cons_self⟩
    · exact ⟨_,_,rfl,h,hold⟩
  rw [Replica.chainedCommitRule,hupd]
  generalize ht : s.judged s.now s.lock qc leaf = t at hk
  have hjudged (lock : Block) : { t with lock := lock } = s.judged s.now lock qc leaf := by rw [← ht]; rfl
  rw [if_neg (by simp [hk.halted]),hk.qcRef_next hl hl (List.suffix_refl _)]
  dsimp only [List.head?_cons]
  rw [hk.qcRef_next hl hl.tail (List.suffix_cons _ _)]
  cases l with
  | nil => exact ⟨_,_,_,_,by rw [← ht]; rfl,ht ▸ hk,hleaf⟩
  | cons a2 l =>
    have hk2 := hk.raiseLock (b := a2) (by simp)
    obtain ⟨lock,hlock⟩ : ∃ lock, t.raiseLock a2 = s.judged s.now lock qc leaf := by
      rw [Replica.raiseLock]
      split_ifs
      · exact ⟨_,hjudged _⟩
      · exact ⟨_,hjudged t.lock⟩
    dsimp only [List.head?_cons]
    rw [hk2.qcRef_next hl hl.tail.tail ((List.suffix_cons _ _).trans (List.suffix_cons _ _)),hlock]
    refine ⟨s.now,lock,qc,leaf,?_,hlock ▸ hk2,hleaf⟩
    cases l with
    | nil => rfl
    | cons a3 l =>
      dsimp only [List.head?_cons]
      rw [if_pos ⟨hl.tail.link.1,hl.tail.tail.link.1⟩]
      rfl

private theorem Knows.simpleCommitRule (h : Knows S (b :: l) s) (hl : Lineage S (b :: l))
    (hold : s.leafBlock ∈ l) (hm : ∀ k, fetch S env k 0 = none) : ∃ n lock, simpleCommitRule S env b s =
        ((RuleSet.simple.decided (b :: l)).bind List.head?,s.judged n lock s.highQC s.leafBlock) ∧
      Knows S (b :: l) (s.judged n lock s.highQC s.leafBlock) := by
  obtain ⟨a,l,rfl⟩ := List.exists_cons_of_ne_nil (List.ne_nil_of_mem hold)
  obtain ⟨n,hget⟩ := h.get_next hm hl (List.suffix_refl _)
  rw [Replica.simpleCommitRule,hget]
  dsimp only [List.head?_cons]
  have h1 : Knows S (b :: a :: l) { s with now := n } := h.frame
  obtain ⟨n,hget⟩ := h1.get_next hm hl.tail (List.suffix_cons _ _)
  rw [hget]
  have h2 : Knows S (b :: a :: l) { s with now := n } := h.frame
  cases l with
  | nil => exact ⟨n,_,rfl,h2⟩
  | cons a2 l =>
    dsimp only [List.head?_cons]
    have h3 := h2.raiseLock (b := a2) (by simp)
    obtain ⟨m,hget⟩ := h3.get_next hm hl.tail.tail ((List.suffix_cons _ _).trans (List.suffix_cons _ _))
    rw [hget]
    obtain ⟨lock,hlock⟩ : ∃ lock, Replica.raiseLock a2 { s with now := n } = s.judged n lock s.highQC s.leafBlock := by
      rw [Replica.raiseLock]
      split_ifs
      · exact ⟨_,rfl⟩
      · exact ⟨_,rfl⟩
    rw [hlock] at h3 ⊢
    refine ⟨m,lock,?_,h3.frame⟩
    cases l with
    | nil => rfl
    | cons a3 l =>
      dsimp only [List.head?_cons,RuleSet.decided]
      split_ifs <;> rfl

private theorem Knows.fastCommitRule (h : Knows S (b :: l) s) (hl : Lineage S (b :: l))
    (hold : s.leafBlock ∈ l) : fastCommitRule S env b s = ((RuleSet.fast.decided (b :: l)).bind List.head?,s) := by
  obtain ⟨a,l,rfl⟩ := List.exists_cons_of_ne_nil (List.ne_nil_of_mem hold)
  rw [Replica.fastCommitRule,h.qcRef_next hl hl (List.suffix_refl _)]
  dsimp only [List.head?_cons]
  rw [h.qcRef_next hl hl.tail (List.suffix_cons _ _)]
  cases l with
  | nil => rfl
  | cons a2 l =>
    dsimp only [List.head?_cons,RuleSet.decided]
    by_cases hv : b.view = a.view + 1 ∧ a.view = a2.view + 1
    · rw [if_pos hv,if_pos ⟨hl.link.1,hv.1,hl.tail.link.1,hv.2⟩]
      rfl
    · rw [if_neg hv,if_neg fun hc => hv ⟨hc.2.1,hc.2.2.2⟩]
      rfl

/-- Shown the newest block of the chain, the commit rule decides what `RuleSet.decided` says. -/
theorem Knows.commitRule (h : Knows S (b :: l) s) (hl : Lineage S (b :: l)) (hold : s.leafBlock ∈ l)
    (hm : ∀ k, fetch S env k 0 = none) : ∃ n lock qc leaf, commitRule S env R b s =
        ((R.decided (b :: l)).bind List.head?,s.judged n lock qc leaf) ∧
      Knows S (b :: l) (s.judged n lock qc leaf) ∧ leaf ∈ l := by
  cases R with
  | chained => exact h.chainedCommitRule hl hold
  | simple =>
    obtain ⟨n,lock,he,hk⟩ := h.simpleCommitRule hl hold hm
    exact ⟨n,lock,_,_,he,hk,hold⟩
  | fast => exact ⟨s.now,s.lock,s.highQC,s.leafBlock,h.fastCommitRule hl hold,h,hold⟩

section Commit
variable {mid : List Block} {e : Block}

/-- The blocks above the one executed last are executed, the oldest first. -/
private theorem Knows.commitInner (h : Knows S l s) (hl : Lineage S (mid ++ d)) (hs : mid ++ d ⊆ l)
    (hlast : d.head? = some s.bExec) (hb : (mid ++ d).head? = some b) {k : Nat} (hk : mid.length < k) :
    commitInner S env k b s = { s with bExec := b, log := mid.map .exec ++ s.log } := by
  induction mid generalizing b k with
  | nil =>
    obtain ⟨k,rfl⟩ := Nat.exists_eq_succ_of_ne_zero (Nat.ne_of_gt hk)
    obtain rfl : s.bExec = b := Option.some.inj (hlast.symm.trans hb)
    rw [Replica.commitInner,if_neg (UInt64.lt_irrefl _)]
    rfl
  | cons x mid ih =>
    obtain ⟨k,rfl⟩ := Nat.exists_eq_succ_of_ne_zero (Nat.ne_of_gt (Nat.zero_lt_of_lt hk))
    obtain rfl : x = b := Option.some.inj hb
    have hmem : s.bExec ∈ mid ++ d := List.mem_append_right _ (List.mem_of_mem_head? hlast)
    obtain ⟨y,t,ht⟩ := List.exists_cons_of_ne_nil (List.ne_nil_of_mem hmem)
    rw [List.cons_append] at hl hs
    have hlt := hl.lt_of_mem hmem
    rw [ht] at hl hs
    have hy : y ∈ l := hs (by simp)
    rw [Replica.commitInner,if_pos hlt,h.get hy hl.link.1]
    dsimp only
    rw [ih (ht ▸ hl.tail) (by rw [ht]; exact fun z hz => hs (List.mem_cons_of_mem _ hz)) (by rw [ht]; rfl)
      (Nat.lt_of_succ_lt_succ hk),andThen,if_neg (by simp [h.halted])]
    rfl

/-- The walk of `PruneToHeight` comes by every block above the one executed last. -/
private theorem Knows.committedViews (h : Knows S l s) (hx : Indexes l s) (hl : Lineage S (mid ++ e :: d))
    (hs : mid ++ e :: d ⊆ l) (he : s.pruneHeight = e.view) (hb : (mid ++ e :: d).head? = some b) {k : Nat}
    (hk : mid.length < k) (acc : List View) (hacc : b.view ∈ acc) :
    ∃ views, s.committedViews k b.view acc = some views ∧ acc ⊆ views ∧ ∀ x ∈ mid, x.view ∈ views := by
  induction mid generalizing b k acc with
  | nil =>
    obtain ⟨k,rfl⟩ := Nat.exists_eq_succ_of_ne_zero (Nat.ne_of_gt hk)
    obtain rfl : e = b := Option.some.inj hb
    refine ⟨acc,?_,fun _ hv => hv,by simp⟩
    rw [Replica.committedViews,if_neg (he ▸ UInt64.lt_irrefl _)]
    cases hlook : s.blockAtHeight.lookup e.view with
    | none => rfl
    | some y =>
      rcases hx.heights _ (Library.mem_of_lookup hlook) with hg | ⟨hlt,-⟩
      · obtain ⟨-,rfl⟩ := Prod.mk.inj hg
        dsimp only
        rw [show s.localGet genesis.parent = none from h.zero]
      · exact absurd (he ▸ hlt) (UInt64.lt_irrefl _)
  | cons x mid ih =>
    obtain ⟨k,rfl⟩ := Nat.exists_eq_succ_of_ne_zero (Nat.ne_of_gt (Nat.zero_lt_of_lt hk))
    obtain rfl : x = b := Option.some.inj hb
    have hmem : e ∈ mid ++ e :: d := by simp
    obtain ⟨y,t,ht⟩ := List.exists_cons_of_ne_nil (List.ne_nil_of_mem hmem)
    rw [List.cons_append] at hl hs
    have hlt := he ▸ hl.lt_of_mem hmem
    have hle : s.pruneHeight ≤ y.view := by
      rw [ht] at hl hmem
      exact he ▸ hl.tail.le_of_mem hmem
    have htail : Lineage S (mid ++ e :: d) := by
      rw [ht] at hl ⊢
      exact hl.tail
    rw [ht] at hl
    have hy : s.localGet x.parent = some y := by
      rw [hl.link.1]
      exact h.stored y (hs (List.mem_cons_of_mem _ (ht ▸ List.mem_cons_self)))
    obtain ⟨views,hviews,hsub,hin⟩ := ih htail (fun z hz => hs (List.mem_cons_of_mem _ hz)) (by rw [ht]; rfl)
      (Nat.lt_of_succ_lt_succ hk) (y.view :: acc) List.mem_cons_self
    refine ⟨views,?_,fun v hv => hsub (List.mem_cons_of_mem _ hv),?_⟩
    · rw [Replica.committedViews,if_neg (UInt64.not_lt.mpr (UInt64.le_of_lt hlt)),
        hx.kept x (hs List.mem_cons_self) hlt]
      dsimp only
      rw [hy]
      dsimp only
      rw [if_neg (UInt64.not_lt.mpr hle)]
      exact hviews
    · intro z hz
      rcases List.mem_cons.mp hz with rfl | hz
      · exact hsub (List.mem_cons_of_mem _ hacc)
      · exact hin z hz

/-- Nothing on the chain is a fork, so pruning only forgets the index up to the block. -/
private theorem Knows.pruneToHeight (h : Knows S l s) (hx : Indexes l s) (hl : Lineage S l) (hs : mid ++ e :: d <:+ l)
    (he : s.pruneHeight = e.view) (hb : (mid ++ e :: d).head? = some s.bExec) (hk : mid.length < env.fuel) :
    pruneToHeight env s.bExec.view s = { s with
      blockAtHeight := s.blockAtHeight.filter fun x => ¬ (s.pruneHeight < x.1 ∧ x.1 ≤ s.bExec.view),
      pruneHeight := s.bExec.view } := by
  have hl' : Lineage S (mid ++ e :: d) := hl.suffix hs (by simp)
  obtain ⟨views,hviews,-,hin⟩ := h.committedViews hx hl' hs.subset he hb hk [s.bExec.view] List.mem_cons_self
  have hnone : s.forkedBlocks s.bExec.view views = [] := by
    rw [forkedBlocks,List.map_eq_nil_iff,List.filter_eq_nil_iff.mpr]
    · rfl
    intro x hxm hc
    obtain ⟨hlt,hle,hnot⟩ := of_decide_eq_true hc
    rcases hx.heights x hxm with rfl | ⟨-,hxl,hxv⟩
    · exact absurd hlt (UInt64.not_lt.mpr UInt64.zero_le)
    · rw [hxv] at hlt hle hnot
      exact hnot (hin x.2 (hl.mem_of_between hs hb hxl (he ▸ hlt) hle))
  rw [Replica.pruneToHeight,hviews]
  dsimp only
  rw [hnone]
  rfl

def executedTo (b : Block) (mid : List Block) (s : Replica) : Replica :=
  { s with bExec := b,
           blockAtHeight := s.blockAtHeight.filter fun x => ¬ (s.pruneHeight < x.1 ∧ x.1 ≤ b.view),
           pruneHeight := b.view,
           log := mid.map .exec ++ s.log }

private theorem Executes.executedTo (h : Executes l d s) (hle : s.pruneHeight ≤ b.view)
    (hb : (mid ++ d).head? = some b) : Executes l (mid ++ d) (s.executedTo b mid) where
  heights x hx := by
    obtain ⟨hx,hout⟩ := List.mem_filter.mp hx
    refine (h.heights x hx).imp (fun hg => hg) fun ⟨hlt,hin⟩ => ⟨UInt64.not_le.mp fun hle => ?_,hin⟩
    exact of_decide_eq_true hout ⟨hlt,hle⟩
  kept y hy hlt := by
    rw [← h.kept y hy (UInt64.lt_of_le_of_lt hle hlt)]
    exact Library.lookup_filter (q := fun v => ¬ (s.pruneHeight < v ∧ v ≤ b.view))
      (decide_eq_true fun hc => UInt64.not_le.mpr hlt hc.2) _
  last := hb
  executed := by
    have hd : d ≠ [] := by
      rintro rfl
      cases h.last
    rw [List.dropLast_append_of_ne_nil hd,← h.executed]
    simp [Replica.executed,Replica.executedTo,List.filterMap_append,List.filterMap_map]
  pruneHeight := rfl

/-- Committing a decided block executes the chain up to it. -/
theorem Knows.commit (h : Knows S l s) (hx : Executes l d s) (hl : Lineage S l) (hs : mid ++ d <:+ l)
    (hb : (mid ++ d).head? = some b) (hk : l.length < env.fuel) :
    commit S env b s = s.executedTo b mid ∧ Executes l (mid ++ d) (s.executedTo b mid) := by
  obtain ⟨e,d,rfl⟩ := List.exists_cons_of_ne_nil (l := d) (by rintro rfl; cases hx.last)
  obtain rfl : e = s.bExec := Option.some.inj hx.last
  have hlen : mid.length < env.fuel := by
    have := hs.length_le
    simp only [List.length_append,List.length_cons] at this
    omega
  have hl' := hl.suffix hs (by simp)
  have hle : s.pruneHeight ≤ b.view := by
    obtain ⟨t,ht⟩ : ∃ t, mid ++ s.bExec :: d = b :: t := ⟨_,(List.cons_head?_tail hb).symm⟩
    rw [hx.pruneHeight]
    exact (ht ▸ hl').le_of_mem (ht ▸ by simp)
  refine ⟨?_,hx.executedTo hle hb⟩
  rw [Replica.commit,h.commitInner hl' hs.subset hx.last hb hlen,andThen,if_neg (by simp [h.halted])]
  exact Knows.pruneToHeight (s := { s with bExec := b, log := mid.map .exec ++ s.log }) h.frame
    ⟨hx.heights,hx.kept⟩ hl hs hx.pruneHeight hb hlen

end Commit

theorem Executes.frame (h : Executes l d s) {id now lastVote lock currentView highTC highQC leafBlock lastTimeout timeouts
    blocks verifiedVotes pending log} (hlog : ({ s with log := log } : Replica).executed = s.executed) :
    Executes l d { s with
      id := id, now := now, lastVote := lastVote, lock := lock, currentView := currentView, highTC := highTC,
      highQC := highQC, leafBlock := leafBlock, lastTimeout := lastTimeout, timeouts := timeouts, blocks := blocks,
      verifiedVotes := verifiedVotes, pending := pending, log := log } :=
  ⟨⟨h.heights,h.kept⟩,h.last,hlog.trans h.executed,h.pruneHeight⟩

theorem Executes.store {m : List Block} (h : Executes m d s) (hl : Lineage S (b :: l)) (hm : m = l ∨ m = b :: l)
    (hd : d <:+ l) : Executes (b :: l) d (store S b s) where
  heights x hx := by
    rcases List.mem_cons.mp hx with rfl | hx
    · refine .inr ⟨?_,List.mem_cons_self,rfl⟩
      exact h.pruneHeight ▸ hl.lt_of_mem (hd.mem (List.mem_of_mem_head? h.last))
    · refine (h.heights x (List.mem_of_mem_filter hx)).imp (fun hg => hg) fun ⟨hlt,hx,hv⟩ => ⟨hlt,?_,hv⟩
      rcases hm with rfl | rfl
      · exact List.mem_cons_of_mem _ hx
      · exact hx
  kept x hx hlt := by
    change ((b.view,b) :: s.blockAtHeight.filter fun e => e.1 ≠ b.view).lookup x.view = some x
    rw [Library.lookup_cons_ite]
    split_ifs with hv
    · rw [hl.eq_of_view hx List.mem_cons_self hv]
    · have hxm : x ∈ m := by
        rcases hm with rfl | rfl
        · exact (List.mem_cons.mp hx).resolve_left fun he => hv (he ▸ rfl)
        · exact hx
      rw [← h.kept x hxm hlt]
      exact Library.lookup_filter (q := fun v => v ≠ b.view) (decide_eq_true hv) _
  last := h.last
  executed := h.executed
  pruneHeight := h.pruneHeight

end Replica
end Hotstuff
