import Hotstuff.Replica.Calls

/-! A relation that holds across the primitive steps of the rules and handlers holds across the handlers: what one
judgement, one broadcast and one view change do is taken apart here once. -/
namespace Hotstuff
namespace Replica
variable (S : Setup) (R : RuleSet) (env : Env)

/-- What vote rules and commit rules do: look blocks up, learn a certificate, raise the lock. -/
structure Looks (Q : Replica → Replica → Prop) : Prop where
  refl : ∀ s, Q s s
  trans : ∀ {s t u}, Q s t → Q t u → Q s u
  halt : ∀ s, Q s s.halt
  get : ∀ h s, Q s (get S env h s).2
  lock : ∀ b s, Q s { s with lock := b }
  updateHighQC : ∀ qc s, Q s (updateHighQC S env qc s)

/-- What `OnPropose` does beside that. A block is voted for only above `lastVote`. -/
structure Judges (Q : Replica → Replica → Prop) : Prop extends Looks S env Q where
  tick : ∀ s, Q s s.tick
  store : ∀ b s, Q s (store S b s)
  handled : ∀ p s, Q s (s.emit (.handle p))
  proposed : ∀ cmd s, Q s (s.emit (.proposed cmd))
  voted : ∀ b s, s.lastVote < b.view → Q s { s.tick with lastVote := b.view, log := .vote b :: s.log }
  sentVote : ∀ i c s, Q s (s.emit (.sendVote i c))
  committed : ∀ b c s, Q s (commit S env c (s.emit (.decide b c)))

structure Moves (Q : Replica → Replica → Prop) : Prop extends Looks S env Q where
  highTC : ∀ tc s, Q s { s with highTC := tc }
  succeeded : ∀ s, Q s (s.emit .viewSucceeded)
  entered : ∀ v timeout s, ¬ v < s.currentView → Q s (s.entered v timeout)
  sentNewView : ∀ i si s, Q s (s.emit (.sendNewView i si))

structure Sends (Q : Replica → Replica → Prop) : Prop extends Looks S env Q where
  tick : ∀ s, Q s s.tick
  store : ∀ b s, Q s (store S b s)
  proposed : ∀ cmd s, Q s (s.emit (.proposed cmd))
  sentPropose : ∀ p s, Q s (s.emit (.sendPropose p))

variable {S R env} {Q : Replica → Replica → Prop}

/-- A function across which the relation holds, in the form in which its result is taken apart. -/
private theorem across {α : Type} {f : Replica → α × Replica} (hf : ∀ s, Q s (f s).2) {s t : Replica} {a : α}
    (he : f s = (a,t)) : Q s t := by
  have hs := hf s
  rwa [he] at hs

namespace Looks
variable (h : Looks S env Q)
include h

theorem get_eq {k : Hash} {s t : Replica} {o : Option Block} (he : Replica.get S env k s = (o,t)) : Q s t :=
  across (h.get k) he

private theorem extendsBranch (k : Nat) (b target : Block) (s : Replica) :
    Q s (extendsBranch S env k b target s).2 := by
  induction k generalizing b s with
  | zero => exact h.halt s
  | succ k ih =>
    rw [Replica.extendsBranch]
    split_ifs
    · rcases hg : Replica.get S env b.parent s with ⟨_ | p,t⟩
      · exact h.get_eq hg
      · exact h.trans (h.get_eq hg) (ih p t)
    · exact h.refl s

theorem voteRule (p : ProposeMsg) (s : Replica) : Q s (voteRule S env R p s).2 := by
  cases R with
  | chained =>
    change Q s (chainedVoteRule S env p s).2
    rw [chainedVoteRule]
    rcases hg : Replica.get S env p.block.cert.hash s with ⟨_ | b,t⟩
    · exact h.trans (h.get_eq hg) (h.extendsBranch _ _ _ _)
    · dsimp only
      split_ifs
      · exact h.get_eq hg
      · exact h.trans (h.get_eq hg) (h.extendsBranch _ _ _ _)
  | simple =>
    change Q s (simpleVoteRule S env p s).2
    rw [simpleVoteRule]
    split_ifs
    · exact h.refl s
    rcases hg : Replica.get S env p.block.cert.hash s with ⟨_ | b,t⟩
    · exact h.get_eq hg
    · dsimp only
      split_ifs <;> exact h.get_eq hg
  | fast =>
    change Q s (fastVoteRule S env p s).2
    rw [fastVoteRule]
    cases p.aggQC with
    | none => exact h.refl s
    | some agg =>
      dsimp only
      rcases hg : Replica.get S env p.block.cert.hash s with ⟨_ | b,t⟩
      · exact h.get_eq hg
      · exact h.trans (h.get_eq hg) (h.extendsBranch _ _ _ _)

private theorem qcRef_eq {qc : QuorumCert} {s t : Replica} {o : Option Block} (he : qcRef S env qc s = (o,t)) :
    Q s t := by
  refine across (fun s => ?_) he
  rw [qcRef]
  split_ifs
  · exact h.refl s
  · exact h.get _ s

private theorem raiseLock (b : Block) (s : Replica) : Q s (s.raiseLock b) := by
  rw [Replica.raiseLock]
  split_ifs
  · exact h.lock b s
  · exact h.refl s

private theorem chainedCommitRule (b : Block) (s : Replica) : Q s (chainedCommitRule S env b s).2 := by
  rw [Replica.chainedCommitRule]
  have h0 := h.updateHighQC b.cert s
  split_ifs
  · exact h0
  rcases h1 : qcRef S env b.cert (Replica.updateHighQC S env b.cert s) with ⟨_ | b1,t1⟩
  · exact h.trans h0 (h.qcRef_eq h1)
  have ht1 := h.trans h0 (h.qcRef_eq h1)
  dsimp only
  rcases h2 : qcRef S env b1.cert t1 with ⟨_ | b2,t2⟩
  · exact h.trans ht1 (h.qcRef_eq h2)
  have ht2 := h.trans (h.trans ht1 (h.qcRef_eq h2)) (h.raiseLock b2 t2)
  dsimp only
  rcases h3 : qcRef S env b2.cert (t2.raiseLock b2) with ⟨_ | b3,t3⟩
  · exact h.trans ht2 (h.qcRef_eq h3)
  · dsimp only
    split_ifs <;> exact h.trans ht2 (h.qcRef_eq h3)

private theorem simpleCommitRule (b : Block) (s : Replica) : Q s (simpleCommitRule S env b s).2 := by
  rw [Replica.simpleCommitRule]
  rcases h1 : Replica.get S env b.cert.hash s with ⟨_ | p,t1⟩
  · exact h.get_eq h1
  have ht1 := h.get_eq h1
  dsimp only
  rcases h2 : Replica.get S env p.cert.hash t1 with ⟨_ | gp,t2⟩
  · exact h.trans ht1 (h.get_eq h2)
  have ht2 := h.trans (h.trans ht1 (h.get_eq h2)) (h.raiseLock gp t2)
  dsimp only
  rcases h3 : Replica.get S env gp.cert.hash (t2.raiseLock gp) with ⟨_ | ggp,t3⟩
  · exact h.trans ht2 (h.get_eq h3)
  · dsimp only
    split_ifs <;> exact h.trans ht2 (h.get_eq h3)

private theorem fastCommitRule (b : Block) (s : Replica) : Q s (fastCommitRule S env b s).2 := by
  rw [Replica.fastCommitRule]
  rcases h1 : qcRef S env b.cert s with ⟨_ | p,t1⟩
  · exact h.qcRef_eq h1
  have ht1 := h.qcRef_eq h1
  dsimp only
  rcases h2 : qcRef S env p.cert t1 with ⟨_ | gp,t2⟩
  · exact h.trans ht1 (h.qcRef_eq h2)
  · dsimp only
    split_ifs <;> exact h.trans ht1 (h.qcRef_eq h2)

theorem commitRule (b : Block) (s : Replica) : Q s (commitRule S env R b s).2 := by
  cases R with
  | chained => exact h.chainedCommitRule b s
  | simple => exact h.simpleCommitRule b s
  | fast => exact h.fastCommitRule b s

theorem andThen {s t : Replica} {f : Replica → Replica} (ht : Q s t) (hf : Q t (f t)) : Q s (t.andThen f) :=
  andThen_rec ht fun _ => h.trans ht hf

end Looks

namespace Judges
variable (h : Judges S env Q)
include h

private theorem vote (b : Block) (s : Replica) : Q s (vote S env b s) := by
  rw [Replica.vote]
  split_ifs with hv
  · exact h.refl s
  rw [sign]
  rcases env.sign s.now (b.hash S) with _ | ⟨r,t⟩
  · exact h.tick s
  · have hvote := h.voted b s (UInt64.not_le.mp hv)
    dsimp only [getLeader]
    split_ifs
    · exact h.trans (h.trans hvote (h.tick _)) (h.sentVote _ _ _)
    · exact h.trans hvote (h.tick _)

private theorem accepted (b : Block) (s : Replica) : Q s (accepted S R env b s) := by
  have hvote : Q s (Replica.vote S env b (Replica.store S b s)) := h.trans (h.store b s) (h.vote b _)
  have hrule : Q s (commitRule S env R b (Replica.vote S env b (Replica.store S b s))).2 :=
    h.trans hvote (h.commitRule b _)
  rw [Replica.accepted]
  rcases hc : commitRule S env R b (Replica.vote S env b (Replica.store S b s)) with ⟨_ | c,t⟩
  · rwa [hc] at hrule
  · rw [hc] at hrule
    exact h.trans hrule (h.committed b c t)

private theorem tellProposed (b : Block) (s : Replica) : Q s (tellProposed S env b s) := by
  rw [Replica.tellProposed]
  rcases hg : Replica.get S env b.cert.hash s with ⟨_ | a,t⟩
  · exact h.get_eq hg
  · exact h.trans (h.get_eq hg) (h.proposed a.cmd t)

private theorem consider (p : ProposeMsg) (s : Replica) : Q s (consider S R env p s) := by
  have hrule : Q s (voteRule S env R p s.tick).2 := h.trans (h.tick s) (h.voteRule p _)
  rcases consider_cases S R env p s with hc | ⟨t,hr,hc⟩ | ⟨t,hr,hc⟩
  · exact hc ▸ h.trans (h.tick s) (h.tick _)
  · rw [hr] at hrule
    exact hc ▸ hrule
  rw [hr] at hrule
  have hu := h.trans (h.trans hrule (h.tellProposed p.block t)) (h.tick _)
  rcases hc with hc | hc
  · exact hc ▸ hu
  · exact hc ▸ h.trans hu (h.accepted p.block _)

theorem judge (p : ProposeMsg) (s : Replica) : Q s (judge S R env p s) := by
  rw [Replica.judge,onProposeWith]
  rcases checkCerts S R env p s.now with _ | _ | _
  · exact h.trans (h.tick s) (h.halt _)
  · exact h.tick s
  · exact h.andThen (h.trans (h.trans (h.tick s) (h.handled p _)) (h.consider p _)) (h.refl _)

end Judges

theorem Sends.broadcast (h : Sends S env Q) (si : SyncInfo) (s : Replica) : Q s (broadcast S R env si s) := by
  have hblock (t : Replica) : Q t (proposeBlock S R env (fun _ s => s) si t) := by
    rw [proposeBlock]
    split
    · exact h.tick t
    · exact h.trans (h.trans (h.tick t) (h.store _ _)) (h.sentPropose _ _)
  rw [Replica.broadcast,proposeWith]
  split
  · exact hblock s
  · rename_i qc _
    rcases hg : Replica.get S env qc.hash s with ⟨_ | b,t⟩
    · exact h.get_eq hg
    · exact h.trans (h.trans (h.get_eq hg) (h.proposed b.cmd t)) (hblock _)

namespace Moves
variable (h : Moves S env Q) {propose : SyncInfo → Replica → Replica} (hp : ∀ si s, Q s (propose si s))
include h hp

private theorem enterView (si : SyncInfo) (v : View) (timeout : Bool) (s : Replica) :
    Q s (enterView S env propose si v timeout s) := by
  rw [enterView_eq]
  split_ifs with hv
  · exact h.refl s
  · exact h.trans (h.entered v timeout s hv) (hp si _)
  · exact h.trans (h.entered v timeout s hv) (h.sentNewView _ _ _)
  · exact h.entered v timeout s hv

theorem advanceViewWith (si : SyncInfo) (s : Replica) : Q s (advanceViewWith S env propose si s) := by
  cases htc : si.tc with
  | some tc =>
    have hlearn : Q s (s.learnTC tc) := by
      rw [learnTC]
      split_ifs
      · exact h.highTC tc s
      · exact h.refl s
    rw [advanceViewWith_tc S env _ htc]
    split_ifs
    · exact h.refl s
    · exact h.trans hlearn (h.enterView hp si tc.view true _)
  | none =>
    cases hqc : si.qc with
    | some qc =>
      have hup := h.updateHighQC qc s
      rw [advanceViewWith_qc S env _ htc hqc]
      split_ifs
      · exact h.refl s
      · exact hup
      · exact h.trans (h.trans hup (h.succeeded _)) (h.enterView hp si qc.view false _)
    | none =>
      rw [advanceViewWith_none S env _ htc hqc]
      exact h.enterView hp si 0 false s

end Moves

theorem closed_of (hj : Judges S env Q) (hs : Sends S env Q) (hm : Moves S env Q) : Closed S R env Q where
  trans := hj.trans
  halt := hj.halt
  judge := hj.judge
  broadcast := hs.broadcast
  advance := hm.advanceViewWith hs.broadcast

end Replica
end Hotstuff
