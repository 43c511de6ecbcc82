import Hotstuff.Replica.Run

/-! `OnPropose`, `AdvanceView` and `Propose` call each other only as the last thing they do. Cut
at these calls, what an event does is a row of flat pieces. -/
namespace Hotstuff
namespace Replica
variable (S : Setup) (R : RuleSet) (env : Env)

/-- `OnPropose` without the deferred `AdvanceView`. -/
def judge (p : ProposeMsg) (s : Replica) : Replica := onProposeWith S R env (fun _ s => s) p s

/-- `Propose` without the leader's own `OnPropose`. -/
def broadcast (si : SyncInfo) (s : Replica) : Replica := proposeWith S R env (fun _ s => s) si s

/-- `AdvanceView` without the leader's own `OnPropose`. -/
def advance (si : SyncInfo) (s : Replica) : Replica := advanceViewWith S env (broadcast S R env) si s

/-- `AdvanceView` on `si` in state `s` calls `Propose`, in state `t`. -/
def Calls (si : SyncInfo) (s t : Replica) : Prop := ∀ propose, advanceViewWith S env propose si s = propose si t

/-- `Propose` on `si` in state `s` broadcasts `p`; `t` is the state right after that. -/
def Broadcasts (si : SyncInfo) (s : Replica) (p : ProposeMsg) (t : Replica) : Prop :=
  ∀ onPropose, proposeWith S R env onPropose si s = onPropose p t

def proposalOf (si : SyncInfo) (cmd : Command) (s : Replica) : ProposeMsg :=
  ⟨s.id,⟨s.leafBlock.hash S,s.id,cmd,si.qc.getD .zero,s.currentView⟩,if R.useAggQC then si.aggQC else none⟩

theorem onProposeWith_tail (p : ProposeMsg) (s : Replica) :
    (checkCerts S R env p s.now = some true ∧ (judge S R env p s).halted = false ∧
      ∀ advance, onProposeWith S R env advance p s = advance { qc := some p.block.cert } (judge S R env p s)) ∨
    ((checkCerts S R env p s.now = some true → (judge S R env p s).halted = true) ∧
      ∀ advance, onProposeWith S R env advance p s = judge S R env p s) := by
  simp only [judge,onProposeWith]
  rcases checkCerts S R env p s.now with _ | _ | _
  · exact .inr ⟨by simp,fun _ => rfl⟩
  · exact .inr ⟨by simp,fun _ => rfl⟩
  · simp only [andThen]
    split_ifs with hh
    · exact .inr ⟨fun _ => hh,fun _ => rfl⟩
    · exact .inl ⟨trivial,by simpa using hh,fun _ => rfl⟩

def entered (v : View) (timeout : Bool) (s : Replica) : Replica :=
  ({ s with currentView := v+1, lastTimeout := none,
            log := .viewChange s.currentView v timeout :: s.log } : Replica).tick

theorem enterView_eq (propose : SyncInfo → Replica → Replica) (si : SyncInfo) (v : View) (timeout : Bool)
    (s : Replica) : enterView S env propose si v timeout s =
      if v < s.currentView then s
      else if env.leader s.now (v+1) = s.id then propose si (s.entered v timeout)
      else if env.leader s.now (v+1) ∈ S.replicas then
        (s.entered v timeout).emit (.sendNewView (env.leader s.now (v+1)) si)
      else s.entered v timeout := rfl

theorem enterView_tail (si : SyncInfo) (v : View) (timeout : Bool) (s : Replica) :
    (¬ v < s.currentView ∧ ∀ propose, enterView S env propose si v timeout s = propose si (s.entered v timeout)) ∨
      ∀ propose propose', enterView S env propose si v timeout s = enterView S env propose' si v timeout s := by
  simp only [enterView_eq S env]
  by_cases hv : v < s.currentView
  · exact .inr fun _ _ => by rw [if_pos hv,if_pos hv]
  by_cases hl : env.leader s.now (v+1) = s.id
  · exact .inl ⟨hv,fun _ => by rw [if_neg hv,if_pos hl]⟩
  · exact .inr fun _ _ => by rw [if_neg hv,if_neg hl,if_neg hv,if_neg hl]

/-- The high TC is raised before the view is compared. -/
def learnTC (tc : TimeoutCert) (s : Replica) : Replica :=
  if s.highTC.view < tc.view then { s with highTC := tc } else s

theorem learnTC_highQC (tc : TimeoutCert) (s : Replica) : (s.learnTC tc).highQC = s.highQC := by
  rw [learnTC]
  split_ifs <;> rfl

theorem learnTC_frame (tc : TimeoutCert) (s : Replica) : (s.learnTC tc).currentView = s.currentView ∧
    (s.learnTC tc).now = s.now ∧ (s.learnTC tc).id = s.id ∧ (s.learnTC tc).blocks = s.blocks := by
  rw [learnTC]
  split_ifs <;> exact ⟨rfl,rfl,rfl,rfl⟩

section Cases
variable {si : SyncInfo} {s : Replica} (propose : SyncInfo → Replica → Replica)

theorem advanceViewWith_tc {tc : TimeoutCert} (htc : si.tc = some tc) : advanceViewWith S env propose si s =
    if S.verifyTimeoutCert tc = false then s else enterView S env propose si tc.view true (s.learnTC tc) := by
  simp only [advanceViewWith,htc,learnTC]

theorem advanceViewWith_qc {qc : QuorumCert} (htc : si.tc = none) (hqc : si.qc = some qc) :
    advanceViewWith S env propose si s =
      if S.verifyQuorumCert qc = false then s
      else if (updateHighQC S env qc s).halted then updateHighQC S env qc s
      else enterView S env propose si qc.view false ((updateHighQC S env qc s).emit .viewSucceeded) := by
  simp only [advanceViewWith,htc,hqc,andThen]

theorem advanceViewWith_none (htc : si.tc = none) (hqc : si.qc = none) :
    advanceViewWith S env propose si s = enterView S env propose si 0 false s := by
  simp only [advanceViewWith,htc,hqc]

end Cases

inductive Reaches (si : SyncInfo) (s : Replica) : Replica → Prop
  | timeout {tc : TimeoutCert} : si.tc = some tc → S.verifyTimeoutCert tc = true →
      ¬ tc.view < (s.learnTC tc).currentView → Reaches si s ((s.learnTC tc).entered tc.view true)
  | quorum {qc : QuorumCert} : si.tc = none → si.qc = some qc → S.verifyQuorumCert qc = true →
      (updateHighQC S env qc s).halted = false → ¬ qc.view < (updateHighQC S env qc s).currentView →
      Reaches si s (((updateHighQC S env qc s).emit .viewSucceeded).entered qc.view false)
  | bare : si.tc = none → si.qc = none → ¬ 0 < s.currentView → Reaches si s (s.entered 0 false)

theorem calls_or_returns (si : SyncInfo) (s : Replica) :
    (∃ t, Calls S env si s t ∧ Reaches S env si s t) ∨
    ∀ propose propose', advanceViewWith S env propose si s = advanceViewWith S env propose' si s := by
  unfold Calls
  cases htc : si.tc with
  | some tc =>
    simp only [advanceViewWith_tc S env _ htc]
    cases hv : S.verifyTimeoutCert tc with
    | false => exact .inr fun _ _ => rfl
    | true => exact (enterView_tail S env si tc.view true _).imp_left fun h => ⟨_,h.2,.timeout htc hv h.1⟩
  | none =>
    cases hqc : si.qc with
    | some qc =>
      simp only [advanceViewWith_qc S env _ htc hqc]
      cases hv : S.verifyQuorumCert qc with
      | false => exact .inr fun _ _ => rfl
      | true =>
        cases hh : (updateHighQC S env qc s).halted with
        | true => exact .inr fun _ _ => rfl
        | false => exact (enterView_tail S env si qc.view false _).imp_left fun h => ⟨_,h.2,.quorum htc hqc hv hh h.1⟩
    | none =>
      simp only [advanceViewWith_none S env _ htc hqc]
      exact (enterView_tail S env si 0 false s).imp_left fun h => ⟨_,h.2,.bare htc hqc h.1⟩

/-- A proposal is made of the leaf block, the certificate at hand and a command, once the block
of the certificate has been found. -/
theorem proposeBlock_tail (si : SyncInfo) (s : Replica) :
    (∃ cmd, ∀ onPropose, proposeBlock S R env onPropose si s = onPropose (proposalOf S R si cmd s)
      ((store S (proposalOf S R si cmd s).block s.tick).emit (.sendPropose (proposalOf S R si cmd s)))) ∨
    ∀ onPropose, proposeBlock S R env onPropose si s = s.tick := by
  simp only [proposeBlock]
  cases env.command s.now with
  | none => exact .inr fun _ => rfl
  | some cmd => exact .inl ⟨cmd,fun _ => rfl⟩

def Readied (si : SyncInfo) (s u : Replica) : Prop :=
  match si.qc with
  | none => u = s
  | some qc => ∃ b t, get S env qc.hash s = (some b,t) ∧ u = t.emit (.proposed b.cmd)

theorem proposeWith_tail (si : SyncInfo) (s : Replica) :
    (∃ u cmd, Readied S env si s u ∧ Broadcasts S R env si s (proposalOf S R si cmd u)
      ((store S (proposalOf S R si cmd u).block u.tick).emit (.sendPropose (proposalOf S R si cmd u)))) ∨
    ∃ t, (Fetched S env s t ∨ ∃ u, Readied S env si s u ∧ t = u.tick) ∧
      ∀ onPropose, proposeWith S R env onPropose si s = t := by
  simp only [Broadcasts,proposeWith,Readied]
  cases hqc : si.qc with
  | none =>
    rcases proposeBlock_tail S R env si s with ⟨cmd,h⟩ | h
    · exact .inl ⟨s,cmd,rfl,h⟩
    · exact .inr ⟨s.tick,.inr ⟨s,rfl,rfl⟩,h⟩
  | some qc =>
    dsimp only
    rcases hg : get S env qc.hash s with ⟨_ | b,t⟩
    · exact .inr ⟨t,.inl (get_eq hg).1,fun _ => rfl⟩
    · rcases proposeBlock_tail S R env si (t.emit (.proposed b.cmd)) with ⟨cmd,h⟩ | h
      · exact .inl ⟨_,cmd,⟨b,t,rfl,rfl⟩,h⟩
      · exact .inr ⟨_,.inr ⟨_,⟨b,t,rfl,rfl⟩,rfl⟩,h⟩

variable {S R env}

theorem Calls.reaches {si : SyncInfo} {s t : Replica} (h : Calls S env si s t) : Reaches S env si s t := by
  rcases calls_or_returns S env si s with ⟨u,hu,hr⟩ | hc
  · -- both are what `AdvanceView` returns when `Propose` does nothing
    rwa [show t = u from (h fun _ s => s).symm.trans (hu fun _ s => s)]
  · have he := hc (fun _ s => { s with halted := true }) (fun _ s => { s with halted := false })
    rw [h,h] at he
    exact absurd (congrArg halted he) Bool.noConfusion

/-- What is broadcast is the proposal of the state in which a command was asked for. -/
theorem Broadcasts.made {si : SyncInfo} {s t : Replica} {p : ProposeMsg} (h : Broadcasts S R env si s p t) :
    ∃ u cmd, Readied S env si s u ∧ p = proposalOf S R si cmd u ∧
      t = (store S p.block u.tick).emit (.sendPropose p) := by
  rcases proposeWith_tail S R env si s with ⟨u,cmd,hu,hp⟩ | ⟨t',-,hp⟩
  · -- the two proposals can be told apart by what `OnPropose` does with them
    have he := (h fun q s => s.emit (.sendPropose q)).symm.trans (hp _)
    have hlog := congrArg log he
    simp only [emit,List.cons.injEq,Effect.sendPropose.injEq] at hlog
    obtain ⟨rfl,-⟩ := hlog
    exact ⟨u,cmd,hu,rfl,(h fun _ s => s).symm.trans (hp _)⟩
  · have he := (h fun _ s => { s with halted := true }).symm.trans
      ((hp _).trans ((hp _).symm.trans (h fun _ s => { s with halted := false })))
    exact absurd (congrArg halted he) Bool.noConfusion

/-- What the flat pieces have in common, the nested calls have as well. -/
structure Closed (S : Setup) (R : RuleSet) (env : Env) (Q : Replica → Replica → Prop) : Prop where
  trans : ∀ {s t u}, Q s t → Q t u → Q s u
  halt : ∀ s, Q s s.halt
  judge : ∀ p s, Q s (judge S R env p s)
  broadcast : ∀ si s, Q s (broadcast S R env si s)
  advance : ∀ si s, Q s (advance S R env si s)

namespace Closed
variable {Q : Replica → Replica → Prop} (h : Closed S R env Q)
include h

private theorem proposeWith {onPropose : ProposeMsg → Replica → Replica} (hon : ∀ p s, Q s (onPropose p s))
    (si : SyncInfo) (s : Replica) : Q s (proposeWith S R env onPropose si s) := by
  have hb := h.broadcast si s
  rw [Replica.broadcast] at hb
  rcases proposeWith_tail S R env si s with ⟨u,cmd,-,hp⟩ | ⟨t,-,hp⟩
  · rw [hp] at hb ⊢
    exact h.trans hb (hon _ _)
  · rwa [hp] at hb ⊢

private theorem advanceViewWith {onPropose : ProposeMsg → Replica → Replica} (hon : ∀ p s, Q s (onPropose p s))
    (si : SyncInfo) (s : Replica) : Q s (advanceViewWith S env (Replica.proposeWith S R env onPropose) si s) := by
  have ha := h.advance si s
  rw [Replica.advance] at ha
  rcases calls_or_returns S env si s with ⟨t,hc,-⟩ | hc
  · rw [hc,Replica.broadcast] at ha
    rw [hc]
    rcases proposeWith_tail S R env si t with ⟨u,cmd,-,hp⟩ | ⟨t',-,hp⟩
    · rw [hp] at ha ⊢
      exact h.trans ha (hon _ _)
    · rwa [hp] at ha ⊢
  · rwa [hc (Replica.proposeWith S R env onPropose) (Replica.broadcast S R env)]

theorem onPropose (k : Nat) (p : ProposeMsg) (s : Replica) : Q s (onPropose S R env k p s) := by
  induction k generalizing p s with
  | zero => exact h.halt s
  | succ k ih =>
    rw [Replica.onPropose]
    rcases onProposeWith_tail S R env p s with ⟨-,-,hp⟩ | ⟨-,hp⟩
    · rw [hp]
      exact h.trans (h.judge p s) (h.advanceViewWith ih _ _)
    · rw [hp]
      exact h.judge p s

theorem propose (k : Nat) (si : SyncInfo) (s : Replica) : Q s (propose S R env k si s) :=
  h.proposeWith (h.onPropose k) si s

theorem advanceView (k : Nat) (si : SyncInfo) (s : Replica) : Q s (advanceView S R env k si s) :=
  h.advanceViewWith (h.onPropose k) si s

end Closed
end Replica
end Hotstuff
