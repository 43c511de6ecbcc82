import Hotstuff.Replica.HighQC

/-! Proposals of an honest leader: the parent is the leader's own leaf, the certificate is whatever the
SyncInfo brings. When the two belong together, and that every broadcast proposal is made this way. -/
namespace Hotstuff
namespace Replica

section Statement
variable (S : Setup) (R : RuleSet) (env : Env)

structure WellFormed (p : ProposeMsg) (t : Replica) : Prop where
  parent : p.block.parent = p.block.cert.hash
  accepted : S.verifyQuorumCert p.block.cert = true
  above : ∃ q h, t.localGet p.block.cert.hash = some q ∧ t.localGet t.highQC.hash = some h ∧ h.view ≤ q.view

/-- The SyncInfo goes with the high QC that it meets: its certificate is for the same block, or there is
no timeout certificate and its block is found above the high QC's. -/
def Sound (si : SyncInfo) (s : Replica) : Prop :=
  S.verifyQuorumCert (si.qc.getD .zero) = true ∧ ((si.qc.getD .zero).hash = s.highQC.hash ∨
    si.tc = none ∧ ∃ qc b q, si.qc = some qc ∧ (get S env qc.hash s).1 = some b ∧
      s.localGet s.highQC.hash = some q ∧ q.view < b.view)

/-- `Start`, or `AdvanceView` on `si`, in state `a` makes the proposal `p`; `w` is the state right after
the broadcast. -/
inductive Triggers (si : SyncInfo) (a : Replica) (p : ProposeMsg) (w : Replica) : Prop
  | start : si = a.syncInfo → Broadcasts S R env si a p w → Triggers si a p w
  | advance {u : Replica} : Calls S env si a u → Broadcasts S R env si u p w → Triggers si a p w

end Statement

variable {S : Setup} {R : RuleSet} {env : Env}

section Form
variable {si : SyncInfo} {a u w : Replica} {p : ProposeMsg}

/-- A proposal is well formed exactly if its certificate is accepted and for the leaf. -/
theorem Broadcasts.wellFormed_iff (hw : Broadcasts S R env si u p w) (hc : Coupled S u) (hu : u.halted = false) :
    WellFormed S p w ↔
      S.verifyQuorumCert (si.qc.getD .zero) = true ∧ (si.qc.getD .zero).hash = u.highQC.hash := by
  have hcw := (hw.steps hu).coupled hc
  obtain ⟨r,cmd,hr,rfl,rfl⟩ := hw.made
  have hparent : (proposalOf S R si cmd r).block.parent = u.highQC.hash := by
    rw [proposalOf,hr.leafBlock_eq,hc.leaf]
  have hcert : (proposalOf S R si cmd r).block.cert = si.qc.getD .zero := rfl
  constructor
  · intro h
    rw [← hcert,← hparent]
    exact ⟨h.accepted,h.parent.symm⟩
  · rintro ⟨hv,hh⟩
    obtain ⟨q,hq⟩ := hcw.known
    refine ⟨hparent.trans hh.symm,hv,q,q,?_,hq,UInt64.le_refl _⟩
    rw [hcert,hh,← hr.highQC_eq]
    exact hq

/-- Which certificate is the high one after an update with an accepted one. -/
private theorem updateHighQC_hash_iff {qc : QuorumCert} {s : Replica} (hc : Coupled S s)
    (hv : S.verifyQuorumCert qc = true) : qc.hash = (updateHighQC S env qc s).highQC.hash ↔
      qc.hash = s.highQC.hash ∨ ∃ b q, (get S env qc.hash s).1 = some b ∧ s.localGet s.highQC.hash = some q ∧
        q.view < b.view := by
  obtain ⟨q,hq⟩ := hc.known
  rw [updateHighQC,if_neg (by simp [hv])]
  rcases hg : get S env qc.hash s with ⟨_ | b,t⟩
  · have hf := (get_eq hg).1
    simp [hf.highQC_eq]
  · have hf := (get_eq hg).1
    have hold : get S env t.highQC.hash t = (some q,t) := by
      rw [get,hf.highQC_eq,hf.localGet hq]
    dsimp only
    rw [hold]
    dsimp only
    split_ifs with hlt
    · simp only [true_iff]
      exact .inr ⟨b,q,rfl,hq,hlt⟩
    · rw [hf.highQC_eq]
      refine (or_iff_left ?_).symm
      rintro ⟨b',q',he,hq',hlt'⟩
      cases he
      cases hq.symm.trans hq'
      exact hlt hlt'

/-- The high QC with which `Propose` is called belongs to the SyncInfo exactly if that is sound. -/
theorem Calls.sound_iff (hu : Calls S env si a u) (hc : Coupled S a) :
    S.verifyQuorumCert (si.qc.getD .zero) = true ∧ (si.qc.getD .zero).hash = u.highQC.hash ↔ Sound S env si a := by
  rw [Sound]
  refine and_congr_right fun hv => ?_
  cases hu.reaches with
  | timeout htc _ _ =>
    rw [htc]
    simp [entered,tick,learnTC_highQC]
  | quorum htc hqc hv' _ _ =>
    rw [htc,hqc]
    refine (updateHighQC_hash_iff hc hv').trans (or_congr_right ?_)
    simp
  | bare htc hqc _ =>
    rw [htc,hqc]
    simp [entered,tick]

end Form

section Origin
variable {p : ProposeMsg} {a t : Replica}

private theorem Readied.not_sent {si : SyncInfo} (h : Readied S env si a t) (hp : .sendPropose p ∈ t.log) :
    .sendPropose p ∈ a.log := by
  unfold Readied at h
  split at h
  · rwa [h] at hp
  · obtain ⟨b,u,hg,rfl⟩ := h
    rw [← (get_eq hg).1.log_eq]
    exact List.mem_of_ne_of_mem (by simp) hp

private theorem broadcast_sent {si : SyncInfo} (hp : .sendPropose p ∈ (broadcast S R env si a).log) :
    .sendPropose p ∈ a.log ∨ ∃ w, Broadcasts S R env si a p w := by
  rw [broadcast] at hp
  rcases proposeWith_tail S R env si a with ⟨r,cmd,hr,hb⟩ | ⟨t,ht,hb⟩
  · rw [hb] at hp
    rcases List.mem_cons.mp hp with he | hp
    · cases he
      exact .inr ⟨_,hb⟩
    · exact .inl (hr.not_sent hp)
  · rw [hb] at hp
    rcases ht with hf | ⟨r,hr,rfl⟩
    · exact .inl (hf.log_eq ▸ hp)
    · exact .inl (hr.not_sent hp)

/-- A proposal in the log was there before the piece, or the piece made it. -/
theorem Piece.sent (h : Piece S R env a t) (hp : .sendPropose p ∈ t.log) :
    .sendPropose p ∈ a.log ∨ a.halted = false ∧ ∃ si w, Triggers S R env si a p w := by
  cases h with
  | judge q ha => exact .inl ((judge_inner q a).old rfl hp)
  | advance si ha =>
    have hinner : Inner Effect.advancing a (advanceViewWith S env (fun _ u => u) si a) :=
      advanceViewWith_inner (fun _ he => he) (fun _ s => .refl s) si a
    rw [Replica.advance] at hp
    rcases calls_or_returns S env si a with ⟨u,hu,-⟩ | hret
    · rw [hu] at hp hinner
      rcases broadcast_sent hp with hp | ⟨w,hw⟩
      · exact .inl (hinner.old rfl hp)
      · exact .inr ⟨ha,si,w,.advance hu hw⟩
    · rw [hret _ fun _ u => u] at hp
      exact .inl (hinner.old rfl hp)
  | start ha =>
    rcases broadcast_sent hp with hp | ⟨w,hw⟩
    · exact .inl hp
    · exact .inr ⟨ha,_,w,.start rfl hw⟩
  | aside _ hl hin =>
    rw [hl] at hp
    exact .inl ((List.mem_append.mp hp).resolve_left fun hp => by cases hin _ hp)

theorem Row.sent (h : Row S R env a t) (hp : .sendPropose p ∈ t.log) : .sendPropose p ∈ a.log ∨
    ∃ b si w, Row S R env a b ∧ b.halted = false ∧ Triggers S R env si b p w := by
  induction h with
  | refl => exact .inl hp
  | tail hrow hpiece ih =>
    rcases hpiece.sent hp with hp | ⟨hb,si,w,ht⟩
    · exact ih hp
    · exact .inr ⟨_,si,w,hrow,hb,ht⟩

end Origin

variable (S R) in
/-- A proposal that `AdvanceView` triggers is well formed exactly if its SyncInfo is sound, one that
`Start` triggers always is, and there are no others. -/
theorem proposals_well_formed_iff (id : ID) :
    (∀ env si a u p w, Visited S R id a → a.halted = false → Calls S env si a u → Broadcasts S R env si u p w →
      (WellFormed S p w ↔ Sound S env si a)) ∧
    (∀ env a p w, Visited S R id a → a.halted = false → Broadcasts S R env a.syncInfo a p w → WellFormed S p w) ∧
    ∀ l p, .sendPropose p ∈ (run S R (init S id) l).log →
      ∃ env si a w, Visited S R id a ∧ a.halted = false ∧ Triggers S R env si a p w := by
  refine ⟨fun env si a u p w hv ha hu hw => ?_,fun env a p w hv ha hw => ?_,fun l p hp => ?_⟩
  · have hcu := (hu.steps (R := R) ha).coupled hv.coupled
    exact (hw.wellFormed_iff hcu (hu.running ha)).trans (hu.sound_iff hv.coupled)
  · refine (hw.wellFormed_iff hv.coupled ha).mpr ?_
    rw [syncInfo_qc]
    exact ⟨hv.coupled.accepted,rfl⟩
  · induction l using List.reverseRecOn with
    | nil => cases hp
    | append_singleton l e ih =>
      rw [run_append] at hp
      rcases (handle_row e.2 (run S R (init S id) l)).sent hp with hp | ⟨a,si,w,hrow,ha,ht⟩
      · exact ih hp
      · exact ⟨e.1,si,a,w,⟨l,e.1,hrow⟩,ha,ht⟩

end Replica

namespace Sample
open Replica

private def leading : Env := { env 1 [] with leader := fun _ _ => 1, command := fun _ => some [] }

/-- Replica 1 has a certificate for the block of view 1. It then gets a timeout certificate of view 2 together
with the genesis certificate, and leads view 3. -/
private def mixedRun : List (Env × Event) :=
  [(env 1 [],.propose ⟨4,first 1,none⟩),(env 1 [],.newView ⟨4,{ qc := some (qcOf [2,3,4] (first 1)) }⟩),
    (leading,.newView ⟨4,{ qc := some (genesisQC 0), tc := some (tcOf [2,3,4] 2) }⟩)]

private def mixed : ProposeMsg := ⟨1,⟨(first 1).hash setup,1,[],genesisQC 0,3⟩,none⟩

theorem proposals_well_formed_mixed : ∃ env si a w, Visited setup .chained 1 a ∧ a.halted = false ∧
    Triggers setup .chained env si a mixed w :=
  (proposals_well_formed_iff setup .chained 1).2.2 mixedRun mixed (by decide +kernel)

/-- The proposal has the block of view 1 as its parent and the certificate of the genesis block. -/
theorem proposal_not_well_formed : ∃ (l : List (Env × Event)) (p : ProposeMsg),
    .sendPropose p ∈ (run setup .chained (init setup 1) l).log ∧ p.block.parent ≠ p.block.cert.hash :=
  ⟨mixedRun,mixed,by decide +kernel⟩

end Sample
end Hotstuff
