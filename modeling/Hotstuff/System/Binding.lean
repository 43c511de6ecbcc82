import Hotstuff.System.Assumptions

/-! Where the view numbers of certificates come from. The signatures of a certificate cover
the block's hash only, so its view is as good as the sender. -/
namespace Hotstuff
open Library Replica
variable {S : Setup} {R : RuleSet} {env : Env}

/-- The certificate is as `CreateQuorumCert` made it for some block. -/
def Ideal.Created (I : Ideal S) (qc : QuorumCert) : Prop :=
  ∃ b ∈ I.blocks, ∃ votes, S.createQuorumCert b votes = .ok qc

/-- If the certificate is accepted, its view is the view of the block that it certifies,
wherever that block is stored. -/
def Bound (S : Setup) (σ : System) (qc : QuorumCert) : Prop :=
  S.verifyQuorumCert qc = true → ∀ i, ∀ e ∈ (σ i).blocks, e.2.hash S = qc.hash → e.2.view = qc.view

def Ideal.Genuine (I : Ideal S) (qc : QuorumCert) : Prop := S.verifyQuorumCert qc = true → I.Created qc

structure Sourced (S : Setup) (P : QuorumCert → Prop) (s : Replica) : Prop extends Holds S P s where
  handled : ∀ p, .handle p ∈ s.log → P p.block.cert
  entered : ∀ before v, .viewChange before v false ∈ s.log → Enters S P v false

namespace Sourced
variable {P : QuorumCert → Prop} {s t : Replica}

private theorem micro {a b : Phase} (hm : Micro S R env P a b) (h : Sourced S P a.1) : Sourced S P b.1 where
  toHolds := h.toHolds.micro hm
  handled p hp := (hm.entry hp).elim (h.handled p) fun hnew => hnew.2
  entered before v hv := (hm.entry hv).elim (h.entered before v) fun hnew => hnew.2.2

private theorem steps {a b : Phase} (hm : Steps S R env P a b) (h : Sourced S P a.1) : Sourced S P b.1 := by
  induction hm with
  | refl => exact h
  | tail _ hm ih => exact ih.micro hm

theorem init (id : ID) (h : P ⟨none,0,S.genesisHash⟩) : Sourced S P (Replica.init S id) where
  high := h
  last := by simp [Replica.init]
  timeouts := by simp [Replica.init]
  sent := by simp [Replica.init]
  pending := by simp [Replica.init]
  handled := by simp [Replica.init]
  entered := by simp [Replica.init]

/-- What a replica acts on and sends comes from what it receives, or it made it for a block that it stores. -/
theorem handle (hzero : P .zero) (ev : Event) (hev : ∀ qc ∈ ev.certs, P qc) (h : Sourced S P s)
    (hmade : ∀ e ∈ (Replica.handle S R env ev s).blocks, Makes S P e.2) :
    Sourced S P (Replica.handle S R env ev s) := h.steps (handle_steps hzero ev hev h.toHolds hmade)

end Sourced

/-- Whose message an event is. Votes carry no quorum certificate. -/
def Event.sender : Event → Option ID
  | .propose p => some p.id
  | .newView m => some m.id
  | .timeout m => some m.id
  | _ => none

/-- The sender's log has the message; a new certificate goes into its own event loop as a NewView message. -/
def System.Sent (σ : System) : Event → Prop
  | .propose p => .sendPropose p ∈ (σ p.id).log
  | .newView m => (∃ dest, .sendNewView dest m.syncInfo ∈ (σ m.id).log) ∨
      ∃ qc, .newViewEvent qc ∈ (σ m.id).log ∧ m.syncInfo = { qc := some qc }
  | .timeout m => .sendTimeout m ∈ (σ m.id).log
  | _ => True

theorem System.Sent.certs {P : QuorumCert → Prop} {σ : System} (hσ : ∀ i, Sourced S P (σ i)) {ev : Event}
    (h : σ.Sent ev) : ∀ qc ∈ ev.certs, P qc := by
  cases ev with
  | propose p => exact (hσ p.id).sent _ h
  | newView m =>
    rcases h with ⟨dest,h⟩ | ⟨qc,h,hm⟩
    · exact (hσ m.id).sent _ h
    · rw [Event.certs,hm]
      exact (hσ m.id).sent _ h
  | timeout m => exact (hσ m.id).sent _ h
  | _ => simp [Event.certs]

variable (S R) in
/-- What arrives in the name of a replica outside `byz` was sent by it before. -/
def Posted (byz : Finset ID) (steps : List Step) : Prop :=
  ∀ l st, l ++ [st] <+: steps → ∀ i ∉ byz, st.event.sender = some i → ((System.init S).run S R l).Sent st.event

def Brings (byz : Finset ID) (P : QuorumCert → Prop) (steps : List Step) : Prop :=
  ∀ st ∈ steps, ∀ i ∈ byz, st.event.sender = some i → ∀ qc ∈ st.event.certs, P qc

/-- What holds of the certificates that Byzantine senders bring in and of those made anew
holds of all that are received, kept, acted on and sent. -/
theorem System.run_sourced {P : QuorumCert → Prop} {byz : Finset ID} (hzero : P .zero)
    (hgenesis : P ⟨none,0,S.genesisHash⟩) {steps : List Step} (hp : Posted S R byz steps)
    (hmade : ∀ i, ∀ e ∈ ((System.init S).run S R steps i).blocks, Makes S P e.2) (hb : Brings byz P steps) :
    (∀ st ∈ steps, ∀ qc ∈ st.event.certs, P qc) ∧ ∀ i, Sourced S P ((System.init S).run S R steps i) := by
  induction steps using List.reverseRecOn with
  | nil => exact ⟨by simp,fun i => Sourced.init i hgenesis⟩
  | append_singleton l st ih =>
    have hrun : (System.init S).run S R (l ++ [st]) = ((System.init S).run S R l).step S R st := by
      rw [System.run,List.foldl_append]
      rfl
    rw [hrun] at hmade ⊢
    obtain ⟨hl,hσ⟩ := ih (fun l' st' h => hp l' st' (h.trans (List.prefix_append _ _)))
      (fun i e he => hmade i e ((System.step_grows st _ i).2.1.mem he)) fun st' hst' => hb st' (List.mem_append_left _ hst')
    have hst : ∀ qc ∈ st.event.certs, P qc := by
      cases hs : st.event.sender with
      | none =>
        intro qc hqc
        cases he : st.event <;> simp_all [Event.sender,Event.certs]
      | some i =>
        by_cases hi : i ∈ byz
        · exact hb st (by simp) i hi hs
        · exact (hp l st List.prefix_rfl i hi hs).certs hσ
    refine ⟨fun st' hst' => ?_,System.step_each ((hσ st.replica).handle hzero st.event hst fun e he => ?_) hσ⟩
    · rcases List.mem_append.mp hst' with hst' | hst'
      · exact hl st' hst'
      · exact List.mem_singleton.mp hst' ▸ hst
    · refine hmade st.replica e ?_
      rwa [System.step,Function.update_self]

namespace Ideal
variable (I : Ideal S)

theorem view_of_hash {a b : Block} (ha : a ∈ I.blocks) (hb : b ∈ I.blocks) (h : a.hash S = b.hash S) :
    a.view = b.view := (Block.header_of_toBytes (I.bytes_of_hash ha hb h)).2.2.1

/-- The view and the hash that `CreateQuorumCert` puts into a certificate are the block's. -/
theorem created_view {qc : QuorumCert} (h : I.Created qc) :
    ∃ b ∈ I.blocks, b.hash S = qc.hash ∧ b.view = qc.view := by
  obtain ⟨b,hb,votes,hc⟩ := h
  refine ⟨b,hb,?_⟩
  rw [Setup.createQuorumCert] at hc
  split_ifs at hc with hg
  · cases hc
    exact ⟨hg,I.view_of_hash hb I.genesis_mem hg⟩
  · split at hc
    · cases hc
      exact ⟨rfl,rfl⟩
    · cases hc

theorem bound_of_created {σ : System} (hc : I.Covers σ) {qc : QuorumCert} (h : I.Created qc) : Bound S σ qc := by
  intro _ i e he hh
  obtain ⟨b,hb,hbh,hbv⟩ := I.created_view h
  exact (I.view_of_hash (hc.blocks i e he) hb (hh.trans hbh.symm)).trans hbv

theorem created_genesis : I.Created ⟨none,0,S.genesisHash⟩ :=
  ⟨genesis,I.genesis_mem,[],if_pos rfl⟩

include I in
theorem not_verify_zero : S.verifyQuorumCert .zero = false := by
  rw [Setup.verifyQuorumCert,if_neg]
  · rfl
  · exact fun h => I.hash_ne_zero I.genesis_mem h.symm

end Ideal

variable {I : Ideal S} {byz : Finset ID} {steps : List Step} in
private theorem sourced_genuine (hp : Posted S R byz steps) (hc : I.Covers ((System.init S).run S R steps))
    (hb : Brings byz I.Genuine steps) : (∀ st ∈ steps, ∀ qc ∈ st.event.certs, I.Genuine qc) ∧
      ∀ i, Sourced S I.Genuine ((System.init S).run S R steps i) := by
  refine System.run_sourced (fun h => ?_) (fun _ => I.created_genesis) hp (fun i e he votes qc hqc _ => ?_) hb
  · simp [I.not_verify_zero] at h
  · exact ⟨e.2,hc.blocks i e he,votes,hqc⟩

variable {I : Ideal S} {byz : Finset ID} {steps : List Step} in
private theorem sourced_bound (hp : Posted S R byz steps) (hc : I.Covers ((System.init S).run S R steps))
    (hb : Brings byz (Bound S ((System.init S).run S R steps)) steps) :
    (∀ st ∈ steps, ∀ qc ∈ st.event.certs, Bound S ((System.init S).run S R steps) qc) ∧
      ∀ i, Sourced S (Bound S ((System.init S).run S R steps)) ((System.init S).run S R steps i) := by
  refine System.run_sourced (fun h => ?_) (I.bound_of_created hc I.created_genesis) hp (fun i e he votes qc hqc => ?_) hb
  · simp [I.not_verify_zero] at h
  · exact I.bound_of_created hc ⟨e.2,hc.blocks i e he,votes,hqc⟩

/-- Every accepted certificate that is received has its block's view exactly if those from
Byzantine senders have; then so has every certificate that is kept, acted on or sent. If no
Byzantine sender alters one that is accepted, all were made by `CreateQuorumCert`, and a view
left by a quorum certificate is the view of a certified block. -/
theorem certificate_views_iff (I : Ideal S) (byz : Finset ID) (steps : List Step) (hp : Posted S R byz steps)
    (hc : I.Covers ((System.init S).run S R steps)) :
    ((∀ st ∈ steps, ∀ qc ∈ st.event.certs, Bound S ((System.init S).run S R steps) qc) ↔
      Brings byz (Bound S ((System.init S).run S R steps)) steps) ∧
    (Brings byz (Bound S ((System.init S).run S R steps)) steps →
      ∀ i, Sourced S (Bound S ((System.init S).run S R steps)) ((System.init S).run S R steps i)) ∧
    (Brings byz I.Genuine steps → (∀ st ∈ steps, ∀ qc ∈ st.event.certs, I.Genuine qc) ∧
      ∀ i, Sourced S I.Genuine ((System.init S).run S R steps i) ∧
        ∀ before v, .viewChange before v false ∈ ((System.init S).run S R steps i).log →
          v = 0 ∨ ∃ b ∈ I.blocks, b.view = v ∧ ∃ qc, S.verifyQuorumCert qc = true ∧ qc.hash = b.hash S) := by
  refine ⟨⟨fun h st hst _ _ _ => h st hst,fun h => (sourced_bound hp hc h).1⟩,fun h => (sourced_bound hp hc h).2,
    fun h => ?_⟩
  obtain ⟨hrec,hsrc⟩ := sourced_genuine hp hc h
  refine ⟨hrec,fun i => ⟨hsrc i,fun before v hv => ?_⟩⟩
  refine ((hsrc i).entered before v hv).imp id fun ⟨qc,hgen,hacc,hview⟩ => ?_
  obtain ⟨b,hb,hbh,hbv⟩ := I.created_view (hgen hacc)
  exact ⟨b,hb,hbv.trans hview,qc,hacc,hbh.symm⟩

namespace Sample

private def votesOf (b : Block) : List PartialCert :=
  [1,2,4].map fun i => ⟨some (.ecdsa ⟨UInt32.toNat i,(b.hash setup).toNat,i⟩),b.hash setup⟩

private def lineSteps : List Step :=
  deliver lineKnown lineOrder ++ [⟨4,Sample.env 4 lineKnown,.newView ⟨1,{ qc := some (line 4).cert }⟩⟩]

private theorem line_created : coversTest lineKnown [1,2,4] ((System.init setup).run setup .fast lineSteps) = true ∧
    collisionTest setup lineKnown = true ∧ genesis ∈ lineKnown ∧
    (∀ e ∈ lineOrder, ∃ b ∈ lineKnown, (setup.createQuorumCert b (votesOf b)).toOption = some e.2.cert) ∧
    .sendNewView 4 { qc := some (line 4).cert } ∈ (after .fast lineKnown lineOrder 1).log ∧
    .viewChange 1 4 false ∈ ((System.init setup).run setup .fast lineSteps 4).log := by decide +kernel

theorem certificate_views_line : ∃ I : Ideal setup, Posted setup .fast {4} lineSteps ∧
    (∀ st ∈ lineSteps, ∀ qc ∈ st.event.certs, I.Genuine qc) ∧
    ∃ b ∈ I.blocks, b.view = 4 ∧ ∃ qc, setup.verifyQuorumCert qc = true ∧ qc.hash = b.hash setup := by
  obtain ⟨hcov,hcol,hg,hcreated,hsent,hview⟩ := line_created
  let I : Ideal setup := .ofList lineKnown hg digest_ne_view hcol
  have hline {st : Step} (hst : st ∈ deliver lineKnown lineOrder) :
      st.event.sender = some 4 ∧ ∀ qc ∈ st.event.certs, I.Created qc := by
    obtain ⟨e,he,rfl⟩ := List.mem_map.mp hst
    refine ⟨rfl,fun qc hqc => ?_⟩
    obtain ⟨b,hb,hok⟩ := hcreated e he
    rw [List.mem_singleton.mp hqc]
    refine ⟨b,hb,votesOf b,?_⟩
    cases hc : setup.createQuorumCert b (votesOf b) with
    | ok q =>
      rw [hc] at hok
      exact congrArg _ (Option.some.inj hok)
    | error e => simp [hc,Except.toOption] at hok
  have hpost : Posted setup .fast {4} lineSteps := by
    intro l st hl i hi hs
    rcases List.prefix_concat_iff.mp hl with he | hl
    · obtain ⟨rfl,hst⟩ := List.append_inj' he rfl
      cases hst
      cases hs
      exact .inl ⟨4,hsent⟩
    · obtain ⟨hs',-⟩ := hline (hl.mem (List.mem_append_right l (List.mem_singleton_self st)))
      rw [hs'] at hs
      exact absurd (Finset.mem_singleton.mpr (Option.some.inj hs).symm) hi
  have hbyz : Brings {4} I.Genuine lineSteps := by
    intro st hst i hi hs qc hqc _
    rcases List.mem_append.mp hst with hst | hst
    · exact (hline hst).2 qc hqc
    · rw [List.mem_singleton.mp hst] at hs
      cases hs
      simp at hi
  have hw : ((System.init setup).run setup .fast lineSteps).Within setup [1,2,4] :=
    System.Within.run (fun _ _ => rfl) (by decide +kernel)
  obtain ⟨-,-,hgen⟩ := certificate_views_iff I {4} lineSteps hpost (covers_of_test (fun b hb => hb) hw hcov)
  obtain ⟨hrec,hi⟩ := hgen hbyz
  exact ⟨I,hpost,hrec,((hi 4).2 1 4 hview).resolve_left (by decide)⟩

/-- A NewView message with the genesis certificate under view 5: it is accepted, the genesis
block is stored with view 0, and the replica goes on to view 6. -/
theorem certificate_view_altered : ∃ st : Step, ∃ qc ∈ st.event.certs, setup.verifyQuorumCert qc = true ∧
    (∃ e ∈ ((System.init setup).run setup .fast [st] 1).blocks, e.2.hash setup = qc.hash ∧ e.2.view ≠ qc.view) ∧
    ((System.init setup).run setup .fast [st] 1).currentView = qc.view + 1 :=
  ⟨⟨1,env 1 [],.newView ⟨4,{ qc := some (genesisQC 5) }⟩⟩,genesisQC 5,by decide +kernel⟩

end Sample
end Hotstuff
