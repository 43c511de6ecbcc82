import Hotstuff.LeaderRotation.Reputation

/-! When the three leader rotations return one of the replicas, and when they panic. -/
namespace Hotstuff

structure Setup.Numbered (S : Setup) : Prop where
  pos : 0 < S.replicas.card
  ids : ∀ i, i ∈ S.replicas ↔ 1 ≤ i.toNat ∧ i.toNat ≤ S.replicas.card

variable {S : Setup}

theorem Setup.Numbered.card_lt (h : S.Numbered) : S.replicas.card < 2^32 := by
  have hsub : Set.MapsTo UInt32.toNat S.replicas (Finset.Ico 1 (2^32)) := by
    intro i hi
    exact Finset.mem_coe.mpr (Finset.mem_Ico.mpr ⟨((h.ids i).mp hi).1,i.toNat_lt⟩)
  have hcard := Finset.card_le_card_of_injOn UInt32.toNat hsub fun a _ b _ he => UInt32.toNat_inj.mp he
  rw [Nat.card_Ico] at hcard
  omega

theorem roundRobin_mem (h : S.Numbered) (view : View) : roundRobin S.replicas.card view ∈ S.replicas := by
  have hlt := h.card_lt
  have hpos := h.pos
  have hmod := Nat.mod_lt view.toNat hpos
  have hid : (roundRobin S.replicas.card view).toNat = view.toNat % S.replicas.card + 1 := by
    have hn : (UInt64.ofNat S.replicas.card).toNat = S.replicas.card :=
      UInt64.toNat_ofNat_of_lt' (by simp only [UInt64.size]; omega)
    rw [roundRobin,UInt64.toNat_toUInt32,UInt64.toNat_add,UInt64.toNat_mod,hn,UInt64.toNat_one]
    omega
  rw [h.ids,hid]
  omega

/-- The carousel returns a replica, whatever the clock and the order, exactly if it falls back to round-robin, or can
walk to its last authors and draws from replicas only. -/
theorem carousel_total_iff (h : S.Numbered) {s : RotationState} (hs : s.len = S.replicas.card) (round : View) :
    (∀ active draw, Reputation.Iterates s.committed.block active →
      ∃ i ∈ S.replicas, Carousel.getLeader s active draw round = some i) ↔
    round ≤ 10 ∨ ∃ sig, s.signature = some sig ∧ (s.highQCView ≠ round - 1 ∨
      ∃ authors, Carousel.lastAuthors s.get (numFaulty s.len) (some s.committed) = some authors ∧
        sig.participants ≠ [] ∧ ∀ p, Carousel.Eligible sig authors p → p ∈ S.replicas) := by
  constructor
  · intro htotal
    by_cases hr : round ≤ 10
    · exact .inl hr
    cases hsig : s.signature with
    | none =>
      obtain ⟨i,-,hl⟩ := htotal [] 0 fun sig hs => absurd (hsig.symm.trans hs) nofun
      rcases Carousel.getLeader_eq_some_iff.mp hl with ⟨hr',-⟩ | ⟨-,sig,hs,-⟩
      · exact absurd hr' hr
      · cases hsig.symm.trans hs
    | some sig =>
      refine .inr ⟨sig,rfl,or_iff_not_imp_left.mpr fun hv => ?_⟩
      have hdraw (active : List ID) (draw : Nat) (hit : sig.Iterates active) : ∃ i ∈ S.replicas, ∃ authors,
          Carousel.lastAuthors s.get (numFaulty s.len) (some s.committed) = some authors ∧
          (Carousel.removeActive active authors)[draw % (Carousel.removeActive active authors).length]? = some i := by
        obtain ⟨i,hi,hl⟩ := htotal active draw fun sig' hs => Option.some.inj (hsig.symm.trans hs) ▸ hit
        rcases Carousel.getLeader_eq_some_iff.mp hl with ⟨hr',-⟩ | ⟨-,_,-,⟨hv',-⟩ | ⟨-,hrest⟩⟩
        · exact absurd hr' hr
        · exact absurd hv' hv
        · exact ⟨i,hi,hrest⟩
      obtain ⟨i,-,authors,ha,hi⟩ := hdraw sig.participants 0 sig.iterates_participants
      refine ⟨authors,ha,fun hnil => ?_,fun p hp => ?_⟩
      · rw [hnil,Carousel.removeActive_eq] at hi
        cases hi
      · obtain ⟨active,draw,hit,hp'⟩ := Carousel.drawn_iff.mpr hp
        obtain ⟨j,hj,authors',ha',hj'⟩ := hdraw active draw hit
        cases ha.symm.trans ha'
        cases hp'.symm.trans hj'
        exact hj
  · intro hcond active draw hit
    have hrr := roundRobin_mem h round
    rw [← hs] at hrr
    by_cases hr : round ≤ 10
    · exact ⟨_,hrr,Carousel.getLeader_eq_some_iff.mpr (.inl ⟨hr,rfl⟩)⟩
    obtain ⟨sig,hsig,hcase⟩ := hcond.resolve_left hr
    by_cases hv : s.highQCView = round - 1
    · obtain ⟨authors,ha,hne,hel⟩ := hcase.resolve_left (not_not.mpr hv)
      have hlen : (Carousel.removeActive active authors).length = sig.participants.length := by
        rw [Carousel.removeActive_eq,List.length_map,(hit sig hsig).perm.length_eq]
      have hlt : draw % (Carousel.removeActive active authors).length < (Carousel.removeActive active authors).length :=
        Nat.mod_lt _ (hlen ▸ List.length_pos_of_ne_nil hne)
      have hi := List.getElem?_eq_getElem hlt
      exact ⟨_,hel _ (Carousel.drawn_iff.mp ⟨active,draw,hit sig hsig,hi⟩),
        Carousel.getLeader_eq_some_iff.mpr (.inr ⟨hr,sig,hsig,.inr ⟨hv,authors,ha,hi⟩⟩)⟩
    · exact ⟨_,hrr,Carousel.getLeader_eq_some_iff.mpr (.inr ⟨hr,sig,hsig,.inl ⟨hv,rfl⟩⟩)⟩

namespace Reputation
variable {C : Chooser}

def choices (S : Setup) (C : Chooser) (rep : ID → ℚ) (sig : ThresholdSignature) : Multiset (ID × UInt64) :=
  (sig.participants.foldl (visit C (reward S.replicas.card sig.participants.length)) (rep,0)).2

theorem mem_foldl_visit {gain : ℚ} {l : List ID} {acc : (ID → ℚ) × Multiset (ID × UInt64)} {c : ID × UInt64}
    (hc : c ∈ (l.foldl (visit C gain) acc).2) : c ∈ acc.2 ∨ c.1 ∈ l := by
  induction l generalizing acc with
  | nil => exact .inl hc
  | cons a l ih =>
    rcases ih hc with hc | hc
    · rcases Multiset.mem_cons.mp hc with rfl | hc
      · exact .inr List.mem_cons_self
      · exact .inl hc
    · exact .inr (List.mem_cons_of_mem _ hc)

/-- The reputation-based rotation returns a replica exactly if it still counts through the replicas, or if
the committed block has a certificate by replicas only whose weights `NewChooser` accepts. -/
theorem repBased_total_iff (h : S.Numbered) (hC : C.Draws) {b : Block} {rep : ID → ℚ} {voters : List ID} (hv : Iterates b voters)
    (view : View) : (∃ i ∈ S.replicas, ∃ rep', getLeader S C b rep voters view = some (i,rep')) ↔
    ¬ Counts S view ∨ ∃ sig, b.cert.signature = some sig ∧ (∀ p ∈ sig.participants, p ∈ S.replicas) ∧
      C.accepts (choices S C rep sig) = true := by
  have hperm {sig : ThresholdSignature} (hs : b.cert.signature = some sig) :
      (voters.foldl (visit C (reward S.replicas.card voters.length)) (rep,0)).2 = choices S C rep sig := by
    have hp := (hv sig hs).perm
    rw [choices,foldl_visit_perm C _ hp,hp.length_eq]
  constructor
  · rintro ⟨i,-,rep',hl⟩
    rcases getLeader_eq_some_iff.mp hl with ⟨hc,-⟩ | ⟨-,⟨sig,hs⟩,hall,hacc,-⟩
    · exact .inl hc
    · refine .inr ⟨sig,hs,fun p hp => hall p ((hv sig hs).perm.mem_iff.mpr hp),?_⟩
      rwa [← hperm hs]
  · intro hcond
    by_cases hc : Counts S view
    · obtain ⟨sig,hs,hall,hacc⟩ := hcond.resolve_left (not_not.mpr hc)
      rw [← hperm hs] at hacc
      obtain ⟨w,hw⟩ := hC _ (seed S b) hacc
      have hvoters : ∀ p ∈ voters, p ∈ S.replicas := fun p hp => hall p ((hv sig hs).perm.mem_iff.mp hp)
      have hmem := (mem_foldl_visit hw).resolve_left (Multiset.notMem_zero _)
      exact ⟨_,hvoters _ hmem,_,getLeader_eq_some_iff.mpr (.inr ⟨hc,⟨sig,hs⟩,hvoters,hacc,rfl,rfl⟩)⟩
    · exact ⟨_,roundRobin_mem h view,rep,getLeader_eq_some_iff.mpr (.inl ⟨hc,rfl,rfl⟩)⟩

end Reputation

/-- When the three rotations return one of the replicas 1 to `n`, in every state and for every view. -/
theorem leader_total_iff (h : S.Numbered) {C : Reputation.Chooser} (hC : C.Draws) (rep : ID → ℚ) {s : RotationState}
    (hs : s.len = S.replicas.card) (view : View) :
    roundRobin S.replicas.card view ∈ S.replicas ∧
    ((∀ active draw, Reputation.Iterates s.committed.block active →
        ∃ i ∈ S.replicas, Carousel.getLeader s active draw view = some i) ↔
      view ≤ 10 ∨ ∃ sig, s.signature = some sig ∧ (s.highQCView ≠ view - 1 ∨
        ∃ authors, Carousel.lastAuthors s.get (numFaulty s.len) (some s.committed) = some authors ∧
          sig.participants ≠ [] ∧ ∀ p, Carousel.Eligible sig authors p → p ∈ S.replicas)) ∧
    ∀ voters, Reputation.Iterates s.committed.block voters →
      ((∃ i ∈ S.replicas, ∃ rep', Reputation.getLeader S C s.committed.block rep voters view = some (i,rep')) ↔
        ¬ Reputation.Counts S view ∨ ∃ sig, s.signature = some sig ∧ (∀ p ∈ sig.participants, p ∈ S.replicas) ∧
          C.accepts (Reputation.choices S C rep sig) = true) :=
  ⟨roundRobin_mem h view,carousel_total_iff h hs view,fun _ hv => Reputation.repBased_total_iff h hC hv view⟩

namespace Sample
open Replica

private theorem setup_numbered : setup.Numbered where
  pos := by decide
  ids i := by
    have hcard : setup.replicas.card = 4 := by decide
    rw [hcard]
    constructor
    · intro hi
      have hmem : i = 1 ∨ i = 2 ∨ i = 3 ∨ i = 4 := by simpa [setup] using hi
      rcases hmem with rfl | rfl | rfl | rfl <;> decide
    · rintro ⟨h1,h4⟩
      have hval : i = UInt32.ofNat i.toNat := UInt32.ofNat_toNat.symm
      obtain h | h | h | h : i.toNat = 1 ∨ i.toNat = 2 ∨ i.toNat = 3 ∨ i.toNat = 4 := by omega
      all_goals
        rw [hval,h]
        decide

private def d11 : Block := first 11
private def d12 : Block := next [2,3,4] d11 12
private def d13 : Block := next [2,3,4] d12 13
private def d14 : Block := next [2,3,4] d13 14
private def d15 : Block := next [2,3,4] d14 15

private def rotating : RotationState := .ofReplica setup (env 1 []) (run setup .chained (init setup 1)
  ([d11,d12,d13,d14,d15].map fun b => (env 1 [],.propose ⟨4,b,none⟩)))

private def d12Signature : ThresholdSignature :=
  .ecdsa (.restore ([2,3,4].map fun i => ⟨i.toNat,(d11.hash setup).toNat,i⟩))

private theorem rotating_eq : rotating.signature = some d12Signature ∧ rotating.highQCView = 15 - 1 ∧
    Carousel.lastAuthors rotating.get (numFaulty rotating.len) (some rotating.committed) = some [4] ∧
    d12Signature.participants = [2,3,4] := by decide +kernel

private theorem d12Signature_mem (p : ID) (hp : p ∈ d12Signature.participants) : p ∈ setup.replicas := by
  obtain ⟨-,-,-,hids⟩ := rotating_eq
  rw [hids] at hp
  have hmem : p = 2 ∨ p = 3 ∨ p = 4 := by simpa using hp
  rcases hmem with rfl | rfl | rfl <;> decide

/-- In view 15 the carousel draws from the voters of the committed block, and the reputation-based rotation weighs
them. -/
theorem leader_total_committed : Reputation.Counts setup 15 ∧ rotating.highQCView = 15 - 1 ∧
    (∀ draw, ∃ i ∈ setup.replicas, Carousel.getLeader rotating [2,3,4] draw 15 = some i) ∧
    ∃ i ∈ setup.replicas, ∃ rep', Reputation.getLeader setup heaviest rotating.committed.block (fun i => i.toNat)
      [2,3,4] 15 = some (i,rep') := by
  obtain ⟨hsig,hview,hauthors,hids⟩ := rotating_eq
  have htotal := leader_total_iff setup_numbered heaviest_draws (fun i => i.toNat) (s := rotating) rfl 15
  have hit : Reputation.Iterates rotating.committed.block [2,3,4] := by
    intro sig hs
    cases hsig.symm.trans hs
    rw [← hids]
    exact d12Signature.iterates_participants
  have hcarousel := htotal.2.1.mpr (.inr ⟨d12Signature,hsig,.inr
    ⟨[4],hauthors,by simp [hids],fun p hp => d12Signature_mem p hp.1⟩⟩)
  refine ⟨by decide,hview,fun draw => hcarousel [2,3,4] draw hit,?_⟩
  exact (htotal.2.2 [2,3,4] hit).mpr (.inr ⟨d12Signature,hsig,d12Signature_mem,by decide +kernel⟩)

/-- Nothing is committed yet when a proposal of view 15 arrives, with the certificate of the genesis block: both
rotations panic on its nil signature. -/
theorem leader_panics : ∃ p : ProposeMsg, checkCerts setup .chained (env 1 []) p 0 = some true ∧
    (∀ active draw, Carousel.getLeader (.ofReplica setup (env 1 []) (init setup 1)) active draw p.block.view = none) ∧
    ∀ C rep voters, Reputation.getLeader setup C (init setup 1).bExec rep voters p.block.view = none :=
  ⟨⟨4,first 15,none⟩,by decide +kernel,fun _ _ => rfl,fun _ _ _ => rfl⟩

end Sample
end Hotstuff
