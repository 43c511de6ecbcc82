import Hotstuff.Progress.View

/-! Runs without faults: view after view has a leader that is up, and every replica that is up executes the blocks of
all views but the newest ones, in order. -/
namespace Hotstuff
open Replica

namespace System
variable (S : Setup) (R : RuleSet) (envs : ID → Env) (G : Finset ID) (leaders : View → ID)

/-- All replicas start, and then the given number of views go by. -/
def liveRun (starters : List ID) (rounds : Nat → Round) : Nat → System
  | 0 => deliver S R envs starters .start (init S)
  | k+1 => liveView S R envs G (leaders (UInt64.ofNat (k+1))) (rounds k) (liveRun starters rounds k)

end System

variable {S : Setup} {R : RuleSet} {leaders : View → ID} {envs : ID → Env} {G A : Finset ID}

theorem System.later_liveView (leader : ID) (r : Round) (σ : System) : Later σ (liveView S R envs G leader r σ) := by
  have hvote : Later σ (vote S R envs leader r σ) := by
    rw [vote]
    split
    · exact .refl σ
    · exact (later_deliver _ _ σ).trans (later_collect _ _ _)
  rw [liveView]
  split
  · exact hvote
  · exact hvote.trans ((later_act _ _ _).trans (later_passOn _ _))

theorem certifies_genesis : QuorumCert.Certifies S genesis ⟨none,0,S.genesisHash⟩ := ⟨rfl,rfl,if_pos rfl⟩

theorem Replica.follows_init (h0 : S.genesisHash ≠ 0) (i : ID) : Follows S R [genesis] (Replica.init S i) where
  knows :=
    { halted := rfl
      stored := fun b hb => by
        rw [List.mem_singleton.mp hb]
        exact List.lookup_cons_self
      zero := by
        change List.lookup 0 [(S.genesisHash,genesis)] = none
        rw [Library.lookup_cons_ite,if_neg h0.symm]
        rfl
      leaf := List.mem_singleton_self _
      highQC := certifies_genesis
      lock := .inl rfl }
  executes :=
    { heights := fun e he => .inl (List.mem_singleton.mp he)
      kept := fun b hb hlt => by
        rw [List.mem_singleton.mp hb] at hlt
        exact absurd hlt (UInt64.lt_irrefl _)
      last := rfl
      executed := rfl
      pruneHeight := rfl }
  verifiedVotes := rfl
  pending := rfl
  calm := ⟨rfl,rfl,rfl,show (0 : View) < 1 by decide⟩

theorem idle_init (h0 : S.genesisHash ≠ 0) (i : ID) : Idle S R 1 genesis [] i (Replica.init S i).tick :=
  ⟨(follows_init h0 i).frame rfl,rfl,rfl,show (0 : View) < 1 by decide,rfl⟩

/-- The leader of view 1 proposes when it starts. -/
theorem System.deliver_start (hs : Service S leaders envs G A) {starters : List ID} (hnodup : starters.Nodup)
    (hstarters : ∀ i, i ∈ starters ↔ i ∈ G) {i : ID} (hi : i ∈ G) : deliver S R envs starters .start (init S) i =
      if leaders 1 = i then propose S R (envs i) (envs i).fuel { qc := some ⟨none,0,S.genesisHash⟩ } (Replica.init S i).tick
      else (Replica.init S i).tick := by
  have he : (envs i).leader 0 1 = leaders 1 := (hs.cooperates i hi).leader 0 1
  rw [deliver_eq hnodup,if_pos ((hstarters i).mpr hi)]
  change start S R (envs i) (Replica.init S i) = _
  rw [start,startWith,if_pos (show (Replica.init S i).currentView = 1 from rfl)]
  dsimp only [getLeader]
  rw [show (envs i).leader (Replica.init S i).now (Replica.init S i).currentView = leaders 1 from he]
  rfl

theorem Distinct.genesis {σ : System} (hd : Distinct S G σ) (hl : System.Later (System.init S) σ) {i : ID} (hi : i ∈ G) :
    S.genesisHash ≠ 0 :=
  (hd.back hl).ne_zero i hi (S.genesisHash,Hotstuff.genesis) (List.mem_singleton_self _)

theorem poised_start (hs : Service S leaders envs G A) {starters : List ID} (hnodup : starters.Nodup)
    (hstarters : ∀ i, i ∈ starters ↔ i ∈ G) (hlead : leaders 1 ∈ A) (hfuel : ∀ i ∈ G, 2 < (envs i).fuel)
    (hd : Distinct S G (System.deliver S R envs starters .start (System.init S))) :
    ∃ b : Block, b.view = 1 ∧ b.Served leaders envs ∧ Poised S R leaders envs G ⟨leaders b.view,b,none⟩ genesis []
      (System.deliver S R envs starters .start (System.init S)) := by
  have hlater : System.Later (System.init S) (System.deliver S R envs starters .start (System.init S)) :=
    System.later_deliver _ _ _
  have hup := hs.speakers hlead
  have h0 := hd.genesis hlater hup
  have hidle := idle_init (R := R) h0 (leaders 1)
  have hcoop : (envs (leaders 1)).Cooperates S leaders (Replica.init S (leaders 1)).tick.id := hs.cooperates _ hup
  obtain ⟨⟨b,hoffers⟩,hid⟩ := hidle.follows.proposes { qc := some ⟨none,0,S.genesisHash⟩ } hcoop
    (hs.supplied _ hlead) rfl certifies_genesis rfl (ite_self _) rfl (hs.members hup) hidle.lastVote (fun _ => rfl) (hfuel _ hup)
  have hleader := System.deliver_start (R := R) hs hnodup hstarters hup
  rw [if_pos rfl] at hleader
  rw [← hleader] at hoffers hid
  have hv : genesis.view < 1 := by decide
  refine ⟨b,hoffers.view,hoffers.poised hid hup (.genesis h0) hd (fun x hx => ?_) hv rfl (fun _ => rfl) fun k hk hne => ?_⟩
  · rw [List.mem_singleton.mp hx]
    exact (hlater (leaders 1)).1.mem (List.mem_singleton_self _)
  · rw [System.deliver_start hs hnodup hstarters hk,if_neg (Ne.symm hne)]
    exact (idle_init h0 k).awaits hv

/-- What holds between two views of a run without faults. -/
theorem liveRun_poised (hs : Service S leaders envs G A) {starters : List ID} (hnodup : starters.Nodup)
    (hstarters : ∀ i, i ∈ starters ↔ i ∈ G) (hlead : ∀ v, leaders v ∈ A) {rounds : Nat → Round}
    (hrounds : ∀ k, (rounds k).Fits S G (leaders (UInt64.ofNat (k+1)))) (k : Nat) (hk : k + 2 < 2^64)
    (hfuel : ∀ i ∈ G, k + 3 < (envs i).fuel)
    (hd : Distinct S G (System.liveRun S R envs G leaders starters rounds k)) :
    ∃ (b a : Block) (l : List Block), b.view = UInt64.ofNat (k+1) ∧ RuleSet.Consecutive (b :: a :: l) ∧ l.length = k ∧
      (∀ x ∈ b :: a :: l, x = genesis ∨ x.Served leaders envs) ∧
      Poised S R leaders envs G ⟨leaders b.view,b,none⟩ a l (System.liveRun S R envs G leaders starters rounds k) := by
  induction k with
  | zero =>
    obtain ⟨b,hview,hserved,hpoised⟩ := poised_start hs hnodup hstarters (hlead 1)
      (fun i hi => by have := hfuel i hi; omega) hd
    refine ⟨b,genesis,[],hview,?_,rfl,?_,hpoised⟩
    · exact .cons_cons hview (.singleton _)
    · intro x hx
      rcases List.mem_pair.mp hx with rfl | rfl
      · exact .inr hserved
      · exact .inl rfl
  | succ k ih =>
    obtain ⟨b,a,l,hview,hcons,hlen,hserved,hpoised⟩ := ih (by omega) (fun i hi => Nat.lt_of_succ_lt (hfuel i hi))
      (hd.back (System.later_liveView _ _ _))
    have hsucc : b.view + 1 = UInt64.ofNat (k+1+1) := by rw [hview,UInt64.ofNat_add (k+1) 1]; rfl
    have hlt : b.view < b.view + 1 := by
      rw [hsucc,hview,UInt64.lt_iff_toNat_lt,UInt64.toNat_ofNat',UInt64.toNat_ofNat']
      omega
    have hrun : System.liveRun S R envs G leaders starters rounds (k+1) = System.liveView S R envs G (leaders b.view)
        (rounds k) (System.liveRun S R envs G leaders starters rounds k) := by rw [hview]; rfl
    rw [hrun] at hd ⊢
    obtain ⟨b',hview',hserved',hpoised'⟩ := hpoised.liveView hs (hview ▸ hrounds k)
      (fun i hi => by have := hfuel i hi; omega) hlt (hlead _) hd
    refine ⟨b',b,a :: l,hview'.trans hsucc,.cons_cons hview' hcons,by rw [List.length_cons,hlen],?_,hpoised'⟩
    intro x hx
    rcases List.mem_cons.mp hx with rfl | hx
    · exact .inr hserved'
    · exact hserved x hx

/-- In a run without faults there is one block in each view, made by the view's leader, and every replica that is up
executes these blocks in the order of their views, all but the newest ones. -/
theorem live_progress (S : Setup) (R : RuleSet) (leaders : View → ID) (envs : ID → Env) (G A : Finset ID)
    (hs : Service S leaders envs G A) (hlead : ∀ v, leaders v ∈ A) {starters : List ID} (hnodup : starters.Nodup)
    (hstarters : ∀ i, i ∈ starters ↔ i ∈ G) {rounds : Nat → Round}
    (hrounds : ∀ k, (rounds k).Fits S G (leaders (UInt64.ofNat (k+1)))) {k : Nat} (hk : k + 2 < 2^64)
    (hfuel : ∀ i ∈ G, k + 3 < (envs i).fuel)
    (hd : Distinct S G (System.liveRun S R envs G leaders starters rounds k)) :
    ∃ l : List Block, l.map Block.view = ((List.range k).map fun j => UInt64.ofNat (j+1)).reverse ∧
      (∀ b ∈ l, b.Served leaders envs) ∧
      ∀ i ∈ G, l.drop R.lag <:+ (System.liveRun S R envs G leaders starters rounds k i).executed := by
  obtain ⟨b,a,l,hview,hcons,hlen,hserved,hp⟩ := liveRun_poised hs hnodup hstarters hlead hrounds k hk hfuel hd
  obtain ⟨hab,hcons'⟩ := List.isChain_cons_cons.mp hcons
  refine ⟨(a :: l).dropLast,?_,fun x hx => ?_,fun i hi => ?_⟩
  · have ha : a.view = UInt64.ofNat k := by
      rw [hab,UInt64.ofNat_add] at hview
      exact add_right_cancel hview
    have hviews := RuleSet.Consecutive.views hcons' ha hlen
    rw [List.map_dropLast,hviews,List.range_succ_eq_map,List.map_cons,List.reverse_cons,List.dropLast_concat,List.map_map]
    rfl
  · exact (hserved x (List.mem_cons_of_mem _ (List.mem_of_mem_dropLast hx))).resolve_left (hp.lineage.tail.ne_genesis hx)
  · by_cases hne : i = leaders b.view
    · subst hne
      have hdrop : (a :: l).dropLast.drop R.lag = ((b :: a :: l).dropLast.drop R.lag).drop 1 := by
        rw [List.drop_drop]
        rfl
      rw [hp.proposed.follows.executes.executed,RuleSet.settled_of_consecutive hcons,hdrop]
      exact List.drop_suffix _ _
    · rw [(hp.others i hi hne).follows.executes.executed,RuleSet.settled_of_consecutive hcons']

namespace Sample

def turn (v : View) : ID := if v % 3 = 0 then 3 else if v % 3 = 1 then 1 else 2

def busyEnv (i : ID) : Env := { env i [] with
  leader := fun _ v => turn v
  command := fun n => some [n.toUInt8] }

theorem turn_mem (v : View) : turn v ∈ ({1,2,3} : Finset ID) := by
  unfold turn
  split_ifs <;> simp

theorem busy : Service setup turn busyEnv {1,2,3} {1,2,3} where
  members := by decide
  speakers := subset_rfl
  leaders_mem v := Finset.mem_of_subset (by decide) (turn_mem v)
  cooperates i hi := by
    have hmem : i ∈ setup.replicas := Finset.mem_of_subset (by decide) hi
    refine ⟨fun _ _ => rfl,fun _ _ => rfl,fun _ h => ⟨i.toNat,h.toNat,rfl,?_⟩,fun _ => rfl⟩
    rw [Setup.verifyEcdsa,decide_eq_true hmem]
    simp [setup]
  supplied _ _ _ := ⟨_,rfl⟩
  silent _ h h' := absurd h h'

def turnRound (leader : ID) : Round := ⟨[3,1,2].filter (· ≠ leader),[3,1,2]⟩

theorem turnRound_fits {leader : ID} : (turnRound leader).Fits setup {1,2,3} leader where
  receivers_nodup := List.Nodup.filter _ (by decide)
  mem_receivers i := by
    simp only [turnRound,List.mem_filter,decide_eq_true_eq,Finset.mem_insert,Finset.mem_singleton,List.mem_cons,
      List.not_mem_nil,or_false]
    tauto
  voters_nodup := show [3,1,2].Nodup by decide
  voters_up i hi := by
    simp only [turnRound,List.mem_cons,List.not_mem_nil,or_false,Finset.mem_insert,Finset.mem_singleton] at hi ⊢
    tauto
  quorum := show [3,1,2].length = setup.quorum by decide

def turnRun (R : RuleSet) : Nat → System :=
  System.liveRun setup R busyEnv {1,2,3} turn [1,2,3] fun k => turnRound (turn (UInt64.ofNat (k+1)))

def distinctTest (S : Setup) (ids : List ID) (σ : System) : Bool :=
  ids.all fun i => (σ i).blocks.all fun e => decide (e.2.hash S ≠ 0) &&
    (σ i).blocks.all fun f => decide (e.2.hash S = f.2.hash S → e.2 = f.2)

theorem distinct_of_test {S : Setup} {ids : List ID} {G : Finset ID} {σ : System} (hG : ∀ i ∈ G, i ∈ ids)
    (h : distinctTest S ids σ = true) : Distinct S G σ := by
  have hall (i : ID) (hi : i ∈ G) (e : Hash × Block) (he : e ∈ (σ i).blocks) :=
    Bool.and_eq_true_iff.mp (List.all_eq_true.mp (List.all_eq_true.mp h i (hG i hi)) e he)
  refine ⟨fun i hi e he f hf => ?_,fun i hi e he => of_decide_eq_true (hall i hi e he).1⟩
  exact of_decide_eq_true (List.all_eq_true.mp (hall i hi e he).2 f hf)

theorem live_progress_four : ∃ l : List Block, l.map Block.view = [4,3,2,1] ∧ (∀ b ∈ l, b.Served turn busyEnv) ∧
    ∀ i ∈ ({1,2,3} : Finset ID), l.drop 3 <:+ (turnRun .chained 4 i).executed := by
  have hd : Distinct setup {1,2,3} (turnRun .chained 4) :=
    distinct_of_test (by simp) (show distinctTest setup [1,2,3] _ = true by decide +kernel)
  exact live_progress setup .chained turn busyEnv {1,2,3} {1,2,3} busy turn_mem (by decide) (by simp) (fun _ => turnRound_fits)
    (by decide) (fun i _ => show 4+3 < 20 by decide) hd

end Sample

end Hotstuff
