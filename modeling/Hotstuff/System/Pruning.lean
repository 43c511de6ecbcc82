import Hotstuff.Replica.Chain
import Hotstuff.System.Assumptions
import Mathlib.Data.List.Infix

/-! `PruneToHeight` over whole runs: how the prune height moves, and when the walk along the committed chain ends. -/
namespace Hotstuff
open Library

def lastExec : List Effect → Block
  | [] => genesis
  | .exec b :: _ => b
  | _ :: l => lastExec l

theorem lastExec_append {l : List Effect} (h : ∀ e ∈ l, ∀ b, e ≠ .exec b) (o : List Effect) :
    lastExec (l ++ o) = lastExec o := by
  induction l with
  | nil => rfl
  | cons e l ih =>
    have ho := ih fun e' he' => h e' (List.mem_cons_of_mem _ he')
    cases e with
    | exec b => exact absurd rfl (h _ List.mem_cons_self b)
    | _ => exact ho

theorem lastExec_map_exec (l : List Block) (o : List Effect) :
    lastExec (l.map .exec ++ o) = l.headD (lastExec o) := by
  cases l <;> rfl

namespace Replica
variable {S : Setup} {R : RuleSet} {env : Env}

section Height

variable (S env) in
/-- What a commit does, from the state in which all its lookups are made. -/
theorem commit_spec (c : Block) (s : Replica) : ∃ (t : Replica) (l : List Block) (forks : List Effect),
    Gets S env s t ∧ (commit S env c s).bExec = l.headD s.bExec ∧ s.bExec.view ≤ (l.headD s.bExec).view ∧
    (commit S env c s).log = forks ++ (l.map .exec ++ s.log) ∧ (∀ e ∈ forks, ∀ b, e ≠ .exec b) ∧
    (commit S env c s).blocks = t.blocks ∧ (commit S env c s).blockAtHeight ⊆ t.blockAtHeight ∧
    ((commit S env c s).pruneHeight = s.pruneHeight ∨
      (commit S env c s).pruneHeight = c.view ∧ c.view ≤ (l.headD s.bExec).view) := by
  obtain ⟨t,l,stopped,ht,he,hge,hup⟩ := commitInner_gets S env env.fuel c s
  have hb := ht.fetched.bExec_eq
  have hlog := ht.fetched.log_eq
  have hheight := ht.fetched.field pruneHeight fun _ _ _ => rfl
  rw [hb] at hge hup he
  rw [hlog] at he
  rw [commit,he,andThen]
  split_ifs with hh
  · exact ⟨t,l,[],ht,rfl,hup,rfl,by simp,rfl,List.Subset.refl _,.inl hheight⟩
  · rw [pruneToHeight]
    split
    · exact ⟨t,l,[],ht,rfl,hup,rfl,by simp,rfl,List.Subset.refl _,.inl hheight⟩
    · refine ⟨t,l,_,ht,rfl,hup,rfl,?_,rfl,List.filter_subset_self _,.inr ⟨rfl,hge (by simpa using hh)⟩⟩
      intro e hf b
      obtain ⟨f,-,rfl⟩ := List.mem_map.mp (List.mem_reverse.mp hf)
      simp

/-- The committed block is the one executed last, and nothing above it has been pruned. -/
structure Pruned (s : Replica) : Prop where
  executed : s.bExec = lastExec s.log
  height : s.pruneHeight ≤ s.bExec.view

theorem pruned_init (id : ID) : Pruned (init S id) := ⟨rfl,UInt64.le_refl _⟩

theorem Touch.log {s t : Replica} (h : Touch S env s t) : s.log <:+ t.log := by
  cases h with
  | aside _ l hl _ => exact ⟨l,hl.symm⟩
  | store b => exact List.suffix_rfl
  | get h => rw [(get_spec h s).1.log_eq]
  | commit b c o hd =>
    obtain ⟨t,l,forks,-,-,-,hlog,-⟩ := commit_spec S env c s
    rw [hlog]
    exact (List.suffix_append _ _).trans (List.suffix_append _ _)

theorem Touch.pruned {s t : Replica} (h : Touch S env s t) (hs : Pruned s) : Pruned t := by
  cases h with
  | aside hc l hl hin =>
    simp only [chain,Prod.mk.injEq] at hc
    obtain ⟨-,-,hp,hb⟩ := hc
    refine ⟨?_,by rw [hp,hb]; exact hs.height⟩
    rw [hb,hl,lastExec_append _ s.log]
    · exact hs.executed
    · rintro e he b rfl
      exact absurd (hin _ he) (by simp [Effect.executing])
  | store b => exact ⟨hs.executed,hs.height⟩
  | get h =>
    have hf : Fetched S env s (Replica.get S env h s).2 := (get_spec h s).1
    refine ⟨?_,?_⟩
    · rw [hf.bExec_eq,hf.log_eq]
      exact hs.executed
    · rw [hf.bExec_eq,hf.field pruneHeight fun _ _ _ => rfl]
      exact hs.height
  | commit b c o hd =>
    obtain ⟨t,l,forks,-,hb,hup,hlog,hforks,-,-,hheight⟩ := commit_spec S env c s
    refine ⟨?_,?_⟩
    · rw [hb,hlog,lastExec_append hforks,lastExec_map_exec,hs.executed]
    · rw [hb]
      rcases hheight with he | ⟨he,hle⟩
      · rw [he]
        exact UInt64.le_trans hs.height hup
      · rw [he]
        exact hle

/-- Each block that the commit rule returned was not below the block executed last at that time. -/
def Onward (log : List Effect) : Prop := ∀ b c o, .decide b c :: o <:+ log → (lastExec o).view ≤ c.view

theorem Touch.height_le {s t : Replica} (h : Touch S env s t) (hs : Pruned s) (ht : Onward t.log) :
    s.pruneHeight ≤ t.pruneHeight := by
  have hlog := h.log
  cases h with
  | aside hc l hl hin =>
    simp only [chain,Prod.mk.injEq] at hc
    exact UInt64.le_of_eq hc.2.2.1.symm
  | store b => exact UInt64.le_refl _
  | get h => exact UInt64.le_of_eq ((get_spec h s).1.field pruneHeight fun _ _ _ => rfl).symm
  | commit b c o hd =>
    obtain ⟨t,l,forks,-,-,-,-,-,-,-,he | ⟨he,-⟩⟩ := commit_spec S env c s
    · exact UInt64.le_of_eq he.symm
    · have hlast : (lastExec s.log).view ≤ c.view := by
        rw [hd] at hlog ⊢
        exact ht b c o hlog
      rw [he]
      exact UInt64.le_trans hs.height (hs.executed ▸ hlast)

theorem Touches.pruned {s t : Replica} (h : Touches S env s t) (hs : Pruned s) : Pruned t := by
  induction h with
  | refl => exact hs
  | tail _ ht ih => exact ht.pruned ih

theorem Touches.height_le {s t : Replica} (h : Touches S env s t) (hs : Pruned s) (ht : Onward t.log) :
    s.pruneHeight ≤ t.pruneHeight := by
  induction h with
  | refl => exact UInt64.le_refl _
  | tail hr hstep ih =>
    have hlog := hstep.log
    have hmid : Onward _ := fun b c o ho => ht b c o (ho.trans hlog)
    exact UInt64.le_trans (ih hmid) (hstep.height_le (Touches.pruned hr hs) ht)

theorem run_pruned {s : Replica} (hs : Pruned s) (l : List (Env × Event)) : Pruned (run S R s l) := by
  induction l generalizing s with
  | nil => exact hs
  | cons e l ih => exact ih (Touches.pruned (handle_touches S R e.1 e.2 s) hs)

theorem run_height_le {s : Replica} (hs : Pruned s) (l : List (Env × Event)) (h : Onward (run S R s l).log) :
    s.pruneHeight ≤ (run S R s l).pruneHeight := by
  induction l generalizing s with
  | nil => exact UInt64.le_refl _
  | cons e l ih =>
    have hstep := handle_touches S R e.1 e.2 s
    have hnext : Pruned (handle S R e.1 e.2 s) := Touches.pruned hstep hs
    have hmid : Onward (handle S R e.1 e.2 s).log := fun b c o ho => h b c o (ho.trans (run_log _ l))
    exact UInt64.le_trans (Touches.height_le hstep hs hmid) (ih hnext h)

/-- The prune height is never above the last executed block. It does not go back in a run in which the commit rule
returns no block below the one executed last. -/
theorem pruneHeight_rises (S : Setup) (R : RuleSet) (id : ID) :
    (∀ l, (run S R (init S id) l).pruneHeight ≤ (lastExec (run S R (init S id) l).log).view) ∧
    ∀ l₁ l₂, Onward (run S R (init S id) (l₁ ++ l₂)).log →
      (run S R (init S id) l₁).pruneHeight ≤ (run S R (init S id) (l₁ ++ l₂)).pruneHeight := by
  have hrun (l : List (Env × Event)) : Pruned (run S R (init S id) l) := run_pruned (pruned_init id) l
  refine ⟨fun l => (hrun l).executed ▸ (hrun l).height,fun l₁ l₂ h => ?_⟩
  rw [run_append] at h ⊢
  exact run_height_le (hrun l₁) l₂ h

end Height

end Replica

namespace Sample
open Replica

private def proposals (l : List Block) : List (Env × Event) := l.map fun b => (env 1 [],.propose ⟨4,b,none⟩)

private def onwardTest (log : List Effect) : Bool :=
  log.tails.all fun
    | .decide _ c :: o => decide ((lastExec o).view ≤ c.view)
    | _ => true

private theorem onward_of_test {log : List Effect} (h : onwardTest log = true) : Onward log := by
  intro b c o ho
  exact of_decide_eq_true (List.all_eq_true.mp h _ ((List.mem_tails _ _).mpr ho))

theorem pruneHeight_rises_line :
    (run setup .chained (init setup 1) (proposals [line 0,line 1,line 2,line 3])).pruneHeight ≤
      (run setup .chained (init setup 1) (proposals [line 0,line 1,line 2,line 3] ++ proposals [line 4])).pruneHeight :=
  (pruneHeight_rises setup .chained 1).2 _ _ (onward_of_test (by decide +kernel))

/-- The blocks of views 1 to 5, the first two of which are committed, and then the block of view 3 again. It is the
locked block, so the vote rule lets it through, and the genesis block is committed once more. -/
theorem pruneHeight_falls : ∃ l₁ l₂ : List (Env × Event),
    (run setup .chained (init setup 1) l₁).pruneHeight = 2 ∧
    (run setup .chained (init setup 1) (l₁ ++ l₂)).pruneHeight = 0 ∧
    (run setup .chained (init setup 1) (l₁ ++ l₂)).bExec.view = 2 :=
  ⟨proposals [line 0,line 1,line 2,line 3,line 4],proposals [line 2],by decide +kernel⟩

end Sample

namespace Replica
variable {S : Setup} {R : RuleSet} {env : Env}

section Walk

def Indexed (s : Replica) : Prop := ∀ e ∈ s.blockAtHeight, e.2.view = e.1 ∧ ∃ k, (k,e.2) ∈ s.blocks

def Rising (s : Replica) : Prop := ∀ e ∈ s.blocks, ∀ p, s.localGet e.2.parent = some p → p.view < e.2.view

theorem Indexed.insertBlock {s : Replica} (hs : Indexed s) (h : Hash) (b : Block) : Indexed (s.insertBlock h b) := by
  intro e he
  rcases List.mem_cons.mp he with rfl | he
  · exact ⟨rfl,h,List.mem_cons_self⟩
  · obtain ⟨hv,k,hk⟩ := hs e (List.mem_of_mem_filter he)
    exact ⟨hv,k,List.mem_cons_of_mem _ hk⟩

theorem Indexed.get {s : Replica} (hs : Indexed s) (h : Hash) : Indexed (get S env h s).2 := by
  rw [Replica.get]
  split
  · exact hs
  · split
    · exact Indexed.insertBlock (s := s.tick) hs h _
    · exact hs

theorem Indexed.gets {s t : Replica} (h : Gets S env s t) (hs : Indexed s) : Indexed t := by
  induction h with
  | refl => exact hs
  | tail _ hg ih =>
    obtain ⟨h,rfl⟩ := hg
    exact ih.get h

theorem Indexed.of_subset {s t : Replica} (hs : Indexed s) (hb : t.blocks = s.blocks)
    (hi : t.blockAtHeight ⊆ s.blockAtHeight) : Indexed t := by
  intro e he
  rw [hb]
  exact hs e (hi he)

theorem Touch.indexed {s t : Replica} (h : Touch S env s t) (hs : Indexed s) : Indexed t := by
  cases h with
  | aside hc =>
    simp only [chain,Prod.mk.injEq] at hc
    exact hs.of_subset hc.1 (hc.2.1 ▸ List.Subset.refl _)
  | store b => exact hs.insertBlock _ b
  | get h => exact hs.get h
  | commit b c o hd =>
    obtain ⟨t,l,forks,ht,-,-,-,-,hb,hi,-⟩ := commit_spec S env c s
    exact (Indexed.gets ht hs).of_subset hb hi

theorem Touches.indexed {s t : Replica} (h : Touches S env s t) (hs : Indexed s) : Indexed t := by
  induction h with
  | refl => exact hs
  | tail _ ht ih => exact ht.indexed ih

theorem indexed_init (id : ID) : Indexed (init S id) := by
  intro e he
  rw [List.mem_singleton.mp he]
  exact ⟨rfl,S.genesisHash,List.mem_cons_self⟩

theorem run_indexed {s : Replica} (hs : Indexed s) (l : List (Env × Event)) : Indexed (run S R s l) := by
  induction l generalizing s with
  | nil => exact hs
  | cons e l ih => exact ih (Touches.indexed (handle_touches S R e.1 e.2 s) hs)

theorem commitInner_indexed {s : Replica} (hs : Indexed s) (k : Nat) (c : Block) :
    Indexed (commitInner S env k c s) := by
  obtain ⟨t,l,stopped,ht,he,-,-⟩ := commitInner_gets S env k c s
  rw [he]
  exact (Indexed.gets ht hs).of_subset rfl (List.Subset.refl _)

/-- One iteration of the walk goes down. -/
theorem Rising.parent_lt {s : Replica} (hr : Rising s) (hs : Indexed s) {h : View} {b p : Block}
    (hb : s.blockAtHeight.lookup h = some b) (hp : s.localGet b.parent = some p) : p.view < h := by
  obtain ⟨hv,k,hk⟩ := hs (h,b) (mem_of_lookup hb)
  have hlt : p.view < b.view := hr (k,b) hk p hp
  rwa [hv] at hlt

/-- A walk that goes down in each iteration ends. -/
theorem committedViews_ends {s : Replica}
    (hlt : ∀ h b p, s.blockAtHeight.lookup h = some b → s.localGet b.parent = some p → p.view < h) (k : Nat) (h : View)
    (acc : List View) (hk : h.toNat < k) : ∃ views, s.committedViews k h acc = some views := by
  induction k generalizing h acc with
  | zero => omega
  | succ k ih =>
    rw [committedViews]
    split_ifs
    · exact ⟨acc,rfl⟩
    split
    · exact ⟨acc,rfl⟩
    · rename_i b hb
      split
      · exact ⟨acc,rfl⟩
      · rename_i p hp
        split_ifs
        · exact ⟨acc,rfl⟩
        · have hv := UInt64.lt_iff_toNat_lt.mp (hlt h b p hb hp)
          exact ih p.view _ (by omega)

theorem committedViews_step {s : Replica} {h : View} {b p : Block} (hh : ¬ h < s.pruneHeight)
    (hb : s.blockAtHeight.lookup h = some b) (hp : s.localGet b.parent = some p) (hv : ¬ p.view < s.pruneHeight)
    (k : Nat) (acc : List View) : s.committedViews (k+1) h acc = s.committedViews k p.view (p.view :: acc) := by
  rw [committedViews,if_neg hh,hb]
  dsimp only
  rw [hp]
  exact if_neg hv

/-- In a block whose parent has the same view the walk goes round for ever. -/
theorem committedViews_loops {s : Replica} {h : View} {b p : Block} (hh : ¬ h < s.pruneHeight)
    (hb : s.blockAtHeight.lookup h = some b) (hp : s.localGet b.parent = some p) (hv : p.view = h) (k : Nat)
    (acc : List View) : s.committedViews k h acc = none := by
  induction k generalizing acc with
  | zero => rfl
  | succ k ih =>
    rw [committedViews_step hh hb hp (hv ▸ hh),hv]
    exact ih _

/-- In whatever state a commit calls `PruneToHeight`, its walk goes down in each iteration and ends, provided that the
stored blocks have views above those of their parents. -/
theorem pruneToHeight_walk_ends (S : Setup) (R : RuleSet) (id : ID) (l : List (Env × Event)) (env : Env) (s : Replica)
    (hs : Touches S env (run S R (init S id) l) s) (c : Block) (hr : Rising (commitInner S env env.fuel c s)) :
    (∀ h b p, (commitInner S env env.fuel c s).blockAtHeight.lookup h = some b →
      (commitInner S env env.fuel c s).localGet b.parent = some p → p.view < h) ∧
    ∀ k acc, (commitInner S env env.fuel c s).bExec.view.toNat < k →
      ∃ views, (commitInner S env env.fuel c s).committedViews k
        (commitInner S env env.fuel c s).bExec.view acc = some views := by
  have hi : Indexed s := Touches.indexed hs (run_indexed (indexed_init id) l)
  have hlt : ∀ h b p, (commitInner S env env.fuel c s).blockAtHeight.lookup h = some b →
      (commitInner S env env.fuel c s).localGet b.parent = some p → p.view < h :=
    fun h b p hb hp => hr.parent_lt (commitInner_indexed hi env.fuel c) hb hp
  exact ⟨hlt,fun k acc hk => committedViews_ends hlt k _ acc hk⟩

end Walk
end Replica

namespace Sample
open Replica

private def risingTest (s : Replica) : Bool :=
  s.blocks.all fun e => (s.localGet e.2.parent).all fun p => decide (p.view < e.2.view)

private theorem rising_of_test {s : Replica} (h : risingTest s = true) : Rising s := by
  intro e he p hp
  have ht := List.all_eq_true.mp h e he
  rw [hp] at ht
  exact of_decide_eq_true ht

private def lined : Replica := run setup .chained (init setup 1) (proposals [line 0,line 1,line 2,line 3])

private def ready : Replica := commitInner setup (env 1 []) (env 1 []).fuel (line 2) lined

private theorem ready_eq : risingTest ready = true ∧ ready.bExec = line 2 ∧ ready.bExec.view.toNat < 4 := by
  decide +kernel

theorem pruneToHeight_walk_ends_line : ready.bExec = line 2 ∧
    ∃ views, ready.committedViews 4 ready.bExec.view [3] = some views := by
  have h := pruneToHeight_walk_ends setup .chained 1 (proposals [line 0,line 1,line 2,line 3]) (env 1 []) lined
    .refl (line 2)
  obtain ⟨hrising,hb,hlt⟩ := ready_eq
  rw [← ready] at h
  exact ⟨hb,(h (rising_of_test hrising)).2 4 [3] hlt⟩

private def again : Block := ⟨(line 0).hash setup,4,[],qcOf [1,2,4] (line 2),1⟩

private def againKnown : List Block := [genesis,line 0,line 1,line 2,line 3,again]

private def againDelivered : List (ID × Block) :=
  [(1,line 0),(2,line 0),(1,line 1),(2,line 1),(1,line 2),(2,line 2),(1,line 3),(1,again)]

private theorem again_run : runTest .chained againKnown againDelivered = true ∧
    (after .chained againKnown againDelivered 1).halted = true ∧
    (after .chained againKnown againDelivered 1).log.head? = some (.decide again (line 0)) ∧
    (after .chained againKnown againDelivered 1).bExec.view = 1 ∧
    (after .chained againKnown againDelivered 1).pruneHeight = 1 ∧
    (after .chained againKnown againDelivered 1).blockAtHeight.lookup 1 = some again ∧
    (after .chained againKnown againDelivered 1).localGet again.parent = some (line 0) := by decide +kernel

/-- The Byzantine leader of view 1 sends replica 1 a second block for that view, on top of the first. The commit rule
returns the first block once more and the walk of `PruneToHeight` goes from the second to the first for ever. -/
theorem pruneToHeight_walk_stuck : ∃ (F : Faults setup) (I : Ideal setup) (σ : System) (x b p : Block),
    Runs .chained I F σ ∧ I.Covers σ ∧ 1 ∉ F.byzantine ∧ (σ 1).halted = true ∧
    (σ 1).log.head? = some (.decide x b) ∧
    (σ 1).blockAtHeight.lookup (σ 1).bExec.view = some x ∧ (σ 1).localGet x.parent = some p ∧
    ¬ p.view < (σ 1).bExec.view ∧ ∀ k acc, (σ 1).committedViews k (σ 1).bExec.view acc = none := by
  obtain ⟨ht,hh,hd,hb,hp,hx,hl⟩ := again_run
  obtain ⟨I,-,hr,hc,-⟩ := runs_of_test ht
  refine ⟨faults,I,_,again,line 0,line 0,hr,hc,by decide,hh,hd,by rw [hb]; exact hx,hl,by rw [hb]; decide,?_⟩
  rw [hb]
  exact committedViews_loops (by rw [hp]; decide) hx hl rfl

end Sample
end Hotstuff
