import Hotstuff.Replica.Record

/-! Runs of a single replica on events of any content, and how its view moves. -/
namespace Hotstuff
open Library

/-- The largest view number, after which `v + 1` is view 0. -/
def View.last : View := -1

namespace Replica
variable (S : Setup) (R : RuleSet)

/-- The events in the order they are handled, each with the outcomes of the calls made meanwhile. -/
def run (s : Replica) (l : List (Env × Event)) : Replica := l.foldl (fun s e => handle S R e.1 e.2 s) s

variable {S R} {env : Env} {P : QuorumCert → Prop}

theorem run_append (s : Replica) (l l' : List (Env × Event)) :
    run S R s (l ++ l') = run S R (run S R s l) l' := List.foldl_append

theorem run_recorded {s : Replica} (h : Recorded S R s) (l : List (Env × Event)) :
    Recorded S R (run S R s l) := by
  induction l generalizing s with
  | nil => exact h
  | cons e l ih => exact ih (h.handle e.2)

theorem run_filed {s : Replica} (h : Filed S s) (l : List (Env × Event)) : Filed S (run S R s l) := by
  induction l generalizing s with
  | nil => exact h
  | cons e l ih => exact ih ((handle_micro e.2 s).filed h)

theorem run_log (s : Replica) (l : List (Env × Event)) : s.log <:+ (run S R s l).log := by
  induction l generalizing s with
  | nil => exact List.suffix_rfl
  | cons e l ih => exact (handle_micro e.2 s).grows.1.trans (ih _)

/-- A view is only left by a certificate that is not for an earlier one. -/
def Forward (s : Replica) : Prop := ∀ before v t, .viewChange before v t ∈ s.log → before ≤ v

def Bounded (s : Replica) : Prop := ∀ before v t, .viewChange before v t ∈ s.log → v ≠ View.last

theorem lt_succ_iff {before v : View} (h : before ≤ v) : before < v + 1 ↔ v ≠ View.last := by
  rw [UInt64.lt_iff_toNat_lt,Ne,← UInt64.toNat_inj,UInt64.toNat_add]
  rw [UInt64.le_iff_toNat_le] at h
  have hlast : View.last.toNat = 2^64-1 := rfl
  have hv := v.toNat_lt
  have hone : (1 : View).toNat = 1 := rfl
  omega

/-- A view is left with an entry in the log. -/
private theorem Micro.view {a b : Phase} (hm : Micro S R env P a b) : b.1.currentView = a.1.currentView ∨
    ∃ v t, b.1.currentView = v+1 ∧ a.1.currentView ≤ v ∧ .viewChange a.1.currentView v t ∈ b.1.log := by
  cases hm with
  | look hf => exact .inl hf.currentView_eq
  | enter v t hlt => exact .inr ⟨v,t,rfl,UInt64.not_lt.mp hlt,List.mem_cons_self⟩
  | _ => exact .inl rfl

private theorem Steps.forward {a b : Phase} (h : Steps S R env P a b) (ha : a.1.Forward) : b.1.Forward := by
  induction h with
  | refl => exact ha
  | tail _ hm ih => exact fun before v t hv => (hm.entry hv).elim (ih before v t) fun hnew => hnew.2.1

private theorem Steps.view_le {a b : Phase} (h : Steps S R env P a b) (hb : b.1.Bounded) :
    a.1.currentView ≤ b.1.currentView := by
  induction h with
  | refl => exact UInt64.le_refl _
  | tail _ hm ih =>
    have hback := ih fun before v t hv => hb before v t (hm.grows.1.mem hv)
    rcases hm.view with he | ⟨v,t,he,hle,hv⟩
    · exact he ▸ hback
    · have hlt := (lt_succ_iff hle).mpr (hb _ v t hv)
      exact he ▸ UInt64.le_trans hback (UInt64.le_of_lt hlt)

theorem run_forward {s : Replica} (h : s.Forward) (l : List (Env × Event)) : (run S R s l).Forward := by
  induction l generalizing s with
  | nil => exact h
  | cons e l ih => exact ih ((handle_micro e.2 s).forward h)

theorem run_view_le (s : Replica) (l : List (Env × Event)) (hb : (run S R s l).Bounded) :
    s.currentView ≤ (run S R s l).currentView := by
  induction l generalizing s with
  | nil => exact UInt64.le_refl _
  | cons e l ih =>
    have hlog := run_log (S := S) (R := R) (handle S R e.1 e.2 s) l
    exact UInt64.le_trans ((handle_micro e.2 s).view_le fun before v t hv => hb before v t (hlog.mem hv))
      (ih _ hb)

variable (S R)

/-- The current view never decreases and every view change increases it, exactly in the runs
in which no view is left by a certificate for view 2^64-1. -/
theorem views_grow_iff (id : ID) (l : List (Env × Event)) :
    ((∀ l₁ l₂ l₃, l = l₁ ++ l₂ ++ l₃ →
        (run S R (init S id) l₁).currentView ≤ (run S R (init S id) (l₁ ++ l₂)).currentView) ∧
      ∀ before v t, .viewChange before v t ∈ (run S R (init S id) l).log → before < v + 1) ↔
    ∀ before v t, .viewChange before v t ∈ (run S R (init S id) l).log → v ≠ View.last := by
  have hforward : (run S R (init S id) l).Forward := run_forward (by simp [Forward,init]) l
  constructor
  · rintro ⟨-,hlt⟩ before v t hv
    exact (lt_succ_iff (hforward before v t hv)).mp (hlt before v t hv)
  · refine fun hb => ⟨?_,fun before v t hv => (lt_succ_iff (hforward before v t hv)).mpr (hb before v t hv)⟩
    rintro l₁ l₂ l₃ rfl
    rw [run_append]
    refine run_view_le _ l₂ fun before v t hv => hb before v t ?_
    rw [run_append,run_append]
    exact (run_log _ l₃).mem hv

end Replica

namespace Sample
open Replica

def env (self : ID) (known : List Block) : Env where
  replies _ _ := known
  canceled _ := false
  leader _ _ := 4
  accept _ _ := true
  command _ := none
  sign _ h := some (self.toNat,h.toNat)
  timeoutOrder _ l := l
  timeoutOrder_perm _ _ := .refl _
  qcOrder _ l := l
  qcOrder_perm _ _ := .refl _
  fuel := 20

def ahead : Block := ⟨setup.genesisHash,4,[],genesisQC 0,5⟩

/-- A NewView message with the genesis certificate under view 2^64-1 takes replica 1 from view 1 to view 0. -/
theorem view_wraps : ∃ m : NewViewMsg,
    (init setup 1).currentView = 1 ∧ (run setup .chained (init setup 1) [(env 1 [],.newView m)]).currentView = 0 :=
  ⟨⟨4,{ qc := some (genesisQC View.last) }⟩,by decide +kernel⟩

end Sample

end Hotstuff
