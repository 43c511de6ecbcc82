import Mathlib.Data.List.Perm.Basic

/-! Systems all of whose runs come to an end of a given kind, and a receiver that takes a fixed number of values from
senders waiting on an unbuffered channel. -/
namespace Hotstuff.Library

/-- Every run comes to a state with `P`: none goes on for ever, none stops before. -/
inductive Inevitable {σ : Type*} (r : σ → σ → Prop) (P : σ → Prop) : σ → Prop
  | here {s : σ} (h : P s) : Inevitable r P s
  | next {s : σ} (hgo : ∃ t, r s t) (h : ∀ t, r s t → Inevitable r P t) : Inevitable r P s

namespace Inevitable
variable {σ : Type*} {r : σ → σ → Prop} {P Q : σ → Prop} {s : σ}

theorem mono (hPQ : ∀ s, P s → Q s) (h : Inevitable r P s) : Inevitable r Q s := by
  induction h with
  | here h => exact .here (hPQ _ h)
  | next hgo _ ih => exact .next hgo ih

/-- A part of the states that no step leaves and that is free of `P` cannot be where a run starts. -/
theorem not_trapped {T : σ → Prop} (hP : ∀ s, T s → ¬ P s) (hT : ∀ s t, T s → r s t → T t)
    (h : Inevitable r P s) : ¬ T s := by
  induction h with
  | here h => exact fun hs => hP _ hs h
  | @next s hgo _ ih =>
    intro hs
    obtain ⟨t,ht⟩ := hgo
    exact ih t ht (hT s t hs ht)

end Inevitable

/-- Senders that wait with their values, how many values are still wanted, and those received. -/
structure Gather (α : Type*) where
  waiting : List α
  wanted : Nat
  got : List α := []

namespace Gather
variable {α : Type*} {g k : Gather α}

inductive Step : Gather α → Gather α → Prop
  | receive (a b : List α) (v : α) (n : Nat) (got : List α) : Step ⟨a ++ v :: b,n+1,got⟩ ⟨a ++ b,n,v :: got⟩

theorem Step.wanted (h : Step g k) : g.wanted = k.wanted + 1 := by
  cases h
  rfl

theorem Step.perm (h : Step g k) : (k.got ++ k.waiting).Perm (g.got ++ g.waiting) := by
  cases h with
  | receive a b v n got =>
    change (v :: got ++ (a ++ b)).Perm (got ++ (a ++ v :: b))
    exact (List.perm_middle.symm.trans (List.perm_middle.symm.append_left got))

theorem Step.length (h : Step g k) : g.waiting.length = k.waiting.length + 1 := by
  cases h with
  | receive a b v n got => simp only [List.length_append,List.length_cons]; omega

/-- As long as someone waits, the next value can be received. -/
theorem exists_step (hw : g.wanted ≠ 0) (hne : g.waiting ≠ []) : ∃ k, Step g k := by
  obtain ⟨waiting,wanted,got⟩ := g
  obtain ⟨v,b,rfl⟩ := List.exists_cons_of_ne_nil hne
  obtain ⟨n,rfl⟩ := Nat.exists_eq_succ_of_ne_zero hw
  exact ⟨_,.receive [] b v n got⟩

end Gather
end Hotstuff.Library
