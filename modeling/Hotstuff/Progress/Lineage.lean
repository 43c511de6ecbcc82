import Hotstuff.Crypto.Base
import Hotstuff.Replica.State
import Mathlib.Data.List.TakeDrop
import Mathlib.Data.UInt

/-! Chains of certified blocks, and the part of a chain that each commit rule decides. -/
namespace Hotstuff

structure QuorumCert.Certifies (S : Setup) (a : Block) (qc : QuorumCert) : Prop where
  hash : qc.hash = a.hash S
  view : qc.view = a.view
  valid : S.verifyQuorumCert qc = true

/-- Blocks from the newest down to genesis, each on the block that it certifies. -/
inductive Lineage (S : Setup) : List Block → Prop
  | genesis : S.genesisHash ≠ 0 → Lineage S [genesis]
  | cons {b a : Block} {l : List Block} (parent : b.parent = a.hash S) (cert : b.cert.Certifies S a)
      (lt : a.view < b.view) (fresh : ∀ x ∈ a :: l, x.hash S ≠ b.hash S) (nonzero : b.hash S ≠ 0)
      (rest : Lineage S (a :: l)) : Lineage S (b :: a :: l)

namespace RuleSet

/-- The part of a chain that the commit rule decides when it is shown the newest block. -/
def decided : RuleSet → List Block → Option (List Block)
  | .chained, _ :: _ :: _ :: a :: l => some (a :: l)
  | .simple, _ :: p :: _ :: a :: l => if a.view + 2 = p.view then some (a :: l) else none
  | .fast, b :: p :: a :: l => if b.view = p.view + 1 ∧ p.view = a.view + 1 then some (a :: l) else none
  | _, _ => none

/-- The part of a chain that has been decided since genesis. -/
def settled (R : RuleSet) : List Block → List Block
  | [] => []
  | [g] => [g]
  | b :: a :: l => (R.decided (b :: a :: l)).getD (R.settled (a :: l))

def lag : RuleSet → Nat
  | .fast => 2
  | _ => 3

variable {R : RuleSet} {b : Block} {l d : List Block}

theorem decided_suffix (h : R.decided l = some d) : d = l.drop R.lag ∧ R.lag < l.length := by
  unfold decided at h
  split at h
  · cases h
    exact ⟨rfl,by simp [lag]⟩
  · split_ifs at h
    cases h
    exact ⟨rfl,by simp [lag]⟩
  · split_ifs at h
    cases h
    exact ⟨rfl,by simp [lag]⟩
  · cases h

theorem settled_ne_nil (h : l ≠ []) : R.settled l ≠ [] := by
  induction l with
  | nil => exact absurd rfl h
  | cons b l ih =>
    cases l with
    | nil => simp [settled]
    | cons a l =>
      rw [settled]
      cases hd : R.decided (b :: a :: l) with
      | none => exact ih (by simp)
      | some d =>
        obtain ⟨rfl,hlen⟩ := decided_suffix hd
        rw [Option.getD_some]
        exact List.ne_nil_of_length_pos (by rw [List.length_drop]; omega)

/-- What is settled lies as deep in the chain as the next decision, so decisions only add to it. -/
theorem settled_deep (k : Nat) (hk : k + 1 ≤ R.lag) (hl : k < l.length) : R.settled l <:+ l.drop k := by
  induction l generalizing k with
  | nil => simp at hl
  | cons b l ih =>
    cases l with
    | nil =>
      obtain rfl : k = 0 := by simpa using hl
      exact List.suffix_rfl
    | cons a l =>
      rw [settled]
      cases hd : R.decided (b :: a :: l) with
      | none =>
        cases k with
        | zero => exact (ih 0 hk (by simp)).trans (List.suffix_cons _ _)
        | succ k => exact ih k (by omega) (by simpa using hl)
      | some d =>
        obtain ⟨rfl,-⟩ := decided_suffix hd
        rw [Option.getD_some,← Nat.sub_add_cancel (show k ≤ R.lag by omega),Nat.add_comm,← List.drop_drop]
        exact List.drop_suffix _ _

theorem settled_suffix (l : List Block) : R.settled l <:+ l := by
  cases l with
  | nil => exact List.suffix_rfl
  | cons b l => exact settled_deep 0 (by cases R <;> decide) (by simp)

theorem settled_suffix_decided (h : R.decided (b :: l) = some d) : R.settled l <:+ d := by
  obtain ⟨rfl,hlen⟩ := decided_suffix h
  have hlag : 0 < R.lag := by cases R <;> decide
  obtain ⟨k,hk⟩ := Nat.exists_eq_add_of_lt hlag
  have hsuf := settled_deep (R := R) (l := l) k (by omega) (by simp at hlen; omega)
  rw [show R.lag = k+1 by omega,List.drop_succ_cons]
  exact hsuf

def Consecutive (l : List Block) : Prop := l.IsChain fun b a => b.view = a.view + 1

/-- The views of such a chain, from the view of its newest block down. -/
theorem Consecutive.views {k : Nat} (h : Consecutive (b :: l)) (hb : b.view = UInt64.ofNat k) (hl : l.length = k) :
    (b :: l).map Block.view = ((List.range (k+1)).map UInt64.ofNat).reverse := by
  induction l generalizing b k with
  | nil =>
    obtain rfl : 0 = k := hl
    simp [hb]
  | cons a l ih =>
    obtain ⟨k,rfl⟩ : ∃ j, k = j+1 := ⟨l.length,hl.symm⟩
    obtain ⟨hab,h⟩ := List.isChain_cons_cons.mp h
    have ha : a.view = UInt64.ofNat k := by
      rw [hab,UInt64.ofNat_add] at hb
      exact add_right_cancel hb
    rw [List.map_cons,ih h ha (Nat.succ.inj hl),List.range_succ (n := k+1),List.map_append,List.reverse_append,hb]
    rfl

/-- In views without gaps every block decides the one `lag` blocks below. -/
theorem decided_of_consecutive (h : Consecutive l) (hl : R.lag < l.length) : R.decided l = some (l.drop R.lag) := by
  cases R with
  | chained =>
    obtain ⟨b,p,g,a,l,rfl⟩ : ∃ b p g a l', l = b :: p :: g :: a :: l' := by
      match l, hl with
      | b :: p :: g :: a :: l, _ => exact ⟨b,p,g,a,l,rfl⟩
    rfl
  | simple =>
    obtain ⟨b,p,g,a,l,rfl⟩ : ∃ b p g a l', l = b :: p :: g :: a :: l' := by
      match l, hl with
      | b :: p :: g :: a :: l, _ => exact ⟨b,p,g,a,l,rfl⟩
    obtain ⟨-,h⟩ := List.isChain_cons_cons.mp h
    obtain ⟨hp,h⟩ := List.isChain_cons_cons.mp h
    obtain ⟨hg,-⟩ := List.isChain_cons_cons.mp h
    rw [decided,if_pos (by rw [hp,hg,UInt64.add_assoc]; rfl)]
    rfl
  | fast =>
    obtain ⟨b,p,a,l,rfl⟩ : ∃ b p a l', l = b :: p :: a :: l' := by
      match l, hl with
      | b :: p :: a :: l, _ => exact ⟨b,p,a,l,rfl⟩
    obtain ⟨hb,h⟩ := List.isChain_cons_cons.mp h
    obtain ⟨hp,-⟩ := List.isChain_cons_cons.mp h
    rw [decided,if_pos ⟨hb,hp⟩]
    rfl

/-- In views without gaps all but the newest `lag` blocks are settled. -/
theorem settled_of_consecutive (h : Consecutive l) : (R.settled l).dropLast = l.dropLast.drop R.lag := by
  induction l with
  | nil => simp [settled]
  | cons b l ih =>
    cases l with
    | nil => simp [settled]
    | cons a l =>
      rw [settled]
      by_cases hlen : R.lag < (b :: a :: l).length
      · rw [decided_of_consecutive h hlen,Option.getD_some,List.dropLast_drop_eq_drop_dropLast]
      · have hnone : R.decided (b :: a :: l) = none := by
          cases hd : R.decided (b :: a :: l) with
          | none => rfl
          | some d => exact absurd (decided_suffix hd).2 hlen
        rw [hnone,Option.getD_none,ih (List.isChain_cons_cons.mp h).2,List.drop_eq_nil_of_le,List.drop_eq_nil_of_le]
        · simp at hlen ⊢
          omega
        · simp at hlen ⊢
          omega

end RuleSet

namespace Lineage
variable {S : Setup} {b a : Block} {l : List Block}

theorem tail (h : Lineage S (b :: a :: l)) : Lineage S (a :: l) := by
  cases h with
  | cons _ _ _ _ _ h => exact h

/-- A block is tied to the one below it by its parent and by its certificate. -/
theorem link (h : Lineage S (b :: a :: l)) : b.parent = a.hash S ∧ b.cert.Certifies S a := by
  cases h with
  | cons hparent hcert => exact ⟨hparent,hcert⟩

theorem drop (h : Lineage S l) {k : Nat} (hk : k < l.length) : Lineage S (l.drop k) := by
  induction k generalizing l with
  | zero => exact h
  | succ k ih =>
    cases h with
    | genesis => simp at hk
    | cons _ _ _ _ _ h => exact ih h (by simpa using hk)

theorem suffix {l' : List Block} (h : Lineage S l) (hl : l' <:+ l) (hne : l' ≠ []) : Lineage S l' := by
  rw [List.suffix_iff_eq_drop.mp hl]
  refine h.drop ?_
  have := List.length_pos_of_ne_nil hne
  have := hl.length_le
  omega

theorem lt_of_mem (h : Lineage S (b :: l)) {x : Block} (hx : x ∈ l) : x.view < b.view := by
  induction l generalizing b with
  | nil => cases hx
  | cons a l ih =>
    cases h with
    | cons _ _ hlt _ _ h =>
      rcases List.mem_cons.mp hx with rfl | hx
      · exact hlt
      · exact UInt64.lt_trans (ih h hx) hlt

theorem le_of_mem (h : Lineage S (b :: l)) {x : Block} (hx : x ∈ b :: l) : x.view ≤ b.view := by
  rcases List.mem_cons.mp hx with rfl | hx
  · exact UInt64.le_refl _
  · exact UInt64.le_of_lt (h.lt_of_mem hx)

theorem ne_zero (h : Lineage S l) {x : Block} (hx : x ∈ l) : x.hash S ≠ 0 := by
  induction h with
  | genesis h0 =>
    rw [List.mem_singleton.mp hx]
    exact h0
  | cons _ _ _ _ h0 _ ih =>
    rcases List.mem_cons.mp hx with rfl | hx
    · exact h0
    · exact ih hx

theorem fresh (h : Lineage S (b :: l)) {x : Block} (hx : x ∈ l) : x.hash S ≠ b.hash S := by
  cases h with
  | genesis => cases hx
  | cons _ _ _ hfresh => exact hfresh x hx

theorem genesis_mem (h : Lineage S l) : Hotstuff.genesis ∈ l := by
  induction h with
  | genesis => exact List.mem_cons_self
  | cons _ _ _ _ _ _ ih => exact List.mem_cons_of_mem _ ih

/-- A chain ends with genesis. -/
theorem eq_dropLast_append (h : Lineage S l) : l = l.dropLast ++ [Hotstuff.genesis] := by
  induction h with
  | genesis => rfl
  | cons _ _ _ _ _ _ ih =>
    rw [List.dropLast_cons_of_ne_nil (by simp),List.cons_append,← ih]

/-- Blocks of a chain are told apart by their views. -/
theorem eq_of_view (h : Lineage S l) {x y : Block} (hx : x ∈ l) (hy : y ∈ l) (he : x.view = y.view) : x = y := by
  induction l with
  | nil => cases hx
  | cons b l ih =>
    rcases List.mem_cons.mp hx with rfl | hx' <;> rcases List.mem_cons.mp hy with rfl | hy'
    · rfl
    · exact absurd (he ▸ h.lt_of_mem hy') (UInt64.lt_irrefl _)
    · exact absurd (he ▸ h.lt_of_mem hx') (UInt64.lt_irrefl _)
    · cases h with
      | genesis => cases hx'
      | cons _ _ _ _ _ h => exact ih h hx' hy'

theorem sorted (h : Lineage S l) : l.Pairwise fun b a => a.view < b.view := by
  induction l with
  | nil => exact .nil
  | cons b l ih =>
    refine List.pairwise_cons.mpr ⟨fun x hx => h.lt_of_mem hx,?_⟩
    cases h with
    | genesis => exact .nil
    | cons _ _ _ _ _ h => exact ih h

theorem ne_genesis (h : Lineage S l) {x : Block} (hx : x ∈ l.dropLast) : x ≠ Hotstuff.genesis := by
  rintro rfl
  have hsorted := h.sorted
  rw [h.eq_dropLast_append] at hsorted
  exact UInt64.lt_irrefl _ ((List.pairwise_append.mp hsorted).2.2 _ hx _ (List.mem_singleton_self _))

/-- What lies between two blocks of a chain by its view lies between them in the chain. -/
theorem mem_of_between {mid d : List Block} {c e x : Block} (h : Lineage S l) (hs : mid ++ e :: d <:+ l)
    (hc : (mid ++ e :: d).head? = some c) (hx : x ∈ l) (hlt : e.view < x.view) (hle : x.view ≤ c.view) : x ∈ mid := by
  obtain ⟨pre,rfl⟩ := hs
  obtain ⟨-,hsorted,hpre⟩ := List.pairwise_append.mp h.sorted
  obtain ⟨-,htop,-⟩ := List.pairwise_append.mp hsorted
  rcases List.mem_append.mp hx with hx | hx
  · exact absurd (hpre x hx c (List.mem_of_mem_head? hc)) (UInt64.not_lt.mpr hle)
  rcases List.mem_append.mp hx with hx | hx
  · exact hx
  rcases List.mem_cons.mp hx with rfl | hx
  · exact absurd hlt (UInt64.lt_irrefl _)
  · exact absurd hlt (UInt64.lt_asymm ((List.pairwise_cons.mp htop).1 x hx))

/-- Above genesis a block's view is not 0. -/
theorem pos_of_ne_genesis (h : Lineage S l) {x : Block} (hx : x ∈ l) (hg : x ≠ Hotstuff.genesis) : 0 < x.view := by
  rcases UInt64.lt_or_eq_of_le (UInt64.zero_le (a := x.view)) with hlt | he
  · exact hlt
  · exact absurd (h.eq_of_view hx h.genesis_mem he.symm) hg

end Lineage
end Hotstuff
