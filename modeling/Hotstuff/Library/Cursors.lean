import Mathlib.Algebra.BigOperators.Group.List.Basic
import Mathlib.Algebra.Order.BigOperators.Group.List
import Mathlib.Data.List.Forall2
import Mathlib.Data.List.Perm.Basic
import Mathlib.Data.List.TakeWhile
import Mathlib.Data.Nat.Find
import Mathlib.Tactic.Ring

/-! Lists that are read side by side in several passes, each of them from a cursor on. A pass reads from every list as
long as a predicate holds. The cursors belong to positions, and the lists may change places from pass to pass. -/
namespace Hotstuff
namespace Library
namespace Cursors
variable {α : Type*}

def taken (p : α → Bool) (l : List α) (i : ℕ) : List α := (l.drop i).takeWhile p

theorem taken_eq (p : α → Bool) (l : List α) (i : ℕ) : taken p l i = (l.drop i).take (taken p l i).length :=
  List.prefix_iff_eq_take.mp (List.takeWhile_prefix _)

theorem taken_length_le (p : α → Bool) (l : List α) (i : ℕ) : (taken p l i).length ≤ l.length - i :=
  (List.takeWhile_prefix _).length_le.trans_eq List.length_drop

def read (p : α → Bool) (rows : List (List α)) (c : List ℕ) : List α := (List.zipWith (taken p) rows c).flatten

def move (p : α → Bool) (rows : List (List α)) (c : List ℕ) : List ℕ :=
  List.zipWith (fun l i => i + (taken p l i).length) rows c

/-- How much is ahead of the cursors. One that is behind the end of its list counts as negative. -/
def left (rows : List (List α)) (c : List ℕ) : ℤ := (List.zipWith (fun l (i : ℕ) => (l.length : ℤ) - i) rows c).sum

theorem move_length {p : α → Bool} {rows : List (List α)} {c : List ℕ} (h : rows.length = c.length) :
    (move p rows c).length = c.length := by
  rw [move,List.length_zipWith,h,min_self]

theorem mem_read {p : α → Bool} {rows : List (List α)} {c : List ℕ} {x : α} (h : x ∈ read p rows c) :
    p x = true ∧ x ∈ rows.flatten := by
  induction rows generalizing c with
  | nil => simp [read] at h
  | cons l rows ih =>
    cases c with
    | nil => simp [read] at h
    | cons i c =>
      rw [read,List.zipWith_cons_cons,List.flatten_cons,List.mem_append] at h
      rw [List.flatten_cons,List.mem_append]
      rcases h with h | h
      · exact ⟨List.mem_takeWhile_imp h,.inl (List.mem_of_mem_drop ((List.takeWhile_prefix _).mem h))⟩
      · exact ⟨(ih h).1,.inr (ih h).2⟩

private theorem takeWhile_congr {p q : α → Bool} {l : List α} (h : ∀ x ∈ l, p x = q x) :
    l.takeWhile p = l.takeWhile q := by
  induction l with
  | nil => rfl
  | cons x l ih =>
    obtain ⟨hx,hl⟩ := List.forall_mem_cons.mp h
    rw [List.takeWhile_cons,List.takeWhile_cons,hx,ih hl]

theorem taken_congr {p q : α → Bool} {l : List α} (h : ∀ x ∈ l, p x = q x) (i : ℕ) : taken p l i = taken q l i :=
  takeWhile_congr fun x hx => h x (List.mem_of_mem_drop hx)

theorem zipWith_congr {β γ : Type*} {f g : List α → β → γ} {rows : List (List α)}
    (h : ∀ l ∈ rows, ∀ i, f l i = g l i) (c : List β) : List.zipWith f rows c = List.zipWith g rows c := by
  induction rows generalizing c with
  | nil => rfl
  | cons l rows ih =>
    cases c with
    | nil => rfl
    | cons i c =>
      obtain ⟨hl,hrows⟩ := List.forall_mem_cons.mp h
      rw [List.zipWith_cons_cons,List.zipWith_cons_cons,hl,ih hrows]

theorem left_eq {rows : List (List α)} {c : List ℕ} (h : rows.length = c.length) :
    left rows c = (rows.flatten.length : ℤ) - c.sum := by
  induction rows generalizing c with
  | nil =>
    cases c with
    | nil => rfl
    | cons i c => cases h
  | cons l rows ih =>
    cases c with
    | nil => cases h
    | cons i c =>
      have ih := ih (Nat.succ.inj h)
      rw [left] at ih ⊢
      rw [List.zipWith_cons_cons,List.sum_cons,ih,List.flatten_cons,List.length_append,List.sum_cons]
      push_cast
      ring

section Passes
variable (visit : ℕ → List (List α)) (p : ℕ → α → Bool)

def cursor (n : ℕ) : ℕ → List ℕ
  | 0 => List.replicate n 0
  | k+1 => move (p k) (visit k) (cursor n k)

/-- What the passes from the `k`-th one on read, with their numbers. A pass is the last one if nothing was ahead of
the cursors before it. -/
def passes : ℕ → ℕ → List ℕ → Option (List (ℕ × List α))
  | 0, _, _ => none
  | fuel+1, k, c =>
    if left (visit k) c ≤ 0 then some [(k,read (p k) (visit k) c)]
    else (passes fuel (k+1) (move (p k) (visit k) c)).map ((k,read (p k) (visit k) c) :: ·)

def Ends (n k : ℕ) : Prop := left (visit k) (cursor visit p n k) ≤ 0

variable {visit p}

private theorem map_range_shift {β : Type*} (f : ℕ → β) (k m : ℕ) :
    (List.range (m+1)).map (fun j => f (k+j)) = f k :: (List.range m).map (fun j => f (k+1+j)) := by
  rw [List.range_succ_eq_map,List.map_cons,List.map_map]
  congr 1
  apply List.map_congr_left
  intro j _
  rw [Function.comp,Nat.succ_eq_add_one,add_right_comm,add_assoc]

theorem passes_eq_some_iff {n fuel k : ℕ} {bs : List (ℕ × List α)} :
    passes visit p fuel k (cursor visit p n k) = some bs ↔
      ∃ m < fuel, Ends visit p n (k+m) ∧ (∀ j < m, ¬ Ends visit p n (k+j)) ∧
        bs = (List.range (m+1)).map (fun j => (k+j,read (p (k+j)) (visit (k+j)) (cursor visit p n (k+j)))) := by
  induction fuel generalizing k bs with
  | zero => simp [passes]
  | succ fuel ih =>
    have hshift := map_range_shift (fun j => (j,read (p j) (visit j) (cursor visit p n j))) k
    have hadd (j : ℕ) : k+(j+1) = k+1+j := by omega
    have hmove : move (p k) (visit k) (cursor visit p n k) = cursor visit p n (k+1) := rfl
    rw [passes,hmove]
    split_ifs with hleft
    · rw [Option.some.injEq]
      constructor
      · rintro rfl
        exact ⟨0,fuel.succ_pos,hleft,by simp,rfl⟩
      · rintro ⟨m,-,-,hbefore,rfl⟩
        cases m with
        | zero => rfl
        | succ m => exact absurd hleft (hbefore 0 m.succ_pos)
    · rw [Option.map_eq_some_iff]
      constructor
      · rintro ⟨bs,hbs,rfl⟩
        obtain ⟨m,hm,hend,hbefore,rfl⟩ := ih.mp hbs
        refine ⟨m+1,Nat.succ_lt_succ hm,hadd m ▸ hend,?_,(hshift (m+1)).symm⟩
        intro j hj
        cases j with
        | zero => exact hleft
        | succ j => exact hadd j ▸ hbefore j (Nat.lt_of_succ_lt_succ hj)
      · rintro ⟨m,hm,hend,hbefore,rfl⟩
        cases m with
        | zero => exact absurd hend hleft
        | succ m =>
          refine ⟨_,ih.mpr ⟨m,Nat.lt_of_succ_lt_succ hm,hadd m ▸ hend,?_,rfl⟩,(hshift (m+1)).symm⟩
          intro j hj
          exact hadd j ▸ hbefore (j+1) (Nat.succ_lt_succ hj)

theorem exists_passes_iff {n : ℕ} :
    (∃ fuel bs, passes visit p fuel 0 (List.replicate n 0) = some bs) ↔ ∃ k, Ends visit p n k := by
  have hstart : List.replicate n 0 = cursor visit p n 0 := rfl
  simp only [hstart,passes_eq_some_iff,Nat.zero_add]
  constructor
  · rintro ⟨-,-,m,-,hend,-⟩
    exact ⟨m,hend⟩
  · intro h
    classical
    exact ⟨Nat.find h + 1,_,Nat.find h,Nat.lt_succ_self _,Nat.find_spec h,fun j hj => Nat.find_min h hj,rfl⟩

variable {rows : List (List α)} (hperm : ∀ k, (visit k).Perm rows)
include hperm

theorem cursor_length (k : ℕ) : (cursor visit p rows.length k).length = rows.length := by
  induction k with
  | zero => exact List.length_replicate
  | succ k ih =>
    have hlen : (visit k).length = (cursor visit p rows.length k).length := by rw [ih,(hperm k).length_eq]
    rw [cursor,move_length hlen,ih]

theorem ends_iff (k : ℕ) :
    Ends visit p rows.length k ↔ rows.flatten.length ≤ (cursor visit p rows.length k).sum := by
  have hlen : (visit k).length = (cursor visit p rows.length k).length := by
    rw [cursor_length hperm,(hperm k).length_eq]
  rw [Ends,left_eq hlen,(hperm k).flatten.length_eq]
  omega

/-- The passes are the same if they can read the same up to one that is the last. -/
theorem passes_congr {q : ℕ → α → Bool} {n : ℕ} (hpq : ∀ k ≤ n, ∀ x ∈ rows.flatten, p k x = q k x)
    (hend : Ends visit p rows.length n) {fuel : ℕ} {bs : List (ℕ × List α)}
    (h : passes visit p fuel 0 (List.replicate rows.length 0) = some bs) :
    passes visit q fuel 0 (List.replicate rows.length 0) = some bs := by
  have htaken (k : ℕ) (hk : k ≤ n) (l : List α) (hl : l ∈ visit k) (i : ℕ) : taken (p k) l i = taken (q k) l i :=
    taken_congr (fun x hx => hpq k hk x (List.mem_flatten.mpr ⟨l,(hperm k).mem_iff.mp hl,hx⟩)) i
  have hcursor (k : ℕ) (hk : k ≤ n) : cursor visit p rows.length k = cursor visit q rows.length k := by
    induction k with
    | zero => rfl
    | succ k ih =>
      rw [cursor,cursor,ih (by omega)]
      exact zipWith_congr (fun l hl i => by rw [htaken k (by omega) l hl]) _
  have hstart (p : ℕ → α → Bool) : List.replicate rows.length 0 = cursor visit p rows.length 0 := rfl
  rw [hstart p,passes_eq_some_iff] at h
  obtain ⟨m,hm,hlast,hbefore,rfl⟩ := h
  simp only [Nat.zero_add] at hlast hbefore ⊢
  have hle : m ≤ n := by
    by_contra hlt
    exact hbefore n (not_le.mp hlt) hend
  rw [hstart q,passes_eq_some_iff]
  simp only [Nat.zero_add]
  refine ⟨m,hm,?_,?_,?_⟩
  · rwa [Ends,← hcursor m hle]
  · intro j hj
    rw [Ends,← hcursor j (by omega)]
    exact hbefore j hj
  · apply List.map_congr_left
    intro j hj
    have hj : j ≤ n := by
      rw [List.mem_range] at hj
      omega
    rw [read,read,hcursor j hj]
    exact congrArg (fun l => (j,l.flatten)) (zipWith_congr (htaken j hj) _)

/-- No pass comes after one that is the last, and each reads what it can read. -/
theorem mem_passes {n fuel : ℕ} (hend : Ends visit p rows.length n) {bs : List (ℕ × List α)}
    (h : passes visit p fuel 0 (List.replicate rows.length 0) = some bs) {b : ℕ × List α} (hb : b ∈ bs) :
    b.1 ≤ n ∧ ∀ x ∈ b.2, p b.1 x = true ∧ x ∈ rows.flatten := by
  have hstart : List.replicate rows.length 0 = cursor visit p rows.length 0 := rfl
  rw [hstart,passes_eq_some_iff] at h
  obtain ⟨last,-,-,hbefore,rfl⟩ := h
  simp only [Nat.zero_add] at hbefore hb
  obtain ⟨k,hk,rfl⟩ := List.mem_map.mp hb
  rw [List.mem_range] at hk
  constructor
  · by_contra hlt
    rw [not_le] at hlt
    exact hbefore n (by omega) hend
  · intro x hx
    obtain ⟨hpx,hx⟩ := mem_read hx
    exact ⟨hpx,(hperm k).flatten.mem_iff.mp hx⟩

/-- Once a pass can read everything, the next one is the last, whatever the places of the lists. -/
theorem ends_of_all {k : ℕ} (h : ∀ x ∈ rows.flatten, p k x = true) : Ends visit p rows.length (k+1) := by
  have hall : ∀ l ∈ visit k, ∀ x ∈ l, p k x = true := fun l hl x hx =>
    h x (List.mem_flatten.mpr ⟨l,(hperm k).mem_iff.mp hl,hx⟩)
  have hlen : (visit k).length = (cursor visit p rows.length k).length := by
    rw [cursor_length hperm,(hperm k).length_eq]
  rw [ends_iff hperm,← (hperm k).flatten.length_eq,cursor]
  generalize cursor visit p rows.length k = c at hlen
  generalize visit k = rows' at hall hlen
  induction rows' generalizing c with
  | nil => simp
  | cons l rows' ih =>
    cases c with
    | nil => cases hlen
    | cons i c =>
      obtain ⟨hl,hall⟩ := List.forall_mem_cons.mp hall
      have hrest := ih c hall (Nat.succ.inj hlen)
      have htaken : taken (p k) l i = l.drop i :=
        List.takeWhile_eq_self_iff.mpr fun x hx => hl x (List.mem_of_mem_drop hx)
      rw [move] at hrest ⊢
      rw [List.zipWith_cons_cons,List.sum_cons,List.flatten_cons,List.length_append,htaken,List.length_drop]
      omega

end Passes

section Stuck
variable {visit : ℕ → List (List α)} {p : ℕ → α → Bool} {rows : List (List α)} {c : List ℕ}

private def Read (p : ℕ → α → Bool) (l : List α) (i : ℕ) : Prop := i ≤ l.length ∧ ∀ y ∈ l.take i, ∃ k, p k y = true

private theorem read_move (k : ℕ) (h : List.Forall₂ (Read p) rows c) :
    List.Forall₂ (Read p) rows (move (p k) rows c) := by
  induction h with
  | nil => exact .nil
  | @cons l i rows c hl hrest ih =>
    refine .cons ⟨?_,?_⟩ ih
    · have hle := taken_length_le (p k) l i
      have hi := hl.1
      dsimp only
      omega
    · intro y hy
      rw [List.take_add,List.mem_append,← taken_eq] at hy
      rcases hy with hy | hy
      · exact hl.2 y hy
      · exact ⟨k,List.mem_takeWhile_imp hy⟩

private theorem left_nonneg (h : List.Forall₂ (Read p) rows c) : 0 ≤ left rows c := by
  induction h with
  | nil => exact le_rfl
  | cons hl _ ih =>
    rw [left] at ih ⊢
    rw [List.zipWith_cons_cons,List.sum_cons]
    have hi := hl.1
    omega

private theorem left_pos (h : List.Forall₂ (Read p) rows c) {l : List α} (hl : l ∈ rows) {x : α} (hx : x ∈ l)
    (hnever : ∀ k, p k x = false) : 0 < left rows c := by
  induction h with
  | nil => cases hl
  | @cons l' i rows c hread hrest ih =>
    have hi := hread.1
    have hnonneg := left_nonneg hrest
    rw [left] at ih hnonneg ⊢
    rw [List.zipWith_cons_cons,List.sum_cons]
    rcases List.mem_cons.mp hl with rfl | hl
    · have hlt : i < l.length := by
        by_contra hge
        have hall := hread.2
        rw [List.take_of_length_le (not_lt.mp hge)] at hall
        obtain ⟨k,hk⟩ := hall x hx
        rw [hnever k] at hk
        cases hk
      omega
    · have hpos := ih hl
      omega

/-- If the lists stay in their places and an element is never read, no pass is the last one. -/
theorem not_ends_of_never (hvisit : ∀ k, visit k = rows) {l : List α} (hl : l ∈ rows) {x : α} (hx : x ∈ l)
    (hnever : ∀ k, p k x = false) (k : ℕ) : ¬ Ends visit p rows.length k := by
  have hread : List.Forall₂ (Read p) rows (cursor visit p rows.length k) := by
    induction k with
    | zero =>
      rw [cursor,List.forall₂_iff_get]
      refine ⟨by simp,?_⟩
      intro i _ _
      simp [Read]
    | succ k ih =>
      rw [cursor,hvisit]
      exact read_move k ih
  rw [Ends,hvisit,not_le]
  exact left_pos hread hl hx hnever

end Stuck

def prev (p : ℕ → α → Bool) : ℕ → α → Bool
  | 0, _ => false
  | k+1, x => p k x

def before (p : ℕ → α → Bool) (k : ℕ) (l : List α) : ℕ := l.countP (prev p k)

/-- Later passes can read more, and each list begins with what can be read. -/
structure Ordered (p : ℕ → α → Bool) (rows : List (List α)) : Prop where
  mono : ∀ k x, p k x = true → p (k+1) x = true
  front : ∀ l ∈ rows, ∀ k, l.filter (p k) ++ l.filter (fun x => !p k x) = l

section Front
variable {p q : α → Bool} {l : List α}

theorem filter_front (h : l.Pairwise fun x y => q y = true → q x = true) :
    l.filter q ++ l.filter (fun x => !q x) = l := by
  induction h with
  | nil => rfl
  | @cons x l hx _ ih =>
    cases hqx : q x with
    | true => rw [List.filter_cons_of_pos hqx,List.filter_cons_of_neg (by simp [hqx]),List.cons_append,ih]
    | false =>
      have hnone : ∀ y ∈ l, q y = false := by
        intro y hy
        cases hqy : q y with
        | false => rfl
        | true => rw [← hqx,hx y hy hqy]
      rw [List.filter_eq_nil_iff.mpr (by simpa [hqx] using hnone),List.nil_append]
      exact List.filter_eq_self.mpr (by simpa [hqx] using hnone)

private theorem drop_countP (h : l.filter q ++ l.filter (fun x => !q x) = l) :
    l.drop (l.countP q) = l.filter (fun x => !q x) :=
  calc
    l.drop (l.countP q) = (l.filter q ++ l.filter (fun x => !q x)).drop (l.filter q).length := by
      rw [h,List.countP_eq_length_filter]
    _ = _ := List.drop_left

private theorem taken_countP (hp : l.filter p ++ l.filter (fun x => !p x) = l)
    (hq : l.filter q ++ l.filter (fun x => !q x) = l) (hqp : ∀ x, q x = true → p x = true) :
    taken p l (l.countP q) = l.filter (fun x => p x && !q x) := by
  have hrest : l.filter (fun x => !q x) = l.filter (fun x => p x && !q x) ++ l.filter (fun x => !p x) := by
    nth_rewrite 1 [← hp]
    rw [List.filter_append,List.filter_filter,List.filter_filter]
    congr 1
    · exact List.filter_congr fun x _ => Bool.and_comm _ _
    · refine List.filter_congr fun x _ => ?_
      cases hx : q x with
      | false => simp
      | true => simp [hqp x hx]
  have hnone : (l.filter (fun x => !p x)).takeWhile p = [] := by
    cases hl : l.filter (fun x => !p x) with
    | nil => rfl
    | cons y l' =>
      have hmem : y ∈ l.filter (fun x => !p x) := hl ▸ List.mem_cons_self
      have hy := (List.mem_filter.mp hmem).2
      rw [List.takeWhile_cons_of_neg]
      simpa using hy
  rw [taken,drop_countP hq,hrest,List.takeWhile_append_of_pos,hnone,List.append_nil]
  intro x hx
  have hpx := (List.mem_filter.mp hx).2
  simp only [Bool.and_eq_true] at hpx
  exact hpx.1

private theorem countP_add (hqp : ∀ x, q x = true → p x = true) (l : List α) :
    l.countP q + (l.filter (fun x => p x && !q x)).length = l.countP p := by
  rw [← List.countP_eq_length_filter]
  induction l with
  | nil => rfl
  | cons x l ih =>
    have hx := hqp x
    rw [List.countP_cons,List.countP_cons,List.countP_cons,← ih]
    cases hq : q x with
    | false =>
      cases p x <;> simp
      omega
    | true =>
      rw [hx hq]
      simp
      omega

private theorem zipWith_map_self {β γ : Type*} (f : List α → β → γ) (g : List α → β) (rows : List (List α)) :
    List.zipWith f rows (rows.map g) = rows.map (fun l => f l (g l)) := by
  induction rows with
  | nil => rfl
  | cons l rows ih => rw [List.map_cons,List.zipWith_cons_cons,ih,List.map_cons]

end Front

namespace Ordered
variable {p : ℕ → α → Bool} {rows rows' : List (List α)} (h : Ordered p rows)
include h

private theorem prev_le (k : ℕ) (x : α) (hx : prev p k x = true) : p k x = true := by
  cases k with
  | zero => cases hx
  | succ k => exact h.mono k x hx

theorem prev_mono {k m : ℕ} (hkm : k ≤ m) {x : α} (hx : prev p k x = true) : prev p m x = true := by
  induction hkm with
  | refl => exact hx
  | step _ ih => exact h.prev_le _ x ih

private theorem prev_front {l : List α} (hl : l ∈ rows) (k : ℕ) :
    l.filter (prev p k) ++ l.filter (fun x => !prev p k x) = l := by
  cases k with
  | zero => simp [prev]
  | succ k => exact h.front l hl k

theorem taken_before {l : List α} (hl : l ∈ rows) (k : ℕ) :
    taken (p k) l (before p k l) = l.filter (fun x => p k x && !prev p k x) :=
  taken_countP (h.front l hl k) (h.prev_front hl k) (h.prev_le k)

variable (hsub : ∀ l ∈ rows', l ∈ rows)
include hsub

theorem move_before (k : ℕ) : move (p k) rows' (rows'.map (before p k)) = rows'.map (before p (k+1)) := by
  rw [move,zipWith_map_self]
  apply List.map_congr_left
  intro l hl
  rw [h.taken_before (hsub l hl),before,before]
  exact countP_add (h.prev_le k) l

theorem read_before (k : ℕ) : read (p k) rows' (rows'.map (before p k)) =
    rows'.flatten.filter (fun x => p k x && !prev p k x) := by
  rw [read,zipWith_map_self,List.filter_flatten]
  congr 1
  apply List.map_congr_left
  intro l hl
  exact h.taken_before (hsub l hl) k

end Ordered

theorem left_before (p : ℕ → α → Bool) (rows : List (List α)) (k : ℕ) :
    left rows (rows.map (before p k)) ≤ 0 ↔ ∀ x ∈ rows.flatten, prev p k x = true := by
  have hcount : left rows (rows.map (before p k)) = (rows.flatten.countP (fun x => !prev p k x) : ℕ) := by
    rw [left,zipWith_map_self]
    induction rows with
    | nil => rfl
    | cons l rows ih =>
      have hl : l.countP (prev p k) + l.countP (fun x => !prev p k x) = l.length := by
        rw [List.length_eq_countP_add_countP (prev p k)]
        simp
      rw [List.map_cons,List.sum_cons,ih,List.flatten_cons,List.countP_append,before]
      push_cast
      omega
  rw [hcount,Int.natCast_nonpos_iff,List.countP_eq_zero]
  simp only [Bool.not_eq_true',Bool.not_eq_false]

/-- The lists change places only with lists of which as much has been read. -/
def Aligned (visit : ℕ → List (List α)) (p : ℕ → α → Bool) (rows : List (List α)) : Prop :=
  ∀ k, (∃ x ∈ rows.flatten, prev p k x = false) → (visit k).map (before p (k+1)) = (visit (k+1)).map (before p (k+1))

section Exact
variable {visit : ℕ → List (List α)} {p : ℕ → α → Bool} {rows : List (List α)}

private theorem eq_of_le_of_sum_eq {a c : List ℕ} (h : List.Forall₂ (· ≤ ·) c a) (hsum : c.sum = a.sum) : c = a := by
  induction h with
  | nil => rfl
  | @cons x y c a hxy hrest ih =>
    have hle : c.sum ≤ a.sum := hrest.sum_le_sum
    rw [List.sum_cons,List.sum_cons] at hsum
    obtain ⟨rfl,heq⟩ : x = y ∧ c.sum = a.sum := by omega
    rw [ih heq]

/-- A cursor that is too far back makes a pass read again what could be read before. -/
private theorem before_le_of_read (hord : Ordered p rows) {k : ℕ} {rows' : List (List α)} {c : List ℕ}
    (hsub : ∀ l ∈ rows', l ∈ rows) (hlen : rows'.length = c.length)
    (h : ∀ x ∈ read (p (k+1)) rows' c, prev p (k+1) x = false) :
    List.Forall₂ (· ≤ ·) (rows'.map (before p (k+1))) c := by
  induction rows' generalizing c with
  | nil =>
    cases c with
    | nil => exact .nil
    | cons i c => cases hlen
  | cons l rows' ih =>
    cases c with
    | nil => cases hlen
    | cons i c =>
      obtain ⟨hl,hsub⟩ := List.forall_mem_cons.mp hsub
      have hread (x : α) : x ∈ taken (p (k+1)) l i ∨ x ∈ read (p (k+1)) rows' c → prev p (k+1) x = false := by
        intro hx
        apply h x
        rw [read,List.zipWith_cons_cons,List.flatten_cons]
        exact List.mem_append.mpr hx
      refine .cons ?_ (ih hsub (Nat.succ.inj hlen) fun x hx => hread x (.inr hx))
      by_contra hlt
      rw [not_le,before,List.countP_eq_length_filter] at hlt
      -- the element at the cursor could be read in the pass before
      have hsplit : l.drop i = (l.filter (prev p (k+1))).drop i ++ l.filter (fun x => !prev p (k+1) x) := by
        nth_rewrite 1 [← hord.front l hl k]
        exact List.drop_append_of_le_length hlt.le
      obtain ⟨x,rest,hx⟩ := List.exists_cons_of_length_pos (l := (l.filter (prev p (k+1))).drop i)
        (by rw [List.length_drop]; omega)
      have hprev : prev p (k+1) x = true :=
        (List.mem_filter.mp (List.mem_of_mem_drop (hx ▸ List.mem_cons_self))).2
      have htaken : x ∈ taken (p (k+1)) l i := by
        rw [taken,hsplit,hx,List.cons_append,List.takeWhile_cons_of_pos (hord.mono k x hprev)]
        exact List.mem_cons_self
      rw [hread x (.inl htaken)] at hprev
      cases hprev

variable (hperm : ∀ k, (visit k).Perm rows)
include hperm

private theorem cursor_zero : cursor visit p rows.length 0 = (visit 0).map (before p 0) := by
  have hzero : before p 0 = fun _ : List α => 0 := by
    funext l
    exact List.countP_eq_zero.mpr (by simp [prev])
  rw [cursor,hzero,List.map_const',(hperm 0).length_eq]

private theorem ends_iff_prev {k : ℕ} (h : cursor visit p rows.length k = (visit k).map (before p k)) :
    Ends visit p rows.length k ↔ ∀ x ∈ rows.flatten, prev p k x = true := by
  rw [Ends,h,left_before]
  exact forall_congr' fun x => by rw [(hperm k).flatten.mem_iff]

variable (hord : Ordered p rows)
include hord

private theorem cursor_succ {k : ℕ} (h : cursor visit p rows.length k = (visit k).map (before p k)) :
    cursor visit p rows.length (k+1) = (visit k).map (before p (k+1)) := by
  rw [cursor,h]
  exact hord.move_before (fun l hl => (hperm k).mem_iff.mp hl) k

/-- The passes up to one at which everything can have been read. -/
private theorem perm_of_cursors {n : ℕ} (h : ∀ k < n, cursor visit p rows.length k = (visit k).map (before p k)) :
    ((List.range n).flatMap fun k => read (p k) (visit k) (cursor visit p rows.length k)).Perm
      (rows.flatten.filter (prev p n)) := by
  induction n with
  | zero => simp [prev]
  | succ n ih =>
    have hread : (read (p n) (visit n) (cursor visit p rows.length n)).Perm
        (rows.flatten.filter (fun x => p n x && !prev p n x)) := by
      rw [h n n.lt_succ_self,hord.read_before (fun l hl => (hperm n).mem_iff.mp hl)]
      exact (hperm n).flatten.filter _
    have hsplit : (rows.flatten.filter (prev p n) ++ rows.flatten.filter (fun x => p n x && !prev p n x)).Perm
        (rows.flatten.filter (p n)) := by
      have hfilter := List.filter_append_perm (prev p n) (rows.flatten.filter (p n))
      rw [List.filter_filter,List.filter_filter] at hfilter
      refine (List.Perm.append ?_ ?_).trans hfilter
      · apply List.Perm.of_eq
        refine List.filter_congr fun x _ => ?_
        cases hx : prev p n x with
        | false => rfl
        | true => rw [hord.prev_le n x hx,Bool.and_self]
      · apply List.Perm.of_eq
        exact List.filter_congr fun x _ => Bool.and_comm _ _
    rw [List.range_succ,List.flatMap_append,List.flatMap_singleton]
    exact ((ih fun k hk => h k (hk.trans n.lt_succ_self)).append hread).trans hsplit

private theorem cursor_of_aligned (h : Aligned visit p rows) {n : ℕ}
    (hn : ∀ k < n, ∃ x ∈ rows.flatten, prev p k x = false) :
    cursor visit p rows.length n = (visit n).map (before p n) := by
  induction n with
  | zero => exact cursor_zero hperm
  | succ n ih =>
    have ih := ih fun k hk => hn k (hk.trans n.lt_succ_self)
    rw [cursor_succ hperm hord ih]
    exact h n (hn n n.lt_succ_self)

private theorem cursor_of_exact {n : ℕ}
    (h : ∀ k ≤ n, ∀ x ∈ read (p k) (visit k) (cursor visit p rows.length k), prev p k x = false) :
    cursor visit p rows.length n = (visit n).map (before p n) := by
  induction n with
  | zero => exact cursor_zero hperm
  | succ n ih =>
    have ih := ih fun k hk => h k (hk.trans n.le_succ)
    have hcursor := cursor_succ hperm hord ih
    have hlen : (visit (n+1)).length = (cursor visit p rows.length (n+1)).length := by
      rw [cursor_length hperm,(hperm (n+1)).length_eq]
    have hle := before_le_of_read hord (fun l hl => (hperm (n+1)).mem_iff.mp hl) hlen (h (n+1) le_rfl)
    -- the lists are the same as in the pass before, so that the cursors cannot all be ahead
    have hsum : ((visit (n+1)).map (before p (n+1))).sum = (cursor visit p rows.length (n+1)).sum := by
      rw [hcursor]
      exact (((hperm (n+1)).trans (hperm n).symm).map _).sum_eq
    exact (eq_of_le_of_sum_eq hle hsum).symm

/-- All passes together read every element, and each of them nothing that could be read before, exactly if the lists
only change places with lists of which as much has been read. -/
theorem exact_iff_aligned (hall : ∃ k, ∀ x ∈ rows.flatten, p k x = true) :
    (∃ fuel bs, passes visit p fuel 0 (List.replicate rows.length 0) = some bs ∧
      (bs.flatMap Prod.snd).Perm rows.flatten ∧ ∀ b ∈ bs, ∀ x ∈ b.2, prev p b.1 x = false) ↔
    Aligned visit p rows := by
  have hstart : List.replicate rows.length 0 = cursor visit p rows.length 0 := rfl
  simp only [hstart,passes_eq_some_iff,Nat.zero_add]
  constructor
  · rintro ⟨-,-,⟨last,-,hend,-,rfl⟩,-,hfresh⟩
    have hcursor (n : ℕ) (hn : n ≤ last) : cursor visit p rows.length n = (visit n).map (before p n) := by
      apply cursor_of_exact hperm hord
      intro k hk x hx
      exact hfresh _ (List.mem_map.mpr ⟨k,List.mem_range.mpr (by omega),rfl⟩) x hx
    rintro k ⟨x,hx,hprev⟩
    have hlt : k < last := by
      by_contra hge
      have hdone := (ends_iff_prev hperm (hcursor last le_rfl)).mp hend x hx
      rw [hord.prev_mono (not_lt.mp hge) hdone] at hprev
      cases hprev
    rw [← cursor_succ hperm hord (hcursor k hlt.le),hcursor (k+1) hlt]
  · intro haligned
    have hdone : ∃ k, ∀ x ∈ rows.flatten, prev p k x = true := by
      obtain ⟨k,hk⟩ := hall
      exact ⟨k+1,hk⟩
    classical
    obtain ⟨last,hlast,hmin⟩ : ∃ last, (∀ x ∈ rows.flatten, prev p last x = true) ∧
        ∀ k < last, ∃ x ∈ rows.flatten, prev p k x = false := by
      refine ⟨Nat.find hdone,Nat.find_spec hdone,fun k hk => ?_⟩
      have hnot := Nat.find_min hdone hk
      push Not at hnot
      simpa using hnot
    have hcursor (n : ℕ) (hn : n ≤ last) : cursor visit p rows.length n = (visit n).map (before p n) :=
      cursor_of_aligned hperm hord haligned fun k hk => hmin k (by omega)
    refine ⟨last+1,_,⟨last,last.lt_succ_self,(ends_iff_prev hperm (hcursor last le_rfl)).mpr hlast,?_,rfl⟩,?_,?_⟩
    · intro k hk hend
      obtain ⟨x,hx,hprev⟩ := hmin k hk
      rw [(ends_iff_prev hperm (hcursor k hk.le)).mp hend x hx] at hprev
      cases hprev
    · rw [List.flatMap_map]
      refine (perm_of_cursors hperm hord fun k hk => hcursor k (by omega)).trans (.of_eq ?_)
      exact List.filter_eq_self.mpr fun x hx => hord.prev_mono last.le_succ (hlast x hx)
    · intro b hb x hx
      obtain ⟨k,hk,rfl⟩ := List.mem_map.mp hb
      have hk : k ≤ last := Nat.lt_succ_iff.mp (List.mem_range.mp hk)
      dsimp only at hx
      rw [hcursor k hk,hord.read_before (fun l hl => (hperm k).mem_iff.mp hl),List.mem_filter,Bool.and_eq_true] at hx
      simpa using hx.2.2

end Exact
end Cursors
end Library
end Hotstuff
