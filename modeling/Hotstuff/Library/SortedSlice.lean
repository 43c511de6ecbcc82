import Mathlib.Data.List.Sort

/-! Binary search over a slice, and insertion by moving the tail of a slice one place up. A slice is a list; an access
outside it has no value. -/
namespace Hotstuff.Library

section Search

def searchLoop (f : Nat → Option Bool) : Nat → Nat → Nat → Option Nat
  | 0, i, _ => some i
  | rounds+1, i, j =>
    if i < j then do
      let h := (i+j)/2
      if ← f h then searchLoop f rounds i h else searchLoop f rounds (h+1) j
    else some i

/-- The least index in `[0,n)` at which `f` is true, or `n`, if `f` does not turn false again. -/
def search (n : Nat) (f : Nat → Option Bool) : Option Nat := searchLoop f n 0 n

variable {f : Nat → Option Bool} {k n : Nat}

structure TurnsAt (f : Nat → Option Bool) (k n : Nat) : Prop where
  le : k ≤ n
  low : ∀ i < k, f i = some false
  high : ∀ i, k ≤ i → i < n → f i = some true

theorem TurnsAt.searchLoop_eq (hf : TurnsAt f k n) {rounds i j : Nat} (hi : i ≤ k) (hj : k ≤ j) (hn : j ≤ n)
    (hrounds : j - i ≤ rounds) : searchLoop f rounds i j = some k := by
  induction rounds generalizing i j with
  | zero =>
    have hik : i = k := by omega
    rw [searchLoop,hik]
  | succ rounds ih =>
    rw [searchLoop]
    split_ifs with hij
    · dsimp only
      by_cases hmid : (i+j)/2 < k
      · rw [hf.low _ hmid]
        exact ih hmid hj hn (by omega)
      · rw [hf.high _ (Nat.not_lt.mp hmid) (by omega)]
        exact ih hi (by omega) (by omega) (by omega)
    · have hik : i = k := by omega
      rw [hik]

theorem TurnsAt.search_eq (hf : TurnsAt f k n) : search n f = some k :=
  hf.searchLoop_eq (Nat.zero_le k) hf.le le_rfl (Nat.sub_le n 0)

end Search

section Slices
variable {α : Type*}

/-- A condition that stays true along a list turns true behind the longest prefix that does not meet it. -/
theorem turnsAt_takeWhile {p : α → Bool} {l : List α} (h : l.Pairwise fun a b => p a = true → p b = true) :
    TurnsAt (fun i => l[i]?.map p) (l.takeWhile fun a => !p a).length l.length := by
  induction l with
  | nil => exact ⟨le_rfl,fun i hi => absurd hi (Nat.not_lt_zero i),fun i _ hi => absurd hi (Nat.not_lt_zero i)⟩
  | cons a l ih =>
    obtain ⟨ha,hl⟩ := List.pairwise_cons.mp h
    cases hp : p a with
    | true =>
      -- everything behind `a` meets the condition as well
      have hall : ∀ b ∈ a :: l, p b = true := List.forall_mem_cons.mpr ⟨hp,fun b hb => ha b hb hp⟩
      have hzero : ((a :: l).takeWhile fun b => !p b).length = 0 := by simp [hp]
      rw [hzero]
      refine ⟨Nat.zero_le _,fun i hi => absurd hi (Nat.not_lt_zero i),fun i _ hi => ?_⟩
      rw [List.getElem?_eq_getElem hi,Option.map_some,hall _ (List.getElem_mem hi)]
    | false =>
      have hsucc : ((a :: l).takeWhile fun b => !p b).length = (l.takeWhile fun b => !p b).length + 1 := by simp [hp]
      obtain ⟨hle,hlow,hhigh⟩ := ih hl
      rw [hsucc]
      refine ⟨Nat.succ_le_succ hle,fun i hi => ?_,fun i hk hi => ?_⟩
      · cases i with
        | zero => simp [hp]
        | succ i => exact hlow i (Nat.lt_of_succ_lt_succ hi)
      · cases i with
        | zero => exact absurd hk (Nat.not_succ_le_zero _)
        | succ i => exact hhigh i (Nat.le_of_succ_le_succ hk) (Nat.lt_of_succ_lt_succ hi)

/-- `copy(l[dst:],l[src:])`: the source is read as it was before the first write, also where the two overlap. -/
def copyWithin (l : List α) (dst src : Nat) : Option (List α) :=
  if dst ≤ l.length ∧ src ≤ l.length then
    let moved := (l.drop src).take (l.length - dst)
    some (l.take dst ++ moved ++ l.drop (dst + moved.length))
  else none

def assign (l : List α) (i : Nat) (x : α) : Option (List α) :=
  if i < l.length then some (l.set i x) else none

/-- A slice grown by one element has room for another one at any place. -/
theorem copyWithin_assign {l : List α} {i : Nat} (hi : i ≤ l.length) (z x : α) :
    (copyWithin (l ++ [z]) (i+1) i).bind (fun m => assign m i x) = some (l.take i ++ x :: l.drop i) := by
  have hlen : (l ++ [z]).length = l.length + 1 := by simp
  have hmoved : ((l ++ [z]).drop i).take ((l ++ [z]).length - (i+1)) = l.drop i := by
    rw [List.drop_append_of_le_length hi,hlen,Nat.add_sub_add_right]
    exact List.take_left' List.length_drop
  have hrest : (l ++ [z]).drop (i + 1 + (l.drop i).length) = [] := by
    apply List.drop_eq_nil_of_le
    rw [hlen,List.length_drop]
    omega
  have hfront : (l ++ [z]).take (i+1) = l.take i ++ ((l ++ [z]).drop i).take 1 := by
    rw [List.take_add,List.take_append_of_le_length hi]
  obtain ⟨y,hy⟩ : ∃ y, ((l ++ [z]).drop i).take 1 = [y] := by
    apply List.length_eq_one_iff.mp
    rw [List.length_take,List.length_drop,hlen]
    omega
  rw [copyWithin,if_pos (by omega)]
  dsimp only
  rw [hmoved,hrest,hfront,hy,Option.bind_some,assign,if_pos]
  · simp [hi]
  · simp
    omega

/-- Search and insertion together put `x` before the first element that meets the condition. -/
theorem search_insert {p : α → Bool} {l : List α} (h : l.Pairwise fun a b => p a = true → p b = true) (z x : α) :
    (search l.length fun i => l[i]?.map p).bind (fun i =>
      (copyWithin (l ++ [z]) (i+1) i).bind fun m => assign m i x) =
        some (l.takeWhile (fun a => !p a) ++ x :: l.dropWhile fun a => !p a) := by
  have hturns := turnsAt_takeWhile h
  have hsplit : l.takeWhile (fun a => !p a) ++ l.dropWhile (fun a => !p a) = l := List.takeWhile_append_dropWhile
  have htake : l.take (l.takeWhile fun a => !p a).length = l.takeWhile fun a => !p a := by
    conv_lhs => rw [← hsplit]
    exact List.take_left' (by rw [hsplit])
  have hdrop : l.drop (l.takeWhile fun a => !p a).length = l.dropWhile fun a => !p a := by
    conv_lhs => rw [← hsplit]
    exact List.drop_left' (by rw [hsplit])
  rw [hturns.search_eq,Option.bind_some,copyWithin_assign hturns.le,htake,hdrop]

end Slices
end Hotstuff.Library
