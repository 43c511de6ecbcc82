import Mathlib.Algebra.BigOperators.Group.List.Basic
import Mathlib.Algebra.BigOperators.Ring.List
import Mathlib.Algebra.CharZero.Defs
import Mathlib.Algebra.Order.Field.Basic
import Mathlib.Order.Interval.Set.Basic
import Mathlib.Tactic.FieldSimp
import Mathlib.Tactic.LinearCombination
import Mathlib.Tactic.Ring

/-! Mean and squared deviations of a list of numbers, and the recurrences by which both follow a list that grows
at its end. -/
namespace Hotstuff
namespace Library
namespace Statistics

section Recurrence
variable {K : Type*} [Field K]

/-- The mean `μ` is moved towards `x` by one part in `c`. -/
def shift (μ c x : K) : K := μ + (x-μ)/c

def gain (μ c x : K) : K := (x-μ) * (x - shift μ c x)

theorem shift_eq (μ c x : K) : shift μ c x = (1-c⁻¹)*μ + c⁻¹*x := by
  rw [shift,div_eq_mul_inv]
  ring

theorem shift_one (μ x : K) : shift μ 1 x = x := by
  rw [shift,div_one,add_sub_cancel]

theorem gain_eq (μ c x : K) : gain μ c x = (1-c⁻¹)*(x-μ)^2 := by
  rw [gain,shift_eq]
  ring

variable [LinearOrder K] [IsStrictOrderedRing K] {μ c x : K}

private theorem weights (hc : 1 ≤ c) : 0 ≤ c⁻¹ ∧ 0 ≤ 1-c⁻¹ :=
  ⟨inv_nonneg.mpr (zero_le_one.trans hc),sub_nonneg.mpr (inv_le_one_of_one_le₀ hc)⟩

/-- A mean stays between the bounds of what it is taken of. -/
theorem shift_mem {a b : K} (hc : 1 ≤ c) (hμ : μ ∈ Set.Icc a b) (hx : x ∈ Set.Icc a b) :
    shift μ c x ∈ Set.Icc a b := by
  obtain ⟨hw,hw'⟩ := weights hc
  have hconst (d : K) : (1-c⁻¹)*d + c⁻¹*d = d := by ring
  rw [shift_eq]
  constructor
  · calc
      a = (1-c⁻¹)*a + c⁻¹*a := (hconst a).symm
      _ ≤ _ := add_le_add (mul_le_mul_of_nonneg_left hμ.1 hw') (mul_le_mul_of_nonneg_left hx.1 hw)
  · calc
      _ ≤ (1-c⁻¹)*b + c⁻¹*b := add_le_add (mul_le_mul_of_nonneg_left hμ.2 hw') (mul_le_mul_of_nonneg_left hx.2 hw)
      _ = b := hconst b

theorem shift_nonneg (hc : 1 ≤ c) (hμ : 0 ≤ μ) (hx : 0 ≤ x) : 0 ≤ shift μ c x := by
  obtain ⟨hw,hw'⟩ := weights hc
  rw [shift_eq]
  exact add_nonneg (mul_nonneg hw' hμ) (mul_nonneg hw hx)

theorem gain_nonneg (hc : 1 ≤ c) : 0 ≤ gain μ c x := by
  rw [gain_eq]
  exact mul_nonneg (weights hc).2 (sq_nonneg _)

/-- The number lies between the smallest and the largest of the list. -/
def Within (l : List K) (x : K) : Prop := ∃ lo ∈ l, ∃ hi ∈ l, lo ≤ x ∧ x ≤ hi

theorem Within.shift {l : List K} (h : Within l μ) (hc : 1 ≤ c) (d : K) : Within (l ++ [d]) (shift μ c d) := by
  obtain ⟨lo,hlo,hi,hhi,hle⟩ := h
  have hmem := shift_mem (a := min lo d) (b := max hi d) hc
    ⟨(min_le_left _ _).trans hle.1,hle.2.trans (le_max_left _ _)⟩ ⟨min_le_right _ _,le_max_right _ _⟩
  refine ⟨min lo d,?_,max hi d,?_,hmem⟩
  · rcases min_choice lo d with he | he <;> simp [he,hlo]
  · rcases max_choice hi d with he | he <;> simp [he,hhi]

end Recurrence

section Lists
variable {K : Type*} [Field K]

def mean (l : List K) : K := l.sum / l.length

def squares (l : List K) (a : K) : K := (l.map fun x => (x-a)^2).sum

def deviation (l : List K) : K := squares l (mean l)

def sampleVariance (l : List K) : K := deviation l / (l.length - 1)

theorem mean_perm {l l' : List K} (h : l.Perm l') : mean l = mean l' := by
  rw [mean,mean,h.sum_eq,h.length_eq]

theorem sampleVariance_perm {l l' : List K} (h : l.Perm l') : sampleVariance l = sampleVariance l' := by
  rw [sampleVariance,sampleVariance,deviation,deviation,squares,squares,mean_perm h,h.length_eq,(h.map _).sum_eq]

variable [CharZero K]

theorem length_mul_mean (l : List K) : l.length * mean l = l.sum := by
  cases l with
  | nil => simp
  | cons x l =>
    rw [mean,mul_div_cancel₀]
    exact_mod_cast l.length.succ_ne_zero

private theorem succ_ne_zero (l : List K) : (l.length : K) + 1 ≠ 0 := Nat.cast_add_one_ne_zero l.length

theorem mean_concat (l : List K) (x : K) : mean (l ++ [x]) = shift (mean l) (l.length + 1) x := by
  have hn := succ_ne_zero l
  rw [mean,shift,List.sum_append,List.length_append,List.sum_singleton,List.length_singleton,← length_mul_mean l]
  push_cast
  field_simp
  ring

/-- Distances are least from the mean. -/
theorem squares_eq (l : List K) (a : K) : squares l a = deviation l + l.length * (mean l - a)^2 := by
  have expand (b : K) : squares l b = (l.map (· ^ 2)).sum - 2*b*l.sum + l.length*b^2 := by
    rw [squares]
    induction l with
    | nil => simp
    | cons x l ih =>
      simp only [List.map_cons,List.sum_cons,List.length_cons,ih]
      push_cast
      ring
  rw [deviation,expand,expand]
  linear_combination (2*a - 2*mean l) * length_mul_mean l

theorem deviation_concat (l : List K) (x : K) :
    deviation (l ++ [x]) = deviation l + gain (mean l) (l.length + 1) x := by
  have hn := succ_ne_zero l
  have hsplit : squares (l ++ [x]) (mean (l ++ [x])) = squares l (mean (l ++ [x])) + (x - mean (l ++ [x]))^2 := by
    simp [squares]
  rw [deviation,hsplit,squares_eq,mean_concat,gain,shift]
  field_simp
  ring

end Lists
end Statistics
end Library
end Hotstuff
