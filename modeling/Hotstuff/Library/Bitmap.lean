import Mathlib.Data.List.Range
import Mathlib.Data.Nat.Bitwise
import Mathlib.Tactic.Common

/-! Byte strings as sets of numbers: number `i` is in the set if bit `i%8` of byte `i/8` is set. -/
namespace Hotstuff.Library

/-- All bits past the end are zero. -/
def bit (l : List UInt8) (i : Nat) : Bool := (l[i/8]?.getD 0).toNat.testBit (i%8)

def mask (k : Nat) : UInt8 := UInt8.ofNat (2^k)

theorem toNat_mask {k : Nat} (h : k < 8) : (mask k).toNat = 2^k := by
  have hlt : 2^k < 2^8 := Nat.pow_lt_pow_right (by decide) h
  exact UInt8.toNat_ofNat_of_lt hlt

theorem or_mask {k : Nat} (h : k < 8) (b : UInt8) (j : Nat) :
    (b ||| mask k).toNat.testBit j = (decide (k = j) || b.toNat.testBit j) := by
  rw [UInt8.toNat_or,toNat_mask h,Nat.testBit_or,Nat.testBit_two_pow,Bool.or_comm]

theorem and_mask_ne_zero {k : Nat} (h : k < 8) (b : UInt8) : b &&& mask k ≠ 0 ↔ b.toNat.testBit k = true := by
  rw [Ne,← UInt8.toNat_inj,UInt8.toNat_and,toNat_mask h,Nat.and_two_pow]
  cases b.toNat.testBit k <;> simp

theorem lt_of_bit {l : List UInt8} {i : Nat} (h : bit l i = true) : i < 8*l.length := by
  by_contra hi
  have hnone : l[i/8]? = none := List.getElem?_eq_none (by omega)
  simp [bit,hnone] at h

theorem bit_append_zeros (l : List UInt8) (n i : Nat) : bit (l ++ List.replicate n 0) i = bit l i := by
  rw [bit,bit]
  by_cases hi : i/8 < l.length
  · rw [List.getElem?_append_left hi]
  · rw [List.getElem?_append_right (by omega),List.getElem?_replicate,List.getElem?_eq_none (by omega)]
    split_ifs <;> rfl

/-- Setting a bit adds one number and keeps all others. -/
theorem bit_set {l : List UInt8} {i : Nat} {b : UInt8} (hb : l[i/8]? = some b) (j : Nat) :
    bit (l.set (i/8) (b ||| mask (i%8))) j = (decide (i = j) || bit l j) := by
  have hlt : i/8 < l.length := (List.getElem?_eq_some_iff.mp hb).1
  rw [bit,bit]
  by_cases hbyte : i/8 = j/8
  · have hij : i%8 = j%8 ↔ i = j := by omega
    rw [← hbyte,List.getElem?_set_self hlt,hb,Option.getD_some,Option.getD_some,or_mask (Nat.mod_lt i (by decide))]
    simp only [hij]
  · have hij : i ≠ j := fun h => hbyte (congrArg (· / 8) h)
    rw [List.getElem?_set_ne hbyte,decide_eq_false hij,Bool.false_or]

def ones (l : List UInt8) : List Nat := (List.range (8*l.length)).filter (bit l)

theorem mem_ones {l : List UInt8} {i : Nat} : i ∈ ones l ↔ bit l i = true := by
  rw [ones,List.mem_filter,List.mem_range]
  exact ⟨And.right,fun h => ⟨lt_of_bit h,h⟩⟩

theorem ones_sorted (l : List UInt8) : (ones l).Pairwise (· < ·) := List.pairwise_lt_range.filter _

/-- A range is passed through block by block. -/
theorem range_mul_eq_flatMap (k n : Nat) :
    List.range (k*n) = (List.range n).flatMap fun b => (List.range k).map (k*b + ·) := by
  induction n with
  | zero => rfl
  | succ n ih =>
    rw [Nat.mul_succ,List.range_add,ih,List.range_succ,List.flatMap_append,List.flatMap_singleton]

end Hotstuff.Library
