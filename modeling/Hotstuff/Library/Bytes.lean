import Mathlib.Tactic

/-! Fixed-width little-endian and minimal big-endian byte strings of naturals. -/
namespace Hotstuff.Library

def leBytes : Nat → Nat → List UInt8
  | 0, _ => []
  | k+1, n => UInt8.ofNat n :: leBytes k (n/256)

def leValue : List UInt8 → Nat
  | [] => 0
  | b :: l => b.toNat + 256 * leValue l

@[simp] theorem length_leBytes (k n : Nat) : (leBytes k n).length = k := by
  induction k generalizing n with
  | zero => rfl
  | succ k ih => simp [leBytes,ih]

theorem leValue_leBytes (k n : Nat) (h : n < 256^k) : leValue (leBytes k n) = n := by
  induction k generalizing n with
  | zero => simp at h; simp [leBytes,leValue,h]
  | succ k ih =>
    have hd : n/256 < 256^k := by
      rw [Nat.pow_succ] at h
      exact Nat.div_lt_of_lt_mul (by rwa [Nat.mul_comm])
    simp only [leBytes,leValue,ih _ hd,UInt8.toNat_ofNat']
    omega

/-- A fixed width loses nothing below its bound. -/
theorem leBytes_inj {k m n : Nat} (hm : m < 256^k) (hn : n < 256^k)
    (h : leBytes k m = leBytes k n) : m = n := by
  rw [← leValue_leBytes k m hm,← leValue_leBytes k n hn,h]

/-- A fixed-width field can be split off the front of a byte string. -/
theorem leBytes_append_inj {k m n : Nat} {x y : List UInt8} (hm : m < 256^k) (hn : n < 256^k)
    (h : leBytes k m ++ x = leBytes k n ++ y) : m = n ∧ x = y := by
  obtain ⟨hb,hx⟩ := List.append_inj h (by simp)
  exact ⟨leBytes_inj hm hn hb,hx⟩

private def beAux : Nat → Nat → List UInt8 → List UInt8
  | 0, _, acc => acc
  | _+1, 0, acc => acc
  | f+1, n+1, acc => beAux f ((n+1)/256) (UInt8.ofNat (n+1) :: acc)

/-- Big-endian bytes without leading zeros; zero has no bytes at all. -/
def beBytes (n : Nat) : List UInt8 := beAux n n []

def beValue (l : List UInt8) : Nat := l.foldl (fun a b => 256*a + b.toNat) 0

private theorem beValue_cons (b : UInt8) (l : List UInt8) :
    beValue (b :: l) = b.toNat * 256^l.length + beValue l := by
  have go (l : List UInt8) (a : Nat) :
      l.foldl (fun a b => 256*a + b.toNat) a = a * 256^l.length + beValue l := by
    induction l generalizing a with
    | nil => simp [beValue]
    | cons c l ih =>
      have hc : beValue (c :: l) = (256*0 + c.toNat) * 256^l.length + beValue l := ih _
      rw [List.foldl_cons,ih,hc,List.length_cons]
      ring
  rw [beValue,List.foldl_cons,go]
  simp

private theorem beAux_value (f n : Nat) (acc : List UInt8) (h : n ≤ f) :
    beValue (beAux f n acc) = n * 256^acc.length + beValue acc := by
  induction f generalizing n acc with
  | zero => simp [beAux,Nat.le_zero.mp h]
  | succ f ih =>
    cases n with
    | zero => simp [beAux]
    | succ n =>
      have hm : (UInt8.ofNat (n+1)).toNat = (n+1)%256 := by simp
      have hs : (n+1)/256 * 256 + (n+1)%256 = n+1 := Nat.div_add_mod' _ _
      rw [beAux,ih _ _ (by omega),List.length_cons,beValue_cons,hm]
      calc (n+1)/256 * 256^(acc.length+1) + ((n+1)%256 * 256^acc.length + beValue acc)
          = ((n+1)/256 * 256 + (n+1)%256) * 256^acc.length + beValue acc := by ring
        _ = (n+1) * 256^acc.length + beValue acc := by rw [hs]

theorem beValue_beBytes (n : Nat) : beValue (beBytes n) = n := by
  have h := beAux_value n n [] le_rfl
  simpa [beValue,beBytes] using h

theorem beBytes_injective : Function.Injective beBytes :=
  Function.LeftInverse.injective beValue_beBytes

end Hotstuff.Library
