import Hotstuff.Library.Statistics
import Mathlib.Algebra.Order.Floor.Ring
import Mathlib.Data.Rat.Floor
import Mathlib.Data.Rat.Sqrt
import Mathlib.Tactic.GCongr
import Mathlib.Tactic.Linarith
import Mathlib.Tactic.NormNum
import Mathlib.Tactic.Positivity

/-! The estimate of how long views last, from which the synchronizer sets its timeouts. Numbers are exact: floats are
rationals, and the counter is the number of measurements, as it is in the source as long as there are fewer than
`2^64`. Times are in nanoseconds, durations in milliseconds. -/
namespace Hotstuff
open Library.Statistics

def quotient (a b : ℚ) : Option ℚ := if b = 0 then none else some (a/b)

def remainder (a b : ℕ) : Option ℕ := if b = 0 then none else some (a%b)

/-- `math.Sqrt`, of which only the sign of its results is known. -/
structure SquareRoot where
  sqrt : ℚ → ℚ
  nonneg : ∀ x, 0 ≤ x → 0 ≤ sqrt x

def SquareRoot.root (R : SquareRoot) (x : ℚ) : Option ℚ := if x < 0 then none else some (R.sqrt x)

/-- `startTime` is `none` before the first view was started. -/
structure ViewDuration where
  mul : ℚ
  limit : ℕ
  count : ℕ
  startTime : Option ℤ
  mean : ℚ
  m2 : ℚ
  prevM2 : ℚ
  max : ℚ
  deriving DecidableEq, Repr

namespace ViewDuration

def new (sampleSize : ℕ) (startTimeout maxTimeout multiplier : ℚ) : ViewDuration :=
  ⟨multiplier,sampleSize,0,none,startTimeout,0,0,maxTimeout⟩

def milliseconds (since : ℤ) : ℚ := since / 10^6

def rotate (v : ViewDuration) : Option ViewDuration :=
  (remainder v.count v.limit).map fun r => if r = 0 then { v with prevM2 := v.m2, m2 := 0 } else v

/-- One measurement is thrown away once there are more than `limit`. What is left counts as the first component. -/
def throwAway (v : ViewDuration) : Option (ℚ × ViewDuration) :=
  if v.limit < v.count then (quotient v.mean v.limit).map fun part => (v.limit,{ v with mean := v.mean - part })
  else some (v.count,v)

def welford (duration c : ℚ) (v : ViewDuration) : Option ViewDuration :=
  let d1 := duration - v.mean
  (quotient d1 c).map fun part =>
    let mean := v.mean + part
    let d2 := duration - mean
    { v with mean := mean, m2 := v.m2 + d1*d2 }

def measure (duration : ℚ) (v : ViewDuration) : Option ViewDuration := do
  let v ← rotate { v with count := v.count + 1 }
  let (c,v) ← throwAway v
  welford duration c v

def viewSucceeded (now : ℤ) (v : ViewDuration) : Option ViewDuration :=
  match v.startTime with
  | none => some v
  | some start => measure (milliseconds (now - start)) v

def viewTimeout (v : ViewDuration) : ViewDuration := { v with mean := v.mean * v.mul }

def viewStarted (now : ℤ) (v : ViewDuration) : ViewDuration := { v with startTime := some now }

variable (R : SquareRoot)

/-- The standard deviation of the measurements since the last but one time that `m2` started over. -/
def deviation (v : ViewDuration) : Option ℚ :=
  if 1 < v.count then
    if v.limit ≤ v.count then do
      let r ← remainder v.count v.limit
      let variance ← quotient (v.m2 + v.prevM2) (v.limit + r)
      R.root variance
    else do
      let variance ← quotient v.m2 v.count
      R.root variance
  else some 0

def truncate (x : ℚ) : ℤ := x.num.tdiv x.den

/-- `Duration` in nanoseconds, during the given view. In every `limit`-th one the estimate is also printed. -/
def duration (view : ℕ) (v : ViewDuration) : Option ℤ := do
  let dev ← deviation R v
  let duration := v.mean + dev*1.96
  let duration := if 0 < v.max ∧ v.max < duration then v.max else duration
  let _ ← remainder view v.limit
  return truncate (duration * 10^6)

inductive Call where
  | viewStarted (now : ℤ)
  | viewSucceeded (now : ℤ)
  | viewTimeout
  deriving DecidableEq, Repr

def step (v : ViewDuration) : Call → Option ViewDuration
  | .viewStarted now => some (v.viewStarted now)
  | .viewSucceeded now => v.viewSucceeded now
  | .viewTimeout => some v.viewTimeout

def run (v : ViewDuration) (calls : List Call) : Option ViewDuration := calls.foldlM step v

/-- The durations that are measured by `calls` if the last view before them began at `start`. -/
def measured : Option ℤ → List Call → List ℚ
  | _, [] => []
  | _, .viewStarted now :: l => measured (some now) l
  | none, .viewSucceeded _ :: l => measured none l
  | some start, .viewSucceeded now :: l => milliseconds (now - start) :: measured (some start) l
  | start, .viewTimeout :: l => measured start l

def Call.time : Call → Option ℤ
  | .viewStarted now | .viewSucceeded now => some now
  | .viewTimeout => none

/-- If the clock does not go backwards no measured duration is negative. -/
theorem measured_nonneg {start : Option ℤ} {calls : List Call} (h : (calls.filterMap Call.time).Pairwise (· ≤ ·))
    (hstart : ∀ t ∈ start, ∀ now ∈ calls.filterMap Call.time, t ≤ now) : ∀ d ∈ measured start calls, 0 ≤ d := by
  fun_induction measured start calls with
  | case1 => simp
  | case2 start now calls ih =>
    obtain ⟨hle,h⟩ := List.pairwise_cons.mp h
    exact ih h fun t ht later hlater => by cases ht; exact hle later hlater
  | case3 now calls ih => exact ih (List.pairwise_cons.mp h).2 (by simp)
  | case4 t now calls ih =>
    obtain ⟨-,h⟩ := List.pairwise_cons.mp h
    have hnow : t ≤ now := hstart t rfl now List.mem_cons_self
    have hd : 0 ≤ milliseconds (now - t) := by
      rw [milliseconds]
      exact div_nonneg (by exact_mod_cast sub_nonneg.mpr hnow) (by norm_num)
    have hrest := ih h fun t' ht later hlater => hstart t' ht later (List.mem_cons_of_mem _ hlater)
    exact List.forall_mem_cons.mpr ⟨hd,hrest⟩
  | case5 start calls ih => exact ih h hstart

section Measure
variable {v : ViewDuration} {d : ℚ}

def window (v : ViewDuration) : ℕ := if v.limit < v.count + 1 then v.limit else v.count + 1

def kept (v : ViewDuration) : ℚ := if v.limit < v.count + 1 then v.mean - v.mean / v.limit else v.mean

theorem window_pos (h : 1 ≤ v.limit) : 1 ≤ v.window := by
  rw [window]
  split_ifs <;> omega

private theorem quotient_cast (x : ℚ) {n : ℕ} (h : 1 ≤ n) : quotient x n = some (x/n) :=
  if_neg (Nat.cast_ne_zero.mpr (by omega))

private theorem remainder_pos (k : ℕ) {n : ℕ} (h : 1 ≤ n) : remainder k n = some (k%n) := if_neg (by omega)

private theorem rotate_eq (h : 1 ≤ v.limit) : rotate v = some { v with
    m2 := if v.count % v.limit = 0 then 0 else v.m2,
    prevM2 := if v.count % v.limit = 0 then v.m2 else v.prevM2 } := by
  rw [rotate,remainder_pos _ h,Option.map_some]
  split_ifs <;> rfl

private theorem throwAway_eq (h : 1 ≤ v.limit) : throwAway v =
    some (if v.limit < v.count then (v.limit : ℚ) else v.count,{ v with
      mean := if v.limit < v.count then v.mean - v.mean / v.limit else v.mean }) := by
  rw [throwAway,quotient_cast _ h]
  split_ifs <;> rfl

private theorem welford_eq {c : ℕ} (hc : 1 ≤ c) (d : ℚ) :
    welford d c v = some { v with mean := shift v.mean c d, m2 := v.m2 + gain v.mean c d } := by
  rw [welford,quotient_cast _ hc]
  rfl

/-- With a sample size of at least one no divisor is 0. -/
theorem measure_eq (h : 1 ≤ v.limit) (d : ℚ) : measure d v = some { v with
    count := v.count + 1,
    mean := shift v.kept v.window d,
    m2 := (if (v.count + 1) % v.limit = 0 then 0 else v.m2) + gain v.kept v.window d,
    prevM2 := if (v.count + 1) % v.limit = 0 then v.m2 else v.prevM2 } := by
  have hwindow : (if v.limit < v.count + 1 then (v.limit : ℚ) else (v.count + 1 : ℕ)) = v.window := by
    rw [window]
    split_ifs <;> rfl
  rw [measure,rotate_eq (by exact h),Option.bind_eq_bind,Option.bind_some,throwAway_eq (by exact h)]
  dsimp only [Option.bind_eq_bind,Option.bind_some]
  rw [hwindow,welford_eq (window_pos h)]
  rfl

end Measure

theorem run_concat {v u : ViewDuration} {calls : List Call} (h : run v calls = some u) (call : Call) :
    run v (calls ++ [call]) = u.step call := by
  rw [run,List.foldlM_append,← run,h,Option.bind_eq_bind,Option.bind_some,List.foldlM_cons]
  exact Option.bind_fun_some _

/-- What holds of the state and the measured durations is kept by a run if the calls keep it. -/
theorem run_rec (P : ViewDuration → List ℚ → Prop) (calls : List Call)
    (hstarted : ∀ v ds now, P v ds → P (v.viewStarted now) ds)
    (htimeout : .viewTimeout ∈ calls → ∀ v ds, P v ds → P v.viewTimeout ds)
    (hmeasure : ∀ v ds d, P v ds → ∃ v', measure d v = some v' ∧ v'.startTime = v.startTime ∧ P v' (ds ++ [d]))
    (v : ViewDuration) (ds : List ℚ) (h : P v ds) :
    ∃ v', run v calls = some v' ∧ P v' (ds ++ measured v.startTime calls) := by
  induction calls generalizing v ds with
  | nil => exact ⟨v,rfl,by simpa [measured] using h⟩
  | cons call calls ih =>
    have ih := ih fun hmem => htimeout (List.mem_cons_of_mem _ hmem)
    cases call with
    | viewStarted now => exact ih _ ds (hstarted v ds now h)
    | viewTimeout =>
      obtain ⟨v',hrun,hP⟩ := ih _ ds (htimeout List.mem_cons_self v ds h)
      refine ⟨v',hrun,?_⟩
      cases hstart : v.startTime <;> simpa [measured,viewTimeout,hstart] using hP
    | viewSucceeded now =>
      cases hstart : v.startTime with
      | none =>
        obtain ⟨v',hrun,hP⟩ := ih v ds h
        refine ⟨v',?_,?_⟩
        · rw [run,List.foldlM_cons,step,viewSucceeded,hstart]
          exact hrun
        · rwa [hstart] at hP
      | some start =>
        obtain ⟨u,hu,hsame,hP⟩ := hmeasure v ds (milliseconds (now - start)) h
        obtain ⟨v',hrun,hP⟩ := ih u _ hP
        refine ⟨v',?_,?_⟩
        · rw [run,List.foldlM_cons,step,viewSucceeded,hstart]
          dsimp only
          rw [hu]
          exact hrun
        · rw [hsame,hstart,List.append_assoc] at hP
          exact hP

section Safety
variable {v : ViewDuration} {d : ℚ}

structure Sound (sampleSize : ℕ) (maxTimeout : ℚ) (v : ViewDuration) : Prop where
  limit : v.limit = sampleSize
  max : v.max = maxTimeout
  mul : 0 ≤ v.mul
  mean : 0 ≤ v.mean
  m2 : 0 ≤ v.m2
  prevM2 : 0 ≤ v.prevM2

theorem kept_nonneg (h : 1 ≤ v.limit) (hmean : 0 ≤ v.mean) : 0 ≤ v.kept := by
  rw [kept]
  split_ifs
  · exact sub_nonneg.mpr (div_le_self hmean (Nat.one_le_cast.mpr h))
  · exact hmean

theorem Sound.measure {sampleSize : ℕ} {maxTimeout : ℚ} (h : Sound sampleSize maxTimeout v) (hs : 1 ≤ sampleSize)
    (hd : 0 ≤ d) {v' : ViewDuration} (hm : measure d v = some v') : Sound sampleSize maxTimeout v' := by
  have hlimit : 1 ≤ v.limit := h.limit ▸ hs
  have hwindow : (1 : ℚ) ≤ v.window := Nat.one_le_cast.mpr (window_pos hlimit)
  rw [measure_eq hlimit,Option.some.injEq] at hm
  subst hm
  refine ⟨h.limit,h.max,h.mul,shift_nonneg hwindow (kept_nonneg hlimit h.mean) hd,?_,?_⟩
  · apply add_nonneg _ (gain_nonneg hwindow)
    split_ifs
    · exact le_rfl
    · exact h.m2
  · dsimp only
    split_ifs
    · exact h.m2
    · exact h.prevM2

theorem Sound.run {sampleSize : ℕ} {maxTimeout : ℚ} (hs : 1 ≤ sampleSize) (h : Sound sampleSize maxTimeout v)
    {calls : List Call} (hd : ∀ d ∈ measured v.startTime calls, 0 ≤ d) :
    ∃ v', run v calls = some v' ∧ v'.count = v.count + (measured v.startTime calls).length ∧
      Sound sampleSize maxTimeout v' := by
  -- the limit alone makes every call return, so that the signs of the durations are only used at the end
  obtain ⟨v',hrun,-,hcount,hsound⟩ := run_rec
    (fun u ds => u.limit = sampleSize ∧ u.count = v.count + ds.length ∧
      ((∀ d ∈ ds, 0 ≤ d) → Sound sampleSize maxTimeout u)) calls
    (fun u ds now hu => ⟨hu.1,hu.2.1,fun hds => { hu.2.2 hds with }⟩)
    (fun _ u ds hu => ⟨hu.1,hu.2.1,fun hds =>
      { hu.2.2 hds with mean := mul_nonneg (hu.2.2 hds).mean (hu.2.2 hds).mul }⟩)
    (by
      rintro u ds d ⟨hlimit,hcount,hu⟩
      have hm := measure_eq (v := u) (hlimit ▸ hs) d
      refine ⟨_,hm,rfl,hlimit,?_,fun hds => ?_⟩
      · rw [List.length_append,List.length_singleton,← Nat.add_assoc,← hcount]
      · have hlast : 0 ≤ d := hds d (List.mem_append_right _ List.mem_cons_self)
        exact (hu fun x hx => hds x (List.mem_append_left _ hx)).measure hs hlast hm)
    v [] ⟨h.limit,rfl,fun _ => h⟩
  exact ⟨v',hrun,hcount,hsound hd⟩

theorem deviation_defined (R : SquareRoot) {sampleSize : ℕ} {maxTimeout : ℚ} (hs : 1 ≤ sampleSize)
    (h : Sound sampleSize maxTimeout v) : ∃ dev, deviation R v = some dev ∧ 0 ≤ dev := by
  have hlimit : 1 ≤ v.limit := h.limit ▸ hs
  have hroot (x : ℚ) (hx : 0 ≤ x) : R.root x = some (R.sqrt x) := if_neg (not_lt.mpr hx)
  rw [deviation]
  split_ifs with hcount hfull
  · have hc : (1 : ℚ) ≤ v.limit + (v.count % v.limit : ℕ) := by
      exact_mod_cast hlimit.trans (Nat.le_add_right _ _)
    have hvar : 0 ≤ (v.m2 + v.prevM2) / (v.limit + (v.count % v.limit : ℕ)) :=
      div_nonneg (add_nonneg h.m2 h.prevM2) (zero_le_one.trans hc)
    have hne : (v.limit : ℚ) + (v.count % v.limit : ℕ) ≠ 0 := (zero_lt_one.trans_le hc).ne'
    refine ⟨_,?_,R.nonneg _ hvar⟩
    rw [remainder_pos _ hlimit,Option.bind_eq_bind,Option.bind_some,quotient,if_neg hne,Option.bind_eq_bind,
      Option.bind_some,hroot _ hvar]
  · have hvar : 0 ≤ v.m2 / v.count := div_nonneg h.m2 (Nat.cast_nonneg _)
    refine ⟨_,?_,R.nonneg _ hvar⟩
    rw [quotient_cast _ (by omega),Option.bind_eq_bind,Option.bind_some,hroot _ hvar]
  · exact ⟨0,rfl,le_rfl⟩

theorem truncate_of_nonneg {x : ℚ} (hx : 0 ≤ x) : 0 ≤ truncate x ∧ (truncate x : ℚ) ≤ x := by
  have he : truncate x = ⌊x⌋ := by
    rw [truncate,Int.tdiv_eq_ediv_of_nonneg (Rat.num_nonneg.mpr hx),Rat.floor_def']
  rw [he]
  exact ⟨Int.floor_nonneg.mpr hx,Int.floor_le x⟩

theorem new_sound (sampleSize : ℕ) {startTimeout multiplier : ℚ} (ht : 0 ≤ startTimeout) (hm : 0 ≤ multiplier)
    (maxTimeout : ℚ) : Sound sampleSize maxTimeout (new sampleSize startTimeout maxTimeout multiplier) :=
  ⟨rfl,rfl,hm,ht,le_rfl,le_rfl⟩

theorem Sound.duration (R : SquareRoot) {sampleSize : ℕ} {maxTimeout : ℚ} (hs : 1 ≤ sampleSize)
    (h : Sound sampleSize maxTimeout v) (view : ℕ) :
    ∃ t, duration R view v = some t ∧ 0 ≤ t ∧ (0 < maxTimeout → (t : ℚ) ≤ maxTimeout * 10^6) := by
  obtain ⟨dev,hdev,hpos⟩ := deviation_defined R hs h
  have hsum : 0 ≤ v.mean + dev*1.96 := add_nonneg h.mean (mul_nonneg hpos (by norm_num))
  -- the bound in milliseconds, before the conversion
  obtain ⟨x,hx,hx0,hxmax⟩ : ∃ x, (if 0 < v.max ∧ v.max < v.mean + dev*1.96 then v.max else v.mean + dev*1.96) = x ∧
      0 ≤ x ∧ (0 < maxTimeout → x ≤ maxTimeout) := by
    refine ⟨_,rfl,?_⟩
    split_ifs with hcut
    · exact ⟨hcut.1.le,fun _ => h.max.le⟩
    · refine ⟨hsum,fun hmax => ?_⟩
      rw [h.max] at hcut
      exact not_lt.mp fun hlt => hcut ⟨hmax,hlt⟩
  have hnano : 0 ≤ x * 10^6 := by positivity
  obtain ⟨htrunc,hle⟩ := truncate_of_nonneg hnano
  refine ⟨truncate (x * 10^6),?_,htrunc,?_⟩
  · rw [ViewDuration.duration,hdev,remainder_pos _ (h.limit ▸ hs)]
    exact congrArg (fun x => some (truncate (x * 10^6))) hx
  · intro hmax
    apply hle.trans
    have hbound := hxmax hmax
    gcongr

def rationalRoot : SquareRoot where
  sqrt := Rat.sqrt
  nonneg x _ := Rat.sqrt_nonneg x

end Safety

section Mean
variable {v : ViewDuration}

theorem measure_within {ds : List ℚ} (h : 1 ≤ v.limit) (hcount : v.count = ds.length)
    (hfew : v.count < v.limit ∨ v.limit = 1) (hds : ds = [] ∨ Within ds v.mean) (d : ℚ) :
    Within (ds ++ [d]) (shift v.kept v.window d) := by
  by_cases hone : v.window = 1
  · -- the old mean does not count
    rw [hone,Nat.cast_one,shift_one]
    exact ⟨d,by simp,d,by simp,le_rfl,le_rfl⟩
  have hlimit : ¬ v.limit < v.count + 1 := by
    intro hlt
    rw [window,if_pos hlt] at hone
    omega
  have hne : ds ≠ [] := by
    rintro rfl
    rw [window,if_neg hlimit,hcount] at hone
    exact hone rfl
  rw [kept,if_neg hlimit]
  exact (hds.resolve_left hne).shift (Nat.one_le_cast.mpr (window_pos h)) d

/-- As long as nothing is thrown away, or all but the last measurement is. -/
theorem run_within {sampleSize : ℕ} (hs : 1 ≤ sampleSize) (startTimeout maxTimeout multiplier : ℚ) {calls : List Call}
    (hcalls : .viewTimeout ∉ calls) (hne : measured none calls ≠ [])
    (hfew : (measured none calls).length ≤ sampleSize ∨ sampleSize = 1) :
    ∃ v, run (new sampleSize startTimeout maxTimeout multiplier) calls = some v ∧
      Within (measured none calls) v.mean := by
  obtain ⟨v,hrun,-,-,hmean⟩ := run_rec
    (fun v ds => v.limit = sampleSize ∧ v.count = ds.length ∧
      (ds.length ≤ sampleSize ∨ sampleSize = 1 → ds = [] ∨ Within ds v.mean)) calls
    (fun v ds now hv => hv)
    (fun htimeout => absurd htimeout hcalls)
    (by
      rintro v ds d ⟨hlimit,hcount,hmean⟩
      have hpos : 1 ≤ v.limit := hlimit ▸ hs
      refine ⟨_,measure_eq hpos d,rfl,hlimit,by simp [hcount],fun hfew => .inr ?_⟩
      rw [List.length_append,List.length_singleton] at hfew
      apply measure_within hpos hcount
      · omega
      · exact hmean (by omega))
    (new sampleSize startTimeout maxTimeout multiplier) [] ⟨rfl,rfl,fun _ => .inl rfl⟩
  exact ⟨v,hrun,(hmean hfew).resolve_left hne⟩

def constant (n : ℕ) : List Call := .viewStarted 0 :: List.replicate n (.viewSucceeded (10^6))

private theorem milliseconds_million : milliseconds (10^6 - 0) = 1 := by norm_num [milliseconds]

theorem measured_constant (n : ℕ) : measured none (constant n) = List.replicate n 1 := by
  rw [constant,measured]
  induction n with
  | zero => rfl
  | succ n ih => rw [List.replicate_succ,measured,ih,milliseconds_million,List.replicate_succ]

private theorem shift_lt_one {μ : ℚ} {c : ℕ} (hc : 2 ≤ c) (hμ : μ ≤ 1) : shift (μ - μ/c) c 1 < 1 := by
  have hc' : (2 : ℚ) ≤ c := by exact_mod_cast hc
  have hinv : 0 < (c : ℚ)⁻¹ := inv_pos.mpr (by linarith)
  have hhalf : (c : ℚ)⁻¹ < 1 := inv_lt_one_of_one_lt₀ (by linarith)
  have hkept : μ - μ/c ≤ 1 - (c : ℚ)⁻¹ := by
    rw [div_eq_mul_inv]
    nlinarith
  rw [shift_eq]
  nlinarith

/-- Equal measurements beyond the sample size pull the mean below all of them. -/
theorem run_constant {sampleSize : ℕ} (hs : 2 ≤ sampleSize) (startTimeout maxTimeout multiplier : ℚ) (n : ℕ) :
    ∃ v, run (new sampleSize startTimeout maxTimeout multiplier) (constant n) = some v ∧
      v.limit = sampleSize ∧ v.count = n ∧ v.startTime = some 0 ∧ (1 ≤ n → v.mean ≤ 1) ∧
      (sampleSize < n → v.mean < 1) := by
  induction n with
  | zero => exact ⟨_,rfl,rfl,rfl,rfl,by simp,by simp⟩
  | succ n ih =>
    obtain ⟨v,hv,hlimit,hcount,hstart,hle,hlt⟩ := ih
    have hpos : 1 ≤ v.limit := by omega
    have hrun : run (new sampleSize startTimeout maxTimeout multiplier) (constant (n+1)) = measure 1 v := by
      rw [constant,List.replicate_succ',← List.cons_append,← constant,run_concat hv,step,viewSucceeded,hstart]
      exact congrArg (measure · v) milliseconds_million
    rw [measure_eq hpos] at hrun
    refine ⟨_,hrun,hlimit,congrArg (· + 1) hcount,hstart,?_⟩
    dsimp only
    rw [kept,window,hlimit,hcount]
    split_ifs with hfull
    · have hmean := shift_lt_one hs (hle (by omega))
      exact ⟨fun _ => hmean.le,fun _ => hmean⟩
    · refine ⟨fun _ => ?_,fun hlt => absurd hlt hfull⟩
      rcases Nat.eq_zero_or_pos n with rfl | hn
      · rw [Nat.zero_add,Nat.cast_one,shift_one]
      · have hmem := shift_mem (a := v.mean) (b := 1) (Nat.one_le_cast.mpr n.succ_pos) ⟨le_rfl,hle hn⟩ ⟨hle hn,le_rfl⟩
        exact hmem.2

/-- The mean lies between the smallest and the largest of `n` measured durations, whatever these are, exactly if
there are no more than the sample size, or this is 1. -/
theorem mean_within_iff {sampleSize n : ℕ} (hs : 1 ≤ sampleSize) (hn : 1 ≤ n)
    (startTimeout maxTimeout multiplier : ℚ) :
    (∀ calls, .viewTimeout ∉ calls → (measured none calls).length = n →
      ∃ v, run (new sampleSize startTimeout maxTimeout multiplier) calls = some v ∧
        Within (measured none calls) v.mean) ↔
    n ≤ sampleSize ∨ sampleSize = 1 := by
  constructor
  · intro hall
    by_contra hmany
    have hsize : 2 ≤ sampleSize := by omega
    obtain ⟨v,hv,-,-,-,-,hlt⟩ := run_constant hsize startTimeout maxTimeout multiplier n
    obtain ⟨v',hv',lo,hlo,-,-,hle,-⟩ := hall (constant n) (by simp [constant]) (by simp [measured_constant])
    cases hv.symm.trans hv'
    rw [measured_constant] at hlo
    rw [List.eq_of_mem_replicate hlo] at hle
    exact absurd (hlt (by omega)) (not_lt.mpr hle)
  · intro hfew calls hcalls hlen
    apply run_within hs _ _ _ hcalls
    · rw [← List.length_pos_iff,hlen]
      exact hn
    · rwa [hlen]

theorem mean_within_three : ∃ v, run (new 5 100 0 2) (constant 3) = some v ∧
    Within (measured none (constant 3)) v.mean :=
  (mean_within_iff (by decide) (by decide) 100 0 2).mpr (.inl (by decide : 3 ≤ 5)) (constant 3) (by decide)
    (by simp [measured_constant])

/-- Three views of one millisecond each, with a sample size of two: the mean is three quarters of that. -/
theorem mean_below_all : .viewTimeout ∉ constant 3 ∧ measured none (constant 3) = [1,1,1] ∧
    ∃ v, run (new 2 100 0 2) (constant 3) = some v ∧ v.mean = 3/4 ∧ ¬ Within [1,1,1] v.mean := by
  have hrun : (run (new 2 100 0 2) (constant 3)).map mean = some (3/4) := by decide +kernel
  obtain ⟨v,hv,hmean⟩ := Option.map_eq_some_iff.mp hrun
  refine ⟨by decide,measured_constant 3,v,hv,hmean,?_⟩
  rintro ⟨lo,hlo,-,-,hle,-⟩
  rw [List.eq_of_mem_replicate (n := 3) hlo,hmean] at hle
  norm_num at hle

end Mean
end ViewDuration
end Hotstuff
