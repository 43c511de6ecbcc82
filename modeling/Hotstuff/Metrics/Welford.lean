import Hotstuff.Library.Statistics
import Hotstuff.Metrics.Types
import Mathlib.Algebra.Order.Ring.Rat
import Mathlib.Data.List.Induction
import Mathlib.Tactic.NormNum

/-! Streaming mean and variance, and the latency metric of a client that is computed with them. Numbers are exact:
floats are rationals, and the counter is the number of values, as it is in the source as long as there are fewer than
`2^64`. -/
namespace Hotstuff
namespace Metrics
open Library Library.Statistics

structure Welford where
  mean : ℚ
  m2 : ℚ
  count : ℕ
  deriving DecidableEq, Repr

namespace Welford

def update (w : Welford) (val : ℚ) : Welford :=
  let count := w.count + 1
  let delta := val - w.mean
  let mean := w.mean + delta / count
  let delta2 := val - mean
  ⟨mean,w.m2 + delta*delta2,count⟩

def get (w : Welford) : ℚ × Option ℚ × ℕ :=
  if w.count < 2 then (w.mean,none,w.count) else (w.mean,some (w.m2 / (w.count - 1 : ℕ)),w.count)

def reset (_ : Welford) : Welford := ⟨0,0,0⟩

theorem update_eq (w : Welford) (val : ℚ) : w.update val =
    ⟨shift w.mean (w.count + 1) val,w.m2 + gain w.mean (w.count + 1) val,w.count + 1⟩ := by
  simp only [update,shift,gain,Nat.cast_add,Nat.cast_one]

/-- The state holds the mean of all values, their squared deviations from it, and their number. -/
theorem foldl_update (w : Welford) (l : List ℚ) :
    l.foldl update w.reset = ⟨Statistics.mean l,deviation l,l.length⟩ := by
  induction l using List.reverseRecOn with
  | nil => simp [reset,Statistics.mean,deviation,squares]
  | append_singleton l x ih =>
    rw [List.foldl_append,ih,List.foldl_cons,List.foldl_nil,update_eq,mean_concat,deviation_concat,
      List.length_append,List.length_singleton]

def summary (l : List ℚ) : ℚ × Option ℚ × ℕ :=
  (Statistics.mean l,if l.length < 2 then none else some (sampleVariance l),l.length)

theorem get_foldl_update (w : Welford) (l : List ℚ) : (l.foldl update w.reset).get = summary l := by
  rw [foldl_update,get,summary]
  split_ifs with hl
  · rfl
  · rw [sampleVariance,Nat.cast_sub (by omega),Nat.cast_one]

theorem summary_perm {l l' : List ℚ} (h : l.Perm l') : summary l = summary l' := by
  rw [summary,summary,mean_perm h,sampleVariance_perm h,h.length_eq]

end Welford

inductive LatencyInput where
  | latency (nanoseconds : ℤ)
  | tick (now : ℤ)
  deriving DecidableEq, Repr

structure ClientLatency where
  id : UInt32
  wf : Welford

namespace ClientLatency

def millis (latency : ℤ) : ℚ := latency / 10^6

def addLatency (latency : ℤ) (lr : ClientLatency) : ClientLatency := { lr with wf := lr.wf.update (millis latency) }

def measurement (id : UInt32) (now : ℤ) (stats : ℚ × Option ℚ × ℕ) : LatencyMeasurement :=
  ⟨newClientEvent id now,stats.1,stats.2.1,stats.2.2⟩

def tick (now : ℤ) (lr : ClientLatency) : LatencyMeasurement × ClientLatency :=
  (measurement lr.id now lr.wf.get,{ lr with wf := lr.wf.reset })

def run : ClientLatency → List LatencyInput → List LatencyMeasurement
  | _, [] => []
  | lr, .latency d :: l => run (lr.addLatency d) l
  | lr, .tick now :: l => (lr.tick now).1 :: run (lr.tick now).2 l

/-- The latencies up to each tick and since the one before, with the time of the tick. Those in `current` came first. -/
def periods : List ℤ → List LatencyInput → List (List ℤ × ℤ)
  | _, [] => []
  | current, .latency d :: l => periods (current ++ [d]) l
  | current, .tick now :: l => (current,now) :: periods [] l

/-- Each tick logs the statistics of the latencies since the tick before. -/
theorem run_eq (id : UInt32) (w : Welford) (current : List ℤ) (l : List LatencyInput) :
    run ⟨id,(current.map millis).foldl Welford.update w.reset⟩ l =
      (periods current l).map (fun p => measurement id p.2 (Welford.summary (p.1.map millis))) := by
  induction l generalizing w current with
  | nil => rfl
  | cons input l ih =>
    cases input with
    | latency d =>
      rw [run,periods,← ih w]
      simp [addLatency]
    | tick now =>
      rw [run,periods,tick,List.map_cons,Welford.get_foldl_update]
      exact congrArg _ (ih _ [])

end ClientLatency
end Metrics
end Hotstuff
