import Hotstuff.Metrics.Grouping

/-! The plotters that group what a metrics log holds: throughput, client latency, and one against the other. They are
fed with all messages of the log. -/
namespace Hotstuff
namespace Metrics

/-- The fields of all three plotters. -/
structure Plot where
  startTimes : StartTimes
  measurements : MeasurementMap

namespace Plot

def new : Plot := ⟨.new,.new⟩

def add (collects : Measurement → Bool) (measurement : Option Measurement) (p : Plot) : Plot where
  startTimes := p.startTimes.add measurement
  measurements := (measurement.filter collects).elim p.measurements p.measurements.add

end Plot

def ThroughputPlot.collects : Measurement → Bool
  | .throughput event => !event.client
  | _ => false

def ClientLatencyPlot.collects : Measurement → Bool
  | .latency m => m.event.client
  | _ => false

def ThroughputVSLatencyPlot.collects : Measurement → Bool
  | .latency m => m.event.client
  | .throughput event => !event.client
  | _ => true

inductive Plotter where
  | throughput
  | clientLatency
  | throughputVSLatency
  deriving DecidableEq, Repr

namespace Plotter

def collects : Plotter → Measurement → Bool
  | .throughput => ThroughputPlot.collects
  | .clientLatency => ClientLatencyPlot.collects
  | .throughputVSLatency => ThroughputVSLatencyPlot.collects

def add (plotter : Plotter) : Option Measurement → Plot → Plot := Plot.add plotter.collects

def readAll (plotter : Plotter) (msgs : List (Option Measurement)) : Plot :=
  msgs.foldl (fun p msg => plotter.add msg p) .new

variable {plotter : Plotter} {msgs : List (Option Measurement)} {p : Plot}

private theorem startTimes_add {msg : Option Measurement} {id : UInt32} :
    ((plotter.add msg p).startTimes.clients id).isSome ↔
      (p.startTimes.clients id).isSome ∨
        ∃ event, msg = some (.startEvent event) ∧ event.client = true ∧ event.id = id := by
  rw [add,Plot.add,StartTimes.add.eq_def]
  rcases msg with _ | (event | event | m | event)
  case some.startEvent =>
    dsimp only
    cases hclient : event.client with
    | false => simp [hclient]
    | true =>
      by_cases hid : id = event.id
      · subst hid
        simp [hclient]
      · simp [Function.update_of_ne hid,Ne.symm hid]
  all_goals simp

private theorem mem_measurements_add {msg : Option Measurement} {x : Measurement} :
    x ∈ (plotter.add msg p).measurements.all ↔
      x ∈ p.measurements.all ∨ (msg = some x ∧ plotter.collects x = true) := by
  rw [add,Plot.add]
  cases msg with
  | none => simp
  | some m =>
    cases hm : plotter.collects m with
    | false =>
      rw [Option.filter_some_neg (by simp [hm]),Option.elim_none]
      refine (or_iff_left ?_).symm
      rintro ⟨heq,hx⟩
      cases heq
      rw [hm] at hx
      cases hx
    | true =>
      rw [Option.filter_some_pos hm,Option.elim_some,MeasurementMap.mem_all_add,Option.some.injEq]
      refine or_congr_right ⟨?_,fun h => h.1.symm⟩
      rintro rfl
      exact ⟨rfl,hm⟩

private theorem foldl_spec : (∀ id, ((msgs.foldl (fun p msg => plotter.add msg p) p).startTimes.clients id).isSome ↔
      (p.startTimes.clients id).isSome ∨
        ∃ event, some (.startEvent event) ∈ msgs ∧ event.client = true ∧ event.id = id) ∧
    ∀ x, x ∈ (msgs.foldl (fun p msg => plotter.add msg p) p).measurements.all ↔
      x ∈ p.measurements.all ∨ (some x ∈ msgs ∧ plotter.collects x = true) := by
  induction msgs generalizing p with
  | nil => simp
  | cons msg msgs ih =>
    obtain ⟨hstart,hmem⟩ := @ih (plotter.add msg p)
    constructor
    · intro id
      rw [List.foldl_cons,hstart id,startTimes_add,or_assoc,← exists_or]
      simp only [List.mem_cons,or_and_right,eq_comm (a := msg)]
    · intro x
      rw [List.foldl_cons,hmem x,mem_measurements_add,or_assoc,← or_and_right,List.mem_cons,eq_comm]

/-- The start of a client is known once its start event has been read. -/
theorem client_known_iff {id : UInt32} : ((plotter.readAll msgs).startTimes.clients id).isSome ↔
    ∃ event, some (.startEvent event) ∈ msgs ∧ event.client = true ∧ event.id = id :=
  (foldl_spec.1 id).trans (or_iff_right (by simp [Plot.new,StartTimes.new]))

/-- A plotter has the messages of the log that it collects. -/
theorem mem_measurements_iff {x : Measurement} :
    x ∈ (plotter.readAll msgs).measurements.all ↔ some x ∈ msgs ∧ plotter.collects x = true :=
  (foldl_spec.2 x).trans (or_iff_right (by simp [Plot.new,MeasurementMap.new,MeasurementMap.all]))

/-- Grouping what a plotter has collected terminates exactly if for every measurement, also of a replica, a client with
its ID has started and an interval ends after the offset from that. -/
theorem grouping_terminates_iff (plotter : Plotter) (msgs : List (Option Measurement)) (interval : ℤ) :
    (∀ order : Order (plotter.readAll msgs).measurements, ∃ fuel groups,
      groupByTimeInterval (plotter.readAll msgs).startTimes interval order fuel = some groups) ↔
    ∀ m, some m ∈ msgs → plotter.collects m = true →
      (∃ event, some (.startEvent event) ∈ msgs ∧ event.client = true ∧ event.id = m.event.id) ∧
      ∀ t, (plotter.readAll msgs).startTimes.offset m = some t → ∃ k : ℕ, t < wrap (k*interval) := by
  have hoffset (m : Measurement) : (∃ event, some (.startEvent event) ∈ msgs ∧ event.client = true ∧
      event.id = m.event.id) ↔ ∃ t, (plotter.readAll msgs).startTimes.offset m = some t := by
    rw [← client_known_iff,← Option.isSome_iff_exists,StartTimes.offset,StartTimes.clientOffset,Option.isSome_map]
  rw [terminates_iff]
  constructor
  · intro h m hm hcollects
    obtain ⟨t,ht,hend⟩ := h m (mem_measurements_iff.mpr ⟨hm,hcollects⟩)
    refine ⟨(hoffset m).mpr ⟨t,ht⟩,fun u hu => ?_⟩
    cases ht.symm.trans hu
    exact hend
  · intro h m hm
    obtain ⟨hm,hcollects⟩ := mem_measurements_iff.mp hm
    obtain ⟨hstart,hend⟩ := h m hm hcollects
    obtain ⟨t,ht⟩ := (hoffset m).mp hstart
    exact ⟨t,ht,hend t ht⟩

end Plotter

namespace Sample

def replicaLog : List (Option Measurement) :=
  [some (.startEvent (newReplicaEvent 1 0)),some (.throughput (newReplicaEvent 1 1))]

/-- Without a client the throughput of a replica is never grouped. -/
theorem grouping_never_ends :
    (Plotter.throughput.readAll replicaLog).measurements.all = [.throughput (newReplicaEvent 1 1)] ∧
    ∀ fuel, groupByTimeInterval (Plotter.throughput.readAll replicaLog).startTimes 1000000000
      (.same (Plotter.throughput.readAll replicaLog).measurements) fuel = none := by
  have hmem : .throughput (newReplicaEvent 1 1) ∈ (Plotter.throughput.readAll replicaLog).measurements.all :=
    Plotter.mem_measurements_iff.mpr ⟨by simp [replicaLog],rfl⟩
  exact ⟨rfl,groups_none hmem fun _ => rfl⟩

end Sample
end Metrics
end Hotstuff
