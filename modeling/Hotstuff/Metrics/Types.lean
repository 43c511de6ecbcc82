import Mathlib.Data.Rat.Defs

/-! The messages that replicas and clients write to their metrics log. -/
namespace Hotstuff
namespace Metrics

structure Event where
  id : UInt32
  client : Bool
  timestamp : ℤ
  deriving DecidableEq, Repr

def newReplicaEvent (id : UInt32) (timestamp : ℤ) : Event := ⟨id,false,timestamp⟩

def newClientEvent (id : UInt32) (timestamp : ℤ) : Event := ⟨id,true,timestamp⟩

/-- The variance is `none` where it is not a number. -/
structure LatencyMeasurement where
  event : Event
  latency : ℚ
  variance : Option ℚ
  count : ℕ
  deriving DecidableEq, Repr

inductive Measurement where
  | startEvent (event : Event)
  | throughput (event : Event)
  | latency (m : LatencyMeasurement)
  | viewTimeouts (event : Event)
  deriving DecidableEq, Repr

def Measurement.event : Measurement → Event
  | .startEvent event | .throughput event | .viewTimeouts event => event
  | .latency m => m.event

end Metrics
end Hotstuff
