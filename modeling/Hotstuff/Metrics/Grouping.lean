import Hotstuff.Library.Cursors
import Hotstuff.Metrics.Types
import Mathlib.Data.Int.LeastGreatest
import Mathlib.Data.Int.Order.Lemmas
import Mathlib.Tactic.Linarith
import Mathlib.Tactic.NormNum

/-! How the plotters sort measurements into intervals of time. The cursors into the lists of measurements are addressed
by the position at which a Go map is iterated, and the order of that may differ from pass to pass. Times and durations
are in nanoseconds. A duration has 64 bits. -/
namespace Hotstuff
namespace Metrics
open Library

structure StartTimes where
  clients : UInt32 → Option ℤ
  replicas : UInt32 → Option ℤ

namespace StartTimes

def new : StartTimes := ⟨fun _ => none,fun _ => none⟩

def add (msg : Option Measurement) (s : StartTimes) : StartTimes :=
  match msg with
  | some (.startEvent event) =>
    if event.client then { s with clients := Function.update s.clients event.id (some event.timestamp) }
    else { s with replicas := Function.update s.replicas event.id (some event.timestamp) }
  | _ => s

/-- `Time.Sub`, which returns the nearest duration there is. -/
def sub (t start : ℤ) : ℤ := max (-2^63) (min (2^63-1) (t - start))

def clientOffset (s : StartTimes) (id : UInt32) (t : ℤ) : Option ℤ := (s.clients id).map (sub t)

def offset (s : StartTimes) (m : Measurement) : Option ℤ := s.clientOffset m.event.id m.event.timestamp

def within (s : StartTimes) (finish : ℤ) (m : Measurement) : Bool := (s.offset m).any (fun t => t < finish)

theorem within_iff {s : StartTimes} {finish : ℤ} {m : Measurement} :
    s.within finish m = true ↔ ∃ t, s.offset m = some t ∧ t < finish := by
  rw [within,Option.any_eq_true]
  simp only [decide_eq_true_eq]

theorem within_mono {s : StartTimes} {a b : ℤ} (hab : a ≤ b) {m : Measurement} (h : s.within a m = true) :
    s.within b m = true := by
  obtain ⟨t,ht,hlt⟩ := within_iff.mp h
  exact within_iff.mpr ⟨t,ht,hlt.trans_le hab⟩

private theorem sub_mono {t u : ℤ} (h : t ≤ u) (start : ℤ) : sub t start ≤ sub u start := by
  rw [sub,sub]
  omega

/-- Of two measurements of one ID the earlier one is in the interval if the later one is. -/
theorem within_earlier {s : StartTimes} {finish : ℤ} {m m' : Measurement} (hid : m.event.id = m'.event.id)
    (hle : m.event.timestamp ≤ m'.event.timestamp) (h : s.within finish m' = true) : s.within finish m = true := by
  obtain ⟨t,ht,hlt⟩ := within_iff.mp h
  obtain ⟨start,hstart,rfl⟩ := Option.map_eq_some_iff.mp ht
  refine within_iff.mpr ⟨sub m.event.timestamp start,?_,(sub_mono hle start).trans_lt hlt⟩
  rw [offset,clientOffset,hid,hstart,Option.map_some]

end StartTimes

/-- The measurements of each ID. All callers of `Add` pass the ID of the measurement's own event. -/
structure MeasurementMap where
  entries : List (UInt32 × List Measurement)
  nodup : (entries.map Prod.fst).Nodup
  keyed : ∀ e ∈ entries, ∀ m ∈ e.2, m.event.id = e.1

namespace MeasurementMap

def new : MeasurementMap := ⟨[],.nil,by simp⟩

private def put (id : UInt32) (measurement : Measurement) : List (UInt32 × List Measurement) →
    List (UInt32 × List Measurement)
  | [] => [(id,[measurement])]
  | e :: entries => if e.1 = id then (id,e.2 ++ [measurement]) :: entries else e :: put id measurement entries

private theorem put_keys (id : UInt32) (measurement : Measurement) (entries : List (UInt32 × List Measurement)) :
    (put id measurement entries).map Prod.fst =
      if id ∈ entries.map Prod.fst then entries.map Prod.fst else entries.map Prod.fst ++ [id] := by
  induction entries with
  | nil => rfl
  | cons e entries ih =>
    rw [put]
    split_ifs with he hmem hmem
    · simp [he]
    · simp [he] at hmem
    · rw [List.map_cons,ih,if_pos (by simpa [Ne.symm he] using hmem),List.map_cons]
    · rw [List.map_cons,ih,if_neg (by simpa [Ne.symm he] using hmem),List.map_cons,List.cons_append]

private theorem mem_put {id : UInt32} {measurement : Measurement} {entries : List (UInt32 × List Measurement)}
    {e : UInt32 × List Measurement} (he : e ∈ put id measurement entries) {m : Measurement} (hm : m ∈ e.2) :
    (e.1 = id ∧ m = measurement) ∨ ∃ e' ∈ entries, e'.1 = e.1 ∧ m ∈ e'.2 := by
  induction entries with
  | nil =>
    cases List.mem_singleton.mp he
    exact .inl ⟨rfl,List.mem_singleton.mp hm⟩
  | cons e' entries ih =>
    rw [put] at he
    split_ifs at he with hid
    · rcases List.mem_cons.mp he with rfl | he
      · rcases List.mem_append.mp hm with hm | hm
        · exact .inr ⟨e',List.mem_cons_self,hid,hm⟩
        · exact .inl ⟨rfl,List.mem_singleton.mp hm⟩
      · exact .inr ⟨e,List.mem_cons_of_mem _ he,rfl,hm⟩
    · rcases List.mem_cons.mp he with rfl | he
      · exact .inr ⟨e,List.mem_cons_self,rfl,hm⟩
      · rcases ih he with h | ⟨e'',he'',h⟩
        · exact .inl h
        · exact .inr ⟨e'',List.mem_cons_of_mem _ he'',h⟩

def add (measurement : Measurement) (m : MeasurementMap) : MeasurementMap where
  entries := put measurement.event.id measurement m.entries
  nodup := by
    rw [put_keys]
    split_ifs with hmem
    · exact m.nodup
    · refine List.nodup_append.mpr ⟨m.nodup,List.pairwise_singleton _ _,?_⟩
      rintro id hid _ hnew rfl
      exact hmem (List.mem_singleton.mp hnew ▸ hid)
  keyed e he x hx := by
    rcases mem_put he hx with ⟨he,rfl⟩ | ⟨e',he',hid,hx⟩
    · exact he.symm
    · exact (m.keyed e' he' x hx).trans hid

def numIDs (m : MeasurementMap) : ℕ := m.entries.length

def all (m : MeasurementMap) : List Measurement := (m.entries.map Prod.snd).flatten

private theorem mem_put_flatten {id : UInt32} {measurement x : Measurement}
    (entries : List (UInt32 × List Measurement)) :
    x ∈ ((put id measurement entries).map Prod.snd).flatten ↔
      x ∈ (entries.map Prod.snd).flatten ∨ x = measurement := by
  induction entries with
  | nil => simp [put]
  | cons e entries ih =>
    rw [put]
    split_ifs
    · simp only [List.map_cons,List.flatten_cons,List.mem_append,List.mem_singleton]
      tauto
    · simp only [List.map_cons,List.flatten_cons,List.mem_append,ih]
      tauto

theorem mem_all_add {measurement x : Measurement} {m : MeasurementMap} :
    x ∈ (m.add measurement).all ↔ x ∈ m.all ∨ x = measurement := mem_put_flatten m.entries

end MeasurementMap

/-- The orders in which successive iterations over the map happen to visit its entries. -/
structure Order (m : MeasurementMap) where
  visit : ℕ → List (UInt32 × List Measurement)
  perm : ∀ k, (visit k).Perm m.entries

namespace Order
variable {m : MeasurementMap}

def rows (order : Order m) (k : ℕ) : List (List Measurement) := (order.visit k).map Prod.snd

theorem rows_perm (order : Order m) (k : ℕ) : (order.rows k).Perm (m.entries.map Prod.snd) := (order.perm k).map _

def same (m : MeasurementMap) : Order m := ⟨fun _ => m.entries,fun _ => .refl _⟩

end Order

def wrap (d : ℤ) : ℤ := d.bmod (2^64)

structure MeasurementGroup where
  time : ℤ
  measurements : List Measurement
  deriving DecidableEq, Repr

def groupOf (time : ℤ) (measurements : List Measurement) : List MeasurementGroup :=
  if measurements.isEmpty then [] else [⟨time,measurements⟩]

section Group
variable (s : StartTimes) {m : MeasurementMap} (interval : ℤ) (order : Order m)

/-- The outer loop of `GroupByTimeInterval` from pass `k` on. In each pass the measurements that fall into the
interval are read from every list, and what was left before the pass decides whether there is another one. -/
def groupLoop : ℕ → ℕ → ℤ → List ℕ → Option (List MeasurementGroup)
  | 0, _, _, _ => none
  | fuel+1, k, currentTime, indices =>
    let finish := wrap (currentTime + interval)
    let remaining := Cursors.left (order.rows k) indices
    let group := Cursors.read (s.within finish) (order.rows k) indices
    if remaining ≤ 0 then some (groupOf currentTime group)
    else (groupLoop fuel (k+1) finish (Cursors.move (s.within finish) (order.rows k) indices)).map
      (groupOf currentTime group ++ ·)

/-- `none` if there are more passes than `fuel`. -/
def groupByTimeInterval (fuel : ℕ) : Option (List MeasurementGroup) :=
  groupLoop s interval order fuel 0 0 (List.replicate m.numIDs 0)

def readable (k : ℕ) : Measurement → Bool := s.within (wrap ((k+1)*interval))

private theorem wrap_succ (k : ℕ) : wrap (wrap (k*interval) + interval) = wrap ((k+1)*interval) := by
  rw [wrap,wrap,wrap,Int.bmod_add_bmod,add_mul,one_mul]

theorem groupLoop_eq (fuel k : ℕ) (c : List ℕ) : groupLoop s interval order fuel k (wrap (k*interval)) c =
    (Cursors.passes order.rows (readable s interval) fuel k c).map
      (List.flatMap fun b => groupOf (wrap (b.1*interval)) b.2) := by
  induction fuel generalizing k c with
  | zero => rfl
  | succ fuel ih =>
    have ih := ih (k+1)
    push_cast at ih
    rw [groupLoop,Cursors.passes]
    rw [wrap_succ,ih]
    split_ifs
    · simp [readable]
    · rw [Option.map_map,Option.map_map]
      congr 1

theorem groupByTimeInterval_eq (fuel : ℕ) : groupByTimeInterval s interval order fuel =
    (Cursors.passes order.rows (readable s interval) fuel 0 (List.replicate (m.entries.map Prod.snd).length 0)).map
      (List.flatMap fun b => groupOf (wrap (b.1*interval)) b.2) := by
  have h := groupLoop_eq s interval order fuel 0 (List.replicate m.numIDs 0)
  rw [Nat.cast_zero,zero_mul] at h
  rw [groupByTimeInterval,List.length_map]
  exact h

theorem groupOf_measurements (time : ℤ) (l : List Measurement) :
    (groupOf time l).flatMap MeasurementGroup.measurements = l := by
  cases l <;> simp [groupOf]

theorem mem_groupOf {time : ℤ} {l : List Measurement} {g : MeasurementGroup} {x : Measurement} (hx : x ∈ l)
    (h : g ∈ groupOf time l) : g = ⟨time,l⟩ := by
  cases l with
  | nil => cases hx
  | cons y l => exact List.mem_singleton.mp h

end Group

section Termination
variable {s : StartTimes} {m : MeasurementMap} {interval : ℤ}

private theorem exists_groups_iff {order : Order m} :
    (∃ fuel groups, groupByTimeInterval s interval order fuel = some groups) ↔
      ∃ k, Cursors.Ends order.rows (readable s interval) (m.entries.map Prod.snd).length k := by
  rw [← Cursors.exists_passes_iff]
  refine exists_congr fun fuel => ?_
  rw [groupByTimeInterval_eq]
  constructor
  · rintro ⟨groups,h⟩
    obtain ⟨bs,hbs,-⟩ := Option.map_eq_some_iff.mp h
    exact ⟨bs,hbs⟩
  · rintro ⟨bs,h⟩
    exact ⟨_,Option.map_eq_some_iff.mpr ⟨bs,h,rfl⟩⟩

/-- A measurement that falls into no interval keeps the loop going. -/
theorem groups_none {x : Measurement} (hx : x ∈ m.all) (hnever : ∀ k, readable s interval k x = false) (fuel : ℕ) :
    groupByTimeInterval s interval (.same m) fuel = none := by
  rw [← Option.not_isSome_iff_eq_none,Option.isSome_iff_exists]
  rintro ⟨groups,hgroups⟩
  obtain ⟨l,hl,hx⟩ := List.mem_flatten.mp hx
  obtain ⟨k,hend⟩ := exists_groups_iff.mp ⟨fuel,groups,hgroups⟩
  exact Cursors.not_ends_of_never (fun _ => rfl) hl hx hnever k hend

/-- The last end of an interval, in 64 bits. -/
private theorem exists_last_end (interval : ℤ) :
    ∃ k : ℕ, ∀ j : ℕ, wrap (j*interval) ≤ wrap ((k+1)*interval) := by
  have hbound : ∃ b, ∀ z, (∃ k : ℕ, wrap (k*interval) = z) → z ≤ b := by
    refine ⟨2^64,?_⟩
    rintro z ⟨k,rfl⟩
    refine (Int.bmod_lt (by norm_num)).le.trans ?_
    norm_num
  obtain ⟨z,⟨k,rfl⟩,hmax⟩ := Int.exists_greatest_of_bdd hbound ⟨_,0,rfl⟩
  cases k with
  | zero =>
    -- the sums start again at zero after 2^64 intervals
    have hagain : wrap (((2^64-1 : ℕ)+1)*interval) = wrap ((0 : ℕ)*interval) := by
      have hmul : (((2^64-1 : ℕ) : ℤ)+1)*interval = 0 + (2^64 : ℕ)*interval := by
        push_cast
        ring
      rw [wrap,wrap,hmul,Int.add_mul_bmod_self_left,Nat.cast_zero,zero_mul]
    exact ⟨2^64-1,fun j => hagain ▸ hmax _ ⟨j,rfl⟩⟩
  | succ k =>
    refine ⟨k,fun j => ?_⟩
    have hle := hmax _ ⟨j,rfl⟩
    rwa [Nat.cast_succ] at hle

/-- The loop ends in every order exactly if each measurement has an offset and an interval ends after it. -/
theorem terminates_iff : (∀ order : Order m, ∃ fuel groups, groupByTimeInterval s interval order fuel = some groups) ↔
    ∀ x ∈ m.all, ∃ t, s.offset x = some t ∧ ∃ k : ℕ, t < wrap (k*interval) := by
  constructor
  · intro h x hx
    obtain ⟨fuel,groups,hgroups⟩ := h (.same m)
    by_contra hnone
    have hnever : ∀ k, readable s interval k x = false := by
      intro k
      rw [readable,Bool.eq_false_iff]
      intro hwithin
      obtain ⟨t,ht,hlt⟩ := StartTimes.within_iff.mp hwithin
      exact hnone ⟨t,ht,k+1,by exact_mod_cast hlt⟩
    rw [groups_none hx hnever fuel] at hgroups
    cases hgroups
  · intro h order
    obtain ⟨k,hk⟩ := exists_last_end interval
    refine exists_groups_iff.mpr ⟨k+1,Cursors.ends_of_all order.rows_perm fun x hx => ?_⟩
    obtain ⟨t,ht,j,hlt⟩ := h x hx
    exact StartTimes.within_iff.mpr ⟨t,ht,hlt.trans_le (hk j)⟩

end Termination

def MeasurementMap.Sorted (m : MeasurementMap) : Prop :=
  ∀ e ∈ m.entries, e.2.Pairwise fun x y => x.event.timestamp ≤ y.event.timestamp

def StartTimes.Known (s : StartTimes) (m : MeasurementMap) : Prop := ∀ e ∈ m.entries, (s.clients e.1).isSome

/-- No sum of durations overflows up to two intervals after the offset of a measurement. -/
def StartTimes.Fits (s : StartTimes) (interval : ℤ) (m : MeasurementMap) : Prop :=
  ∀ x ∈ m.all, ∀ t, s.offset x = some t → max t 0 + 2*interval < 2^63

def FirstInterval (s : StartTimes) (interval : ℤ) (k : ℕ) (x : Measurement) : Prop :=
  ∃ t, s.offset x = some t ∧ t < (k+1)*interval ∧ ∀ j < k, ¬ t < ((j : ℕ)+1)*interval

/-- The groups hold every measurement once, in the first interval that ends after its offset. -/
structure Partition (s : StartTimes) (interval : ℤ) (m : MeasurementMap) (groups : List MeasurementGroup) : Prop where
  all : (groups.flatMap MeasurementGroup.measurements).Perm m.all
  first : ∀ g ∈ groups, ∀ x ∈ g.measurements, ∃ k : ℕ, g.time = k*interval ∧ FirstInterval s interval k x

/-- As long as a measurement is left, the next pass finds at each position an ID that had as many measurements in the
intervals so far as the ID that this pass found there. -/
def SameProgress (s : StartTimes) (interval : ℤ) {m : MeasurementMap} (order : Order m) : Prop :=
  ∀ k : ℕ, (∃ x ∈ m.all, k = 0 ∨ s.within (k*interval) x = false) →
    (order.rows k).map (List.countP (s.within ((k+1)*interval))) =
      (order.rows (k+1)).map (List.countP (s.within ((k+1)*interval)))

section Partition
variable {s : StartTimes} {m : MeasurementMap} {interval : ℤ} {order : Order m}

theorem wrap_eq {d : ℤ} (h0 : 0 ≤ d) (h : d < 2^63) : wrap d = d :=
  Int.bmod_eq_of_le_mul_two (by push_cast; omega) (by push_cast; omega)

private def due (s : StartTimes) (interval : ℤ) (k : ℕ) : Measurement → Bool := s.within ((k+1)*interval)

private theorem offset_known (hknown : s.Known m) {x : Measurement} (hx : x ∈ m.all) : ∃ t, s.offset x = some t := by
  obtain ⟨l,hl,hx⟩ := List.mem_flatten.mp hx
  obtain ⟨e,he,rfl⟩ := List.mem_map.mp hl
  obtain ⟨start,hstart⟩ := Option.isSome_iff_exists.mp (hknown e he)
  exact ⟨_,by rw [StartTimes.offset,StartTimes.clientOffset,m.keyed e he x hx,hstart,Option.map_some]⟩

private theorem due_ordered (hpos : 0 < interval) (hsorted : m.Sorted) :
    Cursors.Ordered (due s interval) (m.entries.map Prod.snd) where
  mono k x hx := by
    refine StartTimes.within_mono ?_ hx
    push_cast
    nlinarith
  front l hl k := by
    obtain ⟨e,he,rfl⟩ := List.mem_map.mp hl
    apply Cursors.filter_front
    refine (hsorted e he).imp_of_mem ?_
    intro x y hx hy hle
    exact StartTimes.within_earlier ((m.keyed e he x hx).trans (m.keyed e he y hy).symm) hle

private theorem prev_due_zero (x : Measurement) : Cursors.prev (due s interval) 0 x = false := rfl

private theorem prev_due_succ (k : ℕ) (x : Measurement) :
    Cursors.prev (due s interval) (k+1) x = s.within ((k+1)*interval) x := rfl

private theorem sameProgress_iff :
    Cursors.Aligned order.rows (due s interval) (m.entries.map Prod.snd) ↔ SameProgress s interval order := by
  refine forall_congr' fun k => imp_congr_left (exists_congr fun x => and_congr_right fun _ => ?_)
  cases k with
  | zero => simp [prev_due_zero]
  | succ k =>
    rw [prev_due_succ]
    simp

/-- A first pass that could read everything, with the sums of durations up to the next pass. -/
private theorem exists_last (hpos : 0 < interval) (hknown : s.Known m) (hfits : s.Fits interval m) :
    ∃ last : ℕ, (∀ x ∈ m.all, due s interval last x = true) ∧
      ∀ k ≤ last+2, (∃ x, x ∈ m.all) → wrap (k*interval) = k*interval := by
  have hbound : ∃ k : ℕ, ∀ x ∈ m.all, due s interval k x = true := by
    refine ⟨2^63,fun x hx => ?_⟩
    obtain ⟨t,ht⟩ := offset_known hknown hx
    have hfit := hfits x hx t ht
    refine StartTimes.within_iff.mpr ⟨t,ht,?_⟩
    push_cast
    nlinarith [le_max_left t 0]
  classical
  refine ⟨Nat.find hbound,Nat.find_spec hbound,?_⟩
  rintro k hk ⟨x,hx⟩
  have hmul : (k : ℤ)*interval ≤ (Nat.find hbound + 2 : ℕ)*interval :=
    mul_le_mul_of_nonneg_right (by exact_mod_cast hk) hpos.le
  push_cast at hmul
  refine wrap_eq (by positivity) (hmul.trans_lt ?_)
  rcases Nat.eq_zero_or_pos (Nat.find hbound) with hzero | hfind
  · obtain ⟨t,ht⟩ := offset_known hknown hx
    have hfit := hfits x hx t ht
    rw [hzero]
    push_cast
    linarith [le_max_right t 0]
  · -- the pass before could not read one of the measurements
    obtain ⟨j,hj⟩ := Nat.exists_eq_succ_of_ne_zero hfind.ne'
    have hnot := Nat.find_min hbound (hj ▸ j.lt_succ_self)
    push Not at hnot
    obtain ⟨y,hy,hlate⟩ := hnot
    obtain ⟨t,ht⟩ := offset_known hknown hy
    have hge : (j+1)*interval ≤ t := by
      by_contra hlt
      exact hlate (StartTimes.within_iff.mpr ⟨t,ht,not_le.mp hlt⟩)
    have hfit := hfits y hy t ht
    rw [hj]
    push_cast
    nlinarith [le_max_left t 0]

private theorem firstInterval_iff (hpos : 0 < interval) {k : ℕ} {x : Measurement} (hx : due s interval k x = true) :
    FirstInterval s interval k x ↔ Cursors.prev (due s interval) k x = false := by
  obtain ⟨t,ht,hlt⟩ := StartTimes.within_iff.mp hx
  constructor
  · rintro ⟨t',ht',-,hfirst⟩
    cases k with
    | zero => exact prev_due_zero x
    | succ k =>
      rw [prev_due_succ,Bool.eq_false_iff]
      intro hearly
      obtain ⟨u,hu,hearly⟩ := StartTimes.within_iff.mp hearly
      cases ht'.symm.trans hu
      exact hfirst k k.lt_succ_self hearly
  · intro hprev
    refine ⟨t,ht,hlt,fun j hj hearly => ?_⟩
    cases k with
    | zero => cases hj
    | succ k =>
      rw [prev_due_succ,Bool.eq_false_iff] at hprev
      refine hprev (StartTimes.within_iff.mpr ⟨t,ht,hearly.trans_le ?_⟩)
      exact mul_le_mul_of_nonneg_right (by exact_mod_cast hj) hpos.le

private def toGroups (interval : ℤ) (bs : List (ℕ × List Measurement)) : List MeasurementGroup :=
  bs.flatMap fun b => groupOf (wrap (b.1*interval)) b.2

private theorem toGroups_measurements (bs : List (ℕ × List Measurement)) :
    (toGroups interval bs).flatMap MeasurementGroup.measurements = bs.flatMap Prod.snd := by
  rw [toGroups,List.flatMap_assoc]
  simp only [groupOf_measurements]

private theorem toGroups_first (hpos : 0 < interval) {bs : List (ℕ × List Measurement)}
    (hbs : ∀ b ∈ bs, ∀ x ∈ b.2, wrap (b.1*interval) = b.1*interval ∧ due s interval b.1 x = true) :
    (∀ g ∈ toGroups interval bs, ∀ x ∈ g.measurements, ∃ k : ℕ, g.time = k*interval ∧ FirstInterval s interval k x) ↔
      ∀ b ∈ bs, ∀ x ∈ b.2, Cursors.prev (due s interval) b.1 x = false := by
  constructor
  · intro h b hb x hx
    obtain ⟨htime,hdue⟩ := hbs b hb x hx
    have hne : b.2.isEmpty = false := by
      rw [List.isEmpty_eq_false_iff]
      exact List.ne_nil_of_mem hx
    have hmem : (⟨wrap (b.1*interval),b.2⟩ : MeasurementGroup) ∈ toGroups interval bs :=
      List.mem_flatMap.mpr ⟨b,hb,by simp [groupOf,hne]⟩
    obtain ⟨k,hk,hfirst⟩ := h _ hmem x hx
    have hk : b.1 = k := by
      have hmul : (b.1 : ℤ)*interval = k*interval := htime.symm.trans hk
      exact_mod_cast mul_right_cancel₀ hpos.ne' hmul
    subst hk
    exact (firstInterval_iff hpos hdue).mp hfirst
  · intro h g hg x hx
    obtain ⟨b,hb,hg⟩ := List.mem_flatMap.mp hg
    have hxb : x ∈ b.2 := by
      rw [← groupOf_measurements (wrap (b.1*interval)) b.2]
      exact List.mem_flatMap.mpr ⟨g,hg,hx⟩
    obtain ⟨htime,hdue⟩ := hbs b hb x hxb
    refine ⟨b.1,?_,(firstInterval_iff hpos hdue).mpr (h b hb x hxb)⟩
    rw [mem_groupOf hxb hg]
    exact htime

/-- The groups are a partition of the measurements exactly if the order of a pass differs from that of the pass before
only by exchanges between IDs that had made the same progress. -/
theorem grouped_once_iff (hpos : 0 < interval) (hsorted : m.Sorted) (hknown : s.Known m) (hfits : s.Fits interval m) :
    (∃ fuel groups, groupByTimeInterval s interval order fuel = some groups ∧ Partition s interval m groups) ↔
      SameProgress s interval order := by
  obtain ⟨last,hlast,hwrap⟩ := exists_last hpos hknown hfits
  have hagree : ∀ k ≤ last+1, ∀ x ∈ m.all, readable s interval k x = due s interval k x := by
    intro k hk x hx
    have hsum := hwrap (k+1) (by omega) ⟨x,hx⟩
    push_cast at hsum
    rw [readable,hsum,due]
  have hends : Cursors.Ends order.rows (due s interval) (m.entries.map Prod.snd).length (last+1) :=
    Cursors.ends_of_all order.rows_perm hlast
  have hends' : Cursors.Ends order.rows (readable s interval) (m.entries.map Prod.snd).length (last+1) :=
    Cursors.ends_of_all order.rows_perm fun x hx => (hagree last last.le_succ x hx).trans (hlast x hx)
  rw [← sameProgress_iff,← Cursors.exact_iff_aligned order.rows_perm (due_ordered hpos hsorted) ⟨last,hlast⟩]
  have hpartition (fuel : ℕ) (bs : List (ℕ × List Measurement)) (hbs : Cursors.passes order.rows (due s interval) fuel 0
      (List.replicate (m.entries.map Prod.snd).length 0) = some bs) :
      Partition s interval m (toGroups interval bs) ↔ (bs.flatMap Prod.snd).Perm m.all ∧
        ∀ b ∈ bs, ∀ x ∈ b.2, Cursors.prev (due s interval) b.1 x = false := by
    have hfirst := toGroups_first hpos fun b hb x hx => by
      obtain ⟨hle,hread⟩ := Cursors.mem_passes order.rows_perm hends hbs hb
      exact ⟨hwrap b.1 (by omega) ⟨x,(hread x hx).2⟩,(hread x hx).1⟩
    rw [← hfirst,← toGroups_measurements]
    exact ⟨fun h => ⟨h.all,h.first⟩,fun h => ⟨h.1,h.2⟩⟩
  constructor
  · rintro ⟨fuel,groups,hgroups,hpart⟩
    rw [groupByTimeInterval_eq,Option.map_eq_some_iff] at hgroups
    obtain ⟨bs,hbs,rfl⟩ := hgroups
    have hbs := Cursors.passes_congr order.rows_perm hagree hends' hbs
    exact ⟨fuel,bs,hbs,(hpartition fuel bs hbs).mp hpart⟩
  · rintro ⟨fuel,bs,hbs,hexact⟩
    refine ⟨fuel,toGroups interval bs,?_,(hpartition fuel bs hbs).mpr hexact⟩
    rw [groupByTimeInterval_eq,
      Cursors.passes_congr order.rows_perm (fun k hk x hx => (hagree k hk x hx).symm) hends hbs,Option.map_some]
    rfl

end Partition

namespace Sample

def started : StartTimes :=
  (StartTimes.new.add (some (.startEvent (newClientEvent 1 0)))).add (some (.startEvent (newClientEvent 2 0)))

def latencyOf (id : UInt32) (timestamp : ℤ) : Measurement := .latency ⟨newClientEvent id timestamp,1,none,1⟩

def collected : MeasurementMap :=
  ((MeasurementMap.new.add (latencyOf 1 1)).add (latencyOf 2 1)).add (latencyOf 2 2)

def swapped : Order collected where
  visit k := if k = 0 then collected.entries else collected.entries.reverse
  perm k := by
    split_ifs
    · exact .refl _
    · exact List.reverse_perm _

private theorem collected_entries :
    collected.entries = [(1,[latencyOf 1 1]),(2,[latencyOf 2 1,latencyOf 2 2])] := rfl

private theorem collected_sorted : collected.Sorted := by
  rw [MeasurementMap.Sorted,collected_entries]
  simp [latencyOf,newClientEvent,Measurement.event]

private theorem started_known : started.Known collected := by
  have hone : (started.clients 1).isSome := rfl
  have htwo : (started.clients 2).isSome := rfl
  rw [StartTimes.Known,collected_entries]
  simp [hone,htwo]

private theorem collected_fits : started.Fits 10 collected := by
  have hall : collected.all = [latencyOf 1 1,latencyOf 2 1,latencyOf 2 2] := rfl
  have hone : started.offset (latencyOf 1 1) = some 1 := rfl
  have htwo : started.offset (latencyOf 2 1) = some 1 := rfl
  have hthree : started.offset (latencyOf 2 2) = some 2 := rfl
  rw [StartTimes.Fits,hall]
  simp [hone,htwo,hthree]

/-- With the same order in every pass the groups are a partition. -/
theorem grouped_once_same : ∃ fuel groups,
    groupByTimeInterval started 10 (.same collected) fuel = some groups ∧ Partition started 10 collected groups :=
  (grouped_once_iff (by decide) collected_sorted started_known collected_fits).mpr fun _ _ => rfl

/-- The second pass applies the cursor of client 1 to the measurements of client 2, and adds the last of them once
more. -/
theorem grouped_twice : collected.Sorted ∧ started.Known collected ∧ started.Fits 10 collected ∧
    groupByTimeInterval started 10 swapped 2 =
      some [⟨0,[latencyOf 1 1,latencyOf 2 1,latencyOf 2 2]⟩,⟨10,[latencyOf 2 2]⟩] ∧
    ¬ Partition started 10 collected [⟨0,[latencyOf 1 1,latencyOf 2 1,latencyOf 2 2]⟩,⟨10,[latencyOf 2 2]⟩] := by
  refine ⟨collected_sorted,started_known,collected_fits,by decide +kernel,?_⟩
  intro h
  have hlength := h.all.length_eq
  cases hlength

end Sample
end Metrics
end Hotstuff
