import Hotstuff.Orchestration.Assign
import Mathlib.Data.Finset.Card
import Mathlib.Data.Finset.Image

/-! Which replicas of an experiment carry a byzantine strategy. For each replica the requested numbers of all strategies
are counted down, while the replica carries the last one that is visited. -/
namespace Hotstuff.Orchestration
open Library

structure Roll where
  byzantine : List (String × Int64)
  next : ID
  opts : List (ID × ReplicaOpts)

def Roll.step (visit : ID → List (String × Int64) → List (String × Int64)) (r : Roll) : Roll :=
  ⟨(nextStrategy (visit r.next r.byzantine)).2,r.next + 1,
    (r.next,⟨r.next,(nextStrategy (visit r.next r.byzantine)).1⟩) :: r.opts⟩

namespace Assignment
variable (visit : ID → List (String × Int64) → List (String × Int64)) (host : String) (a : Assignment)

def roll : Roll := ⟨a.byzantine,a.nextReplicaID,a.replicaOpts⟩

theorem roll_place (m n : Int) : (a.place visit host m n).roll = (Roll.step visit)^[m.toNat] a.roll := by
  have hc : Function.Semiconj roll (addClient host) id := fun _ => rfl
  have hr : Function.Semiconj roll (addReplica visit host) (Roll.step visit) := fun _ => rfl
  rw [place,(hc.iterate_right _).eq,Function.iterate_id,id_eq,(hr.iterate_right _).eq]

def carriers (s : String) : Finset ID :=
  (a.replicaOpts.map Prod.fst).toFinset.filter fun id =>
    (a.replicaOpts.lookup id).any fun o => o.byzantineStrategy = s

theorem mem_carriers {s : String} {id : ID} :
    id ∈ a.carriers s ↔ ∃ o, a.replicaOpts.lookup id = some o ∧ o.byzantineStrategy = s := by
  simp only [carriers,Finset.mem_filter,List.mem_toFinset,Option.any_eq_true,decide_eq_true_eq]
  refine and_iff_right_of_imp ?_
  rintro ⟨o,ho,-⟩
  exact List.mem_map.mpr ⟨(id,o),mem_of_lookup ho,rfl⟩

end Assignment

namespace Experiment
variable {e : Experiment} {visit : ID → List (String × Int64) → List (String × Int64)} {a : Assignment}

private theorem foldl_roll (hosts : List String) (r c : Int) (a : Assignment) :
    (hosts.foldl (e.assignHost visit) ((r,c),a)).2.roll =
      (Roll.step visit)^[((counts (e.configured HostConfig.replicas) (e.perNode e.remainingReplicas) hosts r).map
        Prod.snd).sum] a.roll := by
  induction hosts generalizing r c a with
  | nil => rfl
  | cons host hosts ih =>
    rw [List.foldl_cons,assignHost,counts,configured]
    cases e.hostConfigs.lookup host with
    | some cfg =>
      refine (ih r c _).trans ?_
      rw [Assignment.roll_place,← Function.iterate_add_apply,Nat.add_comm]
      rfl
    | none =>
      refine (ih _ _ _).trans ?_
      rw [Assignment.roll_place,← Function.iterate_add_apply,Nat.add_comm]
      rfl

/-- The replicas get their options one after the other, whatever their hosts. -/
theorem roll_eq (h : e.assignReplicasAndClients visit = .ok a) :
    a.roll = (Roll.step visit)^[e.assigned] ⟨e.byzantine,1,[]⟩ := by
  rw [assignReplicasAndClients] at h
  split_ifs at h
  cases h
  exact foldl_roll e.hosts (e.remainder e.remainingReplicas) (e.remainder e.remainingClients)
    { byzantine := e.byzantine }

/-- Whether there is an error does not depend on the strategies. -/
theorem assign_ok (h : e.assignReplicasAndClients visit = .ok a)
    (visit' : ID → List (String × Int64) → List (String × Int64)) :
    ∃ a', e.assignReplicasAndClients visit' = .ok a' := by
  rw [assignReplicasAndClients] at h
  split_ifs at h with hr hc
  exact ⟨_,by rw [assignReplicasAndClients,if_neg hr,if_neg hc]⟩

end Experiment

def lower (x : String × Int64) : String × Int64 := if 0 < x.2 then (x.1,x.2 - 1) else x

theorem lower_iterate {x : String × Int64} (hx : 0 ≤ x.2.toInt) (n : ℕ) :
    (lower^[n] x).1 = x.1 ∧ (lower^[n] x).2.toInt = max (x.2.toInt - n) 0 := by
  induction n with
  | zero => exact ⟨rfl,by simp [hx]⟩
  | succ n ih =>
    obtain ⟨hname,hcount⟩ := ih
    rw [Function.iterate_succ_apply',lower]
    split_ifs with hpos
    · rw [Int64.lt_iff_toInt_lt,Int64.toInt_zero] at hpos
      have hlt := (lower^[n] x).2.toInt_lt
      refine ⟨hname,?_⟩
      dsimp only
      rw [Int64.toInt_sub,Int64.toInt_one,Int.bmod_eq_of_le (by omega) (by omega)]
      push_cast
      omega
    · rw [Int64.lt_iff_toInt_lt,Int64.toInt_zero] at hpos
      refine ⟨hname,?_⟩
      push_cast
      omega

/-- The last of several lists of strategies decides if one of it has replicas left. -/
theorem nextStrategy_append {l l' : List (String × Int64)} {s : String} (hpos : ∃ x ∈ l', 0 < x.2)
    (hall : ∀ x ∈ l', 0 < x.2 → x.1 = s) : (nextStrategy (l ++ l')).1 = s := by
  obtain ⟨x,hx,hx0⟩ := hpos
  have hne : l'.filter (fun x => 0 < x.2) ≠ [] := List.ne_nil_of_mem (List.mem_filter.mpr ⟨hx,by simpa using hx0⟩)
  obtain ⟨y,hy⟩ := Option.isSome_iff_exists.mp (List.getLast?_isSome.mpr hne)
  have hmem := List.mem_filter.mp (List.mem_of_getLast? hy)
  rw [nextStrategy,List.filter_append,List.getLast?_append,hy]
  exact hall y hmem.1 (by simpa using hmem.2)

section Rounds
variable (visit : ID → List (String × Int64) → List (String × Int64)) (byzantine : List (String × Int64))

def rollAt (n : ℕ) : Roll := (Roll.step visit)^[n] ⟨byzantine,1,[]⟩

def visited (n : ℕ) : List (String × Int64) :=
  visit (rollAt visit byzantine n).next (rollAt visit byzantine n).byzantine

def strategyAt (n : ℕ) : String := (nextStrategy (visited visit byzantine n)).1

theorem rollAt_succ (n : ℕ) : rollAt visit byzantine (n+1) = (rollAt visit byzantine n).step visit :=
  Function.iterate_succ_apply' _ _ _

theorem rollAt_next (n : ℕ) : (rollAt visit byzantine n).next = UInt32.ofNat (n+1) := by
  induction n with
  | zero => rfl
  | succ n ih =>
    rw [rollAt_succ,Roll.step]
    dsimp only
    rw [ih,UInt32.ofNat_add (n+1)]
    rfl

private theorem opts_succ (n : ℕ) : (rollAt visit byzantine (n+1)).opts =
    (UInt32.ofNat (n+1),⟨UInt32.ofNat (n+1),strategyAt visit byzantine n⟩) :: (rollAt visit byzantine n).opts := by
  rw [rollAt_succ,← rollAt_next visit byzantine n]
  rfl

/-- The options of an ID are those of the last replica that got it. IDs start over after 2^32 replicas. -/
theorem lookup_opts {N : ℕ} {id : ID} {o : ReplicaOpts} : (rollAt visit byzantine N).opts.lookup id = some o ↔
    ∃ n < N, N ≤ n + 2^32 ∧ id = UInt32.ofNat (n+1) ∧ o = ⟨id,strategyAt visit byzantine n⟩ := by
  induction N with
  | zero => simp [rollAt]
  | succ N ih =>
    have hsame {m n : ℕ} : UInt32.ofNat (m+1) = UInt32.ofNat (n+1) ↔ (m+1) % 2^32 = (n+1) % 2^32 := by
      rw [← UInt32.toNat_inj,UInt32.toNat_ofNat',UInt32.toNat_ofNat']
    rw [opts_succ,lookup_cons_ite]
    split_ifs with hid
    · subst hid
      rw [Option.some.injEq]
      constructor
      · rintro rfl
        exact ⟨N,N.lt_succ_self,by omega,rfl,rfl⟩
      · rintro ⟨n,hn,hlast,hid,rfl⟩
        rw [hsame] at hid
        obtain rfl : n = N := by omega
        rfl
    · rw [ih]
      constructor
      · rintro ⟨n,hn,hlast,rfl,rfl⟩
        rw [hsame] at hid
        exact ⟨n,by omega,by omega,rfl,rfl⟩
      · rintro ⟨n,hn,hlast,rfl,rfl⟩
        have hne : n ≠ N := by
          rintro rfl
          exact hid rfl
        exact ⟨n,by omega,by omega,rfl,rfl⟩

variable {visit byzantine} (hvisit : ∀ id l, (visit id l).Perm l)
include hvisit

private theorem rollAt_byzantine (n : ℕ) : (rollAt visit byzantine n).byzantine.Perm (byzantine.map lower^[n]) := by
  induction n with
  | zero => exact .of_eq (List.map_id _).symm
  | succ n ih =>
    have hmap := ((hvisit (rollAt visit byzantine n).next _).trans ih).map lower
    rw [List.map_map,← Function.iterate_succ'] at hmap
    rw [rollAt_succ]
    exact hmap

/-- A strategy is visited for a replica as often as it was requested, less the replicas before. -/
theorem mem_visited {n : ℕ} {x : String × Int64} :
    x ∈ visited visit byzantine n ↔ ∃ y ∈ byzantine, lower^[n] y = x := by
  rw [visited,((hvisit _ _).trans (rollAt_byzantine hvisit n)).mem_iff,List.mem_map]

variable (hcounts : ∀ x ∈ byzantine, 0 ≤ x.2.toInt)
include hcounts

omit hvisit in
private theorem lower_pos {n : ℕ} {y : String × Int64} (hy : y ∈ byzantine) :
    0 < (lower^[n] y).2 ↔ (n : ℤ) < y.2.toInt := by
  rw [Int64.lt_iff_toInt_lt,Int64.toInt_zero,(lower_iterate (hcounts y hy) n).2]
  omega

theorem strategyAt_cases (n : ℕ) : strategyAt visit byzantine n = "" ∨
    ∃ y ∈ byzantine, y.1 = strategyAt visit byzantine n ∧ (n : ℤ) < y.2.toInt := by
  rw [strategyAt,nextStrategy]
  cases hlast : ((visited visit byzantine n).filter fun x => 0 < x.2).getLast? with
  | none => exact .inl rfl
  | some x =>
    have hmem := List.mem_filter.mp (List.mem_of_getLast? hlast)
    obtain ⟨y,hy,rfl⟩ := (mem_visited hvisit).mp hmem.1
    exact .inr ⟨y,hy,(lower_iterate (hcounts y hy) n).1.symm,(lower_pos hcounts hy).mp (by simpa using hmem.2)⟩

/-- A strategy is taken as long as it is the only one with replicas left. -/
theorem strategyAt_only {n : ℕ} {y : String × Int64} (hy : y ∈ byzantine) (hn : (n : ℤ) < y.2.toInt)
    (honly : ∀ x ∈ byzantine, 0 < x.2 → x.1 = y.1) : strategyAt visit byzantine n = y.1 := by
  refine nextStrategy_append (l := []) ⟨_,(mem_visited hvisit).mpr ⟨y,hy,rfl⟩,(lower_pos hcounts hy).mpr hn⟩ ?_
  intro x hx hpos
  obtain ⟨z,hz,rfl⟩ := (mem_visited hvisit).mp hx
  have hlt := (lower_pos hcounts hz).mp hpos
  rw [(lower_iterate (hcounts z hz) n).1]
  refine honly z hz ?_
  rw [Int64.lt_iff_toInt_lt,Int64.toInt_zero]
  omega

end Rounds

/-- The rounds in which a strategy is given to a replica that keeps its ID. -/
private def rounds (visit : ID → List (String × Int64) → List (String × Int64)) (byzantine : List (String × Int64))
    (N : ℕ) (s : String) : Finset ℕ :=
  (Finset.range N).filter fun n => N ≤ n + 2^32 ∧ strategyAt visit byzantine n = s

namespace Experiment
variable {e : Experiment} {visit : ID → List (String × Int64) → List (String × Int64)} {a : Assignment}

private theorem carriers_card (h : e.assignReplicasAndClients visit = .ok a) (s : String) :
    (a.carriers s).card = (rounds visit e.byzantine e.assigned s).card := by
  have hopts : a.replicaOpts = (rollAt visit e.byzantine e.assigned).opts := congrArg Roll.opts (roll_eq h)
  have himage : a.carriers s = (rounds visit e.byzantine e.assigned s).image fun n => UInt32.ofNat (n+1) := by
    ext id
    rw [Assignment.mem_carriers,hopts]
    simp only [lookup_opts,rounds,Finset.mem_image,Finset.mem_filter,Finset.mem_range]
    constructor
    · rintro ⟨o,⟨n,hn,hlast,rfl,rfl⟩,rfl⟩
      exact ⟨n,⟨hn,hlast,rfl⟩,rfl⟩
    · rintro ⟨n,⟨hn,hlast,rfl⟩,rfl⟩
      exact ⟨_,⟨n,hn,hlast,rfl,rfl⟩,rfl⟩
  rw [himage]
  apply Finset.card_image_of_injOn
  intro m hm n hn heq
  simp only [rounds,Finset.mem_coe,Finset.mem_filter,Finset.mem_range] at hm hn
  have heq := congrArg UInt32.toNat heq
  simp only [UInt32.toNat_ofNat'] at heq
  omega

/-- Every strategy is carried by as many replicas as requested, none if it was not. The empty name is that of no
strategy. -/
def StrategiesExact (e : Experiment) (a : Assignment) : Prop :=
  ∀ s, s ≠ "" → ((a.carriers s).card : ℤ) = ((e.byzantine.lookup s).getD 0).toInt

variable (hkeys : (e.byzantine.map Prod.fst).Nodup) (hcounts : ∀ x ∈ e.byzantine, 0 ≤ x.2.toInt)
include hkeys hcounts

private theorem rounds_lt (hvisit : ∀ id l, (visit id l).Perm l) {s : String} (hs : s ≠ "") {n : ℕ}
    (hn : strategyAt visit e.byzantine n = s) : (n : ℤ) < ((e.byzantine.lookup s).getD 0).toInt := by
  rcases strategyAt_cases hvisit hcounts n with hnone | ⟨y,hy,hname,hlt⟩
  · exact absurd (hn.symm.trans hnone) hs
  · rw [← hn,← hname,lookup_of_mem hkeys hy]
    exact hlt

/-- The first replica is missing if its strategy is another one or if its ID is given away again. -/
private theorem not_exact_of_first (hvisit : ∀ id l, (visit id l).Perm l) (h : e.assignReplicasAndClients visit = .ok a)
    {x : String × Int64} (hx : x ∈ e.byzantine) (hpos : 0 < x.2) (hname : x.1 ≠ "")
    (hfirst : e.assigned ≤ 2^32 → strategyAt visit e.byzantine 0 ≠ x.1) : ¬ e.StrategiesExact a := by
  intro hexact
  have hcard := hexact x.1 hname
  have hsub : rounds visit e.byzantine e.assigned x.1 ⊆ (Finset.range x.2.toInt.toNat).erase 0 := by
    intro n hn
    simp only [rounds,Finset.mem_filter,Finset.mem_range] at hn
    obtain ⟨-,hlast,hstrategy⟩ := hn
    have hlt := rounds_lt hkeys hcounts hvisit hname hstrategy
    rw [lookup_of_mem hkeys hx,Option.getD_some] at hlt
    rw [Finset.mem_erase,Finset.mem_range]
    refine ⟨?_,by omega⟩
    rintro rfl
    exact hfirst (by omega) hstrategy
  have hle := Finset.card_le_card hsub
  rw [Int64.lt_iff_toInt_lt,Int64.toInt_zero] at hpos
  rw [Finset.card_erase_of_mem (Finset.mem_range.mpr (by omega)),Finset.card_range] at hle
  rw [carriers_card h,lookup_of_mem hkeys hx,Option.getD_some] at hcard
  omega

private theorem exact_of_only (hvisit : ∀ id l, (visit id l).Perm l) (h : e.assignReplicasAndClients visit = .ok a)
    (hsum : (e.byzantine.map fun x => x.2.toInt).sum ≤ e.assigned)
    (honly : ∀ x ∈ e.byzantine, ∀ y ∈ e.byzantine, 0 < x.2 → 0 < y.2 → x.1 = y.1)
    (hids : ∀ x ∈ e.byzantine, 0 < x.2 → x.1 ≠ "" → e.assigned ≤ 2^32) : e.StrategiesExact a := by
  intro s hs
  have hrounds : rounds visit e.byzantine e.assigned s =
      Finset.range ((e.byzantine.lookup s).getD 0).toInt.toNat := by
    ext n
    simp only [rounds,Finset.mem_filter,Finset.mem_range]
    constructor
    · rintro ⟨-,-,hn⟩
      have hlt := rounds_lt hkeys hcounts hvisit hs hn
      omega
    · intro hn
      cases hlookup : e.byzantine.lookup s with
      | none =>
        rw [hlookup] at hn
        cases hn
      | some c =>
        have hmem : (s,c) ∈ e.byzantine := mem_of_lookup hlookup
        rw [hlookup,Option.getD_some] at hn
        have hlt : (n : ℤ) < c.toInt := by omega
        have hpos : 0 < c := by
          rw [Int64.lt_iff_toInt_lt,Int64.toInt_zero]
          omega
        have hle : c.toInt ≤ (e.byzantine.map fun x => x.2.toInt).sum := by
          apply List.single_le_sum
          · intro i hi
            obtain ⟨x,hx,rfl⟩ := List.mem_map.mp hi
            exact hcounts x hx
          · exact List.mem_map.mpr ⟨(s,c),hmem,rfl⟩
        have hfit := hids (s,c) hmem hpos hs
        refine ⟨by omega,by omega,?_⟩
        exact strategyAt_only hvisit hcounts hmem hlt fun x hx hx0 => honly x hx (s,c) hmem hx0 hpos
  rw [carriers_card h,hrounds,Finset.card_range]
  refine Int.toNat_of_nonneg ?_
  cases hlookup : e.byzantine.lookup s with
  | none => exact le_rfl
  | some c => exact hcounts _ (mem_of_lookup hlookup)

private def lastly (t : String) (_ : ID) (l : List (String × Int64)) : List (String × Int64) :=
  l.filter (fun x => !(x.1 == t)) ++ l.filter (fun x => x.1 == t)

omit hkeys hcounts in
private theorem lastly_perm (t : String) (id : ID) (l : List (String × Int64)) : (lastly t id l).Perm l :=
  List.perm_append_comm.trans (List.filter_append_perm _ l)

omit hkeys hcounts in
private theorem strategyAt_lastly {y : String × Int64} (hy : y ∈ e.byzantine) (hpos : 0 < y.2) :
    strategyAt (lastly y.1) e.byzantine 0 = y.1 := by
  refine nextStrategy_append ⟨y,List.mem_filter.mpr ⟨hy,by simp⟩,hpos⟩ ?_
  intro x hx _
  simpa using (List.mem_filter.mp hx).2

/-- In every order of iteration the strategies are assigned as requested exactly if not more than one of them is
requested at all and its replicas keep their IDs. -/
theorem strategies_exact_iff {visit₀ : ID → List (String × Int64) → List (String × Int64)} {a₀ : Assignment}
    (h₀ : e.assignReplicasAndClients visit₀ = .ok a₀)
    (hsum : (e.byzantine.map fun x => x.2.toInt).sum ≤ (e.hosts.flatMap a₀.hostsToReplicas).length) :
    (∀ visit : ID → List (String × Int64) → List (String × Int64), (∀ id l, (visit id l).Perm l) →
      ∀ a, e.assignReplicasAndClients visit = .ok a → e.StrategiesExact a) ↔
    (∀ x ∈ e.byzantine, ∀ y ∈ e.byzantine, 0 < x.2 → 0 < y.2 → x.1 = y.1) ∧
      ∀ x ∈ e.byzantine, 0 < x.2 → x.1 ≠ "" → (e.hosts.flatMap a₀.hostsToReplicas).length ≤ 2^32 := by
  rw [length_replicas h₀] at hsum ⊢
  constructor
  · intro hexact
    -- of two strategies the one that is not visited last misses the first replica
    have hlast (x y : String × Int64) (hx : x ∈ e.byzantine) (hy : y ∈ e.byzantine) (hx0 : 0 < x.2) (hy0 : 0 < y.2)
        (hne : x.1 ≠ y.1) : x.1 = "" := by
      by_contra hname
      obtain ⟨a,ha⟩ := assign_ok h₀ (lastly y.1)
      refine not_exact_of_first hkeys hcounts (lastly_perm y.1) ha hx hx0 hname (fun _ => ?_)
        (hexact _ (lastly_perm y.1) a ha)
      rw [strategyAt_lastly hy hy0]
      exact hne.symm
    constructor
    · intro x hx y hy hx0 hy0
      by_contra hne
      exact hne ((hlast x y hx hy hx0 hy0 hne).trans (hlast y x hy hx hy0 hx0 (Ne.symm hne)).symm)
    · intro x hx hx0 hname
      by_contra hids
      obtain ⟨a,ha⟩ := assign_ok h₀ fun _ l => l
      exact not_exact_of_first hkeys hcounts (fun _ _ => .refl _) ha hx hx0 hname (fun hle => absurd hle hids)
        (hexact _ (fun _ _ => .refl _) a ha)
  · rintro ⟨honly,hids⟩ visit hvisit a ha
    exact exact_of_only hkeys hcounts hvisit ha hsum honly hids

end Experiment

private def silenced : Experiment :=
  ⟨3,0,["a"],[],[("silence",2),("fork",0)],List.pairwise_singleton _ _,.nil⟩

theorem strategies_exact_silence : ∃ a, silenced.assignReplicasAndClients (fun _ l => l) = .ok a ∧
    silenced.StrategiesExact a := by
  have hok : silenced.assignReplicasAndClients (fun _ l => l) = .ok _ := rfl
  have hexact := (Experiment.strategies_exact_iff (by decide) (by decide) hok (by decide)).mpr ⟨by decide,by decide⟩
  exact ⟨_,hok,hexact _ (fun _ _ => .refl _) _ hok⟩

private def mixed : Experiment :=
  ⟨3,0,["a"],[],[("silence",1),("fork",1)],List.pairwise_singleton _ _,.nil⟩

/-- The first replica uses up both strategies. -/
theorem strategies_not_exact : ∃ a, mixed.assignReplicasAndClients (fun _ l => l) = .ok a ∧
    a.hostsToReplicas "a" = [1,2,3] ∧ a.carriers "fork" = {1} ∧ a.carriers "silence" = ∅ ∧
    ¬ mixed.StrategiesExact a := by
  refine ⟨_,rfl,by decide,by decide,by decide,fun h => ?_⟩
  exact absurd (h "silence" (by decide)) (by decide)

end Hotstuff.Orchestration
