import Hotstuff.Consensus.Types
import Hotstuff.Library.History
import Mathlib.Algebra.BigOperators.Group.Finset.Basic
import Mathlib.Algebra.Order.BigOperators.Group.Finset

/-! The assignment of replica and client IDs to the hosts of an experiment. Hosts with a configuration get what it
says, the others share the rest. -/
namespace Hotstuff.Orchestration
open Library

structure HostConfig where
  replicas : Int64
  clients : Int64
  deriving DecidableEq, Repr

/-- The fields that the assignment reads. A map is listed in the order in which it happens to be iterated. -/
structure Experiment where
  numReplicas : Int64
  numClients : Int64
  hosts : List String
  hostConfigs : List (String × HostConfig)
  byzantine : List (String × Int64) := []
  hosts_nodup : hosts.Nodup
  configs_nodup : (hostConfigs.map Prod.fst).Nodup

structure ReplicaOpts where
  id : ID
  byzantineStrategy : String
  deriving DecidableEq, Repr

structure Assignment where
  hostsToReplicas : String → List ID := fun _ => []
  replicaOpts : List (ID × ReplicaOpts) := []
  hostsToClients : String → List ID := fun _ => []
  nextReplicaID : ID := 1
  nextClientID : ID := 1
  byzantine : List (String × Int64)

/-- Every strategy with replicas left loses one, and the last one visited is taken. -/
def nextStrategy (byzantine : List (String × Int64)) : String × List (String × Int64) :=
  ((byzantine.filter fun x => 0 < x.2).getLast?.elim "" Prod.fst,
    byzantine.map fun x => if 0 < x.2 then (x.1,x.2 - 1) else x)

namespace Assignment

def addReplica (visit : ID → List (String × Int64) → List (String × Int64)) (host : String) (a : Assignment) :
    Assignment :=
  let r := nextStrategy (visit a.nextReplicaID a.byzantine)
  { a with
    byzantine := r.2
    hostsToReplicas := Function.update a.hostsToReplicas host (a.hostsToReplicas host ++ [a.nextReplicaID])
    replicaOpts := (a.nextReplicaID,⟨a.nextReplicaID,r.1⟩) :: a.replicaOpts
    nextReplicaID := a.nextReplicaID + 1 }

def addClient (host : String) (a : Assignment) : Assignment :=
  { a with
    hostsToClients := Function.update a.hostsToClients host (a.hostsToClients host ++ [a.nextClientID])
    nextClientID := a.nextClientID + 1 }

def place (visit : ID → List (String × Int64) → List (String × Int64)) (host : String) (numReplicas numClients : Int)
    (a : Assignment) : Assignment :=
  (addClient host)^[numClients.toNat] ((addReplica visit host)^[numReplicas.toNat] a)

end Assignment

/-- What a host without configuration gets, and the remainder that is left for the others. -/
def share (perNode remainder : Int) : Int × Int :=
  if 0 < remainder then (perNode + 1,remainder - 1) else (perNode,remainder)

namespace Experiment
variable (e : Experiment)

/-- The loop over the configurations; 64-bit integers wrap around. -/
def remaining (num : Int64) (count : HostConfig → Int64) : Int64 := e.hostConfigs.foldl (fun r x => r - count x.2) num

def remainingReplicas : Int64 := e.remaining e.numReplicas HostConfig.replicas

def remainingClients : Int64 := e.remaining e.numClients HostConfig.clients

def autoConfig : Int := e.hosts.length - e.hostConfigs.length

/-- Quotient and remainder by the number of hosts that are thought to have no configuration. -/
def perNode (remaining : Int64) : Int := if 0 < e.autoConfig then remaining.toInt.tdiv e.autoConfig else 0

def remainder (remaining : Int64) : Int := if 0 < e.autoConfig then remaining.toInt.tmod e.autoConfig else 0

def assignHost (visit : ID → List (String × Int64) → List (String × Int64)) (s : (Int × Int) × Assignment)
    (host : String) : (Int × Int) × Assignment :=
  match e.hostConfigs.lookup host with
  | some hostCfg => (s.1,s.2.place visit host hostCfg.replicas.toInt hostCfg.clients.toInt)
  | none =>
    let replicas := share (e.perNode e.remainingReplicas) s.1.1
    let clients := share (e.perNode e.remainingClients) s.1.2
    ((replicas.2,clients.2),s.2.place visit host replicas.1 clients.1)

def assignReplicasAndClients (visit : ID → List (String × Int64) → List (String × Int64)) :
    Except String Assignment :=
  if e.remainingReplicas < 0 then
    .error ("invalid replica configuration: " ++ toString e.numReplicas.toInt ++
      " replicas requested, but host configuration specifies " ++
      toString (e.numReplicas - e.remainingReplicas).toInt)
  else if e.remainingClients < 0 then
    .error ("invalid client configuration: " ++ toString e.numClients.toInt ++
      " clients requested, but host configuration specifies " ++
      toString (e.numClients - e.remainingClients).toInt)
  else .ok (e.hosts.foldl (e.assignHost visit)
    ((e.remainder e.remainingReplicas,e.remainder e.remainingClients),{ byzantine := e.byzantine })).2

end Experiment

structure Ledger where
  lists : String → List ID := fun _ => []
  next : ID := 1

namespace Ledger

def give (host : String) (l : Ledger) : Ledger :=
  ⟨Function.update l.lists host (l.lists host ++ [l.next]),l.next + 1⟩

def deal (l : Ledger) (d : List (String × Nat)) : Ledger := d.foldl (fun l x => (give x.1)^[x.2] l) l

/-- The IDs from the `k`-th on; after 2^32 they start over. -/
def ids (k n : Nat) : List ID := (List.range' k n).map UInt32.ofNat

theorem ids_append (k m n : Nat) : ids k (m + n) = ids k m ++ ids (k + m) n := by
  rw [ids,ids,ids,← List.map_append,List.range'_append_1]

variable {l : Ledger} {k : Nat}

private theorem next_add (h : l.next = UInt32.ofNat k) : l.next + 1 = UInt32.ofNat (k + 1) := by
  rw [h,UInt32.ofNat_add]
  rfl

theorem iterate_give (host : String) (n : Nat) (h : l.next = UInt32.ofNat k) :
    ((give host)^[n] l).lists = Function.update l.lists host (l.lists host ++ ids k n) ∧
      ((give host)^[n] l).next = UInt32.ofNat (k + n) := by
  induction n generalizing l k with
  | zero => simpa [ids] using h
  | succ n ih =>
    obtain ⟨hl,hn⟩ := ih (l := give host l) (next_add h)
    rw [Function.iterate_succ_apply,hl,hn]
    refine ⟨?_,by rw [Nat.add_right_comm,Nat.add_assoc]⟩
    have hself : (give host l).lists host = l.lists host ++ ids k 1 :=
      (Function.update_self _ _ _).trans (by rw [h]; rfl)
    rw [hself,Nat.add_comm n 1,ids_append,List.append_assoc]
    exact Function.update_idem _ _ _

/-- The hosts get consecutive IDs, as many as they should, and the others nothing. -/
theorem deal_spec {d : List (String × Nat)} (hd : (d.map Prod.fst).Nodup) (h : l.next = UInt32.ofNat k)
    (hl : ∀ x ∈ d, l.lists x.1 = []) :
    (d.map Prod.fst).flatMap (l.deal d).lists = ids k (d.map Prod.snd).sum ∧
      (∀ x ∈ d, ((l.deal d).lists x.1).length = x.2) ∧
      ∀ host, host ∉ d.map Prod.fst → (l.deal d).lists host = l.lists host := by
  induction d generalizing l k with
  | nil => exact ⟨by simp [ids],by simp,fun _ _ => rfl⟩
  | cons x d ih =>
    obtain ⟨hx,hd⟩ := List.nodup_cons.mp hd
    obtain ⟨hgive,hnext⟩ := iterate_give x.1 x.2 h
    have hother (host : String) (hne : host ≠ x.1) : ((give x.1)^[x.2] l).lists host = l.lists host := by
      rw [hgive,Function.update_of_ne hne]
    have hself : ((give x.1)^[x.2] l).lists x.1 = ids k x.2 := by
      rw [hgive,Function.update_self,hl x List.mem_cons_self,List.nil_append]
    have hempty (y : String × Nat) (hy : y ∈ d) : ((give x.1)^[x.2] l).lists y.1 = [] := by
      rw [hother y.1 fun heq => hx (List.mem_map.mpr ⟨y,hy,heq⟩)]
      exact hl y (List.mem_cons_of_mem _ hy)
    obtain ⟨hflat,hlen,hrest⟩ := ih hd hnext hempty
    have hfirst : (l.deal (x :: d)).lists x.1 = ids k x.2 := (hrest x.1 hx).trans hself
    refine ⟨?_,?_,?_⟩
    · rw [List.map_cons,List.flatMap_cons,hfirst,List.map_cons,List.sum_cons,ids_append]
      exact congrArg _ hflat
    · intro y hy
      rcases List.mem_cons.mp hy with rfl | hy
      · rw [hfirst,ids,List.length_map,List.length_range']
      · exact hlen y hy
    · intro host hnot
      rw [List.map_cons,List.mem_cons,not_or] at hnot
      exact (hrest host hnot.2).trans (hother host hnot.1)

theorem ids_nodup (k : Nat) {n : Nat} (h : n ≤ 2^32) : (ids k n).Nodup := by
  refine List.Nodup.map_on (fun x hx y hy hxy => ?_) List.nodup_range'
  rw [List.mem_range'_1] at hx hy
  have hmod := congrArg UInt32.toNat hxy
  rw [UInt32.toNat_ofNat',UInt32.toNat_ofNat'] at hmod
  omega

theorem ids_perm_iff {t n : Nat} : ((ids 1 t).map UInt32.toNat).Perm (List.range' 1 n) ↔ t = n ∧ n < 2^32 := by
  rw [ids,List.map_map]
  constructor
  · intro h
    have hlen := h.length_eq
    rw [List.length_map,List.length_range',List.length_range'] at hlen
    subst hlen
    refine ⟨rfl,?_⟩
    by_contra hlt
    -- the ID after 2^32 - 1 is 0
    have hmem : 2^32 ∈ List.range' 1 t := List.mem_range'_1.mpr (by omega)
    have hzero := h.mem_iff.mp (List.mem_map_of_mem hmem)
    rw [Function.comp_apply,UInt32.toNat_ofNat',Nat.mod_self,List.mem_range'_1] at hzero
    omega
  · rintro ⟨rfl,hlt⟩
    have hid : (List.range' 1 t).map (UInt32.toNat ∘ UInt32.ofNat) = List.range' 1 t := by
      refine (List.map_congr_left fun i hi => ?_).trans (List.map_id _)
      rw [List.mem_range'_1] at hi
      rw [Function.comp_apply,UInt32.toNat_ofNat',Nat.mod_eq_of_lt (by omega),id_eq]
    rw [hid]

end Ledger

namespace Assignment
variable (visit : ID → List (String × Int64) → List (String × Int64)) (host : String) (a : Assignment)

def replicas : Ledger := ⟨a.hostsToReplicas,a.nextReplicaID⟩

def clients : Ledger := ⟨a.hostsToClients,a.nextClientID⟩

theorem replicas_place (m n : Int) : (a.place visit host m n).replicas = (Ledger.give host)^[m.toNat] a.replicas := by
  have hc : Function.Semiconj replicas (addClient host) id := fun _ => rfl
  have hr : Function.Semiconj replicas (addReplica visit host) (Ledger.give host) := fun _ => rfl
  rw [place,(hc.iterate_right _).eq,Function.iterate_id,id_eq,(hr.iterate_right _).eq]

theorem clients_place (m n : Int) : (a.place visit host m n).clients = (Ledger.give host)^[n.toNat] a.clients := by
  have hc : Function.Semiconj clients (addClient host) (Ledger.give host) := fun _ => rfl
  have hr : Function.Semiconj clients (addReplica visit host) id := fun _ => rfl
  rw [place,(hc.iterate_right _).eq,(hr.iterate_right _).eq,Function.iterate_id,id_eq]

def Named : Prop := ∀ host, ∀ id ∈ a.hostsToReplicas host, ∃ o, a.replicaOpts.lookup id = some o ∧ o.id = id

variable {a}

private theorem Named.addReplica (h : a.Named) : (a.addReplica visit host).Named := by
  intro host' id hid
  rw [Assignment.addReplica]
  dsimp only
  rw [lookup_cons_ite]
  split_ifs with heq
  · exact ⟨_,rfl,heq.symm⟩
  · refine h host' id ?_
    rw [Assignment.addReplica] at hid
    dsimp only at hid
    rw [Function.update_apply] at hid
    split_ifs at hid with hhost
    · rw [hhost]
      exact (List.mem_append.mp hid).resolve_right fun hn => heq (List.mem_singleton.mp hn)
    · exact hid

theorem Named.place (h : a.Named) (m n : Int) : (a.place visit host m n).Named := by
  have hreplicas : ((Assignment.addReplica visit host)^[m.toNat] a).Named :=
    Function.Iterate.rec Named h (fun _ => Named.addReplica visit host) m.toNat
  have hclient (b : Assignment) (hb : b.Named) : (addClient host b).Named := hb
  exact Function.Iterate.rec Named hreplicas hclient n.toNat

end Assignment

def counts (cfg : String → Option Int) (perNode : Int) : List String → Int → List (String × Nat)
  | [], _ => []
  | host :: hosts, remainder => match cfg host with
    | some n => (host,n.toNat) :: counts cfg perNode hosts remainder
    | none => (host,(share perNode remainder).1.toNat) :: counts cfg perNode hosts (share perNode remainder).2

section counts
variable {cfg : String → Option Int} {perNode : Int}

theorem map_fst_counts (hosts : List String) (r : Int) : (counts cfg perNode hosts r).map Prod.fst = hosts := by
  induction hosts generalizing r with
  | nil => rfl
  | cons host hosts ih =>
    rw [counts]
    split
    · rw [List.map_cons,ih]
    · rw [List.map_cons,ih]

theorem mem_counts {hosts : List String} {r n : Int} {x : String × Nat} (hx : x ∈ counts cfg perNode hosts r)
    (hn : cfg x.1 = some n) : x.2 = n.toNat := by
  induction hosts generalizing r with
  | nil => cases hx
  | cons host hosts ih =>
    rw [counts] at hx
    split at hx
    · rename_i m hm
      rcases List.mem_cons.mp hx with rfl | hx
      · exact congrArg Int.toNat (Option.some.inj (hm.symm.trans hn))
      · exact ih hx
    · rename_i hm
      rcases List.mem_cons.mp hx with rfl | hx
      · cases hm.symm.trans hn
      · exact ih hx

/-- The hosts without configuration get the quotient each, and one more as long as the remainder lasts. -/
theorem sum_counts (hq : 0 ≤ perNode) (hcfg : ∀ h n, cfg h = some n → 0 ≤ n) (hosts : List String) {r : Int}
    (hr : 0 ≤ r) : (((counts cfg perNode hosts r).map Prod.snd).sum : Int) =
      (hosts.map fun h => (cfg h).getD 0).sum + (hosts.countP fun h => (cfg h).isNone) * perNode +
        min (hosts.countP fun h => (cfg h).isNone : Int) r := by
  induction hosts generalizing r with
  | nil => simp [counts,hr]
  | cons host hosts ih =>
    rw [counts]
    split
    · rename_i n hn
      have hn0 := hcfg host n hn
      rw [List.map_cons,List.sum_cons,Nat.cast_add,ih hr,List.map_cons,List.sum_cons,hn,Option.getD_some,
        List.countP_cons_of_neg (by simp [hn]),Int.toNat_of_nonneg hn0]
      omega
    · rename_i hn
      rw [List.map_cons,List.sum_cons,Nat.cast_add,List.map_cons,List.sum_cons,hn,Option.getD_none,
        List.countP_cons_of_pos (by simp [hn]),Nat.cast_add,Nat.cast_one,add_mul,one_mul]
      by_cases hr0 : 0 < r
      · rw [share,if_pos hr0,ih (by omega),Int.toNat_of_nonneg (by omega)]
        omega
      · rw [share,if_neg hr0,ih hr,Int.toNat_of_nonneg hq]
        omega

end counts

namespace Experiment
variable (e : Experiment) (visit : ID → List (String × Int64) → List (String × Int64))

def configured (count : HostConfig → Int64) (host : String) : Option Int :=
  (e.hostConfigs.lookup host).map fun c => (count c).toInt

private theorem foldl_assignHost (hosts : List String) (r c : Int) (a : Assignment) :
    (hosts.foldl (e.assignHost visit) ((r,c),a)).2.replicas =
        a.replicas.deal (counts (e.configured HostConfig.replicas) (e.perNode e.remainingReplicas) hosts r) ∧
      (hosts.foldl (e.assignHost visit) ((r,c),a)).2.clients =
        a.clients.deal (counts (e.configured HostConfig.clients) (e.perNode e.remainingClients) hosts c) ∧
      (a.Named → (hosts.foldl (e.assignHost visit) ((r,c),a)).2.Named) := by
  induction hosts generalizing r c a with
  | nil => exact ⟨rfl,rfl,fun h => h⟩
  | cons host hosts ih =>
    rw [List.foldl_cons,assignHost,counts,counts,configured,configured]
    cases e.hostConfigs.lookup host with
    | some cfg =>
      obtain ⟨hr,hc,hn⟩ := ih r c (a.place visit host cfg.replicas.toInt cfg.clients.toInt)
      exact ⟨hr.trans (by rw [Assignment.replicas_place]; rfl),hc.trans (by rw [Assignment.clients_place]; rfl),
        fun h => hn (h.place visit host _ _)⟩
    | none =>
      obtain ⟨hr,hc,hn⟩ := ih (share (e.perNode e.remainingReplicas) r).2 (share (e.perNode e.remainingClients) c).2
        (a.place visit host (share (e.perNode e.remainingReplicas) r).1 (share (e.perNode e.remainingClients) c).1)
      exact ⟨hr.trans (by rw [Assignment.replicas_place]; rfl),hc.trans (by rw [Assignment.clients_place]; rfl),
        fun h => hn (h.place visit host _ _)⟩

def assigned : Nat := ((counts (e.configured HostConfig.replicas) (e.perNode e.remainingReplicas) e.hosts
  (e.remainder e.remainingReplicas)).map Prod.snd).sum

def rest (num : Int64) (count : HostConfig → Int64) : Int :=
  num.toInt - (e.hostConfigs.map fun x => (count x.2).toInt).sum

/-- The rest can be shared out: there is none, or there are hosts for it, and the number that it is divided by is that
of these hosts unless less than one is left for each. -/
def Shared (rest : Int) : Prop :=
  rest = 0 ∨ 0 < e.autoConfig ∧ ((∀ x ∈ e.hostConfigs, x.1 ∈ e.hosts) ∨ rest < e.autoConfig)

variable {e} {num : Int64} {count : HostConfig → Int64}

private theorem foldl_sub_toInt {l : List (String × HostConfig)} (hpos : ∀ x ∈ l, 0 ≤ (count x.2).toInt)
    (h : -2^63 ≤ num.toInt - (l.map fun x => (count x.2).toInt).sum) :
    (l.foldl (fun r x => r - count x.2) num).toInt = num.toInt - (l.map fun x => (count x.2).toInt).sum := by
  induction l generalizing num with
  | nil => simp
  | cons x l ih =>
    rw [List.map_cons,List.sum_cons] at h ⊢
    have hx := hpos x List.mem_cons_self
    have hl : 0 ≤ (l.map fun x => (count x.2).toInt).sum := by
      apply List.sum_nonneg
      intro n hn
      obtain ⟨y,hy,rfl⟩ := List.mem_map.mp hn
      exact hpos y (List.mem_cons_of_mem _ hy)
    have hlt := num.toInt_lt
    have hsub : (num - count x.2).toInt = num.toInt - (count x.2).toInt := by
      rw [Int64.toInt_sub]
      exact Int.bmod_eq_of_le (by norm_num; omega) (by norm_num; omega)
    rw [List.foldl_cons,ih (fun y hy => hpos y (List.mem_cons_of_mem _ hy)) (by rw [hsub]; omega),hsub]
    omega

/-- Without a wrap-around the loop subtracts what is configured. -/
theorem remaining_toInt (hpos : ∀ x ∈ e.hostConfigs, 0 ≤ (count x.2).toInt) (h : -2^63 ≤ e.rest num count) :
    (e.remaining num count).toInt = e.rest num count := foldl_sub_toInt hpos h

theorem configured_of_mem {x : String × HostConfig} (hx : x ∈ e.hostConfigs) :
    e.configured count x.1 = some (count x.2).toInt := by
  rw [configured,lookup_of_mem e.configs_nodup hx,Option.map_some]

theorem configured_eq_none {host : String} (h : host ∉ e.hostConfigs.map Prod.fst) :
    e.configured count host = none := by
  rw [configured,Option.map_eq_none_iff,Option.eq_none_iff_forall_ne_some]
  exact fun c hc => h (List.mem_map.mpr ⟨_,mem_of_lookup hc,rfl⟩)

private theorem sum_configured (hzero : ∀ x ∈ e.hostConfigs, x.1 ∉ e.hosts → count x.2 = 0) :
    (e.hosts.map fun h => (e.configured count h).getD 0).sum =
      (e.hostConfigs.map fun x => (count x.2).toInt).sum := by
  have hkeys : (e.hostConfigs.map fun x => (count x.2).toInt) =
      (e.hostConfigs.map Prod.fst).map fun h => (e.configured count h).getD 0 := by
    rw [List.map_map]
    refine List.map_congr_left fun x hx => ?_
    rw [Function.comp_apply,configured_of_mem hx,Option.getD_some]
  rw [hkeys,← List.sum_toFinset _ e.hosts_nodup,← List.sum_toFinset _ e.configs_nodup]
  -- both are the sum over the hosts that are known and configured
  calc ∑ h ∈ e.hosts.toFinset, (e.configured count h).getD 0
      = ∑ h ∈ e.hosts.toFinset ∪ (e.hostConfigs.map Prod.fst).toFinset, (e.configured count h).getD 0 := by
        refine Finset.sum_subset Finset.subset_union_left fun h hh hnot => ?_
        obtain ⟨x,hx,rfl⟩ := List.mem_map.mp (List.mem_toFinset.mp ((Finset.mem_union.mp hh).resolve_left hnot))
        rw [configured_of_mem hx,hzero x hx fun hm => hnot (List.mem_toFinset.mpr hm)]
        rfl
    _ = _ := by
        refine (Finset.sum_subset Finset.subset_union_right fun h _ hnot => ?_).symm
        rw [configured_eq_none fun hm => hnot (List.mem_toFinset.mpr hm)]
        rfl

/-- Hosts without configuration are as many as thought, and one more for every configuration of an unknown host. -/
private theorem countP_unconfigured : (e.hosts.countP fun h => (e.configured count h).isNone : Int) =
    e.autoConfig + ((e.hostConfigs.map Prod.fst).countP fun h => h ∉ e.hosts) := by
  have hnone (h : String) : (e.configured count h).isNone = decide (h ∉ e.hostConfigs.map Prod.fst) := by
    by_cases hm : h ∈ e.hostConfigs.map Prod.fst
    · obtain ⟨x,hx,rfl⟩ := List.mem_map.mp hm
      rw [configured_of_mem hx,decide_eq_false (not_not.mpr hm),Option.isNone_some]
    · rw [configured_eq_none hm,decide_eq_true hm,Option.isNone_none]
  have hboth : e.hosts.countP (fun h => h ∈ e.hostConfigs.map Prod.fst) =
      (e.hostConfigs.map Prod.fst).countP (fun h => h ∈ e.hosts) := by
    rw [List.countP_eq_length_filter,List.countP_eq_length_filter]
    refine List.Perm.length_eq ?_
    refine (List.perm_ext_iff_of_nodup (e.hosts_nodup.filter _) (e.configs_nodup.filter _)).mpr fun h => ?_
    rw [List.mem_filter,List.mem_filter,decide_eq_true_eq,decide_eq_true_eq]
    exact and_comm
  have hhosts := List.length_eq_countP_add_countP (fun h => decide (h ∈ e.hostConfigs.map Prod.fst)) (l := e.hosts)
  have hkeys := List.length_eq_countP_add_countP (fun h => decide (h ∈ e.hosts)) (l := e.hostConfigs.map Prod.fst)
  simp only [decide_eq_true_eq,List.length_map] at hhosts hkeys
  simp only [hnone,autoConfig]
  omega

private theorem countP_unknown : (e.hostConfigs.map Prod.fst).countP (fun h => h ∉ e.hosts) = 0 ↔
    ∀ x ∈ e.hostConfigs, x.1 ∈ e.hosts := by
  simp [List.countP_eq_zero]

/-- The two ways of cutting up the rest are the same. -/
private theorem shared_iff {u k : Nat} {auto rest q r : Int} (hrest : 0 ≤ rest) (hu : (u : Int) = auto + k)
    (hq : q = if 0 < auto then rest / auto else 0) (hr : r = if 0 < auto then rest % auto else 0) :
    u * q + min (u : Int) r = rest ↔ rest = 0 ∨ 0 < auto ∧ (k = 0 ∨ rest < auto) := by
  by_cases hauto : 0 < auto
  · rw [if_pos hauto] at hq hr
    have hdiv : r + auto * q = rest := by rw [hq,hr]; exact Int.emod_add_mul_ediv rest auto
    have hlt : r < auto := hr ▸ Int.emod_lt_of_pos rest hauto
    have hmul : (u : Int) * q = auto * q + k * q := by rw [hu,add_mul]
    have hzero : q = 0 ↔ rest < auto := by
      constructor
      · intro h0
        rw [h0,mul_zero] at hdiv
        omega
      · intro h0
        rw [hq]
        exact Int.ediv_eq_zero_of_lt hrest h0
    have hkq : (k : Int) * q = 0 ↔ k = 0 ∨ rest < auto := by
      rw [mul_eq_zero,hzero,Nat.cast_eq_zero]
    have hnone : rest = 0 → (k : Int) * q = 0 := fun h0 => hkq.mpr (.inr (h0 ▸ hauto))
    rw [min_eq_right (by omega),hmul,← hkq]
    omega
  · rw [if_neg hauto] at hq hr
    subst hq hr
    simp only [mul_zero,zero_add,hauto,false_and,or_false]
    omega

def LedgerExact (e : Experiment) (num : Int64) (count : HostConfig → Int64) (l : Ledger) : Prop :=
  ((e.hosts.flatMap l.lists).map UInt32.toNat).Perm (List.range' 1 num.toInt.toNat) ∧
    ∀ x ∈ e.hostConfigs, ((l.lists x.1).length : Int) = (count x.2).toInt

private def dealt (e : Experiment) (num : Int64) (count : HostConfig → Int64) : List (String × Nat) :=
  counts (e.configured count) (e.perNode (e.remaining num count)) e.hosts (e.remainder (e.remaining num count))

private theorem dealt_spec : e.hosts.flatMap (Ledger.deal {} (e.dealt num count)).lists =
      Ledger.ids 1 ((e.dealt num count).map Prod.snd).sum ∧
    (∀ x ∈ e.dealt num count, ((Ledger.deal {} (e.dealt num count)).lists x.1).length = x.2) ∧
    ∀ host, host ∉ e.hosts → (Ledger.deal {} (e.dealt num count)).lists host = [] := by
  have hfst : (e.dealt num count).map Prod.fst = e.hosts := map_fst_counts _ _
  have hspec := Ledger.deal_spec (l := {}) (k := 1) (d := e.dealt num count) (hfst ▸ e.hosts_nodup) rfl fun _ _ => rfl
  rwa [hfst] at hspec

/-- A configured host gets its number if it is a host at all. -/
private theorem lists_length_iff (hpos : ∀ x ∈ e.hostConfigs, 0 ≤ (count x.2).toInt) :
    (∀ x ∈ e.hostConfigs, (((Ledger.deal {} (e.dealt num count)).lists x.1).length : Int) = (count x.2).toInt) ↔
      ∀ x ∈ e.hostConfigs, x.1 ∉ e.hosts → count x.2 = 0 := by
  obtain ⟨-,hlen,hempty⟩ := @dealt_spec e num count
  refine forall₂_congr fun x hx => ?_
  by_cases hhost : x.1 ∈ e.hosts
  · refine iff_of_true ?_ (absurd hhost)
    have hmem : x.1 ∈ (e.dealt num count).map Prod.fst := by rwa [dealt,map_fst_counts]
    obtain ⟨y,hy,hyx⟩ := List.mem_map.mp hmem
    have hy2 : y.2 = (count x.2).toInt.toNat := mem_counts hy (hyx ▸ configured_of_mem hx)
    rw [← hyx,hlen y hy,hy2,Int.toNat_of_nonneg (hpos x hx)]
  · rw [hempty x.1 hhost,List.length_nil]
    constructor
    · intro h _
      exact Int64.toInt_inj.mp h.symm
    · intro h
      rw [h hhost]
      rfl

/-- The total, up to what the hosts without configuration share. -/
private theorem sum_dealt (hpos : ∀ x ∈ e.hostConfigs, 0 ≤ (count x.2).toInt) (hnil : ¬ e.remaining num count < 0)
    (hzero : ∀ x ∈ e.hostConfigs, x.1 ∉ e.hosts → count x.2 = 0) :
    ∃ shared : Int, 0 ≤ shared ∧
      (((e.dealt num count).map Prod.snd).sum : Int) = num.toInt - e.rest num count + shared ∧
      (shared = (e.remaining num count).toInt ↔ e.Shared (e.remaining num count).toInt) := by
  have hrem : 0 ≤ (e.remaining num count).toInt := by
    rw [Int64.lt_iff_toInt_lt,Int64.toInt_zero] at hnil
    omega
  have hq : e.perNode (e.remaining num count) =
      if 0 < e.autoConfig then (e.remaining num count).toInt / e.autoConfig else 0 := by
    rw [perNode,Int.tdiv_eq_ediv_of_nonneg hrem]
  have hr : e.remainder (e.remaining num count) =
      if 0 < e.autoConfig then (e.remaining num count).toInt % e.autoConfig else 0 := by
    rw [remainder,Int.tmod_eq_emod_of_nonneg hrem]
  have hq0 : 0 ≤ e.perNode (e.remaining num count) := by
    rw [hq]
    split_ifs with hauto
    · exact Int.ediv_nonneg hrem hauto.le
    · exact le_rfl
  have hr0 : 0 ≤ e.remainder (e.remaining num count) := by
    rw [hr]
    split_ifs with hauto
    · exact Int.emod_nonneg _ hauto.ne'
    · exact le_rfl
  have hcfg (h : String) (n : Int) (hn : e.configured count h = some n) : 0 ≤ n := by
    obtain ⟨c,hc,rfl⟩ := Option.map_eq_some_iff.mp hn
    exact hpos (h,c) (mem_of_lookup hc)
  refine ⟨_,?_,?_,(shared_iff hrem (@countP_unconfigured e count) hq hr).trans ?_⟩
  · exact add_nonneg (mul_nonneg (Int.natCast_nonneg _) hq0) (le_min (Int.natCast_nonneg _) hr0)
  · rw [dealt,sum_counts hq0 hcfg e.hosts hr0,sum_configured hzero,rest]
    ring
  · rw [countP_unknown,Shared]

/-- Exactly when the loop over the hosts deals out one of the two kinds as requested. -/
private theorem ledgerExact_iff (hpos : ∀ x ∈ e.hostConfigs, 0 ≤ (count x.2).toInt)
    (hnil : ¬ e.remaining num count < 0) : e.LedgerExact num count (Ledger.deal {} (e.dealt num count)) ↔
      num.toInt < 2^32 ∧ 0 ≤ e.rest num count ∧ e.Shared (e.rest num count) ∧
        ∀ x ∈ e.hostConfigs, x.1 ∉ e.hosts → count x.2 = 0 := by
  rw [LedgerExact,lists_length_iff hpos,dealt_spec.1,Ledger.ids_perm_iff]
  have hrem : 0 ≤ (e.remaining num count).toInt := by
    rw [Int64.lt_iff_toInt_lt,Int64.toInt_zero] at hnil
    omega
  have hge := num.le_toInt
  have hsum : 0 ≤ num.toInt - e.rest num count := by
    rw [rest,sub_sub_cancel]
    apply List.sum_nonneg
    intro n hn
    obtain ⟨y,hy,rfl⟩ := List.mem_map.mp hn
    exact hpos y hy
  constructor
  · rintro ⟨⟨htotal,hlt⟩,hzero⟩
    obtain ⟨shared,hshared,hsum',hiff⟩ := sum_dealt hpos hnil hzero
    have hrest : (e.remaining num count).toInt = e.rest num count := remaining_toInt hpos (by omega)
    rw [hrest] at hrem hiff
    exact ⟨by omega,hrem,hiff.mp (by omega),hzero⟩
  · rintro ⟨hlt,hrest,hsh,hzero⟩
    obtain ⟨shared,-,hsum',hiff⟩ := sum_dealt hpos hnil hzero
    rw [remaining_toInt hpos (by omega)] at hiff
    have heq := hiff.mpr hsh
    exact ⟨⟨by omega,by omega⟩,hzero⟩

/-- The IDs of each kind are dealt out in a row. -/
private theorem ids_of_assign {visit : ID → List (String × Int64) → List (String × Int64)} {a : Assignment}
    (h : e.assignReplicasAndClients visit = .ok a) :
    e.hosts.flatMap a.hostsToReplicas = Ledger.ids 1 e.assigned ∧
      ∃ n, e.hosts.flatMap a.hostsToClients = Ledger.ids 1 n := by
  rw [assignReplicasAndClients] at h
  split_ifs at h
  cases h
  obtain ⟨hreplicas,hclients,-⟩ := e.foldl_assignHost visit e.hosts (e.remainder e.remainingReplicas)
    (e.remainder e.remainingClients) { byzantine := e.byzantine }
  obtain ⟨hr,-⟩ := @dealt_spec e e.numReplicas HostConfig.replicas
  obtain ⟨hc,-⟩ := @dealt_spec e e.numClients HostConfig.clients
  exact ⟨(congrArg (fun l : Ledger => e.hosts.flatMap l.lists) hreplicas).trans hr,
    _,(congrArg (fun l : Ledger => e.hosts.flatMap l.lists) hclients).trans hc⟩

theorem length_replicas {visit : ID → List (String × Int64) → List (String × Int64)} {a : Assignment}
    (h : e.assignReplicasAndClients visit = .ok a) : (e.hosts.flatMap a.hostsToReplicas).length = e.assigned := by
  rw [(ids_of_assign h).1,Ledger.ids,List.length_map,List.length_range']

/-- As long as the IDs do not start over, no two hosts get the same one. -/
theorem nodup_of_assign {visit : ID → List (String × Int64) → List (String × Int64)} {a : Assignment}
    (h : e.assignReplicasAndClients visit = .ok a) :
    ((e.hosts.flatMap a.hostsToReplicas).length ≤ 2^32 → (e.hosts.flatMap a.hostsToReplicas).Nodup) ∧
      ((e.hosts.flatMap a.hostsToClients).length ≤ 2^32 → (e.hosts.flatMap a.hostsToClients).Nodup) := by
  have hids {l : List ID} {n : Nat} (hl : l = Ledger.ids 1 n) (hlen : l.length ≤ 2^32) : l.Nodup := by
    rw [hl,Ledger.ids,List.length_map,List.length_range'] at hlen
    exact hl ▸ Ledger.ids_nodup 1 hlen
  obtain ⟨hr,n,hc⟩ := ids_of_assign h
  exact ⟨hids hr,hids hc⟩

/-- Every replica that is assigned has options. -/
theorem named_of_assign {visit : ID → List (String × Int64) → List (String × Int64)} {a : Assignment}
    (h : e.assignReplicasAndClients visit = .ok a) : a.Named := by
  rw [assignReplicasAndClients] at h
  split_ifs at h
  cases h
  exact (e.foldl_assignHost visit e.hosts _ _ { byzantine := e.byzantine }).2.2 fun _ _ hid => absurd hid List.not_mem_nil

/-- The IDs of the replicas on all hosts are 1 to the requested number, each once and with options of its own, those
of the clients likewise, and a configured host has as many as configured. -/
structure Exact (e : Experiment) (a : Assignment) : Prop where
  replicas : ((e.hosts.flatMap a.hostsToReplicas).map UInt32.toNat).Perm (List.range' 1 e.numReplicas.toInt.toNat)
  named : a.Named
  clients : ((e.hosts.flatMap a.hostsToClients).map UInt32.toNat).Perm (List.range' 1 e.numClients.toInt.toNat)
  configured : ∀ x ∈ e.hostConfigs, ((a.hostsToReplicas x.1).length : Int) = x.2.replicas.toInt ∧
    ((a.hostsToClients x.1).length : Int) = x.2.clients.toInt

/-- An assignment without error is the requested one exactly if nothing is configured for unknown hosts, the rest can
be shared out, and the IDs do not run out. -/
theorem assignment_exact_iff (e : Experiment) (visit : ID → List (String × Int64) → List (String × Int64))
    (hpos : ∀ x ∈ e.hostConfigs, 0 ≤ x.2.replicas.toInt ∧ 0 ≤ x.2.clients.toInt) (a : Assignment)
    (h : e.assignReplicasAndClients visit = .ok a) : e.Exact a ↔
      (∀ x ∈ e.hostConfigs, x.1 ∉ e.hosts → x.2.replicas = 0 ∧ x.2.clients = 0) ∧
      (0 ≤ e.rest e.numReplicas HostConfig.replicas ∧ e.Shared (e.rest e.numReplicas HostConfig.replicas)) ∧
      (0 ≤ e.rest e.numClients HostConfig.clients ∧ e.Shared (e.rest e.numClients HostConfig.clients)) ∧
      e.numReplicas.toInt < 2^32 ∧ e.numClients.toInt < 2^32 := by
  rw [assignReplicasAndClients] at h
  split_ifs at h with hr hc
  cases h
  obtain ⟨hreplicas,hclients,hnamed⟩ := e.foldl_assignHost visit e.hosts (e.remainder e.remainingReplicas)
    (e.remainder e.remainingClients) { byzantine := e.byzantine }
  have hir := ledgerExact_iff (fun x hx => (hpos x hx).1) hr
  have hic := ledgerExact_iff (fun x hx => (hpos x hx).2) hc
  rw [show Ledger.deal {} (e.dealt e.numReplicas HostConfig.replicas) = _ from hreplicas.symm] at hir
  rw [show Ledger.deal {} (e.dealt e.numClients HostConfig.clients) = _ from hclients.symm] at hic
  constructor
  · intro hex
    obtain ⟨hrlt,hr0,hrs,hru⟩ := hir.mp ⟨hex.replicas,fun x hx => (hex.configured x hx).1⟩
    obtain ⟨hclt,hc0,hcs,hcu⟩ := hic.mp ⟨hex.clients,fun x hx => (hex.configured x hx).2⟩
    exact ⟨fun x hx hn => ⟨hru x hx hn,hcu x hx hn⟩,⟨hr0,hrs⟩,⟨hc0,hcs⟩,hrlt,hclt⟩
  · rintro ⟨hunknown,⟨hr0,hrs⟩,⟨hc0,hcs⟩,hrlt,hclt⟩
    obtain ⟨hrp,hrl⟩ := hir.mpr ⟨hrlt,hr0,hrs,fun x hx hn => (hunknown x hx hn).1⟩
    obtain ⟨hcp,hcl⟩ := hic.mpr ⟨hclt,hc0,hcs,fun x hx hn => (hunknown x hx hn).2⟩
    exact ⟨hrp,hnamed fun _ _ hid => absurd hid List.not_mem_nil,hcp,fun x hx => ⟨hrl x hx,hcl x hx⟩⟩

end Experiment

private def three : Experiment :=
  ⟨5,2,["a","b","c"],[("a",⟨1,0⟩)],[("silence",1)],by decide,by decide⟩

theorem assignment_exact_three : ∃ a, three.assignReplicasAndClients (fun _ l => l) = .ok a ∧ three.Exact a := by
  refine ⟨_,rfl,(three.assignment_exact_iff (fun _ l => l) (by decide) _ rfl).mpr ⟨by decide,⟨by decide,.inr ?_⟩,
    ⟨by decide,.inr ?_⟩,by decide,by decide⟩⟩
  · exact ⟨by decide,.inl (by decide)⟩
  · exact ⟨by decide,.inl (by decide)⟩

private def partly : Experiment := ⟨4,0,["a"],[("a",⟨1,0⟩)],[],by decide,by decide⟩

private def misspelt : Experiment := ⟨4,0,["a"],[("b",⟨1,0⟩)],[],by decide,by decide⟩

/-- Three replicas are not assigned to any host, or none of them is; there is no error. -/
theorem assignment_not_exact :
    (∃ a, partly.assignReplicasAndClients (fun _ l => l) = .ok a ∧ a.hostsToReplicas "a" = [1] ∧ ¬ partly.Exact a) ∧
    ∃ a, misspelt.assignReplicasAndClients (fun _ l => l) = .ok a ∧ a.hostsToReplicas "a" = [] ∧
      ¬ misspelt.Exact a := by
  refine ⟨⟨_,rfl,by decide,fun h => ?_⟩,⟨_,rfl,by decide,fun h => ?_⟩⟩
  · exact absurd h.replicas.length_eq (by decide)
  · exact absurd h.replicas.length_eq (by decide)

end Hotstuff.Orchestration
