import Hotstuff.Crypto.Cache
import Hotstuff.Library.LinkedList

/-! The two containers of the signature cache: a map from keys to the elements of a linked list, and that list in the
order of access. Together they are the set of most recently used keys that the cache is modelled by. -/
namespace Hotstuff
open Library

structure CacheTable where
  capacity : Nat
  entries : List (Hash × Nat) := []
  accessOrder : LinkedList Hash := .empty

namespace CacheTable

/-- `none` is the panic of `Remove` on the back of an empty list. -/
def evict (c : CacheTable) : Option CacheTable :=
  if c.entries.length < c.capacity then some c
  else do
    let elem ← c.accessOrder.back
    let key ← (c.accessOrder.remove elem).1
    return { c with accessOrder := (c.accessOrder.remove elem).2, entries := c.entries.filter fun e => e.1 ≠ key }

def insert (key : Hash) (c : CacheTable) : Option CacheTable :=
  match c.entries.lookup key with
  | some elem => some { c with accessOrder := c.accessOrder.moveToFront elem }
  | none => do
    let c ← c.evict
    let (elem,accessOrder) := c.accessOrder.pushFront key
    return { c with accessOrder := accessOrder, entries := (key,elem) :: c.entries }

def check (key : Hash) (c : CacheTable) : Bool × CacheTable :=
  match c.entries.lookup key with
  | none => (false,c)
  | some elem => (true,{ c with accessOrder := c.accessOrder.moveToFront elem })

/-- The table holds a set of recently used keys: the list has them in order, and the map leads to its elements. -/
structure Holds {cap : Nat} (c : CacheTable) (lru : Lru Hash cap) : Prop where
  capacity : c.capacity = cap
  values : c.accessOrder.values = lru.keys
  entries : c.entries.Perm (c.accessOrder.elems.map Prod.swap)

namespace Holds
variable {cap : Nat} {c : CacheTable} {lru : Lru Hash cap}

theorem keys_perm (h : c.Holds lru) : (c.entries.map Prod.fst).Perm c.accessOrder.values := by
  have hperm := h.entries.map Prod.fst
  rwa [List.map_map] at hperm

theorem nodup_values (h : c.Holds lru) : c.accessOrder.values.Nodup := h.values ▸ lru.nodup

theorem length_entries (h : c.Holds lru) : c.entries.length = lru.keys.length := by
  rw [← h.values,← h.keys_perm.length_eq,List.length_map]

/-- A key of the set is found in the map and leads to an element of the list. -/
private theorem lookup_of_mem (h : c.Holds lru) {key : Hash} (hk : key ∈ lru.keys) :
    ∃ a p b, c.accessOrder.elems = a ++ (p,key) :: b ∧ c.entries.lookup key = some p := by
  rw [← h.values] at hk
  obtain ⟨⟨p,_⟩,he,rfl⟩ := List.mem_map.mp hk
  obtain ⟨a,b,hab⟩ := List.append_of_mem he
  refine ⟨a,p,b,hab,?_⟩
  have hmem := h.entries.mem_iff.mpr (List.mem_map_of_mem (f := Prod.swap) he)
  exact Library.lookup_of_mem (h.keys_perm.nodup_iff.mpr h.nodup_values) hmem

private theorem lookup_of_not_mem (h : c.Holds lru) {key : Hash} (hk : key ∉ lru.keys) :
    c.entries.lookup key = none := by
  rw [Option.eq_none_iff_forall_ne_some]
  intro p hp
  refine hk (h.values ▸ h.keys_perm.mem_iff.mp ?_)
  exact List.mem_map.mpr ⟨_,mem_of_lookup hp,rfl⟩

private theorem moveToFront (h : c.Holds lru) {key : Hash} {p : Nat} {a b : List (Nat × Hash)}
    (hab : c.accessOrder.elems = a ++ (p,key) :: b) :
    { c with accessOrder := c.accessOrder.moveToFront p }.Holds (lru.insert key) := by
  have hmem : (p,key) ∈ c.accessOrder.elems := by simp [hab]
  have helems : (c.accessOrder.moveToFront p).elems = (p,key) :: (a ++ b) := by
    rw [LinkedList.elems_moveToFront hmem,LinkedList.others_eq hab]
  have hvalues : c.accessOrder.values = a.map Prod.snd ++ key :: b.map Prod.snd := by
    rw [LinkedList.values,hab,List.map_append,List.map_cons]
  have hnot : key ∉ a.map Prod.snd := by
    have hn := h.nodup_values
    rw [hvalues,List.nodup_middle,List.nodup_cons] at hn
    exact fun hk => hn.1 (List.mem_append_left _ hk)
  refine ⟨h.capacity,?_,?_⟩
  · have hk : key ∈ lru.keys := by simp [← h.values,hvalues]
    rw [Lru.keys_insert_of_mem hk,← h.values,hvalues,List.erase_append_right _ hnot,List.erase_cons_head,
      LinkedList.values,helems,List.map_cons,List.map_append]
  · change c.entries.Perm ((c.accessOrder.moveToFront p).elems.map Prod.swap)
    refine h.entries.trans ?_
    rw [hab,helems]
    exact List.perm_middle.map _

private theorem evict (h : c.Holds lru) : ∃ d, c.evict = some d ∧ d.capacity = cap ∧
    d.accessOrder.values = lru.evict ∧ d.entries.Perm (d.accessOrder.elems.map Prod.swap) := by
  rw [CacheTable.evict,Lru.evict,h.length_entries,h.capacity]
  split_ifs with hlt
  · exact ⟨c,rfl,h.capacity,h.values,h.entries⟩
  have hne : c.accessOrder.elems ≠ [] := by
    intro hnil
    have hkeys : lru.keys = [] := by rw [← h.values,LinkedList.values,hnil,List.map_nil]
    exact hlt (hkeys ▸ lru.pos)
  obtain ⟨a,e,hae⟩ := (List.eq_nil_or_concat _).resolve_left hne
  rw [List.concat_eq_append] at hae
  have hback : c.accessOrder.back = some e.1 := by simp [LinkedList.back,hae]
  have hkey : (c.accessOrder.remove e.1).1 = some e.2 := LinkedList.remove_fst (by simp [hae])
  have helems : (c.accessOrder.remove e.1).2.elems = a := by
    change c.accessOrder.others e.1 = a
    rw [LinkedList.others_eq hae,List.append_nil]
  have hvalues : lru.keys = a.map Prod.snd ++ [e.2] := by
    rw [← h.values,LinkedList.values,hae,List.map_append,List.map_singleton]
  refine ⟨⟨cap,c.entries.filter fun x => x.1 ≠ e.2,(c.accessOrder.remove e.1).2⟩,?_,rfl,?_,?_⟩
  · rw [hback,Option.bind_eq_bind,Option.bind_some,hkey]
    rfl
  · change (c.accessOrder.remove e.1).2.elems.map Prod.snd = _
    rw [helems,hvalues,List.dropLast_concat]
  · change (c.entries.filter fun x => x.1 ≠ e.2).Perm ((c.accessOrder.remove e.1).2.elems.map Prod.swap)
    have hnot (x : Hash × Nat) (hx : x ∈ a.map Prod.swap) : x.1 ≠ e.2 := by
      obtain ⟨y,hy,rfl⟩ := List.mem_map.mp hx
      have hn := lru.nodup
      rw [hvalues] at hn
      exact fun heq => (List.nodup_append.mp hn).2.2 y.2 (List.mem_map_of_mem hy) e.2 (by simp) heq
    refine (h.entries.filter _).trans (.of_eq ?_)
    rw [hae,helems,List.map_append,List.map_singleton,List.filter_append,
      List.filter_eq_self.mpr fun x hx => decide_eq_true (hnot x hx)]
    simp

/-- An insertion does not panic, and is a use of the key. -/
theorem insert (h : c.Holds lru) (key : Hash) : ∃ d, c.insert key = some d ∧ d.Holds (lru.insert key) := by
  by_cases hk : key ∈ lru.keys
  · obtain ⟨a,p,b,hab,hl⟩ := h.lookup_of_mem hk
    rw [CacheTable.insert,hl]
    exact ⟨_,rfl,h.moveToFront hab⟩
  · obtain ⟨d,hd,hcap,hvalues,hentries⟩ := h.evict
    rw [CacheTable.insert,h.lookup_of_not_mem hk,hd]
    refine ⟨_,rfl,hcap,?_,hentries.cons _⟩
    change key :: d.accessOrder.values = _
    rw [Lru.keys_insert_of_not_mem hk,hvalues]

/-- A check finds the keys of the set, and is a use of the key it finds. -/
theorem check_of_mem (h : c.Holds lru) {key : Hash} (hk : key ∈ lru.keys) :
    (c.check key).1 = true ∧ (c.check key).2.Holds (lru.insert key) := by
  obtain ⟨a,p,b,hab,hl⟩ := h.lookup_of_mem hk
  rw [CacheTable.check,hl]
  exact ⟨rfl,h.moveToFront hab⟩

theorem check_of_not_mem (h : c.Holds lru) {key : Hash} (hk : key ∉ lru.keys) : c.check key = (false,c) := by
  rw [CacheTable.check,h.lookup_of_not_mem hk]

/-- The table and the cache that is modelled by the set of its keys answer alike and stay in step. -/
theorem check (h : c.Holds lru) {s : Cache cap} (hs : s.lru = lru) (q : Query) (key : Hash) :
    (c.check key).1 = (s.check q key).1 ∧ (c.check key).2.Holds (s.check q key).2.lru := by
  subst hs
  rw [Cache.check]
  split_ifs with hk
  · exact h.check_of_mem hk
  · rw [h.check_of_not_mem hk]
    exact ⟨rfl,h⟩

end Holds

inductive Op where
  | insert (key : Hash)
  | check (key : Hash)
  deriving DecidableEq, Repr

def exec (s : CacheTable × List Hash) : Op → Option (CacheTable × List Hash)
  | .insert key => (s.1.insert key).map fun c => (c,key :: s.2)
  | .check key => match s.1.check key with
    | (true,c) => some (c,key :: s.2)
    | (false,c) => some (c,s.2)

def run (capacity : Nat) (ops : List Op) : Option (CacheTable × List Hash) := ops.foldlM exec ({ capacity },[])

/-- A call keeps to the set of the most recently used keys. -/
private theorem exec_holds {cap : Nat} {s : CacheTable × List Hash} {lru : Lru Hash cap} (h : s.1.Holds lru)
    (hu : lru.keys = (recent s.2).take cap) (op : Op) : ∃ t, exec s op = some t ∧ ∃ lru : Lru Hash cap, t.1.Holds lru ∧
      lru.keys = (recent t.2).take cap := by
  cases op with
  | insert key =>
    obtain ⟨d,hd,hold⟩ := h.insert key
    exact ⟨(d,key :: s.2),by rw [exec,hd,Option.map_some],_,hold,Lru.keys_insert hu key⟩
  | check key =>
    by_cases hk : key ∈ lru.keys
    · obtain ⟨hfound,hold⟩ := h.check_of_mem hk
      refine ⟨((s.1.check key).2,key :: s.2),?_,_,hold,Lru.keys_insert hu key⟩
      rw [exec,show s.1.check key = (true,(s.1.check key).2) from Prod.ext hfound rfl]
    · exact ⟨s,by rw [exec,h.check_of_not_mem hk],lru,h,hu⟩

private theorem run_holds {cap : Nat} (hpos : 1 ≤ cap) (ops : List Op) : ∃ t, run cap ops = some t ∧
    ∃ lru : Lru Hash cap, t.1.Holds lru ∧ lru.keys = (recent t.2).take cap := by
  induction ops using List.reverseRecOn with
  | nil => exact ⟨_,rfl,.empty hpos,⟨rfl,rfl,.refl _⟩,by simp [Lru.empty,recent]⟩
  | append_singleton ops op ih =>
    obtain ⟨s,hs,lru,hold,hu⟩ := ih
    obtain ⟨t,ht,hstep⟩ := exec_holds hold hu op
    refine ⟨t,?_,hstep⟩
    rw [run] at hs ⊢
    rw [List.foldlM_append,hs,Option.bind_eq_bind,Option.bind_some,List.foldlM_cons,ht]
    rfl

/-- No call panics, the map and the list hold the same keys, each once and at most `capacity`, and these are the most
recently used ones in the order of their use. -/
theorem signatureCache_lru (capacity : Nat) (h : 1 ≤ capacity) (ops : List Op) : ∃ c used,
    run capacity ops = some (c,used) ∧ (c.entries.map Prod.fst).Perm c.accessOrder.values ∧
      c.accessOrder.values.Nodup ∧ (c.entries.map Prod.fst).Nodup ∧ c.entries.length ≤ capacity ∧
      c.accessOrder.values = (recent used).take capacity := by
  obtain ⟨⟨c,used⟩,hrun,lru,hold,hu⟩ := run_holds h ops
  refine ⟨c,used,hrun,hold.keys_perm,hold.nodup_values,?_,?_,hold.values.trans hu⟩
  · exact hold.keys_perm.nodup_iff.mpr hold.nodup_values
  · rw [hold.length_entries]
    exact lru.length_le

/-- Two places: key 2 is evicted because key 1 was found after it came in. -/
theorem signatureCache_lru_two : ∃ c used, run 2 [.insert 1,.insert 2,.check 1,.check 3,.insert 3] = some (c,used) ∧
    used = [3,1,2,1] ∧ c.accessOrder.values = (recent used).take 2 ∧ c.accessOrder.values = [3,1] := by
  obtain ⟨c,used,hrun,-,-,-,-,hvalues⟩ :=
    signatureCache_lru 2 (by decide) [.insert 1,.insert 2,.check 1,.check 3,.insert 3]
  have hused : (run 2 [.insert 1,.insert 2,.check 1,.check 3,.insert 3]).map Prod.snd = some [3,1,2,1] := by decide
  rw [hrun] at hused
  cases hused
  exact ⟨c,_,hrun,rfl,hvalues,hvalues.trans (by decide)⟩

end CacheTable
end Hotstuff
