import Hotstuff.Consensus.Encoding
import Hotstuff.Library.History
import Hotstuff.Library.SortedSlice
import Mathlib.Data.Finmap

/-! `ToBytes` of an ECDSA threshold signature as the code runs it: while the map is iterated, in any order, the signers
are inserted into a sorted slice. Nothing keeps the map from holding nil pointers, or entries under the key of another
signer; `none` is a panic. -/
namespace Hotstuff
open Library

abbrev SignatureMap := Finmap fun _ : ID => Option EcdsaSignature

namespace SignatureMap

abbrev Entry := Sigma fun _ : ID => Option EcdsaSignature

/-- The entries in the order of one iteration over the map. Go leaves it open which. -/
def Iteration (m : SignatureMap) (l : List Entry) : Prop := (l : Multiset Entry) = m.entries

/-- One round of the first loop: `sort.Search`, `append(order,0)`, `copy(order[i+1:],order[i:])` and the assignment. -/
def place (order : List ID) (signer : ID) : Option (List ID) := do
  let i ← search order.length fun i => order[i]?.map fun id => decide (signer < id)
  let order ← copyWithin (order ++ [0]) (i+1) i
  assign order i signer

def order (iteration : List Entry) : Option (List ID) :=
  iteration.foldlM (fun order e => e.2.bind fun signature => place order signature.signer) []

/-- `sig[id]` is nil under a missing key, and a nil pointer has no bytes. -/
def toBytes (m : SignatureMap) (iteration : List Entry) : Option (List UInt8) := do
  let order ← order iteration
  order.foldlM (fun b id => (m.lookup id).join.map fun signature => b ++ signature.toBytes) []

def restore (signatures : List (Option EcdsaSignature)) : Option SignatureMap :=
  signatures.foldlM (fun m s => s.map fun g => m.insert g.signer (some g)) ∅

def Keyed (m : SignatureMap) : Prop := ∀ e ∈ m.entries, e.2.map EcdsaSignature.signer = some e.1

def entry (g : EcdsaSignature) : Entry := ⟨g.signer,some g⟩

theorem entry_injective : Function.Injective entry := by
  intro a b h
  have hab : (entry a).2 = (entry b).2 := congrArg Sigma.snd h
  exact Option.some.inj hab

theorem Keyed.map_entry {m : SignatureMap} (h : m.Keyed) {l : List Entry} (hl : m.Iteration l) :
    ∃ signatures : List EcdsaSignature, signatures.map entry = l := by
  have hrange : l ∈ Set.range (List.map entry) := by
    rw [Set.range_list_map]
    intro e he
    have hmem : e ∈ (l : Multiset Entry) := Multiset.mem_coe.mpr he
    rw [hl] at hmem
    obtain ⟨g,hg,hid⟩ := Option.map_eq_some_iff.mp (h e hmem)
    exact ⟨g,Sigma.ext hid (heq_of_eq hg.symm)⟩
  exact hrange

theorem keys_map_entry (l : List EcdsaSignature) : (l.map entry).keys = l.map EcdsaSignature.signer :=
  List.map_map

/-- On a sorted slice the binary search finds the place at which a linear one would insert. -/
theorem place_eq {order : List ID} (h : order.Pairwise (· ≤ ·)) (signer : ID) :
    place order signer = some (order.orderedInsert (· < ·) signer) := by
  have hsorted : order.Pairwise fun a b => decide (signer < a) = true → decide (signer < b) = true := by
    refine h.imp fun hab ha => decide_eq_true ?_
    exact UInt32.lt_of_lt_of_le (of_decide_eq_true ha) hab
  refine (search_insert hsorted 0 signer).trans (congrArg some ?_)
  rw [List.orderedInsert_eq_take_drop]
  simp only [decide_not]

/-- After every round the slice is sorted, so the next search works. -/
theorem order_map_entry (l : List EcdsaSignature) : order (l.map entry) = some (EcdsaThreshold.order l) := by
  induction l using List.reverseRecOn with
  | nil => rfl
  | append_singleton l g ih =>
    have hlast : EcdsaThreshold.order (l ++ [g]) = (EcdsaThreshold.order l).orderedInsert (· < ·) g.signer := by
      rw [EcdsaThreshold.order,List.foldl_append]
      rfl
    have hround : order ((l ++ [g]).map entry) = (order (l.map entry)).bind (place · g.signer) := by
      rw [order,List.map_append,List.foldlM_append]
      refine congrArg _ (funext fun o => ?_)
      simp [entry]
    rw [hround,ih,Option.bind_some,place_eq (EcdsaThreshold.order_sorted l),hlast]

end SignatureMap

namespace EcdsaThreshold
open SignatureMap

def toMap (t : EcdsaThreshold) : SignatureMap where
  entries := (t.entries.map entry : List SignatureMap.Entry)
  nodupKeys := by
    rw [Multiset.coe_nodupKeys,List.NodupKeys,keys_map_entry]
    exact t.nodup_signers

theorem lookup_toMap_iff {t : EcdsaThreshold} {id : ID} {s : Option EcdsaSignature} :
    t.toMap.lookup id = some s ↔ ∃ g ∈ t.entries, entry g = ⟨id,s⟩ := by
  rw [Finmap.lookup_eq_some_iff]
  exact Multiset.mem_coe.trans List.mem_map

theorem lookup_toMap {t : EcdsaThreshold} {g : EcdsaSignature} (hg : g ∈ t.entries) :
    t.toMap.lookup g.signer = some (some g) := lookup_toMap_iff.mpr ⟨g,hg,rfl⟩

theorem toMap_insert (t : EcdsaThreshold) (g : EcdsaSignature) :
    (t.insert g).toMap = t.toMap.insert g.signer (some g) := by
  apply Finmap.ext_lookup
  intro id
  by_cases hid : id = g.signer
  · rw [hid,Finmap.lookup_insert,lookup_toMap (mem_insert.mpr (.inl rfl))]
  · rw [Finmap.lookup_insert_of_ne _ hid]
    apply Option.ext
    intro s
    rw [lookup_toMap_iff,lookup_toMap_iff]
    constructor
    · rintro ⟨x,hx,he⟩
      have hx' : x.signer = id := congrArg Sigma.fst he
      rcases mem_insert.mp hx with rfl | ⟨hx,-⟩
      · exact absurd hx'.symm hid
      · exact ⟨x,hx,he⟩
    · rintro ⟨x,hx,he⟩
      have hx' : x.signer = id := congrArg Sigma.fst he
      exact ⟨x,mem_insert.mpr (.inr ⟨hx,hx' ▸ hid⟩),he⟩

/-- Without nil pointers the map is restored. -/
theorem restore_map_some (l : List EcdsaSignature) :
    SignatureMap.restore (l.map some) = some (EcdsaThreshold.restore l).toMap := by
  induction l using List.reverseRecOn with
  | nil => rfl
  | append_singleton l g ih =>
    have hlast : EcdsaThreshold.restore (l ++ [g]) = (EcdsaThreshold.restore l).insert g := List.foldl_append
    rw [SignatureMap.restore] at ih ⊢
    rw [List.map_append,List.foldlM_append,ih,hlast,toMap_insert]
    rfl

theorem toMap_keyed (t : EcdsaThreshold) : t.toMap.Keyed := by
  intro e he
  obtain ⟨g,-,rfl⟩ := List.mem_map.mp (Multiset.mem_coe.mp he)
  rfl

theorem iteration_toMap {t : EcdsaThreshold} {l : List SignatureMap.Entry} (h : t.toMap.Iteration l) :
    ∃ signatures : List EcdsaSignature, signatures.Perm t.entries ∧ signatures.map entry = l := by
  obtain ⟨signatures,rfl⟩ := t.toMap_keyed.map_entry h
  have hperm : (signatures.map entry).Perm (t.entries.map entry) := Multiset.coe_eq_coe.mp h
  exact ⟨signatures,(List.map_perm_map_iff entry_injective).mp hperm,rfl⟩

/-- The code on the map refines the concatenation of the sorted entries. -/
theorem toBytes_toMap (t : EcdsaThreshold) {l : List SignatureMap.Entry} (h : t.toMap.Iteration l) :
    t.toMap.toBytes l = some t.toBytes := by
  obtain ⟨signatures,hperm,rfl⟩ := iteration_toMap h
  have hloop (rest : List EcdsaSignature) (hrest : rest ⊆ t.entries) (b : List UInt8) :
      (rest.map EcdsaSignature.signer).foldlM
        (fun b id => (t.toMap.lookup id).join.map fun signature => b ++ signature.toBytes) b =
          some (b ++ rest.flatMap EcdsaSignature.toBytes) := by
    induction rest generalizing b with
    | nil => simp
    | cons g rest ih =>
      obtain ⟨hg,hrest⟩ := List.cons_subset.mp hrest
      rw [List.map_cons,List.foldlM_cons,lookup_toMap hg,List.flatMap_cons,← List.append_assoc]
      exact ih hrest _
  have horder : EcdsaThreshold.order signatures = t.entries.map EcdsaSignature.signer := order_eq t hperm
  rw [SignatureMap.toBytes,order_map_entry,horder,toBytes_eq]
  exact hloop t.entries (List.Subset.refl _) []

end EcdsaThreshold

namespace SignatureMap

/-- The sorted lists of entries are all the maps with the right keys. -/
theorem Keyed.exists_toMap {m : SignatureMap} (h : m.Keyed) : ∃ t : EcdsaThreshold, t.toMap = m := by
  obtain ⟨l,hl⟩ : ∃ l, m.Iteration l := Quotient.exists_rep m.entries
  obtain ⟨signatures,rfl⟩ := h.map_entry hl
  have hnodup : (signatures.map EcdsaSignature.signer).Nodup := by
    rw [← keys_map_entry]
    apply Multiset.coe_nodupKeys.mp
    rw [hl]
    exact m.nodupKeys
  refine ⟨.restore signatures,Finmap.ext ?_⟩
  exact (Multiset.coe_eq_coe.mpr ((EcdsaThreshold.perm_restore hnodup).map entry)).trans hl

theorem Keyed.insert {m : SignatureMap} (h : m.Keyed) (g : EcdsaSignature) :
    Keyed (m.insert g.signer (some g)) := by
  obtain ⟨t,rfl⟩ := h.exists_toMap
  rw [← t.toMap_insert]
  exact (t.insert g).toMap_keyed

theorem restore_keyed {signatures : List (Option EcdsaSignature)} {m : SignatureMap}
    (h : restore signatures = some m) : m.Keyed := by
  refine foldlM_rec (Q := fun _ m => Keyed m) EcdsaThreshold.empty.toMap_keyed (fun _ s m t _ hm ht => ?_) h
  obtain ⟨g,-,rfl⟩ := Option.map_eq_some_iff.mp ht
  exact hm.insert g

theorem toBytes_canonical (m : SignatureMap) (hm : m.Keyed) :
    ∃ signatures : List EcdsaSignature,
      signatures.Pairwise (fun a b => a.signer < b.signer) ∧ m.Iteration (signatures.map entry) ∧
        ∀ l l', m.Iteration l → m.Iteration l' →
          m.toBytes l = m.toBytes l' ∧ m.toBytes l = some (signatures.flatMap EcdsaSignature.toBytes) := by
  obtain ⟨t,rfl⟩ := hm.exists_toMap
  refine ⟨t.entries,t.sorted,rfl,fun l l' hl hl' => ?_⟩
  rw [t.toBytes_toMap hl,t.toBytes_toMap hl',t.toBytes_eq]
  exact ⟨rfl,rfl⟩

private def twoSigners : SignatureMap := Finmap.insert 1 (some ⟨3,4,1⟩) (Finmap.insert 2 (some ⟨5,6,2⟩) ∅)

theorem toBytes_canonical_two : twoSigners.Keyed ∧
    twoSigners.toBytes [entry ⟨3,4,1⟩,entry ⟨5,6,2⟩] = twoSigners.toBytes [entry ⟨5,6,2⟩,entry ⟨3,4,1⟩] ∧
      twoSigners.toBytes [entry ⟨5,6,2⟩,entry ⟨3,4,1⟩] = some [3,4,5,6] := by
  have hrestore : restore [some ⟨5,6,2⟩,some ⟨3,4,1⟩] = some twoSigners := rfl
  have hkeyed : twoSigners.Keyed := restore_keyed hrestore
  obtain ⟨_,-,-,h⟩ := toBytes_canonical twoSigners hkeyed
  refine ⟨hkeyed,(h _ _ rfl ?_).1,rfl⟩
  exact Multiset.coe_eq_coe.mpr (List.Perm.swap _ _ _)

end SignatureMap
end Hotstuff
