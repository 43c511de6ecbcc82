import Mathlib.Data.List.Nodup
import Mathlib.Data.List.Perm.Basic

/-! A doubly linked list whose elements are handed out as pointers: an element keeps its identity when it moves, and
a pointer to an element that has left the list does nothing. -/
namespace Hotstuff.Library

/-- Elements from front to back, each with its address. Addresses are not used again. -/
structure LinkedList (α : Type*) where
  elems : List (Nat × α)
  next : Nat
  nodup : (elems.map Prod.fst).Nodup
  allocated : ∀ e ∈ elems, e.1 < next

namespace LinkedList
variable {α : Type*}

def empty : LinkedList α := ⟨[],0,.nil,fun _ he => absurd he List.not_mem_nil⟩

def values (l : LinkedList α) : List α := l.elems.map Prod.snd

def others (l : LinkedList α) (p : Nat) : List (Nat × α) := l.elems.filter fun e => e.1 ≠ p

private theorem others_sublist (l : LinkedList α) (p : Nat) : (l.others p).Sublist l.elems := List.filter_sublist

private theorem not_mem_others (l : LinkedList α) (p : Nat) : p ∉ (l.others p).map Prod.fst := by
  intro hp
  obtain ⟨e,he,rfl⟩ := List.mem_map.mp hp
  simpa using (List.mem_filter.mp he).2

private theorem nodup_others (l : LinkedList α) (p : Nat) : ((l.others p).map Prod.fst).Nodup :=
  ((l.others_sublist p).map Prod.fst).nodup l.nodup

def pushFront (v : α) (l : LinkedList α) : Nat × LinkedList α :=
  (l.next,
    { elems := (l.next,v) :: l.elems
      next := l.next + 1
      nodup := by
        refine List.nodup_cons.mpr ⟨fun hn => ?_,l.nodup⟩
        obtain ⟨e,he,heq⟩ := List.mem_map.mp hn
        exact absurd (l.allocated e he) (heq ▸ Nat.lt_irrefl _)
      allocated := by
        intro e he
        rcases List.mem_cons.mp he with rfl | he
        · exact Nat.lt_succ_self _
        · exact Nat.lt_succ_of_lt (l.allocated e he) })

def moveToFront (p : Nat) (l : LinkedList α) : LinkedList α :=
  match h : l.elems.find? fun e => e.1 = p with
  | none => l
  | some e =>
    { elems := e :: l.others p
      next := l.next
      nodup := by
        have hp : e.1 = p := by simpa using List.find?_some h
        exact List.nodup_cons.mpr ⟨hp ▸ l.not_mem_others p,l.nodup_others p⟩
      allocated := by
        intro x hx
        rcases List.mem_cons.mp hx with rfl | hx
        · exact l.allocated _ (List.mem_of_find?_eq_some h)
        · exact l.allocated x ((l.others_sublist p).mem hx) }

def back (l : LinkedList α) : Option Nat := l.elems.getLast?.map Prod.fst

def remove (p : Nat) (l : LinkedList α) : Option α × LinkedList α :=
  ((l.elems.find? fun e => e.1 = p).map Prod.snd,
    { elems := l.others p
      next := l.next
      nodup := l.nodup_others p
      allocated := fun e he => l.allocated e ((l.others_sublist p).mem he) })

variable {l : LinkedList α}

private theorem find?_eq {e : Nat × α} (h : e ∈ l.elems) : (l.elems.find? fun x => x.1 = e.1) = some e := by
  cases hf : l.elems.find? fun x => x.1 = e.1 with
  | none => exact absurd (List.find?_eq_none.mp hf e h) (by simp)
  | some x =>
    have hkey : x.1 = e.1 := by simpa using List.find?_some hf
    rw [List.inj_on_of_nodup_map l.nodup (List.mem_of_find?_eq_some hf) h hkey]

theorem elems_moveToFront {e : Nat × α} (h : e ∈ l.elems) : (l.moveToFront e.1).elems = e :: l.others e.1 := by
  rw [moveToFront]
  split
  · rename_i hn
    cases hn.symm.trans (find?_eq h)
  · rename_i x hx
    cases hx.symm.trans (find?_eq h)
    rfl

theorem remove_fst {e : Nat × α} (h : e ∈ l.elems) : (l.remove e.1).1 = some e.2 := by
  rw [remove,find?_eq h,Option.map_some]

theorem others_eq {e : Nat × α} {a b : List (Nat × α)} (h : l.elems = a ++ e :: b) : l.others e.1 = a ++ b := by
  have hn := l.nodup
  rw [h,List.map_append,List.map_cons,List.nodup_middle,List.nodup_cons,← List.map_append] at hn
  have hkeep (x : Nat × α) (hx : x ∈ a ++ b) : x.1 ≠ e.1 := fun heq => hn.1 (List.mem_map.mpr ⟨x,hx,heq⟩)
  have ha : a.filter (fun x => x.1 ≠ e.1) = a :=
    List.filter_eq_self.mpr fun x hx => decide_eq_true (hkeep x (List.mem_append_left _ hx))
  have hb : b.filter (fun x => x.1 ≠ e.1) = b :=
    List.filter_eq_self.mpr fun x hx => decide_eq_true (hkeep x (List.mem_append_right _ hx))
  rw [others,h,List.filter_append,List.filter_cons_of_neg (by simp),ha,hb]

end LinkedList
end Hotstuff.Library
