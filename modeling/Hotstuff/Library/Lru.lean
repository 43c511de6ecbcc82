import Mathlib.Data.List.Nodup
import Mathlib.Data.List.Perm.Basic

/-! A set of bounded size from which the least recently used element is dropped. At any time
it holds the elements used most recently, up to its capacity. -/
namespace Hotstuff.Library

structure Lru (κ : Type*) (cap : Nat) where
  keys : List κ
  nodup : keys.Nodup
  length_le : keys.length ≤ cap
  pos : 0 < cap

/-- Each element of a history once, at its latest use. -/
def recent {κ : Type*} [DecidableEq κ] : List κ → List κ
  | [] => []
  | k :: l => k :: (recent l).filter (· ≠ k)

namespace Lru
variable {κ : Type*} {cap : Nat}

def empty (h : 0 < cap) : Lru κ cap := ⟨[],.nil,Nat.zero_le _,h⟩

def evict (c : Lru κ cap) : List κ := if c.keys.length < cap then c.keys else c.keys.dropLast

private theorem evict_sublist (c : Lru κ cap) : c.evict.Sublist c.keys := by
  rw [evict]
  split_ifs
  · exact .refl _
  · exact List.dropLast_sublist _

private theorem length_evict_lt (c : Lru κ cap) : c.evict.length < cap := by
  have hle := c.length_le
  have hpos := c.pos
  rw [evict]
  split_ifs with h
  · exact h
  · rw [List.length_dropLast]
    omega

variable [DecidableEq κ]

/-- Use of an element: it moves to the front, and a new one takes the place of the last if
there is no room. -/
def insert (k : κ) (c : Lru κ cap) : Lru κ cap :=
  if h : k ∈ c.keys then
    ⟨k :: c.keys.erase k,List.nodup_cons.mpr ⟨c.nodup.not_mem_erase,c.nodup.erase k⟩,by
      have hlen := List.length_erase_add_one h
      have hle := c.length_le
      rw [List.length_cons]
      omega,c.pos⟩
  else
    ⟨k :: c.evict,List.nodup_cons.mpr ⟨fun hk => h (c.evict_sublist.mem hk),c.evict_sublist.nodup c.nodup⟩,
      c.length_evict_lt,c.pos⟩

theorem keys_insert_of_mem {k : κ} {c : Lru κ cap} (h : k ∈ c.keys) :
    (c.insert k).keys = k :: c.keys.erase k := by rw [insert,dif_pos h]

theorem keys_insert_of_not_mem {k : κ} {c : Lru κ cap} (h : k ∉ c.keys) :
    (c.insert k).keys = k :: c.evict := by rw [insert,dif_neg h]

private theorem take_filter_of_mem {k : κ} {l : List κ} (hl : l.Nodup) (n : Nat) (h : k ∈ l.take (n+1)) :
    (l.filter (· ≠ k)).take n = (l.take (n+1)).erase k := by
  have hkeep (l : List κ) (hk : k ∉ l) : l.filter (· ≠ k) = l :=
    List.filter_eq_self.mpr fun x hx => decide_eq_true fun he => hk (he ▸ hx)
  induction l generalizing n with
  | nil => cases h
  | cons a l ih =>
    obtain ⟨ha,hl⟩ := List.nodup_cons.mp hl
    by_cases hk : a = k
    · subst hk
      rw [List.filter_cons_of_neg (by simp),hkeep l ha,List.take_succ_cons,List.erase_cons_head]
    · have hk' : k ∈ l.take n := (List.mem_cons.mp h).resolve_left (Ne.symm hk)
      cases n with
      | zero => cases hk'
      | succ n =>
        rw [List.filter_cons_of_pos (by simpa using hk),List.take_succ_cons,ih hl n hk',List.take_succ_cons,
          List.erase_cons_tail (by simpa using hk)]

private theorem take_filter_of_not_mem {k : κ} {l : List κ} (n : Nat) (h : k ∉ l.take (n+1)) :
    (l.filter (· ≠ k)).take n = l.take n := by
  induction l generalizing n with
  | nil => rfl
  | cons a l ih =>
    rw [List.take_succ_cons,List.mem_cons,not_or] at h
    rw [List.filter_cons_of_pos (by simpa using Ne.symm h.1)]
    cases n with
    | zero => rfl
    | succ n => rw [List.take_succ_cons,List.take_succ_cons,ih n h.2]

end Lru

theorem nodup_recent {κ : Type*} [DecidableEq κ] (l : List κ) : (recent l).Nodup := by
  induction l with
  | nil => exact .nil
  | cons k l ih => exact List.nodup_cons.mpr ⟨by simp,ih.filter _⟩

/-- The elements held are the most recently used ones. -/
theorem Lru.keys_insert {κ : Type*} [DecidableEq κ] {cap : Nat} {c : Lru κ cap} {l : List κ}
    (h : c.keys = (recent l).take cap) (k : κ) : (c.insert k).keys = (recent (k :: l)).take cap := by
  obtain ⟨n,rfl⟩ : ∃ n, cap = n+1 := ⟨cap-1,by have := c.pos; omega⟩
  rw [recent,List.take_succ_cons]
  by_cases hk : k ∈ c.keys
  · rw [keys_insert_of_mem hk,h,take_filter_of_mem (nodup_recent l) n (h ▸ hk)]
  · rw [keys_insert_of_not_mem hk,take_filter_of_not_mem n (h ▸ hk)]
    congr 1
    rw [evict,h]
    split_ifs with hlen
    · rw [List.length_take] at hlen
      rw [List.take_of_length_le (by omega),List.take_of_length_le (by omega)]
    · rw [List.length_take] at hlen
      rw [List.dropLast_eq_take,List.take_take,List.length_take]
      congr 1
      omega

end Hotstuff.Library
