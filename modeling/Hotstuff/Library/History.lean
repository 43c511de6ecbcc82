import Mathlib.Data.List.Induction
import Mathlib.Data.List.Infix
import Mathlib.Data.Set.Function
import Mathlib.Logic.Relation

/-! Newest-first logs in which every entry answers for the entries before it or which are read by key, and rules
for runs. -/
namespace Hotstuff.Library
variable {α : Type*} {P : α → List α → Prop}

/-- Each entry relates to what the log held when it was written. -/
def History (P : α → List α → Prop) : List α → Prop
  | [] => True
  | e :: l => P e l ∧ History P l

theorem History.append {l m : List α} (h : History P m) (hl : ∀ e ∈ l, ∀ o, P e o) : History P (l ++ m) := by
  induction l with
  | nil => exact h
  | cons e l ih => exact ⟨hl e List.mem_cons_self _,ih fun f hf => hl f (List.mem_cons_of_mem _ hf)⟩

/-- New entries that answer for what is in the longer log. -/
theorem History.append_within {l m : List α} (h : History P m) (hl : ∀ e ∈ l, ∀ o ⊆ l ++ m, P e o) :
    History P (l ++ m) := by
  induction l with
  | nil => exact h
  | cons e l ih =>
    refine ⟨hl e List.mem_cons_self _ (List.subset_cons_self _ _),ih fun f hf o ho => ?_⟩
    exact hl f (List.mem_cons_of_mem _ hf) o (List.Subset.trans ho (List.subset_cons_self _ _))

theorem History.of_suffix {e : α} {o l : List α} (h : History P l) (hs : e :: o <:+ l) : P e o := by
  induction l with
  | nil => simp at hs
  | cons x l ih =>
    rcases List.suffix_cons_iff.mp hs with he | hs
    · cases he
      exact h.1
    · exact ih h.2 hs

theorem exists_suffix_of_mem {e : α} {l : List α} (h : e ∈ l) : ∃ o, e :: o <:+ l := by
  obtain ⟨a,o,rfl⟩ := List.append_of_mem h
  exact ⟨o,List.suffix_append a _⟩

/-- An entry that is not among the newest ones stands where it stood before them. -/
theorem suffix_of_append {e : α} {o l m : List α} (h : e :: o <:+ l ++ m) (he : e ∉ l) : e :: o <:+ m := by
  induction l with
  | nil => exact h
  | cons x l ih =>
    rw [List.mem_cons,not_or] at he
    rcases List.suffix_cons_iff.mp h with hx | h
    · exact absurd (List.cons_eq_cons.mp hx).1 he.1
    · exact ih h he.2

/-- Of two entries of one log one was there when the other was written. -/
theorem suffix_trichotomy {e f : α} {o o' l : List α} (he : e :: o <:+ l) (hf : f :: o' <:+ l) :
    (e = f ∧ o = o') ∨ f :: o' <:+ o ∨ e :: o <:+ o' := by
  rcases List.suffix_or_suffix_of_suffix he hf with h | h
  · rcases List.suffix_cons_iff.mp h with h | h
    · exact .inl (List.cons_eq_cons.mp h)
    · exact .inr (.inr h)
  · rcases List.suffix_cons_iff.mp h with h | h
    · exact .inl ((List.cons_eq_cons.mp h).imp Eq.symm Eq.symm)
    · exact .inr (.inl h)

theorem mem_of_lookup {κ : Type*} [BEq κ] [LawfulBEq κ] {k : κ} {a : α} {l : List (κ × α)}
    (h : l.lookup k = some a) : (k,a) ∈ l := by
  obtain ⟨l₁,l₂,rfl,-⟩ := List.lookup_eq_some_iff.mp h
  exact List.mem_append_right _ List.mem_cons_self

theorem lookup_of_mem {κ : Type*} [BEq κ] [LawfulBEq κ] {l : List (κ × α)} (h : (l.map Prod.fst).Nodup)
    {e : κ × α} (he : e ∈ l) : l.lookup e.1 = some e.2 := by
  induction l with
  | nil => cases he
  | cons x l ih =>
    obtain ⟨hx,hl⟩ := List.nodup_cons.mp h
    rcases List.mem_cons.mp he with rfl | he
    · exact List.lookup_cons_self
    · have hne : e.1 ≠ x.1 := fun heq => hx (List.mem_map.mpr ⟨e,he,heq⟩)
      rw [List.lookup_cons,beq_false_of_ne hne]
      exact ih hl he

/-- The newest entry hides the older ones under its key. -/
theorem lookup_cons_ite {κ : Type*} [DecidableEq κ] (k k' : κ) (a : α) (l : List (κ × α)) :
    ((k',a) :: l).lookup k = if k = k' then some a else l.lookup k := by
  rw [List.lookup_cons]
  by_cases h : k = k'
  · simp [h]
  · simp [h,beq_eq_false_iff_ne.mpr h]

/-- Dropping entries of other keys does not change a lookup. -/
theorem lookup_filter {κ : Type*} [DecidableEq κ] {k : κ} {q : κ → Bool} (hk : q k = true) (l : List (κ × α)) :
    (l.filter fun e => q e.1).lookup k = l.lookup k := by
  induction l with
  | nil => rfl
  | cons e l ih =>
    obtain ⟨k',a⟩ := e
    rw [lookup_cons_ite,List.filter_cons]
    split_ifs with hq he he
    · rw [lookup_cons_ite,if_pos he]
    · rw [lookup_cons_ite,if_neg he,ih]
    · exact absurd (he ▸ hk) hq
    · exact ih

theorem mem_modify {l : List α} {k : Nat} {f : α → α} {a : α} (h : a ∈ l.modify k f) :
    a ∈ l ∨ ∃ b, l[k]? = some b ∧ a = f b := by
  obtain ⟨j,hj⟩ := List.mem_iff_getElem?.mp h
  rw [List.getElem?_modify] at hj
  obtain ⟨b,hb,rfl⟩ := Option.map_eq_some_iff.mp hj
  split_ifs with hk
  · exact .inr ⟨b,hk ▸ hb,rfl⟩
  · exact .inl (List.mem_of_getElem? hb)

theorem injOn_pair {β : Type*} {f : α → β} {a b : α} (h : f a ≠ f b) : Set.InjOn f {x | x ∈ [a,b]} := by
  intro x hx y hy he
  rcases List.mem_pair.mp hx with rfl | rfl <;> rcases List.mem_pair.mp hy with rfl | rfl
  · rfl
  · exact absurd he h
  · exact absurd he.symm h
  · rfl

/-- A property of whole runs from its steps, where each step may use that the run goes on
to its end: `below` is what holds of every state on the way there. -/
theorem invariant_of_below {σ : Type*} {r : σ → σ → Prop} (below Inv : σ → Prop) {s t : σ}
    (hr : Relation.ReflTransGen r s t) (ht : below t) (hback : ∀ a b, r a b → below b → below a)
    (hstep : ∀ a b, r a b → below b → Inv a → Inv b) (hs : Inv s) : Inv t := by
  induction hr with
  | refl => exact hs
  | tail _ hab ih => exact hstep _ _ hab ht (ih (hback _ _ hab ht))

/-- What holds of the empty run and is kept by one more step holds of every run of a partial step function. -/
theorem foldlM_rec {σ : Type*} {step : σ → α → Option σ} {s t : σ} {l : List α} {Q : List α → σ → Prop} (h0 : Q [] s)
    (hstep : ∀ l a m t, l.foldlM step s = some m → Q l m → step m a = some t → Q (l ++ [a]) t)
    (h : l.foldlM step s = some t) : Q l t := by
  induction l using List.reverseRecOn generalizing t with
  | nil => cases h; exact h0
  | append_singleton l a ih =>
    rw [List.foldlM_append] at h
    obtain ⟨m,hm,ha⟩ := Option.bind_eq_some_iff.mp h
    exact hstep l a m t hm (ih hm) (by simpa using ha)

/-- A run none of whose steps can fail. -/
theorem foldlM_eq_foldl {σ : Type*} {step : σ → α → Option σ} {f : σ → α → σ} {l : List α}
    (h : ∀ a ∈ l, ∀ s, step s a = some (f s a)) (s : σ) : l.foldlM step s = some (l.foldl f s) := by
  induction l generalizing s with
  | nil => rfl
  | cons a l ih =>
    obtain ⟨ha,hl⟩ := List.forall_mem_cons.mp h
    rw [List.foldlM_cons,ha,List.foldl_cons]
    exact ih hl _

/-- The same along one run: every state on the way is reached by a beginning of it. -/
theorem foldlM_prefix_rec {σ : Type*} {step : σ → α → Option σ} {s : σ} {l : List α} {Q : List α → σ → Prop}
    (h0 : Q [] s)
    (hstep : ∀ l' a m t, l' ++ [a] <+: l → l'.foldlM step s = some m → Q l' m → step m a = some t → Q (l' ++ [a]) t)
    {l' : List α} {t : σ} (hl : l' <+: l) (h : l'.foldlM step s = some t) : Q l' t := by
  refine foldlM_rec (Q := fun l' t => l' <+: l → Q l' t) (fun _ => h0) ?_ h hl
  intro l' a m t hm ih ha hl
  exact hstep l' a m t hl hm (ih ((List.prefix_append _ _).trans hl)) ha

theorem foldlM_snoc {σ : Type*} {step : σ → α → Option σ} {s t u : σ} {l : List α} {a : α}
    (ht : l.foldlM step s = some t) (hu : step t a = some u) : (l ++ [a]).foldlM step s = some u := by
  rw [List.foldlM_append]
  exact Option.bind_eq_some_iff.mpr ⟨t,ht,by simpa using hu⟩

theorem prefix_snoc {l l' : List α} {a : α} (h : l' ++ [a] <+: l) :
    l' = l.take l'.length ∧ l[l'.length]? = some a := by
  obtain ⟨m,rfl⟩ := h
  simp

/-- Two elements in closed sets that do not contain the other one are not comparable. -/
theorem not_comparable {r : α → α → Prop} {t t' : List α} (ht : ∀ a ∈ t, ∀ b, r a b → b ∈ t)
    (ht' : ∀ a ∈ t', ∀ b, r a b → b ∈ t') {a b : α} (ha : a ∈ t) (hb : b ∈ t') (hbt : b ∉ t) (hat : a ∉ t') :
    ¬ (Relation.ReflTransGen r a b ∨ Relation.ReflTransGen r b a) := by
  have closed {u : List α} (hu : ∀ a ∈ u, ∀ b, r a b → b ∈ u) {x y : α} (hx : x ∈ u)
      (h : Relation.ReflTransGen r x y) : y ∈ u := by
    induction h with
    | refl => exact hx
    | tail _ hr ih => exact hu _ ih _ hr
  rintro (h | h)
  · exact hbt (closed ht ha h)
  · exact hat (closed ht' hb h)

end Hotstuff.Library
