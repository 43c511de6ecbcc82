import Hotstuff.System.Pruning
import Mathlib.Data.List.Sort

/-! The forks that `PruneToHeight` reports over runs of `Store`, `Get` and `commit`. The index holds one block a view,
so the reports are exact as long as no view is used twice. -/
namespace Hotstuff
open Library

inductive ChainOp where
  | store (b : Block)
  | get (h : Hash)
  | commit (c : Block)

namespace Replica
variable (S : Setup) (env : Env)

def chainOp (op : ChainOp) (s : Replica) : Replica :=
  if s.halted then s
  else match op with
    | .store b => store S b s
    | .get h => (get S env h s).2
    | .commit c => commit S env c s

def chainRun (s : Replica) (l : List (Env × ChainOp)) : Replica := l.foldl (fun s e => chainOp S e.1 e.2 s) s

def Stored (s : Replica) (b : Block) : Prop := ∃ k, (k,b) ∈ s.blocks

/-- The genesis block counts as executed: it is the first `bExec`. -/
def WasExecuted (s : Replica) (b : Block) : Prop := b = genesis ∨ .exec b ∈ s.log

/-- No executed block has been reported as a fork, and every other block up to the prune height exactly once. -/
structure ForksExact (s : Replica) : Prop where
  sound : ∀ b, .fork b ∈ s.log → ¬ s.WasExecuted b
  complete : ∀ b, s.Stored b → b.view ≤ s.pruneHeight → ¬ s.WasExecuted b → s.log.count (.fork b) = 1

/-- The block can be filed under the hash: no other block is, and the hash is not that of a missing parent of the
committed block; the block is known, or its view is above the prune height and not used yet. -/
structure Admits (s : Replica) (h : Hash) (b : Block) : Prop where
  hash : s.localGet h = some b ∨ s.localGet h = none ∧ h ≠ s.bExec.parent
  view : s.Stored b ∨ s.pruneHeight < b.view ∧ ∀ a, s.Stored a → a.view ≠ b.view

def Fetches (h : Hash) (s : Replica) : Prop :=
  s.localGet h = none → ∀ b, fetch S env s.now h = some b → s.Admits h b

inductive Descends : Replica → Block → Replica → List Block → Prop
  | here (s : Replica) : Descends s s.bExec s []
  | up {s t u : Replica} {a p : Block} {l : List Block} : get S env a.parent s = (some p,t) → Fetches S env a.parent s →
      p.view < a.view → Descends t p u l → Descends s a u (a :: l)

/-- What a call has to meet in the state in which it is made. -/
def Regular (op : ChainOp) (s : Replica) : Prop :=
  match op with
  | .store b => s.Admits (b.hash S) b
  | .get h => Fetches S env h s
  | .commit c => s.Stored c ∧ ∃ u l, Descends S env s c u l

def RegularRun : Replica → List (Env × ChainOp) → Prop
  | _, [] => True
  | s, e :: l => (s.halted = false → Regular S e.1 e.2 s) ∧ RegularRun (chainOp S e.1 e.2 s) l

variable {S env}

/-- The index agrees with the store above the prune height, which is the view of the committed block. -/
structure Tidy (s : Replica) : Prop where
  distinct : ∀ a b, s.Stored a → s.Stored b → a.view = b.view → a = b
  keys : (s.blockAtHeight.map Prod.fst).Nodup
  index : ∀ v b, s.pruneHeight < v → ((v,b) ∈ s.blockAtHeight ↔ s.Stored b ∧ b.view = v)
  base : ∀ b, (s.pruneHeight,b) ∈ s.blockAtHeight → b = s.bExec
  height : s.pruneHeight = s.bExec.view
  committed : s.Stored s.bExec
  parent : ∀ p, s.localGet s.bExec.parent = some p → p = s.bExec ∨ p.view < s.bExec.view
  executed : ∀ b, .exec b ∈ s.log → b.view ≤ s.pruneHeight
  forked : ∀ b, .fork b ∈ s.log → b.view ≤ s.pruneHeight
  exact : ForksExact s

theorem tidy_init (id : ID) : Tidy (init S id) where
  distinct a b ha hb _ := by
    obtain ⟨k,hk⟩ := ha
    obtain ⟨k',hk'⟩ := hb
    cases List.mem_singleton.mp hk
    cases List.mem_singleton.mp hk'
    rfl
  keys := List.nodup_singleton _
  index v b hv := by
    constructor
    · intro h
      cases List.mem_singleton.mp h
      exact absurd hv (UInt64.lt_irrefl _)
    · rintro ⟨⟨k,hk⟩,rfl⟩
      cases List.mem_singleton.mp hk
      exact absurd hv (UInt64.lt_irrefl _)
  base b h := (Prod.mk.inj (List.mem_singleton.mp h)).2
  height := rfl
  committed := ⟨S.genesisHash,List.mem_cons_self⟩
  parent p hp := .inl (Prod.mk.inj (List.mem_singleton.mp (mem_of_lookup hp))).2
  executed b h := absurd h List.not_mem_nil
  forked b h := absurd h List.not_mem_nil
  exact := by
    refine ⟨fun b h => absurd h List.not_mem_nil,fun b h _ hne => ?_⟩
    obtain ⟨k,hk⟩ := h
    cases List.mem_singleton.mp hk
    exact absurd (.inl rfl) hne

section Insert
variable {s : Replica} {h : Hash} {b : Block}

private theorem stored_insert {a : Block} : (s.insertBlock h b).Stored a ↔ a = b ∨ s.Stored a := by
  constructor
  · rintro ⟨k,hk⟩
    rcases List.mem_cons.mp hk with he | hk
    · exact .inl (Prod.mk.inj he).2
    · exact .inr ⟨k,hk⟩
  · rintro (rfl | ⟨k,hk⟩)
    · exact ⟨h,List.mem_cons_self⟩
    · exact ⟨k,List.mem_cons_of_mem _ hk⟩

private theorem localGet_insert (k : Hash) :
    (s.insertBlock h b).localGet k = if k = h then some b else s.localGet k := lookup_cons_ite k h b s.blocks

theorem Stored.of_localGet {k : Hash} (hk : s.localGet k = some b) : s.Stored b := ⟨k,mem_of_lookup hk⟩

private theorem mem_index_insert {v : View} {a : Block} : (v,a) ∈ (s.insertBlock h b).blockAtHeight ↔
    v = b.view ∧ a = b ∨ v ≠ b.view ∧ (v,a) ∈ s.blockAtHeight := by
  rw [insertBlock,List.mem_cons,List.mem_filter]
  simp [and_comm]

/-- A block of the store is filed under its view, above the prune height. -/
private theorem Tidy.insert_index (hs : Tidy s) (ha : s.Admits h b) {v : View} {a : Block} (hv : s.pruneHeight < v) :
    (v,a) ∈ (s.insertBlock h b).blockAtHeight ↔ (s.insertBlock h b).Stored a ∧ a.view = v := by
  rw [mem_index_insert,stored_insert,hs.index v a hv]
  constructor
  · rintro (⟨rfl,rfl⟩ | ⟨-,hst,hva⟩)
    · exact ⟨.inl rfl,rfl⟩
    · exact ⟨.inr hst,hva⟩
  · rintro ⟨rfl | hst,rfl⟩
    · exact .inl ⟨rfl,rfl⟩
    · by_cases hab : a.view = b.view
      · rcases ha.view with hb | ⟨-,hnew⟩
        · exact .inl ⟨hab,hs.distinct a b hst hb hab⟩
        · exact absurd hab (hnew a hst)
      · exact .inr ⟨hab,hst,rfl⟩

theorem Tidy.insertBlock (hs : Tidy s) (ha : s.Admits h b) : Tidy (s.insertBlock h b) where
  distinct x y hx hy hv := by
    rcases ha.view with hb | ⟨-,hnew⟩
    · have hold {a : Block} (hst : (s.insertBlock h b).Stored a) : s.Stored a :=
        (stored_insert.mp hst).elim (fun he => he ▸ hb) fun h => h
      exact hs.distinct x y (hold hx) (hold hy) hv
    · rcases stored_insert.mp hx with hxb | hx <;> rcases stored_insert.mp hy with hyb | hy
      · exact hxb.trans hyb.symm
      · exact absurd (hxb ▸ hv.symm) (hnew y hy)
      · exact absurd (hyb ▸ hv) (hnew x hx)
      · exact hs.distinct x y hx hy hv
  keys := by
    refine List.nodup_cons.mpr ⟨fun hm => ?_,hs.keys.sublist ((List.filter_sublist).map _)⟩
    obtain ⟨e,he,hv⟩ := List.mem_map.mp hm
    exact absurd hv (by simpa using (List.mem_filter.mp he).2)
  index v a hv := hs.insert_index ha hv
  base a h' := by
    rcases mem_index_insert.mp h' with ⟨hv,rfl⟩ | ⟨-,hold⟩
    · rcases ha.view with hb | ⟨hlt,-⟩
      · exact hs.distinct a _ hb hs.committed (hv.symm.trans hs.height)
      · exact absurd hlt (UInt64.not_lt.mpr (UInt64.le_of_eq hv.symm))
    · exact hs.base a hold
  height := hs.height
  committed := stored_insert.mpr (.inr hs.committed)
  parent p hp := by
    rw [localGet_insert] at hp
    split_ifs at hp with hk
    · rcases ha.hash with hb | ⟨-,hne⟩
      · exact hs.parent p (hk ▸ hb.trans hp)
      · exact absurd hk.symm hne
    · exact hs.parent p hp
  executed := hs.executed
  forked := hs.forked
  exact := by
    refine ⟨hs.exact.sound,fun a hst hle hne => ?_⟩
    rcases stored_insert.mp hst with rfl | hst
    · rcases ha.view with hb | ⟨hlt,-⟩
      · exact hs.exact.complete a hb hle hne
      · exact absurd hlt (UInt64.not_lt.mpr hle)
    · exact hs.exact.complete a hst hle hne

theorem Tidy.tick (hs : Tidy s) : Tidy s.tick :=
  ⟨hs.distinct,hs.keys,hs.index,hs.base,hs.height,hs.committed,hs.parent,hs.executed,hs.forked,
    ⟨hs.exact.sound,hs.exact.complete⟩⟩

theorem Tidy.get (hs : Tidy s) (hf : Fetches S env h s) : Tidy (get S env h s).2 := by
  rw [Replica.get]
  split
  · exact hs
  · rename_i hn
    split
    · rename_i b hb
      have ha := hf hn b hb
      exact hs.tick.insertBlock ⟨ha.hash,ha.view⟩
    · exact hs.tick

end Insert

section Descent
variable {s u : Replica} {a : Block} {l : List Block}

private theorem Descends.fetched (h : Descends S env s a u l) : Fetched S env s u := by
  induction h with
  | here s => exact .refl s
  | up hg _ _ _ ih => exact (get_eq hg).1.trans ih

private theorem Descends.tidy (h : Descends S env s a u l) (hs : Tidy s) : Tidy u := by
  induction h with
  | here s => exact hs
  | up hg hf _ _ ih =>
    have ht := hs.get hf
    rw [hg] at ht
    exact ih ht

private theorem Descends.view_le (h : Descends S env s a u l) : s.bExec.view ≤ a.view := by
  induction h with
  | here s => exact UInt64.le_refl _
  | up hg _ hv _ ih =>
    rw [(get_eq hg).1.bExec_eq] at ih
    exact UInt64.le_trans ih (UInt64.le_of_lt hv)

/-- With enough depth exactly the blocks on the way are executed. -/
private theorem Descends.commitInner (h : Descends S env s a u l) (hs : Tidy s) (hh : s.halted = false) (k : Nat) :
    (∃ t, Tidy t ∧ commitInner S env k a s = t.halt) ∨
      commitInner S env k a s = { u with bExec := l.headD u.bExec, log := l.map .exec ++ u.log } := by
  induction h generalizing k with
  | here s =>
    cases k with
    | zero => exact .inl ⟨s,hs,rfl⟩
    | succ k =>
      rw [Replica.commitInner,if_neg (UInt64.lt_irrefl _)]
      exact .inr rfl
  | @up s t u a p l hg hf hv hd ih =>
    cases k with
    | zero => exact .inl ⟨s,hs,rfl⟩
    | succ k =>
      have hfet := (get_eq hg).1
      have ht : Tidy t := by
        have ht := hs.get hf
        rwa [hg] at ht
      have hlt : s.bExec.view < a.view := UInt64.lt_of_le_of_lt (hfet.bExec_eq ▸ hd.view_le) hv
      rw [Replica.commitInner,if_pos hlt,hg]
      dsimp only
      rcases ih ht (hfet.halted_eq.trans hh) k with ⟨w,hw,he⟩ | he
      · exact .inl ⟨w,hw,by rw [he]; rfl⟩
      · have hu : u.halted = false := hd.fetched.halted_eq.trans (hfet.halted_eq.trans hh)
        rw [he,andThen,if_neg (by simp [hu])]
        exact .inr rfl

end Descent

inductive Branch (s : Replica) : Block → List Block → Prop
  | here : Branch s s.bExec []
  | up {a p : Block} {l : List Block} : s.localGet a.parent = some p → p.view < a.view → Branch s p l →
      Branch s a (a :: l)

section Branch
variable {s u : Replica} {a c : Block} {l : List Block}

private theorem Descends.branch (h : Descends S env s a u l) : Branch u a l := by
  induction h with
  | here s => exact .here
  | up hg _ hv hd ih => exact .up (hd.fetched.localGet (get_eq hg).2.1) hv ih

private theorem Branch.headD (h : Branch s a l) : l.headD s.bExec = a := by
  cases h <;> rfl

private theorem Branch.bExec_le (h : Branch s a l) : s.bExec.view ≤ a.view := by
  induction h with
  | here => exact UInt64.le_refl _
  | up _ hv _ ih => exact UInt64.le_trans ih (UInt64.le_of_lt hv)

private theorem Branch.mem_view (h : Branch s a l) {b : Block} (hb : b ∈ l) :
    s.bExec.view < b.view ∧ b.view ≤ a.view := by
  induction h with
  | here => cases hb
  | up _ hv hbr ih =>
    rcases List.mem_cons.mp hb with rfl | hb
    · exact ⟨UInt64.lt_of_le_of_lt hbr.bExec_le hv,UInt64.le_refl _⟩
    · exact ⟨(ih hb).1,UInt64.le_trans (ih hb).2 (UInt64.le_of_lt hv)⟩

private theorem Branch.stored (h : Branch s a l) (ha : s.Stored a) {b : Block} (hb : b ∈ l) : s.Stored b := by
  induction h with
  | here => cases hb
  | up hp _ _ ih =>
    rcases List.mem_cons.mp hb with rfl | hb
    · exact ha
    · exact ih (.of_localGet hp) hb

private theorem Branch.views (h : Branch s a l) {v : View} (hv : s.bExec.view < v) :
    (∃ b ∈ l, b.view = v) ↔ v = a.view ∨ ∃ b ∈ l.tail, b.view = v := by
  cases h with
  | here => simp [(UInt64.ne_of_lt hv).symm]
  | up => simp [eq_comm]

/-- At the committed block the walk ends, or goes round for ever if that is the genesis block and has the zero hash. -/
private theorem Tidy.walk_stops (hs : Tidy s) (x : Block) (y : List Effect) (k : Nat) (acc : List View) :
    committedViews { s with bExec := x, log := y } k s.bExec.view acc = none ∨
      committedViews { s with bExec := x, log := y } k s.bExec.view acc = some acc := by
  have hge : ¬ s.bExec.view < s.pruneHeight := hs.height ▸ UInt64.lt_irrefl _
  cases k with
  | zero => exact .inl rfl
  | succ k =>
    cases hb : s.blockAtHeight.lookup s.bExec.view with
    | none =>
      rw [committedViews,if_neg hge,hb]
      exact .inr rfl
    | some b =>
      obtain rfl : b = s.bExec := hs.base b (hs.height ▸ mem_of_lookup hb)
      cases hp : s.localGet s.bExec.parent with
      | none =>
        rw [committedViews,if_neg hge,hb]
        dsimp only
        rw [localGet] at hp
        rw [localGet,hp]
        exact .inr rfl
      | some p =>
        rcases hs.parent p hp with rfl | hv
        · exact .inl (committedViews_loops (s := { s with bExec := x, log := y }) hge hb hp rfl _ _)
        · rw [committedViews,if_neg hge,hb]
          dsimp only
          rw [localGet] at hp
          rw [localGet,hp]
          exact .inr (if_pos (hs.height ▸ hv))

/-- The walk of `PruneToHeight` meets the views of the branch and, above the prune height, no others. -/
private theorem Branch.committedViews (h : Branch s a l) (hs : Tidy s) (ha : s.Stored a) (x : Block) (y : List Effect)
    (k : Nat) (acc : List View) :
    committedViews { s with bExec := x, log := y } k a.view acc = none ∨
      ∃ views, committedViews { s with bExec := x, log := y } k a.view acc = some views ∧
        ∀ v, s.pruneHeight < v → (v ∈ views ↔ v ∈ acc ∨ ∃ b ∈ l.tail, b.view = v) := by
  induction h generalizing k acc with
  | here =>
    refine (hs.walk_stops x y k acc).imp_right fun he => ⟨acc,he,fun v _ => ?_⟩
    simp
  | @up a p l hp hv hbr ih =>
    have hlt : s.pruneHeight < a.view := hs.height ▸ UInt64.lt_of_le_of_lt hbr.bExec_le hv
    have hidx : s.blockAtHeight.lookup a.view = some a := lookup_of_mem hs.keys ((hs.index a.view a hlt).mpr ⟨ha,rfl⟩)
    have hge : ¬ p.view < s.pruneHeight := hs.height ▸ UInt64.not_lt.mpr hbr.bExec_le
    cases k with
    | zero => exact .inl rfl
    | succ k =>
      have hstep := committedViews_step (s := { s with bExec := x, log := y })
        (UInt64.not_lt.mpr (UInt64.le_of_lt hlt)) hidx hp hge k acc
      rw [hstep]
      rcases ih (.of_localGet hp) k (p.view :: acc) with hn | ⟨views,he,hmem⟩
      · exact .inl hn
      · refine .inr ⟨views,he,fun v hv' => ?_⟩
        rw [hmem v hv',List.mem_cons,List.tail_cons,hbr.views (hs.height ▸ hv'),or_assoc,or_left_comm]

end Branch

section Prune
variable {s : Replica} {c : Block} {l : List Block}

private def executing (c : Block) (l : List Block) (s : Replica) : Replica :=
  { s with bExec := c, log := l.map .exec ++ s.log }

private theorem wasExecuted_executing {b : Block} : (executing c l s).WasExecuted b ↔ b ∈ l ∨ s.WasExecuted b := by
  simp [WasExecuted,executing,or_left_comm]

private theorem count_fork_executing (b : Block) :
    (executing c l s).log.count (.fork b) = s.log.count (.fork b) := by
  have hnot : Effect.fork b ∉ l.map Effect.exec := by simp
  rw [executing,List.count_append,List.count_eq_zero_of_not_mem hnot,Nat.zero_add]

private theorem fork_mem_executing {b : Block} : .fork b ∈ (executing c l s).log ↔ .fork b ∈ s.log := by
  simp [executing]

/-- Blocks that were reported earlier are below the ones executed now. -/
private theorem Tidy.executing_exact (hs : Tidy s) (hbr : Branch s c l) : ForksExact (executing c l s) where
  sound b hb hex := by
    have hold := fork_mem_executing.mp hb
    rcases wasExecuted_executing.mp hex with hl | hex
    · have hlt : s.pruneHeight < b.view := hs.height ▸ (hbr.mem_view hl).1
      exact absurd hlt (UInt64.not_lt.mpr (hs.forked b hold))
    · exact hs.exact.sound b hold hex
  complete b hst hle hne := by
    rw [count_fork_executing]
    exact hs.exact.complete b hst hle fun hex => hne (wasExecuted_executing.mpr (.inr hex))

/-- The entries that `PruneToHeight` reports. -/
private theorem mem_range {views : List View} {e : View × Block} :
    e ∈ ((executing c l s).blockAtHeight.filter (fun e => (executing c l s).pruneHeight < e.1 ∧ e.1 ≤ c.view ∧
      e.1 ∉ views)).insertionSort (fun a b => b.1 ≤ a.1) ↔
    e ∈ s.blockAtHeight ∧ s.pruneHeight < e.1 ∧ e.1 ≤ c.view ∧ e.1 ∉ views := by
  rw [(List.perm_insertionSort _ _).mem_iff,List.mem_filter,decide_eq_true_eq]
  rfl

section Forked
variable {views : List View} (hs : Tidy s)
include hs

private theorem forkedBlocks_nodup : ((executing c l s).forkedBlocks c.view views).Nodup := by
  have hview {e : View × Block} (he : e ∈ s.blockAtHeight ∧ s.pruneHeight < e.1 ∧ e.1 ≤ c.view ∧ e.1 ∉ views) :
      e.2.view = e.1 := ((hs.index e.1 e.2 he.2.1).mp he.1).2
  rw [forkedBlocks]
  refine List.Nodup.map_on (fun x hx y hy he => ?_) ?_
  · exact Prod.ext ((hview (mem_range.mp hx)).symm.trans ((congrArg Block.view he).trans (hview (mem_range.mp hy)))) he
  · exact (List.perm_insertionSort _ _).nodup_iff.mpr ((List.Nodup.of_map _ hs.keys).filter _)

private theorem mem_forkedBlocks (hbr : Branch s c l) (hc : s.Stored c)
    (hviews : ∀ v, s.pruneHeight < v → (v ∈ views ↔ ∃ b ∈ l, b.view = v)) {b : Block} :
    b ∈ (executing c l s).forkedBlocks c.view views ↔
      s.Stored b ∧ s.pruneHeight < b.view ∧ b.view ≤ c.view ∧ b ∉ l := by
  rw [forkedBlocks,List.mem_map]
  constructor
  · rintro ⟨⟨v,b⟩,he,rfl⟩
    obtain ⟨hmem,hlt,hle,hnot⟩ := mem_range.mp he
    obtain ⟨hst,rfl⟩ := (hs.index v b hlt).mp hmem
    exact ⟨hst,hlt,hle,fun hl => hnot ((hviews b.view hlt).mpr ⟨b,hl,rfl⟩)⟩
  · rintro ⟨hst,hlt,hle,hnot⟩
    refine ⟨(b.view,b),mem_range.mpr ⟨(hs.index b.view b hlt).mpr ⟨hst,rfl⟩,hlt,hle,fun hv => ?_⟩,rfl⟩
    obtain ⟨a,ha,hab⟩ := (hviews b.view hlt).mp hv
    exact hnot (hs.distinct a b (hbr.stored hc ha) hst hab ▸ ha)

end Forked

private theorem count_reported {forks : List Block} (hnodup : forks.Nodup) (o : List Effect) (b : Block) :
    ((forks.map Effect.fork).reverse ++ o).count (.fork b) = (if b ∈ forks then 1 else 0) + o.count (.fork b) := by
  have hinj : Function.Injective Effect.fork := fun _ _ he => Effect.fork.inj he
  rw [List.count_append,List.count_reverse,List.count_map_of_injective _ _ hinj,hnodup.count]

private def reported (forks : List Block) (c : Block) (l : List Block) (s : Replica) : Replica :=
  { executing c l s with
    blockAtHeight := s.blockAtHeight.filter (fun e => ¬ (s.pruneHeight < e.1 ∧ e.1 ≤ c.view)),
    pruneHeight := c.view,
    log := (forks.map .fork).reverse ++ (executing c l s).log }

section Report
variable {forks : List Block} (hs : Tidy s) (hbr : Branch s c l)
  (hmem : ∀ b, b ∈ forks ↔ s.Stored b ∧ s.pruneHeight < b.view ∧ b.view ≤ c.view ∧ b ∉ l)
include hs hbr hmem

/-- The branch that a commit executes is left out of the report, and all else up to its view is in it. -/
private theorem reported_exact (hnodup : forks.Nodup) : ForksExact (reported forks c l s) := by
  have hexec {b : Block} : (reported forks c l s).WasExecuted b ↔ (executing c l s).WasExecuted b := by
    simp [WasExecuted,reported]
  have hw := hs.executing_exact hbr
  refine ⟨fun b hb hex => ?_,fun b hst hle hne => ?_⟩
  · rcases List.mem_append.mp hb with hb | hb
    · obtain ⟨hst,hlt,-,hnot⟩ := (hmem b).mp (by simpa using hb)
      rcases wasExecuted_executing.mp (hexec.mp hex) with hl | rfl | hold
      · exact hnot hl
      · exact absurd hlt (by simp [genesis])
      · exact absurd hlt (UInt64.not_lt.mpr (hs.executed b hold))
    · exact hw.sound b hb (hexec.mp hex)
  · rw [reported,count_reported hnodup,count_fork_executing]
    by_cases hlt : s.pruneHeight < b.view
    · have hl : b ∉ l := fun hl => hne (hexec.mpr (wasExecuted_executing.mpr (.inl hl)))
      have hold : .fork b ∉ s.log := fun hf => absurd hlt (UInt64.not_lt.mpr (hs.forked b hf))
      rw [if_pos ((hmem b).mpr ⟨hst,hlt,hle,hl⟩),List.count_eq_zero_of_not_mem hold]
    · have hold : ¬ s.WasExecuted b := fun hx => hne (hexec.mpr (wasExecuted_executing.mpr (.inr hx)))
      rw [if_neg fun hf => hlt ((hmem b).mp hf).2.1,hs.exact.complete b hst (UInt64.not_lt.mp hlt) hold]

private theorem tidy_reported (hc : s.Stored c) (hnodup : forks.Nodup) : Tidy (reported forks c l s) where
  distinct := hs.distinct
  keys := hs.keys.sublist ((List.filter_sublist).map _)
  index v b hlt := by
    have hidx := hs.index v b (UInt64.lt_of_le_of_lt (hs.height ▸ hbr.bExec_le) hlt)
    have hkeep : ¬ (s.pruneHeight < v ∧ v ≤ c.view) := fun h => UInt64.not_lt.mpr h.2 hlt
    constructor
    · intro h
      exact hidx.mp (List.mem_of_mem_filter h)
    · intro h
      exact List.mem_filter.mpr ⟨hidx.mpr h,decide_eq_true hkeep⟩
  base b hb := by
    obtain ⟨hold,hkeep⟩ := List.mem_filter.mp hb
    cases hbr with
    | here => exact hs.base b (hs.height ▸ hold)
    | up _ hlt hbr =>
      have hlt : s.pruneHeight < c.view := hs.height ▸ UInt64.lt_of_le_of_lt hbr.bExec_le hlt
      exact absurd ⟨hlt,UInt64.le_refl _⟩ (of_decide_eq_true hkeep)
  height := rfl
  committed := hc
  parent p hp := by
    cases hbr with
    | here => exact hs.parent p hp
    | up hq hlt _ =>
      cases hq.symm.trans hp
      exact .inr hlt
  executed b hb := by
    have hb : .exec b ∈ (executing c l s).log := by simpa [reported] using hb
    rcases List.mem_append.mp hb with hb | hb
    · obtain ⟨a,ha,he⟩ := List.mem_map.mp hb
      exact Effect.exec.inj he ▸ (hbr.mem_view ha).2
    · exact UInt64.le_trans (hs.executed b hb) (hs.height ▸ hbr.bExec_le)
  forked b hb := by
    rcases List.mem_append.mp hb with hb | hb
    · exact ((hmem b).mp (by simpa using hb)).2.2.1
    · exact UInt64.le_trans (hs.forked b (fork_mem_executing.mp hb)) (hs.height ▸ hbr.bExec_le)
  exact := reported_exact hs hbr hmem hnodup

end Report

private theorem Tidy.prune (hs : Tidy s) (hbr : Branch s c l) (hc : s.Stored c) :
    (pruneToHeight env c.view (executing c l s)).halted = true ∧
        ForksExact (pruneToHeight env c.view (executing c l s)) ∨
      Tidy (pruneToHeight env c.view (executing c l s)) := by
  have hwalk := hbr.committedViews hs hc c (l.map .exec ++ s.log) env.fuel [c.view]
  change (executing c l s).committedViews env.fuel (executing c l s).bExec.view [(executing c l s).bExec.view] = none ∨
    ∃ views, (executing c l s).committedViews env.fuel (executing c l s).bExec.view
      [(executing c l s).bExec.view] = some views ∧ _ at hwalk
  rw [pruneToHeight]
  rcases hwalk with he | ⟨views,he,hv⟩
  · have hw := hs.executing_exact hbr
    rw [he]
    exact .inl ⟨rfl,hw.sound,hw.complete⟩
  · have hviews : ∀ v, s.pruneHeight < v → (v ∈ views ↔ ∃ b ∈ l, b.view = v) := fun v hlt => by
      rw [hv v hlt,hbr.views (hs.height ▸ hlt),List.mem_singleton]
    rw [he]
    exact .inr (tidy_reported hs hbr (fun b => mem_forkedBlocks hs hbr hc hviews) hc (forkedBlocks_nodup hs))

end Prune

section Run
variable {s : Replica}

theorem Tidy.commit (hs : Tidy s) (hh : s.halted = false) {c : Block} (hc : s.Stored c) {u : Replica} {l : List Block}
    (hd : Descends S env s c u l) :
    (commit S env c s).halted = true ∧ ForksExact (commit S env c s) ∨ Tidy (commit S env c s) := by
  rw [Replica.commit]
  rcases hd.commitInner hs hh env.fuel with ⟨t,ht,he⟩ | he
  · rw [he]
    exact .inl ⟨rfl,ht.exact.sound,ht.exact.complete⟩
  · have hu : u.halted = false := hd.fetched.halted_eq.trans hh
    have hcu : u.Stored c := by
      obtain ⟨k,hk⟩ := hc
      obtain ⟨n,bs,bh,rfl,-⟩ := hd.fetched
      exact ⟨k,List.mem_append_right _ hk⟩
    rw [hd.branch.headD] at he
    rw [he,andThen,if_neg (by simp [hu])]
    exact (hd.tidy hs).prune hd.branch hcu

theorem Tidy.chainOp (hs : Tidy s) (hh : s.halted = false) {op : ChainOp} (hop : Regular S env op s) :
    (chainOp S env op s).halted = true ∧ ForksExact (chainOp S env op s) ∨ Tidy (chainOp S env op s) := by
  rw [chainOp.eq_def,if_neg (by simp [hh])]
  cases op with
  | store b => exact .inr (hs.insertBlock hop)
  | get h => exact .inr (hs.get hop)
  | commit c =>
    obtain ⟨hc,u,l,hd⟩ := hop
    exact hs.commit hh hc hd

theorem chainRun_exact (l : List (Env × ChainOp)) (hs : s.halted = true ∧ ForksExact s ∨ Tidy s)
    (hl : RegularRun S s l) : ForksExact (chainRun S s l) := by
  induction l generalizing s with
  | nil => exact hs.elim And.right Tidy.exact
  | cons e l ih =>
    obtain ⟨hop,hl⟩ := hl
    refine ih ?_ hl
    by_cases hh : s.halted = true
    · have hexact : ForksExact s := hs.elim And.right Tidy.exact
      dsimp only
      rw [chainOp.eq_def,if_pos hh]
      exact .inl ⟨hh,hexact⟩
    · have hh : s.halted = false := by simpa using hh
      exact Tidy.chainOp (hs.resolve_left fun h => by simp [hh] at h) hh (hop hh)

/-- In a run in which no view is used for two blocks or used late, and in which each commit descends to the committed
block, the reported forks are exact. -/
theorem forks_exact (S : Setup) (id : ID) (l : List (Env × ChainOp)) (h : RegularRun S (init S id) l) :
    ForksExact (chainRun S (init S id) l) := chainRun_exact l (.inr (tidy_init id)) h

end Run
end Replica

namespace Sample
open Replica

private def beside : Block := first 2

private def above : Block := next [1,2,4] (line 0) 3

private def ops (l : List ChainOp) : List (Env × ChainOp) := l.map fun op => (env 3 [],op)

private def admitsTest (s : Replica) (b : Block) : Bool :=
  decide (s.localGet (b.hash setup) = none ∧ b.hash setup ≠ s.bExec.parent ∧ s.pruneHeight < b.view) &&
    s.blocks.all fun e => decide (e.2.view ≠ b.view)

private theorem admits_of_test {s : Replica} {b : Block} (h : admitsTest s b = true) : s.Admits (b.hash setup) b := by
  simp only [admitsTest,Bool.and_eq_true,decide_eq_true_eq] at h
  obtain ⟨⟨hn,hp,hv⟩,hall⟩ := h
  refine ⟨.inr ⟨hn,hp⟩,.inr ⟨hv,fun a ha => ?_⟩⟩
  obtain ⟨k,hk⟩ := ha
  exact of_decide_eq_true (List.all_eq_true.mp hall _ hk)

private theorem descends_local {s u : Replica} {a p : Block} {l : List Block} (hp : s.localGet a.parent = some p)
    (hv : p.view < a.view) (h : Descends setup (env 3 []) s p u l) : Descends setup (env 3 []) s a u (a :: l) := by
  have hg : Replica.get setup (env 3 []) a.parent s = (some p,s) := by
    unfold Replica.get
    rw [hp]
  refine .up hg (fun hn => ?_) hv h
  cases hn.symm.trans hp

private def threeStored : Replica := chainRun setup (init setup 3) (ops [.store (line 0),.store beside,.store above])

private theorem commit_regular : Regular setup (env 3 []) (.commit above) threeStored := by
  have hg : threeStored.bExec = genesis := by decide +kernel
  refine ⟨⟨above.hash setup,by decide +kernel⟩,threeStored,[above,line 0],?_⟩
  refine descends_local (p := line 0) (by decide +kernel) (by decide +kernel) ?_
  refine descends_local (p := genesis) (by decide +kernel) (by decide +kernel) ?_
  exact hg ▸ .here _

theorem forks_exact_above : ForksExact (chainRun setup (init setup 3)
    (ops [.store (line 0),.store beside,.store above,.commit above])) := by
  refine forks_exact setup 3 _ ⟨fun _ => ?_,fun _ => ?_,fun _ => ?_,fun _ => commit_regular,trivial⟩
  · exact admits_of_test (by decide +kernel)
  · exact admits_of_test (by decide +kernel)
  · exact admits_of_test (by decide +kernel)

private def forkKnown : List Block := [genesis,line 0,line 1,beside,line 2,line 3,line 4,line 5]

private def forkDelivered : List (ID × Block) :=
  [(1,line 0),(2,line 0),(3,line 0),(1,line 1),(2,line 1),(3,line 1),(3,beside),(1,line 2),(2,line 2),(3,line 2),
    (1,line 3),(2,line 3),(1,line 4),(2,line 4),(3,line 5)]

private def forkOps : List (Env × ChainOp) :=
  ops [.store (line 0),.store (line 1),.store beside,.store (line 2),.commit (line 2)]

private def mixedUp (s : Replica) : Bool :=
  decide (s.halted = false ∧ .fork (line 0) ∈ s.log ∧ .exec (line 0) ∈ s.log ∧
    (beside.hash setup,beside) ∈ s.blocks ∧ beside.view ≤ s.pruneHeight ∧ beside ≠ genesis ∧
    .exec beside ∉ s.log ∧ .fork beside ∉ s.log)

private theorem fork_run : runTest .chained forkKnown forkDelivered = true ∧
    mixedUp (after .chained forkKnown forkDelivered 3) = true ∧
    mixedUp (chainRun setup (init setup 3) forkOps) = true := by decide +kernel

/-- With two blocks in view 2 the walk leaves the committed branch: an executed block is reported as a fork, and a block
that was not executed is never reported. So it goes in a run of the replica and in the bare calls on its store. -/
theorem forks_not_exact : ∃ (F : Faults setup) (I : Ideal setup) (σ : System) (l : List (Env × ChainOp)) (b f : Block),
    Runs .chained I F σ ∧ I.Covers σ ∧ 3 ∉ F.byzantine ∧
    ∀ s ∈ [σ 3,chainRun setup (init setup 3) l], s.halted = false ∧ .fork b ∈ s.log ∧ .exec b ∈ s.log ∧
      s.Stored f ∧ f.view ≤ s.pruneHeight ∧ ¬ s.WasExecuted f ∧ .fork f ∉ s.log := by
  obtain ⟨ht,hrun,hops⟩ := fork_run
  obtain ⟨I,-,hr,hc,-⟩ := runs_of_test ht
  refine ⟨faults,I,_,forkOps,line 0,beside,hr,hc,by decide,?_⟩
  have hmixed {s : Replica} (h : mixedUp s = true) : s.halted = false ∧ .fork (line 0) ∈ s.log ∧
      .exec (line 0) ∈ s.log ∧ s.Stored beside ∧ beside.view ≤ s.pruneHeight ∧ ¬ s.WasExecuted beside ∧
      .fork beside ∉ s.log := by
    obtain ⟨hh,hf,he,hst,hv,hg,hne,hnf⟩ := of_decide_eq_true h
    exact ⟨hh,hf,he,⟨_,hst⟩,hv,fun hx => hx.elim hg hne,hnf⟩
  rw [List.forall_mem_cons,List.forall_mem_singleton]
  exact ⟨hmixed hrun,hmixed hops⟩

end Sample
end Hotstuff
