import Hotstuff.Replica.HighQC
import Hotstuff.Consensus.Encoding

/-! The high QC, the leaf and the block store under any sequence of calls, not only those that
the event loop makes. -/
namespace Hotstuff
open Library
namespace Replica

/-- The calls through which certificates reach the synchronizer. `OnRemoteTimeout`, `OnNewView`, `OnPropose`
and the other handlers are the events. -/
inductive Call where
  | advanceView (si : SyncInfo)
  | updateHighQC (qc : QuorumCert)
  | commitRule (block : Block)
  | event (ev : Event)

def call (S : Setup) (R : RuleSet) (env : Env) : Call → Replica → Replica
  | .advanceView si, s => advanceView S R env env.fuel si s
  | .updateHighQC qc, s => updateHighQC S env qc s
  | .commitRule block, s => (commitRule S env R block s).2
  | .event ev, s => handle S R env ev s

def calls (S : Setup) (R : RuleSet) (s : Replica) (l : List (Env × Call)) : Replica :=
  l.foldl (fun s c => s.andThen (call S R c.1 c.2)) s

variable {S : Setup} {R : RuleSet} {env : Env} {s t : Replica}

theorem calls_append (s : Replica) (l l' : List (Env × Call)) :
    calls S R s (l ++ l') = calls S R (calls S R s l) l' := List.foldl_append

abbrev Turns (S : Setup) (env : Env) := Relation.ReflTransGen (Turn S env)

theorem Fetched.turns (h : Fetched S env s t) : Turns S env s t := .single (.look h)

theorem Steps.turns {P : QuorumCert → Prop} {a b : Phase} (h : Steps S R env P a b) : Turns S env a.1 b.1 :=
  h.lift Prod.fst fun _ _ hm => hm.turn

private theorem updateHighQC_turns (qc : QuorumCert) (s : Replica) : Turns S env s (updateHighQC S env qc s) :=
  Steps.turns (R := .chained) (updateHighQC_steps (P := fun _ => True) trivial s none)

private theorem looks_turns : Looks S env (Turns S env) where
  refl _ := .refl
  trans := .trans
  halt _ := .single (.keep rfl rfl rfl)
  get h s := (get_spec h s).1.turns
  lock _ _ := .single (.keep rfl rfl rfl)
  updateHighQC := updateHighQC_turns

theorem call_turns (c : Call) (hs : s.halted = false) : Turns S env s (call S R env c s) := by
  cases c with
  | advanceView si =>
    exact Steps.turns (advanceView_steps (P := fun _ => True) trivial env.fuel si s hs fun _ _ => trivial)
  | updateHighQC qc => exact updateHighQC_turns qc s
  | commitRule b => exact looks_turns.commitRule b s
  | event ev => exact Steps.turns (handle_micro ev s)

/-- The rule for runs: what a turn brings about, in whatever environment, the calls bring about. -/
theorem calls_of_turn {Q : Replica → Replica → Prop} (hrefl : ∀ s, Q s s) (htrans : ∀ {s t u}, Q s t → Q t u → Q s u)
    (hturn : ∀ {env s t}, Turn S env s t → Q s t) (s : Replica) (l : List (Env × Call)) : Q s (calls S R s l) := by
  induction l generalizing s with
  | nil => exact hrefl s
  | cons c l ih =>
    refine htrans ?_ (ih _)
    dsimp only [andThen]
    split_ifs with hh
    · exact hrefl s
    · have hturns : Turns S c.1 s (call S R c.1 c.2 s) := call_turns c.2 (Bool.not_eq_true _ ▸ hh)
      generalize call S R c.1 c.2 s = t at hturns ⊢
      induction hturns with
      | refl => exact hrefl s
      | tail _ ht ih' => exact htrans ih' (hturn ht)

structure Leafed (S : Setup) (s : Replica) : Prop extends Coupled S s where
  lookup : ∃ q, s.localGet s.highQC.hash = some q ∧ q.hash S = s.highQC.hash

theorem localGet_cons {b : Block} (h : Hash) (hb : t.blocks = (b.hash S,b) :: s.blocks) :
    t.localGet h = if h = b.hash S then some b else s.localGet h := by
  rw [← localGet_insertBlock,localGet,localGet,hb,insertBlock]

theorem Turn.leafed (h : Turn S env s t) (hs : Leafed S s) : Leafed S t := by
  have hc := h.coupled hs.toCoupled
  obtain ⟨q,hq,hqh⟩ := hs.lookup
  refine ⟨hc,?_⟩
  cases h with
  | look hf => exact ⟨q,hf.highQC_eq ▸ hf.localGet hq,hf.highQC_eq ▸ hqh⟩
  | keep hb hh hl =>
    rw [hh]
    exact ⟨q,by rwa [localGet,hb],hqh⟩
  | store b hb hh hl =>
    rw [hh,localGet_cons _ hb]
    split_ifs with he
    · exact ⟨b,rfl,he.symm⟩
    · exact ⟨q,hq,hqh⟩
  | high qc hv hb hold hlt => exact ⟨_,hb,hc.filed.hash_eq hb hlt⟩

theorem leafed_init (id : ID) : Leafed S (init S id) :=
  ⟨.init id,genesis,by simp [init,localGet],rfl⟩

theorem calls_leafed (id : ID) (l : List (Env × Call)) : Leafed S (calls S R (init S id) l) :=
  calls_of_turn (Q := fun s t => Leafed S s → Leafed S t) (fun _ h => h) (fun h h' hs => h' (h hs))
    (fun ht => ht.leafed) _ l (leafed_init id)

/-- The block of the old high QC is never missing. -/
theorem Leafed.updateHighQC_returns (h : Leafed S s) (env : Env) (qc : QuorumCert) :
    (updateHighQC S env qc s).halted = s.halted := by
  obtain ⟨q,hq,-⟩ := h.lookup
  rw [updateHighQC]
  split_ifs
  · rfl
  rcases hg : get S env qc.hash s with ⟨_ | b,t⟩
  · exact (get_eq hg).1.halted_eq
  have hf := (get_eq hg).1
  have hold : Replica.get S env t.highQC.hash t = (some q,t) := by
    rw [Replica.get,hf.highQC_eq,hf.localGet hq]
  dsimp only
  rw [hold]
  dsimp only
  split_ifs <;> exact hf.halted_eq

/-- The lookup gives the leaf, up to what the bytes of a block do not tell apart. -/
structure Alike (S : Setup) (s : Replica) : Prop extends Coupled S s where
  lookup : ∃ q, s.localGet s.highQC.hash = some q ∧ q.toBytes = s.leafBlock.toBytes

section Monotone
variable {B : Set (List UInt8)} (hinj : Set.InjOn S.sha256 B)
include hinj

theorem Turn.alike (h : Turn S env s t) (hB : ∀ e ∈ t.blocks, e.2.toBytes ∈ B) (hs : Alike S s) :
    Alike S t ∧ s.leafBlock.view ≤ t.leafBlock.view := by
  have hc := h.coupled hs.toCoupled
  have hleaf : s.leafBlock.toBytes ∈ B := hB (s.highQC.hash,s.leafBlock) (h.grows.mem hs.stored)
  obtain ⟨q,hq,hqb⟩ := hs.lookup
  cases h with
  | look hf =>
    refine ⟨⟨hc,q,hf.highQC_eq ▸ hf.localGet hq,hf.leafBlock_eq ▸ hqb⟩,UInt64.le_of_eq ?_⟩
    rw [hf.leafBlock_eq]
  | keep hb hh hl =>
    refine ⟨⟨hc,q,?_,hl ▸ hqb⟩,UInt64.le_of_eq (by rw [hl])⟩
    rw [hh,localGet,hb]
    exact hq
  | store b hb hh hl =>
    refine ⟨⟨hc,?_⟩,UInt64.le_of_eq (by rw [hl])⟩
    rw [hh,hl,localGet_cons _ hb]
    split_ifs with he
    · exact ⟨b,rfl,hinj (hB (b.hash S,b) (hb ▸ List.mem_cons_self)) hleaf (he.symm.trans hs.leaf.symm)⟩
    · exact ⟨q,hq,hqb⟩
  | high qc hv hb hold hlt =>
    cases hq.symm.trans hold
    rw [(Block.header_of_toBytes hqb).2.2.1] at hlt
    exact ⟨⟨hc,_,hb,rfl⟩,UInt64.le_of_lt hlt⟩

theorem calls_alike (hs : Alike S s) (l : List (Env × Call)) (hB : ∀ e ∈ (calls S R s l).blocks, e.2.toBytes ∈ B) :
    Alike S (calls S R s l) ∧ s.leafBlock.view ≤ (calls S R s l).leafBlock.view := by
  have hrun := calls_of_turn (S := S) (R := R) (Q := fun s t => s.blocks <:+ t.blocks ∧
    ((∀ e ∈ t.blocks, e.2.toBytes ∈ B) → Alike S s → Alike S t ∧ s.leafBlock.view ≤ t.leafBlock.view))
    (fun s => ⟨List.suffix_rfl,fun _ h => ⟨h,UInt64.le_refl _⟩⟩) ?_
    (fun ht => ⟨ht.grows,fun hB h => ht.alike hinj hB h⟩) s l
  · exact hrun.2 hB hs
  · intro s t u hst htu
    refine ⟨hst.1.trans htu.1,fun hB h => ?_⟩
    obtain ⟨ht,hle⟩ := hst.2 (fun e he => hB e (htu.1.mem he)) h
    exact (htu.2 hB ht).imp_right (UInt64.le_trans hle)

end Monotone

variable (S R) in
/-- After any sequence of calls the leaf is the block of the high QC, which is an accepted certificate; the store
has a block with that hash, so that `UpdateHighQC` does not panic; and, as long as SHA-256 does not
collide on the blocks stored, that block has the leaf's bytes and the leaf only moves up. -/
theorem high_qc_coupled (id : ID) (l l' : List (Env × Call)) :
    (calls S R (init S id) l).leafBlock.hash S = (calls S R (init S id) l).highQC.hash ∧
    S.verifyQuorumCert (calls S R (init S id) l).highQC = true ∧
    (∃ q, (calls S R (init S id) l).localGet ((calls S R (init S id) l).leafBlock.hash S) = some q ∧
      q.hash S = (calls S R (init S id) l).leafBlock.hash S) ∧
    (∀ env qc, (updateHighQC S env qc (calls S R (init S id) l)).halted = (calls S R (init S id) l).halted) ∧
    ∀ B, Set.InjOn S.sha256 B → (∀ e ∈ (calls S R (init S id) (l ++ l')).blocks, e.2.toBytes ∈ B) →
      (∃ q, (calls S R (init S id) l).localGet ((calls S R (init S id) l).leafBlock.hash S) = some q ∧
        q.toBytes = (calls S R (init S id) l).leafBlock.toBytes) ∧
      (calls S R (init S id) l).leafBlock.view ≤ (calls S R (init S id) (l ++ l')).leafBlock.view := by
  have hl : Leafed S (calls S R (init S id) l) := calls_leafed id l
  refine ⟨hl.leaf,hl.accepted,hl.leaf ▸ hl.lookup,hl.updateHighQC_returns,fun B hinj hB => ?_⟩
  rw [calls_append] at hB ⊢
  have hgrows : (calls S R (init S id) l).blocks <:+ (calls S R (calls S R (init S id) l) l').blocks :=
    calls_of_turn (Q := fun s t => s.blocks <:+ t.blocks) (fun _ => List.suffix_rfl) (fun h h' => h.trans h')
      (fun ht => ht.grows) _ l'
  have hinit : Alike S (init S id) := ⟨.init id,genesis,by simp [init,localGet],rfl⟩
  have ha := (calls_alike hinj hinit l fun e he => hB e (hgrows.mem he)).1
  exact ⟨ha.leaf ▸ ha.lookup,(calls_alike hinj ha l' hB).2⟩

end Replica

namespace Sample
open Replica

private def proposed : List (Env × Call) := [(env 1 [],.event (.propose ⟨4,first 1,none⟩))]

private def certified : List (Env × Call) := [(env 1 [],.updateHighQC (qcOf [2,3,4] (first 1)))]

/-- A block of view 1 is stored, then its certificate arrives: the leaf moves from the genesis block to it. -/
theorem high_qc_coupled_first :
    (calls setup .chained (init setup 1) proposed).leafBlock.view = 0 ∧
    (calls setup .chained (init setup 1) (proposed ++ certified)).leafBlock = first 1 ∧
    (calls setup .chained (init setup 1) proposed).leafBlock.view ≤
      (calls setup .chained (init setup 1) (proposed ++ certified)).leafBlock.view := by
  have hinj : Set.InjOn setup.sha256 {x | x ∈ [genesis.toBytes,(first 1).toBytes]} :=
    injOn_pair (a := genesis.toBytes) (b := (first 1).toBytes) (by decide +kernel)
  have hB : (calls setup .chained (init setup 1) (proposed ++ certified)).blocks.all
      (fun e => e.2.toBytes ∈ [genesis.toBytes,(first 1).toBytes]) = true := by decide +kernel
  obtain ⟨-,-,-,-,hmono⟩ := high_qc_coupled setup .chained 1 proposed certified
  exact ⟨by decide +kernel,by decide +kernel,
    (hmono _ hinj fun e he => of_decide_eq_true (List.all_eq_true.mp hB e he)).2⟩

end Sample
end Hotstuff
