import Hotstuff.System.Fast

/-! The blocks that a replica executes. `commitInner` follows `Parent` while decisions follow
certificates; on linked votes the two agree, and what is executed is one chain from genesis. -/
namespace Hotstuff
open Library Replica
variable {S : Setup} {R : RuleSet} {I : Ideal S} {F : Faults S} {σ σ' : System}

/-- What agreement asks of a run beyond the network, for each rule set. -/
def Disciplined (I : Ideal S) : RuleSet → System → Prop
  | .chained, σ => ∀ i b c, .decide b c ∈ (σ i).log → I.Consecutive b c
  | .simple, _ => True
  | .fast, σ => I.CoversAggregates σ ∧ ∀ i p, .handle p ∈ (σ i).log → I.Faithful p

def RuleSet.depth : RuleSet → Nat
  | .fast => 1
  | _ => 2

def Replica.executed (s : Replica) : List Block := s.log.filterMap fun
  | .exec b => some b
  | _ => none

section Discipline
variable (hu : Set.InjOn Block.toBytes I.blocks) (h : Runs R I F σ) (hc : I.Covers σ)
  (hd : Disciplined I R σ)
include hu h hc hd

theorem safe_of_disciplined (hlink : Linked σ) : (I.voting F σ).Safe R.depth := by
  cases R with
  | chained => exact locking_safe (by simp) hu h hc fun _ => hlink
  | simple => exact locking_safe (by simp) hu h hc (by simp)
  | fast => exact fast_safe hu h hc hd.1 hd.2

theorem decided_of_disciplined {i : ID} {b c : Block} (hdec : .decide b c ∈ (σ i).log) :
    (I.voting F σ).Decided R.depth c := by
  cases R with
  | chained => exact decided_of_chained hu h hc rfl hdec (hd i b c hdec)
  | simple => exact decided_of_simple hu h hc rfl hdec
  | fast => exact decided_of_fast hu h hc hdec

end Discipline

/-- The descent of `commitInner` along a certified branch ends at the block executed last. -/
private theorem chain_of_walk {env : Env} (m : Mid R I F env σ) (hlink : Linked σ) {i : ID} {s : Replica}
    (hblocks : s.blocks <:+ (σ i).blocks) {e b : Block} (hr : Relation.ReflTransGen I.Up b e)
    (hb : (I.voting F σ).Certified b) {l : List Block} (hw : Walk S env s e.view b l) : (l ++ [e]).head? = some b ∧
      (l ++ [e]).IsChain (fun b a => b.parent = a.hash S ∧ a.view < b.view) := by
  induction hr using Relation.ReflTransGen.head_induction_on generalizing l with
  | refl =>
    cases hw with
    | done => simp
    | gap hlt => exact absurd hlt (UInt64.lt_irrefl _)
    | up hlt => exact absurd hlt (UInt64.lt_irrefl _)
  | @head b a hup hr ih =>
    obtain ⟨hca,hlt⟩ := m.backed.up_certified hb hup
    obtain ⟨j,-,-,hv⟩ := hb.exists_voter fun hg => m.backed.root_up a (hg ▸ hup)
    have hparent : b.parent = b.cert.hash := hlink j b hv
    cases hw with
    | done hle =>
      have hea := (m.backed.reached hca hr).2
      exact absurd (UInt64.lt_iff_toNat_lt.mpr (Nat.lt_of_le_of_lt hea hlt)) hle
    | gap _ hmiss => exact absurd (hparent ▸ hmiss) (m.not_missing hup hca)
    | @up _ a' l' _ hget hw =>
      have ha' : a' = a := m.backed.up_unique _ _ _ (m.up_of_mem (hblocks.mem (hparent ▸ localGet_mem hget))) hup
      obtain ⟨hhead,hchain⟩ := ih hca (ha' ▸ hw)
      refine ⟨rfl,List.isChain_cons.mpr ⟨fun x hx => ?_,hchain⟩⟩
      obtain rfl : a = x := Option.some.inj (hhead.symm.trans hx)
      exact ⟨hparent.trans hup.2.symm,UInt64.lt_iff_toNat_lt.mpr hlt⟩

structure Executed (S : Setup) (s : Replica) : Prop where
  chain : (s.executed ++ [genesis]).IsChain (fun b a => b.parent = a.hash S ∧ a.view < b.view)
  last : s.bExec = s.executed.headD genesis
  decided : s.bExec = genesis ∨ ∃ b, .decide b s.bExec ∈ s.log

private theorem Executed.keep {s t : Replica} {l : List Effect} (h : Executed S s) (hb : t.bExec = s.bExec)
    (hl : t.log = l ++ s.log) (he : ∀ b, .exec b ∉ l) : Executed S t := by
  have hex : t.executed = s.executed := by
    have hnil : (l.filterMap fun | .exec b => some b | _ => none : List Block) = [] := by
      rw [List.filterMap_eq_nil_iff]
      intro e hm
      split
      · exact absurd hm (he _)
      · rfl
    rw [Replica.executed,Replica.executed,hl,List.filterMap_append]
    simpa using hnil
  refine ⟨hex ▸ h.chain,hex ▸ hb ▸ h.last,?_⟩
  rw [hb,hl]
  exact h.decided.imp id fun ⟨b,hd⟩ => ⟨b,List.mem_append_right _ hd⟩

private theorem executed_append (s : Replica) (l : List Block) (b : Block) :
    Replica.executed { s with bExec := b, log := l.map .exec ++ s.log } = l ++ s.executed := by
  simp [Replica.executed,List.filterMap_append,List.filterMap_map]

/-- Committing a block above the last executed one extends the chain up to it. -/
private theorem Executed.commit {s : Replica} {b c : Block} {l : List Block} (h : Executed S s)
    (hd : .decide b c ∈ s.log) (hhead : (l ++ [s.bExec]).head? = some c)
    (hchain : (l ++ [s.bExec]).IsChain (fun b a => b.parent = a.hash S ∧ a.view < b.view)) :
    Executed S { s with bExec := l.headD s.bExec, log := l.map .exec ++ s.log } := by
  refine ⟨?_,?_,?_⟩
  · rw [executed_append]
    have hlast := h.last
    have hc := h.chain
    cases hex : s.executed with
    | nil =>
      rw [hex] at hlast
      simpa [hlast] using hchain
    | cons x xs =>
      rw [hex] at hlast hc
      obtain rfl : s.bExec = x := hlast
      have := hchain.append_overlap hc (by simp)
      simpa using this
  · rw [executed_append]
    cases l with
    | nil => exact h.last
    | cons x l => rfl
  · cases l with
    | nil => exact h.decided
    | cons x l =>
      obtain rfl : x = c := Option.some.inj hhead
      exact .inr ⟨b,List.mem_append_right _ hd⟩

private theorem certified_of_chain {env : Env} (m : Mid R I F env σ) {i : ID} {p : ProposeMsg}
    (hp : .handle p ∈ (σ i).log) {c : Block} (hch : I.Chain R p.block c) : (I.voting F σ).Certified c := by
  have up {a b : Block} (hb : (I.voting F σ).Certified b) (ha : I.Up b a) := (m.backed.up_certified hb ha).1
  cases R with
  | chained =>
    obtain ⟨b1,b2,h1,h2,h3,-⟩ := hch
    exact up (up (m.handled hp h1) h2) h3
  | simple =>
    obtain ⟨b1,b2,h1,h2,h3,-⟩ := hch
    exact up (up (m.handled hp h1) h2) h3
  | fast =>
    obtain ⟨b1,h1,h2,-⟩ := hch
    exact up (m.handled hp h1) h2

/-- Decisions above the block executed last extend it. -/
private theorem reaches_last (hu : Set.InjOn Block.toBytes I.blocks) (h : Runs R I F σ) (hc : I.Covers σ)
    (hlink : Linked σ) (hd : Disciplined I R σ) {i : ID} {b c e : Block} (hdec : .decide b c ∈ (σ i).log)
    (he : e = genesis ∨ ∃ b', .decide b' e ∈ (σ i).log) (hv : e.view < c.view) :
    Relation.ReflTransGen I.Up c e := by
  have hsafe := safe_of_disciplined hu h hc hd hlink
  have hcert := (decided_of_disciplined hu h hc hd hdec).certified hsafe.toBacked
  have hup : Relation.ReflTransGen (I.voting F σ).Link ≤ Relation.ReflTransGen I.Up :=
    Relation.ReflTransGen.mono fun _ _ hl => hl.2
  rcases he with rfl | ⟨b',he⟩
  · exact hup _ _ (hsafe.reaches_root hcert)
  · exact hup _ _ ((decided_of_disciplined hu h hc hd he).reached hsafe hcert
      (UInt64.lt_iff_toNat_lt.mp hv).le)

/-- The condition under which the executed blocks form a chain, at the end of a run. -/
structure Orderly (R : RuleSet) (I : Ideal S) (F : Faults S) (σ : System) : Prop where
  runs : Runs R I F σ
  covers : I.Covers σ
  linked : Linked σ
  disciplined : Disciplined I R σ

private theorem Executed.micro {env : Env} (hu : Set.InjOn Block.toBytes I.blocks) {i : ID} {s u : Replica}
    {x y : Option Block} (hi : σ i = u) (hm : Micro S R env (fun _ => True) (s,x) (u,y)) (m : Mid R I F env σ)
    (hg : Grows σ σ') (ho : Orderly R I F σ') (h : Executed S s) : Executed S u := by
  have hblocks : s.blocks <:+ (σ i).blocks := hi ▸ hm.grows.2.1
  have hlog : s.log <:+ (σ i).log := hi ▸ hm.grows.1
  cases hm with
  | look hf => exact h.keep (l := []) hf.bExec_eq hf.log_eq (by simp)
  | note l hl => exact h.keep rfl rfl (fun b hb => by cases hl _ hb)
  | check p => exact h.keep (l := [_]) rfl rfl (by simp)
  | decide p => exact h.keep (l := [_]) rfl rfl (by simp)
  | vote p => exact h.keep (l := [_]) rfl rfl (by simp)
  | enter v t => exact h.keep (l := [_]) rfl rfl (by simp)
  | stopVoting l hs hl =>
    refine h.keep rfl rfl (fun b hb => ?_)
    obtain ⟨_,he,-⟩ := hl _ hb
    cases he
  | @commit _ _ b c l hd hw =>
    by_cases hlt : s.bExec.view < c.view
    · have up {e : Effect} (he : e ∈ s.log) : e ∈ (σ' i).log := (hg i).mem (hlog.mem he)
      have hreach : Relation.ReflTransGen I.Up c s.bExec :=
        reaches_last hu ho.runs ho.covers ho.linked ho.disciplined (up hd)
          (h.decided.imp id fun ⟨b',he⟩ => ⟨b',up he⟩) hlt
      obtain ⟨p,rfl,hp⟩ := (m.recorded i).decided (hlog.mem hd)
      have hcert := certified_of_chain m hp (chain_of_decide hu ho.runs ho.covers (up hd))
      obtain ⟨hhead,hchain⟩ := chain_of_walk m (ho.linked.back hg) hblocks hreach hcert hw
      exact h.commit hd hhead hchain
    · cases hw with
      | done => exact h
      | gap hlt' => exact absurd hlt' hlt
      | up hlt' => exact absurd hlt' hlt
  | _ => exact h.keep (l := []) rfl rfl (by simp)

/-- Under any of the three rule sets, the blocks that a replica executes are a chain of
`Parent` links from genesis with growing views: none is skipped and none executed twice. -/
theorem executed_chain (F : Faults S) (I : Ideal S) (hu : Set.InjOn Block.toBytes I.blocks)
    (ho : Orderly R I F σ) (i : ID) :
    (genesis :: (σ i).executed.reverse).IsChain (fun a b => b.parent = a.hash S ∧ a.view < b.view) := by
  have hex : Executed S (σ i) := by
    refine Reachable.invariant (P := fun _ s _ => Executed S s)
      (C := fun τ => ∃ σ', Grows τ σ' ∧ Orderly R I F σ') (fun i => ?_) (fun _ _ _ _ _ h => h)
      (fun _ _ hg ⟨σ',hg',ho⟩ => ⟨σ',fun j => (hg j).trans (hg' j),ho⟩)
      (fun i env σ u x y hm m hC ih => ?_) hu ho.runs ho.covers ⟨σ,fun _ => List.suffix_rfl,ho⟩ i
    · exact ⟨by simp [Replica.init,Replica.executed],rfl,.inl rfl⟩
    · obtain ⟨σ',hg,ho⟩ := hC
      exact (ih i).micro hu (Function.update_self i u σ) hm m hg ho
  have hrev := List.isChain_reverse.mpr hex.chain
  simpa using hrev

namespace Sample

private theorem executed_line : runTest .simple lineKnown lineOrder = true ∧
    [1,2,3].all (fun i => (after .simple lineKnown lineOrder i).log.all linkedTest) = true ∧
    (after .simple lineKnown lineOrder 1).executed = [line 1,line 0] := by decide +kernel

theorem executed_chain_line :
    [genesis,line 0,line 1].IsChain (fun a b => b.parent = a.hash setup ∧ a.view < b.view) := by
  obtain ⟨ht,hl,he⟩ := executed_line
  obtain ⟨I,hI,hr,hc,hw⟩ := runs_of_test ht
  have hchain := executed_chain faults I (line_unambiguous hI) ⟨hr,hc,linked_of_test hw hl,trivial⟩ 1
  rwa [he] at hchain

private def o1 : Block := ⟨99,4,[],genesisQC 0,1⟩
private def o2 : Block := next [1,2,4] o1 2
private def o3 : Block := next [1,2,4] o2 3
private def o4 : Block := next [1,2,4] o3 4

private def orphanBlocks : List Block := [o1,o2,o3,o4]

private def orphanOrder : List (ID × Block) := orphanBlocks.flatMap fun b => [(1,b),(2,b)]

private theorem orphan_run : runTest .simple (genesis :: orphanBlocks) orphanOrder = true ∧
    (after .simple (genesis :: orphanBlocks) orphanOrder 1).executed = [o1] ∧
    o1.parent ≠ setup.genesisHash := by decide +kernel

/-- Four replicas, one of them Byzantine: the first block that replica 1 executes does not have
the genesis block as its parent. -/
theorem executed_orphan : ∃ (F : Faults setup) (I : Ideal setup) (σ : System) (b : Block),
    Runs .simple I F σ ∧ I.Covers σ ∧ 1 ∉ F.byzantine ∧ (σ 1).executed = [b] ∧ b.parent ≠ genesis.hash setup := by
  obtain ⟨ht,he,hp⟩ := orphan_run
  obtain ⟨I,-,hr,hc,-⟩ := runs_of_test ht
  exact ⟨faults,I,_,o1,hr,hc,by decide,he,hp⟩

end Sample
end Hotstuff
