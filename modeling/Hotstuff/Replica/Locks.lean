import Hotstuff.Replica.Voting

/-! Voting and locking: the lock is raised after the vote, by a commit rule that gives up when a lookup fails. -/
namespace Hotstuff
open Library
namespace Replica
variable {S : Setup} {R : RuleSet} {env : Env} {P : QuorumCert → Prop}

theorem Micro.lock_le {a b : Phase} (hm : Micro S R env P a b) : a.1.lock.view ≤ b.1.lock.view := by
  cases hm with
  | look hf => exact UInt64.le_of_eq (by rw [hf.lock_eq])
  | lock p hp _ _ hlt => exact UInt64.le_of_lt hlt
  | _ => exact UInt64.le_refl _

theorem Steps.lock_le {a b : Phase} (hm : Steps S R env P a b) : a.1.lock.view ≤ b.1.lock.view := by
  induction hm with
  | refl => exact UInt64.le_refl _
  | tail _ hm ih => exact UInt64.le_trans ih hm.lock_le

theorem Steps.halted {a b : Phase} (hm : Steps S R env P a b) (h : a.1.halted = true) : b.1.halted = true := by
  induction hm with
  | refl => exact h
  | tail _ hm ih =>
    cases hm with
    | look hf => exact hf.halted_eq.trans ih
    | stop => rfl
    | _ => exact ih

theorem Available.fetched {k : Hash} {q : Block} {s t : Replica} (h : Available S env k q s) (hf : Fetched S env s t) :
    Available S env k q t := by
  rcases h with hq | ⟨hn,hall⟩
  · exact .inl (hf.localGet hq)
  · cases ht : t.localGet k with
    | none => exact .inr ⟨ht,hall⟩
    | some x =>
      -- what was not there before has been fetched
      obtain ⟨n,bs,bh,rfl,hbs,-⟩ := hf
      rw [localGet,List.lookup_append] at ht
      change (bs.lookup k).or (s.localGet k) = some x at ht
      rw [hn,Option.or_none] at ht
      obtain ⟨k',hk'⟩ := hbs (k,x) (mem_of_lookup ht)
      rw [hall] at hk'
      cases hk'
      refine .inl ?_
      rw [localGet,List.lookup_append,ht]
      rfl

theorem Available.congr {k : Hash} {q : Block} {s t : Replica} (h : Available S env k q s) (hb : t.blocks = s.blocks) :
    Available S env k q t := by
  have hl : t.localGet k = s.localGet k := by rw [localGet,localGet,hb]
  rw [Available,hl]
  exact h

section Injective
variable {B : Set Block} (hinj : Set.InjOn (Block.hash S) B) {k : Hash} {q : Block} (hqB : q ∈ B) (hk : q.hash S = k)
include hinj hqB hk

/-- A block that is stored has the hash of an available one only if it is that one. -/
theorem Available.store {s : Replica} (h : Available S env k q s) {b : Block} (hbB : b ∈ B) :
    Available S env k q (store S b s) := by
  by_cases he : k = b.hash S
  · rw [hinj hqB hbB (hk.trans he)]
    exact .inl (by rw [Replica.store,localGet_insertBlock,if_pos he])
  · rw [Available,Replica.store,localGet_insertBlock,if_neg he]
    exact h

theorem Micro.available {a b : Phase} (hm : Micro S R env P a b) (hB : ∀ e ∈ b.1.blocks, e.2 ∈ B)
    (h : Available S env k q a.1) : Available S env k q b.1 := by
  cases hm with
  | look hf => exact h.fetched hf
  | store b => exact h.store hinj hqB hk (hB _ List.mem_cons_self)
  | vote p => exact h.store hinj hqB hk (hB _ List.mem_cons_self)
  | _ => exact h

theorem Steps.available {a b : Phase} (hm : Steps S R env P a b) (hB : ∀ e ∈ b.1.blocks, e.2 ∈ B)
    (h : Available S env k q a.1) : Available S env k q b.1 := by
  induction hm with
  | refl => exact h
  | tail _ hm ih => exact hm.available hinj hqB hk hB (ih fun e he => hB e (hm.grows.2.1.mem he))

theorem Row.available {s t : Replica} (hrow : Row S R env s t) (hB : ∀ e ∈ t.blocks, e.2 ∈ B)
    (h : Available S env k q s) : Available S env k q t := by
  induction hrow with
  | refl => exact h
  | tail _ hp ih =>
    obtain ⟨x,hx⟩ := hp.steps
    exact hx.available hinj hqB hk hB (ih fun e he => hB e (hx.grows.2.1.mem he))

end Injective

namespace Row
variable {s t : Replica} (h : Row S R env s t)
include h

theorem blocks : s.blocks <:+ t.blocks :=
  of_steps (Q := fun s t => s.blocks <:+ t.blocks) (fun _ => List.suffix_rfl) (fun h h' => h.trans h')
    (fun hm => hm.grows.2.1) h

theorem lock_le : s.lock.view ≤ t.lock.view :=
  of_steps (Q := fun s t => s.lock.view ≤ t.lock.view) (fun _ => UInt64.le_refl _) (fun h h' => UInt64.le_trans h h')
    (fun hm => hm.lock_le) h

theorem running (ht : t.halted = false) : s.halted = false := by
  have hhalt : s.halted = true → t.halted = true :=
    of_steps (Q := fun s t => s.halted = true → t.halted = true) (fun _ hs => hs) (fun h h' hs => h' (h hs))
      (fun hm => hm.halted) h
  cases hs : s.halted with
  | false => rfl
  | true => exact (hhalt hs).symm.trans ht

end Row

section Rules
variable {b q g : Block} {s : Replica}

private theorem Available.lookup {k : Hash} (h : Available S env k q s) :
    ∃ t, Replica.get S env k s = (some q,t) ∧ Fetched S env s t := by
  obtain ⟨t,ht⟩ := h.get
  exact ⟨t,ht,(get_eq ht).1⟩

private theorem raiseLock_fetched {t : Replica} (hf : Fetched S env (s.raiseLock g) t) : g.view ≤ t.lock.view := by
  rw [hf.lock_eq]
  exact le_raiseLock g s

private theorem chainedCommitRule_locks (hzero : b.cert.hash ≠ 0 ∧ q.cert.hash ≠ 0)
    (hq : Available S env b.cert.hash q s) (hg : Available S env q.cert.hash g s) :
    ((chainedCommitRule S env b s).1 = none ∧ (chainedCommitRule S env b s).2.halted = true) ∨
      g.view ≤ (chainedCommitRule S env b s).2.lock.view := by
  obtain ⟨t,hf,ht⟩ : ∃ t, Fetched S env s t ∧ (updateHighQC S env b.cert s).blocks = t.blocks := by
    obtain ⟨t,hf,⟨he,-⟩ | he | ⟨a,q,-,-,-,-,he⟩⟩ := updateHighQC_spec S env b.cert s
    · exact ⟨t,hf,by rw [he]⟩
    · exact ⟨t,hf,by rw [he]; rfl⟩
    · exact ⟨t,hf,by rw [he]⟩
  have hqu := (hq.fetched hf).congr ht
  have hgu := (hg.fetched hf).congr ht
  rw [chainedCommitRule]
  split_ifs with hh
  · exact .inl ⟨rfl,hh⟩
  · right
    obtain ⟨t1,h1,hf1⟩ := hqu.lookup
    obtain ⟨t2,h2,hf2⟩ := (hgu.fetched hf1).lookup
    simp only [qcRef,if_neg hzero.1,if_neg hzero.2,h1,h2]
    rw [← qcRef]
    rcases h3 : qcRef S env g.cert (t2.raiseLock g) with ⟨_ | c,t3⟩
    · exact raiseLock_fetched (qcRef_eq h3).1
    · dsimp only
      split_ifs <;> exact raiseLock_fetched (qcRef_eq h3).1

private theorem simpleCommitRule_locks (hq : Available S env b.cert.hash q s) (hg : Available S env q.cert.hash g s) :
    g.view ≤ (simpleCommitRule S env b s).2.lock.view := by
  obtain ⟨t1,h1,hf1⟩ := hq.lookup
  obtain ⟨t2,h2,hf2⟩ := (hg.fetched hf1).lookup
  rw [simpleCommitRule,h1]
  dsimp only
  rw [h2]
  dsimp only
  rcases h3 : Replica.get S env g.cert.hash (t2.raiseLock g) with ⟨_ | c,t3⟩
  · exact raiseLock_fetched (get_eq h3).1
  · dsimp only
    split_ifs <;> exact raiseLock_fetched (get_eq h3).1

/-- With both lookups a rule raises the lock, unless it stops on the way. -/
theorem commitRule_locks (hR : R ≠ .fast) (hzero : b.cert.hash ≠ 0 ∧ q.cert.hash ≠ 0)
    (hq : Available S env b.cert.hash q s) (hg : Available S env q.cert.hash g s) :
    ((commitRule S env R b s).1 = none ∧ (commitRule S env R b s).2.halted = true) ∨
      g.view ≤ (commitRule S env R b s).2.lock.view := by
  cases R with
  | chained => exact chainedCommitRule_locks hzero hq hg
  | simple => exact .inr (simpleCommitRule_locks hq hg)
  | fast => exact absurd rfl hR

private theorem commitInner_lock (k : Nat) (b : Block) (s : Replica) : (commitInner S env k b s).lock = s.lock := by
  induction k generalizing b s with
  | zero => rfl
  | succ k ih =>
    rw [commitInner]
    split_ifs
    · rcases hg : Replica.get S env b.parent s with ⟨_ | parent,t⟩
      · exact (get_eq hg).1.lock_eq
      · dsimp only [andThen]
        split_ifs
        · exact (ih parent t).trans (get_eq hg).1.lock_eq
        · exact (ih parent t).trans (get_eq hg).1.lock_eq
    · rfl

private theorem commit_lock (b : Block) (s : Replica) : (commit S env b s).lock = s.lock := by
  rw [commit,andThen]
  split_ifs
  · exact commitInner_lock _ _ _
  · rw [pruneToHeight]
    split <;> exact commitInner_lock _ _ _

private theorem vote_blocks (b : Block) (s : Replica) : (vote S env b s).blocks = s.blocks := by
  rw [vote]
  split_ifs
  · rfl
  rw [sign]
  rcases env.sign s.now (b.hash S) with _ | ⟨r,t⟩
  · rfl
  · dsimp only [getLeader]
    split_ifs <;> rfl

/-- After `accepted` the lock is up to the grandparent, if that and the parent could be had. -/
theorem accepted_locks (hR : R ≠ .fast) {B : Set Block} (hinj : Set.InjOn (Block.hash S) B)
    (hzero : ∀ b ∈ B, b.hash S ≠ 0) (hbB : b ∈ B) (hqB : q ∈ B) (hgB : g ∈ B) (hqb : q.hash S = b.cert.hash)
    (hgq : g.hash S = q.cert.hash) (hq : Available S env b.cert.hash q s) (hg : Available S env q.cert.hash g s)
    (hh : (accepted S R env b s).halted = false) : g.view ≤ (accepted S R env b s).lock.view := by
  have stored {k : Hash} {x : Block} (hx : Available S env k x s) (hxB : x ∈ B) (hk : x.hash S = k) :
      Available S env k x (vote S env b (store S b s)) :=
    (hx.store hinj hxB hk hbB).congr (vote_blocks b _)
  have hlock := commitRule_locks hR ⟨hqb ▸ hzero q hqB,hgq ▸ hzero g hgB⟩ (stored hq hqB hqb) (stored hg hgB hgq)
  rw [accepted] at hh ⊢
  rcases hc : commitRule S env R b (vote S env b (store S b s)) with ⟨_ | c,t⟩
  · rw [hc] at hh hlock
    exact hlock.resolve_left fun hhalt => by simp [hh] at hhalt
  · rw [hc] at hlock
    rw [commit_lock]
    exact hlock.resolve_left (by simp)

end Rules

/-- The lock is at least as high as the block certified by the block that `b` certifies, if there is one. -/
def Locked (S : Setup) (B : Set Block) (b : Block) (s : Replica) : Prop :=
  ∀ q ∈ B, ∀ g ∈ B, q.hash S = b.cert.hash → g.hash S = q.cert.hash → g.view ≤ s.lock.view

def Served (S : Setup) (env : Env) (B : Set Block) (b : Block) (s : Replica) : Prop :=
  ∀ q ∈ B, ∀ g ∈ B, q.hash S = b.cert.hash → g.hash S = q.cert.hash →
    Available S env b.cert.hash q s ∧ Available S env q.cert.hash g s

theorem Locked.mono {B : Set Block} {b : Block} {s t : Replica} (h : Locked S B b s)
    (hle : s.lock.view ≤ t.lock.view) : Locked S B b t :=
  fun q hq g hg hqb hgq => UInt64.le_trans (h q hq g hg hqb hgq) hle

private theorem run_row (s : Replica) (l : List (Env × Event)) : s.blocks <:+ (run S R s l).blocks ∧
    ((run S R s l).halted = false → s.halted = false) := by
  induction l generalizing s with
  | nil => exact ⟨List.suffix_rfl,fun h => h⟩
  | cons e l ih =>
    have hrow : Row S R e.1 s (handle S R e.1 e.2 s) := handle_row e.2 s
    exact ⟨hrow.blocks.trans (ih _).1,fun h => hrow.running ((ih _).2 h)⟩

section Run
variable (hR : R ≠ .fast) {B : Set Block} (hinj : Set.InjOn (Block.hash S) B) (hzero : ∀ b ∈ B, b.hash S ≠ 0)
include hR hinj hzero

/-- A judgement in the course of an event from `s` to `t` that signs a vote also locks. -/
theorem Row.locks {s a t : Replica} {p : ProposeMsg} (h : Row S R env s a) (ha : a.halted = false)
    (h' : Row S R env (judge S R env p a) t) (ht : t.halted = false) (hB : ∀ e ∈ t.blocks, e.2 ∈ B)
    (hpB : p.block ∈ B) (hv : .vote p.block ∈ (judge S R env p a).log) (hn : .vote p.block ∉ a.log)
    (hserved : Served S env B p.block s) : Locked S B p.block (judge S R env p a) := by
  intro q hq g hg hqb hgq
  obtain ⟨-,hsigns⟩ := judge_voted hv hn
  have hjudge : Row S R env a (Replica.judge S R env p a) := .single (.judge p ha)
  have hBa : ∀ e ∈ a.blocks, e.2 ∈ B := fun e he => hB e (h'.blocks.mem (hjudge.blocks.mem he))
  obtain ⟨hqs,hgs⟩ := hserved q hq g hg hqb hgq
  rw [hsigns.judged] at h' ⊢
  exact accepted_locks hR hinj hzero hpB hq hg hqb hgq
    (((h.available hinj hq hqb hBa hqs).fetched hsigns.looked.fetched).congr rfl)
    (((h.available hinj hg hgq hBa hgs).fetched hsigns.looked.fetched).congr rfl) (h'.running ht)

variable (S R) in
/-- If the two blocks can be had before each event that signs a vote, then every vote has locked, as soon
as `OnPropose` has judged the proposal. -/
theorem votes_lock (id : ID) (l : List (Env × Event)) (hB : ∀ e ∈ (run S R (init S id) l).blocks, e.2 ∈ B)
    (hh : (run S R (init S id) l).halted = false)
    (hserved : ∀ l' e b, l' ++ [e] <+: l → .vote b ∈ (run S R (init S id) (l' ++ [e])).log →
      .vote b ∉ (run S R (init S id) l').log → Served S e.1 B b (run S R (init S id) l')) :
    (∀ b, .vote b ∈ (run S R (init S id) l).log → Locked S B b (run S R (init S id) l)) ∧
    ∀ l' e p a, l' ++ [e] <+: l → a.halted = false → Row S R e.1 (run S R (init S id) l') a →
      Row S R e.1 (judge S R e.1 p a) (run S R (init S id) (l' ++ [e])) →
      .vote p.block ∈ (judge S R e.1 p a).log → .vote p.block ∉ a.log →
      Locked S B p.block (judge S R e.1 p a) := by
  have hjudge : ∀ l' e p a, l' ++ [e] <+: l → a.halted = false → Row S R e.1 (run S R (init S id) l') a →
      Row S R e.1 (judge S R e.1 p a) (run S R (init S id) (l' ++ [e])) →
      .vote p.block ∈ (judge S R e.1 p a).log → .vote p.block ∉ a.log →
      Locked S B p.block (judge S R e.1 p a) := by
    intro l' e p a hpre ha hrow hrow' hv hn
    obtain ⟨l₂,rfl⟩ := hpre
    rw [run_append _ _ l₂] at hB hh
    obtain ⟨hblocks,hrun⟩ := run_row (S := S) (R := R) (run S R (init S id) (l' ++ [e])) l₂
    have hB' : ∀ x ∈ (run S R (init S id) (l' ++ [e])).blocks, x.2 ∈ B := fun x hx => hB x (hblocks.mem hx)
    have hvote := hrow'.log.mem hv
    have hstored := (run_recorded (R := R) (recorded_init id) (l' ++ [e])).stored _ hvote
    exact hrow.locks hR hinj hzero ha hrow' (hrun hh) hB' (hB' _ hstored) hv hn
      (hserved l' e _ (List.prefix_append _ _) hvote fun hold => hn (hrow.log.mem hold))
  refine ⟨?_,hjudge⟩
  -- the first judgement that signs a vote locks, and the lock only goes up
  clear hB hh hserved
  induction l using List.reverseRecOn with
  | nil =>
    intro b hb
    cases hb
  | append_singleton l e ih =>
    intro b hb
    have hstep : Row S R e.1 (run S R (init S id) l) (run S R (init S id) (l ++ [e])) := by
      rw [run_append]
      exact handle_row e.2 _
    by_cases hold : .vote b ∈ (run S R (init S id) l).log
    · exact (ih (fun l' e' p a hpre => hjudge l' e' p a (hpre.trans (List.prefix_append _ _))) b hold).mono hstep.lock_le
    · obtain ⟨p,a,rfl,ha,hrow,hrow',hv,hn⟩ := hstep.voted hb hold
      exact (hjudge l e p a List.prefix_rfl ha hrow hrow' hv hn).mono hrow'.lock_le

end Run

end Replica

namespace Sample
open Replica

private def second : Block := next [2,3,4] (first 1) 2

private def third : Block := next [2,3,4] second 3

private def chain : List Block := [genesis,first 1,second,third]

private def thirdProposed (known : List Block) : List (Env × Event) := [(env 1 known,.propose ⟨4,third,none⟩)]

private theorem fetch_known (known : List Block) (k : Nat) (h : Hash) :
    fetch setup (env 1 known) k h = known.find? (fun b => b.hash setup = h) := by
  rw [fetch]
  split
  · rename_i he
    exact he.symm
  · rename_i he
    exact he.symm

theorem votes_lock_third :
    Locked setup {b | b ∈ chain} third (run setup .chained (init setup 1) (thirdProposed chain)) := by
  have hnodup : (chain.map (Block.hash setup)).Nodup := by decide +kernel
  have hB : (run setup .chained (init setup 1) (thirdProposed chain)).blocks.all (fun e => e.2 ∈ chain) = true := by
    decide +kernel
  have hzero : chain.all (fun b => b.hash setup ≠ 0) = true := by decide +kernel
  have havail : ∀ x ∈ chain, Available setup (env 1 chain) (x.hash setup) x (init setup 1) := by
    intro x hx
    simp only [chain,List.mem_cons,List.not_mem_nil,or_false] at hx
    rcases hx with rfl | rfl | rfl | rfl
    · exact .inl (by decide +kernel)
    · exact .inr ⟨by decide +kernel,fun k => (fetch_known chain k _).trans (by decide +kernel)⟩
    · exact .inr ⟨by decide +kernel,fun k => (fetch_known chain k _).trans (by decide +kernel)⟩
    · exact .inr ⟨by decide +kernel,fun k => (fetch_known chain k _).trans (by decide +kernel)⟩
  refine (votes_lock setup .chained (by simp) (fun _ ha _ hb => List.inj_on_of_nodup_map hnodup ha hb)
    (fun b hb => of_decide_eq_true (List.all_eq_true.mp hzero b hb)) 1 _
    (fun e he => (of_decide_eq_true (List.all_eq_true.mp hB e he) : e.2 ∈ chain)) (by decide +kernel) ?_).1 third
    (by decide +kernel)
  intro l' e b hpre _ _ q hq g hg hqb hgq
  have hsplit : l' = [] ∧ e = (env 1 chain,.propose ⟨4,third,none⟩) := by
    obtain ⟨l₂,he⟩ := hpre
    cases l' with
    | nil => exact ⟨rfl,(List.cons.inj he).1⟩
    | cons x l' => simp [thirdProposed] at he
  obtain ⟨rfl,rfl⟩ := hsplit
  exact ⟨hqb ▸ havail q hq,hgq ▸ havail g hg⟩

/-- Replica 1 can fetch the block of view 2 but not that of view 1. It votes for the block of view 3
and its lock stays on the genesis block. -/
theorem vote_does_not_lock : ∃ (l : List (Env × Event)) (b q g : Block), ∀ R ∈ [RuleSet.chained,.simple],
    .vote b ∈ (run setup R (init setup 1) l).log ∧ (run setup R (init setup 1) l).halted = false ∧
    setup.verifyQuorumCert b.cert = true ∧ setup.verifyQuorumCert q.cert = true ∧
    q.hash setup = b.cert.hash ∧ g.hash setup = q.cert.hash ∧
    (run setup R (init setup 1) l).lock.view < g.view := by
  refine ⟨thirdProposed [second],third,second,first 1,fun R hR => ?_⟩
  simp only [List.mem_cons,List.not_mem_nil,or_false] at hR
  rcases hR with rfl | rfl <;> decide +kernel

end Sample
end Hotstuff
