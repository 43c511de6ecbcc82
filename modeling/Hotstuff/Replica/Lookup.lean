import Hotstuff.Replica.BlockChain
import Hotstuff.Library.History

/-! What lookups do to a replica: they fetch into the store and leave the rest alone. -/
namespace Hotstuff
open Library
namespace Replica
variable (S : Setup) (env : Env)

/-- Only lookups happened: the store grew by fetched blocks and kept what it had. -/
def Fetched (s s' : Replica) : Prop :=
  ∃ n bs bh, s' = { s with now := n, blocks := bs ++ s.blocks, blockAtHeight := bh } ∧
    (∀ e ∈ bs, ∃ k, fetch S env k e.1 = some e.2) ∧
    (∀ h b, s.localGet h = some b → s'.localGet h = some b)

def Missing (h : Hash) : Prop := h = 0 ∨ ∃ k, fetch S env k h = none

inductive Path (s : Replica) (target : Block) : Block → Prop
  | here {b : Block} : ¬ target.view < b.view → b.hash S = target.hash S → Path s target b
  | up {b parent : Block} : target.view < b.view → s.localGet b.parent = some parent →
      Path s target parent → Path s target b

/-- The answer of a rule: yes with its reasons in the store, or no, possibly for lack of fuel. -/
def Verdict (s : Replica) (yes : Replica → Prop) (r : Bool × Replica) : Prop :=
  (r.1 = true ∧ Fetched S env s r.2 ∧ yes r.2) ∨
    (r.1 = false ∧ ∃ t, Fetched S env s t ∧ (r.2 = t ∨ r.2 = t.halt))

variable {S env}

theorem Fetched.refl (s : Replica) : Fetched S env s s :=
  ⟨s.now,[],s.blockAtHeight,by simp,by simp,fun _ _ h => h⟩

theorem Fetched.tick (s : Replica) : Fetched S env s s.tick :=
  ⟨s.now+1,[],s.blockAtHeight,by simp [Replica.tick],by simp,fun _ _ h => h⟩

theorem Fetched.trans {s t u : Replica} (h : Fetched S env s t) (h' : Fetched S env t u) :
    Fetched S env s u := by
  obtain ⟨n,bs,bh,rfl,hb,hg⟩ := h
  obtain ⟨n',bs',bh',rfl,hb',hg'⟩ := h'
  refine ⟨n',bs' ++ bs,bh',by simp,?_,fun h b hb => hg' h b (hg h b hb)⟩
  intro e he
  exact (List.mem_append.mp he).elim (hb' e) (hb e)

theorem Fetched.localGet {s t : Replica} (h : Fetched S env s t) {k : Hash} {b : Block}
    (hb : s.localGet k = some b) : t.localGet k = some b := h.elim fun _ h => h.elim fun _ h => h.elim
  fun _ h => h.2.2 k b hb

/-- A lookup leaves alone what does not depend on the clock and the store. -/
theorem Fetched.field {α : Type*} {s t : Replica} (h : Fetched S env s t) (f : Replica → α)
    (hf : ∀ n bs bh, f { s with now := n, blocks := bs, blockAtHeight := bh } = f s) : f t = f s := by
  obtain ⟨n,bs,bh,rfl,-⟩ := h
  exact hf n _ bh

section Frame
variable {s t : Replica} (h : Fetched S env s t)
include h

theorem Fetched.log_eq : t.log = s.log := h.field log fun _ _ _ => rfl

theorem Fetched.halted_eq : t.halted = s.halted := h.field halted fun _ _ _ => rfl

theorem Fetched.lock_eq : t.lock = s.lock := h.field lock fun _ _ _ => rfl

theorem Fetched.highQC_eq : t.highQC = s.highQC := h.field highQC fun _ _ _ => rfl

theorem Fetched.leafBlock_eq : t.leafBlock = s.leafBlock := h.field leafBlock fun _ _ _ => rfl

theorem Fetched.bExec_eq : t.bExec = s.bExec := h.field bExec fun _ _ _ => rfl

theorem Fetched.lastVote_eq : t.lastVote = s.lastVote := h.field lastVote fun _ _ _ => rfl

theorem Fetched.currentView_eq : t.currentView = s.currentView := h.field currentView fun _ _ _ => rfl

end Frame

theorem Path.mono {s t : Replica} {target b : Block}
    (h : ∀ k b, s.localGet k = some b → t.localGet k = some b) (hp : Path S s target b) :
    Path S t target b := by
  induction hp with
  | here hv he => exact .here hv he
  | up hv hg _ ih => exact .up hv (h _ _ hg) ih

theorem localGet_mem {h : Hash} {b : Block} {s : Replica} (hb : s.localGet h = some b) : (h,b) ∈ s.blocks :=
  mem_of_lookup hb

/-- A fetch that is not cut short returns a block with the requested hash. -/
theorem hash_of_fetch {k : Nat} {h : Hash} {b : Block} (hc : env.canceled k = false)
    (hf : fetch S env k h = some b) : b.hash S = h := by
  rw [fetch] at hf
  split at hf
  · rename_i c hfind
    cases hf
    simpa using List.find?_some hfind
  · simp [hc] at hf

theorem hash_or_genesis_of_fetch {k : Nat} {h : Hash} {b : Block} (hf : fetch S env k h = some b) :
    b.hash S = h ∨ b = genesis := by
  by_cases hc : env.canceled k = false
  · exact .inl (hash_of_fetch hc hf)
  · rw [fetch] at hf
    split at hf
    · rename_i c hfind
      cases hf
      exact .inl (by simpa using List.find?_some hfind)
    · split_ifs at hf
      exact .inr (Option.some.inj hf).symm

/-- What has been assigned stays, though perhaps not with the same block. -/
theorem localGet_of_suffix {s t : Replica} (h : s.blocks <:+ t.blocks) {k : Hash} {b : Block}
    (hb : s.localGet k = some b) : ∃ b', t.localGet k = some b' := by
  obtain ⟨l,hl⟩ := h
  rw [localGet,← hl,List.lookup_append]
  cases l.lookup k with
  | none => exact ⟨b,hb⟩
  | some b' => exact ⟨b',rfl⟩

theorem localGet_insertBlock (k h : Hash) (b : Block) (s : Replica) :
    (s.insertBlock h b).localGet k = if k = h then some b else s.localGet k :=
  lookup_cons_ite k h b s.blocks

/-- A lookup changes nothing but the store, and afterwards the store knows the answer;
without an answer a fetch has failed. -/
theorem get_spec (h : Hash) (s : Replica) :
    Fetched S env s (get S env h s).2 ∧ (get S env h s).2.localGet h = (get S env h s).1 ∧
      ((get S env h s).1 = none → Missing S env h) := by
  unfold get
  split
  · rename_i b hb
    exact ⟨.refl s,hb,by simp⟩
  · rename_i hn
    split
    · rename_i b hb
      refine ⟨⟨s.now+1,[(h,b)],_,rfl,by simpa using ⟨_,hb⟩,?_⟩,?_,by simp⟩
      · intro k c hc
        have hk : k ≠ h := by rintro rfl; simp [hn] at hc
        rw [localGet_insertBlock,if_neg hk]
        exact hc
      · rw [localGet_insertBlock,if_pos rfl]
    · rename_i hf
      exact ⟨.tick s,hn,fun _ => .inr ⟨_,hf⟩⟩

theorem get_eq {h : Hash} {s s' : Replica} {o : Option Block} (he : get S env h s = (o,s')) :
    Fetched S env s s' ∧ s'.localGet h = o ∧ (o = none → Missing S env h) := by
  have hg : Fetched S env s (get S env h s).2 ∧ _ := get_spec h s
  rwa [he] at hg

theorem Verdict.no {s t : Replica} {yes : Replica → Prop} (h : Fetched S env s t) :
    Verdict S env s yes (false,t) := .inr ⟨rfl,t,h,.inl rfl⟩

theorem Verdict.after {s t : Replica} {yes yes' : Replica → Prop} {r : Bool × Replica}
    (h : Fetched S env s t) (hy : Fetched S env t r.2 → yes r.2 → yes' r.2)
    (hv : Verdict S env t yes r) : Verdict S env s yes' r := by
  rcases hv with ⟨hr,hf,hyes⟩ | ⟨hr,u,hf,hu⟩
  · exact .inl ⟨hr,h.trans hf,hy hf hyes⟩
  · exact .inr ⟨hr,u,h.trans hf,hu⟩

/-- A branch test that succeeds leaves the walk it made in the store. -/
theorem extendsBranch_spec (k : Nat) (current target : Block) (s : Replica) :
    Verdict S env s (fun s' => Path S s' target current) (extendsBranch S env k current target s) := by
  induction k generalizing current s with
  | zero => exact .inr ⟨rfl,s,.refl s,.inr rfl⟩
  | succ k ih =>
    rw [extendsBranch]
    split_ifs with hv
    · rcases hg : get S env current.parent s with ⟨_ | b,t⟩
      · exact .no (get_eq hg).1
      · obtain ⟨hf,hl,-⟩ := get_eq hg
        exact (ih b t).after hf (fun hf' hp => .up hv (hf'.localGet hl) hp)
    · by_cases hh : current.hash S = target.hash S
      · exact .inl ⟨by simpa using hh,.refl s,.here hv hh⟩
      · exact .inr ⟨by simpa using hh,s,.refl s,.inl rfl⟩

end Replica
end Hotstuff
