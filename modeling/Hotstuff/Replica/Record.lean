import Hotstuff.Replica.Handled

/-! What the log of any replica shows, whatever it receives: votes in growing views, above
every signed timeout, and only on proposals whose certificates were checked. -/
namespace Hotstuff
open Library

/-- What an entry of the log says about the entries before it. -/
def Effect.Follows (S : Setup) (R : RuleSet) : Effect → List Effect → Prop
  | .vote b, o => 0 < b.view ∧ (∀ b', .vote b' ∈ o → b'.view < b.view) ∧
      (∀ m, .signTimeout m ∈ o → m.view < b.view) ∧ ∃ p, p.block = b ∧ .handle p ∈ o
  | .decide b _, o => ∃ p, p.block = b ∧ .handle p ∈ o
  | .handle p, _ => ∃ env k, Replica.checkCerts S R env p k = some true
  | _, _ => True

def Effect.plain : Effect → Bool
  | .vote _ | .signTimeout _ | .handle _ | .decide _ _ => false
  | _ => true

theorem Effect.plain_of_neutral {e : Effect} (h : e.neutral = true) : e.plain = true := by
  cases e <;> first | rfl | cases h

theorem Effect.follows_of_plain {S : Setup} {R : RuleSet} {e : Effect} (h : e.plain = true) (o : List Effect) :
    e.Follows S R o := by
  cases e <;> trivial

namespace Replica
variable {S : Setup} {R : RuleSet} {env : Env} {P : QuorumCert → Prop}

structure Recorded (S : Setup) (R : RuleSet) (s : Replica) : Prop where
  vote_le : ∀ b, .vote b ∈ s.log → b.view ≤ s.lastVote
  timeout_le : ∀ m, .signTimeout m ∈ s.log → m.view ≤ s.lastVote
  stored : ∀ b, .vote b ∈ s.log → (b.hash S,b) ∈ s.blocks
  history : History (Effect.Follows S R) s.log

private theorem Recorded.keep {s t : Replica} {l : List Effect} (h : Recorded S R s)
    (hl : t.log = l ++ s.log) (hplain : ∀ e ∈ l, e.plain = true) (hv : s.lastVote ≤ t.lastVote)
    (hb : s.blocks <:+ t.blocks) : Recorded S R t := by
  have old {e : Effect} (he : e ∈ t.log) (hp : e.plain = false) : e ∈ s.log := by
    rw [hl,List.mem_append] at he
    exact he.resolve_left fun hm => by simp [hplain e hm] at hp
  refine ⟨fun b hm => UInt64.le_trans (h.vote_le b (old hm rfl)) hv,
    fun m hm => UInt64.le_trans (h.timeout_le m (old hm rfl)) hv,
    fun b hm => hb.mem (h.stored b (old hm rfl)),?_⟩
  rw [hl]
  exact h.history.append fun e he o => Effect.follows_of_plain (hplain e he) o

private theorem Recorded.vote {s : Replica} {p : ProposeMsg} (h : Recorded S R s) (hp : .handle p ∈ s.log)
    (hv : s.lastVote < p.block.view) :
    Recorded S R { store S p.block s with lastVote := p.block.view, log := .vote p.block :: s.log } := by
  have hle (v : View) (hle : v ≤ s.lastVote) : v < p.block.view := UInt64.lt_of_le_of_lt hle hv
  refine ⟨fun b hm => ?_,fun m hm => ?_,fun b hm => ?_,⟨hle 0 UInt64.zero_le,?_,?_,p,rfl,hp⟩,h.history⟩
  · rcases List.mem_cons.mp hm with he | hm
    · cases he
      exact UInt64.le_refl _
    · exact UInt64.le_of_lt (hle _ (h.vote_le b hm))
  · exact UInt64.le_of_lt (hle _ (h.timeout_le m (by simpa using hm)))
  · rcases List.mem_cons.mp hm with he | hm
    · cases he
      exact List.mem_cons_self
    · exact List.mem_cons_of_mem _ (h.stored b hm)
  · exact fun b hb => hle _ (h.vote_le b hb)
  · exact fun m hm => hle _ (h.timeout_le m hm)

/-- Entries that are only constrained by what they follow, with no vote and no timeout among them. -/
private theorem Recorded.emit {s : Replica} {e : Effect} (h : Recorded S R s) (hf : e.Follows S R s.log)
    (hv : ∀ b, e ≠ .vote b) (ht : ∀ m, e ≠ .signTimeout m) : Recorded S R (s.emit e) := by
  refine ⟨fun b hm => ?_,fun m hm => ?_,fun b hm => ?_,hf,h.history⟩
  · exact h.vote_le b ((List.mem_cons.mp hm).resolve_left fun he => hv b he.symm)
  · exact h.timeout_le m ((List.mem_cons.mp hm).resolve_left fun he => ht m he.symm)
  · exact h.stored b ((List.mem_cons.mp hm).resolve_left fun he => hv b he.symm)

/-- `StopVoting` raises the last vote to the current view. -/
theorem le_stopped (lastVote view : View) : lastVote ≤ (if lastVote < view then view else lastVote) ∧
    view ≤ (if lastVote < view then view else lastVote) := by
  split_ifs with hv
  · exact ⟨UInt64.le_of_lt hv,UInt64.le_refl _⟩
  · exact ⟨UInt64.le_refl _,UInt64.not_lt.mp hv⟩

private theorem Recorded.stopVoting {s : Replica} {l : List Effect} (h : Recorded S R s)
    (hl : ∀ e ∈ l, ∃ m, e = .signTimeout m ∧ m.view = s.currentView) :
    Recorded S R { s with
      lastVote := if s.lastVote < s.currentView then s.currentView else s.lastVote, log := l ++ s.log } := by
  have hle := le_stopped s.lastVote s.currentView
  have old {b : Block} (hm : .vote b ∈ l ++ s.log) : .vote b ∈ s.log :=
    (List.mem_append.mp hm).resolve_left fun hb => by simpa using hl _ hb
  refine ⟨fun b hm => UInt64.le_trans (h.vote_le b (old hm)) hle.1,fun m hm => ?_,
    fun b hm => h.stored b (old hm),h.history.append fun e he o => ?_⟩
  · rcases List.mem_append.mp hm with hm | hm
    · obtain ⟨m',he,hv⟩ := hl _ hm
      cases he
      exact hv ▸ hle.2
    · exact UInt64.le_trans (h.timeout_le m hm) hle.1
  · obtain ⟨m,rfl,-⟩ := hl e he
    trivial

theorem Micro.recorded {a b : Phase} (hm : Micro S R env P a b) (h : Recorded S R a.1) :
    Recorded S R b.1 := by
  have hb := hm.grows.2.1
  cases hm with
  | look hf => exact h.keep (l := []) hf.log_eq (by simp) (UInt64.le_of_eq hf.lastVote_eq.symm) hb
  | note l hl => exact h.keep rfl (fun e he => Effect.plain_of_neutral (hl e he)) (UInt64.le_refl _) hb
  | check p k hc hP => exact h.emit ⟨env,k,hc⟩ (by simp) (by simp)
  | vote p hs hp hv hmay => exact h.vote hp hv
  | decide p hp hd => exact h.emit ⟨p,rfl,hp⟩ (by simp) (by simp)
  | commit hd hw => exact h.keep rfl (by simp [Effect.plain]) (UInt64.le_refl _) hb
  | enter v t hlt hv => exact h.keep (l := [_]) rfl (by simp [Effect.plain]) (UInt64.le_refl _) hb
  | stopVoting l hs hl =>
    exact h.stopVoting fun e he => (hl e he).imp fun m hm => ⟨hm.1,hm.2.2.1⟩
  | _ => exact h.keep (l := []) rfl (by simp) (UInt64.le_refl _) hb

theorem recorded_init (id : ID) : Recorded S R (init S id) :=
  ⟨by simp [init],by simp [init],by simp [init],trivial⟩

theorem Steps.recorded {a b : Phase} (hm : Steps S R env P a b) (h : Recorded S R a.1) : Recorded S R b.1 := by
  induction hm with
  | refl => exact h
  | tail _ hm ih => exact hm.recorded ih

theorem Recorded.handle {s : Replica} (h : Recorded S R s) (ev : Event) :
    Recorded S R (handle S R env ev s) := (handle_micro ev s).recorded h

/-- What holds of every block under its own hash, and of whatever is fetched, holds of all that is stored. -/
theorem Micro.stores {Q : Hash → Block → Prop} (hown : ∀ b : Block, Q (b.hash S) b)
    (hfetch : ∀ k h b, fetch S env k h = some b → Q h b) {a b : Phase} (hm : Micro S R env P a b)
    (h : ∀ e ∈ a.1.blocks, Q e.1 e.2) : ∀ e ∈ b.1.blocks, Q e.1 e.2 := by
  cases hm with
  | look hf =>
    obtain ⟨n,bs,bh,rfl,hb,-⟩ := hf
    intro e he
    rcases List.mem_append.mp he with he | he
    · obtain ⟨k,hk⟩ := hb e he
      exact hfetch k _ _ hk
    · exact h e he
  | store b => exact List.forall_mem_cons.mpr ⟨hown b,h⟩
  | vote p => exact List.forall_mem_cons.mpr ⟨hown p.block,h⟩
  | _ => exact h

theorem Steps.stores {Q : Hash → Block → Prop} (hown : ∀ b : Block, Q (b.hash S) b)
    (hfetch : ∀ k h b, fetch S env k h = some b → Q h b) {a b : Phase} (hm : Steps S R env P a b)
    (h : ∀ e ∈ a.1.blocks, Q e.1 e.2) : ∀ e ∈ b.1.blocks, Q e.1 e.2 := by
  induction hm with
  | refl => exact h
  | tail _ hm ih => exact hm.stores hown hfetch ih

def Keyed (S : Setup) (s : Replica) : Prop := ∀ e ∈ s.blocks, e.2.hash S = e.1

theorem Keyed.hash_eq {s : Replica} (h : Keyed S s) {k : Hash} {b : Block} (hb : s.localGet k = some b) :
    b.hash S = k := h _ (localGet_mem hb)

theorem Steps.keyed (hc : ∀ k, env.canceled k = false) {a b : Phase} (hm : Steps S R env P a b)
    (h : Keyed S a.1) : Keyed S b.1 :=
  hm.stores (Q := fun k b => b.hash S = k) (fun _ => rfl) (fun k _ _ => hash_of_fetch (hc k)) h

theorem keyed_init (id : ID) : Keyed S (init S id) := by
  intro e he
  rw [List.mem_singleton.mp he]
  rfl

/-- Every block is stored under its own hash, but for genesis after a fetch that was cut short. -/
def Filed (S : Setup) (s : Replica) : Prop := ∀ e ∈ s.blocks, e.2.hash S = e.1 ∨ e.2 = genesis

theorem Steps.filed {a b : Phase} (hm : Steps S R env P a b) (h : Filed S a.1) : Filed S b.1 :=
  hm.stores (Q := fun k b => b.hash S = k ∨ b = genesis) (fun _ => .inl rfl)
    (fun _ _ _ => hash_or_genesis_of_fetch) h

theorem filed_init (id : ID) : Filed S (init S id) := fun e he => .inl (keyed_init id e he)

namespace Recorded
variable {s : Replica} (h : Recorded S R s)
include h

theorem vote_follows {b : Block} {o : List Effect} (hb : .vote b :: o <:+ s.log) :
    0 < b.view ∧ (∀ b', .vote b' ∈ o → b'.view < b.view) ∧ (∀ m, .signTimeout m ∈ o → m.view < b.view) ∧
      ∃ p, p.block = b ∧ .handle p ∈ o := h.history.of_suffix hb

theorem view_pos {b : Block} (hb : .vote b ∈ s.log) : 0 < b.view := by
  obtain ⟨o,ho⟩ := exists_suffix_of_mem hb
  exact (h.vote_follows ho).1

/-- A vote that is not in a higher view than another is the same or comes before it. -/
theorem vote_before {a b : Block} {o : List Effect} (ha : .vote a ∈ s.log) (hb : .vote b :: o <:+ s.log)
    (hv : a.view ≤ b.view) : a = b ∨ .vote a ∈ o := by
  obtain ⟨o',ho'⟩ := exists_suffix_of_mem ha
  rcases suffix_trichotomy ho' hb with ⟨he,-⟩ | h' | h'
  · cases he
    exact .inl rfl
  · have hlt := (h.vote_follows ho').2.1 b (h'.mem List.mem_cons_self)
    exact absurd hv (UInt64.not_le.mpr hlt)
  · exact .inr (h'.mem List.mem_cons_self)

/-- At most one vote a view. -/
theorem vote_unique {a b : Block} (ha : .vote a ∈ s.log) (hb : .vote b ∈ s.log) (hv : a.view = b.view) :
    a = b := by
  obtain ⟨o,ho⟩ := exists_suffix_of_mem hb
  refine (h.vote_before ha ho (UInt64.le_of_eq hv)).resolve_right fun hm => ?_
  have hlt := (h.vote_follows ho).2.1 a hm
  simp [hv] at hlt

/-- A vote that is not in a higher view than a signed timeout comes before it. -/
theorem vote_before_timeout {b : Block} {m : TimeoutMsg} {o : List Effect} (hb : .vote b ∈ s.log)
    (hm : .signTimeout m :: o <:+ s.log) (hv : b.view ≤ m.view) : .vote b ∈ o := by
  obtain ⟨o',ho'⟩ := exists_suffix_of_mem hb
  rcases suffix_trichotomy ho' hm with ⟨he,-⟩ | h' | h'
  · cases he
  · have hlt := (h.vote_follows ho').2.2.1 m (h'.mem List.mem_cons_self)
    exact absurd hv (UInt64.not_le.mpr hlt)
  · exact h'.mem List.mem_cons_self

theorem handled {b : Block} (hb : .vote b ∈ s.log) : ∃ p, p.block = b ∧ .handle p ∈ s.log := by
  obtain ⟨o,ho⟩ := exists_suffix_of_mem hb
  obtain ⟨-,-,-,p,hp,hm⟩ := h.vote_follows ho
  exact ⟨p,hp,ho.mem (List.mem_cons_of_mem _ hm)⟩

theorem decided {b c : Block} (hd : .decide b c ∈ s.log) : ∃ p, p.block = b ∧ .handle p ∈ s.log := by
  obtain ⟨o,ho⟩ := exists_suffix_of_mem hd
  obtain ⟨p,hp,hm⟩ := h.history.of_suffix ho
  exact ⟨p,hp,ho.mem (List.mem_cons_of_mem _ hm)⟩

theorem checked {p : ProposeMsg} (hp : .handle p ∈ s.log) : ∃ env k, checkCerts S R env p k = some true := by
  obtain ⟨o,ho⟩ := exists_suffix_of_mem hp
  exact h.history.of_suffix ho

end Recorded
end Replica
end Hotstuff
