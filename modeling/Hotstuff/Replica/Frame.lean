import Hotstuff.Replica.Pieces

/-! What proposals and view changes leave alone: collected timeouts and votes are not touched, and
only votes above `lastVote` are signed. -/
namespace Hotstuff

def Effect.executing : Effect → Bool
  | .exec _ | .fork _ => true
  | _ => false

def Effect.judging : Effect → Bool
  | .handle _ | .proposed _ | .vote _ | .sendVote _ _ | .decide _ _ | .exec _ | .fork _ => true
  | _ => false

def Effect.advancing : Effect → Bool
  | .viewSucceeded | .viewChange _ _ _ | .sendNewView _ _ => true
  | _ => false

def Effect.proposing : Effect → Bool
  | .proposed _ | .sendPropose _ => true
  | e => e.advancing

def Effect.inner : Effect → Bool
  | .signView _ | .signTimeout _ | .sendTimeout _ | .delayVote _ | .newViewEvent _ | .viewTimeout => false
  | _ => true

def Effect.counting : Effect → Bool
  | .delayVote _ | .newViewEvent _ => true
  | _ => false

namespace Replica
variable {S : Setup} {R : RuleSet} {env : Env}

/-- The fields that nothing but votes, view changes and the collection of messages touches. -/
def outline (s : Replica) :=
  (s.id,s.timeouts,s.verifiedVotes,s.pending,s.lastTimeout,s.lastVote,s.currentView,s.log)

/-- What holds between two states when the effects in between are of a certain kind. -/
structure Inner (ok : Effect → Bool) (s t : Replica) : Prop where
  id : t.id = s.id
  timeouts : t.timeouts = s.timeouts
  verifiedVotes : t.verifiedVotes = s.verifiedVotes
  pending : t.pending = s.pending
  lastTimeout : t.lastTimeout = s.lastTimeout ∨ t.lastTimeout = none
  lastVote : s.lastVote ≤ t.lastVote
  log : ∃ l, t.log = l ++ s.log ∧ ∀ e ∈ l, ok e = true ∧ ∀ b, e = .vote b → s.lastVote < b.view
  view : t.Bounded → s.currentView ≤ t.currentView

abbrev Inside := Inner Effect.inner

variable {ok : Effect → Bool}

theorem Inner.of_outline {s t : Replica} (h : t.outline = s.outline) : Inner ok s t := by
  simp only [outline,Prod.mk.injEq] at h
  obtain ⟨hi,ht,hv,hp,hl,hlast,hview,hlog⟩ := h
  exact ⟨hi,ht,hv,hp,.inl hl,UInt64.le_of_eq hlast.symm,⟨[],hlog,by simp⟩,fun _ => UInt64.le_of_eq hview.symm⟩

theorem Inner.refl (s : Replica) : Inner ok s s := .of_outline rfl

theorem Inner.tick (s : Replica) : Inner ok s s.tick := .of_outline rfl

theorem Inner.store (b : Block) (s : Replica) : Inner ok s (store S b s) := .of_outline rfl

theorem Inner.trans {s t u : Replica} (h : Inner ok s t) (h' : Inner ok t u) : Inner ok s u := by
  obtain ⟨l,hl,hin⟩ := h.log
  obtain ⟨l',hl',hin'⟩ := h'.log
  refine ⟨h'.id.trans h.id,h'.timeouts.trans h.timeouts,h'.verifiedVotes.trans h.verifiedVotes,
    h'.pending.trans h.pending,?_,UInt64.le_trans h.lastVote h'.lastVote,⟨l' ++ l,by rw [hl',hl,List.append_assoc],?_⟩,?_⟩
  · rcases h'.lastTimeout with he | he
    · rw [he]
      exact h.lastTimeout
    · exact .inr he
  · intro e he
    rcases List.mem_append.mp he with he | he
    · exact ⟨(hin' e he).1,fun b hb => UInt64.lt_of_le_of_lt h.lastVote ((hin' e he).2 b hb)⟩
    · exact hin e he
  · intro hb
    refine UInt64.le_trans (h.view fun before v t hv => hb before v t ?_) (h'.view hb)
    rw [hl']
    exact List.mem_append_right _ hv

theorem Inner.mono {ok' : Effect → Bool} {s t : Replica} (h : Inner ok s t) (hok : ∀ e, ok e = true → ok' e = true) :
    Inner ok' s t := by
  obtain ⟨l,hl,hin⟩ := h.log
  exact { h with log := ⟨l,hl,fun e he => ⟨hok e (hin e he).1,(hin e he).2⟩⟩ }

/-- Entries of another kind are old. -/
theorem Inner.old {e : Effect} {s t : Replica} (h : Inner ok s t) (hok : ok e = false) (he : e ∈ t.log) :
    e ∈ s.log := by
  obtain ⟨l,hl,hin⟩ := h.log
  rw [hl] at he
  refine (List.mem_append.mp he).resolve_left fun he => ?_
  rw [(hin e he).1] at hok
  cases hok

theorem Inner.emit {e : Effect} (he : ok e = true) (hv : ∀ b, e ≠ .vote b) (s : Replica) : Inner ok s (s.emit e) :=
  ⟨rfl,rfl,rfl,rfl,.inl rfl,UInt64.le_refl _,⟨[e],rfl,fun e' h => by
    cases List.mem_singleton.mp h
    exact ⟨he,fun b hb => absurd hb (hv b)⟩⟩,fun _ => UInt64.le_refl _⟩

section Silent

theorem Fetched.outline_eq {s t : Replica} (h : Fetched S env s t) : t.outline = s.outline :=
  h.field outline fun _ _ _ => rfl

theorem Fetched.inside {s t : Replica} (h : Fetched S env s t) : Inner ok s t := .of_outline h.outline_eq

theorem get_outline (h : Hash) (s : Replica) : (get S env h s).2.outline = s.outline := (get_spec h s).1.outline_eq

theorem updateHighQC_outline (qc : QuorumCert) (s : Replica) : (updateHighQC S env qc s).outline = s.outline := by
  obtain ⟨t,hf,⟨he,-⟩ | he | ⟨a,q,-,-,-,-,he⟩⟩ := updateHighQC_spec S env qc s <;>
    exact he ▸ hf.outline_eq

theorem looks_outline : Looks S env (fun s t => t.outline = s.outline) where
  refl _ := rfl
  trans h h' := h'.trans h
  halt _ := rfl
  get := get_outline
  lock _ _ := rfl
  updateHighQC := updateHighQC_outline

theorem commitRule_outline (b : Block) (s : Replica) : (commitRule S env R b s).2.outline = s.outline :=
  looks_outline.commitRule b s

theorem looks_inner : Looks S env (Inner ok) where
  refl := .refl
  trans := .trans
  halt _ := .of_outline rfl
  get h s := .of_outline (get_outline h s)
  lock _ _ := .of_outline rfl
  updateHighQC qc s := .of_outline (updateHighQC_outline qc s)

end Silent

theorem Inner.andThen {s t : Replica} {f : Replica → Replica} (h : Inner ok s t) (hf : Inner ok t (f t)) :
    Inner ok s (t.andThen f) :=
  andThen_rec h fun _ => h.trans hf

section Commit
variable (hok : ∀ e, e.executing = true → ok e = true)
include hok

private theorem pruneToHeight_inner (v : View) (s : Replica) : Inner ok s (pruneToHeight env v s) := by
  rw [pruneToHeight]
  split
  · exact .of_outline rfl
  · refine ⟨rfl,rfl,rfl,rfl,.inl rfl,UInt64.le_refl _,⟨_,rfl,fun e he => ?_⟩,fun _ => UInt64.le_refl _⟩
    obtain ⟨f,-,rfl⟩ := List.mem_map.mp (List.mem_reverse.mp he)
    exact ⟨hok _ rfl,fun b hb => by cases hb⟩

private theorem commitInner_inner (k : Nat) (b : Block) (s : Replica) : Inner ok s (commitInner S env k b s) := by
  induction k generalizing b s with
  | zero => exact .of_outline rfl
  | succ k ih =>
    have exec (t : Replica) : Inner ok t (execBlock b t) :=
      (Inner.emit (e := .exec b) (hok _ rfl) (by simp) t).trans (.of_outline rfl)
    rw [commitInner]
    split_ifs
    · rcases hg : get S env b.parent s with ⟨_ | parent,t⟩
      · exact (get_eq hg).1.inside.trans (exec t)
      · exact (get_eq hg).1.inside.trans ((ih parent t).andThen (exec _))
    · exact .refl s

theorem commit_inner (b : Block) (s : Replica) : Inner ok s (commit S env b s) :=
  (commitInner_inner hok env.fuel b s).andThen (pruneToHeight_inner hok b.view _)

end Commit

private theorem voted_inner (hok : ∀ b, ok (.vote b) = true) {b : Block} {s : Replica} (hv : s.lastVote < b.view) :
    Inner ok s { s.tick with lastVote := b.view, log := .vote b :: s.log } := by
  refine ⟨rfl,rfl,rfl,rfl,.inl rfl,UInt64.le_of_lt hv,⟨[.vote b],rfl,fun e he => ?_⟩,fun _ => UInt64.le_refl _⟩
  cases List.mem_singleton.mp he
  exact ⟨hok b,fun _ hb => by cases hb; exact hv⟩

theorem judges_inner (hok : ∀ e, e.judging = true → ok e = true) : Judges S env (Inner ok) where
  toLooks := looks_inner
  tick := .tick
  store := .store
  handled _ := .emit (hok _ rfl) (by simp)
  proposed _ := .emit (hok _ rfl) (by simp)
  voted _ _ := voted_inner fun _ => hok _ rfl
  sentVote _ _ := .emit (hok _ rfl) (by simp)
  committed _ c s := (Inner.emit (hok _ rfl) (by simp) s).trans
    (commit_inner (fun e he => hok e (by cases e <;> first | rfl | cases he)) c _)

theorem judge_inner (p : ProposeMsg) (s : Replica) : Inner Effect.judging s (judge S R env p s) :=
  (judges_inner fun _ he => he).judge p s

theorem Readied.field {α : Type*} {si : SyncInfo} {s u : Replica} (h : Readied S env si s u) (f : Replica → α)
    (hf : ∀ t n bs bh l, f { t with now := n, blocks := bs, blockAtHeight := bh, log := l } = f t) : f u = f s := by
  unfold Readied at h
  split at h
  · rw [h]
  · obtain ⟨b,t,hg,rfl⟩ := h
    exact (hf t t.now t.blocks t.blockAtHeight _).trans ((get_eq hg).1.field f fun n bs bh => hf s n bs bh s.log)

theorem Readied.halted_eq {si : SyncInfo} {s u : Replica} (h : Readied S env si s u) : u.halted = s.halted :=
  h.field halted fun _ _ _ _ _ => rfl

theorem Readied.highQC_eq {si : SyncInfo} {s u : Replica} (h : Readied S env si s u) : u.highQC = s.highQC :=
  h.field highQC fun _ _ _ _ _ => rfl

theorem Readied.leafBlock_eq {si : SyncInfo} {s u : Replica} (h : Readied S env si s u) : u.leafBlock = s.leafBlock :=
  h.field leafBlock fun _ _ _ _ _ => rfl

theorem sends_inner (hok : ∀ e, e.proposing = true → ok e = true) : Sends S env (Inner ok) where
  toLooks := looks_inner
  tick := .tick
  store := .store
  proposed _ := .emit (hok _ rfl) (by simp)
  sentPropose _ := .emit (hok _ rfl) (by simp)

theorem broadcast_inner (si : SyncInfo) (s : Replica) : Inner Effect.proposing s (broadcast S R env si s) :=
  (sends_inner fun _ he => he).broadcast si s

private theorem entered_inner (hok : ∀ before v t, ok (.viewChange before v t) = true) {v : View} {s : Replica}
    (timeout : Bool) (hv : ¬ v < s.currentView) : Inner ok s (s.entered v timeout) := by
  refine ⟨rfl,rfl,rfl,rfl,.inr rfl,UInt64.le_refl _,⟨[_],rfl,fun e he => ?_⟩,fun hb => ?_⟩
  · cases List.mem_singleton.mp he
    exact ⟨hok _ _ _,fun b hb => by cases hb⟩
  · exact UInt64.le_of_lt ((lt_succ_iff (UInt64.not_lt.mp hv)).mpr (hb _ v timeout List.mem_cons_self))

theorem moves_inner (hok : ∀ e, e.advancing = true → ok e = true) : Moves S env (Inner ok) where
  toLooks := looks_inner
  highTC _ _ := .of_outline rfl
  succeeded := .emit (hok _ rfl) (by simp)
  entered _ timeout _ hv := entered_inner (fun _ _ _ => hok _ rfl) timeout hv
  sentNewView _ _ := .emit (hok _ rfl) (by simp)

theorem advanceViewWith_inner {propose : SyncInfo → Replica → Replica} (hok : ∀ e, e.advancing = true → ok e = true)
    (hp : ∀ si s, Inner ok s (propose si s)) (si : SyncInfo) (s : Replica) :
    Inner ok s (advanceViewWith S env propose si s) := (moves_inner hok).advanceViewWith hp si s

theorem advance_inner (si : SyncInfo) (s : Replica) : Inner Effect.proposing s (advance S R env si s) :=
  advanceViewWith_inner (fun e he => by cases e <;> first | rfl | cases he) broadcast_inner si s

theorem closed_inside : Closed S R env Inside :=
  closed_of (judges_inner fun e he => by cases e <;> first | rfl | cases he)
    (sends_inner fun e he => by cases e <;> first | rfl | cases he)
    (moves_inner fun e he => by cases e <;> first | rfl | cases he)

theorem onPropose_inside (k : Nat) (p : ProposeMsg) (s : Replica) : Inside s (onPropose S R env k p s) :=
  closed_inside.onPropose k p s

theorem propose_inside (k : Nat) (si : SyncInfo) (s : Replica) : Inside s (propose S R env k si s) :=
  closed_inside.propose k si s

theorem advanceView_inside (k : Nat) (si : SyncInfo) (s : Replica) : Inside s (advanceView S R env k si s) :=
  closed_inside.advanceView k si s

theorem start_inside (s : Replica) : Inside s (start S R env s) := by
  rw [start,startWith]
  split_ifs
  · dsimp only [getLeader]
    split_ifs
    · exact (Inner.tick s).trans (propose_inside _ _ _)
    · exact .tick s
  · exact .refl s

structure Beside (s t : Replica) : Prop where
  timeouts : t.timeouts = s.timeouts
  lastTimeout : t.lastTimeout = s.lastTimeout
  lastVote : t.lastVote = s.lastVote
  currentView : t.currentView = s.currentView
  leafBlock : t.leafBlock = s.leafBlock
  log : ∃ l, t.log = l ++ s.log ∧ ∀ e ∈ l, e.counting = true

theorem Fetched.beside {s t : Replica} (h : Fetched S env s t) : Beside s t := by
  obtain ⟨n,bs,bh,rfl,-⟩ := h
  exact ⟨rfl,rfl,rfl,rfl,rfl,[],rfl,by simp⟩

private theorem spawnVerify_beside {s t : Replica} (h : Beside s t) (cert : PartialCert) (b : Block) :
    Beside s (t.spawnVerify cert b) := by
  rw [spawnVerify]
  split_ifs
  · exact h
  · exact ⟨h.timeouts,h.lastTimeout,h.lastVote,h.currentView,h.leafBlock,h.log⟩

theorem onVote_beside (m : VoteMsg) (s : Replica) : Beside s (onVote S env m s) := by
  rw [onVote]
  split_ifs
  · rcases hg : get S env m.cert.blockHash s with ⟨_ | b,t⟩
    · exact (get_eq hg).1.beside
    · exact spawnVerify_beside (get_eq hg).1.beside m.cert b
  · split
    · exact ⟨rfl,rfl,rfl,rfl,rfl,[.delayVote _],rfl,by simp [Effect.counting]⟩
    · exact spawnVerify_beside ⟨rfl,rfl,rfl,rfl,rfl,[],rfl,by simp⟩ m.cert _

theorem verifyCert_beside (cert : PartialCert) (b : Block) (l : List (PartialCert × Block)) (s : Replica) :
    Beside s (verifyCert S cert b { s with pending := l }) := by
  rw [verifyCert]
  dsimp only
  split_ifs
  · exact ⟨rfl,rfl,rfl,rfl,rfl,[],rfl,by simp⟩
  · exact ⟨rfl,rfl,rfl,rfl,rfl,[],rfl,by simp⟩
  split
  · exact ⟨rfl,rfl,rfl,rfl,rfl,[],rfl,by simp⟩
  · exact ⟨rfl,rfl,rfl,rfl,rfl,[.newViewEvent _],rfl,by simp [Effect.counting]⟩

theorem handle_halted {s : Replica} (h : s.halted = true) (env : Env) (ev : Event) : handle S R env ev s = s := by
  rw [handle.eq_def,if_pos h]

theorem running_of_handle {s : Replica} {ev : Event} (h : (handle S R env ev s).halted = false) : s.halted = false := by
  by_contra hs
  rw [handle_halted (by simpa using hs)] at h
  exact hs h

/-- Only timeouts touch what the synchronizer collects. -/
theorem handle_cases {s : Replica} (hs : s.halted = false) (ev : Event) :
    (∀ m, ev ≠ .timeout m) ∧ (Inside s (handle S R env ev s) ∨ Beside s (handle S R env ev s)) ∨
    (∃ m, ev = .timeout m ∧ handle S R env ev s = onRemoteTimeout S R env m s) ∨
    ev = .localTimeout ∧ handle S R env ev s = onLocalTimeout S R env s := by
  rw [handle.eq_def,if_neg (by simp [hs])]
  cases ev with
  | start => exact .inl ⟨by simp,.inl (start_inside s)⟩
  | propose p => exact .inl ⟨by simp,.inl (onPropose_inside _ p s)⟩
  | newView m => exact .inl ⟨by simp,.inl (advanceView_inside _ _ s)⟩
  | timeout m => exact .inr (.inl ⟨m,rfl,rfl⟩)
  | localTimeout => exact .inr (.inr ⟨rfl,rfl⟩)
  | vote m => exact .inl ⟨by simp,.inr (onVote_beside m s)⟩
  | verifyCert k =>
    refine .inl ⟨by simp,?_⟩
    dsimp only
    split
    · exact .inr (verifyCert_beside _ _ _ s)
    · exact .inl (.refl s)

end Replica
end Hotstuff
