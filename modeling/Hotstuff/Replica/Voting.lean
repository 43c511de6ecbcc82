import Hotstuff.Replica.HighQC

/-! What stands behind a vote: the tests that a proposal has passed when `OnPropose` signs. -/
namespace Hotstuff
open Library
namespace Replica

/-- `OnPropose` has passed its tests, and goes on to store the block and to sign the vote. -/
def passed (S : Setup) (R : RuleSet) (env : Env) (p : ProposeMsg) (s : Replica) : Replica :=
  (tellProposed S env p.block (voteRule S env R p (s.tick.emit (.handle p)).tick).2).tick

/-- What has been checked when the vote on `p` is signed in state `t`. -/
structure Votes (S : Setup) (R : RuleSet) (p : ProposeMsg) (t : Replica) : Prop where
  certificate : S.verifyQuorumCert p.block.cert = true
  above_votes : ∀ b, .vote b ∈ t.log → b.view < p.block.view
  above_timeouts : ∀ m, .signTimeout m ∈ t.log → m.view < p.block.view
  rule : MayVote S R p t

variable {S : Setup} {R : RuleSet} {env : Env} {a t u : Replica} {p : ProposeMsg} {b : Block}

structure Looked (S : Setup) (env : Env) (p : ProposeMsg) (a u : Replica) : Prop where
  fetched : Fetched S env a { u with log := a.log }
  log : ∃ l, u.log = l ++ a.log ∧ ∀ e ∈ l, e = .handle p ∨ ∃ cmd, e = .proposed cmd

namespace Looked

theorem entry {e : Effect} (h : Looked S env p a u) (he : e ∈ u.log) :
    e ∈ a.log ∨ e = .handle p ∨ ∃ cmd, e = .proposed cmd := by
  obtain ⟨l,hl,hin⟩ := h.log
  rw [hl,List.mem_append] at he
  exact he.symm.imp_right (hin e)

theorem lastVote (h : Looked S env p a u) : u.lastVote = a.lastVote := h.fetched.lastVote_eq

private theorem refl (a : Replica) : Looked S env p a a := ⟨.refl a,[],rfl,by simp⟩

private theorem fetch (h : Looked S env p a u) (hf : Fetched S env u t) : Looked S env p a t := by
  have hlog := hf.log_eq
  obtain ⟨n,bs,bh,rfl,hbs,hg⟩ := hf
  exact ⟨h.fetched.trans ⟨n,bs,bh,rfl,hbs,hg⟩,h.log⟩

private theorem emit (h : Looked S env p a u) {e : Effect} (he : e = .handle p ∨ ∃ cmd, e = .proposed cmd) :
    Looked S env p a (u.emit e) := by
  obtain ⟨l,hl,hin⟩ := h.log
  exact ⟨h.fetched,e :: l,congrArg (e :: ·) hl,List.forall_mem_cons.mpr ⟨he,hin⟩⟩

private theorem tellProposed (h : Looked S env p a u) (b : Block) : Looked S env p a (tellProposed S env b u) := by
  rw [Replica.tellProposed]
  rcases hg : Replica.get S env b.cert.hash u with ⟨_ | c,t⟩
  · exact h.fetch (get_eq hg).1
  · exact (h.fetch (get_eq hg).1).emit (.inr ⟨c.cmd,rfl⟩)

end Looked

structure Signs (S : Setup) (R : RuleSet) (env : Env) (p : ProposeMsg) (a : Replica) : Prop where
  checked : checkCerts S R env p a.now = some true
  looked : Looked S env p a (passed S R env p a)
  rule : MayVote S R p (passed S R env p a)
  above : (passed S R env p a).lastVote < p.block.view
  judged : judge S R env p a = accepted S R env p.block (passed S R env p a)
  signed : .vote p.block :: (passed S R env p a).log <:+ (judge S R env p a).log

private theorem vote_voted {c : Block} {s : Replica} (hv : .vote b ∈ (vote S env c s).log) (hn : .vote b ∉ s.log) :
    b = c ∧ s.lastVote < c.view ∧ .vote c :: s.log <:+ (vote S env c s).log := by
  rw [vote] at hv ⊢
  split_ifs at hv ⊢ with hlast
  · exact absurd hv hn
  rw [sign] at hv ⊢
  rcases hs : env.sign s.now (c.hash S) with _ | ⟨r,t⟩
  · rw [hs] at hv
    exact absurd hv hn
  · rw [hs] at hv
    have habove := UInt64.not_le.mp hlast
    dsimp only [getLeader] at hv ⊢
    split_ifs at hv ⊢
    · exact ⟨by simpa [emit,tick,hn] using hv,habove,List.suffix_cons _ _⟩
    · exact ⟨by simpa [emit,tick,hn] using hv,habove,List.suffix_rfl⟩

private theorem accepted_voted {c : Block} {s : Replica} (hv : .vote b ∈ (accepted S R env c s).log)
    (hn : .vote b ∉ s.log) : b = c ∧ s.lastVote < c.view ∧ .vote c :: s.log <:+ (accepted S R env c s).log := by
  have hrule : (commitRule S env R c (vote S env c (store S c s))).2.log = (vote S env c (store S c s)).log :=
    congrArg (fun o => o.2.2.2.2.2.2.2) (commitRule_outline c _)
  have hvote (h : .vote b ∈ (vote S env c (store S c s)).log) :
      b = c ∧ s.lastVote < c.view ∧ .vote c :: s.log <:+ (vote S env c (store S c s)).log :=
    vote_voted (s := store S c s) h hn
  rw [accepted] at hv ⊢
  rcases hc : commitRule S env R c (vote S env c (store S c s)) with ⟨_ | d,t⟩
  · rw [hc] at hv hrule
    obtain ⟨hb,hlast,hlog⟩ := hvote (hrule ▸ hv)
    exact ⟨hb,hlast,hrule ▸ hlog⟩
  · rw [hc] at hv hrule
    have hinner : Inner Effect.executing (t.emit (.decide c d)) (commit S env d (t.emit (.decide c d))) :=
      commit_inner (fun _ he => he) d _
    obtain ⟨hb,hlast,hlog⟩ := hvote (hrule ▸ List.mem_of_ne_of_mem (by simp) (hinner.old rfl hv))
    refine ⟨hb,hlast,?_⟩
    rw [← hrule] at hlog
    obtain ⟨l,hl,-⟩ := hinner.log
    rw [hl]
    exact (hlog.trans (List.suffix_cons _ _)).trans (List.suffix_append _ _)

private theorem consider_voted {s : Replica} (hv : .vote b ∈ (consider S R env p s).log) (hn : .vote b ∉ s.log) :
    (voteRule S env R p s.tick).1 = true ∧
      consider S R env p s = accepted S R env p.block (tellProposed S env p.block (voteRule S env R p s.tick).2).tick := by
  have hverdict : Verdict S env s.tick (MayVote S R p) _ := voteRule_spec p s.tick
  rcases consider_cases S R env p s with hc | ⟨t,hr,hc⟩ | ⟨t,hr,hc⟩
  · rw [hc] at hv
    exact absurd hv hn
  · rw [hr] at hverdict
    rw [hc] at hv
    obtain ⟨-,u,hf,he | he⟩ := hverdict.resolve_left (by simp)
    · cases he
      exact absurd (hf.log_eq ▸ hv) hn
    · cases he
      exact absurd (hf.log_eq ▸ hv : .vote b ∈ s.tick.log) hn
  rw [hr] at hverdict ⊢
  obtain ⟨-,hf,-⟩ := hverdict.resolve_right (by simp)
  rcases hc with hc | hc
  · rw [hc] at hv
    have hlook : Looked S env p s (tellProposed S env p.block t).tick :=
      ((((Looked.refl s).fetch (.tick s)).fetch hf).tellProposed p.block).fetch (.tick _)
    exact absurd ((hlook.entry hv).resolve_right (by simp)) hn
  · exact ⟨rfl,hc⟩

/-- A new vote of `OnPropose` is for the proposed block, which has passed all tests. -/
theorem judge_voted (hv : .vote b ∈ (judge S R env p a).log) (hn : .vote b ∉ a.log) :
    b = p.block ∧ Signs S R env p a := by
  have hjudge : checkCerts S R env p a.now = some true ∧
      judge S R env p a = consider S R env p (a.tick.emit (.handle p)) := by
    rw [judge,onProposeWith] at hv ⊢
    rcases hc : checkCerts S R env p a.now with _ | _ | _
    · rw [hc] at hv
      exact absurd hv hn
    · rw [hc] at hv
      exact absurd hv hn
    · dsimp only [andThen]
      exact ⟨rfl,ite_self _⟩
  obtain ⟨hcheck,hjudge⟩ := hjudge
  have hread : Looked S env p a (a.tick.emit (.handle p)) := ((Looked.refl a).fetch (.tick a)).emit (.inl rfl)
  rw [hjudge] at hv
  obtain ⟨hyes,hconsider⟩ := consider_voted hv fun h => hn ((hread.entry h).resolve_right (by simp))
  have hverdict : Verdict S env (a.tick.emit (.handle p)).tick (MayVote S R p) _ := voteRule_spec p _
  obtain ⟨-,hf,hmay⟩ := hverdict.resolve_right fun h => by simp [hyes] at h
  have hrule : Looked S env p a (voteRule S env R p (a.tick.emit (.handle p)).tick).2 :=
    (hread.fetch (.tick _)).fetch hf
  have hlook : Looked S env p a (passed S R env p a) := (hrule.tellProposed p.block).fetch (.tick _)
  have hpassed : MayVote S R p (passed S R env p a) := (hmay.tellProposed p.block).tick
  rw [← hjudge] at hconsider
  rw [← hjudge,hconsider] at hv
  obtain ⟨hb,habove,hlog⟩ := accepted_voted hv fun h => hn ((hlook.entry h).resolve_right (by simp))
  exact ⟨hb,hcheck,hlook,hpassed,habove,hconsider,hconsider ▸ hlog⟩

/-- Only a judgement adds a vote. -/
theorem Piece.voted (h : Piece S R env a t) (hv : .vote b ∈ t.log) (hn : .vote b ∉ a.log) :
    a.halted = false ∧ ∃ p : ProposeMsg, p.block = b ∧ t = Replica.judge S R env p a := by
  cases h with
  | judge p ha => exact ⟨ha,p,(judge_voted hv hn).1.symm,rfl⟩
  | advance si ha => exact absurd ((advance_inner si a).old rfl hv) hn
  | start ha => exact absurd ((broadcast_inner _ a).old rfl hv) hn
  | aside _ hl hin =>
    rw [hl] at hv
    exact absurd ((List.mem_append.mp hv).resolve_left fun hv => by cases hin _ hv) hn

theorem Row.voted (h : Row S R env a t) (hv : .vote b ∈ t.log) (hn : .vote b ∉ a.log) :
    ∃ (p : ProposeMsg) (c : Replica), p.block = b ∧ c.halted = false ∧ Row S R env a c ∧
      Row S R env (judge S R env p c) t ∧ .vote b ∈ (judge S R env p c).log ∧ .vote b ∉ c.log := by
  induction h with
  | refl => exact absurd hv hn
  | @tail c t hrow hpiece ih =>
    by_cases hc : .vote b ∈ c.log
    · obtain ⟨p,d,hp,hd,had,hdc,hnew⟩ := ih hc
      exact ⟨p,d,hp,hd,had,hdc.tail hpiece,hnew⟩
    · obtain ⟨hh,p,hp,rfl⟩ := hpiece.voted hv hc
      exact ⟨p,c,hp,hh,hrow,.refl,hv,hc⟩

theorem Row.log (h : Row S R env a t) : a.log <:+ t.log :=
  of_steps (Q := fun s t => s.log <:+ t.log) (fun _ => List.suffix_rfl) (fun h h' => h.trans h')
    (fun hm => hm.grows.1) h

theorem Row.recorded (h : Row S R env a t) (ha : Recorded S R a) : Recorded S R t :=
  of_steps (Q := fun s t => Recorded S R s → Recorded S R t) (fun _ hs => hs) (fun h h' hs => h' (h hs))
    (fun hm => hm.recorded) h ha

theorem Signs.votes (h : Signs S R env p a) (ha : Recorded S R a) : Votes S R p (passed S R env p a) where
  certificate := verifyQuorumCert_of_checkCerts h.checked
  above_votes b hb := by
    have hold := (h.looked.entry hb).resolve_right (by simp)
    exact UInt64.lt_of_le_of_lt (ha.vote_le b hold) (h.looked.lastVote ▸ h.above)
  above_timeouts m hm := by
    have hold := (h.looked.entry hm).resolve_right (by simp)
    exact UInt64.lt_of_le_of_lt (ha.timeout_le m hold) (h.looked.lastVote ▸ h.above)
  rule := h.rule

variable (S R) in
/-- In a run, whenever `OnPropose` on a proposal `p` signs a vote, the vote is for its block and signed on top of the
state in which `p` has passed the tests; there the block's certificate is accepted, its view is above every vote and
signed timeout so far, and the rule set's test holds of `p`. All votes of a run come about in this way. -/
theorem votes_checked (id : ID) (l : List (Env × Event)) :
    (∀ env p a b, Row S R env (run S R (init S id) l) a → .vote b ∈ (judge S R env p a).log → .vote b ∉ a.log →
      b = p.block ∧ Votes S R p (passed S R env p a) ∧
        .vote b :: (passed S R env p a).log <:+ (judge S R env p a).log) ∧
    ∀ b, .vote b ∈ (run S R (init S id) l).log → ∃ l₁ e l₂ p a, l = l₁ ++ e :: l₂ ∧
      Row S R e.1 (run S R (init S id) l₁) a ∧ Row S R e.1 (judge S R e.1 p a) (run S R (init S id) (l₁ ++ [e])) ∧
      .vote b ∈ (judge S R e.1 p a).log ∧ .vote b ∉ a.log := by
  constructor
  · intro env p a b hrow hv hn
    obtain ⟨rfl,hsigns⟩ := judge_voted hv hn
    exact ⟨rfl,hsigns.votes (hrow.recorded (run_recorded (recorded_init id) l)),hsigns.signed⟩
  · induction l using List.reverseRecOn with
    | nil =>
      intro b hb
      cases hb
    | append_singleton l e ih =>
      intro b hb
      by_cases hold : .vote b ∈ (run S R (init S id) l).log
      · obtain ⟨l₁,e',l₂,p,a,rfl,hrest⟩ := ih b hold
        exact ⟨l₁,e',l₂ ++ [e],p,a,by simp,hrest⟩
      · have hstep : Row S R e.1 (run S R (init S id) l) (run S R (init S id) (l ++ [e])) := by
          rw [run_append]
          exact handle_row e.2 _
        obtain ⟨p,a,-,-,hrow,hrow',hv,hn⟩ := hstep.voted hb hold
        exact ⟨l,e,[],p,a,rfl,hrow,hrow',hv,hn⟩

end Replica

namespace Sample
open Replica

/-- A block of view 1 whose parent is a block of view 5. -/
def behind : Block := ⟨ahead.hash setup,4,[],genesisQC 0,1⟩

/-- Under each rule set the block of view 1 gets a vote, although its parent is neither the
certified block nor of a lower view. -/
theorem vote_unlinked (R : RuleSet) :
    .vote behind ∈ (run setup R (init setup 1) [(env 1 [ahead],.propose ⟨4,behind,none⟩)]).log := by
  cases R <;> decide +kernel

/-- There is no rule set under which votes go to well-linked blocks only; neither half of it holds. -/
theorem votes_not_well_linked : ¬ ∃ R, ∀ (l : List (Env × Event)) (b a : Block),
    .vote b ∈ (run setup R (init setup 1) l).log → a.hash setup = b.parent →
      b.parent = b.cert.hash ∨ a.view < b.view := by
  rintro ⟨R,h⟩
  rcases h _ behind ahead (vote_unlinked R) rfl with h | h
  · exact absurd h (by decide +kernel)
  · exact absurd h (by decide)

theorem votes_checked_behind :
    ∃ env p a, p.block = behind ∧ Votes setup .chained p (passed setup .chained env p a) := by
  obtain ⟨_,e,_,p,a,-,hrow,-,hv,hn⟩ := (votes_checked setup .chained 1 _).2 behind (vote_unlinked .chained)
  obtain ⟨hp,hvotes,-⟩ := (votes_checked setup .chained 1 _).1 e.1 p a behind hrow hv hn
  exact ⟨e.1,p,a,hp.symm,hvotes⟩

end Sample
end Hotstuff
