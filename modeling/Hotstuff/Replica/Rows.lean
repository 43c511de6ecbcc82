import Hotstuff.Replica.Timeouts

/-! What an event does, as a row of flat pieces: judging a proposal, advancing with a SyncInfo up to the leader's
broadcast, and work that neither judges nor proposes. -/
namespace Hotstuff
namespace Replica
variable {S : Setup} {R : RuleSet} {env : Env}

section Pieces
variable {s t : Replica} {si : SyncInfo} {p : ProposeMsg} (hs : s.halted = false)
include hs

theorem Calls.running (h : Calls S env si s t) : t.halted = false := by
  cases h.reaches with
  | timeout _ _ _ =>
    rw [learnTC]
    split_ifs <;> exact hs
  | quorum _ _ _ hh _ => exact hh
  | bare _ _ _ => exact hs

theorem Calls.steps (h : Calls S env si s t) : Steps S R env (fun _ => True) (s,none) (t,none) :=
  h (fun _ s => s) ▸ advanceViewWith_steps (fun _ _ _ _ => .refl) si s hs fun _ _ => trivial

theorem Broadcasts.running (h : Broadcasts S R env si s p t) : t.halted = false := by
  obtain ⟨u,cmd,hu,-,rfl⟩ := h.made
  exact hu.halted_eq.trans hs

theorem broadcast_steps (si : SyncInfo) : Steps S R env (fun _ => True) (s,none) (broadcast S R env si s,none) :=
  proposeWith_steps trivial (fun _ _ _ _ => .refl) si s hs fun _ _ => trivial

theorem Broadcasts.steps (h : Broadcasts S R env si s p t) : Steps S R env (fun _ => True) (s,none) (t,none) :=
  h (fun _ s => s) ▸ broadcast_steps hs si

theorem advance_steps (si : SyncInfo) : Steps S R env (fun _ => True) (s,none) (advance S R env si s,none) :=
  advanceViewWith_steps (fun si _ hu _ => broadcast_steps hu si) si s hs fun _ _ => trivial

theorem judge_steps (p : ProposeMsg) : ∃ x, Steps S R env (fun _ => True) (s,none) (judge S R env p s,x) := by
  have htick : Steps S R env (fun _ => True) (s,none) (s.tick,none) := (Fetched.tick s).steps none
  rw [judge,onProposeWith]
  rcases hc : checkCerts S R env p s.now with _ | _ | _
  · exact ⟨none,htick.trans (halt_steps _ _)⟩
  · exact ⟨none,htick⟩
  · have hcheck := htick.tail (.check p _ hc trivial)
    obtain ⟨x,hx,-⟩ := consider_steps (S := S) (R := R) (P := fun _ => True) env (s := s.tick.emit (.handle p)) trivial
      hs List.mem_cons_self
    refine ⟨x,?_⟩
    dsimp only [andThen]
    rw [ite_self]
    exact hcheck.trans hx

end Pieces

def aside : Effect → Bool
  | .handle _ | .proposed _ | .vote _ | .sendVote _ _ | .decide _ _ | .exec _ | .fork _ | .sendPropose _ => false
  | _ => true

variable (S R env) in
inductive Piece : Replica → Replica → Prop
  | judge {a : Replica} (p : ProposeMsg) : a.halted = false → Piece a (judge S R env p a)
  | advance {a : Replica} (si : SyncInfo) : a.halted = false → Piece a (advance S R env si a)
  | start {a : Replica} : a.halted = false → Piece a (broadcast S R env a.syncInfo a)
  | aside {a t : Replica} {l : List Effect} : Steps S R env (fun _ => True) (a,none) (t,none) → t.log = l ++ a.log →
      (∀ e ∈ l, aside e = true) → Piece a t

variable (S R env) in
abbrev Row := Relation.ReflTransGen (Piece S R env)

theorem Piece.steps {a t : Replica} (h : Piece S R env a t) :
    ∃ x, Steps S R env (fun _ => True) (a,none) (t,x) := by
  cases h with
  | judge p ha => exact judge_steps ha p
  | advance si ha => exact ⟨none,advance_steps ha si⟩
  | start ha => exact ⟨none,broadcast_steps ha _⟩
  | aside hs _ _ => exact ⟨none,hs⟩

/-- What small steps preserve, whatever is to be settled, a row preserves. -/
theorem Row.of_steps {Q : Replica → Replica → Prop} (hrefl : ∀ s, Q s s) (htrans : ∀ {s t u}, Q s t → Q t u → Q s u)
    (hstep : ∀ {a b : Phase}, Steps S R env (fun _ => True) a b → Q a.1 b.1) {s t : Replica} (h : Row S R env s t) :
    Q s t := by
  induction h with
  | refl => exact hrefl s
  | tail _ hp ih =>
    obtain ⟨x,hx⟩ := hp.steps
    exact htrans ih (hstep hx)

namespace Row
variable {s t u : Replica}

private theorem other (h : Steps S R env (fun _ => True) (s,none) (t,none)) {l : List Effect} (hl : t.log = l ++ s.log)
    (hin : ∀ e ∈ l, aside e = true) : Row S R env s t := .single (.aside h hl hin)

private theorem tick (s : Replica) : Row S R env s s.tick :=
  other (l := []) ((Fetched.tick s).steps none) rfl (by simp)

private theorem timeouts (l : List TimeoutMsg) (s : Replica) : Row S R env s { s with timeouts := l } :=
  other (l := []) (timeouts_steps fun _ _ => .inr fun _ _ => trivial) rfl (by simp)

private theorem andThen {f : Replica → Replica} (h : Row S R env s t) (hf : t.halted = false → Row S R env t (f t)) :
    Row S R env s (t.andThen f) :=
  andThen_rec h fun hh => h.trans (hf hh)

private theorem advanceViewWith {k : Nat} (ih : ∀ p s, s.halted = false → Row S R env s (onPropose S R env k p s))
    (si : SyncInfo) (s : Replica) (hs : s.halted = false) :
    Row S R env s (advanceViewWith S env (proposeWith S R env (onPropose S R env k)) si s) := by
  have hadv : Row S R env s (advance S R env si s) := .single (.advance si hs)
  rw [advance] at hadv
  rcases calls_or_returns S env si s with ⟨u,hu,-⟩ | hret
  · rw [hu,broadcast] at hadv
    rw [hu]
    rcases proposeWith_tail S R env si u with ⟨r,cmd,-,hp⟩ | ⟨t,-,hp⟩
    · rw [hp] at hadv ⊢
      exact hadv.trans (ih _ _ (hp.running (hu.running hs)))
    · rwa [hp] at hadv ⊢
  · rwa [hret _ (broadcast S R env)]

private theorem onPropose (k : Nat) (p : ProposeMsg) (s : Replica) (hs : s.halted = false) :
    Row S R env s (onPropose S R env k p s) := by
  induction k generalizing p s with
  | zero => exact other (l := []) (halt_steps s none) rfl (by simp)
  | succ k ih =>
    have hjudge : Row S R env s (judge S R env p s) := .single (.judge p hs)
    rw [Replica.onPropose]
    rcases onProposeWith_tail S R env p s with ⟨-,hj,hp⟩ | ⟨-,hp⟩
    · rw [hp]
      exact hjudge.trans (Row.advanceViewWith ih _ _ hj)
    · rwa [hp]

private theorem advanceView (k : Nat) (si : SyncInfo) (s : Replica) (hs : s.halted = false) :
    Row S R env s (advanceView S R env k si s) := Row.advanceViewWith (Row.onPropose k) si s hs

private theorem start (s : Replica) (hs : s.halted = false) : Row S R env s (start S R env s) := by
  rw [Replica.start,startWith]
  split_ifs
  · dsimp only [getLeader]
    split_ifs
    · have hb : Row S R env s (broadcast S R env s.tick.syncInfo s.tick) := (tick s).tail (.start (a := s.tick) hs)
      rw [broadcast] at hb
      rw [propose]
      rcases proposeWith_tail S R env s.tick.syncInfo s.tick with ⟨r,cmd,-,hp⟩ | ⟨t,-,hp⟩
      · rw [hp] at hb ⊢
        exact hb.trans (Row.onPropose _ _ _ (hp.running (s := s.tick) hs))
      · rwa [hp] at hb ⊢
    · exact tick s
  · exact .refl

private theorem collectTimeout (m : TimeoutMsg) (s : Replica) (hs : s.halted = false) :
    Row S R env s (collectTimeout S R env m s) := by
  have hkeep : Row S R env s (s.keepTimeout m).tick ∧ (s.keepTimeout m).halted = false := by
    rw [keepTimeout]
    split_ifs
    · exact ⟨tick s,hs⟩
    · exact ⟨(timeouts _ s).trans (tick _),hs⟩
  rcases collectTimeout_cases S R env m s with ⟨he,-⟩ | ⟨tc,-,he⟩
  · exact he ▸ hkeep.1
  · exact he ▸ (hkeep.1.trans (timeouts _ _)).trans (Row.advanceView _ _ _ hkeep.2)

private theorem onRemoteTimeout (m : TimeoutMsg) (s : Replica) (hs : s.halted = false) :
    Row S R env s (onRemoteTimeout S R env m s) := by
  rw [onRemoteTimeout_def]
  refine andThen ?_ fun _ => timeouts _ _
  split_ifs
  · exact .refl
  · exact andThen (Row.advanceView _ _ s hs) fun hh => Row.collectTimeout m _ hh

private theorem newTimeout (s : Replica) (hs : s.halted = false) : Row S R env s (newTimeout S R env s) := by
  obtain ⟨n,l,hl,hcase⟩ := newTimeout_cases (fun _ => True) S R env s
  have hin : ∀ e ∈ l, aside e = true := fun e he => by
    have hsign := hl e he
    cases e <;> first | rfl | cases hsign
  rcases hcase with ⟨he,hsteps⟩ | ⟨m,-,-,he,hsteps⟩
  · exact he ▸ other hsteps rfl hin
  · rw [he,sendTimeout_eq]
    refine Relation.ReflTransGen.trans (other (l := .sendTimeout m :: l) (hsteps hs trivial) rfl ?_) (Row.onRemoteTimeout m _ hs)
    exact List.forall_mem_cons.mpr ⟨rfl,hin⟩

private theorem onLocalTimeout (s : Replica) (hs : s.halted = false) : Row S R env s (onLocalTimeout S R env s) := by
  rw [Replica.onLocalTimeout,onLocalTimeoutWith]
  split
  · split_ifs
    · exact other (l := [.sendTimeout _]) (send_steps rfl (fun _ _ => trivial) _ _) rfl (by simp [aside])
    · exact Row.newTimeout s hs
  · exact Row.newTimeout s hs

private theorem beside (h : Steps S R env (fun _ => True) (s,none) (t,none)) (hb : Beside s t) : Row S R env s t := by
  obtain ⟨l,hl,hin⟩ := hb.log
  refine other h hl fun e he => ?_
  have hcount := hin e he
  cases e <;> first | rfl | cases hcount

end Row

theorem handle_row (ev : Event) (s : Replica) : Row S R env s (handle S R env ev s) := by
  by_cases hh : s.halted = true
  · rw [handle_halted hh]
  have hs : s.halted = false := by simpa using hh
  have hsteps : Steps S R env _ (s,none) (handle S R env ev s,none) := handle_micro ev s
  rw [handle.eq_def,if_neg hh] at hsteps ⊢
  cases ev with
  | start => exact Row.start s hs
  | propose p => exact Row.onPropose _ p s hs
  | newView m => exact Row.advanceView _ _ s hs
  | timeout m => exact Row.onRemoteTimeout m s hs
  | localTimeout => exact Row.onLocalTimeout s hs
  | vote m => exact Row.beside hsteps (onVote_beside m s)
  | verifyCert k =>
    dsimp only at hsteps ⊢
    split at hsteps
    · exact Row.beside hsteps (verifyCert_beside _ _ _ s)
    · exact .refl

/-- A state between two pieces of some event of some run. -/
def Visited (S : Setup) (R : RuleSet) (id : ID) (s : Replica) : Prop :=
  ∃ l env, Row S R env (run S R (init S id) l) s

end Replica
end Hotstuff
