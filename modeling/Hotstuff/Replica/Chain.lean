import Hotstuff.Replica.Timeouts

/-! What the handlers do to the block store: they store blocks, look blocks up, which may store fetched ones, and commit
blocks that the commit rule has returned. Everything else leaves the store and the committed block alone. -/
namespace Hotstuff
namespace Replica
variable (S : Setup) (R : RuleSet) (env : Env)

def chain (s : Replica) := (s.blocks,s.blockAtHeight,s.pruneHeight,s.bExec)

/-- One operation on the store, or a step beside it. A commit comes right after the decision for its block. -/
inductive Touch : Replica → Replica → Prop
  | aside {s t : Replica} (h : t.chain = s.chain) (l : List Effect) (hl : t.log = l ++ s.log)
      (hin : ∀ e ∈ l, e.executing = false) : Touch s t
  | store {s : Replica} (b : Block) : Touch s (store S b s)
  | get {s : Replica} (h : Hash) : Touch s (get S env h s).2
  | commit {s : Replica} (b c : Block) (o : List Effect) (hd : s.log = .decide b c :: o) : Touch s (commit S env c s)

abbrev Touches := Relation.ReflTransGen (Touch S env)

namespace Touches
variable {S R env}

theorem quiet {s t : Replica} (h : t.chain = s.chain) (hl : t.log = s.log) : Touches S env s t :=
  .single (.aside h [] hl (by simp))

theorem emit {e : Effect} (he : e.executing = false) (s : Replica) : Touches S env s (s.emit e) :=
  .single (.aside rfl [e] rfl (by simpa using he))

theorem tick (s : Replica) : Touches S env s s.tick := quiet rfl rfl

theorem halt (s : Replica) : Touches S env s s.halt := quiet rfl rfl

theorem get (h : Hash) (s : Replica) : Touches S env s (get S env h s).2 := .single (.get h)

theorem store (b : Block) (s : Replica) : Touches S env s (store S b s) := .single (.store b)

theorem andThen {s t : Replica} {f : Replica → Replica} (h : Touches S env s t) (hf : Touches S env t (f t)) :
    Touches S env s (t.andThen f) :=
  andThen_rec h fun _ => h.trans hf

private theorem of_get {h : Hash} {s t : Replica} {o : Option Block} (hg : Replica.get S env h s = (o,t)) :
    Touches S env s t := by
  have ht : Touches S env s (Replica.get S env h s).2 := get h s
  rwa [hg] at ht

private theorem updateHighQC (qc : QuorumCert) (s : Replica) : Touches S env s (updateHighQC S env qc s) := by
  rw [Replica.updateHighQC]
  split_ifs
  · exact .refl
  rcases hg : Replica.get S env qc.hash s with ⟨_ | new,t⟩
  · exact of_get hg
  refine (of_get hg).trans ?_
  dsimp only
  rcases hg : Replica.get S env t.highQC.hash t with ⟨_ | old,u⟩
  · exact (of_get hg).trans (halt u)
  refine (of_get hg).trans ?_
  dsimp only
  split_ifs
  · exact quiet rfl rfl
  · exact .refl

private theorem looks : Looks S env (Touches S env) where
  refl _ := .refl
  trans := .trans
  halt := halt
  get := get
  lock _ _ := quiet rfl rfl
  updateHighQC := updateHighQC

private theorem entered (v : View) (timeout : Bool) (s : Replica) : Touches S env s (s.entered v timeout) :=
  .single (.aside rfl [.viewChange s.currentView v timeout] rfl (by simp [Effect.executing]))

private theorem judges : Judges S env (Touches S env) where
  toLooks := looks
  tick := tick
  store := store
  handled _ := emit rfl
  proposed _ := emit rfl
  voted b s _ := .single (.aside rfl [.vote b] rfl (by simp [Effect.executing]))
  sentVote _ _ := emit rfl
  committed b c s := (emit (e := .decide b c) rfl s).tail (.commit b c s.log rfl)

private theorem sends : Sends S env (Touches S env) where
  toLooks := looks
  tick := tick
  store := store
  proposed _ := emit rfl
  sentPropose _ := emit rfl

private theorem moves : Moves S env (Touches S env) where
  toLooks := looks
  highTC _ _ := quiet rfl rfl
  succeeded := emit rfl
  entered v timeout s _ := entered v timeout s
  sentNewView _ _ := emit rfl

theorem closed : Closed S R env (Touches S env) := closed_of judges sends moves

private theorem timeouts (l : List TimeoutMsg) (s : Replica) : Touches S env s { s with timeouts := l } :=
  quiet rfl rfl

private theorem start (s : Replica) : Touches S env s (start S R env s) := by
  rw [Replica.start,startWith]
  split_ifs
  · dsimp only [getLeader]
    split_ifs
    · exact (tick s).trans (closed.propose _ _ _)
    · exact tick s
  · exact .refl

private theorem collectTimeout (m : TimeoutMsg) (s : Replica) : Touches S env s (collectTimeout S R env m s) := by
  have hkeep : Touches S env s (s.keepTimeout m).tick := by
    rw [keepTimeout]
    split_ifs
    · exact tick s
    · exact (timeouts _ s).trans (tick _)
  rcases collectTimeout_cases S R env m s with ⟨he,-⟩ | ⟨tc,-,he⟩
  · exact he ▸ hkeep
  · exact he ▸ (hkeep.trans (timeouts _ _)).trans (closed.advanceView _ _ _)

private theorem onRemoteTimeout (m : TimeoutMsg) (s : Replica) : Touches S env s (onRemoteTimeout S R env m s) := by
  rw [onRemoteTimeout_def]
  refine andThen ?_ (timeouts _ _)
  split_ifs
  · exact .refl
  · exact andThen (closed.advanceView _ _ _) (collectTimeout m _)

private theorem newTimeout (s : Replica) : Touches S env s (newTimeout S R env s) := by
  obtain ⟨n,l,hl,hcase⟩ := newTimeout_cases (fun _ => True) S R env s
  have hin : ∀ e ∈ l, e.executing = false := fun e he => by
    have hsign := hl e he
    cases e <;> first | rfl | cases hsign
  rcases hcase with ⟨he,-⟩ | ⟨m,-,-,he,-⟩
  · exact he ▸ .single (.aside rfl l rfl hin)
  · have hann : Touches S env s ((s.afterSigning n l).announced m) :=
      .single (.aside rfl (.sendTimeout m :: l) rfl (List.forall_mem_cons.mpr ⟨rfl,hin⟩))
    rw [he,sendTimeout_eq]
    exact hann.trans (onRemoteTimeout m _)

private theorem onLocalTimeout (s : Replica) : Touches S env s (onLocalTimeout S R env s) := by
  rw [Replica.onLocalTimeout,onLocalTimeoutWith]
  split
  · split_ifs
    · exact emit rfl s
    · exact newTimeout s
  · exact newTimeout s

private theorem onVote (m : VoteMsg) (s : Replica) : Touches S env s (onVote S env m s) := by
  have hspawn (b : Block) (t : Replica) : Touches S env t (t.spawnVerify m.cert b) := by
    rw [spawnVerify]
    split_ifs
    · exact .refl
    · exact quiet rfl rfl
  rw [Replica.onVote]
  split_ifs
  · rcases hg : Replica.get S env m.cert.blockHash s with ⟨_ | b,t⟩
    · exact of_get hg
    · exact (of_get hg).trans (hspawn b t)
  · split
    · exact emit rfl s
    · exact hspawn _ s

private theorem verifyCert (cert : PartialCert) (b : Block) (s : Replica) :
    Touches S env s (verifyCert S cert b s) := by
  have hdrop (t : Replica) : Touches S env t t.dropOldVotes := quiet rfl rfl
  have hkeep : Touches S env s { s with verifiedVotes := s.verifiedVotes ++ [cert] } := quiet rfl rfl
  rw [Replica.verifyCert]
  dsimp only
  split_ifs
  · exact .refl
  · exact hkeep.trans (hdrop _)
  split
  · exact hkeep.trans (hdrop _)
  · rename_i qc _
    refine Relation.ReflTransGen.trans (.single (.aside ?_ [.newViewEvent qc] ?_ ?_)) (hdrop _)
    · rfl
    · rfl
    · simp [Effect.executing]

end Touches

theorem handle_touches (ev : Event) (s : Replica) : Touches S env s (handle S R env ev s) := by
  rw [handle.eq_def]
  split_ifs
  · exact .refl
  cases ev with
  | start => exact Touches.start s
  | propose p => exact Touches.closed.onPropose _ p s
  | newView m => exact Touches.closed.advanceView _ _ s
  | timeout m => exact Touches.onRemoteTimeout m s
  | localTimeout => exact Touches.onLocalTimeout s
  | vote m => exact Touches.onVote m s
  | verifyCert k =>
    have hpop : Touches S env s { s with pending := s.pending.eraseIdx k } := Touches.quiet rfl rfl
    dsimp only
    split
    · exact hpop.trans (Touches.verifyCert _ _ _)
    · exact .refl

abbrev Gets := Relation.ReflTransGen (fun s t => ∃ h, t = (get S env h s).2)

variable {S env}

theorem Gets.fetched {s t : Replica} (h : Gets S env s t) : Fetched S env s t := by
  induction h with
  | refl => exact .refl _
  | tail _ hg ih =>
    obtain ⟨h,rfl⟩ := hg
    exact ih.trans (get_spec h _).1

variable (S env) in
/-- Looking up and executing commute, so all lookups of a commit can be put first. -/
theorem commitInner_gets (k : Nat) (c : Block) (s : Replica) :
    ∃ (t : Replica) (l : List Block) (stopped : Bool), Gets S env s t ∧ commitInner S env k c s =
      { t with bExec := l.headD t.bExec, log := l.map .exec ++ t.log, halted := stopped } ∧
    (stopped = false → c.view ≤ (l.headD t.bExec).view) ∧ t.bExec.view ≤ (l.headD t.bExec).view := by
  induction k generalizing c s with
  | zero => exact ⟨s,[],true,.refl,rfl,nofun,UInt64.le_refl _⟩
  | succ k ih =>
    rw [commitInner]
    split_ifs with hv
    · rcases hg : get S env c.parent s with ⟨_ | p,t⟩
      · have ht : Gets S env s t := .single ⟨c.parent,by rw [hg]⟩
        refine ⟨t,[c],t.halted,ht,rfl,fun _ => UInt64.le_refl _,?_⟩
        rw [ht.fetched.bExec_eq]
        exact UInt64.le_of_lt hv
      · have ht : Gets S env s t := .single ⟨c.parent,by rw [hg]⟩
        obtain ⟨u,l,hl,hu,he,hge,hup⟩ := ih p t
        dsimp only
        rw [he,andThen]
        split_ifs with hh
        · refine ⟨u,l,hl,ht.trans hu,rfl,fun hf => absurd hf (by simpa using hh),hup⟩
        · refine ⟨u,c :: l,hl,ht.trans hu,rfl,fun _ => UInt64.le_refl _,?_⟩
          rw [hu.fetched.bExec_eq,ht.fetched.bExec_eq]
          exact UInt64.le_of_lt hv
    · exact ⟨s,[],s.halted,.refl,rfl,fun _ => UInt64.not_lt.mp hv,UInt64.le_refl _⟩

end Replica
end Hotstuff
