import Hotstuff.Replica.Rows

/-! Replicas that run with a byzantine strategy: the rules of the protocol are kept, and only what is proposed is up to the
strategy. -/
namespace Hotstuff

inductive Strategy where
  | silence
  | fork
  deriving DecidableEq, Repr

/-- The same with a command queue that is always empty. -/
def Env.mute (env : Env) : Env := { env with command := fun _ => none }

namespace Replica
variable (S : Setup) (R : RuleSet) (env : Env)

/-- `ProposeRule`. What `fork` calls the grandparent is looked up by the hash of the parent. -/
def proposeRule (strategy : Strategy) (cert : SyncInfo) (cmd : Command) (s : Replica) : Option ProposeMsg × Replica :=
  match strategy with
  | .silence => (none,s)
  | .fork => match get S env s.leafBlock.parent s with
    | (none,s) => (none,s)
    | (some parent,s) => match get S env (parent.hash S) s with
      | (none,s) => (none,s)
      | (some grandparent,s) =>
        (some ⟨s.id,⟨grandparent.hash S,s.id,cmd,grandparent.cert,s.currentView⟩,if R.useAggQC then cert.aggQC else none⟩,s)

def proposeBlockBy (strategy : Strategy) (onPropose : ProposeMsg → Replica → Replica) (cert : SyncInfo) (s : Replica) :
    Replica :=
  match env.command s.now with
  | none => s.tick
  | some cmd => match proposeRule S R env strategy cert cmd s.tick with
    | (none,s) => s
    | (some p,s) => onPropose p ((store S p.block s).emit (.sendPropose p))

def proposeByWith (strategy : Strategy) (onPropose : ProposeMsg → Replica → Replica) (cert : SyncInfo) (s : Replica) :
    Replica :=
  match cert.qc with
  | none => proposeBlockBy S R env strategy onPropose cert s
  | some qc => match get S env qc.hash s with
    | (none,s) => s
    | (some qcBlock,s) => proposeBlockBy S R env strategy onPropose cert (s.emit (.proposed qcBlock.cmd))

def onProposeBy (strategy : Strategy) : Nat → ProposeMsg → Replica → Replica
  | 0, _, s => s.halt
  | k+1, p, s => onProposeWith S R env (advanceViewWith S env (proposeByWith S R env strategy (onProposeBy strategy k))) p s

def proposeBy (strategy : Strategy) (k : Nat) : SyncInfo → Replica → Replica :=
  proposeByWith S R env strategy (onProposeBy S R env strategy k)

def advanceViewBy (strategy : Strategy) (k : Nat) : SyncInfo → Replica → Replica :=
  advanceViewWith S env (proposeBy S R env strategy k)

def handleBy (strategy : Strategy) (ev : Event) (s : Replica) : Replica :=
  if s.halted then s
  else match ev with
    | .start => startWith env (proposeBy S R env strategy env.fuel) s
    | .propose p => onProposeBy S R env strategy (env.fuel+1) p s
    | .newView m => advanceViewBy S R env strategy env.fuel m.syncInfo s
    | .timeout m => onRemoteTimeoutWith S R env (advanceViewBy S R env strategy env.fuel) m s
    | .localTimeout => onLocalTimeoutWith S R env (advanceViewBy S R env strategy env.fuel) s
    | .vote m => onVote S env m s
    | .verifyCert k => match s.pending[k]? with
      | some (cert,block) => verifyCert S cert block { s with pending := s.pending.eraseIdx k }
      | none => s

variable {S R env}

section Mute

private theorem get_mute : get S env.mute = get S env := rfl

private theorem extendsBranch_mute : extendsBranch S env.mute = extendsBranch S env := by
  funext k b target s
  induction k generalizing b s with
  | zero => rfl
  | succ k ih =>
    rw [extendsBranch,extendsBranch,get_mute]
    rcases get S env b.parent s with ⟨_ | a,t⟩
    · rfl
    · dsimp only
      rw [ih]

private theorem commitInner_mute : commitInner S env.mute = commitInner S env := by
  funext k b s
  induction k generalizing b s with
  | zero => rfl
  | succ k ih =>
    rw [commitInner,commitInner,get_mute]
    rcases get S env b.parent s with ⟨_ | a,t⟩
    · rfl
    · dsimp only
      rw [ih]

private theorem voteRule_mute : voteRule S env.mute R = voteRule S env R := by
  cases R with
  | chained =>
    funext p s
    rw [voteRule,voteRule,chainedVoteRule,chainedVoteRule,extendsBranch_mute]
    rfl
  | simple => rfl
  | fast =>
    funext p s
    rw [voteRule,voteRule,fastVoteRule,fastVoteRule,extendsBranch_mute]
    rfl

private theorem commit_mute : commit S env.mute = commit S env := by
  funext b s
  rw [commit,commit,commitInner_mute]
  rfl

private theorem consider_mute : consider S R env.mute = consider S R env := by
  have haccepted : accepted S R env.mute = accepted S R env := by
    funext b s
    have hrule : commitRule S env.mute R = commitRule S env R := by cases R <;> rfl
    have hvote : vote S env.mute = vote S env := rfl
    rw [accepted,accepted,commit_mute,hrule,hvote]
  have htell : tellProposed S env.mute = tellProposed S env := rfl
  funext p s
  rw [consider,consider,voteRule_mute,haccepted,htell]
  rfl

/-- Up to its nested calls `OnPropose` never asks for a command. -/
theorem onProposeWith_mute : onProposeWith S R env.mute = onProposeWith S R env := by
  have hcheck : checkCerts S R env.mute = checkCerts S R env := rfl
  funext advance p s
  rw [onProposeWith,onProposeWith,consider_mute,hcheck]

theorem advanceViewWith_mute : advanceViewWith S env.mute = advanceViewWith S env := rfl

end Mute

section Silence

theorem proposeByWith_silence (onPropose : ProposeMsg → Replica → Replica) :
    proposeByWith S R env .silence onPropose = proposeWith S R env.mute onPropose := by
  have hblock (cert : SyncInfo) (s : Replica) :
      proposeBlockBy S R env .silence onPropose cert s = proposeBlock S R env.mute onPropose cert s := by
    rw [proposeBlockBy]
    cases env.command s.now <;> rfl
  funext cert s
  rw [proposeByWith,proposeWith,get_mute]
  cases cert.qc with
  | none => exact hblock cert s
  | some qc =>
    dsimp only
    rcases get S env qc.hash s with ⟨_ | b,t⟩
    · rfl
    · exact hblock cert _

theorem onProposeBy_silence (k : Nat) : onProposeBy S R env .silence k = onPropose S R env.mute k := by
  induction k with
  | zero => rfl
  | succ k ih =>
    funext p s
    rw [onProposeBy,onPropose,ih,proposeByWith_silence,onProposeWith_mute,advanceViewWith_mute]

theorem proposeBy_silence (k : Nat) : proposeBy S R env .silence k = propose S R env.mute k := by
  rw [proposeBy,propose,onProposeBy_silence,proposeByWith_silence]

theorem advanceViewBy_silence (k : Nat) : advanceViewBy S R env .silence k = advanceView S R env.mute k := by
  rw [advanceViewBy,advanceView,proposeBy_silence,advanceViewWith_mute]

/-- A silent replica handles every event as one that has no command. -/
theorem handleBy_silence (ev : Event) (s : Replica) : handleBy S R env .silence ev s = handle S R env.mute ev s := by
  have hremote : onRemoteTimeout S R env.mute = onRemoteTimeoutWith S R env (advanceView S R env.mute env.fuel) := rfl
  have hlocal : onLocalTimeout S R env.mute = onLocalTimeoutWith S R env (advanceView S R env.mute env.fuel) := rfl
  unfold handleBy handle
  rw [onProposeBy_silence,proposeBy_silence,advanceViewBy_silence,hremote,hlocal]
  rfl

end Silence

section Unsent

private def unsent : Effect → Bool
  | .sendPropose _ => false
  | _ => true

private theorem broadcast_mute (si : SyncInfo) (s : Replica) : Inner unsent s (broadcast S R env.mute si s) := by
  rw [broadcast,proposeWith]
  cases si.qc with
  | none => exact .tick s
  | some qc =>
    dsimp only
    rcases hg : get S env.mute qc.hash s with ⟨_ | b,t⟩
    · exact (get_eq hg).1.inside
    · exact ((get_eq hg).1.inside.trans (.emit rfl (by simp) t)).trans (.tick _)

private theorem Piece.unsent {a t : Replica} {p : ProposeMsg} (h : Piece S R env.mute a t) (hp : .sendPropose p ∈ t.log) :
    .sendPropose p ∈ a.log := by
  cases h with
  | judge q ha => exact (judge_inner q a).old rfl hp
  | advance si ha =>
    have hadv : Inner Replica.unsent a (Replica.advance S R env.mute si a) :=
      advanceViewWith_inner (fun e he => by cases e <;> first | rfl | cases he) broadcast_mute si a
    exact hadv.old rfl hp
  | start ha => exact (broadcast_mute _ a).old rfl hp
  | aside _ hl hin =>
    rw [hl] at hp
    exact (List.mem_append.mp hp).resolve_left fun hp => by cases hin _ hp

private theorem Row.unsent {a t : Replica} {p : ProposeMsg} (h : Row S R env.mute a t) (hp : .sendPropose p ∈ t.log) :
    .sendPropose p ∈ a.log := by
  induction h with
  | refl => exact hp
  | tail _ hpiece ih => exact ih (hpiece.unsent hp)

end Unsent

def runBy (S : Setup) (R : RuleSet) (strategy : Strategy) (s : Replica) (l : List (Env × Event)) : Replica :=
  l.foldl (fun s e => handleBy S R e.1 strategy e.2 s) s

variable (S R) in
/-- Whatever happens to a replica that runs with the silence strategy, it does what it would do without the strategy if
its command queue were always empty: it votes, times out, collects certificates and executes, and never proposes. -/
theorem silence_run (s : Replica) (l : List (Env × Event)) :
    runBy S R .silence s l = run S R s (l.map fun e => (e.1.mute,e.2)) ∧
      ∀ p, .sendPropose p ∈ (runBy S R .silence s l).log → .sendPropose p ∈ s.log := by
  induction l generalizing s with
  | nil => exact ⟨rfl,fun _ hp => hp⟩
  | cons e l ih =>
    obtain ⟨hrun,hlog⟩ := ih (handle S R e.1.mute e.2 s)
    rw [runBy,List.foldl_cons,handleBy_silence]
    exact ⟨hrun,fun p hp => (handle_row e.2 s).unsent (hlog p hp)⟩

end Replica
end Hotstuff
