import Hotstuff.Crypto.Base

/-! The state of one replica, what it emits, and the outcomes of the modules
that the consensus code calls through interfaces. -/
namespace Hotstuff

inductive RuleSet where
  | chained
  | simple
  | fast
  deriving DecidableEq, Repr

def RuleSet.useAggQC : RuleSet → Bool
  | .fast => true
  | _ => false

/-- Outcomes of calls that leave the replica, indexed by the replica's call counter:
replies to `Fetch` and whether the view context ends first, `GetLeader`, `Accept`,
`CommandQueue.Get`, `ecdsa.Sign`, and the iteration order of two maps. `fuel` bounds
the walks and the nested handler calls; a replica that exhausts it is halted. -/
structure Env where
  replies : Nat → Hash → List Block
  canceled : Nat → Bool
  leader : Nat → View → ID
  accept : Nat → Command → Bool
  command : Nat → Option Command
  sign : Nat → Hash → Option (Nat × Nat)
  timeoutOrder : Nat → List TimeoutMsg → List TimeoutMsg
  timeoutOrder_perm : ∀ k l, (timeoutOrder k l).Perm l
  qcOrder : Nat → List (ID × QuorumCert) → List (ID × QuorumCert)
  qcOrder_perm : ∀ k l, (qcOrder k l).Perm l
  fuel : Nat

/-- Everything a replica does that can be seen outside its own fields. The first three
record a signature of its own key together with what it was made for. -/
inductive Effect where
  | vote (block : Block)
  | signView (v : View)
  | signTimeout (m : TimeoutMsg)
  | handle (p : ProposeMsg)
  | decide (block committed : Block)
  | exec (block : Block)
  | fork (block : Block)
  | proposed (cmd : Command)
  | sendPropose (p : ProposeMsg)
  | sendVote (dest : ID) (cert : PartialCert)
  | sendNewView (dest : ID) (si : SyncInfo)
  | sendTimeout (m : TimeoutMsg)
  | delayVote (m : VoteMsg)
  | newViewEvent (qc : QuorumCert)
  | viewSucceeded
  | viewTimeout
  | viewChange (before : View) (certificate : View) (timeout : Bool)
  deriving DecidableEq, Repr

def Effect.signedHash (S : Setup) : Effect → Option Hash
  | .vote b => some (b.hash S)
  | .signView v => some (View.toHash v)
  | .signTimeout m => some (m.hash S)
  | _ => none

/-- The fields of `consensusBase`, the rules' lock, `Synchronizer`, `blockChain` and
`VotingMachine`. `blocks` is listed newest first: a lookup finds the latest assignment.
`timeouts` is the two-level map, `pending` the vote verifications not yet run. -/
structure Replica where
  id : ID
  now : Nat := 0
  halted : Bool := false
  lastVote : View := 0
  bExec : Block := genesis
  lock : Block := genesis
  currentView : View := 1
  highTC : TimeoutCert := ⟨none,0⟩
  highQC : QuorumCert
  leafBlock : Block := genesis
  lastTimeout : Option TimeoutMsg := none
  timeouts : List TimeoutMsg := []
  blocks : List (Hash × Block)
  blockAtHeight : List (View × Block)
  pruneHeight : View := 0
  verifiedVotes : List PartialCert := []
  pending : List (PartialCert × Block) := []
  log : List Effect := []

inductive Event where
  | start
  | propose (p : ProposeMsg)
  | newView (m : NewViewMsg)
  | timeout (m : TimeoutMsg)
  | localTimeout
  | vote (m : VoteMsg)
  | verifyCert (k : Nat)

namespace Replica

def init (S : Setup) (id : ID) : Replica where
  id := id
  highQC := ⟨none,0,S.genesisHash⟩
  blocks := [(S.genesisHash,genesis)]
  blockAtHeight := [(0,genesis)]

def tick (s : Replica) : Replica := { s with now := s.now+1 }

def halt (s : Replica) : Replica := { s with halted := true }

def emit (e : Effect) (s : Replica) : Replica := { s with log := e :: s.log }

/-- Code that is reached only if what came before it returned. -/
def andThen (s : Replica) (f : Replica → Replica) : Replica := if s.halted then s else f s

theorem andThen_rec {P : Replica → Prop} {s : Replica} {f : Replica → Replica} (h : P s)
    (hf : s.halted = false → P (f s)) : P (s.andThen f) := by
  rw [andThen]
  split_ifs with hh
  · exact h
  · exact hf (by simpa using hh)

def syncInfo (s : Replica) : SyncInfo :=
  if s.highTC.view ≤ s.highQC.view then { qc := some s.highQC }
  else { qc := some s.highQC, tc := some s.highTC }

def getLeader (env : Env) (v : View) (s : Replica) : ID × Replica := (env.leader s.now v,s.tick)

def accept (env : Env) (cmd : Command) (s : Replica) : Bool × Replica := (env.accept s.now cmd,s.tick)

/-- `Sign` of the ECDSA implementation on the hash of `e`; a signature once made is out of
the replica's hands, whatever the caller does next. -/
def sign (env : Env) (e : Effect) (h : Hash) (s : Replica) : Option EcdsaSignature × Replica :=
  match env.sign s.now h with
  | some (r,t) => (some ⟨r,t,s.id⟩,s.tick.emit e)
  | none => (none,s.tick)

end Replica
end Hotstuff
