import Hotstuff.Replica.BlockChain

/-! Vote and commit rules of the three protocols, and the high-QC update that
ChainedHotStuff's commit rule and the synchronizer share. -/
namespace Hotstuff
namespace Replica
variable (S : Setup) (env : Env)

def updateHighQC (qc : QuorumCert) (s : Replica) : Replica :=
  if S.verifyQuorumCert qc = false then s
  else match get S env qc.hash s with
    | (none,s) => s
    | (some newBlock,s) => match get S env s.highQC.hash s with
      | (none,s) => s.halt
      | (some oldBlock,s) =>
        if oldBlock.view < newBlock.view then { s with highQC := qc, leafBlock := newBlock } else s

/-- The block a certificate refers to, unless the hash is the zero value. -/
def qcRef (qc : QuorumCert) (s : Replica) : Option Block × Replica :=
  if qc.hash = 0 then (none,s) else get S env qc.hash s

def raiseLock (b : Block) (s : Replica) : Replica :=
  if s.lock.view < b.view then { s with lock := b } else s

def chainedVoteRule (p : ProposeMsg) (s : Replica) : Bool × Replica :=
  match get S env p.block.cert.hash s with
  | (some qcBlock,s) => if s.lock.view < qcBlock.view then (true,s)
    else extendsBranch S env env.fuel p.block s.lock s
  | (none,s) => extendsBranch S env env.fuel p.block s.lock s

def simpleVoteRule (p : ProposeMsg) (s : Replica) : Bool × Replica :=
  if p.block.view < s.currentView then (false,s)
  else match get S env p.block.cert.hash s with
    | (none,s) => (false,s)
    | (some parent,s) => if parent.view < s.lock.view then (false,s) else (true,s)

def fastVoteRule (p : ProposeMsg) (s : Replica) : Bool × Replica :=
  match p.aggQC with
  | some _ => match get S env p.block.cert.hash s with
    | (none,s) => (false,s)
    | (some hqcBlock,s) => extendsBranch S env env.fuel p.block hqcBlock s
  | none => (decide (s.currentView ≤ p.block.view) && decide (p.block.view = p.block.cert.view + 1),s)

def voteRule : RuleSet → ProposeMsg → Replica → Bool × Replica
  | .chained => chainedVoteRule S env
  | .simple => simpleVoteRule S env
  | .fast => fastVoteRule S env

def chainedCommitRule (block : Block) (s : Replica) : Option Block × Replica :=
  let s := updateHighQC S env block.cert s
  if s.halted then (none,s)
  else match qcRef S env block.cert s with
    | (none,s) => (none,s)
    | (some block1,s) => match qcRef S env block1.cert s with
      | (none,s) => (none,s)
      | (some block2,s) => match qcRef S env block2.cert (s.raiseLock block2) with
        | (none,s) => (none,s)
        | (some block3,s) =>
          if block1.parent = block2.hash S ∧ block2.parent = block3.hash S then (some block3,s) else (none,s)

def simpleCommitRule (block : Block) (s : Replica) : Option Block × Replica :=
  match get S env block.cert.hash s with
  | (none,s) => (none,s)
  | (some p,s) => match get S env p.cert.hash s with
    | (none,s) => (none,s)
    | (some gp,s) => match get S env gp.cert.hash (s.raiseLock gp) with
      | (none,s) => (none,s)
      | (some ggp,s) => if ggp.view + 2 = p.view then (some ggp,s) else (none,s)

def fastCommitRule (block : Block) (s : Replica) : Option Block × Replica :=
  match qcRef S env block.cert s with
  | (none,s) => (none,s)
  | (some parent,s) => match qcRef S env parent.cert s with
    | (none,s) => (none,s)
    | (some grandparent,s) =>
      if block.parent = parent.hash S ∧ block.view = parent.view + 1 ∧
          parent.parent = grandparent.hash S ∧ parent.view = grandparent.view + 1 then
        (some grandparent,s)
      else (none,s)

def commitRule : RuleSet → Block → Replica → Option Block × Replica
  | .chained => chainedCommitRule S env
  | .simple => simpleCommitRule S env
  | .fast => fastCommitRule S env

end Replica
end Hotstuff
