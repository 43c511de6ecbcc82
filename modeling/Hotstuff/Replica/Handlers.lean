import Hotstuff.Replica.Rules

/-! The event handlers of one replica. `OnPropose`, `AdvanceView` and `Propose` call
each other; each is written over the next one and the knot is tied on a depth. -/
namespace Hotstuff
namespace Replica
variable (S : Setup) (R : RuleSet) (env : Env)

def execBlock (b : Block) (s : Replica) : Replica := { s with bExec := b, log := .exec b :: s.log }

/-- The parent is executed first; a parent that cannot be found is passed over. -/
def commitInner : Nat → Block → Replica → Replica
  | 0, _, s => s.halt
  | k+1, block, s =>
    if s.bExec.view < block.view then
      match get S env block.parent s with
      | (some parent,s) => (commitInner k parent s).andThen (execBlock block)
      | (none,s) => execBlock block s
    else s

def commit (block : Block) (s : Replica) : Replica :=
  (commitInner S env env.fuel block s).andThen (pruneToHeight env block.view)

/-- `OnPropose` from the comparison with `lastVote` to the vote that is sent. -/
def vote (block : Block) (s : Replica) : Replica :=
  if block.view ≤ s.lastVote then s
  else match sign env (.vote block) (block.hash S) s with
    | (none,s) => s
    | (some sig,s) =>
      let cert : PartialCert := ⟨some (.ecdsa sig),block.hash S⟩
      let s : Replica := { s with lastVote := block.view }
      let (leader,s) := getLeader env s.lastVote s
      if leader = s.id ∨ leader ∈ S.replicas then s.emit (.sendVote leader cert) else s

/-- `OnPropose` from `Store` on: the vote, then the deferred commit rule and commit. -/
def accepted (block : Block) (s : Replica) : Replica :=
  match commitRule S env R block (vote S env block (store S block s)) with
  | (none,s) => s
  | (some b,s) => commit S env b (s.emit (.decide block b))

def tellProposed (block : Block) (s : Replica) : Replica :=
  match get S env block.cert.hash s with
  | (some qcBlock,s) => s.emit (.proposed qcBlock.cmd)
  | (none,s) => s

/-- `OnPropose` between the verification of the certificate and the deferred `AdvanceView`.
The leader is asked for once more when the mismatch is printed. -/
def consider (p : ProposeMsg) (s : Replica) : Replica :=
  let (leader,s) := getLeader env p.block.view s
  if p.id ≠ leader then (getLeader env p.block.view s).2
  else match voteRule S env R p s with
    | (false,s) => s
    | (true,s) => match accept env p.block.cmd (tellProposed S env p.block s) with
      | (false,s) => s
      | (true,s) => accepted S R env p.block s

/-- How `consider` ends: the sender does not lead, the rule rejects, or the command decides. -/
theorem consider_cases (p : ProposeMsg) (s : Replica) : consider S R env p s = s.tick.tick ∨
    (∃ t, voteRule S env R p s.tick = (false,t) ∧ consider S R env p s = t) ∨
    ∃ t, voteRule S env R p s.tick = (true,t) ∧ (consider S R env p s = (tellProposed S env p.block t).tick ∨
      consider S R env p s = accepted S R env p.block (tellProposed S env p.block t).tick) := by
  generalize hc : consider S R env p s = w
  unfold consider getLeader at hc
  split at hc
  rename_i leader s1 he
  cases he
  split_ifs at hc
  · exact .inl hc.symm
  rcases hr : voteRule S env R p s.tick with ⟨_ | _,t⟩
  · rw [hr] at hc
    exact .inr (.inl ⟨t,rfl,hc.symm⟩)
  refine .inr (.inr ⟨t,rfl,?_⟩)
  rw [hr] at hc
  dsimp only [accept] at hc
  cases ha : env.accept (tellProposed S env p.block t).now p.block.cmd with
  | false =>
    rw [ha] at hc
    exact .inl hc.symm
  | true =>
    rw [ha] at hc
    exact .inr hc.symm

def reorder (agg : AggregateQC) (k : Nat) : AggregateQC :=
  ⟨env.qcOrder k agg.qcs,agg.sig,agg.view,((env.qcOrder_perm k agg.qcs).map _).nodup_iff.mpr agg.nodup⟩

/-- The certificate checks that open `OnPropose`; `none` if one of them never returns. -/
def checkCerts (p : ProposeMsg) (k : Nat) : Option Bool :=
  match (if R.useAggQC then p.aggQC else none) with
  | none => some (S.verifyQuorumCert p.block.cert)
  | some agg => match S.verifyAggregateQC (reorder env agg k) with
    | none => none
    | some none => some false
    | some (some highQC) => some (p.block.cert.equals highQC && S.verifyQuorumCert p.block.cert)

def onProposeWith (advance : SyncInfo → Replica → Replica) (p : ProposeMsg) (s : Replica) : Replica :=
  match checkCerts S R env p s.now with
  | none => s.tick.halt
  | some false => s.tick
  | some true => (consider S R env p (s.tick.emit (.handle p))).andThen (advance { qc := some p.block.cert })

/-- `Propose` once the certificate's block is known. -/
def proposeBlock (onPropose : ProposeMsg → Replica → Replica) (cert : SyncInfo) (s : Replica) : Replica :=
  match env.command s.now with
  | none => s.tick
  | some cmd =>
    let block : Block := ⟨s.leafBlock.hash S,s.id,cmd,cert.qc.getD .zero,s.currentView⟩
    let p : ProposeMsg := ⟨s.id,block,if R.useAggQC then cert.aggQC else none⟩
    onPropose p ((store S block s.tick).emit (.sendPropose p))

def proposeWith (onPropose : ProposeMsg → Replica → Replica) (cert : SyncInfo) (s : Replica) : Replica :=
  match cert.qc with
  | none => proposeBlock S R env onPropose cert s
  | some qc => match get S env qc.hash s with
    | (none,s) => s
    | (some qcBlock,s) => proposeBlock S R env onPropose cert (s.emit (.proposed qcBlock.cmd))

/-- The end of `AdvanceView`, from the comparison of the certificate's view on. -/
def enterView (propose : SyncInfo → Replica → Replica) (si : SyncInfo) (v : View) (timeout : Bool)
    (s : Replica) : Replica :=
  if v < s.currentView then s
  else
    -- in 64 bits, so view 0 comes after the last one
    let s : Replica := { s with currentView := v+1, lastTimeout := none,
                                log := .viewChange s.currentView v timeout :: s.log }
    let (leader,s) := getLeader env s.currentView s
    if leader = s.id then propose si s
    else if leader ∈ S.replicas then s.emit (.sendNewView leader si) else s

/-- With a timeout certificate present the quorum certificate is not looked at. -/
def advanceViewWith (propose : SyncInfo → Replica → Replica) (si : SyncInfo) (s : Replica) : Replica :=
  match si.tc with
  | some tc =>
    if S.verifyTimeoutCert tc = false then s
    else enterView S env propose si tc.view true
      (if s.highTC.view < tc.view then { s with highTC := tc } else s)
  | none => match si.qc with
    | some qc =>
      if S.verifyQuorumCert qc = false then s
      else (updateHighQC S env qc s).andThen (fun s =>
        enterView S env propose si qc.view false (s.emit .viewSucceeded))
    | none => enterView S env propose si 0 false s

def onPropose : Nat → ProposeMsg → Replica → Replica
  | 0, _, s => s.halt
  | k+1, p, s => onProposeWith S R env (advanceViewWith S env (proposeWith S R env (onPropose k))) p s

def propose (k : Nat) : SyncInfo → Replica → Replica := proposeWith S R env (onPropose S R env k)

def advanceView (k : Nat) : SyncInfo → Replica → Replica := advanceViewWith S env (propose S R env k)

def dropOldTimeouts (s : Replica) : Replica :=
  { s with timeouts := s.timeouts.filter (fun t => ¬ t.view < s.currentView) }

section With
variable (advance : SyncInfo → Replica → Replica)

/-- `OnRemoteTimeout` after the sender's SyncInfo has been used. -/
def collectTimeoutWith (m : TimeoutMsg) (s : Replica) : Replica :=
  let known := s.timeouts.any (fun t => t.view = m.view ∧ t.id = m.id)
  let s : Replica := if known then s else { s with timeouts := s.timeouts ++ [m] }
  let list := env.timeoutOrder s.now (s.timeouts.filter (fun t => t.view = m.view))
  let s := s.tick
  if list.length < S.quorum then s
  else match S.createTimeoutCert m.view list with
    | .error _ => s
    | .ok tc =>
      let si : SyncInfo := { s.syncInfo with tc := some tc }
      let si : SyncInfo := if R.useAggQC then match S.createAggregateQC s.currentView list with
          | .ok agg => { si with aggQC := some agg }
          | .error _ => si
        else si
      advance si { s with timeouts := s.timeouts.filter (fun t => t.view ≠ m.view) }

def onRemoteTimeoutWith (m : TimeoutMsg) (s : Replica) : Replica :=
  (if S.verify m.viewSignature (View.toHash m.view) = false then s
   else (advance m.syncInfo s).andThen (collectTimeoutWith S R env advance m)).andThen dropOldTimeouts

def sendTimeoutWith (m : TimeoutMsg) (s : Replica) : Replica :=
  onRemoteTimeoutWith S R env advance m { s with
    lastTimeout := some m,
    lastVote := if s.lastVote < s.currentView then s.currentView else s.lastVote,
    log := .sendTimeout m :: s.log }

/-- `onLocalTimeout` when no timeout message for the current view has been sent yet. -/
def newTimeoutWith (s : Replica) : Replica :=
  match sign env (.signView s.currentView) (View.toHash s.currentView) (s.emit .viewTimeout) with
  | (none,s) => s
  | (some sig,s) =>
    let m : TimeoutMsg := ⟨s.id,s.currentView,some (.ecdsa sig),none,s.syncInfo⟩
    if R.useAggQC then match sign env (.signTimeout m) (m.hash S) s with
      | (none,s) => s
      | (some sig,s) => sendTimeoutWith S R env advance { m with msgSignature := some (.ecdsa sig) } s
    else sendTimeoutWith S R env advance m s

def onLocalTimeoutWith (s : Replica) : Replica :=
  match s.lastTimeout with
  | some m => if m.view = s.currentView then s.emit (.sendTimeout m) else newTimeoutWith S R env advance s
  | none => newTimeoutWith S R env advance s

end With

def startWith (propose : SyncInfo → Replica → Replica) (s : Replica) : Replica :=
  if s.currentView = 1 then
    let (leader,s) := getLeader env s.currentView s
    if leader = s.id then propose s.syncInfo s else s
  else s

def collectTimeout : TimeoutMsg → Replica → Replica := collectTimeoutWith S R env (advanceView S R env env.fuel)

def onRemoteTimeout : TimeoutMsg → Replica → Replica := onRemoteTimeoutWith S R env (advanceView S R env env.fuel)

theorem onRemoteTimeout_def (m : TimeoutMsg) (s : Replica) : onRemoteTimeout S R env m s =
    (if S.verify m.viewSignature (View.toHash m.view) = false then s
     else (advanceView S R env env.fuel m.syncInfo s).andThen (collectTimeout S R env m)).andThen dropOldTimeouts := rfl

def sendTimeout : TimeoutMsg → Replica → Replica := sendTimeoutWith S R env (advanceView S R env env.fuel)

def newTimeout : Replica → Replica := newTimeoutWith S R env (advanceView S R env env.fuel)

def onLocalTimeout : Replica → Replica := onLocalTimeoutWith S R env (advanceView S R env env.fuel)

def start : Replica → Replica := startWith env (propose S R env env.fuel)

def onNewView (m : NewViewMsg) (s : Replica) : Replica := advanceView S R env env.fuel m.syncInfo s

/-- The end of `OnVote`: votes for blocks above the leaf are verified on their own goroutine. -/
def spawnVerify (cert : PartialCert) (block : Block) (s : Replica) : Replica :=
  if block.view ≤ s.leafBlock.view then s else { s with pending := s.pending ++ [(cert,block)] }

def onVote (m : VoteMsg) (s : Replica) : Replica :=
  if m.deferred then
    match get S env m.cert.blockHash s with
    | (none,s) => s
    | (some block,s) => s.spawnVerify m.cert block
  else match s.localGet m.cert.blockHash with
    | none => s.emit (.delayVote { m with deferred := true })
    | some block => s.spawnVerify m.cert block

def dropOldVotes (s : Replica) : Replica :=
  { s with verifiedVotes := s.verifiedVotes.filter (fun c => match s.localGet c.blockHash with
      | some b => ¬ b.view ≤ s.leafBlock.view
      | none => false) }

def verifyCert (cert : PartialCert) (block : Block) (s : Replica) : Replica :=
  if S.verifyPartialCert cert = false then s
  else
    let s : Replica := { s with verifiedVotes := s.verifiedVotes ++ [cert] }
    let votes := s.verifiedVotes.filter (fun c => c.blockHash = cert.blockHash)
    if votes.length < S.quorum then s.dropOldVotes
    else match S.createQuorumCert block votes with
      | .error _ => s.dropOldVotes
      | .ok qc => ({ s with
          verifiedVotes := s.verifiedVotes.filter (fun c => c.blockHash ≠ cert.blockHash),
          log := .newViewEvent qc :: s.log } : Replica).dropOldVotes

def handle (ev : Event) (s : Replica) : Replica :=
  if s.halted then s
  else match ev with
    | .start => start S R env s
    | .propose p => onPropose S R env (env.fuel+1) p s
    | .newView m => onNewView S R env m s
    | .timeout m => onRemoteTimeout S R env m s
    | .localTimeout => onLocalTimeout S R env s
    | .vote m => onVote S env m s
    | .verifyCert k => match s.pending[k]? with
      | some (cert,block) => verifyCert S cert block { s with pending := s.pending.eraseIdx k }
      | none => s

end Replica
end Hotstuff
