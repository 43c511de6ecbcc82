import Hotstuff.Progress.Handle
import Hotstuff.Replica.Timeouts

/-! A replica in a view without a proposal: it sends a timeout, collects those of the others, and a quorum of them takes
it to the next view. -/
namespace Hotstuff

structure TimeoutMsg.Carries (S : Setup) (v : View) (b : Block) (j : ID) (m : TimeoutMsg) : Prop where
  id : m.id = j
  view : m.view = v
  valid : m.Valid S
  own : m.Own
  qc : ∃ qc : QuorumCert, m.syncInfo.qc = some qc ∧ qc.Certifies S b
  tc : ∀ tc, m.syncInfo.tc = some tc → S.verifyTimeoutCert tc = true ∧ b.view < tc.view ∧ tc.view < v

namespace Replica
variable {S : Setup} {R : RuleSet} {env : Env} {s t : Replica} {l c : List Block} {b : Block} {leader : View → ID}
  {v : View} {j : ID} {m : TimeoutMsg}

def lastTimeoutSent (s : Replica) : Option TimeoutMsg := s.outbox.findSome? fun
  | .sendTimeout m => some m
  | _ => none

/-- Nothing but the timeout certificate has changed, and the new one is of an earlier view as well. -/
def Heard (S : Setup) (s t : Replica) : Prop :=
  ∃ now tc log, t = { s with now := now, highTC := tc, log := log } ∧ S.verifyTimeoutCert tc = true ∧
    tc.view < s.currentView ∧ ({ s with log := log } : Replica).executed = s.executed ∧
    ({ s with log := log } : Replica).outbox = s.outbox

/-- What a timeout of the current or an earlier view brings with it is not news. -/
theorem Knows.hears (h : Knows S c s) (hb : b ∈ c) (hleaf : s.leafBlock = b) (hlt : b.view < s.currentView)
    (hvalid : S.verifyTimeoutCert s.highTC = true) (hbelow : s.highTC.view < s.currentView) (hv : v ≤ s.currentView)
    (hm : m.Carries S v b j) (R : RuleSet) (env : Env) (k : Nat) : Heard S s (advanceView S R env k m.syncInfo s) := by
  cases htc : m.syncInfo.tc with
  | none =>
    obtain ⟨qc,hqc,hcert⟩ := hm.qc
    have hsame : s.learned qc b = s := by rw [Replica.learned,hleaf,if_neg (UInt64.lt_irrefl _)]
    rw [advanceView,h.advanceViewWith hb hcert hqc htc,hsame,enterView_old (s := s.emit .viewSucceeded) hlt]
    exact ⟨_,_,_,rfl,hvalid,hbelow,rfl,rfl⟩
  | some tc =>
    obtain ⟨hver,-,htv⟩ := hm.tc tc htc
    have hcur : tc.view < s.currentView := UInt64.lt_of_lt_of_le htv hv
    rw [advanceView,advanceViewWith_tc S env _ htc,if_neg (by simp [hver]),learnTC]
    split_ifs
    · rw [enterView_old (s := { s with highTC := tc }) hcur]
      exact ⟨_,_,_,rfl,hver,hcur,rfl,rfl⟩
    · rw [enterView_old hcur]
      exact ⟨_,_,_,rfl,hvalid,hbelow,rfl,rfl⟩

theorem andThen_of_running {f : Replica → Replica} (h : s.halted = false) : s.andThen f = f s :=
  if_neg (by simp [h])

theorem onRemoteTimeout_of_valid (hm : m.Valid S) (h : (advanceView S R env env.fuel m.syncInfo s).halted = false) :
    onRemoteTimeout S R env m s =
      (collectTimeout S R env m (advanceView S R env env.fuel m.syncInfo s)).andThen dropOldTimeouts := by
  rw [onRemoteTimeout_def,if_neg (by rw [hm]; decide),andThen_of_running h]

theorem andThen_dropOldTimeouts (h : s.timeouts.filter (fun t => ¬ t.view < s.currentView) = s.timeouts) :
    s.andThen dropOldTimeouts = s := by
  rw [andThen,dropOldTimeouts,h,ite_self]

theorem keepTimeout_eq (h : m.id ∉ s.timeouts.map TimeoutMsg.id) :
    s.keepTimeout m = { s with timeouts := s.timeouts ++ [m] } := by
  refine if_neg fun hany => ?_
  obtain ⟨t,ht,he⟩ := List.any_eq_true.mp hany
  exact h (List.mem_map.mpr ⟨t,ht,(of_decide_eq_true he).2⟩)

/-- Below a quorum the timeout is only kept. -/
theorem collectTimeout_few (h : ((s.keepTimeout m).timeouts.filter (fun t => t.view = m.view)).length < S.quorum) :
    collectTimeout S R env m s = (s.keepTimeout m).tick := by
  rw [← (env.timeoutOrder_perm (s.keepTimeout m).now _).length_eq] at h
  exact if_pos h

/-- A timeout of a view that has been left has no effect. -/
theorem Follows.hears (h : Follows S R c s) (env : Env) (hb : b ∈ c) (hleaf : s.leafBlock = b) (hlt : b.view < s.currentView)
    (hv : v < s.currentView) (hm : m.Carries S v b j) (hq : 1 < S.quorum) : Heard S s (onRemoteTimeout S R env m s) := by
  obtain ⟨now,tc,log,heq,hver,hbelow,hexec,hout⟩ := h.knows.hears hb hleaf hlt h.calm.valid h.calm.below
    (UInt64.le_of_lt hv) hm R env env.fuel
  have hkeep : keepTimeout m { s with now := now, highTC := tc, log := log } =
      { s with now := now, highTC := tc, log := log, timeouts := [m] } := by
    rw [keepTimeout_eq (by simp [h.calm.timeouts]),h.calm.timeouts]
    rfl
  have hcollect : collectTimeout S R env m { s with now := now, highTC := tc, log := log } =
      { s with now := now+1, highTC := tc, log := log, timeouts := [m] } := by
    rw [collectTimeout_few,hkeep]
    · rfl
    · rw [hkeep]
      exact Nat.lt_of_le_of_lt (List.length_filter_le _ _) hq
  refine ⟨now+1,tc,log,?_,hver,hbelow,hexec,hout⟩
  rw [onRemoteTimeout_of_valid hm.valid (heq ▸ h.knows.halted),heq,hcollect,
    andThen_of_running (s := { s with now := now+1, highTC := tc, log := log, timeouts := [m] }) h.knows.halted,dropOldTimeouts]
  rw [List.filter_cons_of_neg (by simp [hm.view,hv]),List.filter_nil,← h.calm.timeouts]

theorem Follows.heard (h : Follows S R c s) (ht : Heard S s t) : Follows S R c t := by
  obtain ⟨now,tc,log,rfl,hver,hbelow,hexec,-⟩ := ht
  exact ⟨h.toTracks.frame hexec,h.calm.timeouts,h.calm.lastTimeout,hver,hbelow⟩

/-- The timeouts of the replicas `js` in the current view `v` have been collected. -/
structure Waits (S : Setup) (R : RuleSet) (v : View) (b : Block) (l : List Block) (js : List ID) (s : Replica) :
    Prop extends Tracks S R (b :: l) s where
  leaf : s.leafBlock = b
  currentView : s.currentView = v
  lastVote : s.lastVote ≤ v
  tcValid : S.verifyTimeoutCert s.highTC = true
  tcBelow : s.highTC.view < v
  senders : s.timeouts.map TimeoutMsg.id = js
  valid : ∀ m ∈ s.timeouts, m.view = v ∧ m.Valid S ∧ m.Own

namespace Waits
variable {js : List ID}

theorem heard (h : Waits S R v b l js s) (ht : Heard S s t) : Waits S R v b l js t := by
  obtain ⟨now,tc,log,rfl,hver,hbelow,hexec,-⟩ := ht
  exact ⟨h.toTracks.frame hexec,h.leaf,h.currentView,h.lastVote,hver,h.currentView ▸ hbelow,h.senders,h.valid⟩

theorem length (h : Waits S R v b l js s) : s.timeouts.length = js.length := by
  rw [← h.senders,List.length_map]

private theorem keep (h : Waits S R v b l js s) (hm : m.Carries S v b j) (hj : j ∉ js) :
    s.keepTimeout m = { s with timeouts := s.timeouts ++ [m] } ∧ Waits S R v b l (js ++ [j]) (s.keepTimeout m) := by
  have heq : s.keepTimeout m = { s with timeouts := s.timeouts ++ [m] } := keepTimeout_eq (by rwa [hm.id,h.senders])
  refine ⟨heq,?_⟩
  rw [heq]
  refine ⟨h.toTracks.frame rfl,h.leaf,h.currentView,h.lastVote,h.tcValid,h.tcBelow,?_,fun x hx => ?_⟩
  · rw [List.map_append,h.senders,List.map_singleton,hm.id]
  · rcases List.mem_append.mp hx with hx | hx
    · exact h.valid x hx
    · rw [List.mem_singleton.mp hx]
      exact ⟨hm.view,hm.valid,hm.own⟩

/-- All that has been collected is of the current view. -/
private theorem filter_eq (h : Waits S R v b l js s) : s.timeouts.filter (fun t => t.view = v) = s.timeouts :=
  List.filter_eq_self.mpr fun x hx => decide_eq_true (h.valid x hx).1

private theorem dropOld (h : Waits S R v b l js s) : s.andThen dropOldTimeouts = s := by
  refine andThen_dropOldTimeouts (List.filter_eq_self.mpr fun x hx => decide_eq_true ?_)
  rw [h.currentView,(h.valid x hx).1]
  exact UInt64.lt_irrefl _

/-- A collected timeout, with the state in which it is collected. -/
private theorem onRemoteTimeout_eq (h : Waits S R v b l js s) (hlt : b.view < v) (hm : m.Carries S v b j) (env : Env) :
    ∃ t, Heard S s t ∧ onRemoteTimeout S R env m s = (collectTimeout S R env m t).andThen dropOldTimeouts := by
  have hheard := h.knows.hears List.mem_cons_self h.leaf (h.currentView ▸ hlt) h.tcValid
    (h.currentView ▸ h.tcBelow) (UInt64.le_of_eq h.currentView.symm) hm R env env.fuel
  exact ⟨_,hheard,onRemoteTimeout_of_valid hm.valid (h.heard hheard).knows.halted⟩

/-- Below a quorum the timeout is kept. -/
private theorem collect (h : Waits S R v b l js s) (env : Env) (hm : m.Carries S v b j) (hj : j ∉ js)
    (hq : js.length + 1 < S.quorum) :
    (collectTimeout S R env m s).andThen dropOldTimeouts = { s with now := s.now+1, timeouts := s.timeouts ++ [m] } ∧
      Waits S R v b l (js ++ [j]) { s with now := s.now+1, timeouts := s.timeouts ++ [m] } := by
  obtain ⟨hkeep,hw⟩ := h.keep hm hj
  have hfew : collectTimeout S R env m s = (s.keepTimeout m).tick := by
    refine collectTimeout_few ?_
    rw [hm.view,hw.filter_eq,hw.length,List.length_append]
    exact hq
  rw [hkeep] at hfew hw
  have hw' : Waits S R v b l (js ++ [j]) { s with now := s.now+1, timeouts := s.timeouts ++ [m] } :=
    ⟨hw.toTracks.frame rfl,hw.leaf,hw.currentView,hw.lastVote,hw.tcValid,hw.tcBelow,hw.senders,hw.valid⟩
  exact ⟨hfew ▸ hw'.dropOld,hw'⟩

/-- Below a quorum a replica goes on waiting. -/
theorem more (h : Waits S R v b l js s) (env : Env) (hlt : b.view < v) (hm : m.Carries S v b j) (hj : j ∉ js)
    (hq : js.length + 1 < S.quorum) : Waits S R v b l (js ++ [j]) (onRemoteTimeout S R env m s) ∧
      (onRemoteTimeout S R env m s).id = s.id ∧ (onRemoteTimeout S R env m s).lastTimeout = s.lastTimeout ∧
      (onRemoteTimeout S R env m s).outbox = s.outbox := by
  obtain ⟨t,ht,heq⟩ := h.onRemoteTimeout_eq hlt hm env
  obtain ⟨hcollect,hw⟩ := (h.heard ht).collect env hm hj hq
  rw [heq,hcollect]
  refine ⟨hw,?_⟩
  obtain ⟨now,tc,log,rfl,-,-,-,hout⟩ := ht
  exact ⟨rfl,rfl,hout⟩

/-- The timeouts of a quorum make a certificate. -/
private theorem certificate (h : Waits S R v b l js s) (env : Env) (now : Nat) (hv : v ≠ 0) (hjs : js.Nodup)
    (hq : js.length = S.quorum) :
    ∃ tc, S.createTimeoutCert v (env.timeoutOrder now (s.timeouts.filter fun t => t.view = v)) = .ok tc := by
  have hw : Waiting S v {m | m ∈ s.timeouts} s :=
    ⟨fun m hm hv _ => ⟨m,hm,hv,rfl⟩,fun t ht _ => ⟨ht,(h.valid t ht).2.1⟩,by rwa [h.filter_eq,h.senders]⟩
  refine hw.certificate hv (fun m hm _ _ => (h.valid m hm).2.2) (env.timeoutOrder_perm _ _) ?_
  rw [(env.timeoutOrder_perm _ _).length_eq,h.filter_eq,h.length,hq]

/-- The last timeout of a quorum takes the replica to the next view, where it proposes or passes the certificate on. -/
theorem last (h : Waits S R v b l js s) (hR : R.useAggQC = false) (he : env.Cooperates S leader s.id) (hlt : b.view < v)
    (hsucc : v < v + 1) (hm : m.Carries S v b j) (hjs : (js ++ [j]).Nodup) (hq : js.length + 1 = S.quorum) :
    ∃ (u : Replica) (si : SyncInfo), Follows S R (b :: l) u ∧ u.leafBlock = b ∧ u.currentView = v + 1 ∧ u.id = s.id ∧
      u.lastVote ≤ v ∧ si.qc = some u.highQC ∧ si.aggQC = none ∧ .viewChange v v true ∈ u.log ∧ onRemoteTimeout S R env m s =
        if leader (v + 1) = s.id then propose S R env env.fuel si u
        else if leader (v + 1) ∈ S.replicas then u.emit (.sendNewView (leader (v + 1)) si) else u := by
  obtain ⟨t,ht,heq⟩ := h.onRemoteTimeout_eq hlt hm env
  have hnew : j ∉ js := fun hj => (List.nodup_append.mp hjs).2.2 j hj j (List.mem_singleton_self j) rfl
  obtain ⟨-,hw⟩ := (h.heard ht).keep hm hnew
  have hid : (t.keepTimeout m).id = s.id := by
    obtain ⟨now,tc,log,rfl,-⟩ := ht
    rw [keepTimeout]
    split_ifs <;> rfl
  have hlen : (js ++ [j]).length = S.quorum := by rw [List.length_append,← hq]; rfl
  have hv0 : v ≠ 0 := UInt64.pos_iff_ne_zero.mp (UInt64.lt_of_le_of_lt UInt64.zero_le hlt)
  obtain ⟨tc,hc,hcollect⟩ : ∃ tc, S.createTimeoutCert m.view (collected env m.view (t.keepTimeout m)) = .ok tc ∧
      collectTimeout S R env m t = advanceView S R env env.fuel (collectedInfo S R env tc m.view (t.keepTimeout m))
        ((t.keepTimeout m).tick.dropTimeouts m.view) := by
    rcases collectTimeout_cases S R env m t with ⟨-,hno⟩ | hok
    · rw [collected,hm.view] at hno
      rcases hno with hlt | ⟨e,hno⟩
      · rw [(env.timeoutOrder_perm _ _).length_eq,hw.filter_eq,hw.length,hlen] at hlt
        exact absurd hlt (Nat.lt_irrefl _)
      · obtain ⟨tc,hc⟩ := hw.certificate env _ hv0 hjs hlen
        cases hc.symm.trans hno
    · exact hok
  obtain ⟨htv,hver⟩ := Setup.createTimeoutCert_ok hc
  rw [hm.view] at htv hcollect
  generalize t.keepTimeout m = k at hw hid hcollect
  have hnone : (k.tick.dropTimeouts v).timeouts = [] := by
    rw [dropTimeouts,List.filter_eq_nil_iff]
    intro x hx
    simpa using (hw.valid x hx).1
  have hlearn : (k.tick.dropTimeouts v).learnTC tc = { k.tick.dropTimeouts v with highTC := tc } :=
    if_pos (htv ▸ hw.tcBelow)
  set u := entered v true { k.tick.dropTimeouts v with highTC := tc } with hu
  have hfol : Follows S R (b :: l) u :=
    ⟨hw.toTracks.frame rfl,hnone,rfl,hver,htv ▸ hsucc⟩
  refine ⟨u,collectedInfo S R env tc v k,hfol,hw.leaf,rfl,hid,hw.lastVote,?_,?_,?_,?_⟩
  · exact syncInfo_qc k
  · rw [collectedInfo,attached,hR]
    rfl
  · have hchange : .viewChange k.currentView v true ∈ u.log := List.mem_cons_self
    rwa [hw.currentView] at hchange
  have hstay {w : Replica} (hw : w.timeouts = []) : w.andThen dropOldTimeouts = w :=
    andThen_dropOldTimeouts (by rw [hw]; rfl)
  have hcur : ¬ v < ({ k.tick.dropTimeouts v with highTC := tc } : Replica).currentView :=
    hw.currentView ▸ UInt64.lt_irrefl _
  have hid' : ({ k.tick.dropTimeouts v with highTC := tc } : Replica).id = s.id := hid
  rw [heq,hcollect,advanceView,advanceViewWith_tc S env _ rfl,if_neg (by simp [hver]),hlearn,htv,enterView_eq,if_neg hcur,
    he.leader,hid',← hu]
  split_ifs
  · exact hstay ((propose_inside _ _ _).timeouts.trans hnone)
  · exact hstay hnone
  · exact hstay hnone

/-- A replica whose timer expires sends a timeout and collects it. -/
theorem localTimeout (h : Waits S R v b l js s) (hR : R.useAggQC = false) (he : env.Cooperates S leader s.id)
    (hlt : b.view < v) (hlast : s.lastTimeout = none) (hnew : s.id ∉ js) (hq : js.length + 1 < S.quorum) :
    Waits S R v b l (js ++ [s.id]) (onLocalTimeout S R env s) ∧ (onLocalTimeout S R env s).id = s.id ∧
      ∃ m : TimeoutMsg, m.Carries S v b s.id ∧ (onLocalTimeout S R env s).lastTimeoutSent = some m := by
  obtain ⟨r,t,hsign,hvalid⟩ := he.sign s.now (View.toHash s.currentView)
  set m : TimeoutMsg := ⟨s.id,s.currentView,some (.ecdsa ⟨r,t,s.id⟩),none,s.syncInfo⟩ with hmdef
  have hm : m.Carries S v b s.id := by
    refine ⟨rfl,h.currentView,hvalid,rfl,⟨s.highQC,syncInfo_qc s,h.leaf ▸ h.knows.highQC⟩,fun tc htc => ?_⟩
    change s.syncInfo.tc = some tc at htc
    rw [syncInfo] at htc
    split_ifs at htc with hle
    cases htc
    refine ⟨h.tcValid,?_,h.tcBelow⟩
    rw [← h.leaf,← h.knows.highQC.view]
    exact UInt64.not_le.mp hle
  have heq : onLocalTimeout S R env s = onRemoteTimeout S R env m { s with
      now := s.now+1, lastTimeout := some m, lastVote := if s.lastVote < s.currentView then s.currentView else s.lastVote,
      log := .sendTimeout m :: .signView s.currentView :: .viewTimeout :: s.log } := by
    rw [onLocalTimeout,onLocalTimeoutWith,hlast]
    dsimp only [newTimeout,newTimeoutWith,sign,emit]
    rw [hsign,hR]
    rfl
  have hw : Waits S R v b l js { s with
      now := s.now+1, lastTimeout := some m, lastVote := if s.lastVote < s.currentView then s.currentView else s.lastVote,
      log := .sendTimeout m :: .signView s.currentView :: .viewTimeout :: s.log } := by
    refine ⟨h.toTracks.frame rfl,h.leaf,h.currentView,?_,h.tcValid,h.tcBelow,h.senders,h.valid⟩
    dsimp only
    split_ifs
    · exact UInt64.le_of_eq h.currentView
    · exact h.lastVote
  obtain ⟨hw',hid,-,hout⟩ := hw.more env hlt hm hnew hq
  rw [heq]
  refine ⟨hw',hid,m,hm,?_⟩
  rw [lastTimeoutSent,hout]
  rfl


end Waits

theorem Idle.waits {i : ID} (h : Idle S R v b l i s) : Waits S R v b l [] s :=
  ⟨h.follows.toTracks,h.leaf,h.currentView,UInt64.le_of_lt h.lastVote,h.follows.calm.valid,
    h.currentView ▸ h.follows.calm.below,by rw [h.follows.calm.timeouts]; rfl,by simp [h.follows.calm.timeouts]⟩

/-- A timeout brings a replica that is behind to the view after the newest block. -/
theorem Follows.catchUp (h : Follows S R (b :: l) s) (hl : Lineage S (b :: l)) (he : env.Cooperates S leader s.id)
    (hmute : leader (b.view + 1) = s.id → env.Silent) (hmem : leader (b.view + 1) ∈ S.replicas) (hcur : s.currentView ≤ b.view)
    (hvote : s.lastVote ≤ b.view) (hlt : b.view < b.view + 1) (hm : m.Carries S (b.view + 1) b j) (hq : 1 < S.quorum) :
    Waits S R (b.view + 1) b l [j] (onRemoteTimeout S R env m s) ∧ (onRemoteTimeout S R env m s).id = s.id ∧
      (onRemoteTimeout S R env m s).lastTimeout = none := by
  obtain ⟨qc,hqc,hcert⟩ := hm.qc
  have htc : m.syncInfo.tc = none := by
    cases htc : m.syncInfo.tc with
    | none => rfl
    | some tc =>
      obtain ⟨-,hlow,hhigh⟩ := hm.tc tc htc
      exact absurd (UInt64.lt_of_le_of_lt (View.succ_le hlow) hhigh) (UInt64.lt_irrefl _)
  obtain ⟨hidle,-⟩ := h.enters (R := R) hl he hmute hmem hcert hqc htc hcur hvote hlt env.fuel
  obtain ⟨hcollect,hw⟩ := hidle.waits.collect env hm List.not_mem_nil hq
  rw [onRemoteTimeout_of_valid hm.valid hidle.follows.knows.halted,hcollect]
  exact ⟨hw,hidle.id,hidle.follows.calm.lastTimeout⟩

/-- In the next view the remaining timeouts make no difference. -/
theorem Idle.timeout {i : ID} {w : View} (h : Idle S R w b l i s) (env : Env) (hb : b.view < w) (hv : v < w)
    (hm : m.Carries S v b j) (hq : 1 < S.quorum) : Idle S R w b l i (handle S R env (.timeout m) s) := by
  have hheard := h.follows.hears env List.mem_cons_self h.leaf (h.currentView ▸ hb) (h.currentView ▸ hv) hm hq
  have hhandle : handle S R env (.timeout m) s = onRemoteTimeout S R env m s := if_neg (by simp [h.follows.knows.halted])
  have hfol := h.follows.heard hheard
  rw [hhandle]
  obtain ⟨now,tc,log,heq,-⟩ := hheard
  rw [heq] at hfol ⊢
  exact ⟨hfol,h.id,h.leaf,h.lastVote,h.currentView⟩

theorem Proposed.heard {p : ProposeMsg} {a : Block} (h : Proposed S R p a l s) (ht : Heard S s t) : Proposed S R p a l t := by
  have hfol := h.follows.heard ht
  obtain ⟨now,tc,log,rfl,-,-,-,hout⟩ := ht
  obtain ⟨c,hc,hballot⟩ := h.vote
  refine ⟨hfol,h.leaf,h.lastVote,h.currentView,⟨c,hc,?_⟩,?_,?_⟩
  · exact (congrArg (List.findSome? _) hout).trans hballot
  · exact (congrArg (List.findSome? _) hout).trans h.proposal
  · exact (congrArg List.head? hout).symm ▸ h.newest

theorem Offers.timeout {w : View} {b' : Block} (h : Offers S R env w b l b' s) (hb : b.view < w) (hv : v < w)
    (hm : m.Carries S v b j) (hq : 1 < S.quorum) : Offers S R env w b l b' (handle S R env (.timeout m) s) := by
  have hsteps : Steps S R env (fun _ => True) (s,none) (handle S R env (.timeout m) s,none) := handle_micro _ _
  obtain ⟨-,hblocks,hid⟩ := hsteps.grows
  refine ⟨h.view,h.proposer.trans hid.symm,h.command,hblocks.mem h.stored,h.parent,h.cert,fun hl => ?_⟩
  have hp := h.proposed hl
  have hcur : s.currentView = w := hp.currentView.trans h.view
  have hhandle : handle S R env (.timeout m) s = onRemoteTimeout S R env m s := if_neg (by simp [hp.follows.knows.halted])
  rw [hid,hhandle]
  exact hp.heard (hp.follows.hears env (by simp) hp.leaf (hcur ▸ hb) (hcur ▸ hv) hm hq)

/-- A quorum of timeouts, in any order: the replica leaves the view with a timeout certificate and ends up in the next
one, and if it leads that view it has proposed. -/
theorem Waits.quorum {js : List ID} {ms : List TimeoutMsg} (h : Waits S R v b l js s) (hR : R.useAggQC = false)
    (he : env.Cooperates S leader s.id) (hmem : s.id ∈ S.replicas) (hlt : b.view < v) (hsucc : v < v + 1)
    (hms : ∀ m ∈ ms, m.Carries S v b m.id) (hjs : (js ++ ms.map TimeoutMsg.id).Nodup) (hfew : js.length < S.quorum)
    (hq : S.quorum ≤ js.length + ms.length) (hone : 1 < S.quorum) (hfuel : l.length + 2 < env.fuel) :
    ((leader (v + 1) = s.id → env.Silent) → Idle S R (v + 1) b l s.id (ms.foldl (fun s m => handle S R env (.timeout m) s) s)) ∧
      (leader (v + 1) = s.id → env.Supplied →
        (∃ b', Offers S R env (v + 1) b l b' (ms.foldl (fun s m => handle S R env (.timeout m) s) s)) ∧
        (ms.foldl (fun s m => handle S R env (.timeout m) s) s).id = s.id) ∧
      .viewChange v v true ∈ (ms.foldl (fun s m => handle S R env (.timeout m) s) s).log := by
  induction ms generalizing js s with
  | nil => exact absurd hfew (Nat.not_lt.mpr hq)
  | cons m ms ih =>
    obtain ⟨hm,hrest⟩ := List.forall_mem_cons.mp hms
    have hhandle : handle S R env (.timeout m) s = onRemoteTimeout S R env m s := if_neg (by simp [h.knows.halted])
    rw [List.map_cons,List.append_cons] at hjs
    rw [List.foldl_cons,hhandle]
    rcases Nat.lt_or_eq_of_le (Nat.succ_le_of_lt hfew) with hlow | hlast
    · have hnew : m.id ∉ js := fun hj => (List.nodup_append.mp (List.nodup_append.mp hjs).1).2.2 _ hj _ (by simp) rfl
      obtain ⟨hw,hid,-⟩ := h.more env hlt hm hnew hlow
      rw [← hid] at he hmem ⊢
      refine ih hw he hmem hrest hjs (by simpa using hlow) ?_
      simp only [List.length_append,List.length_cons,List.length_nil] at hq ⊢
      omega
    · have hb : b.view < v + 1 := UInt64.lt_trans hlt hsucc
      obtain ⟨u,si,hu,hleaf,hview,hid,hvote,hqc,hagg,hchange,heq⟩ :=
        h.last hR he hlt hsucc hm (List.nodup_append.mp hjs).1 hlast
      have hvote' : u.lastVote < v + 1 := UInt64.lt_of_le_of_lt hvote hsucc
      have hleft : .viewChange v v true ∈ (onRemoteTimeout S R env m s).log := by
        rw [heq]
        split_ifs
        · have hsteps : Steps S R env (fun _ => True) (u,none) (propose S R env env.fuel si u,none) :=
            propose_steps trivial env.fuel si u hu.knows.halted fun _ _ => trivial
          exact hsteps.grows.1.mem hchange
        · exact List.mem_cons_of_mem _ hchange
        · exact hchange
      refine ⟨?_,?_,?_⟩
      · intro hmute
        have hidle : Idle S R (v + 1) b l s.id (onRemoteTimeout S R env m s) := by
          rw [heq]
          split_ifs with hlead
          · rw [hu.silent (hmute hlead) (hleaf ▸ hu.knows.highQC) hqc]
            exact ⟨hu.frame rfl,hid,hleaf,hvote',hview⟩
          · exact ⟨hu.frame rfl,hid,hleaf,hvote',hview⟩
          · exact ⟨hu,hid,hleaf,hvote',hview⟩
        exact List.foldlRecOn ms _ hidle fun t ht m hm => ht.timeout env hb hsucc (hrest m hm) hone
      · intro hlead hc
        rw [if_pos hlead] at heq
        obtain ⟨⟨b',hoffers⟩,hid'⟩ := hu.proposes si (hid ▸ he) hc hleaf (hleaf ▸ hu.knows.highQC) hqc (by rw [hagg,ite_self])
          (by rw [hview,hlead,hid]) (hid ▸ hmem) (hview ▸ hvote') (fun hr => by cases hr; cases hR) hfuel
        rw [← heq,hview] at hoffers
        rw [← heq] at hid'
        refine ⟨⟨b',?_⟩,?_⟩
        · exact List.foldlRecOn ms _ hoffers fun t ht m hm => ht.timeout hb hsucc (hrest m hm) hone
        · exact List.foldlRecOn (motive := fun t => t.id = s.id) ms _ (hid'.trans hid) fun t ht m _ =>
            (handle_micro (.timeout m) t).grows.2.2.trans ht
      · refine List.foldlRecOn (motive := fun t : Replica => .viewChange v v true ∈ t.log) ms _ hleft fun t ht m _ => ?_
        have hsteps : Steps S R env (fun _ => True) (t,none) (handle S R env (.timeout m) t,none) := handle_micro _ t
        exact hsteps.grows.1.mem ht

end Replica
end Hotstuff
