import Hotstuff.Replica.Frame
import Hotstuff.Crypto.Threshold

/-! Timeouts of a replica: after it has broadcast one it does not vote in that view or below, and
how it collects those of the others. -/
namespace Hotstuff
open Library
namespace Replica

section Collect
variable (S : Setup) (R : RuleSet) (env : Env)

def keepTimeout (m : TimeoutMsg) (s : Replica) : Replica :=
  if s.timeouts.any (fun t => t.view = m.view ∧ t.id = m.id) then s else { s with timeouts := s.timeouts ++ [m] }

def collected (v : View) (s : Replica) : List TimeoutMsg :=
  env.timeoutOrder s.now (s.timeouts.filter (fun t => t.view = v))

/-- The aggregate that `OnRemoteTimeout` attaches to its SyncInfo, if it does. -/
def attached (v : View) (s : Replica) : Option AggregateQC :=
  if R.useAggQC then (S.createAggregateQC s.currentView (collected env v s)).toOption else none

def collectedInfo (tc : TimeoutCert) (v : View) (s : Replica) : SyncInfo :=
  { s.syncInfo with tc := some tc, aggQC := attached S R env v s }

def dropTimeouts (v : View) (s : Replica) : Replica :=
  { s with timeouts := s.timeouts.filter (fun t => t.view ≠ v) }

/-- The message is kept; then either there is no certificate yet or the replica advances with it. -/
theorem collectTimeout_cases (m : TimeoutMsg) (s : Replica) :
    (collectTimeout S R env m s = (s.keepTimeout m).tick ∧
      ((collected env m.view (s.keepTimeout m)).length < S.quorum ∨
        ∃ e, S.createTimeoutCert m.view (collected env m.view (s.keepTimeout m)) = .error e)) ∨
    ∃ tc, S.createTimeoutCert m.view (collected env m.view (s.keepTimeout m)) = .ok tc ∧
      collectTimeout S R env m s = advanceView S R env env.fuel (collectedInfo S R env tc m.view (s.keepTimeout m))
        ((s.keepTimeout m).tick.dropTimeouts m.view) := by
  have hinfo (u : Replica) : u.syncInfo.aggQC = none := by
    rw [syncInfo]
    split_ifs <;> rfl
  unfold collectTimeout collectTimeoutWith collectedInfo attached collected
  dsimp only
  rw [← keepTimeout]
  generalize s.keepTimeout m = t
  generalize env.timeoutOrder t.now (t.timeouts.filter fun t => t.view = m.view) = list
  by_cases hq : list.length < S.quorum
  · exact .inl ⟨if_pos hq,.inl hq⟩
  rw [if_neg hq]
  cases hc : S.createTimeoutCert m.view list with
  | error e => exact .inl ⟨rfl,.inr ⟨e,rfl⟩⟩
  | ok tc =>
    refine .inr ⟨tc,rfl,?_⟩
    dsimp only
    congr 1
    split_ifs
    · have hview : t.tick.currentView = t.currentView := rfl
      rw [hview]
      cases S.createAggregateQC t.currentView list with
      | error e =>
        change _ = ({ t.syncInfo with tc := some tc, aggQC := none } : SyncInfo)
        rw [← hinfo t]
        rfl
      | ok agg => rfl
    · rw [← hinfo t]
      rfl

end Collect

variable {S : Setup} {R : RuleSet} {env : Env}

def Gathers (s t : Replica) : Prop := Inside { s with timeouts := t.timeouts } t

namespace Gathers
variable {s t u : Replica}

theorem of_inside (h : Inside s t) : Gathers s t := by
  rw [Gathers,h.timeouts]
  exact h

theorem trans (h : Gathers s t) (h' : Gathers t u) : Gathers s u := by
  have hst : Inside { s with timeouts := u.timeouts } { t with timeouts := u.timeouts } :=
    ⟨h.id,rfl,h.verifiedVotes,h.pending,h.lastTimeout,h.lastVote,h.log,h.view⟩
  exact hst.trans h'

private theorem andThen {f : Replica → Replica} (h : Gathers s t) (hf : Gathers t (f t)) :
    Gathers s (t.andThen f) :=
  andThen_rec h fun _ => h.trans hf

private theorem keep (m : TimeoutMsg) (s : Replica) : Gathers s (s.keepTimeout m) := by
  rw [keepTimeout]
  split_ifs
  · exact .of_inside (.refl s)
  · exact Inner.refl _

theorem suffix (h : Gathers s t) : s.log <:+ t.log := by
  obtain ⟨l,hl,-⟩ := h.log
  exact ⟨l,hl.symm⟩

end Gathers

theorem collectTimeout_gathers (m : TimeoutMsg) (s : Replica) : Gathers s (collectTimeout S R env m s) := by
  have hkeep := (Gathers.keep m s).trans (.of_inside (.tick _))
  rcases collectTimeout_cases S R env m s with ⟨he,-⟩ | ⟨tc,-,he⟩
  · exact he ▸ hkeep
  · have hdrop : Gathers s ((s.keepTimeout m).tick.dropTimeouts m.view) := hkeep.trans (Inner.refl _)
    exact he ▸ hdrop.trans (.of_inside (advanceView_inside _ _ _))

theorem onRemoteTimeout_gathers (m : TimeoutMsg) (s : Replica) : Gathers s (onRemoteTimeout S R env m s) := by
  have hadv : Gathers s (advanceView S R env env.fuel m.syncInfo s) := .of_inside (advanceView_inside _ _ _)
  have hdrop (t : Replica) : Gathers t t.dropOldTimeouts := Inner.refl _
  rw [onRemoteTimeout_def]
  split_ifs
  · exact Gathers.andThen (.of_inside (.refl s)) (hdrop s)
  · exact (hadv.andThen (collectTimeout_gathers m _)).andThen (hdrop _)

def sentTimeouts (s : Replica) : Set TimeoutMsg := {m | .sendTimeout m ∈ s.log}

private theorem sent_of_log {s t : Replica} {l : List Effect} (hl : t.log = l ++ s.log)
    (hin : ∀ m, .sendTimeout m ∉ l) : t.sentTimeouts = s.sentTimeouts := by
  ext m
  rw [sentTimeouts,sentTimeouts,Set.mem_ofPred_eq,Set.mem_ofPred_eq,hl,List.mem_append]
  exact or_iff_right (hin m)

theorem Inside.sent {s t : Replica} (h : Inside s t) : t.sentTimeouts = s.sentTimeouts := by
  obtain ⟨l,hl,hin⟩ := h.log
  refine sent_of_log hl fun m hm => ?_
  cases (hin _ hm).1

private theorem afterSigning_sent {l : List Effect} (hl : ∀ e ∈ l, signing e = true) (n : Nat) (s : Replica) :
    (s.afterSigning n l).sentTimeouts = s.sentTimeouts :=
  sent_of_log rfl fun m hm => by cases hl _ hm

theorem Beside.sent {s t : Replica} (h : Beside s t) : t.sentTimeouts = s.sentTimeouts := by
  obtain ⟨l,hl,hin⟩ := h.log
  refine sent_of_log hl fun m hm => ?_
  cases hin _ hm

/-- No vote is at or below a timeout that was broadcast before it. -/
structure Silenced (s : Replica) : Prop where
  last : ∀ m, s.lastTimeout = some m → m ∈ s.sentTimeouts
  sent : ∀ m ∈ s.sentTimeouts, m.view ≤ s.lastVote
  history : History (fun e o => ∀ b, e = .vote b → ∀ m, .sendTimeout m ∈ o → m.view < b.view) s.log

namespace Silenced
variable {s t : Replica}

theorem init (id : ID) : Silenced (init S id) :=
  ⟨by simp [Replica.init],by simp [Replica.init,sentTimeouts],trivial⟩

theorem congr (h : Silenced s) (hl : t.lastTimeout = s.lastTimeout) (hv : t.lastVote = s.lastVote)
    (hlog : t.log = s.log) : Silenced t := by
  have hsent : t.sentTimeouts = s.sentTimeouts := sent_of_log (l := []) hlog (by simp)
  refine ⟨?_,?_,?_⟩
  · rw [hl,hsent]
    exact h.last
  · rw [hv,hsent]
    exact h.sent
  · rw [hlog]
    exact h.history

theorem inside (h : Silenced s) (hi : Inside s t) : Silenced t := by
  obtain ⟨l,hl,hin⟩ := hi.log
  refine ⟨fun m hm => ?_,fun m hm => ?_,?_⟩
  · rw [hi.sent]
    rcases hi.lastTimeout with he | he
    · exact h.last m (he ▸ hm)
    · rw [he] at hm
      cases hm
  · rw [hi.sent] at hm
    exact UInt64.le_trans (h.sent m hm) hi.lastVote
  · have hsent : t.sentTimeouts = s.sentTimeouts := hi.sent
    rw [sentTimeouts,hl] at hsent
    rw [hl]
    refine h.history.append_within fun e he o ho b hb m hm => ?_
    have hold : m ∈ s.sentTimeouts := hsent ▸ ho hm
    exact UInt64.lt_of_le_of_lt (h.sent m hold) ((hin e he).2 b hb)

theorem beside (h : Silenced s) (hi : Beside s t) : Silenced t := by
  obtain ⟨l,hl,hin⟩ := hi.log
  refine ⟨fun m hm => ?_,fun m hm => ?_,?_⟩
  · rw [hi.sent]
    exact h.last m (hi.lastTimeout ▸ hm)
  · rw [hi.sent] at hm
    exact hi.lastVote ▸ h.sent m hm
  · rw [hl]
    refine h.history.append fun e he o b hb => ?_
    cases hb
    cases hin _ he

private theorem afterSigning (h : Silenced s) {l : List Effect} (hl : ∀ e ∈ l, signing e = true) (n : Nat) :
    Silenced (s.afterSigning n l) := by
  have hsent := afterSigning_sent hl n s
  refine ⟨hsent ▸ h.last,hsent ▸ h.sent,h.history.append fun e he o b hb => ?_⟩
  cases hb
  cases hl _ he

theorem gathers (h : Silenced s) (hg : Gathers s t) : Silenced t :=
  (h.congr rfl rfl rfl : Silenced { s with timeouts := t.timeouts }).inside hg

/-- `StopVoting` comes before the message is sent. -/
private theorem sendTimeout (h : Silenced s) {m : TimeoutMsg} (hm : m.view = s.currentView) :
    Silenced (sendTimeout S R env m s) := by
  rw [Replica.sendTimeout]
  refine gathers ?_ (onRemoteTimeout_gathers m _)
  have hlast := le_stopped s.lastVote s.currentView
  refine ⟨fun m' hm' => ?_,fun m' hm' => ?_,⟨by simp,h.history⟩⟩
  · cases hm'
    exact List.mem_cons_self
  · rcases List.mem_cons.mp hm' with he | hm'
    · cases he
      exact hm ▸ hlast.2
    · exact UInt64.le_trans (h.sent m' hm') hlast.1

private theorem newTimeout (h : Silenced s) : Silenced (newTimeout S R env s) := by
  obtain ⟨n,l,hl,⟨he,-⟩ | ⟨m,hm,-,he,-⟩⟩ := newTimeout_cases (fun _ => True) S R env s
  · exact he ▸ h.afterSigning hl n
  · exact he ▸ (h.afterSigning hl n).sendTimeout hm

private theorem resend (h : Silenced s) {m : TimeoutMsg} (hm : s.lastTimeout = some m) :
    (s.emit (.sendTimeout m)).sentTimeouts = s.sentTimeouts := by
  ext m'
  simp only [sentTimeouts,emit,Set.mem_ofPred_eq,List.mem_cons,Effect.sendTimeout.injEq,or_iff_right_iff_imp]
  rintro rfl
  exact h.last m' hm

private theorem onLocalTimeout (h : Silenced s) : Silenced (onLocalTimeout S R env s) := by
  rw [Replica.onLocalTimeout,onLocalTimeoutWith]
  split
  · rename_i m hm
    split_ifs
    · have hsent := h.resend hm
      exact ⟨hsent ▸ h.last,hsent ▸ h.sent,⟨by simp,h.history⟩⟩
    · exact h.newTimeout
  · exact h.newTimeout

theorem handle (h : Silenced s) (ev : Event) : Silenced (handle S R env ev s) := by
  by_cases hs : s.halted = true
  · rwa [handle_halted hs]
  rcases handle_cases (Bool.eq_false_iff.mpr hs) ev with ⟨-,hi | hi⟩ | ⟨m,-,he⟩ | ⟨-,he⟩
  · exact h.inside hi
  · exact h.beside hi
  · exact he ▸ h.gathers (onRemoteTimeout_gathers m s)
  · exact he ▸ h.onLocalTimeout

theorem run (h : Silenced s) (l : List (Env × Event)) : Silenced (run S R s l) := by
  induction l generalizing s with
  | nil => exact h
  | cons e l ih => exact ih (h.handle e.2)

end Silenced

variable (S R) in
/-- Votes are in growing views, and above every timeout that was broadcast before. -/
theorem no_vote_after_timeout (id : ID) (l : List (Env × Event)) {b : Block} {o : List Effect}
    (hb : .vote b :: o <:+ (run S R (init S id) l).log) :
    (∀ b', .vote b' ∈ o → b'.view < b.view) ∧ ∀ m, .sendTimeout m ∈ o → m.view < b.view := by
  have hrec : Recorded S R (run S R (init S id) l) := run_recorded (recorded_init id) l
  exact ⟨(hrec.vote_follows hb).2.1,((Silenced.init id).run l).history.of_suffix hb b rfl⟩

end Replica

namespace Sample
open Replica

private def lateRun : List (Env × Event) :=
  [(env 1 [],.localTimeout),(env 1 [],.localTimeout),(env 1 [],.propose ⟨4,ahead,none⟩)]

private def firstTimeout : TimeoutMsg :=
  ⟨1,1,some (.ecdsa ⟨1,(View.toHash 1).toNat,1⟩),none,{ qc := some (genesisQC 0) }⟩

theorem no_vote_after_timeout_late : ∃ (m : TimeoutMsg) (b : Block) (o : List Effect),
    .vote b :: o <:+ (run setup .chained (init setup 1) lateRun).log ∧ .sendTimeout m ∈ o ∧ m.view < b.view := by
  have hlog : (run setup .chained (init setup 1) lateRun).log.drop 2 =
      .vote ahead :: (run setup .chained (init setup 1) lateRun).log.drop 3 := by decide +kernel
  have hsent : .sendTimeout firstTimeout ∈ (run setup .chained (init setup 1) lateRun).log.drop 3 := by decide +kernel
  have hsuffix := hlog ▸ List.drop_suffix 2 (run setup .chained (init setup 1) lateRun).log
  exact ⟨firstTimeout,ahead,_,hsuffix,hsent,(no_vote_after_timeout setup .chained 1 lateRun hsuffix).2 _ hsent⟩

end Sample

def TimeoutMsg.Valid (S : Setup) (m : TimeoutMsg) : Prop := S.verify m.viewSignature (View.toHash m.view) = true

def TimeoutMsg.Own (m : TimeoutMsg) : Prop := m.viewSignature.map Signature.signer = some m.id

namespace Replica
variable {S : Setup} {R : RuleSet} {env : Env}

/-- The timeouts of view `v` that a replica still waits for a quorum with: all messages of `T`
that count are represented, each ID once. -/
structure Waiting (S : Setup) (v : View) (T : Set TimeoutMsg) (s : Replica) : Prop where
  kept : ∀ m ∈ T, m.view = v → m.Valid S → ∃ t ∈ s.timeouts, t.view = v ∧ t.id = m.id
  source : ∀ t ∈ s.timeouts, t.view = v → t ∈ T ∧ t.Valid S
  once : ((s.timeouts.filter (fun t => t.view = v)).map TimeoutMsg.id).Nodup

def Collects (S : Setup) (v : View) (T : Set TimeoutMsg) (s : Replica) : Prop :=
  v < s.currentView ∨ Waiting S v T s ∧ (s.timeouts.filter (fun t => t.view = v)).length < S.quorum

section Waiting
variable {v : View} {T : Set TimeoutMsg} {s t : Replica}

theorem Waiting.congr (h : Waiting S v T s)
    (ht : t.timeouts.filter (fun t => t.view = v) = s.timeouts.filter (fun t => t.view = v)) : Waiting S v T t := by
  have mem (m : TimeoutMsg) (hm : m.view = v) : m ∈ t.timeouts ↔ m ∈ s.timeouts := by
    have he : m ∈ t.timeouts.filter (fun t => t.view = v) ↔ m ∈ s.timeouts.filter (fun t => t.view = v) := by rw [ht]
    simpa [hm] using he
  refine ⟨fun m hm hv hval => ?_,fun m hm hv => h.source m ((mem m hv).mp hm) hv,ht ▸ h.once⟩
  obtain ⟨m',hm',hv',hid⟩ := h.kept m hm hv hval
  exact ⟨m',(mem m' hv').mpr hm',hv',hid⟩

theorem Collects.congr (h : Collects S v T s) (hv : s.currentView ≤ t.currentView)
    (ht : t.timeouts.filter (fun t => t.view = v) = s.timeouts.filter (fun t => t.view = v)) : Collects S v T t := by
  rcases h with h | ⟨h,hq⟩
  · exact .inl (UInt64.lt_of_lt_of_le h hv)
  · exact .inr ⟨h.congr ht,ht ▸ hq⟩

theorem Collects.inside (h : Collects S v T s) (hi : Inside s t) (hb : t.Bounded) : Collects S v T t :=
  h.congr (hi.view hb) (by rw [hi.timeouts])

/-- A message that is kept is represented from then on. -/
theorem Waiting.keepTimeout (h : Waiting S v T s) {m : TimeoutMsg} (hval : m.Valid S) :
    Waiting S v (insert m T) (s.keepTimeout m) := by
  rw [Replica.keepTimeout]
  split_ifs with hk
  · obtain ⟨t,ht,hview,hid⟩ : ∃ t ∈ s.timeouts, t.view = m.view ∧ t.id = m.id := by simpa using hk
    refine ⟨fun m' hm' hv hval' => ?_,fun t ht hv => ⟨.inr (h.source t ht hv).1,(h.source t ht hv).2⟩,h.once⟩
    rcases hm' with rfl | hm'
    · exact ⟨t,ht,hview.trans hv,hid⟩
    · exact h.kept m' hm' hv hval'
  · have hnew : ∀ t ∈ s.timeouts, t.view = m.view → t.id ≠ m.id := by simpa using hk
    refine ⟨fun m' hm' hv hval' => ?_,fun t ht hv => ?_,?_⟩
    · rcases hm' with rfl | hm'
      · exact ⟨m',by simp,hv,rfl⟩
      · obtain ⟨t,ht,hvt,hid⟩ := h.kept m' hm' hv hval'
        exact ⟨t,List.mem_append_left _ ht,hvt,hid⟩
    · rcases List.mem_append.mp ht with ht | ht
      · exact ⟨.inr (h.source t ht hv).1,(h.source t ht hv).2⟩
      · rw [List.mem_singleton.mp ht]
        exact ⟨.inl rfl,hval⟩
    · rw [List.filter_append,List.map_append,List.nodup_append]
      refine ⟨h.once,?_,fun i hi j hj hij => ?_⟩
      · by_cases hv : m.view = v <;> simp [hv]
      · obtain ⟨t,ht,rfl⟩ := List.mem_map.mp hi
        obtain ⟨m',hm',rfl⟩ := List.mem_map.mp hj
        obtain ⟨ht,hvt⟩ := List.mem_filter.mp ht
        obtain ⟨hm',hvm⟩ := List.mem_filter.mp hm'
        cases List.mem_singleton.mp hm'
        exact hnew t ht ((of_decide_eq_true hvt).trans (of_decide_eq_true hvm).symm) hij

/-- A quorum of timeouts, each signed by its sender, makes a certificate. -/
theorem Waiting.certificate (h : Waiting S v T s) (hv : v ≠ 0) (hown : ∀ m ∈ T, m.view = v → m.Valid S → m.Own)
    {l : List TimeoutMsg} (hl : l.Perm (s.timeouts.filter (fun t => t.view = v))) (hq : S.quorum ≤ l.length) :
    ∃ tc, S.createTimeoutCert v l = .ok tc := by
  rw [Setup.createTimeoutCert_ok_iff hv]
  have hcard : (l.map TimeoutMsg.id).toFinset.card = l.length := by
    rw [List.toFinset_card_of_nodup ((hl.map _).nodup_iff.mpr h.once),List.length_map]
  rw [← hcard] at hq
  refine hq.trans (Finset.card_le_card fun i hi => ?_)
  obtain ⟨t,ht,rfl⟩ := List.mem_map.mp (List.mem_toFinset.mp hi)
  obtain ⟨htm,htv⟩ := List.mem_filter.mp (hl.mem_iff.mp ht)
  have hview : t.view = v := of_decide_eq_true htv
  obtain ⟨hT,hval⟩ := h.source t htm hview
  have hsigner := hown t hT hview hval
  rw [Setup.mem_validSigners]
  rw [TimeoutMsg.Valid,hview] at hval
  unfold Setup.verify at hval
  split at hval
  · rename_i g hg
    refine ⟨g,List.mem_filterMap.mpr ⟨t,ht,hg⟩,hval,?_⟩
    rw [TimeoutMsg.Own,hg] at hsigner
    exact Option.some.inj hsigner
  · cases hval

end Waiting

theorem Bounded.of_suffix {s t : Replica} (hb : t.Bounded) (h : s.log <:+ t.log) : s.Bounded :=
  fun before v timeout hv => hb before v timeout (h.mem hv)

theorem Inside.suffix {s t : Replica} (h : Inside s t) : s.log <:+ t.log := by
  obtain ⟨l,hl,-⟩ := h.log
  exact ⟨l,hl.symm⟩

/-- An accepted timeout certificate takes the replica past its view. -/
theorem advanceView_passes {si : SyncInfo} {tc : TimeoutCert} (htc : si.tc = some tc)
    (hv : S.verifyTimeoutCert tc = true) (k : Nat) (s : Replica) (hb : (advanceView S R env k si s).Bounded) :
    tc.view < (advanceView S R env k si s).currentView := by
  have hstep : advanceView S R env k si s = enterView S env (propose S R env k) si tc.view true (s.learnTC tc) := by
    rw [advanceView,advanceViewWith_tc S env _ htc,if_neg (by simp [hv])]
  rw [hstep] at hb ⊢
  rw [enterView_eq] at hb ⊢
  by_cases hlt : tc.view < (s.learnTC tc).currentView
  · rwa [if_pos hlt]
  rw [if_neg hlt] at hb ⊢
  -- the view changes, and whatever follows does not go back
  have after {t : Replica} (hi : Inside ((s.learnTC tc).entered tc.view true) t) (hb : t.Bounded) :
      tc.view < t.currentView := by
    have hne : tc.view ≠ View.last := hb.of_suffix hi.suffix _ _ _ List.mem_cons_self
    have hlt' : tc.view < tc.view + 1 := (lt_succ_iff (UInt64.le_refl _)).mpr hne
    exact UInt64.lt_of_lt_of_le hlt' (hi.view hb)
  split_ifs at hb ⊢
  · exact after (propose_inside k si _) hb
  · exact after (.emit rfl (by simp) _) hb
  · exact after (.refl _) hb

section Step
variable {v : View} {T : Set TimeoutMsg} {s : Replica} {m : TimeoutMsg}

theorem filter_dropTimeouts {u v : View} (h : u ≠ v) (s : Replica) :
    (s.dropTimeouts u).timeouts.filter (fun t => t.view = v) = s.timeouts.filter (fun t => t.view = v) := by
  rw [dropTimeouts,List.filter_filter]
  refine List.filter_congr fun t _ => ?_
  by_cases ht : t.view = v
  · simp [ht,h.symm]
  · simp [ht]

theorem filter_keepTimeout (h : m.view ≠ v) (s : Replica) :
    (s.keepTimeout m).timeouts.filter (fun t => t.view = v) = s.timeouts.filter (fun t => t.view = v) := by
  rw [keepTimeout]
  split_ifs
  · rfl
  · simp [h]

private theorem collectTimeout_collects (h : Collects S v T s) (hv : v ≠ 0) (hval : m.Valid S)
    (hown : ∀ m' ∈ insert m T, m'.view = v → m'.Valid S → m'.Own)
    (hb : (collectTimeout S R env m s).Bounded) : Collects S v (insert m T) (collectTimeout S R env m s) := by
  rcases h with hlt | ⟨hw,hq⟩
  · exact .inl (UInt64.lt_of_lt_of_le hlt ((collectTimeout_gathers m s).view hb))
  have hkept := hw.keepTimeout hval
  by_cases hmv : m.view = v
  · subst hmv
    have hperm : (collected env m.view (s.keepTimeout m)).Perm
        ((s.keepTimeout m).timeouts.filter (fun t => t.view = m.view)) := env.timeoutOrder_perm _ _
    rcases collectTimeout_cases S R env m s with ⟨he,hno⟩ | ⟨tc,hc,he⟩
    · have hlen : (collected env m.view (s.keepTimeout m)).length < S.quorum := by
        rcases hno with hno | ⟨e,hno⟩
        · exact hno
        · by_contra hge
          obtain ⟨tc,hc⟩ := hkept.certificate hv hown hperm (Nat.not_lt.mp hge)
          rw [hno] at hc
          cases hc
      rw [he]
      exact .inr ⟨hkept.congr rfl,hperm.length_eq ▸ hlen⟩
    · rw [he] at hb ⊢
      obtain ⟨hview,hver⟩ := Setup.createTimeoutCert_ok hc
      have hpass := advanceView_passes (S := S) (R := R) rfl hver _ _ hb
      rw [hview] at hpass
      exact .inl hpass
  -- a message for another view can still take the replica out of this one
  · have hfew : Collects S v (insert m T) (s.keepTimeout m) := .inr ⟨hkept,by rwa [filter_keepTimeout hmv]⟩
    rcases collectTimeout_cases S R env m s with ⟨he,-⟩ | ⟨tc,-,he⟩
    · exact he ▸ hfew.congr (UInt64.le_refl _) rfl
    · rw [he] at hb ⊢
      have hdrop : Collects S v (insert m T) ((s.keepTimeout m).tick.dropTimeouts m.view) :=
        hfew.congr (UInt64.le_refl _) (filter_dropTimeouts hmv _)
      exact hdrop.inside (advanceView_inside _ _ _) hb

private theorem dropOldTimeouts_collects (h : Collects S v T s) : Collects S v T s.dropOldTimeouts := by
  by_cases hlt : v < s.currentView
  · exact .inl hlt
  · refine h.congr (UInt64.le_refl _) ?_
    rw [dropOldTimeouts,List.filter_filter]
    refine List.filter_congr fun t _ => ?_
    by_cases ht : t.view = v
    · simpa [ht] using UInt64.not_lt.mp hlt
    · simp [ht]

/-- A message that is not counted may be added to those considered. -/
private theorem Collects.ignore (h : Collects S v T s) (hval : ¬ m.Valid S) : Collects S v (insert m T) s := by
  refine h.imp_right fun ⟨hw,hq⟩ => ⟨⟨fun m' hm' hv hval' => ?_,fun t ht hv => ?_,hw.once⟩,hq⟩
  · rcases hm' with rfl | hm'
    · exact absurd hval' hval
    · exact hw.kept m' hm' hv hval'
  · exact ⟨.inr (hw.source t ht hv).1,(hw.source t ht hv).2⟩

/-- One call of `OnRemoteTimeout`, whatever the message. -/
theorem onRemoteTimeout_collects (h : Collects S v T s) (hv : v ≠ 0)
    (hown : ∀ m' ∈ insert m T, m'.view = v → m'.Valid S → m'.Own)
    (hh : (onRemoteTimeout S R env m s).halted = false) (hb : (onRemoteTimeout S R env m s).Bounded) :
    Collects S v (insert m T) (onRemoteTimeout S R env m s) := by
  -- a state that is not halted is the one before the cleanup, cleaned up
  have drop {t : Replica} (hh : (t.andThen dropOldTimeouts).halted = false)
      (ht : t.Bounded → t.halted = false → Collects S v (insert m T) t)
      (hb : (t.andThen dropOldTimeouts).Bounded) : Collects S v (insert m T) (t.andThen dropOldTimeouts) := by
    rw [andThen] at hh hb ⊢
    split_ifs at hh hb ⊢ with hth
    · rw [hth] at hh
      cases hh
    · exact dropOldTimeouts_collects (ht hb (by simpa using hth))
  rw [onRemoteTimeout_def] at hh hb ⊢
  refine drop hh (fun hb hh => ?_) hb
  split_ifs at hb hh ⊢ with hval
  · exact h.ignore (by simp [TimeoutMsg.Valid,hval])
  · set a := advanceView S R env env.fuel m.syncInfo s with ha
    have hin : Inside s a := advanceView_inside _ _ _
    rw [andThen] at hb hh ⊢
    split_ifs at hb hh ⊢ with hah
    · rw [hah] at hh
      cases hh
    · have hba : a.Bounded := hb.of_suffix (collectTimeout_gathers m a).suffix
      exact collectTimeout_collects (h.inside hin hba) hv (by simpa [TimeoutMsg.Valid] using hval) hown hb

/-- The replica's own timeout is processed like any other. -/
private theorem sendTimeout_collects (h : Collects S v (T ∪ s.sentTimeouts) s) (hv : v ≠ 0)
    (hown : ∀ m' ∈ T ∪ (sendTimeout S R env m s).sentTimeouts, m'.view = v → m'.Valid S → m'.Own)
    (hh : (sendTimeout S R env m s).halted = false) (hb : (sendTimeout S R env m s).Bounded) :
    Collects S v (T ∪ (sendTimeout S R env m s).sentTimeouts) (sendTimeout S R env m s) := by
  have hsent : T ∪ (sendTimeout S R env m s).sentTimeouts = insert m (T ∪ s.sentTimeouts) := by
    rw [sendTimeout_eq,(onRemoteTimeout_gathers m _).sent,← Set.union_insert]
    congr 1
    ext m'
    simp [sentTimeouts,announced]
  rw [hsent] at hown ⊢
  exact onRemoteTimeout_collects (h.congr (UInt64.le_refl _) rfl) hv hown hh hb

private theorem newTimeout_collects (h : Collects S v (T ∪ s.sentTimeouts) s) (hv : v ≠ 0)
    (hown : ∀ m' ∈ T ∪ (newTimeout S R env s).sentTimeouts, m'.view = v → m'.Valid S → m'.Own)
    (hh : (newTimeout S R env s).halted = false) (hb : (newTimeout S R env s).Bounded) :
    Collects S v (T ∪ (newTimeout S R env s).sentTimeouts) (newTimeout S R env s) := by
  obtain ⟨n,l,hl,hcase⟩ := newTimeout_cases (fun _ => True) S R env s
  have hsign : Collects S v (T ∪ (s.afterSigning n l).sentTimeouts) (s.afterSigning n l) := by
    rw [afterSigning_sent hl]
    exact h.congr (UInt64.le_refl _) rfl
  rcases hcase with ⟨he,-⟩ | ⟨m,-,-,he,-⟩
  · exact he ▸ hsign
  · rw [he] at hown hh hb ⊢
    exact sendTimeout_collects hsign hv hown hh hb

private theorem onLocalTimeout_collects (h : Collects S v (T ∪ s.sentTimeouts) s) (hs : Silenced s) (hv : v ≠ 0)
    (hown : ∀ m' ∈ T ∪ (onLocalTimeout S R env s).sentTimeouts, m'.view = v → m'.Valid S → m'.Own)
    (hh : (onLocalTimeout S R env s).halted = false) (hb : (onLocalTimeout S R env s).Bounded) :
    Collects S v (T ∪ (onLocalTimeout S R env s).sentTimeouts) (onLocalTimeout S R env s) := by
  rw [onLocalTimeout,onLocalTimeoutWith] at hown hh hb ⊢
  cases hl : s.lastTimeout with
  | none =>
    rw [hl] at hown hh hb
    exact newTimeout_collects h hv hown hh hb
  | some m =>
    rw [hl] at hown hh hb
    dsimp only at hown hh hb ⊢
    split_ifs at hown hh hb ⊢
    · -- a timeout that is sent again has been processed before
      rw [hs.resend hl]
      exact h.congr (UInt64.le_refl _) rfl
    · exact newTimeout_collects h hv hown hh hb

def brought (ev : Event) : Set TimeoutMsg := {m | ev = .timeout m}

/-- One event; `T` are the timeouts received before. -/
private theorem handle_collects (h : Collects S v (T ∪ s.sentTimeouts) s) (hs : Silenced s) (hv : v ≠ 0) (ev : Event)
    (hown : ∀ m ∈ T ∪ brought ev ∪ (handle S R env ev s).sentTimeouts, m.view = v → m.Valid S → m.Own)
    (hh : (handle S R env ev s).halted = false) (hb : (handle S R env ev s).Bounded) :
    Collects S v (T ∪ brought ev ∪ (handle S R env ev s).sentTimeouts) (handle S R env ev s) := by
  have none (hev : ∀ m, ev ≠ .timeout m) : T ∪ brought ev = T := by
    rw [brought,Set.union_eq_left]
    exact fun m hm => absurd hm (hev m)
  rcases handle_cases (running_of_handle hh) ev with ⟨hev,hi | hi⟩ | ⟨m,rfl,he⟩ | ⟨rfl,he⟩
  · rw [none hev,hi.sent]
    exact h.inside hi hb
  · rw [none hev,hi.sent]
    exact h.congr (hi.currentView ▸ UInt64.le_refl _) (by rw [hi.timeouts])
  · rw [he] at hown hh hb ⊢
    have hT : T ∪ brought (.timeout m) ∪ (onRemoteTimeout S R env m s).sentTimeouts = insert m (T ∪ s.sentTimeouts) := by
      have hone : brought (.timeout m) = {m} := by
        ext m'
        simp [brought,eq_comm]
      rw [(onRemoteTimeout_gathers m s).sent,hone,Set.union_right_comm,Set.union_singleton]
      rfl
    rw [hT] at hown ⊢
    exact onRemoteTimeout_collects h hv hown hh hb
  · rw [none (by simp),he] at hown ⊢
    rw [he] at hh hb
    exact onLocalTimeout_collects h hs hv hown hh hb

end Step

def received (l : List (Env × Event)) : Set TimeoutMsg := {m | ∃ env, (env,.timeout m) ∈ l}

variable (S R) in
def processed (id : ID) (l : List (Env × Event)) : Set TimeoutMsg :=
  received l ∪ (run S R (init S id) l).sentTimeouts

theorem received_snoc (l : List (Env × Event)) (e : Env × Event) : received (l ++ [e]) = received l ∪ brought e.2 := by
  ext m
  simp only [received,brought,Set.mem_ofPred_eq,Set.mem_union,List.mem_append,List.mem_singleton,exists_or]
  refine or_congr_right ⟨?_,fun he => ⟨e.1,Prod.ext rfl he.symm⟩⟩
  rintro ⟨env,rfl⟩
  rfl

private theorem run_collects (id : ID) {v : View} (hv : v ≠ 0) (hne : S.replicas.Nonempty) (l : List (Env × Event))
    (hh : (run S R (init S id) l).halted = false) (hb : (run S R (init S id) l).Bounded)
    (hown : ∀ m ∈ processed S R id l, m.view = v → m.Valid S → m.Own) :
    Collects S v (processed S R id l) (run S R (init S id) l) := by
  induction l using List.reverseRecOn with
  | nil =>
    refine .inr ⟨⟨?_,by simp [run,init],by simp [run,init]⟩,?_⟩
    · simp [processed,received,sentTimeouts,run,init]
    · exact S.quorum_pos hne
  | append_singleton l e ih =>
    have hstep : run S R (init S id) (l ++ [e]) = handle S R e.1 e.2 (run S R (init S id) l) := run_append _ _ _
    rw [processed,hstep,received_snoc] at hown ⊢
    rw [hstep] at hh hb
    have hlog : (run S R (init S id) l).log <:+ (handle S R e.1 e.2 (run S R (init S id) l)).log :=
      (handle_micro e.2 _).grows.1
    have hsub : processed S R id l ⊆ received l ∪ brought e.2 ∪
        (handle S R e.1 e.2 (run S R (init S id) l)).sentTimeouts := by
      rw [processed]
      exact Set.union_subset_union Set.subset_union_left fun m hm => hlog.mem hm
    have hl := ih (running_of_handle hh) (hb.of_suffix hlog) fun m hm => hown m (hsub hm)
    exact handle_collects hl ((Silenced.init id).run l) hv e.2 hown hh hb

variable (S R) in
/-- A replica that has processed timeouts of a quorum for view `v` is past it, in whatever order
and with whatever else they came, if all view signatures that count are of the sender. -/
theorem timeouts_advance (id : ID) (l : List (Env × Event)) {v : View} (hv : v ≠ 0) (hne : S.replicas.Nonempty)
    (hh : (run S R (init S id) l).halted = false) (hb : (run S R (init S id) l).Bounded)
    (hown : ∀ m ∈ processed S R id l, m.view = v → m.Valid S → m.Own)
    {Q : Finset ID} (hq : S.quorum ≤ Q.card)
    (hQ : ∀ i ∈ Q, ∃ m ∈ processed S R id l, m.view = v ∧ m.id = i ∧ m.Valid S) :
    v < (run S R (init S id) l).currentView := by
  rcases run_collects id hv hne l hh hb hown with hlt | ⟨hw,hfew⟩
  · exact hlt
  · exfalso
    have hsub : Q ⊆ (((run S R (init S id) l).timeouts.filter (fun t => t.view = v)).map TimeoutMsg.id).toFinset := by
      intro i hi
      obtain ⟨m,hm,hmv,rfl,hval⟩ := hQ i hi
      obtain ⟨t,ht,htv,hid⟩ := hw.kept m hm hmv hval
      exact List.mem_toFinset.mpr (List.mem_map.mpr ⟨t,List.mem_filter.mpr ⟨ht,decide_eq_true htv⟩,hid⟩)
    have hcard := (Finset.card_le_card hsub).trans (List.toFinset_card_le _)
    rw [List.length_map] at hcard
    omega

end Replica

namespace Sample
open Replica

private def timeoutFrom (sender signer : ID) : TimeoutMsg :=
  ⟨sender,1,some (.ecdsa ⟨signer.toNat,(View.toHash 1).toNat,signer⟩),none,{ qc := some (genesisQC 0) }⟩

private def timeoutRun (l : List TimeoutMsg) : List (Env × Event) := l.map fun m => (env 1 [],.timeout m)

private def silent : Effect → Bool
  | .sendTimeout _ => false
  | .viewChange _ v _ => v ≠ View.last
  | _ => true

private theorem timeoutRun_silent {l : List TimeoutMsg}
    (h : (run setup .chained (init setup 1) (timeoutRun l)).log.all silent = true) :
    (run setup .chained (init setup 1) (timeoutRun l)).Bounded ∧
      ∀ m, m ∈ processed setup .chained 1 (timeoutRun l) ↔ m ∈ l := by
  rw [List.all_eq_true] at h
  refine ⟨fun before v t hv => by simpa [silent] using h _ hv,fun m => ?_⟩
  have hnone : (run setup .chained (init setup 1) (timeoutRun l)).sentTimeouts = ∅ :=
    Set.eq_empty_iff_forall_notMem.mpr fun m hm => by cases h _ hm
  rw [processed,hnone,Set.union_empty]
  simp [received,timeoutRun]

private theorem each_sent {l : List TimeoutMsg} (hl : [timeoutFrom 2 2,timeoutFrom 3 3,timeoutFrom 4 4] ⊆ l) (i : ID)
    (hi : i ∈ ({2,3,4} : Finset ID)) : ∃ m ∈ l, m.view = 1 ∧ m.id = i ∧ m.Valid setup ∧ m.Own := by
  have hvalid : (timeoutFrom 2 2).Valid setup ∧ (timeoutFrom 3 3).Valid setup ∧ (timeoutFrom 4 4).Valid setup := by
    unfold TimeoutMsg.Valid
    decide +kernel
  simp only [Finset.mem_insert,Finset.mem_singleton] at hi
  rcases hi with rfl | rfl | rfl
  · exact ⟨timeoutFrom 2 2,hl (by simp),rfl,rfl,hvalid.1,rfl⟩
  · exact ⟨timeoutFrom 3 3,hl (by simp),rfl,rfl,hvalid.2.1,rfl⟩
  · exact ⟨timeoutFrom 4 4,hl (by simp),rfl,rfl,hvalid.2.2,rfl⟩

theorem timeouts_advance_three : ∃ l : List (Env × Event), 1 < (run setup .chained (init setup 1) l).currentView := by
  obtain ⟨hb,hp⟩ := timeoutRun_silent (l := [timeoutFrom 2 2,timeoutFrom 3 3,timeoutFrom 4 4]) (by decide +kernel)
  refine ⟨_,timeouts_advance setup .chained 1 _ (v := 1) (by decide) ⟨1,by decide⟩ (by decide +kernel) hb
    (fun m hm _ _ => ?_) (Q := {2,3,4}) (by decide +kernel) fun i hi => ?_⟩
  · rw [hp] at hm
    simp only [List.mem_cons,List.not_mem_nil,or_false] at hm
    rcases hm with rfl | rfl | rfl <;> rfl
  · obtain ⟨m,hm,hv,hid,hval,-⟩ := each_sent (fun _ h => h) i hi
    exact ⟨m,(hp m).mpr hm,hv,hid,hval⟩

/-- Replica 4 first sends the view signature of replica 2 under its own ID: then three proper timeouts do not
take replica 1 out of view 1. -/
theorem timeouts_not_counted : ∃ (l : List (Env × Event)) (Q : Finset ID),
    (run setup .chained (init setup 1) l).halted = false ∧ (run setup .chained (init setup 1) l).Bounded ∧
    setup.quorum ≤ Q.card ∧
    (∀ i ∈ Q, ∃ m ∈ processed setup .chained 1 l, m.view = 1 ∧ m.id = i ∧ m.Valid setup ∧ m.Own) ∧
    (∀ m ∈ processed setup .chained 1 l, m.id ≠ 4 → m.Own) ∧
    (run setup .chained (init setup 1) l).currentView = 1 := by
  obtain ⟨hb,hp⟩ := timeoutRun_silent (l := [timeoutFrom 4 2,timeoutFrom 2 2,timeoutFrom 3 3,timeoutFrom 4 4])
    (by decide +kernel)
  refine ⟨_,{2,3,4},by decide +kernel,hb,by decide +kernel,fun i hi => ?_,fun m hm h4 => ?_,by decide +kernel⟩
  · obtain ⟨m,hm,hrest⟩ := each_sent (List.subset_cons_self _ _) i hi
    exact ⟨m,(hp m).mpr hm,hrest⟩
  · rw [hp] at hm
    simp only [List.mem_cons,List.not_mem_nil,or_false] at hm
    rcases hm with rfl | rfl | rfl | rfl
    · exact absurd rfl h4
    all_goals rfl

end Sample
end Hotstuff
