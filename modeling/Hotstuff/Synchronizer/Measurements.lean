import Hotstuff.Replica.Rows
import Hotstuff.Synchronizer.ViewDuration

/-! When the synchronizer tells its view duration that a view has succeeded. `AdvanceView` does so before it compares
the certificate's view, so that only certificates that are not old measure each view once. In the log a view change
stands for the call of `ViewStarted`. -/
namespace Hotstuff
namespace Replica

section Calls
variable (S : Setup) (R : RuleSet) (env : Env)

/-- `AdvanceView` on `si'` in state `t` is called by `AdvanceView` on `si` in state `s`, or is this call itself. -/
def AdvanceViewCallsWith (onProposeCalls : ProposeMsg → Replica → SyncInfo → Replica → Prop) (si : SyncInfo)
    (s : Replica) (si' : SyncInfo) (t : Replica) : Prop :=
  (si' = si ∧ t = s) ∨ ∃ u p w, Calls S env si s u ∧ Broadcasts S R env si u p w ∧ onProposeCalls p w si' t

def OnProposeCalls : Nat → ProposeMsg → Replica → SyncInfo → Replica → Prop
  | 0, _, _, _, _ => False
  | k+1, p, s, si, t => checkCerts S R env p s.now = some true ∧ (judge S R env p s).halted = false ∧
      AdvanceViewCallsWith S R env (OnProposeCalls k) { qc := some p.block.cert } (judge S R env p s) si t

def AdvanceViewCalls (k : Nat) : SyncInfo → Replica → SyncInfo → Replica → Prop :=
  AdvanceViewCallsWith S R env (OnProposeCalls S R env k)

/-- `OnRemoteTimeout` calls it with the sender's SyncInfo, and once more if a timeout certificate can be made. -/
def OnRemoteTimeoutCalls (m : TimeoutMsg) (s : Replica) (si : SyncInfo) (t : Replica) : Prop :=
  S.verify m.viewSignature (View.toHash m.view) = true ∧
  (AdvanceViewCalls S R env env.fuel m.syncInfo s si t ∨
    ∃ u tc, u = (advanceView S R env env.fuel m.syncInfo s).keepTimeout m ∧
      (advanceView S R env env.fuel m.syncInfo s).halted = false ∧
      S.quorum ≤ (collected env m.view u).length ∧ S.createTimeoutCert m.view (collected env m.view u) = .ok tc ∧
      AdvanceViewCalls S R env env.fuel (collectedInfo S R env tc m.view u) (u.tick.dropTimeouts m.view) si t)

def signedTimeout (s : Replica) : Option TimeoutMsg × Replica :=
  match sign env (.signView s.currentView) (View.toHash s.currentView) (s.emit .viewTimeout) with
  | (none,s) => (none,s)
  | (some sig,s) =>
    let m : TimeoutMsg := ⟨s.id,s.currentView,some (.ecdsa sig),none,s.syncInfo⟩
    if R.useAggQC then match sign env (.signTimeout m) (m.hash S) s with
      | (none,s) => (none,s)
      | (some sig,s) => (some { m with msgSignature := some (.ecdsa sig) },s)
    else (some m,s)

/-- `AdvanceView` on `si` in state `t` is called while a replica in state `s` handles the event. -/
def Called (ev : Event) (s : Replica) (si : SyncInfo) (t : Replica) : Prop :=
  s.halted = false ∧ match ev with
    | .start => s.currentView = 1 ∧ env.leader s.now s.currentView = s.id ∧
        ∃ p w, Broadcasts S R env s.tick.syncInfo s.tick p w ∧ OnProposeCalls S R env env.fuel p w si t
    | .propose p => OnProposeCalls S R env (env.fuel+1) p s si t
    | .newView m => AdvanceViewCalls S R env env.fuel m.syncInfo s si t
    | .timeout m => OnRemoteTimeoutCalls S R env m s si t
    | .localTimeout => (∀ m, s.lastTimeout = some m → m.view ≠ s.currentView) ∧
        ∃ m u, signedTimeout S R env s = (some m,u) ∧ OnRemoteTimeoutCalls S R env m (u.announced m) si t
    | .vote _ | .verifyCert _ => False

/-- A quorum certificate that is accepted without a timeout certificate is not for a view that has ended. -/
def Current (si : SyncInfo) (t : Replica) : Prop :=
  ∀ qc, si.tc = none → si.qc = some qc → S.verifyQuorumCert qc = true → t.currentView ≤ qc.view

end Calls

/-- In the log, newest first, each success is followed at once by the start of a view, with a certificate that
ends the view before. -/
inductive Timed : List Effect → Prop
  | nil : Timed []
  | cons {e : Effect} {l : List Effect} : e ≠ .viewSucceeded → Timed l → Timed (e :: l)
  | view {before v : View} {l : List Effect} : before ≤ v → Timed l →
      Timed (.viewChange before v false :: .viewSucceeded :: l)

namespace Timed
variable {l l' : List Effect}

theorem of_quiet (h : ∀ e ∈ l, e ≠ .viewSucceeded) : Timed l := by
  induction l with
  | nil => exact .nil
  | cons e l ih =>
    obtain ⟨he,hl⟩ := List.forall_mem_cons.mp h
    exact .cons he (ih hl)

theorem append (h : Timed l) (h' : Timed l') : Timed (l ++ l') := by
  induction h with
  | nil => exact h'
  | cons he _ ih => exact .cons he ih
  | view hle _ ih => exact .view hle ih

theorem started (h : Timed l) {newer older : List Effect} (hl : l = newer ++ .viewSucceeded :: older) :
    ∃ rest before v, newer = rest ++ [.viewChange before v false] ∧ before ≤ v := by
  induction h generalizing newer with
  | nil => simp at hl
  | cons he _ ih =>
    cases newer with
    | nil => exact absurd (List.cons.inj hl).1 he
    | cons e newer =>
      obtain ⟨rest,before,v,rfl,hle⟩ := ih (List.cons.inj hl).2
      exact ⟨e :: rest,before,v,rfl,hle⟩
  | @view before v _ hle _ ih =>
    match newer, hl with
    | [], hl => cases (List.cons.inj hl).1
    | [e], hl => exact ⟨[],before,v,by rw [(List.cons.inj hl).1]; rfl,hle⟩
    | e :: e' :: newer, hl =>
      obtain ⟨rest,before,v,rfl,hle⟩ := ih (List.cons.inj (List.cons.inj hl).2).2
      exact ⟨e :: e' :: rest,before,v,rfl,hle⟩

/-- Between two starts there is at most one success. -/
theorem count_le (h : Timed l) {newer between older : List Effect} {before v before' v' : View} {t t' : Bool}
    (hl : l = newer ++ .viewChange before v t :: (between ++ .viewChange before' v' t' :: older))
    (hno : ∀ before v t, .viewChange before v t ∉ between) : between.count .viewSucceeded ≤ 1 := by
  cases between with
  | nil => simp
  | cons e between =>
    have hrest : Effect.viewSucceeded ∉ between := by
      intro hmem
      obtain ⟨l₁,l₂,rfl⟩ := List.append_of_mem hmem
      have hsplit : l = (newer ++ .viewChange before v t :: e :: l₁) ++ .viewSucceeded ::
          (l₂ ++ .viewChange before' v' t' :: older) := by simp [hl]
      obtain ⟨rest,b,w,hnewer,-⟩ := h.started hsplit
      -- what follows a success comes last in the entries before it
      have hlast : some (l₁.getLast?.getD e) = some (.viewChange b w false) := by
        have hget := congrArg List.getLast? hnewer
        rwa [List.getLast?_append,List.getLast?_cons_cons,List.getLast?_append,List.getLast?_singleton,
          List.getLast?_cons,Option.some_or,Option.some_or] at hget
      have hin : .viewChange b w false ∈ e :: l₁ := by
        rw [← List.getLast?_cons] at hlast
        exact List.mem_of_getLast? hlast
      rw [← List.cons_append] at hno
      exact hno b w false (List.mem_append_left _ hin)
    rw [List.count_cons,List.count_eq_zero.mpr hrest]
    split_ifs <;> omega

end Timed

def Timing (s t : Replica) : Prop := ∃ l, t.log = l ++ s.log ∧ Timed l

namespace Timing
variable {s t u : Replica}

theorem refl (s : Replica) : Timing s s := ⟨[],rfl,.nil⟩

theorem trans (h : Timing s t) (h' : Timing t u) : Timing s u := by
  obtain ⟨l,hl,ht⟩ := h
  obtain ⟨l',hl',ht'⟩ := h'
  exact ⟨l' ++ l,by rw [hl',hl,List.append_assoc],ht'.append ht⟩

theorem of_log_eq (h : t.log = s.log) : Timing s t := ⟨[],h,.nil⟩

theorem emit {e : Effect} (he : e ≠ .viewSucceeded) (s : Replica) : Timing s (s.emit e) := ⟨[e],rfl,.cons he .nil⟩

theorem andThen {f : Replica → Replica} (h : Timing s t) (hf : t.halted = false → Timing t (f t)) :
    Timing s (t.andThen f) :=
  andThen_rec h fun hh => h.trans (hf hh)

end Timing

def quiet : Effect → Bool
  | .viewSucceeded => false
  | _ => true

private theorem ne_of_quiet {e : Effect} (h : quiet e = true) : e ≠ .viewSucceeded := by
  rintro rfl
  cases h

theorem Inner.timing {s t : Replica} (h : Inner quiet s t) : Timing s t := by
  obtain ⟨l,hl,hin⟩ := h.log
  exact ⟨l,hl,.of_quiet fun e he => ne_of_quiet (hin e he).1⟩

variable {S : Setup} {R : RuleSet} {env : Env}

theorem judge_timing (p : ProposeMsg) (s : Replica) : Timing s (judge S R env p s) :=
  ((judges_inner fun e he => by cases e <;> first | rfl | cases he).judge p s).timing

private theorem sends_quiet : Sends S env (Inner quiet) where
  toLooks := looks_inner
  tick := .tick
  store := .store
  proposed _ := .emit rfl (by simp)
  sentPropose _ := .emit rfl (by simp)

theorem broadcast_timing (si : SyncInfo) (s : Replica) : Timing s (broadcast S R env si s) :=
  (sends_quiet.broadcast si s).timing

private theorem updateHighQC_view (qc : QuorumCert) (s : Replica) :
    (updateHighQC S env qc s).currentView = s.currentView :=
  congrArg (fun o => o.2.2.2.2.2.2.1) (updateHighQC_outline (S := S) qc s)

section Advance
variable {si : SyncInfo} {s : Replica}

private theorem entered_timing (v : View) (timeout : Bool) (s : Replica) : Timing s (s.entered v timeout) :=
  ⟨[_],rfl,.cons (by simp) .nil⟩

private theorem enterView_timing {t : Replica} {v : View} {timeout : Bool} (hold : v < t.currentView → Timing s t)
    (hnew : Timing s (t.entered v timeout)) : Timing s (enterView S env (fun _ s => s) si v timeout t) := by
  rw [enterView_eq]
  split_ifs with hv
  · exact hold hv
  · exact hnew
  · exact hnew.trans (.emit (by simp) _)
  · exact hnew

/-- `AdvanceView` up to its call of `Propose`. -/
theorem advance_timing (h : Current S si s) : Timing s (advanceViewWith S env (fun _ s => s) si s) := by
  cases htc : si.tc with
  | some tc =>
    have hlearn : (s.learnTC tc).log = s.log := by
      rw [learnTC]
      split_ifs <;> rfl
    rw [advanceViewWith_tc S env _ htc]
    split_ifs
    · exact .refl s
    · exact enterView_timing (fun _ => .of_log_eq hlearn) ((Timing.of_log_eq hlearn).trans (entered_timing _ _ _))
  | none =>
    cases hqc : si.qc with
    | none =>
      rw [advanceViewWith_none S env _ htc hqc]
      exact enterView_timing (fun _ => .refl s) (entered_timing _ _ _)
    | some qc =>
      have hlog : (updateHighQC S env qc s).log = s.log := updateHighQC_log qc s
      rw [advanceViewWith_qc S env _ htc hqc]
      split_ifs with hv hh
      · exact .refl s
      · exact .of_log_eq hlog
      · have hle : (updateHighQC S env qc s).currentView ≤ qc.view :=
          updateHighQC_view (S := S) qc s ▸ h qc htc hqc (by simpa using hv)
        exact enterView_timing (fun hlt => absurd hlt (UInt64.not_lt.mpr hle))
          ⟨[_,.viewSucceeded],congrArg (_ :: _ :: ·) hlog,.view hle .nil⟩

end Advance

section Handlers
variable {s t : Replica}

private theorem advanceViewWith_timing {onProposeCalls : ProposeMsg → Replica → SyncInfo → Replica → Prop}
    {onPropose : ProposeMsg → Replica → Replica}
    (hon : ∀ p w, (∀ si t, onProposeCalls p w si t → Current S si t) → Timing w (onPropose p w)) (si : SyncInfo)
    (h : ∀ si' t, AdvanceViewCallsWith S R env onProposeCalls si s si' t → Current S si' t) :
    Timing s (advanceViewWith S env (proposeWith S R env onPropose) si s) := by
  have hadv : Timing s (advanceViewWith S env (fun _ s => s) si s) := advance_timing (h si s (.inl ⟨rfl,rfl⟩))
  rcases calls_or_returns S env si s with ⟨u,hu,-⟩ | hret
  · rw [hu] at hadv ⊢
    have hsend : Timing s (broadcast S R env si u) := hadv.trans (broadcast_timing si u)
    rw [broadcast] at hsend
    rcases proposeWith_tail S R env si u with ⟨r,cmd,-,hp⟩ | ⟨w,-,hp⟩
    · rw [hp] at hsend ⊢
      exact hsend.trans (hon _ _ fun si' t hcall => h si' t (.inr ⟨u,_,_,hu,hp,hcall⟩))
    · rwa [hp] at hsend ⊢
  · rwa [hret _ (fun _ s => s)]

theorem onPropose_timing (k : Nat) (p : ProposeMsg) (s : Replica)
    (h : ∀ si t, OnProposeCalls S R env k p s si t → Current S si t) : Timing s (onPropose S R env k p s) := by
  induction k generalizing p s with
  | zero => exact .of_log_eq rfl
  | succ k ih =>
    have hjudge : Timing s (judge S R env p s) := judge_timing p s
    rw [onPropose]
    rcases onProposeWith_tail S R env p s with ⟨hc,hj,hp⟩ | ⟨-,hp⟩
    · rw [hp]
      exact hjudge.trans (advanceViewWith_timing ih _ fun si t hcall => h si t ⟨hc,hj,hcall⟩)
    · rwa [hp]

theorem advanceView_timing (si : SyncInfo) {k : Nat}
    (h : ∀ si' t, AdvanceViewCalls S R env k si s si' t → Current S si' t) :
    Timing s (advanceView S R env k si s) := advanceViewWith_timing (onPropose_timing k) si h

private theorem keepTimeout_log (m : TimeoutMsg) (s : Replica) : (s.keepTimeout m).log = s.log := by
  rw [keepTimeout]
  split_ifs <;> rfl

private theorem collectTimeout_short {m : TimeoutMsg}
    (h : (collected env m.view (s.keepTimeout m)).length < S.quorum) :
    collectTimeout S R env m s = (s.keepTimeout m).tick := by
  unfold collectTimeout collectTimeoutWith
  dsimp only
  rw [← keepTimeout]
  exact if_pos h

theorem onRemoteTimeout_timing (m : TimeoutMsg) (s : Replica)
    (h : ∀ si t, OnRemoteTimeoutCalls S R env m s si t → Current S si t) : Timing s (onRemoteTimeout S R env m s) := by
  rw [onRemoteTimeout_def]
  refine Timing.andThen ?_ fun _ => .of_log_eq rfl
  split_ifs with hv
  · exact .refl s
  rw [Bool.not_eq_false] at hv
  refine (advanceView_timing _ fun si t hcall => h si t ⟨hv,.inl hcall⟩).andThen fun hh => ?_
  set u := advanceView S R env env.fuel m.syncInfo s
  have hkeep : Timing u (u.keepTimeout m).tick := .of_log_eq (keepTimeout_log m u)
  by_cases hq : (collected env m.view (u.keepTimeout m)).length < S.quorum
  · rwa [collectTimeout_short hq]
  rcases collectTimeout_cases S R env m u with ⟨he,-⟩ | ⟨tc,htc,he⟩
  · rwa [he]
  · rw [he]
    exact (Timing.of_log_eq (t := (u.keepTimeout m).tick.dropTimeouts m.view) (keepTimeout_log m u)).trans
      (advanceView_timing _ fun si t hcall => h si t ⟨hv,.inr ⟨_,tc,rfl,hh,not_lt.mp hq,htc,hcall⟩⟩)

private theorem newTimeout_eq (s : Replica) : newTimeout S R env s =
    match signedTimeout S R env s with
    | (none,t) => t
    | (some m,t) => onRemoteTimeout S R env m (t.announced m) := by
  unfold newTimeout newTimeoutWith signedTimeout
  rcases sign env (.signView s.currentView) (View.toHash s.currentView) (s.emit .viewTimeout) with ⟨_ | sig,t⟩
  · rfl
  dsimp only
  split_ifs
  · rcases sign env _ _ t with ⟨_ | sig',t'⟩ <;> rfl
  · rfl

private theorem sign_timing {e : Effect} (he : e ≠ .viewSucceeded) (h : Hash) (s : Replica) :
    Timing s (sign env e h s).2 := by
  rw [sign]
  split
  · exact .emit he s
  · exact .of_log_eq rfl

private theorem signedTimeout_timing (s : Replica) : Timing s (signedTimeout S R env s).2 := by
  have hview : Timing s
      (sign env (.signView s.currentView) (View.toHash s.currentView) (s.emit .viewTimeout)).2 :=
    (Timing.emit (by simp) s).trans (sign_timing (by simp) _ _)
  unfold signedTimeout
  rcases hs : sign env (.signView s.currentView) (View.toHash s.currentView) (s.emit .viewTimeout) with ⟨_ | sig,t⟩
  · rwa [hs] at hview
  rw [hs] at hview
  dsimp only
  split_ifs
  · generalize (⟨t.id,t.currentView,some (.ecdsa sig),none,t.syncInfo⟩ : TimeoutMsg) = m
    have hmsg : Timing t (sign env (.signTimeout m) (m.hash S) t).2 := sign_timing (by simp) _ t
    rcases hs' : sign env (.signTimeout m) (m.hash S) t with ⟨_ | sig',t'⟩
    · rw [hs'] at hmsg
      exact hview.trans hmsg
    · rw [hs'] at hmsg
      exact hview.trans hmsg
  · exact hview

theorem onLocalTimeout_timing (s : Replica) (h : (∀ m, s.lastTimeout = some m → m.view ≠ s.currentView) →
      ∀ m u, signedTimeout S R env s = (some m,u) →
        ∀ si t, OnRemoteTimeoutCalls S R env m (u.announced m) si t → Current S si t) :
    Timing s (onLocalTimeout S R env s) := by
  have hnew (hlast : ∀ m, s.lastTimeout = some m → m.view ≠ s.currentView) : Timing s (newTimeout S R env s) := by
    have hsigned : Timing s (signedTimeout S R env s).2 := signedTimeout_timing s
    rw [newTimeout_eq]
    rcases hs : signedTimeout S R env s with ⟨_ | m,u⟩
    · rwa [hs] at hsigned
    · rw [hs] at hsigned
      have hsent : Timing s (u.announced m) := hsigned.trans (.emit (e := .sendTimeout m) (by simp) u)
      exact hsent.trans (onRemoteTimeout_timing m _ (h hlast m u hs))
  rw [onLocalTimeout,onLocalTimeoutWith]
  cases hlast : s.lastTimeout with
  | none => exact hnew (by simp [hlast])
  | some m =>
    dsimp only
    split_ifs with hv
    · exact .emit (by simp) s
    · exact hnew fun m' hm' => by cases hlast.symm.trans hm'; exact hv

private theorem start_timing (s : Replica) (h : s.currentView = 1 → env.leader s.now s.currentView = s.id →
      ∀ p w, Broadcasts S R env s.tick.syncInfo s.tick p w →
        ∀ si t, OnProposeCalls S R env env.fuel p w si t → Current S si t) :
    Timing s (start S R env s) := by
  rw [start,startWith]
  split_ifs with hview
  · dsimp only [getLeader]
    split_ifs with hleader
    · have hsend : Timing s (broadcast S R env s.tick.syncInfo s.tick) :=
        (Timing.of_log_eq (t := s.tick) rfl).trans (broadcast_timing _ _)
      rw [broadcast] at hsend
      rw [propose]
      rcases proposeWith_tail S R env s.tick.syncInfo s.tick with ⟨r,cmd,-,hp⟩ | ⟨w,-,hp⟩
      · rw [hp] at hsend ⊢
        exact hsend.trans (onPropose_timing _ _ _ (h hview hleader _ _ hp))
      · rwa [hp] at hsend ⊢
    · exact .of_log_eq rfl
  · exact .refl s

private theorem beside_timing (h : Beside s t) : Timing s t := by
  obtain ⟨l,hl,hin⟩ := h.log
  refine ⟨l,hl,.of_quiet fun e he => ?_⟩
  rintro rfl
  cases hin _ he

theorem handle_timing (ev : Event) (s : Replica) (h : ∀ si t, Called S R env ev s si t → Current S si t) :
    Timing s (handle S R env ev s) := by
  by_cases hh : s.halted = true
  · rw [handle_halted hh]
    exact .refl s
  have hs : s.halted = false := by simpa using hh
  rw [handle.eq_def,if_neg hh]
  cases ev with
  | start => exact start_timing s fun hv hl p w hp si t hcall => h si t ⟨hs,hv,hl,p,w,hp,hcall⟩
  | propose p => exact onPropose_timing _ p s fun si t hcall => h si t ⟨hs,hcall⟩
  | newView m => exact advanceView_timing _ fun si t hcall => h si t ⟨hs,hcall⟩
  | timeout m => exact onRemoteTimeout_timing m s fun si t hcall => h si t ⟨hs,hcall⟩
  | localTimeout => exact onLocalTimeout_timing s fun hlast m u hu si t hcall => h si t ⟨hs,hlast,m,u,hu,hcall⟩
  | vote m => exact beside_timing (onVote_beside m s)
  | verifyCert k =>
    dsimp only
    split
    · exact beside_timing (verifyCert_beside _ _ _ s)
    · exact .refl s

variable (S R) in
theorem run_timing (s : Replica) (l : List (Env × Event)) (h : ∀ l₁ env ev l₂, l = l₁ ++ (env,ev) :: l₂ →
      ∀ si t, Called S R env ev (run S R s l₁) si t → Current S si t) : Timing s (run S R s l) := by
  induction l generalizing s with
  | nil => exact .refl s
  | cons e l ih =>
    have hfirst : Timing s (handle S R e.1 e.2 s) := handle_timing e.2 s (h [] e.1 e.2 l rfl)
    refine hfirst.trans (ih _ fun l₁ env ev l₂ hl => ?_)
    exact h (e :: l₁) env ev l₂ (congrArg (e :: ·) hl)

end Handlers

/-- With a certificate for a view that has ended `AdvanceView` measures and starts no view. -/
private theorem advanceView_stale {k : Nat} {si : SyncInfo} {t : Replica} (h : ¬ Current S si t)
    (hup : ∀ qc, si.qc = some qc → (updateHighQC S env qc t).halted = false) :
    (advanceView S R env k si t).log = .viewSucceeded :: t.log ∧
      (advanceView S R env k si t).currentView = t.currentView := by
  unfold Current at h
  push Not at h
  obtain ⟨qc,htc,hqc,hv,hlt⟩ := h
  have hview : (updateHighQC S env qc t).currentView = t.currentView := updateHighQC_view qc t
  have hold : qc.view < ((updateHighQC S env qc t).emit .viewSucceeded).currentView := hview.symm ▸ UInt64.not_le.mp hlt
  rw [advanceView,advanceViewWith_qc S env _ htc hqc,if_neg (by simp [hv]),if_neg (by simp [hup qc hqc]),enterView_eq,
    if_pos hold]
  exact ⟨congrArg (_ :: ·) (updateHighQC_log qc t),hview⟩

variable (S R) in
/-- If every quorum certificate with which `AdvanceView` measures is for the current view or a later one, each success
is that of a certificate that ends the current view, and no view is measured twice. A call with another one, if it
returns, is a success that ends no view. -/
theorem views_measured_once (id : ID) (l : List (Env × Event)) :
    ((∀ l₁ env ev l₂, l = l₁ ++ (env,ev) :: l₂ →
        ∀ si t, Called S R env ev (run S R (init S id) l₁) si t → Current S si t) →
      (∀ newer between older before v t before' v' t', (run S R (init S id) l).log =
        newer ++ .viewChange before v t :: (between ++ .viewChange before' v' t' :: older) →
        (∀ before v t, .viewChange before v t ∉ between) → between.count .viewSucceeded ≤ 1) ∧
      ∀ newer older, (run S R (init S id) l).log = newer ++ .viewSucceeded :: older →
        ∃ rest before v, newer = rest ++ [.viewChange before v false] ∧ before ≤ v) ∧
    ∀ l₁ env ev l₂, l = l₁ ++ (env,ev) :: l₂ → ∀ si t, Called S R env ev (run S R (init S id) l₁) si t →
      ¬ Current S si t → (∀ qc, si.qc = some qc → (updateHighQC S env qc t).halted = false) →
      ∀ k, (advanceView S R env k si t).log = .viewSucceeded :: t.log ∧
        (advanceView S R env k si t).currentView = t.currentView := by
  refine ⟨fun h => ?_,fun _ _ _ _ _ _ _ _ hstale hup _ => advanceView_stale hstale hup⟩
  obtain ⟨log,hlog,htimed⟩ := run_timing S R (init S id) l h
  have hnil : (init S id).log = [] := rfl
  rw [hnil,List.append_nil] at hlog
  rw [hlog]
  refine ⟨?_,fun newer older hsplit => htimed.started hsplit⟩
  intro newer between older before v t before' v' t' hsplit hno
  exact htimed.count_le hsplit hno

def durationCall (now : ℤ) : Effect → Option ViewDuration.Call
  | .viewSucceeded => some (.viewSucceeded now)
  | .viewChange _ _ _ => some (.viewStarted now)
  | .viewTimeout => some .viewTimeout
  | _ => none

def durationCalls (clock : Nat → ℤ) : List Effect → List ViewDuration.Call
  | [] => []
  | e :: older => durationCalls clock older ++ (durationCall (clock older.length) e).toList

private theorem durationCall_time (now : ℤ) (e : Effect) :
    (durationCall now e).toList.filterMap ViewDuration.Call.time = [] ∨
      (durationCall now e).toList.filterMap ViewDuration.Call.time = [now] := by
  cases e
  case viewSucceeded | viewChange => exact .inr rfl
  all_goals exact .inl rfl

private theorem mem_durationCall {now t : ℤ} {e : Effect}
    (h : t ∈ (durationCall now e).toList.filterMap ViewDuration.Call.time) : t = now := by
  rcases durationCall_time now e with htime | htime
  · rw [htime] at h
    cases h
  · rw [htime] at h
    exact List.mem_singleton.mp h

private theorem durationCalls_times (clock : Nat → ℤ) (log : List Effect) :
    ∀ t ∈ (durationCalls clock log).filterMap ViewDuration.Call.time, ∃ k < log.length, t = clock k := by
  induction log with
  | nil => simp [durationCalls]
  | cons e older ih =>
    intro t ht
    rw [durationCalls,List.filterMap_append,List.mem_append] at ht
    rcases ht with ht | ht
    · obtain ⟨k,hk,rfl⟩ := ih t ht
      exact ⟨k,Nat.lt_succ_of_lt hk,rfl⟩
    · exact ⟨older.length,Nat.lt_succ_self _,mem_durationCall ht⟩

theorem durationCalls_nonneg {clock : Nat → ℤ} (h : Monotone clock) (log : List Effect) :
    ∀ d ∈ ViewDuration.measured none (durationCalls clock log), 0 ≤ d := by
  refine ViewDuration.measured_nonneg ?_ (by simp)
  induction log with
  | nil => simp [durationCalls]
  | cons e older ih =>
    rw [durationCalls,List.filterMap_append,List.pairwise_append]
    refine ⟨ih,?_,?_⟩
    · rcases durationCall_time (clock older.length) e with htime | htime
      · rw [htime]
        exact .nil
      · rw [htime]
        exact List.pairwise_singleton _ _
    · intro t ht now hnow
      obtain ⟨k,hk,rfl⟩ := durationCalls_times clock older t ht
      rw [mem_durationCall hnow]
      exact h hk.le

/-- Whatever a replica handles, the timeout it sets is defined, not negative and not above the maximum. -/
theorem run_duration_defined (S : Setup) (R : RuleSet) (root : SquareRoot) (id : ID) (l : List (Env × Event))
    {clock : Nat → ℤ} (hclock : Monotone clock) {sampleSize : ℕ} (hs : 1 ≤ sampleSize)
    {startTimeout multiplier : ℚ} (ht : 0 ≤ startTimeout) (hm : 0 ≤ multiplier) (maxTimeout : ℚ) :
    ∃ v t, ViewDuration.run (.new sampleSize startTimeout maxTimeout multiplier)
        (durationCalls clock (run S R (init S id) l).log) = some v ∧
      v.duration root (run S R (init S id) l).currentView.toNat = some t ∧ 0 ≤ t ∧
      (0 < maxTimeout → (t : ℚ) ≤ maxTimeout * 10^6) := by
  have hnonneg := durationCalls_nonneg hclock (run S R (init S id) l).log
  obtain ⟨v,hrun,-,hv⟩ := (ViewDuration.new_sound sampleSize ht hm maxTimeout).run hs hnonneg
  obtain ⟨t,hduration⟩ := hv.duration root hs (run S R (init S id) l).currentView.toNat
  exact ⟨v,t,hrun,hduration⟩

end Replica

namespace Sample
open Replica

private def ended : Nat → SyncInfo
  | 0 => { qc := some (qcOf [2,3,4] (first 1)) }
  | _ => { qc := some (qcOf [2,3,4] (next [2,3,4] (first 1) 2)) }

private def told (l : List Nat) : List (Env × Event) :=
  l.map fun k => (env 1 [first 1,next [2,3,4] (first 1) 2],.newView ⟨4,ended k⟩)

theorem views_measured_once_first : (run setup .chained (init setup 1) (told [0])).log.count .viewSucceeded = 1 ∧
    ∀ newer older, (run setup .chained (init setup 1) (told [0])).log = newer ++ .viewSucceeded :: older →
      ∃ rest before v, newer = rest ++ [.viewChange before v false] ∧ before ≤ v := by
  refine ⟨by decide +kernel,((views_measured_once setup .chained 1 (told [0])).1 ?_).2⟩
  intro l₁ e ev l₂ hl si t hcall
  obtain ⟨rfl,hl⟩ : l₁ = [] ∧ [(e,ev)] = told [0] := by
    have hlen := congrArg List.length hl
    simp only [told,List.length_map,List.length_append,List.length_cons,List.length_nil] at hlen
    rw [List.eq_nil_of_length_eq_zero (show l₁.length = 0 by omega),
      List.eq_nil_of_length_eq_zero (show l₂.length = 0 by omega)] at hl
    exact ⟨List.eq_nil_of_length_eq_zero (by omega),hl.symm⟩
  cases hl
  rcases hcall.2 with ⟨rfl,rfl⟩ | ⟨u,p,w,hu,-⟩
  · rintro qc - ⟨⟩ -
    decide
  · -- another replica leads the next view
    have hpropose : (advanceViewWith setup (env 1 [first 1,next [2,3,4] (first 1) 2]) (fun _ s => s.halt) (ended 0)
        (init setup 1)).halted = false := by decide +kernel
    have hhalt := (congrArg halted (hu fun _ s => s.halt)).symm.trans hpropose
    cases hhalt

/-- The certificate of view 1 comes twice before that of view 2. Between the starts of views 2 and 3 there are two
successes, the first of them with a certificate for a view that has ended. -/
theorem view_measured_twice : ∃ (l : List (Env × Event)) (newer between older : List Effect),
    (run setup .chained (init setup 1) l).log =
      newer ++ .viewChange 2 2 false :: (between ++ .viewChange 1 1 false :: older) ∧
    (∀ before v t, .viewChange before v t ∉ between) ∧ between.count .viewSucceeded = 2 := by
  refine ⟨told [0,0,1],[.sendNewView 4 (ended 1)],[.viewSucceeded,.viewSucceeded,.sendNewView 4 (ended 0)],
    [.viewSucceeded],by decide +kernel,by simp,by decide⟩

end Sample
end Hotstuff
