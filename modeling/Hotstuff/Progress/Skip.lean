import Hotstuff.Progress.Run
import Hotstuff.Progress.Timeout

/-! Runs in which some leaders are down or never propose: their views are left with a timeout certificate, and the blocks
of the other views are executed all the same. -/
namespace Hotstuff
open Replica

/-- How a view without a proposal is left. The timer of `front` expires first, and its timeout shows the newest
certificate to the others; then their timers expire, and the other timeouts are exchanged in some order. -/
structure Recovery where
  front : ID
  others : List ID
  exchange : List (ID × ID)

namespace System
variable (S : Setup) (R : RuleSet) (envs : ID → Env) (G : Finset ID)

def timeoutsFor (exchange : List (ID × ID)) (σ : System) : List (ID × TimeoutMsg) :=
  exchange.filterMap fun e => (σ e.2).lastTimeoutSent.map fun m => (e.1,m)

def dispatch (ms : List (ID × TimeoutMsg)) (σ : System) : System :=
  ms.foldl (fun σ e => act S R envs e.1 (.timeout e.2) σ) σ

def skipView (r : Recovery) (σ : System) : System :=
  let σ := act S R envs r.front .localTimeout σ
  match (σ r.front).lastTimeoutSent with
  | none => σ
  | some m =>
    let σ := deliver S R envs r.others (.timeout m) σ
    let σ := deliver S R envs r.others .localTimeout σ
    dispatch S R envs (timeoutsFor r.exchange σ) σ

variable {S R envs G}

/-- What becomes of a replica depends only on what is addressed to it. -/
theorem dispatch_eq (ms : List (ID × TimeoutMsg)) (σ : System) (i : ID) : dispatch S R envs ms σ i =
    ((ms.filter fun e => e.1 = i).map Prod.snd).foldl (fun s m => handle S R (envs i) (.timeout m) s) (σ i) := by
  induction ms generalizing σ with
  | nil => rfl
  | cons e ms ih =>
    change dispatch S R envs ms (act S R envs e.1 (.timeout e.2) σ) i = _
    rw [ih]
    by_cases he : e.1 = i
    · subst he
      rw [act_self,List.filter_cons_of_pos (by simp)]
      rfl
    · rw [act_of_ne (Ne.symm he),List.filter_cons_of_neg (by simpa using he)]

theorem later_dispatch (ms : List (ID × TimeoutMsg)) (σ : System) : Later σ (dispatch S R envs ms σ) := by
  induction ms generalizing σ with
  | nil => exact .refl σ
  | cons e ms ih => exact (later_act _ _ σ).trans (ih _)

theorem later_skipView (r : Recovery) (σ : System) : Later σ (skipView S R envs r σ) := by
  rw [skipView]
  split
  · exact later_act _ _ σ
  · exact (later_act _ _ σ).trans ((later_deliver _ _ _).trans ((later_deliver _ _ _).trans (later_dispatch _ _)))

end System

structure Recovery.Fits (G : Finset ID) (r : Recovery) : Prop where
  front_mem : r.front ∈ G
  others_nodup : r.others.Nodup
  mem_others : ∀ i, i ∈ r.others ↔ i ∈ G ∧ i ≠ r.front
  exchange_nodup : r.exchange.Nodup
  mem_exchange : ∀ i j, (i,j) ∈ r.exchange ↔ i ∈ G ∧ j ∈ G ∧ i ≠ j ∧ j ≠ r.front

/-- Nothing is proposed in view `v`. `front` is in that view; everyone that is up has seen the block `b` on top of the
chain `l`, and either its certificate too or only the vote for it. -/
structure Stalled (S : Setup) (R : RuleSet) (G : Finset ID) (v : View) (b : Block) (l : List Block) (front : ID)
    (σ : System) : Prop where
  lineage : Lineage S (b :: l)
  above : b.view < v
  first : Idle S R v b l front (σ front)
  others : ∀ i ∈ G, i ≠ front → Idle S R v b l i (σ i) ∨ v = b.view + 1 ∧ Follows S R (b :: l) (σ i) ∧ (σ i).id = i ∧
    (σ i).currentView ≤ b.view ∧ (σ i).lastVote ≤ b.view

section SkipView
variable {S : Setup} {R : RuleSet} {leaders : View → ID} {envs : ID → Env} {G A : Finset ID} {v : View} {b : Block}
  {l : List Block} {σ : System} {r : Recovery}

/-- The timeouts that a replica gets are those of the senders in their order. -/
private theorem timeoutsFor_senders (exchange : List (ID × ID))
    (h : ∀ e ∈ exchange, ∃ m : TimeoutMsg, m.Carries S v b e.2 ∧ (σ e.2).lastTimeoutSent = some m) (i : ID) :
    (((System.timeoutsFor exchange σ).filter fun e => e.1 = i).map Prod.snd).map TimeoutMsg.id =
        (exchange.filter fun e => e.1 = i).map Prod.snd ∧
      ∀ m ∈ ((System.timeoutsFor exchange σ).filter fun e => e.1 = i).map Prod.snd, m.Carries S v b m.id := by
  induction exchange with
  | nil => exact ⟨rfl,by simp [System.timeoutsFor]⟩
  | cons e exchange ih =>
    obtain ⟨⟨m,hm,hsent⟩,hrest⟩ := List.forall_mem_cons.mp h
    obtain ⟨hids,hall⟩ := ih hrest
    have hcons : System.timeoutsFor (e :: exchange) σ = (e.1,m) :: System.timeoutsFor exchange σ := by
      rw [System.timeoutsFor,List.filterMap_cons_some (b := (e.1,m)) (by rw [hsent]; rfl)]
      rfl
    rw [hcons]
    by_cases he : e.1 = i
    · rw [List.filter_cons_of_pos (by simpa using he),List.filter_cons_of_pos (by simpa using he),List.map_cons,List.map_cons,
        List.map_cons,hids]
      exact ⟨by rw [hm.id],List.forall_mem_cons.mpr ⟨hm.id ▸ hm,hall⟩⟩
    · rw [List.filter_cons_of_neg (by simpa using he),List.filter_cons_of_neg (by simpa using he)]
      exact ⟨hids,hall⟩

def Recovery.held (r : Recovery) (i : ID) : List ID := if i = r.front then [r.front] else [r.front,i]

def Recovery.senders (r : Recovery) (i : ID) : List ID := (r.exchange.filter fun e => e.1 = i).map Prod.snd

namespace Recovery

theorem mem_senders {i j : ID} : j ∈ r.senders i ↔ (i,j) ∈ r.exchange := by
  simp [senders]

theorem Fits.nodup (h : r.Fits G) {i : ID} (hi : i ∈ G) : (r.held i ++ r.senders i).Nodup := by
  rw [List.nodup_append]
  refine ⟨?_,?_,?_⟩
  · rw [held]
    split_ifs with hif
    · exact List.nodup_singleton _
    · simpa using Ne.symm hif
  · refine List.Nodup.map_on (fun e he f hf hef => ?_) (h.exchange_nodup.filter _)
    exact Prod.ext ((of_decide_eq_true (List.mem_filter.mp he).2).trans (of_decide_eq_true (List.mem_filter.mp hf).2).symm) hef
  · rintro j hj k hk rfl
    obtain ⟨-,-,hij,hjf⟩ := (h.mem_exchange i j).mp (mem_senders.mp hk)
    rw [held] at hj
    split_ifs at hj with hif
    · exact hjf (List.mem_singleton.mp hj)
    · rcases List.mem_pair.mp hj with rfl | rfl
      · exact hjf rfl
      · exact hij rfl

theorem Fits.card_le (h : r.Fits G) {i : ID} (hi : i ∈ G) : G.card ≤ (r.held i).length + (r.senders i).length := by
  rw [← List.length_append,← List.toFinset_card_of_nodup (h.nodup hi)]
  refine Finset.card_le_card fun j hj => ?_
  rw [List.mem_toFinset,List.mem_append]
  by_cases hjf : j = r.front
  · left
    rw [held]
    split_ifs <;> simp [hjf]
  by_cases hij : i = j
  · left
    rw [held,hij,if_neg hjf]
    simp
  · exact .inr (mem_senders.mpr ((h.mem_exchange i j).mpr ⟨hi,hj,hij,hjf⟩))

end Recovery

private structure Pending (S : Setup) (R : RuleSet) (v : View) (b : Block) (l : List Block) (js : List ID) (i : ID)
    (s : Replica) : Prop where
  waits : Waits S R v b l js s
  id : s.id = i
  sent : ∃ m : TimeoutMsg, m.Carries S v b i ∧ s.lastTimeoutSent = some m

private theorem Pending.of_localTimeout {js : List ID} {i : ID} {s : Replica} (h : Waits S R v b l js s) (hid : s.id = i)
    (hlast : s.lastTimeout = none) (hR : R.useAggQC = false) (he : (envs i).Cooperates S leaders i) (hlt : b.view < v)
    (hnew : i ∉ js) (hq : js.length + 1 < S.quorum) :
    Pending S R v b l (js ++ [i]) i (handle S R (envs i) .localTimeout s) := by
  subst hid
  have hhandle : handle S R (envs s.id) .localTimeout s = onLocalTimeout S R (envs s.id) s := if_neg (by simp [h.knows.halted])
  obtain ⟨hw,hid,hsent⟩ := h.localTimeout hR he hlt hlast hnew hq
  rw [hhandle]
  exact ⟨hw,hid,hsent⟩

/-- Before the exchange everyone has the timeout of the first replica and its own. -/
private theorem Stalled.pending (h : Stalled S R G v b l r.front σ) (hs : Service S leaders envs G A) (hR : R.useAggQC = false)
    (hdown : leaders v ∉ A) (hr : r.Fits G) (hq : 3 ≤ S.quorum) (hsucc : v < v + 1) :
    ∃ σ', System.Later σ σ' ∧
      System.skipView S R envs r σ = System.dispatch S R envs (System.timeoutsFor r.exchange σ') σ' ∧
      ∀ i ∈ G, Pending S R v b l (r.held i) i (σ' i) := by
  have hcoop (i : ID) (hi : i ∈ G) := hs.cooperates i hi
  have hfirst : Pending S R v b l [r.front] r.front (System.act S R envs r.front .localTimeout σ r.front) := by
    rw [System.act_self]
    exact .of_localTimeout h.first.waits h.first.id h.first.follows.calm.lastTimeout hR (hcoop _ hr.front_mem) h.above
      List.not_mem_nil (by simp; omega)
  obtain ⟨m,hm,hsent⟩ := hfirst.sent
  set σ₁ := System.act S R envs r.front .localTimeout σ with hσ₁
  refine ⟨System.deliver S R envs r.others .localTimeout (System.deliver S R envs r.others (.timeout m) σ₁),?_,?_,?_⟩
  · exact (System.later_act _ _ _).trans ((System.later_deliver _ _ _).trans (System.later_deliver _ _ _))
  · rw [System.skipView,← hσ₁,hsent]
  intro i hi
  rw [System.deliver_eq hr.others_nodup,System.deliver_eq hr.others_nodup,Recovery.held]
  by_cases hif : i = r.front
  · have hnot : i ∉ r.others := fun ho => ((hr.mem_others i).mp ho).2 hif
    rw [if_neg hnot,if_neg hnot,if_pos hif,hif]
    exact hfirst
  · have ho : i ∈ r.others := (hr.mem_others i).mpr ⟨hi,hif⟩
    rw [if_pos ho,if_pos ho,if_neg hif,hσ₁,System.act_of_ne hif]
    -- the timeout of the first replica arrives, in this view or the one before
    have hgot : Waits S R v b l [r.front] (handle S R (envs i) (.timeout m) (σ i)) ∧
        (handle S R (envs i) (.timeout m) (σ i)).id = i ∧ (handle S R (envs i) (.timeout m) (σ i)).lastTimeout = none := by
      rcases h.others i hi hif with hidle | ⟨rfl,hfol,hid,hcur,hvote⟩
      · have hhandle : handle S R (envs i) (.timeout m) (σ i) = onRemoteTimeout S R (envs i) m (σ i) :=
          if_neg (by simp [hidle.follows.knows.halted])
        obtain ⟨hw,hid,hlast,-⟩ := hidle.waits.more (envs i) h.above hm List.not_mem_nil (by simp; omega)
        rw [hhandle]
        exact ⟨hw,hid.trans hidle.id,hlast.trans hidle.follows.calm.lastTimeout⟩
      · have hhandle : handle S R (envs i) (.timeout m) (σ i) = onRemoteTimeout S R (envs i) m (σ i) :=
          if_neg (by simp [hfol.knows.halted])
        have hmute : leaders (b.view + 1) = (σ i).id → (envs i).Silent := fun he =>
          hs.silent i hi fun hA => hdown (by rwa [he,hid])
        have he : (envs i).Cooperates S leaders (σ i).id := by
          rw [hid]
          exact hcoop i hi
        obtain ⟨hw,hid',hlast⟩ := hfol.catchUp h.lineage he hmute (hs.leaders_mem _) hcur hvote h.above hm
          (by omega)
        rw [hhandle]
        exact ⟨hw,hid'.trans hid,hlast⟩
    obtain ⟨hw,hid,hlast⟩ := hgot
    exact .of_localTimeout hw hid hlast hR (hcoop i hi) h.above (by simpa using hif) (by simp; omega)

/-- A view without a proposal: everyone leaves it with a timeout certificate and ends up in the next view, whose leader,
if it has a command, has made a block on top of the newest one. -/
private theorem Stalled.moved (h : Stalled S R G v b l r.front σ) (hs : Service S leaders envs G A) (hR : R.useAggQC = false)
    (hdown : leaders v ∉ A) (hr : r.Fits G) (hq : 3 ≤ S.quorum) (hG : S.quorum ≤ G.card) (hsucc : v < v + 1)
    (hfuel : ∀ i ∈ G, l.length + 2 < (envs i).fuel) {i : ID} (hi : i ∈ G) :
    ((leaders (v + 1) = i → i ∉ A) → Idle S R (v + 1) b l i (System.skipView S R envs r σ i)) ∧
      (leaders (v + 1) = i → i ∈ A → (∃ b', Offers S R (envs i) (v + 1) b l b' (System.skipView S R envs r σ i)) ∧
        (System.skipView S R envs r σ i).id = i) ∧ .viewChange v v true ∈ (System.skipView S R envs r σ i).log := by
  obtain ⟨σ',-,hskip,hpending⟩ := h.pending hs hR hdown hr hq hsucc
  obtain ⟨hids,hall⟩ := timeoutsFor_senders r.exchange (σ := σ')
    (fun e he => (hpending e.2 ((hr.mem_exchange e.1 e.2).mp he).2.1).sent) i
  obtain ⟨hw,hid,-⟩ := hpending i hi
  have hheld : (r.held i).length ≤ 2 := by
    rw [Recovery.held]
    split_ifs <;> simp
  have hlen := congrArg List.length hids
  rw [List.length_map] at hlen
  have hcard : G.card ≤ (r.held i).length + (r.senders i).length := hr.card_le hi
  rw [hskip,System.dispatch_eq]
  have hcoop : (envs i).Cooperates S leaders (σ' i).id := hid.symm ▸ hs.cooperates i hi
  have hend := hw.quorum hR hcoop (hid.symm ▸ hs.members hi) h.above hsucc hall (hids ▸ hr.nodup hi) (by omega)
    (hlen ▸ hG.trans hcard) (by omega) (hfuel i hi)
  rw [hid] at hend
  exact ⟨fun hmute => hend.1 fun he => hs.silent i hi (hmute he),fun he hA => hend.2.1 he (hs.supplied i hA),hend.2.2⟩

theorem Stalled.known {front i : ID} (h : Stalled S R G v b l front σ) (hi : i ∈ G) {x : Block} (hx : x ∈ b :: l) :
    (x.hash S,x) ∈ (σ i).blocks := by
  have hfol : Follows S R (b :: l) (σ i) := by
    by_cases hif : i = front
    · rw [hif]
      exact h.first.follows
    · rcases h.others i hi hif with hidle | ⟨-,hfol,-⟩
      · exact hidle.follows
      · exact hfol
  exact localGet_mem (hfol.knows.stored x hx)

/-- After a view without a proposal the next leader proposes, if it has a command. -/
theorem Stalled.poised (h : Stalled S R G v b l r.front σ) (hs : Service S leaders envs G A) (hR : R.useAggQC = false)
    (hdown : leaders v ∉ A) (hr : r.Fits G) (hq : 3 ≤ S.quorum) (hG : S.quorum ≤ G.card) (hsucc : v < v + 1)
    (hfuel : ∀ i ∈ G, l.length + 2 < (envs i).fuel) (hnext : leaders (v + 1) ∈ A)
    (hd : Distinct S G (System.skipView S R envs r σ)) :
    ∃ b' : Block, b'.view = v + 1 ∧ b'.Served leaders envs ∧
      Poised S R leaders envs G ⟨leaders b'.view,b',none⟩ b l (System.skipView S R envs r σ) := by
  have hb : b.view < v + 1 := UInt64.lt_trans h.above hsucc
  have hup := hs.speakers hnext
  obtain ⟨⟨b',hoffers⟩,hid⟩ := (h.moved hs hR hdown hr hq hG hsucc hfuel hup).2.1 rfl hnext
  refine ⟨b',hoffers.view,hoffers.poised hid hup h.lineage hd (fun x hx => ?_) hb rfl (fun hr => by cases hr; cases hR)
    fun k hk hne => ?_⟩
  · exact (System.later_skipView r σ _).1.mem (h.known hup hx)
  · exact ((h.moved hs hR hdown hr hq hG hsucc hfuel hk).1 fun he => absurd he (Ne.symm hne)).awaits hb

/-- If the next leader does not propose either, the next view stalls as well. -/
theorem Stalled.stalled (h : Stalled S R G v b l r.front σ) (hs : Service S leaders envs G A) (hR : R.useAggQC = false)
    (hdown : leaders v ∉ A) (hr : r.Fits G) (hq : 3 ≤ S.quorum) (hG : S.quorum ≤ G.card) (hsucc : v < v + 1)
    (hfuel : ∀ i ∈ G, l.length + 2 < (envs i).fuel) (hnext : leaders (v + 1) ∉ A) {front : ID} (hf : front ∈ G) :
    Stalled S R G (v + 1) b l front (System.skipView S R envs r σ) := by
  have hidle {i : ID} (hi : i ∈ G) : Idle S R (v + 1) b l i (System.skipView S R envs r σ i) :=
    (h.moved hs hR hdown hr hq hG hsucc hfuel hi).1 fun he => he ▸ hnext
  exact ⟨h.lineage,UInt64.lt_trans h.above hsucc,hidle hf,fun i hi _ => .inl (hidle hi)⟩

/-- After a view with a proposal the next view stalls, if its leader does not propose. -/
theorem Poised.stalled {p : ProposeMsg} {a : Block} {q : Round} (h : Poised S R leaders envs G p a l σ)
    (hs : Service S leaders envs G A) (hq : q.Fits S G (leaders p.block.view)) (hfuel : ∀ i ∈ G, l.length + 2 < (envs i).fuel)
    (hlt : p.block.view < p.block.view + 1) (hnext : leaders (p.block.view + 1) ∉ A) :
    Stalled S R G (p.block.view + 1) p.block (a :: l) (leaders p.block.view)
      (System.liveView S R envs G (leaders p.block.view) q σ) := by
  obtain ⟨qc,σ',hqc,hvoted,hhead,hview⟩ := h.counted hs hq hfuel
  set L := leaders p.block.view with hL
  have hmute (i : ID) : leaders (p.block.view + 1) = i → i ∉ A := fun he => he ▸ hnext
  have hbehind {i : ID} (hi : i ∈ G) : p.block.view + 1 = p.block.view + 1 ∧ Follows S R (p.block :: a :: l) (σ' i) ∧
      (σ' i).id = i ∧ (σ' i).currentView ≤ p.block.view ∧ (σ' i).lastVote ≤ p.block.view :=
    have hv := hvoted i hi
    ⟨rfl,hv.follows,hv.id,hv.currentView,UInt64.le_of_eq hv.lastVote⟩
  obtain ⟨hidle,hout⟩ := (hvoted L h.leader).passes (j := L) hs h.leader h.lineage hqc hlt (hmute L)
  rw [← System.act_self] at hidle hout
  rw [hview,System.passOn,hout]
  by_cases hsame : leaders (p.block.view + 1) = L
  · -- the leader stays in charge, and nobody hears of the certificate
    rw [if_pos hsame,hhead]
    dsimp only
    refine ⟨h.lineage,hlt,hidle,fun i hi hne => .inr ?_⟩
    rw [System.act_of_ne hne]
    exact hbehind hi
  rw [if_neg hsame,List.head?_cons]
  dsimp only
  split_ifs with hup
  · -- the next leader gets the certificate and stays silent
    refine ⟨h.lineage,hlt,?_,fun i hi hne => ?_⟩
    · rw [System.act_of_ne (Ne.symm hsame)]
      exact hidle
    · by_cases hX : i = leaders (p.block.view + 1)
      · left
        rw [← hX,System.act_self,System.act_of_ne hne]
        exact ((hvoted i hi).passes hs hi h.lineage hqc hlt (hmute i)).1
      · right
        rw [System.act_of_ne hX,System.act_of_ne hne]
        exact hbehind hi
  · refine ⟨h.lineage,hlt,hidle,fun i hi hne => .inr ?_⟩
    rw [System.act_of_ne hne]
    exact hbehind hi

end SkipView

namespace System
variable (S : Setup) (R : RuleSet) (envs : ID → Env) (G A : Finset ID) (leaders : View → ID)

/-- All replicas that are up start, and then the given number of views go by. The leader of a view proposes if it is
in `A`. -/
def crashRun (starters : List ID) (rounds : Nat → Round) (recoveries : Nat → Recovery) : Nat → System
  | 0 => deliver S R envs starters .start (init S)
  | k+1 =>
    let σ := crashRun starters rounds recoveries k
    if leaders (UInt64.ofNat (k+1)) ∈ A then liveView S R envs G (leaders (UInt64.ofNat (k+1))) (rounds k) σ
    else skipView S R envs (recoveries k) σ

end System

/-- What the network and the timers do in a run. In a view without a proposal after one with a proposal, the timer
of the leader before is the first to expire. -/
structure Timely (S : Setup) (G A : Finset ID) (leaders : View → ID) (starters : List ID) (rounds : Nat → Round)
    (recoveries : Nat → Recovery) : Prop where
  starters_nodup : starters.Nodup
  mem_starters : ∀ i, i ∈ starters ↔ i ∈ G
  live : ∀ k, leaders (UInt64.ofNat (k+1)) ∈ A → (rounds k).Fits S G (leaders (UInt64.ofNat (k+1)))
  down : ∀ k, leaders (UInt64.ofNat (k+1)) ∉ A → (recoveries k).Fits G
  first : ∀ k, leaders (UInt64.ofNat (k+1)) ∈ A → leaders (UInt64.ofNat (k+2)) ∉ A →
    (recoveries (k+1)).front = leaders (UInt64.ofNat (k+1))

def liveViews (A : Finset ID) (leaders : View → ID) : Nat → List View
  | 0 => []
  | k+1 => if leaders (UInt64.ofNat (k+1)) ∈ A then UInt64.ofNat (k+1) :: liveViews A leaders k else liveViews A leaders k

section Run
variable {S : Setup} {R : RuleSet} {leaders : View → ID} {envs : ID → Env} {G A : Finset ID} {starters : List ID}
  {rounds : Nat → Round} {recoveries : Nat → Recovery}

theorem System.later_crashRun (k : Nat) : Later (crashRun S R envs G A leaders starters rounds recoveries k)
    (crashRun S R envs G A leaders starters rounds recoveries (k+1)) := by
  rw [crashRun]
  split_ifs
  · exact later_liveView _ _ _
  · exact later_skipView _ _

theorem RuleSet.settled_grows (b a : Block) (l : List Block) : R.settled (a :: l) <:+ R.settled (b :: a :: l) := by
  rw [settled.eq_3]
  cases hd : R.decided (b :: a :: l) with
  | none => exact List.suffix_rfl
  | some d => exact settled_suffix_decided hd

/-- What holds between two views: the chain `b :: l` has one block for each view whose leader proposes, and the run
waits for the votes on the next one or for timeouts. -/
structure Reached (S : Setup) (R : RuleSet) (leaders : View → ID) (envs : ID → Env) (G A : Finset ID) (front : ID) (k : Nat)
    (b : Block) (l : List Block) (σ : System) : Prop where
  views : (b :: l).map Block.view = liveViews A leaders k ++ [0]
  served : ∀ x ∈ b :: l, x = genesis ∨ x.Served leaders envs
  length : l.length ≤ k
  live : leaders (UInt64.ofNat (k+1)) ∈ A → ∃ b' : Block, b'.view = UInt64.ofNat (k+1) ∧ b'.Served leaders envs ∧
    Poised S R leaders envs G ⟨leaders b'.view,b',none⟩ b l σ
  down : leaders (UInt64.ofNat (k+1)) ∉ A → Stalled S R G (UInt64.ofNat (k+1)) b l front σ

private theorem ofNat_lt_succ {k : Nat} (hk : k + 2 < 2^64) : UInt64.ofNat (k+1) < UInt64.ofNat (k+1) + 1 := by
  have hsucc : UInt64.ofNat (k+1) + 1 = UInt64.ofNat (k+1+1) := (UInt64.ofNat_add (k+1) 1).symm
  rw [hsucc,UInt64.lt_iff_toNat_lt,UInt64.toNat_ofNat',UInt64.toNat_ofNat']
  omega

private theorem reached_start (hs : Service S leaders envs G A) (hsch : Timely S G A leaders starters rounds recoveries)
    (hne : G.Nonempty) (hfuel : ∀ i ∈ G, 2 < (envs i).fuel)
    (hd : Distinct S G (System.crashRun S R envs G A leaders starters rounds recoveries 0)) :
    Reached S R leaders envs G A (recoveries 0).front 0 genesis []
      (System.crashRun S R envs G A leaders starters rounds recoveries 0) := by
  obtain ⟨i,hi⟩ := hne
  have h0 := hd.genesis (System.later_deliver _ _ _) hi
  refine ⟨rfl,fun x hx => .inl (List.mem_singleton.mp hx),Nat.le_refl _,fun hlead => ?_,fun hdown => ?_⟩
  · exact poised_start hs hsch.starters_nodup hsch.mem_starters hlead hfuel hd
  · have hidle {i : ID} (hi : i ∈ G) :
        Idle S R 1 genesis [] i (System.crashRun S R envs G A leaders starters rounds recoveries 0 i) := by
      have hinit := idle_init (R := R) h0 i
      rw [System.crashRun,System.deliver_start hs hsch.starters_nodup hsch.mem_starters hi]
      split_ifs with he
      · have hsilent := hs.silent i hi (he ▸ hdown : i ∉ A)
        rw [hinit.follows.silent hsilent certifies_genesis rfl]
        exact ⟨hinit.follows.frame rfl,hinit.id,hinit.leaf,hinit.lastVote,hinit.currentView⟩
      · exact hinit
    exact ⟨.genesis h0,show (0 : View) < 1 by decide,hidle (hsch.down 0 hdown).front_mem,fun i hi _ => .inl (hidle hi)⟩

/-- One view, whether its leader proposes or not. -/
private theorem Reached.next {k : Nat} {b : Block} {l : List Block}
    (h : Reached S R leaders envs G A (recoveries k).front k b l
      (System.crashRun S R envs G A leaders starters rounds recoveries k))
    (hs : Service S leaders envs G A) (hR : R.useAggQC = false) (hsch : Timely S G A leaders starters rounds recoveries)
    (hq : 3 ≤ S.quorum) (hG : S.quorum ≤ G.card) (hk : k + 3 < 2^64) (hfuel : ∀ i ∈ G, k + 4 < (envs i).fuel)
    (hd : Distinct S G (System.crashRun S R envs G A leaders starters rounds recoveries (k+1))) :
    ∃ b' l', Reached S R leaders envs G A (recoveries (k+1)).front (k+1) b' l'
      (System.crashRun S R envs G A leaders starters rounds recoveries (k+1)) := by
  have hsucc : UInt64.ofNat (k+1) + 1 = UInt64.ofNat (k+1+1) := (UInt64.ofNat_add (k+1) 1).symm
  have hlt : UInt64.ofNat (k+1) < UInt64.ofNat (k+1) + 1 := ofNat_lt_succ (by omega)
  have hfuel' : ∀ i ∈ G, l.length + 3 < (envs i).fuel := fun i hi => by
    have := hfuel i hi
    have := h.length
    omega
  rw [System.crashRun] at hd ⊢
  by_cases hup : leaders (UInt64.ofNat (k+1)) ∈ A
  · obtain ⟨b',hview,hserved,hpoised⟩ := h.live hup
    rw [if_pos hup,← hview] at hd ⊢
    rw [← hview] at hlt hsucc
    have hfits := hview ▸ hsch.live k hup
    refine ⟨b',b :: l,?_,List.forall_mem_cons.mpr ⟨.inr hserved,h.served⟩,Nat.succ_le_succ h.length,fun hlead => ?_,
      fun hdown => ?_⟩
    · rw [List.map_cons,h.views,hview,liveViews,if_pos hup]
      rfl
    · rw [← hsucc] at hlead ⊢
      exact hpoised.liveView hs hfits hfuel' hlt hlead hd
    · rw [hsch.first k hup hdown,← hview,← hsucc]
      exact hpoised.stalled hs hfits (fun i hi => Nat.lt_of_succ_lt (hfuel' i hi)) hlt (hsucc ▸ hdown)
  · have hstalled := h.down hup
    rw [if_neg hup] at hd ⊢
    have hfits := hsch.down k hup
    have hfuel'' : ∀ i ∈ G, l.length + 2 < (envs i).fuel := fun i hi => Nat.lt_of_succ_lt (hfuel' i hi)
    refine ⟨b,l,?_,h.served,Nat.le_succ_of_le h.length,fun hlead => ?_,fun hdown => ?_⟩
    · rw [h.views,liveViews,if_neg hup]
    · rw [← hsucc] at hlead ⊢
      exact hstalled.poised hs hR hup hfits hq hG hlt hfuel'' hlead hd
    · have hfront := (hsch.down (k+1) hdown).front_mem
      rw [← hsucc] at hdown ⊢
      exact hstalled.stalled hs hR hup hfits hq hG hlt hfuel'' hdown hfront

private theorem crashRun_reached (hs : Service S leaders envs G A) (hR : R.useAggQC = false)
    (hsch : Timely S G A leaders starters rounds recoveries) (hq : 3 ≤ S.quorum) (hne : G.Nonempty)
    (hG : S.quorum ≤ G.card) (k : Nat)
    (hk : k + 2 < 2^64) (hfuel : ∀ i ∈ G, k + 3 < (envs i).fuel)
    (hd : Distinct S G (System.crashRun S R envs G A leaders starters rounds recoveries k)) :
    ∃ b l, Reached S R leaders envs G A (recoveries k).front k b l
      (System.crashRun S R envs G A leaders starters rounds recoveries k) := by
  induction k with
  | zero => exact ⟨genesis,[],reached_start hs hsch hne (fun i hi => Nat.lt_of_succ_lt (hfuel i hi)) hd⟩
  | succ k ih =>
    obtain ⟨b,l,h⟩ := ih (by omega) (fun i hi => Nat.lt_of_succ_lt (hfuel i hi)) (hd.back (System.later_crashRun k))
    exact h.next hs hR hsch hq hG hk hfuel hd

/-- The views whose leader does not propose are left with a timeout certificate. -/
private theorem crashRun_left (hs : Service S leaders envs G A) (hR : R.useAggQC = false)
    (hsch : Timely S G A leaders starters rounds recoveries) (hq : 3 ≤ S.quorum) (hne : G.Nonempty)
    (hG : S.quorum ≤ G.card) (k : Nat)
    (hk : k + 2 < 2^64) (hfuel : ∀ i ∈ G, k + 3 < (envs i).fuel)
    (hd : Distinct S G (System.crashRun S R envs G A leaders starters rounds recoveries k)) {i : ID} (hi : i ∈ G) :
    ∀ j < k, leaders (UInt64.ofNat (j+1)) ∉ A → .viewChange (UInt64.ofNat (j+1)) (UInt64.ofNat (j+1)) true ∈
      (System.crashRun S R envs G A leaders starters rounds recoveries k i).log := by
  induction k with
  | zero => simp
  | succ k ih =>
    intro j hj hdown
    have hd' := hd.back (System.later_crashRun k)
    rcases Nat.lt_succ_iff_lt_or_eq.mp hj with hj | rfl
    · have hold := ih (by omega) (fun i hi => Nat.lt_of_succ_lt (hfuel i hi)) hd' j hj hdown
      exact (System.later_crashRun k i).2.mem hold
    · obtain ⟨b,l,h⟩ := crashRun_reached hs hR hsch hq hne hG j (by omega) (fun i hi => Nat.lt_of_succ_lt (hfuel i hi)) hd'
      have hlen : ∀ i ∈ G, l.length + 2 < (envs i).fuel := fun i hi => by
        have := hfuel i hi
        have := h.length
        omega
      rw [System.crashRun,if_neg hdown]
      exact ((h.down hdown).moved hs hR hdown (hsch.down j hdown) hq hG (ofNat_lt_succ (by omega)) hlen hi).2.2

/-- Everyone that is up has executed what the commit rule decides on the chain. -/
private theorem Reached.executes {front : ID} {k : Nat} {b : Block} {l : List Block} {σ : System}
    (h : Reached S R leaders envs G A front k b l σ) {i : ID} (hi : i ∈ G) :
    (R.settled (b :: l)).dropLast <:+ (σ i).executed := by
  have hfollows (hf : Follows S R (b :: l) (σ i)) : (R.settled (b :: l)).dropLast <:+ (σ i).executed := by
    rw [hf.executes.executed]
  by_cases hup : leaders (UInt64.ofNat (k+1)) ∈ A
  · obtain ⟨b',-,-,hpoised⟩ := h.live hup
    by_cases hlead : i = leaders b'.view
    · subst hlead
      obtain ⟨d,hd⟩ := RuleSet.settled_grows (R := R) b' b l
      rw [hpoised.proposed.follows.executes.executed,← hd,List.dropLast_append_of_ne_nil (RuleSet.settled_ne_nil (by simp))]
      exact List.suffix_append _ _
    · exact hfollows (hpoised.others i hi hlead).follows
  · have hstalled := h.down hup
    by_cases hif : i = front
    · exact hfollows (hif ▸ hstalled.first.follows)
    · rcases hstalled.others i hi hif with hidle | ⟨-,hf,-⟩
      · exact hfollows hidle.follows
      · exact hfollows hf

private theorem Reached.lineage {front : ID} {k : Nat} {b : Block} {l : List Block} {σ : System}
    (h : Reached S R leaders envs G A front k b l σ) : Lineage S (b :: l) := by
  by_cases hup : leaders (UInt64.ofNat (k+1)) ∈ A
  · obtain ⟨b',-,-,hpoised⟩ := h.live hup
    exact hpoised.lineage.tail
  · exact (h.down hup).lineage

end Run

/-- With a quorum of replicas up and the schedule `Timely`, under the two rule sets without aggregates: whichever leaders
are down or never propose, everyone that is up leaves their views with a timeout certificate and executes what the commit
rule decides on the chain of blocks of the other views, of which there is one each. -/
theorem crash_progress (S : Setup) (R : RuleSet) (leaders : View → ID) (envs : ID → Env) (G A : Finset ID)
    (hs : Service S leaders envs G A) (hR : R.useAggQC = false) (hq : 3 ≤ S.quorum) (hG : S.quorum ≤ G.card) {starters : List ID}
    {rounds : Nat → Round} {recoveries : Nat → Recovery} (hsch : Timely S G A leaders starters rounds recoveries) {k : Nat}
    (hk : k + 2 < 2^64) (hfuel : ∀ i ∈ G, k + 3 < (envs i).fuel)
    (hd : Distinct S G (System.crashRun S R envs G A leaders starters rounds recoveries k)) :
    ∃ l : List Block, l.map Block.view = liveViews A leaders k ∧ (∀ b ∈ l, b.Served leaders envs) ∧
      ∀ i ∈ G, (R.settled (l ++ [genesis])).dropLast <:+
          (System.crashRun S R envs G A leaders starters rounds recoveries k i).executed ∧
        ∀ j < k, leaders (UInt64.ofNat (j+1)) ∉ A → .viewChange (UInt64.ofNat (j+1)) (UInt64.ofNat (j+1)) true ∈
          (System.crashRun S R envs G A leaders starters rounds recoveries k i).log := by
  have hne : G.Nonempty := Finset.card_pos.mp (Nat.lt_of_lt_of_le (S.quorum_pos ⟨_,hs.leaders_mem 0⟩) hG)
  obtain ⟨b,l,h⟩ := crashRun_reached hs hR hsch hq hne hG k hk hfuel hd
  have hend := h.lineage.eq_dropLast_append
  refine ⟨(b :: l).dropLast,?_,fun x hx => ?_,fun i hi => ?_⟩
  · rw [List.map_dropLast,h.views,List.dropLast_concat]
  · exact (h.served x (List.mem_of_mem_dropLast hx)).resolve_left (h.lineage.ne_genesis hx)
  · refine ⟨?_,crashRun_left hs hR hsch hq hne hG k hk hfuel hd hi⟩
    rw [← hend]
    exact h.executes hi

namespace Sample

def fullTurn (v : View) : ID := if v % 4 = 0 then 4 else turn (v % 4)

def crashEnv (i : ID) : Env := { busyEnv i with
  leader := fun _ v => fullTurn v
  command := fun n => if i = 2 then none else some [n.toUInt8] }

def fullRecovery (front : ID) : Recovery :=
  ⟨front,[1,2,3].filter (· ≠ front),([3,1,2].product [2,3,1]).filter fun e => e.1 ≠ e.2 ∧ e.2 ≠ front⟩

theorem crashBusy : Service setup fullTurn crashEnv {1,2,3} {1,3} where
  members := by decide
  speakers := by decide
  leaders_mem v := by
    unfold fullTurn
    split_ifs
    · decide
    · exact Finset.mem_of_subset (by decide) (turn_mem _)
  cooperates i hi :=
    have h := busy.cooperates i hi
    ⟨fun _ _ => rfl,h.accept,h.sign,h.missing⟩
  supplied i hi n := ⟨[n.toUInt8],if_neg (by rintro rfl; simp at hi)⟩
  silent i hi hni n := if_pos (by simp at hi hni; tauto)

theorem fullRecovery_fits {front : ID} (h : front ∈ ({1,2,3} : Finset ID)) : (fullRecovery front).Fits {1,2,3} where
  front_mem := h
  others_nodup := List.Nodup.filter _ (by decide)
  mem_others i := by
    simp only [fullRecovery,List.mem_filter,decide_eq_true_eq,Finset.mem_insert,Finset.mem_singleton,List.mem_cons,
      List.not_mem_nil,or_false]
  exchange_nodup := List.Nodup.filter _ (by decide)
  mem_exchange i j := by
    simp only [fullRecovery,List.mem_filter,decide_eq_true_eq,Finset.mem_insert,Finset.mem_singleton,List.mem_cons,
      List.not_mem_nil,or_false,List.pair_mem_product]
    tauto

def fullFront (k : Nat) : ID := if fullTurn (UInt64.ofNat k) = 4 then 1 else fullTurn (UInt64.ofNat k)

theorem fullFront_mem (k : Nat) : fullFront k ∈ ({1,2,3} : Finset ID) := by
  unfold fullFront
  split_ifs with h
  · decide
  · unfold fullTurn at h ⊢
    split_ifs at h ⊢
    · exact absurd rfl h
    · exact turn_mem _

def fullRun (R : RuleSet) : Nat → System :=
  System.crashRun setup R crashEnv {1,2,3} {1,3} fullTurn [1,2,3] (fun k => turnRound (fullTurn (UInt64.ofNat (k+1))))
    fun k => fullRecovery (fullFront k)

theorem fullRun_timely : Timely setup {1,2,3} {1,3} fullTurn [1,2,3] (fun k => turnRound (fullTurn (UInt64.ofNat (k+1))))
    fun k => fullRecovery (fullFront k) where
  starters_nodup := by decide
  mem_starters := by simp
  live _ _ := turnRound_fits
  down k _ := fullRecovery_fits (fullFront_mem k)
  first k hup _ := if_neg fun he => absurd (he ▸ hup) (by decide)

/-- Of nine views, two go by without a proposal of replica 2 and two because replica 4 is down. -/
theorem crash_progress_nine : ∃ l : List Block, l.map Block.view = [9,7,5,3,1] ∧ (∀ b ∈ l, b.Served fullTurn crashEnv) ∧
    ∀ i ∈ ({1,2,3} : Finset ID), (RuleSet.chained.settled (l ++ [genesis])).dropLast <:+ (fullRun .chained 9 i).executed ∧
      .viewChange 8 8 true ∈ (fullRun .chained 9 i).log := by
  have hd : Distinct setup {1,2,3} (fullRun .chained 9) :=
    distinct_of_test (by simp) (show distinctTest setup [1,2,3] _ = true by decide +kernel)
  obtain ⟨l,hviews,hserved,hend⟩ := crash_progress setup .chained fullTurn crashEnv {1,2,3} {1,3} crashBusy rfl (by decide)
    (by decide) fullRun_timely (by decide) (fun i _ => show 9+3 < 20 by decide) hd
  refine ⟨l,hviews.trans (by decide),hserved,fun i hi => ?_⟩
  obtain ⟨hexec,hleft⟩ := hend i hi
  exact ⟨hexec,hleft 7 (by decide) (by decide)⟩

end Sample

end Hotstuff
