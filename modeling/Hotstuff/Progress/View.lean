import Hotstuff.Progress.Count
import Hotstuff.System.Run

/-! One view of a network that delivers: the leader's proposal reaches the others, a quorum of votes comes back in
some order, and the certificate takes the replicas to the next view. -/
namespace Hotstuff
open Replica

/-- The order in which the messages of a view arrive: its proposal at the others, their votes at the leader. -/
structure Round where
  receivers : List ID
  voters : List ID

namespace System
variable (S : Setup) (R : RuleSet) (envs : ID → Env) (G : Finset ID)

def act (i : ID) (ev : Event) (σ : System) : System := σ.step S R ⟨i,envs i,ev⟩

def deliver (receivers : List ID) (ev : Event) (σ : System) : System :=
  receivers.foldl (fun σ i => act S R envs i ev σ) σ

def ballots (voters : List ID) (σ : System) : List VoteMsg :=
  voters.filterMap fun j => (σ j).lastBallot.map fun c => ⟨j,c,false⟩

def collect (leader : ID) (votes : List VoteMsg) (σ : System) : System :=
  votes.foldl (fun σ m => act S R envs leader (.verifyCert 0) (act S R envs leader (.vote m) σ)) σ

/-- If the last message of a replica is one for a new view, a receiver that is up handles it. -/
def passOn (i : ID) (σ : System) : System :=
  match (σ i).outbox.head? with
  | some (.sendNewView j si) => if j ∈ G then act S R envs j (.newView ⟨i,si⟩) σ else σ
  | _ => σ

def vote (leader : ID) (r : Round) (σ : System) : System :=
  match (σ leader).lastProposal with
  | none => σ
  | some p =>
    let σ := deliver S R envs r.receivers (.propose p) σ
    collect S R envs leader (ballots r.voters σ) σ

def liveView (leader : ID) (r : Round) (σ : System) : System :=
  let σ := vote S R envs leader r σ
  match (σ leader).lastCertificate with
  | none => σ
  | some qc => passOn S R envs G leader (act S R envs leader (.newView ⟨leader,{ qc := some qc }⟩) σ)

variable {S R envs G} {σ σ' : System}

def Later (σ σ' : System) : Prop := ∀ i, (σ i).blocks <:+ (σ' i).blocks ∧ (σ i).log <:+ (σ' i).log

theorem Later.refl (σ : System) : Later σ σ := fun _ => ⟨List.suffix_rfl,List.suffix_rfl⟩

theorem Later.trans {σ'' : System} (h : Later σ σ') (h' : Later σ' σ'') : Later σ σ'' :=
  fun i => ⟨(h i).1.trans (h' i).1,(h i).2.trans (h' i).2⟩

theorem later_act (i : ID) (ev : Event) (σ : System) : Later σ (act S R envs i ev σ) := by
  intro j
  obtain ⟨hlog,hblocks,-⟩ := step_grows (S := S) (R := R) ⟨i,envs i,ev⟩ σ j
  exact ⟨hblocks,hlog⟩

theorem later_deliver (rs : List ID) (ev : Event) (σ : System) : Later σ (deliver S R envs rs ev σ) := by
  induction rs generalizing σ with
  | nil => exact .refl σ
  | cons i rs ih => exact (later_act i ev σ).trans (ih _)

theorem later_collect (leader : ID) (ms : List VoteMsg) (σ : System) : Later σ (collect S R envs leader ms σ) := by
  induction ms generalizing σ with
  | nil => exact .refl σ
  | cons m ms ih => exact ((later_act _ _ σ).trans (later_act _ _ _)).trans (ih _)

theorem later_passOn (i : ID) (σ : System) : Later σ (passOn S R envs G i σ) := by
  rw [passOn]
  split
  · split_ifs
    · exact later_act _ _ σ
    · exact .refl σ
  · exact .refl σ

theorem act_self (i : ID) (ev : Event) (σ : System) : act S R envs i ev σ i = handle S R (envs i) ev (σ i) :=
  Function.update_self ..

theorem act_of_ne {i j : ID} (h : j ≠ i) (ev : Event) (σ : System) : act S R envs i ev σ j = σ j :=
  Function.update_of_ne h ..

/-- Each receiver handles the event in the state it was in. -/
theorem deliver_eq {rs : List ID} (hrs : rs.Nodup) (ev : Event) (σ : System) (i : ID) :
    deliver S R envs rs ev σ i = if i ∈ rs then handle S R (envs i) ev (σ i) else σ i := by
  induction rs generalizing σ with
  | nil => rfl
  | cons j rs ih =>
    obtain ⟨hj,hrs⟩ := List.nodup_cons.mp hrs
    change deliver S R envs rs ev (act S R envs j ev σ) i = _
    rw [ih hrs]
    by_cases hi : i = j
    · subst hi
      rw [if_neg hj,if_pos List.mem_cons_self,act_self]
    · rw [act_of_ne hi]
      simp [hi]

/-- Collecting votes is the leader's own business. -/
theorem collect_eq (leader : ID) (ms : List VoteMsg) (σ : System) : collect S R envs leader ms σ =
    Function.update σ leader (ms.foldl (fun s m => countVote S R (envs leader) m s) (σ leader)) := by
  induction ms generalizing σ with
  | nil => exact (Function.update_eq_self leader σ).symm
  | cons m ms ih =>
    have hact : act S R envs leader (.verifyCert 0) (act S R envs leader (.vote m) σ) =
        Function.update σ leader (countVote S R (envs leader) m (σ leader)) := by
      rw [act,step,act_self,act,step,Function.update_idem]
      rfl
    change collect S R envs leader ms (act S R envs leader (.verifyCert 0) (act S R envs leader (.vote m) σ)) = _
    rw [ih,hact,Function.update_self,Function.update_idem]
    rfl

end System

/-- No two blocks in the store of a replica have the same hash, and none has hash 0. -/
structure Distinct (S : Setup) (G : Finset ID) (σ : System) : Prop where
  inj : ∀ i ∈ G, ∀ e ∈ (σ i).blocks, ∀ f ∈ (σ i).blocks, e.2.hash S = f.2.hash S → e.2 = f.2
  ne_zero : ∀ i ∈ G, ∀ e ∈ (σ i).blocks, e.2.hash S ≠ 0

theorem Distinct.back {S : Setup} {G : Finset ID} {σ σ' : System} (h : Distinct S G σ') (hl : System.Later σ σ') :
    Distinct S G σ :=
  ⟨fun i hi e he f hf => h.inj i hi e ((hl i).1.mem he) f ((hl i).1.mem hf),
    fun i hi e he => h.ne_zero i hi e ((hl i).1.mem he)⟩

/-- The replicas of `G` are up, and their calls turn out well. Those of `A` always have a command for their proposals, the
others never. Everyone agrees on the leaders. -/
structure Service (S : Setup) (leaders : View → ID) (envs : ID → Env) (G A : Finset ID) : Prop where
  members : G ⊆ S.replicas
  speakers : A ⊆ G
  leaders_mem : ∀ v, leaders v ∈ S.replicas
  cooperates : ∀ i ∈ G, (envs i).Cooperates S leaders i
  supplied : ∀ i ∈ A, (envs i).Supplied
  silent : ∀ i ∈ G, i ∉ A → (envs i).Silent

/-- The proposal reaches everyone that is up, and the votes of a quorum reach the leader. -/
structure Round.Fits (S : Setup) (G : Finset ID) (leader : ID) (r : Round) : Prop where
  receivers_nodup : r.receivers.Nodup
  mem_receivers : ∀ i, i ∈ r.receivers ↔ i ∈ G ∧ i ≠ leader
  voters_nodup : r.voters.Nodup
  voters_up : ∀ i ∈ r.voters, i ∈ G
  quorum : r.voters.length = S.quorum

structure Awaits (S : Setup) (R : RuleSet) (leaders : View → ID) (v : View) (a : Block) (l : List Block) (i : ID)
    (s : Replica) : Prop where
  follows : Follows S R (a :: l) s
  id : s.id = i
  lastVote : s.lastVote < v
  currentView : s.currentView ≤ v
  behind : s.currentView ≤ a.view → leaders (a.view + 1) ≠ i

structure Poised (S : Setup) (R : RuleSet) (leaders : View → ID) (envs : ID → Env) (G : Finset ID) (p : ProposeMsg)
    (a : Block) (l : List Block) (σ : System) : Prop where
  lineage : Lineage S (p.block :: a :: l)
  leader : leaders p.block.view ∈ G
  sender : p.id = leaders p.block.view
  checked : ∀ i ∈ G, ∀ k, checkCerts S R (envs i) p k = some true
  direct : R = .fast → p.aggQC = none → p.block.view = a.view + 1
  proposed : Proposed S R p a l (σ (leaders p.block.view))
  id : (σ (leaders p.block.view)).id = leaders p.block.view
  others : ∀ i ∈ G, i ≠ leaders p.block.view → Awaits S R leaders p.block.view a l i (σ i)

def Block.Served (leaders : View → ID) (envs : ID → Env) (b : Block) : Prop :=
  b.proposer = leaders b.view ∧ ∃ n, (envs b.proposer).command n = some b.cmd

structure Voted (S : Setup) (R : RuleSet) (b a : Block) (l : List Block) (i : ID) (s : Replica) : Prop where
  follows : Follows S R (b :: a :: l) s
  id : s.id = i
  leaf : s.leafBlock = a
  lastVote : s.lastVote = b.view
  currentView : s.currentView ≤ b.view
  vote : ∃ c : PartialCert, c.Counts S b i ∧ s.lastBallot = some c

theorem Replica.Idle.awaits {S : Setup} {R : RuleSet} {leaders : View → ID} {v : View} {b : Block} {l : List Block}
    {i : ID} {s : Replica}
    (h : Idle S R v b l i s) (hlt : b.view < v) : Awaits S R leaders v b l i s :=
  ⟨h.follows,h.id,h.lastVote,UInt64.le_of_eq h.currentView,
    fun hle => absurd hlt (UInt64.not_lt.mpr (h.currentView ▸ hle))⟩

section LiveView
variable {S : Setup} {R : RuleSet} {leaders : View → ID} {envs : ID → Env} {G A : Finset ID} {p : ProposeMsg} {a : Block}
  {l : List Block} {σ : System} {r : Round}

theorem Awaits.onPropose {i : ID} {s : Replica} (h : Awaits S R leaders p.block.view a l i s) (hs : Service S leaders envs G A)
    (hi : i ∈ G) (hl : Lineage S (p.block :: a :: l)) (hsender : p.id = leaders p.block.view)
    (hcheck : ∀ k, checkCerts S R (envs i) p k = some true) (hdirect : R = .fast → p.aggQC = none → p.block.view = a.view + 1)
    (hfuel : l.length + 2 < (envs i).fuel) : Voted S R p.block a l i (handle S R (envs i) (.propose p) s) := by
  obtain ⟨hfol,rfl,hlast,hcur,hbehind⟩ := h
  have hready : Ready S R leaders (envs s.id) p.block (a :: l) s :=
    ⟨hs.cooperates _ hi,hl,⟨_,.inl rfl,hfol.knows,hfol.executes⟩,hfol.knows.leaf,hlast,hs.leaders_mem _,hfuel⟩
  obtain ⟨hshown,hview⟩ := hready.onPropose hsender hcur hdirect (hcheck _) hfol.verifiedVotes hfol.pending hfol.calm
    (fun hle => ⟨hbehind hle,hs.leaders_mem _⟩) (envs s.id).fuel
  have hhandle : handle S R (envs s.id) (.propose p) s = Replica.onPropose S R (envs s.id) ((envs s.id).fuel+1) p s := by
    rw [handle,if_neg (by simp [hfol.knows.halted])]
  rw [hhandle]
  refine ⟨hshown.follows,hshown.id,hshown.leaf,hshown.lastVote,?_,hshown.vote⟩
  rw [hview]
  split_ifs with hlt
  · exact hcur
  · exact View.succ_le (hl.lt_of_mem List.mem_cons_self)

/-- After the proposal has been delivered everyone that is up has voted. -/
private theorem Poised.delivered (h : Poised S R leaders envs G p a l σ) (hs : Service S leaders envs G A)
    (hr : r.Fits S G (leaders p.block.view)) (hfuel : ∀ i ∈ G, l.length + 2 < (envs i).fuel) {i : ID} (hi : i ∈ G) :
    Voted S R p.block a l i (System.deliver S R envs r.receivers (.propose p) σ i) := by
  rw [System.deliver_eq hr.receivers_nodup]
  split_ifs with hrec
  · have hne := ((hr.mem_receivers i).mp hrec).2
    exact (h.others i hi hne).onPropose hs hi h.lineage h.sender (h.checked i hi) h.direct (hfuel i hi)
  · have heq : i = leaders p.block.view := by
      by_contra hne
      exact hrec ((hr.mem_receivers i).mpr ⟨hi,hne⟩)
    subst heq
    have hp := h.proposed
    refine ⟨hp.follows,h.id,hp.leaf,hp.lastVote,UInt64.le_of_eq hp.currentView,?_⟩
    have hid := h.id
    obtain ⟨c,hc,hballot⟩ := hp.vote
    exact ⟨c,hid ▸ hc,hballot⟩

/-- The votes that have been cast all count, one for each voter. -/
private theorem ballots_count {b : Block} {voters : List ID}
    (h : ∀ i ∈ voters, ∃ c : PartialCert, c.Counts S b i ∧ (σ i).lastBallot = some c) :
    (System.ballots voters σ).map VoteMsg.id = voters ∧
      ∀ m ∈ System.ballots voters σ, m.deferred = false ∧ m.cert.Counts S b m.id := by
  induction voters with
  | nil => exact ⟨rfl,by simp [System.ballots]⟩
  | cons i voters ih =>
    obtain ⟨⟨c,hc,hballot⟩,hrest⟩ := List.forall_mem_cons.mp h
    obtain ⟨hids,hcount⟩ := ih hrest
    have hcons : System.ballots (i :: voters) σ = ⟨i,c,false⟩ :: System.ballots voters σ := by
      rw [System.ballots,List.filterMap_cons_some (b := ⟨i,c,false⟩) (by rw [hballot]; rfl)]
      rfl
    rw [hcons,List.map_cons,hids]
    exact ⟨rfl,List.forall_mem_cons.mpr ⟨⟨rfl,hc⟩,hcount⟩⟩

/-- The leader makes a certificate of the votes, and nothing else happens to it. -/
private theorem Poised.vote (h : Poised S R leaders envs G p a l σ) (hs : Service S leaders envs G A)
    (hr : r.Fits S G (leaders p.block.view)) (hfuel : ∀ i ∈ G, l.length + 2 < (envs i).fuel) :
    ∃ qc : QuorumCert, qc.Certifies S p.block ∧
      System.vote S R envs (leaders p.block.view) r σ = Function.update
        (System.deliver S R envs r.receivers (.propose p) σ) (leaders p.block.view) { σ (leaders p.block.view) with
          verifiedVotes := [], log := .newViewEvent qc :: (σ (leaders p.block.view)).log } := by
  have hself : System.deliver S R envs r.receivers (.propose p) σ (leaders p.block.view) = σ (leaders p.block.view) := by
    rw [System.deliver_eq hr.receivers_nodup,if_neg fun hrec => ((hr.mem_receivers _).mp hrec).2 rfl]
  obtain ⟨hids,hcount⟩ := ballots_count (σ := System.deliver S R envs r.receivers (.propose p) σ) (b := p.block)
    fun i hi => (h.delivered hs hr hfuel (hr.voters_up i hi)).vote
  have hlen : (System.ballots r.voters (System.deliver S R envs r.receivers (.propose p) σ)).length = S.quorum := by
    rw [← List.length_map,hids,hr.quorum]
  have hpos : 0 < S.quorum := S.quorum_pos ⟨_,hs.leaders_mem 0⟩
  obtain ⟨qc,hqc,hfold⟩ := h.proposed.counting.quorum (envs (leaders p.block.view)) h.lineage hcount
    (List.ne_nil_of_length_pos (hlen ▸ hpos)) (by simpa using hlen) (by simpa [hids] using hr.voters_nodup)
  refine ⟨qc,hqc,?_⟩
  rw [System.vote,h.proposed.proposal]
  dsimp only
  rw [System.collect_eq,hself,hfold]

/-- A block on top of a known chain makes a longer chain. -/
theorem Distinct.lineage (hd : Distinct S G σ) {i : ID} (hi : i ∈ G) {b b' : Block} {l : List Block}
    (hl : Lineage S (b :: l)) (hb : (b'.hash S,b') ∈ (σ i).blocks) (hk : ∀ x ∈ b :: l, (x.hash S,x) ∈ (σ i).blocks)
    (hparent : b'.parent = b.hash S)
    (hcert : b'.cert.Certifies S b) (hlt : b.view < b'.view) : Lineage S (b' :: b :: l) := by
  refine .cons hparent hcert hlt (fun x hx he => ?_) (hd.ne_zero i hi _ hb) hl
  have hlt' := UInt64.lt_of_le_of_lt (hl.le_of_mem hx) hlt
  rw [show x = b' from hd.inj i hi _ (hk x hx) _ hb he] at hlt'
  exact UInt64.lt_irrefl _ hlt'

theorem Voted.awaits {i : ID} {s : Replica} {b : Block} (h : Voted S R b a l i s) (hlt : b.view < b.view + 1)
    (hi : leaders (b.view + 1) ≠ i) : Awaits S R leaders (b.view + 1) b (a :: l) i s :=
  ⟨h.follows,h.id,h.lastVote ▸ hlt,UInt64.le_trans h.currentView (UInt64.le_of_lt hlt),fun _ => hi⟩

/-- A leader has proposed on top of a chain that all know. -/
theorem Replica.Offers.poised {i : ID} {v : View} {b b' : Block} {l : List Block} (h : Offers S R (envs i) v b l b' (σ i))
    (hid : (σ i).id = i) (hi : i ∈ G) (hl : Lineage S (b :: l)) (hd : Distinct S G σ)
    (hk : ∀ x ∈ b :: l, (x.hash S,x) ∈ (σ i).blocks) (hlt : b.view < v) (hlead : leaders v = i)
    (hfast : R = .fast → v = b.view + 1) (hothers : ∀ k ∈ G, k ≠ i → Awaits S R leaders v b l k (σ k)) :
    b'.Served leaders envs ∧ Poised S R leaders envs G ⟨leaders b'.view,b',none⟩ b l σ := by
  have hl' := hd.lineage hi hl h.stored hk h.parent h.cert (h.view ▸ hlt)
  have hproposed := h.proposed hl'
  obtain ⟨rfl,hprop,hcmd,-,-,hcert,-⟩ := h
  subst hlead
  rw [hid] at hprop hproposed
  exact ⟨⟨hprop,hprop ▸ hcmd⟩,hl',hi,rfl,fun i _ => checkCerts_of_none rfl hcert.valid,fun hr _ => hfast hr,hproposed,hid,
    hothers⟩

/-- A replica that has voted and leads the next view proposes when it gets the certificate. -/
theorem Voted.lead {i j : ID} {s : Replica} {b : Block} {qc : QuorumCert} (h : Voted S R b a l i s)
    (hs : Service S leaders envs G A) (hi : i ∈ A) (hl : Lineage S (b :: a :: l)) (hq : qc.Certifies S b)
    (hlt : b.view < b.view + 1) (hlead : leaders (b.view + 1) = i) (hfuel : l.length + 3 < (envs i).fuel)
    (hd : Distinct S G σ) (hσ : σ i = handle S R (envs i) (.newView ⟨j,{ qc := some qc }⟩) s)
    (hothers : ∀ k ∈ G, k ≠ i → Awaits S R leaders (b.view + 1) b (a :: l) k (σ k)) :
    ∃ b' : Block, b'.view = b.view + 1 ∧ b'.Served leaders envs ∧
      Poised S R leaders envs G ⟨leaders b'.view,b',none⟩ b (a :: l) σ := by
  obtain ⟨hfol,rfl,-,hlast,hcur,-⟩ := h
  have hup := hs.speakers hi
  obtain ⟨⟨b',hoffers⟩,hid⟩ := hfol.lead hl (hs.cooperates _ hup) (hs.supplied _ hi) hq hcur (UInt64.le_of_eq hlast) hlt hlead
    (hs.members hup) hfuel j
  rw [← hσ] at hoffers hid
  refine ⟨b',hoffers.view,hoffers.poised hid hup hl hd (fun x hx => ?_) hlt hlead (fun _ => rfl) hothers⟩
  rw [hσ]
  exact (handle_micro _ _).grows.2.1.mem (localGet_mem (hfol.knows.stored x hx))

/-- A replica that has voted and does not speak in the next view enters it, and passes the certificate on. -/
theorem Voted.passes {i j : ID} {s : Replica} {b : Block} {qc : QuorumCert} (h : Voted S R b a l i s)
    (hs : Service S leaders envs G A) (hi : i ∈ G) (hl : Lineage S (b :: a :: l)) (hq : qc.Certifies S b)
    (hlt : b.view < b.view + 1) (hmute : leaders (b.view + 1) = i → i ∉ A) :
    Idle S R (b.view + 1) b (a :: l) i (handle S R (envs i) (.newView ⟨j,{ qc := some qc }⟩) s) ∧
      (handle S R (envs i) (.newView ⟨j,{ qc := some qc }⟩) s).outbox = if leaders (b.view + 1) = i then s.outbox
        else .sendNewView (leaders (b.view + 1)) { qc := some qc } :: s.outbox := by
  obtain ⟨hfol,rfl,-,hlast,hcur,-⟩ := h
  have hhandle : handle S R (envs s.id) (.newView ⟨j,{ qc := some qc }⟩) s =
      advanceView S R (envs s.id) (envs s.id).fuel { qc := some qc } s := by
    rw [handle,if_neg (by simp [hfol.knows.halted])]
    rfl
  rw [hhandle]
  exact hfol.enters hl (hs.cooperates _ hi) (fun he => hs.silent _ hi (hmute he)) (hs.leaders_mem _) hq rfl rfl hcur
    (UInt64.le_of_eq hlast) hlt _

/-- At the end of a view with a leader that is up it has a certificate, and everyone that is up has voted. -/
theorem Poised.counted (h : Poised S R leaders envs G p a l σ) (hs : Service S leaders envs G A)
    (hr : r.Fits S G (leaders p.block.view)) (hfuel : ∀ i ∈ G, l.length + 2 < (envs i).fuel) :
    ∃ (qc : QuorumCert) (σ' : System), qc.Certifies S p.block ∧ (∀ i ∈ G, Voted S R p.block a l i (σ' i)) ∧
      (σ' (leaders p.block.view)).outbox.head? = some (.newViewEvent qc) ∧
      System.liveView S R envs G (leaders p.block.view) r σ = System.passOn S R envs G (leaders p.block.view)
        (System.act S R envs (leaders p.block.view) (.newView ⟨leaders p.block.view,{ qc := some qc }⟩) σ') := by
  obtain ⟨qc,hqc,hvote⟩ := h.vote hs hr hfuel
  set L := leaders p.block.view with hL
  refine ⟨qc,System.vote S R envs L r σ,hqc,fun i hi => ?_,?_,?_⟩
  · by_cases hne : i = L
    · subst hne
      rw [hvote,Function.update_self]
      have hp := h.proposed
      obtain ⟨c,hc,hballot⟩ := hp.vote
      rw [h.id] at hc
      have hcalm := hp.follows.calm
      exact ⟨⟨⟨hp.follows.knows.frame,hp.follows.executes.frame rfl,rfl,hp.follows.pending⟩,hcalm.timeouts,hcalm.lastTimeout,
          hcalm.valid,hcalm.below⟩,h.id,hp.leaf,hp.lastVote,
        UInt64.le_of_eq hp.currentView,c,hc,hballot⟩
    · rw [hvote,Function.update_of_ne hne]
      exact h.delivered hs hr hfuel hi
  · rw [hvote,Function.update_self]
    rfl
  · have hcert : (System.vote S R envs L r σ L).lastCertificate = some qc := by
      rw [hvote,Function.update_self]
      rfl
    rw [System.liveView,hcert]

/-- A view with a leader that is up: its block is certified, and the leader of the next view, if it is up, proposes
the next block. -/
theorem Poised.liveView (h : Poised S R leaders envs G p a l σ) (hs : Service S leaders envs G A)
    (hr : r.Fits S G (leaders p.block.view)) (hfuel : ∀ i ∈ G, l.length + 3 < (envs i).fuel)
    (hlt : p.block.view < p.block.view + 1) (hnext : leaders (p.block.view + 1) ∈ A)
    (hd : Distinct S G (System.liveView S R envs G (leaders p.block.view) r σ)) :
    ∃ b' : Block, b'.view = p.block.view + 1 ∧ b'.Served leaders envs ∧
      Poised S R leaders envs G ⟨leaders b'.view,b',none⟩ p.block (a :: l)
        (System.liveView S R envs G (leaders p.block.view) r σ) := by
  obtain ⟨qc,σ₂,hqc,hvoted,-,hview⟩ := h.counted hs hr fun i hi => Nat.lt_of_succ_lt (hfuel i hi)
  set L := leaders p.block.view with hL
  set σ₃ := System.act S R envs L (.newView ⟨L,{ qc := some qc }⟩) σ₂ with hσ₃
  have hact : σ₃ L = handle S R (envs L) (.newView ⟨L,{ qc := some qc }⟩) (σ₂ L) := by rw [hσ₃,System.act_self]
  by_cases hsame : leaders (p.block.view + 1) = L
  · -- the leader goes on to propose the next block itself
    have hwait (k : ID) (hk : k ∈ G) (hne : k ≠ L) : Awaits S R leaders (p.block.view + 1) p.block (a :: l) k (σ₃ k) := by
      rw [hσ₃,System.act_of_ne hne]
      exact (hvoted k hk).awaits hlt (hsame ▸ Ne.symm hne)
    have hd₃ : Distinct S G σ₃ := (hview ▸ hd).back (System.later_passOn L σ₃)
    obtain ⟨b',hb',hserved,hpoised⟩ := (hvoted L h.leader).lead hs (hsame ▸ hnext) h.lineage hqc hlt hsame (hfuel L h.leader)
      hd₃ hact hwait
    have hquiet : System.passOn S R envs G L σ₃ = σ₃ := by
      have hlead' : leaders b'.view = L := by rw [hb',hsame]
      obtain ⟨i,c,hhead⟩ := hlead' ▸ hpoised.proposed.newest
      rw [System.passOn,hhead]
    rw [hview,hquiet]
    exact ⟨b',hb',hserved,hpoised⟩
  · -- the leader tells the next one
    obtain ⟨hidle,hout⟩ := (hvoted L h.leader).passes (j := L) hs h.leader h.lineage hqc hlt fun he => absurd he hsame
    rw [if_neg hsame] at hout
    rw [← hact] at hidle hout
    set X := leaders (p.block.view + 1) with hX
    have hup : X ∈ G := hs.speakers hnext
    have hpass : System.passOn S R envs G L σ₃ = System.act S R envs X (.newView ⟨L,{ qc := some qc }⟩) σ₃ := by
      rw [System.passOn,hout]
      exact if_pos hup
    rw [hview,hpass] at hd ⊢
    have hXvoted : Voted S R p.block a l X (σ₃ X) := by
      rw [hσ₃,System.act_of_ne hsame]
      exact hvoted X hup
    refine hXvoted.lead hs hnext h.lineage hqc hlt rfl (hfuel X hup) hd (System.act_self X _ σ₃) fun k hk hne => ?_
    rw [System.act_of_ne hne]
    by_cases hkL : k = L
    · subst hkL
      exact hidle.awaits hlt
    · rw [hσ₃,System.act_of_ne hkL]
      exact (hvoted k hk).awaits hlt (Ne.symm hne)

end LiveView

end Hotstuff
