import Hotstuff.Replica.Handlers
import Hotstuff.Replica.Lookup
import Hotstuff.Library.History

/-! Every handler is a run of a few kinds of small steps. Invariants are proved
step by step over these and never by unfolding a handler again. -/
namespace Hotstuff

def Effect.neutral : Effect → Bool
  | .vote _ | .signTimeout _ | .handle _ | .decide _ _ | .exec _ | .viewChange _ _ _ => false
  | _ => true

def AggregateQC.certs (agg : AggregateQC) : List QuorumCert := agg.qcs.map Prod.snd

def SyncInfo.certs (si : SyncInfo) : List QuorumCert :=
  si.qc.toList ++ si.aggQC.toList.flatMap AggregateQC.certs

def ProposeMsg.certs (p : ProposeMsg) : List QuorumCert :=
  p.block.cert :: p.aggQC.toList.flatMap AggregateQC.certs

def Event.certs : Event → List QuorumCert
  | .propose p => p.certs
  | .newView m => m.syncInfo.certs
  | .timeout m => m.syncInfo.certs
  | _ => []

def Effect.certs : Effect → List QuorumCert
  | .sendPropose p => p.certs
  | .sendNewView _ si => si.certs
  | .sendTimeout m => m.syncInfo.certs
  | .newViewEvent qc => [qc]
  | _ => []

def SyncInfo.Carries (si : SyncInfo) (P : QuorumCert → Prop) : Prop := ∀ qc ∈ si.certs, P qc

namespace SyncInfo
variable {si : SyncInfo} {P : QuorumCert → Prop}

theorem Carries.qc (h : si.Carries P) {qc : QuorumCert} (hqc : si.qc = some qc) : P qc :=
  h qc (by simp [certs,hqc])

theorem carries_some {qc : QuorumCert} (h : P qc) : ({ qc := some qc } : SyncInfo).Carries P := by
  intro qc' hqc
  rw [List.mem_singleton.mp hqc]
  exact h

end SyncInfo

namespace Replica
variable (S : Setup) (R : RuleSet) (env : Env)

/-- What a vote rule that said yes has checked, in terms of the local store. -/
def MayVote : RuleSet → ProposeMsg → Replica → Prop
  | .chained, p, s => (∃ a, s.localGet p.block.cert.hash = some a ∧ s.lock.view < a.view) ∨
      Path S s s.lock p.block
  | .simple, p, s => s.currentView ≤ p.block.view ∧
      ∃ a, s.localGet p.block.cert.hash = some a ∧ s.lock.view ≤ a.view
  | .fast, p, s => match p.aggQC with
    | some _ => ∃ a, s.localGet p.block.cert.hash = some a ∧ Path S s a p.block
    | none => s.currentView ≤ p.block.view ∧ p.block.view = p.block.cert.view + 1

/-- What a commit rule that decided `c` on the proposal of `b` has checked. -/
def Decides : RuleSet → Block → Block → Replica → Prop
  | .chained, b, c, s => ∃ b1 b2, s.localGet b.cert.hash = some b1 ∧ s.localGet b1.cert.hash = some b2 ∧
      s.localGet b2.cert.hash = some c ∧ b1.parent = b2.hash S ∧ b2.parent = c.hash S
  | .simple, b, c, s => ∃ p gp, s.localGet b.cert.hash = some p ∧ s.localGet p.cert.hash = some gp ∧
      s.localGet gp.cert.hash = some c ∧ c.view + 2 = p.view
  | .fast, b, c, s => ∃ p, s.localGet b.cert.hash = some p ∧ s.localGet p.cert.hash = some c ∧
      b.parent = p.hash S ∧ b.view = p.view + 1 ∧ p.parent = c.hash S ∧ p.view = c.view + 1

/-- The trace an accepted block leaves: the lock is up to its certified grandparent, or,
without a lock, the high QC is up to its certified parent. -/
def Settled : RuleSet → Block → Replica → Prop
  | .fast, b, s => Missing S env b.cert.hash ∨ ∃ a q, s.localGet b.cert.hash = some a ∧
      s.localGet s.highQC.hash = some q ∧ a.view ≤ q.view
  | _, b, s => Missing S env b.cert.hash ∨ ∃ a, s.localGet b.cert.hash = some a ∧
      (Missing S env a.cert.hash ∨ ∃ a', s.localGet a.cert.hash = some a' ∧ a'.view ≤ s.lock.view)

/-- The blocks that `commitInner` executes from `b` down to the view executed last. -/
inductive Walk (s : Replica) (base : View) : Block → List Block → Prop
  | done {b : Block} : ¬ base < b.view → Walk s base b []
  | gap {b : Block} : base < b.view → Missing S env b.parent → Walk s base b [b]
  | up {b parent : Block} {l : List Block} : base < b.view → s.localGet b.parent = some parent →
      Walk s base parent l → Walk s base b (b :: l)

/-- The certificate by which a view is left: a timeout certificate, else a quorum certificate,
else none at all, which counts as one for view 0. -/
def Enters (P : QuorumCert → Prop) (v : View) : Bool → Prop
  | true => ∃ tc, S.verifyTimeoutCert tc = true ∧ tc.view = v
  | false => v = 0 ∨ ∃ qc, P qc ∧ S.verifyQuorumCert qc = true ∧ qc.view = v

/-- A replica and the block, if any, that it has voted for and not yet settled. -/
abbrev Phase := Replica × Option Block

variable (P : QuorumCert → Prop)

def Makes (b : Block) : Prop := ∀ votes qc, S.createQuorumCert b votes = .ok qc → P qc

structure Booked (s : Replica) (last : Option TimeoutMsg) (collected : List TimeoutMsg)
    (waiting : List (PartialCert × Block)) : Prop where
  lastTimeout : ∀ m, last = some m → s.lastTimeout = some m ∨ m.syncInfo.Carries P
  timeouts : ∀ m ∈ collected, m ∈ s.timeouts ∨ m.syncInfo.Carries P
  pending : ∀ e ∈ waiting, e ∈ s.pending ∨ Makes S P e.2

/-- One small step. `P` is what is known of the certificates that reach the replica. -/
inductive Micro : Phase → Phase → Prop
  | look {s s' x} : Fetched S env s s' → Micro (s,x) (s',x)
  | stop {s x} : Micro (s,x) (s.halt,x)
  | note {s x} (l : List Effect) : (∀ e ∈ l, e.neutral) → (∀ e ∈ l, ∀ qc ∈ e.certs, P qc) →
      Micro (s,x) ({ s with log := l ++ s.log },x)
  | book {s x} (highTC lastTimeout timeouts blockAtHeight pruneHeight verifiedVotes pending) :
      Booked S P s lastTimeout timeouts pending →
      Micro (s,x) ({ s with
        highTC := highTC, lastTimeout := lastTimeout, timeouts := timeouts, blockAtHeight := blockAtHeight,
        pruneHeight := pruneHeight, verifiedVotes := verifiedVotes, pending := pending },x)
  | check {s} (p : ProposeMsg) (k : Nat) : checkCerts S R env p k = some true → P p.block.cert →
      Micro (s,none) (s.emit (.handle p),none)
  | store {s} (b : Block) : Micro (s,none) (store S b s,none)
  | vote {s} (p : ProposeMsg) : s.halted = false → .handle p ∈ s.log → s.lastVote < p.block.view →
      MayVote S R p s →
      Micro (s,none) ({ store S p.block s with
        lastVote := p.block.view, log := .vote p.block :: s.log },some p.block)
  | lock {s x} (p : ProposeMsg) {a a' : Block} : .handle p ∈ s.log →
      s.localGet p.block.cert.hash = some a → s.localGet a.cert.hash = some a' → s.lock.view < a'.view →
      Micro (s,x) ({ s with lock := a' },x)
  | high {s x} (qc : QuorumCert) {b old : Block} : S.verifyQuorumCert qc = true → P qc →
      s.localGet qc.hash = some b → s.localGet s.highQC.hash = some old → old.view < b.view →
      Micro (s,x) ({ s with highQC := qc, leafBlock := b },x)
  | decide {s x} (p : ProposeMsg) {c : Block} : .handle p ∈ s.log → Decides S R p.block c s →
      Micro (s,x) (s.emit (.decide p.block c),x)
  | commit {s x} {b c : Block} {l : List Block} : .decide b c ∈ s.log → Walk S env s s.bExec.view c l →
      Micro (s,x) ({ s with bExec := l.headD s.bExec, log := l.map .exec ++ s.log },x)
  | settle {s b} : s.halted = true ∨ Settled S env R b s → Micro (s,some b) (s,none)
  | enter {s} (v : View) (timeout : Bool) : ¬ v < s.currentView →
      Enters S P v timeout →
      Micro (s,none) ({ s with
        currentView := v+1, lastTimeout := none, log := .viewChange s.currentView v timeout :: s.log },none)
  | stopVoting {s} (l : List Effect) : s.halted = false →
      (∀ e ∈ l, ∃ m, e = .signTimeout m ∧ m.id = s.id ∧ m.view = s.currentView ∧
        m.syncInfo.qc = some s.highQC) →
      Micro (s,none) ({ s with
        lastVote := if s.lastVote < s.currentView then s.currentView else s.lastVote, log := l ++ s.log },none)

abbrev Steps := Relation.ReflTransGen (Micro S R env P)

variable {S R env P}

/-- The log and the store only grow, and the identity stays. -/
theorem Micro.grows {a b : Phase} (h : Micro S R env P a b) :
    a.1.log <:+ b.1.log ∧ a.1.blocks <:+ b.1.blocks ∧ b.1.id = a.1.id := by
  cases h with
  | look h =>
    obtain ⟨n,bs,bh,rfl,-⟩ := h
    exact ⟨List.suffix_rfl,List.suffix_append _ _,rfl⟩
  | note l => exact ⟨List.suffix_append _ _,List.suffix_rfl,rfl⟩
  | check p => exact ⟨List.suffix_cons _ _,List.suffix_rfl,rfl⟩
  | store b => exact ⟨List.suffix_rfl,List.suffix_cons _ _,rfl⟩
  | vote p => exact ⟨List.suffix_cons _ _,List.suffix_cons _ _,rfl⟩
  | decide p => exact ⟨List.suffix_cons _ _,List.suffix_rfl,rfl⟩
  | commit => exact ⟨List.suffix_append _ _,List.suffix_rfl,rfl⟩
  | enter v t => exact ⟨List.suffix_cons _ _,List.suffix_rfl,rfl⟩
  | stopVoting l => exact ⟨List.suffix_append _ _,List.suffix_rfl,rfl⟩
  | _ => exact ⟨List.suffix_rfl,List.suffix_rfl,rfl⟩

theorem Steps.grows {a b : Phase} (h : Steps S R env P a b) :
    a.1.log <:+ b.1.log ∧ a.1.blocks <:+ b.1.blocks ∧ b.1.id = a.1.id := by
  induction h with
  | refl => exact ⟨List.suffix_rfl,List.suffix_rfl,rfl⟩
  | tail _ hm ih =>
    obtain ⟨hl,hb,hi⟩ := hm.grows
    exact ⟨ih.1.trans hl,ih.2.1.trans hb,hi.trans ih.2.2⟩

theorem Decides.congr {s t : Replica} {b c : Block} (h : Decides S R b c s) (hb : s.blocks = t.blocks) :
    Decides S R b c t := by
  cases R <;> simpa only [Decides,localGet,hb] using h

variable (S R env P) in
def Arises (a b : Phase) : Effect → Prop
  | .vote c => ∃ p, p.block = c ∧ .handle p ∈ a.1.log ∧ a.1.lastVote < c.view ∧ MayVote S R p a.1 ∧
      a.2 = none ∧ b.1.log = .vote c :: a.1.log
  | .handle p => (∃ k, checkCerts S R env p k = some true) ∧ P p.block.cert
  | .decide c d => ∃ p, p.block = c ∧ .handle p ∈ a.1.log ∧ Decides S R c d b.1
  | .viewChange before v timeout => before = a.1.currentView ∧ before ≤ v ∧ Enters S P v timeout
  | _ => True

/-- Entries are old, or there is a reason for them. -/
theorem Micro.entry {a b : Phase} (hm : Micro S R env P a b) {e : Effect} (he : e ∈ b.1.log) :
    e ∈ a.1.log ∨ Arises S R env P a b e := by
  cases hm with
  | look hf => exact .inl (hf.log_eq ▸ he)
  | note l hl =>
    rcases List.mem_append.mp he with he | he
    · have hn := hl e he
      cases e <;> first | exact .inr trivial | cases hn
    · exact .inl he
  | check p k hc hP =>
    rcases List.mem_cons.mp he with rfl | he
    · exact .inr ⟨⟨k,hc⟩,hP⟩
    · exact .inl he
  | vote p hs hp hv hmay =>
    rcases List.mem_cons.mp he with rfl | he
    · exact .inr ⟨p,rfl,hp,hv,hmay,rfl,rfl⟩
    · exact .inl he
  | decide p hp hd =>
    rcases List.mem_cons.mp he with rfl | he
    · exact .inr ⟨p,rfl,hp,hd.congr rfl⟩
    · exact .inl he
  | commit hd hw =>
    rcases List.mem_append.mp he with he | he
    · obtain ⟨c,-,rfl⟩ := List.mem_map.mp he
      exact .inr trivial
    · exact .inl he
  | enter v timeout hlt hv =>
    rcases List.mem_cons.mp he with rfl | he
    · exact .inr ⟨rfl,UInt64.not_lt.mp hlt,hv⟩
    · exact .inl he
  | stopVoting l hs hl =>
    rcases List.mem_append.mp he with he | he
    · obtain ⟨m,rfl,-⟩ := hl e he
      exact .inr trivial
    · exact .inl he
  | _ => exact .inl he

variable (S P) in
structure Holds (s : Replica) : Prop where
  high : P s.highQC
  last : ∀ m, s.lastTimeout = some m → m.syncInfo.Carries P
  timeouts : ∀ m ∈ s.timeouts, m.syncInfo.Carries P
  sent : ∀ e ∈ s.log, ∀ qc ∈ e.certs, P qc
  pending : ∀ e ∈ s.pending, Makes S P e.2

namespace Holds
variable {s t : Replica}

private theorem note (h : Holds S P s) {l : List Effect} (hl : ∀ e ∈ l, ∀ qc ∈ e.certs, P qc) :
    Holds S P { s with log := l ++ s.log } :=
  ⟨h.high,h.last,h.timeouts,fun e he => (List.mem_append.mp he).elim (hl e) (h.sent e),h.pending⟩

private theorem emit (h : Holds S P s) {e : Effect} (he : e.certs = []) : Holds S P (s.emit e) :=
  h.note (l := [e]) fun e' he' qc hqc => by
    rw [List.mem_singleton.mp he',he] at hqc
    cases hqc

theorem micro {a b : Phase} (hm : Micro S R env P a b) (h : Holds S P a.1) : Holds S P b.1 := by
  cases hm with
  | look hf =>
    obtain ⟨n,bs,bh,rfl,-⟩ := hf
    exact ⟨h.high,h.last,h.timeouts,h.sent,h.pending⟩
  | note l _ hl => exact h.note hl
  | book _ _ _ _ _ _ _ hb =>
    exact ⟨h.high,fun m hm => (hb.lastTimeout m hm).elim (h.last m) fun hm => hm,
      fun m hm => (hb.timeouts m hm).elim (h.timeouts m) fun hm => hm,h.sent,
      fun e he => (hb.pending e he).elim (h.pending e) fun he => he⟩
  | check p => exact h.emit rfl
  | vote p =>
    have hp := h.emit (e := .vote p.block) rfl
    exact ⟨hp.high,hp.last,hp.timeouts,hp.sent,hp.pending⟩
  | high qc _ hqc => exact ⟨hqc,h.last,h.timeouts,h.sent,h.pending⟩
  | decide p => exact h.emit rfl
  | commit _ _ =>
    rename_i l _ _
    have hn := h.note (l := l.map .exec) fun e he qc hqc => by
      obtain ⟨c,-,rfl⟩ := List.mem_map.mp he
      cases hqc
    exact ⟨hn.high,hn.last,hn.timeouts,hn.sent,hn.pending⟩
  | enter v timeout _ _ =>
    rename_i s _ _
    have he := h.emit (e := .viewChange s.currentView v timeout) rfl
    exact ⟨he.high,by simp,he.timeouts,he.sent,he.pending⟩
  | stopVoting l _ hl =>
    have hn := h.note (l := l) fun e he qc hqc => by
      obtain ⟨m,rfl,-⟩ := hl e he
      cases hqc
    exact ⟨hn.high,hn.last,hn.timeouts,hn.sent,hn.pending⟩
  | _ => exact ⟨h.high,h.last,h.timeouts,h.sent,h.pending⟩

end Holds

/-- What the replica keeps and sends is among the certificates that reached it. -/
theorem Steps.holds {a b : Phase} (hm : Steps S R env P a b) (h : Holds S P a.1) : Holds S P b.1 := by
  induction hm with
  | refl => exact h
  | tail _ hm ih => exact ih.micro hm

private theorem chainedVoteRule_spec (p : ProposeMsg) (s : Replica) :
    Verdict S env s (MayVote S .chained p) (chainedVoteRule S env p s) := by
  have branch (t : Replica) (hf : Fetched S env s t) :
      Verdict S env s (MayVote S .chained p) (extendsBranch S env env.fuel p.block t.lock t) :=
    (extendsBranch_spec env.fuel p.block t.lock t).after hf (fun hf' hp => .inr (by rwa [hf'.lock_eq]))
  rw [chainedVoteRule]
  rcases hg : get S env p.block.cert.hash s with ⟨_ | a,t⟩
  · exact branch t (get_eq hg).1
  · obtain ⟨hf,hl,-⟩ := get_eq hg
    dsimp only
    split_ifs with hv
    · exact .inl ⟨rfl,hf,.inl ⟨a,hl,hv⟩⟩
    · exact branch t hf

private theorem simpleVoteRule_spec (p : ProposeMsg) (s : Replica) :
    Verdict S env s (MayVote S .simple p) (simpleVoteRule S env p s) := by
  rw [simpleVoteRule]
  split_ifs with hv
  · exact .no (.refl s)
  rcases hg : get S env p.block.cert.hash s with ⟨_ | a,t⟩
  · exact .no (get_eq hg).1
  · obtain ⟨hf,hl,-⟩ := get_eq hg
    dsimp only
    split_ifs with hlock
    · exact .no hf
    · exact .inl ⟨rfl,hf,hf.currentView_eq ▸ UInt64.not_lt.mp hv,a,hl,UInt64.not_lt.mp hlock⟩

private theorem fastVoteRule_spec (p : ProposeMsg) (s : Replica) :
    Verdict S env s (MayVote S .fast p) (fastVoteRule S env p s) := by
  rw [fastVoteRule]
  cases hp : p.aggQC with
  | some agg =>
    rcases hg : get S env p.block.cert.hash s with ⟨_ | a,t⟩
    · exact .no (get_eq hg).1
    · obtain ⟨hf,hl,-⟩ := get_eq hg
      refine (extendsBranch_spec env.fuel p.block a t).after hf (fun hf' hpath => ?_)
      simp only [MayVote,hp]
      exact ⟨a,hf'.localGet hl,hpath⟩
  | none =>
    by_cases hv : s.currentView ≤ p.block.view ∧ p.block.view = p.block.cert.view + 1
    · exact .inl ⟨by simpa using hv,.refl s,by simpa only [MayVote,hp] using hv⟩
    · exact .inr ⟨by simpa using hv,s,.refl s,.inl rfl⟩

theorem MayVote.mono {p : ProposeMsg} {s t : Replica}
    (hg : ∀ k b, s.localGet k = some b → t.localGet k = some b) (hl : t.lock = s.lock)
    (hc : t.currentView = s.currentView) (h : MayVote S R p s) : MayVote S R p t := by
  cases R with
  | chained =>
    rcases h with ⟨a,ha,hv⟩ | h
    · exact .inl ⟨a,hg _ _ ha,hl ▸ hv⟩
    · exact .inr (hl ▸ h.mono hg)
  | simple =>
    obtain ⟨hv,a,ha,hlock⟩ := h
    exact ⟨hc ▸ hv,a,hg _ _ ha,hl ▸ hlock⟩
  | fast =>
    simp only [MayVote] at h ⊢
    cases hp : p.aggQC with
    | some agg =>
      obtain ⟨a,ha,hpath⟩ := by simpa only [hp] using h
      exact ⟨a,hg _ _ ha,hpath.mono hg⟩
    | none =>
      rw [hp] at h
      exact ⟨hc ▸ h.1,h.2⟩

theorem MayVote.fetched {p : ProposeMsg} {s t : Replica} (hf : Fetched S env s t) (h : MayVote S R p s) :
    MayVote S R p t := h.mono (fun _ _ => hf.localGet) hf.lock_eq hf.currentView_eq

theorem MayVote.tick {p : ProposeMsg} {s : Replica} (h : MayVote S R p s) : MayVote S R p s.tick :=
  MayVote.mono (s := s) (fun _ _ hb => hb) rfl rfl h

theorem voteRule_spec (p : ProposeMsg) (s : Replica) :
    Verdict S env s (MayVote S R p) (voteRule S env R p s) := by
  cases R with
  | chained => exact chainedVoteRule_spec p s
  | simple => exact simpleVoteRule_spec p s
  | fast => exact fastVoteRule_spec p s

theorem Fetched.steps {s t : Replica} (h : Fetched S env s t) (x : Option Block) :
    Steps S R env P (s,x) (t,x) := .single (.look h)

theorem send_steps {e : Effect} (h : e.neutral = true) (he : ∀ qc ∈ e.certs, P qc) (s : Replica)
    (x : Option Block) : Steps S R env P (s,x) (s.emit e,x) :=
  .single (.note [e] (by simpa using h) (by simpa using he))

theorem emit_steps {e : Effect} (h : e.neutral = true) (he : e.certs = []) (s : Replica) (x : Option Block) :
    Steps S R env P (s,x) (s.emit e,x) := send_steps h (by simp [he]) s x

theorem halt_steps (s : Replica) (x : Option Block) : Steps S R env P (s,x) (s.halt,x) := .single .stop

theorem Verdict.steps {s : Replica} {yes : Replica → Prop} {r : Bool × Replica}
    (h : Verdict S env s yes r) (x : Option Block) : Steps S R env P (s,x) (r.2,x) := by
  rcases h with ⟨-,hf,-⟩ | ⟨-,t,hf,h | h⟩
  · exact hf.steps x
  · exact h ▸ hf.steps x
  · exact h ▸ (hf.steps x).trans (halt_steps t x)

/-- What an update of the high QC comes to: nothing once the certified block is known not to be
newer or cannot be found, a panic, or the new certificate. -/
theorem updateHighQC_spec (S : Setup) (env : Env) (qc : QuorumCert) (s : Replica) : ∃ t, Fetched S env s t ∧
    ((updateHighQC S env qc s = t ∧ (S.verifyQuorumCert qc = true → Missing S env qc.hash ∨
        ∃ a q, t.localGet qc.hash = some a ∧ t.localGet t.highQC.hash = some q ∧ a.view ≤ q.view)) ∨
      updateHighQC S env qc s = t.halt ∨
      ∃ a q, S.verifyQuorumCert qc = true ∧ t.localGet qc.hash = some a ∧ t.localGet t.highQC.hash = some q ∧
        q.view < a.view ∧ updateHighQC S env qc s = { t with highQC := qc, leafBlock := a }) := by
  rw [updateHighQC]
  split_ifs with hv
  · exact ⟨s,.refl s,.inl ⟨rfl,fun h => by simp [hv] at h⟩⟩
  rcases hg : get S env qc.hash s with ⟨_ | a,t⟩
  · obtain ⟨hf,-,hm⟩ := get_eq hg
    exact ⟨t,hf,.inl ⟨rfl,fun _ => .inl (hm rfl)⟩⟩
  obtain ⟨hf,ha,-⟩ := get_eq hg
  dsimp only
  rcases hg' : get S env t.highQC.hash t with ⟨_ | q,u⟩
  · exact ⟨u,hf.trans (get_eq hg').1,.inr (.inl rfl)⟩
  obtain ⟨hf',hq,-⟩ := get_eq hg'
  rw [← hf'.highQC_eq] at hq
  refine ⟨u,hf.trans hf',?_⟩
  dsimp only
  split_ifs with hlt
  · exact .inr (.inr ⟨a,q,Bool.not_eq_false _ ▸ hv,hf'.localGet ha,hq,hlt,rfl⟩)
  · exact .inl ⟨rfl,fun _ => .inr ⟨a,q,hf'.localGet ha,hq,UInt64.not_lt.mp hlt⟩⟩

theorem updateHighQC_steps {qc : QuorumCert} (hqc : P qc) (s : Replica) (x : Option Block) :
    Steps S R env P (s,x) (updateHighQC S env qc s,x) := by
  obtain ⟨t,hf,⟨he,-⟩ | he | ⟨a,q,hv,ha,hq,hlt,he⟩⟩ := updateHighQC_spec S env qc s
  · exact he ▸ hf.steps x
  · exact he ▸ (hf.steps x).trans (halt_steps t x)
  · exact he ▸ (hf.steps x).tail (.high qc hv hqc ha hq hlt)

theorem updateHighQC_settled (b : Block) (s : Replica) (hv : S.verifyQuorumCert b.cert = true) :
    (updateHighQC S env b.cert s).halted = true ∨ Settled S env .fast b (updateHighQC S env b.cert s) := by
  obtain ⟨t,hf,⟨he,hold⟩ | he | ⟨a,q,-,ha,-,-,he⟩⟩ := updateHighQC_spec S env b.cert s
  · exact he ▸ .inr (hold hv)
  · exact he ▸ .inl rfl
  · exact he ▸ .inr (.inr ⟨a,a,ha,ha,UInt64.le_refl _⟩)

theorem updateHighQC_log (qc : QuorumCert) (s : Replica) : (updateHighQC S env qc s).log = s.log := by
  obtain ⟨t,hf,⟨he,-⟩ | he | ⟨a,q,-,-,-,-,he⟩⟩ := updateHighQC_spec S env qc s <;>
    exact he ▸ hf.log_eq

theorem qcRef_eq {qc : QuorumCert} {s s' : Replica} {o : Option Block}
    (he : qcRef S env qc s = (o,s')) :
    Fetched S env s s' ∧ (∀ b, o = some b → s'.localGet qc.hash = some b) ∧
      (o = none → Missing S env qc.hash) := by
  rw [qcRef] at he
  split_ifs at he with hz
  · cases he
    exact ⟨.refl s,by simp,fun _ => .inl hz⟩
  · obtain ⟨hf,hl,hm⟩ := get_eq he
    exact ⟨hf,fun b hb => hb ▸ hl,hm⟩

private theorem raiseLock_steps {p : ProposeMsg} {s : Replica} {a b : Block} (hp : .handle p ∈ s.log)
    (ha : s.localGet p.block.cert.hash = some a) (hb : s.localGet a.cert.hash = some b)
    (x : Option Block) : Steps S R env P (s,x) (s.raiseLock b,x) := by
  rw [raiseLock]
  split_ifs with hv
  · exact .single (.lock p hp ha hb hv)
  · exact .refl

theorem le_raiseLock (b : Block) (s : Replica) : b.view ≤ (s.raiseLock b).lock.view := by
  rw [raiseLock]
  split_ifs with hv
  · exact UInt64.le_refl _
  · exact UInt64.not_lt.mp hv

@[simp] theorem raiseLock_frame (b : Block) (s : Replica) :
    (s.raiseLock b).log = s.log ∧ (s.raiseLock b).halted = s.halted ∧ (s.raiseLock b).blocks = s.blocks := by
  rw [raiseLock]
  split_ifs <;> exact ⟨rfl,rfl,rfl⟩

theorem localGet_raiseLock (h : Hash) (b : Block) (s : Replica) :
    (s.raiseLock b).localGet h = s.localGet h := by
  simp [Replica.localGet]

structure Ruled (S : Setup) (R : RuleSet) (env : Env) (P : QuorumCert → Prop) (p : ProposeMsg) (s : Replica)
    (x : Option Block) (r : Option Block × Replica) : Prop where
  steps : Steps S R env P (s,x) (r.2,x)
  log : r.2.log = s.log
  decides : ∀ c, r.1 = some c → r.2.halted = false ∧ Decides S R p.block c r.2
  settled : R ≠ .fast → r.2.halted = true ∨ Settled S env R p.block r.2

private theorem Ruled.after {p : ProposeMsg} {s t : Replica} {x : Option Block} {r : Option Block × Replica}
    (h : Steps S R env P (s,x) (t,x)) (hl : t.log = s.log) (hr : Ruled S R env P p t x r) :
    Ruled S R env P p s x r := ⟨h.trans hr.steps,hr.log.trans hl,hr.decides,hr.settled⟩

private theorem Settled.mono {s t : Replica} {b : Block} (hR : R ≠ .fast) (hf : Fetched S env s t)
    (h : Settled S env R b s) : Settled S env R b t := by
  have hl := hf.lock_eq
  cases R with
  | fast => exact absurd rfl hR
  | _ =>
    rcases h with h | ⟨a,ha,h | ⟨a',ha',hv⟩⟩
    · exact .inl h
    · exact .inr ⟨a,hf.localGet ha,.inl h⟩
    · exact .inr ⟨a,hf.localGet ha,.inr ⟨a',hf.localGet ha',hl ▸ hv⟩⟩

private theorem settled_of_lock {s : Replica} {a b c : Block} (hR : R ≠ .fast)
    (ha : s.localGet b.cert.hash = some a) (hc : s.localGet a.cert.hash = some c) :
    Settled S env R b (s.raiseLock c) := by
  rw [← localGet_raiseLock _ c] at ha hc
  cases R with
  | fast => exact absurd rfl hR
  | _ => exact .inr ⟨a,ha,.inr ⟨c,hc,le_raiseLock c s⟩⟩

/-- What follows the second lookup in the two rules with a lock: the lock is raised, the third
block looked up and `test` applied to it. -/
private theorem lock_ruled {p : ProposeMsg} {s t : Replica} {a b : Block} {x : Option Block} (hR : R ≠ .fast)
    (hp : .handle p ∈ s.log) (hs : s.halted = false) (ha : s.localGet p.block.cert.hash = some a)
    (hb : s.localGet a.cert.hash = some b) {o r : Option Block} (hf : Fetched S env (s.raiseLock b) t)
    (hl : ∀ c, o = some c → t.localGet b.cert.hash = some c)
    (hr : ∀ c, r = some c → o = some c ∧ (t.localGet p.block.cert.hash = some a →
      t.localGet a.cert.hash = some b → t.localGet b.cert.hash = some c → Decides S R p.block c t)) :
    Ruled S R env P p s x (r,t) := by
  have hset : Settled S env R p.block t := (settled_of_lock hR ha hb).mono hR hf
  have hframe := raiseLock_frame b s
  refine ⟨(raiseLock_steps hp ha hb x).trans (hf.steps x),hf.log_eq.trans hframe.1,?_,fun _ => .inr hset⟩
  rintro c rfl
  obtain ⟨ho,hd⟩ := hr c rfl
  rw [← localGet_raiseLock _ b] at ha hb
  exact ⟨hf.halted_eq.trans (hframe.2.1.trans hs),hd (hf.localGet ha) (hf.localGet hb) (hl c ho)⟩

private theorem chainedCommitRule_ruled {p : ProposeMsg} {s : Replica} (hP : P p.block.cert)
    (hp : .handle p ∈ s.log) (x : Option Block) :
    Ruled S .chained env P p s x (chainedCommitRule S env p.block s) := by
  rw [chainedCommitRule]
  set t := updateHighQC S env p.block.cert s with ht
  have hts : Steps S .chained env P (s,x) (t,x) := updateHighQC_steps hP _ _
  have hlog : t.log = s.log := updateHighQC_log _ _
  split_ifs with hh
  · exact ⟨hts,hlog,by simp,fun _ => .inl hh⟩
  refine Ruled.after hts hlog ?_
  rw [← hlog] at hp
  rcases h1 : qcRef S env p.block.cert t with ⟨_ | b1,t1⟩
  · obtain ⟨hf1,-,hm⟩ := qcRef_eq h1
    exact ⟨hf1.steps x,hf1.log_eq,by simp,fun _ => .inr (.inl (hm rfl))⟩
  obtain ⟨hf1,hl1,-⟩ := qcRef_eq h1
  dsimp only
  rcases h2 : qcRef S env b1.cert t1 with ⟨_ | b2,t2⟩
  · obtain ⟨hf2,-,hm⟩ := qcRef_eq h2
    exact ⟨(hf1.trans hf2).steps x,(hf1.trans hf2).log_eq,by simp,
      fun _ => .inr (.inr ⟨b1,hf2.localGet (hl1 b1 rfl),.inl (hm rfl)⟩)⟩
  obtain ⟨hf2,hl2,-⟩ := qcRef_eq h2
  have hf := hf1.trans hf2
  refine Ruled.after (hf.steps x) hf.log_eq ?_
  have hp2 := hf.log_eq ▸ hp
  have hs2 := hf.halted_eq.trans (Bool.not_eq_true _ ▸ hh)
  dsimp only
  rcases h3 : qcRef S env b2.cert (t2.raiseLock b2) with ⟨o3,t3⟩
  obtain ⟨hf3,hl3,-⟩ := qcRef_eq h3
  cases o3 with
  | none => exact lock_ruled (by simp) hp2 hs2 (hf2.localGet (hl1 b1 rfl)) (hl2 b2 rfl) hf3 hl3 (by simp)
  | some b3 =>
    dsimp only
    split_ifs with hc
    · refine lock_ruled (by simp) hp2 hs2 (hf2.localGet (hl1 b1 rfl)) (hl2 b2 rfl) hf3 hl3 ?_
      rintro c ⟨⟩
      exact ⟨rfl,fun hg1 hg2 hg3 => ⟨b1,b2,hg1,hg2,hg3,hc.1,hc.2⟩⟩
    · exact lock_ruled (by simp) hp2 hs2 (hf2.localGet (hl1 b1 rfl)) (hl2 b2 rfl) hf3 hl3 (by simp)

private theorem simpleCommitRule_ruled {p : ProposeMsg} {s : Replica} (hp : .handle p ∈ s.log)
    (hs : s.halted = false) (x : Option Block) :
    Ruled S .simple env P p s x (simpleCommitRule S env p.block s) := by
  rw [simpleCommitRule]
  rcases h1 : get S env p.block.cert.hash s with ⟨_ | b1,t1⟩
  · obtain ⟨hf1,-,hm⟩ := get_eq h1
    exact ⟨hf1.steps x,hf1.log_eq,by simp,fun _ => .inr (.inl (hm rfl))⟩
  obtain ⟨hf1,hl1,-⟩ := get_eq h1
  dsimp only
  rcases h2 : get S env b1.cert.hash t1 with ⟨_ | b2,t2⟩
  · obtain ⟨hf2,-,hm⟩ := get_eq h2
    exact ⟨(hf1.trans hf2).steps x,(hf1.trans hf2).log_eq,by simp,
      fun _ => .inr (.inr ⟨b1,hf2.localGet hl1,.inl (hm rfl)⟩)⟩
  obtain ⟨hf2,hl2,-⟩ := get_eq h2
  have hf := hf1.trans hf2
  refine Ruled.after (hf.steps x) hf.log_eq ?_
  have hp2 := hf.log_eq ▸ hp
  have hs2 := hf.halted_eq.trans hs
  dsimp only
  rcases h3 : get S env b2.cert.hash (t2.raiseLock b2) with ⟨o3,t3⟩
  obtain ⟨hf3,hl3,-⟩ := get_eq h3
  cases o3 with
  | none => exact lock_ruled (by simp) hp2 hs2 (hf2.localGet hl1) hl2 hf3 (o := none) (by simp) (by simp)
  | some b3 =>
    dsimp only
    split_ifs with hc
    · refine lock_ruled (by simp) hp2 hs2 (hf2.localGet hl1) hl2 hf3 (o := some b3) (fun _ h => h ▸ hl3) ?_
      rintro c ⟨⟩
      exact ⟨rfl,fun hg1 hg2 hg3 => ⟨b1,b2,hg1,hg2,hg3,hc⟩⟩
    · exact lock_ruled (by simp) hp2 hs2 (hf2.localGet hl1) hl2 hf3 (o := some b3) (fun _ h => h ▸ hl3) (by simp)

private theorem fastCommitRule_ruled (p : ProposeMsg) {s : Replica} (hs : s.halted = false)
    (x : Option Block) : Ruled S .fast env P p s x (fastCommitRule S env p.block s) := by
  rw [fastCommitRule]
  rcases h1 : qcRef S env p.block.cert s with ⟨_ | b1,t1⟩
  · obtain ⟨hf1,-,-⟩ := qcRef_eq h1
    exact ⟨hf1.steps x,hf1.log_eq,by simp,by simp⟩
  obtain ⟨hf1,hl1,-⟩ := qcRef_eq h1
  dsimp only
  rcases h2 : qcRef S env b1.cert t1 with ⟨_ | b2,t2⟩
  · obtain ⟨hf2,-,-⟩ := qcRef_eq h2
    exact ⟨(hf1.trans hf2).steps x,(hf1.trans hf2).log_eq,by simp,by simp⟩
  obtain ⟨hf2,hl2,-⟩ := qcRef_eq h2
  have hf := hf1.trans hf2
  dsimp only
  split_ifs with hc
  · refine ⟨hf.steps x,hf.log_eq,?_,by simp⟩
    rintro c ⟨⟩
    exact ⟨hf.halted_eq.trans hs,b1,hf2.localGet (hl1 b1 rfl),hl2 b2 rfl,hc⟩
  · exact ⟨hf.steps x,hf.log_eq,by simp,by simp⟩

theorem commitRule_ruled {p : ProposeMsg} {s : Replica} (hP : P p.block.cert) (hp : .handle p ∈ s.log)
    (hs : s.halted = false) (x : Option Block) : Ruled S R env P p s x (commitRule S env R p.block s) := by
  cases R with
  | chained => exact chainedCommitRule_ruled hP hp x
  | simple => exact simpleCommitRule_ruled hp hs x
  | fast => exact fastCommitRule_ruled p hs x

end Replica
end Hotstuff
