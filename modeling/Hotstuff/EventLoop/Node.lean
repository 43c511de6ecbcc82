import Hotstuff.EventLoop.Loop
import Hotstuff.Replica.Run

/-! A replica behind its event loop: what becomes of the votes that arrive before their block. -/
namespace Hotstuff
open EventLoop Library

inductive GoType where
  | proposeMsg
  | voteMsg
  | newViewMsg
  | timeoutMsg
  | func
  | rtype
  deriving DecidableEq, Repr

/-- The values of type `interface{}` that the loop of a replica is given. `zeroPropose` is `ProposeMsg{}`, which has
no block. -/
inductive Value where
  | propose (p : ProposeMsg)
  | zeroPropose
  | vote (m : VoteMsg)
  | newView (m : NewViewMsg)
  | timeout (m : TimeoutMsg)
  | onLocalTimeout
  | type (t : GoType)
  deriving DecidableEq

namespace Value

def typeOf : Value → Value
  | .propose _ => .type .proposeMsg
  | .zeroPropose => .type .proposeMsg
  | .vote _ => .type .voteMsg
  | .newView _ => .type .newViewMsg
  | .timeout _ => .type .timeoutMsg
  | .onLocalTimeout => .type .func
  | .type _ => .type .rtype

/-- The registered handlers; without a block `OnPropose` panics. -/
def handle (S : Setup) (R : RuleSet) (env : Env) (s : Replica) : Value → Replica
  | .propose p => s.handle S R env (.propose p)
  | .zeroPropose => s.halt
  | .vote m => s.handle S R env (.vote m)
  | .newView m => s.handle S R env (.newView m)
  | .timeout m => s.handle S R env (.timeout m)
  | .onLocalTimeout => s.handle S R env .localTimeout
  | .type _ => s

def deferred : Value → Bool
  | .vote m => m.deferred
  | _ => false

theorem typeOf_ne_zeroPropose (v : Value) : v.typeOf ≠ .zeroPropose := by
  cases v <;> exact nofun

theorem log_handle {S : Setup} {R : RuleSet} {env : Env} (s : Replica) (v : Value) :
    s.log <:+ (v.handle S R env s).log := by
  cases v with
  | zeroPropose => exact List.suffix_rfl
  | type t => exact List.suffix_rfl
  | _ => exact (Replica.handle_micro _ s).grows.1

end Value

structure Node where
  loop : EventLoop Value := {}
  replica : Replica

namespace Node

def notify (id : ID) (el : EventLoop Value) : Effect → EventLoop Value
  | .delayVote m => el.delayUntil .zeroPropose (.vote m)
  | .newViewEvent qc => el.addEvent (.newView ⟨id,{ qc := some qc }⟩)
  | _ => el

def become (nd : Node) (s : Replica) : Node where
  loop := (s.log.take (s.log.length - nd.replica.log.length)).reverse.foldl (notify s.id) nd.loop
  replica := s

section Step
variable (S : Setup) (R : RuleSet)

/-- What can happen next. Messages, the timer and the goroutine that carries the replica's vote for itself all arrive
from outside; a handler that panics or does not return ends the run. -/
inductive Act where
  | start (env : Env)
  | arrive (v : Value)
  | receive
  | process (env : Env)
  | verifyCert (env : Env) (k : Nat)
  | readd (i : Nat)
  | cancel

def returned (nd : Node) : Option Node := if nd.replica.halted then none else some nd

def withLoop (nd : Node) (el : EventLoop Value) : Node := { nd with loop := el }

def step (nd : Node) : Act → Option Node
  | .start env => (nd.become (nd.replica.handle S R env .start)).returned
  | .arrive v => some (nd.withLoop (nd.loop.addEvent v))
  | .receive => (nd.loop.receive fun _ => false).map nd.withLoop
  -- events that arrive during the handler could as well have come before it
  | .process env => nd.loop.current.bind fun v =>
      (nd.become (v.handle S R env nd.replica)).returned.bind fun nd => (nd.loop.finish Value.typeOf).map nd.withLoop
  | .verifyCert env k => (nd.become (nd.replica.handle S R env (.verifyCert k))).returned
  | .readd i => (nd.loop.readd i).map nd.withLoop
  | .cancel => (EventLoop.step Value.typeOf (fun _ => false) nd.loop .cancel).map nd.withLoop

def run (nd : Node) (acts : List Act) : Option Node := acts.foldlM (step S R) nd

end Step

variable {S : Setup} {R : RuleSet} {nd nd' : Node} {el el' : EventLoop Value} {acts : List Act}

def Follows (el el' : EventLoop Value) : Prop :=
  ∃ acts, EventLoop.run Value.typeOf (fun _ => false) el acts = some el'

namespace Follows

theorem refl (el : EventLoop Value) : Follows el el := ⟨[],rfl⟩

theorem trans {el'' : EventLoop Value} (h : Follows el el') (h' : Follows el' el'') : Follows el el'' := by
  obtain ⟨l,hl⟩ := h
  obtain ⟨l',hl'⟩ := h'
  exact ⟨l ++ l',by rw [EventLoop.run_append,hl]; exact hl'⟩

theorem of_step {a : EventLoop.Act Value} (h : EventLoop.step Value.typeOf (fun _ => false) el a = some el') :
    Follows el el' := ⟨[a],by simpa [EventLoop.run] using h⟩

theorem notify (id : ID) (el : EventLoop Value) (e : Effect) : Follows el (Node.notify id el e) := by
  cases e with
  | delayVote m => exact .of_step (a := .delay .zeroPropose (.vote m)) rfl
  | newViewEvent qc => exact .of_step (a := .add (.newView ⟨id,{ qc := some qc }⟩)) rfl
  | _ => exact .refl el

theorem foldl_notify (id : ID) (l : List Effect) (el : EventLoop Value) :
    Follows el (l.foldl (Node.notify id) el) := by
  induction l generalizing el with
  | nil => exact .refl el
  | cons e l ih => exact (notify id el e).trans (ih _)

theorem become (nd : Node) (s : Replica) : Follows nd.loop (nd.become s).loop := foldl_notify _ _ _

theorem log (h : Follows el el') : el.log <:+ el'.log := h.elim fun _ hl => EventLoop.run_log hl

end Follows

theorem returned_eq (h : nd.returned = some nd') : nd = nd' := by
  rw [returned] at h
  split_ifs at h
  exact Option.some.inj h

inductive Turn (nd : Node) (a : Act) : Node → Prop
  | handled (s : Replica) (hs : nd.replica.log <:+ s.log) : Turn nd a (nd.become s)
  | looped (b : EventLoop.Act Value) (el : EventLoop Value) (hadd : ∀ v, b = .add v → a = .arrive v)
      (hdelay : ∀ k v, b ≠ .delay k v)
      (hb : EventLoop.step Value.typeOf (fun _ => false) nd.loop b = some el) : Turn nd a (nd.withLoop el)
  | processed (s : Replica) (el : EventLoop Value) (hs : nd.replica.log <:+ s.log)
      (hf : (nd.become s).loop.finish Value.typeOf = some el) : Turn nd a ((nd.become s).withLoop el)

theorem step_turn {a : Act} (h : step S R nd a = some nd') : Turn nd a nd' := by
  cases a with
  | start env => exact returned_eq h ▸ .handled _ (Replica.handle_micro _ _).grows.1
  | arrive v => cases h; exact .looped (.add v) _ (by rintro _ ⟨⟩; rfl) (by simp) rfl
  | receive =>
    obtain ⟨el,he,rfl⟩ := Option.map_eq_some_iff.mp h
    exact .looped .receive el (by simp) (by simp) he
  | process env =>
    obtain ⟨v,-,h⟩ := Option.bind_eq_some_iff.mp h
    obtain ⟨m,hm,h⟩ := Option.bind_eq_some_iff.mp h
    obtain ⟨el,he,rfl⟩ := Option.map_eq_some_iff.mp h
    cases returned_eq hm
    exact .processed _ el (Value.log_handle _ v) he
  | verifyCert env k => exact returned_eq h ▸ .handled _ (Replica.handle_micro _ _).grows.1
  | readd i =>
    obtain ⟨el,he,rfl⟩ := Option.map_eq_some_iff.mp h
    exact .looped (.readd i) el (by simp) (by simp) he
  | cancel =>
    obtain ⟨el,he,rfl⟩ := Option.map_eq_some_iff.mp h
    exact .looped .cancel el (by simp) (by simp) he

/-- Whatever the replica does, its event loop only takes steps of the event loop. -/
theorem step_follows {a : Act} (h : step S R nd a = some nd') : Follows nd.loop nd'.loop := by
  cases step_turn h with
  | handled s hs => exact .become nd s
  | looped b el _ _ hb => exact .of_step hb
  | processed s el hs hf => exact (Follows.become nd s).trans (.of_step (a := .finish) hf)

theorem run_follows (h : run S R nd acts = some nd') : Follows nd.loop nd'.loop := by
  refine foldlM_rec (Q := fun _ nd' => Follows nd.loop nd'.loop) (.refl _) ?_ h
  intro _ _ _ _ _ ih ha
  exact ih.trans (step_follows ha)

structure Quiet (el : EventLoop Value) : Prop where
  adders : el.adders = []
  waiting : ∀ k, k ≠ .zeroPropose → el.waitingEvents k = []
  queued : ∀ v ∈ el.eventQ, v.deferred = false
  current : ∀ v, el.current = some v → v.deferred = false
  processed : ∀ v, .processed v ∈ el.log → v.deferred = false

namespace Quiet

theorem addEvent (h : Quiet el) {v : Value} (hv : v.deferred = false) : Quiet (el.addEvent v) where
  adders := h.adders
  waiting := h.waiting
  queued := List.forall_mem_append.mpr ⟨h.queued,List.forall_mem_singleton.mpr hv⟩
  current := h.current
  processed := h.processed

theorem delayUntil (h : Quiet el) (v : Value) : Quiet (el.delayUntil .zeroPropose v) where
  adders := h.adders
  waiting k hk := (Function.update_of_ne hk _ _).trans (h.waiting k hk)
  queued := h.queued
  current := h.current
  processed v hv := h.processed v (by simpa [EventLoop.delayUntil] using hv)

theorem receive (h : Quiet el) (hr : Received el el') : Quiet el' where
  adders := hr.adders.trans h.adders
  waiting k hk := hr.waitingEvents ▸ h.waiting k hk
  queued v hv := h.queued v (hr.eventQ hv)
  current v hv := h.queued v (hr.current v hv)
  processed v hv := h.processed v (hr.log ▸ hv)

theorem finish (h : Quiet el) (hf : el.finish Value.typeOf = some el') : Quiet el' := by
  obtain ⟨v,hv,rfl⟩ := Option.map_eq_some_iff.mp hf
  have hw : el.waitingEvents v.typeOf = [] := h.waiting _ v.typeOf_ne_zeroPropose
  rw [dispatchDelayedEvents,if_pos hw]
  exact {
    adders := h.adders
    waiting := h.waiting
    queued := h.queued
    current := fun x hx => by cases hx
    processed := fun x hx => by
      rcases List.mem_cons.mp hx with hx | hx
      · cases hx
        exact h.current v hv
      · exact h.processed x hx }

theorem notify (h : Quiet el) (id : ID) (e : Effect) : Quiet (Node.notify id el e) := by
  cases e with
  | delayVote m => exact h.delayUntil _
  | newViewEvent qc => exact h.addEvent rfl
  | _ => exact h

theorem foldl_notify (h : Quiet el) (id : ID) (l : List Effect) : Quiet (l.foldl (Node.notify id) el) := by
  induction l generalizing el with
  | nil => exact h
  | cons e l ih => exact ih (h.notify id e)

theorem become (h : Quiet nd.loop) (s : Replica) : Quiet (nd.become s).loop := h.foldl_notify _ _

theorem looped (h : Quiet el) {b : EventLoop.Act Value} (hadd : ∀ v, b = .add v → v.deferred = false)
    (hdelay : ∀ k v, b ≠ .delay k v) (hb : EventLoop.step Value.typeOf (fun _ => false) el b = some el') :
    Quiet el' := by
  cases b with
  | add v => cases hb; exact h.addEvent (hadd v rfl)
  | delay k v => exact absurd rfl (hdelay k v)
  | receive => exact h.receive (receive_received hb)
  | finish => exact h.finish hb
  | readd i =>
    rw [EventLoop.step,EventLoop.readd,h.adders] at hb
    cases hb
  | cancel =>
    rw [EventLoop.step] at hb
    split_ifs at hb
    cases hb
    exact ⟨h.adders,h.waiting,h.queued,h.current,h.processed⟩

theorem step {a : Act} (h : Quiet nd.loop) (ha : ∀ v, a = .arrive v → v.deferred = false)
    (hs : Node.step S R nd a = some nd') : Quiet nd'.loop := by
  cases step_turn hs with
  | handled s _ => exact h.become s
  | looped b el hadd hdelay hb => exact h.looped (fun v hv => ha v (hadd v hv)) hdelay hb
  | processed s el _ hf => exact (h.become s).finish hf

end Quiet

def Delays (nd : Node) : Prop :=
  ∀ m, .delayVote m ∈ nd.replica.log → .delayed .zeroPropose (.vote m) ∈ nd.loop.log

namespace Delays

theorem mem_foldl_notify {id : ID} {m : VoteMsg} {l : List Effect} (h : .delayVote m ∈ l) (el : EventLoop Value) :
    .delayed .zeroPropose (.vote m) ∈ (l.foldl (notify id) el).log := by
  induction l generalizing el with
  | nil => cases h
  | cons e l ih =>
    rcases List.mem_cons.mp h with rfl | h
    · exact (Follows.foldl_notify id l _).log.subset List.mem_cons_self
    · exact ih h _

theorem become (h : nd.Delays) {s : Replica} (hs : nd.replica.log <:+ s.log) : (nd.become s).Delays := by
  intro m hm
  obtain ⟨new,hnew⟩ := hs
  rcases List.mem_append.mp (hnew ▸ hm : .delayVote m ∈ new ++ nd.replica.log) with hm | hm
  · refine mem_foldl_notify (List.mem_reverse.mpr ?_) nd.loop
    rw [← hnew,List.length_append,Nat.add_sub_cancel,List.take_left]
    exact hm
  · exact (Follows.become nd s).log.subset (h m hm)

theorem step {a : Act} (h : nd.Delays) (hs : Node.step S R nd a = some nd') : nd'.Delays := by
  cases step_turn hs with
  | handled s hl => exact h.become hl
  | looped b el _ _ hb => exact fun m hm => (Follows.of_step hb).log.subset (h m hm)
  | processed s el hl hf =>
    exact fun m hm => (Follows.of_step (a := .finish) hf).log.subset (h.become hl m hm)

end Delays

/-- A vote that is delayed stays under the key `ProposeMsg{}`, and no vote is ever handled as a deferred one. -/
theorem deferred_votes_wait {id : ID} (hin : ∀ v, .arrive v ∈ acts → v.deferred = false)
    (h : run S R { replica := Replica.init S id } acts = some nd) :
    (∀ m, .delayVote m ∈ nd.replica.log → .vote m ∈ nd.loop.waitingEvents .zeroPropose) ∧
      ∀ m, m.deferred = true → .processed (.vote m) ∉ nd.loop.log := by
  have hall : Quiet nd.loop ∧ nd.Delays := by
    refine foldlM_rec (Q := fun acts nd => (∀ v, .arrive v ∈ acts → v.deferred = false) → Quiet nd.loop ∧ nd.Delays)
      ?_ ?_ h hin
    · exact fun _ => ⟨⟨rfl,fun _ _ => rfl,by simp,by simp,by simp⟩,fun m hm => by cases hm⟩
    · intro acts a m nd _ ih ha hin
      obtain ⟨hq,hd⟩ := ih fun v hv => hin v (List.mem_append_left _ hv)
      exact ⟨hq.step (fun v hv => hin v (hv ▸ List.mem_append_right _ List.mem_cons_self)) ha,hd.step ha⟩
  obtain ⟨l,hl⟩ := run_follows h
  refine ⟨fun m hm => ?_,fun m hd hm => ?_⟩
  · rw [(EventLoop.waits_forever Value.typeOf_ne_zeroPropose hl).2]
    exact EventLoop.mem_delayedOn.mpr (hall.2 m hm)
  · cases hd.symm.trans (hall.1.processed _ hm)

end Node

namespace Sample
open Node

private def early : VoteMsg :=
  ⟨2,⟨some (.ecdsa ⟨2,((first 1).hash setup).toNat,2⟩),(first 1).hash setup⟩,false⟩

private def late : ProposeMsg := ⟨4,first 1,none⟩

private def earlyRun : List Node.Act :=
  [.arrive (.vote early),.receive,.process (env 1 []),.arrive (.propose late),.receive,.process (env 1 [])]

/-- The vote is delayed, its block arrives with the next proposal, and the vote still waits when there is nothing left
to do. -/
theorem delayed_vote_lost : ∃ (acts : List Node.Act) (nd : Node) (m : VoteMsg) (p : ProposeMsg),
    Node.run setup .chained { replica := Replica.init setup 1 } acts = some nd ∧ Follows {} nd.loop ∧
    nd.loop.log = [.processed (.propose p),.processed (.vote m),
      .delayed .zeroPropose (.vote { m with deferred := true })] ∧
    p.block.hash setup = m.cert.blockHash ∧ nd.replica.localGet m.cert.blockHash = some p.block ∧
    nd.loop.eventQ = [] ∧ nd.loop.current = none ∧ nd.loop.adders = [] ∧
    ¬ Redelivers Value.typeOf (Value.typeOf .zeroPropose) .zeroPropose nd.loop := by
  have hrun : (Node.run setup .chained { replica := Replica.init setup 1 } earlyRun).any (fun nd =>
      nd.loop.log = [.processed (.propose late),.processed (.vote early),
        .delayed .zeroPropose (.vote { early with deferred := true })] ∧
      nd.replica.localGet early.cert.blockHash = some late.block ∧
      nd.loop.eventQ = [] ∧ nd.loop.current = none ∧ nd.loop.adders = []) = true := by decide +kernel
  obtain ⟨nd,hnd,he⟩ := (Option.any_eq_true _ _).mp hrun
  obtain ⟨hl,hb,hq,hc,ha⟩ := of_decide_eq_true he
  refine ⟨earlyRun,nd,early,late,hnd,run_follows hnd,hl,by simp only [early,late],hb,hq,hc,ha,fun h => ?_⟩
  have hr := h.2 ha
  rw [hl] at hr
  exact absurd hr (by decide)

/-- Two events wait for a `reflect.Type`, the one kind of value whose type can be the key itself. -/
private def typeRun : List (EventLoop.Act Value) :=
  [.delay (.type .rtype) (.vote early),.delay (.type .rtype) .onLocalTimeout,.add (.type .voteMsg),.receive,.finish,
    .readd 0,.readd 0]

theorem delayed_readded_type : ∃ el, EventLoop.run Value.typeOf (fun _ => false) {} typeRun = some el ∧
    delayedOn (.type .rtype) el.log = [.vote early,.onLocalTimeout] ∧
    Redelivers Value.typeOf (Value.typeOf (.type .rtype)) (.type .rtype) el := by
  have hrun : (EventLoop.run Value.typeOf (fun _ => false) {} typeRun).map (fun el =>
      delayedOn (.type .rtype) el.log) = some [.vote early,.onLocalTimeout] := by decide +kernel
  obtain ⟨el,hel,hd⟩ := Option.map_eq_some_iff.mp hrun
  have hone : typeRun.countP EventLoop.Act.finishes ≤ 1 := by decide
  exact ⟨el,hel,hd,(delayed_readded_iff Value.typeOf (fun _ => false) (.type .rtype)).mpr rfl typeRun el hel
    fun l el hl => alone_of_le hone hl⟩

end Sample
end Hotstuff
