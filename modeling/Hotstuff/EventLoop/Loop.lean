import Hotstuff.Library.History
import Mathlib.Logic.Function.Basic

/-! The event loop: a queue, events that wait for others, and the goroutines that put them back. A run is any
interleaving of the loop with callers from outside and with these goroutines. -/
namespace Hotstuff
open Library

inductive Note (V : Type) where
  | delayed (eventType event : V)
  | processed (event : V)
  | readded (key event : V)
  deriving DecidableEq, Repr

/-- In the loop of `Run`, or after the context has ended, with so many events still to be handled. -/
inductive Mode where
  | running
  | cancelled (left : Nat)
  deriving DecidableEq, Repr

/-- `V` are the values of an `interface{}`, a `reflect.Type` among them. A key that is absent from `waitingEvents` has
the empty list; `adders` are the goroutines of `dispatchDelayedEvents` with the events they still have. -/
structure EventLoop (V : Type) where
  eventQ : List V := []
  waitingEvents : V → List V := fun _ => []
  adders : List (V × List V) := []
  current : Option V := none
  mode : Mode := .running
  log : List (Note V) := []

namespace EventLoop
variable {V : Type} [DecidableEq V]

/-- The queue has no bound: a send that has to wait comes later in the run. -/
def addEvent (event : V) (el : EventLoop V) : EventLoop V := { el with eventQ := el.eventQ ++ [event] }

def delayUntil (eventType event : V) (el : EventLoop V) : EventLoop V :=
  { el with
    waitingEvents := Function.update el.waitingEvents eventType (el.waitingEvents eventType ++ [event])
    log := .delayed eventType event :: el.log }

def dispatchDelayedEvents (t : V) (el : EventLoop V) : EventLoop V :=
  if el.waitingEvents t = [] then el
  else { el with
    adders := el.adders ++ [(t,el.waitingEvents t)]
    waitingEvents := Function.update el.waitingEvents t [] }

section Step
variable (typeOf : V → V) (startsTicker : V → Bool)

/-- An event is received. One that starts a ticker is not processed, unless the context has ended. -/
def receive (el : EventLoop V) : Option (EventLoop V) :=
  match el.current, el.eventQ, el.mode with
  | none, e :: q, .running =>
    some (if startsTicker e then { el with eventQ := q } else { el with eventQ := q, current := some e })
  | none, e :: q, .cancelled (n+1) => some { el with eventQ := q, current := some e, mode := .cancelled n }
  | _, _, _ => none

def finish (el : EventLoop V) : Option (EventLoop V) :=
  el.current.map fun e =>
    ({ el with current := none, log := .processed e :: el.log } : EventLoop V).dispatchDelayedEvents (typeOf e)

def readd (i : Nat) (el : EventLoop V) : Option (EventLoop V) :=
  match el.adders[i]? with
  | some (key,e :: rest) => some { el.addEvent e with
      adders := el.adders.take i ++ (if rest = [] then [] else [(key,rest)]) ++ el.adders.drop (i+1)
      log := .readded key e :: el.log }
  | _ => none

inductive Act (V : Type) where
  | add (event : V)
  | delay (eventType event : V)
  | receive
  | finish
  | readd (i : Nat)
  | cancel
  deriving DecidableEq, Repr

def step (el : EventLoop V) : Act V → Option (EventLoop V)
  | .add event => some (el.addEvent event)
  | .delay eventType event => some (el.delayUntil eventType event)
  | .receive => el.receive startsTicker
  | .finish => el.finish typeOf
  | .readd i => el.readd i
  | .cancel =>
    if el.current = none ∧ el.mode = .running then some { el with mode := .cancelled el.eventQ.length } else none

def run (el : EventLoop V) (acts : List (Act V)) : Option (EventLoop V) :=
  acts.foldlM (step typeOf startsTicker) el

end Step

section Notes
variable (typeOf : V → V)

def delayedOn (eventType : V) : List (Note V) → List V
  | [] => []
  | .delayed k e :: o => if k = eventType then delayedOn eventType o ++ [e] else delayedOn eventType o
  | .processed _ :: o => delayedOn eventType o
  | .readded _ _ :: o => delayedOn eventType o

def readdedFrom (key : V) : List (Note V) → List V
  | [] => []
  | .readded k e :: o => if k = key then readdedFrom key o ++ [e] else readdedFrom key o
  | .processed _ :: o => readdedFrom key o
  | .delayed _ _ :: o => readdedFrom key o

/-- The events that were delayed on `eventType` before the latest event of type `t` was processed. -/
def due (t eventType : V) : List (Note V) → List V
  | [] => []
  | .processed e :: o => if typeOf e = t then delayedOn eventType o else due t eventType o
  | .delayed _ _ :: o => due t eventType o
  | .readded _ _ :: o => due t eventType o

/-- The events delayed on `eventType` have been put back, in order and once each, when an event of type `t` has been
processed since, up to those that a goroutine still has. -/
def Redelivers (t eventType : V) (el : EventLoop V) : Prop :=
  readdedFrom eventType el.log <+: due typeOf t eventType el.log ∧
    (el.adders = [] → readdedFrom eventType el.log = due typeOf t eventType el.log)

end Notes

theorem mem_delayedOn {key e : V} {log : List (Note V)} : e ∈ delayedOn key log ↔ .delayed key e ∈ log := by
  induction log with
  | nil => exact iff_of_false List.not_mem_nil List.not_mem_nil
  | cons n log ih =>
    cases n with
    | processed x => simpa [delayedOn] using ih
    | readded k x => simpa [delayedOn] using ih
    | delayed k x =>
      rw [delayedOn]
      split_ifs with hk
      · simp [ih,hk,or_comm]
      · simp [ih,Ne.symm hk]

def Alone (key : V) (el : EventLoop V) : Prop := el.adders.countP (fun a => a.1 = key) ≤ 1

def inFlight (key : V) (adders : List (V × List V)) : List V := adders.flatMap fun a => if a.1 = key then a.2 else []

theorem inFlight_append (key : V) (l l' : List (V × List V)) :
    inFlight key (l ++ l') = inFlight key l ++ inFlight key l' := List.flatMap_append

theorem inFlight_cons (key : V) (a : V × List V) (l : List (V × List V)) :
    inFlight key (a :: l) = (if a.1 = key then a.2 else []) ++ inFlight key l := List.flatMap_cons

theorem inFlight_eq_nil {key : V} {l : List (V × List V)} (h : ∀ a ∈ l, a.1 ≠ key) : inFlight key l = [] :=
  List.flatMap_eq_nil_iff.mpr fun a ha => if_neg (h a ha)

theorem inFlight_rest (key k : V) (rest : List V) :
    inFlight key (if rest = [] then [] else [(k,rest)]) = if k = key then rest else [] := by
  by_cases hr : rest = []
  · subst hr
    simp [inFlight]
  · simp [inFlight,hr]

theorem Alone.others {key : V} {el : EventLoop V} (h : el.Alone key) {l l' : List (V × List V)} {a : V × List V}
    (ha : el.adders = l ++ a :: l') (hk : a.1 = key) : ∀ x ∈ l, x.1 ≠ key := by
  rw [Alone,ha,List.countP_append,List.countP_cons_of_pos (by simpa using hk)] at h
  have h0 : l.countP (fun a => a.1 = key) = 0 := by omega
  simpa [List.countP_eq_zero] using h0

section Runs
variable {typeOf : V → V} {startsTicker : V → Bool} {key : V} {el el' : EventLoop V} {acts : List (Act V)}

inductive Change (typeOf : V → V) (el el' : EventLoop V) : Prop
  | same (hw : el'.waitingEvents = el.waitingEvents) (ha : el'.adders = el.adders) (hl : el'.log = el.log)
  | delayed (k e : V) (hw : el'.waitingEvents = Function.update el.waitingEvents k (el.waitingEvents k ++ [e]))
      (ha : el'.adders = el.adders) (hl : el'.log = .delayed k e :: el.log)
  | processed (e : V) (hn : el.waitingEvents (typeOf e) = []) (hw : el'.waitingEvents = el.waitingEvents)
      (ha : el'.adders = el.adders) (hl : el'.log = .processed e :: el.log)
  | dispatched (e : V) (hn : el.waitingEvents (typeOf e) ≠ [])
      (hw : el'.waitingEvents = Function.update el.waitingEvents (typeOf e) [])
      (ha : el'.adders = el.adders ++ [(typeOf e,el.waitingEvents (typeOf e))])
      (hl : el'.log = .processed e :: el.log)
  | readded (l l' : List (V × List V)) (k e : V) (rest : List V) (hw : el'.waitingEvents = el.waitingEvents)
      (hb : el.adders = l ++ (k,e :: rest) :: l')
      (ha : el'.adders = l ++ (if rest = [] then [] else [(k,rest)]) ++ l')
      (hl : el'.log = .readded k e :: el.log)

structure Received (el el' : EventLoop V) : Prop where
  waitingEvents : el'.waitingEvents = el.waitingEvents
  adders : el'.adders = el.adders
  log : el'.log = el.log
  eventQ : el'.eventQ ⊆ el.eventQ
  current : ∀ e, el'.current = some e → e ∈ el.eventQ

omit [DecidableEq V] in
theorem receive_received (h : el.receive startsTicker = some el') : Received el el' := by
  rw [receive] at h
  split at h
  · rename_i e q hc hq hm
    cases h
    split_ifs
    · exact ⟨rfl,rfl,rfl,hq ▸ List.subset_cons_self e q,fun x hx => by simp [hc] at hx⟩
    · exact ⟨rfl,rfl,rfl,hq ▸ List.subset_cons_self e q,fun x hx => by cases hx; simp [hq]⟩
  · rename_i e q n hc hq hm
    cases h
    exact ⟨rfl,rfl,rfl,hq ▸ List.subset_cons_self e q,fun x hx => by cases hx; simp [hq]⟩
  · cases h

private theorem finish_change (h : el.finish typeOf = some el') : Change typeOf el el' := by
  obtain ⟨e,-,rfl⟩ := Option.map_eq_some_iff.mp h
  rw [dispatchDelayedEvents]
  split_ifs with hn
  · exact .processed e hn rfl rfl rfl
  · exact .dispatched e hn rfl rfl rfl

private theorem readd_change {i : Nat} (h : el.readd i = some el') : Change typeOf el el' := by
  rw [readd] at h
  split at h
  · rename_i k e rest hi
    cases h
    obtain ⟨hlt,hi⟩ := List.getElem?_eq_some_iff.mp hi
    refine .readded (el.adders.take i) (el.adders.drop (i+1)) k e rest rfl ?_ rfl rfl
    rw [← hi,← List.drop_eq_getElem_cons hlt,List.take_append_drop]
  · cases h

theorem step_change {a : Act V} (h : step typeOf startsTicker el a = some el') : Change typeOf el el' := by
  cases a with
  | add event => cases h; exact .same rfl rfl rfl
  | delay k event => cases h; exact .delayed k event rfl rfl rfl
  | receive =>
    have hr := receive_received h
    exact .same hr.waitingEvents hr.adders hr.log
  | finish => exact finish_change h
  | readd i => exact readd_change h
  | cancel =>
    rw [step] at h
    split_ifs at h
    cases h
    exact .same rfl rfl rfl

theorem Change.log (h : Change typeOf el el') : el.log <:+ el'.log := by
  cases h with
  | same _ _ hl => exact hl ▸ List.suffix_rfl
  | delayed k e _ _ hl => exact hl ▸ List.suffix_cons _ _
  | processed e _ _ _ hl => exact hl ▸ List.suffix_cons _ _
  | dispatched e _ _ _ hl => exact hl ▸ List.suffix_cons _ _
  | readded l l' k e rest _ _ _ hl => exact hl ▸ List.suffix_cons _ _

theorem run_append (acts acts' : List (Act V)) (el : EventLoop V) : run typeOf startsTicker el (acts ++ acts') =
    (run typeOf startsTicker el acts).bind fun el => run typeOf startsTicker el acts' :=
  List.foldlM_append

theorem run_log (h : run typeOf startsTicker el acts = some el') : el.log <:+ el'.log := by
  refine foldlM_rec (Q := fun _ t => el.log <:+ t.log) List.suffix_rfl ?_ h
  intro _ _ _ _ _ ih ha
  exact ih.trans (step_change ha).log

/-- Every event delayed on a key has been taken over since, or still waits. -/
theorem delayedOn_eq (h : run typeOf startsTicker {} acts = some el) :
    delayedOn key el.log = due typeOf key key el.log ++ el.waitingEvents key := by
  refine foldlM_rec (Q := fun _ el => delayedOn key el.log = due typeOf key key el.log ++ el.waitingEvents key)
    rfl ?_ h
  intro _ _ el el' _ ih ha
  cases step_change ha with
  | same hw _ hl => rwa [hw,hl]
  | readded _ _ k e _ hw _ _ hl =>
    rw [hw,hl]
    exact ih
  | delayed k e hw _ hl =>
    rw [hw,hl,delayedOn,due]
    split_ifs with hk
    · subst hk
      rw [Function.update_self,ih,List.append_assoc]
    · rw [Function.update_of_ne (Ne.symm hk),ih]
  | processed e hn hw _ hl =>
    rw [hw,hl,delayedOn,due]
    split_ifs with hk
    · rw [← hk,hn,List.append_nil]
    · exact ih
  | dispatched e hn hw _ hl =>
    rw [hw,hl,delayedOn,due]
    split_ifs with hk
    · rw [← hk,Function.update_self,List.append_nil]
    · rw [Function.update_of_ne (Ne.symm hk),ih]

/-- A step adds events to those that are due and to those in flight, or puts one back. It is the first of those in
flight if only one goroutine has any. -/
theorem Change.inFlight (hc : Change typeOf el el')
    (hd : delayedOn key el.log = due typeOf key key el.log ++ el.waitingEvents key) :
    (∃ D, due typeOf key key el'.log = due typeOf key key el.log ++ D ∧
      readdedFrom key el'.log = readdedFrom key el.log ∧
      EventLoop.inFlight key el'.adders = EventLoop.inFlight key el.adders ++ D) ∨
    ∃ l e l', due typeOf key key el'.log = due typeOf key key el.log ∧
      readdedFrom key el'.log = readdedFrom key el.log ++ [e] ∧
      EventLoop.inFlight key el.adders = l ++ e :: l' ∧ EventLoop.inFlight key el'.adders = l ++ l' ∧
      (el.Alone key → l = []) := by
  cases hc with
  | same _ ha hl => exact .inl ⟨[],by rw [hl,List.append_nil],by rw [hl],by rw [ha,List.append_nil]⟩
  | delayed k e _ ha hl =>
    exact .inl ⟨[],by rw [hl,due,List.append_nil],by rw [hl,readdedFrom],by rw [ha,List.append_nil]⟩
  | processed e hn _ ha hl =>
    refine .inl ⟨[],?_,by rw [hl,readdedFrom],by rw [ha,List.append_nil]⟩
    rw [hl,due]
    split_ifs with hk
    · rw [hd,← hk,hn]
    · rw [List.append_nil]
  | dispatched e _ _ ha hl =>
    refine .inl ⟨if typeOf e = key then el.waitingEvents key else [],?_,by rw [hl,readdedFrom],?_⟩
    · rw [hl,due]
      split_ifs with hk
      · exact hd
      · rw [List.append_nil]
    · rw [ha,inFlight_append,inFlight_cons]
      by_cases hk : typeOf e = key
      · simp [hk,EventLoop.inFlight]
      · simp [hk,EventLoop.inFlight]
  | readded l l' k e rest _ hb ha hl =>
    -- the goroutine's next event need not be the oldest one in flight: another goroutine may have that
    by_cases hk : k = key
    · refine .inr ⟨EventLoop.inFlight key l,e,rest ++ EventLoop.inFlight key l',by rw [hl,due],
        by rw [hl,readdedFrom,if_pos hk],?_,?_,fun h => inFlight_eq_nil (h.others hb hk)⟩
      · rw [hb,inFlight_append,inFlight_cons,if_pos hk,List.cons_append]
      · rw [ha,inFlight_append,inFlight_append,inFlight_rest,if_pos hk,List.append_assoc]
    · refine .inl ⟨[],by rw [hl,due,List.append_nil],by rw [hl,readdedFrom,if_neg hk],?_⟩
      rw [ha,hb,inFlight_append,inFlight_append,inFlight_append,inFlight_rest,inFlight_cons,if_neg hk,if_neg hk]
      simp

/-- Every event that is due has been put back or is in flight, and none twice. -/
theorem due_perm (h : run typeOf startsTicker {} acts = some el) :
    (due typeOf key key el.log).Perm (readdedFrom key el.log ++ inFlight key el.adders) := by
  refine foldlM_rec (Q := fun _ el => (due typeOf key key el.log).Perm
    (readdedFrom key el.log ++ inFlight key el.adders)) (.refl _) ?_ h
  intro _ _ m _ hm ih ha
  rcases (step_change ha).inFlight (delayedOn_eq hm) with ⟨D,hd,hr,hf⟩ | ⟨l,e,l',hd,hr,hf,hf',-⟩
  · rw [hd,hr,hf,← List.append_assoc]
    exact ih.append_right D
  · rw [hd,hr,hf']
    refine ih.trans ?_
    rw [hf,List.append_assoc,List.singleton_append]
    exact List.perm_middle.append_left _

/-- In order, if no two goroutines put back events from under the key at a time. -/
theorem due_eq (h : run typeOf startsTicker {} acts = some el)
    (halone : ∀ l el, l <+: acts → run typeOf startsTicker {} l = some el → el.Alone key) :
    due typeOf key key el.log = readdedFrom key el.log ++ inFlight key el.adders := by
  refine foldlM_rec (Q := fun acts el =>
    (∀ l el, l <+: acts → run typeOf startsTicker {} l = some el → el.Alone key) →
      due typeOf key key el.log = readdedFrom key el.log ++ inFlight key el.adders) (fun _ => rfl) ?_ h halone
  intro acts _ m _ hm ih ha halone
  have ih := ih fun l el hl => halone l el (hl.trans (List.prefix_append _ _))
  rcases (step_change ha).inFlight (delayedOn_eq hm) with ⟨D,hd,hr,hf⟩ | ⟨l,e,l',hd,hr,hf,hf',hl⟩
  · rw [hd,hr,hf,ih,List.append_assoc]
  · cases hl (halone acts m (List.prefix_append _ _) hm)
    rw [hd,hr,hf',ih,hf,List.append_assoc]
    rfl

theorem due_eq_nil (hk : ∀ e, typeOf e ≠ key) (log : List (Note V)) : due typeOf key key log = [] := by
  induction log with
  | nil => rfl
  | cons n log ih =>
    cases n with
    | processed e => rw [due,if_neg (hk e),ih]
    | delayed k e => exact ih
    | readded k e => exact ih

/-- Under a key that is the type of no event, events wait forever. -/
theorem waits_forever (hk : ∀ e, typeOf e ≠ key) (h : run typeOf startsTicker {} acts = some el) :
    readdedFrom key el.log = [] ∧ el.waitingEvents key = delayedOn key el.log := by
  have hp : (due typeOf key key el.log).Perm _ := due_perm h
  have hd : delayedOn key el.log = _ := delayedOn_eq h
  rw [due_eq_nil hk] at hp hd
  exact ⟨(List.append_eq_nil_iff.mp hp.nil_eq.symm).1,hd.symm⟩

def Act.finishes : Act V → Bool
  | .finish => true
  | _ => false

private theorem step_adders_le {a : Act V} (h : step typeOf startsTicker el a = some el') :
    el'.adders.length ≤ el.adders.length + [a].countP Act.finishes := by
  cases a with
  | add event => cases h; exact Nat.le_add_right _ _
  | delay k event => cases h; exact Nat.le_add_right _ _
  | receive =>
    rw [(receive_received h).adders]
    exact Nat.le_add_right _ _
  | finish =>
    obtain ⟨e,-,rfl⟩ := Option.map_eq_some_iff.mp h
    rw [dispatchDelayedEvents]
    split_ifs
    · exact Nat.le_add_right _ _
    · exact Nat.le_of_eq List.length_append
  | readd i =>
    rw [step,readd] at h
    split at h
    · rename_i k e rest hi
      cases h
      obtain ⟨hlt,-⟩ := List.getElem?_eq_some_iff.mp hi
      have h1 : (if rest = [] then [] else [(k,rest)]).length ≤ 1 := by split_ifs <;> simp
      simp only [List.length_append,List.length_take,List.length_drop]
      omega
    · cases h
  | cancel =>
    rw [step] at h
    split_ifs at h
    cases h
    exact Nat.le_add_right _ _

/-- Two goroutines need two processed events. -/
private theorem adders_le (h : run typeOf startsTicker {} acts = some el) :
    el.adders.length ≤ acts.countP Act.finishes := by
  refine foldlM_rec (Q := fun acts el => el.adders.length ≤ acts.countP Act.finishes) (Nat.le_refl _) ?_ h
  intro acts a m el _ ih ha
  rw [List.countP_append]
  exact Nat.le_trans (step_adders_le ha) (Nat.add_le_add_right ih _)

theorem alone_of_le (hf : acts.countP Act.finishes ≤ 1) {l : List (Act V)} (hl : l <+: acts)
    (h : run typeOf startsTicker {} l = some el) : el.Alone key :=
  Nat.le_trans List.countP_le_length (Nat.le_trans (adders_le h) (Nat.le_trans hl.sublist.countP_le hf))

/-- An event is delayed and then processed itself. The context ends before, so that it is not taken for the start of
a ticker. -/
private def oneDelayed (e : V) : List (Act V) := [.delay e e,.add e,.cancel,.receive,.finish]

private theorem run_oneDelayed {e : V} (hk : typeOf e ≠ e) : run typeOf startsTicker {} (oneDelayed e) =
    some { waitingEvents := Function.update (fun _ => []) e [e]
           mode := .cancelled 0
           log := [.processed e,.delayed e e] } := by
  simp [oneDelayed,run,step,delayUntil,addEvent,receive,finish,dispatchDelayedEvents,hk]

end Runs

/-- Delayed events come back exactly if the value that `DelayUntil` is given is, as a key, the type of the awaited
events, which is what `dispatchDelayedEvents` looks up. -/
theorem delayed_readded_iff (typeOf : V → V) (startsTicker : V → Bool) (eventType : V) :
    (∀ acts el, run typeOf startsTicker {} acts = some el →
      (∀ l el, l <+: acts → run typeOf startsTicker {} l = some el → el.Alone eventType) →
      Redelivers typeOf (typeOf eventType) eventType el) ↔ typeOf eventType = eventType := by
  constructor
  · intro h
    by_contra hk
    have hone : (oneDelayed eventType).countP Act.finishes ≤ 1 := Nat.le_refl 1
    have hr := (h _ _ (run_oneDelayed hk) fun l el hl => alone_of_le hone hl).2 rfl
    simp [readdedFrom,due,delayedOn] at hr
  · intro hk acts el hr halone
    rw [hk,Redelivers,due_eq hr halone]
    refine ⟨List.prefix_append _ _,fun ha => ?_⟩
    rw [ha]
    exact (List.append_nil _).symm

end EventLoop
end Hotstuff
