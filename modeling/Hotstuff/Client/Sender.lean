import Hotstuff.Client.CmdCache
import Hotstuff.Library.History

/-! The two goroutines of a client: one sends commands, the other one handles their outcomes. They share the channel of
pending commands and the highest sequence number that was acknowledged. The channel is never closed. -/
namespace Hotstuff
open Library

inductive Outcome where
  | executed
  | cancelled
  | failed
  deriving DecidableEq, Repr

structure Input where
  data : List UInt8
  eof : Bool
  deriving DecidableEq, Repr

def Input.ends (r : Input) : Bool := r.eof && r.data.isEmpty

structure PendingCmd where
  sequenceNumber : UInt64
  promise : ClientCommand
  deriving DecidableEq, Repr

inductive Exit where
  | context
  | error
  | shouldStop
  deriving DecidableEq, Repr

inductive Sending where
  | loop
  | limiter
  | test
  | reading
  | pushing (cmd : PendingCmd)
  | returned (exit : Exit)
  deriving DecidableEq, Repr

inductive Handling where
  | select
  | getting (cmd : PendingCmd)
  | locking (cmd : PendingCmd)
  | returned
  deriving DecidableEq, Repr

namespace Sending

def held : Sending → Option PendingCmd
  | pushing cmd => some cmd
  | _ => none

theorem held_eq {s : Sending} {cmd : PendingCmd} : s.held = some cmd ↔ s = .pushing cmd := by
  cases s <;> simp [held]

end Sending

namespace Handling

def awaited : Handling → Option PendingCmd
  | getting cmd => some cmd
  | _ => none

def obtained : Handling → Option PendingCmd
  | locking cmd => some cmd
  | _ => none

theorem awaited_eq {h : Handling} {cmd : PendingCmd} : h.awaited = some cmd ↔ h = .getting cmd := by
  cases h <;> simp [awaited]

theorem obtained_eq {h : Handling} {cmd : PendingCmd} : h.obtained = some cmd ↔ h = .locking cmd := by
  cases h <;> simp [obtained]

end Handling

/-- The client with its two goroutines. `sent` lists the commands with whether they observed the end of file,
`outcomes` those of which the outcome was obtained, and `recorded` those of which it was also acknowledged. -/
structure Client where
  id : UInt32
  maxConcurrent : ℕ
  ctxDone : Bool := false
  num : UInt64 := 1
  lastCommand : UInt64 := UInt64.ofNat (2^64-1)
  highestCommitted : UInt64 := 1
  pendingCmds : List PendingCmd := []
  executed : ℕ := 0
  failed : ℕ := 0
  sending : Sending := .loop
  handling : Handling := .select
  sent : List (ClientCommand × Bool) := []
  outcomes : List (ClientCommand × Outcome) := []
  recorded : List ClientCommand := []

namespace Client

def new (id : UInt32) (maxConcurrent : ℕ) : Client := { id, maxConcurrent }

def shouldStop (c : Client) : Bool := c.lastCommand ≤ c.highestCommitted

def send (c : Client) (r : Input) : Client :=
  let cmd : ClientCommand := ⟨c.id,c.num,r.data⟩
  { c with
    lastCommand := if r.ends ∧ c.num < c.lastCommand then c.num else c.lastCommand
    num := c.num + 1
    sending := .pushing ⟨c.num + 1,cmd⟩
    sent := c.sent ++ [(cmd,r.ends)] }

def get (c : Client) (cmd : PendingCmd) (o : Outcome) : Client :=
  { c with
    executed := if o = .executed then c.executed + 1 else c.executed
    failed := if o = .failed then c.failed + 1 else c.failed
    handling := .locking cmd
    outcomes := c.outcomes ++ [(cmd.promise,o)] }

def record (c : Client) (cmd : PendingCmd) : Client :=
  { c with
    highestCommitted := if c.highestCommitted < cmd.sequenceNumber then cmd.sequenceNumber else c.highestCommitted
    handling := .select
    recorded := c.recorded ++ [cmd.promise] }

inductive Act where
  | cancel
  | checkContext
  | wait (ok : Bool)
  | test
  | read (r : Option Input)
  | push
  | handoff
  | receive
  | done
  | get (o : Outcome)
  | record

/-- The steps of both goroutines. `wait` stands for the rate limiter, `read none` for an error other than the end of
file. A command goes into the channel if there is room, or to a waiting handler. -/
def step (c : Client) : Act → Option Client
  | .cancel => some { c with ctxDone := true }
  | .checkContext => if c.sending = .loop then
      some { c with sending := if c.ctxDone then .returned .context else .limiter } else none
  | .wait ok => if c.sending = .limiter then
      some { c with sending := if ok then .test else .returned .error } else none
  | .test => if c.sending = .test then
      some { c with sending := if c.shouldStop then .returned .shouldStop else .reading } else none
  | .read r => if c.sending = .reading then
      some (r.elim { c with sending := .returned .error } c.send) else none
  | .push => c.sending.held.bind fun cmd =>
      if c.pendingCmds.length < c.maxConcurrent then
        some { c with pendingCmds := c.pendingCmds ++ [cmd], sending := .loop } else none
  | .handoff => c.sending.held.bind fun cmd =>
      if c.handling = .select ∧ c.pendingCmds = [] then
        some { c with handling := .getting cmd, sending := .loop } else none
  | .receive => c.pendingCmds.head?.bind fun cmd =>
      if c.handling = .select then
        some { c with handling := .getting cmd, pendingCmds := c.pendingCmds.tail } else none
  | .done => if c.handling = .select ∧ c.ctxDone then some { c with handling := .returned } else none
  | .get o => c.handling.awaited.map fun cmd => c.get cmd o
  | .record => c.handling.obtained.map c.record

def run (c : Client) (acts : List Act) : Option Client := acts.foldlM step c

def eofAt (c : Client) : Option ℕ := c.sent.findIdx? Prod.snd

def inflight (c : Client) : List PendingCmd :=
  (c.handling.awaited.or c.handling.obtained).toList ++ c.pendingCmds ++ c.sending.held.toList

def Paired (c : Client) : Prop :=
  c.outcomes.map Prod.fst = c.recorded ++ c.handling.obtained.toList.map PendingCmd.promise

def Stopped (c : Client) : Prop := c.sending = .returned .shouldStop → c.shouldStop = true

structure Quiet (c d : Client) : Prop where
  sent : d.sent = c.sent
  num : d.num = c.num
  lastCommand : d.lastCommand = c.lastCommand
  highestCommitted : d.highestCommitted = c.highestCommitted
  recorded : d.recorded = c.recorded
  inflight : d.inflight = c.inflight
  paired : c.Paired → d.Paired
  stopped : c.Stopped → d.Stopped

variable {c d : Client} {a : Act}

theorem step_cases (h : step c a = some d) : Quiet c d ∨
    (∃ r, c.sending = .reading ∧ d = c.send r) ∨ ∃ cmd, c.handling = .locking cmd ∧ d = c.record cmd := by
  cases a
  case cancel =>
    cases h
    exact .inl ⟨rfl,rfl,rfl,rfl,rfl,rfl,fun h => h,fun h => h⟩
  case checkContext | wait =>
    simp only [step,Option.ite_none_right_eq_some] at h
    obtain ⟨hs,⟨⟩⟩ := h
    refine .inl ⟨rfl,rfl,rfl,rfl,rfl,?_,fun h => h,?_⟩
    · simp only [inflight,hs]
      split_ifs <;> rfl
    · rw [Stopped,Stopped]
      split_ifs <;> simp
  case test =>
    simp only [step,Option.ite_none_right_eq_some] at h
    obtain ⟨hs,⟨⟩⟩ := h
    refine .inl ⟨rfl,rfl,rfl,rfl,rfl,?_,fun h => h,?_⟩
    · simp only [inflight,hs]
      split_ifs <;> rfl
    · intro _ hstop
      cases htest : c.shouldStop with
      | true => exact htest
      | false => simp [htest] at hstop
  case read r =>
    simp only [step,Option.ite_none_right_eq_some] at h
    obtain ⟨hs,⟨⟩⟩ := h
    cases r with
    | none =>
      refine .inl ⟨rfl,rfl,rfl,rfl,rfl,?_,fun h => h,fun _ => nofun⟩
      simp only [inflight,hs,Option.elim_none]
      rfl
    | some r => exact .inr (.inl ⟨r,hs,rfl⟩)
  case push =>
    obtain ⟨cmd,hcmd,h⟩ := Option.bind_eq_some_iff.mp h
    simp only [Option.ite_none_right_eq_some] at h
    obtain ⟨-,⟨⟩⟩ := h
    refine .inl ⟨rfl,rfl,rfl,rfl,rfl,?_,fun h => h,fun _ => nofun⟩
    simp [inflight,Sending.held_eq.mp hcmd,Sending.held]
  case handoff =>
    obtain ⟨cmd,hcmd,h⟩ := Option.bind_eq_some_iff.mp h
    simp only [Option.ite_none_right_eq_some] at h
    obtain ⟨⟨hs,hp⟩,⟨⟩⟩ := h
    refine .inl ⟨rfl,rfl,rfl,rfl,rfl,?_,?_,fun _ => nofun⟩
    · simp [inflight,Sending.held_eq.mp hcmd,hs,hp,Sending.held,Handling.awaited,Handling.obtained]
    · simp [Paired,hs,Handling.obtained]
  case receive =>
    obtain ⟨cmd,hcmd,h⟩ := Option.bind_eq_some_iff.mp h
    simp only [Option.ite_none_right_eq_some] at h
    obtain ⟨hs,⟨⟩⟩ := h
    obtain ⟨rest,hrest⟩ := List.head?_eq_some_iff.mp hcmd
    refine .inl ⟨rfl,rfl,rfl,rfl,rfl,?_,?_,fun h => h⟩
    · simp [inflight,hs,hrest,Handling.awaited,Handling.obtained]
    · simp [Paired,hs,Handling.obtained]
  case done =>
    simp only [step,Option.ite_none_right_eq_some] at h
    obtain ⟨⟨hs,-⟩,⟨⟩⟩ := h
    refine .inl ⟨rfl,rfl,rfl,rfl,rfl,?_,?_,fun h => h⟩
    · simp only [inflight,hs]
      rfl
    · simp [Paired,hs,Handling.obtained]
  case get o =>
    obtain ⟨cmd,hcmd,rfl⟩ := Option.map_eq_some_iff.mp h
    have hs := Handling.awaited_eq.mp hcmd
    refine .inl ⟨rfl,rfl,rfl,rfl,rfl,?_,?_,fun h => h⟩
    · simp [inflight,hs,get,Handling.awaited,Handling.obtained]
    · simp [Paired,hs,get,Handling.obtained]
  case record =>
    obtain ⟨cmd,hcmd,rfl⟩ := Option.map_eq_some_iff.mp h
    exact .inr (.inr ⟨cmd,Handling.obtained_eq.mp hcmd,rfl⟩)

/-- The sequence numbers of a client. Up to 2^64 - 2 commands the counters do not overflow; until the end of file the
last command has the greatest number there is. -/
structure Consistent (c : Client) : Prop where
  paired : c.Paired
  stopped : c.Stopped
  num : c.num = UInt64.ofNat (c.sent.length + 1)
  numbers : c.sent.map (fun x => x.1.sequenceNumber) = (List.range c.sent.length).map fun i => UInt64.ofNat (i+1)
  order : c.recorded ++ c.inflight.map PendingCmd.promise = c.sent.map Prod.fst
  pending : ∀ cmd ∈ c.inflight, cmd.sequenceNumber = cmd.promise.sequenceNumber + 1
  committed : c.sent.length < 2^64-1 → c.highestCommitted.toNat = c.recorded.length + 1
  last : c.sent.length < 2^64-1 → c.lastCommand.toNat = c.eofAt.elim (2^64-1) (· + 1)

private theorem ofNat_succ (n : ℕ) : UInt64.ofNat n + 1 = UInt64.ofNat (n+1) := (UInt64.ofNat_add n 1).symm

private theorem eof_lt {i : ℕ} (h : c.eofAt = some i) : i < c.sent.length := (List.findIdx?_eq_some_iff_getElem.mp h).1

namespace Consistent
variable (hc : c.Consistent)
include hc

private theorem quiet (q : Quiet c d) : d.Consistent where
  paired := q.paired hc.paired
  stopped := q.stopped hc.stopped
  num := by rw [q.num,q.sent,hc.num]
  numbers := by rw [q.sent,hc.numbers]
  order := by rw [q.recorded,q.inflight,q.sent,hc.order]
  pending := by
    rw [q.inflight]
    exact hc.pending
  committed := by
    rw [q.sent,q.highestCommitted,q.recorded]
    exact hc.committed
  last := by
    rw [q.sent,q.lastCommand,eofAt,q.sent]
    exact hc.last

private theorem send (hs : c.sending = .reading) (r : Input) : (c.send r).Consistent where
  paired := hc.paired
  stopped := nofun
  num := by simp only [Client.send,hc.num,List.length_append,List.length_singleton,ofNat_succ]
  numbers := by
    simp only [Client.send,List.map_append,hc.numbers,List.length_append,List.length_singleton,List.range_succ,
      List.map_cons,List.map_nil,hc.num]
  order := by
    have horder := hc.order
    rw [inflight,hs] at horder
    simp only [inflight,Client.send,List.map_append] at horder ⊢
    rw [← horder]
    simp [Sending.held]
  pending := by
    intro cmd hcmd
    rw [inflight,Client.send,List.mem_append] at hcmd
    rcases hcmd with hcmd | hcmd
    · refine hc.pending cmd (List.mem_append_left _ hcmd)
    · cases List.mem_singleton.mp hcmd
      rfl
  committed := by
    intro hlt
    rw [Client.send,List.length_append,List.length_singleton] at hlt
    exact hc.committed (by omega)
  last := by
    intro hlt
    simp only [Client.send,List.length_append,List.length_singleton] at hlt
    have hlast := hc.last (by omega)
    have hnum : c.num.toNat = c.sent.length + 1 := by
      rw [hc.num,UInt64.toNat_ofNat',Nat.mod_eq_of_lt (by omega)]
    have heof : (c.send r).eofAt = c.eofAt.or (if r.ends then some c.sent.length else none) := by
      rw [eofAt,Client.send,List.findIdx?_append,eofAt,List.findIdx?_singleton]
      cases r.ends <;> simp
    rw [heof]
    cases hends : r.ends with
    | false => simpa [Client.send,hends] using hlast
    | true =>
      cases hold : c.eofAt with
      | none =>
        rw [hold,Option.elim_none] at hlast
        have hlt : c.num < c.lastCommand := UInt64.lt_iff_toNat_lt.mpr (by omega)
        simpa [Client.send,hends,hlt] using hnum
      | some i =>
        -- a later end of file does not move the last command
        rw [hold,Option.elim_some] at hlast
        have hi := eof_lt hold
        have hge : ¬ c.num < c.lastCommand := by
          rw [UInt64.lt_iff_toNat_lt]
          omega
        simpa [Client.send,hends,hge] using hlast

private theorem recorded_lt {cmd : PendingCmd} (hs : c.handling = .locking cmd) :
    c.inflight = cmd :: (c.record cmd).inflight ∧ c.recorded.length < c.sent.length ∧
      cmd.sequenceNumber = UInt64.ofNat (c.recorded.length + 2) := by
  have hinflight : c.inflight = cmd :: (c.record cmd).inflight := by
    simp [inflight,hs,Client.record,Handling.awaited,Handling.obtained]
  have horder := hc.order
  rw [hinflight,List.map_cons] at horder
  have hlength := congrArg List.length horder
  rw [List.length_append,List.length_cons,List.length_map,List.length_map] at hlength
  have hlt : c.recorded.length < c.sent.length := by omega
  have hnumber : cmd.promise.sequenceNumber = UInt64.ofNat (c.recorded.length + 1) := by
    have hget : (c.sent.map Prod.fst)[c.recorded.length]? = some cmd.promise := by
      rw [← horder,List.getElem?_append_right le_rfl,Nat.sub_self,List.getElem?_cons_zero]
    rw [List.getElem?_map,Option.map_eq_some_iff] at hget
    obtain ⟨x,hx,hpromise⟩ := hget
    have hnumbers := congrArg (fun l => l[c.recorded.length]?) hc.numbers
    simpa [hx,List.getElem?_range hlt,hpromise] using hnumbers
  refine ⟨hinflight,hlt,?_⟩
  rw [hc.pending cmd (hinflight ▸ List.mem_cons_self),hnumber,ofNat_succ]

private theorem record {cmd : PendingCmd} (hs : c.handling = .locking cmd) : (c.record cmd).Consistent := by
  obtain ⟨hinflight,hlt,hnumber⟩ := hc.recorded_lt hs
  have horder := hc.order
  rw [hinflight,List.map_cons] at horder
  have hcommitted (hbound : c.sent.length < 2^64-1) :
      c.highestCommitted < cmd.sequenceNumber ∧ cmd.sequenceNumber.toNat = c.recorded.length + 2 := by
    have hnat : cmd.sequenceNumber.toNat = c.recorded.length + 2 := by
      rw [hnumber,UInt64.toNat_ofNat',Nat.mod_eq_of_lt (by omega)]
    have hold := hc.committed hbound
    exact ⟨UInt64.lt_iff_toNat_lt.mpr (by omega),hnat⟩
  exact
    { paired := by
        have hpaired := hc.paired
        rw [Paired,hs] at hpaired
        simpa [Paired,Client.record,Handling.obtained] using hpaired
      stopped := by
        intro hstop
        have hle := hc.stopped hstop
        rw [shouldStop,decide_eq_true_eq] at hle ⊢
        rw [Client.record]
        dsimp only
        split_ifs with hmore
        · exact UInt64.le_trans hle (UInt64.le_of_lt hmore)
        · exact hle
      num := hc.num
      numbers := hc.numbers
      order := by
        refine Eq.trans ?_ horder
        simp [Client.record]
      pending := fun cmd' hcmd' => hc.pending cmd' (hinflight ▸ List.mem_cons_of_mem _ hcmd')
      committed := by
        intro hbound
        obtain ⟨hmore,hnat⟩ := hcommitted hbound
        simp only [Client.record,if_pos hmore,hnat,List.length_append,List.length_singleton]
      last := hc.last }

end Consistent

theorem Consistent.step (hc : c.Consistent) (h : step c a = some d) : d.Consistent := by
  rcases step_cases h with q | ⟨r,hs,rfl⟩ | ⟨cmd,hs,rfl⟩
  · exact hc.quiet q
  · exact hc.send hs r
  · exact hc.record hs

theorem new_consistent (id : UInt32) (maxConcurrent : ℕ) : (new id maxConcurrent).Consistent where
  paired := rfl
  stopped := nofun
  num := rfl
  numbers := rfl
  order := rfl
  pending := nofun
  committed _ := rfl
  last _ := rfl

theorem run_consistent {id : UInt32} {maxConcurrent : ℕ} {acts : List Act}
    (h : run (new id maxConcurrent) acts = some c) : c.Consistent :=
  foldlM_rec (Q := fun _ c => c.Consistent) (new_consistent id maxConcurrent) (fun _ _ _ _ _ hm ha => hm.step ha) h

/-- The test of the loop holds exactly if a command observed the end of file and all commands before it are recorded. -/
theorem Consistent.shouldStop_iff (hc : c.Consistent) (hsent : c.sent.length < 2^64-2) :
    c.shouldStop = true ↔ ∃ i, c.eofAt = some i ∧ i ≤ c.recorded.length := by
  have hlast := hc.last (by omega)
  have hcommitted := hc.committed (by omega)
  have hle : c.recorded.length ≤ c.sent.length := by
    have hlength := congrArg List.length hc.order
    rw [List.length_append,List.length_map,List.length_map] at hlength
    omega
  rw [shouldStop,decide_eq_true_eq,UInt64.le_iff_toNat_le,hlast,hcommitted]
  cases c.eofAt with
  | none =>
    rw [Option.elim_none]
    constructor
    · intro h
      omega
    · rintro ⟨i,hi,-⟩
      cases hi
  | some i =>
    rw [Option.elim_some]
    constructor
    · intro h
      exact ⟨i,rfl,by omega⟩
    · rintro ⟨j,hj,hle⟩
      cases hj
      omega

/-- If the loop was left through the test, the outcomes of all commands before the one that observed the end of file
have been obtained, and once they have been, the test holds as soon as the handler has acknowledged the last of them. -/
theorem stops_at_eof {id : UInt32} {maxConcurrent : ℕ} {acts : List Act} (h : run (new id maxConcurrent) acts = some c)
    (hsent : c.sent.length < 2^64-2) :
    (c.sending = .returned .shouldStop →
      ∃ i, c.eofAt = some i ∧ (c.sent.take i).map Prod.fst <+: c.outcomes.map Prod.fst) ∧
    ∀ i, c.eofAt = some i → (c.sent.take i).map Prod.fst <+: c.outcomes.map Prod.fst →
      ((Client.step c .record).getD c).shouldStop = true := by
  have hc := run_consistent h
  constructor
  · intro hstop
    obtain ⟨i,hi,hle⟩ := (hc.shouldStop_iff hsent).mp (hc.stopped hstop)
    refine ⟨i,hi,?_⟩
    rw [List.map_take,← hc.order,List.take_append_of_le_length hle,hc.paired]
    exact (List.take_prefix i c.recorded).trans (List.prefix_append _ _)
  · intro i hi hobtained
    have hlength := hobtained.length_le
    have hlt := eof_lt hi
    rw [List.length_map,List.length_take,hc.paired,List.length_append] at hlength
    cases hs : c.handling.obtained with
    | none =>
      have hnone : Client.step c .record = none := by simp [Client.step,hs]
      rw [hnone,Option.getD_none,hc.shouldStop_iff hsent]
      rw [hs] at hlength
      exact ⟨i,hi,by simpa [Nat.min_eq_left hlt.le] using hlength⟩
    | some cmd =>
      have hsome : Client.step c .record = some (c.record cmd) := by simp [Client.step,hs]
      rw [hsome,Option.getD_some,(hc.step hsome).shouldStop_iff hsent]
      rw [hs] at hlength
      refine ⟨i,hi,?_⟩
      simpa [Client.record,Nat.min_eq_left hlt.le] using hlength

end Client

namespace Sample
open Client

def sends (r : Input) : List Act := [.checkContext,.wait true,.test,.read (some r),.push]

def handles (o : Outcome) : List Act := [.receive,.get o,.record]

def short : List Act := sends ⟨[7],false⟩ ++ handles .failed ++ sends ⟨[],true⟩ ++ [.checkContext,.wait true,.test]

theorem stops_at_eof_short : ∃ c, run (new 1 1) short = some c ∧ c.sending = .returned .shouldStop ∧
    ∃ i, c.eofAt = some i ∧ (c.sent.take i).map Prod.fst <+: c.outcomes.map Prod.fst := by
  obtain ⟨c,hc,hstop,hsent⟩ : ∃ c, run (new 1 1) short = some c ∧ c.sending = .returned .shouldStop ∧
      c.sent.length = 2 := ⟨_,rfl,rfl,rfl⟩
  exact ⟨c,hc,hstop,(stops_at_eof hc (by omega)).1 hstop⟩

private structure Idle (c : Client) (n : ℕ) : Prop where
  maxConcurrent : c.maxConcurrent = 1
  ctxDone : c.ctxDone = false
  pendingCmds : c.pendingCmds = []
  sending : c.sending = .loop
  handling : c.handling = .select
  sent : c.sent.length = n
  recorded : c.recorded.length = n
  eofAt : c.eofAt = none

private theorem Idle.round {c : Client} {n : ℕ} (hc : c.Consistent) (h : Idle c n) (hn : n < 2^64-2) :
    ∃ d, run c (sends ⟨[],false⟩ ++ handles .executed) = some d ∧ Idle d (n+1) := by
  have htest : c.shouldStop = false := by
    rw [Bool.eq_false_iff]
    intro hstop
    obtain ⟨i,hi,-⟩ := (hc.shouldStop_iff (h.sent ▸ hn)).mp hstop
    rw [h.eofAt] at hi
    cases hi
  have hlt : ¬ c.lastCommand ≤ c.highestCommitted := by simpa [shouldStop] using htest
  refine ⟨({ c.send ⟨[],false⟩ with sending := .loop }.get ⟨c.num+1,⟨c.id,c.num,[]⟩⟩ .executed).record
    ⟨c.num+1,⟨c.id,c.num,[]⟩⟩,?_,?_⟩
  · simp [run,sends,handles,step,shouldStop,hlt,Sending.held,Handling.awaited,Handling.obtained,send,Client.get,record,
      h.maxConcurrent,h.ctxDone,h.pendingCmds,h.sending,h.handling]
  · have heof := h.eofAt
    rw [Client.eofAt,List.findIdx?_eq_none_iff] at heof
    exact
      { maxConcurrent := h.maxConcurrent
        ctxDone := h.ctxDone
        pendingCmds := h.pendingCmds
        sending := rfl
        handling := rfl
        sent := by simp [send,Client.get,record,h.sent]
        recorded := by simp [send,Client.get,record,h.recorded]
        eofAt := by
          rw [Client.eofAt,List.findIdx?_eq_none_iff]
          simpa [send,Client.get,record,Input.ends,or_imp,forall_and] using heof }

private theorem exists_idle (n : ℕ) (hn : n ≤ 2^64-2) : ∃ acts c, run (new 1 1) acts = some c ∧ Idle c n := by
  induction n with
  | zero => exact ⟨[],_,rfl,⟨rfl,rfl,rfl,rfl,rfl,rfl,rfl,rfl⟩⟩
  | succ n ih =>
    obtain ⟨acts,c,hrun,hidle⟩ := ih (by omega)
    obtain ⟨d,hround,hidle'⟩ := hidle.round (run_consistent hrun) (by omega)
    refine ⟨acts ++ (sends ⟨[],false⟩ ++ handles .executed),d,?_,hidle'⟩
    rw [run] at hrun ⊢
    rw [List.foldlM_append,hrun]
    exact hround

/-- After 2^64 - 2 commands the highest number that was acknowledged is the greatest there is, and the client stops
without an end of file. -/
theorem stops_without_eof : ∃ acts c, run (new 1 1) acts = some c ∧ c.sending = .returned .shouldStop ∧
    c.eofAt = none := by
  obtain ⟨acts,c,hrun,h⟩ := exists_idle (2^64-2) le_rfl
  have hc := run_consistent hrun
  have hbound : c.sent.length < 2^64-1 := by
    rw [h.sent]
    norm_num
  have htest : c.lastCommand ≤ c.highestCommitted := by
    rw [UInt64.le_iff_toNat_le,hc.last hbound,hc.committed hbound,h.eofAt,h.recorded,Option.elim_none]
    norm_num
  refine ⟨acts ++ [Act.checkContext,Act.wait true,Act.test],{ c with sending := .returned .shouldStop },?_,rfl,h.eofAt⟩
  rw [run] at hrun ⊢
  rw [List.foldlM_append,hrun]
  simp [step,shouldStop,htest,h.sending,h.ctxDone]

end Sample
end Hotstuff
