import Hotstuff.Client.CmdCache
import Hotstuff.Library.History

/-! The client server: every `ExecCommand` call leaves a channel under its command's id and waits on it, until `Exec`
or `Fork` gets to a command with that id. -/
namespace Hotstuff
open Library

inductive GrpcCode where
  | aborted
  deriving DecidableEq, Repr

structure GrpcStatus where
  code : GrpcCode
  message : String
  deriving DecidableEq, Repr

inductive CallStage where
  | registered
  | waiting
  | answered (err : Option GrpcStatus)
  deriving DecidableEq, Repr

/-- `seen` and `discarded` record whether a command with its id has been executed or forked since the registration, and
whether `addCommand` dropped the command. -/
structure ClientCall where
  cmd : ClientCommand
  stage : CallStage := .registered
  seen : Bool := false
  discarded : Bool := false

namespace ClientCall

def answered (c : ClientCall) : Bool := match c.stage with
  | .answered _ => true
  | _ => false

def added (old : Bool) (c : ClientCall) : ClientCall := { c with stage := .waiting, discarded := old }

def see (i : CmdID) (c : ClientCall) : ClientCall := if c.cmd.id = i then { c with seen := true } else c

def answer (err : Option GrpcStatus) (c : ClientCall) : ClientCall := { c with stage := .answered err }

@[simp] theorem see_cmd (i : CmdID) (c : ClientCall) : (c.see i).cmd = c.cmd := by
  rw [see]
  split_ifs <;> rfl

@[simp] theorem see_discarded (i : CmdID) (c : ClientCall) : (c.see i).discarded = c.discarded := by
  rw [see]
  split_ifs <;> rfl

@[simp] theorem see_stage (i : CmdID) (c : ClientCall) : (c.see i).stage = c.stage := by
  rw [see]
  split_ifs <;> rfl

@[simp] theorem see_answered (i : CmdID) (c : ClientCall) : (c.see i).answered = c.answered := by
  rw [answered,answered,see_stage]

theorem see_seen {i : CmdID} {c : ClientCall} (h : c.cmd.id ≠ i) : (c.see i).seen = c.seen := by
  rw [see,if_neg h]

end ClientCall

structure BatchJob where
  err : Option GrpcStatus
  todo : List ClientCommand

/-- `awaitingCmds` holds the channel of the call with the given number; `calls` lists all calls ever made. -/
structure ClientSrv where
  cmdCache : CmdCache
  awaitingCmds : CmdID → Option Nat := fun _ => none
  calls : List ClientCall := []
  jobs : List BatchJob := []

namespace ClientSrv

def new (batchSize : Nat) : ClientSrv := { cmdCache := .new batchSize }

inductive Act where
  | execCommand (cmd : ClientCommand)
  | addCommand (k : Nat)
  | exec (cmd : Command)
  | fork (cmd : Command)
  | next (j : Nat)
  | cache (op : CmdCache.Op)

def forked : GrpcStatus := ⟨.aborted,"blockchain was forked"⟩

def startJob (K : Codec) (err : Option GrpcStatus) (cmd : Command) (s : ClientSrv) : ClientSrv :=
  match K.unmarshal cmd with
  | none => s
  | some batch => { s with jobs := s.jobs ++ [⟨err,batch⟩] }

/-- One command of a batch, under the lock. The channel is unbuffered: the send waits for its receiver. -/
def process (err : Option GrpcStatus) (x : ClientCommand) (s : ClientSrv) : Option ClientSrv :=
  match s.awaitingCmds x.id with
  | none => some { s with calls := s.calls.map (ClientCall.see x.id) }
  | some k => match s.calls[k]? with
    | none => none
    | some c => if c.stage = .waiting then
        some { s with
          calls := (s.calls.map (ClientCall.see x.id)).modify k (ClientCall.answer err),
          awaitingCmds := Function.update s.awaitingCmds x.id none }
      else none

def step (K : Codec) (s : ClientSrv) : Act → Option ClientSrv
  | .execCommand cmd => some { s with
      awaitingCmds := Function.update s.awaitingCmds cmd.id (some s.calls.length),
      calls := s.calls ++ [{ cmd := cmd }] }
  | .addCommand k => match s.calls[k]? with
    | none => none
    | some c => if c.stage = .registered then
        some { s with
          cmdCache := s.cmdCache.addCommand c.cmd,
          calls := s.calls.set k (c.added (s.cmdCache.tooOld c.cmd)) }
      else none
  | .exec cmd => some (s.startJob K none cmd)
  | .fork cmd => some (s.startJob K (some forked) cmd)
  | .next j => match s.jobs[j]? with
    | some ⟨err,x :: todo⟩ => (s.process err x).map fun s => { s with jobs := s.jobs.set j ⟨err,todo⟩ }
    | _ => none
  | .cache op => some { s with cmdCache := s.cmdCache.step K op }

def run (K : Codec) (s : ClientSrv) (l : List Act) : Option ClientSrv := l.foldlM (step K) s

def upcoming (s : ClientSrv) (j : Nat) : Option CmdID := match s.jobs[j]? with
  | some ⟨_,x :: _⟩ => some x.id
  | _ => none

inductive Change (s t : ClientSrv) : Act → Prop
  | register (cmd : ClientCommand) :
      t.awaitingCmds = Function.update s.awaitingCmds cmd.id (some s.calls.length) →
      t.calls = s.calls ++ [{ cmd := cmd }] → Change s t (.execCommand cmd)
  | add (k : Nat) (c : ClientCall) : s.calls[k]? = some c → c.stage = .registered → t.awaitingCmds = s.awaitingCmds →
      t.calls = s.calls.set k (c.added (s.cmdCache.tooOld c.cmd)) → Change s t (.addCommand k)
  | keep (a : Act) : (∀ j, a ≠ .next j) → t.awaitingCmds = s.awaitingCmds → t.calls = s.calls → Change s t a
  | pass (j : Nat) (i : CmdID) : s.upcoming j = some i → s.awaitingCmds i = none → t.awaitingCmds = s.awaitingCmds →
      t.calls = s.calls.map (ClientCall.see i) → Change s t (.next j)
  | reply (j : Nat) (i : CmdID) (k : Nat) (err : Option GrpcStatus) : s.upcoming j = some i →
      s.awaitingCmds i = some k → t.awaitingCmds = Function.update s.awaitingCmds i none →
      t.calls = (s.calls.map (ClientCall.see i)).modify k (ClientCall.answer err) → Change s t (.next j)

theorem step_change {K : Codec} {s t : ClientSrv} {a : Act} (h : step K s a = some t) : Change s t a := by
  cases a with
  | execCommand cmd =>
    cases h
    exact .register cmd rfl rfl
  | addCommand k =>
    simp only [step] at h
    split at h
    · cases h
    · rename_i c hc
      split_ifs at h with hs
      cases h
      exact .add k c hc hs rfl rfl
  | exec cmd | fork cmd =>
    cases h
    rw [startJob]
    split <;> exact .keep _ nofun rfl rfl
  | cache op =>
    cases h
    exact .keep _ nofun rfl rfl
  | next j =>
    simp only [step] at h
    split at h
    · rename_i err x todo hj
      have hup : s.upcoming j = some x.id := by rw [upcoming,hj]
      obtain ⟨u,hu,rfl⟩ := Option.map_eq_some_iff.mp h
      rw [process] at hu
      split at hu
      · rename_i hi
        cases hu
        exact .pass j x.id hup hi rfl rfl
      · rename_i k hi
        split at hu
        · cases hu
        · split_ifs at hu
          cases hu
          exact .reply j x.id k err hup hi rfl rfl
    · cases h

/-- The calls whose id has come up since have their answer. -/
def Served (s : ClientSrv) : Prop := ∀ c ∈ s.calls, c.seen = true → c.answered = true

def Overwrites (s : ClientSrv) (cmd : ClientCommand) : Prop :=
  ∃ k c, s.awaitingCmds cmd.id = some k ∧ s.calls[k]? = some c ∧ c.answered = false

def Fresh (s : ClientSrv) (cmd : ClientCommand) : Prop := ∀ c ∈ s.calls, c.cmd.id = cmd.id → c.answered = true

structure Tracked (s : ClientSrv) : Prop where
  mapped : ∀ i k, s.awaitingCmds i = some k → ∃ c, s.calls[k]? = some c ∧ c.cmd.id = i ∧ c.answered = false
  waiting : ∀ k c, s.calls[k]? = some c → c.answered = false → s.awaitingCmds c.cmd.id = some k ∧ c.seen = false

private theorem getElem?_registered {calls : List ClientCall} {new c : ClientCall} {k : Nat}
    (h : (calls ++ [new])[k]? = some c) : calls[k]? = some c ∨ k = calls.length ∧ c = new := by
  rw [List.getElem?_append] at h
  split_ifs at h with hlt
  · exact .inl h
  · obtain ⟨hk,rfl⟩ : k - calls.length = 0 ∧ new = c := by simpa [List.getElem?_singleton] using h
    exact .inr ⟨by omega,rfl⟩

private theorem getElem?_replied (calls : List ClientCall) (i : CmdID) (err : Option GrpcStatus) (k j : Nat) :
    ((calls.map (ClientCall.see i)).modify k (ClientCall.answer err))[j]? =
      calls[j]?.map fun c => if k = j then (c.see i).answer err else c.see i := by
  rw [List.getElem?_modify,List.getElem?_map,Option.map_eq_map,Option.map_map]
  rfl

namespace Tracked
variable {s t : ClientSrv} {a : Act}

theorem new (n : Nat) : Tracked (new n) := ⟨nofun,nofun⟩

theorem fresh (h : Tracked s) {cmd : ClientCommand} (ho : ¬ Overwrites s cmd) : s.Fresh cmd := by
  intro c hc hid
  obtain ⟨k,hk⟩ := List.mem_iff_getElem?.mp hc
  by_contra hn
  have hfalse : c.answered = false := by simpa using hn
  exact ho ⟨k,c,hid ▸ (h.waiting k c hk hfalse).1,hk,hfalse⟩

private theorem register (h : Tracked s) {cmd : ClientCommand} (hf : s.Fresh cmd)
    (hm : t.awaitingCmds = Function.update s.awaitingCmds cmd.id (some s.calls.length))
    (hcalls : t.calls = s.calls ++ [{ cmd := cmd }]) : Tracked t := by
  constructor
  · intro i k hik
    rw [hm] at hik
    rw [hcalls]
    by_cases hi : i = cmd.id
    · subst hi
      obtain rfl : s.calls.length = k := by simpa using hik
      exact ⟨{ cmd := cmd },by simp,rfl,rfl⟩
    · obtain ⟨c,hc,hid,ha⟩ := h.mapped i k (by simpa [Function.update_of_ne hi] using hik)
      exact ⟨c,List.getElem?_append_left (List.getElem?_eq_some_iff.mp hc).1 ▸ hc,hid,ha⟩
  · intro k c hc ha
    rw [hm]
    rcases getElem?_registered (hcalls ▸ hc) with hc | ⟨rfl,rfl⟩
    · obtain ⟨hmap,hseen⟩ := h.waiting k c hc ha
      have hne : c.cmd.id ≠ cmd.id := fun he => by simp [hf c (List.mem_of_getElem? hc) he] at ha
      exact ⟨(Function.update_of_ne hne _ _).trans hmap,hseen⟩
    · exact ⟨Function.update_self _ _ _,rfl⟩

private theorem add (h : Tracked s) {k : Nat} {c : ClientCall} {old : Bool} (hc : s.calls[k]? = some c)
    (hs : c.answered = false) (hm : t.awaitingCmds = s.awaitingCmds) (hcalls : t.calls = s.calls.set k (c.added old)) :
    Tracked t := by
  have hk := (List.getElem?_eq_some_iff.mp hc).1
  constructor
  · intro i j hij
    obtain ⟨d,hd,hid,ha⟩ := h.mapped i j (hm ▸ hij)
    rw [hcalls]
    by_cases hj : k = j
    · subst hj
      cases hc.symm.trans hd
      exact ⟨c.added old,List.getElem?_set_self hk,hid,rfl⟩
    · exact ⟨d,(List.getElem?_set_ne hj).trans hd,hid,ha⟩
  · intro j d hd ha
    rw [hcalls] at hd
    rw [hm]
    by_cases hj : k = j
    · subst hj
      cases (List.getElem?_set_self hk).symm.trans hd
      exact h.waiting k c hc hs
    · exact h.waiting j d ((List.getElem?_set_ne hj).symm.trans hd) ha

private theorem pass (h : Tracked s) {i : CmdID} (hi : s.awaitingCmds i = none) (hm : t.awaitingCmds = s.awaitingCmds)
    (hcalls : t.calls = s.calls.map (ClientCall.see i)) : Tracked t := by
  constructor
  · intro j k hjk
    obtain ⟨c,hc,hid,ha⟩ := h.mapped j k (hm ▸ hjk)
    exact ⟨c.see i,by simp [hcalls,hc],by simpa using hid,by simpa using ha⟩
  · intro k d hd ha
    obtain ⟨c,hc,rfl⟩ : ∃ c, s.calls[k]? = some c ∧ c.see i = d := by simpa [hcalls] using hd
    obtain ⟨hmap,hseen⟩ := h.waiting k c hc (by simpa using ha)
    have hne : c.cmd.id ≠ i := fun he => by simp [he,hi] at hmap
    exact ⟨by simpa [hm] using hmap,(ClientCall.see_seen hne).trans hseen⟩

private theorem reply (h : Tracked s) {i : CmdID} {k : Nat} {err : Option GrpcStatus} (hi : s.awaitingCmds i = some k)
    (hm : t.awaitingCmds = Function.update s.awaitingCmds i none)
    (hcalls : t.calls = (s.calls.map (ClientCall.see i)).modify k (ClientCall.answer err)) : Tracked t := by
  constructor
  · intro j m hjm
    rw [hm] at hjm
    have hj : j ≠ i := fun he => by simp [he] at hjm
    obtain ⟨c,hc,hid,ha⟩ := h.mapped j m ((Function.update_of_ne hj _ _).symm.trans hjm)
    have hk : k ≠ m := by
      rintro rfl
      obtain ⟨d,hd,hdi,-⟩ := h.mapped i k hi
      cases hc.symm.trans hd
      exact hj (hid.symm.trans hdi)
    exact ⟨c.see i,by simp [hcalls,hc,hk],by simpa using hid,by simpa using ha⟩
  · intro m d hd ha
    rw [hcalls,getElem?_replied] at hd
    obtain ⟨c,hc,rfl⟩ := Option.map_eq_some_iff.mp hd
    by_cases hk : k = m
    · simp [hk,ClientCall.answer,ClientCall.answered] at ha
    · rw [if_neg hk] at ha ⊢
      obtain ⟨hmap,hseen⟩ := h.waiting m c hc (by simpa using ha)
      have hne : c.cmd.id ≠ i := by
        rintro rfl
        exact hk (Option.some.inj (hi.symm.trans hmap))
      refine ⟨?_,(ClientCall.see_seen hne).trans hseen⟩
      rw [ClientCall.see_cmd,hm]
      exact (Function.update_of_ne hne _ _).trans hmap

/-- The invariant is kept by every step, registrations of an id in use apart. -/
theorem change (h : Tracked s) (hc : Change s t a) (hf : ∀ cmd, a = .execCommand cmd → s.Fresh cmd) :
    Tracked t := by
  cases hc with
  | register cmd hm hcalls => exact h.register (hf cmd rfl) hm hcalls
  | add k c hk hs hm hcalls => exact h.add hk (by rw [ClientCall.answered,hs]) hm hcalls
  | keep _ _ hm hcalls => exact ⟨by rw [hm,hcalls]; exact h.mapped,by rw [hm,hcalls]; exact h.waiting⟩
  | pass _ i _ hi hm hcalls => exact h.pass hi hm hcalls
  | reply _ i k err _ hi hm hcalls => exact h.reply hi hm hcalls

end Tracked

/-- Only `addCommand` discards. -/
theorem Change.discarded {s t : ClientSrv} {a : Act} (hc : Change s t a) {k : Nat} {d : ClientCall}
    (hd : t.calls[k]? = some d) (hdis : d.discarded = true) :
    (∃ c, s.calls[k]? = some c ∧ c.discarded = true) ∨
      ∃ c, a = .addCommand k ∧ s.calls[k]? = some c ∧ s.cmdCache.tooOld c.cmd = true := by
  cases hc with
  | register cmd hm hcalls =>
    rcases getElem?_registered (hcalls ▸ hd) with hd | ⟨-,rfl⟩
    · exact .inl ⟨d,hd,hdis⟩
    · cases hdis
  | add k' c hk hs hm hcalls =>
    rw [hcalls] at hd
    by_cases he : k' = k
    · subst he
      cases (List.getElem?_set_self (List.getElem?_eq_some_iff.mp hk).1).symm.trans hd
      exact .inr ⟨c,rfl,hk,hdis⟩
    · exact .inl ⟨d,(List.getElem?_set_ne he).symm.trans hd,hdis⟩
  | keep _ _ hm hcalls => exact .inl ⟨d,hcalls ▸ hd,hdis⟩
  | pass _ i _ hi hm hcalls =>
    obtain ⟨c,hc,rfl⟩ : ∃ c, s.calls[k]? = some c ∧ c.see i = d := by simpa [hcalls] using hd
    exact .inl ⟨c,hc,by simpa using hdis⟩
  | reply _ i k' err _ hi hm hcalls =>
    rw [hcalls,getElem?_replied] at hd
    obtain ⟨c,hc,rfl⟩ := Option.map_eq_some_iff.mp hd
    refine .inl ⟨c,hc,?_⟩
    split_ifs at hdis
    · simpa [ClientCall.answer] using hdis
    · simpa using hdis

/-- When an id comes up, a call with this id has its answer already, unless its channel is the one in the map. -/
private theorem Tracked.see_answered {s : ClientSrv} (hs : s.Tracked) {i : CmdID} {j k : Nat} {c : ClientCall}
    (hk : s.calls[k]? = some c) (hup : s.upcoming j = some i) (hi : s.awaitingCmds i ≠ some k) :
    (c.see i).answered = true ↔ c.answered = true ∨ ∃ j', Act.next j = .next j' ∧ s.upcoming j' = some c.cmd.id := by
  rw [ClientCall.see_answered]
  refine ⟨.inl,?_⟩
  rintro (ha | ⟨j',hj,hid⟩)
  · exact ha
  · cases hj
    by_contra ha
    have hmap := (hs.waiting k c hk (by simpa using ha)).1
    rw [← Option.some.inj (hup.symm.trans hid)] at hmap
    exact hi hmap

/-- A call that is past `addCommand` stays discarded or not, and gets its answer when its id comes up. -/
theorem Change.past {s t : ClientSrv} {a : Act} (hc : Change s t a) (hs : s.Tracked) {k : Nat} {c : ClientCall}
    (hk : s.calls[k]? = some c) (hstage : c.stage ≠ .registered) : ∃ d, t.calls[k]? = some d ∧ d.cmd = c.cmd ∧
      d.stage ≠ .registered ∧ d.discarded = c.discarded ∧
      (d.answered = true ↔ c.answered = true ∨ ∃ j, a = .next j ∧ s.upcoming j = some c.cmd.id) := by
  cases hc with
  | register cmd hm hcalls =>
    have hlt := (List.getElem?_eq_some_iff.mp hk).1
    exact ⟨c,by rw [hcalls,List.getElem?_append_left hlt,hk],rfl,hstage,rfl,by simp⟩
  | add k' c' hk' hs' hm hcalls =>
    have hne : k' ≠ k := by
      rintro rfl
      cases hk.symm.trans hk'
      exact hstage hs'
    exact ⟨c,by rw [hcalls,List.getElem?_set_ne hne,hk],rfl,hstage,rfl,by simp⟩
  | keep _ hne hm hcalls => exact ⟨c,hcalls ▸ hk,rfl,hstage,rfl,by simp [hne]⟩
  | pass j i hup hi hm hcalls =>
    have hne : s.awaitingCmds i ≠ some k := by simp [hi]
    exact ⟨c.see i,by simp [hcalls,hk],by simp,by simpa using hstage,by simp,hs.see_answered hk hup hne⟩
  | reply j i k' err hup hi hm hcalls =>
    refine ⟨_,by rw [hcalls,getElem?_replied,hk,Option.map_some],?_⟩
    by_cases he : k' = k
    · subst he
      obtain ⟨c',hc',hid,-⟩ := hs.mapped i k' hi
      cases hk.symm.trans hc'
      simp [ClientCall.answer,ClientCall.answered,hup,hid]
    · have hne : s.awaitingCmds i ≠ some k := by simp [hi,he]
      rw [if_neg he]
      exact ⟨by simp,by simpa using hstage,by simp,hs.see_answered hk hup hne⟩

/-- From `addCommand` on: a call has its answer exactly if its id has come up. -/
theorem run_past {K : Codec} {u t : ClientSrv} {l : List Act} (h : run K u l = some t)
    (htr : ∀ l' m, l' <+: l → run K u l' = some m → m.Tracked) {k : Nat} {c : ClientCall}
    (hk : u.calls[k]? = some c) (hstage : c.stage = .waiting) : ∃ d, t.calls[k]? = some d ∧ d.cmd = c.cmd ∧
      d.stage ≠ .registered ∧ d.discarded = c.discarded ∧ (d.answered = true ↔
        ∃ l' j m, l' ++ [.next j] <+: l ∧ run K u l' = some m ∧ m.upcoming j = some c.cmd.id) := by
  refine foldlM_prefix_rec (Q := fun l t => ∃ d, t.calls[k]? = some d ∧ d.cmd = c.cmd ∧ d.stage ≠ .registered ∧
    d.discarded = c.discarded ∧ (d.answered = true ↔
      ∃ l' j m, l' ++ [.next j] <+: l ∧ run K u l' = some m ∧ m.upcoming j = some c.cmd.id))
    ⟨c,hk,rfl,by simp [hstage],rfl,by simp [ClientCall.answered,hstage]⟩ ?_ List.prefix_rfl h
  rintro l' a m t' hl hm ⟨d,hd,hcmd,hpast,hdis,hans⟩ hstep
  have hmtr := htr l' m ((List.prefix_append _ _).trans hl) hm
  obtain ⟨d',hd',hcmd',hpast',hdis',hans'⟩ := (step_change hstep).past hmtr hd hpast
  refine ⟨d',hd',hcmd'.trans hcmd,hpast',hdis'.trans hdis,hans'.trans ?_⟩
  rw [hans,hcmd]
  constructor
  · rintro (⟨l₁,j,m₁,hl₁,hm₁,hup⟩ | ⟨j,rfl,hup⟩)
    · exact ⟨l₁,j,m₁,hl₁.trans (List.prefix_append _ _),hm₁,hup⟩
    · exact ⟨l',j,m,List.prefix_rfl,hm,hup⟩
  · rintro ⟨l₁,j,m₁,hl₁,hm₁,hup⟩
    rcases List.prefix_concat_iff.mp hl₁ with hlast | hl₁
    · obtain ⟨rfl,ha⟩ := List.append_inj' hlast rfl
      cases hm₁.symm.trans hm
      exact .inr ⟨j,(List.singleton_inj.mp ha).symm,hup⟩
    · exact .inl ⟨l₁,j,m₁,hl₁,hm₁,hup⟩

/-- A discarded call was too old in its `addCommand`. -/
theorem run_discarded {K : Codec} {n : Nat} {t : ClientSrv} {l : List Act} (h : run K (new n) l = some t) {k : Nat}
    {d : ClientCall} (hd : t.calls[k]? = some d) (hdis : d.discarded = true) :
    ∃ l' s c, l' ++ [.addCommand k] <+: l ∧ run K (new n) l' = some s ∧ s.calls[k]? = some c ∧
      s.cmdCache.tooOld c.cmd = true := by
  refine foldlM_rec (Q := fun l t => ∀ d, t.calls[k]? = some d → d.discarded = true →
    ∃ l' s c, l' ++ [.addCommand k] <+: l ∧ run K (new n) l' = some s ∧ s.calls[k]? = some c ∧
      s.cmdCache.tooOld c.cmd = true) (fun d hd => by simp [new] at hd) ?_ h d hd hdis
  intro l a m t hm ih hstep d hd hdis
  rcases (step_change hstep).discarded hd hdis with ⟨c,hc,hcd⟩ | ⟨c,rfl,hc,hold⟩
  · obtain ⟨l',s,c',hl,hs,hc',hold⟩ := ih c hc hcd
    exact ⟨l',s,c',hl.trans (List.prefix_append _ _),hs,hc',hold⟩
  · exact ⟨l,m,c,List.prefix_rfl,hm,hc,hold⟩

theorem run_tracked {K : Codec} {n : Nat} {l : List Act}
    (hf : ∀ l' cmd s, l' ++ [.execCommand cmd] <+: l → run K (new n) l' = some s → s.Tracked → s.Fresh cmd)
    {l' : List Act} {s : ClientSrv} (hl : l' <+: l) (hs : run K (new n) l' = some s) : s.Tracked := by
  refine foldlM_prefix_rec (Q := fun _ t => t.Tracked) (.new n) ?_ hl hs
  intro l' a m t hl hm htr hstep
  refine htr.change (step_change hstep) ?_
  rintro cmd rfl
  exact hf l' cmd m hl hm htr

theorem addCommand_call {K : Codec} {s u : ClientSrv} {k : Nat} {c : ClientCall}
    (h : step K s (.addCommand k) = some u) (hc : s.calls[k]? = some c) :
    u.calls[k]? = some (c.added (s.cmdCache.tooOld c.cmd)) := by
  simp only [step,hc] at h
  split_ifs at h
  cases h
  exact List.getElem?_set_self (List.getElem?_eq_some_iff.mp hc).1

def ComesUp (K : Codec) (n : Nat) (l l' : List Act) (k : Nat) (i : CmdID) : Prop :=
  ∃ l₂ j m, l' ++ .addCommand k :: (l₂ ++ [.next j]) <+: l ∧ run K (new n) (l' ++ .addCommand k :: l₂) = some m ∧
    m.upcoming j = some i

/-- If no id in use is registered, a call that `addCommand` discards has its answer at the end exactly if its id comes
up afterwards. -/
theorem discarded_answered_iff {K : Codec} {n : Nat} {l l' : List Act} {s t : ClientSrv} {k : Nat} {c : ClientCall}
    (h : run K (new n) l = some t) (htr : ∀ l' m, l' <+: l → run K (new n) l' = some m → m.Tracked)
    (hl : l' ++ [.addCommand k] <+: l) (hs : run K (new n) l' = some s) (hc : s.calls[k]? = some c) :
    ∃ d, t.calls[k]? = some d ∧ d.discarded = s.cmdCache.tooOld c.cmd ∧
      (d.answered = true ↔ ComesUp K n l l' k c.cmd.id) := by
  obtain ⟨l₂,rfl⟩ := hl
  rw [List.append_assoc,List.singleton_append] at h htr ⊢
  have hsplit (l₁ : List Act) (m : ClientSrv) : run K (new n) (l' ++ .addCommand k :: l₁) = some m ↔
      ∃ u, step K s (.addCommand k) = some u ∧ run K u l₁ = some m := by
    have hs' : l'.foldlM (step K) (new n) = some s := hs
    simp [run,List.foldlM_append,hs',Option.bind_eq_some_iff]
  obtain ⟨u,hu,ht⟩ := (hsplit l₂ t).mp h
  have hpast := run_past ht (fun l₁ m hl₁ hm => htr _ m ?_ ((hsplit l₁ m).mpr ⟨u,hu,hm⟩)) (addCommand_call hu hc) rfl
  · obtain ⟨d,hd,-,-,hdis,hans⟩ := hpast
    refine ⟨d,hd,hdis,hans.trans ?_⟩
    constructor
    · rintro ⟨l₁,j,m,hl₁,hm,hup⟩
      exact ⟨l₁,j,m,by simpa using hl₁,(hsplit l₁ m).mpr ⟨u,hu,hm⟩,hup⟩
    · rintro ⟨l₁,j,m,hl₁,hm,hup⟩
      obtain ⟨u',hu',hm⟩ := (hsplit l₁ m).mp hm
      cases hu.symm.trans hu'
      exact ⟨l₁,j,m,by simpa using hl₁,hm,hup⟩
  · simpa using hl₁

/-- A run from the start to its end. Every call whose id has come up since its registration has its answer, no channel
of an unanswered call is replaced, and the discarded calls have their answer by the end, exactly if no command is sent
while a call with its id is unanswered, and the id of every command that reaches the cache too old comes up later. -/
theorem requests_answered_iff (K : Codec) (batchSize : Nat) {l : List Act} {t : ClientSrv}
    (h : run K (new batchSize) l = some t) :
    (∀ l' s, l' <+: l → run K (new batchSize) l' = some s → s.Served) ∧
      (∀ l' cmd s, l' ++ [.execCommand cmd] <+: l → run K (new batchSize) l' = some s → ¬ s.Overwrites cmd) ∧
      (∀ c ∈ t.calls, c.discarded = true → c.answered = true) ↔
    (∀ l' cmd s, l' ++ [.execCommand cmd] <+: l → run K (new batchSize) l' = some s → s.Fresh cmd) ∧
      ∀ l' k s c, l' ++ [.addCommand k] <+: l → run K (new batchSize) l' = some s → s.calls[k]? = some c →
        s.cmdCache.tooOld c.cmd = true → ComesUp K batchSize l l' k c.cmd.id := by
  constructor
  · rintro ⟨-,hover,hanswered⟩
    have htr (l' : List Act) (s : ClientSrv) (hl : l' <+: l) (hs : run K (new batchSize) l' = some s) : s.Tracked :=
      run_tracked (fun l' cmd s hl hs htr => htr.fresh (hover l' cmd s hl hs)) hl hs
    refine ⟨fun l' cmd s hl hs => ?_,fun l' k s c hl hs hc hold => ?_⟩
    · exact (htr l' s ((List.prefix_append _ _).trans hl) hs).fresh (hover l' cmd s hl hs)
    · obtain ⟨d,hd,hdis,hans⟩ := discarded_answered_iff h htr hl hs hc
      exact hans.mp (hanswered d (List.mem_of_getElem? hd) (hdis.trans hold))
  · rintro ⟨hfresh,hup⟩
    have htr (l' : List Act) (s : ClientSrv) (hl : l' <+: l) (hs : run K (new batchSize) l' = some s) : s.Tracked :=
      run_tracked (fun l' cmd s hl hs _ => hfresh l' cmd s hl hs) hl hs
    refine ⟨fun l' s hl hs c hc hseen => ?_,?_,fun d hd hdis => ?_⟩
    · obtain ⟨k,hk⟩ := List.mem_iff_getElem?.mp hc
      by_contra ha
      have hunseen := ((htr l' s hl hs).waiting k c hk (by simpa using ha)).2
      simp [hseen] at hunseen
    · rintro l' cmd s hl hs ⟨k,c,hk,hc,ha⟩
      obtain ⟨d,hd,hid,-⟩ := (htr l' s ((List.prefix_append _ _).trans hl) hs).mapped _ _ hk
      cases hc.symm.trans hd
      have := hfresh l' cmd s hl hs c (List.mem_of_getElem? hc) hid
      simp [ha] at this
    · obtain ⟨k,hk⟩ := List.mem_iff_getElem?.mp hd
      obtain ⟨l',s,c,hl,hs,hc,hold⟩ := run_discarded h hk hdis
      obtain ⟨d',hd',-,hans⟩ := discarded_answered_iff h htr hl hs hc
      cases hk.symm.trans hd'
      exact hans.mpr (hup l' k s c hl hs hc hold)

end ClientSrv

namespace Sample
open ClientSrv

private def request : ClientCommand := ⟨1,1,[]⟩

private def lateExec : List Act := [.cache (.proposed [1]),.execCommand request,.addCommand 0,.exec [1],.next 0]

theorem requests_answered_late : ∃ t, run codec (new 1) lateExec = some t ∧ t.Served ∧
    ∃ c ∈ t.calls, c.discarded = true ∧ c.answered = true := by
  have hrun : (run codec (new 1) lateExec).any (fun t => t.calls.any (·.discarded)) = true := by decide
  obtain ⟨t,ht,hany⟩ := (Option.any_eq_true _ _).mp hrun
  obtain ⟨c,hc,hdis⟩ := List.any_eq_true.mp hany
  have hanswered := (requests_answered_iff codec 1 ht).mpr ⟨?_,?_⟩
  · exact ⟨t,ht,hanswered.1 lateExec t List.prefix_rfl ht,c,hc,hdis,hanswered.2.2 c hc hdis⟩
  · intro l' cmd s hl hs
    obtain ⟨hl',hcmd⟩ := prefix_snoc hl
    obtain ⟨hn,rfl⟩ : l'.length = 1 ∧ request = cmd := by
      revert hcmd
      generalize l'.length = n
      rcases n with _ | _ | _ | _ | _ | n <;> simp [lateExec]
    rw [hl',hn] at hs
    cases hs
    exact fun c hc => absurd hc List.not_mem_nil
  · intro l' k s c hl hs hc hold
    obtain ⟨hl',hk⟩ := prefix_snoc hl
    obtain ⟨hn,rfl⟩ : l'.length = 2 ∧ 0 = k := by
      revert hk
      generalize l'.length = n
      rcases n with _ | _ | _ | _ | _ | n <;> simp [lateExec]
    rw [hn] at hl'
    rw [hl'] at hs ⊢
    cases hs
    cases hc
    have hnext : (run codec (new 1) (lateExec.take 2 ++ [.addCommand 0,.exec [1]])).any
        (fun m => m.upcoming 0 = some request.id) = true := by decide
    obtain ⟨m,hm,hup⟩ := (Option.any_eq_true _ _).mp hnext
    exact ⟨[.exec [1]],0,m,List.prefix_rfl,hm,of_decide_eq_true hup⟩

private def resent : List Act :=
  [.execCommand request,.addCommand 0,.execCommand request,.addCommand 1,.exec [1],.next 0]

private def tooLate : List Act :=
  [.cache (.accept [1]),.cache (.proposed [1]),.exec [1],.next 0,.execCommand request,.addCommand 0]

/-- Client 1 sends its command again while it waits: the answer goes to the second call only. And
when the command has been proposed by another replica and executed before the client's call gets to the cache, it is
dropped and the call never hears of it: the batch is not accepted again. -/
theorem request_unanswered :
    (∃ t, run codec (new 1) resent = some t ∧ ∃ c ∈ t.calls, c.seen = true ∧ c.answered = false) ∧
    ∃ t, run codec (new 1) tooLate = some t ∧ t.cmdCache.accept codec [1] = false ∧
      ∃ c ∈ t.calls, c.discarded = true ∧ c.answered = false := by
  constructor
  · have hrun : (run codec (new 1) resent).any (fun t => t.calls.any (fun c => c.seen && !c.answered)) = true := by
      decide
    obtain ⟨t,ht,hany⟩ := (Option.any_eq_true _ _).mp hrun
    obtain ⟨c,hc,hp⟩ := List.any_eq_true.mp hany
    exact ⟨t,ht,c,hc,by simpa using hp⟩
  · have hrun : (run codec (new 1) tooLate).any (fun t => !t.cmdCache.accept codec [1] &&
        t.calls.any (fun c => c.discarded && !c.answered)) = true := by decide
    obtain ⟨t,ht,hp⟩ := (Option.any_eq_true _ _).mp hrun
    rw [Bool.and_eq_true] at hp
    obtain ⟨c,hc,hd⟩ := List.any_eq_true.mp hp.2
    exact ⟨t,ht,by simpa using hp.1,c,hc,by simpa using hd⟩

end Sample
end Hotstuff
