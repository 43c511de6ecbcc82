import Hotstuff.Consensus.Types
import Mathlib.Data.List.Nodup
import Mathlib.Data.List.Flatten

/-! The command cache of a replica. Clients' commands are queued, batched for proposals, and checked
against the highest sequence number that has been proposed for each client. -/
namespace Hotstuff
open Library

abbrev CmdID := UInt32 × UInt64

structure ClientCommand where
  clientID : UInt32
  sequenceNumber : UInt64
  data : List UInt8
  deriving DecidableEq, Repr

namespace ClientCommand
def id (c : ClientCommand) : CmdID := (c.clientID,c.sequenceNumber)
end ClientCommand

structure Codec where
  marshal : List ClientCommand → Option Command
  unmarshal : Command → Option (List ClientCommand)
  lossless : ∀ b c, marshal b = some c → unmarshal c = some b

/-- A client without an entry in `serialNumbers` reads as 0. -/
structure CmdCache where
  batchSize : Nat
  serialNumbers : UInt32 → UInt64
  cache : List ClientCommand

namespace CmdCache

def new (batchSize : Nat) : CmdCache := ⟨batchSize,fun _ => 0,[]⟩

def tooOld (c : CmdCache) (cmd : ClientCommand) : Bool := cmd.sequenceNumber ≤ c.serialNumbers cmd.clientID

def addCommand (cmd : ClientCommand) (c : CmdCache) : CmdCache :=
  if c.tooOld cmd then c else { c with cache := c.cache ++ [cmd] }

/-- The loop of `Get` with `i` commands still to take: those that are too old are removed and not counted. -/
def takeBatch (c : CmdCache) : Nat → List ClientCommand → List ClientCommand × List ClientCommand
  | 0, l => ([],l)
  | _+1, [] => ([],[])
  | i+1, cmd :: l =>
    if c.tooOld cmd then c.takeBatch (i+1) l
    else (cmd :: (c.takeBatch i l).1,(c.takeBatch i l).2)

inductive Got where
  | waits
  | returns (cmd : Option Command)
  deriving DecidableEq, Repr

/-- One critical section of `Get`. If all commands were too old the cache is empty and `Get` waits again. -/
def get (K : Codec) (c : CmdCache) : Got × CmdCache :=
  if c.cache.length ≤ c.batchSize then (.waits,c)
  else match c.takeBatch c.batchSize c.cache with
    | ([],rest) => (.waits,{ c with cache := rest })
    | (cmd :: batch,rest) => (.returns (K.marshal (cmd :: batch)),{ c with cache := rest })

def accept (K : Codec) (cmd : Command) (c : CmdCache) : Bool :=
  match K.unmarshal cmd with
  | none => false
  | some batch => batch.all (fun x => ¬ c.tooOld x)

def mark (c : CmdCache) (cmd : ClientCommand) : CmdCache :=
  if c.serialNumbers cmd.clientID < cmd.sequenceNumber then
    { c with serialNumbers := Function.update c.serialNumbers cmd.clientID cmd.sequenceNumber }
  else c

def proposed (K : Codec) (cmd : Command) (c : CmdCache) : CmdCache :=
  match K.unmarshal cmd with
  | none => c
  | some batch => batch.foldl mark c

inductive Op where
  | addCommand (cmd : ClientCommand)
  | get
  | accept (cmd : Command)
  | proposed (cmd : Command)

def step (K : Codec) (c : CmdCache) : Op → CmdCache
  | .addCommand cmd => c.addCommand cmd
  | .get => (c.get K).2
  | .accept _ => c
  | .proposed cmd => c.proposed K cmd

def run (K : Codec) (c : CmdCache) (ops : List Op) : CmdCache := ops.foldl (step K) c

variable {K : Codec} {c d : CmdCache}

theorem run_append (c : CmdCache) (l l' : List Op) : run K c (l ++ l') = run K (run K c l) l' := List.foldl_append

def Ahead (c d : CmdCache) : Prop := ∀ i, c.serialNumbers i ≤ d.serialNumbers i

theorem Ahead.refl (c : CmdCache) : Ahead c c := fun _ => UInt64.le_refl _

theorem Ahead.trans {e : CmdCache} (h : Ahead c d) (h' : Ahead d e) : Ahead c e :=
  fun i => UInt64.le_trans (h i) (h' i)

theorem mark_spec (c : CmdCache) (cmd : ClientCommand) :
    Ahead c (c.mark cmd) ∧ cmd.sequenceNumber ≤ (c.mark cmd).serialNumbers cmd.clientID := by
  rw [mark]
  split_ifs with hlt
  · refine ⟨fun i => ?_,by simp⟩
    by_cases hi : i = cmd.clientID
    · subst hi
      simpa using UInt64.le_of_lt hlt
    · simp [Function.update_of_ne hi]
  · exact ⟨.refl c,UInt64.not_lt.mp hlt⟩

theorem foldl_mark_spec (batch : List ClientCommand) (c : CmdCache) : Ahead c (batch.foldl mark c) ∧
    ∀ x ∈ batch, x.sequenceNumber ≤ (batch.foldl mark c).serialNumbers x.clientID := by
  induction batch generalizing c with
  | nil => exact ⟨.refl c,by simp⟩
  | cons y batch ih =>
    obtain ⟨hle,hmem⟩ := ih (c.mark y)
    obtain ⟨hy,hyle⟩ := mark_spec c y
    refine ⟨hy.trans hle,fun x hx => ?_⟩
    rcases List.mem_cons.mp hx with rfl | hx
    · exact UInt64.le_trans hyle (hle _)
    · exact hmem x hx

theorem step_ahead (c : CmdCache) (op : Op) : Ahead c (step K c op) := by
  cases op with
  | addCommand cmd =>
    rw [step,addCommand]
    split_ifs <;> exact .refl c
  | get =>
    rw [step,get]
    split_ifs
    · exact .refl c
    · split <;> exact .refl c
  | accept cmd => exact .refl c
  | proposed cmd =>
    rw [step,proposed]
    split
    · exact .refl c
    · exact (foldl_mark_spec _ c).1

theorem run_ahead (c : CmdCache) (l : List Op) : Ahead c (run K c l) := by
  induction l generalizing c with
  | nil => exact .refl c
  | cons op l ih => exact (step_ahead c op).trans (ih _)

/-- Once a batch has been marked, its commands are too old. -/
theorem run_marks {cmd : Command} {batch : List ClientCommand} (hb : K.unmarshal cmd = some batch) {l : List Op}
    (hl : .proposed cmd ∈ l) (c : CmdCache) :
    ∀ x ∈ batch, x.sequenceNumber ≤ (run K c l).serialNumbers x.clientID := by
  obtain ⟨l,l',rfl⟩ := List.append_of_mem hl
  intro x hx
  have hmark : step K (run K c l) (.proposed cmd) = batch.foldl mark (run K c l) := by
    rw [step,proposed,hb]
  rw [run_append,run,List.foldl_cons,hmark]
  exact UInt64.le_trans ((foldl_mark_spec batch _).2 x hx) (run_ahead _ l' _)

/-- The batches that are accepted one after the other during the calls `ops`, each of them marked as proposed
before the next one is accepted. -/
inductive Accepted (K : Codec) : CmdCache → List Op → List (List ClientCommand) → Prop
  | nil {c : CmdCache} {ops : List Op} : Accepted K c ops []
  | cons {c : CmdCache} (before after : List Op) {ops : List Op} {cmd : Command} {batch : List ClientCommand}
      {rest : List (List ClientCommand)} : K.unmarshal cmd = some batch → (run K c before).accept K cmd = true →
      .proposed cmd ∈ after ∨ rest = [] → Accepted K (run K c (before ++ .accept cmd :: after)) ops rest →
      Accepted K c (before ++ .accept cmd :: after ++ ops) (batch :: rest)

theorem accept_iff {cmd : Command} {batch : List ClientCommand} (hb : K.unmarshal cmd = some batch) :
    c.accept K cmd = true ↔ ∀ x ∈ batch, c.serialNumbers x.clientID < x.sequenceNumber := by
  simp [accept,hb,tooOld]

/-- What is accepted later is above what had been marked before. -/
theorem Accepted.lt {ops : List Op} {batches : List (List ClientCommand)} (h : Accepted K c ops batches) :
    ∀ b ∈ batches, ∀ x ∈ b, c.serialNumbers x.clientID < x.sequenceNumber := by
  induction h with
  | nil => simp
  | @cons c before after _ _ _ _ hb hacc _ _ ih =>
    intro b hmem x hx
    rcases List.mem_cons.mp hmem with rfl | hmem
    · exact UInt64.lt_of_le_of_lt (run_ahead c before _) ((accept_iff hb).mp hacc x hx)
    · exact UInt64.lt_of_le_of_lt (run_ahead c _ _) (ih b hmem x hx)

def pairs (batches : List (List ClientCommand)) : List CmdID := batches.flatMap (List.map ClientCommand.id)

theorem mem_pairs {batches : List (List ClientCommand)} {i : CmdID} :
    i ∈ pairs batches ↔ ∃ b ∈ batches, ∃ x ∈ b, x.id = i := by
  simp [pairs]

/-- No pair is in two of the batches. -/
theorem Accepted.disjoint {c : CmdCache} {ops l : List Op} {cmd : Command} {batch : List ClientCommand}
    {rest : List (List ClientCommand)} (hb : K.unmarshal cmd = some batch) (hl : .proposed cmd ∈ l ∨ rest = [])
    (h : Accepted K (run K c l) ops rest) : List.Disjoint (batch.map ClientCommand.id) (pairs rest) := by
  intro i hi hrest
  obtain ⟨x,hx,rfl⟩ := List.mem_map.mp hi
  obtain ⟨b,hbr,y,hy,he⟩ := mem_pairs.mp hrest
  rcases hl with hl | rfl
  · obtain ⟨hc,hs⟩ := Prod.mk.injEq .. ▸ he
    have hlt := h.lt b hbr y hy
    rw [hc,hs] at hlt
    exact UInt64.not_lt.mpr (run_marks hb hl c x hx) hlt
  · simp at hbr

theorem Accepted.nodup_iff {ops : List Op} {batches : List (List ClientCommand)} (h : Accepted K c ops batches) :
    (pairs batches).Nodup ↔ ∀ b ∈ batches, (b.map ClientCommand.id).Nodup := by
  induction h with
  | nil => simp [pairs]
  | @cons c before after _ _ batch rest hb hacc hprop hrest ih =>
    have hdis : List.Disjoint (batch.map ClientCommand.id) (pairs rest) :=
      hrest.disjoint hb (hprop.imp_left fun h => List.mem_append_right _ (List.mem_cons_of_mem _ h))
    have hsplit : pairs (batch :: rest) = batch.map ClientCommand.id ++ pairs rest := List.flatMap_cons
    rw [hsplit,List.nodup_append',ih]
    constructor
    · rintro ⟨hbatch,hr,-⟩ b hmem
      rcases List.mem_cons.mp hmem with rfl | hmem
      · exact hbatch
      · exact hr b hmem
    · intro hall
      exact ⟨hall _ List.mem_cons_self,fun b hmem => hall b (List.mem_cons_of_mem _ hmem),hdis⟩

def submitted : List Op → List CmdID
  | [] => []
  | .addCommand cmd :: l => cmd.id :: submitted l
  | _ :: l => submitted l

theorem submitted_append (l l' : List Op) : submitted (l ++ l') = submitted l ++ submitted l' := by
  induction l with
  | nil => rfl
  | cons op l ih => cases op <;> simp [submitted,ih]

theorem takeBatch_sublist (i : Nat) (l : List ClientCommand) :
    (c.takeBatch i l).1.Sublist l ∧ (c.takeBatch i l).2.Sublist l := by
  fun_induction takeBatch c i l with
  | case1 l => simp
  | case2 i => simp
  | case3 i cmd l _ ih => exact ⟨ih.1.cons cmd,ih.2.cons cmd⟩
  | case4 i cmd l _ ih => exact ⟨ih.1.cons_cons cmd,ih.2.cons cmd⟩

theorem get_cache_sublist (c : CmdCache) : (c.get K).2.cache.Sublist c.cache := by
  have ht := takeBatch_sublist (c := c) c.batchSize c.cache
  rw [get]
  split_ifs
  · exact .refl _
  · split
    · rename_i rest he
      rw [he] at ht
      exact ht.2
    · rename_i rest he
      rw [he] at ht
      exact ht.2

theorem foldl_mark_queue (batch : List ClientCommand) (c : CmdCache) :
    (batch.foldl mark c).cache = c.cache ∧ (batch.foldl mark c).batchSize = c.batchSize := by
  have hmark (x : ClientCommand) (c : CmdCache) : (c.mark x).cache = c.cache ∧ (c.mark x).batchSize = c.batchSize := by
    rw [mark]
    split_ifs <;> exact ⟨rfl,rfl⟩
  induction batch generalizing c with
  | nil => exact ⟨rfl,rfl⟩
  | cons x batch ih => exact ⟨(ih _).1.trans (hmark x c).1,(ih _).2.trans (hmark x c).2⟩

/-- Marking a batch leaves the queue alone. -/
theorem proposed_queue (cmd : Command) (c : CmdCache) :
    (c.proposed K cmd).cache = c.cache ∧ (c.proposed K cmd).batchSize = c.batchSize := by
  rw [proposed]
  split
  · exact ⟨rfl,rfl⟩
  · exact foldl_mark_queue _ c

/-- The queue holds submitted commands, none of them more often than it was submitted. -/
theorem run_cache_sublist (c : CmdCache) (l : List Op) :
    ((run K c l).cache.map ClientCommand.id).Sublist (c.cache.map ClientCommand.id ++ submitted l) := by
  induction l generalizing c with
  | nil => simp [run,submitted]
  | cons op l ih =>
    refine (ih (step K c op)).trans ?_
    cases op with
    | addCommand cmd =>
      rw [step,addCommand,submitted]
      split_ifs
      · exact (List.Sublist.refl _).append (List.sublist_cons_self _ _)
      · simp
    | get => exact ((get_cache_sublist c).map _).append (.refl _)
    | accept cmd => exact .refl _
    | proposed cmd =>
      rw [step,(proposed_queue cmd c).1]
      exact .refl _

theorem get_returns {cmd : Command} (h : c.get K = (.returns (some cmd),d)) :
    ∃ batch, K.unmarshal cmd = some batch ∧ batch.Sublist c.cache := by
  have ht := (takeBatch_sublist (c := c) c.batchSize c.cache).1
  rw [get] at h
  split_ifs at h
  · cases h
  split at h
  · cases h
  · rename_i x batch rest he
    rw [he] at ht
    obtain ⟨hcmd,-⟩ := Prod.mk.injEq .. ▸ h
    exact ⟨x :: batch,K.lossless _ _ (Got.returns.inj hcmd),ht⟩

/-- Whatever is called on a cache, no pair is executed twice exactly if no accepted batch has a pair twice in itself;
and the batches that `Get` returns have none if clients submit no pair twice. -/
theorem commands_once_iff (K : Codec) (batchSize : Nat) {ops : List Op} {batches : List (List ClientCommand)}
    (h : Accepted K (new batchSize) ops batches) :
    ((pairs batches).Nodup ↔ ∀ b ∈ batches, (b.map ClientCommand.id).Nodup) ∧
    ((submitted ops).Nodup → ∀ before after cmd d b, ops = before ++ .get :: after →
      (run K (new batchSize) before).get K = (.returns (some cmd),d) → K.unmarshal cmd = some b →
      (b.map ClientCommand.id).Nodup) := by
  refine ⟨h.nodup_iff,?_⟩
  rintro hsub before after cmd d b rfl hget hb
  obtain ⟨batch,hbatch,hcache⟩ := get_returns hget
  cases hb.symm.trans hbatch
  have hrun : ((run K (new batchSize) before).cache.map ClientCommand.id).Sublist (submitted before) :=
    run_cache_sublist (new batchSize) before
  have hpre : (submitted before).Sublist (submitted (before ++ .get :: after)) := by
    rw [submitted_append]
    exact List.sublist_append_left _ _
  exact hsub.sublist (((hcache.map _).trans hrun).trans hpre)

def fresh (c : CmdCache) (cmd : ClientCommand) : Bool := c.serialNumbers cmd.clientID < cmd.sequenceNumber

theorem tooOld_eq (c : CmdCache) (cmd : ClientCommand) : c.tooOld cmd = !c.fresh cmd := by
  rw [tooOld,fresh,Bool.eq_iff_iff,decide_eq_true_iff,Bool.not_eq_true',decide_eq_false_iff_not]
  exact UInt64.not_lt.symm

theorem takeBatch_fst (i : Nat) (l : List ClientCommand) : (c.takeBatch i l).1 = (l.filter c.fresh).take i := by
  fun_induction takeBatch c i l with
  | case1 l => simp
  | case2 i => simp
  | case3 i cmd l hold ih =>
    rw [tooOld_eq,Bool.not_eq_true'] at hold
    rw [List.filter_cons_of_neg (by simp [hold]),ih]
  | case4 i cmd l hold ih =>
    rw [tooOld_eq,Bool.not_eq_true',Bool.not_eq_false] at hold
    rw [List.filter_cons_of_pos hold,List.take_succ_cons,ih]

/-- What the loop has examined is in front of what it leaves. It stops at the end of the queue, or with the
command that fills the batch. -/
theorem takeBatch_examined {i : Nat} (hi : 0 < i) (l : List ClientCommand) : ∃ examined,
    l = examined ++ (c.takeBatch i l).2 ∧ (c.takeBatch i l).1 = examined.filter c.fresh ∧
    ((c.takeBatch i l).2 = [] ∨
      (c.takeBatch i l).1.length = i ∧ ∃ before last, examined = before ++ [last] ∧ c.fresh last = true) := by
  fun_induction takeBatch c i l with
  | case1 l => cases hi
  | case2 i => exact ⟨[],rfl,rfl,.inl rfl⟩
  | case3 i cmd l hold ih =>
    obtain ⟨examined,hl,hbatch,hend⟩ := ih hi
    rw [tooOld_eq,Bool.not_eq_true'] at hold
    refine ⟨cmd :: examined,congrArg (cmd :: ·) hl,?_,?_⟩
    · rw [List.filter_cons_of_neg (by simp [hold]),hbatch]
    · apply hend.imp_right
      rintro ⟨hlen,before,last,rfl,hlast⟩
      exact ⟨hlen,cmd :: before,last,rfl,hlast⟩
  | case4 i cmd l hold ih =>
    rw [tooOld_eq,Bool.not_eq_true',Bool.not_eq_false] at hold
    rcases Nat.eq_zero_or_pos i with rfl | hi
    · have hzero : c.takeBatch 0 l = ([],l) := by rw [takeBatch]
      rw [hzero]
      refine ⟨[cmd],rfl,?_,.inr ⟨rfl,[],cmd,rfl,hold⟩⟩
      rw [List.filter_cons_of_pos hold,List.filter_nil]
    obtain ⟨examined,hl,hbatch,hend⟩ := ih hi
    refine ⟨cmd :: examined,congrArg (cmd :: ·) hl,?_,?_⟩
    · rw [List.filter_cons_of_pos hold,hbatch]
    · apply hend.imp_right
      rintro ⟨hlen,before,last,rfl,hlast⟩
      exact ⟨congrArg (· + 1) hlen,cmd :: before,last,rfl,hlast⟩

theorem get_passed (hwait : c.batchSize < c.cache.length) : c.get K =
    if (c.takeBatch c.batchSize c.cache).1 = [] then (.waits,{ c with cache := (c.takeBatch c.batchSize c.cache).2 })
    else (.returns (K.marshal (c.takeBatch c.batchSize c.cache).1),
      { c with cache := (c.takeBatch c.batchSize c.cache).2 }) := by
  rw [get,if_neg (by omega)]
  split <;> rename_i he <;> simp [he]

/-- What `Get` does once it has passed its wait loop. If there is a fresh command the batch consists of the first
fresh ones, up to the size of a batch. All that was examined is removed, what comes after it stays, and what was
removed without being in the batch was stale. Otherwise the queue is emptied and `Get` waits again. -/
theorem get_batch (K : Codec) (c : CmdCache) (hsize : 1 ≤ c.batchSize) (hwait : c.batchSize < c.cache.length) :
    ((∃ x ∈ c.cache, c.fresh x = true) → ∃ batch examined rest,
      c.get K = (.returns (K.marshal batch),{ c with cache := rest }) ∧
      batch = (c.cache.filter c.fresh).take (min c.batchSize (c.cache.filter c.fresh).length) ∧
      c.cache = examined ++ rest ∧ batch = examined.filter c.fresh ∧
      (rest = [] ∨ batch.length = c.batchSize ∧ ∃ before last, examined = before ++ [last] ∧ c.fresh last = true) ∧
      ∀ x ∈ examined, x ∉ batch → c.tooOld x = true) ∧
    ((∀ x ∈ c.cache, c.fresh x = false) → c.get K = (.waits,{ c with cache := [] }) ∧
      get K { c with cache := [] } = (.waits,{ c with cache := [] })) := by
  obtain ⟨examined,hsplit,hbatch,hend⟩ := takeBatch_examined (c := c) hsize c.cache
  have hfst := takeBatch_fst (c := c) c.batchSize c.cache
  have hget := get_passed (K := K) hwait
  constructor
  · rintro ⟨x,hx,hfresh⟩
    have hne : (c.takeBatch c.batchSize c.cache).1 ≠ [] := by
      rw [hfst]
      intro hnil
      rcases List.take_eq_nil_iff.mp hnil with hzero | hnone
      · omega
      · exact List.not_mem_nil (hnone ▸ List.mem_filter.mpr ⟨hx,hfresh⟩)
    rw [if_neg hne] at hget
    refine ⟨_,examined,_,hget,?_,hsplit,hbatch,hend,?_⟩
    · rw [hfst,← List.take_eq_take_min]
    · intro y hy hout
      rw [tooOld_eq,Bool.not_eq_true',← Bool.not_eq_true]
      intro hyfresh
      exact hout (hbatch ▸ List.mem_filter.mpr ⟨hy,hyfresh⟩)
  · intro hstale
    have hnone : c.cache.filter c.fresh = [] := List.filter_eq_nil_iff.mpr fun x hx => by simp [hstale x hx]
    have hnil : (c.takeBatch c.batchSize c.cache).1 = [] := by rw [hfst,hnone,List.take_nil]
    have hrest : (c.takeBatch c.batchSize c.cache).2 = [] := by
      rcases hend with hrest | ⟨hlen,-⟩
      · exact hrest
      · rw [hnil,List.length_nil] at hlen
        omega
    rw [if_pos hnil,hrest] at hget
    exact ⟨hget,by simp [get]⟩

end CmdCache

namespace Sample
open CmdCache

def codec : Codec where
  marshal b := if b.all (fun c => c = ⟨1,c.sequenceNumber.toUInt8.toUInt64,[]⟩) then
    some (b.map (fun c => c.sequenceNumber.toUInt8)) else none
  unmarshal x := some (x.map (fun n => ⟨1,n.toUInt64,[]⟩))
  lossless b c h := by
    split_ifs at h with hb
    cases h
    rw [List.map_map,Option.some.injEq]
    refine (List.map_congr_left fun x hx => ?_).trans (List.map_id b)
    exact (of_decide_eq_true (List.all_eq_true.mp hb x hx)).symm

private def command (n : UInt64) : ClientCommand := ⟨1,n,[]⟩

private def queued : CmdCache := ⟨2,fun _ => 1,[command 1,command 2,command 3,command 4]⟩

/-- The first of four commands has been proposed before, so that a batch of two is the next two. -/
theorem get_batch_stale : ∃ examined rest, queued.cache = examined ++ rest ∧
    examined.filter queued.fresh = [command 2,command 3] ∧
    queued.get codec = (.returns (some [2,3]),{ queued with cache := rest }) := by
  obtain ⟨batch,examined,rest,hget,hbatch,hsplit,hexamined,-⟩ :=
    (get_batch codec queued (by decide) (by decide)).1 ⟨command 2,by decide,by decide⟩
  have htwo : batch = [command 2,command 3] := hbatch.trans (by decide)
  refine ⟨examined,rest,hsplit,hexamined.symm.trans htwo,?_⟩
  rw [hget,htwo]
  rfl

theorem commands_once_two : (pairs [[command 1],[command 2,command 3]]).Nodup := by
  have h : Accepted codec (new 2) ([] ++ Op.accept [1] :: [.proposed [1]] ++ ([Op.get] ++ Op.accept [2,3] :: [] ++ []))
      [[command 1],[command 2,command 3]] :=
    .cons [] [.proposed [1]] (by decide) (by decide) (.inl (by simp))
      (.cons [.get] [] (by decide) (by decide +kernel) (.inr rfl) .nil)
  refine (commands_once_iff codec 2 h).1.mpr fun b hb => ?_
  simp only [List.mem_cons,List.not_mem_nil,or_false] at hb
  rcases hb with rfl | rfl <;> decide

/-- Client 1 sends its first command three times before it is proposed. The cache puts it into one batch twice,
and accepts this batch. -/
theorem commands_twice : ∃ (before : List Op) (cmd : Command) (batch : List ClientCommand),
    (∀ op ∈ before, op = .addCommand (command 1)) ∧
    ((run codec (new 2) before).get codec).1 = .returns (some cmd) ∧
    Accepted codec (new 2) (before ++ [Op.get] ++ Op.accept cmd :: [.proposed cmd] ++ []) [batch] ∧
    ¬ (pairs [batch]).Nodup := by
  refine ⟨List.replicate 3 (.addCommand (command 1)),[1,1],[command 1,command 1],?_,by decide +kernel,?_,by decide⟩
  · exact fun op hop => List.eq_of_mem_replicate hop
  · exact .cons _ [.proposed [1,1]] (by decide) (by decide +kernel) (.inl (by simp)) .nil

end Sample
end Hotstuff
