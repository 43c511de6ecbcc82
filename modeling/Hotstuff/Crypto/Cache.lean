import Hotstuff.Crypto.Bls12
import Hotstuff.Library.Lru
import Hotstuff.Library.History

/-! The signature cache in front of a crypto implementation. A Verify call is a lookup, the
implementation's answer and an insertion, and other goroutines may act in between. -/
namespace Hotstuff
open Library

inductive Query where
  | signature (sig : Option Signature) (h : Hash)
  | threshold (sig : Option ThresholdSignature) (h : Hash)
  | messageSet (sig : Option ThresholdSignature) (hashes : List (ID × Hash))
  deriving DecidableEq, Repr

def Query.hashes : Query → List (ID × Hash)
  | .messageSet _ hashes => hashes
  | _ => []

/-- How an implementation answers: by itself, or by counting the answers of the registered
verifier, asked on one goroutine for each signature. Goroutines may also be left behind. -/
inductive Plan where
  | answer (b : Option Bool) (started : List (Signature × Hash))
  | tally (started : List (Signature × Hash)) (quorum : Nat)

inductive Build where
  | done (r : Option (Except (List CryptoError) ThresholdSignature))
  | verify (s : Signature) (h : Hash) (next : Bool → Build)

/-- A `CryptoImpl`. `none` stands for a call that panics or never returns; what `Sign` draws and
how maps are iterated depends on the call. -/
structure Impl where
  sign : Nat → Hash → Option Signature
  verify : Option Signature → Hash → Option Bool
  threshold : Option ThresholdSignature → Hash → Plan
  messageSet : Option ThresholdSignature → List (ID × Hash) → Plan
  create : Nat → List Signature → Hash → Build
  createSet : Nat → List Signature → List (ID × Hash) → Build
  verify_nil : ∀ h, verify none h ≠ some true
  threshold_nil : ∀ h, threshold none h = .answer (some false) []
  messageSet_nil : ∀ l, messageSet none l = .answer (some false) []
  tally_returns : (∀ g h, verify (some g) h ≠ none) ∨
    (∀ sig h l n, threshold sig h ≠ .tally l n) ∧ ∀ sig hashes l n, messageSet sig hashes ≠ .tally l n

namespace Impl
variable (M : Impl)

def plan : Query → List (ID × Hash) → Plan
  | .signature sig h, _ => .answer (M.verify sig h) []
  | .threshold sig h, _ => M.threshold sig h
  | .messageSet sig _, order => M.messageSet sig order

def value : Plan → Option Bool
  | .answer b _ => b
  | .tally l n => some (decide (n ≤ l.countP fun x => M.verify (some x.1) x.2 = some true))

def Possible (q : Query) (b : Bool) : Prop :=
  ∃ order : List (ID × Hash), order.Perm q.hashes ∧ M.value (M.plan q order) = some b

/-- The uncached implementation gives an answer, and never `true`. -/
def Rejected (q : Query) : Prop := (∃ b, M.Possible q b) ∧ ¬ M.Possible q true

end Impl

inductive Progress where
  | todo
  | missed
  | finished (b : Bool)
  deriving DecidableEq, Repr

structure Job where
  sig : Signature
  hash : Hash
  phase : Progress
  deriving DecidableEq, Repr

def Job.query (t : Job) : Query := .signature (some t.sig) t.hash

inductive Entry where
  | check (q : Query) (key : Hash)
  | answer (q : Query) (b : Bool)
  | use (key : Hash)
  deriving DecidableEq, Repr

def uses (log : List Entry) : List Hash := log.filterMap fun
  | .use key => some key
  | _ => none

/-- The cache, the goroutines, and what has happened so far. The keys held are the most
recently used ones, and a lookup that finds its key is an answer. -/
structure Cache (cap : Nat) where
  lru : Lru Hash cap
  pool : List Job := []
  clock : Nat := 0
  halted : Bool := false
  log : List Entry := []
  tracks : lru.keys = (recent (uses log)).take cap
  answered : ∀ q key o, .check q key :: o <:+ log → key ∈ (recent (uses o)).take cap → .answer q true ∈ log

namespace Cache
variable {cap : Nat}

def new (h : 0 < cap) : Cache cap where
  lru := .empty h
  tracks := by simp [Lru.empty,uses,recent]
  answered q key o ho := by simp at ho

private theorem answered_cons {log : List Entry} {e : Entry} (he : ∀ q key, e ≠ .check q key)
    (h : ∀ q key o, .check q key :: o <:+ log → key ∈ (recent (uses o)).take cap → .answer q true ∈ log)
    (q : Query) (key : Hash) (o : List Entry) (ho : .check q key :: o <:+ e :: log)
    (hk : key ∈ (recent (uses o)).take cap) : .answer q true ∈ e :: log := by
  rcases List.suffix_cons_iff.mp ho with heq | ho
  · exact absurd (List.cons_eq_cons.mp heq).1.symm (he q key)
  · exact List.mem_cons_of_mem _ (h q key o ho hk)

def note (q : Query) (b : Bool) (s : Cache cap) : Cache cap :=
  { s with
    log := .answer q b :: s.log
    tracks := s.tracks
    answered := answered_cons (by simp) s.answered }

def insert (key : Hash) (s : Cache cap) : Cache cap :=
  { s with
    lru := s.lru.insert key
    log := .use key :: s.log
    tracks := Lru.keys_insert s.tracks key
    answered := answered_cons (by simp) s.answered }

def check (q : Query) (key : Hash) (s : Cache cap) : Bool × Cache cap :=
  if h : key ∈ s.lru.keys then
    (true,{ s with
      lru := s.lru.insert key
      log := .answer q true :: .use key :: .check q key :: s.log
      tracks := Lru.keys_insert s.tracks key
      answered := fun q' key' o ho hk => by
        simp only [List.suffix_cons_iff,List.cons_eq_cons,reduceCtorEq,false_and,false_or] at ho
        rcases ho with ⟨he,-⟩ | ho
        · cases he
          exact List.mem_cons_self
        · simpa using .inr (s.answered q' key' o ho hk) })
  else
    (false,{ s with
      log := .check q key :: s.log
      tracks := s.tracks
      answered := fun q' key' o ho hk => by
        rcases List.suffix_cons_iff.mp ho with heq | ho
        · obtain ⟨he,rfl⟩ := List.cons_eq_cons.mp heq
          cases he
          exact absurd (s.tracks ▸ hk) h
        · exact List.mem_cons_of_mem _ (s.answered q' key' o ho hk) })

def settle (q : Query) (key : Hash) (b : Bool) (s : Cache cap) : Cache cap :=
  if b then (s.insert key).note q true else s.note q false

def spawn (l : List (Signature × Hash)) (s : Cache cap) : Cache cap :=
  { s with pool := s.pool ++ l.map fun x => ⟨x.1,x.2,.todo⟩ }

end Cache

/-- What happens between the steps of a call: the goroutines that move, and how maps are iterated. -/
structure Schedule where
  moves : Nat → List Nat
  order : Nat → List (ID × Hash) → List (ID × Hash)
  order_perm : ∀ k l, (order k l).Perm l

def Query.keyBytes : Query → List (ID × Hash) → Option (List UInt8)
  | .signature sig h, _ => sig.map fun g => Hash.toBytes h ++ g.toBytes
  | .threshold sig h, _ => sig.map fun t => Hash.toBytes h ++ t.toBytes
  | .messageSet sig _, order => sig.map fun t => order.flatMap (fun e => Hash.toBytes e.2) ++ t.toBytes

namespace Cache
variable {cap : Nat} (M : Impl) (sha256 : List UInt8 → Hash) (sched : Schedule)

def stepJob (t : Job) (s : Cache cap) : Job × Cache cap :=
  let key := sha256 (Hash.toBytes t.hash ++ t.sig.toBytes)
  match t.phase with
  | .todo => match s.check t.query key with
    | (true,s) => ({ t with phase := .finished true },s)
    | (false,s) => ({ t with phase := .missed },s)
  | .missed => match M.verify (some t.sig) t.hash with
    | some b => ({ t with phase := .finished b },s.settle t.query key b)
    | none => (t,s)
  | .finished _ => (t,s)

def stepPool (s : Cache cap) (i : Nat) : Cache cap :=
  match s.pool[i]? with
  | none => s
  | some t => match stepJob M sha256 t s with
    | (t,s) => { s with pool := s.pool.set i t }

def background (s : Cache cap) : Cache cap :=
  (sched.moves s.clock).foldl (stepPool M sha256) { s with clock := s.clock+1 }

def finish (n m : Nat) (s : Cache cap) : Cache cap :=
  (List.range' n m).foldl (fun s i => stepPool M sha256 (stepPool M sha256 s i) i) s

def runPlan (plan : Plan) (s : Cache cap) : Option Bool × Cache cap :=
  match plan with
  | .answer b started => (b,s.spawn started)
  | .tally started quorum =>
    let n := s.pool.length
    let s := finish M sha256 n started.length (background M sha256 sched (s.spawn started))
    (some (decide (quorum ≤ (s.pool.drop n).countP fun t => t.phase = .finished true)),s)

def ask (q : Query) (s : Cache cap) : Option Bool × Cache cap :=
  match q.keyBytes (sched.order s.clock q.hashes) with
  | none => (some false,s.note q false)
  | some x => match (background M sha256 sched s).check q (sha256 x) with
    | (true,s) => (some true,s)
    | (false,s) =>
      let s := background M sha256 sched s
      match runPlan M sha256 sched (M.plan q (sched.order s.clock q.hashes)) s with
      | (none,s) => (none,s)
      | (some b,s) => (some b,(background M sha256 sched s).settle q (sha256 x) b)

def verify (sig : Option Signature) (h : Hash) : Cache cap → Option Bool × Cache cap :=
  ask M sha256 sched (.signature sig h)

def verifyThresholdSignature (sig : Option ThresholdSignature) (h : Hash) : Cache cap → Option Bool × Cache cap :=
  ask M sha256 sched (.threshold sig h)

def verifyThresholdSignatureForMessageSet (sig : Option ThresholdSignature) (hashes : List (ID × Hash)) :
    Cache cap → Option Bool × Cache cap := ask M sha256 sched (.messageSet sig hashes)

def sign (h : Hash) (s : Cache cap) : Option Signature × Cache cap :=
  match M.sign s.clock h with
  | none => (none,s)
  | some g => (some g,(background M sha256 sched s).insert (sha256 (Hash.toBytes h ++ g.toBytes)))

def runBuild : Build → Cache cap → Option (Except (List CryptoError) ThresholdSignature) × Cache cap
  | .done r, s => (r,s)
  | .verify g h next, s => match verify M sha256 sched (some g) h s with
    | (none,s) => (none,s)
    | (some b,s) => runBuild (next b) s

def created (build : Build) (input : List UInt8) (s : Cache cap) :
    Option (Except (List CryptoError) ThresholdSignature) × Cache cap :=
  match runBuild M sha256 sched build s with
  | (some (.ok t),s) => (some (.ok t),(background M sha256 sched s).insert (sha256 (input ++ t.toBytes)))
  | r => r

def createThresholdSignature (partials : List Signature) (h : Hash) (s : Cache cap) :
    Option (Except (List CryptoError) ThresholdSignature) × Cache cap :=
  created M sha256 sched (M.create s.clock partials h) (Hash.toBytes h) s

def createThresholdSignatureForMessageSet (partials : List Signature) (hashes : List (ID × Hash)) (s : Cache cap) :
    Option (Except (List CryptoError) ThresholdSignature) × Cache cap :=
  created M sha256 sched (M.createSet s.clock partials hashes)
    ((sched.order s.clock hashes).flatMap fun e => Hash.toBytes e.2) s

inductive Call where
  | sign (h : Hash)
  | verify (sig : Option Signature) (h : Hash)
  | verifyThreshold (sig : Option ThresholdSignature) (h : Hash)
  | verifyMessageSet (sig : Option ThresholdSignature) (hashes : List (ID × Hash))
  | create (partials : List Signature) (h : Hash)
  | createMessageSet (partials : List Signature) (hashes : List (ID × Hash))

def returning {α : Type} (r : Option α × Cache cap) : Cache cap :=
  match r with
  | (none,s) => { s with halted := true }
  | (some _,s) => s

def exec (s : Cache cap) (c : Call) : Cache cap :=
  if s.halted then s
  else match c with
    | .sign h => (sign M sha256 sched h s).2
    | .verify sig h => returning (verify M sha256 sched sig h s)
    | .verifyThreshold sig h => returning (verifyThresholdSignature M sha256 sched sig h s)
    | .verifyMessageSet sig hashes => returning (verifyThresholdSignatureForMessageSet M sha256 sched sig hashes s)
    | .create partials h => returning (createThresholdSignature M sha256 sched partials h s)
    | .createMessageSet partials hashes =>
      returning (createThresholdSignatureForMessageSet M sha256 sched partials hashes s)

def run (calls : List Call) (s : Cache cap) : Cache cap := calls.foldl (exec M sha256 sched) s

end Cache
end Hotstuff
