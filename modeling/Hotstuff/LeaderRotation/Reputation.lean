import Hotstuff.LeaderRotation.Carousel
import Mathlib.Algebra.Order.Ring.Rat
import Mathlib.Data.Multiset.Fold

/-! The reputation-based leader rotation. `GetLeader` not only reads the reputations: every call after the
first views rewards the voters of the committed block. Reputations are exact rationals here. -/
namespace Hotstuff

def base64Digit (n : Nat) : UInt8 :=
  UInt8.ofNat (if n < 26 then n + 65 else if n < 52 then n + 71 else if n < 62 then n - 4
    else if n = 62 then 43 else 47)

def base64 : List UInt8 → List UInt8
  | a :: b :: c :: l =>
    let n := a.toNat*65536 + b.toNat*256 + c.toNat
    base64Digit (n/262144) :: base64Digit (n/4096%64) :: base64Digit (n/64%64) :: base64Digit (n%64) :: base64 l
  | [a,b] =>
    let n := a.toNat*65536 + b.toNat*256
    [base64Digit (n/262144),base64Digit (n/4096%64),base64Digit (n/64%64),61]
  | [a] => [base64Digit (a.toNat/4),base64Digit (a.toNat*16%64),61,61]
  | [] => []

def fnv32a (l : List UInt8) : UInt32 := l.foldl (fun h b => (h ^^^ b.toUInt32) * 16777619) 2166136261

example : base64 [77,97,110,77] = "TWFuTQ==".toUTF8.toList := by decide +kernel

example : fnv32a [97] = 0xE40C292C := by decide

namespace Reputation

/-- What `GetLeader` uses of the platform and of the package for weighted draws: the conversion `uint(x)` of a float,
whether `NewChooser` returns a chooser for the choices or an error, and what `PickSource` returns for a seed. -/
structure Chooser where
  toUint : ℚ → UInt64
  accepts : Multiset (ID × UInt64) → Bool
  pick : Multiset (ID × UInt64) → UInt32 → ID

/-- `PickSource` returns the item of one of the choices. -/
def Chooser.Draws (C : Chooser) : Prop :=
  ∀ choices seed, C.accepts choices = true → ∃ w, (C.pick choices seed,w) ∈ choices

/-- What each voter gains when `k` voted in a configuration of `n`: the proposer counts as one more vote. -/
def reward (n k : Nat) : ℚ := ((1 + k) - 2/3*n) / (2/3*n)

/-- The body of the second `ForEach`: `UpdateRep`, then the choice with the updated weight. -/
def visit (C : Chooser) (gain : ℚ) (acc : (ID → ℚ) × Multiset (ID × UInt64)) (voter : ID) :
    (ID → ℚ) × Multiset (ID × UInt64) :=
  (Function.update acc.1 voter (acc.1 voter + gain),(voter,C.toUint ((acc.1 voter + gain)*10)) ::ₘ acc.2)

def seed (S : Setup) (b : Block) : UInt32 := fnv32a (base64 (Hash.toBytes (b.hash S)))

/-- `int(view)` is above the number of replicas and ten more, so that reputations are used. -/
def Counts (S : Setup) (view : View) : Prop := (S.replicas.card : Int) + 10 < view.toInt64.toInt

instance (S : Setup) (view : View) : Decidable (Counts S view) := inferInstanceAs (Decidable (_ < _))

/-- `GetLeader` with the voters in the order of one iteration: the leader and the reputations afterwards. It panics on a
nil signature, on a voter that is not in the configuration, and on a nil chooser. -/
def getLeader (S : Setup) (C : Chooser) (committed : Block) (rep : ID → ℚ) (voters : List ID) (view : View) :
    Option (ID × (ID → ℚ)) :=
  if Counts S view then
    match committed.cert.signature with
    | none => none
    | some _ => if voters.all (· ∈ S.replicas) then
        let acc := voters.foldl (visit C (reward S.replicas.card voters.length)) (rep,0)
        -- the error of `NewChooser` is printed, and the nil chooser is used
        if C.accepts acc.2 then some (C.pick acc.2 (seed S committed),acc.1) else none
      else none
  else some (roundRobin S.replicas.card view,rep)

/-- The order in which the voters come does not matter. -/
theorem visit_comm (C : Chooser) (gain : ℚ) (acc : (ID → ℚ) × Multiset (ID × UInt64)) (a b : ID) :
    visit C gain (visit C gain acc a) b = visit C gain (visit C gain acc b) a := by
  by_cases hab : a = b
  · rw [hab]
  · simp only [visit,Function.update_of_ne (Ne.symm hab),Function.update_of_ne hab,Function.update_comm hab,
      Multiset.cons_swap]

theorem foldl_visit_perm (C : Chooser) (gain : ℚ) {l l' : List ID} (h : l.Perm l')
    (acc : (ID → ℚ) × Multiset (ID × UInt64)) : l.foldl (visit C gain) acc = l'.foldl (visit C gain) acc :=
  h.foldl_eq' (fun a _ b _ acc => visit_comm C gain acc a b) acc

/-- Every visit of a voter adds to its reputation, and there is none of anybody else. -/
theorem foldl_visit_rep (C : Chooser) (gain : ℚ) (l : List ID) (acc : (ID → ℚ) × Multiset (ID × UInt64)) (i : ID) :
    (l.foldl (visit C gain) acc).1 i = acc.1 i + l.count i * gain := by
  induction l generalizing acc with
  | nil => simp
  | cons a l ih =>
    rw [List.foldl_cons,ih,visit,List.count_cons]
    by_cases ha : i = a
    · subst ha
      simp
      ring
    · simp [Function.update_of_ne ha,Ne.symm ha]

def Iterates (b : Block) (voters : List ID) : Prop := ∀ sig, b.cert.signature = some sig → sig.Iterates voters

variable {S : Setup} {C : Chooser}

theorem getLeader_eq_some_iff {b : Block} {rep rep' : ID → ℚ} {voters : List ID} {view : View} {i : ID} :
    getLeader S C b rep voters view = some (i,rep') ↔
      ¬ Counts S view ∧ roundRobin S.replicas.card view = i ∧ rep = rep' ∨
      Counts S view ∧ (∃ sig, b.cert.signature = some sig) ∧ (∀ v ∈ voters, v ∈ S.replicas) ∧
        C.accepts (voters.foldl (visit C (reward S.replicas.card voters.length)) (rep,0)).2 = true ∧
        C.pick (voters.foldl (visit C (reward S.replicas.card voters.length)) (rep,0)).2 (seed S b) = i ∧
        (voters.foldl (visit C (reward S.replicas.card voters.length)) (rep,0)).1 = rep' := by
  rw [getLeader]
  by_cases hc : Counts S view
  · cases hs : b.cert.signature with
    | none => simp [hc]
    | some sig => simp [hc,Prod.ext_iff]
  · simp [hc]

theorem getLeader_perm {b : Block} {rep : ID → ℚ} {voters voters' : List ID} (view : View) (h : Iterates b voters)
    (h' : Iterates b voters') : getLeader S C b rep voters view = getLeader S C b rep voters' view := by
  refine Option.ext fun r => ?_
  rw [← Prod.mk.eta (p := r),getLeader_eq_some_iff,getLeader_eq_some_iff]
  refine or_congr_right (and_congr_right fun _ => and_congr_right ?_)
  rintro ⟨sig,hs⟩
  have hp : voters.Perm voters' := (h sig hs).perm.trans (h' sig hs).perm.symm
  rw [foldl_visit_perm C _ hp,hp.length_eq]
  exact and_congr_left' (forall_congr' fun v => by rw [hp.mem_iff])

structure RepState where
  committed : Block
  rep : ID → ℚ

def init : RepState := ⟨genesis,fun i => i.toNat⟩

inductive Act where
  | commit (b : Block)
  | getLeader (view : View)

inductive Step (S : Setup) (C : Chooser) : RepState → Act → RepState → Prop
  | commit {s : RepState} (b : Block) : Step S C s (.commit b) { s with committed := b }
  | getLeader {s : RepState} {view : View} {voters : List ID} {i : ID} {rep : ID → ℚ} :
      Iterates s.committed voters → getLeader S C s.committed s.rep voters view = some (i,rep) →
      Step S C s (.getLeader view) { s with rep := rep }

inductive Run (S : Setup) (C : Chooser) : RepState → List Act → RepState → Prop
  | nil {s : RepState} : Run S C s [] s
  | cons {s t u : RepState} {a : Act} {l : List Act} : Step S C s a t → Run S C t l u → Run S C s (a :: l) u

def rewarded (S : Setup) (s : RepState) : ID → ℚ :=
  match s.committed.cert.signature with
  | none => s.rep
  | some sig => fun i => s.rep i + sig.participants.count i * reward S.replicas.card sig.participants.length

/-- The commits, and between them the calls that count, without their views. -/
def shape (S : Setup) : List Act → List (Option Block)
  | [] => []
  | .commit b :: l => some b :: shape S l
  | .getLeader view :: l => if Counts S view then none :: shape S l else shape S l

def commits (l : List Act) : List Block := l.filterMap fun
  | .commit b => some b
  | .getLeader _ => none

def replay (S : Setup) : RepState → List (Option Block) → RepState
  | s, [] => s
  | s, some b :: l => replay S { s with committed := b } l
  | s, none :: l => replay S { s with rep := rewarded S s } l

theorem Step.getLeader_eq {s t : RepState} {view : View} (h : Step S C s (.getLeader view) t) :
    t = if Counts S view then { s with rep := rewarded S s } else s := by
  cases h with
  | getLeader hit hl =>
    rcases getLeader_eq_some_iff.mp hl with ⟨hc,-,rfl⟩ | ⟨hc,⟨sig,hs⟩,-,-,-,rfl⟩
    · rw [if_neg hc]
    · rw [if_pos hc,rewarded,hs]
      congr 1
      funext i
      have hp := (hit sig hs).perm
      rw [foldl_visit_rep,hp.count_eq,hp.length_eq]

/-- Reputations are a function of the commits and of the number of calls that count between them. -/
theorem Run.eq_replay {s t : RepState} {l : List Act} (h : Run S C s l t) : t = replay S s (shape S l) := by
  induction h with
  | nil => rfl
  | @cons s t u a l hstep _ ih =>
    cases a with
    | commit b =>
      cases hstep
      exact ih
    | getLeader view =>
      rw [ih,hstep.getLeader_eq,shape]
      split_ifs <;> rfl

/-- Two replicas that commit the same blocks and make the same number of calls that count between commits have the
same reputations, and for every view the same leader. -/
theorem reputation_determined (S : Setup) (C : Chooser) {l l' : List Act} {s s' : RepState} (h : Run S C init l s)
    (h' : Run S C init l' s') (hl : shape S l = shape S l') :
    (∀ i, s.rep i = s'.rep i) ∧ ∀ view voters voters', Iterates s.committed voters → Iterates s'.committed voters' →
      getLeader S C s.committed s.rep voters view = getLeader S C s'.committed s'.rep voters' view := by
  have hs : s = s' := by rw [h.eq_replay,h'.eq_replay,hl]
  subst hs
  exact ⟨fun _ => rfl,fun view voters voters' hv hv' => getLeader_perm view hv hv'⟩

end Reputation

namespace Sample
open Reputation

private def code (c : ID × UInt64) : Nat := c.2.toNat * 2^32 + c.1.toNat

private theorem code_mod (c : ID × UInt64) : UInt32.ofNat (code c % 2^32) = c.1 := by
  have hlt := c.1.toNat_lt
  have hmod : code c % 2^32 = c.1.toNat := by
    rw [code]
    omega
  rw [hmod,UInt32.ofNat_toNat]

def heaviest : Chooser where
  toUint x := UInt64.ofNat ⌊x⌋.toNat
  accepts choices := choices ≠ 0
  pick choices _ := UInt32.ofNat ((choices.map code).fold max 0 % 2^32)

private theorem fold_max_mem {ws : Multiset Nat} (h : ws ≠ 0) : ws.fold max 0 ∈ ws := by
  induction ws using Multiset.induction with
  | empty => exact absurd rfl h
  | cons a ws ih =>
    rw [Multiset.fold_cons_left]
    by_cases hws : ws = 0
    · simp [hws]
    · rcases max_choice a (ws.fold max 0) with he | he <;> rw [he]
      · exact Multiset.mem_cons_self _ _
      · exact Multiset.mem_cons_of_mem (ih hws)

theorem heaviest_draws : heaviest.Draws := by
  intro choices seed h
  have hne : choices.map code ≠ 0 := by simpa [heaviest] using h
  obtain ⟨c,hc,he⟩ := Multiset.mem_map.mp (fold_max_mem hne)
  have hpick : heaviest.pick choices seed = c.1 := by
    change UInt32.ofNat ((choices.map code).fold max 0 % 2^32) = c.1
    rw [← he,code_mod]
  exact ⟨c.2,by rwa [hpick]⟩

private def voters (b : Block) : List ID := (b.cert.signature.map ThresholdSignature.participants).getD []

private theorem iterates_voters (b : Block) : Iterates b (voters b) := by
  intro sig hs
  rw [voters,hs]
  exact sig.iterates_participants

private def called (view : View) (s : RepState) : RepState :=
  { s with rep := ((getLeader setup heaviest s.committed s.rep (voters s.committed) view).map Prod.snd).getD s.rep }

private theorem called_step {view : View} {s : RepState}
    (h : (getLeader setup heaviest s.committed s.rep (voters s.committed) view).isSome = true) :
    Step setup heaviest s (.getLeader view) (called view s) := by
  obtain ⟨r,hr⟩ := Option.isSome_iff_exists.mp h
  rw [called,hr]
  exact .getLeader (iterates_voters _) hr

private def voted : Block := next [1,2,3] (first 8) 9

/-- One replica asks for the leaders of two early views besides; a call in view 15 or view 40 makes no difference. -/
theorem reputation_determined_views :
    (called 15 ⟨voted,init.rep⟩).rep 3 = 7/2 ∧ ∀ i, (called 15 ⟨voted,init.rep⟩).rep i =
      (called 2 (called 40 { called 3 init with committed := voted })).rep i := by
  have hfirst : Run setup heaviest init [.commit voted,.getLeader 15] (called 15 ⟨voted,init.rep⟩) :=
    .cons (.commit _) (.cons (called_step (by decide +kernel)) .nil)
  have hsecond : Run setup heaviest init [.getLeader 3,.commit voted,.getLeader 40,.getLeader 2]
      (called 2 (called 40 { called 3 init with committed := voted })) := by
    refine .cons (called_step ?_) (.cons (.commit _) (.cons (called_step ?_) (.cons (called_step ?_) .nil)))
    all_goals decide +kernel
  exact ⟨by decide +kernel,(reputation_determined setup heaviest hfirst hsecond (by decide +kernel)).1⟩

private def votedNext : Block := next [2,3,4] voted 10

private def unasked : List Act := [.commit voted,.commit votedNext]

private def asked : List Act :=
  [.commit voted,.getLeader 15,.getLeader 15,.getLeader 16,.getLeader 17,.commit votedNext]

private def unaskedEnd : RepState := ⟨votedNext,init.rep⟩

private def askedEnd : RepState :=
  { called 17 (called 16 (called 15 (called 15 ⟨voted,init.rep⟩))) with committed := votedNext }

private theorem unasked_run : Run setup heaviest init unasked unaskedEnd :=
  .cons (.commit _) (.cons (.commit _) .nil)

private theorem asked_run : Run setup heaviest init asked askedEnd := by
  refine .cons (.commit _) (.cons (called_step ?_) (.cons (called_step ?_) (.cons (called_step ?_)
    (.cons (called_step ?_) (.cons (.commit _) .nil)))))
  all_goals decide +kernel

/-- Two replicas commit the same two blocks, one of them asks for leaders in between. It has raised the reputations of
replicas 1 to 3, and takes replica 3 for the leader of view 16, the other one replica 4. -/
theorem reputation_diverges : ∃ l l' s s', Run setup heaviest init l s ∧ Run setup heaviest init l' s' ∧
    commits l = commits l' ∧ s.rep 3 ≠ s'.rep 3 ∧
    (getLeader setup heaviest s.committed s.rep (voters s.committed) 16).map Prod.fst ≠
      (getLeader setup heaviest s'.committed s'.rep (voters s'.committed) 16).map Prod.fst :=
  ⟨unasked,asked,unaskedEnd,askedEnd,unasked_run,asked_run,by decide +kernel,by decide +kernel,by decide +kernel⟩

end Sample
end Hotstuff
