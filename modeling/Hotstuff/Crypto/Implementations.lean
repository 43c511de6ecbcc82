import Hotstuff.Crypto.Cache
import Hotstuff.Crypto.Base

/-! The two implementations as the cache sees them: what they ask the registered verifier and
what they compute themselves. Registered with themselves they are the uncached functions. -/
namespace Hotstuff

def Build.eval (verify : Signature → Hash → Option Bool) : Build →
    Option (Except (List CryptoError) ThresholdSignature)
  | .done r => r
  | .verify g h next => match verify g h with
    | none => none
    | some b => (next b).eval verify

namespace Setup
variable (S : Setup)

def build (hashOf : ID → Option Hash) : List Signature → EcdsaThreshold × List CryptoError → Build
  | [], acc => .done (some (if S.quorum ≤ acc.1.entries.length then .ok (.ecdsa acc.1)
      else .error (.notAQuorum :: acc.2)))
  | s :: rest, acc =>
    if acc.1.contains s.signer then build hashOf rest (acc.1,acc.2 ++ [.partialDuplicate])
    else match hashOf s.signer with
      | none => build hashOf rest acc
      | some h => match s with
        | .ecdsa g => .verify s h fun ok => build hashOf rest (if ok then (acc.1.insert g,acc.2) else acc)
        | .bls12 _ => build hashOf rest (acc.1,acc.2 ++ [.wrongType])

def startedUntil (t : EcdsaThreshold) : List (ID × Hash) → List Hash → List (Signature × Hash) × Bool
  | [], _ => ([],true)
  | (id,h) :: rest, seen =>
    if h ∈ seen then ([],false)
    else match t.find id with
      | none => ([],false)
      | some g => ((.ecdsa g,h) :: (startedUntil t rest (h :: seen)).1,(startedUntil t rest (h :: seen)).2)

def thresholdPlan (sig : Option ThresholdSignature) (h : Hash) : Plan :=
  match sig with
  | some (.ecdsa t) =>
    if t.entries.length < S.quorum then .answer (some false) []
    else .tally (t.entries.map fun g => (.ecdsa g,h)) S.quorum
  | _ => .answer (some false) []

/-- After an early return the goroutines started so far are left behind, and with fewer of them
than entries the call waits for ever. -/
def messageSetPlan (sig : Option ThresholdSignature) (hashes : List (ID × Hash)) : Plan :=
  match sig with
  | some (.ecdsa t) => match startedUntil t hashes [] with
    | (l,false) => .answer (some false) l
    | (l,true) => if l.length < t.entries.length then .answer none l else .tally l S.quorum
  | _ => .answer (some false) []

end Setup

namespace Impl

def ecdsa (S : Setup) (self : ID) (rand : Nat → Hash → Option (Nat × Nat)) : Impl where
  sign k h := (rand k h).map fun x => .ecdsa ⟨x.1,x.2,self⟩
  verify sig h := some (S.verify sig h)
  threshold := S.thresholdPlan
  messageSet := S.messageSetPlan
  create _ partials h := S.build (fun _ => some h) partials (.empty,[])
  createSet _ partials hashes := S.build (fun id => hashes.lookup id) partials (.empty,[])
  verify_nil _ := by simp [Setup.verify]
  threshold_nil _ := rfl
  messageSet_nil _ := rfl
  tally_returns := .inl (by simp)

def bls12 (B : Bls12) (self : ID) (order : Nat → List Bls12Signature → List Bls12Signature) : Impl where
  sign _ h := (B.sign self h).map .bls12
  verify := B.verify
  threshold sig h := .answer (some (B.verifyThresholdSignature sig h)) []
  messageSet sig hashes := .answer (some (B.verifyThresholdSignatureForMessageSet sig hashes)) []
  create k partials _ := .done ((B.createThresholdSignature (order k) partials).map (Except.map .bls12))
  createSet k partials _ := .done ((B.createThresholdSignature (order k) partials).map (Except.map .bls12))
  verify_nil _ := by simp [Bls12.verify]
  threshold_nil _ := rfl
  messageSet_nil _ := rfl
  tally_returns := .inr ⟨by simp,by simp⟩

variable (S : Setup) (self : ID) (rand : Nat → Hash → Option (Nat × Nat))

private theorem value_tally (l : List (Signature × Hash)) (n : Nat) :
    (ecdsa S self rand).value (.tally l n) =
      some (decide (n ≤ (l.filter fun x => S.verify (some x.1) x.2).length)) := by
  rw [value,← List.countP_eq_length_filter]
  congr 3
  exact List.countP_congr fun x _ => by simp [ecdsa]

/-- Registered with itself, the ECDSA implementation is the one without a cache. -/
theorem ecdsa_threshold (sig : Option ThresholdSignature) (h : Hash) :
    (ecdsa S self rand).value (S.thresholdPlan sig h) = some (S.verifyThresholdSignature sig h) := by
  rcases sig with _ | t | a
  · rfl
  · rw [Setup.thresholdPlan,Setup.verifyThresholdSignature]
    split_ifs
    · rfl
    · rw [value_tally,List.filter_map,List.length_map]
      rfl
  · rfl

private theorem startedUntil_eq (t : EcdsaThreshold) (l : List (ID × Hash)) (seen : List Hash) :
    (Setup.startedFor t l seen).map (List.map fun x => (Signature.ecdsa x.1,x.2)) =
      if (Setup.startedUntil t l seen).2 then some (Setup.startedUntil t l seen).1 else none := by
  induction l generalizing seen with
  | nil => rfl
  | cons e l ih =>
    obtain ⟨id,h⟩ := e
    rw [Setup.startedFor,Setup.startedUntil]
    by_cases hs : h ∈ seen
    · rw [if_pos hs,if_pos hs]
      rfl
    rw [if_neg hs,if_neg hs]
    cases t.find id with
    | none => rfl
    | some g =>
      have ih := ih (h :: seen)
      dsimp only
      by_cases hu : (Setup.startedUntil t l (h :: seen)).2 = true
      · rw [if_pos hu] at ih ⊢
        obtain ⟨r,hr,hl⟩ := Option.map_eq_some_iff.mp ih
        rw [hr,← hl]
        rfl
      · rw [if_neg hu] at ih ⊢
        rw [Option.map_eq_none_iff.mp ih]
        rfl

theorem ecdsa_messageSet (sig : Option ThresholdSignature) (hashes : List (ID × Hash)) :
    (ecdsa S self rand).value (S.messageSetPlan sig hashes) =
      S.verifyThresholdSignatureForMessageSet sig hashes := by
  rcases sig with _ | t | a
  · rfl
  · have heq := startedUntil_eq t hashes []
    rw [Setup.messageSetPlan,Setup.verifyThresholdSignatureForMessageSet]
    rcases hu : Setup.startedUntil t hashes [] with ⟨l,_ | _⟩
    · rw [hu] at heq
      have hnone : Setup.startedFor t hashes [] = none := by simpa using heq
      rw [hnone]
      rfl
    · rw [hu] at heq
      obtain ⟨started,hs,rfl⟩ := Option.map_eq_some_iff.mp (heq.trans (if_pos rfl))
      rw [hs]
      dsimp only
      rw [List.length_map]
      split_ifs
      · rfl
      · rw [value_tally,List.filter_map,List.length_map]
        rfl
  · rfl

private theorem eval_build (hashOf : ID → Option Hash) (l : List Signature) (acc : EcdsaThreshold × List CryptoError) :
    (S.build hashOf l acc).eval (fun g h => some (S.verify (some g) h)) =
      some (if S.quorum ≤ (l.foldl (S.addPartial hashOf) acc).1.entries.length
        then .ok (.ecdsa (l.foldl (S.addPartial hashOf) acc).1)
        else .error (.notAQuorum :: (l.foldl (S.addPartial hashOf) acc).2)) := by
  induction l generalizing acc with
  | nil => rfl
  | cons s l ih =>
    rw [Setup.build,List.foldl_cons,Setup.addPartial]
    by_cases hd : acc.1.contains s.signer = true
    · rw [if_pos hd,if_pos hd]
      exact ih _
    · rw [if_neg hd,if_neg hd]
      cases hashOf s.signer with
      | none => exact ih acc
      | some h =>
        cases s with
        | ecdsa g => exact ih _
        | bls12 g => exact ih _

/-- Creation with the implementation's own `Verify` is creation without a cache. -/
theorem ecdsa_build (hashOf : ID → Option Hash) (l : List Signature) :
    (S.build hashOf l (.empty,[])).eval (fun g h => some (S.verify (some g) h)) =
      some ((S.createFrom hashOf l).map .ecdsa) := by
  rw [eval_build,Setup.createFrom]
  split_ifs <;> rfl

end Impl
end Hotstuff
