import Hotstuff.Crypto.Created
import Hotstuff.Crypto.Transparency
import Hotstuff.Wire.Server

/-! `Verify` behind the signature cache, on anything that a message can hold as a signature: when it returns, and when
it tells a signature of the other scheme or of a stranger. -/
namespace Hotstuff

namespace Cache
variable {cap : Nat} (M : Impl) (sha256 : List UInt8 → Hash) (sched : Schedule) (h : Hash) (s : Cache cap)

theorem verify_nil : (verify M sha256 sched none h s).1 = some false := rfl

/-- A lookup at the time of the call, else the implementation. -/
theorem verify_some (g : Signature) : (verify M sha256 sched (some g) h s).1 =
    if sha256 (Hash.toBytes h ++ g.toBytes) ∈ (background M sha256 sched s).lru.keys then some true
    else M.verify (some g) h := by
  change (ask M sha256 sched (.signature (some g) h) s).1 = _
  rw [ask]
  dsimp only [Query.keyBytes,Option.map_some]
  rw [check]
  split_ifs with hk
  · rfl
  · dsimp only [Impl.plan,runPlan]
    cases M.verify (some g) h <;> rfl

end Cache

def Signature.isEcdsa : Signature → Bool
  | .ecdsa _ => true
  | .bls12 _ => false

def Signature.isBls12 : Signature → Bool
  | .ecdsa _ => false
  | .bls12 _ => true

/-- `Verify` has returned, and `false` if the signature is not of the scheme or its signer is no replica. -/
def Tells (own : Signature → Bool) (replicas : Finset ID) (sig : Option Signature) (r : Option Bool) : Prop :=
  ∃ b, r = some b ∧ ∀ g, sig = some g → own g = false ∨ g.signer ∉ replicas → b = false

namespace Tells
variable {own : Signature → Bool} {replicas : Finset ID} {sig : Option Signature} {g : Signature}

theorem of_false : Tells own replicas sig (some false) := ⟨false,rfl,fun _ _ _ => rfl⟩

/-- `true` is right only for a signature of the scheme by a replica. -/
theorem true_iff : Tells own replicas (some g) (some true) ↔ own g = true ∧ g.signer ∈ replicas := by
  constructor
  · rintro ⟨_,⟨⟩,h⟩
    by_contra hbad
    rw [not_and_or,Bool.not_eq_true] at hbad
    exact absurd (h g rfl hbad) (by simp)
  · rintro ⟨hown,hmem⟩
    refine ⟨true,rfl,?_⟩
    rintro _ ⟨⟩ (hbad | hbad)
    · exact absurd (hown.symm.trans hbad) (by simp)
    · exact absurd hmem hbad

end Tells

/-- By itself the ECDSA implementation tells everything apart. -/
theorem Setup.verify_tells (S : Setup) (g : Signature) (h : Hash) :
    Tells Signature.isEcdsa S.replicas (some g) (some (S.verify (some g) h)) := by
  cases hv : S.verify (some g) h with
  | false => exact .of_false
  | true =>
    cases g with
    | ecdsa g =>
      change (decide (g.signer ∈ S.replicas) && _) = true at hv
      rw [Bool.and_eq_true,decide_eq_true_eq] at hv
      exact Tells.true_iff.mpr ⟨rfl,hv.1⟩
    | bls12 g => cases hv

/-- The BLS12-381 implementation returns only on what it has to accept or reject by the pairing. -/
theorem Bls12.verify_ne_none_iff (B : Bls12) (g : Signature) (h : Hash) :
    B.verify (some g) h ≠ none ↔ g.isBls12 = true ∧ g.signer ∈ B.replicas := by
  cases g with
  | ecdsa g => simp [Bls12.verify,Signature.isBls12]
  | bls12 g =>
    rw [Bls12.verify]
    by_cases hmem : g.signer ∈ B.replicas
    · rw [if_neg (not_not.mpr hmem)]
      refine iff_of_true ?_ ⟨rfl,hmem⟩
      cases B.hashToCurve h <;> simp
    · rw [if_pos hmem]
      exact iff_of_false (by simp) fun hc => hmem hc.2

/-- With ECDSA a call always returns, and it is right exactly unless a bad signature has a key that is in the cache.
With BLS12-381 it returns and is right exactly on nil and on BLS12 signatures by replicas. -/
theorem cachedVerify_total_iff (S : Setup) (B : Bls12) (self : ID) (rand : Nat → Hash → Option (Nat × Nat))
    (order : Nat → List Bls12Signature → List Bls12Signature) (sha256 : List UInt8 → Hash) (sched : Schedule)
    {cap : Nat} (s : Cache cap) (sig : Option Signature) (h : Hash) :
    (s.verify (.ecdsa S self rand) sha256 sched sig h).1 ≠ none ∧
    (Tells Signature.isEcdsa S.replicas sig (s.verify (.ecdsa S self rand) sha256 sched sig h).1 ↔
      ∀ g, sig = some g → g.isEcdsa = true ∧ g.signer ∈ S.replicas ∨
        sha256 (Hash.toBytes h ++ g.toBytes) ∉ (s.background (.ecdsa S self rand) sha256 sched).lru.keys) ∧
    (Tells Signature.isBls12 B.replicas sig (s.verify (.bls12 B self order) sha256 sched sig h).1 ↔
      ∀ g, sig = some g → g.isBls12 = true ∧ g.signer ∈ B.replicas) := by
  cases sig with
  | none =>
    rw [Cache.verify_nil,Cache.verify_nil]
    exact ⟨by simp,iff_of_true .of_false nofun,iff_of_true .of_false nofun⟩
  | some g =>
    rw [Cache.verify_some,Cache.verify_some]
    refine ⟨?_,?_,?_⟩
    · split_ifs
      · simp
      · exact Option.some_ne_none _
    · split_ifs with hk
      · rw [Tells.true_iff]
        constructor
        · rintro hg _ ⟨⟩
          exact .inl hg
        · intro hg
          exact (hg g rfl).resolve_right (not_not.mpr hk)
      · refine iff_of_true (S.verify_tells g h) ?_
        rintro _ ⟨⟩
        exact .inr hk
    · split_ifs with hk
      · rw [Tells.true_iff]
        constructor
        · rintro hg _ ⟨⟩
          exact hg
        · intro hg
          exact hg g rfl
      · change Tells _ _ _ (B.verify (some g) h) ↔ _
        constructor
        · rintro ⟨b,hb,-⟩ _ ⟨⟩
          exact (B.verify_ne_none_iff g h).mp (hb ▸ Option.some_ne_none b)
        · intro hg
          obtain ⟨b,hb⟩ := Option.ne_none_iff_exists'.mp ((B.verify_ne_none_iff g h).mpr (hg g rfl))
          rw [hb]
          cases b with
          | false => exact .of_false
          | true => exact Tells.true_iff.mpr (hg g rfl)

namespace Sample
open Cache Pb

private def bls12AtOne : Impl := .bls12 (curve 1) 1 fun _ l => l

private def renamed : Pb.Signature := ⟨some (.ecdsaSig ⟨9,[1],[5]⟩)⟩

private def stranger : Pb.Signature := ⟨some (.bls12Sig ⟨List.replicate 100 0⟩)⟩

/-- With BLS12-381 a signature of the other scheme and one of a stranger crash `Verify`. With ECDSA a signature that
has been accepted is accepted again under the name of a stranger. -/
theorem cachedVerify_not_total :
    (∃ sig, signatureFromProto fromCompressed (some renamed) = some (some sig) ∧ sig.isBls12 = false ∧
      (fresh.verify bls12AtOne digest quiet (some sig) 5).1 = none) ∧
    (∃ sig, signatureFromProto fromCompressed (some stranger) = some (some sig) ∧ sig.signer ∉ (curve 1).replicas ∧
      (fresh.verify bls12AtOne digest quiet (some sig) 5).1 = none) ∧
    ∃ sig, signatureFromProto fromCompressed (some renamed) = some (some sig) ∧ sig.signer ∉ setup.replicas ∧
      ((run ecdsaImpl digest quiet [.verify (some (.ecdsa ⟨1,5,1⟩)) 5] fresh).verify ecdsaImpl digest quiet
        (some sig) 5).1 = some true := by
  refine ⟨⟨.ecdsa ⟨1,5,9⟩,by decide,rfl,by decide +kernel⟩,⟨.bls12 ⟨0,⟨List.replicate 96 0⟩⟩,by decide,by decide,
    by decide +kernel⟩,⟨.ecdsa ⟨1,5,9⟩,by decide,by decide,by decide +kernel⟩⟩

end Sample
end Hotstuff
