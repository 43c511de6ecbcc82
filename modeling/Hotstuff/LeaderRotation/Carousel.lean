import Hotstuff.Crypto.Bls12
import Hotstuff.Replica.Run

/-! The carousel leader rotation. After the first views it draws the leader from the participants of the certificate
in the committed block; the draw depends on the clock, and the list on the order of an iteration. -/
namespace Hotstuff

/-- A block behind a pointer. The genesis block is recognised by its address. -/
structure BlockRef where
  block : Block
  isGenesis : Bool

/-- What a leader rotation reads of the other modules: the number of replicas, the committed block, the view of the
high QC, and the outcomes of `BlockChain.Get`. -/
structure RotationState where
  len : Nat
  committed : BlockRef
  highQCView : View
  get : Hash → Option BlockRef

namespace RotationState

def ofReplica (S : Setup) (env : Env) (s : Replica) : RotationState where
  len := S.replicas.card
  committed := ⟨s.bExec,decide (s.bExec = genesis)⟩
  highQCView := s.highQC.view
  get h := (s.get S env h).1.map (fun b => ⟨b,decide (h = S.genesisHash)⟩)

def signature (s : RotationState) : Option ThresholdSignature := s.committed.block.cert.signature

end RotationState

namespace ThresholdSignature

def participants : ThresholdSignature → List ID
  | ecdsa t => t.entries.map EcdsaSignature.signer
  | bls12 a => Bitfield.forEach a.participants

def Iterates : ThresholdSignature → List ID → Prop
  | ecdsa t, l => l.Perm (t.entries.map EcdsaSignature.signer)
  | bls12 a, l => l = Bitfield.forEach a.participants

theorem iterates_participants (sig : ThresholdSignature) : sig.Iterates sig.participants := by
  cases sig with
  | ecdsa t => exact .refl _
  | bls12 a => rfl

theorem Iterates.perm {sig : ThresholdSignature} {l : List ID} (h : sig.Iterates l) : l.Perm sig.participants := by
  cases sig with
  | ecdsa t => exact h
  | bls12 a => exact .of_eq h

end ThresholdSignature

def roundRobin (n : Nat) (view : View) : ID := (view % UInt64.ofNat n + 1).toUInt32

namespace Carousel

/-- The entry is overwritten by the last one; the shortened slice that `remove` returns is dropped by its caller. -/
def remove (active : List ID) (i : Nat) : List ID := active.set i (active.getLastD 0)

def removeAt (id : ID) (active : List ID) (i : Nat) : List ID :=
  if active[i]? = some id then remove active i else active

def removeActive (active last : List ID) : List ID :=
  last.foldl (fun active id => (List.range active.length).foldl (removeAt id) active) active

/-- The proposers of the last blocks down from the committed one, `none` if a block is nil when its proposer is
asked for. -/
def lastAuthors (get : Hash → Option BlockRef) : Nat → Option BlockRef → Option (List ID)
  | 0, _ => some []
  | _+1, none => none
  | f+1, some b => if b.isGenesis then some []
    else (lastAuthors get f (get b.block.parent)).map (b.block.proposer :: ·)

/-- `GetLeader` when the participants come in the order `active` and the random source, which is seeded with the
time of the call, yields `draw`; `none` if it panics. -/
def getLeader (s : RotationState) (active : List ID) (draw : Nat) (round : View) : Option ID :=
  if round ≤ 10 then some (roundRobin s.len round)
  else match s.signature with
    | none => none
    | some _ =>
      if s.highQCView ≠ round - 1 then some (roundRobin s.len round)
      else match lastAuthors s.get (numFaulty s.len) (some s.committed) with
        | none => none
        | some authors =>
          let candidates := removeActive active authors
          -- the remainder panics when there are no candidates
          candidates[draw % candidates.length]?

private def swap (x id a : ID) : ID := if a = id then x else a

/-- The inner loop with the positions of `a` done and those of `b` to come. -/
private theorem removeAt_foldl (x id : ID) (b a : List ID) (hb : b ≠ [] → b.getLastD 0 = x) :
    (List.range' a.length b.length).foldl (removeAt id) (a.map (swap x id) ++ b) =
      a.map (swap x id) ++ b.map (swap x id) := by
  induction b generalizing a with
  | nil => simp
  | cons y b ih =>
    have hget : (a.map (swap x id) ++ y :: b)[a.length]? = some y := by simp
    have hone : removeAt id (a.map (swap x id) ++ y :: b) a.length = (a ++ [y]).map (swap x id) ++ b := by
      rw [removeAt,hget]
      split_ifs with hy
      · have hlast : (a.map (swap x id) ++ y :: b).getLastD 0 = x := by
          rw [← hb (by simp),List.getLastD_eq_getLast?,List.getLastD_eq_getLast?,List.getLast?_append_cons]
        rw [remove,hlast]
        simp [swap,Option.some.inj hy]
      · simp [swap,show y ≠ id from fun he => hy (congrArg some he)]
    have hb' : b ≠ [] → b.getLastD 0 = x := by
      intro hne
      rw [← hb (by simp)]
      obtain ⟨z,b,rfl⟩ := List.exists_cons_of_ne_nil hne
      simp
    rw [List.length_cons,List.range'_succ,List.foldl_cons,hone]
    simpa using ih (a ++ [y]) hb'

private theorem getLastD_map_swap (id : ID) (l : List ID) :
    (l.map (swap (l.getLastD 0) id)).getLastD 0 = l.getLastD 0 := by
  rw [List.getLastD_eq_getLast?,List.getLastD_eq_getLast?,List.getLast?_map]
  cases h : l.getLast? with
  | none => rfl
  | some x =>
    simp only [Option.map_some,Option.getD_some,swap]
    split_ifs <;> rfl

/-- All that `RemoveActive` does: every author gives way to the participant that came last. -/
theorem removeActive_eq (active last : List ID) :
    removeActive active last = active.map (fun a => if a ∈ last then active.getLastD 0 else a) := by
  induction last generalizing active with
  | nil => simp [removeActive]
  | cons id last ih =>
    have hpass : (List.range active.length).foldl (removeAt id) active = active.map (swap (active.getLastD 0) id) := by
      simpa [List.range_eq_range'] using removeAt_foldl (active.getLastD 0) id active [] fun _ => rfl
    have hrest : removeActive active (id :: last) = removeActive (active.map (swap (active.getLastD 0) id)) last := by
      rw [removeActive,List.foldl_cons,hpass,removeActive]
    rw [hrest,ih,getLastD_map_swap,List.map_map]
    refine List.map_congr_left fun a _ => ?_
    simp only [Function.comp_apply,swap,List.mem_cons]
    by_cases ha : a = id <;> simp [ha]

/-- What stays: participants that are no author, and the one that came last. -/
private theorem mem_of_mem_removeActive {active last : List ID} {p : ID} (h : p ∈ removeActive active last) :
    p ∈ active ∧ (p ∉ last ∨ active.getLast? = some p) := by
  rw [removeActive_eq,List.mem_map] at h
  obtain ⟨a,ha,he⟩ := h
  split_ifs at he with hauth
  · have hlast : active.getLast? = some p := by
      rw [List.getLastD_eq_getLast?] at he
      obtain ⟨x,hx⟩ := Option.ne_none_iff_exists'.mp (mt List.getLast?_eq_none_iff.mp (List.ne_nil_of_mem ha))
      rw [hx] at he ⊢
      exact congrArg some he
    exact ⟨List.mem_of_getLast? hlast,.inr hlast⟩
  · exact he ▸ ⟨ha,.inl hauth⟩

private theorem getElem?_removeActive_last {active last : List ID} {p : ID} (h : active.getLast? = some p) :
    (removeActive active last)[(active.length - 1) % (removeActive active last).length]? = some p := by
  rw [List.getLast?_eq_getElem?] at h
  have hlt := (List.getElem?_eq_some_iff.mp h).1
  rw [removeActive_eq,List.length_map,Nat.mod_eq_of_lt hlt,List.getElem?_map,h]
  simp [List.getLastD_eq_getLast?,List.getLast?_eq_getElem?,h]

/-- `RemoveActive` removes nothing, so it is right only where there is nothing to remove. -/
private theorem removeActive_exact_iff {active last : List ID} (hn : active.Nodup) :
    ((removeActive active last).Nodup ∧ ∀ a, a ∈ removeActive active last ↔ a ∈ active ∧ a ∉ last) ↔
      ∀ a ∈ active, a ∉ last := by
  rw [removeActive_eq]
  constructor
  · rintro ⟨hnodup,hmem⟩ a ha hlast
    obtain ⟨x,hx⟩ := Option.ne_none_iff_exists'.mp (mt List.getLast?_eq_none_iff.mp (List.ne_nil_of_mem ha))
    have hxa : x ∈ active := List.mem_of_getLast? hx
    have hxD : active.getLastD 0 = x := by rw [List.getLastD_eq_getLast?,hx,Option.getD_some]
    rw [hxD] at hnodup hmem
    -- the entry of `a` now holds `x`, which is no author and so is there twice
    have hxl : x ∉ last := ((hmem x).mp (List.mem_map.mpr ⟨a,ha,if_pos hlast⟩)).2
    have heq := List.inj_on_of_nodup_map hnodup ha hxa ((if_pos hlast).trans (if_neg hxl).symm)
    exact hxl (heq ▸ hlast)
  · intro hfree
    have hid : active.map (fun a => if a ∈ last then active.getLastD 0 else a) = active := by
      rw [List.map_congr_left fun a ha => if_neg (hfree a ha),List.map_id']
    rw [hid]
    exact ⟨hn,fun a => ⟨fun ha => ⟨ha,hfree a ha⟩,And.left⟩⟩

/-- Who can be drawn: participants that are no author, and the one that came last. -/
def Eligible (sig : ThresholdSignature) (authors : List ID) (p : ID) : Prop :=
  p ∈ sig.participants ∧ (p ∉ authors ∨ ∃ l, sig.Iterates l ∧ l.getLast? = some p)

/-- With signatures in a map any participant can come last. -/
theorem eligible_ecdsa {t : EcdsaThreshold} {authors : List ID} {p : ID} :
    Eligible (.ecdsa t) authors p ↔ p ∈ ThresholdSignature.participants (.ecdsa t) := by
  refine ⟨And.left,fun hp => ⟨hp,.inr ?_⟩⟩
  obtain ⟨a,b,hab⟩ := List.append_of_mem hp
  refine ⟨a ++ b ++ [p],?_,by simp⟩
  change List.Perm _ (ThresholdSignature.participants (.ecdsa t))
  rw [hab,List.append_assoc]
  exact (List.perm_append_singleton p b).append_left a

/-- The leaders that the draw can end with, over all orders and numbers. -/
theorem drawn_iff {sig : ThresholdSignature} {authors : List ID} {p : ID} :
    (∃ active draw, sig.Iterates active ∧
      (removeActive active authors)[draw % (removeActive active authors).length]? = some p) ↔
    Eligible sig authors p := by
  constructor
  · rintro ⟨active,draw,hit,hp⟩
    obtain ⟨hmem,hauth⟩ := mem_of_mem_removeActive (List.mem_of_getElem? hp)
    exact ⟨hit.perm.mem_iff.mp hmem,hauth.imp_right fun hlast => ⟨active,hit,hlast⟩⟩
  · rintro ⟨hp,hauth | ⟨active,hit,hlast⟩⟩
    · obtain ⟨j,hj⟩ := List.mem_iff_getElem?.mp hp
      refine ⟨sig.participants,j,sig.iterates_participants,?_⟩
      have hlt : j < sig.participants.length := (List.getElem?_eq_some_iff.mp hj).1
      rw [removeActive_eq,List.length_map,Nat.mod_eq_of_lt hlt,List.getElem?_map,hj]
      simp [hauth]
    · exact ⟨active,active.length - 1,hit,getElem?_removeActive_last hlast⟩

def Agrees (s : RotationState) (round : View) : Prop :=
  ∀ sig, s.signature = some sig → ∀ active active' draw draw' i j, sig.Iterates active → sig.Iterates active' →
    getLeader s active draw round = some i → getLeader s active' draw' round = some j → i = j

variable {s : RotationState} {round : View}

/-- The leader that a call returns: by the view in the first ten views and unless the high QC is from the view
before, else by the draw. -/
theorem getLeader_eq_some_iff {active : List ID} {draw : Nat} {i : ID} : getLeader s active draw round = some i ↔
    round ≤ 10 ∧ roundRobin s.len round = i ∨ ¬ round ≤ 10 ∧ ∃ sig, s.signature = some sig ∧
      (s.highQCView ≠ round - 1 ∧ roundRobin s.len round = i ∨ s.highQCView = round - 1 ∧
        ∃ authors, lastAuthors s.get (numFaulty s.len) (some s.committed) = some authors ∧
          (removeActive active authors)[draw % (removeActive active authors).length]? = some i) := by
  rw [getLeader]
  by_cases hr : round ≤ 10
  · simp [hr]
  rw [if_neg hr]
  cases hs : s.signature with
  | none => simp [hr]
  | some sig =>
    by_cases hv : s.highQCView = round - 1
    · cases lastAuthors s.get (numFaulty s.len) (some s.committed) <;> simp [hr,hv]
    · simp [hr,hv]

/-- `RemoveActive` is right exactly if no author is there to be removed, and the leader drawn from what it returns is
no author exactly if the participant that came last is none. -/
theorem carousel_excludes_iff (active last : List ID) (hn : active.Nodup) :
    (((removeActive active last).Nodup ∧ ∀ a, a ∈ removeActive active last ↔ a ∈ active ∧ a ∉ last) ↔
      ∀ a ∈ active, a ∉ last) ∧
    ∀ s round sig, 10 < round → s.signature = some sig → s.highQCView = round - 1 → sig.Iterates active →
      lastAuthors s.get (numFaulty s.len) (some s.committed) = some last →
      ((∀ draw i, getLeader s active draw round = some i → i ∈ sig.participants ∧ i ∉ last) ↔
        ∀ p, active.getLast? = some p → p ∉ last) := by
  refine ⟨removeActive_exact_iff hn,fun s round sig hr hsig hv hit ha => ?_⟩
  have hdraw (draw : Nat) (i : ID) : getLeader s active draw round = some i ↔
      (removeActive active last)[draw % (removeActive active last).length]? = some i := by
    rw [getLeader,if_neg (UInt64.not_le.mpr hr),hsig]
    simp [hv,ha]
  constructor
  · intro h p hp
    exact (h _ p ((hdraw _ p).mpr (getElem?_removeActive_last hp))).2
  · intro h draw i hi
    obtain ⟨hmem,hfree⟩ := mem_of_mem_removeActive (List.mem_of_getElem? ((hdraw draw i).mp hi))
    exact ⟨hit.perm.mem_iff.mp hmem,hfree.elim (fun hf => hf) (h i)⟩

/-- Calls agree exactly in the views that are served round-robin, and where only one participant can be drawn. -/
theorem carousel_agreement_iff (s : RotationState) (round : View) : Agrees s round ↔
    round ≤ 10 ∨ s.highQCView ≠ round - 1 ∨ ∀ sig authors, s.signature = some sig →
      lastAuthors s.get (numFaulty s.len) (some s.committed) = some authors →
      ∀ p q, Eligible sig authors p → Eligible sig authors q → p = q := by
  constructor
  · intro hag
    by_cases hr : round ≤ 10
    · exact .inl hr
    by_cases hv : s.highQCView = round - 1
    · refine .inr (.inr fun sig authors hsig ha p q hp hq => ?_)
      obtain ⟨active,draw,hit,hdraw⟩ := drawn_iff.mpr hp
      obtain ⟨active',draw',hit',hdraw'⟩ := drawn_iff.mpr hq
      refine hag sig hsig active active' draw draw' p q hit hit' ?_ ?_
      · exact getLeader_eq_some_iff.mpr (.inr ⟨hr,sig,hsig,.inr ⟨hv,authors,ha,hdraw⟩⟩)
      · exact getLeader_eq_some_iff.mpr (.inr ⟨hr,sig,hsig,.inr ⟨hv,authors,ha,hdraw'⟩⟩)
    · exact .inr (.inl hv)
  · intro h sig hsig active active' draw draw' i j hit hit' hi hj
    rcases getLeader_eq_some_iff.mp hi with ⟨hr,rfl⟩ | ⟨hr,_,-,⟨hv,rfl⟩ | ⟨hv,authors,ha,hdraw⟩⟩
    · simpa [getLeader,hr] using hj
    · rcases getLeader_eq_some_iff.mp hj with ⟨hr',-⟩ | ⟨-,_,-,⟨-,hj⟩ | ⟨hv',-⟩⟩
      · exact absurd hr' hr
      · exact hj
      · exact absurd hv' hv
    · rcases getLeader_eq_some_iff.mp hj with ⟨hr',-⟩ | ⟨-,_,-,⟨hv',-⟩ | ⟨-,authors',ha',hdraw'⟩⟩
      · exact absurd hr' hr
      · exact absurd hv hv'
      · cases ha.symm.trans ha'
        rcases h with h | h | h
        · exact absurd h hr
        · exact absurd hv h
        · have hi := drawn_iff.mp ⟨active,draw,hit,hdraw⟩
          have hj := drawn_iff.mp ⟨active',draw',hit',hdraw'⟩
          exact h sig authors hsig ha i j hi hj

end Carousel

namespace Sample
open Replica Carousel

private def c8 : Block := first 8
private def c9 : Block := next [2,3,4] c8 9
private def c10 : Block := next [2,3,4] c9 10
private def c11 : Block := next [2,3,4] c10 11
private def c12 : Block := next [2,3,4] c11 12

private def committing : Replica := run setup .chained (init setup 1)
  ([c8,c9,c10,c11,c12].map fun b => (env 1 [],.propose ⟨4,b,none⟩))

private def committingState : RotationState := .ofReplica setup (env 1 []) committing

private def c9Signature : ThresholdSignature :=
  .ecdsa (.restore ([2,3,4].map fun i => ⟨i.toNat,(c8.hash setup).toNat,i⟩))

private theorem committingState_eq : committingState.signature = some c9Signature ∧
    committingState.highQCView = 12 - 1 ∧
    lastAuthors committingState.get (numFaulty committingState.len) (some committingState.committed) = some [4] ∧
    c9Signature.participants = [2,3,4] := by decide +kernel

private theorem committingState_draws : getLeader committingState [2,3,4] 0 12 = some 2 ∧
    getLeader committingState [2,3,4] 1 12 = some 3 ∧ getLeader committingState [2,3,4] 2 12 = some 4 := by
  decide +kernel

private theorem c9Signature_iterates : c9Signature.Iterates [2,3,4] := List.Perm.of_eq committingState_eq.2.2.2.symm

/-- The committed block carries the signatures of replicas 2, 3 and 4. Its leader for view 12 is replica 2 or
replica 3, as the clock has it. -/
theorem carousel_disagrees : ∃ l, ¬ Agrees (.ofReplica setup (env 1 []) (run setup .chained (init setup 1) l)) 12 := by
  refine ⟨[c8,c9,c10,c11,c12].map fun b => (env 1 [],.propose ⟨4,b,none⟩),fun h => ?_⟩
  change Agrees committingState 12 at h
  obtain ⟨hfirst,hsecond,-⟩ := committingState_draws
  have hit : c9Signature.Iterates [2,3,4] := c9Signature_iterates
  exact absurd (h _ committingState_eq.1 _ _ 0 1 2 3 hit hit hfirst hsecond) (by decide)

/-- Replica 4 proposed the committed block. In an order that ends with replica 3 it is not drawn. -/
theorem carousel_excludes_iff_committing : ([4,2,3] : List ID).Nodup ∧
    ∀ draw i, getLeader committingState [4,2,3] draw 12 = some i → i ∈ c9Signature.participants ∧ i ∉ [4] := by
  obtain ⟨hsig,hview,hauthors,hids⟩ := committingState_eq
  have hperm : [4,2,3].Perm c9Signature.participants := by
    rw [hids]
    decide
  refine ⟨by decide,?_⟩
  apply ((carousel_excludes_iff [4,2,3] [4] (by decide)).2 committingState 12 c9Signature (by decide)
    hsig hview hperm hauthors).mpr
  rintro _ ⟨⟩
  decide

/-- An author in front: the last participant is there twice and the list is as long as before. In the order 2, 3, 4 the
author of the committed block is drawn as leader. -/
theorem carousel_draws_author : removeActive [1,2,3] [1] = [3,2,3] ∧
    ∃ l s, s = RotationState.ofReplica setup (env 1 []) (run setup .chained (init setup 1) l) ∧
      s.highQCView = 12 - 1 ∧ lastAuthors s.get (numFaulty s.len) (some s.committed) = some [4] ∧
      ∃ sig active draw, s.signature = some sig ∧ sig.Iterates active ∧ getLeader s active draw 12 = some 4 := by
  obtain ⟨hsig,hview,hauthors,-⟩ := committingState_eq
  exact ⟨by decide,[c8,c9,c10,c11,c12].map fun b => (env 1 [],.propose ⟨4,b,none⟩),committingState,rfl,hview,hauthors,
    c9Signature,[2,3,4],2,hsig,c9Signature_iterates,committingState_draws.2.2⟩

end Sample
end Hotstuff
