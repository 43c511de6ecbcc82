import Hotstuff.Crypto.Bls12
import Hotstuff.Library.Bitmap
import Hotstuff.Library.History

/-! The methods of `Bitfield`, access by access. An `int` has 64 bits, which no index here exceeds; `none` is a panic,
for an index out of range or a negative shift. A bit field stands for a finite set of IDs, which its methods extend,
ask and list. -/
namespace Hotstuff
open Library

namespace Bitfield.Checked

def byte (bm : Bitfield) (byteIdx : Int) : Option UInt8 := if byteIdx < 0 then none else bm[byteIdx.toNat]?

def shifted (bitIdx : Int) : Option UInt8 := if bitIdx < 0 then none else some (mask bitIdx.toNat)

def extend (bm : Bitfield) (nBytes : Int) : Option Bitfield :=
  if nBytes < 0 then none else some (bm ++ List.replicate nBytes.toNat 0)

def set (bm : Bitfield) (byteIdx bitIdx : Int) : Option Bitfield := do
  let b ← byte bm byteIdx
  let m ← shifted bitIdx
  some (List.set bm byteIdx.toNat (b ||| m))

def isSet (bm : Bitfield) (byteIdx bitIdx : Int) : Option Bool := do
  let b ← byte bm byteIdx
  let m ← shifted bitIdx
  some (decide (b &&& m ≠ 0))

/-- Division truncates: ID 0 has byte index 0 and bit index -1. -/
def index (id : ID) : Int × Int :=
  let i := (id.toNat : Int) - 1
  (i.tdiv 8,i.tmod 8)

def id (byteIdx bitIdx : Int) : ID := UInt32.ofInt (1 + byteIdx*8 + bitIdx)

def add (bm : Bitfield) (id : ID) : Option Bitfield :=
  let (byteIdx,bitIdx) := index id
  (if bm.length ≤ byteIdx then extend bm (byteIdx + 1 - bm.length) else some bm).bind
    fun bm => set bm byteIdx bitIdx

def contains (bm : Bitfield) (id : ID) : Option Bool :=
  let (byteIdx,bitIdx) := index id
  if bm.length ≤ byteIdx then some false else isSet bm byteIdx bitIdx

def forEach {σ : Type*} (bm : Bitfield) (f : σ → ID → σ) (s : σ) : Option σ :=
  (List.range bm.length).foldlM (fun s (byteIdx : Nat) =>
    (List.range 8).foldlM (fun s (bitIdx : Nat) =>
      (isSet bm byteIdx bitIdx).map fun found => if found then f s (id byteIdx bitIdx) else s) s) s

theorem toNat_pos {id : ID} (h : id ≠ 0) : 0 < id.toNat :=
  Nat.pos_of_ne_zero fun h0 => h (UInt32.toNat_inj.mp h0)

theorem index_eq {id : ID} (h : id ≠ 0) :
    index id = ((((id.toNat - 1)/8 : Nat) : Int),(((id.toNat - 1)%8 : Nat) : Int)) := by
  have hi : (id.toNat : Int) - 1 = ((id.toNat - 1 : Nat) : Int) := by
    have hpos := toNat_pos h
    omega
  unfold index
  rw [hi]
  rfl

theorem id_eq (byteIdx bitIdx : Nat) : id byteIdx bitIdx = UInt32.ofNat (8*byteIdx + bitIdx + 1) := by
  have hcast : 1 + (byteIdx : Int)*8 + bitIdx = ((8*byteIdx + bitIdx + 1 : Nat) : Int) := by omega
  rw [id,hcast,UInt32.ofInt]
  apply UInt32.toNat_inj.mp
  rw [UInt32.toNat_ofNat',UInt32.toNat_ofNat']
  omega

theorem isSet_eq {bm : Bitfield} {byteIdx bitIdx : Nat} (hbyte : byteIdx < bm.length) (hbit : bitIdx < 8) :
    isSet bm byteIdx bitIdx = some (bit bm (8*byteIdx + bitIdx)) := by
  have hdiv : (8*byteIdx + bitIdx)/8 = byteIdx := by omega
  have hmod : (8*byteIdx + bitIdx)%8 = bitIdx := by omega
  have hb : byte bm byteIdx = some bm[byteIdx] := List.getElem?_eq_getElem hbyte
  have hm : shifted bitIdx = some (mask bitIdx) := rfl
  rw [isSet,hb,hm,bit,hdiv,hmod,List.getElem?_eq_getElem hbyte]
  refine congrArg some ?_
  rw [Option.getD_some,Bool.eq_iff_iff,decide_eq_true_iff]
  exact and_mask_ne_zero hbit _

theorem contains_eq (bm : Bitfield) {id : ID} (h : id ≠ 0) : contains bm id = some (bit bm (id.toNat - 1)) := by
  unfold contains
  rw [index_eq h]
  dsimp only
  split_ifs with hlen
  · -- past the end no bit is set
    refine congrArg some (Eq.symm (Bool.eq_false_iff.mpr fun hbit => ?_))
    have hlt := lt_of_bit hbit
    omega
  · rw [isSet_eq (by omega) (Nat.mod_lt _ (by decide)),Nat.div_add_mod]

/-- The bytes that `Add` writes to: zeros are appended up to the byte of the ID. -/
def grown (bm : Bitfield) (byteIdx : Nat) : Bitfield := bm ++ List.replicate (byteIdx + 1 - bm.length) 0

theorem extend_eq (bm : Bitfield) (byteIdx : Nat) :
    (if bm.length ≤ (byteIdx : Int) then extend bm (byteIdx + 1 - bm.length) else some bm) =
      some (grown bm byteIdx) := by
  split_ifs with hlen
  · have hn : (byteIdx : Int) + 1 - bm.length = ((byteIdx + 1 - bm.length : Nat) : Int) := by omega
    rw [hn,extend,if_neg (by omega)]
    rfl
  · have hn : byteIdx + 1 - bm.length = 0 := by omega
    rw [grown,hn,List.replicate_zero,List.append_nil]

theorem exists_byte_grown (bm : Bitfield) (byteIdx : Nat) : ∃ b, (grown bm byteIdx)[byteIdx]? = some b := by
  have hlt : byteIdx < (grown bm byteIdx).length := by
    rw [grown,List.length_append,List.length_replicate]
    omega
  exact ⟨_,List.getElem?_eq_getElem hlt⟩

theorem add_grown (bm : Bitfield) {id : ID} (h : id ≠ 0) {i : Nat} (hi : id.toNat - 1 = i) {b : UInt8}
    (hb : (grown bm (i/8))[i/8]? = some b) :
    add bm id = some (List.set (grown bm (i/8)) (i/8) (b ||| mask (i%8))) := by
  have hbyte : byte (grown bm (i/8)) (i/8 : Nat) = some b := hb
  unfold add
  rw [index_eq h,hi]
  dsimp only
  rw [extend_eq,Option.bind_some,set,hbyte]
  rfl

/-- One more bit is set and nothing else changes. -/
theorem add_spec (bm : Bitfield) {id : ID} (h : id ≠ 0) :
    ∃ bm', add bm id = some bm' ∧ ∀ j, bit bm' j = (decide (id.toNat - 1 = j) || bit bm j) := by
  obtain ⟨b,hb⟩ := exists_byte_grown bm ((id.toNat - 1)/8)
  refine ⟨_,add_grown bm h rfl hb,fun j => ?_⟩
  rw [bit_set hb,grown,bit_append_zeros]

/-- ID 0 has a negative bit index. -/
theorem add_zero (bm : Bitfield) : add bm 0 = none := by
  have hset (bm : Bitfield) : set bm 0 (-1) = none := by
    rw [set]
    cases byte bm 0 <;> rfl
  have hindex : index 0 = (0,-1) := rfl
  unfold add
  rw [hindex]
  dsimp only
  simp only [hset,Option.bind_fun_none]

def idAt (i : Nat) : ID := UInt32.ofNat (i+1)

/-- The two nested loops pass through the bits in order. -/
theorem forEach_eq {σ : Type*} (bm : Bitfield) (f : σ → ID → σ) (s : σ) :
    forEach bm f s = some (((ones bm).map idAt).foldl f s) := by
  rw [forEach,ones,List.foldl_map,List.foldl_filter,range_mul_eq_flatMap,List.foldl_flatMap]
  refine foldlM_eq_foldl (fun byteIdx hbyte s => ?_) s
  rw [List.foldl_map]
  refine foldlM_eq_foldl (fun bitIdx hbit s => ?_) s
  rw [isSet_eq (List.mem_range.mp hbyte) (List.mem_range.mp hbit),id_eq]
  cases bit bm (8*byteIdx + bitIdx) <;> rfl

end Bitfield.Checked

namespace Bitfield
open Checked

private theorem shift_eq_mask : ∀ k < 8, 1 <<< UInt8.ofNat k = mask k := by decide

theorem checked_add (bm : Bitfield) (id : ID) : Checked.add bm id = add bm id := by
  by_cases h : id = 0
  · rw [h,Checked.add_zero]
    rfl
  · obtain ⟨b,hb⟩ := exists_byte_grown bm ((id.toNat - 1)/8)
    obtain ⟨hlt,hget⟩ := List.getElem?_eq_some_iff.mp hb
    rw [add_grown bm h rfl hb,add,if_neg h]
    refine congrArg some ?_
    change _ = List.modify (grown bm ((id.toNat - 1)/8)) _ _
    rw [List.modify_eq_set_get _ hlt,List.get_eq_getElem,hget,shift_eq_mask _ (Nat.mod_lt _ (by decide))]

private theorem isSet_eq_testBit {k : Nat} (h : k < 8) (b : UInt8) : isSet b k = b.toNat.testBit k := by
  rw [isSet,shift_eq_mask k h,Bool.eq_iff_iff,decide_eq_true_iff]
  exact and_mask_ne_zero h b

theorem forEach_eq_ones (bm : Bitfield) : forEach bm = (ones bm).map idAt := by
  have hzip : bm.zipIdx = (List.range bm.length).map fun byteIdx => (bm[byteIdx]?.getD 0,byteIdx) := by
    apply List.ext_getElem
    · simp
    · intro n hn _
      have hlt : n < bm.length := by simpa using hn
      simp [hlt]
  rw [forEach,hzip,List.flatMap_map,ones,range_mul_eq_flatMap,List.filter_flatMap,List.map_flatMap]
  refine List.flatMap_congr fun byteIdx _ => ?_
  rw [List.filter_map,List.map_map,← List.filterMap_eq_filter,List.map_filterMap]
  refine List.filterMap_congr fun bitIdx hbit => ?_
  have hlt := List.mem_range.mp hbit
  have hdiv : (8*byteIdx + bitIdx)/8 = byteIdx := by omega
  have hmod : (8*byteIdx + bitIdx)%8 = bitIdx := by omega
  have hid : 1 + byteIdx*8 + bitIdx = 8*byteIdx + bitIdx + 1 := by omega
  rw [isSet_eq_testBit hlt,hid]
  simp only [Option.guard,Function.comp,bit,hdiv,hmod]
  split_ifs <;> rfl

/-- The callback sees the IDs of the list that `VerifyThresholdSignature` and the leader rotation go through. -/
theorem checked_forEach {σ : Type*} (bm : Bitfield) (f : σ → ID → σ) (s : σ) :
    Checked.forEach bm f s = some ((forEach bm).foldl f s) := by
  rw [Checked.forEach_eq,forEach_eq_ones]

/-- The bits of `bm` are those of the IDs in `S`. -/
structure Represents (bm : Bitfield) (S : Finset ID) : Prop where
  zero : 0 ∉ S
  bits : ∀ i, bit bm i = true ↔ ∃ id ∈ S, id.toNat = i + 1

theorem toNat_idAt {i : Nat} (h : i + 1 < 2^32) : (idAt i).toNat = i + 1 := by
  rw [idAt,UInt32.toNat_ofNat',Nat.mod_eq_of_lt h]

/-- The last bit of 2^29 bytes would be that of ID 2^32. -/
theorem exists_represents {bm : Bitfield} (h : bm.length < 2^29) : ∃ S, Represents bm S := by
  have hid {i : Nat} (hi : i ∈ ones bm) : (idAt i).toNat = i + 1 := by
    have hlt := lt_of_bit (mem_ones.mp hi)
    exact toNat_idAt (by omega)
  refine ⟨((ones bm).map idAt).toFinset,fun h0 => ?_,fun i => ?_⟩
  · obtain ⟨i,hi,h0⟩ := List.mem_map.mp (List.mem_toFinset.mp h0)
    have hpos := hid hi
    rw [h0] at hpos
    exact Nat.succ_ne_zero i hpos.symm
  · rw [← mem_ones]
    constructor
    · intro hi
      exact ⟨idAt i,List.mem_toFinset.mpr (List.mem_map_of_mem hi),hid hi⟩
    · rintro ⟨id,hmem,hn⟩
      obtain ⟨j,hj,rfl⟩ := List.mem_map.mp (List.mem_toFinset.mp hmem)
      rw [hid hj] at hn
      rwa [← Nat.succ.inj hn]

namespace Represents
variable {bm : Bitfield} {S : Finset ID}

theorem mem_iff (h : Represents bm S) (id : ID) : id ∈ S ↔ id ≠ 0 ∧ bit bm (id.toNat - 1) = true := by
  rw [h.bits]
  constructor
  · intro hid
    have hne : id ≠ 0 := fun h0 => h.zero (h0 ▸ hid)
    exact ⟨hne,id,hid,(Nat.sub_add_cancel (toNat_pos hne)).symm⟩
  · rintro ⟨hne,x,hx,hxid⟩
    rw [Nat.sub_add_cancel (toNat_pos hne)] at hxid
    exact UInt32.toNat_inj.mp hxid ▸ hx

theorem contains (h : Represents bm S) {id : ID} (hid : id ≠ 0) :
    Checked.contains bm id = some (decide (id ∈ S)) := by
  rw [contains_eq bm hid]
  refine congrArg some (Bool.eq_iff_iff.mpr ?_)
  rw [decide_eq_true_iff,h.mem_iff,and_iff_right hid]

theorem add (h : Represents bm S) {id : ID} (hid : id ≠ 0) :
    ∃ bm', Checked.add bm id = some bm' ∧ Represents bm' (insert id S) := by
  obtain ⟨bm',hadd,hbit⟩ := add_spec bm hid
  have hpos := toNat_pos hid
  refine ⟨bm',hadd,fun h0 => ?_,fun i => ?_⟩
  · rcases Finset.mem_insert.mp h0 with h0 | h0
    · exact hid h0.symm
    · exact h.zero h0
  · rw [hbit,Bool.or_eq_true,decide_eq_true_iff,h.bits,Finset.exists_mem_insert]
    refine or_congr_left ?_
    omega

/-- Over a run each of whose steps adds an ID, no access fails and the IDs add up. -/
theorem run {σ α : Type*} {step : σ → α → Option σ} (bitfield : σ → Bitfield) (key : α → ID)
    (hstep : ∀ s a bm', Checked.add (bitfield s) (key a) = some bm' → ∃ s', step s a = some s' ∧ bitfield s' = bm')
    {s : σ} (h : Represents (bitfield s) S) {l : List α} (hl : ∀ a ∈ l, key a ≠ 0) :
    ∃ s', l.foldlM step s = some s' ∧ Represents (bitfield s') (S ∪ (l.map key).toFinset) := by
  induction l generalizing s S with
  | nil => exact ⟨s,rfl,by simpa using h⟩
  | cons a l ih =>
    obtain ⟨ha,hl⟩ := List.forall_mem_cons.mp hl
    obtain ⟨_,hadd,hbm⟩ := h.add ha
    obtain ⟨s₁,hs₁,rfl⟩ := hstep s a _ hadd
    obtain ⟨s₂,hrun,h₂⟩ := ih hbm hl
    refine ⟨s₂,?_,?_⟩
    · rw [List.foldlM_cons,hs₁]
      exact hrun
    · rwa [List.map_cons,List.toFinset_cons,Finset.union_insert,← Finset.insert_union]

theorem addAll (h : Represents bm S) {ids : List ID} (hids : ∀ id ∈ ids, id ≠ 0) :
    ∃ bm', ids.foldlM Checked.add bm = some bm' ∧ Represents bm' (S ∪ ids.toFinset) := by
  obtain ⟨bm',hrun,h'⟩ := run (fun bm => bm) (fun id => id) (fun _ _ bm' hadd => ⟨bm',hadd,rfl⟩) h hids
  rw [List.map_id'] at h'
  exact ⟨bm',hrun,h'⟩

theorem idAt_mem (h : Represents bm S) {i : Nat} (hi : i ∈ ones bm) : idAt i ∈ S ∧ (idAt i).toNat = i + 1 := by
  obtain ⟨id,hid,hn⟩ := (h.bits i).mp (mem_ones.mp hi)
  have heq : idAt i = id := by rw [idAt,← hn,UInt32.ofNat_toNat]
  rw [heq]
  exact ⟨hid,hn⟩

theorem mem_forEach (h : Represents bm S) {id : ID} : id ∈ forEach bm ↔ id ∈ S := by
  rw [forEach_eq_ones,List.mem_map]
  constructor
  · rintro ⟨i,hi,rfl⟩
    exact (h.idAt_mem hi).1
  · intro hid
    obtain ⟨hne,hbit⟩ := (h.mem_iff id).mp hid
    refine ⟨id.toNat - 1,mem_ones.mpr hbit,?_⟩
    rw [idAt,Nat.sub_add_cancel (toNat_pos hne),UInt32.ofNat_toNat]

theorem forEach_sorted (h : Represents bm S) : (forEach bm).Pairwise (· < ·) := by
  rw [forEach_eq_ones,List.pairwise_map]
  refine (ones_sorted bm).imp_of_mem fun {i j} hi hj hij => ?_
  rw [UInt32.lt_iff_toNat_lt,(h.idAt_mem hi).2,(h.idAt_mem hj).2]
  exact Nat.succ_lt_succ hij

end Represents

theorem refines_finset (bm : Bitfield) (hbm : bm.length < 2^29) (ids : List ID) (hids : ∀ id ∈ ids, 1 ≤ id) :
    ∃ (S : Finset ID) (bm' : Bitfield),
      (∀ id, id ∈ S ↔ 1 ≤ id ∧ (bit bm (id.toNat - 1) = true ∨ id ∈ ids)) ∧
      ids.foldlM Checked.add bm = some bm' ∧
      (∀ id, 1 ≤ id → Checked.contains bm' id = some (decide (id ∈ S))) ∧
      (∃ visited : List ID, visited.Pairwise (· < ·) ∧ visited.toFinset = S ∧
        ∀ {σ : Type} (f : σ → ID → σ) (s : σ), Checked.forEach bm' f s = some (visited.foldl f s)) ∧
      ∀ next, 1 ≤ next → ∃ bm'', Checked.add bm' next = some bm'' ∧
        ∀ id, 1 ≤ id → Checked.contains bm' id = some true → Checked.contains bm'' id = some true := by
  have hone (id : ID) : 1 ≤ id ↔ id ≠ 0 := by
    rw [UInt32.le_iff_toNat_le,Ne,← UInt32.toNat_inj]
    exact Nat.one_le_iff_ne_zero
  simp only [hone] at hids ⊢
  obtain ⟨S,hS⟩ := exists_represents hbm
  obtain ⟨bm',hall,h⟩ := hS.addAll hids
  refine ⟨S ∪ ids.toFinset,bm',fun id => ?_,hall,fun id => h.contains,?_,fun next hnext => ?_⟩
  · rw [Finset.mem_union,hS.mem_iff,List.mem_toFinset,and_or_left]
    exact or_congr_right (iff_and_self.mpr (hids id))
  · refine ⟨forEach bm',h.forEach_sorted,?_,fun f s => checked_forEach bm' f s⟩
    apply Finset.ext
    intro id
    rw [List.mem_toFinset,h.mem_forEach]
  · obtain ⟨bm'',hadd,h'⟩ := h.add hnext
    refine ⟨bm'',hadd,fun id hid hc => ?_⟩
    rw [h.contains hid] at hc
    rw [h'.contains hid,decide_eq_true (Finset.mem_insert_of_mem (of_decide_eq_true (Option.some.inj hc)))]

theorem refines_finset_ten : ∃ S : Finset ID,
    (∀ id, id ∈ S ↔ 1 ≤ id ∧ (bit [5] (id.toNat - 1) = true ∨ id ∈ [10,3])) ∧
      [10,3].foldlM Checked.add [5] = some [5,2] ∧
      (∀ id, 1 ≤ id → Checked.contains [5,2] id = some (decide (id ∈ S))) ∧
      Checked.forEach [5,2] (fun l id => l ++ [id]) [] = some [1,3,10] := by
  have hids : ∀ id ∈ ([10,3] : List ID), 1 ≤ id := by
    intro id hid
    rcases List.mem_pair.mp hid with rfl | rfl <;> decide
  obtain ⟨S,bm',hS,hall,hcontains,-,-⟩ := refines_finset [5] (by decide) [10,3] hids
  have hrun : [10,3].foldlM Checked.add [5] = some [5,2] := rfl
  obtain rfl := Option.some.inj (hall.symm.trans hrun)
  exact ⟨S,hS,hrun,hcontains,rfl⟩

end Bitfield

namespace Bls12
open Bitfield

/-- For an aggregate of signatures by replicas of the configuration, `VerifyThresholdSignature` collects the key of
every signer once. -/
theorem aggregateSignatures_keys (B : Bls12) {l : List Bls12Signature} (hl : l ≠ [])
    (h0 : ∀ g ∈ l, g.signer ≠ 0) (hnodup : (l.map Bls12Signature.signer).Nodup)
    (hrep : ∀ g ∈ l, g.signer ∈ B.replicas) :
    ∃ a, B.aggregateSignatures l = some a ∧
      ((forEach a.participants).filter (· ∈ B.replicas)).Perm (l.map Bls12Signature.signer) := by
  have hempty : Represents [] ∅ := ⟨Finset.notMem_empty 0,fun i => by simp [bit]⟩
  obtain ⟨a,hrun,ha⟩ : ∃ a, B.aggregateSignatures l = some a ∧
      Represents a.participants (∅ ∪ (l.map Bls12Signature.signer).toFinset) := by
    rw [aggregateSignatures,if_neg hl]
    refine Represents.run AggregateSignature.participants Bls12Signature.signer (fun a g ps hadd => ?_) hempty h0
    rw [checked_add] at hadd
    exact ⟨⟨B.add a.sig g.s,ps⟩,by rw [hadd,Option.map_some],rfl⟩
  rw [Finset.empty_union] at ha
  refine ⟨a,hrun,?_⟩
  have hsigners {id : ID} (hid : id ∈ l.map Bls12Signature.signer) : id ∈ B.replicas := by
    obtain ⟨g,hg,rfl⟩ := List.mem_map.mp hid
    exact hrep g hg
  refine (List.perm_ext_iff_of_nodup ((ha.forEach_sorted.imp UInt32.ne_of_lt).filter _) hnodup).mpr fun id => ?_
  rw [List.mem_filter,decide_eq_true_iff,ha.mem_forEach,List.mem_toFinset]
  exact and_iff_left_of_imp hsigners

end Bls12
end Hotstuff
