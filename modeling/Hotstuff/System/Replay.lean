import Hotstuff.System.Run
import Hotstuff.Replica.Run

/-! Finite runs that can be computed: what is assumed of a run comes down to tests on the logs
and the stores of the replicas that take part. -/
namespace Hotstuff
open Library Replica
variable {S : Setup} {R : RuleSet}

def System.Within (S : Setup) (ids : List ID) (σ : System) : Prop := ∀ i ∉ ids, σ i = Replica.init S i

theorem System.Within.step {ids : List ID} {σ : System} (h : σ.Within S ids) {st : Step}
    (hst : st.replica ∈ ids) : (σ.step S R st).Within S ids := by
  intro i hi
  have hne : i ≠ st.replica := fun he => hi (he ▸ hst)
  rw [System.step,Function.update_of_ne hne]
  exact h i hi

theorem System.Within.run {ids : List ID} {σ : System} (h : σ.Within S ids) {steps : List Step}
    (hs : ∀ st ∈ steps, st.replica ∈ ids) : (σ.run S R steps).Within S ids := by
  induction steps generalizing σ with
  | nil => exact h
  | cons st steps ih =>
    obtain ⟨hst,hs⟩ := List.forall_mem_cons.mp hs
    exact ih (h.step hst) hs

theorem System.Within.of_log {ids : List ID} {σ : System} (h : σ.Within S ids) (q : Effect → Bool)
    (ht : ids.all (fun i => (σ i).log.all q) = true) (i : ID) (e : Effect) (he : e ∈ (σ i).log) : q e = true := by
  by_cases hi : i ∈ ids
  · exact List.all_eq_true.mp (List.all_eq_true.mp ht i hi) e he
  · rw [h i hi] at he
    simp [Replica.init] at he

def coversTest (l : List Block) (ids : List ID) (σ : System) : Bool :=
  ids.all (fun i => (σ i).blocks.all (fun e => decide (e.2 ∈ l))) &&
    ids.all fun i => (σ i).log.all fun
      | .signTimeout _ => false
      | _ => true

def collisionTest (S : Setup) (l : List Block) : Bool :=
  l.all fun a => l.all fun b => decide (a.hash S = b.hash S → a.toBytes = b.toBytes)

/-- The ideal hash function on listed blocks. -/
def Ideal.ofList (l : List Block) (hg : genesis ∈ l) (hv : ∀ x v, S.sha256 x ≠ View.toHash v)
    (h : collisionTest S l = true) : Ideal S where
  blocks := {b | b ∈ l}
  timeouts := ∅
  genesis_mem := hg
  injOn := by
    rw [Set.image_empty,Set.union_empty]
    rintro _ ⟨a,ha,rfl⟩ _ ⟨b,hb,rfl⟩ he
    exact of_decide_eq_true (List.all_eq_true.mp (List.all_eq_true.mp h a ha) b hb) he
  not_view x _ := hv x

theorem covers_of_test {I : Ideal S} {l : List Block} (hl : ∀ b ∈ l, b ∈ I.blocks) {ids : List ID} {σ : System}
    (hw : σ.Within S ids) (h : coversTest l ids σ = true) : I.Covers σ := by
  rw [coversTest,Bool.and_eq_true] at h
  refine ⟨fun i e he => ?_,fun i m hm => absurd (hw.of_log _ h.2 i _ hm) (by simp)⟩
  by_cases hi : i ∈ ids
  · exact hl _ (of_decide_eq_true (List.all_eq_true.mp (List.all_eq_true.mp h.1 i hi) e he))
  · rw [hw i hi] at he
    rw [List.mem_singleton.mp he]
    exact I.genesis_mem

/-- Without further assumptions any steps of correct replicas make a run. -/
theorem reachable_run {F : Faults S} {ids : List ID} (hids : ∀ i ∈ ids, i ∈ S.replicas ∧ i ∉ F.byzantine)
    {σ : System} (hr : Reachable R F (fun _ _ _ => True) σ) (hw : σ.Within S ids) (steps : List Step)
    (h : ∀ st ∈ steps, st.replica ∈ ids) :
    Reachable R F (fun _ _ _ => True) (σ.run S R steps) ∧ (σ.run S R steps).Within S ids := by
  refine ⟨?_,hw.run h⟩
  clear hw
  induction steps generalizing σ with
  | nil => exact hr
  | cons st steps ih =>
    obtain ⟨hst,h⟩ := List.forall_mem_cons.mp h
    exact ih (hr.tail ⟨st,(hids _ hst).1,(hids _ hst).2,rfl,trivial⟩) h

namespace Sample

theorem digest_ne_view (x : List UInt8) (v : View) : setup.sha256 x ≠ View.toHash v := by
  intro h
  have hn := congrArg BitVec.toNat h
  have hv := v.toNat_lt
  simp only [setup,digest,View.toHash,BitVec.toNat_ofNat] at hn
  have hx : x.foldl (fun a b => (a*263 + b.toNat + 1) % (2^61-1)) 7 < 2^61 := by
    induction x using List.reverseRecOn with
    | nil => decide
    | append_singleton x b _ =>
      rw [List.foldl_append]
      exact (Nat.mod_lt _ (by decide)).trans (by decide)
  omega

def faults : Faults setup := ⟨{4},⟨1,by decide⟩,by decide⟩

theorem correct_replicas : ∀ i ∈ ([1,2,3] : List ID), i ∈ setup.replicas ∧ i ∉ faults.byzantine := by
  simp [setup,faults]

def deliver (known : List Block) (l : List (ID × Block)) : List Step :=
  l.map fun e => ⟨e.1,env e.1 known,.propose ⟨4,e.2,none⟩⟩

def after (R : RuleSet) (known : List Block) (l : List (ID × Block)) : System :=
  (System.init setup).run setup R (deliver known l)

theorem reachable_after (R : RuleSet) (known : List Block) {l : List (ID × Block)}
    (h : ∀ e ∈ l, e.1 ∈ ([1,2,3] : List ID)) :
    Reachable R faults (fun _ _ _ => True) (after R known l) ∧ (after R known l).Within setup [1,2,3] := by
  refine reachable_run correct_replicas .refl (fun _ _ => rfl) (deliver known l) fun st hst => ?_
  obtain ⟨e,he,rfl⟩ := List.mem_map.mp hst
  exact h e he

def line : Nat → Block
  | 0 => first 1
  | k+1 => next [1,2,4] (line k) ((line k).view + 1)

def apart (link : Block → Hash) (known : List Block) (a b : Block) : Bool :=
  [a,b].all (fun c => [c,genesis].all fun x => known.all fun y =>
      decide (y.hash setup = link x → y ∈ [c,genesis])) &&
    decide (b ∉ [a,genesis] ∧ a ∉ [b,genesis])

theorem not_comparable_of_apart {r : Block → Block → Prop} {link : Block → Hash} {known : List Block} {a b : Block}
    (hr : ∀ x y, r x y → y ∈ known ∧ y.hash setup = link x) (h : apart link known a b = true) :
    ¬ (Relation.ReflTransGen r a b ∨ Relation.ReflTransGen r b a) := by
  rw [apart,Bool.and_eq_true,decide_eq_true_eq] at h
  obtain ⟨hclosed,hb,ha⟩ := h
  have closed (c : Block) (hc : c ∈ [a,b]) (x : Block) (hx : x ∈ [c,genesis]) (y : Block) (hxy : r x y) :
      y ∈ [c,genesis] := by
    obtain ⟨hy,hl⟩ := hr x y hxy
    have hall := List.all_eq_true.mp (List.all_eq_true.mp hclosed c hc) x hx
    exact of_decide_eq_true (List.all_eq_true.mp hall y hy) hl
  exact not_comparable (closed a (by simp)) (closed b (by simp)) List.mem_cons_self List.mem_cons_self hb ha

def lineKnown : List Block := genesis :: (List.range 5).map line

def lineOrder : List (ID × Block) := (List.range 5).flatMap fun k => [(1,line k),(2,line k)]

theorem lineOrder_correct : ∀ e ∈ lineOrder, e.1 ∈ ([1,2,3] : List ID) := by decide +kernel

theorem line_unambiguous {I : Ideal setup} (hI : ∀ b, b ∈ I.blocks ↔ b ∈ lineKnown) :
    Set.InjOn Block.toBytes I.blocks := by
  have h : ∀ a ∈ lineKnown, ∀ b ∈ lineKnown, a.toBytes = b.toBytes → a = b := by decide +kernel
  exact fun a ha b hb he => h a ((hI a).mp ha) b ((hI b).mp hb) he

end Sample
end Hotstuff
