import Hotstuff.Replica.Record
import Hotstuff.Library.Voting
import Mathlib.Data.Set.Function

/-! Runs of all replicas. Correct replicas handle events one at a time, in any order and with
any content that the assumptions on signatures, hashes and block retrieval leave open;
Byzantine replicas exist only through what the others receive. -/
namespace Hotstuff
open Library Replica

abbrev System := ID → Replica

structure Step where
  replica : ID
  env : Env
  event : Event

namespace System
def init (S : Setup) : System := Replica.init S

def step (S : Setup) (R : RuleSet) (σ : System) (st : Step) : System :=
  Function.update σ st.replica (handle S R st.env st.event (σ st.replica))

def run (S : Setup) (R : RuleSet) (σ : System) (steps : List Step) : System := steps.foldl (step S R) σ
end System

/-- At most `numFaulty` of the replicas are Byzantine, and there is a replica. -/
structure Faults (S : Setup) where
  byzantine : Finset ID
  nonempty : S.replicas.Nonempty
  few : (S.replicas ∩ byzantine).card ≤ numFaulty S.replicas.card

/-- Quorums of `QuorumSize` overlap in a correct replica, for every number of replicas. -/
def Faults.committee {S : Setup} (F : Faults S) : Committee ID where
  members := S.replicas
  faulty := F.byzantine
  quorum := S.quorum
  overlap := by
    have hn := F.nonempty.card_pos
    have hf := F.few
    simp only [Setup.quorum,quorumSize,numFaulty] at hf ⊢
    omega

variable {S : Setup}

def Takes (R : RuleSet) (F : Faults S) (ok : System → Step → System → Prop) (σ σ' : System) : Prop :=
  ∃ st : Step, st.replica ∈ S.replicas ∧ st.replica ∉ F.byzantine ∧ σ' = σ.step S R st ∧ ok σ st σ'

def Reachable (R : RuleSet) (F : Faults S) (ok : System → Step → System → Prop) (σ : System) : Prop :=
  Relation.ReflTransGen (Takes R F ok) (System.init S) σ

def Signed (S : Setup) (log : List Effect) (h : Hash) : Prop := ∃ e ∈ log, e.signedHash S = some h

/-- SHA-256 on the strings of a run: no collision, and no digest that is a bare view number. -/
structure Ideal (S : Setup) where
  blocks : Set Block
  timeouts : Set TimeoutMsg
  genesis_mem : genesis ∈ blocks
  injOn : Set.InjOn S.sha256 (Block.toBytes '' blocks ∪ TimeoutMsg.toBytes '' timeouts)
  not_view : ∀ x ∈ Block.toBytes '' blocks ∪ TimeoutMsg.toBytes '' timeouts, ∀ v,
    S.sha256 x ≠ View.toHash v

structure Ideal.Covers (I : Ideal S) (σ : System) : Prop where
  blocks : ∀ i, ∀ e ∈ (σ i).blocks, e.2 ∈ I.blocks
  timeouts : ∀ i m, .signTimeout m ∈ (σ i).log → m ∈ I.timeouts

section Grow
variable {R : RuleSet} {F : Faults S} {ok : System → Step → System → Prop} {σ σ' : System}

/-- What the step does to its own replica it does, trivially, to the others. -/
theorem System.step_each {Q : ID → Replica → Prop} {st : Step} {σ : System}
    (hst : Q st.replica (handle S R st.env st.event (σ st.replica))) (h : ∀ i, Q i (σ i)) (i : ID) :
    Q i (σ.step S R st i) :=
  (Function.forall_update_iff σ Q).mpr ⟨hst,fun i _ => h i⟩ i

theorem System.step_grows (st : Step) (σ : System) (i : ID) :
    (σ i).log <:+ (σ.step S R st i).log ∧ (σ i).blocks <:+ (σ.step S R st i).blocks ∧
      (σ.step S R st i).id = (σ i).id :=
  System.step_each (Q := fun i s => (σ i).log <:+ s.log ∧ (σ i).blocks <:+ s.blocks ∧ s.id = (σ i).id)
    (handle_micro st.event (σ st.replica)).grows (fun _ => ⟨List.suffix_rfl,List.suffix_rfl,rfl⟩) i

theorem Takes.grows (h : Takes R F ok σ σ') (i : ID) :
    (σ i).log <:+ (σ' i).log ∧ (σ i).blocks <:+ (σ' i).blocks ∧ (σ' i).id = (σ i).id := by
  obtain ⟨st,-,-,rfl,-⟩ := h
  exact System.step_grows st σ i

theorem Ideal.Covers.back {I : Ideal S} (hc : I.Covers σ') (h : Takes R F ok σ σ') : I.Covers σ :=
  ⟨fun i e he => hc.blocks i e ((h.grows i).2.1.mem he),
    fun i m hm => hc.timeouts i m ((h.grows i).1.mem hm)⟩

/-- What every replica keeps to, whatever it receives, holds in every run. -/
theorem Reachable.recorded (h : Reachable R F ok σ) : ∀ i, Recorded S R (σ i) := by
  induction h with
  | refl => exact recorded_init
  | tail _ ht ih =>
    obtain ⟨st,-,-,rfl,-⟩ := ht
    exact System.step_each ((ih st.replica).handle st.event) ih

end Grow
end Hotstuff
