import Mathlib.Data.Finset.Card
import Mathlib.Logic.Relation

/-! Voting on a tree of blocks with quorums that overlap in a correct member. If a vote
is cast only for a block whose certified parent is recent enough, a certified run of
consecutive views fixes its oldest block for good. -/
namespace Hotstuff.Library
variable {ι β : Type*}

/-- Members of which fewer are faulty than any two quorums share. -/
structure Committee (ι : Type*) [DecidableEq ι] where
  members : Finset ι
  faulty : Finset ι
  quorum : ℕ
  overlap : members.card + (members ∩ faulty).card < 2 * quorum

namespace Committee
variable [DecidableEq ι] (C : Committee ι)

def IsQuorum (Q : Finset ι) : Prop := Q ⊆ C.members ∧ C.quorum ≤ Q.card

variable {C}

theorem exists_correct_mem_inter {Q Q' : Finset ι} (h : C.IsQuorum Q) (h' : C.IsQuorum Q') :
    ∃ i, i ∈ Q ∧ i ∈ Q' ∧ i ∉ C.faulty := by
  by_contra hn
  push Not at hn
  have hsub : Q ∩ Q' ⊆ C.members ∩ C.faulty := by
    intro i hi
    obtain ⟨hq,hq'⟩ := Finset.mem_inter.mp hi
    exact Finset.mem_inter.mpr ⟨h.1 hq,hn i hq hq'⟩
  have hinter := Finset.card_le_card hsub
  have hunion := Finset.card_le_card (Finset.union_subset h.1 h'.1)
  have hsum := Finset.card_union_add_card_inter Q Q'
  have ho := C.overlap
  have hq := h.2
  have hq' := h'.2
  omega

end Committee

/-- Who voted for what; `up b a` says that the certificate inside `b` is for `a`. -/
structure Voting (ι β : Type*) [DecidableEq ι] extends Committee ι where
  view : β → ℕ
  root : β
  up : β → β → Prop
  voted : ι → β → Prop

namespace Voting
variable [DecidableEq ι] (V : Voting ι β)

def Certified (b : β) : Prop :=
  b = V.root ∨ ∃ Q, V.IsQuorum Q ∧ ∀ i ∈ Q, i ∉ V.faulty → V.voted i b

def Link (b a : β) : Prop := V.Certified b ∧ V.up b a

def Up : ℕ → β → β → Prop
  | 0, b, x => b = x
  | k+1, b, x => ∃ a, V.up b a ∧ Up k a x

def Window : ℕ → β → β → Prop
  | 0, b, x => b = x
  | k+1, b, x => ∃ a, V.up b a ∧ V.view a + 1 = V.view b ∧ Window k a x

/-- A block that the `k`-chain rule decides: the lowest of a window with a certified top. -/
def Decided (k : ℕ) (c : β) : Prop := ∃ x, V.Certified x ∧ V.Window k x c

/-- A correct member votes at most once a view, and never in the root's view or below. -/
structure Increasing : Prop where
  once : ∀ i ∉ V.faulty, ∀ a b, V.voted i a → V.voted i b → V.view a = V.view b → a = b
  above : ∀ i ∉ V.faulty, ∀ b, V.voted i b → V.view V.root < V.view b

/-- A certificate inside a block stands for votes that its signers cast before they voted
for the block. -/
structure Backed : Prop extends V.Increasing where
  root_up : ∀ a, ¬ V.up V.root a
  up_unique : ∀ a a' b, V.up b a → V.up b a' → a = a'
  backed : ∀ i ∉ V.faulty, ∀ b, V.voted i b → ∀ a, V.up b a → a = V.root ∨
    ∃ Q, V.IsQuorum Q ∧ ∀ j ∈ Q, j ∉ V.faulty → V.voted j a ∧ (V.voted j b → V.view a < V.view b)

/-- What makes the `k`-chain rule safe: a certified block's parent is one view below it, or
as recent as everything that some quorum had `k` links below its earlier votes. -/
structure Safe (k : ℕ) : Prop extends V.Backed where
  recent : ∀ b, V.Certified b → b ≠ V.root → ∃ a, V.up b a ∧ (V.view a + 1 = V.view b ∨
    ∃ Q, V.IsQuorum Q ∧ ∀ i ∈ Q, i ∉ V.faulty → ∀ b', V.voted i b' → V.view b' < V.view b →
      ∀ x, V.Up k b' x → V.view x ≤ V.view a)

variable {V} {k : ℕ}

theorem Certified.quorum {b : β} (h : V.Certified b) (hb : b ≠ V.root) :
    ∃ Q, V.IsQuorum Q ∧ ∀ i ∈ Q, i ∉ V.faulty → V.voted i b := h.resolve_left hb

theorem Certified.exists_voter {b : β} (h : V.Certified b) (hb : b ≠ V.root) :
    ∃ i ∈ V.members, i ∉ V.faulty ∧ V.voted i b := by
  obtain ⟨Q,hQ,hv⟩ := h.quorum hb
  obtain ⟨i,hi,-,hf⟩ := Committee.exists_correct_mem_inter hQ hQ
  exact ⟨i,hQ.1 hi,hf,hv i hi hf⟩

theorem Certified.root_lt {b : β} (hV : V.Increasing) (h : V.Certified b) (hb : b ≠ V.root) :
    V.view V.root < V.view b := by
  obtain ⟨i,_,hf,hv⟩ := h.exists_voter hb
  exact hV.above i hf b hv

theorem Certified.root_le {b : β} (hV : V.Increasing) (h : V.Certified b) : V.view V.root ≤ V.view b := by
  by_cases hb : b = V.root
  · rw [hb]
  · exact (h.root_lt hV hb).le

/-- One certified block a view. -/
theorem Certified.unique {a b : β} (hV : V.Increasing) (ha : V.Certified a) (hb : V.Certified b)
    (hv : V.view a = V.view b) : a = b := by
  by_cases har : a = V.root
  · by_contra hne
    have := hb.root_lt hV (har ▸ Ne.symm hne)
    simp [← hv,har] at this
  by_cases hbr : b = V.root
  · have := ha.root_lt hV har
    simp [hv,hbr] at this
  obtain ⟨Q,hQ,hva⟩ := ha.quorum har
  obtain ⟨Q',hQ',hvb⟩ := hb.quorum hbr
  obtain ⟨i,hi,hi',hf⟩ := Committee.exists_correct_mem_inter hQ hQ'
  exact hV.once i hf a b (hva i hi hf) (hvb i hi' hf) hv

/-- The block named by a certified block's certificate is certified, in a smaller view. -/
theorem Backed.up_certified (hV : V.Backed) {a b : β} (h : V.Certified b) (ha : V.up b a) :
    V.Certified a ∧ V.view a < V.view b := by
  have hb : b ≠ V.root := by
    rintro rfl
    exact hV.root_up a ha
  obtain ⟨Q,hQ,hvote⟩ := h.quorum hb
  obtain ⟨i,-,hf,hv⟩ := h.exists_voter hb
  rcases hV.backed i hf b hv a ha with rfl | ⟨Q',hQ',hback⟩
  · exact ⟨.inl rfl,h.root_lt hV.toIncreasing hb⟩
  · obtain ⟨j,hj,hj',hjf⟩ := Committee.exists_correct_mem_inter hQ hQ'
    exact ⟨.inr ⟨Q',hQ',fun j hj hjf => (hback j hj hjf).1⟩,(hback j hj' hjf).2 (hvote j hj hjf)⟩

theorem Backed.reached (hV : V.Backed) {b e : β} (h : V.Certified b) (hr : Relation.ReflTransGen V.up b e) :
    V.Certified e ∧ V.view e ≤ V.view b := by
  induction hr with
  | refl => exact ⟨h,le_rfl⟩
  | tail _ hu ih =>
    obtain ⟨hc,hlt⟩ := hV.up_certified ih.1 hu
    exact ⟨hc,hlt.le.trans ih.2⟩

theorem Window.up {b x : β} (h : V.Window k b x) : V.Up k b x := by
  induction k generalizing b with
  | zero => exact h
  | succ k ih =>
    obtain ⟨a,ha,-,hw⟩ := h
    exact ⟨a,ha,ih hw⟩

theorem Window.view {b x : β} (h : V.Window k b x) : V.view b = V.view x + k := by
  induction k generalizing b with
  | zero => simp [show b = x from h]
  | succ k ih =>
    obtain ⟨a,-,hv,hw⟩ := h
    have := ih hw
    omega

theorem Backed.window_reaches {n : ℕ} (hV : V.Backed) {b c : β} (hb : V.Certified b) (hw : V.Window n b c) :
    V.Certified c ∧ Relation.ReflTransGen V.Link b c := by
  induction n generalizing b with
  | zero =>
    obtain rfl : b = c := hw
    exact ⟨hb,.refl⟩
  | succ n ih =>
    obtain ⟨a,ha,-,hwa⟩ := hw
    obtain ⟨hc,hr⟩ := ih (hV.up_certified hb ha).1 hwa
    exact ⟨hc,.head ⟨hb,ha⟩ hr⟩

/-- A window has a certified block in each of its views, and all of them reach its bottom. -/
theorem Backed.window_mem {n : ℕ} (hV : V.Backed) {b c : β} (hb : V.Certified b) (hw : V.Window n b c)
    {v : ℕ} (hc : V.view c ≤ v) (hv : v ≤ V.view b) :
    ∃ y, V.Certified y ∧ V.view y = v ∧ Relation.ReflTransGen V.Link y c := by
  induction n generalizing b with
  | zero =>
    obtain rfl : b = c := hw
    exact ⟨b,hb,by omega,.refl⟩
  | succ n ih =>
    by_cases hvb : v = V.view b
    · exact ⟨b,hb,hvb.symm,(hV.window_reaches hb hw).2⟩
    · obtain ⟨a,ha,hva,hwa⟩ := hw
      exact ih (hV.up_certified hb ha).1 hwa (by omega)

theorem Decided.certified (hV : V.Backed) {c : β} (h : V.Decided k c) : V.Certified c := by
  obtain ⟨x,hx,hw⟩ := h
  exact (hV.window_reaches hx hw).1

/-- Certificate links lead from every certified block to the root. -/
theorem Safe.reaches_root (hV : V.Safe k) {b : β} (hb : V.Certified b) :
    Relation.ReflTransGen V.Link b V.root := by
  induction hn : V.view b using Nat.strong_induction_on generalizing b with
  | _ n ih =>
    subst hn
    by_cases hr : b = V.root
    · rw [hr]
    · obtain ⟨a,ha,-⟩ := hV.recent b hb hr
      obtain ⟨hca,hab⟩ := hV.up_certified hb ha
      exact .head ⟨hb,ha⟩ (ih _ hab hca rfl)

/-- A certified block above the window of a decided one has a parent that is not below it. -/
theorem Safe.parent_ge (hV : V.Safe k) {c x b : β} (hx : V.Certified x) (hw : V.Window k x c)
    (hb : V.Certified b) (hv : V.view x < V.view b) : ∃ a, V.up b a ∧ V.view c ≤ V.view a := by
  have hxr := hx.root_le hV.toIncreasing
  have hbr : b ≠ V.root := by
    rintro rfl
    omega
  have hwv := hw.view
  obtain ⟨a,ha,hva | ⟨Q,hQ,hrec⟩⟩ := hV.recent b hb hbr
  · exact ⟨a,ha,by omega⟩
  refine ⟨a,ha,?_⟩
  by_cases hxroot : x = V.root
  · have := (hV.up_certified hb ha).1.root_le hV.toIncreasing
    subst hxroot
    omega
  · obtain ⟨Q',hQ',hvote⟩ := hx.quorum hxroot
    obtain ⟨i,hi,hi',hf⟩ := Committee.exists_correct_mem_inter hQ hQ'
    exact hrec i hi hf x (hvote i hi' hf) hv c hw.up

/-- Every certified block that is not below a decided block extends it. -/
theorem Decided.reached (hV : V.Safe k) {c : β} (h : V.Decided k c) {b : β} (hb : V.Certified b)
    (hv : V.view c ≤ V.view b) : Relation.ReflTransGen V.Link b c := by
  obtain ⟨x,hx,hw⟩ := h
  -- on the view of `b`: above the window its parent is smaller, inside it certified blocks are unique
  induction hn : V.view b using Nat.strong_induction_on generalizing b with
  | _ n ih =>
    subst hn
    rcases Nat.lt_or_ge (V.view x) (V.view b) with hlt | hge
    · obtain ⟨a,ha,hva⟩ := hV.parent_ge hx hw hb hlt
      obtain ⟨hca,hab⟩ := hV.up_certified hb ha
      exact .head ⟨hb,ha⟩ (ih _ hab hca hva rfl)
    · obtain ⟨y,hy,hyv,hyc⟩ := hV.window_mem hx hw hv hge
      rwa [hb.unique hV.toIncreasing hy hyv.symm]

/-- Any two decided blocks lie on one branch. -/
theorem Safe.agreement (hV : V.Safe k) {c c' : β} (h : V.Decided k c) (h' : V.Decided k c') :
    Relation.ReflTransGen V.Link c c' ∨ Relation.ReflTransGen V.Link c' c := by
  rcases Nat.le_total (V.view c') (V.view c) with hv | hv
  · exact .inl (h'.reached hV (h.certified hV.toBacked) hv)
  · exact .inr (h.reached hV (h'.certified hV.toBacked) hv)

end Voting
end Hotstuff.Library
