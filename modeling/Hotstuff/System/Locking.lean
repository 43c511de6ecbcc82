import Hotstuff.System.Assumptions

/-! Agreement for the two rule sets with a lock. A quorum that voted for the third block of
a certified run is locked on its first, so no later certified block falls below it. -/
namespace Hotstuff
open Library Replica
variable {S : Setup} {R : RuleSet} {I : Ideal S} {F : Faults S} {σ σ' : System}

def Ideal.Chain (I : Ideal S) : RuleSet → Block → Block → Prop
  | .chained, b, c => ∃ b1 b2, I.Up b b1 ∧ I.Up b1 b2 ∧ I.Up b2 c ∧ b1.parent = b2.hash S ∧ b2.parent = c.hash S
  | .simple, b, c => ∃ p gp, I.Up b p ∧ I.Up p gp ∧ I.Up gp c ∧ c.view + 2 = p.view
  | .fast, b, c => ∃ p, I.Up b p ∧ I.Up p c ∧ b.parent = p.hash S ∧ b.view = p.view + 1 ∧
      p.parent = c.hash S ∧ p.view = c.view + 1

private theorem chain_of_decides {env : Env} (m : Mid R I F env σ) {i : ID} {b c : Block}
    (h : Decides S R b c (σ i)) : I.Chain R b c := by
  cases R with
  | chained =>
    obtain ⟨b1,b2,h1,h2,h3,hp⟩ := h
    exact ⟨b1,b2,m.up_of_localGet h1,m.up_of_localGet h2,m.up_of_localGet h3,hp⟩
  | simple =>
    obtain ⟨p,gp,h1,h2,h3,hv⟩ := h
    exact ⟨p,gp,m.up_of_localGet h1,m.up_of_localGet h2,m.up_of_localGet h3,hv⟩
  | fast =>
    obtain ⟨p,h1,h2,hp⟩ := h
    exact ⟨p,m.up_of_localGet h1,m.up_of_localGet h2,hp⟩

/-- In every state of a run each decision rests on a chain of certificate links. -/
theorem chain_of_decide (hu : Set.InjOn Block.toBytes I.blocks) (h : Runs R I F σ) (hc : I.Covers σ) {i : ID}
    {b c : Block} (hd : .decide b c ∈ (σ i).log) : I.Chain R b c := by
  refine Reachable.invariant (P := fun _ s _ => ∀ b c, .decide b c ∈ s.log → I.Chain R b c)
    (C := fun _ => True) (by simp [Replica.init]) (fun _ _ _ _ _ h => h) (fun _ _ _ h => h)
    (fun i env σ u x y hm m _ ih b c hd => ?_) hu h hc trivial i b c hd
  rcases hm.entry hd with hd | ⟨-,-,-,hd⟩
  · exact ih i b c hd
  · exact chain_of_decides m (i := i) (by simpa using hd)

/-- The certified parent of a vote is at least as high as what the earlier votes had two
links down. -/
def Ideal.Recent (I : Ideal S) (b : Block) (older : List Effect) : Prop :=
  ∃ a, I.Up b a ∧ ∀ b', .vote b' ∈ older → ∀ a' a'', I.Up b' a' → I.Up a' a'' → a''.view ≤ a.view

/-- A quorum of correct replicas had a recent parent for their vote. -/
def RecentQuorum (I : Ideal S) (F : Faults S) (σ : System) (b : Block) : Prop :=
  ∃ Q, F.committee.IsQuorum Q ∧ ∀ i ∈ Q, i ∉ F.byzantine →
    ∃ o, .vote b :: o <:+ (σ i).log ∧ I.Recent b o

/-- The lock of a replica in a state of the system, up to the block it has yet to settle. A
vote for the locked block itself is justified by those who voted for it before. -/
structure Locked (I : Ideal S) (F : Faults S) (σ : System) (s : Replica) (x : Option Block) : Prop where
  mem : s.lock ∈ I.blocks
  certified : (I.voting F σ).Certified s.lock
  held : s.halted = true ∨ ∀ b, .vote b ∈ s.log → some b ≠ x → ∀ a a', I.Up b a → I.Up a a' →
    a'.view ≤ s.lock.view
  recent : ∀ b o, .vote b :: o <:+ s.log → I.Recent b o ∨ RecentQuorum I F σ b

theorem RecentQuorum.mono (hg : Grows σ σ') {b : Block} (h : RecentQuorum I F σ b) : RecentQuorum I F σ' b :=
  h.imp fun _ hQ => ⟨hQ.1,fun i hi hf => (hQ.2 i hi hf).imp fun _ ho => ⟨ho.1.trans (hg i),ho.2⟩⟩

theorem Locked.mono (hg : Grows σ σ') {s : Replica} {x : Option Block} (h : Locked I F σ s x) :
    Locked I F σ' s x :=
  ⟨h.mem,hg.certified h.certified,h.held,fun b o ho => (h.recent b o ho).imp id (.mono hg)⟩

theorem recentQuorum_of_certified
    (h : ∀ i b o, .vote b :: o <:+ (σ i).log → I.Recent b o ∨ RecentQuorum I F σ b) {b : Block}
    (hb : (I.voting F σ).Certified b) (hne : b ≠ genesis) : RecentQuorum I F σ b := by
  by_contra hn
  obtain ⟨Q,hQ,hv⟩ := hb.quorum hne
  refine hn ⟨Q,hQ,fun i hi hf => ?_⟩
  obtain ⟨o,ho⟩ := exists_suffix_of_mem (hv i hi hf)
  exact ⟨o,ho,(h i b o ho).resolve_right hn⟩

/-- Steps that neither vote nor touch the lock. -/
private theorem Locked.keep {s t : Replica} {x : Option Block} {l : List Effect} (h : Locked I F σ s x)
    (hlock : t.lock = s.lock) (hh : s.halted = true → t.halted = true) (hl : t.log = l ++ s.log)
    (hv : ∀ b, .vote b ∉ l) : Locked I F σ t x := by
  refine ⟨hlock ▸ h.mem,hlock ▸ h.certified,?_,fun b o ho => ?_⟩
  · rcases h.held with hs | hs
    · exact .inl (hh hs)
    · refine .inr fun b hb => hlock ▸ hs b ?_
      rw [hl,List.mem_append] at hb
      exact hb.resolve_left (hv b)
  · exact h.recent b o (suffix_of_append (hl ▸ ho) (hv b))

/-- Once a block is settled the lock is as high as the block two links below it. -/
private theorem lock_of_settled {env : Env} (m : Mid R I F env σ) (hR : R ≠ .fast) {i : ID} {b : Block}
    (hb : .vote b ∈ (σ i).log) (hs : Settled S env R b (σ i)) {a a' : Block} (ha : I.Up b a)
    (ha' : I.Up a a') : a'.view ≤ (σ i).lock.view := by
  obtain ⟨p,rfl,hp⟩ := (m.recorded i).handled hb
  have hca := m.handled hp ha
  have hca' := (m.backed.up_certified hca ha').1
  cases R with
  | fast => exact absurd rfl hR
  | _ =>
    rcases hs with hs | ⟨c,hc,hs⟩
    · exact absurd hs (m.not_missing ha hca)
    obtain rfl := m.backed.up_unique _ _ _ (m.up_of_localGet hc) ha
    rcases hs with hs | ⟨c',hc',hs⟩
    · exact absurd hs (m.not_missing ha' hca')
    obtain rfl := m.backed.up_unique _ _ _ (m.up_of_localGet hc') ha'
    exact hs

private theorem view_le_of_path {s : Replica} {t b : Block} (h : Path S s t b) (he : b.hash S = t.hash S → b = t) :
    t.view ≤ b.view := by
  cases h with
  | here _ hh => exact UInt64.le_of_eq (by rw [he hh])
  | up hv => exact UInt64.le_of_lt hv

/-- A vote that the rules allow has a recent parent, or is for the locked block. -/
private theorem recent_of_mayVote {env : Env} (m : Mid R I F env σ) (hR : R ≠ .fast) {i : ID} {p : ProposeMsg}
    {s : Replica} (hblocks : s.blocks <:+ (σ i).blocks) (hb : p.block ∈ I.blocks) (hs : s.halted = false)
    (hv : s.lastVote < p.block.view) (hmay : MayVote S R p s)
    (hlink : R = .chained → p.block.parent = p.block.cert.hash) (h : Locked I F σ s none)
    (hq : s.lock ≠ genesis → RecentQuorum I F σ s.lock) :
    I.Recent p.block s.log ∨ RecentQuorum I F σ p.block := by
  have hheld := h.held.resolve_left (by simp [hs])
  have mem {k : Hash} {a : Block} (ha : s.localGet k = some a) : (k,a) ∈ (σ i).blocks :=
    hblocks.mem (localGet_mem ha)
  have recent {a : Block} (ha : s.localGet p.block.cert.hash = some a) (hle : s.lock.view ≤ a.view) :
      I.Recent p.block s.log :=
    ⟨a,m.up_of_mem (mem ha),fun b' hb' a' a'' hu hu' =>
      UInt64.le_trans (hheld b' hb' (by simp) a' a'' hu hu') hle⟩
  cases R with
  | fast => exact absurd rfl hR
  | simple =>
    obtain ⟨-,a,ha,hle⟩ := hmay
    exact .inl (recent ha hle)
  | chained =>
    rcases hmay with ⟨a,ha,hlt⟩ | hpath
    · exact .inl (recent ha (UInt64.le_of_lt hlt))
    cases hpath with
    | here _ hh =>
      -- the walk has no link: the proposal is the locked block itself, voted for by others before
      have he := I.eq_of_hash m.unambiguous hb h.mem hh
      rw [he]
      refine .inr (hq fun hg => ?_)
      rw [he,hg] at hv
      exact UInt64.not_lt_zero hv
    | up hlt ha hpath =>
      have hle := view_le_of_path hpath
        fun hh => I.eq_of_hash m.unambiguous (m.covers.blocks i _ (mem ha)) h.mem hh
      exact .inl (recent (hlink rfl ▸ ha) hle)

def Linked (σ : System) : Prop := ∀ i b, .vote b ∈ (σ i).log → b.parent = b.cert.hash

def linkedTest : Effect → Bool
  | .vote b => decide (b.parent = b.cert.hash)
  | _ => true

theorem linked_of_test {ids : List ID} (hw : σ.Within S ids)
    (h : ids.all (fun i => (σ i).log.all linkedTest) = true) : Linked σ :=
  fun i _ hb => of_decide_eq_true (hw.of_log linkedTest h i _ hb)

theorem Linked.back (hg : Grows σ σ') (h : Linked σ') : Linked σ := fun i b hb => h i b ((hg i).mem hb)

private theorem Locked.micro {env : Env} (hR : R ≠ .fast) {i : ID} {s u : Replica} {x y : Option Block}
    (hi : σ i = u) (hm : Micro S R env (fun _ => True) (s,x) (u,y)) (m : Mid R I F env σ)
    (hlink : R = .chained → Linked σ)
    (hq : s.lock ≠ genesis → RecentQuorum I F σ s.lock) (h : Locked I F σ s x) : Locked I F σ u y := by
  have hblocks : s.blocks <:+ (σ i).blocks := hi ▸ hm.grows.2.1
  have hlog : s.log <:+ (σ i).log := hi ▸ hm.grows.1
  cases hm with
  | look hf => exact h.keep (l := []) hf.lock_eq (fun hh => hf.halted_eq ▸ hh) hf.log_eq (by simp)
  | stop => exact h.keep (l := []) rfl (fun _ => rfl) rfl (by simp)
  | note l hl => exact h.keep rfl id rfl (fun b hb => by cases hl _ hb)
  | check p => exact h.keep (l := [_]) rfl id rfl (by simp)
  | decide p => exact h.keep (l := [_]) rfl id rfl (by simp)
  | commit => exact h.keep rfl id rfl (by simp)
  | enter v t => exact h.keep (l := [_]) rfl id rfl (by simp)
  | stopVoting l hs hl =>
    refine h.keep rfl id rfl (fun b hb => ?_)
    obtain ⟨_,he,-⟩ := hl _ hb
    cases he
  | vote p hs hp hv hmay =>
    have hvote : .vote p.block ∈ (σ i).log := hi ▸ List.mem_cons_self
    have hb : p.block ∈ I.blocks := m.covers.voted (m.recorded i) hvote
    have hrec := recent_of_mayVote m hR hblocks hb hs hv hmay (fun hch => hlink hch i _ hvote) h hq
    -- the lock need not cover the new vote before the block is settled
    refine ⟨h.mem,h.certified,.inr fun b hbm hne => ?_,fun b o ho => ?_⟩
    · refine h.held.resolve_left (by simp [hs]) b ?_ (by simp)
      rcases List.mem_cons.mp hbm with he | hbm
      · cases he
        exact absurd rfl hne
      · exact hbm
    · rcases List.suffix_cons_iff.mp ho with he | ho
      · cases he
        exact hrec
      · exact h.recent b o ho
  | lock p hp ha ha' hv =>
    have hua := m.up_of_mem (hblocks.mem (localGet_mem ha))
    have hua' := m.up_of_mem (hblocks.mem (localGet_mem ha'))
    have hc := (m.backed.up_certified (m.handled (hlog.mem hp) hua) hua').1
    refine ⟨hua'.1,hc,?_,h.recent⟩
    exact h.held.imp id fun hh b hb hne a a' hu hu' => UInt64.le_trans (hh b hb hne a a' hu hu') (UInt64.le_of_lt hv)
  | @settle _ b hs =>
    refine ⟨h.mem,h.certified,?_,h.recent⟩
    rcases hs with hs | hs
    · exact .inl hs
    · refine h.held.imp id fun hh c hc _ a a' hu hu' => ?_
      by_cases hcb : c = b
      · subst hcb
        subst hi
        exact lock_of_settled m hR hc hs hu hu'
      · exact hh c hc (by simpa using hcb) a a' hu hu'
  | _ => exact h.keep (l := []) rfl id rfl (by simp)

/-- The lock invariant in every state of a run. -/
theorem locked_of_runs (hR : R ≠ .fast) (hu : Set.InjOn Block.toBytes I.blocks) (h : Runs R I F σ)
    (hc : I.Covers σ) (hlink : R = .chained → Linked σ) (i : ID) : Locked I F σ (σ i) none := by
  refine Reachable.invariant (P := Locked I F) (C := fun σ => R = .chained → Linked σ) (fun i => ?_)
    (fun _ _ _ _ hg h => h.mono hg) (fun _ _ hg h hch => (h hch).back hg)
    (fun i env σ u x y hm m hlink ih => ?_) hu h hc hlink i
  · exact ⟨I.genesis_mem,.inl rfl,.inr (by simp [Replica.init]),by simp [Replica.init]⟩
  · have hg : Grows σ (Function.update σ i u) := grows_update hm.grows.1
    have hself : Locked I F σ (σ i) x := by simpa using ih i
    refine (hself.mono hg).micro hR (Function.update_self i u σ) hm m hlink fun hne => ?_
    exact (recentQuorum_of_certified (fun j => (ih j).recent) hself.certified hne).mono hg

/-- Under the locking rules a state of the system is safe for three-chains. -/
theorem locking_safe (hR : R ≠ .fast) (hu : Set.InjOn Block.toBytes I.blocks) (h : Runs R I F σ)
    (hc : I.Covers σ) (hlink : R = .chained → Linked σ) : (I.voting F σ).Safe 2 where
  toBacked := voting_backed hc hu (Reachable.recorded h) (Reachable.unforgeable h)
  recent b hb hne := by
    have hrec := Reachable.recorded h
    obtain ⟨Q,hQ,hv⟩ := recentQuorum_of_certified
      (fun j => (locked_of_runs hR hu h hc hlink j).recent) hb hne
    obtain ⟨i,hi,-,hf⟩ := Committee.exists_correct_mem_inter hQ hQ
    obtain ⟨o,-,a,ha,-⟩ := hv i hi hf
    refine ⟨a,ha,.inr ⟨Q,hQ,fun j hj hjf b' hb' hlt x hx => ?_⟩⟩
    obtain ⟨o,ho,a',ha',hle⟩ := hv j hj hjf
    obtain rfl := I.eq_of_hash hu ha'.1 ha.1 (ha'.2.trans ha.2.symm)
    obtain ⟨c,hc1,c',hc2,rfl⟩ := hx
    have hold : .vote b' ∈ o := by
      refine ((hrec j).vote_before hb' ho (UInt64.le_iff_toNat_le.mpr hlt.le)).resolve_left fun he => ?_
      exact absurd hlt (by simp [he])
    exact UInt64.le_iff_toNat_le.mp (hle b' hold c c' hc1 hc2)

theorem toNat_of_succ {a b : View} (h : b = a + 1) (hlt : a.toNat < b.toNat) : a.toNat + 1 = b.toNat := by
  have hb := b.toNat_lt
  rw [h,UInt64.toNat_add] at hlt ⊢
  simp only [UInt64.toNat_one] at hlt ⊢
  omega

private theorem toNat_of_add_two {a b c : View} (h : a + 2 = c) (hab : a.toNat < b.toNat)
    (hbc : b.toNat < c.toNat) : a.toNat + 1 = b.toNat ∧ b.toNat + 1 = c.toNat := by
  have hc := c.toNat_lt
  have hn : (a.toNat + 2) % 2^64 = c.toNat := by
    rw [← h,UInt64.toNat_add]
    rfl
  omega

def Ideal.Parent (I : Ideal S) (b a : Block) : Prop := a ∈ I.blocks ∧ a.hash S = b.parent

def Ideal.Consecutive (I : Ideal S) (b c : Block) : Prop :=
  ∀ b1 b2, I.Up b b1 → I.Up b1 b2 → b1.view = b2.view + 1 ∧ b2.view = c.view + 1

section Agreement
variable (hu : Set.InjOn Block.toBytes I.blocks) (h : Runs R I F σ) (hc : I.Covers σ)
include hu h hc

/-- The block whose certificate a deciding proposal carries is certified. -/
theorem certified_of_decide {i : ID} {b c a : Block} (hd : .decide b c ∈ (σ i).log) (ha : I.Up b a) :
    (I.voting F σ).Certified a := by
  obtain ⟨p,rfl,hp⟩ := (Reachable.recorded h i).decided hd
  exact certified_of_handled hc hu (Reachable.recorded h) (Reachable.unforgeable h) hp ha

theorem decided_of_simple (hR : R = .simple) {i : ID} {b c : Block} (hd : .decide b c ∈ (σ i).log) :
    (I.voting F σ).Decided 2 c := by
  subst hR
  have hb := voting_backed hc hu (Reachable.recorded h) (Reachable.unforgeable h)
  obtain ⟨p,gp,hp,hgp,hcc,hview⟩ := chain_of_decide hu h hc hd
  have hcp := certified_of_decide hu h hc hd hp
  obtain ⟨hcgp,hlt⟩ := hb.up_certified hcp hgp
  obtain ⟨-,hlt'⟩ := hb.up_certified hcgp hcc
  obtain ⟨h1,h2⟩ := toNat_of_add_two hview hlt' hlt
  exact ⟨p,hcp,gp,hgp,h2,c,hcc,h1,rfl⟩

theorem decided_of_chained (hR : R = .chained) {i : ID} {b c : Block} (hd : .decide b c ∈ (σ i).log)
    (hv : I.Consecutive b c) : (I.voting F σ).Decided 2 c := by
  subst hR
  have hb := voting_backed hc hu (Reachable.recorded h) (Reachable.unforgeable h)
  obtain ⟨b1,b2,h1,h2,h3,-⟩ := chain_of_decide hu h hc hd
  have hc1 := certified_of_decide hu h hc hd h1
  obtain ⟨hc2,hlt⟩ := hb.up_certified hc1 h2
  obtain ⟨-,hlt'⟩ := hb.up_certified hc2 h3
  obtain ⟨hv1,hv2⟩ := hv b1 b2 h1 h2
  exact ⟨b1,hc1,b2,h2,toNat_of_succ hv1 hlt,c,h3,toNat_of_succ hv2 hlt',rfl⟩

/-- In a run of linked votes certificate links between certified blocks are `Parent` links. -/
theorem parent_of_link (hlink : Linked σ) {b a : Block} (hl : (I.voting F σ).Link b a) : I.Parent b a := by
  obtain ⟨hcert,ha⟩ := hl
  have hb := voting_backed hc hu (Reachable.recorded h) (Reachable.unforgeable h)
  obtain ⟨i,-,-,hv⟩ := hcert.exists_voter fun hg => hb.root_up a (hg ▸ ha)
  exact ⟨ha.1,(hlink i b hv).symm ▸ ha.2⟩

end Agreement

/-- SimpleHotStuff: any two decided blocks are comparable along certificate links, if no two
different blocks of the run have the same bytes. -/
theorem simple_agreement (F : Faults S) (I : Ideal S) (hu : Set.InjOn Block.toBytes I.blocks)
    (h : Runs .simple I F σ) (hc : I.Covers σ) {i j : ID} {b c b' c' : Block}
    (hd : .decide b c ∈ (σ i).log) (hd' : .decide b' c' ∈ (σ j).log) :
    Relation.ReflTransGen I.Up c c' ∨ Relation.ReflTransGen I.Up c' c := by
  have hsafe := locking_safe (by simp) hu h hc (by simp)
  have hup : Relation.ReflTransGen (I.voting F σ).Link ≤ Relation.ReflTransGen I.Up :=
    Relation.ReflTransGen.mono fun _ _ hl => hl.2
  exact (hsafe.agreement (decided_of_simple hu h hc rfl hd) (decided_of_simple hu h hc rfl hd')).imp
    (hup _ _) (hup _ _)

namespace Sample

/-- The line of blocks, run under SimpleHotStuff. -/
private theorem simple_line : runTest .simple lineKnown lineOrder = true ∧
    .decide (line 4) (line 1) ∈ (after .simple lineKnown lineOrder 1).log ∧
    .decide (line 3) (line 0) ∈ (after .simple lineKnown lineOrder 2).log := by decide +kernel

theorem simple_agreement_line : ∃ I : Ideal setup, Runs .simple I faults (after .simple lineKnown lineOrder) ∧
    (Relation.ReflTransGen I.Up (line 1) (line 0) ∨ Relation.ReflTransGen I.Up (line 0) (line 1)) := by
  obtain ⟨ht,hd,hd'⟩ := simple_line
  obtain ⟨I,hI,hr,hc,-⟩ := runs_of_test ht
  exact ⟨I,hr,simple_agreement faults I (line_unambiguous hI) hr hc hd hd'⟩

private def s1 : Block := first 1
private def s2 : Block := next [2,3,4] s1 2

/-- A block on `s2` whose command is the start of another certificate's bytes. -/
private def s3 : Block :=
  ⟨s2.hash setup,4,View.toBytes 9746 ++ Hash.toBytes setup.genesisHash,qcOf [2,3,4] s2,3⟩

/-- The same bytes with no command and a certificate for the genesis block. -/
private def t3 : Block :=
  ⟨s2.hash setup,4,[],⟨some (.ecdsa (.restore [⟨beValue (qcOf [2,3,4] s2).toBytes,0,7⟩])),9746,setup.genesisHash⟩,3⟩

private def s4 : Block := next [2,3,4] s3 4
private def t4 : Block := first 9747
private def t5 : Block := next [2,3,4] t4 9748
private def t6 : Block := next [2,3,4] t5 9749
private def t7 : Block := next [2,3,4] t6 9750

private def twinBlocks : List Block := [genesis,s1,s2,s3,t3,s4,t4,t5,t6,t7]

private def twinOrder : List (ID × Block) :=
  [(1,s1),(2,s1),(3,s1),(1,s2),(2,s2),(3,s2),(1,s3),(2,t3),(3,t3),(1,s4),(2,t4),(3,t4),(2,t5),(3,t5),
    (2,t6),(3,t6),(2,t7)]

private theorem twin_run : runTest .simple twinBlocks twinOrder = true ∧
    .decide s4 s1 ∈ (after .simple twinBlocks twinOrder 1).log ∧
    .decide t7 t4 ∈ (after .simple twinBlocks twinOrder 2).log ∧
    apart (fun b => b.cert.hash) twinBlocks s1 t4 = true := by decide +kernel

/-- Four replicas, one of them Byzantine: replica 1 decides the block of view 1 and replica 2
that of view 9747, and neither is reached from the other by certificate links. -/
theorem simple_disagreement : ∃ (F : Faults setup) (I : Ideal setup) (σ : System) (b c b' c' : Block),
    Runs .simple I F σ ∧ I.Covers σ ∧ .decide b c ∈ (σ 1).log ∧ .decide b' c' ∈ (σ 2).log ∧
      1 ∉ F.byzantine ∧ 2 ∉ F.byzantine ∧
      ¬ (Relation.ReflTransGen I.Up c c' ∨ Relation.ReflTransGen I.Up c' c) := by
  obtain ⟨ht,hd,hd',ha⟩ := twin_run
  obtain ⟨I,hI,hr,hc,-⟩ := runs_of_test ht
  refine ⟨faults,I,_,s4,s1,t7,t4,hr,hc,hd,hd',by decide,by decide,?_⟩
  exact not_comparable_of_apart (fun _ b hu => ⟨(hI b).mp hu.1,hu.2⟩) ha

end Sample

/-- ChainedHotStuff: two blocks that were decided over consecutive views lie on one branch, if
votes are for linked blocks and no two different blocks of the run have the same bytes. -/
theorem chained_agreement (F : Faults S) (I : Ideal S) (hu : Set.InjOn Block.toBytes I.blocks)
    (h : Runs .chained I F σ) (hc : I.Covers σ) (hlink : Linked σ) {i j : ID} {b c b' c' : Block}
    (hd : .decide b c ∈ (σ i).log) (hd' : .decide b' c' ∈ (σ j).log)
    (hv : I.Consecutive b c) (hv' : I.Consecutive b' c') :
    Relation.ReflTransGen I.Parent c c' ∨ Relation.ReflTransGen I.Parent c' c := by
  have hsafe := locking_safe (by simp) hu h hc fun _ => hlink
  have hp : Relation.ReflTransGen (I.voting F σ).Link ≤ Relation.ReflTransGen I.Parent :=
    Relation.ReflTransGen.mono fun _ _ => parent_of_link hu h hc hlink
  exact (hsafe.agreement (decided_of_chained hu h hc rfl hd hv) (decided_of_chained hu h hc rfl hd' hv')).imp
    (hp _ _) (hp _ _)

namespace Sample

private theorem chained_line : runTest .chained lineKnown lineOrder = true ∧
    .decide (line 4) (line 1) ∈ (after .chained lineKnown lineOrder 1).log ∧
    .decide (line 3) (line 0) ∈ (after .chained lineKnown lineOrder 2).log ∧
    [1,2,3].all (fun i => (after .chained lineKnown lineOrder i).log.all linkedTest) = true := by decide +kernel

private theorem line_consecutive {I : Ideal setup} (hI : ∀ b, b ∈ I.blocks ↔ b ∈ lineKnown) :
    I.Consecutive (line 4) (line 1) ∧ I.Consecutive (line 3) (line 0) := by
  have h : ∀ b1 ∈ lineKnown, ∀ b2 ∈ lineKnown, b2.hash setup = b1.cert.hash →
      (b1.hash setup = (line 4).cert.hash → b1.view = b2.view + 1 ∧ b2.view = (line 1).view + 1) ∧
      (b1.hash setup = (line 3).cert.hash → b1.view = b2.view + 1 ∧ b2.view = (line 0).view + 1) := by
    decide +kernel
  exact ⟨fun b1 b2 h1 h2 => (h b1 ((hI b1).mp h1.1) b2 ((hI b2).mp h2.1) h2.2).1 h1.2,
    fun b1 b2 h1 h2 => (h b1 ((hI b1).mp h1.1) b2 ((hI b2).mp h2.1) h2.2).2 h1.2⟩

theorem chained_agreement_line : ∃ I : Ideal setup, Runs .chained I faults (after .chained lineKnown lineOrder) ∧
    (Relation.ReflTransGen I.Parent (line 1) (line 0) ∨ Relation.ReflTransGen I.Parent (line 0) (line 1)) := by
  obtain ⟨ht,hd,hd',hl⟩ := chained_line
  obtain ⟨I,hI,hr,hc,hw⟩ := runs_of_test ht
  obtain ⟨hv,hv'⟩ := line_consecutive hI
  exact ⟨I,hr,chained_agreement faults I (line_unambiguous hI) hr hc (linked_of_test hw hl) hd hd' hv hv'⟩

private def a1 : Block := first 1
private def a2 : Block := next [1,2,4] a1 2
private def b3 : Block := first 3
private def a4 : Block := next [1,2,4] a2 4
private def a5 : Block := next [1,2,4] a4 5
private def b6 : Block := next [1,2,4] b3 6
private def b7 : Block := next [1,2,4] b6 7
private def b8 : Block := next [1,2,4] b7 8

private def gapBlocks : List Block := [a1,a2,b3,a4,a5,b6,b7,b8]

private def gapOrder : List (ID × Block) := gapBlocks.flatMap fun b => [(1,b),(2,b)]

private theorem gap_run : runTest .chained (genesis :: gapBlocks) gapOrder = true ∧
    .decide a5 a1 ∈ (after .chained (genesis :: gapBlocks) gapOrder 1).log ∧
    .decide b8 b3 ∈ (after .chained (genesis :: gapBlocks) gapOrder 2).log ∧
    apart Block.parent (genesis :: gapBlocks) a1 b3 = true := by decide +kernel

/-- Four replicas, one of them Byzantine: replicas 1 and 2 decide the blocks of views 1 and 3,
neither an ancestor of the other. -/
theorem chained_disagreement : ∃ (F : Faults setup) (I : Ideal setup) (σ : System) (b c b' c' : Block),
    Runs .chained I F σ ∧ I.Covers σ ∧ .decide b c ∈ (σ 1).log ∧ .decide b' c' ∈ (σ 2).log ∧
      1 ∉ F.byzantine ∧ 2 ∉ F.byzantine ∧
      ¬ (Relation.ReflTransGen I.Parent c c' ∨ Relation.ReflTransGen I.Parent c' c) := by
  obtain ⟨ht,hd,hd',ha⟩ := gap_run
  obtain ⟨I,hI,hr,hc,-⟩ := runs_of_test ht
  refine ⟨faults,I,_,a5,a1,b8,b3,hr,hc,hd,hd',by decide,by decide,?_⟩
  exact not_comparable_of_apart (fun _ b hp => ⟨(hI b).mp hp.1,hp.2⟩) ha

end Sample
end Hotstuff
