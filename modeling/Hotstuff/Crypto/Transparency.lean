import Hotstuff.Crypto.Implementations

/-! When the signature cache is transparent: exactly as long as no lookup for a call that the
implementation rejects finds its key among the most recently used ones. -/
namespace Hotstuff
open Library

/-- The answer is one of the uncached implementation's, if that gives one at all. -/
def Impl.Agrees (M : Impl) (q : Query) (b : Bool) : Prop := (∃ b', M.Possible q b') → M.Possible q b

theorem Impl.agrees_of_verify {M : Impl} {sig : Option Signature} {h : Hash} {b : Bool}
    (hv : M.verify sig h = some b) : M.Agrees (.signature sig h) b := fun _ => ⟨[],.refl _,hv⟩

theorem Impl.Agrees.verify_eq {M : Impl} {sig : Option Signature} {h : Hash} {b : Bool}
    (ha : M.Agrees (.signature sig h) b) (hv : M.verify sig h ≠ none) : M.verify sig h = some b := by
  obtain ⟨b',hb'⟩ := Option.ne_none_iff_exists'.mp hv
  obtain ⟨_,-,hb⟩ := ha ⟨b',[],.refl _,hb'⟩
  exact hb

def Job.item (t : Job) : Signature × Hash := (t.sig,t.hash)

theorem Job.query_eq {t u : Job} (h : u.item = t.item) : u.query = t.query := by
  obtain ⟨hs,hh⟩ := Prod.mk.inj h
  rw [Job.query,Job.query,hs,hh]

namespace Cache
variable {cap : Nat} {M : Impl} {sha256 : List UInt8 → Hash} {sched : Schedule}

/-- No lookup for a rejected call found its key among the most recently used. -/
def Clean (M : Impl) (cap : Nat) (log : List Entry) : Prop :=
  ∀ q key o, .check q key :: o <:+ log → M.Rejected q → key ∉ (recent (uses o)).take cap

structure Sound (M : Impl) (s : Cache cap) : Prop where
  answers : ∀ q b, .answer q b ∈ s.log → M.Agrees q b
  tasks : ∀ t ∈ s.pool, ∀ b, t.phase = .finished b → M.Agrees t.query b

structure Extends (M : Impl) (s t : Cache cap) : Prop where
  log : s.log <:+ t.log
  sound : Clean M cap t.log → Sound M s → Sound M t

theorem Clean.back {log log' : List Entry} (hl : log <:+ log') (h : Clean M cap log') : Clean M cap log :=
  fun q key o ho => h q key o (ho.trans hl)

namespace Extends

theorem refl (s : Cache cap) : Extends M s s := ⟨List.suffix_rfl,fun _ h => h⟩

theorem trans {s t u : Cache cap} (h : Extends M s t) (h' : Extends M t u) : Extends M s u :=
  ⟨h.log.trans h'.log,fun hc hs => h'.sound hc (h.sound (hc.back h'.log) hs)⟩

/-- What comes next may rely on the answers so far. -/
theorem bind {s t u : Cache cap} (h : Extends M s t) (hl : t.log <:+ u.log)
    (hu : Clean M cap u.log → Sound M t → Extends M t u) : Extends M s u :=
  ⟨h.log.trans hl,fun hc hs => (hu hc (h.sound (hc.back hl) hs)).sound hc (h.sound (hc.back hl) hs)⟩

/-- A state that differs in neither the log nor the goroutines. -/
theorem of_eq {s t : Cache cap} (hl : t.log = s.log) (hp : t.pool = s.pool) : Extends M s t :=
  ⟨hl ▸ List.suffix_rfl,fun _ h => ⟨hl ▸ h.answers,hp ▸ h.tasks⟩⟩

end Extends

theorem note_extends {s : Cache cap} {q : Query} {b : Bool}
    (h : Clean M cap s.log → Sound M s → M.Agrees q b) : Extends M s (s.note q b) := by
  refine ⟨List.suffix_cons _ _,fun hc hs => ⟨fun q' b' hm => ?_,hs.tasks⟩⟩
  rcases List.mem_cons.mp hm with he | hm
  · cases he
    exact h (hc.back (List.suffix_cons _ _)) hs
  · exact hs.answers q' b' hm

theorem insert_extends (key : Hash) (s : Cache cap) : Extends M s (s.insert key) :=
  ⟨List.suffix_cons _ _,fun _ hs => ⟨fun q b hm => hs.answers q b (by simpa [insert] using hm),hs.tasks⟩⟩

theorem settle_extends {s : Cache cap} {q : Query} {b : Bool} (key : Hash)
    (h : Clean M cap s.log → Sound M s → M.Agrees q b) : Extends M s (s.settle q key b) := by
  rw [settle]
  split_ifs with hb
  · subst hb
    refine (insert_extends key s).trans (note_extends fun hc hs => h (hc.back (List.suffix_cons _ _)) ?_)
    exact ⟨fun q b hm => hs.answers q b (List.mem_cons_of_mem _ hm),hs.tasks⟩
  · rw [Bool.not_eq_true] at hb
    subst hb
    exact note_extends h

/-- A lookup that finds its key answers; in a clean log only what is not rejected. -/
theorem check_extends (q : Query) (key : Hash) (s : Cache cap) :
    Extends M s (s.check q key).2 ∧ (s.check q key).2.pool = s.pool ∧
      ((s.check q key).1 = true → .answer q true ∈ (s.check q key).2.log) := by
  rw [check]
  split_ifs with h
  · refine ⟨⟨⟨[.answer q true,.use key,.check q key],rfl⟩,fun hc hs => ⟨fun q' b hm => ?_,hs.tasks⟩⟩,rfl,
      fun _ => List.mem_cons_self⟩
    simp only [List.mem_cons,Entry.answer.injEq,reduceCtorEq,false_or] at hm
    rcases hm with ⟨rfl,rfl⟩ | hm
    · intro hret
      by_contra hno
      exact hc q' key s.log ⟨[.answer q' true,.use key],rfl⟩ ⟨hret,hno⟩ (s.tracks ▸ h)
    · exact hs.answers q' b hm
  · refine ⟨⟨List.suffix_cons _ _,fun _ hs => ⟨fun q' b hm => hs.answers q' b ?_,hs.tasks⟩⟩,rfl,by simp⟩
    simpa using hm

theorem spawn_extends (l : List (Signature × Hash)) (s : Cache cap) : Extends M s (s.spawn l) := by
  refine ⟨List.suffix_rfl,fun _ hs => ⟨hs.answers,fun t ht b hb => ?_⟩⟩
  rcases List.mem_append.mp ht with ht | ht
  · exact hs.tasks t ht b hb
  · obtain ⟨x,-,rfl⟩ := List.mem_map.mp ht
    cases hb

structure Stepped (M : Impl) (s : Cache cap) (t : Job) (r : Job × Cache cap) : Prop where
  item : r.1.item = t.item
  pool : r.2.pool = s.pool
  ext : Extends M s r.2
  finished : ∀ b, r.1.phase = .finished b → t.phase = .finished b ∨ .answer t.query b ∈ r.2.log
  stays : ∀ b, t.phase = .finished b → r.1.phase = .finished b
  moves : M.verify (some t.sig) t.hash ≠ none →
    (t.phase = .todo → r.1.phase ≠ .todo) ∧ (t.phase ≠ .todo → ∃ b, r.1.phase = .finished b)

private theorem settle_pool (q : Query) (key : Hash) (b : Bool) (s : Cache cap) :
    (s.settle q key b).pool = s.pool := by
  rw [settle]
  split_ifs <;> rfl

private theorem settle_log (q : Query) (key : Hash) (b : Bool) (s : Cache cap) :
    s.log <:+ (s.settle q key b).log := by
  cases b with
  | false => exact List.suffix_cons _ _
  | true => exact (List.suffix_cons _ _).trans (List.suffix_cons _ _)

private theorem settle_answer (q : Query) (key : Hash) (b : Bool) (s : Cache cap) :
    .answer q b ∈ (s.settle q key b).log := by
  cases b <;> exact List.mem_cons_self

private theorem stepJob_stepped (t : Job) (s : Cache cap) : Stepped M s t (stepJob M sha256 t s) := by
  rw [stepJob]
  split
  · rename_i hp
    obtain ⟨hext,hpool,hans⟩ := check_extends (M := M) t.query (sha256 (Hash.toBytes t.hash ++ t.sig.toBytes)) s
    split
    · rename_i s' he
      rw [he] at hext hpool hans
      refine ⟨rfl,hpool,hext,fun b hb => ?_,by simp [hp],fun _ => ⟨fun _ => by simp,fun hn => absurd hp hn⟩⟩
      cases hb
      exact .inr (hans rfl)
    · rename_i s' he
      rw [he] at hext hpool
      exact ⟨rfl,hpool,hext,by simp,by simp [hp],fun _ => ⟨fun _ => by simp,fun hn => absurd hp hn⟩⟩
  · rename_i hp
    split
    · rename_i b hb
      refine ⟨rfl,settle_pool _ _ _ _,settle_extends _ fun _ _ => Impl.agrees_of_verify hb,
        fun b' hb' => ?_,by simp [hp],fun _ => ⟨by simp [hp],fun _ => ⟨b,rfl⟩⟩⟩
      cases hb'
      exact .inr (settle_answer _ _ _ _)
    · rename_i hn
      exact ⟨rfl,rfl,.refl s,fun b hb => .inl hb,fun b hb => hb,fun h => absurd hn h⟩
  · rename_i b hp
    exact ⟨rfl,rfl,.refl s,fun b hb => .inl hb,fun b hb => hb,fun _ => ⟨by simp [hp],fun _ => ⟨b,hp⟩⟩⟩

private structure Moved (M : Impl) (s t : Cache cap) : Prop where
  ext : Extends M s t
  items : t.pool.map Job.item = s.pool.map Job.item
  finished : ∀ (i : Nat) (u : Job) (b : Bool), s.pool[i]? = some u → u.phase = .finished b →
    ∃ u', t.pool[i]? = some u' ∧ u'.phase = .finished b

private theorem Moved.refl (s : Cache cap) : Moved M s s := ⟨.refl s,rfl,fun _ u _ hu hb => ⟨u,hu,hb⟩⟩

private theorem Moved.trans {s t u : Cache cap} (h : Moved M s t) (h' : Moved M t u) : Moved M s u :=
  ⟨h.ext.trans h'.ext,h'.items.trans h.items,fun i x b hx hb => by
    obtain ⟨y,hy,hyb⟩ := h.finished i x b hx hb
    exact h'.finished i y b hy hyb⟩

/-- Replacing a goroutine by what it has become. -/
private theorem Stepped.moved {s s' : Cache cap} {t t' : Job} {i : Nat} (ht : s.pool[i]? = some t)
    (h : Stepped M s t (t',s')) : Moved M s { s' with pool := s'.pool.set i t' } := by
  have hmem : t ∈ s.pool := List.mem_of_getElem? ht
  have hlt := (List.getElem?_eq_some_iff.mp ht).1
  have hpool : s'.pool = s.pool := h.pool
  refine ⟨⟨h.ext.log,fun hc hs => ?_⟩,?_,fun j u b hu hb => ?_⟩
  · have hs' := h.ext.sound hc hs
    refine ⟨hs'.answers,fun u hu b hb => ?_⟩
    rcases List.mem_or_eq_of_mem_set hu with hu | rfl
    · exact hs'.tasks u hu b hb
    · have hq : u.query = t.query := Job.query_eq h.item
      rw [hq]
      exact (h.finished b hb).elim (hs.tasks t hmem b) (hs'.answers t.query b)
  · have hitem : t'.item = t.item := h.item
    dsimp only
    rw [List.map_set,hpool,hitem]
    refine List.ext_getElem? fun j => ?_
    by_cases hj : i = j
    · subst hj
      rw [List.getElem?_set_self (by simpa using hlt),List.getElem?_map,ht]
      rfl
    · rw [List.getElem?_set_ne hj]
  · dsimp only
    rw [hpool]
    by_cases hj : i = j
    · subst hj
      cases ht.symm.trans hu
      exact ⟨t',List.getElem?_set_self hlt,h.stays b hb⟩
    · exact ⟨u,by rw [List.getElem?_set_ne hj,hu],hb⟩

private theorem stepPool_moved (s : Cache cap) (i : Nat) : Moved M s (stepPool M sha256 s i) := by
  rw [stepPool]
  split
  · exact .refl s
  · rename_i t ht
    exact (stepJob_stepped t s).moved ht

private theorem Moved.length {s t : Cache cap} (h : Moved M s t) : t.pool.length = s.pool.length := by
  simpa using congrArg List.length h.items

/-- Two steps finish a goroutine. -/
private theorem stepPool_twice (hret : ∀ g h, M.verify (some g) h ≠ none) (s : Cache cap) {i : Nat}
    (hi : i < s.pool.length) : ∃ u b, (stepPool M sha256 (stepPool M sha256 s i) i).pool[i]? = some u ∧
      u.phase = .finished b := by
  have step (s : Cache cap) (hi : i < s.pool.length) : ∃ t u, s.pool[i]? = some t ∧
      (stepPool M sha256 s i).pool[i]? = some u ∧ (t.phase = .todo → u.phase ≠ .todo) ∧
        (t.phase ≠ .todo → ∃ b, u.phase = .finished b) := by
    have ht : s.pool[i]? = some s.pool[i] := List.getElem?_eq_getElem hi
    have hst : Stepped M s s.pool[i] (stepJob M sha256 s.pool[i] s) := stepJob_stepped _ s
    refine ⟨_,(stepJob M sha256 s.pool[i] s).1,ht,?_,hst.moves (hret _ _)⟩
    rw [stepPool,ht]
    dsimp only
    rw [List.getElem?_set_self]
    rw [hst.pool]
    exact hi
  obtain ⟨t,u,-,hu,hfirst,hlater⟩ := step s hi
  have hmoved : Moved M s (stepPool M sha256 s i) := stepPool_moved s i
  obtain ⟨u',v,hu',hv,-,hsecond⟩ := step (stepPool M sha256 s i) (hmoved.length ▸ hi)
  cases hu.symm.trans hu'
  have hnot : u.phase ≠ .todo := by
    by_cases ht : t.phase = .todo
    · exact hfirst ht
    · obtain ⟨b,hb⟩ := hlater ht
      simp [hb]
  obtain ⟨b,hb⟩ := hsecond hnot
  exact ⟨v,b,hv,hb⟩

private theorem foldl_moved (l : List Nat) (s : Cache cap) : Moved M s (l.foldl (stepPool M sha256) s) := by
  induction l generalizing s with
  | nil => exact .refl s
  | cons i l ih => exact (stepPool_moved s i).trans (ih _)

private theorem background_moved (s : Cache cap) : Moved M s (background M sha256 sched s) :=
  Moved.trans (t := { s with clock := s.clock+1 }) ⟨.of_eq rfl rfl,rfl,fun _ u _ hu hb => ⟨u,hu,hb⟩⟩
    (foldl_moved _ _)

/-- Whoever is waited for has finished in the end. -/
private theorem finish_spec (hret : ∀ g h, M.verify (some g) h ≠ none) (l : List Nat) (s : Cache cap)
    (hl : ∀ i ∈ l, i < s.pool.length) :
    Moved M s (l.foldl (fun s i => stepPool M sha256 (stepPool M sha256 s i) i) s) ∧
      ∀ i ∈ l, ∃ u b, (l.foldl (fun s i => stepPool M sha256 (stepPool M sha256 s i) i) s).pool[i]? = some u ∧
        u.phase = .finished b := by
  induction l generalizing s with
  | nil => exact ⟨.refl s,by simp⟩
  | cons i l ih =>
    have htwo : Moved M s (stepPool M sha256 (stepPool M sha256 s i) i) :=
      (stepPool_moved s i).trans (stepPool_moved _ i)
    obtain ⟨hm,hfin⟩ := ih (stepPool M sha256 (stepPool M sha256 s i) i)
      (fun j hj => htwo.length ▸ hl j (List.mem_cons_of_mem _ hj))
    refine ⟨htwo.trans hm,fun j hj => ?_⟩
    rcases List.mem_cons.mp hj with rfl | hj
    · obtain ⟨u,b,hu,hb⟩ : ∃ u b, (stepPool M sha256 (stepPool M sha256 s j) j).pool[j]? = some u ∧
          u.phase = .finished b := stepPool_twice hret s (hl j List.mem_cons_self)
      obtain ⟨u',hu',hb'⟩ := hm.finished j u b hu hb
      exact ⟨u',b,hu',hb'⟩
    · exact hfin j hj

/-- Answers of goroutines that agree are counted as the uncached implementation counts. -/
private theorem tally_value (hret : ∀ g h, M.verify (some g) h ≠ none) {l : List Job} {started : List (Signature × Hash)}
    (hitems : l.map Job.item = started) (hfin : ∀ t ∈ l, ∃ b, t.phase = .finished b)
    (hagree : ∀ t ∈ l, ∀ b, t.phase = .finished b → M.Agrees t.query b) (quorum : Nat) :
    M.value (.tally started quorum) =
      some (decide (quorum ≤ l.countP fun t => t.phase = .finished true)) := by
  subst hitems
  rw [Impl.value,List.countP_map]
  congr 3
  refine List.countP_congr fun t ht => ?_
  obtain ⟨b,hb⟩ := hfin t ht
  have hv : M.verify (some t.sig) t.hash = some b := (hagree t ht b hb).verify_eq (hret _ _)
  simp [Job.item,hv,hb]

private theorem runPlan_spec (plan : Plan) (hplan : ∀ l n, plan = .tally l n → ∀ g h, M.verify (some g) h ≠ none)
    (s : Cache cap) : Extends M s (runPlan M sha256 sched plan s).2 ∧
      ∀ b, (runPlan M sha256 sched plan s).1 = some b → Clean M cap (runPlan M sha256 sched plan s).2.log →
        Sound M s → M.value plan = some b := by
  cases plan with
  | answer b started => exact ⟨spawn_extends started s,fun b' hb' _ _ => hb'⟩
  | tally started quorum =>
    have hret := hplan started quorum rfl
    rw [runPlan]
    set u := background M sha256 sched (s.spawn started) with hu
    have hsu : Moved M (s.spawn started) u := background_moved _
    have hlen : u.pool.length = s.pool.length + started.length := by simp [hsu.length,spawn]
    have hrange : ∀ i ∈ List.range' s.pool.length started.length, i < u.pool.length := fun i hi => by
      rw [hlen]
      exact (List.mem_range'_1.mp hi).2
    obtain ⟨hmoved,hfin⟩ : Moved M u (finish M sha256 s.pool.length started.length u) ∧ _ :=
      finish_spec hret _ u hrange
    set v := finish M sha256 s.pool.length started.length u with hv
    have hext : Extends M s v := (spawn_extends started s).trans (hsu.ext.trans hmoved.ext)
    refine ⟨hext,fun b hb hc hs => ?_⟩
    -- the goroutines of this call are the last ones of the pool
    have hitems : (v.pool.drop s.pool.length).map Job.item = started := by
      rw [List.map_drop,hmoved.items,hsu.items,spawn,List.map_append,List.drop_left' (by simp),List.map_map]
      exact List.map_id'' (fun x => rfl) _
    rw [← hb]
    refine tally_value hret hitems (fun t ht => ?_) (fun t ht => ?_) quorum
    · obtain ⟨j,hj,rfl⟩ := List.getElem_of_mem ht
      have hvlen : v.pool.length = s.pool.length + started.length := hmoved.length.trans hlen
      rw [List.length_drop,hvlen] at hj
      obtain ⟨w,b,hw,hwb⟩ := hfin (s.pool.length + j) (List.mem_range'_1.mpr ⟨by omega,by omega⟩)
      obtain ⟨_,rfl⟩ := List.getElem_of_getElem? hw
      rw [List.getElem_drop]
      exact ⟨b,hwb⟩
    · exact (hext.sound hc hs).tasks t (List.mem_of_mem_drop ht)

private theorem plan_returns (M : Impl) (q : Query) (order : List (ID × Hash)) (l : List (Signature × Hash)) (n : Nat)
    (h : M.plan q order = .tally l n) (g : Signature) (x : Hash) : M.verify (some g) x ≠ none := by
  rcases M.tally_returns with hall | ⟨ht,hm⟩
  · exact hall g x
  · cases q with
    | signature sig y => cases h
    | threshold sig y => exact absurd h (ht _ _ _ _)
    | messageSet sig hashes => exact absurd h (hm _ _ _ _)

/-- Without a signature the answer `false` is also the implementation's. -/
private theorem agrees_nil {q : Query} {order : List (ID × Hash)} (h : q.keyBytes order = none) :
    M.Agrees q false := by
  rintro ⟨b,o,hp,hb⟩
  suffices hf : b = false by exact ⟨o,hp,hf ▸ hb⟩
  cases q with
  | signature sig y =>
    cases Option.map_eq_none_iff.mp h
    cases b with
    | false => rfl
    | true => exact absurd hb (M.verify_nil y)
  | threshold sig y =>
    cases Option.map_eq_none_iff.mp h
    rw [Impl.plan,M.threshold_nil] at hb
    exact (Option.some.inj hb).symm
  | messageSet sig hashes =>
    cases Option.map_eq_none_iff.mp h
    rw [Impl.plan,M.messageSet_nil] at hb
    exact (Option.some.inj hb).symm

theorem ask_extends (q : Query) (s : Cache cap) : Extends M s (ask M sha256 sched q s).2 := by
  rw [ask]
  split
  · rename_i hnone
    exact note_extends fun _ _ => agrees_nil hnone
  · rename_i x _
    have hback (s : Cache cap) : Extends M s (background M sha256 sched s) := (background_moved s).ext
    obtain ⟨hcheck,-,-⟩ := check_extends (M := M) q (sha256 x) (background M sha256 sched s)
    split
    · rename_i t ht
      rw [ht] at hcheck
      exact (hback s).trans hcheck
    · rename_i t ht
      rw [ht] at hcheck
      have hbefore := ((hback s).trans hcheck).trans (hback t)
      dsimp only
      set u := background M sha256 sched t
      set plan := M.plan q (sched.order u.clock q.hashes) with hplan
      obtain ⟨hrun,hval⟩ : Extends M u (runPlan M sha256 sched plan u).2 ∧ _ :=
        runPlan_spec plan (plan_returns M q _) u
      split
      · rename_i v hv
        rw [hv] at hrun
        exact hbefore.trans hrun
      · rename_i b v hv
        rw [hv] at hrun hval
        have hlog := (hback v).log.trans (settle_log q (sha256 x) b (background M sha256 sched v))
        refine hbefore.bind (hrun.log.trans hlog) fun hc hs => hrun.trans ((hback v).trans ?_)
        refine settle_extends _ fun _ _ _ => ⟨_,sched.order_perm u.clock q.hashes,?_⟩
        exact hval b rfl (hc.back hlog) hs

theorem sign_extends (h : Hash) (s : Cache cap) : Extends M s (sign M sha256 sched h s).2 := by
  rw [sign]
  split
  · exact .refl s
  · exact (background_moved s).ext.trans (insert_extends _ _)

theorem runBuild_extends (build : Build) (s : Cache cap) : Extends M s (runBuild M sha256 sched build s).2 := by
  induction build generalizing s with
  | done r => exact .refl s
  | verify g h next ih =>
    have hask : Extends M s (verify M sha256 sched (some g) h s).2 := ask_extends _ s
    rw [runBuild]
    split
    · rename_i t ht
      rwa [ht] at hask
    · rename_i b t ht
      rw [ht] at hask
      exact hask.trans (ih b t)

theorem created_extends (build : Build) (input : List UInt8) (s : Cache cap) :
    Extends M s (created M sha256 sched build input s).2 := by
  have hbuild : Extends M s (runBuild M sha256 sched build s).2 := runBuild_extends build s
  rw [created]
  split
  · rename_i t u hu
    rw [hu] at hbuild
    exact hbuild.trans ((background_moved u).ext.trans (insert_extends _ _))
  · exact hbuild

private theorem returning_extends {α : Type} {s : Cache cap} {r : Option α × Cache cap} (h : Extends M s r.2) :
    Extends M s (returning r) := by
  obtain ⟨_ | a,t⟩ := r
  · exact h.trans (.of_eq rfl rfl)
  · exact h

theorem exec_extends (s : Cache cap) (c : Call) : Extends M s (exec M sha256 sched s c) := by
  unfold exec
  split_ifs
  · exact .refl s
  · cases c with
    | sign h => exact sign_extends h s
    | verify sig h => exact returning_extends (ask_extends _ s)
    | verifyThreshold sig h => exact returning_extends (ask_extends _ s)
    | verifyMessageSet sig hashes => exact returning_extends (ask_extends _ s)
    | create partials h => exact returning_extends (created_extends _ _ s)
    | createMessageSet partials hashes => exact returning_extends (created_extends _ _ s)

theorem run_extends (calls : List Call) (s : Cache cap) : Extends M s (run M sha256 sched calls s) := by
  induction calls generalizing s with
  | nil => exact .refl s
  | cons c calls ih => exact (exec_extends s c).trans (ih _)

/-- For every implementation, capacity, sequence of calls and schedule: all Verify calls return
what the uncached implementation can return, if and only if no call that it rejects looks up
one of the `cap` keys used most recently. -/
theorem cache_transparent_iff (M : Impl) (sha256 : List UInt8 → Hash) (sched : Schedule) (hcap : 0 < cap)
    (calls : List Call) :
    (∀ q b, .answer q b ∈ (run M sha256 sched calls (new hcap)).log →
      (∃ b', M.Possible q b') → M.Possible q b) ↔
    ∀ q key o, .check q key :: o <:+ (run M sha256 sched calls (new hcap)).log →
      M.Rejected q → key ∉ (recent (uses o)).take cap := by
  constructor
  · intro h q key o ho hrej hk
    exact hrej.2 (h q true ((run M sha256 sched calls (new hcap)).answered q key o ho hk) hrej.1)
  · intro hclean
    have hnew : Sound M (new hcap) := ⟨by simp [new],by simp [new]⟩
    exact ((run_extends calls (new hcap)).sound hclean hnew).answers

end Cache

namespace Sample
open Cache

def ecdsaImpl : Impl := .ecdsa setup 1 fun _ h => some (1,h.toNat)

def quiet : Schedule := ⟨fun _ => [],fun _ l => l,fun _ _ => .refl _⟩

def fresh : Cache 10 := new (by decide)

private def swapped : List Call := [.sign 5,.verify (some (.ecdsa ⟨1,5,2⟩)) 5]

theorem cache_transparent_iff_swapped :
    (∀ q b, .answer q b ∈ (run ecdsaImpl digest quiet swapped fresh).log →
      (∃ b', ecdsaImpl.Possible q b') → ecdsaImpl.Possible q b) ↔
    ∀ q key o, .check q key :: o <:+ (run ecdsaImpl digest quiet swapped fresh).log →
      ecdsaImpl.Rejected q → key ∉ (recent (uses o)).take 10 :=
  cache_transparent_iff ecdsaImpl digest quiet (by decide) swapped

/-- The cache accepts the signature under another signer, which the implementation rejects. -/
theorem cache_not_transparent : ∃ (calls : List Call) (q : Query),
    .answer q true ∈ (run ecdsaImpl digest quiet calls fresh).log ∧
      ecdsaImpl.Possible q false ∧ ¬ ecdsaImpl.Possible q true := by
  refine ⟨swapped,.signature (some (.ecdsa ⟨1,5,2⟩)) 5,by decide +kernel,⟨[],.refl _,by decide +kernel⟩,?_⟩
  rintro ⟨order,-,h⟩
  change some (setup.verify (some (.ecdsa ⟨1,5,2⟩)) 5) = some true at h
  exact absurd h (by decide +kernel)

end Sample
end Hotstuff
