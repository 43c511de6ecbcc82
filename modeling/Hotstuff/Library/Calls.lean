import Mathlib.Data.List.Forall2
import Mathlib.Logic.Function.Basic

/-! Calls that change a state and return a value or an error, or never return, and rules of pre- and postconditions for
them. A loop over calls stops at the first error; what was done until then stays done. -/
namespace Hotstuff.Library

/-- Two lists that agree place by place. -/
theorem map_eq_map_of_zip {α β γ : Type} {f : α → γ} {g : β → γ} {l : List α} {m : List β} (hlen : m.length = l.length)
    (h : ∀ x ∈ l.zip m, f x.1 = g x.2) : m.map g = l.map f := by
  induction l generalizing m with
  | nil => rw [List.eq_nil_of_length_eq_zero hlen,List.map_nil,List.map_nil]
  | cons a l ih =>
    obtain ⟨b,m,rfl⟩ := List.exists_cons_of_length_eq_add_one hlen
    rw [List.map_cons,List.map_cons,ih (Nat.succ.inj hlen) fun x hx => h x (List.mem_cons_of_mem _ hx)]
    rw [← h (a,b) List.mem_cons_self]

/-- A member of either list has a partner. -/
theorem exists_mem_zip_left {α β : Type} {l : List α} {m : List β} (hlen : m.length = l.length) {a : α} (ha : a ∈ l) :
    ∃ b, (a,b) ∈ l.zip m := by
  obtain ⟨i,hi,rfl⟩ := List.getElem_of_mem ha
  exact ⟨m.get ⟨i,hlen ▸ hi⟩,List.mem_iff_getElem.mpr ⟨i,by simpa [hlen] using hi,by simp⟩⟩

theorem exists_mem_zip_right {α β : Type} {l : List α} {m : List β} (hlen : m.length = l.length) {b : β} (hb : b ∈ m) :
    ∃ a, (a,b) ∈ l.zip m := by
  obtain ⟨i,hi,rfl⟩ := List.getElem_of_mem hb
  exact ⟨l.get ⟨i,hlen ▸ hi⟩,List.mem_iff_getElem.mpr ⟨i,by simpa [hlen] using hi,by simp⟩⟩

inductive Return (ε β : Type) where
  | ok (b : β)
  | error (e : ε)
  | hangs
  deriving DecidableEq, Repr

def Call (σ ε β : Type) : Type := σ → Return ε β × σ

namespace Call
variable {σ ε ε' α β γ κ : Type}

protected def bind (c : Call σ ε β) (f : β → Call σ ε γ) : Call σ ε γ := fun s =>
  match c s with
  | (.ok b,s) => f b s
  | (.error e,s) => (.error e,s)
  | (.hangs,s) => (.hangs,s)

instance : Monad (Call σ ε) where
  pure b := fun s => (.ok b,s)
  bind := Call.bind

def fail (e : ε) : Call σ ε β := fun s => (.error e,s)

def hang : Call σ ε β := fun s => (.hangs,s)

def change (f : σ → σ) : Call σ ε Unit := fun s => (.ok (),f s)

def read (f : σ → β) : Call σ ε β := fun s => (.ok (f s),s)

def lift : Except ε β → Call σ ε β
  | .ok b => pure b
  | .error e => fail e

def mapError (f : ε → ε') (c : Call σ ε β) : Call σ ε' β := fun s =>
  match c s with
  | (.ok b,s) => (.ok b,s)
  | (.error e,s) => (.error (f e),s)
  | (.hangs,s) => (.hangs,s)

def forEach (f : α → Call σ ε β) : List α → Call σ ε (List β)
  | [] => pure []
  | a :: l => do
    let b ← f a
    let bs ← forEach f l
    pure (b :: bs)

def on [DecidableEq κ] (k : κ) (c : Call σ ε β) : Call (κ → σ) ε β := fun s =>
  ((c (s k)).1,Function.update s k (c (s k)).2)

/-- A loop whose rounds leave something to be done when the whole loop is over, at an error as well; what was left last is
done first. -/
def deferring (f : α → Call σ ε β) (d : α → σ → σ) : List α → Call σ ε Unit
  | [] => pure ()
  | a :: l => fun s => match f a s with
    | (.ok _,s) => ((deferring f d l s).1,d a (deferring f d l s).2)
    | (.error e,s) => (.error e,s)
    | (.hangs,s) => (.hangs,s)

def zoom {τ : Type} (get : τ → σ) (set : τ → σ → τ) (c : Call σ ε β) : Call τ ε β := fun t =>
  ((c (get t)).1,set t (c (get t)).2)

/-- Calls that are made side by side, listed in the order in which they end. -/
def runAll (f : α → Call σ ε β) : List α → σ → List (Return ε β) × σ
  | [], s => ([],s)
  | a :: l, s =>
    let r := f a s
    let rest := runAll f l r.2
    (r.1 :: rest.1,rest.2)

def join : List (Return ε β) → Return (List ε) Unit
  | [] => .ok ()
  | .ok _ :: rs => join rs
  | .hangs :: _ => .hangs
  | .error e :: rs => match join rs with
    | .ok _ => .error [e]
    | .error es => .error (e :: es)
    | .hangs => .hangs

def gather (f : α → Call σ ε β) (l : List α) : Call σ (List ε) Unit := fun s =>
  (join (runAll f l s).1,(runAll f l s).2)

/-- How a call ends: with a value and a state that meet `Q`, or with an error and a state that meet `E`. -/
def Ends (Q : β → σ → Prop) (E : ε → σ → Prop) : Return ε β × σ → Prop
  | (.ok b,s) => Q b s
  | (.error e,s) => E e s
  | (.hangs,_) => False

/-- From a state that meets `P` the call ends, and as said. -/
def Spec (P : σ → Prop) (c : Call σ ε β) (Q : β → σ → Prop) (E : ε → σ → Prop) : Prop := ∀ s, P s → Ends Q E (c s)

variable {P P' : σ → Prop} {Q Q' : β → σ → Prop} {E E' : ε → σ → Prop} {c : Call σ ε β}

theorem Ends.mono {r : Return ε β × σ} (h : Ends Q E r) (hQ : ∀ b s, Q b s → Q' b s) (hE : ∀ e s, E e s → E' e s) :
    Ends Q' E' r := by
  rcases r with ⟨b | e | _,s⟩
  · exact hQ b s h
  · exact hE e s h
  · exact h.elim

theorem Ends.ok {r : Return ε β × σ} (h : Ends Q E r) {b : β} {s : σ} (hr : r = (.ok b,s)) : Q b s := by
  rwa [hr] at h

theorem Ends.not_hangs {r : Return ε β × σ} (h : Ends Q E r) : r.1 ≠ .hangs := by
  rcases r with ⟨b | e | _,s⟩
  · exact nofun
  · exact nofun
  · exact h.elim

theorem Ends.bind {f : β → Call σ ε γ} {R : γ → σ → Prop} {s : σ} (h : Ends Q E (c s))
    (hf : ∀ b t, Q b t → Ends R E (f b t)) : Ends R E ((c >>= f) s) := by
  change Ends R E (Call.bind c f s)
  rw [Call.bind]
  generalize c s = r at h
  rcases r with ⟨b | e | _,t⟩
  · exact hf b t h
  · exact h
  · exact h.elim

theorem Ends.mapError {f : ε → ε'} {E : ε' → σ → Prop} {s : σ} (h : Ends Q (fun e => E (f e)) (c s)) :
    Ends Q E (mapError f c s) := by
  rw [Call.mapError]
  generalize c s = r at h
  rcases r with ⟨b | e | _,t⟩
  · exact h
  · exact h
  · exact h.elim

namespace Spec

theorem mono (h : Spec P c Q E) (hP : ∀ s, P' s → P s) (hQ : ∀ b s, Q b s → Q' b s) (hE : ∀ e s, E e s → E' e s) :
    Spec P' c Q' E' := fun s hs => (h s (hP s hs)).mono hQ hE

theorem pure {b : β} (h : ∀ s, P s → Q b s) : Spec P (pure b) Q E := h

theorem fail {e : ε} (h : ∀ s, P s → E e s) : Spec P (fail e) Q E := h

theorem change {f : σ → σ} {Q : Unit → σ → Prop} (h : ∀ s, P s → Q () (f s)) : Spec P (change f) Q E := h

theorem read {f : σ → β} (h : ∀ s, P s → Q (f s) s) : Spec P (read f) Q E := h

theorem lift {x : Except ε β} (hok : ∀ b, x = .ok b → ∀ s, P s → Q b s) (herr : ∀ e, x = .error e → ∀ s, P s → E e s) :
    Spec P (lift x) Q E := by
  cases x with
  | ok b => exact hok b rfl
  | error e => exact herr e rfl

theorem bind {f : β → Call σ ε γ} {R : γ → σ → Prop} (h : Spec P c Q E) (hf : ∀ b, Spec (Q b) (f b) R E) :
    Spec P (c >>= f) R E := fun s hs => (h s hs).bind hf

theorem mapError {f : ε → ε'} {E : ε' → σ → Prop} (h : Spec P c Q fun e => E (f e)) : Spec P (mapError f c) Q E :=
  fun s hs => (h s hs).mapError

/-- The rule of the loop: `I` holds of what is done, of what it returned, and of the state. -/
theorem forEach {f : α → Call σ ε β} {I : List α → List β → σ → Prop} {l : List α}
    (h : ∀ done a rest bs, l = done ++ a :: rest → Spec (I done bs) (f a) (fun b => I (done ++ [a]) (bs ++ [b])) E) :
    Spec (I [] []) (forEach f l) (I l) E := by
  have hrest (done rest : List α) (bs : List β) (hl : l = done ++ rest) :
      Spec (I done bs) (Call.forEach f rest) (fun cs => I l (bs ++ cs)) E := by
    induction rest generalizing done bs with
    | nil =>
      rw [List.append_nil] at hl
      refine Spec.pure fun s hs => ?_
      rwa [hl,List.append_nil]
    | cons a rest ih =>
      refine (h done a rest bs hl).bind fun b => (ih (done ++ [a]) (bs ++ [b]) (by simp [hl])).bind fun cs => ?_
      refine Spec.pure fun s hs => ?_
      rwa [List.append_assoc,List.singleton_append] at hs
  exact hrest [] l [] rfl

end Spec

theorem Ends.zoom {τ : Type} {get : τ → σ} {set : τ → σ → τ} {t : τ} (h : Ends Q E (c (get t))) :
    Ends (fun b u => ∃ s, u = set t s ∧ Q b s) (fun e u => ∃ s, u = set t s ∧ E e s) (zoom get set c t) := by
  rw [Call.zoom]
  generalize c (get t) = r at h
  rcases r with ⟨b | e | _,s⟩
  · exact ⟨s,rfl,h⟩
  · exact ⟨s,rfl,h⟩
  · exact h.elim

section Components
variable [DecidableEq κ] {key : α → κ} {f : α → Call σ ε β} {P : α → σ → Prop} {Q : α → β → σ → Prop} {E : α → ε → σ → Prop}
  {l : List α} {s : κ → σ}

/-- A call on a component leaves the others alone. -/
theorem Spec.on {P : σ → Prop} {Q : β → σ → Prop} {E : ε → σ → Prop} {k : κ} (h : Spec P c Q E) (hs : P (s k)) :
    Ends (fun b t => Q b (t k) ∧ ∀ j, j ≠ k → t j = s j) (fun e t => E e (t k) ∧ ∀ j, j ≠ k → t j = s j) (on k c s) := by
  have hc := h (s k) hs
  have hframe (x : σ) (j : κ) (hj : j ≠ k) : Function.update s k x j = s j := Function.update_of_ne hj _ _
  rw [Call.on]
  generalize c (s k) = r at hc
  rcases r with ⟨b | e | _,t⟩
  · exact ⟨(Function.update_self k t s).symm ▸ hc,hframe t⟩
  · exact ⟨(Function.update_self k t s).symm ▸ hc,hframe t⟩
  · exact hc.elim

variable (key) in
/-- A loop over components: when it stops at an error, a component is as before, or done, or the one of the error. -/
theorem forEach_on (hl : (l.map key).Nodup) (h : ∀ a ∈ l, Spec (P a) (f a) (Q a) (E a)) (hs : ∀ a ∈ l, P a (s (key a))) :
    Ends (fun bs t => bs.length = l.length ∧ (∀ x ∈ l.zip bs, Q x.1 x.2 (t (key x.1))) ∧ ∀ j, j ∉ l.map key → t j = s j)
      (fun e t => (∃ a ∈ l, E a e (t (key a))) ∧ ∀ j, t j = s j ∨ ∃ a ∈ l, key a = j ∧ ((∃ b, Q a b (t j)) ∨ E a e (t j)))
      (forEach (fun a => on (key a) (f a)) l s) := by
  let I (done : List α) (bs : List β) (t : κ → σ) : Prop :=
    bs.length = done.length ∧ (∀ x ∈ done.zip bs, Q x.1 x.2 (t (key x.1))) ∧ ∀ j, j ∉ done.map key → t j = s j
  refine Spec.forEach (I := I) (fun done a rest bs hsplit t ⟨hlen,hdone,hrest⟩ => ?_) s ⟨rfl,by simp,fun _ _ => rfl⟩
  have ha : key a ∉ done.map key ∧ a ∈ l := by
    subst hsplit
    rw [List.map_append] at hl
    exact ⟨fun hmem => (List.nodup_append.mp hl).2.2 _ hmem _ List.mem_cons_self rfl,by simp⟩
  have hold (x : α × β) (hx : x ∈ done.zip bs) : key x.1 ≠ key a :=
    ne_of_mem_of_not_mem (List.mem_map_of_mem (List.of_mem_zip hx).1) ha.1
  refine ((h a ha.2).on (hrest _ ha.1 ▸ hs a ha.2)).mono (fun b u hu => ⟨?_,?_,?_⟩) fun e u hu => ⟨⟨a,ha.2,hu.1⟩,fun j => ?_⟩
  · rw [List.length_append,List.length_append,hlen]
    rfl
  · intro x hx
    rw [List.zip_append hlen.symm,List.mem_append] at hx
    rcases hx with hx | hx
    · rw [hu.2 _ (hold x hx)]
      exact hdone x hx
    · obtain rfl := List.mem_singleton.mp hx
      exact hu.1
  · intro j hj
    rw [List.map_append,List.mem_append,not_or] at hj
    rw [hu.2 j fun heq => hj.2 (heq ▸ List.mem_cons_self)]
    exact hrest j hj.1
  · by_cases hja : j = key a
    · exact .inr ⟨a,ha.2,hja.symm,.inr (hja ▸ hu.1)⟩
    · rw [hu.2 j hja]
      by_cases hj : j ∈ done.map key
      · obtain ⟨d,hd,rfl⟩ := List.mem_map.mp hj
        obtain ⟨b,hb⟩ := exists_mem_zip_left hlen hd
        exact .inr ⟨d,by rw [hsplit]; simp [hd],rfl,.inl ⟨b,hdone _ hb⟩⟩
      · exact .inl (hrest j hj)

variable (key) in
/-- What was deferred is done to every component whose round was finished. -/
theorem deferring_on {d : α → σ → σ} (hl : (l.map key).Nodup) (h : ∀ a ∈ l, Spec (P a) (f a) (Q a) (E a))
    (hs : ∀ a ∈ l, P a (s (key a))) :
    Ends (fun _ t => (∀ a ∈ l, ∃ b x, Q a b x ∧ t (key a) = d a x) ∧ ∀ j, j ∉ l.map key → t j = s j)
      (fun e t => (∃ a ∈ l, E a e (t (key a))) ∧
        ∀ j, t j = s j ∨ ∃ a ∈ l, key a = j ∧ ((∃ b x, Q a b x ∧ t j = d a x) ∨ E a e (t j)))
      (deferring (fun a => on (key a) (f a)) (fun a t => Function.update t (key a) (d a (t (key a)))) l s) := by
  induction l generalizing s with
  | nil => exact ⟨by simp,fun _ _ => rfl⟩
  | cons a l ih =>
    obtain ⟨ha,hl⟩ := List.nodup_cons.mp hl
    have hother (b : α) (hb : b ∈ l) : key b ≠ key a := ne_of_mem_of_not_mem (List.mem_map_of_mem hb) ha
    have hround := (h a List.mem_cons_self).on (hs a List.mem_cons_self)
    rw [deferring]
    dsimp only
    generalize Call.on (key a) (f a) s = r at hround ⊢
    rcases r with ⟨b | e | _,t⟩
    · obtain ⟨hb,hframe⟩ := hround
      have hrest := ih hl (s := t) (fun c hc => h c (List.mem_cons_of_mem _ hc))
        fun c hc => hframe _ (hother c hc) ▸ hs c (List.mem_cons_of_mem _ hc)
      dsimp only
      generalize deferring (fun a => Call.on (key a) (f a)) (fun a t => Function.update t (key a) (d a (t (key a)))) l t = r
        at hrest ⊢
      rcases r with ⟨u | e | _,t'⟩
      · obtain ⟨hdone,hrest⟩ := hrest
        refine ⟨fun c hc => ?_,fun j hj => ?_⟩
        · rcases List.mem_cons.mp hc with rfl | hc
          · exact ⟨b,t (key c),hb,(Function.update_self _ _ _).trans (congrArg (d c) (hrest _ ha))⟩
          · rw [Function.update_of_ne (hother c hc)]
            exact hdone c hc
        · rw [List.map_cons,List.mem_cons,not_or] at hj
          exact (Function.update_of_ne hj.1 _ _).trans ((hrest j hj.2).trans (hframe j hj.1))
      · obtain ⟨⟨c,hc,hfail⟩,hrest⟩ := hrest
        refine ⟨⟨c,List.mem_cons_of_mem _ hc,(Function.update_of_ne (hother c hc) _ _).symm ▸ hfail⟩,fun j => ?_⟩
        by_cases hja : j = key a
        · subst hja
          refine .inr ⟨a,List.mem_cons_self,rfl,.inl ⟨b,t (key a),hb,?_⟩⟩
          rcases hrest (key a) with heq | ⟨c,hc,hca,-⟩
          · exact (Function.update_self _ _ _).trans (congrArg (d a) heq)
          · exact absurd hca (hother c hc)
        · rw [Function.update_of_ne hja]
          rcases hrest j with heq | ⟨c,hc,hcj,hend⟩
          · exact .inl (heq.trans (hframe j hja))
          · exact .inr ⟨c,List.mem_cons_of_mem _ hc,hcj,hend⟩
      · exact hrest.elim
    · refine ⟨⟨a,List.mem_cons_self,hround.1⟩,fun j => ?_⟩
      by_cases hja : j = key a
      · exact .inr ⟨a,List.mem_cons_self,hja.symm,.inr (hja ▸ hround.1)⟩
      · exact .inl (hround.2 j hja)
    · exact hround.elim

end Components

section Parallel
variable [DecidableEq κ] {f : κ → Call σ ε β}

/-- Whatever the order in which calls on different components end, each component is where its call leaves it. -/
theorem runAll_on {l : List κ} (hl : l.Nodup) (s : κ → σ) (j : κ) :
    (runAll (fun k => on k (f k)) l s).2 j = if j ∈ l then (f j (s j)).2 else s j := by
  induction l generalizing s with
  | nil => rfl
  | cons k l ih =>
    obtain ⟨hk,hl⟩ := List.nodup_cons.mp hl
    rw [runAll]
    dsimp only
    rw [ih hl,on]
    dsimp only
    by_cases hjk : j = k
    · subst hjk
      rw [if_neg hk,if_pos List.mem_cons_self,Function.update_self]
    · rw [Function.update_of_ne hjk]
      simp [hjk]

theorem mem_runAll_on {l : List κ} (hl : l.Nodup) (s : κ → σ) {r : Return ε β} :
    r ∈ (runAll (fun k => on k (f k)) l s).1 ↔ ∃ k ∈ l, (f k (s k)).1 = r := by
  induction l generalizing s with
  | nil => simp [runAll]
  | cons k l ih =>
    obtain ⟨hk,hl⟩ := List.nodup_cons.mp hl
    have hother (j : κ) (hj : j ∈ l) : (on k (f k) s).2 j = s j :=
      Function.update_of_ne (ne_of_mem_of_not_mem hj hk) _ _
    rw [runAll,List.mem_cons,ih hl]
    constructor
    · rintro (rfl | ⟨j,hj,hr⟩)
      · exact ⟨k,List.mem_cons_self,rfl⟩
      · exact ⟨j,List.mem_cons_of_mem _ hj,hother j hj ▸ hr⟩
    · rintro ⟨j,hj,hr⟩
      rcases List.mem_cons.mp hj with rfl | hj
      · exact .inl hr.symm
      · exact .inr ⟨j,hj,(hother j hj).symm ▸ hr⟩

end Parallel

/-- The errors of calls side by side. -/
theorem join_cases {l : List (Return ε β)} (h : ∀ r ∈ l, r ≠ .hangs) :
    (join l = .ok () ∧ ∀ r ∈ l, ∃ b, r = .ok b) ∨ ∃ es, join l = .error es := by
  induction l with
  | nil => exact .inl ⟨rfl,by simp⟩
  | cons r l ih =>
    have ih' := ih fun r hr => h r (List.mem_cons_of_mem _ hr)
    cases r with
    | ok b =>
      rcases ih' with ⟨hj,hok⟩ | hj
      · exact .inl ⟨hj,by simpa using hok⟩
      · exact .inr hj
    | error e =>
      rw [join]
      rcases ih' with ⟨hj,-⟩ | ⟨es,hj⟩
      · rw [hj]
        exact .inr ⟨[e],rfl⟩
      · rw [hj]
        exact .inr ⟨e :: es,rfl⟩
    | hangs => exact absurd rfl (h _ List.mem_cons_self)

/-- Calls side by side on different components: all of them are made, whichever fail. -/
theorem gather_on [DecidableEq κ] {f : κ → Call σ ε β} {P : κ → σ → Prop} {Q : κ → β → σ → Prop} {E : κ → ε → σ → Prop}
    {l : List κ} (hl : l.Nodup) (h : ∀ k ∈ l, Spec (P k) (f k) (Q k) (E k)) {s : κ → σ} (hs : ∀ k ∈ l, P k (s k)) :
    Ends (fun _ t => (∀ k ∈ l, ∃ b, Q k b (t k)) ∧ ∀ j, j ∉ l → t j = s j)
      (fun _ t => ∀ j, t j = s j ∨ j ∈ l ∧ ((∃ b, Q j b (t j)) ∨ ∃ e, E j e (t j))) (gather (fun k => on k (f k)) l s) := by
  have hends (k : κ) (hk : k ∈ l) : Ends (Q k) (E k) (f k (s k)) := h k hk (s k) (hs k hk)
  have hstate (k : κ) (hk : k ∈ l) : (runAll (fun k => on k (f k)) l s).2 k = (f k (s k)).2 := by
    rw [runAll_on hl,if_pos hk]
  have hframe (j : κ) (hj : j ∉ l) : (runAll (fun k => on k (f k)) l s).2 j = s j := by rw [runAll_on hl,if_neg hj]
  have hreturn : ∀ r ∈ (runAll (fun k => on k (f k)) l s).1, r ≠ .hangs := by
    intro r hr
    obtain ⟨k,hk,rfl⟩ := (mem_runAll_on hl s).mp hr
    exact (hends k hk).not_hangs
  rw [gather]
  rcases join_cases hreturn with ⟨hjoin,hok⟩ | ⟨es,hjoin⟩
  · rw [hjoin]
    refine ⟨fun k hk => ?_,hframe⟩
    obtain ⟨b,hb⟩ := hok _ ((mem_runAll_on hl s).mpr ⟨k,hk,rfl⟩)
    exact ⟨b,hstate k hk ▸ (hends k hk).ok (Prod.ext hb rfl)⟩
  · rw [hjoin]
    intro j
    by_cases hj : j ∈ l
    · refine .inr ⟨hj,?_⟩
      have hend := hends j hj
      rw [hstate j hj]
      generalize f j (s j) = r at hend
      rcases r with ⟨b | e | _,t⟩
      · exact .inl ⟨b,hend⟩
      · exact .inr ⟨e,hend⟩
      · exact hend.elim
    · exact .inl (hframe j hj)

end Call

end Hotstuff.Library
