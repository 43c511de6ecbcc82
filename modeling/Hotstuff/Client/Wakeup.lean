import Hotstuff.Client.CmdCache
import Hotstuff.Library.History

/-! `Get` and `addCommand` side by side. The lock, the receiving select and the non-blocking send are
steps of their own. -/
namespace Hotstuff
open Library

/-- Where the caller of `Get` stands: not in the call, holding the lock, between the release of the lock and the
select, blocked in the select, or back from it. -/
inductive GetPhase where
  | outside
  | locked
  | unlocked
  | parked
  | woken
  deriving DecidableEq, Repr

/-- The cache, the caller of `Get`, and whether an `addCommand` that has queued its command and holds the lock
is about to notify. -/
structure Monitor where
  cache : CmdCache
  get : GetPhase := .outside
  notifying : Bool := false

namespace Monitor

inductive Act where
  | call
  | check
  | park
  | cancel
  | relock
  | addCommand (cmd : ClientCommand)
  | notify
  | proposed (cmd : Command)

def new (batchSize : Nat) : Monitor := { cache := .new batchSize }

def free (s : Monitor) : Bool := s.get ≠ .locked && !s.notifying

theorem free_iff {s : Monitor} : s.free = true ↔ s.get ≠ .locked ∧ s.notifying = false := by
  simp [free]

def step (K : Codec) (s : Monitor) : Act → Option Monitor
  | .call => if s.get = .outside ∧ s.free then some { s with get := .locked } else none
  | .check => if s.get = .locked then
      some (match s.cache.get K with
        | (.waits,c) => { s with cache := c, get := .unlocked }
        | (.returns _,c) => { s with cache := c, get := .outside })
    else none
  | .park => if s.get = .unlocked then some { s with get := .parked } else none
  | .cancel => if s.get = .unlocked ∨ s.get = .parked then some { s with get := .outside } else none
  | .relock => if s.get = .woken ∧ s.free then some { s with get := .locked } else none
  | .addCommand cmd => if s.free then
      some (if s.cache.tooOld cmd then s
        else { s with
          cache := s.cache.addCommand cmd,
          notifying := (s.cache.addCommand cmd).batchSize ≤ (s.cache.addCommand cmd).cache.length })
    else none
  -- the send goes through only if the receiver is in its select by then
  | .notify => if s.notifying then
      some { s with notifying := false, get := if s.get = .parked then .woken else s.get }
    else none
  | .proposed cmd => if s.free then some { s with cache := s.cache.proposed K cmd } else none

def run (K : Codec) (s : Monitor) (l : List Act) : Option Monitor := l.foldlM (step K) s

def Short (s : Monitor) : Prop := s.cache.cache.length < s.cache.batchSize

def Waits (s : Monitor) : Prop := s.get = .parked → s.Short

variable {K : Codec} {s t u m : Monitor} {a : Act} {l : List Act}

def Notified (s : Monitor) : Prop := s.notifying = true → s.get ≠ .locked ∧ ¬ s.Short

/-- What a step outside the check does to the queue, which it never shortens, and to the notification: `notify` makes
it, an `addCommand` that leaves a batch queued is about to make it. -/
theorem step_queue (h : step K m a = some t) (ha : a ≠ .check) :
    t.cache.batchSize = m.cache.batchSize ∧ m.cache.cache.length ≤ t.cache.cache.length ∧
      (a = .notify ∧ m.notifying = true ∧ t.notifying = false ∨
        a ≠ .notify ∧ (t.notifying = m.notifying ∧ t.cache.cache = m.cache.cache ∨ (t.notifying = true ↔ ¬ t.Short))) := by
  cases a <;> simp only [step,Option.ite_none_right_eq_some] at h <;> obtain ⟨hif,⟨⟩⟩ := h
  case check => exact absurd rfl ha
  case addCommand cmd =>
    split_ifs with hold
    · exact ⟨rfl,le_rfl,.inr ⟨by simp,.inl ⟨rfl,rfl⟩⟩⟩
    · refine ⟨?_,?_,.inr ⟨by simp,.inr (by simp [Short])⟩⟩
      · simp [CmdCache.addCommand,hold]
      · simp [CmdCache.addCommand,hold]
  case notify => exact ⟨rfl,le_rfl,.inl ⟨rfl,hif,rfl⟩⟩
  case proposed cmd =>
    have hq := CmdCache.proposed_queue (K := K) cmd m.cache
    exact ⟨hq.2,hq.1 ▸ le_rfl,.inr ⟨by simp,.inl ⟨rfl,hq.1⟩⟩⟩
  all_goals exact ⟨rfl,le_rfl,.inr ⟨by simp,.inl ⟨rfl,rfl⟩⟩⟩

theorem step_locked (h : step K m a = some t) (ht : t.get = .locked) : t.notifying = false := by
  cases a <;> simp only [step,Option.ite_none_right_eq_some,free_iff] at h <;> obtain ⟨hif,⟨⟩⟩ := h
  case call | relock => exact hif.2.2
  case check => split at ht <;> cases ht
  case addCommand cmd => split_ifs at ht <;> exact absurd ht hif.1
  case notify => rfl
  case proposed cmd => exact hif.2
  all_goals cases ht

theorem step_notified (h : step K s a = some t) (hs : s.Notified) : t.Notified := by
  intro hn
  refine ⟨fun hg => by simp [step_locked h hg] at hn,?_⟩
  by_cases ha : a = .check
  · subst ha
    simp only [step,Option.ite_none_right_eq_some] at h
    obtain ⟨hg,⟨⟩⟩ := h
    have hon : s.notifying = true := by
      split at hn <;> exact hn
    exact absurd hg (hs hon).1
  · obtain ⟨hsize,-,⟨-,-,hoff⟩ | ⟨-,⟨hsame,hcache⟩ | hfull⟩⟩ := step_queue h ha
    · rw [hoff] at hn
      cases hn
    · rw [Short,hcache,hsize]
      exact (hs (hsame ▸ hn)).2
    · exact hfull.mp hn

theorem run_notified {n : Nat} (h : run K (new n) l = some t) : t.Notified :=
  foldlM_rec (Q := fun _ t => t.Notified) nofun (fun _ _ _ _ _ hm hstep => step_notified hstep hm) h

structure Since (u : Monitor) (l : List Act) (t : Monitor) : Prop where
  batchSize : t.cache.batchSize = u.cache.batchSize
  grown : u.cache.cache.length ≤ t.cache.cache.length
  told : .notify ∈ l ∨ t.notifying = true → ¬ t.Short
  untold : u.Short → .notify ∉ l → t.notifying = false → t.Short

theorem Since.step (h : Since u l m) (hstep : step K m a = some t) (ha : a ≠ .check) : Since u (l ++ [a]) t := by
  obtain ⟨hsize,hlen,hkind⟩ := step_queue hstep ha
  have hlong : ¬ m.Short → ¬ t.Short := by
    simp only [Short]
    omega
  have hlate : .notify ∈ l ∨ m.notifying = true → ¬ t.Short := fun hm => hlong (h.told hm)
  refine ⟨hsize.trans h.batchSize,h.grown.trans hlen,fun hn => ?_,fun hu hl hn => ?_⟩
  · rcases hkind with ⟨-,hon,-⟩ | ⟨hne,hkind⟩
    · exact hlate (.inr hon)
    · rcases hn with hn | hn
      · rw [List.mem_append,List.mem_singleton] at hn
        exact hlate (.inl (hn.resolve_right (Ne.symm hne)))
      · rcases hkind with ⟨hsame,-⟩ | hfull
        · exact hlate (.inr (hsame ▸ hn))
        · exact hfull.mp hn
  · rw [List.mem_append,List.mem_singleton,not_or] at hl
    rcases hkind with ⟨rfl,-⟩ | ⟨-,⟨hsame,hcache⟩ | hfull⟩
    · exact absurd rfl hl.2
    · have hm := h.untold hu hl.1 (hsame ▸ hn)
      rwa [Short,hcache,hsize]
    · by_contra hs
      rw [hfull.mpr hs] at hn
      cases hn

theorem run_since (hu : u.Notified) (hl : .check ∉ l) (h : run K u l = some t) : Since u l t := by
  refine foldlM_prefix_rec (Q := Since u) ⟨rfl,le_rfl,?_,fun hs _ _ => hs⟩ ?_ List.prefix_rfl h
  · rintro (hn | hn)
    · cases hn
    · exact (hu hn).2
  · intro l' a m t hp _ hm hstep
    refine hm.step hstep ?_
    rintro rfl
    exact hl (hp.mem (by simp))

/-- A caller of `Get` on the way to its select has made its check. -/
theorem last_check {n : Nat} (h : run K (new n) l = some t) (hg : t.get = .unlocked ∨ t.get = .parked) :
    ∃ l₁ l₂, l = l₁ ++ .check :: l₂ ∧ .check ∉ l₂ := by
  refine foldlM_rec (Q := fun l t => t.get = .unlocked ∨ t.get = .parked → ∃ l₁ l₂, l = l₁ ++ .check :: l₂ ∧ .check ∉ l₂)
    (fun h => by simp [new] at h) ?_ h hg
  intro l a m t _ ih hstep hg
  by_cases ha : a = .check
  · exact ⟨l,[],by rw [ha],List.not_mem_nil⟩
  · have hm : m.get = .unlocked ∨ m.get = .parked := by
      cases a <;> simp only [step,Option.ite_none_right_eq_some] at hstep <;> obtain ⟨hif,⟨⟩⟩ := hstep
      case check => exact absurd rfl ha
      case park => exact .inl hif
      case addCommand cmd => split_ifs at hg <;> exact hg
      case notify =>
        split_ifs at hg with hp
        · simp at hg
        · exact hg
      case proposed => exact hg
      all_goals simp at hg
    obtain ⟨l₁,l₂,rfl,hl₂⟩ := ih hm
    exact ⟨l₁,l₂ ++ [a],by simp,by simp [hl₂,Ne.symm ha]⟩

/-- `Get` is blocked in state `t`; `u` is the state after its last check, and `l₂` what has been done since. -/
def Blocked (K : Codec) (n : Nat) (l l₂ : List Act) (u t : Monitor) : Prop :=
  ∃ l₁, l₁ ++ .check :: l₂ <+: l ∧ .check ∉ l₂ ∧ run K (new n) (l₁ ++ [.check]) = some u ∧ run K u l₂ = some t ∧
    t.get = .parked

theorem Blocked.reached {n : Nat} {l₂ : List Act} (h : Blocked K n l l₂ u t) :
    ∃ l', l' <+: l ∧ run K (new n) l' = some t ∧ t.get = .parked := by
  obtain ⟨l₁,hp,-,hu,ht,hg⟩ := h
  refine ⟨l₁ ++ .check :: l₂,hp,?_,hg⟩
  rw [run,List.append_cons,List.foldlM_append]
  exact Option.bind_eq_some_iff.mpr ⟨u,hu,ht⟩

theorem blocked_of_parked {n : Nat} {l' : List Act} (hp : l' <+: l) (h : run K (new n) l' = some t)
    (hg : t.get = .parked) : ∃ l₂ u, Blocked K n l l₂ u t := by
  obtain ⟨l₁,l₂,rfl,hl₂⟩ := last_check h (.inr hg)
  rw [run,List.append_cons,List.foldlM_append] at h
  obtain ⟨u,hu,ht⟩ := Option.bind_eq_some_iff.mp h
  exact ⟨l₂,u,l₁,hp,hl₂,hu,ht,hg⟩

/-- A blocked caller waits for a short queue exactly if it has seen a short one, and nobody has notified since or is
about to. -/
theorem Blocked.short_iff {n : Nat} {l₂ : List Act} (h : Blocked K n l l₂ u t) :
    t.Short ↔ u.Short ∧ .notify ∉ l₂ ∧ t.notifying = false := by
  obtain ⟨l₁,-,hl₂,hu,ht,-⟩ := h
  have hsince := run_since (run_notified hu) hl₂ ht
  constructor
  · intro hs
    have hquiet := fun hn => hsince.told hn hs
    refine ⟨?_,fun hn => hquiet (.inl hn),by simpa using fun hn => hquiet (.inr hn)⟩
    have hsize := hsince.batchSize
    have hgrown := hsince.grown
    simp only [Short] at hs ⊢
    omega
  · rintro ⟨hs,hl,hn⟩
    exact hsince.untold hs hl hn

/-- In a run `Get` is never blocked while a full batch is queued exactly if every time it is blocked, it found fewer
commands at its last check, and no `addCommand` has notified since then or is about to. Of the states in which no
`addCommand` is about to notify, the same holds without the last part. -/
theorem full_batch_waits_iff (K : Codec) (batchSize : Nat) (l : List Act) :
    ((∀ l' t, l' <+: l → run K (new batchSize) l' = some t → t.Waits) ↔
      ∀ l₂ u t, Blocked K batchSize l l₂ u t → u.Short ∧ .notify ∉ l₂ ∧ t.notifying = false) ∧
    ((∀ l' t, l' <+: l → run K (new batchSize) l' = some t → t.notifying = false → t.Waits) ↔
      ∀ l₂ u t, Blocked K batchSize l l₂ u t → t.notifying = false → u.Short ∧ .notify ∉ l₂) := by
  refine ⟨⟨fun h l₂ u t hb => ?_,fun h l' t hl ht hg => ?_⟩,⟨fun h l₂ u t hb hn => ?_,fun h l' t hl ht hn hg => ?_⟩⟩
  · obtain ⟨l',hl,ht,hg⟩ := hb.reached
    exact hb.short_iff.mp (h l' t hl ht hg)
  · obtain ⟨l₂,u,hb⟩ := blocked_of_parked hl ht hg
    exact hb.short_iff.mpr (h l₂ u t hb)
  · obtain ⟨l',hl,ht,hg⟩ := hb.reached
    obtain ⟨hs,hnot,-⟩ := hb.short_iff.mp (h l' t hl ht hn hg)
    exact ⟨hs,hnot⟩
  · obtain ⟨l₂,u,hb⟩ := blocked_of_parked hl ht hg
    obtain ⟨hs,hnot⟩ := h l₂ u t hb hn
    exact hb.short_iff.mpr ⟨hs,hnot,hn⟩

end Monitor

namespace Sample
open Monitor

private def one (n : UInt64) : Act := .addCommand ⟨1,n,[]⟩

/-- With batches of one command, `Get` comes when one is queued and waits for a second one. With batches
of two, the second command arrives between the release of the lock and the select, and the notification is lost. -/
theorem full_batch_left :
    (∃ t, run codec (new 1) [one 1,.notify,.call,.check,.park] = some t ∧ t.notifying = false ∧ ¬ t.Waits) ∧
    ∃ t, run codec (new 2) [one 1,.call,.check,one 2,.notify,.park] = some t ∧ t.notifying = false ∧ ¬ t.Waits := by
  have left {n : Nat} {l : List Act} (h : (run codec (new n) l).any (fun t => t.get = .parked ∧
      t.cache.batchSize ≤ t.cache.cache.length ∧ t.notifying = false) = true) :
      ∃ t, run codec (new n) l = some t ∧ t.notifying = false ∧ ¬ t.Waits := by
    obtain ⟨t,ht,hp⟩ := (Option.any_eq_true _ _).mp h
    obtain ⟨hp,hle,hn⟩ := of_decide_eq_true hp
    exact ⟨t,ht,hn,fun hw => absurd (hw hp) (Nat.not_lt.mpr hle)⟩
  exact ⟨left (by decide),left (by decide)⟩

end Sample
end Hotstuff
