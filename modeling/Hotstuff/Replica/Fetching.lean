import Hotstuff.Replica.Lookup
import Hotstuff.Library.History

/-! The block store when several goroutines use it. `Get` gives up the lock while it fetches; meanwhile blocks
arrive, and the fetch may be cancelled, by `Store` or with its view. -/
namespace Hotstuff
open Library

inductive CtxState where
  | live
  | canceled
  | deadlineExceeded
  deriving DecidableEq, Repr

def CtxState.finish (e : CtxState) : CtxState → CtxState
  | live => e
  | c => c

/-- How the quorum call behind `Fetch` ends: with a reply that `FetchQF` takes, with an error that is
`context.Canceled`, or with another one. -/
inductive FetchOutcome where
  | reply (b : Block)
  | canceled
  | failed

/-- A call of `Get`; `result` is `none` while it fetches. `view` is the context of the view it was called in, `ctx` the
one it derives from that, with a cancel function of its own. -/
structure GetCall where
  hash : Hash
  view : CtxState
  ctx : CtxState
  result : Option (Option Block)

structure BlockChain where
  blocks : List (Hash × Block)
  blockAtHeight : List (View × Block)
  pendingFetch : Hash → Option Nat := fun _ => none
  viewCtx : CtxState := .live
  gets : List GetCall := []

namespace BlockChain

inductive Act where
  | store (b : Block)
  | localGet (h : Hash)
  | getStart (h : Hash)
  | getEnd (k : Nat) (o : FetchOutcome)
  | endCtx (e : CtxState)
  | newCtx

def localGet (h : Hash) (s : BlockChain) : Option Block := s.blocks.lookup h

def insert (h : Hash) (b : Block) (s : BlockChain) : BlockChain :=
  { s with blocks := (h,b) :: s.blocks,
           blockAtHeight := (b.view,b) :: s.blockAtHeight.filter (fun e => e.1 ≠ b.view) }

def cancel (k : Nat) (s : BlockChain) : BlockChain :=
  { s with gets := s.gets.modify k (fun c => { c with ctx := c.ctx.finish .canceled }) }

def endCtx (e : CtxState) (s : BlockChain) : BlockChain :=
  { s with viewCtx := s.viewCtx.finish e,
           gets := s.gets.map (fun c => { c with view := c.view.finish e, ctx := c.ctx.finish e }) }

def store (S : Setup) (b : Block) (s : BlockChain) : BlockChain :=
  match s.pendingFetch (b.hash S) with
  | some k => (s.insert (b.hash S) b).cancel k
  | none => s.insert (b.hash S) b

def getStart (h : Hash) (s : BlockChain) : BlockChain :=
  match s.localGet h with
  | some b => { s with gets := s.gets ++ [⟨h,s.viewCtx,s.viewCtx,some (some b)⟩] }
  | none => { s with
      gets := s.gets ++ [⟨h,s.viewCtx,s.viewCtx,none⟩],
      pendingFetch := Function.update s.pendingFetch h (some s.gets.length) }

def answer (k : Nat) (r : Option Block) (s : BlockChain) : BlockChain :=
  { s with gets := s.gets.modify k (fun c => { c with result := some r }) }

/-- `Get` from the return of `Fetch` on. `Fetch` takes a cancelled call for a successful one without a block, and
`BlockFromProto(nil)` has the content of the genesis block. -/
def getEnd (k : Nat) (h : Hash) (o : FetchOutcome) (s : BlockChain) : BlockChain :=
  let s : BlockChain := { s with pendingFetch := Function.update s.pendingFetch h none }
  match o with
  | .reply b => (s.insert h b).answer k (some b)
  | .canceled => (s.insert h genesis).answer k (some genesis)
  | .failed => s.answer k (s.localGet h)

/-- What the quorum call can return: an error that is `context.Canceled` only if the context of the view was
cancelled. A fetch that `Store` cancels fails with another error. -/
def Possible (S : Setup) (c : GetCall) : FetchOutcome → Bool
  | .reply b => b.hash S = c.hash
  | .canceled => c.view = .canceled
  | .failed => true

def step (S : Setup) (s : BlockChain) : Act → Option BlockChain
  | .store b => some (s.store S b)
  | .localGet _ => some s
  | .getStart h => some (s.getStart h)
  | .getEnd k o => match s.gets[k]? with
    | none => none
    | some c => if c.result = none ∧ Possible S c o then some (s.getEnd k c.hash o) else none
  | .endCtx e => some (s.endCtx e)
  | .newCtx => some { s.endCtx .canceled with viewCtx := .live }

def new (S : Setup) : BlockChain := ⟨[(S.genesisHash,genesis)],[(0,genesis)],fun _ => none,.live,[]⟩

def run (S : Setup) (s : BlockChain) (l : List Act) : Option BlockChain := l.foldlM (step S) s

def Act.block : Act → Option Block
  | .store b => some b
  | .getEnd _ (.reply b) => some b
  | _ => none

def entered (l : List Act) : List Block := genesis :: l.filterMap Act.block

variable {S : Setup} {s t : BlockChain} {a : Act}

theorem localGet_cons {k : Hash} {b : Block} (h : Hash) (hb : t.blocks = (k,b) :: s.blocks) :
    t.localGet h = if h = k then some b else s.localGet h := by
  rw [localGet,localGet,hb,lookup_cons_ite]

@[simp] theorem store_blocks (b : Block) (s : BlockChain) : (s.store S b).blocks = (b.hash S,b) :: s.blocks := by
  rw [store]
  split <;> rfl

/-- What a step writes: nothing, a block under its own hash, or the genesis block under the hash of a fetch. -/
theorem step_blocks (h : step S s a = some t) :
    (∀ k, a ≠ .getEnd k .canceled) ∧ (a.block = none ∧ t.blocks = s.blocks ∨
      ∃ b, a.block = some b ∧ t.blocks = (b.hash S,b) :: s.blocks) ∨
    ∃ k c, a = .getEnd k .canceled ∧ s.gets[k]? = some c ∧ c.result = none ∧
      t.blocks = (c.hash,genesis) :: s.blocks := by
  cases a with
  | store b =>
    cases h
    exact .inl ⟨nofun,.inr ⟨b,rfl,store_blocks b s⟩⟩
  | localGet _ | endCtx _ | newCtx =>
    cases h
    exact .inl ⟨nofun,.inl ⟨rfl,rfl⟩⟩
  | getStart h' =>
    cases h
    refine .inl ⟨nofun,.inl ⟨rfl,?_⟩⟩
    rw [getStart]
    split <;> rfl
  | getEnd k o =>
    simp only [step] at h
    split at h
    · cases h
    rename_i c hc
    split_ifs at h with hp
    cases h
    cases o with
    | reply b =>
      have hb : b.hash S = c.hash := by simpa [Possible] using hp.2
      exact .inl ⟨nofun,.inr ⟨b,rfl,hb ▸ rfl⟩⟩
    | canceled => exact .inr ⟨k,c,rfl,hc,hp.1,rfl⟩
    | failed => exact .inl ⟨nofun,.inl ⟨rfl,rfl⟩⟩

/-- What a step does to the calls of `Get`: old ones stay with their results, one may return what is now stored
under its hash, and one may start to fetch what is not stored. -/
theorem step_gets (h : step S s a = some t) {c : GetCall} (hc : c ∈ t.gets) :
    (∃ d ∈ s.gets, d.hash = c.hash ∧ d.result = c.result) ∨ c.result = some (t.localGet c.hash) ∨
      c.result = none ∧ s.localGet c.hash = none := by
  cases a with
  | store b =>
    cases h
    rw [store] at hc
    split at hc
    · rcases mem_modify hc with hc | ⟨d,hd,rfl⟩
      · exact .inl ⟨c,hc,rfl,rfl⟩
      · exact .inl ⟨d,List.mem_of_getElem? hd,rfl,rfl⟩
    · exact .inl ⟨c,hc,rfl,rfl⟩
  | localGet _ =>
    cases h
    exact .inl ⟨c,hc,rfl,rfl⟩
  | endCtx _ | newCtx =>
    cases h
    obtain ⟨d,hd,rfl⟩ := List.mem_map.mp hc
    exact .inl ⟨d,hd,rfl,rfl⟩
  | getStart h' =>
    cases h
    rw [getStart] at hc ⊢
    cases hg : s.localGet h' with
    | some b =>
      rw [hg] at hc
      rcases List.mem_append.mp hc with hc | hc
      · exact .inl ⟨c,hc,rfl,rfl⟩
      · rw [List.mem_singleton.mp hc]
        exact .inr (.inl (congrArg some hg.symm))
    | none =>
      rw [hg] at hc
      rcases List.mem_append.mp hc with hc | hc
      · exact .inl ⟨c,hc,rfl,rfl⟩
      · rw [List.mem_singleton.mp hc]
        exact .inr (.inr ⟨rfl,hg⟩)
  | getEnd k o =>
    simp only [step] at h
    split at h
    · cases h
    rename_i d hd
    split_ifs at h with hp
    cases h
    have hlook : c ∈ s.gets ∨ c.hash = d.hash ∧ c.result = some ((s.getEnd k d.hash o).localGet d.hash) := by
      cases o with
      | reply b | canceled =>
        rcases mem_modify hc with hc | ⟨d',hd',rfl⟩
        · exact .inl hc
        · cases hd.symm.trans hd'
          refine .inr ⟨rfl,congrArg some ?_⟩
          exact ((localGet_cons (s := s) d.hash rfl).trans (if_pos rfl)).symm
      | failed =>
        rcases mem_modify hc with hc | ⟨d',hd',rfl⟩
        · exact .inl hc
        · cases hd.symm.trans hd'
          exact .inr ⟨rfl,rfl⟩
    rcases hlook with hc | ⟨hh,hr⟩
    · exact .inl ⟨c,hc,rfl,rfl⟩
    · exact .inr (.inl (hh ▸ hr))

structure Sound (S : Setup) (s : BlockChain) : Prop where
  keyed : ∀ h b, s.localGet h = some b → b.hash S = h
  returned : ∀ c ∈ s.gets, ∀ b, c.result = some (some b) → b.hash S = c.hash

def Keeps (s t : BlockChain) : Prop := ∀ h b, s.localGet h = some b → t.localGet h = some b

theorem mem_entered {l : List Act} {b : Block} : b ∈ entered l ↔ b = genesis ∨ ∃ a ∈ l, a.block = some b := by
  simp [entered]

structure Held (S : Setup) (l : List Act) (s : BlockChain) : Prop where
  entries : ∀ e ∈ s.blocks, e.2.hash S = e.1 ∧ e.2 ∈ entered l
  returned : ∀ c ∈ s.gets, ∀ b, c.result = some (some b) → b.hash S = c.hash

theorem Held.sound {l : List Act} (h : Held S l s) : Sound S s :=
  ⟨fun _ _ hb => (h.entries _ (mem_of_lookup hb)).1,h.returned⟩

theorem Held.step {l : List Act} (h : Held S l s) (hstep : step S s a = some t) (ha : ∀ k, a ≠ .getEnd k .canceled) :
    Held S (l ++ [a]) t := by
  have hold (e : Hash × Block) (he : e ∈ s.blocks) : e.2.hash S = e.1 ∧ e.2 ∈ entered (l ++ [a]) := by
    refine (h.entries e he).imp_right fun hb => mem_entered.mpr ((mem_entered.mp hb).imp_right ?_)
    rintro ⟨x,hx,hxb⟩
    exact ⟨x,List.mem_append_left _ hx,hxb⟩
  have hentries : ∀ e ∈ t.blocks, e.2.hash S = e.1 ∧ e.2 ∈ entered (l ++ [a]) := by
    rcases step_blocks hstep with ⟨-,⟨-,hb⟩ | ⟨b,hab,hb⟩⟩ | ⟨k,c,rfl,-⟩
    · exact hb ▸ hold
    · rw [hb]
      refine List.forall_mem_cons.mpr ⟨⟨rfl,mem_entered.mpr (.inr ⟨a,by simp,hab⟩)⟩,hold⟩
    · exact absurd rfl (ha k)
  refine ⟨hentries,fun c hc b hr => ?_⟩
  rcases step_gets hstep hc with ⟨d,hd,hh,hdr⟩ | hnow | ⟨hnone,-⟩
  · exact hh ▸ h.returned d hd b (hdr.trans hr)
  · rw [hnow] at hr
    exact (hentries _ (mem_of_lookup (Option.some.inj hr))).1
  · simp [hnone] at hr

structure Found (S : Setup) (l : List Act) (s : BlockChain) : Prop where
  entered : ∀ b ∈ entered l, s.localGet (b.hash S) = some b
  fetching : ∀ c ∈ s.gets, c.result = none → c.hash ≠ S.genesisHash
  honest : ∀ k, .getEnd k .canceled ∉ l

theorem Found.step {l : List Act} (h : Found S l s) (hstep : step S s a = some t) (ht : Sound S t) (hk : Keeps s t) :
    Found S (l ++ [a]) t := by
  have hgen : s.localGet S.genesisHash = some genesis := h.entered genesis (mem_entered.mpr (.inl rfl))
  have hnew : (∀ k, a ≠ .getEnd k .canceled) ∧ ∀ b, a.block = some b → t.localGet (b.hash S) = some b := by
    rcases step_blocks hstep with ⟨ha,⟨hab,-⟩ | ⟨b,hab,hb⟩⟩ | ⟨k,c,-,hc,hr,hb⟩
    · exact ⟨ha,fun b hb => by simp [hab] at hb⟩
    · refine ⟨ha,fun b' hb' => ?_⟩
      cases hab.symm.trans hb'
      rw [localGet_cons _ hb,if_pos rfl]
    · have hkey := ht.keyed c.hash genesis (by rw [localGet_cons _ hb,if_pos rfl])
      exact absurd hkey.symm (h.fetching c (List.mem_of_getElem? hc) hr)
  refine ⟨fun b hb => ?_,fun c hc hr => ?_,fun k hmem => ?_⟩
  · rcases mem_entered.mp hb with rfl | ⟨x,hx,hxb⟩
    · exact hk _ _ hgen
    · rcases List.mem_append.mp hx with hx | hx
      · exact hk _ _ (h.entered b (mem_entered.mpr (.inr ⟨x,hx,hxb⟩)))
      · exact hnew.2 b (List.mem_singleton.mp hx ▸ hxb)
  · rcases step_gets hstep hc with ⟨d,hd,hh,hdr⟩ | hnow | ⟨-,hnone⟩
    · exact hh ▸ h.fetching d hd (hdr.trans hr)
    · simp [hr] at hnow
    · intro he
      simp [he,hgen] at hnone
  · rcases List.mem_append.mp hmem with hmem | hmem
    · exact h.honest k hmem
    · exact hnew.1 k (List.mem_singleton.mp hmem).symm

variable (S) in
/-- In a run the store is sound at all times and keeps what it has exactly if no fetch ends with a cancelled
call, and no two different blocks that enter it have one hash. -/
theorem store_integrity_iff {l : List Act} (h : run S (new S) l = some s) :
    ((∀ l' t, l' <+: l → run S (new S) l' = some t → Sound S t) ∧
      ∀ l' a t u, l' ++ [a] <+: l → run S (new S) l' = some t → step S t a = some u → Keeps t u) ↔
    (∀ k, .getEnd k .canceled ∉ l) ∧ Set.InjOn (Block.hash S) {b | b ∈ entered l} := by
  constructor
  · rintro ⟨hsound,hkeeps⟩
    have hfound : Found S l s := by
      refine foldlM_prefix_rec (Q := Found S) ⟨?_,fun _ hc => absurd hc List.not_mem_nil,nofun⟩ ?_ List.prefix_rfl h
      · intro b hb
        obtain rfl : b = genesis := by simpa [entered] using hb
        simp [new,localGet,Setup.genesisHash]
      · intro l' a m t hl hm hf hstep
        exact hf.step hstep (hsound _ t hl (foldlM_snoc hm hstep)) (hkeeps l' a m t hl hm hstep)
    refine ⟨hfound.honest,fun a ha b hb he => ?_⟩
    exact Option.some.inj ((hfound.entered a ha).symm.trans (he ▸ hfound.entered b hb))
  · rintro ⟨hcanceled,hinj⟩
    have hheld {l' : List Act} {t : BlockChain} (hl : l' <+: l) (ht : run S (new S) l' = some t) : Held S l' t := by
      refine foldlM_prefix_rec (Q := Held S) ⟨?_,fun _ hc => absurd hc List.not_mem_nil⟩ ?_ hl ht
      · intro e he
        rw [List.mem_singleton.mp he]
        exact ⟨rfl,mem_entered.mpr (.inl rfl)⟩
      · intro l' a m t hl hm hh hstep
        refine hh.step hstep fun k hk => hcanceled k (hl.mem ?_)
        simp [hk]
    refine ⟨fun l' t hl ht => (hheld hl ht).sound,fun l' a t u hl ht hu h' b hb => ?_⟩
    obtain ⟨hbh,hbl⟩ := (hheld ((List.prefix_append _ _).trans hl) ht).entries _ (mem_of_lookup hb)
    have hmono {b : Block} {l' : List Act} (hl : l' <+: l) (hb : b ∈ entered l') : b ∈ entered l :=
      mem_entered.mpr ((mem_entered.mp hb).imp_right fun ⟨x,hx,hxb⟩ => ⟨x,hl.mem hx,hxb⟩)
    rcases step_blocks hu with ⟨-,⟨-,he⟩ | ⟨b',hab,he⟩⟩ | ⟨k,c,rfl,-⟩
    · rwa [localGet,he]
    · rw [localGet_cons _ he]
      split_ifs with hh
      · have hb' : b' ∈ entered (l' ++ [a]) := mem_entered.mpr (.inr ⟨a,by simp,hab⟩)
        have hsame : b' = b :=
          hinj (hmono hl hb') (hmono ((List.prefix_append _ _).trans hl) hbl) (hh.symm.trans hbh.symm)
        rw [hsame]
      · exact hb
    · exact absurd (hl.mem (by simp)) (hcanceled k)

def ofReplica (s : Replica) : BlockChain := ⟨s.blocks,s.blockAtHeight,fun _ => none,.live,[]⟩

theorem store_sequential (b : Block) (s : Replica) :
    (ofReplica s).store S b = ofReplica (Replica.store S b s) := rfl

private def fetching (s : Replica) (h : Hash) (ctx : CtxState) : BlockChain :=
  { ofReplica s with
    pendingFetch := Function.update (fun _ => none) h (some 0)
    viewCtx := ctx
    gets := [⟨h,ctx,ctx,none⟩] }

private theorem fetching_getEnd {s : Replica} {h : Hash} {ctx : CtxState} {o : FetchOutcome}
    (ho : Possible S ⟨h,ctx,ctx,none⟩ o = true) :
    run S (fetching s h ctx) [.getEnd 0 o] = some ((fetching s h ctx).getEnd 0 h o) := by
  have hstep : step S (fetching s h ctx) (.getEnd 0 o) = some ((fetching s h ctx).getEnd 0 h o) :=
    if_pos ⟨rfl,ho⟩
  simp [run,hstep]

/-- A call of `Get` that nothing interferes with but the end of its view. -/
theorem get_sequential (S : Setup) (env : Env) (h : Hash) (s : Replica) : ∃ l t,
    run S (ofReplica s) (.getStart h :: l) = some t ∧ t.blocks = (Replica.get S env h s).2.blocks ∧
      t.blockAtHeight = (Replica.get S env h s).2.blockAtHeight ∧
      t.gets.map GetCall.result = [some (Replica.get S env h s).1] := by
  unfold Replica.get
  cases hg : s.localGet h with
  | some b =>
    have hstart : (ofReplica s).getStart h = { ofReplica s with gets := [⟨h,.live,.live,some (some b)⟩] } := by
      rw [getStart,show (ofReplica s).localGet h = some b from hg]
      rfl
    exact ⟨[],_,congrArg some hstart,rfl,rfl,rfl⟩
  | none =>
    have hstart (l : List Act) : run S (ofReplica s) (.getStart h :: l) = run S (fetching s h .live) l := by
      have hs : (ofReplica s).getStart h = fetching s h .live := by
        rw [getStart,show (ofReplica s).localGet h = none from hg]
        rfl
      exact congrArg (run S · l) hs
    rw [Replica.fetch]
    cases hfind : (env.replies s.now h).find? (fun b => b.hash S = h) with
    | some b =>
      refine ⟨[.getEnd 0 (.reply b)],_,(hstart _).trans (fetching_getEnd ?_),rfl,rfl,rfl⟩
      simpa [Possible] using List.find?_some hfind
    | none =>
      by_cases hc : env.canceled s.now = true
      · simp only [hc,if_true]
        have hend : run S (fetching s h .canceled) [.getEnd 0 .canceled] = _ := fetching_getEnd rfl
        exact ⟨[.endCtx .canceled,.getEnd 0 .canceled],_,(hstart _).trans hend,rfl,rfl,rfl⟩
      · simp only [hc]
        refine ⟨[.getEnd 0 .failed],_,(hstart _).trans (fetching_getEnd rfl),rfl,rfl,?_⟩
        exact congrArg (fun r => [some r]) hg

end BlockChain

namespace Sample
open BlockChain

private def fetchFirst : List Act := [.getStart ((first 1).hash setup),.getEnd 0 (.reply (first 1))]

theorem store_integrity_fetched : ∃ s, run setup (new setup) fetchFirst = some s ∧
    s.localGet ((first 1).hash setup) = some (first 1) ∧ Sound setup s := by
  have hrun : (run setup (new setup) fetchFirst).any
      (fun s => s.localGet ((first 1).hash setup) = some (first 1)) = true := by decide +kernel
  obtain ⟨s,hs,hb⟩ := (Option.any_eq_true _ _).mp hrun
  have hinj : Set.InjOn (Block.hash setup) {b | b ∈ entered fetchFirst} :=
    injOn_pair (a := genesis) (b := first 1) (by decide +kernel)
  have hsound := ((store_integrity_iff setup hs).mpr ⟨by simp [fetchFirst],hinj⟩).1
  exact ⟨s,hs,of_decide_eq_true hb,hsound _ s List.prefix_rfl hs⟩

/-- The timer of the view cancels its context during a fetch. The genesis block is stored under the hash that was
asked for and returned for it, and the block itself replaces it when it arrives. -/
theorem canceled_fetch_stored : ∃ s t,
    run setup (new setup) [.getStart ((first 1).hash setup),.endCtx .canceled,.getEnd 0 .canceled] = some s ∧
    ¬ Sound setup s ∧ s.gets.map GetCall.result = [some (some genesis)] ∧
    step setup s (.store (first 1)) = some t ∧ ¬ Keeps s t := by
  have hrun : (run setup (new setup)
      [.getStart ((first 1).hash setup),.endCtx .canceled,.getEnd 0 .canceled]).any (fun s =>
      s.localGet ((first 1).hash setup) = some genesis ∧ s.gets.map GetCall.result = [some (some genesis)]) = true := by
    decide +kernel
  obtain ⟨s,hs,hb⟩ := (Option.any_eq_true _ _).mp hrun
  obtain ⟨hgen,hresult⟩ := of_decide_eq_true hb
  refine ⟨s,s.store setup (first 1),hs,fun h => ?_,hresult,rfl,fun h => ?_⟩
  · exact absurd (h.keyed _ _ hgen) (by decide +kernel)
  · have hafter : (s.store setup (first 1)).localGet ((first 1).hash setup) = some (first 1) := by
      rw [localGet_cons _ (store_blocks _ _),if_pos rfl]
    exact absurd ((h _ _ hgen).symm.trans hafter) (by decide +kernel)

end Sample
end Hotstuff
