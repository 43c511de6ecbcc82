import Hotstuff.Replica.Timeouts

/-! Collecting votes: when the voting machine makes a certificate for a block, and that the
certificate is accepted. -/
namespace Hotstuff

def votesFor (h : Hash) (votes : List PartialCert) : List PartialCert := votes.filter (fun c => c.blockHash = h)

def signers (votes : List PartialCert) : Finset ID :=
  (votes.filterMap fun c => c.signature.map Signature.signer).toFinset

theorem votesFor_append (h : Hash) (l l' : List PartialCert) : votesFor h (l ++ l') = votesFor h l ++ votesFor h l' :=
  List.filter_append _ _

theorem mem_votesFor {h : Hash} {l : List PartialCert} {c : PartialCert} :
    c ∈ votesFor h l ↔ c ∈ l ∧ c.blockHash = h := by
  simp [votesFor]

theorem votesFor_singleton_of_ne {h : Hash} {c : PartialCert} (hc : c.blockHash ≠ h) : votesFor h [c] = [] := by
  simp [votesFor,hc]

theorem votesFor_filter_ne {h k : Hash} (hk : k ≠ h) (l : List PartialCert) :
    votesFor h (l.filter fun c => c.blockHash ≠ k) = votesFor h l := by
  rw [votesFor,votesFor,List.filter_filter]
  refine List.filter_congr fun c _ => ?_
  by_cases hc : c.blockHash = h
  · simp [hc,hk.symm]
  · simp [hc]

theorem card_signers_le (l : List PartialCert) : (signers l).card ≤ l.length :=
  (List.toFinset_card_le _).trans (List.length_filterMap_le _ _)

theorem signers_mono {l l' : List PartialCert} (h : l ⊆ l') : signers l ⊆ signers l' := by
  intro i hi
  rw [signers,List.mem_toFinset,List.mem_filterMap] at hi ⊢
  obtain ⟨c,hc,hi⟩ := hi
  exact ⟨c,h hc,hi⟩

namespace Setup
variable {S : Setup}

/-- For votes that have passed `VerifyPartialCert`, every signer counts. -/
theorem validSigners_votes {h : Hash} {votes : List PartialCert}
    (hall : ∀ c ∈ votes, c.blockHash = h ∧ S.verifyPartialCert c = true) :
    S.validSigners (fun _ => some h) (votes.filterMap PartialCert.signature) = signers votes := by
  ext i
  rw [mem_validSigners,signers,List.mem_toFinset,List.mem_filterMap]
  constructor
  · rintro ⟨g,hg,-,rfl⟩
    obtain ⟨c,hc,hcg⟩ := List.mem_filterMap.mp hg
    exact ⟨c,hc,by rw [hcg]; rfl⟩
  · rintro ⟨c,hc,hi⟩
    obtain ⟨hh,hv⟩ := hall c hc
    rw [verifyPartialCert,hh] at hv
    unfold verify at hv
    split at hv
    · rename_i g hg
      rw [hg] at hi
      exact ⟨g,List.mem_filterMap.mpr ⟨c,hc,hg⟩,hv,Option.some.inj hi⟩
    · cases hv

theorem quorum_pos_of_vote {c : PartialCert} (h : S.verifyPartialCert c = true) : 0 < S.quorum := by
  rw [verifyPartialCert] at h
  unfold verify at h
  split at h
  · rename_i g _
    rw [verifyEcdsa,Bool.and_eq_true,decide_eq_true_eq] at h
    exact S.quorum_pos ⟨g.signer,h.1⟩
  · cases h

theorem createQuorumCert_hash {block : Block} {certs : List PartialCert} {qc : QuorumCert}
    (h : S.createQuorumCert block certs = .ok qc) : qc.hash = block.hash S := by
  rw [createQuorumCert] at h
  split_ifs at h with hg
  · cases h
    exact hg.symm
  · split at h
    · cases h
      rfl
    · cases h

end Setup

namespace Replica
variable (S : Setup) (R : RuleSet)

def verified (s : Replica) : Event → Option PartialCert
  | .verifyCert k => if s.halted then none else (s.pending[k]?.map Prod.fst).filter S.verifyPartialCert
  | _ => none

def verifiedIn : Replica → List (Env × Event) → List PartialCert
  | _, [] => []
  | s, e :: l => (verified S s e.2).toList ++ verifiedIn (handle S R e.1 e.2 s) l

variable {S R} {env : Env}

theorem verifiedIn_snoc (s : Replica) (l : List (Env × Event)) (e : Env × Event) :
    verifiedIn S R s (l ++ [e]) = verifiedIn S R s l ++ (verified S (run S R s l) e.2).toList := by
  induction l generalizing s with
  | nil => simp [verifiedIn,run]
  | cons e' l ih =>
    rw [List.cons_append,verifiedIn,verifiedIn,ih,List.append_assoc]
    rfl

structure Apart (s t : Replica) : Prop where
  verifiedVotes : t.verifiedVotes = s.verifiedVotes
  pending : t.pending = s.pending
  log : ∀ qc, .newViewEvent qc ∈ t.log ↔ .newViewEvent qc ∈ s.log

namespace Apart
variable {s t u : Replica}

theorem refl (s : Replica) : Apart s s := ⟨rfl,rfl,fun _ => .rfl⟩

theorem trans (h : Apart s t) (h' : Apart t u) : Apart s u :=
  ⟨h'.verifiedVotes.trans h.verifiedVotes,h'.pending.trans h.pending,fun qc => (h'.log qc).trans (h.log qc)⟩

private theorem of_append {l : List Effect} (hv : t.verifiedVotes = s.verifiedVotes) (hp : t.pending = s.pending)
    (hl : t.log = l ++ s.log) (hin : ∀ qc, .newViewEvent qc ∉ l) : Apart s t := by
  refine ⟨hv,hp,fun qc => ?_⟩
  rw [hl,List.mem_append]
  exact or_iff_right (hin qc)

theorem of_gathers (h : Gathers s t) : Apart s t := by
  obtain ⟨l,hl,hin⟩ := h.log
  refine of_append h.verifiedVotes h.pending hl fun qc hqc => ?_
  cases (hin _ hqc).1

private theorem sendTimeout (m : TimeoutMsg) (s : Replica) : Apart s (sendTimeout S R env m s) := by
  rw [Replica.sendTimeout]
  refine Apart.trans ?_ (.of_gathers (onRemoteTimeout_gathers m _))
  exact of_append (l := [.sendTimeout m]) rfl rfl rfl (by simp)

private theorem newTimeout (s : Replica) : Apart s (newTimeout S R env s) := by
  obtain ⟨n,l,hl,hcase⟩ := newTimeout_cases (fun _ => True) S R env s
  have hsign : Apart s (s.afterSigning n l) := of_append rfl rfl rfl fun qc hqc => by cases hl _ hqc
  rcases hcase with ⟨he,-⟩ | ⟨m,-,-,he,-⟩
  · exact he ▸ hsign
  · exact he ▸ hsign.trans (sendTimeout m _)

private theorem onLocalTimeout (s : Replica) : Apart s (onLocalTimeout S R env s) := by
  rw [Replica.onLocalTimeout,onLocalTimeoutWith]
  split
  · split_ifs
    · exact of_append (l := [.sendTimeout _]) rfl rfl rfl (by simp)
    · exact newTimeout s
  · exact newTimeout s

end Apart

/-- Of the events only votes and their verification matter. -/
theorem handle_apart (s : Replica) {ev : Event} (hv : ∀ m, ev ≠ .vote m) (hc : ∀ k, ev ≠ .verifyCert k) :
    Apart s (handle S R env ev s) := by
  have inside {t : Replica} (h : Inside s t) : Apart s t := .of_gathers (.of_inside h)
  rw [handle.eq_def]
  split_ifs
  · exact inside (.refl s)
  cases ev with
  | start => exact inside (start_inside s)
  | propose p => exact inside (onPropose_inside _ p s)
  | newView m => exact inside (advanceView_inside _ _ s)
  | timeout m => exact .of_gathers (onRemoteTimeout_gathers m s)
  | localTimeout => exact Apart.onLocalTimeout s
  | vote m => exact absurd rfl (hv m)
  | verifyCert k => exact absurd rfl (hc k)

variable (S) in
/-- A valid vote is kept, and a certificate takes all votes for its hash. -/
theorem verifyCert_cases {c : PartialCert} (hv : S.verifyPartialCert c = true) (block : Block) (s : Replica) :
    (verifyCert S c block s = dropOldVotes { s with verifiedVotes := s.verifiedVotes ++ [c] } ∧
      ((votesFor c.blockHash (s.verifiedVotes ++ [c])).length < S.quorum ∨
        ∃ e, S.createQuorumCert block (votesFor c.blockHash (s.verifiedVotes ++ [c])) = .error e)) ∨
    ∃ qc, S.createQuorumCert block (votesFor c.blockHash (s.verifiedVotes ++ [c])) = .ok qc ∧
      verifyCert S c block s = dropOldVotes { s with
        verifiedVotes := (s.verifiedVotes ++ [c]).filter (fun c' => c'.blockHash ≠ c.blockHash),
        log := .newViewEvent qc :: s.log } := by
  unfold verifyCert
  rw [if_neg (by simp [hv])]
  dsimp only
  rw [← votesFor]
  split_ifs with hq
  · exact .inl ⟨rfl,.inl hq⟩
  · cases hc : S.createQuorumCert block (votesFor c.blockHash (s.verifiedVotes ++ [c])) with
    | error e => exact .inl ⟨rfl,.inr ⟨e,rfl⟩⟩
    | ok qc => exact .inr ⟨qc,rfl,rfl⟩

/-- The voting machine has made a certificate for the block. -/
def Certified (S : Setup) (B : Block) (s : Replica) : Prop := ∃ qc, .newViewEvent qc ∈ s.log ∧ qc.hash = B.hash S

/-- What the votes verified so far have led to: none for the block is lost until there is a certificate. -/
structure Tally (S : Setup) (B : Block) (votes : List PartialCert) (s : Replica) : Prop where
  pending : ∀ e ∈ s.pending, e.1.blockHash = B.hash S ∨ e.2.hash S = B.hash S →
    e.1.blockHash = B.hash S ∧ e.2 = B ∧ s.localGet (B.hash S) = some B
  valid : ∀ c ∈ votes, S.verifyPartialCert c = true
  stored : votesFor (B.hash S) votes ≠ [] → s.localGet (B.hash S) = some B
  waiting : ¬ Certified S B s → votesFor (B.hash S) s.verifiedVotes = votesFor (B.hash S) votes ∧
    ((signers (votesFor (B.hash S) votes)).card < S.quorum ∨ votesFor (B.hash S) votes = [])
  certified : ∀ qc, .newViewEvent qc ∈ s.log → qc.hash = B.hash S →
    qc.view = B.view ∧ S.verifyQuorumCert qc = true ∧
      S.quorum ≤ (signers (votesFor (B.hash S) votes)).card ∧ votesFor (B.hash S) votes ≠ []

namespace Tally
variable {B : Block} {votes : List PartialCert} {s t : Replica}

theorem init (id : ID) : Tally S B [] (init S id) where
  pending := by simp [Replica.init]
  valid := by simp
  stored h := absurd rfl h
  waiting _ := ⟨rfl,.inr rfl⟩
  certified := by simp [Replica.init]

theorem apart (h : Tally S B votes s) (ha : Apart s t)
    (hstore : s.localGet (B.hash S) = some B → t.localGet (B.hash S) = some B) : Tally S B votes t where
  pending e he hB := by
    rw [ha.pending] at he
    obtain ⟨hc,hb,hs⟩ := h.pending e he hB
    exact ⟨hc,hb,hstore hs⟩
  valid := h.valid
  stored hne := hstore (h.stored hne)
  waiting hn := by
    rw [ha.verifiedVotes]
    exact h.waiting fun ⟨qc,hqc,hh⟩ => hn ⟨qc,(ha.log qc).mpr hqc,hh⟩
  certified qc hqc := h.certified qc ((ha.log qc).mp hqc)

/-- A verification is started with the block that is stored under the vote's hash. -/
private theorem spawn (h : Tally S B votes s) (hf : Filed S s) (hB : B.hash S = S.genesisHash → B = genesis)
    (hpos : 0 < B.view) (hold : ∀ b, s.localGet (B.hash S) = some b → b = B) {c : PartialCert} {b : Block}
    (hb : s.localGet c.blockHash = some b) : Tally S B votes { s with pending := s.pending ++ [(c,b)] } where
  pending e he hBe := by
    rcases List.mem_append.mp he with he | he
    · exact h.pending e he hBe
    · cases List.mem_singleton.mp he
      have hc : c.blockHash = B.hash S := by
        rcases hBe with hc | hh
        · exact hc
        · rcases hf _ (localGet_mem hb) with hown | hgen
          · exact hown.symm.trans hh
          · dsimp only at hh hgen
            rw [hgen] at hh
            rw [hB hh.symm] at hpos
            cases UInt64.lt_irrefl _ hpos
      rw [hc] at hb
      obtain rfl := hold b hb
      exact ⟨hc,rfl,hb⟩
  valid := h.valid
  stored := h.stored
  waiting := h.waiting
  certified := h.certified

/-- A verification has been taken from the list. -/
private theorem take (h : Tally S B votes s) (k : Nat) : Tally S B votes { s with pending := s.pending.eraseIdx k } :=
  ⟨fun e he => h.pending e (List.mem_of_mem_eraseIdx he),h.valid,h.stored,h.waiting,h.certified⟩

private theorem dropOldVotes (h : Tally S B votes s) (hleaf : s.leafBlock.view < B.view) :
    Tally S B votes s.dropOldVotes where
  pending := h.pending
  valid := h.valid
  stored := h.stored
  waiting hn := by
    obtain ⟨hv,hq⟩ := h.waiting hn
    refine ⟨?_,hq⟩
    rw [← hv,votesFor,votesFor,Replica.dropOldVotes,List.filter_filter]
    refine List.filter_congr fun c hc => ?_
    by_cases hcB : c.blockHash = B.hash S
    · have hs := h.stored (hv ▸ List.ne_nil_of_mem (mem_votesFor.mpr ⟨hc,hcB⟩))
      simp [hcB,hs,hleaf]
    · simp [hcB]
  certified := h.certified

private theorem certified_mono (h : Tally S B votes s) (c : PartialCert) {qc : QuorumCert}
    (hqc : .newViewEvent qc ∈ s.log) (hh : qc.hash = B.hash S) :
    qc.view = B.view ∧ S.verifyQuorumCert qc = true ∧
      S.quorum ≤ (signers (votesFor (B.hash S) (votes ++ [c]))).card ∧ votesFor (B.hash S) (votes ++ [c]) ≠ [] := by
  obtain ⟨hview,hver,hq,hne⟩ := h.certified qc hqc hh
  rw [votesFor_append]
  exact ⟨hview,hver,hq.trans (Finset.card_le_card (signers_mono (List.subset_append_left _ _))),
    List.append_ne_nil_of_left_ne_nil hne _⟩

section Verify
variable {c : PartialCert} (hv : S.verifyPartialCert c = true)
include hv

private theorem valid_snoc (h : Tally S B votes s) : ∀ c' ∈ votes ++ [c], S.verifyPartialCert c' = true := by
  intro c' hc'
  rcases List.mem_append.mp hc' with hc' | hc'
  · exact h.valid c' hc'
  · exact List.mem_singleton.mp hc' ▸ hv

/-- Votes for other blocks do not count. -/
private theorem other (h : Tally S B votes s) (hc : c.blockHash ≠ B.hash S) {l : List PartialCert} {log : List Effect}
    (hl : votesFor (B.hash S) l = votesFor (B.hash S) s.verifiedVotes)
    (hlog : ∀ qc, qc.hash = B.hash S → (.newViewEvent qc ∈ log ↔ .newViewEvent qc ∈ s.log)) :
    Tally S B (votes ++ [c]) { s with verifiedVotes := l, log := log } := by
  have hsame : votesFor (B.hash S) (votes ++ [c]) = votesFor (B.hash S) votes := by
    rw [votesFor_append,votesFor_singleton_of_ne hc,List.append_nil]
  refine ⟨h.pending,h.valid_snoc hv,?_,fun hn => ?_,fun qc hqc hh => ?_⟩
  · rw [hsame]
    exact h.stored
  · rw [hsame]
    dsimp only
    rw [hl]
    exact h.waiting fun ⟨qc,hqc,hh⟩ => hn ⟨qc,(hlog qc hh).mpr hqc,hh⟩
  · rw [hsame]
    exact h.certified qc ((hlog qc hh).mp hqc) hh

variable (hB : B.hash S ≠ S.genesisHash)
include hB

/-- As long as there is no certificate the votes for the block are all there, and a quorum would make one. -/
private theorem quorum_iff (h : Tally S B votes s) (hn : ¬ Certified S B s) :
    (∃ qc, S.createQuorumCert B (votesFor (B.hash S) (s.verifiedVotes ++ [c])) = .ok qc) ↔
      S.quorum ≤ (signers (votesFor (B.hash S) (votes ++ [c]))).card := by
  rw [votesFor_append,(h.waiting hn).1,← votesFor_append,Setup.createQuorumCert_ok_iff hB,Setup.validSigners_votes]
  intro c' hc'
  obtain ⟨hc',hh⟩ := mem_votesFor.mp hc'
  exact ⟨hh,h.valid_snoc hv c' hc'⟩

variable (hs : s.localGet (B.hash S) = some B)
include hs

private theorem count (h : Tally S B votes s)
    (hno : (votesFor (B.hash S) (s.verifiedVotes ++ [c])).length < S.quorum ∨
      ∃ e, S.createQuorumCert B (votesFor (B.hash S) (s.verifiedVotes ++ [c])) = .error e) :
    Tally S B (votes ++ [c]) { s with verifiedVotes := s.verifiedVotes ++ [c] } := by
  refine ⟨h.pending,h.valid_snoc hv,fun _ => hs,fun hn => ?_,fun qc hqc hh => h.certified_mono c hqc hh⟩
  have hsame : votesFor (B.hash S) (s.verifiedVotes ++ [c]) = votesFor (B.hash S) (votes ++ [c]) := by
    rw [votesFor_append,(h.waiting hn).1,← votesFor_append]
  refine ⟨hsame,.inl ?_⟩
  rcases hno with hlen | ⟨e,he⟩
  · exact (card_signers_le _).trans_lt (hsame ▸ hlen)
  · by_contra hq
    obtain ⟨qc,hqc⟩ := (h.quorum_iff hv hB hn).mpr (Nat.not_lt.mp hq)
    rw [he] at hqc
    cases hqc

private theorem certify (h : Tally S B votes s) (hc : c.blockHash = B.hash S) {qc : QuorumCert}
    (hqc : S.createQuorumCert B (votesFor (B.hash S) (s.verifiedVotes ++ [c])) = .ok qc) (l : List PartialCert) :
    Tally S B (votes ++ [c]) { s with verifiedVotes := l, log := .newViewEvent qc :: s.log } := by
  obtain ⟨hh,hview,hver⟩ := Setup.createQuorumCert_ok hB hqc
  refine ⟨h.pending,h.valid_snoc hv,fun _ => hs,fun hn => ?_,fun qc' hqc' hh' => ?_⟩
  · exact absurd ⟨qc,List.mem_cons_self,hh⟩ hn
  · rcases List.mem_cons.mp hqc' with he | hqc'
    · cases he
      by_cases hn : Certified S B s
      · obtain ⟨old,hold,hhold⟩ := hn
        exact ⟨hview,hver,(h.certified_mono c hold hhold).2.2⟩
      · refine ⟨hview,hver,(h.quorum_iff hv hB hn).mp ⟨_,hqc⟩,?_⟩
        exact List.ne_nil_of_mem (mem_votesFor.mpr ⟨List.mem_append_right _ (List.mem_singleton_self c),hc⟩)
    · exact h.certified_mono c hqc' hh'

end Verify

/-- A verification of a valid vote. -/
private theorem verifyCert (h : Tally S B votes s) {c : PartialCert} {block : Block}
    (hv : S.verifyPartialCert c = true) (hB : B.hash S ≠ S.genesisHash) (hleaf : s.leafBlock.view < B.view)
    (hblock : c.blockHash = B.hash S ∨ block.hash S = B.hash S →
      c.blockHash = B.hash S ∧ block = B ∧ s.localGet (B.hash S) = some B) :
    Tally S B (votes ++ [c]) (verifyCert S c block s) := by
  by_cases hc : c.blockHash = B.hash S
  · obtain ⟨-,rfl,hs⟩ := hblock (.inl hc)
    rcases verifyCert_cases S hv block s with ⟨he,hno⟩ | ⟨qc,hqc,he⟩
    · rw [hc] at hno
      exact he ▸ (h.count hv hB hs hno).dropOldVotes hleaf
    · rw [hc] at hqc
      exact he ▸ (h.certify hv hB hs hc hqc _).dropOldVotes hleaf
  · rcases verifyCert_cases S hv block s with ⟨he,-⟩ | ⟨qc,hqc,he⟩
    · have hl : votesFor (B.hash S) (s.verifiedVotes ++ [c]) = votesFor (B.hash S) s.verifiedVotes := by
        rw [votesFor_append,votesFor_singleton_of_ne hc,List.append_nil]
      exact he ▸ (h.other hv hc hl fun _ _ => .rfl).dropOldVotes hleaf
    · have hl : votesFor (B.hash S) ((s.verifiedVotes ++ [c]).filter fun c' => c'.blockHash ≠ c.blockHash) =
          votesFor (B.hash S) s.verifiedVotes := by
        rw [votesFor_filter_ne hc,votesFor_append,votesFor_singleton_of_ne hc,List.append_nil]
      have hother (qc' : QuorumCert) (hh : qc'.hash = B.hash S) :
          .newViewEvent qc' ∈ Effect.newViewEvent qc :: s.log ↔ .newViewEvent qc' ∈ s.log := by
        refine List.mem_cons.trans (or_iff_right fun heq => ?_)
        cases heq
        exact hc (hblock (.inr ((Setup.createQuorumCert_hash hqc).symm.trans hh))).1
      exact he ▸ (h.other hv hc hl hother).dropOldVotes hleaf

end Tally

/-- A vote is put off, dropped, or verified for the block that is stored under its hash. -/
theorem onVote_cases (S : Setup) (env : Env) (m : VoteMsg) (s : Replica) : ∃ u, Apart s u ∧
    (onVote S env m s = u ∨ ∃ b, u.localGet m.cert.blockHash = some b ∧
      onVote S env m s = { u with pending := u.pending ++ [(m.cert,b)] }) := by
  have spawn {u : Replica} {b : Block} (hb : u.localGet m.cert.blockHash = some b) :
      u.spawnVerify m.cert b = u ∨ ∃ b', u.localGet m.cert.blockHash = some b' ∧
        u.spawnVerify m.cert b = { u with pending := u.pending ++ [(m.cert,b')] } := by
    rw [spawnVerify]
    split_ifs
    · exact .inl rfl
    · exact .inr ⟨b,hb,rfl⟩
  rw [onVote]
  split_ifs
  · have apart {t : Replica} (hf : Fetched S env s t) : Apart s t := .of_gathers (.of_inside hf.inside)
    rcases hg : get S env m.cert.blockHash s with ⟨_ | b,t⟩
    · exact ⟨t,apart (get_eq hg).1,.inl rfl⟩
    · exact ⟨t,apart (get_eq hg).1,spawn (get_eq hg).2.1⟩
  · split
    · have hlog : Apart s (s.emit (.delayVote { m with deferred := true })) :=
        .of_append (l := [_]) rfl rfl rfl (by simp)
      exact ⟨_,hlog,.inl rfl⟩
    · rename_i b hb
      exact ⟨s,.refl s,spawn hb⟩

private theorem Tally.handleVerify {B : Block} {votes : List PartialCert} {s : Replica} (h : Tally S B votes s)
    (hs : ¬ s.halted = true) (hgen : B.hash S ≠ S.genesisHash) (hleaf : s.leafBlock.view < B.view) (k : Nat) :
    Tally S B (votes ++ (verified S s (.verifyCert k)).toList) (Replica.handle S R env (.verifyCert k) s) := by
  rw [Replica.handle.eq_def,if_neg hs]
  unfold verified
  dsimp only
  rw [if_neg hs]
  cases hk : s.pending[k]? with
  | none => simpa using h
  | some e =>
    obtain ⟨c,block⟩ := e
    cases hv : S.verifyPartialCert c with
    | false =>
      have hdrop : Replica.verifyCert S c block { s with pending := s.pending.eraseIdx k } =
          { s with pending := s.pending.eraseIdx k } := if_pos hv
      simpa [Option.filter,hv,hdrop] using h.take k
    | true =>
      have hblock := h.pending (c,block) (List.mem_of_getElem? hk)
      simpa [Option.filter,hv] using (h.take k).verifyCert hv hgen hleaf hblock

/-- One event, as long as the block is the one stored under its hash and above the leaf. -/
theorem Tally.handle {B : Block} {votes : List PartialCert} {s : Replica} (h : Tally S B votes s) (hf : Filed S s)
    (hB : B.hash S = S.genesisHash → B = genesis) (hleaf : s.leafBlock.view < B.view) (ev : Event)
    (hold : ∀ b, (handle S R env ev s).localGet (B.hash S) = some b → b = B) :
    Tally S B (votes ++ (verified S s ev).toList) (handle S R env ev s) := by
  have hpos : 0 < B.view := UInt64.lt_of_le_of_lt (UInt64.zero_le) hleaf
  have hgen : B.hash S ≠ S.genesisHash := by
    intro he
    rw [hB he] at hpos
    cases UInt64.lt_irrefl _ hpos
  have hgrow : Filed S (Replica.handle S R env ev s) := (handle_micro ev s).filed hf
  have hstore (hs : s.localGet (B.hash S) = some B) :
      (Replica.handle S R env ev s).localGet (B.hash S) = some B := by
    obtain ⟨b,hb⟩ := localGet_of_suffix (handle_micro ev s).grows.2.1 hs
    rwa [hold b hb] at hb
  by_cases hs : s.halted = true
  · have hnone : verified S s ev = none := by
      cases ev <;> simp [verified,hs]
    rw [handle_halted hs,hnone,Option.toList_none,List.append_nil]
    exact h
  -- all other events leave the votes and the pending verifications alone
  cases ev with
  | vote m =>
    rw [show verified S s (.vote m) = none from rfl,Option.toList_none,List.append_nil]
    rw [Replica.handle.eq_def,if_neg hs] at hold hgrow hstore ⊢
    dsimp only at hold hgrow hstore ⊢
    obtain ⟨u,hu,he | ⟨b,hb,he⟩⟩ := onVote_cases S env m s
    · rw [he] at hstore ⊢
      exact h.apart hu hstore
    · rw [he] at hold hgrow hstore ⊢
      exact (h.apart hu hstore).spawn hgrow hB hpos hold hb
  | verifyCert k => exact h.handleVerify hs hgen hleaf k
  | _ =>
    rw [show verified S s _ = none from rfl,Option.toList_none,List.append_nil]
    exact h.apart (handle_apart s (by simp) (by simp)) hstore

theorem run_tally (id : ID) {B : Block} (hB : B.hash S = S.genesisHash → B = genesis) (l : List (Env × Event))
    (hold : ∀ l', l' <+: l → ∀ b, (run S R (init S id) l').localGet (B.hash S) = some b → b = B)
    (hleaf : ∀ l', l' <+: l → (run S R (init S id) l').leafBlock.view < B.view) :
    Tally S B (verifiedIn S R (init S id) l) (run S R (init S id) l) := by
  induction l using List.reverseRecOn with
  | nil => exact .init id
  | append_singleton l e ih =>
    have hpre : l <+: l ++ [e] := List.prefix_append _ _
    have hl := ih (fun l' hl' => hold l' (hl'.trans hpre)) fun l' hl' => hleaf l' (hl'.trans hpre)
    have hnext := hold _ List.prefix_rfl
    rw [run_append] at hnext ⊢
    rw [verifiedIn_snoc]
    exact hl.handle (run_filed (filed_init id) l) hB (hleaf l hpre) e.2 hnext

variable (S R) in
def voters (id : ID) (B : Block) (l : List (Env × Event)) : Finset ID :=
  signers (votesFor (B.hash S) (verifiedIn S R (init S id) l))

variable (S R) in
/-- The first certificate for a block is made exactly by the event in which the number of replicas with
a verified vote for it reaches the quorum, and all certificates for it are accepted. -/
theorem certified_at_quorum (id : ID) {B : Block} (hB : B.hash S = S.genesisHash → B = genesis)
    (l : List (Env × Event))
    (hold : ∀ l', l' <+: l → ∀ b, (run S R (init S id) l').localGet (B.hash S) = some b → b = B)
    (hleaf : ∀ l', l' <+: l → (run S R (init S id) l').leafBlock.view < B.view) :
    (∀ l' e, l' ++ [e] <+: l →
      (¬ Certified S B (run S R (init S id) l') ∧ Certified S B (run S R (init S id) (l' ++ [e])) ↔
        (voters S R id B l').card < S.quorum ∧ S.quorum ≤ (voters S R id B (l' ++ [e])).card)) ∧
    ∀ qc, .newViewEvent qc ∈ (run S R (init S id) l).log → qc.hash = B.hash S →
      qc.view = B.view ∧ S.verifyQuorumCert qc = true := by
  have tally (l' : List (Env × Event)) (hl' : l' <+: l) :=
    run_tally id hB l' (fun l'' h => hold l'' (h.trans hl')) fun l'' h => hleaf l'' (h.trans hl')
  refine ⟨fun l' e hl' => ?_,fun qc hqc hh => ?_⟩
  · have before := tally l' ((List.prefix_append _ _).trans hl')
    have after := tally (l' ++ [e]) hl'
    constructor
    · rintro ⟨hn,qc,hqc,hh⟩
      obtain ⟨-,-,hq,hne⟩ := after.certified qc hqc hh
      refine ⟨?_,hq⟩
      rcases (before.waiting hn).2 with hlt | hnil
      · exact hlt
      · obtain ⟨c,hc⟩ := List.exists_mem_of_ne_nil _ hne
        rw [voters,hnil]
        exact Setup.quorum_pos_of_vote (after.valid c (mem_votesFor.mp hc).1)
    · rintro ⟨hlt,hge⟩
      refine ⟨fun ⟨qc,hqc,hh⟩ => absurd hlt (Nat.not_lt.mpr (before.certified qc hqc hh).2.2.1),?_⟩
      by_contra hn
      rcases (after.waiting hn).2 with hfew | hnil
      · exact absurd hge (Nat.not_le.mpr hfew)
      · rw [voters,hnil] at hge
        exact absurd hlt (Nat.not_lt.mpr (hge.trans (Nat.zero_le _)))
  · obtain ⟨hview,hver,-⟩ := (tally l List.prefix_rfl).certified qc hqc hh
    exact ⟨hview,hver⟩

end Replica

namespace Sample
open Replica

private def voteFrom (i : ID) : VoteMsg :=
  ⟨i,⟨some (.ecdsa ⟨i.toNat,(ahead.hash setup).toNat,i⟩),ahead.hash setup⟩,false⟩

private def voteRun : List (Env × Event) :=
  [.propose ⟨4,ahead,none⟩,.vote (voteFrom 2),.vote (voteFrom 2),.vote (voteFrom 3),.verifyCert 0,.verifyCert 1,
    .vote (voteFrom 4),.verifyCert 0].map fun ev => (env 1 [],ev)

private def lastVerify : Env × Event := (env 1 [],.verifyCert 0)

theorem certified_at_quorum_third :
    ¬ Certified setup ahead (run setup .chained (init setup 1) voteRun) ∧
      Certified setup ahead (run setup .chained (init setup 1) (voteRun ++ [lastVerify])) := by
  have hall : (voteRun ++ [lastVerify]).inits.all (fun l =>
      ((run setup .chained (init setup 1) l).localGet (ahead.hash setup)).all (· = ahead) ∧
        (run setup .chained (init setup 1) l).leafBlock.view < ahead.view) = true := by decide +kernel
  have each (l : List (Env × Event)) (hl : l <+: voteRun ++ [lastVerify]) :=
    List.all_eq_true.mp hall l ((List.mem_inits _ _).mpr hl)
  refine ((certified_at_quorum setup .chained 1 (B := ahead) (fun h => ?_) (voteRun ++ [lastVerify])
    (fun l hl b hb => ?_) fun l hl => ?_).1 voteRun _ List.prefix_rfl).mpr (by decide +kernel)
  · exact absurd h (by decide +kernel)
  · simpa [hb] using (of_decide_eq_true (each l hl)).1
  · exact (of_decide_eq_true (each l hl)).2

end Sample
end Hotstuff
