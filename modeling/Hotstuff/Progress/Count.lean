import Hotstuff.Progress.Handle
import Hotstuff.Replica.Votes

/-! A leader that collects the votes for its block one by one, and the certificate it makes of a quorum of them. -/
namespace Hotstuff
namespace Replica
variable {S : Setup} {R : RuleSet} {env : Env} {s : Replica} {l : List Block} {a b : Block}

/-- Just the votes of the replicas `js` for the newest block have been verified. -/
structure Counting (S : Setup) (R : RuleSet) (b a : Block) (l : List Block) (js : List ID) (s : Replica) : Prop where
  knows : Knows S (b :: a :: l) s
  executes : Executes (b :: a :: l) (R.settled (b :: a :: l)) s
  leaf : s.leafBlock = a
  valid : ∀ c ∈ s.verifiedVotes, c.blockHash = b.hash S ∧ S.verifyPartialCert c = true
  voters : s.verifiedVotes.map (fun c => c.signature.map Signature.signer) = js.map some
  pending : s.pending = []

def countVote (S : Setup) (R : RuleSet) (env : Env) (m : VoteMsg) (s : Replica) : Replica :=
  handle S R env (.verifyCert 0) (handle S R env (.vote m) s)

namespace Counting
variable {js : List ID} {j : ID} {c : PartialCert}

private theorem countVote_eq (h : Counting S R b a l js s) (hl : Lineage S (b :: a :: l)) (hc : c.Counts S b j) :
    countVote S R env ⟨j,c,false⟩ s = verifyCert S c b s := by
  have hget : s.localGet c.blockHash = some b := hc.hash ▸ h.knows.stored b List.mem_cons_self
  have habove : ¬ b.view ≤ s.leafBlock.view := UInt64.not_le.mpr (h.leaf ▸ hl.lt_of_mem List.mem_cons_self)
  have hvote : handle S R env (.vote ⟨j,c,false⟩) s = { s with pending := [(c,b)] } := by
    rw [handle,if_neg (by simp [h.knows.halted])]
    dsimp only [onVote]
    rw [if_neg (by simp),hget]
    dsimp only [spawnVerify]
    rw [if_neg habove,h.pending]
    rfl
  have hpending : { s with pending := [] } = s := by rw [← h.pending]
  rw [countVote,hvote,handle,if_neg (by simp [h.knows.halted])]
  dsimp only [List.getElem?_cons_zero,List.eraseIdx_cons_zero]
  rw [hpending]

/-- What is known of the votes once one more has been verified. -/
private theorem votes_snoc (h : Counting S R b a l js s) (hc : c.Counts S b j) :
    (∀ x ∈ s.verifiedVotes ++ [c], x.blockHash = b.hash S ∧ S.verifyPartialCert x = true) ∧
      (s.verifiedVotes ++ [c]).map (fun c => c.signature.map Signature.signer) = (js ++ [j]).map some := by
  constructor
  · intro x hx
    rcases List.mem_append.mp hx with hx | hx
    · exact h.valid x hx
    · rw [List.mem_singleton.mp hx]
      exact ⟨hc.hash,hc.valid⟩
  · rw [List.map_append,List.map_append,h.voters,List.map_singleton,hc.signer]
    rfl

private theorem votesFor_eq (h : Counting S R b a l js s) (hc : c.Counts S b j) :
    votesFor c.blockHash (s.verifiedVotes ++ [c]) = s.verifiedVotes ++ [c] := by
  rw [votesFor,List.filter_eq_self]
  intro x hx
  exact decide_eq_true (((h.votes_snoc hc).1 x hx).1.trans hc.hash.symm)

/-- Votes for a block above the leaf are not dropped. -/
private theorem dropOldVotes_eq {t : Replica} (hk : Knows S (b :: a :: l) t) (hl : Lineage S (b :: a :: l))
    (hleaf : t.leafBlock = a) (hv : ∀ x ∈ t.verifiedVotes, x.blockHash = b.hash S) : t.dropOldVotes = t := by
  have hall : t.dropOldVotes.verifiedVotes = t.verifiedVotes := by
    refine List.filter_eq_self.mpr fun x hx => ?_
    rw [hv x hx,hk.stored b List.mem_cons_self]
    exact decide_eq_true (UInt64.not_le.mpr (hleaf ▸ hl.lt_of_mem List.mem_cons_self))
  exact congrArg (fun v => { t with verifiedVotes := v }) hall

/-- The genesis hash is not that of a later block of the chain. -/
private theorem ne_genesisHash (hl : Lineage S (b :: a :: l)) : b.hash S ≠ S.genesisHash :=
  (hl.fresh hl.tail.genesis_mem).symm

private theorem card_signers {votes : List PartialCert} (hjs : js.Nodup)
    (h : votes.map (fun c => c.signature.map Signature.signer) = js.map some) : (signers votes).card = js.length := by
  have hmap : votes.filterMap (fun c => c.signature.map Signature.signer) = js := by
    have hall := congrArg (List.filterMap fun x => x) h
    rw [List.filterMap_map,List.filterMap_map] at hall
    exact hall.trans (List.filterMap_some)
  rw [signers,hmap]
  exact List.toFinset_card_of_nodup hjs

/-- Fewer votes than a quorum are kept. -/
theorem more (h : Counting S R b a l js s) (env : Env) (hl : Lineage S (b :: a :: l)) (hc : c.Counts S b j)
    (hq : js.length + 1 < S.quorum) : countVote S R env ⟨j,c,false⟩ s = { s with verifiedVotes := s.verifiedVotes ++ [c] } ∧
      Counting S R b a l (js ++ [j]) (countVote S R env ⟨j,c,false⟩ s) := by
  obtain ⟨hvalid,hvoters⟩ := h.votes_snoc hc
  have hlen : (s.verifiedVotes ++ [c]).length = js.length + 1 := by
    simpa using congrArg List.length hvoters
  have heq : countVote S R env ⟨j,c,false⟩ s = { s with verifiedVotes := s.verifiedVotes ++ [c] } := by
    rw [h.countVote_eq hl hc]
    rcases verifyCert_cases S hc.valid b s with ⟨he,-⟩ | ⟨qc,hqc,-⟩
    · rw [he]
      exact dropOldVotes_eq h.knows.frame hl h.leaf fun x hx => (hvalid x hx).1
    · rw [h.votesFor_eq hc] at hqc
      have := (Setup.createQuorumCert_ok_iff (ne_genesisHash hl)).mp ⟨qc,hqc⟩
      rw [Setup.validSigners_votes hvalid] at this
      have := card_signers_le (s.verifiedVotes ++ [c])
      omega
  refine ⟨heq,?_⟩
  rw [heq]
  exact ⟨h.knows.frame,h.executes.frame rfl,h.leaf,hvalid,hvoters,h.pending⟩

/-- The last vote of a quorum makes the certificate. -/
theorem last (h : Counting S R b a l js s) (hl : Lineage S (b :: a :: l)) (hc : c.Counts S b j)
    (hq : js.length + 1 = S.quorum) (hjs : (js ++ [j]).Nodup) : ∃ qc : QuorumCert, qc.Certifies S b ∧
      countVote S R env ⟨j,c,false⟩ s = { s with verifiedVotes := [], log := .newViewEvent qc :: s.log } := by
  obtain ⟨hvalid,hvoters⟩ := h.votes_snoc hc
  have hcard : (signers (s.verifiedVotes ++ [c])).card = js.length + 1 := by
    simpa using card_signers hjs hvoters
  have hlen : (s.verifiedVotes ++ [c]).length = js.length + 1 := by
    simpa using congrArg List.length hvoters
  rw [h.countVote_eq hl hc]
  rcases verifyCert_cases S hc.valid b s with ⟨-,hno⟩ | ⟨qc,hqc,he⟩
  · rw [h.votesFor_eq hc] at hno
    rcases hno with hlt | ⟨e,hno⟩
    · omega
    · have hok : S.quorum ≤ (S.validSigners (fun _ => some (b.hash S))
          ((s.verifiedVotes ++ [c]).filterMap PartialCert.signature)).card := by
        rw [Setup.validSigners_votes hvalid,hcard,hq]
      obtain ⟨qc,hqc⟩ := (Setup.createQuorumCert_ok_iff (ne_genesisHash hl)).mpr hok
      cases hqc.symm.trans hno
  · rw [h.votesFor_eq hc] at hqc
    obtain ⟨hhash,hview,hvalid'⟩ := Setup.createQuorumCert_ok (ne_genesisHash hl) hqc
    refine ⟨qc,⟨hhash,hview,hvalid'⟩,he.trans ?_⟩
    have hnone : (s.verifiedVotes ++ [c]).filter (fun c' => c'.blockHash ≠ c.blockHash) = [] := by
      rw [List.filter_eq_nil_iff]
      intro x hx
      simpa using ((hvalid x hx).1.trans hc.hash.symm)
    rw [hnone]
    rfl

/-- A quorum of votes, one by one, makes the certificate. -/
theorem quorum {ms : List VoteMsg} (h : Counting S R b a l js s) (env : Env) (hl : Lineage S (b :: a :: l))
    (hms : ∀ m ∈ ms, m.deferred = false ∧ m.cert.Counts S b m.id) (hne : ms ≠ [])
    (hq : js.length + ms.length = S.quorum) (hjs : (js ++ ms.map VoteMsg.id).Nodup) :
    ∃ qc : QuorumCert, qc.Certifies S b ∧ ms.foldl (fun s m => countVote S R env m s) s =
      { s with verifiedVotes := [], log := .newViewEvent qc :: s.log } := by
  induction ms generalizing js s with
  | nil => exact absurd rfl hne
  | cons m ms ih =>
    obtain ⟨⟨hdef,hc⟩,hrest⟩ := List.forall_mem_cons.mp hms
    obtain ⟨i,c,d⟩ := m
    obtain rfl : d = false := hdef
    rw [List.map_cons,List.append_cons] at hjs
    cases ms with
    | nil => exact h.last hl hc (by simpa using hq) (by simpa using hjs)
    | cons m' ms =>
      obtain ⟨heq,hnext⟩ := h.more env hl hc (by simp at hq; omega)
      obtain ⟨qc,hqc,hfold⟩ := ih hnext hrest (by simp) (by simp at hq ⊢; omega) hjs
      refine ⟨qc,hqc,?_⟩
      rw [List.foldl_cons,hfold,heq]

end Counting

theorem Proposed.counting {p : ProposeMsg} (h : Proposed S R p a l s) : Counting S R p.block a l [] s :=
  ⟨h.follows.knows,h.follows.executes,h.leaf,by simp [h.follows.verifiedVotes],by simp [h.follows.verifiedVotes],
    h.follows.pending⟩

end Replica
end Hotstuff
