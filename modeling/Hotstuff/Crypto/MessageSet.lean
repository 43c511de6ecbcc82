import Hotstuff.Crypto.Aggregate
import Hotstuff.Crypto.Threshold
import Hotstuff.Library.Rendezvous

/-! The two concurrent verification methods of the ECDSA implementation as they run: a loop that starts goroutines, and
a loop that receives one result for every signature. The verdict functions are what all runs come to. -/
namespace Hotstuff
open Library

/-- A call of `VerifyThresholdSignatureForMessageSet`: the loop over the hashes, the loop that receives, the end. A
waiting goroutine is the signature and the hash it was started with. -/
inductive MessageSetCall where
  | starting (rest : List (ID × Hash)) (hashSet : List Hash) (started : List (EcdsaSignature × Hash))
  | receiving (g : Gather (EcdsaSignature × Hash))
  | returned (b : Bool)

namespace MessageSetCall
variable (S : Setup) (t : EcdsaThreshold)

def verdict (got : List (EcdsaSignature × Hash)) : Bool :=
  decide (S.quorum ≤ (got.filter fun x => S.verifyEcdsa x.1 x.2).length)

inductive Step : MessageSetCall → MessageSetCall → Prop
  | duplicate {a b : List (ID × Hash)} {id : ID} {h : Hash} {hashSet : List Hash}
      {started : List (EcdsaSignature × Hash)} (hh : h ∈ hashSet) :
      Step (.starting (a ++ (id,h) :: b) hashSet started) (.returned false)
  | missing {a b : List (ID × Hash)} {id : ID} {h : Hash} {hashSet : List Hash}
      {started : List (EcdsaSignature × Hash)} (hh : h ∉ hashSet) (hs : t.find id = none) :
      Step (.starting (a ++ (id,h) :: b) hashSet started) (.returned false)
  | start {a b : List (ID × Hash)} {id : ID} {h : Hash} {hashSet : List Hash}
      {started : List (EcdsaSignature × Hash)} {s : EcdsaSignature} (hh : h ∉ hashSet) (hs : t.find id = some s) :
      Step (.starting (a ++ (id,h) :: b) hashSet started) (.starting (a ++ b) (h :: hashSet) ((s,h) :: started))
  | started {hashSet : List Hash} {started : List (EcdsaSignature × Hash)} :
      Step (.starting [] hashSet started) (.receiving { waiting := started, wanted := t.entries.length })
  | receive {g k : Gather (EcdsaSignature × Hash)} (h : g.Step k) : Step (.receiving g) (.receiving k)
  | done {g : Gather (EcdsaSignature × Hash)} (h : g.wanted = 0) :
      Step (.receiving g) (.returned (verdict S g.got))

variable {S t}

theorem verdict_perm {l m : List (EcdsaSignature × Hash)} (h : l.Perm m) : verdict S l = verdict S m := by
  rw [verdict,verdict,(h.filter _).length_eq]

/-- One result for each goroutine: in whatever order they come, the verdict is on all of them. -/
theorem receiving_returns (g : Gather (EcdsaSignature × Hash)) (h : g.wanted = g.waiting.length) :
    Inevitable (Step S t) (· = .returned (verdict S (g.got ++ g.waiting))) (.receiving g) := by
  induction hn : g.wanted generalizing g with
  | zero =>
    have hnil : g.waiting = [] := List.length_eq_zero_iff.mp (h.symm.trans hn)
    refine .next ⟨_,.done hn⟩ fun c hc => ?_
    cases hc with
    | receive hg => exact absurd (hg.wanted.symm.trans hn) (Nat.succ_ne_zero _)
    | done => exact .here (by rw [hnil,List.append_nil])
  | succ n ih =>
    have hgo := Gather.exists_step (g := g) (by omega) fun hnil => by simp [hnil,hn] at h
    refine .next (hgo.imp' _ fun k hk => .receive hk) fun c hc => ?_
    cases hc with
    | receive hg =>
      have hwant := hg.wanted
      have hlen := hg.length
      rw [← verdict_perm hg.perm]
      exact ih _ (by omega) (by omega)
    | done h0 => omega

/-- `VerifyThresholdSignature` receives from as many goroutines as it starts. -/
theorem verifyThresholdSignature_returns (h : Hash) (hq : S.quorum ≤ t.entries.length) :
    Inevitable (Step S t) (· = .returned (S.verifyThresholdSignature (some (.ecdsa t)) h))
      (.receiving { waiting := t.entries.map (·,h), wanted := t.entries.length }) := by
  have hall := receiving_returns (S := S) (t := t) { waiting := t.entries.map (·,h), wanted := t.entries.length }
    (by simp)
  rw [Setup.verifyThresholdSignature,if_neg (Nat.not_lt.mpr hq)]
  rw [verdict,List.nil_append,List.filter_map,List.length_map] at hall
  exact hall

/-- Which hash comes next does not matter to what the loop tests. -/
private theorem fits_middle {a b : List (ID × Hash)} {id : ID} {h : Hash} {hashSet : List Hash} :
    Setup.Fits t (a ++ (id,h) :: b) hashSet ↔
      h ∉ hashSet ∧ (t.find id).isSome = true ∧ Setup.Fits t (a ++ b) (h :: hashSet) := by
  rw [← Setup.fits_cons]
  exact ⟨fun hf => hf.perm List.perm_middle,fun hf => hf.perm List.perm_middle.symm⟩

/-- With nothing to object to, all goroutines are started, then the results are received. -/
private theorem starting_returns {rest : List (ID × Hash)} {hashSet : List Hash}
    {started : List (EcdsaSignature × Hash)}
    (hf : Setup.Fits t rest hashSet) (hlen : started.length + rest.length = t.entries.length) :
    Inevitable (Step S t) (· = .returned (verdict S (started ++ rest.filterMap fun e => (t.find e.1).map (·,e.2))))
      (.starting rest hashSet started) := by
  induction hn : rest.length generalizing rest hashSet started with
  | zero =>
    cases List.length_eq_zero_iff.mp hn
    refine .next ⟨_,.started⟩ fun c hc => ?_
    generalize hr : ([] : List (ID × Hash)) = rest at hc
    cases hc with
    | duplicate | missing | start => exact absurd hr (by simp)
    | started =>
      rw [List.filterMap_nil,List.append_nil]
      exact receiving_returns ⟨started,t.entries.length,[]⟩ hlen.symm
  | succ n ih =>
    have hgo : ∃ c, Step S t (.starting rest hashSet started) c := by
      obtain ⟨⟨id,h⟩,rest,rfl⟩ := List.exists_cons_of_length_eq_add_one hn
      obtain ⟨hh,hs,-⟩ := Setup.fits_cons.mp hf
      obtain ⟨s,hs⟩ := Option.isSome_iff_exists.mp hs
      exact ⟨_,.start (a := []) hh hs⟩
    refine .next hgo fun c hc => ?_
    cases hc with
    | duplicate hh => exact absurd hh (fits_middle.mp hf).1
    | missing _ hs => exact absurd (fits_middle.mp hf).2.1 (by simp [hs])
    | @start a b id h _ _ s hh hs =>
      rw [List.length_append,List.length_cons] at hlen hn
      have hlen' : ((s,h) :: started).length + (a ++ b).length = t.entries.length := by
        rw [List.length_cons,List.length_append]
        omega
      have hrest := ih (fits_middle.mp hf).2.2 hlen' (by rw [List.length_append]; omega)
      have hperm : ((s,h) :: started ++ (a ++ b).filterMap fun e => (t.find e.1).map (·,e.2)).Perm
          (started ++ (a ++ (id,h) :: b).filterMap fun e => (t.find e.1).map (·,e.2)) := by
        rw [List.filterMap_append,List.filterMap_append,List.filterMap_cons,hs]
        exact List.perm_middle.symm.trans (List.perm_middle.symm.append_left started)
      rwa [verdict_perm hperm] at hrest
    | started => cases hn

/-- A hash that comes twice or has no signature ends the call, whichever comes first. -/
private theorem starting_returns_false {rest : List (ID × Hash)} {hashSet : List Hash}
    {started : List (EcdsaSignature × Hash)} (hf : ¬ Setup.Fits t rest hashSet) :
    Inevitable (Step S t) (· = .returned false) (.starting rest hashSet started) := by
  induction hn : rest.length generalizing rest hashSet started with
  | zero =>
    cases List.length_eq_zero_iff.mp hn
    exact absurd ⟨by simp,List.nodup_nil,by simp⟩ hf
  | succ n ih =>
    have hgo : ∃ c, Step S t (.starting rest hashSet started) c := by
      obtain ⟨⟨id,h⟩,rest,rfl⟩ := List.exists_cons_of_length_eq_add_one hn
      by_cases hh : h ∈ hashSet
      · exact ⟨_,.duplicate (a := []) hh⟩
      cases hs : t.find id with
      | none => exact ⟨_,.missing (a := []) hh hs⟩
      | some s => exact ⟨_,.start (a := []) hh hs⟩
    refine .next hgo fun c hc => ?_
    cases hc with
    | duplicate => exact .here rfl
    | missing => exact .here rfl
    | start hh hs =>
      rw [List.length_append,List.length_cons] at hn
      refine ih (fun hrest => hf (fits_middle.mpr ⟨hh,by simp [hs],hrest⟩)) ?_
      rw [List.length_append]
      omega
    | started => cases hn

/-- Fewer goroutines than signatures, and nothing that would end the call before they are missed. -/
private def Short (t : EcdsaThreshold) : MessageSetCall → Prop
  | .starting rest hashSet started => Setup.Fits t rest hashSet ∧ started.length + rest.length < t.entries.length
  | .receiving g => g.waiting.length < g.wanted
  | .returned _ => False

private theorem Short.step {c d : MessageSetCall} (h : Short t c) (hstep : Step S t c d) : Short t d := by
  cases hstep with
  | duplicate hh => exact absurd hh (fits_middle.mp h.1).1
  | missing _ hs => exact absurd (fits_middle.mp h.1).2.1 (by simp [hs])
  | start =>
    have hlen := h.2
    rw [List.length_append,List.length_cons] at hlen
    refine ⟨(fits_middle.mp h.1).2.2,?_⟩
    rw [List.length_cons,List.length_append]
    omega
  | started => exact h.2
  | receive hg =>
    have hwant := hg.wanted
    have hlen := hg.length
    have hlt : _ < _ := h
    change _ < _
    omega
  | done h0 =>
    have hlt : _ < _ := h
    omega

variable {hashes : List (ID × Hash)}

private theorem fits_nil_iff : Setup.Fits t hashes [] ↔
    (hashes.map Prod.snd).Nodup ∧ ¬ ∃ e ∈ hashes, t.find e.1 = none := by
  constructor
  · intro hf
    refine ⟨hf.nodup,?_⟩
    rintro ⟨e,he,hn⟩
    exact absurd (hf.found e he) (by simp [hn])
  · rintro ⟨hnodup,hfound⟩
    refine ⟨fun e _ => List.not_mem_nil,hnodup,fun e he => ?_⟩
    by_contra hn
    exact hfound ⟨e,he,Option.not_isSome_iff_eq_none.mp hn⟩

private theorem ids_subset (hf : Setup.Fits t hashes []) : (hashes.map Prod.fst).toFinset ⊆ t.signers := by
  intro id hid
  obtain ⟨e,he,rfl⟩ := List.mem_map.mp (List.mem_toFinset.mp hid)
  obtain ⟨g,hg⟩ := Option.isSome_iff_exists.mp (hf.found e he)
  exact EcdsaThreshold.mem_signers.mpr ⟨g,List.mem_of_find?_eq_some hg,by simpa using List.find?_some hg⟩

private theorem card_ids (hn : (hashes.map Prod.fst).Nodup) : (hashes.map Prod.fst).toFinset.card = hashes.length := by
  rw [List.toFinset_card_of_nodup hn,List.length_map]

/-- The signers with a hash are among the signers, so there are fewer only if one has none. -/
private theorem length_lt_iff (hn : (hashes.map Prod.fst).Nodup) (hf : Setup.Fits t hashes []) :
    hashes.length < t.entries.length ↔ ¬ ∀ g ∈ t.entries, g.signer ∈ hashes.map Prod.fst := by
  rw [← card_ids hn,← t.card_signers,← Nat.not_le,not_iff_not]
  constructor
  · intro hle g hg
    rw [← List.mem_toFinset,Finset.eq_of_subset_of_card_le (ids_subset hf) hle]
    exact EcdsaThreshold.mem_signers.mpr ⟨g,hg,rfl⟩
  · intro hall
    apply Finset.card_le_card
    intro id hid
    obtain ⟨g,hg,rfl⟩ := EcdsaThreshold.mem_signers.mp hid
    exact List.mem_toFinset.mpr (hall g hg)

private theorem length_started {hashSet : List Hash} (hf : Setup.Fits t hashes hashSet) :
    (hashes.filterMap fun e => (t.find e.1).map (·,e.2)).length = hashes.length := by
  induction hashes generalizing hashSet with
  | nil => rfl
  | cons e hashes ih =>
    obtain ⟨-,hs,hf⟩ := Setup.fits_cons.mp hf
    obtain ⟨s,hs⟩ := Option.isSome_iff_exists.mp hs
    rw [List.filterMap_cons,hs]
    exact congrArg (· + 1) (ih hf)

private theorem verify_eq_none_iff : S.verifyThresholdSignatureForMessageSet (some (.ecdsa t)) hashes = none ↔
    Setup.Fits t hashes [] ∧ hashes.length < t.entries.length := by
  rw [Setup.verifyThresholdSignatureForMessageSet]
  by_cases hf : Setup.Fits t hashes []
  · rw [Setup.startedFor_eq_some_iff.mpr ⟨hf,rfl⟩]
    dsimp only
    rw [length_started hf]
    split_ifs with hlt
    · exact iff_of_true rfl ⟨hf,hlt⟩
    · exact iff_of_false not_false fun h => hlt h.2
  · have hnone : Setup.startedFor t hashes [] = none :=
      Option.eq_none_iff_forall_ne_some.mpr fun r hr => hf (Setup.startedFor_eq_some_iff.mp hr).1
    rw [hnone]
    exact iff_of_false (Option.some_ne_none _) fun h => hf h.1

/-- Where the function has a verdict, every run of the call returns it. -/
theorem returns_of_verify {b : Bool} (hn : (hashes.map Prod.fst).Nodup)
    (h : S.verifyThresholdSignatureForMessageSet (some (.ecdsa t)) hashes = some b) :
    Inevitable (Step S t) (· = .returned b) (.starting hashes [] []) := by
  rw [Setup.verifyThresholdSignatureForMessageSet] at h
  split at h
  · rename_i hs
    cases h
    refine starting_returns_false fun hf => ?_
    cases hs.symm.trans (Setup.startedFor_eq_some_iff.mpr ⟨hf,rfl⟩)
  · rename_i r hr
    obtain ⟨hf,rfl⟩ := Setup.startedFor_eq_some_iff.mp hr
    split_ifs at h with hlt
    cases h
    rw [length_started hf] at hlt
    have hle : hashes.length ≤ t.entries.length := by
      rw [← card_ids hn,← t.card_signers]
      exact Finset.card_le_card (ids_subset hf)
    have hlen : ([] : List (EcdsaSignature × Hash)).length + hashes.length = t.entries.length :=
      (Nat.zero_add _).trans (Nat.le_antisymm hle (Nat.not_lt.mp hlt))
    exact starting_returns hf hlen

/-- Where it has none, the call does not have to return. -/
theorem not_returns_of_verify (h : S.verifyThresholdSignatureForMessageSet (some (.ecdsa t)) hashes = none) :
    ¬ Inevitable (Step S t) (∃ b, · = .returned b) (.starting hashes [] []) := by
  obtain ⟨hf,hlt⟩ := verify_eq_none_iff.mp h
  intro hev
  have htrap := hev.not_trapped (T := Short t) ?_ fun c d => Short.step
  · exact htrap ⟨hf,by rwa [List.length_nil,Nat.zero_add]⟩
  · rintro _ hc ⟨b,rfl⟩
    exact hc

/-- The call returns in every run exactly if two of the hashes are equal, one is of no signer, or every signer has
one. Otherwise it waits for a goroutine that was not started. -/
theorem messageSetCall_returns_iff (S : Setup) (t : EcdsaThreshold) (hashes : List (ID × Hash))
    (hn : (hashes.map Prod.fst).Nodup) :
    Inevitable (Step S t) (∃ b, · = .returned b) (.starting hashes [] []) ↔
      ¬ (hashes.map Prod.snd).Nodup ∨ (∃ e ∈ hashes, t.find e.1 = none) ∨
        ∀ g ∈ t.entries, g.signer ∈ hashes.map Prod.fst := by
  have hcond : (¬ (hashes.map Prod.snd).Nodup ∨ (∃ e ∈ hashes, t.find e.1 = none) ∨
      ∀ g ∈ t.entries, g.signer ∈ hashes.map Prod.fst) ↔
      S.verifyThresholdSignatureForMessageSet (some (.ecdsa t)) hashes ≠ none := by
    rw [Ne,verify_eq_none_iff]
    by_cases hf : Setup.Fits t hashes []
    · obtain ⟨hnodup,hfound⟩ := fits_nil_iff.mp hf
      rw [length_lt_iff hn hf,or_iff_right (not_not.mpr hnodup),or_iff_right hfound,and_iff_right hf,not_not]
    · refine iff_of_true ?_ fun h => hf h.1
      rw [fits_nil_iff,not_and_or,not_not] at hf
      exact hf.imp_right .inl
  rw [hcond]
  constructor
  · intro hev hnone
    exact not_returns_of_verify hnone hev
  · intro hsome
    obtain ⟨b,hb⟩ := Option.ne_none_iff_exists'.mp hsome
    exact (returns_of_verify hn hb).mono fun c hc => ⟨b,hc⟩

/-- Replicas 1 and 2 have signed, and both have a hash. -/
theorem messageSetCall_returns_iff_two : ([1,2] : List ID).Nodup ∧
    Inevitable (Step Sample.setup (.restore [⟨1,5,1⟩,⟨2,6,2⟩])) (∃ b, · = .returned b)
      (.starting [(1,5),(2,6)] [] []) := by
  refine ⟨by decide,(messageSetCall_returns_iff _ _ [(1,5),(2,6)] (by decide)).mpr (.inr (.inr ?_))⟩
  decide

/-- Replica 2 has signed as well but has no hash: one goroutine, and two results to receive. -/
theorem messageSetCall_waits : ([1] : List ID).Nodup ∧
    ¬ Inevitable (Step Sample.setup (.restore [⟨1,5,1⟩,⟨2,6,2⟩])) (∃ b, · = .returned b) (.starting [(1,5)] [] []) :=
  ⟨by decide,not_returns_of_verify (by decide)⟩

end MessageSetCall
end Hotstuff
