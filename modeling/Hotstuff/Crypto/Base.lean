import Hotstuff.Crypto.Ecdsa

/-! Certificates over the uncached crypto implementation, `crypto.New(ecdsa.New())`. -/
namespace Hotstuff
namespace Setup
variable (S : Setup)

def genesisHash : Hash := genesis.hash S

/-- The partial certificates are the ones that passed `VerifyPartialCert`, so none lacks a signature. -/
def createQuorumCert (block : Block) (certs : List PartialCert) : Except (List CryptoError) QuorumCert :=
  if block.hash S = S.genesisHash then .ok ⟨none,0,S.genesisHash⟩
  else match S.createThresholdSignature (certs.filterMap PartialCert.signature) (block.hash S) with
    | .ok t => .ok ⟨some (.ecdsa t),block.view,block.hash S⟩
    | .error e => .error e

def createTimeoutCert (view : View) (timeouts : List TimeoutMsg) : Except (List CryptoError) TimeoutCert :=
  if view = 0 then .ok ⟨none,0⟩
  else match S.createThresholdSignature (timeouts.filterMap TimeoutMsg.viewSignature) (View.toHash view) with
    | .ok t => .ok ⟨some (.ecdsa t),view⟩
    | .error e => .error e

def assign {β : Type} (m : List (ID × β)) (id : ID) (x : β) : List (ID × β) :=
  m.filter (fun e => e.1 ≠ id) ++ [(id,x)]

private theorem assign_nodup {β : Type} (m : List (ID × β)) (id : ID) (x : β)
    (h : (m.map Prod.fst).Nodup) : ((assign m id x).map Prod.fst).Nodup := by
  rw [assign,List.map_append,List.map_singleton,List.nodup_append]
  refine ⟨(List.filter_sublist.map _).nodup h,by simp,?_⟩
  intro a ha b hb
  obtain ⟨e,he,rfl⟩ := List.mem_map.mp ha
  have hne := List.of_mem_filter he
  simp_all

def collect (timeouts : List TimeoutMsg) : {m : List (ID × QuorumCert) // (m.map Prod.fst).Nodup} :=
  timeouts.foldl (fun m t => match t.syncInfo.qc with
    | some qc => ⟨assign m.1 t.id qc,assign_nodup _ _ _ m.2⟩
    | none => m) ⟨[],.nil⟩

def createAggregateQC (view : View) (timeouts : List TimeoutMsg) : Except (List CryptoError) AggregateQC :=
  let signed := timeouts.filter (fun t => t.msgSignature.isSome)
  let hashes := signed.foldl (fun m t => assign m t.id (t.hash S)) []
  match S.createThresholdSignatureForMessageSet (signed.filterMap TimeoutMsg.msgSignature) hashes with
  | .ok t => .ok ⟨(collect timeouts).1,some (.ecdsa t),view,(collect timeouts).2⟩
  | .error e => .error e

private theorem mem_collect {timeouts : List TimeoutMsg} {e : ID × QuorumCert} (he : e ∈ (collect timeouts).1) :
    ∃ t ∈ timeouts, t.syncInfo.qc = some e.2 := by
  induction timeouts using List.reverseRecOn with
  | nil => cases he
  | append_singleton l t ih =>
    have old (h : e ∈ (collect l).1) : ∃ t' ∈ l ++ [t], t'.syncInfo.qc = some e.2 :=
      (ih h).imp fun _ h => ⟨List.mem_append_left _ h.1,h.2⟩
    rw [collect,List.foldl_append,← collect] at he
    dsimp only [List.foldl] at he
    split at he
    · rename_i qc hqc
      rcases List.mem_append.mp he with he | he
      · exact old (List.mem_of_mem_filter he)
      · exact ⟨t,by simp,by rw [List.mem_singleton.mp he,hqc]⟩
    · exact old he

/-- An aggregate holds nothing but the certificates of the timeouts that it is made from. -/
theorem createAggregateQC_mem {view : View} {timeouts : List TimeoutMsg} {agg : AggregateQC}
    (h : S.createAggregateQC view timeouts = .ok agg) {e : ID × QuorumCert} (he : e ∈ agg.qcs) :
    ∃ t ∈ timeouts, t.syncInfo.qc = some e.2 := by
  rw [createAggregateQC] at h
  split at h
  · cases h
    exact mem_collect he
  · cases h

def verifyPartialCert (cert : PartialCert) : Bool := S.verify cert.signature cert.blockHash

/-- Neither the view nor, for the genesis hash, the signature is checked. -/
def verifyQuorumCert (qc : QuorumCert) : Bool :=
  if qc.hash = S.genesisHash then true else S.verifyThresholdSignature qc.signature qc.hash

def verifyTimeoutCert (tc : TimeoutCert) : Bool :=
  if tc.view = 0 then true else S.verifyThresholdSignature tc.signature (View.toHash tc.view)

private def higher : Option QuorumCert → ID × QuorumCert → Option QuorumCert
  | none, e => some e.2
  | some q, e => if q.view < e.2.view then some e.2 else some q

/-- The first certificate with the largest claimed view, in iteration order. -/
def highest : List (ID × QuorumCert) → Option QuorumCert := List.foldl higher none

private theorem le_of_higher {high : Option QuorumCert} {e : ID × QuorumCert} {q : QuorumCert}
    (h : ∀ p, higher high e = some p → p.view ≤ q.view) :
    (∀ p, high = some p → p.view ≤ q.view) ∧ e.2.view ≤ q.view := by
  cases high with
  | none => exact ⟨by simp,h _ rfl⟩
  | some p =>
    rw [higher] at h
    split_ifs at h with hlt
    · refine ⟨fun _ hp => ?_,h _ rfl⟩
      cases hp
      exact UInt64.le_trans (UInt64.le_of_lt hlt) (h _ rfl)
    · refine ⟨fun _ hp => ?_,UInt64.le_trans (UInt64.not_lt.mp hlt) (h _ rfl)⟩
      cases hp
      exact h _ rfl

private theorem le_foldl_higher (l : List (ID × QuorumCert)) (high : Option QuorumCert) {q : QuorumCert}
    (h : l.foldl higher high = some q) :
    (∀ p, high = some p → p.view ≤ q.view) ∧ ∀ e ∈ l, e.2.view ≤ q.view := by
  induction l generalizing high with
  | nil =>
    refine ⟨fun p hp => ?_,by simp⟩
    cases hp.symm.trans h
    exact UInt64.le_refl _
  | cons e l ih =>
    obtain ⟨hacc,hl⟩ := ih _ h
    obtain ⟨hhigh,he⟩ := le_of_higher hacc
    exact ⟨hhigh,List.forall_mem_cons.mpr ⟨he,hl⟩⟩

theorem le_highest {l : List (ID × QuorumCert)} {q : QuorumCert} (h : highest l = some q)
    {e : ID × QuorumCert} (he : e ∈ l) : e.2.view ≤ q.view :=
  (le_foldl_higher l none h).2 e he

private theorem foldl_higher_mem (l : List (ID × QuorumCert)) (high : Option QuorumCert) {q : QuorumCert}
    (h : l.foldl higher high = some q) : high = some q ∨ ∃ e ∈ l, e.2 = q := by
  induction l generalizing high with
  | nil => exact .inl h
  | cons e l ih =>
    rcases ih _ h with he | ⟨f,hf,hfq⟩
    · cases high with
      | none => exact .inr ⟨e,List.mem_cons_self,Option.some.inj he⟩
      | some p =>
        rw [higher] at he
        split_ifs at he
        · exact .inr ⟨e,List.mem_cons_self,Option.some.inj he⟩
        · exact .inl he
    · exact .inr ⟨f,List.mem_cons_of_mem _ hf,hfq⟩

theorem mem_of_highest {l : List (ID × QuorumCert)} {q : QuorumCert} (h : highest l = some q) :
    ∃ e ∈ l, e.2 = q := (foldl_higher_mem l none h).resolve_left (by simp)

private theorem foldl_higher_of_le {l : List (ID × QuorumCert)} {q : QuorumCert} (h : ∀ e ∈ l, e.2.view ≤ q.view) :
    l.foldl higher (some q) = some q := by
  induction l with
  | nil => rfl
  | cons e l ih =>
    obtain ⟨he,hl⟩ := List.forall_mem_cons.mp h
    rw [List.foldl_cons,higher,if_neg (UInt64.not_lt.mpr he)]
    exact ih hl

/-- Of several certificates with the largest view the first one is taken. -/
theorem highest_cons_of_le {l : List (ID × QuorumCert)} {e : ID × QuorumCert} (h : ∀ f ∈ l, f.2.view ≤ e.2.view) :
    highest (e :: l) = some e.2 := foldl_higher_of_le h

theorem exists_highest {l : List (ID × QuorumCert)} (h : l ≠ []) : ∃ q, highest l = some q := by
  have keeps (l : List (ID × QuorumCert)) (q : QuorumCert) : ∃ q', l.foldl higher (some q) = some q' := by
    induction l generalizing q with
    | nil => exact ⟨q,rfl⟩
    | cons e l ih =>
      rw [List.foldl_cons,higher]
      split_ifs <;> exact ih _
  obtain ⟨e,l,rfl⟩ := List.exists_cons_of_ne_nil h
  exact keeps l e.2

def timeoutOf (view : View) (e : ID × QuorumCert) : TimeoutMsg := ⟨e.1,view,none,none,{ qc := some e.2 }⟩

/-- `none` when the message-set verification never returns, else the verdict and the high QC. -/
def verifyAggregateQC (agg : AggregateQC) : Option (Option QuorumCert) :=
  let hashes := agg.qcs.map (fun e => (e.1,(timeoutOf agg.view e).hash S))
  match S.verifyThresholdSignatureForMessageSet agg.sig hashes with
  | none => none
  | some false => some none
  | some true => match highest agg.qcs with
    | some qc => some (if S.verifyQuorumCert qc then some qc else none)
    -- `*highQC` would be nil, but a quorum of signatures needs an entry
    | none => some none

end Setup

/-! A small configuration on which certificates and runs can be computed. -/
namespace Sample

/-- A stand-in for SHA-256 with the top bit set, so that no digest is a view number. -/
def digest (x : List UInt8) : Hash :=
  BitVec.ofNat 256 (2^255 + x.foldl (fun a b => (a*263 + b.toNat + 1) % (2^61-1)) 7)

/-- Four replicas; a signature is the signer's ID and the signed hash. -/
def setup : Setup where
  sha256 := digest
  replicas := {1,2,3,4}
  ecdsaVerify id h r s := decide (r = id.toNat ∧ s = h.toNat)

def genesisQC (v : View) : QuorumCert := ⟨none,v,setup.genesisHash⟩

def qcOf (signers : List ID) (b : Block) : QuorumCert :=
  ⟨some (.ecdsa (.restore (signers.map fun i => ⟨i.toNat,(b.hash setup).toNat,i⟩))),b.view,b.hash setup⟩

def next (signers : List ID) (b : Block) (v : View) : Block := ⟨b.hash setup,4,[],qcOf signers b,v⟩

def first (v : View) : Block := ⟨setup.genesisHash,4,[],genesisQC 0,v⟩

def tcOf (signers : List ID) (v : View) : TimeoutCert :=
  ⟨some (.ecdsa (.restore (signers.map fun i => ⟨i.toNat,(View.toHash v).toNat,i⟩))),v⟩

end Sample
end Hotstuff
