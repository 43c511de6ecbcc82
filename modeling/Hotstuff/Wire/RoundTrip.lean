import Hotstuff.Wire.Server

/-! What a sender converts to protobuf, its receiver converts back to the same value, up to the order in which maps are
iterated. The points of the signatures have to survive compression. -/
namespace Hotstuff
open Library

theorem Hash.copy_toBytes (h : Hash) : Hash.copy (Hash.toBytes h) = h := by
  have hv : leValue (leBytes 32 h.toNat) = h.toNat := leValue_leBytes 32 _ h.isLt
  rw [copy,toBytes,List.take_of_length_le (by rw [length_leBytes]),hv,BitVec.ofNat_toNat,BitVec.setWidth_eq]

/-- `a` and `b` differ at most in the order in which their maps are listed. -/
structure AggregateQC.Same (a b : AggregateQC) : Prop where
  qcs : a.qcs.Perm b.qcs
  sig : a.sig = b.sig
  view : a.view = b.view

structure SyncInfo.Same (a b : SyncInfo) : Prop where
  qc : a.qc = b.qc
  tc : a.tc = b.tc
  aggQC : Option.Rel AggregateQC.Same a.aggQC b.aggQC

structure ProposeMsg.Same (a b : ProposeMsg) : Prop where
  id : a.id = b.id
  block : a.block = b.block
  aggQC : Option.Rel AggregateQC.Same a.aggQC b.aggQC

structure TimeoutMsg.Same (a b : TimeoutMsg) : Prop where
  id : a.id = b.id
  view : a.view = b.view
  viewSignature : a.viewSignature = b.viewSignature
  msgSignature : a.msgSignature = b.msgSignature
  syncInfo : a.syncInfo.Same b.syncInfo

section Decompresses
variable (fromCompressed : List UInt8 → Option PointG2)

/-- The points of a signature, certificate or message are read back from their compressed forms. -/
def PointG2.Decompresses (p : PointG2) : Prop := fromCompressed p.compressed = some p

def Signature.Decompresses : Signature → Prop
  | ecdsa _ => True
  | bls12 g => g.s.Decompresses fromCompressed

def ThresholdSignature.Decompresses : ThresholdSignature → Prop
  | ecdsa _ => True
  | bls12 a => a.sig.Decompresses fromCompressed

def PartialCert.Decompresses (c : PartialCert) : Prop := ∀ g ∈ c.signature, g.Decompresses fromCompressed

def QuorumCert.Decompresses (qc : QuorumCert) : Prop := ∀ g ∈ qc.signature, g.Decompresses fromCompressed

def TimeoutCert.Decompresses (tc : TimeoutCert) : Prop := ∀ g ∈ tc.signature, g.Decompresses fromCompressed

def AggregateQC.Decompresses (a : AggregateQC) : Prop :=
  (∀ e ∈ a.qcs, e.2.Decompresses fromCompressed) ∧ ∀ g ∈ a.sig, g.Decompresses fromCompressed

def SyncInfo.Decompresses (si : SyncInfo) : Prop :=
  (∀ qc ∈ si.qc, qc.Decompresses fromCompressed) ∧ (∀ tc ∈ si.tc, tc.Decompresses fromCompressed) ∧
    ∀ a ∈ si.aggQC, a.Decompresses fromCompressed

def ProposeMsg.Decompresses (p : ProposeMsg) : Prop :=
  p.block.cert.Decompresses fromCompressed ∧ ∀ a ∈ p.aggQC, a.Decompresses fromCompressed

def TimeoutMsg.Decompresses (m : TimeoutMsg) : Prop :=
  (∀ g ∈ m.viewSignature, g.Decompresses fromCompressed) ∧ (∀ g ∈ m.msgSignature, g.Decompresses fromCompressed) ∧
    m.syncInfo.Decompresses fromCompressed

end Decompresses

namespace Pb
variable {fromCompressed : List UInt8 → Option PointG2} {it : Iteration}

private theorem fromBytes_toBytes {g : Bls12Signature} (h : g.s.Decompresses fromCompressed) :
    Bls12Signature.fromBytes fromCompressed g.toBytes = some (some g) := by
  have hl : (ID.toBytes g.signer).length = 4 := length_leBytes _ _
  have hv : leValue (ID.toBytes g.signer) = g.signer.toNat := leValue_leBytes 4 _ g.signer.toNat_lt
  have hc : ¬g.toBytes.length < 4 := by rw [Bls12Signature.toBytes,List.length_append]; omega
  rw [Bls12Signature.fromBytes,if_neg hc,Bls12Signature.toBytes,List.take_left' hl,List.drop_left' hl,hv,h]
  simp

private theorem ecdsa_roundTrip : ecdsaFromProto ∘ ecdsaToProto = id := by
  funext g
  simp [ecdsaFromProto,ecdsaToProto,beValue_beBytes]

theorem signature_roundTrip {sig : Option Hotstuff.Signature} (h : ∀ g ∈ sig, g.Decompresses fromCompressed) :
    signatureFromProto fromCompressed (some (signatureToProto sig)) = some sig := by
  rcases sig with _ | g | g
  · rfl
  · exact congrArg (fun g => some (some (Hotstuff.Signature.ecdsa g))) (congrFun ecdsa_roundTrip g)
  · have hb := fromBytes_toBytes (h _ rfl)
    change (Bls12Signature.fromBytes fromCompressed g.toBytes).map _ = _
    rw [hb]
    rfl

theorem thresholdSignature_roundTrip {sig : Option Hotstuff.ThresholdSignature}
    (h : ∀ g ∈ sig, g.Decompresses fromCompressed) :
    thresholdSignatureFromProto fromCompressed (some (thresholdSignatureToProto it sig)) = sig := by
  rcases sig with _ | t | a
  · rfl
  · change some (Hotstuff.ThresholdSignature.ecdsa (.restore (((it.sigs t.entries).map ecdsaToProto).map _))) = _
    rw [List.map_map,ecdsa_roundTrip,List.map_id,t.restore_perm (it.sigs_perm _)]
  · change (fromCompressed a.sig.compressed).map _ = _
    have ha : fromCompressed a.sig.compressed = some a.sig := h _ rfl
    rw [ha]
    rfl

theorem partialCert_roundTrip {c : Hotstuff.PartialCert} (h : c.Decompresses fromCompressed) :
    partialCertFromProto fromCompressed (partialCertToProto c) = some c := by
  rw [partialCertFromProto,partialCertToProto,signature_roundTrip h,Hash.copy_toBytes]
  rfl

theorem quorumCert_roundTrip {qc : Hotstuff.QuorumCert} (h : qc.Decompresses fromCompressed) :
    quorumCertFromProto fromCompressed (some (quorumCertToProto it qc)) = qc := by
  rw [quorumCertFromProto,quorumCertToProto,thresholdSignature_roundTrip h,Hash.copy_toBytes]

theorem timeoutCert_roundTrip {tc : Hotstuff.TimeoutCert} (h : tc.Decompresses fromCompressed) :
    timeoutCertFromProto fromCompressed (timeoutCertToProto it tc) = tc := by
  rw [timeoutCertFromProto,timeoutCertToProto,thresholdSignature_roundTrip h]

theorem aggregateQC_roundTrip {a : AggregateQC} (h : a.Decompresses fromCompressed) :
    (aggregateQCFromProto fromCompressed (aggregateQCToProto it a)).Same a := by
  refine ⟨?_,thresholdSignature_roundTrip h.2,rfl⟩
  have hq : (aggregateQCFromProto fromCompressed (aggregateQCToProto it a)).qcs = it.qcs a.qcs := by
    change ((it.qcs a.qcs).map _).map _ = _
    rw [List.map_map]
    refine (List.map_congr_left fun e he => ?_).trans (List.map_id _)
    exact Prod.ext rfl (quorumCert_roundTrip (h.1 e ((it.qcs_perm a.qcs).subset he)))
  exact hq ▸ it.qcs_perm a.qcs

private theorem map_roundTrip {α β : Type} {f : α → β} {g : β → α} {o : Option α} (h : ∀ a ∈ o, g (f a) = a) :
    (o.map f).map g = o := by
  rcases o with _ | a
  · rfl
  · exact congrArg some (h a rfl)

private theorem aggregateQC_roundTrip_option {a : Option AggregateQC} (h : ∀ a' ∈ a, a'.Decompresses fromCompressed) :
    Option.Rel AggregateQC.Same ((a.map (aggregateQCToProto it)).map (aggregateQCFromProto fromCompressed)) a := by
  rcases a with _ | a
  · exact .none
  · exact .some (aggregateQC_roundTrip (h a rfl))

theorem syncInfo_roundTrip {si : Hotstuff.SyncInfo} (h : si.Decompresses fromCompressed) :
    (syncInfoFromProto fromCompressed (some (syncInfoToProto it si))).Same si := by
  obtain ⟨hqc,htc,ha⟩ := h
  refine ⟨?_,?_,aggregateQC_roundTrip_option ha⟩
  · exact map_roundTrip fun qc hq => quorumCert_roundTrip (hqc qc hq)
  · exact map_roundTrip fun tc ht => timeoutCert_roundTrip (htc tc ht)

theorem block_roundTrip {b : Hotstuff.Block} (h : b.cert.Decompresses fromCompressed) :
    blockFromProto fromCompressed (some (blockToProto it b)) = b := by
  rw [blockFromProto,blockToProto,quorumCert_roundTrip h,Hash.copy_toBytes]

/-- A leader's proposal already names the sender that the receiver writes into it. -/
theorem propose_roundTrip {p : ProposeMsg} (h : p.Decompresses fromCompressed) (hid : p.id = p.block.proposer) :
    ∃ q, Server.propose fromCompressed (some p.id) (proposalToProto it p) = some (some (.propose q)) ∧ q.Same p := by
  refine ⟨_,rfl,rfl,?_,aggregateQC_roundTrip_option h.2⟩
  change blockFromProto fromCompressed (some { blockToProto it p.block with proposer := p.id }) = p.block
  rw [hid]
  exact block_roundTrip h.1

/-- The view signature of a converted message is present even where it is nil, so the message signature is read. -/
theorem timeout_roundTrip {m : Hotstuff.TimeoutMsg} (h : m.Decompresses fromCompressed) :
    ∃ q, Server.timeout fromCompressed (some m.id) (timeoutMsgToProto it m) = some (some (.timeout q)) ∧ q.Same m := by
  obtain ⟨hv,hm,hs⟩ := h
  have hmsg : signatureFromProto fromCompressed (m.msgSignature.map fun g => signatureToProto (some g)) =
      some m.msgSignature := by
    cases hg : m.msgSignature with
    | none => rfl
    | some g => exact signature_roundTrip (hg ▸ hm)
  refine ⟨{ m with syncInfo := syncInfoFromProto fromCompressed (some (syncInfoToProto it m.syncInfo)) },?_,
    rfl,rfl,rfl,rfl,syncInfo_roundTrip hs⟩
  simp [Server.timeout,timeoutMsgFromProto,timeoutMsgToProto,signature_roundTrip hv,hmsg]

/-- Every certificate and message comes back as it was sent, only the maps of aggregate certificates may be listed in
another order. So block hashes, byte forms, participants and absent parts are those of the sender. A proposal has to
come from the proposer of its block, whose ID the server fills in. -/
theorem wire_round_trip (fromCompressed : List UInt8 → Option PointG2) (it : Iteration) :
    (∀ c : Hotstuff.PartialCert, c.Decompresses fromCompressed →
      partialCertFromProto fromCompressed (partialCertToProto c) = some c) ∧
    (∀ qc : Hotstuff.QuorumCert, qc.Decompresses fromCompressed →
      quorumCertFromProto fromCompressed (some (quorumCertToProto it qc)) = qc) ∧
    (∀ tc : Hotstuff.TimeoutCert, tc.Decompresses fromCompressed →
      timeoutCertFromProto fromCompressed (timeoutCertToProto it tc) = tc) ∧
    (∀ a : AggregateQC, a.Decompresses fromCompressed →
      (aggregateQCFromProto fromCompressed (aggregateQCToProto it a)).Same a) ∧
    (∀ si : Hotstuff.SyncInfo, si.Decompresses fromCompressed →
      (syncInfoFromProto fromCompressed (some (syncInfoToProto it si))).Same si) ∧
    (∀ p : ProposeMsg, p.Decompresses fromCompressed → p.id = p.block.proposer →
      ∃ q, Server.propose fromCompressed (some p.id) (proposalToProto it p) = some (some (.propose q)) ∧ q.Same p) ∧
    ∀ m : Hotstuff.TimeoutMsg, m.Decompresses fromCompressed →
      ∃ q, Server.timeout fromCompressed (some m.id) (timeoutMsgToProto it m) = some (some (.timeout q)) ∧ q.Same m :=
  ⟨fun _ => partialCert_roundTrip,fun _ => quorumCert_roundTrip,fun _ => timeoutCert_roundTrip,
    fun _ => aggregateQC_roundTrip,fun _ => syncInfo_roundTrip,fun _ => propose_roundTrip,fun _ => timeout_roundTrip⟩

end Pb

namespace Sample
open Pb

def reversed : Iteration := ⟨List.reverse,fun l => l.reverse_perm,List.reverse,fun l => l.reverse_perm⟩

private def timeoutMsg : Hotstuff.TimeoutMsg where
  id := 2
  view := 9
  viewSignature := some (.bls12 ⟨2,⟨List.replicate 96 7⟩⟩)
  msgSignature := some (.ecdsa ⟨300,0,2⟩)
  syncInfo :=
    { qc := some ⟨none,0,5⟩
      tc := some ⟨some (.bls12 ⟨⟨List.replicate 96 3⟩,[7]⟩),8⟩
      aggQC := some ⟨[(1,⟨none,0,5⟩),(4,⟨some (.ecdsa (.restore [⟨1,256,3⟩,⟨9,9,1⟩])),6,7⟩)],none,8,by decide⟩ }

private def proposal : ProposeMsg :=
  ⟨3,⟨5,3,[1,2],⟨some (.bls12 ⟨⟨List.replicate 96 4⟩,[11]⟩),8,5⟩,9⟩,some ⟨[(1,⟨none,0,5⟩)],none,8,by decide⟩⟩

theorem wire_round_trip_messages :
    (∃ q, Server.propose fromCompressed (some 3) (proposalToProto reversed proposal) =
      some (some (.propose q)) ∧ q.Same proposal) ∧
    ∃ q, Server.timeout fromCompressed (some 2) (timeoutMsgToProto reversed timeoutMsg) =
      some (some (.timeout q)) ∧ q.Same timeoutMsg := by
  obtain ⟨-,-,-,-,-,hp,ht⟩ := wire_round_trip fromCompressed reversed
  refine ⟨hp proposal ⟨?_,?_⟩ rfl,ht timeoutMsg ⟨?_,?_,?_,?_,?_⟩⟩
  · rintro g ⟨⟩
    exact if_pos rfl
  · rintro a ⟨⟩
    refine ⟨fun e he => ?_,nofun⟩
    rcases List.mem_singleton.mp he with rfl
    rintro g ⟨⟩
  · rintro g ⟨⟩
    exact if_pos rfl
  · rintro g ⟨⟩
    trivial
  · rintro qc ⟨⟩ g ⟨⟩
  · rintro tc ⟨⟩ g ⟨⟩
    exact if_pos rfl
  · rintro a ⟨⟩
    refine ⟨fun e he => ?_,nofun⟩
    rcases List.mem_pair.mp he with rfl | rfl
    · rintro g ⟨⟩
    · rintro g ⟨⟩
      trivial

end Sample
end Hotstuff
