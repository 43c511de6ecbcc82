import Hotstuff.Crypto.Created
import Hotstuff.Library.Calls
import Hotstuff.Orchestration.Assign
import Hotstuff.Replica.Strategy

/-! A worker of an experiment: it creates, starts and stops replicas and clients as it is asked to. What the operating
system and the libraries answer is a parameter. -/
namespace Hotstuff.Orchestration
open Library

inductive Code where
  | notFound
  | unknown
  deriving DecidableEq, Repr

structure Status where
  code : Code
  message : String
  deriving DecidableEq, Repr

def Status.fromError (err : String) : Status := ⟨.unknown,err⟩

inductive CryptoName where
  | ecdsa
  | bls12
  deriving DecidableEq, Repr

inductive RotationName where
  | roundRobin
  | fixed (leader : ID)
  | repBased
  | carousel
  deriving DecidableEq, Repr

structure CreateOpts extends ReplicaOpts where
  privateKey : List UInt8
  publicKey : List UInt8
  useTLS : Bool
  certificate : List UInt8
  certificateKey : List UInt8
  certificateAuthority : List UInt8
  consensus : String
  crypto : String
  leaderRotation : String
  deriving DecidableEq, Repr

structure ReplicaInfo where
  id : ID
  address : String
  publicKey : List UInt8
  replicaPort : UInt32
  clientPort : UInt32
  deriving DecidableEq, Repr

structure ClientOpts where
  id : ID
  deriving DecidableEq, Repr

abbrev Configuration := List (ID × ReplicaInfo)

structure PeerInfo where
  id : ID
  address : String
  pubKey : List UInt8
  deriving DecidableEq, Repr

structure ReplicaConfig where
  id : ID
  replicas : ID → Option PeerInfo

structure Build where
  id : ID
  rules : RuleSet
  strategy : Option Strategy
  crypto : CryptoName
  rotation : RotationName
  deriving DecidableEq, Repr

structure WorkerReplica where
  build : Build
  config : Option ReplicaConfig := none
  starts : Nat := 0
  stops : Nat := 0

structure WorkerClient where
  config : ReplicaConfig
  starts : Nat := 0
  stops : Nat := 0

structure Worker where
  replicas : ID → Option WorkerReplica := fun _ => none
  clients : ID → Option WorkerClient := fun _ => none

/-- The answers that a worker gets from its surroundings, with the orders in which it happens to iterate maps. A parsed
key is what `parsePublicKey` returns for its bytes, and `hash` is that of the commands a replica has executed when it is
stopped. -/
structure Machine where
  parsePrivateKey : List UInt8 → Except String Unit
  x509KeyPair : List UInt8 → List UInt8 → Except String Unit
  parsePublicKey : List UInt8 → Except String (List UInt8)
  listen : ID → Bool → Except String String
  getPort : String → Except String UInt32
  connect : ID → Bool → Except String Unit
  hash : ID → List UInt8
  hash_length : ∀ id, (hash id).length = 32
  createOrder : List (ID × CreateOpts) → List (ID × CreateOpts)
  createOrder_perm : ∀ l, (createOrder l).Perm l
  clientOrder : List (ID × ClientOpts) → List (ID × ClientOpts)
  clientOrder_perm : ∀ l, (clientOrder l).Perm l
  confOrder : ID → Bool → Configuration → Configuration
  confOrder_perm : ∀ id client l, (confOrder id client l).Perm l

def consensusRules (name : String) : Except String RuleSet :=
  if name = "chainedhotstuff" then .ok .chained
  else if name = "fasthotstuff" then .ok .fast
  else if name = "simplehotstuff" then .ok .simple
  else .error ("invalid consensus name: '" ++ name ++ "'")

def byzantineStrategy (name : String) : Except String (Option Strategy) :=
  if name = "silence" then .ok (some .silence)
  else if name = "fork" then .ok (some .fork)
  else if name = "" then .ok none
  else .error ("invalid byzantine strategy: '" ++ name ++ "'")

def cryptoImpl (name : String) : Except String CryptoName :=
  if name = "ecdsa" then .ok .ecdsa
  else if name = "bls12" then .ok .bls12
  else .error ("invalid crypto name: '" ++ name ++ "'")

def leaderRotation (name : String) : Except String RotationName :=
  if name = "round-robin" then .ok .roundRobin
  else if name = "fixed" then .ok (.fixed 1)
  else if name = "rep" then .ok .repBased
  else if name = "car" then .ok .carousel
  else .error ("invalid leader-rotation algorithm: '" ++ name ++ "'")

/-- `net.JoinHostPort`: a host with colons is an IPv6 address. -/
def joinHostPort (host : String) (port : UInt32) : String :=
  if ':' ∈ host.toList then "[" ++ host ++ "]:" ++ toString port.toNat else host ++ ":" ++ toString port.toNat

namespace Machine
variable (M : Machine)

def createReplica (opts : CreateOpts) : Except String Build := do
  M.parsePrivateKey opts.privateKey
  if opts.useTLS then
    M.x509KeyPair opts.certificate opts.certificateKey
  let rules ← consensusRules opts.consensus
  let strategy ← byzantineStrategy opts.byzantineStrategy
  let crypto ← cryptoImpl opts.crypto
  let rotation ← leaderRotation opts.leaderRotation
  return ⟨opts.id,rules,strategy,crypto,rotation⟩

def port (id : ID) (client : Bool) : Except String UInt32 := match M.listen id client with
  | .error e => .error ("failed to create listener: " ++ e)
  | .ok addr => M.getPort addr

def createOne (cfg : CreateOpts) : Call (Option WorkerReplica) String (ID × ReplicaInfo) := do
  let r ← Call.mapError ("failed to create replica: " ++ ·) (Call.lift (M.createReplica cfg))
  let replicaPort ← Call.lift (M.port cfg.id false)
  let clientPort ← Call.lift (M.port cfg.id true)
  Call.change fun _ => some { build := r }
  pure (cfg.id,⟨cfg.id,"",cfg.publicKey,replicaPort,clientPort⟩)

def getConfiguration (id : ID) (conf : Configuration) (client : Bool) : Except String ReplicaConfig :=
  (M.confOrder id client conf).foldlM (fun cfg e => do
    let pubKey ← M.parsePublicKey e.2.publicKey
    let addr := joinHostPort e.2.address (if client then e.2.clientPort else e.2.replicaPort)
    return { cfg with replicas := Function.update cfg.replicas e.2.id (some ⟨e.2.id,addr,pubKey⟩) }) ⟨id,fun _ => none⟩

def connectOne (conf : Configuration) (id : ID) : Call (Option WorkerReplica) Status Unit
  | none => (.error ⟨.notFound,"The replica with ID " ++ toString id.toNat ++ " was not found."⟩,none)
  | some r => match M.getConfiguration id conf false with
    | .error e => (.error (.fromError e),some r)
    | .ok cfg => match M.connect id false with
      | .error e => (.error (.fromError e),some r)
      | .ok _ => (.ok (),some { r with config := some cfg })

def start : Option WorkerReplica → Option WorkerReplica := Option.map fun r => { r with starts := r.starts + 1 }

/-- One round of the loop in `stopReplicas`. A replica that was not started never gets `done`. -/
def stopOne (id : ID) : Call (Option WorkerReplica) Status (ID × List UInt8)
  | none => (.error ⟨.notFound,"The replica with id " ++ toString id.toNat ++ " was not found."⟩,none)
  | some r => if r.starts = 0 then (.hangs,some r) else (.ok (id,M.hash id),some { r with stops := r.stops + 1 })

def startClient (conf : Configuration) (opts : ClientOpts) : Call (Option WorkerClient) String Unit := do
  let cfg ← Call.lift (M.getConfiguration opts.id conf true)
  Call.lift (M.connect opts.id true)
  Call.change fun _ => some { config := cfg, starts := 1 }

def stopClient (id : ID) : Call (Option WorkerClient) Status Unit
  | none => (.error ⟨.notFound,"the client with ID " ++ toString id.toNat ++ " was not found"⟩,none)
  | some c => (.ok (),some { c with stops := c.stops + 1 })

end Machine

namespace Worker
variable (M : Machine)

def onReplicas {ε β : Type} : Call (ID → Option WorkerReplica) ε β → Call Worker ε β :=
  Call.zoom replicas fun w replicas => { w with replicas }

def onClients {ε β : Type} : Call (ID → Option WorkerClient) ε β → Call Worker ε β :=
  Call.zoom clients fun w clients => { w with clients }

def createReplicas (req : List (ID × CreateOpts)) : Call Worker String Configuration := do
  let infos ← onReplicas (Call.forEach (fun cfg => Call.on cfg.id (M.createOne cfg)) ((M.createOrder req).map Prod.snd))
  pure (infos.foldl (fun m e => Setup.assign m e.1 e.2) [])

def startReplicas (conf : Configuration) (ids : List ID) : Call Worker Status Unit :=
  onReplicas (Call.deferring (fun id => Call.on id (M.connectOne conf id))
    (fun id replicas => Function.update replicas id (Machine.start (replicas id))) ids)

def stopReplicas (ids : List ID) : Call Worker Status (List (ID × List UInt8)) := do
  let hashes ← onReplicas (Call.forEach (fun id => Call.on id (M.stopOne id)) ids)
  pure (hashes.foldl (fun m e => Setup.assign m e.1 e.2) [])

def startClients (conf : Configuration) (clients : List (ID × ClientOpts)) : Call Worker String (List Unit) :=
  onClients (Call.forEach (fun opts => Call.on opts.id (M.startClient conf opts)) ((M.clientOrder clients).map Prod.snd))

def stopClients (ids : List ID) : Call Worker Status (List Unit) :=
  onClients (Call.forEach (fun id => Call.on id (Machine.stopClient id)) ids)

end Worker

namespace Machine
variable (M : Machine)

def Knows (client : Bool) (c : ReplicaConfig) (x : ID × ReplicaInfo) : Prop :=
  ∃ key, M.parsePublicKey x.2.publicKey = .ok key ∧
    c.replicas x.1 = some ⟨x.1,joinHostPort x.2.address (if client then x.2.clientPort else x.2.replicaPort),key⟩

/-- The configuration to connect to has exactly the replicas of the map, whatever the order of the iteration. -/
theorem getConfiguration_spec {id : ID} {conf : Configuration} {client : Bool} {c : ReplicaConfig}
    (hconf : (conf.map Prod.fst).Nodup) (hids : ∀ x ∈ conf, x.2.id = x.1) (h : M.getConfiguration id conf client = .ok c) :
    c.id = id ∧ (∀ x ∈ conf, M.Knows client c x) ∧ ∀ j, j ∉ conf.map Prod.fst → c.replicas j = none := by
  have hperm := M.confOrder_perm id client conf
  have hloop (l : Configuration) (hl : (l.map Prod.fst).Nodup) (hlids : ∀ x ∈ l, x.2.id = x.1) (cfg : ReplicaConfig)
      (h : l.foldlM (fun (cfg : ReplicaConfig) e => do
        let pubKey ← M.parsePublicKey e.2.publicKey
        let addr := joinHostPort e.2.address (if client then e.2.clientPort else e.2.replicaPort)
        return { cfg with replicas := Function.update cfg.replicas e.2.id (some ⟨e.2.id,addr,pubKey⟩) }) cfg = .ok c) :
      c.id = cfg.id ∧ (∀ x ∈ l, M.Knows client c x) ∧ ∀ j, j ∉ l.map Prod.fst → c.replicas j = cfg.replicas j := by
    induction l generalizing cfg with
    | nil =>
      cases h
      exact ⟨rfl,by simp,fun _ _ => rfl⟩
    | cons e l ih =>
      obtain ⟨he,hl⟩ := List.nodup_cons.mp hl
      rw [List.foldlM_cons] at h
      cases hkey : M.parsePublicKey e.2.publicKey with
      | error err =>
        rw [hkey] at h
        cases h
      | ok key =>
        rw [hkey] at h
        obtain ⟨hid,hknown,hrest⟩ := ih hl (fun x hx => hlids x (List.mem_cons_of_mem _ hx)) _ h
        have heid : e.2.id = e.1 := hlids e List.mem_cons_self
        refine ⟨hid,fun x hx => ?_,fun j hj => ?_⟩
        · rcases List.mem_cons.mp hx with rfl | hx
          · refine ⟨key,hkey,?_⟩
            rw [hrest _ he,heid]
            exact Function.update_self _ _ _
          · exact hknown x hx
        · rw [List.map_cons,List.mem_cons,not_or] at hj
          rw [hrest j hj.2,heid]
          exact Function.update_of_ne hj.1 _ _
  obtain ⟨hid,hknown,hrest⟩ := hloop _ ((hperm.map _).nodup_iff.mpr hconf) (fun x hx => hids x (hperm.mem_iff.mp hx)) _ h
  exact ⟨hid,fun x hx => hknown x (hperm.mem_iff.mpr hx),fun j hj => hrest j fun h => hj ((hperm.map _).mem_iff.mp h)⟩

end Machine

/-- There is an entry of a map exactly if it should be there, and it is as it should be. -/
def Holds {α : Type} (present : Prop) (P : α → Prop) : Option α → Prop
  | none => ¬ present
  | some a => present ∧ P a

section Holds
variable {α : Type} {present present' : Prop} {P P' : α → Prop} {o : Option α}

theorem Holds.get (h : Holds present P o) (hp : present) : ∃ a, o = some a ∧ P a := by
  cases o with
  | none => exact absurd hp h
  | some a => exact ⟨a,rfl,h.2⟩

theorem Holds.eq_none (h : Holds present P o) (hp : ¬ present) : o = none := by
  cases o with
  | none => rfl
  | some a => exact absurd h.1 hp

theorem Holds.mono (h : Holds present P o) (hp : present ↔ present') (hP : ∀ a, present → P a → P' a) :
    Holds present' P' o := by
  cases o with
  | none => exact fun h' => h (hp.mpr h')
  | some a => exact ⟨hp.mp h.1,hP a h.1 h.2⟩

end Holds

structure WorkerReplica.Reached (M : Machine) (conf : Configuration) (id : ID) (n : Nat) (r : WorkerReplica) : Prop where
  starts : r.starts = if 2 ≤ n then 1 else 0
  stops : r.stops = if 5 ≤ n then 1 else 0
  config : 2 ≤ n → ∃ c, r.config = some c ∧ M.getConfiguration id conf false = .ok c

/-- At no time is a replica started twice, or before it is connected, or stopped before it is started. -/
structure WorkerReplica.Orderly (r : WorkerReplica) : Prop where
  starts : r.starts ≤ 1
  stops : r.stops ≤ r.starts
  config : r.starts = 1 → r.config.isSome = true

structure WorkerClient.Reached (M : Machine) (conf : Configuration) (id : ID) (n : Nat) (c : WorkerClient) : Prop where
  starts : c.starts = 1
  stops : c.stops = if 4 ≤ n then 1 else 0
  config : M.getConfiguration id conf true = .ok c.config

structure WorkerClient.Orderly (c : WorkerClient) : Prop where
  starts : c.starts = 1
  stops : c.stops ≤ 1

theorem WorkerReplica.Reached.orderly {M : Machine} {conf : Configuration} {id : ID} {n : Nat} {r : WorkerReplica}
    (h : r.Reached M conf id n) : r.Orderly := by
  have hstarts := h.starts
  have hstops := h.stops
  refine ⟨?_,?_,fun h1 => ?_⟩
  · split_ifs at hstarts <;> omega
  · split_ifs at hstarts hstops <;> omega
  · obtain ⟨c,hc,-⟩ := h.config (by
      by_contra hn
      rw [if_neg hn] at hstarts
      omega)
    rw [hc]
    rfl

theorem WorkerClient.Reached.orderly {M : Machine} {conf : Configuration} {id : ID} {n : Nat} {c : WorkerClient}
    (h : c.Reached M conf id n) : c.Orderly := by
  refine ⟨h.starts,?_⟩
  have hstops := h.stops
  split_ifs at hstops <;> omega

namespace Worker

structure Stage (M : Machine) (ids cids : List ID) (conf : Configuration) (n : Nat) (w : Worker) : Prop where
  replicas : ∀ id, Holds (id ∈ ids ∧ 1 ≤ n) (WorkerReplica.Reached M conf id n) (w.replicas id)
  clients : ∀ id, Holds (id ∈ cids ∧ 3 ≤ n) (WorkerClient.Reached M conf id n) (w.clients id)

structure Orderly (ids cids : List ID) (w : Worker) : Prop where
  replicas : ∀ id r, w.replicas id = some r → id ∈ ids ∧ r.Orderly
  clients : ∀ id c, w.clients id = some c → id ∈ cids ∧ c.Orderly

variable {M : Machine} {ids cids : List ID} {conf : Configuration} {n : Nat} {w : Worker}

theorem Stage.new (conf : Configuration) : Stage M ids cids conf 0 {} := by
  refine ⟨fun id => ?_,fun id => ?_⟩
  · exact fun h => absurd h.2 (by decide)
  · exact fun h => absurd h.2 (by decide)

theorem Stage.orderly (h : Stage M ids cids conf n w) : Orderly ids cids w := by
  refine ⟨fun id r hr => ?_,fun id c hc => ?_⟩
  · have hid := h.replicas id
    rw [hr] at hid
    exact ⟨hid.1.1,hid.2.orderly⟩
  · have hid := h.clients id
    rw [hc] at hid
    exact ⟨hid.1.1,hid.2.orderly⟩

/-- Before the replicas are connected the configuration does not matter. -/
theorem Stage.early (h : Stage M ids cids conf n w) (hn : n < 2) (conf' : Configuration) : Stage M ids cids conf' n w where
  replicas id := (h.replicas id).mono Iff.rfl fun _ _ hr => ⟨hr.starts,hr.stops,fun h2 => absurd hn (Nat.not_lt.mpr h2)⟩
  clients id := (h.clients id).mono Iff.rfl fun _ hp _ => absurd hp.2 (by omega)

theorem Orderly.of_replicas (h : Orderly ids cids w) {replicas : ID → Option WorkerReplica}
    (hr : ∀ id, replicas id = w.replicas id ∨ id ∈ ids ∧ ∀ r, replicas id = some r → r.Orderly) :
    Orderly ids cids { w with replicas } where
  replicas id r hid := by
    change replicas id = some r at hid
    rcases hr id with heq | ⟨hmem,hall⟩
    · exact h.replicas id r (heq ▸ hid)
    · exact ⟨hmem,hall r hid⟩
  clients := h.clients

theorem Orderly.of_clients (h : Orderly ids cids w) {clients : ID → Option WorkerClient}
    (hc : ∀ id, clients id = w.clients id ∨ id ∈ cids ∧ ∀ c, clients id = some c → c.Orderly) :
    Orderly ids cids { w with clients } where
  replicas := h.replicas
  clients id c hid := by
    change clients id = some c at hid
    rcases hc id with heq | ⟨hmem,hall⟩
    · exact h.clients id c (heq ▸ hid)
    · exact ⟨hmem,hall c hid⟩

/-- The clients are not concerned by a request about replicas. -/
theorem Stage.of_replicas (h : Stage M ids cids conf n w) {replicas : ID → Option WorkerReplica} {k : Nat}
    (hk : (3 ≤ n ↔ 3 ≤ k) ∧ (4 ≤ n ↔ 4 ≤ k))
    (hr : ∀ id, Holds (id ∈ ids ∧ 1 ≤ k) (WorkerReplica.Reached M conf id k) (replicas id)) :
    Stage M ids cids conf k { w with replicas } where
  replicas := hr
  clients id := (h.clients id).mono (and_congr_right fun _ => hk.1) fun _ _ hc =>
    ⟨hc.starts,hc.stops.trans (if_congr hk.2 rfl rfl),hc.config⟩

/-- The replicas are not concerned by a request about clients. -/
theorem Stage.of_clients (h : Stage M ids cids conf n w) {clients : ID → Option WorkerClient} {k : Nat}
    (hk : (1 ≤ n ↔ 1 ≤ k) ∧ (2 ≤ n ↔ 2 ≤ k) ∧ (5 ≤ n ↔ 5 ≤ k))
    (hc : ∀ id, Holds (id ∈ cids ∧ 3 ≤ k) (WorkerClient.Reached M conf id k) (clients id)) :
    Stage M ids cids conf k { w with clients } where
  replicas id := (h.replicas id).mono (and_congr_right fun _ => hk.1) fun _ _ hr =>
    ⟨hr.starts.trans (if_congr hk.2.1 rfl rfl),hr.stops.trans (if_congr hk.2.2 rfl rfl),fun h2 => hr.config (hk.2.1.mpr h2)⟩
  clients := hc

end Worker

namespace Machine
variable (M : Machine)

structure Reports (opts : CreateOpts) (x : ID × ReplicaInfo) : Prop where
  key : x.1 = opts.id
  id : x.2.id = opts.id
  publicKey : x.2.publicKey = opts.publicKey
  replicaPort : M.port opts.id false = .ok x.2.replicaPort
  clientPort : M.port opts.id true = .ok x.2.clientPort

theorem createOne_spec (cfg : CreateOpts) : Call.Spec (· = none) (M.createOne cfg)
    (fun x slot => (∃ b, slot = some { build := b }) ∧ M.Reports cfg x) fun _ slot => slot = none := by
  refine Call.Spec.bind (Q := fun _ slot => slot = none) ?_ fun b => ?_
  · exact .mapError (.lift (fun _ _ _ h => h) fun _ _ _ h => h)
  refine Call.Spec.bind (Q := fun p slot => slot = none ∧ M.port cfg.id false = .ok p) ?_ fun replicaPort => ?_
  · exact .lift (fun p hp _ h => ⟨h,hp⟩) fun _ _ _ h => h
  refine Call.Spec.bind (Q := fun p slot => slot = none ∧ M.port cfg.id false = .ok replicaPort ∧ M.port cfg.id true = .ok p)
    ?_ fun clientPort => ?_
  · exact .lift (fun p hp _ h => ⟨h.1,h.2,hp⟩) fun _ _ _ h => h.1
  refine Call.Spec.bind (Q := fun _ slot => (∃ b, slot = some { build := b }) ∧ M.port cfg.id false = .ok replicaPort ∧
    M.port cfg.id true = .ok clientPort) ?_ fun _ => ?_
  · exact .change fun _ h => ⟨⟨b,rfl⟩,h.2⟩
  · exact .pure fun _ h => ⟨h.1,⟨rfl,rfl,rfl,h.2.1,h.2.2⟩⟩

theorem connectOne_spec (conf : Configuration) (id : ID) :
    Call.Spec (fun slot => ∃ r, slot = some r ∧ r.Reached M conf id 1) (M.connectOne conf id)
      (fun _ slot => ∃ r c, slot = some r ∧ r.Reached M conf id 1 ∧ r.config = some c ∧ M.getConfiguration id conf false = .ok c)
      fun st slot => st.code = .unknown ∧ ∃ r, slot = some r ∧ r.Reached M conf id 1 := by
  rintro _ ⟨r,rfl,hr⟩
  rw [connectOne]
  cases hcfg : M.getConfiguration id conf false with
  | error e => exact ⟨rfl,r,rfl,hr⟩
  | ok c =>
    cases M.connect id false with
    | error e => exact ⟨rfl,r,rfl,hr⟩
    | ok _ => exact ⟨_,c,rfl,⟨hr.starts,hr.stops,fun h => absurd h (by decide)⟩,rfl,rfl⟩

/-- The replica that the deferred start finds has been connected. -/
theorem start_reached {conf : Configuration} {id : ID} {r : WorkerReplica} {c : ReplicaConfig} (hr : r.Reached M conf id 1)
    (hc : r.config = some c) (hconf : M.getConfiguration id conf false = .ok c) :
    ∃ r', start (some r) = some r' ∧ r'.Reached M conf id 2 :=
  ⟨{ r with starts := r.starts + 1 },rfl,⟨congrArg (· + 1) hr.starts,hr.stops,fun _ => ⟨c,hc,hconf⟩⟩⟩

theorem stopOne_spec (conf : Configuration) (id : ID) :
    Call.Spec (fun slot => ∃ r, slot = some r ∧ r.Reached M conf id 4) (M.stopOne id)
      (fun x slot => x = (id,M.hash id) ∧ ∃ r, slot = some r ∧ r.Reached M conf id 5) fun _ _ => False := by
  rintro _ ⟨r,rfl,hr⟩
  have hstarts : r.starts = 1 := hr.starts
  rw [stopOne,if_neg (by rw [hstarts]; decide)]
  exact ⟨rfl,_,rfl,⟨hr.starts,congrArg (· + 1) hr.stops,fun _ => hr.config (by decide)⟩⟩

theorem startClient_spec (conf : Configuration) (opts : ClientOpts) : Call.Spec (· = none) (M.startClient conf opts)
    (fun _ slot => ∃ c, slot = some c ∧ c.Reached M conf opts.id 3) fun _ slot => slot = none := by
  refine Call.Spec.bind (Q := fun c slot => slot = none ∧ M.getConfiguration opts.id conf true = .ok c) ?_ fun c => ?_
  · exact .lift (fun c hc _ h => ⟨h,hc⟩) fun _ _ _ h => h
  refine Call.Spec.bind (Q := fun _ slot => slot = none ∧ M.getConfiguration opts.id conf true = .ok c) ?_ fun _ => ?_
  · exact .lift (fun _ _ _ h => h) fun _ _ _ h => h.1
  · exact .change fun _ h => ⟨_,rfl,⟨rfl,rfl,h.2⟩⟩

theorem stopClient_spec (conf : Configuration) (id : ID) :
    Call.Spec (fun slot => ∃ c, slot = some c ∧ c.Reached M conf id 3) (stopClient id)
      (fun _ slot => ∃ c, slot = some c ∧ c.Reached M conf id 4) fun _ _ => False := by
  rintro _ ⟨c,rfl,hc⟩
  exact ⟨_,rfl,⟨hc.starts,congrArg (· + 1) hc.stops,hc.config⟩⟩

end Machine

namespace Worker.Stage
variable {M : Machine} {ids cids : List ID} {conf : Configuration} {w : Worker}

theorem createReplicas (hw : Stage M ids cids conf 0 w) (hids : ids.Nodup) (req : List (ID × CreateOpts))
    (hreq : req.map Prod.fst = ids) (hopts : ∀ x ∈ req, x.2.id = x.1) :
    Call.Ends (fun infos u => Stage M ids cids conf 1 u ∧ (infos.map Prod.fst).Perm ids ∧
      ∀ x ∈ infos, ∃ opts, (x.1,opts) ∈ req ∧ M.Reports opts x) (fun _ u => Orderly ids cids u)
      (Worker.createReplicas M req w) := by
  have hperm : (((M.createOrder req).map Prod.snd).map fun o => o.id).Perm ids := by
    have hsnd : ((M.createOrder req).map Prod.snd).map (fun o => o.id) = (M.createOrder req).map Prod.fst := by
      rw [List.map_map]
      exact List.map_congr_left fun x hx => hopts x ((M.createOrder_perm req).mem_iff.mp hx)
    rw [hsnd,← hreq]
    exact (M.createOrder_perm req).map _
  have hnone (id : ID) : w.replicas id = none := (hw.replicas id).eq_none fun h => absurd h.2 (by decide)
  have hloop := Call.forEach_on _ (hperm.nodup_iff.mpr hids) (fun cfg _ => M.createOne_spec cfg) (s := w.replicas)
    fun cfg _ => hnone cfg.id
  refine Call.Ends.bind (hloop.zoom.mono (fun infos u h => h) ?_) ?_
  · rintro e _ ⟨t,rfl,-,ht⟩
    refine hw.orderly.of_replicas fun id => ?_
    rcases ht id with heq | ⟨cfg,hcfg,rfl,hend⟩
    · exact .inl heq
    · refine .inr ⟨hperm.mem_iff.mp (List.mem_map_of_mem hcfg),fun r hr => ?_⟩
      rcases hend with ⟨x,⟨b,hb⟩,-⟩ | hnil
      · cases hb.symm.trans hr
        exact ⟨Nat.zero_le _,le_rfl,nofun⟩
      · cases hnil.symm.trans hr
  · rintro infos _ ⟨t,rfl,hlen,hok,hrest⟩
    have hkeys : infos.map Prod.fst = ((M.createOrder req).map Prod.snd).map fun o => o.id :=
      map_eq_map_of_zip hlen fun x hx => (hok x hx).2.key.symm
    have hinfos : infos.foldl (fun m e => Setup.assign m e.1 e.2) [] = infos := by
      rw [Setup.foldl_assign Prod.fst Prod.snd (hkeys ▸ hperm.nodup_iff.mpr hids)]
      exact List.map_id _
    rw [hinfos]
    refine ⟨hw.of_replicas ⟨by decide,by decide⟩ fun id => ?_,hkeys ▸ hperm,fun x hx => ?_⟩
    · by_cases hid : id ∈ ids
      · obtain ⟨cfg,hcfg,rfl⟩ := List.mem_map.mp (hperm.mem_iff.mpr hid)
        obtain ⟨x,hx⟩ := exists_mem_zip_left hlen hcfg
        obtain ⟨⟨b,hb⟩,-⟩ := hok _ hx
        exact hb ▸ ⟨⟨hid,le_rfl⟩,⟨rfl,rfl,fun h => absurd h (by decide)⟩⟩
      · rw [hrest id fun h => hid (hperm.mem_iff.mp h),hnone]
        exact fun h => hid h.1
    · obtain ⟨o,ho⟩ := exists_mem_zip_right hlen hx
      obtain ⟨y,hy,rfl⟩ := List.mem_map.mp (List.of_mem_zip ho).1
      have hreports := (hok _ ho).2
      refine ⟨y.2,?_,hreports⟩
      have hmem := (M.createOrder_perm req).mem_iff.mp hy
      rw [hreports.key,hopts y hmem]
      exact hmem

theorem startReplicas (hw : Stage M ids cids conf 1 w) (hids : ids.Nodup) :
    Call.Ends (fun _ u => Stage M ids cids conf 2 u) (fun st u => st.code = .unknown ∧ Orderly ids cids u)
      (Worker.startReplicas M conf ids w) := by
  have hall (id : ID) (hid : id ∈ ids) : ∃ r, w.replicas id = some r ∧ r.Reached M conf id 1 :=
    (hw.replicas id).get ⟨hid,le_rfl⟩
  have hloop := Call.deferring_on (fun id => id) (d := fun _ => Machine.start) (by rwa [List.map_id'])
    (fun id _ => M.connectOne_spec conf id) (s := w.replicas) hall
  rw [Worker.startReplicas,onReplicas]
  refine hloop.zoom.mono ?_ ?_
  · rintro _ _ ⟨t,rfl,hdone,hrest⟩
    rw [List.map_id'] at hrest
    refine hw.of_replicas ⟨by decide,by decide⟩ fun id => ?_
    by_cases hid : id ∈ ids
    · obtain ⟨_,_,⟨r,c,rfl,hr,hc,hconf⟩,ht⟩ := hdone id hid
      obtain ⟨r',hr',hreached⟩ := M.start_reached hr hc hconf
      rw [ht,hr']
      exact ⟨⟨hid,by decide⟩,hreached⟩
    · rw [hrest id hid,(hw.replicas id).eq_none fun h => hid h.1]
      exact fun h => hid h.1
  · rintro st _ ⟨t,rfl,⟨_,_,hcode,-⟩,ht⟩
    refine ⟨hcode,hw.orderly.of_replicas fun id => ?_⟩
    rcases ht id with heq | ⟨_,hid,rfl,hend⟩
    · exact .inl heq
    · refine .inr ⟨hid,fun r hr => ?_⟩
      rcases hend with ⟨_,_,⟨r',c,rfl,hr',hc,hconf⟩,hstart⟩ | ⟨-,r',hsome,hr'⟩
      · obtain ⟨r'',hr'',hreached⟩ := M.start_reached hr' hc hconf
        cases (hstart.trans hr'').symm.trans hr
        exact hreached.orderly
      · cases hsome.symm.trans hr
        exact hr'.orderly

theorem stopReplicas (hw : Stage M ids cids conf 4 w) (hids : ids.Nodup) :
    Call.Ends (fun hashes u => Stage M ids cids conf 5 u ∧ hashes = ids.map fun id => (id,M.hash id)) (fun _ _ => False)
      (Worker.stopReplicas M ids w) := by
  have hall (id : ID) (hid : id ∈ ids) : ∃ r, w.replicas id = some r ∧ r.Reached M conf id 4 :=
    (hw.replicas id).get ⟨hid,by decide⟩
  have hloop := Call.forEach_on (fun id => id) (by rwa [List.map_id']) (fun id _ => M.stopOne_spec conf id)
    (s := w.replicas) hall
  refine Call.Ends.bind (hloop.zoom.mono (fun hashes u h => h) ?_) ?_
  · rintro _ _ ⟨t,rfl,⟨_,_,h⟩,-⟩
    exact h
  · rintro hashes _ ⟨t,rfl,hlen,hok,hrest⟩
    rw [List.map_id'] at hrest
    have hhashes : hashes = ids.map fun id => (id,M.hash id) := by
      rw [← map_eq_map_of_zip (g := fun x => x) hlen fun x hx => (hok x hx).1.symm,List.map_id']
    refine ⟨hw.of_replicas ⟨by decide,by decide⟩ fun id => ?_,?_⟩
    · by_cases hid : id ∈ ids
      · obtain ⟨x,hx⟩ := exists_mem_zip_left hlen hid
        obtain ⟨-,r,hr,hreached⟩ := hok _ hx
        rw [hr]
        exact ⟨⟨hid,by decide⟩,hreached⟩
      · rw [hrest id hid,(hw.replicas id).eq_none fun h => hid h.1]
        exact fun h => hid h.1
    · rw [Setup.foldl_assign Prod.fst Prod.snd (by rw [hhashes,List.map_map]; exact (List.map_id' ids).symm ▸ hids)]
      exact (List.map_id _).trans hhashes

theorem startClients (hw : Stage M ids cids conf 2 w) (hcids : cids.Nodup) (clients : List (ID × ClientOpts))
    (hreq : clients.map Prod.fst = cids) (hopts : ∀ x ∈ clients, x.2.id = x.1) :
    Call.Ends (fun _ u => Stage M ids cids conf 3 u) (fun _ u => Orderly ids cids u)
      (Worker.startClients M conf clients w) := by
  have hperm : (((M.clientOrder clients).map Prod.snd).map fun o => o.id).Perm cids := by
    have hsnd : ((M.clientOrder clients).map Prod.snd).map (fun o => o.id) = (M.clientOrder clients).map Prod.fst := by
      rw [List.map_map]
      exact List.map_congr_left fun x hx => hopts x ((M.clientOrder_perm clients).mem_iff.mp hx)
    rw [hsnd,← hreq]
    exact (M.clientOrder_perm clients).map _
  have hnone (id : ID) : w.clients id = none := (hw.clients id).eq_none fun h => absurd h.2 (by decide)
  have hloop := Call.forEach_on _ (hperm.nodup_iff.mpr hcids) (fun opts _ => M.startClient_spec conf opts) (s := w.clients)
    fun opts _ => hnone opts.id
  rw [Worker.startClients,onClients]
  refine hloop.zoom.mono ?_ ?_
  · rintro _ _ ⟨t,rfl,hlen,hok,hrest⟩
    refine hw.of_clients ⟨by decide,by decide,by decide⟩ fun id => ?_
    by_cases hid : id ∈ cids
    · obtain ⟨opts,ho,rfl⟩ := List.mem_map.mp (hperm.mem_iff.mpr hid)
      obtain ⟨x,hx⟩ := exists_mem_zip_left hlen ho
      obtain ⟨c,hc,hreached⟩ := hok _ hx
      exact hc ▸ ⟨⟨hid,le_rfl⟩,hreached⟩
    · rw [hrest id fun h => hid (hperm.mem_iff.mp h),hnone]
      exact fun h => hid h.1
  · rintro e _ ⟨t,rfl,-,ht⟩
    refine hw.orderly.of_clients fun id => ?_
    rcases ht id with heq | ⟨opts,ho,rfl,hend⟩
    · exact .inl heq
    · refine .inr ⟨hperm.mem_iff.mp (List.mem_map_of_mem ho),fun c hc => ?_⟩
      rcases hend with ⟨_,c',hc',hreached⟩ | hnil
      · cases hc'.symm.trans hc
        exact hreached.orderly
      · cases hnil.symm.trans hc

theorem stopClients (hw : Stage M ids cids conf 3 w) (hcids : cids.Nodup) :
    Call.Ends (fun _ u => Stage M ids cids conf 4 u) (fun _ _ => False) (Worker.stopClients cids w) := by
  have hall (id : ID) (hid : id ∈ cids) : ∃ c, w.clients id = some c ∧ c.Reached M conf id 3 :=
    (hw.clients id).get ⟨hid,le_rfl⟩
  have hloop := Call.forEach_on (fun id => id) (by rwa [List.map_id']) (fun id _ => M.stopClient_spec conf id)
    (s := w.clients) hall
  rw [Worker.stopClients,onClients]
  refine hloop.zoom.mono ?_ ?_
  · rintro _ _ ⟨t,rfl,hlen,hok,hrest⟩
    rw [List.map_id'] at hrest
    refine hw.of_clients ⟨by decide,by decide,by decide⟩ fun id => ?_
    by_cases hid : id ∈ cids
    · obtain ⟨x,hx⟩ := exists_mem_zip_left hlen hid
      obtain ⟨c,hc,hreached⟩ := hok _ hx
      rw [hc]
      exact ⟨⟨hid,by decide⟩,hreached⟩
    · rw [hrest id hid,(hw.clients id).eq_none fun h => hid h.1]
      exact fun h => hid h.1
  · rintro _ _ ⟨t,rfl,⟨_,_,h⟩,-⟩
    exact h

end Worker.Stage

end Hotstuff.Orchestration
