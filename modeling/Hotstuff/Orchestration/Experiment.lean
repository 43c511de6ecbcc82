import Hotstuff.Orchestration.Worker

/-! The controller of an experiment, and the workers on its hosts. Each request goes over a link that can fail on the way
there and on the way back. -/
namespace Hotstuff.Orchestration
open Library

inductive Kind where
  | createReplica
  | startReplica
  | startClient
  | stopClient
  | stopReplica
  deriving DecidableEq, Repr

inductive Request where
  | createReplica (replicas : List (ID × CreateOpts))
  | startReplica (configuration : Configuration) (ids : List ID)
  | startClient (clients : List (ID × ClientOpts)) (configuration : Configuration)
  | stopClient (ids : List ID)
  | stopReplica (ids : List ID)

inductive Response where
  | createReplica (replicas : Configuration)
  | startReplica
  | startClient
  | stopClient
  | stopReplica (hashes : List (ID × List UInt8))

def Request.kind : Request → Kind
  | .createReplica _ => .createReplica
  | .startReplica _ _ => .startReplica
  | .startClient _ _ => .startClient
  | .stopClient _ => .stopClient
  | .stopReplica _ => .stopReplica

def Response.kind : Response → Kind
  | .createReplica _ => .createReplica
  | .startReplica => .startReplica
  | .startClient => .startClient
  | .stopClient => .stopClient
  | .stopReplica _ => .stopReplica

def Kind.response : Kind → String
  | .createReplica => "*orchestrationpb.CreateReplicaResponse"
  | .startReplica => "*orchestrationpb.StartReplicaResponse"
  | .startClient => "*orchestrationpb.StartClientResponse"
  | .stopClient => "*orchestrationpb.StopClientResponse"
  | .stopReplica => "*orchestrationpb.StopReplicaResponse"

def Kind.sequence : List Kind := [.createReplica,.startReplica,.startClient,.stopClient,.stopReplica]

def Worker.serve (M : Machine) : Request → Call Worker Status Response
  | .createReplica replicas => do
    let infos ← Call.mapError .fromError (createReplicas M replicas)
    pure (.createReplica infos)
  | .startReplica configuration ids => do
    startReplicas M configuration ids
    pure .startReplica
  | .startClient clients configuration => do
    let _ ← Call.mapError .fromError (startClients M configuration clients)
    pure .startClient
  | .stopClient ids => do
    let _ ← stopClients ids
    pure .stopClient
  | .stopReplica ids => do
    let hashes ← stopReplicas M ids
    pure (.stopReplica hashes)

structure Node where
  worker : Worker := {}
  served : List (Request × Return Status Response) := []
  quit : Bool := false

def Node.after (node : Node) (req : Request) (r : Return Status Response) (w : Worker) : Node :=
  { node with worker := w, served := node.served ++ [(req,r)] }

def Status.err (s : Status) : String :=
  "rpc error: code = " ++ (match s.code with | .notFound => "NotFound" | .unknown => "Unknown") ++ " desc = " ++ s.message

structure KeyChain where
  privateKey : List UInt8
  publicKey : List UInt8
  certificate : List UInt8
  certificateKey : List UInt8

/-- An experiment with all that its run depends on: the options to be copied, the generated keys, the links and the
machines of the hosts, and the orders in which maps are iterated and replies come in. -/
structure Controller where
  experiment : Experiment
  replicaOpts : CreateOpts
  visit : ID → List (String × Int64) → List (String × Int64)
  generateCA : Except String (List UInt8)
  lookupIP : String → Option (List String)
  generateKeyChain : ID → List String → String → Except String KeyChain
  send : Kind → String → Option String
  recv : Kind → String → Option String
  sendQuit : String → Option String
  machine : String → Machine
  order : Kind → List String
  order_perm : ∀ k, (order k).Perm experiment.hosts
  quitOrder : List String
  quitOrder_perm : quitOrder.Perm experiment.hosts
  hashOrder : List (ID × List UInt8) → List (ID × List UInt8)
  hashOrder_perm : ∀ l, (hashOrder l).Perm l

/-- The comparison at the end of `stopReplicas`. An empty `cmp` is nil, and the next hash replaces it. -/
def sameHash (cmp : List UInt8) : List (ID × List UInt8) → Bool
  | [] => true
  | e :: l =>
    let cmp := if cmp = [] then e.2 else cmp
    if cmp = e.2 then sameHash cmp l else false

namespace Controller
variable (C : Controller)

def rpc (host : String) (req : Request) : Call Node String Response := fun node =>
  match C.send req.kind host with
  | some err => (.error err,node)
  | none =>
    let r := Worker.serve (C.machine host) req node.worker
    match r.1 with
    | .hangs => (.hangs,node.after req r.1 r.2)
    | .ok res => match C.recv req.kind host with
      | some err => (.error err,node.after req r.1 r.2)
      | none => (.ok res,node.after req r.1 r.2)
    | .error st => match C.recv req.kind host with
      | some err => (.error err,node.after req r.1 r.2)
      | none => (.error st.err,node.after req r.1 r.2)

def wrongType (got : Response) (wanted : Kind) : String :=
  "wrong type for response message: got " ++ got.kind.response ++ ", wanted: " ++ wanted.response

def createReplica (host : String) (replicas : List (ID × CreateOpts)) : Call Node String Configuration := do
  match ← C.rpc host (.createReplica replicas) with
  | .createReplica infos => pure infos
  | res => Call.fail (wrongType res .createReplica)

def startReplica (host : String) (configuration : Configuration) (ids : List ID) : Call Node String Unit := do
  match ← C.rpc host (.startReplica configuration ids) with
  | .startReplica => pure ()
  | res => Call.fail (wrongType res .startReplica)

def stopReplica (host : String) (ids : List ID) : Call Node String (List (ID × List UInt8)) := do
  match ← C.rpc host (.stopReplica ids) with
  | .stopReplica hashes => pure hashes
  | res => Call.fail (wrongType res .stopReplica)

def startClient (host : String) (clients : List (ID × ClientOpts)) (configuration : Configuration) :
    Call Node String Unit := do
  match ← C.rpc host (.startClient clients configuration) with
  | .startClient => pure ()
  | res => Call.fail (wrongType res .startClient)

def stopClient (host : String) (ids : List ID) : Call Node String Unit := do
  match ← C.rpc host (.stopClient ids) with
  | .stopClient => pure ()
  | res => Call.fail (wrongType res .stopClient)

def validFor (host : String) : List String := host :: (C.lookupIP host).getD []

/-- The options of a replica with its keys. Without options there is a nil pointer. -/
def keyed (a : Assignment) (ca : List UInt8) (host : String) (id : ID) : Call Node String CreateOpts :=
  match a.replicaOpts.lookup id with
  | none => Call.hang
  | some opts => match C.generateKeyChain id (C.validFor host) C.replicaOpts.crypto with
    | .error err => Call.fail ("failed to generate keychain: " ++ err)
    | .ok keys => pure { C.replicaOpts with
        toReplicaOpts := opts
        certificateAuthority := ca
        privateKey := keys.privateKey
        publicKey := keys.publicKey
        certificate := keys.certificate
        certificateKey := keys.certificateKey }

def createOn (a : Assignment) (ca : List UInt8) (host : String) : Call Node String Configuration := do
  let opts ← Call.forEach (C.keyed a ca host) (a.hostsToReplicas host)
  let wcfg ← C.createReplica host (opts.foldl (fun m o => Setup.assign m o.id o) [])
  pure (wcfg.map fun e => (e.1,{ e.2 with address := host }))

def createReplicas (a : Assignment) : Call (String → Node) String Configuration := do
  let ca ← Call.lift C.generateCA
  let infos ← Call.forEach (fun host => Call.on host (C.createOn a ca host)) (C.order .createReplica)
  pure (infos.flatten.foldl (fun m e => Setup.assign m e.1 e.2) [])

def startReplicas (a : Assignment) (cfg : Configuration) : Call (String → Node) String Unit :=
  Call.mapError (String.intercalate "; ")
    (Call.gather (fun host => Call.on host (C.startReplica host cfg (a.hostsToReplicas host))) (C.order .startReplica))

def startClients (a : Assignment) (cfg : Configuration) : Call (String → Node) String Unit := do
  let _ ← Call.forEach (fun host => Call.on host (C.startClient host
    ((a.hostsToClients host).foldl (fun m id => Setup.assign m id ⟨id⟩) []) cfg)) (C.order .startClient)

def stopClients (a : Assignment) : Call (String → Node) String Unit := do
  let _ ← Call.forEach (fun host => Call.on host (C.stopClient host (a.hostsToClients host))) (C.order .stopClient)

def stopReplicas (a : Assignment) : Call (String → Node) String Unit := do
  let res ← Call.forEach (fun host => Call.on host (C.stopReplica host (a.hostsToReplicas host))) (C.order .stopReplica)
  let hashes := res.flatten.foldl (fun m e => Setup.assign m e.1 e.2) []
  if sameHash [] (C.hashOrder hashes) then pure () else Call.fail "hash mismatch"

def body : Call (String → Node) String Unit := do
  let a ← Call.lift (C.experiment.assignReplicasAndClients C.visit)
  let cfg ← Call.mapError ("failed to create replicas: " ++ ·) (C.createReplicas a)
  Call.mapError ("failed to start replicas: " ++ ·) (C.startReplicas a cfg)
  Call.mapError ("failed to start clients: " ++ ·) (C.startClients a cfg)
  Call.mapError ("failed to stop clients: " ++ ·) (C.stopClients a)
  Call.mapError ("failed to stop replicas: " ++ ·) (C.stopReplicas a)

def quitOn (host : String) : Call Node String Unit := match C.sendQuit host with
  | some err => Call.fail err
  | none => Call.change fun node => { node with quit := true }

def quit : Call (String → Node) String (List Unit) :=
  Call.forEach (fun host => Call.on host (C.quitOn host)) C.quitOrder

/-- `Run` with the deferred call of `quit`, whose error is returned if there is no other one. -/
def run : Call (String → Node) String Unit := fun s =>
  match C.body s with
  | (.hangs,s) => (.hangs,s)
  | (.ok _,s) => match C.quit s with
    | (.ok _,s) => (.ok (),s)
    | (.error e,s) => (.error e,s)
    | (.hangs,s) => (.hangs,s)
  | (.error e,s) => match C.quit s with
    | (.hangs,s) => (.hangs,s)
    | (_,s) => (.error e,s)

end Controller

/-- An answer of a worker that is no surprise: of the right type, or an error other than that something was not found. -/
def Answered (x : Request × Return Status Response) : Prop := match x.2 with
  | .ok res => res.kind = x.1.kind
  | .error st => st.code = .unknown
  | .hangs => False

namespace Node

structure Stage (M : Machine) (ids cids : List ID) (conf : Configuration) (n : Nat) (node : Node) : Prop where
  worker : node.worker.Stage M ids cids conf n
  served : node.served.map (fun x => x.1.kind) = Kind.sequence.take n
  answers : ∀ x ∈ node.served, Answered x

/-- A host at any time: requests come in order, none is answered by surprise, and no replica or client is started twice or
stopped before it is started. -/
structure Orderly (ids cids : List ID) (node : Node) : Prop where
  worker : node.worker.Orderly ids cids
  served : node.served.map (fun x => x.1.kind) <+: Kind.sequence
  answers : ∀ x ∈ node.served, Answered x

variable {M : Machine} {ids cids : List ID} {conf : Configuration} {n : Nat} {node : Node}

theorem Stage.new : Stage M ids cids conf 0 {} := ⟨.new conf,rfl,nofun⟩

theorem Stage.orderly (h : Stage M ids cids conf n node) : Orderly ids cids node :=
  ⟨h.worker.orderly,h.served ▸ List.take_prefix _ _,h.answers⟩

theorem Stage.early (h : Stage M ids cids conf n node) (hn : n < 2) (conf' : Configuration) : Stage M ids cids conf' n node :=
  ⟨h.worker.early hn conf',h.served,h.answers⟩

private theorem Stage.served_after (h : Stage M ids cids conf n node) {req : Request}
    (hk : Kind.sequence[n]? = some req.kind) (r : Return Status Response) (w : Worker) :
    (node.after req r w).served.map (fun x => x.1.kind) = Kind.sequence.take (n+1) := by
  rw [Node.after,List.map_append,h.served,List.take_add_one,hk]
  rfl

private theorem Stage.answers_after (h : Stage M ids cids conf n node) {req : Request} {r : Return Status Response}
    (hr : Answered (req,r)) (w : Worker) : ∀ x ∈ (node.after req r w).served, Answered x := by
  intro x hx
  rcases List.mem_append.mp hx with hx | hx
  · exact h.answers x hx
  · exact List.mem_singleton.mp hx ▸ hr

/-- The next request: it gets the host to the next stage unless the worker or the link fails. -/
theorem Stage.rpc {C : Controller} {host : String} {Q : Response → Prop} {req : Request}
    (h : Stage (C.machine host) ids cids conf n node) (hk : Kind.sequence[n]? = some req.kind)
    (hserve : Call.Ends (fun res w => w.Stage (C.machine host) ids cids conf (n+1) ∧ res.kind = req.kind ∧ Q res)
      (fun st w => st.code = .unknown ∧ w.Orderly ids cids) (Worker.serve (C.machine host) req node.worker)) :
    Call.Ends (fun res m => m.Stage (C.machine host) ids cids conf (n+1) ∧ res.kind = req.kind ∧ Q res)
      (fun _ m => m.Orderly ids cids) (C.rpc host req node) := by
  rw [Controller.rpc]
  cases C.send req.kind host with
  | some err => exact h.orderly
  | none =>
    dsimp only
    generalize Worker.serve (C.machine host) req node.worker = r at hserve ⊢
    have hbegin (r : Return Status Response) (w : Worker) :
        (node.after req r w).served.map (fun x => x.1.kind) <+: Kind.sequence :=
      h.served_after hk r w ▸ List.take_prefix _ _
    rcases r with ⟨res | st | _,w⟩
    · obtain ⟨hw,hres,hq⟩ := hserve
      have hnext : (node.after req (.ok res) w).Stage (C.machine host) ids cids conf (n+1) :=
        ⟨hw,h.served_after hk _ w,h.answers_after (r := .ok res) hres w⟩
      cases C.recv req.kind host with
      | some err => exact hnext.orderly
      | none => exact ⟨hnext,hres,hq⟩
    · have hnext : (node.after req (.error st) w).Orderly ids cids :=
        ⟨hserve.2,hbegin _ w,h.answers_after (r := .error st) hserve.1 w⟩
      cases C.recv req.kind host with
      | some err => exact hnext
      | none => exact hnext
    · exact hserve.elim

end Node

namespace Controller
variable (C : Controller)

structure Listed (host : String) (x : ID × ReplicaInfo) : Prop where
  id : x.2.id = x.1
  address : x.2.address = host
  publicKey : ∃ keys, C.generateKeyChain x.1 (C.validFor host) C.replicaOpts.crypto = .ok keys ∧ x.2.publicKey = keys.publicKey
  replicaPort : (C.machine host).port x.1 false = .ok x.2.replicaPort
  clientPort : (C.machine host).port x.1 true = .ok x.2.clientPort

def Keyed (host : String) (id : ID) (o : CreateOpts) : Prop :=
  o.id = id ∧ ∃ keys, C.generateKeyChain id (C.validFor host) C.replicaOpts.crypto = .ok keys ∧ o.publicKey = keys.publicKey

variable {C} {a : Assignment} {host : String} {conf : Configuration} {node : Node}

abbrev Stage (C : Controller) (a : Assignment) (conf : Configuration) (n : Nat) (host : String) (node : Node) : Prop :=
  node.Stage (C.machine host) (a.hostsToReplicas host) (a.hostsToClients host) conf n

abbrev Orderly (a : Assignment) (host : String) (node : Node) : Prop :=
  node.Orderly (a.hostsToReplicas host) (a.hostsToClients host)

private theorem keyed_spec (ha : a.Named) (ca : List UInt8) {id : ID} (hid : id ∈ a.hostsToReplicas host) :
    Call.Spec (C.Stage a conf 0 host) (C.keyed a ca host id) (fun o m => C.Stage a conf 0 host m ∧ C.Keyed host id o)
      fun _ m => Orderly a host m := by
  obtain ⟨opts,hopts,hoid⟩ := ha host id hid
  rw [keyed,hopts]
  dsimp only
  cases hkeys : C.generateKeyChain id (C.validFor host) C.replicaOpts.crypto with
  | error err => exact .fail fun _ h => h.orderly
  | ok keys => exact .pure fun _ h => ⟨h,hoid,keys,hkeys,rfl⟩

section Requests
variable (hids : (a.hostsToReplicas host).Nodup) (hcids : (a.hostsToClients host).Nodup)
include hids

private theorem createReplica_ends (hm : C.Stage a conf 0 host node) (replicas : List (ID × CreateOpts))
    (hreplicas : replicas.map Prod.fst = a.hostsToReplicas host) (hopts : ∀ x ∈ replicas, x.2.id = x.1) :
    Call.Ends (fun infos m => C.Stage a conf 1 host m ∧ (infos.map Prod.fst).Perm (a.hostsToReplicas host) ∧
      ∀ x ∈ infos, ∃ o, (x.1,o) ∈ replicas ∧ (C.machine host).Reports o x) (fun _ m => Orderly a host m)
      (C.createReplica host replicas node) := by
  refine (hm.rpc (Q := fun res => ∀ infos, res = .createReplica infos → (infos.map Prod.fst).Perm (a.hostsToReplicas host) ∧
    ∀ x ∈ infos, ∃ o, (x.1,o) ∈ replicas ∧ (C.machine host).Reports o x) rfl ?_).bind ?_
  · refine (Call.Ends.mapError ((hm.worker.createReplicas hids replicas hreplicas hopts).mono (fun _ _ h => h)
      fun _ _ h => ⟨rfl,h⟩)).bind ?_
    rintro infos w ⟨hw,hinfos⟩
    refine ⟨hw,rfl,fun _ heq => ?_⟩
    cases heq
    exact hinfos
  · rintro res m ⟨hstage,hkind,hinfos⟩
    cases res with
    | createReplica infos => exact ⟨hstage,hinfos infos rfl⟩
    | _ => cases hkind

private theorem startReplica_spec : Call.Spec (C.Stage a conf 1 host) (C.startReplica host conf (a.hostsToReplicas host))
    (fun _ m => C.Stage a conf 2 host m) fun _ m => Orderly a host m := by
  intro node hm
  refine (hm.rpc (Q := fun _ => True) rfl ?_).bind ?_
  · exact (hm.worker.startReplicas hids).bind fun _ w hw => ⟨hw,rfl,trivial⟩
  · rintro res m ⟨hstage,hkind,-⟩
    cases res with
    | startReplica => exact hstage
    | _ => cases hkind

private theorem stopReplica_spec : Call.Spec (C.Stage a conf 4 host) (C.stopReplica host (a.hostsToReplicas host))
    (fun hashes m => C.Stage a conf 5 host m ∧
      hashes = (a.hostsToReplicas host).map fun id => (id,(C.machine host).hash id)) fun _ m => Orderly a host m := by
  intro node hm
  refine (hm.rpc (Q := fun res => ∀ hashes, res = .stopReplica hashes →
    hashes = (a.hostsToReplicas host).map fun id => (id,(C.machine host).hash id)) rfl ?_).bind ?_
  · refine ((hm.worker.stopReplicas hids).mono (fun _ _ h => h) fun _ _ h => h.elim).bind ?_
    rintro hashes w ⟨hw,hhashes⟩
    refine ⟨hw,rfl,fun _ heq => ?_⟩
    cases heq
    exact hhashes
  · rintro res m ⟨hstage,hkind,hhashes⟩
    cases res with
    | stopReplica hashes => exact ⟨hstage,hhashes hashes rfl⟩
    | _ => cases hkind

omit hids
include hcids

private theorem startClient_spec : Call.Spec (C.Stage a conf 2 host)
    (C.startClient host ((a.hostsToClients host).foldl (fun m id => Setup.assign m id ⟨id⟩) []) conf)
    (fun _ m => C.Stage a conf 3 host m ∧ True) fun _ m => Orderly a host m := by
  intro node hm
  have hreq : (a.hostsToClients host).foldl (fun m id => Setup.assign m id (ClientOpts.mk id)) [] =
      (a.hostsToClients host).map fun id => (id,⟨id⟩) :=
    Setup.foldl_assign (fun id => id) _ (by rwa [List.map_id'])
  rw [hreq]
  refine (hm.rpc (Q := fun _ => True) rfl ?_).bind ?_
  · refine (Call.Ends.mapError ((hm.worker.startClients hcids _ ?_ fun x hx => ?_).mono (fun _ _ h => h)
      fun _ _ h => ⟨rfl,h⟩)).bind fun _ w hw => ⟨hw,rfl,trivial⟩
    · rw [List.map_map]
      exact List.map_id' _
    · obtain ⟨id,-,rfl⟩ := List.mem_map.mp hx
      rfl
  · rintro res m ⟨hstage,hkind,-⟩
    cases res with
    | startClient => exact ⟨hstage,trivial⟩
    | _ => cases hkind

private theorem stopClient_spec : Call.Spec (C.Stage a conf 3 host) (C.stopClient host (a.hostsToClients host))
    (fun _ m => C.Stage a conf 4 host m ∧ True) fun _ m => Orderly a host m := by
  intro node hm
  refine (hm.rpc (Q := fun _ => True) rfl ?_).bind ?_
  · exact ((hm.worker.stopClients hcids).mono (fun _ _ h => h) fun _ _ h => h.elim).bind fun _ w hw => ⟨hw,rfl,trivial⟩
  · rintro res m ⟨hstage,hkind,-⟩
    cases res with
    | stopClient => exact ⟨hstage,trivial⟩
    | _ => cases hkind

end Requests

/-- The loop over the replicas of a host, before the request. -/
private theorem keyed_loop (ha : a.Named) (ca : List UInt8) : Call.Spec (C.Stage a conf 0 host)
    (Call.forEach (C.keyed a ca host) (a.hostsToReplicas host)) (fun opts m => C.Stage a conf 0 host m ∧
      opts.length = (a.hostsToReplicas host).length ∧ ∀ x ∈ (a.hostsToReplicas host).zip opts, C.Keyed host x.1 x.2)
    fun _ m => Orderly a host m := by
  let I (done : List ID) (opts : List CreateOpts) (m : Node) : Prop :=
    C.Stage a conf 0 host m ∧ opts.length = done.length ∧ ∀ x ∈ done.zip opts, C.Keyed host x.1 x.2
  refine (Call.Spec.forEach (I := I) fun done id rest opts hsplit => ?_).mono (fun m h => ⟨h,rfl,by simp⟩) (fun _ _ h => h)
    fun _ _ h => h
  rintro m ⟨hm,hlen,hkeyed⟩
  refine (keyed_spec ha ca (hsplit ▸ by simp) m hm).mono (fun o u hu => ⟨hu.1,by simp [hlen],fun x hx => ?_⟩) fun _ _ h => h
  rw [List.zip_append hlen.symm,List.mem_append] at hx
  rcases hx with hx | hx
  · exact hkeyed x hx
  · exact List.mem_singleton.mp hx ▸ hu.2

private theorem Keyed.listed {id : ID} {o : CreateOpts} {x : ID × ReplicaInfo} (h : C.Keyed host id o) (hid : o.id = x.1)
    (hx : (C.machine host).Reports o x) : C.Listed host (x.1,{ x.2 with address := host }) := by
  obtain ⟨hoid,keys,hkeys,hpub⟩ := h
  have hkey : id = x.1 := hoid.symm.trans hid
  refine ⟨hx.id.trans hid,rfl,⟨keys,?_,hx.publicKey.trans hpub⟩,?_,?_⟩
  · rwa [← hkey]
  · rw [← hid]
    exact hx.replicaPort
  · rw [← hid]
    exact hx.clientPort

private theorem createOn_spec (ha : a.Named) (hids : (a.hostsToReplicas host).Nodup) (ca : List UInt8) :
    Call.Spec (C.Stage a conf 0 host) (C.createOn a ca host) (fun infos m => C.Stage a conf 1 host m ∧
      (infos.map Prod.fst).Perm (a.hostsToReplicas host) ∧ ∀ x ∈ infos, C.Listed host x) fun _ m => Orderly a host m := by
  refine (keyed_loop ha ca).bind fun opts => ?_
  rintro m ⟨hm,hlen,hkeyed⟩
  have hoids : opts.map (fun o => o.id) = a.hostsToReplicas host :=
    (map_eq_map_of_zip (f := fun i => i) hlen fun x hx => (hkeyed x hx).1.symm).trans (List.map_id' _)
  have hreq : opts.foldl (fun m o => Setup.assign m o.id o) [] = opts.map fun o => (o.id,o) :=
    Setup.foldl_assign (fun o : CreateOpts => o.id) (fun o => o) (hoids ▸ hids)
  have hkeys : ∀ x ∈ opts.map fun o => (o.id,o), x.2.id = x.1 := by
    intro x hx
    obtain ⟨o,-,rfl⟩ := List.mem_map.mp hx
    rfl
  have hcall := createReplica_ends hids hm (opts.map fun o => (o.id,o)) (by rw [List.map_map]; exact hoids) hkeys
  rw [hreq]
  refine hcall.bind ?_
  rintro infos u ⟨hu,hperm,hinfos⟩
  refine ⟨hu,by rwa [List.map_map],fun y hy => ?_⟩
  obtain ⟨x,hx,rfl⟩ := List.mem_map.mp hy
  obtain ⟨o,ho,hreports⟩ := hinfos x hx
  obtain ⟨o',ho',heq⟩ := List.mem_map.mp ho
  obtain ⟨hoid,rfl⟩ := Prod.mk.inj heq
  obtain ⟨id,hid⟩ := exists_mem_zip_right hlen ho'
  exact (hkeyed _ hid).listed hoid hreports

/-- The configuration that the controller puts together: the replicas of all hosts, with the host, the ports and the key
of each. -/
structure Lists (C : Controller) (a : Assignment) (cfg : Configuration) : Prop where
  keys : (cfg.map Prod.fst).Perm (C.experiment.hosts.flatMap a.hostsToReplicas)
  listed : ∀ x ∈ cfg, ∃ host ∈ C.experiment.hosts, C.Listed host x

/-- A loop over all hosts, in any order, that makes the next request. -/
private theorem phase {β : Type} {n : Nat} {f : String → Call Node String β} {Q : String → β → Prop} {l : List String}
    (hl : l.Perm C.experiment.hosts)
    (hf : ∀ host ∈ C.experiment.hosts, Call.Spec (C.Stage a conf n host) (f host)
      (fun b m => C.Stage a conf (n+1) host m ∧ Q host b) fun _ m => Orderly a host m) :
    Call.Spec (fun s => ∀ host ∈ C.experiment.hosts, C.Stage a conf n host (s host))
      (Call.forEach (fun host => Call.on host (f host)) l)
      (fun bs s => (∀ host ∈ C.experiment.hosts, C.Stage a conf (n+1) host (s host)) ∧ bs.length = l.length ∧
        ∀ x ∈ l.zip bs, Q x.1 x.2) fun _ s => ∀ host ∈ C.experiment.hosts, Orderly a host (s host) := by
  intro s hs
  have hloop := Call.forEach_on (fun host => host) (by rw [List.map_id']; exact hl.nodup_iff.mpr C.experiment.hosts_nodup)
    (fun host hhost => hf host (hl.mem_iff.mp hhost)) (s := s) fun host hhost => hs host (hl.mem_iff.mp hhost)
  refine hloop.mono ?_ ?_
  · rintro bs t ⟨hlen,hok,-⟩
    refine ⟨fun host hhost => ?_,hlen,fun x hx => (hok x hx).2⟩
    obtain ⟨b,hb⟩ := exists_mem_zip_left hlen (hl.mem_iff.mpr hhost)
    exact (hok _ hb).1
  · rintro e t ⟨-,ht⟩ host hhost
    rcases ht host with heq | ⟨_,-,rfl,⟨b,hb,-⟩ | herr⟩
    · rw [heq]
      exact (hs host hhost).orderly
    · exact hb.orderly
    · exact herr

private theorem perm_flatMap_of_zip {α β γ : Type} {f : α → List γ} {g : β → List γ} {l : List α} {m : List β}
    (hlen : m.length = l.length) (h : ∀ x ∈ l.zip m, (g x.2).Perm (f x.1)) : (m.flatMap g).Perm (l.flatMap f) := by
  induction l generalizing m with
  | nil => rw [List.eq_nil_of_length_eq_zero hlen]; exact .nil
  | cons a l ih =>
    obtain ⟨b,m,rfl⟩ := List.exists_cons_of_length_eq_add_one hlen
    rw [List.flatMap_cons,List.flatMap_cons]
    exact (h (a,b) List.mem_cons_self).append (ih (Nat.succ.inj hlen) fun x hx => h x (List.mem_cons_of_mem _ hx))

/-- Maps of different hosts, put together. -/
private theorem flatten_assign {β : Type} {l : List String} {res : List (List (ID × β))} (hl : l.Perm C.experiment.hosts)
    (hlen : res.length = l.length) (hres : ∀ x ∈ l.zip res, (x.2.map Prod.fst).Perm (a.hostsToReplicas x.1))
    (hr : (C.experiment.hosts.flatMap a.hostsToReplicas).Nodup) :
    (res.flatten.map Prod.fst).Perm (C.experiment.hosts.flatMap a.hostsToReplicas) ∧
      res.flatten.foldl (fun m e => Setup.assign m e.1 e.2) [] = res.flatten := by
  have hkeys : (res.flatten.map Prod.fst).Perm (C.experiment.hosts.flatMap a.hostsToReplicas) := by
    rw [List.map_flatten]
    exact (perm_flatMap_of_zip hlen hres).trans (hl.flatMap_right _)
  refine ⟨hkeys,?_⟩
  rw [Setup.foldl_assign Prod.fst Prod.snd (hkeys.nodup_iff.mpr hr)]
  exact List.map_id _

variable (hr : (C.experiment.hosts.flatMap a.hostsToReplicas).Nodup) (hc : (C.experiment.hosts.flatMap a.hostsToClients).Nodup)

include hr in
private theorem createReplicas_spec (ha : a.Named) :
    Call.Spec (fun s => ∀ host ∈ C.experiment.hosts, C.Stage a [] 0 host (s host)) (C.createReplicas a)
      (fun cfg s => (∀ host ∈ C.experiment.hosts, C.Stage a cfg 1 host (s host)) ∧ C.Lists a cfg)
      fun _ s => ∀ host ∈ C.experiment.hosts, Orderly a host (s host) := by
  refine Call.Spec.bind (Q := fun _ s => ∀ host ∈ C.experiment.hosts, C.Stage a [] 0 host (s host)) ?_ fun ca => ?_
  · exact .lift (fun _ _ _ h => h) fun _ _ _ h host hhost => (h host hhost).orderly
  refine (phase (C.order_perm .createReplica) fun host hhost => createOn_spec ha ((List.nodup_flatMap.mp hr).1 host hhost) ca).bind
    fun infos => .pure ?_
  rintro s ⟨hs,hlen,hinfos⟩
  obtain ⟨hkeys,hcfg⟩ := flatten_assign (C.order_perm .createReplica) hlen (fun x hx => (hinfos x hx).1) hr
  rw [hcfg]
  refine ⟨fun host hhost => (hs host hhost).early (by decide) _,hkeys,fun x hx => ?_⟩
  obtain ⟨l,hl,hxl⟩ := List.mem_flatten.mp hx
  obtain ⟨host,hhost⟩ := exists_mem_zip_right hlen hl
  exact ⟨host,(C.order_perm _).mem_iff.mp (List.of_mem_zip hhost).1,(hinfos _ hhost).2 x hxl⟩

include hr in
private theorem startReplicas_spec (cfg : Configuration) :
    Call.Spec (fun s => ∀ host ∈ C.experiment.hosts, C.Stage a cfg 1 host (s host)) (C.startReplicas a cfg)
      (fun _ s => ∀ host ∈ C.experiment.hosts, C.Stage a cfg 2 host (s host))
      fun _ s => ∀ host ∈ C.experiment.hosts, Orderly a host (s host) := by
  have hl := C.order_perm .startReplica
  intro s hs
  refine Call.Ends.mapError ((Call.gather_on (hl.nodup_iff.mpr C.experiment.hosts_nodup)
    (fun host hhost => startReplica_spec ((List.nodup_flatMap.mp hr).1 host (hl.mem_iff.mp hhost)))
    fun host hhost => hs host (hl.mem_iff.mp hhost)).mono ?_ ?_)
  · rintro _ t ⟨hdone,-⟩ host hhost
    obtain ⟨_,hstage⟩ := hdone host (hl.mem_iff.mpr hhost)
    exact hstage
  · rintro _ t ht host hhost
    rcases ht host with heq | ⟨-,⟨_,hstage⟩ | ⟨_,horderly⟩⟩
    · rw [heq]
      exact (hs host hhost).orderly
    · exact hstage.orderly
    · exact horderly

include hc in
private theorem startClients_spec (cfg : Configuration) :
    Call.Spec (fun s => ∀ host ∈ C.experiment.hosts, C.Stage a cfg 2 host (s host)) (C.startClients a cfg)
      (fun _ s => ∀ host ∈ C.experiment.hosts, C.Stage a cfg 3 host (s host))
      fun _ s => ∀ host ∈ C.experiment.hosts, Orderly a host (s host) :=
  (phase (C.order_perm .startClient) fun host hhost => startClient_spec ((List.nodup_flatMap.mp hc).1 host hhost)).bind
    fun _ => .pure fun _ h => h.1

include hc in
private theorem stopClients_spec (cfg : Configuration) :
    Call.Spec (fun s => ∀ host ∈ C.experiment.hosts, C.Stage a cfg 3 host (s host)) (C.stopClients a)
      (fun _ s => ∀ host ∈ C.experiment.hosts, C.Stage a cfg 4 host (s host))
      fun _ s => ∀ host ∈ C.experiment.hosts, Orderly a host (s host) :=
  (phase (C.order_perm .stopClient) fun host hhost => stopClient_spec ((List.nodup_flatMap.mp hc).1 host hhost)).bind
    fun _ => .pure fun _ h => h.1

end Controller

private theorem sameHash_set {cmp : List UInt8} (h : cmp ≠ []) {l : List (ID × List UInt8)} :
    sameHash cmp l = true ↔ ∀ x ∈ l, x.2 = cmp := by
  induction l with
  | nil => simp [sameHash]
  | cons e l ih =>
    rw [sameHash,List.forall_mem_cons,if_neg h]
    split_ifs with heq
    · rw [ih,and_iff_right heq.symm]
    · exact ⟨nofun,fun hall => absurd hall.1.symm heq⟩

/-- Of hashes that are not empty the comparison accepts exactly those that are all the same, whatever the order. -/
theorem sameHash_iff {l : List (ID × List UInt8)} (h : ∀ x ∈ l, x.2 ≠ []) :
    sameHash [] l = true ↔ ∀ x ∈ l, ∀ y ∈ l, x.2 = y.2 := by
  cases l with
  | nil => simp [sameHash]
  | cons e l =>
    rw [sameHash,if_pos rfl,if_pos rfl,sameHash_set (h e List.mem_cons_self)]
    constructor
    · intro h
      have hall : ∀ x ∈ e :: l, x.2 = e.2 := List.forall_mem_cons.mpr ⟨rfl,h⟩
      exact fun x hx y hy => (hall x hx).trans (hall y hy).symm
    · exact fun h x hx => h x (List.mem_cons_of_mem _ hx) e List.mem_cons_self

namespace Controller
variable {C : Controller} {a : Assignment} {cfg : Configuration}

def Agree (C : Controller) (a : Assignment) : Prop := ∀ host ∈ C.experiment.hosts, ∀ id ∈ a.hostsToReplicas host,
  ∀ host' ∈ C.experiment.hosts, ∀ id' ∈ a.hostsToReplicas host', (C.machine host).hash id = (C.machine host').hash id'

private theorem stopReplicas_spec (hr : (C.experiment.hosts.flatMap a.hostsToReplicas).Nodup) :
    Call.Spec (fun s => ∀ host ∈ C.experiment.hosts, C.Stage a cfg 4 host (s host)) (C.stopReplicas a)
      (fun _ s => (∀ host ∈ C.experiment.hosts, C.Stage a cfg 5 host (s host)) ∧ C.Agree a)
      fun _ s => ∀ host ∈ C.experiment.hosts, Orderly a host (s host) := by
  refine (phase (C.order_perm .stopReplica) fun host hhost => stopReplica_spec ((List.nodup_flatMap.mp hr).1 host hhost)).bind
    fun res => ?_
  rintro s ⟨hs,hlen,hres⟩
  have hids : ∀ x ∈ (C.order .stopReplica).zip res, (x.2.map Prod.fst).Perm (a.hostsToReplicas x.1) := by
    intro x hx
    rw [hres x hx,List.map_map]
    exact .of_eq (List.map_id' _)
  obtain ⟨-,hhashes⟩ := flatten_assign (C.order_perm .stopReplica) hlen hids hr
  rw [hhashes]
  dsimp only
  split_ifs with hsame
  · refine ⟨hs,?_⟩
    have hset : ∀ x ∈ C.hashOrder res.flatten, x.2 ≠ [] := by
      intro x hx
      obtain ⟨l,hl,hxl⟩ := List.mem_flatten.mp ((C.hashOrder_perm _).mem_iff.mp hx)
      obtain ⟨host,hhost⟩ := exists_mem_zip_right hlen hl
      have hhash : l = (a.hostsToReplicas host).map fun id => (id,(C.machine host).hash id) := hres _ hhost
      obtain ⟨id,-,rfl⟩ := List.mem_map.mp (hhash ▸ hxl)
      exact List.ne_nil_of_length_pos (by simp [(C.machine host).hash_length])
    rw [sameHash_iff hset] at hsame
    have hmem (host : String) (hhost : host ∈ C.experiment.hosts) (id : ID) (hid : id ∈ a.hostsToReplicas host) :
        (id,(C.machine host).hash id) ∈ C.hashOrder res.flatten := by
      obtain ⟨l,hl⟩ := exists_mem_zip_left hlen ((C.order_perm .stopReplica).mem_iff.mpr hhost)
      refine (C.hashOrder_perm _).mem_iff.mpr (List.mem_flatten.mpr ⟨l,(List.of_mem_zip hl).2,?_⟩)
      have hhash : l = (a.hostsToReplicas host).map fun id => (id,(C.machine host).hash id) := hres _ hl
      exact hhash ▸ List.mem_map_of_mem hid
    exact fun host hhost id hid host' hhost' id' hid' => hsame _ (hmem host hhost id hid) _ (hmem host' hhost' id' hid')
  · exact fun host hhost => (hs host hhost).orderly

def Done (C : Controller) (a : Assignment) (s : String → Node) : Prop :=
  ∃ cfg, C.Lists a cfg ∧ C.Agree a ∧ ∀ host ∈ C.experiment.hosts, C.Stage a cfg 5 host (s host)

private theorem body_spec (h : C.experiment.assignReplicasAndClients C.visit = .ok a)
    (hr : (C.experiment.hosts.flatMap a.hostsToReplicas).Nodup) (hc : (C.experiment.hosts.flatMap a.hostsToClients).Nodup) :
    Call.Spec (fun s => ∀ host ∈ C.experiment.hosts, C.Stage a [] 0 host (s host)) C.body (fun _ s => C.Done a s)
      fun _ s => ∀ host ∈ C.experiment.hosts, Orderly a host (s host) := by
  refine Call.Spec.bind (Q := fun b s => b = a ∧ ∀ host ∈ C.experiment.hosts, C.Stage a [] 0 host (s host)) ?_ fun b => ?_
  · rw [h]
    exact .pure fun _ hs => ⟨rfl,hs⟩
  rintro s ⟨rfl,hs⟩
  refine (Call.Spec.mapError (createReplicas_spec hr (C.experiment.named_of_assign h))).bind (fun cfg => ?_) s hs
  rintro s ⟨hs,hlists⟩
  refine (Call.Spec.mapError (startReplicas_spec hr cfg)).bind (fun _ => ?_) s hs
  refine (Call.Spec.mapError (startClients_spec hc cfg)).bind fun _ => ?_
  refine (Call.Spec.mapError (stopClients_spec hc cfg)).bind fun _ => ?_
  exact (Call.Spec.mapError (stopReplicas_spec hr)).mono (fun _ h => h) (fun _ s h => ⟨cfg,hlists,h.2,h.1⟩) fun _ _ h => h

/-- To quit changes nothing but the mark for it. -/
private theorem quit_spec {P : String → Node → Prop} (hP : ∀ host node, P host node → P host { node with quit := true }) :
    Call.Spec (fun s => ∀ host ∈ C.experiment.hosts, P host (s host)) C.quit
      (fun _ s => ∀ host ∈ C.experiment.hosts, P host (s host) ∧ (s host).quit = true)
      fun _ s => ∀ host ∈ C.experiment.hosts, P host (s host) := by
  intro s hs
  have hl := C.quitOrder_perm
  have hquit (host : String) : Call.Spec (P host) (C.quitOn host) (fun _ m => P host m ∧ m.quit = true) fun _ m => P host m := by
    rw [quitOn]
    cases C.sendQuit host with
    | some err => exact .fail fun _ h => h
    | none => exact .change fun m h => ⟨hP host m h,rfl⟩
  have hloop := Call.forEach_on (fun host => host) (by rw [List.map_id']; exact hl.nodup_iff.mpr C.experiment.hosts_nodup)
    (fun host _ => hquit host) (s := s) fun host hhost => hs host (hl.mem_iff.mp hhost)
  refine hloop.mono ?_ ?_
  · rintro bs t ⟨hlen,hok,-⟩ host hhost
    obtain ⟨b,hb⟩ := exists_mem_zip_left hlen (hl.mem_iff.mpr hhost)
    exact hok _ hb
  · rintro e t ⟨-,ht⟩ host hhost
    rcases ht host with heq | ⟨_,-,rfl,⟨_,hb,-⟩ | herr⟩
    · rw [heq]
      exact hs host hhost
    · exact hb
    · exact herr

private theorem run_spec (h : C.experiment.assignReplicasAndClients C.visit = .ok a)
    (hr : (C.experiment.hosts.flatMap a.hostsToReplicas).Nodup) (hc : (C.experiment.hosts.flatMap a.hostsToClients).Nodup) :
    Call.Ends (fun _ s => C.Done a s ∧ ∀ host ∈ C.experiment.hosts, (s host).quit = true)
      (fun _ s => ∀ host ∈ C.experiment.hosts, Orderly a host (s host)) (C.run fun _ => {}) := by
  have hbody := body_spec h hr hc (fun _ => {}) fun _ _ => .new
  rw [run]
  generalize C.body (fun _ => {}) = r at hbody
  rcases r with ⟨_ | e | _,s⟩
  · obtain ⟨cfg,hlists,hagree,hstage⟩ := hbody
    have hquit := quit_spec (P := C.Stage a cfg 5) (fun _ _ h => ⟨h.worker,h.served,h.answers⟩) s hstage
    dsimp only
    generalize C.quit s = q at hquit
    rcases q with ⟨_ | e | _,t⟩
    · exact ⟨⟨cfg,hlists,hagree,fun host hhost => (hquit host hhost).1⟩,fun host hhost => (hquit host hhost).2⟩
    · exact fun host hhost => (hquit host hhost).orderly
    · exact hquit.elim
  · have hquit := quit_spec (P := Orderly a) (fun _ _ h => ⟨h.worker,h.served,h.answers⟩) s hbody
    dsimp only
    generalize C.quit s = q at hquit
    rcases q with ⟨_ | e | _,t⟩
    · exact fun host hhost => (hquit host hhost).1
    · exact hquit
    · exact hquit.elim
  · exact hbody.elim

structure Connects (C : Controller) (cfg : Configuration) (host : String) (id : ID) (client : Bool) (c : ReplicaConfig) :
    Prop where
  id : c.id = id
  known : ∀ x ∈ cfg, (C.machine host).Knows client c x
  others : ∀ j, j ∉ cfg.map Prod.fst → c.replicas j = none

structure RanReplica (C : Controller) (cfg : Configuration) (host : String) (id : ID) (r : WorkerReplica) : Prop where
  starts : r.starts = 1
  stops : r.stops = 1
  config : ∃ c, r.config = some c ∧ C.Connects cfg host id false c

structure RanClient (C : Controller) (cfg : Configuration) (host : String) (id : ID) (c : WorkerClient) : Prop where
  starts : c.starts = 1
  stops : c.stops = 1
  config : C.Connects cfg host id true c.config

private theorem Lists.connects (hlists : C.Lists a cfg) (hr : (C.experiment.hosts.flatMap a.hostsToReplicas).Nodup)
    {host : String} {id : ID} {client : Bool} {c : ReplicaConfig} (h : (C.machine host).getConfiguration id cfg client = .ok c) :
    C.Connects cfg host id client c := by
  have hids : ∀ x ∈ cfg, x.2.id = x.1 := fun x hx => by
    obtain ⟨host,-,hlisted⟩ := hlists.listed x hx
    exact hlisted.id
  obtain ⟨hid,hknown,hrest⟩ := (C.machine host).getConfiguration_spec (hlists.keys.nodup_iff.mpr hr) hids h
  exact ⟨hid,hknown,hrest⟩

/-- If `Run` returns without an error, each worker was asked for everything in order and told to quit; each replica and
client of a host was connected to all replicas, at the host and port of each, and was started and stopped once; and all
replicas have executed the same. -/
theorem run_completed (C : Controller) {a : Assignment} (h : C.experiment.assignReplicasAndClients C.visit = .ok a)
    (hr : (C.experiment.hosts.flatMap a.hostsToReplicas).length ≤ 2^32)
    (hc : (C.experiment.hosts.flatMap a.hostsToClients).length ≤ 2^32) {s : String → Node}
    (hrun : C.run (fun _ => {}) = (.ok (),s)) : ∃ cfg, C.Lists a cfg ∧ C.Agree a ∧
      ∀ host ∈ C.experiment.hosts, (s host).quit = true ∧ (s host).served.map (fun x => x.1.kind) = Kind.sequence ∧
        (∀ id, Holds (id ∈ a.hostsToReplicas host) (C.RanReplica cfg host id) ((s host).worker.replicas id)) ∧
        ∀ id, Holds (id ∈ a.hostsToClients host) (C.RanClient cfg host id) ((s host).worker.clients id) := by
  obtain ⟨hnodup,hcnodup⟩ := C.experiment.nodup_of_assign h
  obtain ⟨⟨cfg,hlists,hagree,hstage⟩,hquit⟩ := (run_spec h (hnodup hr) (hcnodup hc)).ok hrun
  refine ⟨cfg,hlists,hagree,fun host hhost => ⟨hquit host hhost,(hstage host hhost).served,fun id => ?_,fun id => ?_⟩⟩
  · refine ((hstage host hhost).worker.replicas id).mono (and_iff_left (by decide)) fun r _ hreached => ?_
    obtain ⟨c,hconfig,hget⟩ := hreached.config (by decide)
    exact ⟨hreached.starts,hreached.stops,c,hconfig,hlists.connects (hnodup hr) hget⟩
  · refine ((hstage host hhost).worker.clients id).mono (and_iff_left (by decide)) fun c _ hreached => ?_
    exact ⟨hreached.starts,hreached.stops,hlists.connects (hnodup hr) hreached.config⟩

end Controller

private def machineWith (connect : ID → Bool → Except String Unit) : Machine where
  parsePrivateKey _ := .ok ()
  x509KeyPair _ _ := .ok ()
  parsePublicKey := .ok
  listen _ client := .ok (if client then "client" else "replica")
  getPort addr := .ok (if addr = "client" then 4001 else 4000)
  connect := connect
  hash _ := List.replicate 32 0
  hash_length _ := List.length_replicate
  createOrder l := l.reverse
  createOrder_perm := List.reverse_perm
  clientOrder l := l
  clientOrder_perm l := .refl l
  confOrder _ _ l := l
  confOrder_perm _ _ l := .refl l

private def spread : Experiment := ⟨3,1,["a","b"],[],[],by decide,by decide⟩

private theorem spread_assign : ∃ a, spread.assignReplicasAndClients (fun _ l => l) = .ok a ∧
    spread.hosts.flatMap a.hostsToReplicas = [1,2,3] ∧ a.hostsToReplicas "b" = [3] ∧
    spread.hosts.flatMap a.hostsToClients = [1] := ⟨_,rfl,by decide,by decide,by decide⟩

private def twoHosts (connect : ID → Bool → Except String Unit) : Controller where
  experiment := spread
  replicaOpts := ⟨⟨0,""⟩,[],[],true,[],[],[],"chainedhotstuff","ecdsa","round-robin"⟩
  visit _ l := l
  generateCA := .ok []
  lookupIP _ := none
  generateKeyChain id _ _ := .ok ⟨[id.toUInt8],[id.toUInt8],[],[]⟩
  send _ _ := none
  recv _ _ := none
  sendQuit _ := none
  machine _ := machineWith connect
  order _ := ["b","a"]
  order_perm _ := by decide
  quitOrder := ["a","b"]
  quitOrder_perm := by decide
  hashOrder l := l
  hashOrder_perm l := .refl l

private def smooth : Controller := twoHosts fun _ _ => .ok ()

theorem run_completed_two : ∃ (s : String → Node) (cfg : Configuration), smooth.run (fun _ => {}) = (.ok (),s) ∧
    cfg.length = 3 ∧ (s "a").served.map (fun x => x.1.kind) = Kind.sequence ∧ ((s "b").worker.replicas 3).isSome = true := by
  obtain ⟨a,ha,hr,hb,hc⟩ := spread_assign
  have hrun : smooth.run (fun _ => {}) = (.ok (),(smooth.run fun _ => {}).2) := by
    refine Prod.ext ?_ rfl
    decide +kernel
  generalize (smooth.run fun _ => {}).2 = s at hrun
  obtain ⟨cfg,hlists,-,hhosts⟩ := smooth.run_completed ha (hr ▸ by decide) (hc ▸ by decide) hrun
  obtain ⟨-,hserved,-⟩ := hhosts "a" (by decide)
  obtain ⟨-,-,hreplicas,-⟩ := hhosts "b" (by decide)
  refine ⟨s,cfg,hrun,?_,hserved,?_⟩
  · rw [← List.length_map Prod.fst,hlists.keys.length_eq]
    exact congrArg List.length hr
  · obtain ⟨r,hr,-⟩ := (hreplicas 3).get (hb ▸ List.mem_singleton_self _)
    rw [hr]
    rfl

private def rough : Controller := twoHosts fun id _ => if id = 3 then .error "connection refused" else .ok ()

end Hotstuff.Orchestration
