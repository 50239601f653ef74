import Heraclitus.Episode
import Heraclitus.LogSpec
import Heraclitus.Lib.Run
import Mathlib.Logic.Function.Basic
/-!
# Consensus — the replicated state machine (`heraclitus-raft/src/consensus.rs`)

Applying a committed entry appends its episode to the local log.  The machine counts the `Normal` entries it has applied
and keeps the count, with the applied id, in a side file that it writes after each batch; a log that is ahead of the file
tells a restart how many appends to skip.  Snapshots carry the whole log.
-/
namespace Heraclitus
namespace Raft

/-- `LogId`: the term and node of the leader that created the entry, and the entry's index. -/
structure LogId where
  term : Nat
  node : Nat
  index : Nat
  deriving DecidableEq

/-- The order of log ids: by leader, then by index. -/
def LogId.lt (a b : LogId) : Prop :=
  a.term < b.term ∨ a.term = b.term ∧ (a.node < b.node ∨ a.node = b.node ∧ a.index < b.index)

instance (a b : LogId) : Decidable (a.lt b) := inferInstanceAs (Decidable (_ ∨ _))

def LogId.le (a b : LogId) : Prop := a = b ∨ a.lt b

instance (a b : LogId) : Decidable (a.le b) := inferInstanceAs (Decidable (_ ∨ _))

/-- The voters of a configuration, one set for each half of a joint one. -/
abbrev Membership := List (List Nat)

structure StoredMembership where
  logId : Option LogId := none
  membership : Membership := []
  deriving DecidableEq

inductive EntryPayload where
  | blank
  | normal (bytes : Bytes)
  | membership (m : Membership)
  deriving DecidableEq

structure Entry where
  logId : LogId
  payload : EntryPayload
  deriving DecidableEq

/-- The bytes of a `Normal` entry. -/
def Entry.normal? (e : Entry) : Option Bytes :=
  match e.payload with
  | .normal bytes => some bytes
  | _ => none

/-- The entries that the cluster commits, in order. -/
structure Committed where
  entries : List Entry
  increasing : entries.Pairwise (fun a b => a.logId.lt b.logId)

/-- The `Normal` entries among some entries. -/
def normals (entries : List Entry) : List Bytes := entries.filterMap Entry.normal?

/-- `bincode` of an episode, and of the list of episodes of a snapshot. -/
structure Env where
  encodeEpisode : Episode → Bytes
  decodeEpisode : Bytes → Except String Episode
  encodePayload : List Bytes → Bytes
  decodePayload : Bytes → Except String (List Bytes)

/-- `StorageError`, by the operation that it names. -/
inductive StorageError where
  | read (e : String)
  | write (e : HeraclitusError)
  | apply (id : LogId) (e : HeraclitusError)

structure SnapshotMeta where
  lastLogId : Option LogId
  lastMembership : StoredMembership
  snapshotId : String
  deriving DecidableEq

structure Snapshot where
  info : SnapshotMeta
  bytes : Bytes
  deriving DecidableEq

structure SmState where
  applied : Option LogId := none
  membership : StoredMembership := {}
  snapshotIdx : Nat := 0
  normals : Nat := 0
  skipNormals : Nat := 0
  currentSnapshot : Option Snapshot := none
  deriving DecidableEq

/-- The side file. -/
structure SmMeta where
  applied : Option LogId := none
  membership : StoredMembership := {}
  snapshotIdx : Nat := 0
  normals : Nat := 0
  deriving DecidableEq

/-- `Log::append_replicated`: the episode takes the LSN `lsn`, unless it stands there already. -/
def appendReplicated (log : List Episode) (lsn : Nat) (ep : Episode) : Except HeraclitusError (List Episode) :=
  match log[lsn]? with
  | some existing => if existing.id = ep.id then .ok log else .error (.casConflict lsn log.length)
  | none => if lsn = log.length then .ok (log ++ [ep]) else .error (.casConflict lsn log.length)

/-- `persist_sm_meta`. -/
def SmState.toMeta (st : SmState) : SmMeta :=
  { applied := st.applied, membership := st.membership, snapshotIdx := st.snapshotIdx, normals := st.normals }

def aheadOfLog (normals head : Nat) : String :=
  s!"state-machine à frente do log (normals={normals} > head={head}): crash na janela de fsync. " ++
    "Recupere de um snapshot, ou use FsyncPolicy::Always sob replicação."

/-- `open_durable`, from the log and what `load_sm_meta` finds. -/
def openDurable (log : List Episode) (file : Option SmMeta) : Except StorageError SmState :=
  let info := file.getD {}
  if log.length < info.normals then .error (.read (aheadOfLog info.normals log.length))
  else .ok { applied := info.applied, membership := info.membership, snapshotIdx := info.snapshotIdx,
             normals := info.normals, skipNormals := log.length - info.normals }

section Machine

variable (env : Env)

/-- The loop of `build_snapshot` over the log. -/
def dumpLog (log : List Episode) : List Bytes :=
  drain 100000 (fun payload r => payload ++ [env.encodeEpisode r.2]) log log.length log.length 0 []

/-- `build_snapshot`. -/
def buildSnapshot (st : SmState) (log : List Episode) : SmState × Snapshot :=
  let idx := st.snapshotIdx + 1
  let index := (st.applied.map LogId.index).getD 0
  let info : SnapshotMeta :=
    { lastLogId := st.applied, lastMembership := st.membership, snapshotId := s!"{index}-{idx}" }
  let snapshot := ⟨info, env.encodePayload (dumpLog env log)⟩
  ({ st with snapshotIdx := idx, currentSnapshot := some snapshot }, snapshot)

/-- What `apply` answers for an entry without an episode. -/
def noLsn : Nat := u64Max

/-- One entry of `apply`: the machine, the log, and the answer.  A failure leaves the count advanced. -/
def applyEntry (st : SmState) (log : List Episode) (entry : Entry) :
    SmState × List Episode × Except StorageError Nat :=
  match entry.payload with
  | .blank => ({ st with applied := some entry.logId }, log, .ok noLsn)
  | .membership m => ({ st with membership := ⟨some entry.logId, m⟩, applied := some entry.logId }, log, .ok noLsn)
  | .normal bytes =>
    let counted := { st with normals := st.normals + 1 }
    if 0 < st.skipNormals then
      ({ counted with skipNormals := st.skipNormals - 1, applied := some entry.logId }, log, .ok st.normals)
    else match env.decodeEpisode bytes with
      | .error e => (counted, log, .error (.apply entry.logId (.serialization e)))
      | .ok ep => match appendReplicated log log.length ep with
        | .error e => (counted, log, .error (.apply entry.logId e))
        | .ok log' => ({ counted with applied := some entry.logId }, log', .ok log.length)

/-- One episode of `install_snapshot`. -/
def installEpisode (log : List Episode) (item : Nat × Bytes) : Except StorageError (List Episode) :=
  if item.1 < log.length then .ok log
  else match env.decodeEpisode item.2 with
    | .error e => .error (.read e)
    | .ok ep => match appendReplicated log item.1 ep with
      | .error e => .error (.write e)
      | .ok log' => .ok log'

/-- The end of `install_snapshot`. -/
def finishInstall (st : SmState) (log : List Episode) (snapshot : Snapshot) : SmState :=
  { st with applied := snapshot.info.lastLogId, membership := snapshot.info.lastMembership, normals := log.length,
            skipNormals := 0, currentSnapshot := some snapshot }

end Machine

/-! ## Replicas -/

/-- Where the worker of a state machine stands.  A failure of the storage stops the node. -/
inductive Pc where
  | idle
  | applying (rest : List Entry)
  | installing (snapshot : Snapshot) (rest : List (Nat × Bytes))
  | failed
  deriving DecidableEq

structure Process where
  st : SmState
  pc : Pc
  deriving DecidableEq

/-- A node: its log and its side file, and the process over them. -/
structure Replica where
  log : List Episode := []
  file : Option SmMeta := none
  process : Option Process := none
  deriving DecidableEq

structure World where
  replicas : Nat → Replica
  snapshots : List Snapshot

def World.start : World := ⟨fun _ => {}, []⟩

/-- The steps of one node.  A crash leaves the first `keep` episodes of the log; `deliver n` hands the next `n` committed
entries to `apply`. -/
inductive Op where
  | openDurable
  | crash (keep : Nat)
  | deliver (n : Nat)
  | applyNext
  | persist
  | build
  | install (snapshot : Nat)
  | installNext
  | finishInstall
  deriving DecidableEq

structure Action where
  replica : Nat
  op : Op
  deriving DecidableEq

/-- The committed entries after the applied one. -/
def entriesAfter (entries : List Entry) : Option LogId → List Entry
  | none => entries
  | some id => (entries.dropWhile (fun e => decide (e.logId ≠ id))).tail

/-- One step of a node, and the snapshot that it built. -/
def Replica.step (env : Env) (c : Committed) (pool : List Snapshot) (r : Replica) (op : Op) :
    Option (Replica × Option Snapshot) :=
  match op, r.process with
  | .openDurable, none =>
    match Raft.openDurable r.log r.file with
    | .error _ => some (r, none)
    | .ok st => some ({ r with process := some ⟨st, .idle⟩ }, none)
  | .crash keep, _ => some ({ r with log := r.log.take keep, process := none }, none)
  | .deliver n, some ⟨st, .idle⟩ =>
    some ({ r with process := some ⟨st, .applying ((entriesAfter c.entries st.applied).take n)⟩ }, none)
  | .applyNext, some ⟨st, .applying (entry :: rest)⟩ =>
    match applyEntry env st r.log entry with
    | (st', log', .ok _) => some ({ r with log := log', process := some ⟨st', .applying rest⟩ }, none)
    | (st', log', .error _) => some ({ r with log := log', process := some ⟨st', .failed⟩ }, none)
  | .persist, some ⟨st, .applying []⟩ => some ({ r with file := some st.toMeta, process := some ⟨st, .idle⟩ }, none)
  | .build, some ⟨st, .idle⟩ =>
    let (st', snapshot) := buildSnapshot env st r.log
    some ({ r with process := some ⟨st', .idle⟩ }, some snapshot)
  | .build, some ⟨st, .installing s rest⟩ =>
    let (st', snapshot) := buildSnapshot env st r.log
    some ({ r with process := some ⟨st', .installing s rest⟩ }, some snapshot)
  | .install i, some ⟨st, .idle⟩ =>
    match pool[i]? with
    | none => none
    | some s =>
      match env.decodePayload s.bytes with
      | .error _ => some ({ r with process := some ⟨st, .failed⟩ }, none)
      | .ok payload => some ({ r with process := some ⟨st, .installing s (number 0 payload)⟩ }, none)
  | .installNext, some ⟨st, .installing s (item :: rest)⟩ =>
    match installEpisode env r.log item with
    | .error _ => some ({ r with process := some ⟨st, .failed⟩ }, none)
    | .ok log' => some ({ r with log := log', process := some ⟨st, .installing s rest⟩ }, none)
  | .finishInstall, some ⟨st, .installing s []⟩ =>
    let st' := Raft.finishInstall st r.log s
    some ({ r with file := some st'.toMeta, process := some ⟨st', .idle⟩ }, none)
  | _, _ => none

/-- One step of the cluster: a snapshot that a node builds may be installed on every node. -/
def World.step (env : Env) (c : Committed) (w : World) (a : Action) : Option World :=
  ((w.replicas a.replica).step env c w.snapshots a.op).map (fun (r, built) =>
    { replicas := Function.update w.replicas a.replica r, snapshots := w.snapshots ++ built.toList })

end Raft
end Heraclitus
