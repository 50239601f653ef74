import Heraclitus.Consensus
import Heraclitus.Lib.Frames
import Heraclitus.Lib.Prog
import Heraclitus.Lib.SortedMap
/-!
# FileRaftLog — the raft log on disk (`heraclitus-raft/src/durable.rs`)

`entries.wal` is a file of framed records, appended to and now and then rewritten; `meta.bin` holds the vote and the commit
position and is replaced whole.  A mirror of both is kept in memory.  A program here stops where the process dies.
-/
namespace Heraclitus
namespace RaftLog

open Raft (LogId Entry)

structure Vote where
  term : Nat
  node : Nat
  committed : Bool
  deriving DecidableEq

inductive LogRecord where
  | insert (e : Entry)
  /-- Entries from this index on are dropped. -/
  | truncate (index : Nat)
  /-- Entries up to this id are dropped. -/
  | purge (id : LogId)
  deriving DecidableEq

structure Meta where
  vote : Option Vote := none
  committed : Option LogId := none
  deriving DecidableEq

/-- `StorageIOError`, by the operation that it names. -/
inductive StorageError where
  | readLogs (e : String)
  | writeLogs (e : String)
  | readVote (e : String)
  | writeVote (e : String)
  deriving DecidableEq

/-- `bincode`. -/
structure Codec where
  encodeRecord : LogRecord → Except String Bytes
  decodeRecord : Bytes → Except String LogRecord
  encodeMeta : Meta → Except String Bytes
  decodeMeta : Bytes → Except String Meta

/-- The entries by index, and the last one purged. -/
structure Contents where
  entries : SortedMap Nat Entry := .empty
  lastPurged : Option LogId := none
  deriving DecidableEq

/-- `Inner`, without its files. -/
structure Inner extends Contents where
  info : Meta := {}
  deriving DecidableEq

/-- The directory; a file that does not exist is `none`. -/
structure Disk where
  wal : Option Bytes := none
  walTmp : Option Bytes := none
  metaFile : Option Bytes := none
  metaTmp : Option Bytes := none
  deriving DecidableEq

structure Node where
  disk : Disk := {}
  inner : Inner := {}
  deriving DecidableEq

/-- Where a process can die. -/
inductive Site where
  | wal
  | walTmp
  | walRename
  | metaTmp
  | metaRename
  | setLen
  deriving DecidableEq

variable (env : Codec)

/-! ## The mirror in memory -/

def Contents.insert (c : Contents) (e : Entry) : Contents := { c with entries := c.entries.insert e.logId.index e }

/-- `split_off(&index)`: what is split off is dropped. -/
def Contents.truncate (c : Contents) (index : Nat) : Contents := { c with entries := c.entries.filter (· < index) }

/-- `split_off(&(index + 1))`: what is split off stays.  The sum is a `u64`. -/
def Contents.purge (c : Contents) (id : LogId) : Contents :=
  { entries := c.entries.filter ((id.index + 1) % 2 ^ 64 ≤ ·), lastPurged := some id }

/-- What a record does to the log. -/
def Contents.apply (c : Contents) : LogRecord → Contents
  | .insert e => c.insert e
  | .truncate index => c.truncate index
  | .purge id => c.purge id

/-- `last_log_id`. -/
def Contents.lastLogId (c : Contents) : Option LogId := ((c.entries.entries.getLast?).map (·.2.logId)).or c.lastPurged

structure LogState where
  lastPurgedLogId : Option LogId
  lastLogId : Option LogId

def getLogState (inner : Inner) : LogState :=
  { lastPurgedLogId := inner.lastPurged, lastLogId := inner.lastLogId }

/-! ## Writing -/

abbrev Op := Prog Site Node StorageError Unit

def encodeRecord (rec : LogRecord) : Except StorageError Bytes :=
  match env.encodeRecord rec with
  | .ok bytes => .ok (frame bytes)
  | .error e => .error (.writeLogs e)

/-- `write_all` at the end of the file. -/
def Disk.appendWal (d : Disk) (bytes : Bytes) : Disk := { d with wal := some (d.wal.getD [] ++ bytes) }
def Disk.appendTmp (d : Disk) (bytes : Bytes) : Disk := { d with walTmp := some (d.walTmp.getD [] ++ bytes) }

def appendRecord (rec : LogRecord) : Op := do
  let framed ← Prog.ofExcept (encodeRecord env rec)
  Prog.write .wal (fun n s => { s with disk := s.disk.appendWal (framed.take n) })
    (fun s => { s with disk := s.disk.appendWal framed })

def writeTmp : List LogRecord → Op
  | [] => pure ()
  | rec :: recs => do
    let framed ← Prog.ofExcept (encodeRecord env rec)
    Prog.write .walTmp (fun n s => { s with disk := s.disk.appendTmp (framed.take n) })
      (fun s => { s with disk := s.disk.appendTmp framed })
    writeTmp recs

/-- What the compacted file holds: the last purge and the entries in order. -/
def Contents.live (c : Contents) : List LogRecord :=
  c.lastPurged.toList.map .purge ++ c.entries.entries.map (fun e => .insert e.2)

def rewriteWal : Op := do
  Prog.step .walTmp (fun s => { s with disk := { s.disk with walTmp := some [] } })
  let s ← Prog.get
  writeTmp env s.inner.live
  Prog.step .walRename (fun s => { s with disk := { s.disk with wal := s.disk.walTmp, walTmp := none } })

def writeMeta : Op := do
  let s ← Prog.get
  let bytes ← Prog.ofExcept ((env.encodeMeta s.inner.info).mapError .writeVote)
  Prog.write .metaTmp (fun n s => { s with disk := { s.disk with metaTmp := some (bytes.take n) } })
    (fun s => { s with disk := { s.disk with metaTmp := some bytes } })
  Prog.step .metaRename (fun s => { s with disk := { s.disk with metaFile := s.disk.metaTmp, metaTmp := none } })

/-! ## Opening -/

structure Replayed extends Contents where
  validLen : Nat := 0
  sawCompaction : Bool := false

/-- One record of the file.  Whatever it replaces or drops is dead weight in the file. -/
def Replayed.apply (s : Replayed) : LogRecord → Replayed
  | .insert e =>
    { s with toContents := s.insert e, sawCompaction := s.sawCompaction || s.entries.contains e.logId.index }
  | .truncate index =>
    let kept := s.truncate index
    { s with toContents := kept
             sawCompaction := s.sawCompaction || kept.entries.entries.length != s.entries.entries.length }
  | .purge id =>
    let kept := s.purge id
    { s with toContents := kept
             sawCompaction := s.sawCompaction || kept.entries.entries.length != s.entries.entries.length }

def corruptRecord (pos len : Nat) (e : String) : StorageError :=
  .readLogs (s!"registo corrupto no WAL raft (offset {pos}, {len} bytes): {e}; " ++
    "recuso truncar — apagar o diretório raft e re-replicar")

/-- The loop of `replay`, whose `pos` is `validLen`.  A turn that goes on reads four bytes at least. -/
def replayFrom (wal : Bytes) : Nat → Replayed → Except StorageError Replayed
  | 0, s => .ok s
  | fuel + 1, s =>
    let pos := s.validLen
    if wal.length - pos < 4 then .ok s
    else
      let len := leNat ((wal.drop pos).take 4)
      if wal.length - pos - 4 < len then .ok s
      else
        match env.decodeRecord ((wal.drop (pos + 4)).take len) with
        | .error e => .error (corruptRecord pos len e)
        | .ok rec => replayFrom wal fuel { s.apply rec with validLen := pos + 4 + len }

def replay (wal : Option Bytes) : Except StorageError Replayed :=
  match wal with
  | none => .ok {}
  | some wal => replayFrom env wal wal.length {}

def loadMeta (metaFile : Option Bytes) : Except StorageError Meta :=
  match metaFile with
  | none => .ok {}
  | some bytes => (env.decodeMeta bytes).mapError (fun e =>
      .readVote s!"meta.bin corrompido (recusa arrancar em vez de perder o voto): {e}")

/-- `FileRaftLog::open`. -/
def openLog : Op := do
  let s ← Prog.get
  let replayed ← Prog.ofExcept (replay env s.disk.wal)
  Prog.step .setLen (fun s =>
    { s with disk := { s.disk with wal := some ((s.disk.wal.getD []).take replayed.validLen) } })
  let info ← Prog.ofExcept (loadMeta env s.disk.metaFile)
  Prog.modify (fun s => { s with inner := { toContents := replayed.toContents, info := info } })
  if replayed.sawCompaction then rewriteWal env else pure ()

/-! ## The calls -/

def appendSync : List Entry → Op
  | [] => pure ()
  | e :: es => do
    appendRecord env (.insert e)
    Prog.modify (fun s => { s with inner := { s.inner with toContents := s.inner.insert e } })
    appendSync es

def truncate (id : LogId) : Op := do
  appendRecord env (.truncate id.index)
  Prog.modify (fun s => { s with inner := { s.inner with toContents := s.inner.truncate id.index } })

def purge (id : LogId) : Op := do
  appendRecord env (.purge id)
  Prog.modify (fun s => { s with inner := { s.inner with toContents := s.inner.purge id } })
  rewriteWal env

def saveVote (vote : Vote) : Op := do
  Prog.modify (fun s => { s with inner := { s.inner with info := { s.inner.info with vote := some vote } } })
  writeMeta env

def saveCommitted (committed : Option LogId) : Op := do
  Prog.modify (fun s => { s with inner := { s.inner with info := { s.inner.info with committed := committed } } })
  writeMeta env

inductive Call where
  | appendSync (es : List Entry)
  | truncate (id : LogId)
  | purge (id : LogId)
  | saveVote (vote : Vote)
  | saveCommitted (committed : Option LogId)
  deriving DecidableEq

def Call.run : Call → Op
  | .appendSync es => RaftLog.appendSync env es
  | .truncate id => RaftLog.truncate env id
  | .purge id => RaftLog.purge env id
  | .saveVote vote => RaftLog.saveVote env vote
  | .saveCommitted committed => RaftLog.saveCommitted env committed

/-! ## What replaying reads -/

/-- The loop over the payloads of the frames. -/
def Replayed.readAll : List Bytes → Replayed → Except StorageError Replayed
  | [], s => .ok s
  | p :: ps, s =>
    match env.decodeRecord p with
    | .error e => .error (corruptRecord s.validLen p.length e)
    | .ok rec => Replayed.readAll ps { s.apply rec with validLen := s.validLen + 4 + p.length }

variable {env} {s s' : Replayed} {wal : Bytes}

/-- **Replaying reads the frames of the file**, one after another. -/
theorem replayFrom_eq : ∀ (fuel : Nat) (s : Replayed), wal.length - s.validLen ≤ fuel →
    replayFrom env wal fuel s = s.readAll env (frames (wal.drop s.validLen)).1
  | 0, s, h => by
    rw [List.drop_of_length_le (by omega)]
    rfl
  | fuel + 1, s, h => by
    have hlength : (wal.drop s.validLen).length = wal.length - s.validLen := List.length_drop
    rw [replayFrom]
    by_cases hfour : wal.length - s.validLen < 4
    · have hnone : splitFrame (wal.drop s.validLen) = none := if_pos (by omega)
      rw [if_pos hfour, frames_of_none hnone]
      rfl
    · rw [if_neg hfour]
      dsimp only
      by_cases hlen : wal.length - s.validLen - 4 < leNat ((wal.drop s.validLen).take 4)
      · have hnone : splitFrame (wal.drop s.validLen) = none := by
          rw [splitFrame, if_neg (by omega), hlength]
          exact if_pos hlen
        rw [if_pos hlen, frames_of_none hnone]
        rfl
      · have hsome : splitFrame (wal.drop s.validLen) = some (((wal.drop s.validLen).drop 4).take
            (leNat ((wal.drop s.validLen).take 4)), (wal.drop s.validLen).drop (4 + leNat ((wal.drop s.validLen).take 4))) := by
          rw [splitFrame, if_neg (by omega), hlength]
          exact if_neg hlen
        have hpayload : ((wal.drop (s.validLen + 4)).take (leNat ((wal.drop s.validLen).take 4))).length
            = leNat ((wal.drop s.validLen).take 4) := by
          rw [List.length_take, List.length_drop]
          omega
        rw [if_neg hlen, frames_of_some hsome, Replayed.readAll, List.drop_drop, List.drop_drop, hpayload]
        cases env.decodeRecord ((wal.drop (s.validLen + 4)).take (leNat ((wal.drop s.validLen).take 4))) with
        | error e => rfl
        | ok rec =>
          dsimp only
          rw [replayFrom_eq fuel _ (by dsimp only; omega), Nat.add_assoc]

theorem replay_eq : replay env (some wal) = ({} : Replayed).readAll env (frames wal).1 :=
  replayFrom_eq wal.length {} (Nat.sub_le _ _)

theorem Replayed.apply_contents (s : Replayed) (rec : LogRecord) : (s.apply rec).toContents = s.toContents.apply rec := by
  cases rec <;> rfl

variable (env) in
/-- The payloads decode to these records. -/
abbrev Decodes (ps : List Bytes) (recs : List LogRecord) : Prop :=
  List.Forall₂ (fun p rec => env.decodeRecord p = .ok rec) ps recs

/-- **What payloads that decode leave**, and where the last of them ends. -/
theorem Replayed.readAll_of_decodes {ps : List Bytes} {recs : List LogRecord} (h : Decodes env ps recs) :
    ∀ s : Replayed, ∃ s', s.readAll env ps = .ok s' ∧ s'.toContents = recs.foldl Contents.apply s.toContents ∧
      s'.validLen = s.validLen + (ps.map (fun p => 4 + p.length)).sum := by
  induction h with
  | nil => exact fun s => ⟨s, rfl, rfl, rfl⟩
  | @cons p rec ps recs hp _ ih =>
    intro s
    obtain ⟨s', hread, hcontents, hlen⟩ := ih { s.apply rec with validLen := s.validLen + 4 + p.length }
    refine ⟨s', ?_, ?_, ?_⟩
    · rw [Replayed.readAll, hp]
      exact hread
    · rw [hcontents, List.foldl_cons, ← s.apply_contents]
    · rw [hlen, List.map_cons, List.sum_cons]
      dsimp only
      omega

/-- **One payload that does not decode** stops the replay. -/
theorem Replayed.readAll_of_undecodable {p : Bytes} {e : String} (he : env.decodeRecord p = .error e) :
    ∀ {ps : List Bytes}, p ∈ ps → ∀ s : Replayed, ∃ e', s.readAll env ps = .error e'
  | q :: ps, hp, s => by
    rw [Replayed.readAll]
    cases hq : env.decodeRecord q with
    | error e' => exact ⟨_, rfl⟩
    | ok rec =>
      have hmem : p ∈ ps := by
        rcases List.mem_cons.1 hp with rfl | hmem
        · cases he.symm.trans hq
        · exact hmem
      exact readAll_of_undecodable he hmem _

variable (env) in
theorem decodes_or : ∀ ps : List Bytes,
    (∃ recs, Decodes env ps recs) ∨ ∃ p ∈ ps, ∃ e, env.decodeRecord p = .error e
  | [] => .inl ⟨[], .nil⟩
  | p :: ps => by
    cases hp : env.decodeRecord p with
    | error e => exact .inr ⟨p, List.mem_cons_self, e, hp⟩
    | ok rec =>
      rcases decodes_or ps with ⟨recs, hrecs⟩ | ⟨q, hq, e, he⟩
      · exact .inl ⟨rec :: recs, .cons hp hrecs⟩
      · exact .inr ⟨q, List.mem_cons_of_mem p hq, e, he⟩

end RaftLog
end Heraclitus
