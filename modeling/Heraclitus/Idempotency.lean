import Heraclitus.AttrIndex
import Heraclitus.LogSpec
import Heraclitus.Lib.Run
import Mathlib.Logic.Function.Basic
/-!
# Idempotency — the append path of the engine, one session after another (`heraclitus-server/src/engine.rs`)

Callers run concurrently, each through the atomic steps of `append_idempotent` or `append`; the log assigns an LSN before
it acknowledges it, and indexing comes after the acknowledgement.  A crash ends every call and leaves of the log any
prefix that holds what was acknowledged.  A boot loads the checkpoint of the attribute index and, unless told not to,
replays the log from its watermark.
-/
namespace Heraclitus
namespace Idem

def keyAttr : Str := "__heraclitus_idempotency_key".toList

def hashAttr : Str := "__heraclitus_idempotency_hash".toList

/-- What the source takes from its libraries: the number an attribute value stands for, and the hexadecimal BLAKE3
digest of the JSON of the fields that `append_idempotent` hashes. -/
structure Env where
  numKey : Str → Option Nat
  payloadHash : Str × Str × EventKind × Bytes × Option ProductPoint × SortedMap Str Str × Option Nat × Option Nat → Str

/-- The tuple handed to `serde_json::to_vec`; `parents` is not in it. -/
def canonical (e : Episode) :
    Str × Str × EventKind × Bytes × Option ProductPoint × SortedMap Str Str × Option Nat × Option Nat :=
  (e.agentId, e.sessionId, e.kind, e.content, e.embedding, e.attrs, e.validFrom, e.validTo)

def keyChar (c : Char) : Bool := c.isAlphanum || c == '-' || c == '_' || c == ':' || c == '.'

def isReserved (e : Episode) : Bool := e.attrs.contains keyAttr || e.attrs.contains hashAttr

def reservedKind (hint : String) : HeraclitusError :=
  .query s!"o kind '{String.ofList hvmKind}' é reservado ao ledger H-VM{hint}"

/-- A request: `append_idempotent(episode, key)`, `append(episode)`, or the engine's own H-VM frame. -/
inductive Request where
  | idempotent (episode : Episode) (key : Str)
  | append (episode : Episode)
  | hvmFrame (id : Nat) (frame : Bytes)
  deriving DecidableEq

/-- `append_idempotent` with an empty key is a plain `append`. -/
def Request.normalize : Request → Request
  | .idempotent e [] => .append e
  | r => r

/-- The checks made before the lock is taken. -/
def Request.validate (logOnly : Bool) : Request → Except HeraclitusError Unit
  | .idempotent e key =>
    if logOnly then .error (.config "Append idempotente não é permitido em HERACLITUS_LOG_ONLY")
    else if utf8Len key > 80 ∨ ¬key.all keyChar then
      .error (.query "idempotency_key deve ter 1..80 caracteres ASCII [A-Za-z0-9._:-]")
    else if isHvm e then .error (reservedKind "")
    else if isReserved e then .error (.query "atributos de idempotência são reservados")
    else .ok ()
  | .append e =>
    if isHvm e then .error (reservedKind " — use /hvm/upsert ou /hvm/delete")
    else if isReserved e then
      .error (.query "atributos de idempotência são reservados; use AppendRequest.idempotency_key")
    else .ok ()
  | .hvmFrame _ _ => .ok ()

/-- The episode the request hands to `append_internal`. -/
def Request.outgoing (env : Env) : Request → Episode
  | .idempotent e key =>
    { e with attrs := (e.attrs.insert keyAttr key).insert hashAttr (env.payloadHash (canonical e)) }
  | .append e => e
  | .hvmFrame id frame => .new id "hvm".toList (.custom hvmKind) frame

/-- Where a call stands.  Past `start` an idempotent call holds the lock. -/
inductive Pc where
  | start
  | locked
  | missed
  | written (lsn : Nat) (stamped : Episode)
  | acked (lsn : Nat) (stamped : Episode)
  | indexed (lsn : Nat)
  deriving DecidableEq

structure Call where
  request : Request
  pc : Pc
  deriving DecidableEq

/-- A record of the log, with the call that wrote it. -/
structure Entry where
  event : Episode
  writer : Nat
  deriving DecidableEq

structure Outcome where
  call : Nat
  request : Request
  result : Except HeraclitusError (Nat × Bool × Nat)

/-- One process: the attribute index in memory, the calls in flight, the idempotency lock. -/
structure Session where
  logOnly : Bool
  attr : AttrIndex
  lock : Option Nat
  calls : Nat → Option Call

structure St where
  log : List Entry := []
  durable : Nat := 0
  checkpoint : Option AttrIndex := none
  session : Option Session := none
  nextCall : Nat := 0
  done : List Outcome := []

def St.setSession (s : St) (ses : Session) : St := { s with session := some ses }

def Session.setPc (ses : Session) (n : Nat) (c : Call) (pc : Pc) : Session :=
  { ses with calls := Function.update ses.calls n (some { c with pc := pc }) }

/-- The call returns; a guard it holds is dropped. -/
def finish (s : St) (ses : Session) (n : Nat) (c : Call) (result : Except HeraclitusError (Nat × Bool × Nat)) : St :=
  { s with
    session := some { ses with
      calls := Function.update ses.calls n none
      lock := if ses.lock = some n then none else ses.lock }
    done := s.done ++ [{ call := n, request := c.request, result := result }] }

variable (env : Env)

def indexApplied (ses : Session) (lsn : Nat) (episode : Episode) : Session :=
  if ses.logOnly then ses
  else if isHvm episode then ses
  else { ses with attr := ses.attr.apply env.numKey lsn episode }

/-- What the boot replay does with one record. -/
def feed (idx : AttrIndex) (record : Nat × Entry) : AttrIndex :=
  if isHvm record.2.event then idx else idx.apply env.numKey record.1 record.2.event

def bootWindow : Nat := 100000

/-- `Engine::open`: the loaded checkpoint, the replay from its watermark, and the new checkpoint. -/
def boot (s : St) (skipReplay logOnly : Bool) : St :=
  let loaded := s.checkpoint.getD .new
  if skipReplay then { s with session := some ⟨logOnly, loaded, none, fun _ => none⟩ }
  else
    let cur := if loaded.isEmpty then 0 else loaded.watermark
    let attr := drain bootWindow (feed env) s.log (s.log.length + 1) s.log.length cur loaded
    { s with
      session := some ⟨logOnly, attr, none, fun _ => none⟩
      checkpoint := if cur < s.log.length then some attr else s.checkpoint }

/-- `append_internal` hands the episode to the log, which stamps it and assigns the LSN. -/
def write (s : St) (ses : Session) (n : Nat) (c : Call) (hlc : Nat) : St :=
  let stamped := (c.request.outgoing env).stamp hlc
  { s with
    log := s.log ++ [⟨stamped, n⟩]
    session := some (ses.setPc n c (.written s.log.length stamped)) }

/-- Under the lock: an indexed key answers the call, an unknown one lets it write. -/
def check (s : St) (ses : Session) (n : Nat) (c : Call) (e : Episode) (key : Str) : St :=
  match (ses.attr.lookup keyAttr key).getLast? with
  | none => s.setSession (ses.setPc n c .missed)
  | some lsn =>
    match s.log[lsn]? with
    | none => finish s ses n c 
        (.error (.corruption "idempotency index" s!"LSN {lsn} ausente para a chave {String.ofList key}"))
    | some existing =>
      if existing.event.attrs.get? hashAttr = some (env.payloadHash (canonical e)) then
        finish s ses n c (.ok (lsn, true, existing.event.id))
      else finish s ses n c (.error (.idempotencyConflict key))

/-- The next atomic step of call `n`; the log stamps with `hlc`. -/
def advance (s : St) (ses : Session) (n : Nat) (c : Call) (hlc : Nat) : Option St :=
  match c.request, c.pc with
  | .idempotent _ _, .start =>
    if ses.lock = none then some (s.setSession { ses.setPc n c .locked with lock := some n }) else none
  | .idempotent e key, .locked => some (check env s ses n c e key)
  | .idempotent _ _, .missed => some (write env s ses n c hlc)
  | _, .start => some (write env s ses n c hlc)
  | _, .written lsn stamped =>
    some { s with durable := max s.durable (lsn + 1), session := some (ses.setPc n c (.acked lsn stamped)) }
  | _, .acked lsn stamped => some (s.setSession ((indexApplied env ses lsn stamped).setPc n c (.indexed lsn)))
  | .idempotent _ _, .indexed lsn =>
    match s.log[lsn]? with
    | none => some (finish s ses n c 
        (.error (.corruption "append response" s!"LSN {lsn} não pôde ser relido")))
    | some e => some (finish s ses n c (.ok (lsn, false, e.event.id)))
  | r, .indexed lsn => some (finish s ses n c (.ok (lsn, false, (r.outgoing env).id)))
  | _, _ => none

inductive Act where
  | boot (skipReplay logOnly : Bool)
  | request (r : Request)
  | advance (n : Nat) (hlc : Nat)
  | checkpoint
  | crash (keep : Nat)

/-- A request is refused at once, or becomes the call `nextCall`. -/
def accept (s : St) (ses : Session) (r : Request) : St :=
  match r.validate ses.logOnly with
  | .error e => { s with nextCall := s.nextCall + 1, done := s.done ++ [⟨s.nextCall, r, .error e⟩] }
  | .ok () =>
    { s with
      nextCall := s.nextCall + 1
      session := some { ses with calls := Function.update ses.calls s.nextCall (some ⟨r, .start⟩) } }

def step (s : St) : Act → Option St
  | .boot skipReplay logOnly => if s.session.isNone then some (boot env s skipReplay logOnly) else none
  | .request r => s.session.map (fun ses => accept s ses r.normalize)
  | .advance n hlc => s.session.bind (fun ses => (ses.calls n).bind (fun c => advance env s ses n c hlc))
  | .checkpoint => s.session.map (fun ses => { s with checkpoint := some ses.attr })
  | .crash keep =>
    if s.durable ≤ keep ∧ keep ≤ s.log.length then
      some { s with log := s.log.take keep, durable := keep, session := none }
    else none

end Idem
end Heraclitus
