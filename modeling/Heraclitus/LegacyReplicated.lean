import Heraclitus.Hlc
import Heraclitus.LegacyLogRun
/-!
# LegacyReplicated — replicated appends among local ones (`heraclitus-log/src/lib.rs`)

A call of `append_replicated` reads the head.  Below it the call answers from the log; else it queues a command, which the
worker takes at its own position only.  Anything may happen in between.  Every call does what a compare-and-append should
(`replicated_meets`), except one that finds at the worker that its own event has come first.
-/
namespace Heraclitus
namespace Legacy
namespace Replicated

/-- Where a call stands: its timestamp is observed; its position lies below the head it read, or not. -/
inductive Stage where
  | observed
  | below (head : Nat)
  | admitted
  deriving DecidableEq

structure Call where
  lsn : Nat
  episode : Episode
  stage : Stage

/-- The log as it stands while a call is decided, and the episodes written to it. -/
structure Holding where
  log : Log
  episodes : List Episode

/-- A call of `append_replicated` and its result. -/
structure Decision where
  lsn : Nat
  episode : Episode
  before : Holding
  after : Holding
  result : Except HeraclitusError Nat

/-- `episodes` are those of whole batches; `turn` is the batch that the worker is at, and what it has yet to take of it. -/
structure World where
  hlc : Hlc
  log : Log
  episodes : List Episode
  turn : Option (Batch × List LogCommand)
  calls : List Call
  queue : List LogCommand
  decided : List Decision

inductive Action where
  /-- `append` and `append_stamped`. -/
  | append (episode : Episode) (ms : Nat)
  | flush
  /-- `append_replicated` begins. -/
  | observe (lsn : Nat) (episode : Episode)
  | readHead (i : Nat)
  | read (i : Nat)
  | send (i : Nat)
  /-- The worker takes what is queued, up to 128 commands. -/
  | gather (n : Nat)
  | work
  | finish

def Batch.holding (b : Batch) (episodes : List Episode) : Holding := ⟨b.log, episodes ++ b.stashed.map (·.episode)⟩

/-- What a reader sees. -/
def World.holding (w : World) : Holding :=
  match w.turn with
  | none => ⟨w.log, w.episodes⟩
  | some t => Batch.holding t.1 w.episodes

def World.start (hlc : Hlc) (log : Log) (episodes : List Episode) : World :=
  { hlc := hlc, log := log, episodes := episodes, turn := none, calls := [], queue := [], decided := [] }

/-- The opaque metadata of a record: the bytes of the ULID. -/
def opaqueMetaOf (episode : Episode) : Bytes := (leBytes 16 episode.id).reverse

/-- What the worker sends to the client of a command, at once when it refuses it, else at the end of the batch. -/
def told (b b' : Batch) : Option (Except HeraclitusError Nat) :=
  match b'.replies.drop b.replies.length with
  | .refused e :: _ => some (.error e)
  | _ => (b'.stashed.drop b.stashed.length).head?.map (fun u => .ok u.lsn)

/-- Only `append_replicated` names a position. -/
def workerDecision (episodes : List Episode) (b b' : Batch) : LogCommand → Option Decision
  | .append _ episode (some lsn) =>
    (told b b').map (fun result =>
      { lsn := lsn, episode := episode, before := Batch.holding b episodes, after := Batch.holding b' episodes, result := result })
  | _ => none

section Step

variable (env : Env)

/-- The answer of a call whose position lies below the head it read. -/
def answerBelow (log : Log) (head : Nat) (c : Call) : Except HeraclitusError Nat :=
  match log.read env c.lsn with
  | .error e => .error e
  | .ok (some (_, existing)) =>
    if existing.id = c.episode.id then .ok c.lsn else .error (.casConflict c.lsn head)
  | .ok none => .error (.casConflict c.lsn head)

def World.step (segmentMaxBytes : Nat) (w : World) : Action → Option World
  | .append episode ms =>
    let stamp := w.hlc.now ms
    some { w with hlc := stamp.2, queue := w.queue ++ [.append (opaqueMetaOf episode) (episode.stamp stamp.1) none] }
  | .flush => some { w with queue := w.queue ++ [.flush] }
  | .observe lsn episode =>
    some { w with hlc := w.hlc.observe episode.tsHlc, calls := w.calls ++ [⟨lsn, episode, .observed⟩] }
  | .readHead i =>
    w.calls[i]?.bind (fun c =>
      match c.stage with
      | .observed =>
        let head := w.holding.log.committedLsn
        some { w with calls := w.calls.set i { c with stage := if c.lsn < head then .below head else .admitted } }
      | _ => none)
  | .read i =>
    w.calls[i]?.bind (fun c =>
      match c.stage with
      | .below head =>
        let decision := Decision.mk c.lsn c.episode w.holding w.holding (answerBelow env w.holding.log head c)
        some { w with calls := w.calls.eraseIdx i, decided := w.decided ++ [decision] }
      | _ => none)
  | .send i =>
    w.calls[i]?.bind (fun c =>
      match c.stage with
      | .admitted =>
        let cmd := LogCommand.append (opaqueMetaOf c.episode) c.episode (some c.lsn)
        some { w with calls := w.calls.eraseIdx i, queue := w.queue ++ [cmd] }
      | _ => none)
  | .gather n =>
    if w.turn.isNone ∧ 1 ≤ n ∧ n ≤ 128 ∧ n ≤ w.queue.length then
      some { w with turn := some (.start w.log, w.queue.take n), queue := w.queue.drop n }
    else none
  | .work =>
    match w.turn with
    | some (b, cmd :: rest) =>
      let b' := b.command env segmentMaxBytes cmd
      some { w with
        turn := some (b', rest)
        decided := w.decided ++ (workerDecision w.episodes b b' cmd).toList }
    | _ => none
  | .finish =>
    match w.turn with
    | some (b, []) =>
      let done := b.finish
      some { w with log := done.1, episodes := w.episodes ++ (acks done.2).map Prod.snd, turn := none }
    | _ => none

end Step

/-! ## What a compare-and-append should do -/

structure Decision.Meets (d : Decision) : Prop where
  /-- Accepted, and its event is there. -/
  accepted : ∀ l, d.result = .ok l → l = d.lsn ∧ (d.after.episodes[d.lsn]?).map Episode.id = some d.episode.id
  /-- A position above the head is refused. -/
  gap : d.before.episodes.length < d.lsn → (∃ head, d.result = .error (.casConflict d.lsn head)) ∧ d.after = d.before
  /-- The event at its position again is accepted without being written. -/
  repeated : ∀ x, d.before.episodes[d.lsn]? = some x → x.id = d.episode.id → d.result = .ok d.lsn ∧ d.after = d.before
  /-- Another event is refused. -/
  other : ∀ x, d.before.episodes[d.lsn]? = some x → x.id ≠ d.episode.id → (∃ e, d.result = .error e) ∧ d.after = d.before

/-- No other event than `e` stands at the position. -/
def Free (episodes : List Episode) (lsn : Nat) (e : Episode) : Prop := ∀ x, episodes[lsn]? = some x → x.id ≠ e.id

namespace Decision.Meets

variable {d : Decision}

theorem refused (head : Nat) (hresult : d.result = .error (.casConflict d.lsn head)) (hsame : d.after = d.before)
    (hfree : Free d.before.episodes d.lsn d.episode) : d.Meets where
  accepted l hl := by
    rw [hresult] at hl
    cases hl
  gap _ := ⟨⟨head, hresult⟩, hsame⟩
  repeated x hx hid := absurd hid (hfree x hx)
  other _ _ _ := ⟨⟨_, hresult⟩, hsame⟩

/-- At the end of the log nothing stands yet. -/
theorem atEnd (hlsn : d.lsn = d.before.episodes.length)
    (haccepted : ∀ l, d.result = .ok l → l = d.lsn ∧ (d.after.episodes[d.lsn]?).map Episode.id = some d.episode.id) :
    d.Meets := by
  have hnone : d.before.episodes[d.lsn]? = none := List.getElem?_eq_none (Nat.le_of_eq hlsn.symm)
  refine ⟨haccepted, fun hgap => ?_, fun x hx => ?_, fun x hx => ?_⟩
  · omega
  · rw [hnone] at hx
    cases hx
  · rw [hnone] at hx
    cases hx

/-- Below the head the answer compares the events. -/
theorem below {x : Episode} (head : Nat) (hx : d.before.episodes[d.lsn]? = some x) (hsame : d.after = d.before)
    (hresult : d.result = if x.id = d.episode.id then .ok d.lsn else .error (.casConflict d.lsn head)) : d.Meets := by
  by_cases hid : x.id = d.episode.id
  · rw [if_pos hid] at hresult
    refine ⟨fun l hl => ?_, fun hgap => ?_, fun _ _ _ => ⟨hresult, hsame⟩, fun y hy hne => ?_⟩
    · rw [hresult] at hl
      cases hl
      exact ⟨rfl, by rw [hsame, hx, Option.map_some, hid]⟩
    · rw [List.getElem?_eq_none (Nat.le_of_lt hgap)] at hx
      cases hx
    · rw [hx] at hy
      cases hy
      exact absurd hid hne
  · rw [if_neg hid] at hresult
    refine refused head hresult hsame (fun y hy => ?_)
    rw [hx] at hy
    cases hy
    exact hid

end Decision.Meets

variable (env : Env)

/-- A reader below the head is not sent to a segment without records for the event it looks for; the worker takes no payload
over the readers' bound, and no event that has come to its position by then. -/
def StepOk (w : World) : Action → Prop
  | .read i => ∀ c, w.calls[i]? = some c →
    w.holding.log.catalog.NoEmptyHitAt env c.lsn ∨ Free w.holding.episodes c.lsn c.episode
  | .gather n => w.log.BatchOk env (w.queue.take n)
  | .work => ∀ b opaqueMeta e lsn rest, w.turn = some (b, .append opaqueMeta e (some lsn) :: rest) →
    Free w.holding.episodes lsn e
  | _ => True

/-! ## The worker -/

variable {env : Env} {segmentMaxBytes : Nat} {b : Batch} {segs : List (List Rec)} {act before done : List Rec}

theorem told_refuse (b : Batch) (e : HeraclitusError) : told b (b.refuse e) = some (.error e) := by
  unfold told Batch.refuse
  rw [List.drop_left]

/-- The worker refuses a command at another position or that does not encode, and else writes it at the next position. -/
theorem command_append (env : Env) (segmentMaxBytes : Nat) (b : Batch) (opaqueMeta : Bytes) (e : Episode)
    (expectedLsn : Option Nat) :
    (∃ x, expectedLsn = some x ∧ x ≠ b.tentativeLsn ∧ b.command env segmentMaxBytes (.append opaqueMeta e expectedLsn)
      = b.refuse (.casConflict x b.tentativeLsn)) ∨
    (∀ x, expectedLsn = some x → x = b.tentativeLsn) ∧
      ((∃ err, b.command env segmentMaxBytes (.append opaqueMeta e expectedLsn) = b.refuse (.serialization err)) ∨
        ∃ offset, (b.command env segmentMaxBytes (.append opaqueMeta e expectedLsn)).stashed
            = b.stashed ++ [⟨b.tentativeLsn, opaqueMeta, offset, e⟩] ∧
          (b.command env segmentMaxBytes (.append opaqueMeta e expectedLsn)).replies = b.replies) := by
  unfold Batch.command Batch.append
  dsimp only
  cases hexpected : expectedLsn.filter (· ≠ b.tentativeLsn) with
  | some x =>
    obtain ⟨hx, hne⟩ := Option.filter_eq_some_iff.1 hexpected
    exact .inl ⟨x, hx, of_decide_eq_true hne, rfl⟩
  | none =>
    refine .inr ⟨fun x hx => ?_, ?_⟩
    · rw [hx, Option.filter_some] at hexpected
      by_contra hne
      rw [if_pos (decide_eq_true hne)] at hexpected
      cases hexpected
    · cases env.encodePayload opaqueMeta e with
      | error err => exact .inl ⟨err, rfl⟩
      | ok payload =>
        dsimp only
        generalize hrecord : encodeRecord env.toHashes formatVersion b.tentativeLsn e.tsHlc payload = record
        obtain ⟨hstashed, hreplies⟩ := makeRoom_stashed env b segmentMaxBytes record
        have hlsn : (b.makeRoom env segmentMaxBytes record).tentativeLsn = b.tentativeLsn := by
          unfold Batch.makeRoom Batch.publish
          split <;> [split; skip] <;> rfl
        refine .inr ⟨(b.makeRoom env segmentMaxBytes record).log.active.bytesWritten, ?_, hreplies⟩
        rw [Batch.write, hstashed, hlsn]

/-- What the batch holds is what it started from and what it has written. -/
theorem holding_episodes (h : InBatch env b segs act before done) :
    (Batch.holding b (before.map Rec.episode)).episodes = (before ++ done).map Rec.episode := by
  have hstashed : b.stashed.map (·.episode) = done.map Rec.episode := by
    have := congrArg (List.map Prod.snd) h.stashed
    rwa [List.map_map, map_snd_number] at this
  rw [Batch.holding, hstashed, List.map_append]

theorem meets_of_worker (h : InBatch env b segs act before done) {cmd : LogCommand} {d : Decision}
    (hd : workerDecision (before.map Rec.episode) b (b.command env segmentMaxBytes cmd) cmd = some d)
    (hfree : ∀ opaqueMeta e lsn, cmd = .append opaqueMeta e (some lsn) →
      Free (Batch.holding b (before.map Rec.episode)).episodes lsn e) :
    d.Meets ∧ d.after = Batch.holding (b.command env segmentMaxBytes cmd) (before.map Rec.episode) := by
  match cmd with
  | .flush => cases hd
  | .append _ _ none => cases hd
  | .append opaqueMeta e (some lsn) =>
    have hfree := hfree opaqueMeta e lsn rfl
    obtain ⟨result, htold, hd⟩ := Option.map_eq_some_iff.1 hd
    have hlen : b.tentativeLsn = (Batch.holding b (before.map Rec.episode)).episodes.length := by
      rw [holding_episodes h, List.length_map, h.tentative]
    subst hd
    refine ⟨?_, rfl⟩
    rcases command_append env segmentMaxBytes b opaqueMeta e (some lsn) with ⟨x, hx, hne, hb'⟩ | ⟨hx, ⟨err, hb'⟩ | hwrite⟩
    · cases hx
      rw [hb', told_refuse] at htold
      cases htold
      exact .refused _ rfl (by rw [hb']; rfl) hfree
    · rw [hb', told_refuse] at htold
      cases htold
      refine .atEnd ((hx lsn rfl).trans hlen) (fun l hl => ?_)
      cases hl
    · obtain ⟨offset, hstashed, hreplies⟩ := hwrite
      have htold' : told b (b.command env segmentMaxBytes (.append opaqueMeta e (some lsn))) = some (.ok b.tentativeLsn) := by
        rw [told, hreplies, List.drop_length, hstashed, List.drop_left]
        rfl
      rw [htold'] at htold
      cases htold
      have hafter : (Batch.holding (b.command env segmentMaxBytes (.append opaqueMeta e (some lsn)))
          (before.map Rec.episode)).episodes = (Batch.holding b (before.map Rec.episode)).episodes ++ [e] := by
        rw [Batch.holding, hstashed, List.map_append, ← List.append_assoc]
        rfl
      refine .atEnd ((hx lsn rfl).trans hlen) (fun l hl => ?_)
      cases hl
      refine ⟨(hx lsn rfl).symm, ?_⟩
      dsimp only
      rw [hafter, hx lsn rfl, hlen, List.getElem?_concat_length]
      rfl

/-! ## Runs -/

variable (env) in
/-- The log, or the batch that is written to it, holds the episodes of the world. -/
def World.Held (w : World) : Prop :=
  match w.turn with
  | none => ∃ segs act, Steady env w.log segs act ∧ w.log.dir.get? segs.length ≠ some [] ∧
      (segs.flatten ++ act).map Rec.episode = w.episodes
  | some (b, todo) => ∃ segs act before done, InBatch env b segs act before done ∧ before.map Rec.episode = w.episodes ∧
      (before ++ done).length + todo.length < 2 ^ 64 ∧ ∀ cmd ∈ todo, cmd.Bounded env

variable (env) in
structure World.Inv (w : World) : Prop where
  held : w.Held env
  below : ∀ c ∈ w.calls, ∀ head, c.stage = .below head → c.lsn < w.episodes.length
  meets : ∀ d ∈ w.decided, d.Meets
  stands : ∀ d ∈ w.decided, ∀ l, d.result = .ok l → (w.holding.episodes[d.lsn]?).map Episode.id = some d.episode.id

theorem World.episodes_prefix (w : World) : w.episodes <+: w.holding.episodes := by
  unfold World.holding
  split
  · exact List.prefix_rfl
  · exact List.prefix_append _ _

/-- What a reader finds below the head. -/
theorem World.Held.reads {w : World} (h : w.Held env) (hS : IsBinarySearch env.binarySearch) :
    w.holding.log.committedLsn = w.episodes.length ∧
      ∀ lsn, lsn < w.episodes.length → w.holding.log.catalog.NoEmptyHitAt env lsn →
        w.holding.log.read env lsn = .ok ((w.holding.episodes[lsn]?).map (fun e => (lsn, e))) := by
  unfold World.Held at h
  unfold World.holding
  cases hturn : w.turn with
  | none =>
    rw [hturn] at h
    obtain ⟨segs, act, hsteady, -, hepisodes⟩ := h
    have hcommitted : w.log.committedLsn = w.episodes.length := by
      rw [hsteady.committed, ← hepisodes, List.length_map]
    refine ⟨hcommitted, fun lsn hlt hhit => ?_⟩
    dsimp only
    rw [hsteady.seen.read_eq hS hhit (hcommitted ▸ hlt) (Nat.le_of_eq hsteady.committed), ← hepisodes, List.getElem?_map,
      Option.map_map]
    rfl
  | some t =>
    obtain ⟨b, todo⟩ := t
    rw [hturn] at h
    obtain ⟨segs, act, before, done, hin, hepisodes, hlen, -⟩ := h
    obtain ⟨seen, hseen, hprefix⟩ := hin.seen (by omega)
    have hcommitted : b.log.committedLsn = w.episodes.length := by
      rw [hin.committed, ← hepisodes, List.length_map]
    refine ⟨hcommitted, fun lsn hlt hhit => ?_⟩
    have hlt' : lsn < before.length := by rwa [← hepisodes, List.length_map] at hlt
    have hheld : (Batch.holding b w.episodes).episodes[lsn]? = (before[lsn]?).map Rec.episode := by
      rw [← hepisodes, holding_episodes hin, List.getElem?_map, List.getElem?_append_left hlt']
    have hfound : (segs.flatten ++ seen)[lsn]? = before[lsn]? := by
      obtain ⟨rest, hrest⟩ := hprefix
      rw [← hrest, List.getElem?_append_left hlt']
    show b.log.read env lsn = .ok (((Batch.holding b w.episodes).episodes[lsn]?).map (fun e => (lsn, e)))
    rw [hseen.read_eq hS hhit (hcommitted ▸ hlt) (by rw [hin.committed]; exact hprefix.length_le), hheld, hfound,
      Option.map_map]
    rfl

/-- What has been written stays. -/
theorem stands_of_prefix {d : Decision} {l : Nat} {episodes episodes' : List Episode} (hp : episodes <+: episodes')
    (h : (episodes[l]?).map Episode.id = some d.episode.id) : (episodes'[l]?).map Episode.id = some d.episode.id := by
  obtain ⟨x, hx, hid⟩ := Option.map_eq_some_iff.1 h
  obtain ⟨rest, rfl⟩ := hp
  rw [List.getElem?_append_left (List.getElem?_eq_some_iff.1 hx).1, hx, Option.map_some, hid]

/-- A world with other calls and another queue. -/
theorem World.Inv.withCalls {w : World} (h : w.Inv env) (hlc : Hlc) (queue : List LogCommand) {calls : List Call}
    (hcalls : ∀ c ∈ calls, ∀ head, c.stage = .below head → c.lsn < w.episodes.length) :
    World.Inv env { w with hlc := hlc, calls := calls, queue := queue } :=
  ⟨h.held, hcalls, h.meets, h.stands⟩

theorem World.inv_read (hS : IsBinarySearch env.binarySearch) {w : World} (h : w.Inv env) {i head : Nat} {c : Call}
    (hc : w.calls[i]? = some c) (hstage : c.stage = .below head)
    (hok : w.holding.log.catalog.NoEmptyHitAt env c.lsn ∨ Free w.holding.episodes c.lsn c.episode) :
    (Decision.mk c.lsn c.episode w.holding w.holding (answerBelow env w.holding.log head c)).Meets := by
  obtain ⟨hcommitted, hreads⟩ := h.held.reads hS
  have hlt := h.below c (List.mem_of_getElem? hc) head hstage
  have hlt' : c.lsn < w.holding.episodes.length := Nat.lt_of_lt_of_le hlt w.episodes_prefix.length_le
  by_cases hhit : w.holding.log.catalog.NoEmptyHitAt env c.lsn
  · refine .below (x := w.holding.episodes[c.lsn]) head (List.getElem?_eq_getElem hlt') rfl ?_
    dsimp only
    rw [answerBelow, hreads c.lsn hlt hhit, List.getElem?_eq_getElem hlt']
    rfl
  · have hfree := hok.resolve_left hhit
    simp only [LogCatalog.NoEmptyHitAt, not_forall, not_not] at hhit
    obtain ⟨j, container, hact, hsearch, hcontainer, hempty⟩ := hhit
    refine .refused head ?_ rfl hfree
    dsimp only
    rw [answerBelow, read_of_empty_hit (hcommitted ▸ hlt) hact hsearch hcontainer hempty]

theorem World.inv_work (hcodec : env.RoundTrips) {w : World} (h : w.Inv env) {cmd : LogCommand} {rest : List LogCommand}
    (hturn : w.turn = some (b, cmd :: rest))
    (hfree : ∀ opaqueMeta e lsn, cmd = .append opaqueMeta e (some lsn) → Free w.holding.episodes lsn e) :
    World.Inv env { w with
      turn := some (b.command env segmentMaxBytes cmd, rest)
      decided := w.decided ++ (workerDecision w.episodes b (b.command env segmentMaxBytes cmd) cmd).toList } := by
  have hheld := h.held
  unfold World.Held at hheld
  rw [hturn] at hheld
  obtain ⟨segs, act, before, done, hin, hepisodes, hlen, hbounded⟩ := hheld
  rw [List.length_cons] at hlen
  have hholding : w.holding = Batch.holding b w.episodes := by
    unfold World.holding
    rw [hturn]
  have hprefix : (Batch.holding b w.episodes).episodes
      <+: (Batch.holding (b.command env segmentMaxBytes cmd) w.episodes).episodes := by
    have hstashed : b.stashed <+: (b.command env segmentMaxBytes cmd).stashed := by
      match cmd with
      | .flush => exact List.prefix_rfl
      | .append opaqueMeta e expectedLsn =>
        rcases command_append env segmentMaxBytes b opaqueMeta e expectedLsn with ⟨_, _, _, hb'⟩ | ⟨_, ⟨_, hb'⟩ | ⟨_, hb', _⟩⟩
        · rw [hb']
          exact List.prefix_rfl
        · rw [hb']
          exact List.prefix_rfl
        · rw [hb']
          exact List.prefix_append _ _
    exact (List.prefix_append_right_inj _).2 (hstashed.map _)
  have hdecision : ∀ d, workerDecision w.episodes b (b.command env segmentMaxBytes cmd) cmd = some d →
      d.Meets ∧ d.after = Batch.holding (b.command env segmentMaxBytes cmd) w.episodes := by
    rw [← hepisodes]
    refine fun d hd => meets_of_worker hin hd (fun opaqueMeta e lsn hcmd => ?_)
    rw [hepisodes, ← hholding]
    exact hfree opaqueMeta e lsn hcmd
  obtain ⟨segs', act', done', hin', hle, -⟩ := hin.command keptByWorker_true trivial (by omega) hcodec segmentMaxBytes
    (hbounded cmd List.mem_cons_self)
  refine ⟨⟨segs', act', before, done', hin', hepisodes, ?_, fun c hc => hbounded c (List.mem_cons_of_mem cmd hc)⟩, h.below,
    fun d hd => ?_, fun d hd l hl => ?_⟩
  · rw [List.length_append] at hlen ⊢
    omega
  · rcases List.mem_append.1 hd with hd | hd
    · exact h.meets d hd
    · exact (hdecision d (Option.mem_toList.1 hd)).1
  · show ((Batch.holding (b.command env segmentMaxBytes cmd) w.episodes).episodes[d.lsn]?).map Episode.id = _
    rcases List.mem_append.1 hd with hd | hd
    · have hold := h.stands d hd l hl
      rw [hholding] at hold
      exact stands_of_prefix hprefix hold
    · obtain ⟨hmeets, hafter⟩ := hdecision d (Option.mem_toList.1 hd)
      rw [← hafter]
      exact (hmeets.accepted l hl).2

theorem World.inv_gather {w : World} (h : w.Inv env) {n : Nat} (hturn : w.turn = none)
    (hok : w.log.BatchOk env (w.queue.take n)) :
    World.Inv env { w with turn := some (.start w.log, w.queue.take n), queue := w.queue.drop n } := by
  have hheld := h.held
  unfold World.Held at hheld
  rw [hturn] at hheld
  obtain ⟨segs, act, hsteady, hsolid, hepisodes⟩ := hheld
  refine ⟨⟨segs, act, _, [], hsteady.inBatch_start hsolid, hepisodes, ?_, hok.1⟩, h.below, h.meets, fun d hd l hl => ?_⟩
  · rw [List.append_nil, ← hsteady.committed]
    exact hok.2
  · have hold := h.stands d hd l hl
    unfold World.holding at hold
    rw [hturn] at hold
    show ((w.episodes ++ [])[d.lsn]?).map Episode.id = _
    rw [List.append_nil]
    exact hold

theorem World.inv_finish {w : World} (h : w.Inv env) (hturn : w.turn = some (b, [])) :
    World.Inv env { w with log := b.finish.1, episodes := w.episodes ++ (acks b.finish.2).map Prod.snd, turn := none } := by
  have hheld := h.held
  unfold World.Held at hheld
  rw [hturn] at hheld
  obtain ⟨segs, act, before, done, hin, hepisodes, hlen, -⟩ := hheld
  obtain ⟨hsteady, hsolid, hacks⟩ := hin.finish (by simpa using hlen)
  have hepisodes' : w.episodes ++ (acks b.finish.2).map Prod.snd = (before ++ done).map Rec.episode := by
    rw [hacks, map_snd_number, ← hepisodes, List.map_append]
  have hholding : w.holding.episodes = w.episodes ++ (acks b.finish.2).map Prod.snd := by
    unfold World.holding
    rw [hturn, hepisodes', ← holding_episodes hin, hepisodes]
  refine ⟨⟨segs, act, hsteady, hsolid, ?_⟩, fun c hc head hstage => ?_, h.meets, fun d hd l hl => ?_⟩
  · rw [hepisodes', hin.records]
  · have := h.below c hc head hstage
    rw [List.length_append]
    omega
  · show ((w.episodes ++ (acks b.finish.2).map Prod.snd)[d.lsn]?).map Episode.id = _
    rw [← hholding]
    exact h.stands d hd l hl

theorem World.inv_step (hS : IsBinarySearch env.binarySearch) (hcodec : env.RoundTrips) {w w' : World} {a : Action}
    (h : w.Inv env) (hok : StepOk env w a) (hstep : w.step env segmentMaxBytes a = some w') : w'.Inv env := by
  cases a with
  | append episode ms =>
    cases hstep
    exact h.withCalls _ _ h.below
  | flush =>
    cases hstep
    exact h.withCalls w.hlc _ h.below
  | observe lsn episode =>
    cases hstep
    refine h.withCalls _ w.queue (fun c hc head hstage => ?_)
    rcases List.mem_append.1 hc with hc | hc
    · exact h.below c hc head hstage
    · cases List.mem_singleton.1 hc
      cases hstage
  | readHead i =>
    obtain ⟨c, hc, hcase⟩ := Option.bind_eq_some_iff.1 hstep
    split at hcase
    · cases hcase
      refine h.withCalls w.hlc w.queue (fun c' hc' head hstage => ?_)
      rcases List.mem_or_eq_of_mem_set hc' with hc' | rfl
      · exact h.below c' hc' head hstage
      · rw [← (h.held.reads hS).1]
        dsimp only at hstage ⊢
        split at hstage
        · assumption
        · cases hstage
    · cases hcase
  | read i =>
    obtain ⟨c, hc, hcase⟩ := Option.bind_eq_some_iff.1 hstep
    split at hcase
    · rename_i head hstage
      cases hcase
      have hmeets := World.inv_read hS h hc hstage (hok c hc)
      refine ⟨h.held, fun c' hc' => h.below c' (List.mem_of_mem_eraseIdx hc'), fun d hd => ?_, fun d hd l hl => ?_⟩
      · rcases List.mem_append.1 hd with hd | hd
        · exact h.meets d hd
        · rw [List.mem_singleton.1 hd]
          exact hmeets
      · rcases List.mem_append.1 hd with hd | hd
        · exact h.stands d hd l hl
        · rw [List.mem_singleton.1 hd] at hl ⊢
          exact (hmeets.accepted l hl).2
    · cases hcase
  | send i =>
    obtain ⟨c, hc, hcase⟩ := Option.bind_eq_some_iff.1 hstep
    split at hcase
    · cases hcase
      exact h.withCalls w.hlc _ (fun c' hc' => h.below c' (List.mem_of_mem_eraseIdx hc'))
    · cases hcase
  | gather n =>
    simp only [World.step] at hstep
    split at hstep
    · rename_i hguard
      cases hstep
      exact World.inv_gather h (Option.isNone_iff_eq_none.1 hguard.1) hok
    · cases hstep
  | work =>
    simp only [World.step] at hstep
    split at hstep
    · rename_i b cmd rest hturn
      cases hstep
      refine World.inv_work hcodec h hturn (fun opaqueMeta e lsn hcmd => ?_)
      subst hcmd
      exact hok b opaqueMeta e lsn rest hturn
    · cases hstep
  | finish =>
    simp only [World.step] at hstep
    split at hstep
    · rename_i b hturn
      cases hstep
      exact World.inv_finish h hturn
    · cases hstep

theorem World.inv_start {log : Log} (hsteady : Steady env log segs act) (hsolid : log.dir.get? segs.length ≠ some [])
    (hlc : Hlc) : (World.start hlc log ((segs.flatten ++ act).map Rec.episode)).Inv env where
  held := ⟨segs, act, hsteady, hsolid, rfl⟩
  below _ hc := absurd hc List.not_mem_nil
  meets _ hd := absurd hd List.not_mem_nil
  stands _ hd := absurd hd List.not_mem_nil

/-- **Every call of `append_replicated` is a compare-and-append**, whatever is appended in between, and what it has accepted
stays at its position. -/
theorem replicated_meets (hS : IsBinarySearch env.binarySearch) (hcodec : env.RoundTrips) {log : Log}
    (hsteady : Steady env log segs act) (hsolid : log.dir.get? segs.length ≠ some []) (hlc : Hlc) {acts : List Action}
    {w : World} (h : Run (World.step env segmentMaxBytes) (StepOk env)
      (.start hlc log ((segs.flatten ++ act).map Rec.episode)) acts w) :
    w.Held env ∧ ∀ d ∈ w.decided, d.Meets ∧
      ∀ l, d.result = .ok l → (w.holding.episodes[d.lsn]?).map Episode.id = some d.episode.id := by
  have hinv : w.Inv env := h.invariant (World.inv_start hsteady hsolid hlc)
    (fun w a w' hi hok hs => World.inv_step hS hcodec hi hok hs)
  exact ⟨hinv.held, fun d hd => ⟨hinv.meets d hd, hinv.stands d hd⟩⟩

/-- A call at the head of an empty log, up to the answer of the worker. -/
def firstCall : List Action := [.observe 0 (sampleEpisode 0), .readHead 0, .send 0, .gather 1, .work]

theorem firstCall_ok : allOk (World.step sampleEnv 4096) (StepOk sampleEnv) (.start .new (.create sampleEnv) []) firstCall := by
  refine ⟨trivial, fun w₁ h₁ => ⟨trivial, fun w₂ h₂ => ⟨trivial, fun w₃ h₃ => ?_⟩⟩⟩
  cases h₁
  cases h₂
  cases h₃
  refine ⟨⟨fun cmd hcmd => ?_, by decide⟩, fun w₄ h₄ => ?_⟩
  · cases List.mem_singleton.1 hcmd
    exact sampleAppend_bounded 0
  · cases h₄
    refine ⟨fun b opaqueMeta e lsn rest hturn x hx => ?_, fun _ _ => trivial⟩
    cases hx

theorem replicated_meets_sample : ∃ w : World, w.decided.map (fun d => (d.lsn, d.result)) = [(0, .ok 0)] ∧
    w.Held sampleEnv ∧ ∀ d ∈ w.decided, d.Meets ∧
      ∀ l, d.result = .ok l → (w.holding.episodes[d.lsn]?).map Episode.id = some d.episode.id := by
  obtain ⟨w, hw, hdecided⟩ : ∃ w, runs (World.step sampleEnv 4096) (.start .new (.create sampleEnv) []) firstCall = some w ∧
      w.decided.map (fun d => (d.lsn, d.result)) = [(0, .ok 0)] := ⟨_, rfl, by decide +kernel⟩
  exact ⟨w, hdecided, replicated_meets isBinarySearch_searchFirst sampleEnv_roundTrips steady_create solid_create .new
    (run_of_runs hw firstCall_ok)⟩

/-- Two copies of a call both read the head at their position: the second one comes to the worker after the first and is
refused, though its own event stands there. -/
def twoCopies : List Action :=
  [.observe 0 (sampleEpisode 0), .observe 0 (sampleEpisode 0), .readHead 0, .readHead 1, .send 0, .send 0,
    .gather 1, .work, .finish, .gather 1, .work, .finish]

set_option maxRecDepth 20000 in
theorem twoCopies_decided :
    (runs (World.step sampleEnv 4096) (.start .new (.create sampleEnv) []) twoCopies).map
        (fun w => w.decided.map (fun d => (d.lsn, d.episode, d.before.episodes, d.result)))
      = some [(0, sampleEpisode 0, [], .ok 0),
        (0, sampleEpisode 0, [sampleEpisode 0], .error (.casConflict 0 1))] := by
  decide +kernel

/-- **A repeated call can be refused.** -/
theorem repeated_call_is_refused : ∃ w : World,
    runs (World.step sampleEnv 4096) (.start .new (.create sampleEnv) []) twoCopies = some w ∧ ¬ ∀ d ∈ w.decided, d.Meets := by
  obtain ⟨w, hw, hdecided⟩ := Option.map_eq_some_iff.1 twoCopies_decided
  refine ⟨w, hw, fun hmeets => ?_⟩
  have hlen : 1 < w.decided.length := by
    have := congrArg List.length hdecided
    simp only [List.length_map, List.length_cons, List.length_nil] at this
    omega
  have hsecond := congrArg (·[1]?) hdecided
  simp only [List.getElem?_map, List.getElem?_eq_getElem hlen, Option.map_some, List.getElem?_cons_succ,
    List.getElem?_cons_zero, Option.some.injEq, Prod.mk.injEq] at hsecond
  obtain ⟨hlsn, hepisode, hbefore, hresult⟩ := hsecond
  have hd := (hmeets _ (List.getElem_mem hlen)).repeated (sampleEpisode 0)
  rw [hlsn, hbefore, hepisode, hresult] at hd
  exact absurd (hd rfl rfl).1 (by decide)

end Replicated
end Legacy
end Heraclitus
