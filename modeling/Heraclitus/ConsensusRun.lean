import Heraclitus.Consensus
/-!
# ConsensusRun — what the local logs hold in any run of the cluster

Applied entries are a prefix of the committed ones, and the count of the machine is the number of `Normal` entries in it.
A log may be ahead of the count, after a crash or in the middle of an installation; a snapshot built there, or one
installed over a longer log, breaks the counting, and nothing else does (`logs_committed`).
-/
namespace Heraclitus
namespace Raft

/-! ## Positions in the committed sequence -/

/-- The id of the last of the first `p` entries. -/
def lastId (entries : List Entry) (p : Nat) : Option LogId := (entries.take p).getLast?.map Entry.logId

/-- The entries with an id at most the given one. -/
def upTo (entries : List Entry) (id : Option LogId) : List Entry :=
  match id with
  | none => []
  | some id => entries.filter (fun e => decide (e.logId.le id))

theorem LogId.lt_asymm {a b : LogId} (h : a.lt b) : ¬b.lt a := by
  unfold LogId.lt at *
  omega

theorem LogId.lt_irrefl (a : LogId) : ¬a.lt a := fun h => LogId.lt_asymm h h

/-- The first `p` entries end with an entry, or there are none. -/
theorem take_cases (entries : List Entry) (p : Nat) :
    (entries.take p = [] ∧ (p = 0 ∨ entries = [])) ∨
      ∃ init e, entries.take p = init ++ [e] ∧ entries = init ++ e :: entries.drop p := by
  rcases List.eq_nil_or_concat (entries.take p) with h | ⟨init, e, h⟩
  · refine .inl ⟨h, ?_⟩
    simpa using h
  · rw [List.concat_eq_append] at h
    refine .inr ⟨init, e, h, ?_⟩
    conv_lhs => rw [← List.take_append_drop p entries, h]
    rw [List.append_assoc]
    rfl

variable (c : Committed)

/-- **The entries after the applied one** are those behind its position. -/
theorem entriesAfter_lastId (p : Nat) : entriesAfter c.entries (lastId c.entries p) = c.entries.drop p := by
  unfold lastId
  rcases take_cases c.entries p with ⟨h, hp⟩ | ⟨init, e, h, hsplit⟩
  · rw [h]
    rcases hp with rfl | hnil
    · rfl
    · simp [entriesAfter, hnil]
  · have hinc := c.increasing
    rw [hsplit, List.pairwise_append] at hinc
    rw [h, List.getLast?_concat, Option.map_some]
    dsimp only [entriesAfter]
    conv_lhs => rw [hsplit]
    have hinit : ∀ x ∈ init, decide (x.logId ≠ e.logId) = true := fun x hx => decide_eq_true fun heq =>
      LogId.lt_irrefl e.logId (heq ▸ hinc.2.2 x hx e List.mem_cons_self)
    rw [List.dropWhile_append_of_pos hinit, List.dropWhile_cons_of_neg (by simp), List.tail_cons]

theorem upTo_lastId (p : Nat) : upTo c.entries (lastId c.entries p) = c.entries.take p := by
  unfold lastId
  rcases take_cases c.entries p with ⟨h, -⟩ | ⟨init, e, h, hsplit⟩
  · rw [h]
    rfl
  · have hinc := c.increasing
    rw [hsplit, List.pairwise_append, List.pairwise_cons] at hinc
    rw [h, List.getLast?_concat, Option.map_some]
    dsimp only [upTo]
    conv_lhs => rw [hsplit]
    have hinit : init.filter (fun x => decide (x.logId.le e.logId)) = init :=
      List.filter_eq_self.2 fun x hx => decide_eq_true (.inr (hinc.2.2 x hx e List.mem_cons_self))
    have hrest : (c.entries.drop p).filter (fun x => decide (x.logId.le e.logId)) = [] :=
      List.filter_eq_nil_iff.2 fun x hx => by
        have hlt := hinc.2.1.1 x hx
        rw [decide_eq_true_eq]
        rintro (heq | hgt)
        · exact LogId.lt_irrefl e.logId (heq ▸ hlt)
        · exact LogId.lt_asymm hlt hgt
    have hself : decide (e.logId.le e.logId) = true := decide_eq_true (.inl rfl)
    rw [List.filter_append, List.filter_cons, if_pos hself, hinit, hrest]

theorem take_succ_of_drop {α : Type} {l t : List α} {e : α} {p : Nat} (h : l.drop p = e :: t) :
    l[p]? = some e ∧ l.take (p + 1) = l.take p ++ [e] ∧ l.drop (p + 1) = t := by
  have hget : (l.drop p)[0]? = l[p]? := by rw [List.getElem?_drop, Nat.add_zero]
  rw [h, List.getElem?_cons_zero] at hget
  refine ⟨hget.symm, by rw [List.take_add_one, ← hget, Option.toList_some], ?_⟩
  rw [← List.drop_drop, h]
  rfl

variable {c} (env : Env)

/-- What the `Normal` entries decode to. -/
def committedEpisodes (entries : List Entry) : List (Except String Episode) := (normals entries).map env.decodeEpisode

/-- **The log is the committed sequence**: the episodes of the first `Normal` entries. -/
def LogCommitted (c : Committed) (log : List Episode) : Prop := log.map .ok <+: committedEpisodes env c.entries

variable {env}

theorem length_committedEpisodes (entries : List Entry) : (committedEpisodes env entries).length = (normals entries).length :=
  List.length_map _

theorem committedEpisodes_append (a b : List Entry) :
    committedEpisodes env (a ++ b) = committedEpisodes env a ++ committedEpisodes env b := by
  simp [committedEpisodes, normals]

theorem committedEpisodes_take (p : Nat) : committedEpisodes env (c.entries.take p) <+: committedEpisodes env c.entries := by
  conv_rhs => rw [← List.take_append_drop p c.entries, committedEpisodes_append]
  exact List.prefix_append _ _

/-- A log as long as the episodes of the first `p` entries holds these. -/
theorem LogCommitted.eq_take {log : List Episode} (h : LogCommitted env c log) {p : Nat}
    (hlen : log.length = (normals (c.entries.take p)).length) : log.map .ok = committedEpisodes env (c.entries.take p) := by
  have hp := List.prefix_of_prefix_length_le h (committedEpisodes_take p)
    (by rw [List.length_map, length_committedEpisodes, hlen])
  exact hp.eq_of_length (by rw [List.length_map, length_committedEpisodes, hlen])

theorem LogCommitted.append {log : List Episode} (h : LogCommitted env c log) {p : Nat} {e : Entry} {t : List Entry}
    {bytes : Bytes} {ep : Episode} (hlen : log.length = (normals (c.entries.take p)).length)
    (hdrop : c.entries.drop p = e :: t) (he : e.payload = .normal bytes) (hep : env.decodeEpisode bytes = .ok ep) :
    LogCommitted env c (log ++ [ep]) := by
  have hone : committedEpisodes env [e] = [.ok ep] := by simp [committedEpisodes, normals, Entry.normal?, he, hep]
  have htake : committedEpisodes env (c.entries.take (p + 1)) = (log ++ [ep]).map .ok := by
    rw [(take_succ_of_drop hdrop).2.1, committedEpisodes_append, ← h.eq_take hlen, hone, List.map_append]
    rfl
  unfold LogCommitted
  rw [← htake]
  exact committedEpisodes_take (p + 1)

theorem dumpLog_eq (log : List Episode) : dumpLog env log = log.map env.encodeEpisode := by
  have hfold : (number 0 log).foldl (fun payload r => payload ++ [env.encodeEpisode r.2]) []
      = [] ++ (number 0 log).flatMap (fun r => [env.encodeEpisode r.2]) :=
    foldl_append_of_step (fun out => out) (fun _ _ => rfl) (number 0 log) []
  unfold dumpLog
  rw [drain_eq_replayFrom (by decide) _ _ (Nat.le_refl _) _ _ _ (by omega), replayFrom, List.drop_zero, hfold,
    List.nil_append, ← List.map_eq_flatMap]
  conv_rhs => rw [← map_snd_number log 0, List.map_map]
  rfl

/-! ## The invariant -/

/-- `bincode` reads back the episodes of committed entries, and the payloads made of these. -/
structure Env.RoundTrips (env : Env) (c : Committed) : Prop where
  episode : ∀ ep, .ok ep ∈ committedEpisodes env c.entries → env.decodeEpisode (env.encodeEpisode ep) = .ok ep
  payload : ∀ log, LogCommitted env c log →
    env.decodePayload (env.encodePayload (log.map env.encodeEpisode)) = .ok (log.map env.encodeEpisode)

/-- The applied id and the count of a machine or of its side file stand at position `p`. -/
def StandsAt (c : Committed) (applied : Option LogId) (count p : Nat) : Prop :=
  applied = lastId c.entries p ∧ count = (normals (c.entries.take p)).length

/-- The snapshot holds `log`, which is the episodes up to its last id. -/
def Snapshot.Holds (env : Env) (c : Committed) (s : Snapshot) (log : List Episode) : Prop :=
  ∃ p, StandsAt c s.info.lastLogId log.length p ∧ LogCommitted env c log ∧
    s.bytes = env.encodePayload (log.map env.encodeEpisode)

/-- What holds of a process over a log. -/
def Process.Inv (env : Env) (c : Committed) (log : List Episode) (p : Process) : Prop :=
  match p.pc with
  | .idle => (∃ at', StandsAt c p.st.applied p.st.normals at') ∧ log.length = p.st.normals + p.st.skipNormals
  | .applying rest => ∃ at', StandsAt c p.st.applied p.st.normals at' ∧
      log.length = p.st.normals + p.st.skipNormals ∧ rest <+: c.entries.drop at'
  | .installing s rest => (∃ at', StandsAt c p.st.applied p.st.normals at') ∧ ∃ held i, s.Holds env c held ∧
      rest = number i ((held.map env.encodeEpisode).drop i) ∧ i ≤ log.length ∧ log.length ≤ held.length
  | .failed => True

structure Replica.Inv (env : Env) (c : Committed) (r : Replica) : Prop where
  log : LogCommitted env c r.log
  file : ∃ at', StandsAt c (r.file.getD {}).applied (r.file.getD {}).normals at'
  process : ∀ p, r.process = some p → p.Inv env c r.log

def World.Inv (env : Env) (c : Committed) (w : World) : Prop :=
  (∀ i, (w.replicas i).Inv env c) ∧ ∀ s ∈ w.snapshots, ∃ log, s.Holds env c log

/-- A snapshot is built while no episode of the log is ahead of the count, and installed over no longer log. -/
def StepOk (env : Env) (w : World) (a : Action) : Prop :=
  match a.op with
  | .build => ∀ p, (w.replicas a.replica).process = some p → p.st.normals = (w.replicas a.replica).log.length
  | .install i => ∀ s, w.snapshots[i]? = some s → ∀ payload, env.decodePayload s.bytes = .ok payload →
      (w.replicas a.replica).log.length ≤ payload.length
  | _ => True

instance {env : Env} {w : World} : ∀ a : Action, Decidable (StepOk env w a)
  | ⟨i, .build⟩ =>
    inferInstanceAs (Decidable (∀ p, (w.replicas i).process = some p → p.st.normals = (w.replicas i).log.length))
  | ⟨i, .install n⟩ =>
    inferInstanceAs (Decidable (∀ s, w.snapshots[n]? = some s → ∀ payload, env.decodePayload s.bytes = .ok payload →
      (w.replicas i).log.length ≤ payload.length))
  | ⟨_, .openDurable⟩ | ⟨_, .crash _⟩ | ⟨_, .deliver _⟩ | ⟨_, .applyNext⟩ | ⟨_, .persist⟩ | ⟨_, .installNext⟩
  | ⟨_, .finishInstall⟩ => isTrue trivial

variable {st : SmState} {log : List Episode}

theorem standsAt_zero : StandsAt c none 0 0 := ⟨rfl, rfl⟩

theorem normals_take_succ {p : Nat} {e : Entry} {t : List Entry} (h : c.entries.drop p = e :: t) :
    normals (c.entries.take (p + 1)) = normals (c.entries.take p) ++ e.normal?.toList := by
  rw [(take_succ_of_drop h).2.1, normals, List.filterMap_append]
  cases he : e.normal? <;> simp [he, normals]

theorem lastId_succ {p : Nat} {e : Entry} {t : List Entry} (h : c.entries.drop p = e :: t) :
    lastId c.entries (p + 1) = some e.logId := by
  rw [lastId, (take_succ_of_drop h).2.1, List.getLast?_concat, Option.map_some]

/-- **One entry**: what `apply` keeps when it succeeds. -/
theorem applyEntry_inv {p : Nat} {e : Entry} {t : List Entry} {st' : SmState} {log' : List Episode} {n : Nat}
    (hlog : LogCommitted env c log) (hst : StandsAt c st.applied st.normals p)
    (hlen : log.length = st.normals + st.skipNormals) (hdrop : c.entries.drop p = e :: t)
    (h : applyEntry env st log e = (st', log', .ok n)) :
    LogCommitted env c log' ∧ StandsAt c st'.applied st'.normals (p + 1) ∧
      log'.length = st'.normals + st'.skipNormals := by
  obtain ⟨-, hcount⟩ := hst
  have hlast := lastId_succ hdrop
  have hnormals := normals_take_succ hdrop
  unfold applyEntry at h
  split at h
  · rename_i hpay
    rw [Entry.normal?, hpay] at hnormals
    cases h
    exact ⟨hlog, ⟨hlast.symm, by rw [hnormals, hcount]; simp⟩, hlen⟩
  · rename_i m hpay
    rw [Entry.normal?, hpay] at hnormals
    cases h
    exact ⟨hlog, ⟨hlast.symm, by rw [hnormals, hcount]; simp⟩, hlen⟩
  · rename_i bytes hpay
    rw [Entry.normal?, hpay] at hnormals
    dsimp only at h
    split at h
    · cases h
      exact ⟨hlog, ⟨hlast.symm, by rw [hnormals, hcount]; simp⟩, by dsimp only; omega⟩
    · split at h
      · cases h
      · rename_i hskip _ ep hep
        have happend : appendReplicated log log.length ep = .ok (log ++ [ep]) := by
          rw [appendReplicated, List.getElem?_eq_none (Nat.le_refl _), if_pos rfl]
        rw [happend] at h
        cases h
        refine ⟨hlog.append (by omega) hdrop hpay hep, ⟨hlast.symm, by rw [hnormals, hcount]; simp⟩, ?_⟩
        rw [List.length_append, List.length_singleton]
        dsimp only
        omega

theorem applyEntry_error {e : Entry} {st' : SmState} {log' : List Episode} {err : StorageError}
    (h : applyEntry env st log e = (st', log', .error err)) : log' = log := by
  unfold applyEntry at h
  split at h
  · cases h
  · cases h
  · dsimp only at h
    split at h
    · cases h
    · split at h
      · cases h
        rfl
      · split at h
        · cases h
          rfl
        · cases h

/-- Of two logs of the committed sequence the shorter one begins the longer one. -/
theorem LogCommitted.eq_take_of_le {held : List Episode} (hlog : LogCommitted env c log) (hheld : LogCommitted env c held)
    (hle : log.length ≤ held.length) : log = held.take log.length := by
  have h := List.prefix_iff_eq_take.1 (List.prefix_of_prefix_length_le hlog hheld (by simpa using hle))
  rw [List.length_map, ← List.map_take] at h
  exact List.map_injective_iff.2 (fun _ _ => Except.ok.inj) h

theorem cons_eq_number_drop {l : List Bytes} {i n : Nat} {bytes : Bytes} {rest : List (Nat × Bytes)}
    (h : (n, bytes) :: rest = number i (l.drop i)) : n = i ∧ l[i]? = some bytes ∧ rest = number (i + 1) (l.drop (i + 1)) := by
  cases hd : l.drop i with
  | nil =>
    rw [hd] at h
    cases h
  | cons b t =>
    obtain ⟨hget, -, hdrop⟩ := take_succ_of_drop hd
    rw [hd, number] at h
    cases h
    exact ⟨rfl, hget, by rw [hdrop]⟩

/-- **One episode of an installation**: the log stays the committed sequence and reaches past it. -/
theorem installEpisode_inv (hcodec : env.RoundTrips c) {held log' : List Episode} {i n : Nat} {bytes : Bytes}
    {rest : List (Nat × Bytes)} (hlog : LogCommitted env c log) (hheld : LogCommitted env c held)
    (hrest : (n, bytes) :: rest = number i ((held.map env.encodeEpisode).drop i)) (hi : i ≤ log.length)
    (hle : log.length ≤ held.length) (h : installEpisode env log (n, bytes) = .ok log') :
    LogCommitted env c log' ∧ rest = number (i + 1) ((held.map env.encodeEpisode).drop (i + 1)) ∧
      i + 1 ≤ log'.length ∧ log'.length ≤ held.length := by
  obtain ⟨rfl, hget, hrest'⟩ := cons_eq_number_drop hrest
  obtain ⟨ep, hep, hbytes⟩ := Option.map_eq_some_iff.1 (List.getElem?_map.symm.trans hget)
  unfold installEpisode at h
  split at h
  · rename_i hlt
    cases h
    exact ⟨hlog, hrest', hlt, hle⟩
  · rename_i hlt
    have hn : n = log.length := Nat.le_antisymm hi (Nat.not_lt.1 hlt)
    have hdecode : env.decodeEpisode bytes = .ok ep := by
      rw [← hbytes]
      exact hcodec.episode ep (hheld.subset (List.mem_map_of_mem (List.mem_of_getElem? hep)))
    have happend : appendReplicated log n ep = .ok (log ++ [ep]) := by
      rw [appendReplicated, hn, List.getElem?_eq_none (Nat.le_refl _), if_pos rfl]
    dsimp only at h
    rw [hdecode] at h
    dsimp only at h
    rw [happend] at h
    cases h
    have htake : held.take (log.length + 1) = log ++ [ep] := by
      conv_rhs => rw [hlog.eq_take_of_le hheld hle]
      rw [List.take_add_one, ← hn, hep, Option.toList_some]
    have hlt : n < held.length := (List.getElem?_eq_some_iff.1 hep).1
    refine ⟨?_, hrest', by simp [hn], by simp; omega⟩
    unfold LogCommitted
    rw [← htake, List.map_take]
    exact (List.take_prefix _ _).trans hheld

/-- A snapshot of a log that is not ahead of the count holds that log. -/
theorem buildSnapshot_holds {p : Nat} (hlog : LogCommitted env c log) (hst : StandsAt c st.applied st.normals p)
    (hcount : st.normals = log.length) : (buildSnapshot env st log).2.Holds env c log :=
  ⟨p, hcount ▸ hst, hlog, by rw [buildSnapshot, dumpLog_eq]⟩

theorem take_committed (h : LogCommitted env c log) (keep : Nat) : LogCommitted env c (log.take keep) := by
  unfold LogCommitted
  rw [List.map_take]
  exact (List.take_prefix _ _).trans h

theorem openDurable_inv {file : Option SmMeta} (hfile : ∃ p, StandsAt c (file.getD {}).applied (file.getD {}).normals p)
    (h : openDurable log file = .ok st) : Process.Inv env c log ⟨st, .idle⟩ := by
  unfold openDurable at h
  dsimp only at h
  split at h
  · cases h
  · rename_i hle
    cases h
    exact ⟨hfile, by dsimp only; omega⟩

/-- A node whose log, side file and process are as they should be. -/
theorem Replica.Inv.set {r : Replica} (hr : r.Inv env c) {log' : List Episode} {p : Process}
    (hlog : LogCommitted env c log') (hp : p.Inv env c log') : Replica.Inv env c { r with log := log', process := some p } :=
  ⟨hlog, hr.file, fun _ h => Option.some.inj h ▸ hp⟩

theorem Replica.Inv.saved {r : Replica} (hlog : LogCommitted env c r.log) {at' : Nat}
    (hst : StandsAt c st.applied st.normals at') (hlen : r.log.length = st.normals + st.skipNormals) :
    Replica.Inv env c { r with file := some st.toMeta, process := some ⟨st, .idle⟩ } :=
  ⟨hlog, ⟨at', hst⟩, fun _ h => Option.some.inj h ▸ ⟨⟨at', hst⟩, hlen⟩⟩

/-- **One step of a node.** -/
theorem Replica.inv_step (hcodec : env.RoundTrips c) {pool : List Snapshot} {r r' : Replica} {op : Op}
    {built : Option Snapshot} (hr : r.Inv env c) (hpool : ∀ s ∈ pool, ∃ log, s.Holds env c log)
    (hbuild : op = .build → ∀ p, r.process = some p → p.st.normals = r.log.length)
    (hinstall : ∀ i, op = .install i → ∀ s, pool[i]? = some s → ∀ payload, env.decodePayload s.bytes = .ok payload →
      r.log.length ≤ payload.length)
    (h : r.step env c pool op = some (r', built)) : r'.Inv env c ∧ ∀ s, built = some s → ∃ log, s.Holds env c log := by
  have hnone : ∀ s, (none : Option Snapshot) = some s → ∃ log, s.Holds env c log := nofun
  unfold Replica.step at h
  split at h
  · -- `open_durable`
    split at h
    · cases h
      exact ⟨hr, hnone⟩
    · rename_i st hst
      cases h
      exact ⟨hr.set hr.log (openDurable_inv hr.file hst), hnone⟩
  · -- a crash
    cases h
    exact ⟨⟨take_committed hr.log _, hr.file, nofun⟩, hnone⟩
  · -- the start of `apply`
    rename_i n st hp
    cases h
    obtain ⟨⟨at', hst⟩, hlen⟩ := hr.process _ hp
    refine ⟨hr.set hr.log ⟨at', hst, hlen, ?_⟩, hnone⟩
    rw [hst.1, entriesAfter_lastId]
    exact List.take_prefix _ _
  · -- one entry
    rename_i st entry rest hp
    obtain ⟨at', hst, hlen, t, hrest⟩ := hr.process _ hp
    split at h
    · rename_i st' log' n heq
      cases h
      have hdrop : c.entries.drop at' = entry :: (rest ++ t) := by rw [← hrest, List.cons_append]
      obtain ⟨hlog', hst', hlen'⟩ := applyEntry_inv hr.log hst hlen hdrop heq
      refine ⟨hr.set hlog' ⟨at' + 1, hst', hlen', ?_⟩, hnone⟩
      rw [(take_succ_of_drop hdrop).2.2]
      exact List.prefix_append _ _
    · rename_i st' log' e heq
      cases h
      rw [applyEntry_error heq]
      exact ⟨hr.set hr.log trivial, hnone⟩
  · -- the end of `apply`
    rename_i st hp
    cases h
    obtain ⟨at', hst, hlen, -⟩ := hr.process _ hp
    exact ⟨.saved hr.log hst hlen, hnone⟩
  · rename_i st hp
    cases h
    obtain ⟨⟨at', hst⟩, hlen⟩ := hr.process _ hp
    exact ⟨hr.set hr.log ⟨⟨at', hst⟩, hlen⟩, fun s hs => Option.some.inj hs ▸
      ⟨r.log, buildSnapshot_holds hr.log hst (hbuild rfl _ hp)⟩⟩
  · rename_i st snap rest hp
    cases h
    obtain ⟨⟨at', hst⟩, hinst⟩ := hr.process _ hp
    exact ⟨hr.set hr.log ⟨⟨at', hst⟩, hinst⟩, fun s hs => Option.some.inj hs ▸
      ⟨r.log, buildSnapshot_holds hr.log hst (hbuild rfl _ hp)⟩⟩
  · -- the start of `install_snapshot`
    rename_i i st hp
    split at h
    · cases h
    · rename_i s hs
      obtain ⟨hst, -⟩ := hr.process _ hp
      obtain ⟨held, hheld⟩ := hpool s (List.mem_of_getElem? hs)
      obtain ⟨-, -, hcommitted, hbytes⟩ := id hheld
      have hpayload := hcodec.payload held hcommitted
      rw [← hbytes] at hpayload
      rw [hpayload] at h
      cases h
      have hle := hinstall i rfl s hs _ hpayload
      rw [List.length_map] at hle
      exact ⟨hr.set hr.log ⟨hst, held, 0, hheld, rfl, Nat.zero_le _, hle⟩, hnone⟩
  · -- one episode
    rename_i st s item rest hp
    obtain ⟨hst, held, i, hheld, hrest, hi, hle⟩ := hr.process _ hp
    obtain ⟨-, -, hcommitted, -⟩ := id hheld
    split at h
    · cases h
      exact ⟨hr.set hr.log trivial, hnone⟩
    · rename_i log' heq
      cases h
      obtain ⟨hlog', hrest', hi', hle'⟩ := installEpisode_inv hcodec hr.log hcommitted hrest hi hle heq
      exact ⟨hr.set hlog' ⟨hst, held, i + 1, hheld, hrest', hi', hle'⟩, hnone⟩
  · -- the end of `install_snapshot`
    rename_i st s hp
    cases h
    obtain ⟨-, held, i, hheld, hrest, hi, hle⟩ := hr.process _ hp
    obtain ⟨at', hst', -⟩ := hheld
    have hlen : r.log.length = held.length := by
      have hnil : (held.map env.encodeEpisode).drop i = [] := by
        cases hd : (held.map env.encodeEpisode).drop i with
        | nil => rfl
        | cons b t =>
          rw [hd] at hrest
          cases hrest
      have := List.drop_eq_nil_iff.1 hnil
      rw [List.length_map] at this
      omega
    rw [← hlen] at hst'
    exact ⟨.saved hr.log hst' rfl, hnone⟩
  · cases h

theorem World.inv_step (hcodec : env.RoundTrips c) {w w' : World} {a : Action} (hw : w.Inv env c) (hok : StepOk env w a)
    (h : w.step env c a = some w') : w'.Inv env c := by
  unfold World.step at h
  obtain ⟨⟨r, built⟩, hstep, rfl⟩ := Option.map_eq_some_iff.1 h
  have hok' : (a.op = .build → ∀ p, (w.replicas a.replica).process = some p →
        p.st.normals = (w.replicas a.replica).log.length) ∧
      ∀ i, a.op = .install i → ∀ s, w.snapshots[i]? = some s → ∀ payload, env.decodePayload s.bytes = .ok payload →
        (w.replicas a.replica).log.length ≤ payload.length := by
    unfold StepOk at hok
    exact ⟨fun hop => by rwa [hop] at hok, fun i hop => by rwa [hop] at hok⟩
  obtain ⟨hr, hbuilt⟩ := Replica.inv_step hcodec (hw.1 a.replica) hw.2 hok'.1 hok'.2 hstep
  refine ⟨fun i => ?_, fun s hs => ?_⟩
  · by_cases hi : i = a.replica
    · subst hi
      dsimp only
      rwa [Function.update_self]
    · dsimp only
      rw [Function.update_of_ne hi]
      exact hw.1 i
  · rcases List.mem_append.1 hs with hs | hs
    · exact hw.2 s hs
    · exact hbuilt s (Option.mem_toList.1 hs)

theorem World.inv_start : World.start.Inv env c :=
  ⟨fun _ => ⟨List.nil_prefix, ⟨0, standsAt_zero⟩, nofun⟩, nofun⟩

theorem World.inv_run (hcodec : env.RoundTrips c) {acts : List Action} {w : World}
    (h : Run (World.step env c) (StepOk env) .start acts w) : w.Inv env c :=
  h.invariant World.inv_start fun _ _ _ hw hok hs => World.inv_step hcodec hw hok hs

/-! ## One committed episode -/

def sampleEpisode : Episode := .new 0 "a".toList .observation []

/-- The ULID as text, no timestamp, the agent `a`, and eight empty fields. -/
def sampleBytes : Bytes := 26 :: List.replicate 26 0x30 ++ [0, 1, 97, 0, 0, 0, 0, 0, 0, 0, 0]

/-- A list of short byte strings, each behind its length. -/
def shortPayload (l : List Bytes) : Bytes := UInt8.ofNat l.length :: l.flatMap (fun b => UInt8.ofNat b.length :: b)

def sampleEnv : Env where
  encodeEpisode _ := sampleBytes
  decodeEpisode b := if b = sampleBytes then .ok sampleEpisode else .error "UnexpectedEnd"
  encodePayload := shortPayload
  decodePayload b :=
    if b = shortPayload [] then .ok []
    else if b = shortPayload [sampleBytes] then .ok [sampleBytes] else .error "UnexpectedEnd"

def sampleCommitted : Committed where
  entries := [⟨⟨1, 0, 1⟩, .blank⟩, ⟨⟨1, 0, 2⟩, .normal sampleBytes⟩]
  increasing := by decide

theorem sampleEnv_roundTrips : sampleEnv.RoundTrips sampleCommitted := by
  have hone : committedEpisodes sampleEnv sampleCommitted.entries = [.ok sampleEpisode] := by decide
  refine ⟨fun ep hep => ?_, fun log hlog => ?_⟩
  · rw [hone, List.mem_singleton, Except.ok.injEq] at hep
    rw [hep]
    decide
  · unfold LogCommitted at hlog
    rw [hone] at hlog
    cases log with
    | nil => decide
    | cons ep log =>
      rw [List.map_cons, List.cons_prefix_cons, List.prefix_nil, List.map_eq_nil_iff] at hlog
      have hpayload : sampleEnv.decodePayload (shortPayload [sampleBytes]) = .ok [sampleBytes] := by decide
      rw [hlog.2]
      exact hpayload

/-- Node `i` applies everything and saves its side file. -/
def applyAll (i : Nat) : List Action := [.deliver 2, .applyNext, .applyNext, .persist].map (Action.mk i)

def installFirst (i : Nat) : List Action := [.install 0, .installNext, .finishInstall].map (Action.mk i)

/-- **Every local log is the episodes of a prefix of the committed `Normal` entries**, in any run whose snapshots are built
where the log is not ahead of the count, and installed over no longer log. -/
theorem logs_committed (hcodec : env.RoundTrips c) {acts : List Action} {w : World}
    (h : Run (World.step env c) (StepOk env) .start acts w) (i : Nat) : LogCommitted env c (w.replicas i).log :=
  ((World.inv_run hcodec h).1 i).log

/-- Node 0 builds a snapshot of what it applied; node 1 installs it, crashes and applies again. -/
def sampleActions : List Action :=
  ⟨0, .openDurable⟩ :: applyAll 0 ++ ⟨0, .build⟩ :: ⟨1, .openDurable⟩ :: installFirst 1 ++
    ⟨1, .crash 1⟩ :: ⟨1, .openDurable⟩ :: [⟨1, .deliver 2⟩, ⟨1, .persist⟩]

theorem logs_committed_sample : ∃ w : World, (w.replicas 1).log = [sampleEpisode] ∧
    LogCommitted sampleEnv sampleCommitted (w.replicas 1).log := by
  have hrun : (runs (World.step sampleEnv sampleCommitted) .start sampleActions).any
      (fun w => decide ((w.replicas 1).log = [sampleEpisode])) = true := by decide
  obtain ⟨w, hw, hlog⟩ := (Option.any_eq_true _ _).1 hrun
  exact ⟨w, of_decide_eq_true hlog, logs_committed sampleEnv_roundTrips (run_of_runs hw (by decide)) 1⟩

/-- Node 0 applies, crashes before it saves its side file, and builds a snapshot when it is back. -/
def crashThenBuild : List Action :=
  [⟨0, .openDurable⟩, ⟨0, .deliver 2⟩, ⟨0, .applyNext⟩, ⟨0, .applyNext⟩, ⟨0, .crash 1⟩, ⟨0, .openDurable⟩, ⟨0, .build⟩]

/-- **A snapshot of a log that is ahead makes the next node apply its episodes twice.** -/
theorem install_duplicates : sampleEnv.RoundTrips sampleCommitted ∧
    ((runs (World.step sampleEnv sampleCommitted) .start
        (crashThenBuild ++ ⟨1, .openDurable⟩ :: installFirst 1 ++ applyAll 1)).map (fun w => (w.replicas 1).log)
      = some [sampleEpisode, sampleEpisode]) ∧
    ¬LogCommitted sampleEnv sampleCommitted [sampleEpisode, sampleEpisode] := by
  refine ⟨sampleEnv_roundTrips, by decide, fun h => ?_⟩
  have := h.length_le
  revert this
  decide

/-! ## Snapshots -/

/-- The episodes of the snapshot are those of the `Normal` entries up to its last id. -/
def Snapshot.Consistent (env : Env) (c : Committed) (s : Snapshot) : Prop :=
  ∃ payload, env.decodePayload s.bytes = .ok payload ∧
    payload.map env.decodeEpisode = committedEpisodes env (upTo c.entries s.info.lastLogId)

/-- A process whose state is not locked by `apply`. -/
def Pc.mayBuild : Pc → Prop
  | .idle | .installing _ _ => True
  | _ => False

/-- **A snapshot is consistent exactly when it is built where the log is not ahead of the count.** -/
theorem buildSnapshot_consistent_iff (hcodec : env.RoundTrips c) {acts : List Action} {w : World}
    (h : Run (World.step env c) (StepOk env) .start acts w) {i : Nat} {p : Process}
    (hp : (w.replicas i).process = some p) (hpc : p.pc.mayBuild) :
    (buildSnapshot env p.st (w.replicas i).log).2.Consistent env c ↔ p.st.normals = (w.replicas i).log.length := by
  have hr := (World.inv_run hcodec h).1 i
  have hst : ∃ at', StandsAt c p.st.applied p.st.normals at' := by
    have := hr.process p hp
    unfold Process.Inv at this
    split at this
    · exact this.1
    · rename_i heq
      rw [heq] at hpc
      cases hpc
    · exact this.1
    · rename_i heq
      rw [heq] at hpc
      cases hpc
  obtain ⟨at', happlied, hcount⟩ := hst
  have hdecode : ((w.replicas i).log.map env.encodeEpisode).map env.decodeEpisode = (w.replicas i).log.map .ok := by
    rw [List.map_map]
    exact List.map_congr_left fun ep hep => hcodec.episode ep (hr.log.subset (List.mem_map_of_mem hep))
  have hpayload := hcodec.payload _ hr.log
  unfold Snapshot.Consistent
  rw [buildSnapshot, dumpLog_eq]
  dsimp only
  rw [hpayload, happlied, upTo_lastId]
  constructor
  · rintro ⟨payload, heq, hmap⟩
    cases heq
    rw [hdecode] at hmap
    have := congrArg List.length hmap
    rw [List.length_map, length_committedEpisodes] at this
    rw [hcount, this]
  · intro hlen
    refine ⟨_, rfl, ?_⟩
    rw [hdecode, hr.log.eq_take (hlen ▸ hcount)]

theorem buildSnapshot_consistent_iff_sample : ∃ (w : World) (p : Process), (w.replicas 0).process = some p ∧
    ((buildSnapshot sampleEnv p.st (w.replicas 0).log).2.Consistent sampleEnv sampleCommitted ↔
      p.st.normals = (w.replicas 0).log.length) := by
  have hrun : (runs (World.step sampleEnv sampleCommitted) .start sampleActions).any
      (fun w => (w.replicas 0).process.any (fun p => decide (p.pc = .idle))) = true := by decide
  obtain ⟨w, hw, hup⟩ := (Option.any_eq_true _ _).1 hrun
  obtain ⟨p, hp, hpc⟩ := (Option.any_eq_true _ _).1 hup
  exact ⟨w, p, hp, buildSnapshot_consistent_iff sampleEnv_roundTrips (run_of_runs hw (by decide)) hp
    (by rw [of_decide_eq_true hpc]; trivial)⟩

/-- **The snapshot of a node that is back from a crash** holds an episode, and claims that nothing was applied. -/
theorem buildSnapshot_ahead_of_applied : sampleEnv.RoundTrips sampleCommitted ∧
    ((runs (World.step sampleEnv sampleCommitted) .start crashThenBuild).map World.snapshots
      = some [⟨⟨none, {}, "0-1"⟩, shortPayload [sampleBytes]⟩]) ∧
    ¬Snapshot.Consistent sampleEnv sampleCommitted ⟨⟨none, {}, "0-1"⟩, shortPayload [sampleBytes]⟩ := by
  refine ⟨sampleEnv_roundTrips, by decide, ?_⟩
  rintro ⟨payload, h, hmap⟩
  have hpayload : sampleEnv.decodePayload (shortPayload [sampleBytes]) = .ok [sampleBytes] := by decide
  cases hpayload.symm.trans h
  revert hmap
  decide

end Raft
end Heraclitus
