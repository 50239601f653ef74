import Heraclitus.Episode
import Heraclitus.Lib.Run
/-!
# Subscribe — the tail of the log, as a subscriber hears it (`heraclitus-log/src/subscribe.rs`)

The log's worker publishes the committed LSN of a batch and then sends its events one by one into a broadcast channel that keeps
only the newest.  A thread hands each to the subscriber, and when the channel has dropped some it says from which LSN on the
history is to be read.  A subscriber that reads up to the next event it is given hears every event once, and in order.
-/
namespace Heraclitus
namespace Subscribe

inductive Recv (α : Type) where
  | ok (v : α)
  /-- So many values were dropped before this receiver read them. -/
  | lagged (missed : Nat)

/-- A broadcast channel, by what it documents: a receiver reads what was sent in order, and after falling behind it goes on at
the oldest value that is kept. -/
structure Broadcast (α : Type) where
  recv : List α → Nat → Option (Recv α × Nat)
  ok_next : ∀ sent cursor v next, recv sent cursor = some (.ok v, next) → sent[cursor]? = some v ∧ next = cursor + 1
  lagged_next : ∀ sent cursor missed next, recv sent cursor = some (.lagged missed, next) → cursor < next ∧ next < sent.length
  waits : ∀ sent cursor, recv sent cursor = none → sent.length ≤ cursor

/-- The channel that keeps the newest `cap` values. -/
def ring (α : Type) (cap : Nat) (hcap : 0 < cap) : Broadcast α where
  recv sent cursor :=
    if cursor < sent.length - cap then some (.lagged (sent.length - cap - cursor), sent.length - cap)
    else (sent[cursor]?).map (fun v => (.ok v, cursor + 1))
  ok_next sent cursor v next h := by
    split at h
    · cases h
    · obtain ⟨v', hv, h⟩ := Option.map_eq_some_iff.1 h
      cases h
      exact ⟨hv, rfl⟩
  lagged_next sent cursor missed next h := by
    split at h
    · cases h
      exact ⟨by assumption, by omega⟩
    · obtain ⟨v', -, h⟩ := Option.map_eq_some_iff.1 h
      cases h
  waits sent cursor h := by
    split at h
    · cases h
    · exact List.getElem?_eq_none_iff.1 (Option.map_eq_none_iff.1 h)

structure NotificationEvent where
  lsn : Nat
  eventId : Nat
  agentId : Str
  deriving DecidableEq

/-- What a subscriber is told. -/
inductive Notice where
  | onAppend (event : NotificationEvent)
  | onBufferOverflow (expected : Nat)
  deriving DecidableEq

/-- The thread of `attach_subscriber`. -/
structure Adapter where
  /-- How many events had been sent when it subscribed. -/
  subscribed : Nat
  cursor : Nat
  lastSeen : Option Nat
  told : List Notice
  deriving DecidableEq

structure World where
  /-- The committed events; the position is the LSN. -/
  log : List Episode
  /-- What the worker has sent, and what is left of its batch. -/
  sent : List (Nat × Episode)
  unsent : List (Nat × Episode)
  adapter : Option Adapter
  deriving DecidableEq

/-- `Log::open` found these events; nothing is sent yet. -/
def World.start (log : List Episode) : World := ⟨log, [], [], none⟩

inductive Action where
  /-- The worker publishes a batch. -/
  | commit (batch : List Episode)
  | send
  | attach
  | recv
  deriving DecidableEq

def notification (p : Nat × Episode) : NotificationEvent := ⟨p.1, p.2.id, p.2.agentId⟩

def Adapter.onRecv (a : Adapter) (r : Recv (Nat × Episode)) (next : Nat) : Adapter :=
  match r with
  | .ok p => { a with cursor := next, lastSeen := some p.1, told := a.told ++ [.onAppend (notification p)] }
  | .lagged _ => { a with cursor := next, told := a.told ++ [.onBufferOverflow (a.lastSeen.elim 0 (· + 1))] }

def numbered (base : Nat) (eps : List Episode) : List (Nat × Episode) := eps.zipIdx base |>.map Prod.swap

def World.step (Q : Broadcast (Nat × Episode)) (w : World) : Action → Option World
  | .commit batch =>
    if w.unsent = [] then some { w with log := w.log ++ batch, unsent := numbered w.log.length batch } else none
  | .send =>
    match w.unsent with
    | [] => none
    | p :: rest => some { w with sent := w.sent ++ [p], unsent := rest }
  | .attach => if w.adapter = none then some { w with adapter := some ⟨w.sent.length, w.sent.length, none, []⟩ } else none
  | .recv =>
    w.adapter.bind (fun a => (Q.recv w.sent a.cursor).map (fun r => { w with adapter := some (a.onRecv r.1 r.2) }))

/-! ## A subscriber that keeps up -/

/-- The events of the LSNs from `a` on and below `b`, as `scan` reads them. -/
def scan (log : List Episode) (a b : Nat) : List NotificationEvent := (((numbered 0 log).drop a).take (b - a)).map notification

/-- Reads the history that it missed when the next event comes. -/
def hear (log : List Episode) (s : Option Nat × List NotificationEvent) : Notice → Option Nat × List NotificationEvent
  | .onAppend e => (none, s.2 ++ s.1.elim [] (fun a => scan log a e.lsn) ++ [e])
  | .onBufferOverflow expected => (s.1.or (some expected), s.2)

def heard (log : List Episode) (told : List Notice) : Option Nat × List NotificationEvent := told.foldl (hear log) (none, [])

/-! ## Numbered events -/

variable {log eps batch : List Episode} {a b c n : Nat} {p : Nat × Episode}

theorem getElem?_numbered (base : Nat) (eps : List Episode) (i : Nat) :
    (numbered base eps)[i]? = eps[i]?.map (fun ep => (base + i, ep)) := by
  simp [numbered, Function.comp_def]

@[simp] theorem length_numbered (base : Nat) (eps : List Episode) : (numbered base eps).length = eps.length := by
  simp [numbered]

theorem numbered_append (base : Nat) (xs ys : List Episode) :
    numbered base (xs ++ ys) = numbered base xs ++ numbered (base + xs.length) ys := by
  simp [numbered, List.zipIdx_append, List.map_append]

theorem scan_append (h : b ≤ log.length) : scan (log ++ batch) a b = scan log a b := by
  by_cases ha : a ≤ b
  · rw [scan, scan, numbered_append, List.drop_append_of_le_length (by rw [length_numbered]; omega),
      List.take_append_of_le_length (by rw [List.length_drop, length_numbered]; omega)]
  · rw [scan, scan, Nat.sub_eq_zero_of_le (by omega), List.take_zero, List.take_zero]

theorem scan_self (log : List Episode) (a : Nat) : scan log a a = [] := by
  rw [scan, Nat.sub_self, List.take_zero, List.map_nil]

theorem scan_split (hab : a ≤ b) (hbc : b ≤ c) : scan log a b ++ scan log b c = scan log a c := by
  have hlen : c - a = (b - a) + (c - b) := by omega
  rw [scan, scan, scan, ← List.map_append, hlen, List.take_add, List.drop_drop, Nat.add_sub_cancel' hab]

theorem scan_succ (hab : a ≤ b) (hp : (numbered 0 log)[b]? = some p) : scan log a (b + 1) = scan log a b ++ [notification p] := by
  rw [← scan_split hab (Nat.le_succ b)]
  congr 1
  rw [scan, Nat.succ_sub (le_refl b), Nat.sub_self, List.take_one, List.head?_drop, hp]
  rfl

/-! ## What the subscriber is told -/

/-- What has been told amounts to the events from `first` on and below `last`, and the adapter reads on from there. -/
structure Adapter.Covers (base : Nat) (log : List Episode) (sent : Nat) (a : Adapter) (first last : Nat) : Prop where
  since : first = 0 ∨ first = base + a.subscribed
  order : first ≤ last
  seen : last = a.lastSeen.elim first (· + 1)
  events : (heard log a.told).2 = scan log first last
  /-- Nothing is missing, or the subscriber knows what is. -/
  missing : (heard log a.told).1 = none ∧ last = base + a.cursor ∨
    (heard log a.told).1 = some last ∧ last ≤ base + a.cursor ∧ a.cursor < sent ∧ (a.lastSeen = none → first = 0)
  read : a.cursor ≤ sent
  subscribed : a.subscribed ≤ a.cursor
  committed : ∀ e, .onAppend e ∈ a.told → e.lsn < log.length

structure World.Inv (base : Nat) (w : World) : Prop where
  length : base ≤ w.log.length
  sent : w.sent ++ w.unsent = (numbered 0 w.log).drop base
  adapter : ∀ a, w.adapter = some a → ∃ first last, a.Covers base w.log w.sent.length first last

theorem heard_append (told : List Notice) (h : ∀ e, .onAppend e ∈ told → e.lsn < log.length) :
    heard (log ++ batch) told = heard log told := by
  unfold heard
  generalize (none, []) = s
  induction told generalizing s with
  | nil => rfl
  | cons n told ih =>
    have hstep : hear (log ++ batch) s n = hear log s n := by
      cases n with
      | onBufferOverflow expected => rfl
      | onAppend e =>
        have hlt := h e List.mem_cons_self
        have hscan : ∀ x, scan (log ++ batch) x e.lsn = scan log x e.lsn := fun x => scan_append (Nat.le_of_lt hlt)
        simp only [hear, hscan]
    rw [List.foldl_cons, List.foldl_cons, hstep, ih fun e he => h e (List.mem_cons_of_mem _ he)]

theorem heard_concat (log : List Episode) (told : List Notice) (n : Notice) :
    heard log (told ++ [n]) = hear log (heard log told) n := List.foldl_concat ..

variable {base sent first last next : Nat} {ad : Adapter} {w w' : World} {act : Action} {acts : List Action}
variable {Q : Broadcast (Nat × Episode)}

theorem Adapter.Covers.last_le (h : ad.Covers base log sent first last) : last ≤ base + ad.cursor := by
  rcases h.missing with ⟨-, hlast⟩ | ⟨-, hle, -⟩
  · exact hlast.le
  · exact hle

/-- What the worker does later changes nothing of what was told. -/
theorem Adapter.Covers.grow (h : ad.Covers base log sent first last) (hsent : base + sent ≤ log.length) (batch : List Episode)
    {sent' : Nat} (hle : sent ≤ sent') : ad.Covers base (log ++ batch) sent' first last where
  since := h.since
  order := h.order
  seen := h.seen
  events := by
    have := h.last_le
    have := h.read
    rw [heard_append ad.told h.committed, h.events, scan_append (by omega)]
  missing := by
    rw [heard_append ad.told h.committed]
    exact h.missing.imp_right fun ⟨hsome, hlast, hlt, hfirst⟩ => ⟨hsome, hlast, hlt.trans_le hle, hfirst⟩
  read := h.read.trans hle
  subscribed := h.subscribed
  committed e he := (h.committed e he).trans_le (by rw [List.length_append]; omega)

/-- An event is told, and closes what was missing before it. -/
theorem Adapter.Covers.onAppend (h : ad.Covers base log sent first last) (hp : (numbered 0 log)[base + ad.cursor]? = some p)
    (hread : ad.cursor < sent) :
    (ad.onRecv (.ok p) (ad.cursor + 1)).Covers base log sent first (base + ad.cursor + 1) := by
  have hlast := h.last_le
  have horder := h.order
  obtain ⟨hlt, hnum⟩ := List.getElem?_eq_some_iff.1 hp
  have hlsn : p.1 = base + ad.cursor := by
    rw [getElem?_numbered, Option.map_eq_some_iff] at hp
    obtain ⟨ep, -, rfl⟩ := hp
    exact Nat.zero_add _
  have hheard : heard log (ad.told ++ [.onAppend (notification p)]) = (none, scan log first (base + ad.cursor + 1)) := by
    rw [heard_concat, hear, h.events, scan_succ (by omega) hp]
    have hlsn' : (notification p).lsn = base + ad.cursor := hlsn
    rcases h.missing with ⟨hnone, rfl⟩ | ⟨hsome, -⟩
    · rw [hnone, Option.elim_none, List.append_nil]
    · rw [hsome, Option.elim_some, hlsn', scan_split horder hlast]
  refine ⟨h.since, by omega, ?_, ?_, Or.inl ⟨?_, rfl⟩, hread, h.subscribed.trans (Nat.le_succ _), fun e he => ?_⟩
  · exact congrArg (· + 1) hlsn.symm
  · exact congrArg Prod.snd hheard
  · exact congrArg Prod.fst hheard
  · rcases List.mem_append.1 he with he | he
    · exact h.committed e he
    · cases List.mem_singleton.1 he
      rw [length_numbered] at hlt
      exact lt_of_eq_of_lt hlsn hlt

/-- A gap is told with the LSN it begins at; before the first event that is the beginning of the log. -/
theorem Adapter.Covers.onBufferOverflow (h : ad.Covers base log sent first last) {missed : Nat} (hnext : ad.cursor < next)
    (hlt : next < sent) : ∃ first last, (ad.onRecv (.lagged missed) next).Covers base log sent first last := by
  have hlast := h.last_le
  have hmem : ∀ e, .onAppend e ∈ ad.told ++ [.onBufferOverflow (ad.lastSeen.elim 0 (· + 1))] → .onAppend e ∈ ad.told := by
    intro e he
    rcases List.mem_append.1 he with he | he
    · exact he
    · cases List.mem_singleton.1 he
  cases hseen : ad.lastSeen with
  | none =>
    have hfl : last = first := by rw [h.seen, hseen]; rfl
    have hevents : (heard log ad.told).2 = scan log 0 0 := by rw [h.events, hfl, scan_self, scan_self]
    have hpending : (heard log ad.told).1.or (some 0) = some 0 := by
      rcases h.missing with ⟨hnone, -⟩ | ⟨hsome, -, -, hfirst⟩
      · rw [hnone, Option.none_or]
      · rw [hsome, hfl, hfirst hseen]
        rfl
    refine ⟨0, 0, Or.inl rfl, le_refl 0, by rw [Adapter.onRecv, hseen]; rfl, ?_, Or.inr ⟨?_, Nat.zero_le _, hlt, fun _ => rfl⟩,
      hlt.le, h.subscribed.trans hnext.le, fun e he => h.committed e (hmem e he)⟩
    · rw [Adapter.onRecv, heard_concat]
      exact hevents
    · rw [Adapter.onRecv, heard_concat, hear, hseen]
      exact hpending
  | some l =>
    have hl : last = l + 1 := by rw [h.seen, hseen]; rfl
    have hpending : (heard log ad.told).1.or (some (l + 1)) = some last := by
      rcases h.missing with ⟨hnone, -⟩ | ⟨hsome, -⟩
      · rw [hnone, Option.none_or, hl]
      · rw [hsome]
        rfl
    refine ⟨first, last, h.since, h.order, h.seen, ?_,
      Or.inr ⟨?_, hlast.trans (Nat.add_le_add_left hnext.le base), hlt, fun hnone => ?_⟩, hlt.le,
      h.subscribed.trans hnext.le, fun e he => h.committed e (hmem e he)⟩
    · rw [Adapter.onRecv, heard_concat]
      exact h.events
    · rw [Adapter.onRecv, heard_concat, hear, hseen]
      exact hpending
    · cases hseen.symm.trans hnone

theorem World.Inv.length_sent (h : w.Inv base) : base + w.sent.length ≤ w.log.length := by
  have hlen := congrArg List.length h.sent
  rw [List.length_append, List.length_drop, length_numbered] at hlen
  have := h.length
  omega

theorem World.Inv.step (h : w.Inv base) (hs : w.step Q act = some w') : w'.Inv base := by
  have hsent := h.length_sent
  cases act with
  | commit batch =>
    obtain ⟨hnil, hs⟩ := Option.ite_none_right_eq_some.1 hs
    cases hs
    have hall := h.sent
    rw [hnil, List.append_nil] at hall
    refine ⟨h.length.trans (by rw [List.length_append]; omega), ?_, fun ad had => ?_⟩
    · rw [hall, numbered_append, List.drop_append_of_le_length (by rw [length_numbered]; exact h.length), Nat.zero_add]
    · obtain ⟨first, last, hcov⟩ := h.adapter ad had
      exact ⟨first, last, hcov.grow hsent batch (le_refl _)⟩
  | send =>
    simp only [World.step] at hs
    split at hs
    · cases hs
    · rename_i p rest hunsent
      cases hs
      refine ⟨h.length, ?_, fun ad had => ?_⟩
      · rw [List.append_assoc, List.singleton_append, ← hunsent]
        exact h.sent
      · obtain ⟨first, last, hcov⟩ := h.adapter ad had
        have hgrow := hcov.grow hsent [] (Nat.le_succ w.sent.length)
        rw [List.append_nil] at hgrow
        rw [List.length_append]
        exact ⟨first, last, hgrow⟩
  | attach =>
    obtain ⟨-, hs⟩ := Option.ite_none_right_eq_some.1 hs
    cases hs
    refine ⟨h.length, h.sent, fun ad had => ?_⟩
    cases had
    exact ⟨base + w.sent.length, base + w.sent.length, Or.inr rfl, le_refl _, rfl, (scan_self ..).symm, Or.inl ⟨rfl, rfl⟩, le_refl _,
      le_refl _, fun e he => absurd he List.not_mem_nil⟩
  | recv =>
    obtain ⟨ad, had, hs⟩ := Option.bind_eq_some_iff.1 hs
    obtain ⟨⟨r, next⟩, hrecv, rfl⟩ := Option.map_eq_some_iff.1 hs
    obtain ⟨first, last, hcov⟩ := h.adapter ad had
    refine ⟨h.length, h.sent, fun ad' had' => ?_⟩
    cases had'
    cases r with
    | ok p =>
      obtain ⟨hp, rfl⟩ := Q.ok_next _ _ _ _ hrecv
      have hread : ad.cursor < w.sent.length := (List.getElem?_eq_some_iff.1 hp).1
      have hline : (numbered 0 w.log)[base + ad.cursor]? = some p := by
        rw [← List.getElem?_drop, ← h.sent, List.getElem?_append_left hread, hp]
      exact ⟨first, _, hcov.onAppend hline hread⟩
    | lagged missed =>
      obtain ⟨hnext, hlt⟩ := Q.lagged_next _ _ _ _ hrecv
      exact hcov.onBufferOverflow hnext hlt

/-- **Nothing is lost and nothing comes twice.**  However commits, sends and reads interleave, and however often the subscriber
falls behind, the events it is told together with the history it is told to read are the events of the log from where it began
(or from the first of all), each once and in order; and when the channel has nothing more for it they reach the head. -/
theorem heard_of_run (h : Run (World.step Q) (fun _ _ => True) (.start log) acts w) (had : w.adapter = some ad) :
    ∃ first last, (first = 0 ∨ first = log.length + ad.subscribed) ∧ (heard w.log ad.told).2 = scan w.log first last ∧
      (∀ e, .onAppend e ∈ ad.told → e.lsn < w.log.length) ∧
      (w.unsent = [] → Q.recv w.sent ad.cursor = none → last = w.log.length) := by
  have hinv : w.Inv log.length := by
    refine Run.invariant (⟨le_refl _, ?_, fun ad had => by cases had⟩ : World.Inv log.length (.start log))
      (fun w a w' hw _ hs => hw.step hs) h
    rw [World.start, List.drop_eq_nil_of_le (length_numbered 0 log).le]
    rfl
  obtain ⟨first, last, hcov⟩ := hinv.adapter ad had
  refine ⟨first, last, hcov.since, hcov.events, hcov.committed, fun hunsent hwaits => ?_⟩
  have hall := congrArg List.length hinv.sent
  rw [hunsent, List.append_nil, List.length_drop, length_numbered] at hall
  have := Q.waits _ _ hwaits
  have := hinv.length
  rcases hcov.missing with ⟨-, hlast⟩ | ⟨-, -, hlt, -⟩
  · have := hcov.read
    omega
  · omega

/-- A channel of one value: of three events the first two are dropped, and the subscriber is sent to the beginning of the log. -/
theorem heard_of_run_overflow : ∃ (w : World) (ad : Adapter), w.adapter = some ad ∧
    ad.told = [.onBufferOverflow 0, .onAppend ⟨3, 13, []⟩] ∧ ∃ first last, (first = 0 ∨ first = 1 + ad.subscribed) ∧
      (heard w.log ad.told).2 = scan w.log first last ∧ (∀ e, .onAppend e ∈ ad.told → e.lsn < w.log.length) ∧
      (w.unsent = [] → (ring (Nat × Episode) 1 Nat.one_pos).recv w.sent ad.cursor = none → last = w.log.length) := by
  let event (id : Nat) : Episode := .new id [] .observation []
  have hrun : (runs (World.step (ring (Nat × Episode) 1 Nat.one_pos)) (.start [event 10])
      [.attach, .commit [event 11, event 12, event 13], .send, .send, .send, .recv, .recv]).map World.adapter
      = some (some ⟨0, 3, some 3, [.onBufferOverflow 0, .onAppend ⟨3, 13, []⟩]⟩) := by decide
  obtain ⟨w, hw, had⟩ := Option.map_eq_some_iff.1 hrun
  exact ⟨w, _, had, rfl, heard_of_run (run_of_runs hw (allOk_of_forall (fun _ _ => trivial) _ _)) had⟩

end Subscribe
end Heraclitus
