import Heraclitus.Idempotency
import Heraclitus.Lib.Fallible
/-!
# IdempotencyOnce — at most one event for a key (`Engine::append_idempotent`)

The guarantee rests on the attribute index: under the lock, a key that is in the log is in the index or is being indexed
by the holder.  That fails for the keys the index skips, for an index that a boot did not replay, and for a checkpoint
taken while an append below its watermark waits to be indexed.
-/
namespace Heraclitus
namespace Idem

/-- A key `append_idempotent` accepts. -/
structure ValidKey (key : Str) : Prop where
  nonempty : key ≠ []
  short : utf8Len key ≤ 80
  chars : key.all keyChar = true

theorem isWhitespace_of_keyChar {c : Char} (h : keyChar c = true) : isWhitespace c = false := by
  have hlow : 45 ≤ c.toNat ∧ c.toNat ≤ 122 := by
    have h : (decide (c.val ≥ 65 ∧ c.val ≤ 90) || (decide (c.val ≥ 97) && decide (c.val ≤ 122)) ||
        (decide (c.val ≥ 48) && decide (c.val ≤ 57)) || c == '-' || c == '_' || c == ':' || c == '.') = true := h
    simp only [Bool.or_eq_true, decide_eq_true_eq, Bool.and_eq_true, beq_iff_eq, ge_iff_le,
      UInt32.le_iff_toNat_le] at h
    have hc : c.toNat = c.val.toNat := rfl
    rcases h with ((((⟨h, h'⟩ | ⟨h, h'⟩) | ⟨h, h'⟩) | rfl) | rfl) | rfl | rfl <;> simp_all <;> omega
  have hmem : c.toNat ∉ [0x20, 0x85, 0xa0, 0x1680, 0x2028, 0x2029, 0x202f, 0x205f, 0x3000] := by
    simp only [List.mem_cons, List.not_mem_nil, or_false, not_or]
    omega
  unfold isWhitespace
  simp only [Bool.or_eq_false_iff, Bool.and_eq_false_iff, decide_eq_false_iff_not]
  refine ⟨⟨?_, ?_⟩, ?_⟩
  · omega
  · omega
  · simpa using hmem

theorem trim_of_keyChars {key : Str} (h : key.all keyChar = true) : trim key = key :=
  trim_eq_self (fun c hc => isWhitespace_of_keyChar (List.all_eq_true.1 h c hc))

theorem sep_not_mem_of_keyChars {key : Str} (h : key.all keyChar = true) : sep ∉ key := by
  intro hs
  have := List.all_eq_true.1 h sep hs
  revert this
  decide

/-- The fields a producer supplies: all but the id, the stamp and the two reserved attributes. -/
def payload (e : Episode) : Episode :=
  { e with id := 0, tsHlc := 0, attrs := (e.attrs.erase keyAttr).erase hashAttr }

theorem get?_of_not_reserved {e : Episode} (h : isReserved e = false) :
    e.attrs.get? keyAttr = none ∧ e.attrs.get? hashAttr = none := by
  simpa [isReserved, SortedMap.contains] using h

theorem hashAttr_ne_keyAttr : hashAttr ≠ keyAttr := by decide

theorem payload_outgoing (env : Env) {e : Episode} (key : Str) (h : isReserved e = false) (hlc : Nat) :
    payload (((Request.idempotent e key).outgoing env).stamp hlc) = payload e := by
  obtain ⟨hk, hh⟩ := get?_of_not_reserved h
  have hattrs : (((e.attrs.insert keyAttr key).insert hashAttr (env.payloadHash (canonical e))).erase keyAttr).erase
      hashAttr = (e.attrs.erase keyAttr).erase hashAttr := by
    ext1 j
    simp only [SortedMap.get?_erase, SortedMap.get?_insert]
    by_cases h1 : j = hashAttr
    · rw [if_pos h1, if_pos h1]
    · by_cases h2 : j = keyAttr <;> simp [h1, h2]
  unfold payload Request.outgoing Episode.stamp
  dsimp only
  rw [hattrs]

theorem canonical_payload {e : Episode} (h : isReserved e = false) : canonical (payload e) = canonical e := by
  obtain ⟨hk, hh⟩ := get?_of_not_reserved h
  have hattrs : (e.attrs.erase keyAttr).erase hashAttr = e.attrs := by
    ext1 j
    simp only [SortedMap.get?_erase]
    by_cases h1 : j = hashAttr
    · rw [if_pos h1, h1, hh]
    · rw [if_neg h1]
      by_cases h2 : j = keyAttr
      · rw [if_pos h2, h2, hk]
      · rw [if_neg h2]
  unfold canonical payload
  rw [hattrs]

/-- Under a key the index does not skip, `apply` files exactly the events that carry it. -/
theorem files_keyAttr {e : Episode} {key : Str} (hkey : ValidKey key) (hskip : toAsciiLowercase key ∉ skipValues)
    (he : ∀ v, e.attrs.get? keyAttr = some v → trim v = v) :
    Files e (ikey keyAttr key) ↔ e.attrs.get? keyAttr = some key := by
  have hsep : sep ∉ keyAttr := by decide
  have hinj : ∀ {f v}, ikey keyAttr key = ikey f v → f = keyAttr ∧ v = key := fun h =>
    ikey_inj hsep (sep_not_mem_of_keyChars hkey.chars) h.symm
  have hskipped : skipped key = false := by
    unfold skipped
    rw [Bool.or_eq_false_iff]
    exact ⟨by simpa [maxValueLen] using hkey.short, by simpa using hskip⟩
  constructor
  · rintro (⟨-, -, h⟩ | ⟨-, -, h⟩ | ⟨⟨f, v⟩, hmem, -, h⟩)
    · exact absurd (hinj h).1 (by decide)
    · exact absurd (hinj h).1 (by decide)
    · obtain ⟨rfl, hv⟩ := hinj h
      have hget := SortedMap.get?_eq_some.2 hmem
      rw [hget, ← hv, he v hget]
  · intro h
    have hv := he key h
    exact .inr (.inr ⟨(keyAttr, key), SortedMap.get?_eq_some.1 h, by rw [hv, hskipped], by rw [hv]⟩)

/-! ## The invariant -/

section Invariant

variable (env : Env) (key : Str)

/-- Record `l` of the log was written for `key`. -/
def Carries (log : List Entry) (l : Nat) : Prop :=
  ∃ e, log[l]? = some e ∧ e.event.attrs.get? keyAttr = some key

/-- What every logged event satisfies. -/
structure EntryOk (next : Nat) (e : Entry) : Prop where
  trimmed : ∀ v, e.event.attrs.get? keyAttr = some v → trim v = v ∧ isHvm e.event = false
    ∧ e.event.attrs.get? hashAttr = some (env.payloadHash (canonical (payload e.event)))
  writer : e.writer < next

/-- An index that names, for the key, only acknowledged events that carry it. -/
structure IndexOk (log : List Entry) (durable : Nat) (idx : AttrIndex) : Prop where
  sound : ∀ l ∈ idx.lookup keyAttr key, Carries key log l ∧ l < durable
  watermark : idx.watermark ≤ durable

/-- From this checkpoint the replay of a boot reaches every event the index does not name. -/
def Replayable (log : List Entry) (idx : AttrIndex) : Prop :=
  ∀ l, Carries key log l → l ∈ idx.lookup keyAttr key ∨ idx.isEmpty = true ∨ idx.watermark ≤ l

def Unwritten (log : List Entry) (n : Nat) : Prop := ∀ e ∈ log, e.writer ≠ n

/-- What is known of a call from where it stands. -/
def PcOk (log : List Entry) (durable n : Nat) (r : Request) : Pc → Prop
  | .start | .locked => Unwritten log n
  | .missed => Unwritten log n ∧ ∀ e, r = .idempotent e key → ∀ l, ¬Carries key log l
  | .written l stamped => log[l]? = some ⟨stamped, n⟩ ∧ ∃ hlc, stamped = (r.outgoing env).stamp hlc
  | .acked l stamped =>
    log[l]? = some ⟨stamped, n⟩ ∧ (∃ hlc, stamped = (r.outgoing env).stamp hlc) ∧ l < durable
  | .indexed l => (∃ hlc, log[l]? = some ⟨(r.outgoing env).stamp hlc, n⟩) ∧ l < durable

structure CallOk (s : St) (ses : Session) (n : Nat) (c : Call) : Prop where
  fresh : n < s.nextCall
  valid : c.request.validate ses.logOnly = .ok ()
  pc : PcOk env key s.log s.durable n c.request c.pc
  lock : ∀ e k, c.request = .idempotent e k → c.pc ≠ .start → ses.lock = some n

/-- Call `n` has written the event of the key and has not indexed it yet. -/
def Indexing (ses : Session) (l : Nat) : Prop :=
  ∃ n c e stamped, ses.calls n = some c ∧ c.request = .idempotent e key
    ∧ (c.pc = .written l stamped ∨ c.pc = .acked l stamped)

structure SessionOk (s : St) (ses : Session) : Prop where
  index : IndexOk key s.log s.durable ses.attr
  calls : ∀ n c, ses.calls n = some c → CallOk env key s ses n c
  cover : ∀ l, Carries key s.log l → l ∈ ses.attr.lookup keyAttr key ∨ Indexing key ses l

/-- A call for the key succeeded on the event of its own payload, was refused before the lock, or found another
payload; only in the first case did it write. -/
def OutcomeOk (log : List Entry) (durable : Nat) (o : Outcome) : Prop :=
  ∀ e, o.request = .idempotent e key → match o.result with
    | .ok (l, _, _) => l < durable ∧ ∃ en, log[l]? = some en ∧ en.event.attrs.get? keyAttr = some key
        ∧ payload en.event = payload e
    | .error err => Unwritten log o.call ∧ ((∃ logOnly, o.request.validate logOnly = .error err)
        ∨ err = .idempotencyConflict key ∧ ∃ l en, l < durable ∧ log[l]? = some en
          ∧ en.event.attrs.get? keyAttr = some key ∧ payload en.event ≠ payload e)

structure Inv (s : St) : Prop where
  entries : ∀ e ∈ s.log, EntryOk env s.nextCall e
  bound : s.durable ≤ s.log.length
  once : ∀ i j, Carries key s.log i → Carries key s.log j → i = j
  checkpoint : ∀ idx, s.checkpoint = some idx → IndexOk key s.log s.durable idx ∧ Replayable key s.log idx
  session : ∀ ses, s.session = some ses → SessionOk env key s ses
  done : ∀ o ∈ s.done, o.call < s.nextCall ∧ OutcomeOk key s.log s.durable o
  returned : ∀ o ∈ s.done, ∀ ses, s.session = some ses → ses.calls o.call = none
  closed : s.session = none → s.durable = s.log.length

/-- The condition on a step, for one key: a boot that skips the replay finds the key's event in the checkpoint; a
checkpoint is not taken while that event waits to be indexed under a watermark that has passed it; and two payloads
of the key that differ hash differently. -/
def StepOk (s : St) : Act → Prop
  | .boot skipReplay _ =>
    skipReplay = true → ∀ l, Carries key s.log l → ∃ idx, s.checkpoint = some idx ∧ l ∈ idx.lookup keyAttr key
  | .checkpoint => ∀ ses, s.session = some ses → Replayable key s.log ses.attr
  | .advance n _ => ∀ ses c e, s.session = some ses → ses.calls n = some c → c.request = .idempotent e key →
    c.pc = .locked → ∀ en ∈ s.log, en.event.attrs.get? keyAttr = some key →
      en.event.attrs.get? hashAttr = some (env.payloadHash (canonical e)) → payload en.event = payload e
  | _ => True

end Invariant

/-! ## What a growing log and a later acknowledgement keep -/

section Frame

variable {env : Env} {key : Str} {s s' : St} {ses ses' : Session} {idx : AttrIndex} {n : Nat}

theorem Carries.lt {log : List Entry} {l : Nat} (h : Carries key log l) : l < log.length := by
  obtain ⟨e, he, -⟩ := h
  exact (List.getElem?_eq_some_iff.1 he).1

theorem carries_append {log : List Entry} {e : Entry} {l : Nat} : Carries key (log ++ [e]) l ↔
    Carries key log l ∨ l = log.length ∧ e.event.attrs.get? keyAttr = some key := by
  unfold Carries
  rcases Nat.lt_trichotomy l log.length with h | h | h
  · rw [List.getElem?_append_left h]
    exact ⟨.inl, fun h' => h'.resolve_right (fun h' => absurd h'.1 h.ne)⟩
  · subst h
    simp
  · rw [List.getElem?_append_right h.le, List.getElem?_eq_none (by simp; omega), List.getElem?_eq_none h.le]
    simp [h.ne']

theorem carries_take {log : List Entry} {k l : Nat} : Carries key (log.take k) l ↔ l < k ∧ Carries key log l := by
  unfold Carries
  rw [List.getElem?_take]
  by_cases h : l < k
  · simp [h]
  · simp [h]

variable {log log' : List Entry} {d d' : Nat}

theorem IndexOk.mono (hd : d ≤ d') (hlog : ∀ l < d, log'[l]? = log[l]?) (h : IndexOk key log d idx) :
    IndexOk key log' d' idx where
  sound l hl := by
    obtain ⟨⟨e, he, hk⟩, hlt⟩ := h.sound l hl
    exact ⟨⟨e, (hlog l hlt).trans he, hk⟩, hlt.trans_le hd⟩
  watermark := h.watermark.trans hd

theorem OutcomeOk.mono {o : Outcome} (hd : d ≤ d') (hlog : ∀ l < d, log'[l]? = log[l]?)
    (hw : Unwritten log o.call → Unwritten log' o.call) (h : OutcomeOk key log d o) : OutcomeOk key log' d' o := by
  intro e he
  have := h e he
  split at this
  · obtain ⟨hlt, en, hen, hk⟩ := this
    exact ⟨hlt.trans_le hd, en, (hlog _ hlt).trans hen, hk⟩
  · obtain ⟨hu, hv | ⟨herr, l, en, hlt, hen, hk⟩⟩ := this
    · exact ⟨hw hu, .inl hv⟩
    · exact ⟨hw hu, .inr ⟨herr, l, en, hlt.trans_le hd, (hlog _ hlt).trans hen, hk⟩⟩

theorem PcOk.mono {r : Request} {pc : Pc} (hd : d ≤ d')
    (hlog : ∀ (l : Nat) (e : Entry), log[l]? = some e → log'[l]? = some e) (hw : Unwritten log n → Unwritten log' n)
    (hmissed : ∀ e, r = .idempotent e key → pc = .missed → ∀ l, Carries key log' l → Carries key log l)
    (h : PcOk env key log d n r pc) : PcOk env key log' d' n r pc := by
  cases pc with
  | start => exact hw h
  | locked => exact hw h
  | missed => exact ⟨hw h.1, fun e he l hl => h.2 e he l (hmissed e he rfl l hl)⟩
  | written l stamped => exact ⟨hlog _ _ h.1, h.2⟩
  | acked l stamped => exact ⟨hlog _ _ h.1, h.2.1, h.2.2.trans_le hd⟩
  | indexed l =>
    obtain ⟨⟨hlc, hl⟩, hlt⟩ := h
    exact ⟨⟨hlc, hlog _ _ hl⟩, hlt.trans_le hd⟩

/-- A step of call `n` that leaves the log alone. -/
theorem SessionOk.move (h : SessionOk env key s ses) (hlog : s'.log = s.log) (hd : s.durable ≤ s'.durable)
    (hnext : s'.nextCall = s.nextCall) (hlo : ses'.logOnly = ses.logOnly) (hidx : IndexOk key s'.log s'.durable ses'.attr)
    (hothers : ∀ m, m ≠ n → ses'.calls m = ses.calls m) (hself : ∀ c, ses'.calls n = some c → CallOk env key s' ses' n c)
    (hlock : ∀ m, m ≠ n → ses.lock = some m → ses'.lock = some m)
    (hkeep : ∀ l ∈ ses.attr.lookup keyAttr key, l ∈ ses'.attr.lookup keyAttr key)
    (hindexing : ∀ c e l stamped, ses.calls n = some c → c.request = .idempotent e key →
      (c.pc = .written l stamped ∨ c.pc = .acked l stamped) →
      l ∈ ses'.attr.lookup keyAttr key ∨ Indexing key ses' l) : SessionOk env key s' ses' where
  index := hidx
  calls m c hc := by
    by_cases hm : m = n
    · subst hm
      exact hself c hc
    · have hok := h.calls m c (hothers m hm ▸ hc)
      refine ⟨hnext ▸ hok.fresh, hlo ▸ hok.valid, ?_, fun e k he hp => hlock m hm (hok.lock e k he hp)⟩
      exact hok.pc.mono hd (fun l e he => hlog ▸ he) (fun hu => by unfold Unwritten; rw [hlog]; exact hu)
        (fun e _ _ l hl => hlog ▸ hl)
  cover l hl := by
    rcases h.cover l (hlog ▸ hl) with hin | ⟨m, c, e, stamped, hc, hr, hpc⟩
    · exact .inl (hkeep l hin)
    · by_cases hm : m = n
      · subst hm
        exact hindexing c e l stamped hc hr hpc
      · exact .inr ⟨m, c, e, stamped, (hothers m hm).trans hc, hr, hpc⟩

/-- The invariant after such a step. -/
theorem Inv.move (h : Inv env key s) (hlog : s'.log = s.log) (hd : s.durable ≤ s'.durable)
    (hd' : s'.durable ≤ s.log.length) (hnext : s'.nextCall = s.nextCall) (hck : s'.checkpoint = s.checkpoint)
    (hses : ∀ ses, s'.session = some ses → SessionOk env key s' ses)
    (hdone : ∀ o ∈ s'.done, o ∈ s.done ∨ o.call < s.nextCall ∧ OutcomeOk key s'.log s'.durable o)
    (hret : ∀ o ∈ s'.done, ∀ ses, s'.session = some ses → ses.calls o.call = none)
    (hopen : s'.session ≠ none) : Inv env key s' where
  entries e he := by rw [hnext]; exact h.entries e (hlog ▸ he)
  bound := by rw [hlog]; exact hd'
  once i j hi hj := h.once i j (hlog ▸ hi) (hlog ▸ hj)
  checkpoint idx hidx := by
    obtain ⟨hok, hrep⟩ := h.checkpoint idx (hck ▸ hidx)
    exact ⟨hok.mono hd (fun l _ => by rw [hlog]), fun l hl => hrep l (hlog ▸ hl)⟩
  session := hses
  done o ho := by
    rcases hdone o ho with ho | ho
    · obtain ⟨hlt, hok⟩ := h.done o ho
      exact ⟨hnext ▸ hlt, hok.mono hd (fun l _ => by rw [hlog]) (fun hu => by unfold Unwritten; rw [hlog]; exact hu)⟩
    · exact ⟨hnext ▸ ho.1, ho.2⟩
  returned := hret
  closed hnone := absurd hnone hopen

end Frame

/-! ## One lemma per step -/

section Steps

variable {env : Env} {key : Str} {s s' : St} {ses ses' : Session} {n : Nat} {c : Call}

theorem inv_finish (h : Inv env key s) (hs : s.session = some ses) (hc : ses.calls n = some c)
    {result : Except HeraclitusError (Nat × Bool × Nat)} (hout : OutcomeOk key s.log s.durable ⟨n, c.request, result⟩)
    (hpc : ∀ l stamped, c.pc ≠ .written l stamped ∧ c.pc ≠ .acked l stamped) :
    Inv env key (finish s ses n c result) := by
  have hses := h.session ses hs
  refine h.move rfl (Nat.le_refl _) h.bound rfl rfl ?_ ?_ ?_ (by simp [finish])
  · intro ses' hses'
    cases Option.some.inj hses'
    have hidx : IndexOk key s.log s.durable ses.attr :=
      hses.index.mono (Nat.le_refl s.durable) (fun _ _ => rfl)
    refine hses.move (n := n) rfl (Nat.le_refl _) rfl rfl hidx ?_ ?_ ?_ ?_ ?_
    · intro m hm
      exact Function.update_of_ne hm _ _
    · intro c' hc'
      dsimp only at hc'
      rw [Function.update_self] at hc'
      cases hc'
    · intro m hm hlock
      dsimp only
      rw [hlock, if_neg (by simpa using hm)]
    · exact fun _ hl => hl
    · intro c' e l stamped hc' _ hpc'
      cases Option.some.inj (hc.symm.trans hc')
      rcases hpc' with hpc' | hpc'
      · exact absurd hpc' (hpc l stamped).1
      · exact absurd hpc' (hpc l stamped).2
  · intro o ho
    rcases List.mem_append.1 ho with ho | ho
    · exact .inl ho
    · rw [List.mem_singleton] at ho
      subst ho
      exact .inr ⟨(hses.calls n c hc).fresh, hout⟩
  · intro o ho ses' hses'
    cases Option.some.inj hses'
    by_cases hon : o.call = n
    · rw [hon]
      exact Function.update_self _ _ _
    · show Function.update ses.calls n none o.call = none
      rw [Function.update_of_ne hon]
      rcases List.mem_append.1 ho with ho | ho
      · exact h.returned o ho ses hs
      · rw [List.mem_singleton] at ho
        subst ho
        exact absurd rfl hon

/-- A step of call `n` that only moves it to `pc`, perhaps acknowledging or indexing on the way. -/
theorem inv_setPc (h : Inv env key s) (hs : s.session = some ses) (hc : ses.calls n = some c) (pc : Pc) {d : Nat}
    (hd : s.durable ≤ d) (hd' : d ≤ s.log.length)
    (hcalls : ses'.calls = Function.update ses.calls n (some { c with pc := pc })) (hlo : ses'.logOnly = ses.logOnly)
    (hidx : IndexOk key s.log d ses'.attr)
    (hpc : PcOk env key s.log d n c.request pc)
    (hself : ∀ e k, c.request = .idempotent e k → pc ≠ .start → ses'.lock = some n)
    (hlock : ∀ m, m ≠ n → ses.lock = some m → ses'.lock = some m)
    (hkeep : ∀ l ∈ ses.attr.lookup keyAttr key, l ∈ ses'.attr.lookup keyAttr key)
    (hindexing : ∀ e l stamped, c.request = .idempotent e key → (c.pc = .written l stamped ∨ c.pc = .acked l stamped) →
      l ∈ ses'.attr.lookup keyAttr key ∨ Indexing key ses' l) :
    Inv env key { s with durable := d, session := some ses' } := by
  have hses := h.session ses hs
  have hok := hses.calls n c hc
  refine h.move rfl hd hd' rfl rfl ?_ (fun o ho => .inl ho) ?_ (by simp)
  · intro ses'' hses''
    cases Option.some.inj hses''
    refine hses.move (n := n) rfl hd rfl hlo hidx ?_ ?_ hlock hkeep ?_
    · intro m hm
      rw [hcalls, Function.update_of_ne hm]
    · intro c' hc'
      rw [hcalls, Function.update_self] at hc'
      cases Option.some.inj hc'
      exact ⟨hok.fresh, hlo ▸ hok.valid, hpc, hself⟩
    · intro c' e l stamped hc' hr hpc'
      cases Option.some.inj (hc.symm.trans hc')
      exact hindexing e l stamped hr hpc'
  · intro o ho ses'' hses''
    cases Option.some.inj hses''
    have hnone := h.returned o ho ses hs
    rw [hcalls, Function.update_of_ne (fun hon => by rw [hon, hc] at hnone; cases hnone)]
    exact hnone

/-- Only a request for `k` hands out an event that carries `k`. -/
theorem outgoing_keyAttr (env : Env) {r : Request} {logOnly : Bool} (hval : r.validate logOnly = .ok ()) (k : Str) :
    (r.outgoing env).attrs.get? keyAttr = some k ↔ ∃ e, r = .idempotent e k := by
  cases r with
  | idempotent e k' =>
    have hget : ((e.attrs.insert keyAttr k').insert hashAttr (env.payloadHash (canonical e))).get? keyAttr = some k' := by
      simp [hashAttr_ne_keyAttr.symm]
    refine ⟨fun h => ⟨e, ?_⟩, fun ⟨e', h⟩ => ?_⟩
    · rw [Option.some.inj (hget.symm.trans h)]
    · cases h
      exact hget
  | append e =>
    simp only [Request.validate, guard_eq_ok] at hval
    have hnone := (get?_of_not_reserved (by simpa using hval.2.1)).1
    refine ⟨fun h => ?_, fun ⟨_, h⟩ => by cases h⟩
    rw [Request.outgoing, hnone] at h
    cases h
  | hvmFrame id frame =>
    refine ⟨fun h => ?_, fun ⟨_, h⟩ => by cases h⟩
    cases h

theorem outgoing_trimmed {r : Request} {logOnly : Bool} (hval : r.validate logOnly = .ok ()) (hlc : Nat) (v : Str)
    (hv : (r.outgoing env).attrs.get? keyAttr = some v) : trim v = v ∧ isHvm (r.outgoing env) = false
      ∧ (r.outgoing env).attrs.get? hashAttr
        = some (env.payloadHash (canonical (payload ((r.outgoing env).stamp hlc)))) := by
  obtain ⟨e, rfl⟩ := (outgoing_keyAttr env hval v).1 hv
  simp only [Request.validate, guard_eq_ok] at hval
  obtain ⟨-, hkey, hhvm, hres, -⟩ := hval
  rw [not_or, not_not] at hkey
  have hres' : isReserved e = false := by simpa using hres
  refine ⟨trim_of_keyChars hkey.2, Bool.eq_false_iff.2 hhvm, ?_⟩
  rw [payload_outgoing env v hres', canonical_payload hres']
  simp [Request.outgoing]

theorem inv_write (h : Inv env key s) (hs : s.session = some ses) (hc : ses.calls n = some c) (hlc : Nat)
    (hun : Unwritten s.log n) (hmiss : ∀ e, c.request = .idempotent e key → ∀ l, ¬Carries key s.log l)
    (hlock : ∀ e k, c.request = .idempotent e k → ses.lock = some n)
    (hpc : ∀ l stamped, c.pc ≠ .written l stamped ∧ c.pc ≠ .acked l stamped) :
    Inv env key (write env s ses n c hlc) := by
  have hses := h.session ses hs
  have hok := hses.calls n c hc
  have hd : s.durable ≤ (write env s ses n c hlc).durable := Nat.le_refl s.durable
  have hget : ∀ l < s.durable, (write env s ses n c hlc).log[l]? = s.log[l]? := fun l hl =>
    List.getElem?_append_left (hl.trans_le h.bound)
  have hkeepget : ∀ (l : Nat) (e : Entry), s.log[l]? = some e → (write env s ses n c hlc).log[l]? = some e :=
    fun l e he => (List.getElem?_append_left (List.getElem?_eq_some_iff.1 he).1).trans he
  have hnew : ∀ l, Carries key (write env s ses n c hlc).log l ↔
      Carries key s.log l ∨ l = s.log.length ∧ ∃ e, c.request = .idempotent e key := fun l => by
    rw [← outgoing_keyAttr env hok.valid]
    exact carries_append
  have hothers : ∀ m, m ≠ n → Unwritten s.log m → Unwritten (write env s ses n c hlc).log m := by
    intro m hm hu e he
    rcases List.mem_append.1 he with he | he
    · exact hu e he
    · rw [List.mem_singleton] at he
      subst he
      exact Ne.symm hm
  have hidx : ∀ idx, IndexOk key s.log s.durable idx → IndexOk key (write env s ses n c hlc).log s.durable idx := fun idx hidx =>
    hidx.mono hd hget
  refine ⟨?_, ?_, ?_, ?_, ?_, ?_, ?_, fun hnone => by cases hnone⟩
  · intro e he
    rcases List.mem_append.1 he with he | he
    · exact h.entries e he
    · rw [List.mem_singleton] at he
      subst he
      exact ⟨fun v hv => outgoing_trimmed hok.valid hlc v hv, hok.fresh⟩
  · show s.durable ≤ (s.log ++ _).length
    rw [List.length_append]
    exact h.bound.trans (Nat.le_add_right _ _)
  · intro i j hi hj
    rcases (hnew i).1 hi with hi | ⟨hi, e, he⟩
    · rcases (hnew j).1 hj with hj | ⟨hj, e, he⟩
      · exact h.once i j hi hj
      · exact absurd hi (hmiss e he i)
    · rcases (hnew j).1 hj with hj | ⟨hj, -⟩
      · exact absurd hj (hmiss e he j)
      · rw [hi, hj]
  · intro idx hck
    obtain ⟨hio, hrep⟩ := h.checkpoint idx hck
    refine ⟨hidx idx hio, fun l hl => ?_⟩
    rcases (hnew l).1 hl with hl | ⟨rfl, -⟩
    · exact hrep l hl
    · exact .inr (.inr (hio.watermark.trans h.bound))
  · intro ses' hses'
    cases Option.some.inj hses'
    refine ⟨hidx _ hses.index, fun m c' hc' => ?_, fun l hl => ?_⟩
    · by_cases hm : m = n
      · subst hm
        simp only [Session.setPc, Function.update_self, Option.some.injEq] at hc'
        subst hc'
        exact ⟨hok.fresh, hok.valid, ⟨by simp [write], hlc, rfl⟩, fun e k he _ => hlock e k he⟩
      · simp only [Session.setPc, Function.update_of_ne hm] at hc'
        have hok' := hses.calls m c' hc'
        refine ⟨hok'.fresh, hok'.valid, ?_, hok'.lock⟩
        refine hok'.pc.mono hd hkeepget (hothers m hm) (fun e he hpc' l hl => ?_)
        refine ((hnew l).1 hl).resolve_right (fun ⟨_, e', he'⟩ => hm ?_)
        have hm' := hok'.lock e key he (by rw [hpc']; exact fun h => by cases h)
        exact Option.some.inj (hm'.symm.trans (hlock e' key he'))
    · rcases (hnew l).1 hl with hl | ⟨rfl, e, he⟩
      · rcases hses.cover l hl with hin | ⟨m, c', e, stamped, hc', hr, hpc'⟩
        · exact .inl hin
        · refine .inr ⟨m, c', e, stamped, ?_, hr, hpc'⟩
          have hm : m ≠ n := by
            rintro rfl
            cases Option.some.inj (hc.symm.trans hc')
            rcases hpc' with hpc' | hpc'
            · exact (hpc l stamped).1 hpc'
            · exact (hpc l stamped).2 hpc'
          simpa [Session.setPc, Function.update_of_ne hm] using hc'
      · exact .inr ⟨n, _, e, _, Function.update_self _ _ _, he, .inl rfl⟩
  · intro o ho
    obtain ⟨hlt, hout⟩ := h.done o ho
    have hne : o.call ≠ n := by
      intro hon
      have := h.returned o ho ses hs
      rw [hon, hc] at this
      cases this
    exact ⟨hlt, hout.mono hd hget (hothers o.call hne)⟩
  · intro o ho ses' hses'
    cases Option.some.inj hses'
    have hnone := h.returned o ho ses hs
    have hne : o.call ≠ n := by
      intro hon
      rw [hon, hc] at hnone
      cases hnone
    simpa [Session.setPc, Function.update_of_ne hne] using hnone

section Check

/-- Under the lock, a key the index does not name is not in the log: its writer would hold the lock. -/
theorem not_carries_of_lookup_nil (h : Inv env key s) (hs : s.session = some ses) (hc : ses.calls n = some c)
    {e : Episode} (hr : c.request = .idempotent e key) (hpc : c.pc = .locked)
    (hnil : ses.attr.lookup keyAttr key = []) (l : Nat) : ¬Carries key s.log l := by
  intro hl
  have hses := h.session ses hs
  rcases hses.cover l hl with hin | ⟨m, c', e', stamped, hc', hr', hpc'⟩
  · rw [hnil] at hin
    cases hin
  · have hn : ses.lock = some n := (hses.calls n c hc).lock e key hr (by rw [hpc]; exact fun h => by cases h)
    have hm : ses.lock = some m := (hses.calls m c' hc').lock e' key hr'
      (by rcases hpc' with h' | h' <;> rw [h'] <;> exact fun h => by cases h)
    cases Option.some.inj (hn.symm.trans hm)
    cases Option.some.inj (hc.symm.trans hc')
    rw [hpc] at hpc'
    rcases hpc' with h' | h' <;> cases h'

theorem inv_check (h : Inv env key s) (hs : s.session = some ses) (hc : ses.calls n = some c) {hlc : Nat}
    (hok : StepOk env key s (.advance n hlc)) {e : Episode} {k : Str} (hr : c.request = .idempotent e k)
    (hpc : c.pc = .locked) : Inv env key (check env s ses n c e k) := by
  have hses := h.session ses hs
  have hcall := hses.calls n c hc
  have hun : Unwritten s.log n := by
    have := hcall.pc
    rw [hpc] at this
    exact this
  have hidle : ∀ l stamped, c.pc ≠ .written l stamped ∧ c.pc ≠ .acked l stamped := fun l stamped => by
    rw [hpc]
    exact ⟨fun h => (by cases h), fun h => (by cases h)⟩
  unfold check
  split
  · rename_i hnil
    refine inv_setPc h hs hc .missed (Nat.le_refl _) h.bound rfl rfl (hses.index.mono (Nat.le_refl s.durable) fun _ _ => rfl)
      ⟨hun, fun e' he' => ?_⟩ (fun e' k' he' _ => hcall.lock e' k' he' (by rw [hpc]; exact fun h => by cases h))
      (fun _ _ hm => hm) (fun _ hl => hl)
      (fun _ l stamped _ hpc' => hpc'.elim (absurd · (hidle l stamped).1) (absurd · (hidle l stamped).2))
    rw [hr] at he'
    cases he'
    have hempty : ses.attr.lookup keyAttr key = [] := List.getLast?_eq_none_iff.1 hnil
    intro l hl
    exact not_carries_of_lookup_nil h hs hc hr hpc hempty l hl
  · rename_i lsn hlast
    have hfinish : ∀ result, (k = key → OutcomeOk key s.log s.durable ⟨n, c.request, result⟩) →
        Inv env key (finish s ses n c result) := fun result hout => by
      refine inv_finish h hs hc (fun e' he' => ?_) hidle
      have he'' : c.request = .idempotent e' key := he'
      have hk : k = key := by
        rw [hr] at he''
        injection he''
      exact hout hk e' he'
    have hsound : k = key → lsn < s.durable ∧ ∃ en, s.log[lsn]? = some en ∧
        en.event.attrs.get? keyAttr = some key := by
      rintro rfl
      obtain ⟨hcar, hlt⟩ := hses.index.sound lsn (List.mem_of_getLast? hlast)
      exact ⟨hlt, hcar⟩
    split
    · rename_i hnone
      refine hfinish _ (fun hk => ?_)
      obtain ⟨-, en, hen, -⟩ := hsound hk
      rw [hnone] at hen
      cases hen
    · rename_i existing hex
      split
      · rename_i hhash
        refine hfinish _ (fun hk e' he' => ?_)
        subst hk
        obtain ⟨hlt, en, hen, hcar⟩ := hsound rfl
        cases Option.some.inj (hex.symm.trans hen)
        cases hr.symm.trans he'
        exact ⟨hlt, existing, hex, hcar,
          hok ses c e hs hc hr hpc existing (List.mem_of_getElem? hex) hcar hhash⟩
      · rename_i hhash
        refine hfinish _ (fun hk e' he' => ?_)
        subst hk
        obtain ⟨hlt, en, hen, hcar⟩ := hsound rfl
        cases Option.some.inj (hex.symm.trans hen)
        cases hr.symm.trans he'
        refine ⟨hun, .inr ⟨rfl, lsn, existing, hlt, hex, hcar, fun hpay => hhash ?_⟩⟩
        have hvalid := hcall.valid
        rw [hr] at hvalid
        simp only [Request.validate, guard_eq_ok] at hvalid
        rw [((h.entries existing (List.mem_of_getElem? hex)).trimmed k hcar).2.2, hpay,
          canonical_payload (by simpa using hvalid.2.2.2.1)]

variable (hkey : ValidKey key) (hskip : toAsciiLowercase key ∉ skipValues)
include hkey hskip

/-- Indexing an event adds its LSN to the postings of the key exactly when it carries the key. -/
theorem mem_lookup_apply {idx : AttrIndex} {e : Episode} (he : ∀ v, e.attrs.get? keyAttr = some v → trim v = v)
    {lsn l : Nat} : l ∈ (idx.apply env.numKey lsn e).lookup keyAttr key
      ↔ (l = lsn ∧ e.attrs.get? keyAttr = some key) ∨ l ∈ idx.lookup keyAttr key := by
  unfold AttrIndex.lookup
  rw [AttrIndex.mem_postings_apply, files_keyAttr hkey hskip he]

theorem inv_index (h : Inv env key s) (hs : s.session = some ses) (hc : ses.calls n = some c) {l : Nat}
    {stamped : Episode} (hpc : c.pc = .acked l stamped) :
    Inv env key (s.setSession ((indexApplied env ses l stamped).setPc n c (.indexed l))) := by
  have hses := h.session ses hs
  have hcall := hses.calls n c hc
  have hacked := hcall.pc
  rw [hpc] at hacked
  obtain ⟨hlog, ⟨hlc, rfl⟩, hlt⟩ := hacked
  have hvalid := hcall.valid
  have hplain : (indexApplied env ses l ((c.request.outgoing env).stamp hlc)).calls = ses.calls
      ∧ (indexApplied env ses l ((c.request.outgoing env).stamp hlc)).lock = ses.lock
      ∧ (indexApplied env ses l ((c.request.outgoing env).stamp hlc)).logOnly = ses.logOnly := by
    unfold indexApplied
    split
    · exact ⟨rfl, rfl, rfl⟩
    · split <;> exact ⟨rfl, rfl, rfl⟩
  have hmem : ∀ i, i ∈ (indexApplied env ses l ((c.request.outgoing env).stamp hlc)).attr.lookup keyAttr key ↔
      (i = l ∧ ∃ e, c.request = .idempotent e key) ∨ i ∈ ses.attr.lookup keyAttr key := fun i => by
    rw [← outgoing_keyAttr env hvalid]
    unfold indexApplied
    split
    · rename_i hlo
      refine ⟨.inr, fun hi => hi.resolve_left (fun ⟨_, hcar⟩ => ?_)⟩
      obtain ⟨e, he⟩ := (outgoing_keyAttr env hvalid key).1 hcar
      rw [he, hlo] at hvalid
      cases hvalid
    · split
      · rename_i hhvm
        refine ⟨.inr, fun hi => hi.resolve_left (fun ⟨_, hcar⟩ => ?_)⟩
        rw [isHvm_stamp, (outgoing_trimmed hvalid hlc key hcar).2.1] at hhvm
        cases hhvm
      · exact mem_lookup_apply hkey hskip (fun v hv => (outgoing_trimmed hvalid hlc v hv).1)
  have hwm : (indexApplied env ses l ((c.request.outgoing env).stamp hlc)).attr.watermark ≤ s.durable := by
    unfold indexApplied
    split
    · exact hses.index.watermark
    · split
      · exact hses.index.watermark
      · rw [AttrIndex.watermark_apply]
        exact Nat.max_le.2 ⟨hses.index.watermark, hlt.le⟩
  refine inv_setPc h hs hc (.indexed l) (Nat.le_refl _) h.bound (by simp only [Session.setPc]; rw [hplain.1]) hplain.2.2
    ⟨fun i hi => ?_, hwm⟩ ⟨⟨hlc, hlog⟩, hlt⟩
    (fun e k he _ => hplain.2.1.trans (hcall.lock e k he (by rw [hpc]; exact fun h => by cases h)))
    (fun m _ hm => hplain.2.1.trans hm) (fun i hi => (hmem i).2 (.inr hi)) (fun e i stamped hr hpc' => ?_)
  · rcases (hmem i).1 hi with ⟨rfl, hr⟩ | hi
    · exact ⟨⟨_, hlog, (outgoing_keyAttr env hvalid key).2 hr⟩, hlt⟩
    · exact hses.index.sound i hi
  · rw [hpc] at hpc'
    rcases hpc' with h' | h'
    · cases h'
    · cases h'
      exact .inl ((hmem l).2 (.inl ⟨rfl, e, hr⟩))

theorem inv_advance (h : Inv env key s) (hs : s.session = some ses) (hc : ses.calls n = some c) {hlc : Nat}
    (hok : StepOk env key s (.advance n hlc)) (hstep : advance env s ses n c hlc = some s') : Inv env key s' := by
  have hses := h.session ses hs
  have hcall := hses.calls n c hc
  have hpcok := hcall.pc
  obtain ⟨r, pc⟩ := c
  have hack : ∀ l stamped, pc = .written l stamped →
      Inv env key { s with durable := max s.durable (l + 1), session := some (ses.setPc n ⟨r, pc⟩ (.acked l stamped)) } := by
    rintro l stamped rfl
    obtain ⟨hlog, hst⟩ := hpcok
    have hlt : l < s.log.length := (List.getElem?_eq_some_iff.1 hlog).1
    refine inv_setPc h hs hc (.acked l stamped) (Nat.le_max_left _ _) (Nat.max_le.2 ⟨h.bound, hlt⟩) rfl rfl
      (hses.index.mono (Nat.le_max_left _ _) fun _ _ => rfl)
      ⟨hlog, hst, Nat.lt_of_lt_of_le (Nat.lt_succ_self l) (Nat.le_max_right _ _)⟩
      (fun e k he _ => hcall.lock e k he (fun h => by cases h)) (fun _ _ hm => hm) (fun _ hi => hi) ?_
    rintro e i st hr (hi | hi)
    · cases hi
      exact .inr ⟨n, _, e, _, Function.update_self _ _ _, hr, .inr rfl⟩
    · cases hi
  cases pc with
  | start =>
    cases r with
    | idempotent e k =>
      simp only [advance] at hstep
      split at hstep
      · rename_i hnone
        cases hstep
        exact inv_setPc (d := s.durable) h hs hc .locked (Nat.le_refl _) h.bound rfl rfl
          (hses.index.mono (Nat.le_refl s.durable) fun _ _ => rfl) hpcok (fun _ _ _ _ => rfl)
          (fun m _ hm => by rw [hnone] at hm; cases hm) (fun _ hi => hi)
          (fun _ _ _ _ hpc => by rcases hpc with h | h <;> cases h)
      · cases hstep
    | append e =>
      cases hstep
      exact inv_write h hs hc hlc hpcok (fun _ he => by cases he) (fun _ _ he => by cases he)
        (fun _ _ => ⟨fun h => (by cases h), fun h => (by cases h)⟩)
    | hvmFrame id frame =>
      cases hstep
      exact inv_write h hs hc hlc hpcok (fun _ he => by cases he) (fun _ _ he => by cases he)
        (fun _ _ => ⟨fun h => (by cases h), fun h => (by cases h)⟩)
  | locked =>
    cases r with
    | idempotent e k =>
      cases hstep
      exact inv_check h hs hc hok rfl rfl
    | append e => cases hstep
    | hvmFrame id frame => cases hstep
  | missed =>
    cases r with
    | idempotent e k =>
      cases hstep
      exact inv_write h hs hc hlc hpcok.1 hpcok.2 (fun e' k' he => hcall.lock e' k' he (fun h => by cases h))
        (fun _ _ => ⟨fun h => (by cases h), fun h => (by cases h)⟩)
    | append e => cases hstep
    | hvmFrame id frame => cases hstep
  | written l stamped =>
    have := hack l stamped rfl
    cases r <;> (cases hstep; exact this)
  | acked l stamped =>
    have := inv_index hkey hskip h hs hc rfl
    cases r <;> (cases hstep; exact this)
  | indexed l =>
    have hidle : ∀ l' stamped, Pc.indexed l ≠ .written l' stamped ∧ Pc.indexed l ≠ .acked l' stamped := fun _ _ =>
      ⟨fun h => (by cases h), fun h => (by cases h)⟩
    cases r with
    | idempotent e k =>
      obtain ⟨⟨hlc', hlog⟩, hlt⟩ := hpcok
      simp only [advance] at hstep
      rw [hlog] at hstep
      cases hstep
      refine inv_finish h hs hc (fun e' he' => ?_) hidle
      cases he'
      have hval := hcall.valid
      simp only [Request.validate, guard_eq_ok] at hval
      refine ⟨hlt, _, hlog, (outgoing_keyAttr env hcall.valid key).2 ⟨e, rfl⟩, ?_⟩
      exact payload_outgoing env key (by simpa using hval.2.2.2.1) hlc'
    | append e =>
      cases hstep
      exact inv_finish h hs hc (fun _ he => by cases he) hidle
    | hvmFrame id frame =>
      cases hstep
      exact inv_finish h hs hc (fun _ he => by cases he) hidle

theorem mem_lookup_feed {l : Nat} : ∀ (records : List (Nat × Entry)) (idx : AttrIndex),
    (∀ r ∈ records, ∀ v, r.2.event.attrs.get? keyAttr = some v → trim v = v ∧ isHvm r.2.event = false) →
      (l ∈ (records.foldl (feed env) idx).lookup keyAttr key ↔ l ∈ idx.lookup keyAttr key
        ∨ ∃ e, (l, e) ∈ records ∧ e.event.attrs.get? keyAttr = some key)
  | [], idx, _ => by simp
  | r :: records, idx, h => by
    have hr := h r (by simp)
    have hfeed : l ∈ (feed env idx r).lookup keyAttr key ↔
        (l = r.1 ∧ r.2.event.attrs.get? keyAttr = some key) ∨ l ∈ idx.lookup keyAttr key := by
      unfold feed
      split
      · rename_i hhvm
        refine ⟨.inr, fun hl => hl.resolve_left (fun ⟨_, hcar⟩ => ?_)⟩
        rw [(hr key hcar).2] at hhvm
        cases hhvm
      · exact mem_lookup_apply hkey hskip (fun v hv => (hr v hv).1)
    rw [List.foldl_cons, mem_lookup_feed records _ (fun r' hr' => h r' (by simp [hr'])), hfeed]
    constructor
    · rintro ((⟨rfl, hcar⟩ | hl) | ⟨e, he, hcar⟩)
      · exact .inr ⟨r.2, by simp, hcar⟩
      · exact .inl hl
      · exact .inr ⟨e, by simp [he], hcar⟩
    · rintro (hl | ⟨e, he, hcar⟩)
      · exact .inl (.inr hl)
      · rcases List.mem_cons.1 he with rfl | he
        · exact .inl (.inl ⟨rfl, hcar⟩)
        · exact .inr ⟨e, he, hcar⟩

omit hkey hskip in
theorem watermark_feed {d : Nat} : ∀ (records : List (Nat × Entry)) (idx : AttrIndex), idx.watermark ≤ d →
    (∀ r ∈ records, r.1 ≤ d) → (records.foldl (feed env) idx).watermark ≤ d
  | [], _, h, _ => h
  | r :: records, idx, h, hr => by
    rw [List.foldl_cons]
    refine watermark_feed records _ ?_ (fun r' hr' => hr r' (by simp [hr']))
    unfold feed
    split
    · exact h
    · rw [AttrIndex.watermark_apply]
      exact Nat.max_le.2 ⟨h, hr r (by simp)⟩

theorem inv_boot (h : Inv env key s) (hs : s.session = none) {skipReplay logOnly : Bool}
    (hok : StepOk env key s (.boot skipReplay logOnly)) : Inv env key (boot env s skipReplay logOnly) := by
  have hloaded : IndexOk key s.log s.durable (s.checkpoint.getD .new) := by
    cases hck : s.checkpoint with
    | none => exact ⟨fun l hl => (by cases hl), Nat.zero_le _⟩
    | some idx => exact (h.checkpoint idx hck).1
  cases skipReplay with
  | true =>
    refine ⟨h.entries, h.bound, h.once, h.checkpoint, fun ses hses => ?_, h.done, fun o ho ses hses => ?_,
      fun hnone => by cases hnone⟩
    · cases Option.some.inj hses
      refine ⟨hloaded, fun n c hc => (by cases hc), fun l hl => .inl ?_⟩
      obtain ⟨idx, hck, hin⟩ := hok rfl l hl
      rw [hck]
      exact hin
    · cases Option.some.inj hses
      rfl
  | false =>
    have hreplay : ∀ cur, drain bootWindow (feed env) s.log (s.log.length + 1) s.log.length cur
        (s.checkpoint.getD .new)
        = replayFrom (feed env) s.log cur (s.checkpoint.getD .new) := fun cur =>
      drain_eq_replayFrom (by decide) (feed env) s.log (Nat.le_succ _) s.log.length cur _ (Nat.sub_le _ _)
    have hmem : ∀ cur l, l ∈ (replayFrom (feed env) s.log cur (s.checkpoint.getD .new)).lookup keyAttr key ↔
        l ∈ (s.checkpoint.getD .new).lookup keyAttr key ∨ (cur ≤ l ∧ Carries key s.log l) := fun cur l => by
      have htrim : ∀ r ∈ number cur (s.log.drop cur), ∀ v, r.2.event.attrs.get? keyAttr = some v →
          trim v = v ∧ isHvm r.2.event = false := fun r hr v hv => by
        have hin := List.mem_of_getElem? (mem_number_drop.1 hr).2
        exact ⟨((h.entries r.2 hin).trimmed v hv).1, ((h.entries r.2 hin).trimmed v hv).2.1⟩
      unfold replayFrom
      rw [mem_lookup_feed hkey hskip _ _ htrim]
      simp only [mem_number_drop, Carries, and_assoc, exists_and_left]
    have hindex : ∀ cur, IndexOk key s.log s.durable (replayFrom (feed env) s.log cur (s.checkpoint.getD .new)) := fun cur => by
      refine ⟨fun l hl => ?_, watermark_feed _ _ hloaded.watermark (fun r hr => ?_)⟩
      · rcases (hmem cur l).1 hl with hl | ⟨-, hl⟩
        · exact hloaded.sound l hl
        · exact ⟨hl, h.closed hs ▸ hl.lt⟩
      · have := (List.getElem?_eq_some_iff.1 (mem_number_drop.1 hr).2).1
        rw [h.closed hs]
        exact this.le
    have hcover : ∀ l, Carries key s.log l → l ∈ (replayFrom (feed env) s.log
        (if (s.checkpoint.getD .new).isEmpty then 0 else (s.checkpoint.getD .new).watermark)
        (s.checkpoint.getD .new)).lookup keyAttr key := fun l hl => by
      rw [hmem]
      cases hck : s.checkpoint with
      | none => exact .inr ⟨Nat.zero_le _, hl⟩
      | some idx =>
        rw [Option.getD_some]
        rcases (h.checkpoint idx hck).2 l hl with hin | hemp | hle
        · exact .inl hin
        · rw [if_pos hemp]
          exact .inr ⟨Nat.zero_le _, hl⟩
        · refine .inr ⟨?_, hl⟩
          split
          · exact Nat.zero_le _
          · exact hle
    refine ⟨h.entries, h.bound, h.once, fun idx hck => ?_, fun ses hses => ?_, h.done, fun o ho ses hses => ?_,
      fun hnone => by cases hnone⟩
    · by_cases hlt : (if (s.checkpoint.getD .new).isEmpty then 0 else (s.checkpoint.getD .new).watermark) < s.log.length
      · simp only [boot, hreplay, Bool.false_eq_true, if_false, if_pos hlt, Option.some.injEq] at hck
        subst hck
        exact ⟨hindex _, fun l hl => .inl (hcover l hl)⟩
      · simp only [boot, Bool.false_eq_true, if_false, if_neg hlt] at hck
        exact h.checkpoint idx hck
    · simp only [boot, hreplay, Bool.false_eq_true, if_false, Option.some.injEq] at hses
      subst hses
      exact ⟨hindex _, fun n c hc => (by cases hc), fun l hl => .inl (hcover l hl)⟩
    · cases Option.some.inj hses
      rfl

omit hkey hskip in
theorem inv_accept (h : Inv env key s) (hs : s.session = some ses) (r : Request) : Inv env key (accept s ses r) := by
  have hses := h.session ses hs
  have hfresh : Unwritten s.log s.nextCall := fun e he => ((h.entries e he).writer).ne
  have hentries : ∀ e ∈ s.log, EntryOk env (s.nextCall + 1) e := fun e he =>
    ⟨(h.entries e he).trimmed, Nat.lt_succ_of_lt (h.entries e he).writer⟩
  have hnotlive : ses.calls s.nextCall = none := by
    cases hcall : ses.calls s.nextCall with
    | none => rfl
    | some c => exact absurd (hses.calls _ c hcall).fresh (Nat.lt_irrefl _)
  have holdcall : ∀ {ses' : Session} {n c}, ses.logOnly = ses'.logOnly → ses.lock = ses'.lock → ses.calls n = some c →
      ∀ s' : St, s'.log = s.log → s'.durable = s.durable → s'.nextCall = s.nextCall + 1 →
        CallOk env key s' ses' n c := fun hlo hlk hc s' hl hd hn => by
    have hok := hses.calls _ _ hc
    refine ⟨hn ▸ Nat.lt_succ_of_lt hok.fresh, hlo ▸ hok.valid, ?_, fun e k he hp => hlk ▸ hok.lock e k he hp⟩
    exact hok.pc.mono hd.ge (fun l e he => hl ▸ he) (fun hu => by unfold Unwritten; rw [hl]; exact hu)
      (fun e _ _ l h => hl ▸ h)
  unfold accept
  cases hval : r.validate ses.logOnly with
  | error err =>
    refine ⟨hentries, h.bound, h.once, h.checkpoint, fun ses' hses' => ?_, fun o ho => ?_, fun o ho ses' hses' => ?_,
      h.closed⟩
    · cases Option.some.inj (hs.symm.trans hses')
      exact ⟨hses.index.mono (Nat.le_refl s.durable) (fun _ _ => rfl),
        fun n c hc => holdcall rfl rfl hc _ rfl rfl rfl, hses.cover⟩
    · rcases List.mem_append.1 ho with ho | ho
      · obtain ⟨hlt, hout⟩ := h.done o ho
        exact ⟨Nat.lt_succ_of_lt hlt, hout.mono (Nat.le_refl s.durable) (fun _ _ => rfl) id⟩
      · rw [List.mem_singleton] at ho
        subst ho
        exact ⟨Nat.lt_succ_self _, fun e _ => ⟨hfresh, .inl ⟨_, hval⟩⟩⟩
    · cases Option.some.inj (hs.symm.trans hses')
      rcases List.mem_append.1 ho with ho | ho
      · exact h.returned o ho ses hs
      · rw [List.mem_singleton] at ho
        subst ho
        exact hnotlive
  | ok u =>
    refine ⟨hentries, h.bound, h.once, h.checkpoint, fun ses' hses' => ?_, fun o ho => ?_, fun o ho ses' hses' => ?_,
      fun hnone => by cases hnone⟩
    · cases Option.some.inj hses'
      refine ⟨hses.index.mono (Nat.le_refl s.durable) (fun _ _ => rfl), fun n c hc => ?_, fun l hl => ?_⟩
      · by_cases hn : n = s.nextCall
        · subst hn
          dsimp only at hc
          rw [Function.update_self] at hc
          cases hc
          exact ⟨Nat.lt_succ_self _, hval, hfresh, fun _ _ _ hp => absurd rfl hp⟩
        · dsimp only at hc
          rw [Function.update_of_ne hn] at hc
          refine holdcall ?_ ?_ hc _ ?_ ?_ ?_ <;> rfl
      · rcases hses.cover l hl with hin | ⟨m, c, e, stamped, hc, hrest⟩
        · exact .inl hin
        · refine .inr ⟨m, c, e, stamped, ?_, hrest⟩
          have hm : m ≠ s.nextCall := fun hm => by rw [hm, hnotlive] at hc; cases hc
          exact (Function.update_of_ne hm _ _).trans hc
    · obtain ⟨hlt, hout⟩ := h.done o ho
      exact ⟨Nat.lt_succ_of_lt hlt, hout.mono (Nat.le_refl s.durable) (fun _ _ => rfl) id⟩
    · cases Option.some.inj hses'
      exact (Function.update_of_ne (h.done o ho).1.ne _ _).trans (h.returned o ho ses hs)

omit hkey hskip in
theorem inv_crash (h : Inv env key s) {keep : Nat} (hk : s.durable ≤ keep) (hk' : keep ≤ s.log.length) :
    Inv env key { s with log := s.log.take keep, durable := keep, session := none } := by
  have hget : ∀ l < s.durable, (s.log.take keep)[l]? = s.log[l]? := fun l hl =>
    List.getElem?_take_of_lt (hl.trans_le hk)
  have hlen : (s.log.take keep).length = keep := by rw [List.length_take, Nat.min_eq_left hk']
  refine ⟨fun e he => h.entries e (List.mem_of_mem_take he), hlen.ge, fun i j hi hj => ?_, fun idx hck => ?_,
    fun ses hses => (by cases hses), fun o ho => ?_, fun o ho ses hses => (by cases hses), fun _ => hlen.symm⟩
  · exact h.once i j (carries_take.1 hi).2 (carries_take.1 hj).2
  · obtain ⟨hidx, hrep⟩ := h.checkpoint idx hck
    exact ⟨hidx.mono hk hget, fun l hl => hrep l (carries_take.1 hl).2⟩
  · obtain ⟨hlt, hout⟩ := h.done o ho
    exact ⟨hlt, hout.mono hk hget (fun hu e he => hu e (List.mem_of_mem_take he))⟩

/-- **One step keeps the invariant.** -/
theorem inv_step (h : Inv env key s) {a : Act} (hok : StepOk env key s a) (hstep : step env s a = some s') :
    Inv env key s' := by
  cases a with
  | boot skipReplay logOnly =>
    simp only [step] at hstep
    split at hstep
    · rename_i hnone
      cases hstep
      exact inv_boot hkey hskip h (Option.isNone_iff_eq_none.1 hnone) hok
    · cases hstep
  | request r =>
    obtain ⟨ses, hs, rfl⟩ := Option.map_eq_some_iff.1 hstep
    exact inv_accept h hs r.normalize
  | advance n hlc =>
    obtain ⟨ses, hs, hstep⟩ := Option.bind_eq_some_iff.1 hstep
    obtain ⟨c, hc, hstep⟩ := Option.bind_eq_some_iff.1 hstep
    exact inv_advance hkey hskip h hs hc hok hstep
  | checkpoint =>
    obtain ⟨ses, hs, rfl⟩ := Option.map_eq_some_iff.1 hstep
    have hses := h.session ses hs
    refine ⟨h.entries, h.bound, h.once, fun idx hck => ?_, fun ses' hses' => ?_, h.done, h.returned, h.closed⟩
    · cases Option.some.inj hck
      exact ⟨hses.index.mono (Nat.le_refl s.durable) (fun _ _ => rfl), hok ses hs⟩
    · have hok' := h.session ses' hses'
      exact ⟨hok'.index.mono (Nat.le_refl s.durable) (fun _ _ => rfl),
        fun n c hc => ⟨(hok'.calls n c hc).fresh, (hok'.calls n c hc).valid,
          (hok'.calls n c hc).pc.mono (Nat.le_refl s.durable) (fun _ _ => id) id (fun _ _ _ _ => id),
          (hok'.calls n c hc).lock⟩, hok'.cover⟩
  | crash keep =>
    simp only [step] at hstep
    split at hstep
    · rename_i hk
      cases hstep
      exact inv_crash h hk.1 hk.2
    · cases hstep

end Check

end Steps

/-! ## Exactly once -/

theorem inv_init {env : Env} {key : Str} : Inv env key {} :=
  ⟨fun _ he => (by cases he), Nat.le_refl 0, fun _ _ hi => absurd hi.lt (Nat.not_lt_zero _), fun _ h => (by cases h),
    fun _ h => (by cases h), fun _ h => (by cases h), fun _ h => (by cases h), fun _ => rfl⟩

/-- Exactly-once for one key: at most one event, one LSN for every call that succeeded, and for a call with another
payload than the event's a conflict (unless it was refused before the key was looked up) and nothing written. -/
structure ExactlyOnce (key : Str) (s : St) : Prop where
  once : ∀ i j, Carries key s.log i → Carries key s.log j → i = j
  sameLsn : ∀ o ∈ s.done, ∀ o' ∈ s.done, ∀ e e' r r', o.request = .idempotent e key → o'.request = .idempotent e' key →
    o.result = .ok r → o'.result = .ok r' → r.1 = r'.1
  conflict : ∀ o ∈ s.done, ∀ e, o.request = .idempotent e key → ∀ (l : Nat) (en : Entry), s.log[l]? = some en →
    en.event.attrs.get? keyAttr = some key → payload en.event ≠ payload e →
      Unwritten s.log o.call ∧ ∃ err, o.result = .error err
        ∧ (err = .idempotencyConflict key ∨ ∃ logOnly, o.request.validate logOnly = .error err)

theorem Inv.exactlyOnce {env : Env} {key : Str} {s : St} (h : Inv env key s) : ExactlyOnce key s where
  once := h.once
  sameLsn o ho o' ho' e e' r r' he he' hr hr' := by
    have hout := (h.done o ho).2 e he
    have hout' := (h.done o' ho').2 e' he'
    rw [hr] at hout
    rw [hr'] at hout'
    obtain ⟨-, en, hen, hcar, -⟩ := hout
    obtain ⟨-, en', hen', hcar', -⟩ := hout'
    exact h.once _ _ ⟨en, hen, hcar⟩ ⟨en', hen', hcar'⟩
  conflict o ho e he l en hen hcar hne := by
    have hout := (h.done o ho).2 e he
    cases hres : o.result with
    | ok r =>
      rw [hres] at hout
      obtain ⟨-, en', hen', hcar', hpay⟩ := hout
      have hl := h.once _ _ ⟨en, hen, hcar⟩ ⟨en', hen', hcar'⟩
      rw [← hl, hen, Option.some.injEq] at hen'
      exact absurd (hen' ▸ hpay) hne
    | error err =>
      rw [hres] at hout
      exact ⟨hout.1, err, rfl, hout.2.elim .inr (fun hc => .inl hc.1)⟩

/-- **Exactly once, for a key the index does not skip, in every run whose steps meet `StepOk`.** -/
theorem append_idempotent_exactlyOnce {env : Env} {key : Str} (hkey : ValidKey key)
    (hskip : toAsciiLowercase key ∉ skipValues) {acts : List Act} {s : St}
    (h : Run (step env) (StepOk env key) {} acts s) : ExactlyOnce key s :=
  (h.invariant inv_init (fun _ _ _ hi hok hs => inv_step hkey hskip hi hok hs)).exactlyOnce

/-- An observation by `a`, one byte long. -/
def sampleEpisode (id : Nat) : Episode := .new id "a".toList .observation [120]

/-- The digest of `["a","","Observation",[120],null,{},null,null]`; no attribute of the sample reads as a number. -/
def sampleEnv : Env where
  numKey _ := none
  payloadHash _ := "ee93e225658c792ebcca5a18dd43677c60ddcd950edb8441c7beada8fa38d9a2".toList

/-- One call from request to answer. -/
def wholeCall (n : Nat) (key : Str) : List Act :=
  .request (.idempotent (sampleEpisode n) key) :: List.replicate 6 (.advance n 0)

/-- While the log is empty, or once the call is past the check, `StepOk` asks nothing of it. -/
theorem stepOk_advance {env : Env} {key : Str} {s : St} {ses : Session} {n hlc : Nat} (hs : s.session = some ses)
    (h : s.log = [] ∨ (ses.calls n).map Call.pc ≠ some .locked) : StepOk env key s (.advance n hlc) := by
  intro ses' c e hs' hc _ hpc en hen
  cases Option.some.inj (hs.symm.trans hs')
  rcases h with h | h
  · rw [h] at hen
    cases hen
  · rw [hc, Option.map_some, hpc] at h
    exact absurd rfl h

theorem append_idempotent_exactlyOnce_sample : ∃ s : St, s.log.length = 1 ∧ ExactlyOnce "k1".toList s := by
  have hkey : ValidKey "k1".toList := ⟨by decide, by decide, by decide⟩
  have hskip : toAsciiLowercase "k1".toList ∉ skipValues := by decide
  have h₀ : Run (step sampleEnv) (StepOk sampleEnv "k1".toList) {} [] {} := .start
  have h₁ := h₀.next (.boot false false) (by exact fun h => by cases h) rfl
  have h₂ := h₁.next (.request (.idempotent (sampleEpisode 0) "k1".toList)) (by exact trivial) rfl
  have h₃ := h₂.next (.advance 0 0) (stepOk_advance rfl (.inl rfl)) rfl
  have h₄ := h₃.next (.advance 0 0) (stepOk_advance rfl (.inl rfl)) rfl
  have h₅ := h₄.next (.advance 0 0) (stepOk_advance rfl (.inl rfl)) rfl
  have h₆ := h₅.next (.advance 0 0) (stepOk_advance rfl (.inr (by decide))) rfl
  have h₇ := h₆.next (.advance 0 0) (stepOk_advance rfl (.inr (by decide))) rfl
  have h₈ := h₇.next (.advance 0 0) (stepOk_advance rfl (.inr (by decide))) rfl
  exact ⟨_, rfl, append_idempotent_exactlyOnce hkey hskip h₈⟩

/-- **The key `true` is valid and is skipped by the index: a retry of a finished call writes a second event.** -/
theorem append_idempotent_writes_twice : ValidKey "true".toList ∧ ∃ acts s,
    Run (step sampleEnv) (fun _ _ => True) {} acts s ∧ ¬ExactlyOnce "true".toList s := by
  have hrun : (runs (step sampleEnv) {} (.boot false false :: (wholeCall 0 "true".toList ++ wholeCall 1 "true".toList))).map
      (fun s => s.log.map (fun e => e.event.attrs.get? keyAttr)) = some [some "true".toList, some "true".toList] := by
    rfl
  obtain ⟨s, hs, hlog⟩ := Option.map_eq_some_iff.1 hrun
  have hcar : ∀ l < 2, Carries "true".toList s.log l := fun l hl => by
    have hget : (s.log.map (fun e => e.event.attrs.get? keyAttr))[l]? = some (some "true".toList) := by
      rw [hlog]
      match l, hl with
      | 0, _ => rfl
      | 1, _ => rfl
    rw [List.getElem?_map] at hget
    exact Option.map_eq_some_iff.1 hget
  refine ⟨⟨by decide, by decide, by decide⟩, _, s, run_of_runs hs (allOk_of_forall (fun _ _ => trivial) _ _), fun h => ?_⟩
  exact absurd (h.once 0 1 (hcar 0 (by decide)) (hcar 1 (by decide))) (by decide)

end Idem
end Heraclitus
