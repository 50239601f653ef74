import Heraclitus.V6Pack
/-!
# V6Calls — what every call does to a log of episodes

`Live` is the invariant in terms of the episodes that were appended.  `Live.wp_call` says of each call what it answers, when
it is refused, and what it leaves when a step fails or when the process dies.
-/
namespace Heraclitus
namespace V6

variable {env : Env} {ns : Bytes} {segs : List Segment} {g : Segment} {low : Nat} {hist : List RawRecord}
  {es : List Episode} {synced : Nat} {sync : Prop} {s : State}

/-! ## Reading -/

theorem findPayload_numbered : ∀ {rs : List RawRecord} {m n : Nat}, Numbered m rs → m ≤ n →
    findPayload n rs = rs[n - m]?.map RawRecord.payload
  | [], _, _, _, _ => rfl
  | r :: rs, m, n, ⟨hr, hrs⟩, hle => by
    unfold findPayload
    by_cases hm : n = m
    · rw [List.find?_cons_of_pos (by rw [hr, hm, beq_iff_eq]), hm, Nat.sub_self]
      rfl
    · rw [List.find?_cons_of_neg (by rw [hr, beq_iff_eq]; exact Ne.symm hm), show n - m = n - (m + 1) + 1 by omega,
        List.getElem?_cons_succ]
      exact findPayload_numbered hrs (by omega)

/-- **The bytes under an LSN** are found where the record is. -/
theorem Steady.wp_findRecord (h : Steady env ns segs g low s) (n : Nat) :
    (findRecord n s.manifest ⟨segs.length, g.writer env⟩).wp
      ⟨fun found s' => found = (recordsOf segs ++ g.records)[n]?.map RawRecord.payload ∧ s' = s, fun _ _ => False,
        fun _ _ s' => s' = s, fun s' => s' = s⟩ s := by
  unfold findRecord
  rw [Segment.writer_header, h.valid.firstLsn]
  by_cases hactive : (recordsOf segs).length ≤ n
  · rw [if_pos hactive]
    obtain ⟨f, hentries, hdata, -⟩ := h.file
    have hpayload : (s.disk.activeFile segs.length >>= fun file => (SegmentBytes.raw file).payloadAt n)
        = .ok (findPayload n g.records) := by
      rw [activeFile_eq hentries]
      show (scanRawBytes f.data).map _ = _
      rw [hdata, Segment.open_, h.valid.scan_open]
      rfl
    refine Prog.wp_look (fun found hfound => ⟨?_, rfl⟩) (fun e he => by cases hpayload.symm.trans he) (fun _ => rfl) rfl
    cases hpayload.symm.trans hfound
    rw [findPayload_numbered h.valid.numbered hactive, List.getElem?_append_right hactive]
  · rw [if_neg hactive]
    have hlt := Nat.not_le.1 hactive
    obtain ⟨g', desc, hg', hfind, hdesc, hle, hget⟩ := h.catalogue.findSegmentForLsn h.wreck.chain hlt
    obtain ⟨x, hx, hactive'⟩ := hdesc.active
    obtain ⟨file, hfile, -, -, hpayload⟩ := (hdesc.serves x hx).file
    obtain ⟨j, hj⟩ := List.mem_iff_getElem?.1 hg'
    have hvalid := (h.wreck.chain.getElem? hj).1
    have hlook : ((s.disk.fileAt x.location).elim (.error notFound) (·.payloadAt n))
        = .ok (findPayload n g'.records) := by
      rw [hfile]
      exact hpayload n
    rw [hfind]
    dsimp only
    rw [hactive']
    dsimp only
    refine Prog.wp_look (fun found hfound => ⟨?_, rfl⟩) (fun e he => by cases hlook.symm.trans he) (fun _ => rfl) rfl
    cases hlook.symm.trans hfound
    rw [findPayload_numbered hvalid.numbered' hle, List.getElem?_append_left hlt, hget]

/-! ## Episodes -/

/-- The records hold the episodes. -/
def Holds (env : Env) (hist : List RawRecord) (es : List Episode) : Prop :=
  List.Forall₂ (fun r e => ∃ opaqueMeta, env.decodePayload r.payload = .ok (opaqueMeta, e)) hist es

/-- **The log works and holds the episodes**, of which no crash takes the first `synced`. -/
def Live (env : Env) (es : List Episode) (synced : Nat) (sync : Prop) (s : State) : Prop :=
  ∃ ns hist, Alive env ns hist synced sync s ∧ Holds env hist es

/-- What is left of a process that died is a directory of the episodes. -/
def Left (env : Env) (es : List Episode) (synced : Nat) (fits : Prop) (d : Disk) : Prop :=
  ∃ ns hist, Dies env ns hist synced fits d ∧ Holds env hist es

theorem Live.head (h : Live env es synced sync s) : s.nextLsn = es.length := by
  obtain ⟨ns, hist, halive, hholds⟩ := h
  rw [halive.head, hholds.length_eq]

theorem Live.congr {s' : State} (h : Live env es synced sync s) (hdisk : s'.disk = s.disk)
    (hmanifest : s'.manifest = s.manifest) (hactive : s'.active = s.active) (hhead : s'.nextLsn = s.nextLsn) :
    Live env es synced sync s' := by
  obtain ⟨ns, hist, halive, hholds⟩ := h
  exact ⟨ns, hist, halive.congr hdisk hmanifest hactive hhead, hholds⟩

theorem Live.left (h : Live env es synced sync s) (fits : Prop) : Left env es synced fits s.disk := by
  obtain ⟨ns, hist, halive, hholds⟩ := h
  exact ⟨ns, hist, halive.dies fits, hholds⟩

theorem Holds.concat {r : RawRecord} {e : Episode} (h : Holds env hist es) {opaqueMeta : Bytes}
    (hr : env.decodePayload r.payload = .ok (opaqueMeta, e)) : Holds env (hist ++ [r]) (es ++ [e]) :=
  List.rel_append h (.cons ⟨opaqueMeta, hr⟩ .nil)

/-- **A read answers what was appended.** -/
theorem Live.wp_read (h : Live env es synced sync s) (n : Nat) : (read env n).wp
    ⟨fun found s' => found = es[n]?.map (fun e => (n, e)) ∧ s' = s, fun _ _ => False, fun _ _ s' => s' = s,
      fun s' => s' = s⟩ s := by
  have hhead := h.head
  obtain ⟨ns, hist, ⟨segs, g, low, hsteady, rfl, -⟩, hholds⟩ := h
  unfold read
  refine Prog.wp_get_bind ?_
  by_cases hn : s.nextLsn ≤ n
  · rw [if_pos hn]
    refine Prog.wp_pure ⟨?_, rfl⟩
    rw [List.getElem?_eq_none (hhead ▸ hn)]
    rfl
  · rw [if_neg hn, hsteady.active]
    dsimp only
    have hlt : n < (recordsOf segs ++ g.records).length := by
      rw [hholds.length_eq, ← hhead]
      exact Nat.not_le.1 hn
    have hlt' : n < es.length := hholds.length_eq ▸ hlt
    obtain ⟨opaqueMeta, hdecode⟩ := hholds.get hlt hlt'
    refine Prog.wp_bind ((hsteady.wp_findRecord n).mono ?_ (fun _ _ hf => hf) (fun _ _ _ hs' => hs')
      (fun _ hs' => hs'))
    rintro found s' ⟨rfl, rfl⟩
    rw [List.getElem?_eq_getElem hlt, List.getElem?_eq_getElem hlt']
    dsimp only [Option.map_some]
    exact Prog.wp_ofExcept_ok hdecode (Prog.wp_pure ⟨rfl, rfl⟩)

/-! ## The calls -/

namespace Call

variable (env)

/-- What a call appends if it returns. -/
def appends (s : State) : Call → List Episode
  | .append episode _ => [episode.stamp (s.clock.now (env.wall s.ticks)).1]
  | .appendReplicated lsn episode _ => if lsn < s.nextLsn then [] else [episode]
  | .flush | .sealActive | .packPending _ => []

/-- How many records are synced when it returns: `head` is what there was, `synced` what was synced. -/
def syncs (head synced : Nat) : Call → Nat
  | .append _ elapsedMs => if shouldSync env elapsedMs then head + 1 else synced
  | .appendReplicated lsn _ elapsedMs =>
    if lsn < head then synced else if shouldSync env elapsedMs then head + 1 else synced
  | .flush | .sealActive => head
  | .packPending _ => synced

/-- What there must be room for: the manifest, the LSNs and the numbers of generations. -/
def Room (s : State) : Call → Prop
  | .append episode _ => (s.rolls env (episode.stamp (s.clock.now (env.wall s.ticks)).1) = true → s.fits env = true) ∧
    s.nextLsn + 1 < 2 ^ 64
  | .appendReplicated _ episode _ => (s.rolls env episode = true → s.fits env = true) ∧ s.nextLsn + 1 < 2 ^ 64 ∧
    episode.tsHlc < 2 ^ 64
  | .flush => True
  | .sealActive => s.fits env = true
  | .packPending _ => ∀ id ∈ s.manifest.packingQueue, Packable s id

/-- What a call answers, to a log of these episodes. -/
def Answers (es : List Episode) : Call → Answer → Prop
  | .append _ _, answer => answer = .appended es.length
  | .appendReplicated lsn episode _, answer =>
    answer = .appended lsn ∧ (lsn = es.length ∨ ∃ existing, es[lsn]? = some existing ∧ existing.id = episode.id)
  | .flush, answer | .sealActive, answer => answer = .done
  | .packPending _, answer => ∃ receipts, answer = .packed receipts

/-- Why a call is refused, by a log of these episodes. -/
def Refuses (es : List Episode) (s : State) : Call → HeraclitusError → Prop
  | .append episode _, e => AppendRefusal env es.length (episode.stamp (s.clock.now (env.wall s.ticks)).1) none e
  | .appendReplicated lsn episode _, e =>
    lsn < es.length ∧ e = .casConflict lsn es.length ∧ (∀ existing ∈ es[lsn]?, existing.id ≠ episode.id) ∨
      es.length ≤ lsn ∧ AppendRefusal env es.length episode (some lsn) e
  | .flush, _ | .sealActive, _ => False
  | .packPending profile, e => PackRefusal env profile e

/-- Does a step that fails leave another log behind? -/
def harmed : Call → Site → Nat → Bool
  | .append _ _, k, part | .appendReplicated _ _ _, k, part | .sealActive, k, part => k.harms part
  | .flush, _, _ | .packPending _, _, _ => false

end Call

/-- What a call does to a log that is live. -/
def callPost (env : Env) (es : List Episode) (synced : Nat) (sync : Prop) (s : State) (c : Call) :
    Post Site State HeraclitusError Answer where
  ok answer s' := c.Answers es answer ∧ Live env (es ++ c.appends env s) (c.syncs env es.length synced) sync s'
  refused e s' := c.Refuses env es s e ∧ Live env es synced sync s'
  failed k part s' := c.harmed k part = true ∨ Live env es synced False s'
  died s' := Left env es synced sync s'.disk ∨ Left env (es ++ c.appends env s) synced sync s'.disk

theorem Live.mono {synced' : Nat} {sync' : Prop} (h : Live env es synced sync s) (hle : synced' ≤ synced)
    (hsync : sync' → sync) : Live env es synced' sync' s := by
  obtain ⟨ns, hist, halive, hholds⟩ := h
  obtain ⟨segs, g, low, hsteady, hhist, hsafe, hs⟩ := halive.mono hle
  exact ⟨ns, hist, ⟨segs, g, low, hsteady, hhist, hsafe, fun h => hs (hsync h)⟩, hholds⟩

/-- **An append adds the episode**, or is refused for what it is. -/
theorem Live.wp_appendInner (h : Live env es synced sync s) (hcodec : env.RoundTrips) {episode : Episode}
    (hhlc : episode.tsHlc < 2 ^ 64) (hbound : es.length + 1 < 2 ^ 64)
    (hfits : s.rolls env episode = true → s.fits env = true)
    (expectedLsn : Option Nat) (elapsedMs : Nat) : (appendInner env episode expectedLsn elapsedMs).wp
      ⟨fun lsn s' => lsn = es.length ∧ (∀ expected ∈ expectedLsn, expected = es.length) ∧
          Live env (es ++ [episode]) (if shouldSync env elapsedMs then es.length + 1 else synced) sync s',
        fun e s' => AppendRefusal env es.length episode expectedLsn e ∧ Live env es synced sync s',
        fun k part s' => k.harms part = true ∨ Live env es synced False s',
        fun s' => Left env es synced sync s'.disk ∨ Left env (es ++ [episode]) synced sync s'.disk⟩ s := by
  obtain ⟨ns, hist, halive, hholds⟩ := h
  have hlength := hholds.length_eq
  have hconcat : ∀ {payload : Bytes}, env.encodePayload (ulidBytes episode.id) episode = .ok payload →
      Holds env (hist ++ [recordFor hist episode payload]) (es ++ [episode]) := fun hpayload =>
    hholds.concat (hcodec _ _ _ hpayload)
  refine (halive.wp_appendInner hcodec hhlc (hlength ▸ hbound) hfits expectedLsn elapsedMs).mono ?_ ?_ ?_ ?_
  · rintro lsn s' ⟨hlsn, hexpected, payload, hpayload, halive'⟩
    rw [hlength] at hlsn hexpected halive'
    exact ⟨hlsn, hexpected, ns, _, halive', hconcat hpayload⟩
  · rintro e s' ⟨hrefusal, halive'⟩
    exact ⟨hlength ▸ hrefusal, ns, hist, halive', hholds⟩
  · rintro k part s' (hharms | halive')
    · exact .inl hharms
    · exact .inr (Live.mono ⟨ns, hist, halive', hholds⟩ (Nat.le_refl _) False.elim)
  · rintro s' (hdies | ⟨payload, hpayload, hdies⟩)
    · exact .inl ⟨ns, hist, hdies, hholds⟩
    · exact .inr ⟨ns, _, hdies, hconcat hpayload⟩

/-- **A replicated event** below the head is compared with what is there. -/
theorem Live.wp_appendReplicated (h : Live env es synced sync s) (hcodec : env.RoundTrips) {lsn elapsedMs : Nat}
    {episode : Episode} (hroom : (Call.appendReplicated lsn episode elapsedMs).Room env s) :
    (Call.run env (.appendReplicated lsn episode elapsedMs)).wp
      (callPost env es synced sync s (.appendReplicated lsn episode elapsedMs)) s := by
  obtain ⟨hfits, hbound, hhlc⟩ := hroom
  have hhead := h.head
  have hobserved : Live env es synced sync { s with clock := s.clock.observe episode.tsHlc } := h.congr rfl rfl rfl rfl
  unfold Call.run appendReplicated
  refine Prog.wp_bind (Prog.wp_modify_bind (Prog.wp_get_bind ?_))
  dsimp only
  by_cases hlsn : lsn < s.nextLsn
  · rw [if_pos hlsn]
    have happends : es ++ Call.appends env s (.appendReplicated lsn episode elapsedMs) = es := by
      rw [Call.appends, if_pos hlsn, List.append_nil]
    have hsyncs : Call.syncs env es.length synced (.appendReplicated lsn episode elapsedMs) = synced := by
      rw [Call.syncs, if_pos (hhead ▸ hlsn)]
    refine Prog.wp_bind ((hobserved.wp_read lsn).mono ?_ (fun _ _ hf => hf.elim) ?_ ?_)
    · rintro found s' ⟨rfl, rfl⟩
      have hlt : lsn < es.length := hhead ▸ hlsn
      dsimp only
      rw [List.getElem?_eq_getElem hlt, Option.map_some, Option.any_some]
      by_cases hid : es[lsn].id = episode.id
      · rw [if_pos (beq_iff_eq.2 hid)]
        refine Prog.wp_pure (Prog.wp_pure ⟨⟨rfl, .inr ⟨_, List.getElem?_eq_getElem hlt, hid⟩⟩, ?_⟩)
        rw [happends, hsyncs]
        exact hobserved
      · rw [if_neg (fun h => hid (beq_iff_eq.1 h))]
        refine Prog.wp_refuse ⟨.inl ⟨hlt, by rw [← hhead], fun existing hexisting => ?_⟩, hobserved⟩
        rw [List.getElem?_eq_getElem hlt] at hexisting
        cases hexisting
        exact hid
    · rintro k part s' rfl
      exact .inr (hobserved.mono (Nat.le_refl _) False.elim)
    · rintro s' rfl
      exact .inl (hobserved.left _)
  · rw [if_neg hlsn]
    have happends : Call.appends env s (.appendReplicated lsn episode elapsedMs) = [episode] := if_neg hlsn
    have hsyncs : Call.syncs env es.length synced (.appendReplicated lsn episode elapsedMs)
        = if shouldSync env elapsedMs then es.length + 1 else synced := if_neg (hhead ▸ hlsn)
    refine (hobserved.wp_appendInner hcodec hhlc (hhead ▸ hbound) hfits (some lsn) elapsedMs).mono ?_ ?_
      (fun _ _ _ hf => hf) ?_
    · rintro n s' ⟨rfl, hexpected, hlive⟩
      have hlsn' := hexpected lsn rfl
      refine Prog.wp_pure ⟨⟨by rw [hlsn'], .inl hlsn'⟩, ?_⟩
      rw [happends, hsyncs]
      exact hlive
    · rintro e s' ⟨hrefusal, hlive⟩
      exact ⟨.inr ⟨by rw [← hhead]; exact Nat.not_lt.1 hlsn, hrefusal⟩, hlive⟩
    · intro s' hleft
      rwa [callPost, happends]

/-- The active file is synced. -/
theorem Steady.flushed (h : Steady env ns segs g low s) :
    Steady env ns segs g g.bodyLen (s.mapDisk (·.modifyActive segs.length .sync)) := by
  obtain ⟨f, hentries, hdata, -⟩ := h.wreck.active.file
  have hlength : f.data.length = g.bodyLen := by
    rw [hdata, List.length_take]
    exact Nat.min_eq_left h.wreck.active.size_le
  refine ⟨h.wreck.with_active rfl rfl rfl rfl ?_, h.catalogue.mono (Disk.extends_of_eq rfl rfl), h.active, h.head⟩
  exact ⟨h.valid, ⟨f.sync, entries_modifyActive hentries _, hdata, Nat.le_of_eq hlength.symm, Nat.le_of_eq hlength⟩,
    h.wreck.active.size_le, h.wreck.active.complete⟩

/-- **Everything is synced.** -/
def Clean (env : Env) (es : List Episode) (sync : Prop) (s : State) : Prop :=
  ∃ ns segs g, Steady env ns segs g g.bodyLen s ∧ Holds env (recordsOf segs ++ g.records) es ∧ (sync → InSync s)

theorem Clean.live (h : Clean env es sync s) : Live env es es.length sync s := by
  obtain ⟨ns, segs, g, hsteady, hholds, hsync⟩ := h
  refine ⟨ns, _, ⟨segs, g, _, hsteady, rfl, .inr ⟨?_, ?_⟩, hsync⟩, hholds⟩
  · rw [← hholds.length_eq, List.length_append, Nat.add_sub_cancel_left]
  · rw [← hholds.length_eq, List.length_append, Nat.add_sub_cancel_left, List.take_length]
    exact Nat.le_refl _

/-- **A flush syncs the history.** -/
theorem Live.wp_flush (h : Live env es synced sync s) : flush.wp ⟨fun _ s' => Clean env es sync s', fun _ _ => False,
    fun _ _ s' => s' = s, fun s' => s' = s⟩ s := by
  obtain ⟨ns, hist, ⟨segs, g, low, hsteady, rfl, -, hsync⟩, hholds⟩ := h
  unfold flush
  refine Prog.wp_get_bind ?_
  rw [hsteady.active]
  exact Prog.wp_step ⟨ns, segs, g, hsteady.flushed, hholds, hsync⟩ (fun _ => rfl) rfl

/-- **What a call does.**  With room for it, it answers or is refused for what it is; a step that does no harm leaves the log
as it was, and a process that dies leaves the episodes, with or without the one that was being appended. -/
theorem Live.wp_call (h : Live env es synced sync s) (hcodec : env.RoundTrips) {c : Call} (hroom : c.Room env s) :
    (c.run env).wp (callPost env es synced sync s c) s := by
  have hhead := h.head
  cases c with
  | append episode elapsedMs =>
    obtain ⟨hfits, hbound⟩ := hroom
    have hticked : Live env es synced sync (s.ticked env) := h.congr rfl rfl rfl rfl
    have hhlc : (episode.stamp (s.clock.now (env.wall s.ticks)).1).tsHlc < 2 ^ 64 :=
      Nat.lt_of_le_of_lt (Hlc.now_le _ _) (by decide)
    refine Prog.wp_bind (Prog.wp_eval_bind rfl ?_)
    refine (hticked.wp_appendInner hcodec hhlc (hhead ▸ hbound) hfits none elapsedMs).mono ?_ (fun _ _ hr => hr)
      (fun _ _ _ hf => hf) (fun _ hd => hd)
    rintro n s' ⟨rfl, -, hlive⟩
    exact Prog.wp_pure ⟨rfl, hlive⟩
  | appendReplicated lsn episode elapsedMs => exact h.wp_appendReplicated hcodec hroom
  | flush =>
    refine Prog.wp_bind (h.wp_flush.mono ?_ (fun _ _ hf => hf.elim) ?_ ?_)
    · intro _ s' hclean
      refine Prog.wp_pure ⟨rfl, ?_⟩
      rw [Call.appends, List.append_nil]
      exact hclean.live
    · rintro k part s' rfl
      exact .inr (h.mono (Nat.le_refl _) False.elim)
    · rintro s' rfl
      exact .inl (h.left _)
  | sealActive =>
    obtain ⟨ns, hist, halive, hholds⟩ := h
    refine Prog.wp_bind (halive.wp_seal.mono ?_ ?_ ?_ ?_)
    · intro _ s' halive'
      refine Prog.wp_pure ⟨rfl, ?_⟩
      rw [Call.appends, List.append_nil, Call.syncs, ← hholds.length_eq]
      exact ⟨ns, hist, halive', hholds⟩
    · intro e s' hfull
      exact absurd (Eq.trans (Eq.symm hroom) hfull) nofun
    · intro k part s' hk
      exact .inl (Site.harms_of_inSeal hk)
    · intro s' hdies
      exact .inl ⟨ns, hist, hdies.mono (fun hs => ⟨hs, hroom⟩), hholds⟩
  | packPending profile =>
    obtain ⟨ns, hist, halive, hholds⟩ := h
    refine Prog.wp_bind ((halive.wp_packPending hroom profile).mono ?_ ?_ ?_ ?_)
    · intro receipts s' halive'
      refine Prog.wp_pure ⟨⟨receipts, rfl⟩, ?_⟩
      rw [Call.appends, List.append_nil]
      exact ⟨ns, hist, halive', hholds⟩
    · rintro e s' ⟨he, halive'⟩
      exact ⟨he, ns, hist, halive', hholds⟩
    · intro _ _ s' halive'
      exact .inr ⟨ns, hist, halive', hholds⟩
    · intro s' hdies
      exact .inl ⟨ns, hist, hdies _, hholds⟩

end V6
end Heraclitus
