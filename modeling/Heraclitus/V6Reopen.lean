import Heraclitus.V6Crash
/-!
# V6Reopen — closing a v6 log cleanly and opening it again

Nothing is lost of a log that was flushed.  It is opened again with all it holds, unless the bytes where a footer would begin
spell the magic of one: then opening takes the file for a sealed or a corrupt segment, and refuses.
-/
namespace Heraclitus
namespace V6

variable {env : Env} {ns : Bytes} {segs : List Segment} {k : Nat} {d : Disk} {s : State} {hist : List RawRecord}
  {es : List Episode} {synced : Nat} {sync fits : Prop}

/-- Do the bytes of the active file where a footer would begin spell its magic? -/
def Disk.marked (d : Disk) : Bool := d.active.entries.any (fun e => footerMagicAtEof e.2.data)

/-! ## A file that looks sealed -/

theorem repairActiveTail_marked {file : Bytes} (h : footerMagicAtEof file = true) : ∃ e, repairActiveTail file = .error e := by
  unfold repairActiveTail
  rw [h, Bool.or_true, if_pos rfl]
  exact ⟨_, rfl⟩

section Marked

variable {r : Rest} (hheader : fileHeaderLen ≤ r.size) (hlt : r.size < (r.segment.bytes env).length)
  (hmark : footerMagicAtEof ((r.segment.bytes env).take r.size) = true)
include hheader hlt hmark

omit hmark in
/-- A file that scans without a footer is not registered. -/
theorem Reconciled.wp_promote_marked {descs : List SegmentDescriptorV2} {changed : Bool}
    (h : Reconciled env ns segs k (some r) descs changed s) : (promote env segs.length).wp
      ⟨fun found s' => found = (some segs.length, false) ∧ s' = s, fun _ _ => True, fun _ _ _ => True, fun _ => True⟩ s := by
  have hon : r.On env ns segs s.disk := h.wreck.active
  obtain ⟨f, hentries, hdata, -⟩ := hon.file
  obtain ⟨tornAt, hscan, -⟩ := hon.valid.scan_take hheader hlt
  have hlook : ∀ {α : Type} (read : File → Except HeraclitusError α), (s.disk.activeFile segs.length >>= read) = read f :=
    fun read => by
      rw [activeFile_eq hentries]
      rfl
  unfold promote
  refine Prog.wp_look_ok ((hlook _).trans (by rw [hdata]; exact hon.valid.readHeader hheader)) (fun _ => trivial) trivial ?_
  refine Prog.wp_get_bind (Prog.wp_ofExcept_ok (by rw [h.catalogue.namespaceId]; exact hon.valid.checkHeaderIdentity) ?_)
  refine Prog.wp_look_ok (hlook _) (fun _ => trivial) trivial ?_
  by_cases hnone : (readFooter f.data).isNone = true
  · rw [if_pos hnone]
    exact Prog.wp_pure ⟨rfl, rfl⟩
  · -- the bytes even decode as a footer: the file gets its final name before it is scanned
    rw [if_neg hnone, if_neg (by rw [h.wreck.raw_contains (Nat.le_refl _)]; exact nofun)]
    refine Prog.wp_step_bind (fun _ => trivial) trivial (Prog.wp_bind ?_)
    have hget : s.disk.active.get? segs.length = some f :=
      SortedMap.get?_eq_some.2 (by rw [hentries]; exact List.mem_cons_self)
    have hraw : (s.disk.rename segs.length).raw.get? segs.length = some f := by
      show (s.disk.raw.alter segs.length _).get? _ = _
      rw [SortedMap.get?_alter, if_pos rfl, hget, Option.some_or]
    have hfile : ((s.mapDisk (·.rename segs.length)).disk.rawFile segs.length >>= fun file => scanRawBytes file.data)
        = .ok { header := r.segment.header, records := (r.segment.cut r.size).records, footer := none, tornAt := tornAt } := by
      show ((s.disk.rename segs.length).rawFile segs.length >>= _) = _
      rw [Disk.rawFile, hraw]
      show scanRawBytes f.data = _
      rw [hdata]
      exact hscan
    unfold reconcileRaw
    refine Prog.wp_look_ok hfile (fun _ => trivial) trivial (Prog.wp_get_bind ?_)
    refine Prog.wp_ofExcept_bind (fun _ _ => ?_) (fun _ _ => trivial)
    exact Prog.wp_refuse trivial

/-- **A file that looks sealed is refused.** -/
theorem Leaves.wp_openLog_marked (h : Leaves env ns hist synced fits s.disk segs k (some r)) (hmax : 0 < env.segmentMaxBytes)
    (seed : Bytes) : (openLog env seed).wp ⟨fun _ _ => False, fun _ _ => True, fun _ _ _ => True, fun _ => True⟩ s := by
  have hon : r.On env ns segs s.disk := h.wreck.active
  obtain ⟨f, hentries, hdata, -⟩ := hon.file
  refine h.wp_openLog_of (fun q hq => by cases hq; exact hheader) hmax seed (fun _ _ _ => trivial) (fun _ => trivial)
    (fun ns' changed t hdisk hreconciled => ?_)
  rw [hdisk, hentries]
  refine Prog.wp_bind ((hreconciled.wp_promote_marked hheader hlt).mono ?_ (fun _ _ _ => trivial)
    (fun _ _ _ _ => trivial) (fun _ _ => trivial))
  rintro found t' ⟨rfl, rfl⟩
  -- the file keeps its name; its tail is to be repaired
  have hrepair : ∀ {u : State}, u.disk.active = t'.disk.active → (resumeActive env segs.length).wp
      ⟨fun _ _ => False, fun _ _ => True, fun _ _ _ => True, fun _ => True⟩ u := fun {u} hu => by
    have hmarked : footerMagicAtEof f.data = true := by
      rw [hdata]
      exact hmark
    obtain ⟨e, hrefused⟩ := repairActiveTail_marked hmarked
    have hlook : (u.disk.activeFile segs.length >>= fun file => repairActiveTail file.data) = .error e := by
      rw [activeFile_eq (by rw [hu, hdisk]; exact hentries)]
      exact hrefused
    exact Prog.wp_bind (Prog.wp_look (fun _ hok => by cases hlook.symm.trans hok) (fun _ _ => trivial)
      (fun _ => trivial) trivial)
  have hactivate : ∀ {u : State}, u.disk.active = t'.disk.active → (activate env (some segs.length)).wp
      ⟨fun _ _ => False, fun _ _ => True, fun _ _ _ => True, fun _ => True⟩ u := fun hu =>
    Prog.wp_get_bind (Prog.wp_ofExcept_bind (fun _ _ => Prog.wp_modify_bind (hrepair hu)) (fun _ _ => trivial))
  refine Prog.wp_bind ?_
  unfold commitIf
  split
  · refine (wp_commit t').mono ?_ (fun _ _ _ => trivial) (fun _ _ _ _ => trivial) (fun _ _ => trivial)
    rintro - u ⟨rfl, -⟩
    exact hactivate rfl
  · exact Prog.wp_pure (hactivate rfl)

end Marked

/-! ## Clean logs -/

/-- What a crash leaves of a log that was flushed is all of it. -/
theorem Steady.crash_clean {g : Segment} (h : Steady env ns segs g g.bodyLen s) (keep : Nat) :
    Leaves env ns (recordsOf segs ++ g.records) (recordsOf segs ++ g.records).length True (s.disk.crash keep) segs segs.length
      (some ⟨g, g.bodyLen, g.bodyLen⟩) ∧ (s.disk.crash keep).marked = s.disk.marked := by
  obtain ⟨f, hentries, hdata, hlow, hdurable⟩ := h.file
  have hlength : f.data.length = g.bodyLen := by rw [hdata, h.valid.length_open]
  have hdata' : (f.crash keep).data = f.data :=
    List.take_of_length_le (by rw [hlength]; exact Nat.le_trans hlow (Nat.le_max_left _ _))
  have hentries' : (s.disk.crash keep).active.entries = [(segs.length, f.crash keep)] := by
    show s.disk.active.entries.map _ = _
    rw [hentries]
    rfl
  have hdurable' : (f.crash keep).durable = g.bodyLen := by
    show (f.crash keep).data.length = _
    rw [hdata', hlength]
  have hon : Rest.On env ns segs ⟨g, g.bodyLen, g.bodyLen⟩ (s.disk.crash keep) :=
    ⟨h.valid, ⟨_, hentries', by rw [hdata', hdata]; exact h.valid.take_bodyLen.symm, Nat.le_of_eq hdurable'.symm,
      Nat.le_of_eq hdurable'⟩, h.wreck.active.size_le, h.wreck.active.complete⟩
  have hsteady : Steady env ns segs g g.bodyLen (s.mapDisk (·.crash keep)) :=
    ⟨h.wreck.with_active rfl rfl rfl rfl hon, h.catalogue.mono (Disk.extends_of_eq rfl rfl), h.active, h.head⟩
  refine ⟨hsteady.leaves (.inr ⟨?_, ?_⟩) True, ?_⟩
  · rw [List.length_append, Nat.add_sub_cancel_left]
  · rw [List.length_append, Nat.add_sub_cancel_left, List.take_length]
    exact Nat.le_refl _
  · rw [Disk.marked, Disk.marked, hentries', hentries, List.any_cons, List.any_cons, hdata']

/-- **A log that was flushed is opened again with all it holds, exactly where nothing in its active file looks like a
footer.** -/
theorem Clean.opened_again_iff (h : Clean env es sync s) (hcodec : env.RoundTrips) (hmax : 0 < env.segmentMaxBytes) (keep : Nat)
    (seed : Bytes) : (∃ w, World.opened env seed (s.mapDisk (·.crash keep)) es es.length = some w ∧ w.hist = es ∧
      w.Recovered env) ↔ s.disk.marked = false := by
  obtain ⟨ns, segs, g, hsteady, hholds, -⟩ := h
  obtain ⟨hleaves, hmarked⟩ := hsteady.crash_clean keep
  have hon : Rest.On env ns segs ⟨g, g.bodyLen, g.bodyLen⟩ (s.disk.crash keep) := hleaves.wreck.active
  have hlt : g.bodyLen < (g.bytes env).length := by
    rw [hsteady.valid.length_bytes]
    exact Nat.lt_add_of_pos_right (by decide)
  obtain ⟨f, hentries, hdata, -⟩ := hon.file
  have hmark : s.disk.marked = footerMagicAtEof ((g.bytes env).take g.bodyLen) := by
    rw [← hmarked, Disk.marked, hentries, List.any_cons, hdata]
    exact Bool.or_false _
  rw [hmark]
  constructor
  · rintro ⟨w, hw, -⟩
    refine Bool.eq_false_iff.2 (fun htrue => ?_)
    have hrefused := (hleaves.wp_openLog_marked (s := s.mapDisk (·.crash keep)) (Nat.le_add_right _ _) hlt htrue hmax seed).run
    unfold World.opened at hw
    rcases hrefused with ⟨-, -, -, ⟨⟩⟩ | ⟨e, s', m, hopen, -⟩
    · rw [hopen] at hw
      cases hw
  · intro hfalse
    have hread : (s.disk.crash keep).readable = true := by
      have hlength : f.data.length = g.bodyLen := by
        rw [hdata, List.length_take]
        exact Nat.min_eq_left (Nat.le_of_lt hlt)
      have hheader : fileHeaderLen ≤ g.bodyLen := Nat.le_add_right _ _
      rw [Disk.readable, hentries, List.all_cons, List.all_nil, Bool.and_true, hlength, hdata, hfalse,
        decide_eq_true hheader]
      rfl
    have hleft : Left env es es.length True (s.disk.crash keep) :=
      ⟨ns, _, ⟨segs, _, _, hholds.length_eq ▸ hleaves⟩, hholds⟩
    obtain ⟨w, hw, hlive⟩ := Left.opened (s := s.mapDisk (·.crash keep)) hleft trivial hread hmax seed List.prefix_rfl
    obtain ⟨hsynced, hprefix⟩ := opened_eq_some hw
    have hhist : w.hist = es := hprefix.eq_of_length_le (by rw [← hsynced]; exact hlive.synced_le)
    exact ⟨w, hw, hhist, hlive.recovered hcodec⟩

/-- **Reopening after a flush**, from every state of every run. -/
theorem reopens_iff (hcodec : env.RoundTrips) (hmax : 0 < env.segmentMaxBytes) {seed : Bytes} {w₀ w : World}
    {acts : List World.Act} (h₀ : World.fresh env seed = some w₀) (hok : allOk (World.step env) (World.Meets env) w₀ acts)
    (hruns : runs (World.step env) w₀ acts = some w) : ∃ s, Call.flush.run env w.state none = (.ok .done, s, none) ∧
      ∀ keep seed', (∃ w', World.opened env seed' (s.mapDisk (·.crash keep)) w.hist w.hist.length = some w' ∧
        w'.hist = w.hist ∧ w'.Recovered env) ↔ s.disk.marked = false := by
  obtain ⟨w₁, hw₁, hlive₁⟩ := live_fresh hmax seed
  cases h₀.symm.trans hw₁
  obtain ⟨w', hruns', hlive⟩ := hlive₁.runs hcodec hmax hok
  cases hruns.symm.trans hruns'
  have hflush : (Call.flush.run env).wp ⟨fun answer s => answer = .done ∧ Clean env w.hist True s, fun _ _ => False,
      fun _ _ _ => True, fun _ => True⟩ w.state :=
    Prog.wp_bind (hlive.wp_flush.mono (fun _ _ hclean => Prog.wp_pure ⟨rfl, hclean⟩) (fun _ _ hf => hf)
      (fun _ _ _ _ => trivial) (fun _ _ => trivial))
  rcases hflush.run with ⟨answer, s, hrun, rfl, hclean⟩ | ⟨-, -, -, -, ⟨⟩⟩
  exact ⟨s, hrun, fun keep seed' => hclean.opened_again_iff hcodec hmax keep seed'⟩

/-- A log with one record. -/
theorem reopens_iff_sample : ∃ w₀ w, World.fresh sampleEnv sampleSeed = some w₀ ∧
    runs (World.step sampleEnv) w₀ [.call (.append sampleEpisode 0)] = some w ∧
    ∃ s, Call.flush.run sampleEnv w.state none = (.ok .done, s, none) ∧
      ∀ keep seed, (∃ w', World.opened sampleEnv seed (s.mapDisk (·.crash keep)) w.hist w.hist.length = some w' ∧
        w'.hist = w.hist ∧ w'.Recovered sampleEnv) ↔ s.disk.marked = false := by
  obtain ⟨w₀, h₀, hlive⟩ := live_fresh (by decide : 0 < sampleEnv.segmentMaxBytes) sampleSeed
  have happend : ∀ w ∈ World.fresh sampleEnv sampleSeed, w.Meets sampleEnv (.call (.append sampleEpisode 0)) := by
    decide +kernel
  have hok : allOk (World.step sampleEnv) (World.Meets sampleEnv) w₀ [.call (.append sampleEpisode 0)] :=
    ⟨happend w₀ h₀, fun _ _ => trivial⟩
  obtain ⟨w, hruns, -⟩ := hlive.runs sampleEnv_roundTrips (by decide) hok
  exact ⟨w₀, w, h₀, hruns, reopens_iff sampleEnv_roundTrips (by decide) h₀ hok hruns⟩

/-- An episode whose record ends with the magic of a footer and 124 bytes. -/
def markedEpisode : Episode := Legacy.plainEpisode 0 (footerMagic ++ List.replicate 119 0)

set_option maxRecDepth 4000 in
/-- **A payload can make a clean log look corrupt**: it is written, synced, and not opened again. -/
theorem payload_looks_sealed : sampleEnv.RoundTrips ∧ ((World.fresh sampleEnv sampleSeed).bind (fun w =>
    runs (World.step sampleEnv) w [.call (.append markedEpisode 0), .call .flush])).map (fun w =>
      (w.hist.length, w.synced, (World.opened sampleEnv sampleSeed w.state w.hist w.synced).isNone)) = some (1, 1, true) :=
  ⟨sampleEnv_roundTrips, by decide +kernel⟩

end V6
end Heraclitus
