import Heraclitus.V6Calls
/-!
# V6Recovery — opening what a process has left

From every directory that a process can leave, opening registers what is sealed, gives a complete active file its final
name, and goes on with the whole records of an incomplete one.
-/
namespace Heraclitus
namespace V6

variable {env : Env} {ns : Bytes} {segs : List Segment} {g : Segment} {k : Nat} {rest : Option Rest} {d : Disk} {s : State}

/-! ## The active file -/

namespace Segment

variable {id lsn n : Nat}

theorem Valid.cut (h : g.Valid env ns id lsn) (n : Nat) : (g.cut n).Valid env ns id lsn := h.take

/-- **The scan of a part of a file** finds the records that are whole in it. -/
theorem Valid.scan_take (h : g.Valid env ns id lsn) (hn : fileHeaderLen ≤ n) (hlt : n < (g.bytes env).length) :
    ∃ tornAt, scanRawBytes ((g.bytes env).take n)
        = .ok { header := g.header, records := (g.cut n).records, footer := none, tornAt := tornAt } ∧
      tornAt.getD n = (g.cut n).bodyLen ∧ (g.cut n).bodyLen ≤ n ∧
      ((g.bytes env).take n).take (g.cut n).bodyLen = (g.cut n).open_ := by
  obtain ⟨tail, htake, htail⟩ := h.take_bytes hn hlt
  have hopen : (g.bytes env).take n = (g.cut n).open_ ++ tail := by
    rw [htake, ← List.append_assoc]
    rfl
  have hlength : n = (g.cut n).bodyLen + tail.length := by
    have hlen := congrArg List.length hopen
    rwa [List.length_take, Nat.min_eq_left (Nat.le_of_lt hlt), List.length_append, (h.cut n).length_open] at hlen
  have hprefix : ((g.bytes env).take n).take (g.cut n).bodyLen = (g.cut n).open_ := by
    rw [hopen, List.take_left' (h.cut n).length_open]
  have hle : (g.cut n).bodyLen ≤ n := by omega
  rcases htail with rfl | htorn
  · refine ⟨none, ?_, by rw [Option.getD_none]; exact hlength, hle, hprefix⟩
    rw [htake]
    exact scanRawBytes_eq h.raw (h.cut n).wide .clean
  · refine ⟨some (g.cut n).bodyLen, ?_, rfl, hle, hprefix⟩
    rw [htake]
    exact scanRawBytes_eq h.raw (h.cut n).wide (.torn htorn)

/-- A file without a footer has all its records. -/
theorem cut_bodyLen (g : Segment) : g.cut g.bodyLen = g := by
  have hwhole : g.records.length ≤ g.whole g.bodyLen := le_whole (Nat.le_refl _) (by rw [List.take_length]; exact Nat.le_refl _)
  rw [cut, List.take_of_length_le hwhole]

end Segment

theorem readFooter_eq_none {file : Bytes} (h : footerMagicAtEof file = false) : readFooter file = none := by
  unfold footerMagicAtEof at h
  unfold readFooter
  split
  · rfl
  · rename_i hlen
    rw [if_neg hlen] at h
    have hmagic : ((file.drop (file.length - footerLen)).take footerLen).take 4 ≠ footerMagic := by
      rw [List.take_take]
      exact fun heq => absurd (beq_iff_eq.2 heq) (Bool.eq_false_iff.1 h)
    unfold FooterV6.decode
    dsimp only
    rw [if_neg (by rw [List.length_drop]; omega), if_pos hmagic]
    rfl

/-- Opening can go on with the active file: its header is there, its footer is not, and nothing looks like one. -/
structure Rest.Resumable (env : Env) (rest : Rest) : Prop where
  header : fileHeaderLen ≤ rest.size
  incomplete : rest.size < (rest.segment.bytes env).length
  unmarked : footerMagicAtEof ((rest.segment.bytes env).take rest.size) = false

/-- **What opening can make of the active file.** -/
theorem Rest.On.resumable {r : Rest} (h : r.On env ns segs d) (hread : d.readable = true) : fileHeaderLen ≤ r.size ∧
    (r.size = (r.segment.bytes env).length ∨ r.Resumable env) := by
  obtain ⟨f, hentries, hdata, -⟩ := h.file
  have hlength : f.data.length = r.size := by
    rw [hdata, List.length_take]
    exact Nat.min_eq_left h.size_le
  rw [Disk.readable, hentries] at hread
  simp only [List.all_cons, List.all_nil, Bool.and_true, Bool.and_eq_true, Bool.or_eq_true, decide_eq_true_eq,
    Bool.not_eq_true'] at hread
  obtain ⟨hheader, hmark⟩ := hread
  rw [hlength] at hheader
  refine ⟨hheader, ?_⟩
  by_cases hfull : r.size = (r.segment.bytes env).length
  · exact .inl hfull
  · have hlt : r.size < (r.segment.bytes env).length := Nat.lt_of_le_of_ne h.size_le hfull
    refine .inr ⟨hheader, hlt, ?_⟩
    obtain ⟨tornAt, hscan, -⟩ := h.valid.scan_take hheader hlt
    rw [hdata, hscan] at hmark
    rcases hmark with hmark | hmark
    · exact hmark
    · cases hmark

/-! ## Going on with the active file -/

theorem validateActiveRecords_go (ctx : String) : ∀ {rs : List RawRecord} {n : Nat}, Numbered n rs →
    n + rs.length < 2 ^ 64 → validateActiveRecords.go ctx n rs = .ok ()
  | [], _, _, _ => rfl
  | r :: rs, n, ⟨hr, hrs⟩, hbound => by
    rw [List.length_cons] at hbound
    rw [validateActiveRecords.go, if_neg (fun hne => hne hr), if_neg (not_u64Max_lt (by omega))]
    exact validateActiveRecords_go ctx hrs (by omega)

/-- What opening keeps of an active file. -/
def Rest.kept (rest : Rest) : Segment := rest.segment.cut rest.size

/-- The active file is cut where its last whole record ends. -/
theorem Rest.On.truncated {r : Rest} (h : r.On env ns segs s.disk) {tornAt : Option Nat}
    (htorn : tornAt.getD r.size = r.kept.bodyLen)
    (htake : ((r.segment.bytes env).take r.size).take r.kept.bodyLen = r.kept.open_) :
    (truncate segs.length tornAt).wp ⟨fun _ s' => ∃ active, s' = s.mapDisk (fun d => { d with active := active }) ∧
        Rest.On env ns segs ⟨r.kept, min r.low r.kept.bodyLen, r.kept.bodyLen⟩ s'.disk,
      fun _ _ => False, fun _ _ _ => True, fun _ => True⟩ s := by
  obtain ⟨f, hentries, hdata, hlow, hdurable⟩ := h.file
  have hvalid : r.kept.Valid env ns segs.length (recordsOf segs).length := h.valid.cut r.size
  have hsize : r.kept.bodyLen ≤ (r.kept.bytes env).length := by
    rw [hvalid.length_bytes]
    omega
  have hcomplete : r.kept.bodyLen = (r.kept.bytes env).length → r.kept.records ≠ [] := fun heq => by
    rw [hvalid.length_bytes] at heq
    exact absurd heq (Nat.ne_of_lt (Nat.lt_add_of_pos_right (by decide)))
  have hfile : ∀ {f' : File} {d : Disk}, d.active.entries = [(segs.length, f')] → f'.data = r.kept.open_ →
      min r.low r.kept.bodyLen ≤ f'.durable → f'.durable ≤ r.kept.bodyLen →
      Rest.On env ns segs ⟨r.kept, min r.low r.kept.bodyLen, r.kept.bodyLen⟩ d :=
    fun hentries' hdata' hlow' hdurable' =>
      ⟨hvalid, ⟨_, hentries', hdata'.trans hvalid.take_bodyLen.symm, hlow', hdurable'⟩, hsize, hcomplete⟩
  cases tornAt with
  | none =>
    rw [Option.getD_none] at htorn
    rw [← htorn, List.take_take, Nat.min_self] at htake
    refine Prog.wp_pure ⟨s.disk.active, rfl, hfile hentries (hdata.trans htake) ?_ (by rw [← htorn]; exact hdurable)⟩
    exact Nat.le_trans (Nat.min_le_left _ _) hlow
  | some at_ =>
    rw [Option.getD_some] at htorn
    subst htorn
    have hcut : f.data.take r.kept.bodyLen = r.kept.open_ := by rw [hdata, htake]
    have hlength : r.kept.open_.length = r.kept.bodyLen := hvalid.length_open
    refine Prog.wp_step_bind (fun _ => trivial) trivial (Prog.wp_step ⟨_, rfl, ?_⟩ (fun _ => trivial) trivial)
    refine hfile (entries_modifyActive (entries_modifyActive hentries _) _) hcut ?_ ?_
    · show _ ≤ (f.data.take r.kept.bodyLen).length
      rw [hcut, hlength]
      exact Nat.min_le_right _ _
    · show (f.data.take r.kept.bodyLen).length ≤ _
      rw [hcut, hlength]

/-- What is on the disk is catalogued, there and in memory. -/
structure Mended (env : Env) (ns : Bytes) (segs : List Segment) (rest : Option Rest) (s : State) : Prop where
  wreck : Wreck env ns segs segs.length rest s.disk
  catalogue : Catalogued env s.disk ns segs s.manifest
  sync : InSync s

/-- **The active file is repaired and goes on** with its whole records. -/
theorem Mended.wp_resumeActive {r : Rest} (h : Mended env ns segs (some r) s) (hr : r.Resumable env)
    (hhead : s.nextLsn = (recordsOf segs).length) : (resumeActive env segs.length).wp
      ⟨fun _ s' => Steady env ns segs r.kept (min r.low r.kept.bodyLen) s' ∧ InSync s', fun _ _ => False, fun _ _ _ => True,
        fun _ => True⟩ s := by
  have hon : r.On env ns segs s.disk := h.wreck.active
  obtain ⟨f, hentries, hdata, -⟩ := hon.file
  obtain ⟨tornAt, hscan, htorn, hle, htake⟩ := hon.valid.scan_take hr.header hr.incomplete
  have hvalid : r.kept.Valid env ns segs.length (recordsOf segs).length := hon.valid.cut r.size
  have hrepair : (s.disk.activeFile segs.length >>= fun file => repairActiveTail file.data) = .ok tornAt := by
    rw [activeFile_eq hentries]
    show repairActiveTail f.data = _
    unfold repairActiveTail
    rw [hdata, readFooter_eq_none hr.unmarked, hr.unmarked, hscan]
    rfl
  unfold resumeActive
  refine Prog.wp_look_ok hrepair (fun _ => trivial) trivial ?_
  refine Prog.wp_bind ((hon.truncated htorn htake).mono ?_ (fun _ _ hf => hf) (fun _ _ _ _ => trivial)
    (fun _ _ => trivial))
  rintro - t ⟨active, rfl, hactive⟩
  obtain ⟨f', hentries', hdata', -⟩ := hactive.file
  have hfile : ∀ {α : Type} (read : File → Except HeraclitusError α),
      ((s.mapDisk (fun d => { d with active := active })).disk.activeFile segs.length >>= read) = read f' := fun read => by
    rw [activeFile_eq hentries']
    rfl
  have hopen : f'.data = r.kept.header.encode ++ encodeRecords r.kept.records := hdata'.trans hvalid.take_bodyLen
  refine Prog.wp_look_ok ((hfile _).trans (by rw [hopen]; exact hvalid.scan_open)) (fun _ => trivial) trivial ?_
  refine Prog.wp_get_bind (Prog.wp_ofExcept_ok (by
    show checkHeaderIdentity _ _ s.manifest.storageNamespaceId _ = _
    rw [h.catalogue.namespaceId]
    exact hvalid.checkHeaderIdentity) ?_)
  have hrecords : validateActiveRecords { header := r.kept.header, records := r.kept.records, footer := none, tornAt := none }
      s.nextLsn = .ok () := by
    unfold validateActiveRecords
    rw [hhead]
    dsimp only
    rw [validateActiveRecords_go _ hvalid.numbered hvalid.bound, if_neg (by decide)]
    dsimp only
    rw [if_neg (fun hne => hne hvalid.firstLsn)]
  have hresume : RawSegmentWriter.resume env.blake3 (persistedHasher env) (r.kept.header.encode ++ encodeRecords r.kept.records)
      = .ok (r.kept.writer env) :=
    resume_eq hvalid.raw hvalid.codec hvalid.wide (fun q hq => (hvalid.stored q hq).hash)
  refine Prog.wp_ofExcept_ok hrecords (Prog.wp_modify_bind ?_)
  refine Prog.wp_look_ok ((hfile _).trans (by rw [hopen]; exact hresume)) (fun _ => trivial) trivial ?_
  have hnext : (r.kept.writer env).nextExpectedLsn = (recordsOf segs).length + r.kept.records.length := by
    rw [← hvalid.firstLsn]
    exact written_nextExpectedLsn hvalid.numbered' hvalid.bound'
  have hbehind : ¬(r.kept.writer env).nextExpectedLsn < s.nextLsn := by
    rw [hnext, hhead]
    exact Nat.not_lt.2 (Nat.le_add_right _ _)
  change (if (r.kept.writer env).nextExpectedLsn < s.nextLsn then _ else _ : Engine Unit).wp _ _
  rw [if_neg hbehind]
  refine Prog.wp_modify ⟨⟨h.wreck.with_active rfl rfl rfl rfl hactive, h.catalogue.mono (Disk.extends_of_eq rfl rfl), rfl,
    hnext⟩, h.sync⟩

/-! ## The namespace -/

/-- The headers of the files agree on a namespace. -/
theorem sameNamespace_eq : ∀ {files : List File} {found : Option Bytes},
    (∀ file ∈ files, ∃ header, readV6Header file.data = .ok header ∧ header.storageNamespaceId = ns) →
    (∀ x ∈ found, x = ns) → sameNamespace found files = .ok (if files = [] then found else some ns)
  | [], _, _, _ => rfl
  | file :: files, found, hfiles, hfound => by
    obtain ⟨header, hheader, hns⟩ := hfiles file List.mem_cons_self
    have hsame : found.any (fun x => decide (x ≠ header.storageNamespaceId)) = false := by
      cases found with
      | none => rfl
      | some x => exact decide_eq_false (fun hne => hne ((hfound x rfl).trans hns.symm))
    rw [sameNamespace, hheader]
    dsimp only
    rw [if_neg (by rw [hsame]; exact nofun), hns, sameNamespace_eq (fun f hf => hfiles f (List.mem_cons_of_mem _ hf))
      (fun x hx => (Option.some.inj hx).symm), if_neg (List.cons_ne_nil _ _), ite_self]

/-- Every segment file names the namespace. -/
theorem Wreck.headers (h : Wreck env ns segs k rest d) (hheader : ∀ r ∈ rest, fileHeaderLen ≤ r.size) :
    ∀ file ∈ d.raw.entries.map Prod.snd ++ d.active.entries.map Prod.snd,
      ∃ header, readV6Header file.data = .ok header ∧ header.storageNamespaceId = ns ∧ ns.length = 16 := by
  have hlength : ∀ {g : Segment} {id lsn : Nat}, g.Valid env ns id lsn → ns.length = 16 := fun hg =>
    hg.namespaceId ▸ hg.raw.wide.storageNamespaceId
  intro file hfile
  rcases List.mem_append.1 hfile with hfile | hfile
  · obtain ⟨e, he, rfl⟩ := List.mem_map.1 hfile
    have hj := List.getElem?_eq_getElem (h.raw_lt e he)
    obtain ⟨f, hf, hdata, -⟩ := h.rawFile hj
    have hget := SortedMap.get?_eq_some.2 (show (e.1, e.2) ∈ d.raw.entries from he)
    rw [hget] at hf
    cases hf
    have hvalid := (h.chain.getElem? hj).1
    exact ⟨_, by rw [hdata]; exact hvalid.readHeader_bytes, hvalid.namespaceId, hlength hvalid⟩
  · cases rest with
    | none =>
      rw [show d.active.entries = [] from h.active] at hfile
      cases hfile
    | some r =>
      have hon : r.On env ns segs d := h.active
      obtain ⟨f, hentries, hdata, -⟩ := hon.file
      rw [hentries] at hfile
      cases List.mem_singleton.1 hfile
      refine ⟨_, ?_, hon.valid.namespaceId, hlength hon.valid⟩
      show readV6Header f.data = _
      rw [hdata]
      exact hon.valid.readHeader (hheader r rfl)

/-- The manifest that opening begins with. -/
theorem Wreck.wp_bootManifest (h : Wreck env ns segs k rest s.disk) (hheader : ∀ r ∈ rest, fileHeaderLen ≤ r.size)
    (seed : Bytes) :
    (bootManifest env seed s.disk.load).wp ⟨fun m s' => s' = s ∧ ∃ ns', Wreck env ns' segs k rest s.disk ∧
        Catalogued env s.disk ns' (segs.take k) m ∧ m.segmentsV2 = s.disk.descriptors,
      fun _ _ => False, fun _ _ _ => True, fun _ => True⟩ s := by
  rcases h.loaded with ⟨hload, hnil⟩ | ⟨m, hload, hcatalogued⟩
  · have hfound : discoverNamespace s.disk = .ok _ := sameNamespace_eq (fun file hfile => by
      obtain ⟨header, hheader, hns, -⟩ := h.headers hheader file hfile
      exact ⟨header, hheader, hns⟩) nofun
    rw [hload]
    refine Prog.wp_look_ok hfound (fun _ => trivial) trivial (Prog.wp_pure ⟨rfl, ?_⟩)
    have hdescriptors : s.disk.descriptors = [] := by
      rw [Disk.descriptors, hload]
      rfl
    rw [hdescriptors, hnil]
    by_cases hfiles : s.disk.raw.entries.map Prod.snd ++ s.disk.active.entries.map Prod.snd = []
    · -- nothing is there: the namespace is a new one
      rw [if_pos hfiles]
      obtain ⟨hraw, hactive⟩ := List.append_eq_nil_iff.1 hfiles
      have hsegs : segs = [] := by
        have hids := h.map_fst_raw
        rw [List.map_eq_nil_iff.1 hraw] at hids
        exact List.length_eq_zero_iff.1 (List.range_eq_nil.1 hids.symm)
      have hrest : rest = none := by
        cases rest with
        | none => rfl
        | some r =>
          obtain ⟨f, hentries, -⟩ := Rest.On.file h.active
          rw [hentries] at hactive
          cases hactive
      have hlength : (newNamespace env seed).length = 16 := by
        rw [newNamespace, List.length_take, (env.blake3 _).2]
        rfl
      subst hsegs hrest
      refine ⟨newNamespace env seed, ⟨trivial, h.raw, h.names, .inl ⟨hload, List.take_nil⟩, h.active⟩,
        catalogued_empty _ hlength, rfl⟩
    · rw [if_neg hfiles]
      obtain ⟨file, hfile⟩ := List.exists_mem_of_ne_nil _ hfiles
      obtain ⟨-, -, -, hlength⟩ := h.headers hheader file hfile
      exact ⟨ns, h, catalogued_empty _ hlength, rfl⟩
  · rw [hload]
    refine Prog.wp_pure ⟨rfl, ns, h, hcatalogued, ?_⟩
    rw [Disk.descriptors, hload]
    rfl

/-! ## The sealed segments -/

/-- **Every sealed segment is registered**, those that the manifest knows apart. -/
theorem wp_reconcileAll : ∀ {n j : Nat} {s : State}, Wreck env ns segs k rest s.disk → j + n = segs.length →
    Catalogued env s.disk ns (segs.take (max k j)) s.manifest →
    (reconcileAll env (List.range' j n)).wp ⟨fun changed s' => changed = !(segs.drop (max k j)).isEmpty ∧
        Catalogued env s.disk ns segs s'.manifest ∧ s' = { s with manifest := s'.manifest } ∧
        s'.manifest.segmentsV2 = s.manifest.segmentsV2 ++ (segs.drop (max k j)).map (rawDescriptor env),
      fun _ _ => False, fun _ _ _ => True, fun _ => True⟩ s
  | 0, j, s, _, hj, hcatalogued => by
    have hle : segs.length ≤ max k j := by omega
    rw [List.take_of_length_le hle] at hcatalogued
    refine Prog.wp_pure ⟨?_, hcatalogued, rfl, ?_⟩
    · rw [List.drop_eq_nil_of_le hle]
      rfl
    · rw [List.drop_eq_nil_of_le hle, List.map_nil, List.append_nil]
  | n + 1, j, s, hwreck, hj, hcatalogued => by
    have hlt : j < segs.length := by omega
    have hget := List.getElem?_eq_getElem hlt
    refine Prog.wp_bind ((wp_reconcileRaw hwreck hget hcatalogued (Nat.le_max_right _ _)).mono ?_ (fun _ _ hf => hf)
      (fun _ _ _ _ => trivial) (fun _ _ => trivial))
    rintro changed t ⟨rfl, hcatalogued', ht⟩
    have hdisk : t.disk = s.disk := by
      rw [ht]
      split <;> rfl
    have hrest : t = { s with manifest := t.manifest } := by
      rw [ht]
      split <;> rfl
    have hmax : max (max k j) (j + 1) = max k (j + 1) := by omega
    rw [hmax, ← hdisk] at hcatalogued'
    refine Prog.wp_bind ((wp_reconcileAll (hdisk ▸ hwreck) (by omega) hcatalogued').mono ?_ (fun _ _ hf => hf)
      (fun _ _ _ _ => trivial) (fun _ _ => trivial))
    rintro others u ⟨rfl, hcatalogued'', hu, hsegments⟩
    rw [hdisk] at hcatalogued''
    have hrest' : u = { s with manifest := u.manifest } := by
      rw [hrest] at hu
      exact hu
    by_cases hj' : max k j = j
    · -- the segment was new
      have hnext : max k (j + 1) = j + 1 := by omega
      rw [if_pos hj'] at ht
      rw [hnext] at hsegments
      refine Prog.wp_pure ⟨?_, hcatalogued'', hrest', ?_⟩
      · rw [hj', List.drop_eq_getElem_cons hlt, decide_eq_true rfl]
        rfl
      · rw [hsegments, ht, hj', List.drop_eq_getElem_cons hlt, List.map_cons]
        exact List.append_assoc _ _ _
    · have hnext : max k (j + 1) = max k j := by omega
      rw [if_neg hj'] at ht
      rw [hnext, ht] at hsegments
      refine Prog.wp_pure ⟨?_, hcatalogued'', hrest', hsegments⟩
      rw [decide_eq_false hj', Bool.false_or, hnext]

/-! ## A complete active file -/

/-- What opening has found and registered; `descs` is what the manifest listed that it began with. -/
structure Reconciled (env : Env) (ns : Bytes) (segs : List Segment) (k : Nat) (rest : Option Rest) (descs : List SegmentDescriptorV2)
    (changed : Bool) (s : State) : Prop where
  wreck : Wreck env ns segs k rest s.disk
  catalogue : Catalogued env s.disk ns segs s.manifest
  descriptors : s.disk.descriptors = descs
  changed : changed = !(segs.drop k).isEmpty
  segments : s.manifest.segmentsV2 = descs ++ (segs.drop k).map (rawDescriptor env)

/-- The active file that opening goes on with. -/
def Rest.tail (segs : List Segment) (rest : Option Rest) : Option Nat := rest.map (fun _ => segs.length)

/-- **A complete active file gets its final name**, and is registered. -/
theorem Reconciled.wp_promote {descs : List SegmentDescriptorV2} {changed : Bool} {r : Rest}
    (h : Reconciled env ns segs k (some r) descs changed s) (hk : k ≤ segs.length)
    (hfull : r.size = (r.segment.bytes env).length) : (promote env segs.length).wp
      ⟨fun found s' => found.1 = none ∧ Reconciled env ns (segs ++ [r.segment]) k none descs (changed || found.2) s',
        fun _ _ => False, fun _ _ _ => True, fun _ => True⟩ s := by
  have hon : r.On env ns segs s.disk := h.wreck.active
  obtain ⟨f, hentries, hdata, -⟩ := hon.file
  have hdata : f.data = r.segment.bytes env := by rw [hdata, hfull, List.take_length]
  have hne := hon.complete hfull
  have hlook : ∀ {α : Type} (read : File → Except HeraclitusError α), (s.disk.activeFile segs.length >>= read) = read f :=
    fun read => by
      rw [activeFile_eq hentries]
      rfl
  unfold promote
  refine Prog.wp_look_ok ((hlook _).trans (by rw [hdata]; exact hon.valid.readHeader_bytes)) (fun _ => trivial) trivial ?_
  refine Prog.wp_get_bind (Prog.wp_ofExcept_ok (by rw [h.catalogue.namespaceId]; exact hon.valid.checkHeaderIdentity) ?_)
  refine Prog.wp_look_ok ((hlook _).trans (by rw [hdata, hon.valid.readFooter hne])) (fun _ => trivial) trivial ?_
  rw [if_neg (ne_of_eq_of_ne Option.isNone_some Bool.false_ne_true), if_neg (by rw [h.wreck.raw_contains (Nat.le_refl _)]; exact Bool.false_ne_true)]
  refine Prog.wp_step_bind (fun _ => trivial) trivial ?_
  have hrenamed := h.wreck.rename hk hfull
  have hcatalogue : Catalogued env (s.disk.rename segs.length) ns ((segs ++ [r.segment]).take segs.length) s.manifest := by
    rw [List.take_left]
    exact h.catalogue.mono h.wreck.extends_rename
  refine Prog.wp_bind ((wp_reconcileRaw (s := s.mapDisk (·.rename segs.length)) hrenamed (List.getElem?_concat_length ..)
    hcatalogue (Nat.le_refl _)).mono ?_ (fun _ _ hf => hf) (fun _ _ _ _ => trivial) (fun _ _ => trivial))
  rintro found t ⟨rfl, hcatalogued, rfl⟩
  rw [if_pos rfl] at hcatalogued ⊢
  have hlength : (segs ++ [r.segment]).length = segs.length + 1 := by rw [List.length_append, List.length_singleton]
  rw [Nat.max_eq_right (Nat.le_succ _), List.take_of_length_le (Nat.le_of_eq hlength)] at hcatalogued
  have hdrop : (segs ++ [r.segment]).drop k = segs.drop k ++ [r.segment] := List.drop_append_of_le_length hk
  refine Prog.wp_pure ⟨rfl, hrenamed, hcatalogued, h.descriptors, ?_, ?_⟩
  · rw [hdrop, decide_eq_true rfl, Bool.or_true]
    simp
  · rw [hdrop, List.map_append, List.map_singleton, ← List.append_assoc, ← h.segments]
    rfl

/-- An incomplete one keeps its name. -/
theorem Reconciled.wp_promote_resumable {descs : List SegmentDescriptorV2} {changed : Bool} {r : Rest}
    (h : Reconciled env ns segs k (some r) descs changed s) (hr : r.Resumable env) : (promote env segs.length).wp
      ⟨fun found s' => found = (some segs.length, false) ∧ s' = s, fun _ _ => False, fun _ _ _ => True, fun _ => True⟩ s := by
  have hon : r.On env ns segs s.disk := h.wreck.active
  obtain ⟨f, hentries, hdata, -⟩ := hon.file
  have hlook : ∀ {α : Type} (read : File → Except HeraclitusError α), (s.disk.activeFile segs.length >>= read) = read f :=
    fun read => by
      rw [activeFile_eq hentries]
      rfl
  unfold promote
  refine Prog.wp_look_ok ((hlook _).trans (by rw [hdata]; exact hon.valid.readHeader hr.header)) (fun _ => trivial) trivial ?_
  refine Prog.wp_get_bind (Prog.wp_ofExcept_ok (by rw [h.catalogue.namespaceId]; exact hon.valid.checkHeaderIdentity) ?_)
  refine Prog.wp_look_ok ((hlook _).trans (by rw [hdata, readFooter_eq_none hr.unmarked])) (fun _ => trivial) trivial ?_
  rw [if_pos Option.isNone_none]
  exact Prog.wp_pure ⟨rfl, rfl⟩

/-! ## Opening -/

/-- What was registered is committed. -/
theorem Reconciled.wp_commitIf {descs : List SegmentDescriptorV2} {changed : Bool}
    (h : Reconciled env ns segs k rest descs changed s)
    (hfits : changed = true → encodeManifest s.manifest = .ok ()) (hk : k ≤ segs.length) : (commitIf changed).wp
      ⟨fun _ s' => Mended env ns segs rest s', fun _ _ => False, fun _ _ _ => True, fun _ => True⟩ s := by
  unfold commitIf
  cases changed with
  | false =>
    have hnil : segs.drop k = [] := by
      have hempty := h.changed
      rwa [eq_comm, Bool.not_eq_false', List.isEmpty_iff] at hempty
    have hlength : k = segs.length := Nat.le_antisymm hk (List.drop_eq_nil_iff.1 hnil)
    have hsegments := h.segments
    rw [hnil, List.map_nil, List.append_nil] at hsegments
    exact Prog.wp_pure ⟨hlength ▸ h.wreck, h.catalogue, h.descriptors.trans hsegments.symm⟩
  | true =>
    refine (wp_commit s).mono ?_ ?_ (fun _ _ _ _ => trivial) (fun _ _ => trivial)
    · rintro - s' ⟨rfl, -⟩
      have hstamped : Catalogued env s.disk ns segs s.stamped.manifest := h.catalogue.congr rfl rfl rfl
      have hload : s.committed.disk.load = some s.stamped.manifest :=
        load_current (hstamped.decodable h.wreck.chain) s.disk.manifests s.disk.nextGeneration
      have hcatalogue : Catalogued env s.committed.disk ns segs s.stamped.manifest :=
        hstamped.mono (Disk.extends_of_eq rfl rfl)
      refine ⟨⟨h.wreck.chain, h.wreck.raw, h.wreck.names, ?_, ?_⟩, hcatalogue, ?_⟩
      · rw [List.take_length]
        exact .inr ⟨_, hload, hcatalogue⟩
      · cases rest with
        | none => exact h.wreck.active
        | some r => exact ⟨h.wreck.active.valid, h.wreck.active.file, h.wreck.active.size_le, h.wreck.active.complete⟩
      · rw [InSync, Disk.descriptors, hload]
        rfl
    · rintro e s' ⟨-, hencode⟩
      cases (hfits rfl).symm.trans hencode

/-- The records that opening finds behind the sealed segments. -/
def keptRecords (rest : Option Rest) : List RawRecord := rest.elim [] (fun r => r.kept.records)

/-- What no crash takes is kept. -/
theorem Rest.On.safe_kept {r : Rest} (h : r.On env ns segs d) {synced : Nat} (hsafe : Safe synced segs (some r)) :
    Safe synced segs (some ⟨r.kept, min r.low r.kept.bodyLen, r.kept.bodyLen⟩) := by
  rcases hsafe with hle | ⟨hle, hlow⟩
  · exact .inl hle
  · obtain ⟨f, -, -, hdurable, hsize⟩ := h.file
    have hwhole := Segment.le_whole hle (Nat.le_trans hlow (Nat.le_trans hdurable hsize))
    have htake : r.kept.records.take (synced - (recordsOf segs).length)
        = r.segment.records.take (synced - (recordsOf segs).length) := by
      show (r.segment.records.take _).take _ = _
      rw [List.take_take, Nat.min_eq_left hwhole]
    refine .inr ⟨?_, ?_⟩
    · show _ ≤ (r.segment.records.take _).length
      rw [List.length_take]
      exact Nat.le_min.2 ⟨hwhole, hle⟩
    · show fileHeaderLen + sizes (r.kept.records.take _) ≤ min r.low r.kept.bodyLen
      refine Nat.le_min.2 ⟨by rw [htake]; exact hlow, Nat.add_le_add_left ?_ _⟩
      conv => rhs; rw [← List.take_length (l := r.kept.records)]
      by_cases hn : synced - (recordsOf segs).length ≤ r.kept.records.length
      · exact sizes_take_le hn
      · rw [List.take_length, List.take_of_length_le (Nat.le_of_not_le hn)]

/-- **What opening ends with**: an active segment. -/
theorem Mended.wp_activate (h : Mended env ns segs rest s) (hr : ∀ r ∈ rest, r.Resumable env)
    (hbound : (recordsOf segs).length < 2 ^ 64) {synced : Nat} (hsafe : Safe synced segs rest) :
    (activate env (Rest.tail segs rest)).wp
      ⟨fun _ s' => Alive env ns (recordsOf segs ++ keptRecords rest) synced True s', fun _ _ => False, fun _ _ _ => True,
        fun _ => True⟩ s := by
  unfold activate
  refine Prog.wp_get_bind (Prog.wp_ofExcept_ok (h.catalogue.nextLsn h.wreck.chain) (Prog.wp_modify_bind ?_))
  cases rest with
  | none =>
    have hid : nextSegmentId s.manifest = segs.length := h.catalogue.nextSegmentId h.wreck.chain h.wreck.chain.length_lt
    dsimp only [Rest.tail, Option.map_none]
    rw [hid]
    refine (wp_create (t := { s with nextLsn := (recordsOf segs).length }) h.wreck h.catalogue rfl hbound hsafe True).mono ?_
      (fun _ _ hf => hf) (fun _ _ _ _ => trivial) (fun _ _ => trivial)
    rintro - s' ⟨g, hg, hsteady, hdescriptors, hmanifest⟩
    refine ⟨segs, g, 0, hsteady, by rw [hg]; rfl, .inl hsafe, fun _ => ?_⟩
    rw [InSync, hdescriptors, hmanifest]
    exact h.sync
  | some r =>
    have hmended : Mended env ns segs (some r) { s with nextLsn := (recordsOf segs).length } :=
      ⟨h.wreck, h.catalogue, h.sync⟩
    refine (hmended.wp_resumeActive (hr r rfl) rfl).mono ?_ (fun _ _ hf => hf) (fun _ _ _ _ => trivial) (fun _ _ => trivial)
    rintro - s' ⟨hsteady, hsync⟩
    have hon : r.On env ns segs s.disk := h.wreck.active
    exact ⟨segs, r.kept, _, hsteady, rfl, hon.safe_kept hsafe, fun _ => hsync⟩

/-- The records that are found again. -/
def recovered (env : Env) (segs : List Segment) (rest : Option Rest) : List RawRecord :=
  recordsOf segs ++ rest.elim [] (fun r => if r.complete env then r.segment.records else r.kept.records)

theorem recovered_prefix (env : Env) (segs : List Segment) (rest : Option Rest) :
    recovered env segs rest <+: recordsOf segs ++ restRecords rest := by
  refine (List.prefix_append_right_inj _).2 ?_
  cases rest with
  | none => exact List.prefix_rfl
  | some r =>
    show (if r.complete env then r.segment.records else r.kept.records) <+: r.segment.records
    split
    · exact List.prefix_rfl
    · exact List.take_prefix _ _

/-- A manifest fits by its segments. -/
theorem encodeManifest_congr {m m' : DatabaseManifest} (h : m.segmentsV2 = m'.segmentsV2) :
    encodeManifest m = encodeManifest m' := by
  unfold encodeManifest
  rw [h]

theorem Chain.records_lt (h : Chain env ns 0 0 segs) : (recordsOf segs).length < 2 ^ 64 := by
  rcases List.eq_nil_or_concat segs with rfl | ⟨segs', g, rfl⟩
  · decide
  · rw [List.concat_eq_append] at h ⊢
    have hbound := (h.getElem? (List.getElem?_concat_length ..)).1.bound
    rwa [List.take_left, ← List.length_append, ← recordsOf_concat] at hbound

/-- The active file, after the sealed segments are registered. -/
theorem Reconciled.wp_promoteAny {descs : List SegmentDescriptorV2} {changed : Bool} {synced : Nat}
    (h : Reconciled env ns segs k rest descs changed s) (hread : s.disk.readable = true) (hk : k ≤ segs.length)
    (hsafe : Safe synced segs rest) : (promoteAny env (s.disk.active.entries.head?.map Prod.fst)).wp
      ⟨fun found s' => ∃ segs' rest', found.1 = Rest.tail segs' rest' ∧ k ≤ segs'.length ∧
          Reconciled env ns segs' k rest' descs (changed || found.2) s' ∧ (∀ r ∈ rest', r.Resumable env) ∧
          recordsOf segs' ++ keptRecords rest' = recovered env segs rest ∧ Safe synced segs' rest' ∧
          segs'.drop k = uncatalogued env segs k rest,
        fun _ _ => False, fun _ _ _ => True, fun _ => True⟩ s := by
  cases rest with
  | none =>
    rw [show s.disk.active.entries = [] from h.wreck.active]
    refine Prog.wp_pure ⟨segs, none, rfl, hk, ?_, (fun q hq => absurd hq (Option.not_mem_none q)), rfl, hsafe, (List.append_nil _).symm⟩
    rw [Bool.or_false]
    exact h
  | some r =>
    have hon : r.On env ns segs s.disk := h.wreck.active
    obtain ⟨f, hentries, -⟩ := hon.file
    rw [hentries]
    rcases (hon.resumable hread).2 with hfull | hr
    · have hcomplete : r.complete env = true := beq_iff_eq.2 hfull
      refine (h.wp_promote hk hfull).mono ?_ (fun _ _ hf => hf) (fun _ _ _ _ => trivial) (fun _ _ => trivial)
      rintro found s' ⟨hfound, hreconciled⟩
      refine ⟨segs ++ [r.segment], none, hfound, ?_, hreconciled, (fun q hq => absurd hq (Option.not_mem_none q)), ?_, ?_, ?_⟩
      · rw [List.length_append]
        exact Nat.le_add_right_of_le hk
      · rw [recovered, recordsOf_concat, Option.elim_some, if_pos hcomplete]
        exact List.append_nil _
      · have hle := hsafe.le
        rwa [show restRecords (some r) = r.segment.records from rfl, ← recordsOf_concat] at hle
      · rw [uncatalogued, Option.filter_some, if_pos hcomplete, List.drop_append_of_le_length hk]
        rfl
    · have hcomplete : r.complete env = false := beq_false_of_ne (Nat.ne_of_lt hr.incomplete)
      refine (h.wp_promote_resumable hr).mono ?_ (fun _ _ hf => hf) (fun _ _ _ _ => trivial) (fun _ _ => trivial)
      rintro found s' ⟨rfl, rfl⟩
      refine ⟨segs, some r, rfl, hk, ?_, fun q hq => by cases hq; exact hr, ?_, hsafe, ?_⟩
      · rw [Bool.or_false]
        exact h
      · rw [recovered, Option.elim_some, hcomplete, if_neg Bool.false_ne_true]
        rfl
      · rw [uncatalogued, Option.filter_some, hcomplete]
        exact (List.append_nil _).symm

theorem Leaves.normal {hist : List RawRecord} {synced : Nat} {fits : Prop} (h : Leaves env ns hist synced fits d segs k rest) :
    ∃ k', k' ≤ segs.length ∧ Leaves env ns hist synced fits d segs k' rest := by
  by_cases hk : k ≤ segs.length
  · exact ⟨k, hk, h⟩
  · have hlt : segs.length ≤ k := Nat.le_of_not_le hk
    refine ⟨segs.length, Nat.le_refl _, ⟨h.wreck.chain, h.wreck.raw, h.wreck.names, ?_, h.wreck.active⟩, h.hist, h.safe,
      fun hf => ?_⟩
    · have hloaded := h.wreck.loaded
      rwa [List.take_of_length_le hlt, ← List.take_length (l := segs)] at hloaded
    · have hfitting := h.fitting hf
      unfold Fitting uncatalogued at hfitting ⊢
      rw [List.drop_eq_nil_of_le hlt] at hfitting
      rw [List.drop_length]
      exact hfitting

/-- **How opening begins**: what is sealed is registered.  What comes of it is left to the rest. -/
theorem Leaves.wp_openLog_of {hist : List RawRecord} {synced : Nat} {fits : Prop} {R : Post Site State HeraclitusError Unit}
    (h : Leaves env ns hist synced fits s.disk segs k rest) (hheader : ∀ r ∈ rest, fileHeaderLen ≤ r.size)
    (hmax : 0 < env.segmentMaxBytes) (seed : Bytes) (hfailed : ∀ k part s, R.failed k part s) (hdied : ∀ s, R.died s)
    (hrest : ∀ ns' changed (t : State), t.disk = s.disk → Reconciled env ns' segs k rest s.disk.descriptors changed t →
      (do
        let (tail, promoted) ← promoteAny env (t.disk.active.entries.head?.map Prod.fst)
        commitIf (changed || promoted)
        activate env tail : Engine Unit).wp R t) : (openLog env seed).wp R s := by
  have hactive : ¬1 < s.disk.active.entries.length := by
    cases rest with
    | none =>
      rw [show s.disk.active.entries = [] from h.wreck.active]
      exact Nat.not_lt_zero _
    | some r =>
      obtain ⟨f, hentries, -⟩ := Rest.On.file h.wreck.active
      rw [hentries]
      exact Nat.lt_irrefl _
  unfold openLog
  rw [if_neg (Nat.pos_iff_ne_zero.1 hmax)]
  refine Prog.wp_look_ok rfl (fun _ => hfailed _ _ _) (hdied _) ?_
  refine Prog.wp_look_ok h.wreck.discover_ok (fun _ => hfailed _ _ _) (hdied _) (Prog.wp_get_bind ?_)
  rw [if_neg hactive]
  refine Prog.wp_bind ((h.wreck.wp_bootManifest hheader seed).mono ?_ (fun _ _ hf => hf.elim) (fun _ _ _ _ => hfailed _ _ _)
    (fun _ _ => hdied _))
  rintro m t ⟨rfl, ns', hwreck, hcatalogued, hdescriptors⟩
  refine Prog.wp_modify_bind ?_
  rw [hwreck.map_fst_raw, List.range_eq_range']
  have hreconcile := wp_reconcileAll (s := { t with clock := .new, manifest := m, active := none, nextLsn := 0 }) hwreck
    (Nat.zero_add segs.length) (by rw [Nat.max_zero]; exact hcatalogued)
  rw [Nat.max_zero] at hreconcile
  refine Prog.wp_bind (hreconcile.mono ?_ (fun _ _ hf => hf.elim) (fun _ _ _ _ => hfailed _ _ _) (fun _ _ => hdied _))
  rintro changed u ⟨hchanged, hcatalogue, hu, hsegments⟩
  have hdisk : u.disk = t.disk := by rw [hu]
  have hreconciled : Reconciled env ns' segs k rest t.disk.descriptors changed u :=
    ⟨hdisk ▸ hwreck, by rw [hdisk]; exact hcatalogue, by rw [hdisk], hchanged, hdescriptors ▸ hsegments⟩
  refine Prog.wp_get_bind (Prog.wp_ofExcept_ok (hreconciled.catalogue.validateManifestRanges hwreck.chain) ?_)
  refine Prog.wp_look_ok hreconciled.catalogue.validateGenerations (fun _ => hfailed _ _ _) (hdied _) ?_
  exact hrest ns' changed u hdisk hreconciled

/-- **Opening what a process has left** gives a log that works and holds what was recovered. -/
theorem Leaves.wp_openLog {hist : List RawRecord} {synced : Nat} {fits : Prop}
    (h : Leaves env ns hist synced fits s.disk segs k rest) (hfits : fits) (hread : s.disk.readable = true)
    (hmax : 0 < env.segmentMaxBytes) (seed : Bytes) : (openLog env seed).wp
      ⟨fun _ s' => ∃ ns', Alive env ns' (recovered env segs rest) synced True s', fun _ _ => False, fun _ _ _ => True,
        fun _ => True⟩ s := by
  obtain ⟨k, hk, h⟩ := h.normal
  have hheader : ∀ r ∈ rest, fileHeaderLen ≤ r.size := fun r hr => by
    have hactive := h.wreck.active
    rw [Option.mem_def.1 hr] at hactive
    exact (Rest.On.resumable hactive hread).1
  refine h.wp_openLog_of hheader hmax seed (fun _ _ _ => trivial) (fun _ => trivial) (fun ns' changed u hdisk hreconciled => ?_)
  refine Prog.wp_bind ((hreconciled.wp_promoteAny (by rw [hdisk]; exact hread) hk h.safe).mono ?_ (fun _ _ hf => hf)
    (fun _ _ _ _ => trivial) (fun _ _ => trivial))
  rintro ⟨tail, promoted⟩ v ⟨segs', rest', rfl, hk', hreconciled', hresumable, hrecovered, hsafe, hdrop⟩
  have hencode : (changed || promoted) = true → encodeManifest v.manifest = .ok () := fun hchanged' => by
    have hne : uncatalogued env segs k rest ≠ [] := by
      have heq := hreconciled'.changed
      rw [hchanged', hdrop] at heq
      intro hnil
      rw [hnil] at heq
      cases heq
    rw [← h.fitting hfits hne]
    refine encodeManifest_congr ?_
    rw [hreconciled'.segments, hdrop]
  refine Prog.wp_bind ((hreconciled'.wp_commitIf hencode hk').mono ?_ (fun _ _ hf => hf) (fun _ _ _ _ => trivial)
    (fun _ _ => trivial))
  intro _ w hmended
  refine (hmended.wp_activate hresumable hmended.wreck.chain.records_lt hsafe).mono ?_ (fun _ _ hf => hf)
    (fun _ _ _ _ => trivial) (fun _ _ => trivial)
  intro _ x halive
  exact ⟨ns', hrecovered ▸ halive⟩

end V6
end Heraclitus
