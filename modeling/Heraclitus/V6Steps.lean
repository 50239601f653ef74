import Heraclitus.V6Disk
/-!
# V6Steps — what the parts of the calls do

One lemma for each part: where it ends, and where it may stop when a step goes wrong.
-/
namespace Heraclitus
namespace V6

/-! ## Committing a manifest -/

/-- The manifest gets the next generation number. -/
def State.stamped (s : State) : State :=
  { s with manifest := { s.manifest with manifestGeneration := s.disk.nextGeneration, formatIdentifier := hrkmMagic } }

/-- The manifest is on the disk. -/
def State.written (s : State) : State :=
  s.stamped.mapDisk (fun d => { d with manifests := d.manifests.insert s.disk.nextGeneration s.stamped.manifest })

/-- `CURRENT` names it. -/
def State.committed (s : State) : State := s.written.mapDisk (fun d => { d with current := some s.disk.nextGeneration })

/-- Where a commit may stop. -/
inductive Committing (s : State) : State → Prop
  | start : Committing s s
  | stamped : Committing s s.stamped
  | written : Committing s s.written
  | committed : Committing s s.committed

/-- **A commit** is refused only for the size of the manifest. -/
theorem wp_commit (s : State) : commit.wp ⟨fun _ s' => s' = s.committed ∧ encodeManifest s.manifest = .ok (),
    fun e s' => s' = s.stamped ∧ encodeManifest s.manifest = .error e,
    fun k _ s' => k = .commit ∧ Committing s s', Committing s⟩ s := by
  unfold commit
  refine Prog.wp_look_ok rfl (fun _ => ⟨rfl, .start⟩) .start (Prog.wp_modify_bind (Prog.wp_get_bind ?_))
  have hfresh : s.disk.manifests.contains s.disk.nextGeneration = false := by
    rw [SortedMap.contains, get?_nextGeneration]
    rfl
  rw [if_neg (by rw [hfresh]; exact Bool.false_ne_true)]
  refine Prog.wp_ofExcept_bind (fun _ hencode => ?_) (fun e hencode => ⟨rfl, hencode⟩)
  refine Prog.wp_step_bind (fun _ => ⟨rfl, .stamped⟩) .stamped (Prog.wp_step_bind (fun _ => ⟨rfl, .stamped⟩) .stamped ?_)
  refine Prog.wp_step_bind (fun _ => ⟨rfl, .written⟩) .written (Prog.wp_step_bind (fun _ => ⟨rfl, .written⟩) .written ?_)
  refine Prog.wp_step_bind (fun _ => ⟨rfl, .written⟩) .written ?_
  exact Prog.wp_step ⟨rfl, hencode⟩ (fun _ => ⟨rfl, .committed⟩) .committed

/-! ## A new active file -/

variable (env : Env)

/-- The clock was read. -/
def State.ticked (s : State) : State :=
  { s with clock := (s.clock.now (env.wall s.ticks)).2, ticks := s.ticks + 1 }

/-- The header of the next active file. -/
def State.nextHeader (s : State) (id : Nat) : FileHeaderV6 := SegmentInit.header {
  segmentId := id, createdHlc := (s.clock.now (env.wall s.ticks)).1, firstLsn := s.nextLsn
  writerEpoch := satAdd64 s.manifest.manifestGeneration 1, storageNamespaceId := s.manifest.storageNamespaceId }

/-- The active file is there, with a part of its header. -/
def State.creating (s : State) (id part : Nat) : State := (s.ticked env).mapDisk (fun d =>
  { d with active := d.active.insert id { data := (s.nextHeader env id).encode.take part, durable := 0 } })

/-- It has its writer. -/
def State.created (s : State) (id : Nat) : State := { (s.ticked env).mapDisk (fun d =>
  { d with active := d.active.insert id { data := (s.nextHeader env id).encode, durable := 0 } }) with
    active := some { id := id, writer := .fresh (s.nextHeader env id) } }

theorem alter_insert {β : Type} (m : SortedMap Nat β) (k : Nat) (v : β) (change : β → β) :
    (m.insert k v).alter k (·.map change) = m.insert k (change v) := by
  ext j
  rw [SortedMap.get?_alter, SortedMap.get?_insert, SortedMap.get?_insert, SortedMap.get?_insert]
  split <;> simp

/-- Where the creation of an active file may stop. -/
inductive Creating (s : State) (id : Nat) : State → Prop
  | start : Creating s id (s.ticked env)
  | file (part : Nat) : Creating s id (s.creating env id part)

/-- **The active file is created**: it appears empty, then its header is written. -/
theorem wp_createActive {s : State} {id : Nat} (h : s.disk.active.contains id = false) :
    (createActive env id).wp ⟨fun _ s' => s' = s.created env id, fun _ _ => False,
      fun k _ s' => k = .create ∧ Creating env s id s', Creating env s id⟩ s := by
  unfold createActive
  refine Prog.wp_get_bind ?_
  rw [if_neg (by rw [h]; exact Bool.false_ne_true)]
  refine Prog.wp_eval_bind rfl (Prog.wp_step_bind (fun _ => ⟨rfl, .start⟩) .start ?_)
  have happend : ∀ bytes : Bytes, State.mapDisk (·.modifyActive id (.append bytes))
      (State.mapDisk (fun d => { d with active := d.active.insert id { data := [], durable := 0 } }) (s.ticked env))
      = (s.ticked env).mapDisk (fun d => { d with active := d.active.insert id { data := bytes, durable := 0 } }) := by
    intro bytes
    have heq := alter_insert s.disk.active id { data := [], durable := 0 } (File.append bytes)
    show State.mapDisk (fun d => { d with active := (d.active.insert id _).alter id _ }) (s.ticked env) = _
    unfold State.mapDisk
    rw [State.mk.injEq]
    refine ⟨?_, rfl, rfl, rfl, rfl, rfl⟩
    exact congrArg (fun m => { s.disk with active := m }) heq
  have htorn : ∀ part, Creating env s id (State.mapDisk (·.modifyActive id (.append ((s.nextHeader env id).encode.take part)))
      (State.mapDisk (fun d => { d with active := d.active.insert id { data := [], durable := 0 } }) (s.ticked env))) := by
    intro part
    rw [happend]
    exact .file part
  refine Prog.wp_write_bind (fun part => ⟨rfl, htorn part⟩) htorn (Prog.wp_modify ?_)
  have hdone := happend (s.nextHeader env id).encode
  exact congrArg (fun t : State => { t with active := some { id := id, writer := .fresh (s.nextHeader env id) } }) hdone

/-! ## Reconciling a RAW file -/

variable {env} {ns : Bytes} {segs : List Segment} {k : Nat} {rest : Option Rest}

variable (env) in
/-- The segment is in the catalogue. -/
def State.registered (g : Segment) (s : State) : State := { s with manifest := { s.manifest with
  segmentsV2 := s.manifest.segmentsV2 ++ [rawDescriptor env g]
  cumulativeWatermark := max s.manifest.cumulativeWatermark (g.footer env).maxLsn } }

/-- **A sealed file is found in the catalogue, or enters it.** -/
theorem wp_reconcileRaw {s : State} (h : Wreck env ns segs k rest s.disk) {i j : Nat} {g : Segment} (hj : segs[j]? = some g)
    (hcatalogued : Catalogued env s.disk ns (segs.take i) s.manifest) (hi : j ≤ i) :
    (reconcileRaw env j).wp ⟨fun changed s' => changed = decide (i = j) ∧
        Catalogued env s.disk ns (segs.take (max i (j + 1))) s'.manifest ∧ s' = if i = j then s.registered env g else s,
      fun _ _ => False, fun k _ s' => k = .reconcile ∧ s' = s, fun s' => s' = s⟩ s := by
  obtain ⟨hvalid, hne⟩ := h.chain.getElem? hj
  obtain ⟨f, -, hdata, hfile, hat⟩ := h.rawFile hj
  have hlook : ∀ {α : Type} (read : File → Except HeraclitusError α), (s.disk.rawFile j >>= read) = read f := by
    intro α read
    rw [hfile]
    rfl
  unfold reconcileRaw
  refine Prog.wp_look_ok ((hlook _).trans (by rw [hdata]; exact hvalid.scan hne)) (fun _ => ⟨rfl, rfl⟩) rfl ?_
  refine Prog.wp_get_bind (Prog.wp_ofExcept_ok (by rw [hcatalogued.namespaceId]; exact hvalid.checkHeaderIdentity) ?_)
  dsimp only
  rw [if_neg (by decide)]
  refine Prog.wp_look_ok ((hlook _).trans (by rw [hdata]; exact hvalid.verify hne)) (fun _ => ⟨rfl, rfl⟩) rfl ?_
  rw [if_neg (by decide)]
  refine Prog.wp_look_ok (hlook _) (fun _ => ⟨rfl, rfl⟩) rfl (Prog.wp_look_ok (hlook _) (fun _ => ⟨rfl, rfl⟩) rfl ?_)
  have hlt : j < segs.length := (List.getElem?_eq_some_iff.1 hj).1
  rw [hdata]
  by_cases hij : i = j
  · -- the segment is new
    subst hij
    have hlength : (segs.take i).length = i := by
      rw [List.length_take]
      omega
    have hnone := hcatalogued.segment_none (h.chain.take i) (Nat.le_of_eq hlength)
    rw [hnone]
    have hregister := hcatalogued.registerSealedRaw (h.chain.take i) (g := g) (by rw [hlength]; exact hvalid) hne
      (by rw [hlength]; exact hat) hdata
    rw [hlength] at hregister
    refine Prog.wp_ofExcept_ok hregister.1 (Prog.wp_modify_bind (Prog.wp_pure ⟨by rw [decide_eq_true rfl], ?_, ?_⟩))
    · have htake : segs.take (max i (i + 1)) = segs.take i ++ [g] := by
        rw [Nat.max_eq_right (Nat.le_succ i), List.take_add_one, hj]
        rfl
      rw [htake]
      exact hregister.2
    · rw [if_pos rfl]
      rfl
  · -- the segment is known
    have hji : j < i := Nat.lt_of_le_of_ne hi (Ne.symm hij)
    obtain ⟨desc, hsegment, hdesc⟩ := hcatalogued.segment (h.chain.take i) (j := j) (g := g)
      (by rw [List.getElem?_take_of_lt hji]; exact hj)
    obtain ⟨x, hx, hlocation, hdigest, hsize⟩ := hdesc.raw
    rw [hsegment]
    dsimp only
    rw [hx]
    dsimp only
    rw [if_neg, ]
    · refine Prog.wp_pure ⟨by rw [decide_eq_false hij], ?_, by rw [if_neg hij]⟩
      rw [Nat.max_eq_left hji]
      exact hcatalogued
    · rintro (h' | h' | h' | h')
      · exact h' hdesc.logicalRoot
      · exact h' (by rw [hlocation, hvalid.segmentId])
      · exact h' hdigest
      · exact h' hsize

end V6
end Heraclitus
