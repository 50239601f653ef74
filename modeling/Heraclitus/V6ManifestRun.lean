import Heraclitus.V6Legible
import Heraclitus.Lib.Run
/-!
# V6ManifestRun — the store of manifests and its crashes (`heraclitus-log/src/v6/manifest.rs`, §75, §89, §90)

Commits, sweeps and prunings, any of which may fail or die at any of its file-system steps.  What is loaded afterwards is the
manifest of the last commit that returned, or of one that was cut short since then, while the manifests committed are legible.
-/
namespace Heraclitus
namespace V6
namespace Hrkm

/-- A directory; the last commit that returned, as its number and its manifest; and the commits since then that a crash or a
failing step has cut short. -/
structure Store where
  dir : Dir
  done : Option (Nat × DatabaseManifest)
  attempts : List (Nat × DatabaseManifest)

namespace Store

inductive Act where
  | commit (m : DatabaseManifest) (x : Option (Mishap Site))
  /-- The directory is listed in any order. -/
  | sweep (listing : List Str) (x : Option (Mishap Site))
  | prune (keep : Nat) (x : Option (Mishap Site))

def start : Store := ⟨.empty, none, []⟩

variable (blake3 : Bytes → Digest)

/-- The store when a commit has stopped. -/
def committed (w : Store) (m : DatabaseManifest) :
    Except (Stop HeraclitusError) LoadedManifest × Dir × Option (Mishap Site) → Store
  | (.ok _, dir, _) => ⟨dir, some (nextGeneration w.dir, m), []⟩
  | (.error (.refused _), dir, _) => { w with dir := dir }
  | (.error _, dir, _) => { w with dir := dir, attempts := w.attempts ++ [(nextGeneration w.dir, m)] }

def step (w : Store) : Act → Option Store
  | .commit m x => some (w.committed m (commit blake3 m w.dir x))
  | .sweep listing x =>
    if listing.Perm (w.dir.entries.map Prod.fst) then some { w with dir := (sweepOrphanTemps listing w.dir x).2.1 } else none
  | .prune keep x => some { w with dir := (pruneOldManifests blake3 keep w.dir x).2.1 }

/-- What is committed is legible, and its number is a `u64`. -/
def StepOk (w : Store) : Act → Prop
  | .commit m _ => WideManifest m ∧ legible m = true ∧ ∀ g ∈ generations w.dir, g < 2 ^ 64 - 1
  | _ => True

/-- The bytes are those of the manifest that was committed as `a`. -/
def Reads (a : Nat × DatabaseManifest) (bytes : Bytes) : Prop :=
  decodeManifest blake3 bytes = .ok (stored (stamp a.2 a.1))

/-- What `CURRENT` points to. -/
structure Pointer where
  commit : Nat × DatabaseManifest
  bytes : Bytes

def Pointer.payload (c : Pointer) : Bytes := utf8 (String.ofList (currentPayload c.commit.1 (blake3 c.bytes)))

/-- **The directory, with `CURRENT` pointing to `p`.** -/
structure Holds (w : Store) (p : Option Pointer) : Prop where
  files : ∀ name bytes, w.dir.get? name = some bytes → name = currentFile ∨ isTmp name = true ∨
    ∃ a, name = pathFor a.1 ∧ a.1 < 2 ^ 64 ∧ Reads blake3 a bytes ∧ (w.done = none → a ∈ w.attempts)
  current : w.dir.get? currentFile = p.map (Pointer.payload blake3)
  target : ∀ c ∈ p, w.dir.get? (pathFor c.commit.1) = some c.bytes ∧ c.commit.1 < 2 ^ 64 ∧ Reads blake3 c.commit c.bytes ∧
    c.commit ∈ w.done.toList ++ w.attempts ∧ ∀ d ∈ w.done, d.1 ≤ c.commit.1
  done : w.done.isSome → p.isSome

def Inv (w : Store) : Prop := ∃ p, w.Holds blake3 p

variable {blake3} {w : Store} {p : Option Pointer} {a : Nat × DatabaseManifest} {name : Str} {bytes : Bytes}

/-! ## Changes of the directory -/

theorem isTmp_withSuffix {path : Str} (h : path ≠ []) : isTmp (withSuffix path tmpSuffix) = true := by
  have hlen : 0 < path.length := List.length_pos_iff.2 h
  rw [isTmp, Bool.and_eq_true, decide_eq_true_iff, withSuffix, List.length_append]
  exact ⟨List.isSuffixOf_iff_suffix.2 (List.suffix_append _ _), by omega⟩

theorem currentFile_of_isTmp (h : isTmp name = true) : currentFile ≠ name := by
  rintro rfl
  exact absurd h (by decide)

theorem pathFor_of_isTmp {g : Nat} (hg : g < 2 ^ 64) (h : isTmp name = true) : pathFor g ≠ name := by
  rintro rfl
  have hlast := getLast?_of_isTmp h
  rw [getLast?_of_generationOf (generationOf_pathFor hg)] at hlast
  exact absurd (Option.some.inj hlast) (by decide)

/-- What neither `CURRENT` nor its target is about. -/
theorem Holds.withDir (h : w.Holds blake3 p) {dir : Dir} (hcurrent : dir.get? currentFile = w.dir.get? currentFile)
    (htarget : ∀ c ∈ p, dir.get? (pathFor c.commit.1) = w.dir.get? (pathFor c.commit.1))
    (hfiles : ∀ name bytes, dir.get? name = some bytes → w.dir.get? name = some bytes ∨ isTmp name = true) :
    Holds blake3 { w with dir := dir } p where
  files name bytes hget := by
    rcases hfiles name bytes hget with hget | htmp
    · exact h.files name bytes hget
    · exact .inr (.inl htmp)
  current := hcurrent.trans h.current
  target c hc := by
    rw [htarget c hc]
    exact h.target c hc
  done := h.done

theorem Holds.insertTmp (h : w.Holds blake3 p) (hname : isTmp name = true) (bytes : Bytes) :
    Holds blake3 { w with dir := w.dir.insert name bytes } p := by
  refine h.withDir ?_ (fun c hc => ?_) (fun other bytes' hget => ?_)
  · rw [SortedMap.get?_insert, if_neg (currentFile_of_isTmp hname)]
  · rw [SortedMap.get?_insert, if_neg (pathFor_of_isTmp (h.target c hc).2.1 hname)]
  · rw [SortedMap.get?_insert] at hget
    split at hget
    · rename_i heq
      exact .inr (heq ▸ hname)
    · exact .inl hget

/-- A file is removed, but not `CURRENT` or what it points to. -/
theorem Holds.erase (h : w.Holds blake3 p) (hcurrent : currentFile ≠ name) (htarget : ∀ c ∈ p, pathFor c.commit.1 ≠ name) :
    Holds blake3 { w with dir := w.dir.erase name } p := by
  refine h.withDir ?_ (fun c hc => ?_) (fun other bytes hget => .inl (SortedMap.get?_of_erase hget))
  · rw [SortedMap.get?_erase, if_neg hcurrent]
  · rw [SortedMap.get?_erase, if_neg (htarget c hc)]

theorem Holds.eraseTmp (h : w.Holds blake3 p) (hname : isTmp name = true) :
    Holds blake3 { w with dir := w.dir.erase name } p :=
  h.erase (currentFile_of_isTmp hname) (fun c hc => pathFor_of_isTmp (h.target c hc).2.1 hname)

/-- A new manifest, of a commit that is not over. -/
theorem Holds.insertFile (h : w.Holds blake3 p) (ha : a ∈ w.attempts) (hlt : a.1 < 2 ^ 64) (hreads : Reads blake3 a bytes)
    (hfresh : w.dir.get? (pathFor a.1) = none) : Holds blake3 { w with dir := w.dir.insert (pathFor a.1) bytes } p where
  files name bytes' hget := by
    replace hget : (w.dir.insert (pathFor a.1) bytes).get? name = some bytes' := hget
    rw [SortedMap.get?_insert] at hget
    split at hget
    · cases hget
      exact .inr (.inr ⟨a, ‹_›, hlt, hreads, fun _ => ha⟩)
    · exact h.files name bytes' hget
  current := by
    show (w.dir.insert (pathFor a.1) bytes).get? currentFile = _
    rw [SortedMap.get?_insert, if_neg (pathFor_ne_currentFile hlt).symm]
    exact h.current
  target c hc := by
    obtain ⟨hfile, hrest⟩ := h.target c hc
    refine ⟨?_, hrest⟩
    show (w.dir.insert (pathFor a.1) bytes).get? (pathFor c.commit.1) = _
    rw [SortedMap.get?_insert, if_neg (fun heq => ?_)]
    · exact hfile
    · rw [heq, hfresh] at hfile
      cases hfile
  done := h.done

/-- `CURRENT` is set to a manifest that is there. -/
theorem Holds.insertCurrent (h : w.Holds blake3 p) {c : Pointer} (hfile : w.dir.get? (pathFor c.commit.1) = some c.bytes)
    (hlt : c.commit.1 < 2 ^ 64) (hreads : Reads blake3 c.commit c.bytes) (done : Option (Nat × DatabaseManifest))
    (attempts : List (Nat × DatabaseManifest)) (hmem : c.commit ∈ done.toList ++ attempts) (hle : ∀ d ∈ done, d.1 ≤ c.commit.1)
    (hattempts : done = none → w.done = none ∧ w.attempts ⊆ attempts) :
    Holds blake3 ⟨w.dir.insert currentFile (c.payload blake3), done, attempts⟩ (some c) where
  files name bytes hget := by
    replace hget : (w.dir.insert currentFile (c.payload blake3)).get? name = some bytes := hget
    rw [SortedMap.get?_insert] at hget
    split at hget
    · exact .inl ‹_›
    · refine (h.files name bytes hget).imp_right (Or.imp_right (fun ⟨a, hname, hlt, hreads, ha⟩ => ⟨a, hname, hlt, hreads, ?_⟩))
      intro hnone
      obtain ⟨hnone', hsub⟩ := hattempts hnone
      exact hsub (ha hnone')
  current := by
    show (w.dir.insert currentFile (c.payload blake3)).get? currentFile = _
    rw [SortedMap.get?_insert, if_pos rfl, Option.map_some]
  target c' hc := by
    cases hc
    refine ⟨?_, hlt, hreads, hmem, hle⟩
    show (w.dir.insert currentFile (c.payload blake3)).get? (pathFor c.commit.1) = _
    rw [SortedMap.get?_insert, if_neg (pathFor_ne_currentFile hlt), hfile]
  done _ := rfl

/-- A commit is being made. -/
theorem Holds.attempt (h : w.Holds blake3 p) (a : Nat × DatabaseManifest) :
    Holds blake3 { w with attempts := w.attempts ++ [a] } p where
  files name bytes hget := (h.files name bytes hget).imp_right (Or.imp_right (fun ⟨a', hname, hlt, hreads, ha'⟩ =>
    ⟨a', hname, hlt, hreads, fun hnone => List.mem_append_left _ (ha' hnone)⟩))
  current := h.current
  target c hc := by
    obtain ⟨hfile, hlt, hreads, hmem, hle⟩ := h.target c hc
    refine ⟨hfile, hlt, hreads, ?_, hle⟩
    rw [← List.append_assoc]
    exact List.mem_append_left _ hmem
  done := h.done

/-! ## What is loaded -/

theorem generationOf_of_isTmp (h : isTmp name = true) : generationOf name = none := by
  cases hg : generationOf name with
  | none => rfl
  | some g =>
    have hlast := getLast?_of_generationOf hg
    rw [getLast?_of_isTmp h] at hlast
    exact absurd (Option.some.inj hlast) (by decide)

/-- Every number in the directory is that of a commit. -/
theorem Holds.file (h : w.Holds blake3 p) {g : Nat} (hg : g ∈ generations w.dir) : ∃ m bytes, w.dir.get? (pathFor g) = some bytes ∧
    g < 2 ^ 64 ∧ Reads blake3 (g, m) bytes ∧ (w.done = none → (g, m) ∈ w.attempts) := by
  obtain ⟨name, bytes, hget, hname⟩ := mem_generations.1 hg
  rcases h.files name bytes hget with rfl | htmp | ⟨a, rfl, hlt, hreads, ha⟩
  · rw [generationOf_currentFile] at hname
    cases hname
  · rw [generationOf_of_isTmp htmp] at hname
    cases hname
  · rw [generationOf_pathFor hlt] at hname
    cases hname
    exact ⟨a.2, bytes, hget, hlt, hreads, ha⟩

theorem Holds.mem_generations (h : w.Holds blake3 p) {c : Pointer} (hc : c ∈ p) : c.commit.1 ∈ generations w.dir :=
  Hrkm.mem_generations.2 ⟨_, _, (h.target c hc).1, generationOf_pathFor (h.target c hc).2.1⟩

theorem loadFile_of_reads (h : Reads blake3 a bytes) (path : Str) (recovered : Bool) :
    loadFile blake3 path bytes recovered = some {
      manifest := stored (stamp a.2 a.1), generation := a.1, digest := blake3 bytes, path := path
      recoveredByScan := recovered } := by
  rw [loadFile, h]
  rfl

theorem Holds.loadFromCurrent (h : w.Holds blake3 p) :
    (loadFromCurrent blake3 w.dir).map (·.generation) = p.map (fun c => c.commit.1) := by
  cases p with
  | none =>
    rw [loadFromCurrent_eq_none h.current]
    rfl
  | some c =>
    obtain ⟨hfile, -, hreads, -⟩ := h.target c rfl
    rw [loadFromCurrent_eq hfile h.current, loadFile_of_reads hreads]
    rfl

/-- The manifest that is loaded says what commit `a` said. -/
structure Gives (l : LoadedManifest) (a : Nat × DatabaseManifest) : Prop where
  generation : l.generation = a.1
  manifest : KeptAs (stamp a.2 a.1) l.manifest

/-- **What is loaded was committed**, last or since then. -/
theorem Holds.loaded (h : w.Holds blake3 p) {l : LoadedManifest} (hload : load blake3 w.dir = some l) :
    (∃ a ∈ w.done.toList ++ w.attempts, Gives l a) ∧ l.generation ∈ generations w.dir := by
  cases p with
  | some c =>
    obtain ⟨hfile, -, hreads, hmem, -⟩ := h.target c rfl
    rw [load, loadFromCurrent_eq hfile h.current, loadFile_of_reads hreads] at hload
    cases hload
    exact ⟨⟨c.commit, hmem, rfl, keptAs_stored _⟩, h.mem_generations rfl⟩
  | none =>
    have hdone : w.done = none := by
      cases hw : w.done with
      | none => rfl
      | some d => exact absurd (h.done (by rw [hw]; rfl)) (by decide)
    rw [load, loadFromCurrent_eq_none h.current] at hload
    obtain ⟨g, hg, hfound⟩ := List.exists_of_findSome?_eq_some hload
    obtain ⟨m, bytes, hfile, -, hreads, ha⟩ := h.file (List.mem_reverse.1 hg)
    rw [hfile, Option.bind_some, loadFile_of_reads hreads] at hfound
    cases hfound
    exact ⟨⟨(g, m), List.mem_append_right _ (ha hdone), rfl, keptAs_stored _⟩, List.mem_reverse.1 hg⟩

theorem Holds.isSome_load (h : w.Holds blake3 p) (hdone : w.done.isSome) : (load blake3 w.dir).isSome := by
  obtain ⟨c, rfl⟩ := Option.isSome_iff_exists.1 (h.done hdone)
  obtain ⟨hfile, -, hreads, -⟩ := h.target c rfl
  rw [load, loadFromCurrent_eq hfile h.current, loadFile_of_reads hreads]
  rfl

/-! ## A commit -/

theorem get?_pathFor_nextGeneration (h : ∀ g ∈ generations w.dir, g < 2 ^ 64 - 1) :
    w.dir.get? (pathFor (nextGeneration w.dir)) = none := by
  cases hget : w.dir.get? (pathFor (nextGeneration w.dir)) with
  | none => rfl
  | some bytes =>
    have hmem := Hrkm.mem_generations.2 ⟨_, bytes, hget, generationOf_pathFor (nextGeneration_lt w.dir)⟩
    exact absurd ((nextGeneration_spec h).2 _ hmem) (Nat.lt_irrefl _)

/-- A temporary file comes and goes beside a manifest. -/
theorem get?_pathFor_tmp {g : Nat} (hg : g < 2 ^ 64) (path : Str) (bytes : Bytes) (dir : Dir) :
    ((dir.insert (withSuffix path tmpSuffix) bytes).erase (withSuffix path tmpSuffix)).get? (pathFor g)
      = dir.get? (pathFor g) := by
  rw [SortedMap.get?_erase, if_neg (pathFor_ne_tmp hg path), SortedMap.get?_insert, if_neg (pathFor_ne_tmp hg path)]

/-- **A commit keeps the invariant** wherever it stops, and when it is refused it has done nothing. -/
theorem Holds.wp_commit (h : w.Holds blake3 p) {m : DatabaseManifest} (hw : WideManifest m) (hlegible : legible m = true)
    (hbound : ∀ g ∈ generations w.dir, g < 2 ^ 64 - 1) : (commit blake3 m).wp
      ⟨fun loaded dir => loaded.generation = nextGeneration w.dir ∧ Inv blake3 ⟨dir, some (nextGeneration w.dir, m), []⟩,
        fun e dir => dir = w.dir ∧ encodeManifest blake3 (stamp m (nextGeneration w.dir)) = .error e,
        fun _ _ dir => Inv blake3 { w with dir := dir, attempts := w.attempts ++ [(nextGeneration w.dir, m)] },
        fun dir => Inv blake3 { w with dir := dir, attempts := w.attempts ++ [(nextGeneration w.dir, m)] }⟩ w.dir := by
  have hfresh := get?_pathFor_nextGeneration hbound
  have hlt := nextGeneration_lt w.dir
  have hle : ∀ d ∈ w.done, d.1 ≤ nextGeneration w.dir := by
    intro d hd
    obtain ⟨c, hc⟩ := Option.isSome_iff_exists.1 (h.done (Option.isSome_iff_exists.2 ⟨d, hd⟩))
    have habove := (nextGeneration_spec hbound).2 _ (h.mem_generations hc)
    exact Nat.le_trans ((h.target c hc).2.2.2.2 d hd) (Nat.le_of_lt habove)
  have hattempt := h.attempt (nextGeneration w.dir, m)
  unfold commit
  refine Prog.wp_look_ok rfl (fun _ => ⟨p, hattempt⟩) ⟨p, hattempt⟩ (Prog.wp_get_bind ?_)
  rw [if_neg (by rw [SortedMap.contains, hfresh]; exact Bool.false_ne_true)]
  refine Prog.wp_ofExcept_bind (fun bytes hencode => ?_) (fun e hencode => ⟨rfl, hencode⟩)
  have hreads : Reads blake3 (nextGeneration w.dir, m) bytes :=
    decodeManifest_encodeManifest (hw.stamp _) hlt hlegible hencode
  have htorn : ∀ {w' : Store} {p' : Option Pointer} {path : Str} {bytes : Bytes}, w'.Holds blake3 p' → isTmp path = true →
      ∀ part, Holds blake3 { w' with dir := if part = 0 then w'.dir else w'.dir.insert path (bytes.take (part - 1)) } p' := by
    intro w' p' path bytes hw' hpath part
    split
    · exact hw'
    · exact hw'.insertTmp hpath _
  -- the file of the manifest
  have htmp : isTmp (withSuffix (pathFor (nextGeneration w.dir)) tmpSuffix) = true :=
    isTmp_withSuffix (List.append_ne_nil_of_left_ne_nil (List.append_ne_nil_of_left_ne_nil (by decide) _) _)
  refine Prog.wp_write_bind (fun part => ⟨p, htorn hattempt htmp part⟩) (fun part => ⟨p, htorn hattempt htmp part⟩) ?_
  have hwritten := hattempt.insertTmp htmp bytes
  refine Prog.wp_step_bind (fun _ => ⟨p, hwritten⟩) ⟨p, hwritten⟩ ?_
  rw [renameFile_insert]
  have hpublished := (hwritten.eraseTmp htmp).insertFile (a := (nextGeneration w.dir, m))
    (List.mem_append_right _ (List.mem_singleton_self _)) hlt hreads ((get?_pathFor_tmp hlt _ bytes w.dir).trans hfresh)
  refine Prog.wp_step_bind (fun _ => ⟨p, hpublished⟩) ⟨p, hpublished⟩ ?_
  -- `CURRENT`
  have hcurrentTmp : isTmp (withSuffix currentFile tmpSuffix) = true := isTmp_withSuffix (by decide)
  refine Prog.wp_write_bind (fun part => ⟨p, htorn hpublished hcurrentTmp part⟩)
    (fun part => ⟨p, htorn hpublished hcurrentTmp part⟩) ?_
  have hwritten' := hpublished.insertTmp hcurrentTmp
    (utf8 (String.ofList (currentPayload (nextGeneration w.dir) (blake3 bytes))))
  refine Prog.wp_step_bind (fun _ => ⟨p, hwritten'⟩) ⟨p, hwritten'⟩ ?_
  rw [renameFile_insert]
  have herased := hwritten'.eraseTmp hcurrentTmp
  have hfile : ∀ dir : Dir, (((dir.insert (pathFor (nextGeneration w.dir)) bytes).insert (withSuffix currentFile tmpSuffix)
      (utf8 (String.ofList (currentPayload (nextGeneration w.dir) (blake3 bytes))))).erase
      (withSuffix currentFile tmpSuffix)).get? (pathFor (nextGeneration w.dir)) = some bytes := fun dir => by
    rw [get?_pathFor_tmp hlt, SortedMap.get?_insert, if_pos rfl]
  have hcut := herased.insertCurrent (c := ⟨(nextGeneration w.dir, m), bytes⟩) (hfile _) hlt hreads
    w.done (w.attempts ++ [(nextGeneration w.dir, m)])
    (List.mem_append_right _ (List.mem_append_right _ (List.mem_singleton_self _))) hle
    (fun hnone => ⟨hnone, List.Subset.refl _⟩)
  have hreturned := herased.insertCurrent (c := ⟨(nextGeneration w.dir, m), bytes⟩) (hfile _) hlt hreads
    (some (nextGeneration w.dir, m)) []
    (List.mem_append_left _ (List.mem_singleton_self _)) (fun d hd => by cases hd; exact Nat.le_refl _)
    (fun hnone => by cases hnone)
  refine Prog.wp_step_bind (fun _ => ⟨_, hcut⟩) ⟨_, hcut⟩ ?_
  exact Prog.wp_pure ⟨rfl, _, hreturned⟩

/-! ## Sweeps and prunings -/

theorem wp_removeFile {dir : Dir} {path : Str} {R : Post Site Dir HeraclitusError Unit} (hok : R.ok () (dir.erase path))
    (hrefused : ∀ e, R.refused e dir) (hfailed : ∀ k part, R.failed k part dir) (hdied : R.died dir) :
    (removeFile path).wp R dir := by
  unfold removeFile
  refine Prog.wp_get_bind ?_
  split
  · exact Prog.wp_step hok (fun _ => hfailed _ _) hdied
  · exact Prog.wp_refuse (hrefused _)

theorem Holds.wp_sweepFrom : ∀ {w : Store} (_ : w.Holds blake3 p) (listing removed : List Str),
    (sweepFrom listing removed).wp (Post.always (fun dir => Holds blake3 { w with dir := dir } p)) w.dir
  | _, h, [], _ => Prog.wp_pure h
  | w, h, path :: listing, removed => by
    rw [sweepFrom]
    split
    · rename_i htmp
      exact Prog.wp_bind (wp_removeFile ((h.eraseTmp htmp).wp_sweepFrom listing (removed ++ [path])) (fun _ => h) (fun _ _ => h) h)
    · exact h.wp_sweepFrom listing removed

/-- What `CURRENT` points to stays. -/
theorem Holds.wp_pruneFrom (manterAPartir : Nat) : ∀ {w : Store} (_ : w.Holds blake3 p) (i : Nat) (gens : List Nat)
    (removed : List Str), (∀ g ∈ gens, g < 2 ^ 64) →
    (pruneFrom (p.map (fun c => c.commit.1)) manterAPartir i gens removed).wp
      (Post.always (fun dir => Holds blake3 { w with dir := dir } p)) w.dir
  | _, h, _, [], _, _ => Prog.wp_pure h
  | w, h, i, g :: gens, removed, hgens => by
    obtain ⟨hg, hgens⟩ := List.forall_mem_cons.1 hgens
    rw [pruneFrom]
    split
    · exact h.wp_pruneFrom manterAPartir (i + 1) gens removed hgens
    · rename_i hnot
      have herased := h.erase (pathFor_ne_currentFile hg).symm (fun c hc heq => hnot (.inr (by
        rw [hc, Option.map_some, pathFor_injective (h.target c hc).2.1 hg heq])))
      exact Prog.wp_bind (wp_removeFile (herased.wp_pruneFrom manterAPartir (i + 1) gens (removed ++ [pathFor g]) hgens)
        (fun _ => h) (fun _ _ => h) h)

theorem Holds.wp_pruneOldManifests (h : w.Holds blake3 p) (keep : Nat) : (pruneOldManifests blake3 keep).wp
    (Post.always (fun dir => Holds blake3 { w with dir := dir } p)) w.dir := by
  unfold pruneOldManifests
  refine Prog.wp_get_bind ?_
  dsimp only
  rw [h.loadFromCurrent]
  refine Prog.wp_look_ok rfl (fun _ => h) h ?_
  refine h.wp_pruneFrom _ 0 _ [] (fun g hg => ?_)
  obtain ⟨_, _, _, hlt, -⟩ := h.file hg
  exact hlt

/-! ## Runs -/

theorem inv_committed {m : DatabaseManifest} (h : w.Inv blake3) :
    ∀ {x : Option (Mishap Site)} {r : Except (Stop HeraclitusError) LoadedManifest × Dir × Option (Mishap Site)},
      Post.Holds ⟨fun loaded dir => loaded.generation = nextGeneration w.dir ∧
          Inv blake3 ⟨dir, some (nextGeneration w.dir, m), []⟩,
        fun e dir => dir = w.dir ∧ encodeManifest blake3 (stamp m (nextGeneration w.dir)) = .error e,
        fun _ _ dir => Inv blake3 { w with dir := dir, attempts := w.attempts ++ [(nextGeneration w.dir, m)] },
        fun dir => Inv blake3 { w with dir := dir, attempts := w.attempts ++ [(nextGeneration w.dir, m)] }⟩ x r →
      Inv blake3 (w.committed m r)
  | _, (.ok _, _, _), hr => hr.1.2
  | _, (.error (.refused _), dir, _), hr => by
    obtain ⟨rfl, -⟩ := hr
    exact h
  | _, (.error .failed, _, _), ⟨_, _, _, hinv⟩ => hinv
  | _, (.error .died, _, _), ⟨_, hinv⟩ => hinv

theorem inv_step {w' : Store} {act : Act} (h : w.Inv blake3) (hok : w.StepOk act) (hstep : w.step blake3 act = some w') :
    w'.Inv blake3 := by
  obtain ⟨p, hholds⟩ := h
  cases act with
  | commit m x =>
    cases hstep
    exact inv_committed ⟨p, hholds⟩ (hholds.wp_commit hok.1 hok.2.1 hok.2.2 x)
  | sweep listing x =>
    simp only [step] at hstep
    split at hstep
    · cases hstep
      exact ⟨p, (hholds.wp_sweepFrom listing []).always x⟩
    · cases hstep
  | prune keep x =>
    cases hstep
    exact ⟨p, (hholds.wp_pruneOldManifests keep).always x⟩

theorem inv_start : start.Inv blake3 := by
  refine ⟨none, fun name bytes hget => ?_, rfl, fun c hc => ?_, fun hdone => ?_⟩
  · cases hget
  · cases hc
  · cases hdone

/-- The next commit returns, with a larger number than any before it. -/
structure GoesOn (blake3 : Bytes → Digest) (w : Store) (m : DatabaseManifest) : Prop where
  returns : ∃ loaded dir, commit blake3 m w.dir none = (.ok loaded, dir, none) ∧
    (∀ l, load blake3 w.dir = some l → l.generation < loaded.generation) ∧ ∀ d ∈ w.done, d.1 < loaded.generation

theorem Holds.goesOn (h : w.Holds blake3 p) {m : DatabaseManifest} (hok : w.StepOk (.commit m none)) {bytes : Bytes}
    (hencode : encodeManifest blake3 (stamp m (nextGeneration w.dir)) = .ok bytes) : GoesOn blake3 w m := by
  obtain ⟨hw, hlegible, hbound⟩ := hok
  have habove := (nextGeneration_spec hbound).2
  rcases (h.wp_commit hw hlegible hbound).run with ⟨loaded, dir, hcommit, hgeneration, -⟩ | ⟨e, dir, x, -, -, herror⟩
  · refine ⟨loaded, dir, hcommit, fun l hload => ?_, fun d hd => ?_⟩
    · rw [hgeneration]
      exact habove _ (h.loaded hload).2
    · obtain ⟨c, hc⟩ := Option.isSome_iff_exists.1 (h.done (Option.isSome_iff_exists.2 ⟨d, hd⟩))
      rw [hgeneration]
      exact Nat.lt_of_le_of_lt ((h.target c hc).2.2.2.2 d hd) (habove _ (h.mem_generations hc))
  · cases hencode.symm.trans herror

/-- **Commits are atomic**: whatever fails or dies, what is loaded is the last manifest that was committed or one whose commit
has been cut short since; once a commit has returned there is one; and the next commit goes on. -/
theorem commits_are_atomic (blake3 : Bytes → Digest) {acts : List Act} {w : Store}
    (h : Run (step blake3) StepOk start acts w) :
    (∀ l, load blake3 w.dir = some l → ∃ a ∈ w.done.toList ++ w.attempts, Gives l a) ∧
      (w.done.isSome → (load blake3 w.dir).isSome) ∧
      ∀ m bytes, w.StepOk (.commit m none) → encodeManifest blake3 (stamp m (nextGeneration w.dir)) = .ok bytes →
        GoesOn blake3 w m := by
  have hinv : w.Inv blake3 := h.invariant inv_start (fun _ _ _ hi hok hs => inv_step hi hok hs)
  obtain ⟨p, hholds⟩ := hinv
  exact ⟨fun l hload => (hholds.loaded hload).1, hholds.isSome_load, fun m bytes hok hencode => hholds.goesOn hok hencode⟩

/-- The first commit dies before `CURRENT` gets its name. -/
theorem commits_are_atomic_sample : ∃ w : Store,
    runs (step fun _ => Digest.replicate 0) start [.commit {} (some ⟨.renameCurrent, 0, 0, true⟩)] = some w ∧
    (∀ l, load (fun _ => Digest.replicate 0) w.dir = some l → ∃ a ∈ w.done.toList ++ w.attempts, Gives l a) ∧
      (w.done.isSome → (load (fun _ => Digest.replicate 0) w.dir).isSome) ∧
      ∀ m bytes, w.StepOk (.commit m none) →
        encodeManifest (fun _ => Digest.replicate 0) (stamp m (nextGeneration w.dir)) = .ok bytes →
          GoesOn (fun _ => Digest.replicate 0) w m := by
  have hok : allOk (step fun _ => Digest.replicate 0) StepOk start [.commit {} (some ⟨.renameCurrent, 0, 0, true⟩)] :=
    ⟨⟨wideManifest_empty, rfl, fun g hg => absurd hg List.not_mem_nil⟩, fun _ _ => trivial⟩
  have hrun : ∃ w, runs (step fun _ => Digest.replicate 0) start [.commit {} (some ⟨.renameCurrent, 0, 0, true⟩)] = some w :=
    ⟨_, rfl⟩
  obtain ⟨w, hw⟩ := hrun
  exact ⟨w, hw, commits_are_atomic _ (run_of_runs hw hok)⟩

/-- **A commit can return and not be loaded.** -/
theorem commit_is_not_loaded : ∃ w : Store,
    runs (step fun _ => Digest.replicate 0) start [.commit longManifest none] = some w ∧
      w.done = some (1, longManifest) ∧ w.attempts = [] ∧
      ¬∃ l, load (fun _ => Digest.replicate 0) w.dir = some l ∧ ∃ a ∈ w.done.toList ++ w.attempts, Gives l a := by
  obtain ⟨loaded, dir, -, hcommit, hlost⟩ := commits_longManifest (fun _ => Digest.replicate 0)
  have hstep : step (fun _ => Digest.replicate 0) start (.commit longManifest none) = some ⟨dir, some (1, longManifest), []⟩ := by
    show some (committed start longManifest (commit _ longManifest .empty none)) = _
    rw [hcommit]
    rfl
  refine ⟨⟨dir, some (1, longManifest), []⟩, by rw [runs, hstep]; rfl, rfl, rfl, fun ⟨l, hload, a, ha, hgives⟩ => hlost ⟨l, hload, ?_⟩⟩
  cases List.mem_singleton.1 ha
  exact ⟨hgives.generation, hgives.manifest⟩

end Store

end Hrkm
end V6
end Heraclitus
