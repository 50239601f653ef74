import Heraclitus.V6Hrkm
import Heraclitus.Lib.Prog
import Heraclitus.Lib.SortedMap
import Mathlib.Data.List.Sort
import Mathlib.Data.List.Lex
import Mathlib.Data.Char
/-!
# V6ManifestStore — the directory of manifests (`heraclitus-log/src/v6/manifest.rs`)

Numbered manifests that are never written again, and the file `CURRENT` that names the valid one together with its digest.
Both are written beside their place and renamed into it.  Reads succeed; a write, a rename or a removal may fail, or be the
last step of the process.
-/
namespace Heraclitus
namespace V6
namespace Hrkm

/-- The files of the directory. -/
abbrev Dir := SortedMap Str Bytes

/-- The file-system steps of the store. -/
inductive Site where
  | list | writeManifest | renameManifest | writeCurrent | renameCurrent | syncDir | remove
  deriving DecidableEq

/-! ## Names -/

/-- `CURRENT_FILE`. -/
def currentFile : Str := "CURRENT".toList

/-- `{:010}`. -/
def manifestDigits (generation : Nat) : Str :=
  if generation < 10 ^ 10 then decDigits 10 generation else Nat.toDigits 10 generation

/-- The file name in `path_for`. -/
def pathFor (generation : Nat) : Str := "manifest-".toList ++ manifestDigits generation ++ ".hrkm".toList

def withSuffix (path suffix : Str) : Str := path ++ suffix

def tmpSuffix : Str := ".tmp".toList

def generationOf (name : Str) : Option Nat :=
  (List.isPrefixOf? "manifest-".toList name).bind (fun rest =>
    (List.isSuffixOf? ".hrkm".toList rest).bind parseU64)

/-- Is the extension `tmp`?  A name that begins with its only dot has none. -/
def isTmp (name : Str) : Bool := tmpSuffix.isSuffixOf name && decide (tmpSuffix.length < name.length)

def hex32 (digest : Digest) : Str :=
  digest.1.flatMap (fun x => [Nat.digitChar (x.toNat / 16), Nat.digitChar (x.toNat % 16)])

/-- `str::lines`; a `\r` at the end of a line is white space, which `trim` takes off. -/
def lines : Str → List Str
  | [] => []
  | c :: s =>
    if c = '\n' then [] :: lines s
    else
      match lines s with
      | [] => [[c]]
      | line :: rest => (c :: line) :: rest

def readToString (dir : Dir) (name : Str) : Option Str :=
  (dir.get? name).bind (fun bytes => (String.fromUTF8? bytes.toByteArray).map String.toList)

/-! ## Reads -/

structure LoadedManifest where
  manifest : DatabaseManifest
  generation : Nat
  digest : Digest
  path : Str
  recoveredByScan : Bool
  deriving DecidableEq

/-- `generations`: those present in the directory, in increasing order. -/
def generations (dir : Dir) : List Nat := (dir.entries.filterMap (fun e => generationOf e.1)).insertionSort (· ≤ ·)

variable (blake3 : Bytes → Digest)

/-- A file, decoded. -/
def loadFile (path : Str) (bytes : Bytes) (recoveredByScan : Bool) : Option LoadedManifest :=
  match decodeManifest blake3 bytes with
  | .error _ => none
  | .ok manifest => some {
      manifest := manifest, generation := manifest.manifestGeneration, digest := blake3 bytes, path := path
      recoveredByScan := recoveredByScan }

/-- What `CURRENT` says: the name of a file, and the digest it must have. -/
def loadNamed (dir : Dir) : List Str → Option LoadedManifest
  | [] => none
  | name :: rest =>
    let name := trim name
    if name.isEmpty ∨ name.contains '/' ∨ name.contains '\\' then none
    else (dir.get? name).bind (fun bytes =>
      let wrong := match rest with
        | [] => false
        | expected :: _ => !(trim expected).isEmpty && trim expected != hex32 (blake3 bytes)
      if wrong then none else loadFile blake3 name bytes false)

def loadFromCurrent (dir : Dir) : Option LoadedManifest :=
  (readToString dir currentFile).bind (fun raw => loadNamed blake3 dir (lines raw))

/-- The highest generation that decodes. -/
def loadByScan (dir : Dir) : Option LoadedManifest :=
  (generations dir).reverse.findSome? (fun g =>
    (dir.get? (pathFor g)).bind (fun bytes => loadFile blake3 (pathFor g) bytes true))

def load (dir : Dir) : Option LoadedManifest :=
  match loadFromCurrent blake3 dir with
  | some loaded => some loaded
  | none => loadByScan blake3 dir

/-- One above the highest generation in the directory, as a `u64`. -/
def nextGeneration (dir : Dir) : Nat :=
  match (generations dir).getLast? with
  | some g => (g + 1) % 2 ^ 64
  | none => 1

/-! ## Writes -/

abbrev StoreProg := Prog Site Dir HeraclitusError

/-- What is written in part: nothing, or a file with the first bytes. -/
def writeAndSync (site : Site) (path : Str) (bytes : Bytes) : StoreProg Unit :=
  Prog.write site (fun part dir => if part = 0 then dir else dir.insert path (bytes.take (part - 1)))
    (fun dir => dir.insert path bytes)

def renameFile (source target : Str) (dir : Dir) : Dir :=
  match dir.get? source with
  | some bytes => (dir.erase source).insert target bytes
  | none => dir

/-- A source that was just written is there. -/
def rename (site : Site) (source target : Str) : StoreProg Unit := Prog.step site (renameFile source target)

def syncDir : StoreProg Unit := Prog.step .syncDir id

def removeFile (path : Str) : StoreProg Unit := do
  let dir ← Prog.get
  if dir.contains path then Prog.step .remove (fun dir => dir.erase path)
  else Prog.refuse (.storage "entity not found")

/-- The contents of `CURRENT`. -/
def currentPayload (generation : Nat) (digest : Digest) : Str :=
  pathFor generation ++ '\n' :: (hex32 digest ++ ['\n'])

/-- The manifest as a commit stamps it. -/
def stamp (m : DatabaseManifest) (generation : Nat) : DatabaseManifest :=
  { m with manifestGeneration := generation, formatIdentifier := hrkmMagic }

/-- `write manifest.tmp -> rename -> fsync(dir)`, and the same for `CURRENT`.  The order is the guarantee (§75). -/
def commit (m : DatabaseManifest) : StoreProg LoadedManifest := do
  let generation ← Prog.look .list (fun dir => .ok (nextGeneration dir))
  let m := stamp m generation
  let finalPath := pathFor generation
  let dir ← Prog.get
  if dir.contains finalPath then
    Prog.refuse (corrupt "hrkm commit" "manifest generation already exists; generations are immutable")
  else do
    let bytes ← Prog.ofExcept (encodeManifest blake3 m)
    let digest := blake3 bytes
    let tmp := withSuffix finalPath tmpSuffix
    writeAndSync .writeManifest tmp bytes
    rename .renameManifest tmp finalPath
    syncDir
    let currentTmp := withSuffix currentFile tmpSuffix
    writeAndSync .writeCurrent currentTmp (utf8 (String.ofList (currentPayload generation digest)))
    rename .renameCurrent currentTmp currentFile
    syncDir
    pure { manifest := m, generation := generation, digest := digest, path := finalPath, recoveredByScan := false }

/-- The loop of `sweep_orphan_temps` over the directory as it is listed. -/
def sweepFrom : List Str → List Str → StoreProg (List Str)
  | [], removed => pure removed
  | path :: rest, removed =>
    if isTmp path then do
      removeFile path
      sweepFrom rest (removed ++ [path])
    else sweepFrom rest removed

/-- §89: the `.tmp` files of an interrupted commit. -/
def sweepOrphanTemps (listing : List Str) : StoreProg (List Str) := sweepFrom listing []

/-- The loop of `prune_old_manifests`. -/
def pruneFrom (corrente : Option Nat) (manterAPartir : Nat) : Nat → List Nat → List Str → StoreProg (List Str)
  | _, [], removed => pure removed
  | i, g :: rest, removed =>
    if manterAPartir ≤ i ∨ some g = corrente then pruneFrom corrente manterAPartir (i + 1) rest removed
    else do
      removeFile (pathFor g)
      pruneFrom corrente manterAPartir (i + 1) rest (removed ++ [pathFor g])

/-- §90: the last `keep` generations stay, and the one that `CURRENT` names. -/
def pruneOldManifests (keep : Nat) : StoreProg (List Str) := do
  let dir ← Prog.get
  let corrente := (loadFromCurrent blake3 dir).map (·.generation)
  let gens ← Prog.look .list (fun dir => .ok (generations dir))
  pruneFrom corrente (gens.length - max keep 1) 0 gens []

/-! ## Names tell files apart -/

theorem isDigit_of_mem_decDigits : ∀ {w n : Nat} {c : Char}, c ∈ decDigits w n → c.isDigit = true
  | w + 1, n, c, h => by
    rw [decDigits, List.mem_append, List.mem_singleton] at h
    rcases h with h | rfl
    · exact isDigit_of_mem_decDigits h
    · rw [Nat.isDigit_digitChar, decide_eq_true_iff]
      omega

theorem ofDigitChars_decDigits : ∀ w n : Nat, Nat.ofDigitChars 10 (decDigits w n) 0 = n % 10 ^ w
  | 0, n => (Nat.mod_one n).symm
  | w + 1, n => by
    rw [decDigits, Nat.ofDigitChars_append, ofDigitChars_decDigits w,
      Nat.ofDigitChars_cons_digitChar_of_lt_ten (Nat.mod_lt n (by decide)), Nat.ofDigitChars_nil, Nat.pow_succ',
      Nat.mod_mul]
    omega

theorem isDigit_of_mem_manifestDigits {g : Nat} {c : Char} (h : c ∈ manifestDigits g) : c.isDigit = true := by
  unfold manifestDigits at h
  split at h
  · exact isDigit_of_mem_decDigits h
  · exact Nat.isDigit_of_mem_toDigits (by decide) (by decide) h

theorem parseU64_manifestDigits {g : Nat} (hg : g < 2 ^ 64) : parseU64 (manifestDigits g) = some g := by
  unfold manifestDigits
  split
  · rename_i hlt
    refine parseU64_of_digits (List.ne_nil_of_length_eq_add_one (length_decDigits 10 g)) (fun c => isDigit_of_mem_decDigits) ?_ hg
    rw [ofDigitChars_decDigits, Nat.mod_eq_of_lt hlt]
  · exact parseU64_of_digits Nat.toDigits_ne_nil (fun c => Nat.isDigit_of_mem_toDigits (by decide) (by decide))
      Nat.ofDigitChars_ten_toDigits hg

/-- **A name says its generation.** -/
theorem generationOf_pathFor {g : Nat} (hg : g < 2 ^ 64) : generationOf (pathFor g) = some g := by
  have hfront : List.isPrefixOf? "manifest-".toList (pathFor g) = some (manifestDigits g ++ ".hrkm".toList) :=
    List.isPrefixOf?_eq_some_iff_append_eq.2 (List.append_assoc _ _ _).symm
  have hback : List.isSuffixOf? ".hrkm".toList (manifestDigits g ++ ".hrkm".toList) = some (manifestDigits g) :=
    List.isSuffixOf?_eq_some_iff_append_eq.2 rfl
  rw [generationOf, hfront, Option.bind_some, hback, Option.bind_some, parseU64_manifestDigits hg]

theorem pathFor_injective {g k : Nat} (hg : g < 2 ^ 64) (hk : k < 2 ^ 64) (h : pathFor g = pathFor k) : g = k := by
  have := generationOf_pathFor hg
  rw [h, generationOf_pathFor hk] at this
  exact (Option.some.inj this).symm

theorem getLast?_of_generationOf {name : Str} {g : Nat} (h : generationOf name = some g) : name.getLast? = some 'm' := by
  obtain ⟨rest, hrest, hback⟩ := Option.bind_eq_some_iff.1 h
  obtain ⟨digits, hdigits, -⟩ := Option.bind_eq_some_iff.1 hback
  rw [List.isPrefixOf?_eq_some_iff_append_eq] at hrest
  rw [List.isSuffixOf?_eq_some_iff_append_eq] at hdigits
  rw [← hrest, ← hdigits, List.getLast?_append, List.getLast?_append]
  rfl

theorem getLast?_tmp (path : Str) : (withSuffix path tmpSuffix).getLast? = some 'p' := by
  rw [withSuffix, List.getLast?_append]
  rfl

theorem generationOf_tmp (path : Str) : generationOf (withSuffix path tmpSuffix) = none := by
  cases h : generationOf (withSuffix path tmpSuffix) with
  | none => rfl
  | some g =>
    have := getLast?_of_generationOf h
    rw [getLast?_tmp] at this
    exact absurd (Option.some.inj this) (by decide)

theorem generationOf_currentFile : generationOf currentFile = none := by decide

theorem pathFor_ne_tmp {g : Nat} (hg : g < 2 ^ 64) (path : Str) : pathFor g ≠ withSuffix path tmpSuffix := by
  intro h
  have := generationOf_pathFor hg
  rw [h, generationOf_tmp] at this
  cases this

theorem pathFor_ne_currentFile {g : Nat} (hg : g < 2 ^ 64) : pathFor g ≠ currentFile := by
  intro h
  have := generationOf_pathFor hg
  rw [h, generationOf_currentFile] at this
  cases this

theorem getLast?_of_isTmp {name : Str} (h : isTmp name = true) : name.getLast? = some 'p' := by
  rw [isTmp, Bool.and_eq_true] at h
  obtain ⟨front, rfl⟩ := List.isSuffixOf_iff_suffix.1 h.1
  exact getLast?_tmp front

/-! ## `CURRENT` is read back -/

theorem readToString_of_get? {dir : Dir} {name text : Str} (h : dir.get? name = some (utf8 (String.ofList text))) :
    readToString dir name = some text := by
  rw [readToString, h, Option.bind_some, toByteArray_utf8, String.fromUTF8?, dif_pos (String.ofList text).isValidUTF8]
  exact congrArg some String.toList_ofList

theorem lines_append {line : Str} (rest : Str) (h : '\n' ∉ line) : lines (line ++ '\n' :: rest) = line :: lines rest := by
  induction line with
  | nil => exact if_pos rfl
  | cons c line ih =>
    rw [List.mem_cons, not_or] at h
    rw [List.cons_append, lines, if_neg (fun hc => h.1 hc.symm), ih h.2]

/-- A character of a file name that is neither trimmed nor a separator. -/
def plain (c : Char) : Bool := !isWhitespace c && c != '/' && c != '\\'

theorem plain_of_mem_digits : ∀ n < 58, 48 ≤ n → plain (Char.ofNat n) = true := by decide +kernel

theorem plain_of_isDigit {c : Char} (h : c.isDigit = true) : plain c = true := by
  rw [Char.isDigit, Bool.and_eq_true, decide_eq_true_iff, decide_eq_true_iff] at h
  have hlow : 48 ≤ c.toNat := h.1
  have hhigh : c.toNat ≤ 57 := h.2
  have := plain_of_mem_digits c.toNat (Nat.lt_succ_of_le hhigh) hlow
  rwa [Char.ofNat_toNat] at this

theorem plain_pathFor (g : Nat) : ∀ c ∈ pathFor g, plain c = true := by
  have hfront : ("manifest-".toList).all plain = true := by simp [plain, isWhitespace]
  have hback : (".hrkm".toList).all plain = true := by simp [plain, isWhitespace]
  rw [List.all_eq_true] at hfront hback
  unfold pathFor
  rw [List.forall_mem_append, List.forall_mem_append]
  exact ⟨⟨hfront, fun c hc => plain_of_isDigit (isDigit_of_mem_manifestDigits hc)⟩, hback⟩

theorem plain_hex32 (digest : Digest) : ∀ c ∈ hex32 digest, plain c = true := by
  have hdigit : ∀ n < 16, plain (Nat.digitChar n) = true := by decide
  intro c hc
  obtain ⟨x, -, hx⟩ := List.mem_flatMap.1 hc
  have hlt := x.toNat_lt
  rw [List.mem_pair] at hx
  rcases hx with rfl | rfl
  · exact hdigit _ (by omega)
  · exact hdigit _ (Nat.mod_lt _ (by decide))

section Plain

variable {s : Str} (h : ∀ c ∈ s, plain c = true)
include h

theorem trim_of_plain : trim s = s := by
  refine trim_eq_self (fun c hc => ?_)
  have := h c hc
  rw [plain, Bool.and_eq_true, Bool.and_eq_true] at this
  simpa using this.1.1

theorem not_mem_of_plain {c : Char} (hc : plain c = false) : c ∉ s := fun hmem => by
  rw [h c hmem] at hc
  cases hc

end Plain

variable {blake3 : Bytes → Digest} {dir : Dir}

/-- **What `CURRENT` points to is what is loaded.** -/
theorem loadFromCurrent_eq {g : Nat} {bytes : Bytes} (hfile : dir.get? (pathFor g) = some bytes)
    (hcurrent : dir.get? currentFile = some (utf8 (String.ofList (currentPayload g (blake3 bytes))))) :
    loadFromCurrent blake3 dir = loadFile blake3 (pathFor g) bytes false := by
  have hname := plain_pathFor g
  have hhex := plain_hex32 (blake3 bytes)
  have hlines : lines (currentPayload g (blake3 bytes)) = [pathFor g, hex32 (blake3 bytes)] := by
    rw [currentPayload, lines_append _ (not_mem_of_plain hname (by decide)),
      lines_append _ (not_mem_of_plain hhex (by decide)), lines]
  have hsafe : ¬((pathFor g).isEmpty = true ∨ (pathFor g).contains '/' = true ∨ (pathFor g).contains '\\' = true) := by
    rintro (h | h | h)
    · exact absurd (List.append_eq_nil_iff.1 (List.append_eq_nil_iff.1 (List.isEmpty_iff.1 h)).1).1 (by decide)
    · exact not_mem_of_plain hname (c := '/') (by decide) (List.contains_iff_mem.1 h)
    · exact not_mem_of_plain hname (c := '\\') (by decide) (List.contains_iff_mem.1 h)
  rw [loadFromCurrent, readToString_of_get? hcurrent, Option.bind_some, hlines, loadNamed]
  dsimp only
  rw [trim_of_plain hname, if_neg hsafe, hfile, Option.bind_some, trim_of_plain hhex, bne_self_eq_false, Bool.and_false,
    if_neg Bool.false_ne_true]

theorem loadFromCurrent_eq_none (h : dir.get? currentFile = none) : loadFromCurrent blake3 dir = none := by
  rw [loadFromCurrent, readToString, h]
  rfl

/-! ## The numbers of the files -/

theorem mem_generations {g : Nat} :
    g ∈ generations dir ↔ ∃ name bytes, dir.get? name = some bytes ∧ generationOf name = some g := by
  rw [generations, (List.perm_insertionSort _ _).mem_iff, List.mem_filterMap]
  constructor
  · rintro ⟨⟨name, bytes⟩, hmem, hg⟩
    exact ⟨name, bytes, SortedMap.get?_eq_some.2 hmem, hg⟩
  · rintro ⟨name, bytes, hget, hg⟩
    exact ⟨(name, bytes), SortedMap.get?_eq_some.1 hget, hg⟩

theorem generations_sorted (dir : Dir) : (generations dir).Pairwise (· ≤ ·) := List.pairwise_insertionSort _ _

/-- **The next generation is above all that are there.** -/
theorem nextGeneration_spec (h : ∀ g ∈ generations dir, g < 2 ^ 64 - 1) :
    nextGeneration dir < 2 ^ 64 ∧ ∀ g ∈ generations dir, g < nextGeneration dir := by
  unfold nextGeneration
  cases hlast : (generations dir).getLast? with
  | none =>
    rw [List.getLast?_eq_none_iff] at hlast
    rw [hlast]
    exact ⟨by decide, fun g hg => absurd hg List.not_mem_nil⟩
  | some last =>
    dsimp only
    obtain ⟨front, hfront⟩ := List.getLast?_eq_some_iff.1 hlast
    have hlt := h last (hfront ▸ List.mem_append_right _ List.mem_cons_self)
    rw [Nat.mod_eq_of_lt (by omega)]
    refine ⟨by omega, fun g hg => ?_⟩
    have hsorted := generations_sorted dir
    rw [hfront] at hg hsorted
    rcases List.mem_append.1 hg with hg | hg
    · exact Nat.lt_succ_of_le ((List.pairwise_append.1 hsorted).2.2 g hg last List.mem_cons_self)
    · rw [List.mem_singleton.1 hg]
      exact Nat.lt_succ_self last

end Hrkm
end V6
end Heraclitus
