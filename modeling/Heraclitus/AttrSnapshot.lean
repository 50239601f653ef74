import Heraclitus.AttrDiff
import Heraclitus.Compression
import Heraclitus.Encryption
import Heraclitus.FileRaftLogRun
import Heraclitus.Lib.Layout
import Heraclitus.Lib.Table
/-!
# AttrSnapshot — `save` and `open` of the attribute index (`heraclitus-index-attr/src/lib.rs`)

A checkpoint keeps each posting list plain or, where that is shorter, as a compressed column.  The column codec reads back
less than it writes: of an index with a longer list that was compressed, opening the checkpoint finds nothing.
-/
namespace Heraclitus
namespace AttrIndex

open Compression
open Crypto (asBytes)

/-- What `serde` sees of an index. -/
structure Snapshot where
  watermark : Nat := 0
  applied : Bool := false
  exactPostings : SortedMap Str (List Nat) := .empty
  numeric : SortedMap Str (SortedMap Nat (List Nat)) := .empty
  deriving DecidableEq

/-- `inner`. -/
def snapshot (idx : AttrIndex) : Snapshot where
  watermark := idx.watermark
  applied := idx.applied
  exactPostings := idx.exactPostings.mapVal Postings.lsns
  numeric := idx.numeric.mapVal (fun m => m.mapVal Postings.lsns)

structure CompressedSnapshot where
  watermark : Nat
  applied : Bool
  exactPlain : SortedMap Str (List Nat)
  exactPacked : SortedMap Str Bytes
  numericPlain : SortedMap Str (SortedMap Nat (List Nat))
  numericPacked : SortedMap Str (SortedMap Nat Bytes)
  deriving DecidableEq

/-- `bincode` with `BINCODE_CFG`: the length of a column, the two directions for a compressed snapshot, and the reading of a
version 1 file. -/
structure Bincode where
  columnLen : List Nat → Nat
  encodeToVec : CompressedSnapshot → Option Bytes
  decodeFromSlice : Bytes → Option CompressedSnapshot
  decodeV1 : Bytes → Option Snapshot

def minParaMedir : Nat := 8

/-- The form of a column: compressed if that is shorter than plain.  No result is a panic. -/
def escolherForma (env : Bincode) (v : List Nat) : Option (Option Bytes) :=
  if v.length < minParaMedir then some none
  else (Column.encode v).map (fun packed => if packed.length < env.columnLen v then some packed else none)

/-- The loop that divides columns between a plain and a packed map. -/
def divide {σ σ' κ : Type} (env : Bincode) (plain : Table σ κ (List Nat)) (packed : Table σ' κ Bytes)
    (columns : List (κ × List Nat)) (s : σ × σ') : Option (σ × σ') :=
  columns.foldlM (fun s e => (escolherForma env e.2).map (fun
    | some blob => (s.1, packed.put s.2 e.1 blob)
    | none => (plain.put s.1 e.1 e.2, s.2))) s

/-- `CompressedSnapshot::from`. -/
def compress (env : Bincode) (s : Snapshot) : Option CompressedSnapshot := do
  let exact_ ← divide env SortedMap.table SortedMap.table s.exactPostings.entries (.empty, .empty)
  let numeric ← divide env SortedMap.table2 SortedMap.table2 s.numeric.flat (.empty, .empty)
  pure { watermark := s.watermark, applied := s.applied, exactPlain := exact_.1, exactPacked := exact_.2
         numericPlain := numeric.1, numericPacked := numeric.2 }

/-- `expand`: nothing if some column is not decoded. -/
def expand (c : CompressedSnapshot) : Option Snapshot := do
  let exact_ ← SortedMap.table.fillAll Column.decode c.exactPacked.entries c.exactPlain
  let numeric ← c.numericPacked.entries.foldlM
    (fun numeric e => SortedMap.table2.fillAll Column.decode (SortedMap.under e.1 e.2) (numeric.ensure e.1)) c.numericPlain
  pure { watermark := c.watermark, applied := c.applied, exactPostings := exact_, numeric := numeric }

def magicV2 : Bytes := [0x48, 0x41, 0x54, 0x52]

def formatV2 : Nat := 4

def snapshotFile : Str := "attr_index.bin".toList

/-- The directory when the new file was written beside the old one and renamed. -/
def writeRename (dir : SortedMap Str Bytes) (bytes : Bytes) : SortedMap Str Bytes :=
  let tmp := snapshotFile ++ ".tmp".toList
  ((dir.insert tmp bytes).erase tmp).insert snapshotFile bytes

/-- `save`, where the file system does its part. -/
def save (env : Bincode) (dir : SortedMap Str Bytes) (idx : AttrIndex) : Option (SortedMap Str Bytes) := do
  let comprimido ← compress env idx.snapshot
  let corpo ← env.encodeToVec comprimido
  pure (writeRename dir (magicV2 ++ (leBytes 2 formatV2 ++ corpo)))

/-- What `open` makes of a file. -/
def parse (env : Bincode) (bytes : Bytes) : Option Snapshot :=
  if magicV2 <+: bytes then
    if bytes.length < 6 then none
    else if leNat ((bytes.drop 4).take 2) = formatV2 then (env.decodeFromSlice (bytes.drop 6)).bind expand
    else none
  else env.decodeV1 bytes

/-- `open`: an empty index if there is no file or it is not understood. -/
def openDir (env : Bincode) (dir : SortedMap Str Bytes) : Snapshot :=
  match dir.get? snapshotFile with
  | none => {}
  | some bytes => (parse env bytes).getD {}

/-! ## What is claimed -/

/-- What was opened is the index that was saved: the watermark, the postings of every key and number, and all answers. -/
structure Restores (idx : AttrIndex) (s : Snapshot) : Prop where
  watermark : s.watermark = idx.watermark
  postings : ∀ key, (s.exactPostings.get? key).getD [] = idx.postings key
  numPostings : ∀ field n, (s.numeric.get2? (field, n)).getD [] = idx.numPostings field n
  answers : ∃ idx' : AttrIndex, idx'.snapshot = s ∧ (∀ field value, idx'.lookup field value = idx.lookup field value) ∧
    (∀ field min max, idx'.lookupRange field min max = idx.lookupRange field min max) ∧
    ∀ de ate topo, diff idx' de ate topo = diff idx de ate topo

/-- The posting lists of a snapshot, of both halves. -/
def Snapshot.HasList (s : Snapshot) (v : List Nat) : Prop :=
  (∃ key, s.exactPostings.get? key = some v) ∨ ∃ k, s.numeric.get2? k = some v

/-- What `bincode` writes of a snapshot, it reads back. -/
def Bincode.Keeps (env : Bincode) (c : CompressedSnapshot) : Prop :=
  ∃ b, env.encodeToVec c = some b ∧ env.decodeFromSlice b = some c

/-- A list that comes back: no longer than the ceiling of `decode`, or shorter plain than compressed. -/
def Survives (env : Bincode) (v : List Nat) : Prop := v.length ≤ Column.maxValores ∨ env.columnLen v ≤ Column.columnSize v

variable {env : Bincode} {idx : AttrIndex} {v : List Nat}

/-! ## Columns -/

/-- The packed form of a column, if it is chosen. -/
def forma (env : Bincode) (v : List Nat) : Option Bytes := (escolherForma env v).getD none

/-- The plain form of a column, if it is chosen. -/
def plain (env : Bincode) (v : List Nat) : Option (List Nat) := if forma env v = none then some v else none

theorem escolherForma_eq (h : ∀ l ∈ v, l < 2 ^ 64) : escolherForma env v = some (forma env v) := by
  unfold forma escolherForma
  split
  · rfl
  · obtain ⟨blob, hblob, -⟩ := Column.encode_form h
    rw [hblob]
    rfl

theorem length_forma (h : ∀ l ∈ v, l < 2 ^ 64) {blob : Bytes} (hblob : forma env v = some blob) :
    blob.length = Column.columnSize v := by
  obtain ⟨blob', hencode, hsize, -⟩ := Column.encode_form h
  unfold forma escolherForma at hblob
  split at hblob
  · cases hblob
  · rw [hencode, Option.map_some, Option.getD_some] at hblob
    split at hblob
    · cases hblob
      exact Option.some.inj hsize
    · cases hblob

/-- **A column survives exactly if its packed form, where that is chosen, is read back.** -/
theorem survives_iff (h : ∀ l ∈ v, l < 2 ^ 64) :
    Survives env v ↔ ∀ blob, forma env v = some blob → Column.decode blob = some v := by
  obtain ⟨blob, hblob, hsize, hback⟩ := Column.encode_form h
  have hlen : blob.length = Column.columnSize v := Option.some.inj hsize
  unfold Survives forma escolherForma
  by_cases hshort : v.length < minParaMedir
  · rw [if_pos hshort]
    have hmax : v.length ≤ Column.maxValores := Nat.le_trans (Nat.le_of_lt hshort) (by decide)
    exact ⟨fun _ _ hb => absurd hb (by simp), fun _ => .inl hmax⟩
  · rw [if_neg hshort, hblob, Option.map_some, Option.getD_some]
    split
    · rename_i hlt
      constructor
      · rintro (hmax | hle) b hb
        · cases hb
          exact hback blob rfl hmax
        · omega
      · exact fun hall => .inl (Column.length_decode_le (hall blob rfl))
    · rename_i hge
      exact ⟨fun _ _ hb => absurd hb (by simp), fun _ => .inr (by omega)⟩

section Columns

variable {σ σ' κ : Type} {T : Table σ κ (List Nat)} {T' : Table σ' κ Bytes}

theorem divide_eq : ∀ (columns : List (κ × List Nat)) (s : σ × σ'), (∀ e ∈ columns, ∀ l ∈ e.2, l < 2 ^ 64) →
    divide env T T' columns s = some (T.fill (plain env) columns s.1, T'.fill (forma env) columns s.2)
  | [], _, _ => rfl
  | e :: columns, s, h => by
    unfold divide
    rw [List.foldlM_cons, escolherForma_eq (h e List.mem_cons_self), Option.map_some, Table.fill_cons, Table.fill_cons]
    have hrest := fun s' => divide_eq columns s' (fun x hx => h x (List.mem_cons_of_mem e hx))
    unfold divide at hrest
    unfold plain
    cases hf : forma env e.2 with
    | none => exact hrest (T.put s.1 e.1 e.2, s.2)
    | some blob => exact hrest (s.1, T'.put s.2 e.1 blob)

variable {look : κ → Option (List Nat)} {bindings : List (κ × Bytes)} {s r : σ} {k : κ}

/-- What the columns become: the plain ones are there, the packed ones are decoded. -/
theorem get_of_fillAll (hnodup : (bindings.map Prod.fst).Nodup)
    (hmem : ∀ k b, (k, b) ∈ bindings ↔ (look k).bind (forma env) = some b)
    (hr : T.fillAll Column.decode bindings s = some r) :
    r = T.fill Column.decode bindings s ∧ (∀ e ∈ bindings, (Column.decode e.2).isSome) ∧
      ∀ k, T.get r k = (((look k).bind (forma env)).bind Column.decode).or (T.get s k) := by
  rw [Table.fillAll_eq] at hr
  split at hr
  · rename_i hall
    cases hr
    exact ⟨rfl, hall, T.get_fill Column.decode hnodup hmem s⟩
  · cases hr

/-- **If every column survives, all are restored.** -/
theorem fillAll_of_survives (T : Table σ κ (List Nat)) (hnodup : (bindings.map Prod.fst).Nodup)
    (hmem : ∀ k b, (k, b) ∈ bindings ↔ (look k).bind (forma env) = some b)
    (hplain : ∀ k, T.get s k = (look k).bind (plain env)) (hwide : ∀ k v, look k = some v → ∀ l ∈ v, l < 2 ^ 64)
    (h : ∀ k v, look k = some v → Survives env v) :
    T.fillAll Column.decode bindings s = some (T.fill Column.decode bindings s) ∧
      ∀ k, T.get (T.fill Column.decode bindings s) k = look k := by
  have hback : ∀ k v, look k = some v → ∀ blob, forma env v = some blob → Column.decode blob = some v := fun k v hv =>
    (survives_iff (hwide k v hv)).1 (h k v hv)
  constructor
  · rw [Table.fillAll_eq, if_pos]
    rintro ⟨k, b⟩ he
    obtain ⟨v, hv, hb⟩ := Option.bind_eq_some_iff.1 ((hmem k b).1 he)
    rw [hback k v hv b hb]
    rfl
  · intro k
    rw [T.get_fill Column.decode hnodup hmem, hplain]
    cases hlook : look k with
    | none => rfl
    | some v =>
      rw [Option.bind_some, Option.bind_some]
      unfold plain
      cases hf : forma env v with
      | none => rfl
      | some blob =>
        rw [Option.bind_some, hback k v hlook blob hf]
        rfl

/-- **A column that is restored survives.** -/
theorem survives_of_fillAll (hnodup : (bindings.map Prod.fst).Nodup)
    (hmem : ∀ k b, (k, b) ∈ bindings ↔ (look k).bind (forma env) = some b)
    (hwide : ∀ k v, look k = some v → ∀ l ∈ v, l < 2 ^ 64) (hr : T.fillAll Column.decode bindings s = some r)
    (hv : look k = some v) (hget : (T.get r k).getD [] = v) : Survives env v := by
  rw [survives_iff (hwide k v hv)]
  intro blob hblob
  have hpacked : (look k).bind (forma env) = some blob := by rw [hv, Option.bind_some, hblob]
  obtain ⟨-, hall, hread⟩ := get_of_fillAll hnodup hmem hr
  obtain ⟨out, hout⟩ := Option.isSome_iff_exists.1 (hall (k, blob) ((hmem k blob).2 hpacked))
  rw [hread, hpacked, Option.bind_some, hout] at hget
  rw [hout]
  exact congrArg some hget

end Columns

/-! ## Snapshots -/

variable {s s' : Snapshot} {c : CompressedSnapshot}

theorem compress_eq (h : ∀ v, s.HasList v → ∀ l ∈ v, l < 2 ^ 64) : compress env s = some {
    watermark := s.watermark, applied := s.applied
    exactPlain := SortedMap.table.fill (plain env) s.exactPostings.entries .empty
    exactPacked := SortedMap.table.fill (forma env) s.exactPostings.entries .empty
    numericPlain := SortedMap.table2.fill (plain env) s.numeric.flat .empty
    numericPacked := SortedMap.table2.fill (forma env) s.numeric.flat .empty } := by
  unfold compress
  rw [divide_eq _ _ (fun e he => h e.2 (.inl ⟨e.1, SortedMap.get?_eq_some.2 he⟩))]
  dsimp only [bind, Option.bind_some]
  rw [divide_eq _ _ (fun e he => h e.2 (.inr ⟨e.1, SortedMap.mem_flat.1 he⟩))]
  rfl

/-- What `expand` makes of a compressed snapshot: each half for itself. -/
theorem expand_compress_eq (h : ∀ v, s.HasList v → ∀ l ∈ v, l < 2 ^ 64) : ∃ c, compress env s = some c ∧ expand c =
    (SortedMap.table.fillAll Column.decode (SortedMap.table.fill (forma env) s.exactPostings.entries .empty).entries
      (SortedMap.table.fill (plain env) s.exactPostings.entries .empty)).bind (fun exact_ =>
        (SortedMap.table2.fillAll Column.decode (SortedMap.table2.fill (forma env) s.numeric.flat .empty).flat
          (SortedMap.table2.fill (plain env) s.numeric.flat .empty)).map (fun numeric =>
            { watermark := s.watermark, applied := s.applied, exactPostings := exact_, numeric := numeric })) := by
  refine ⟨_, compress_eq h, ?_⟩
  unfold expand
  dsimp only
  rw [SortedMap.foldlM_under (SortedMap.full_empty.fill _)]
  refine Option.bind_congr (fun exact_ _ => ?_)
  rw [Option.map_eq_bind]
  rfl

/-- The bindings of the packed half that belong to the exact lists. -/
theorem mem_exactPacked (s : Snapshot) (k : Str) (b : Bytes) :
    (k, b) ∈ (SortedMap.table.fill (forma env) s.exactPostings.entries .empty).entries ↔
      (s.exactPostings.get? k).bind (forma env) = some b := by
  rw [← SortedMap.get?_eq_some, SortedMap.get?_fill_empty]

theorem mem_numericPacked (s : Snapshot) (k : Str × Nat) (b : Bytes) :
    (k, b) ∈ (SortedMap.table2.fill (forma env) s.numeric.flat .empty).flat ↔
      (s.numeric.get2? k).bind (forma env) = some b := by
  rw [SortedMap.mem_flat, SortedMap.get2?_fill_empty]

/-- **If every list survives, the snapshot comes back.** -/
theorem expand_of_survives (hwide : ∀ v, s.HasList v → ∀ l ∈ v, l < 2 ^ 64) (hfull : s.numeric.Full)
    (h : ∀ v, s.HasList v → Survives env v) : ∃ c, compress env s = some c ∧ expand c = some s := by
  obtain ⟨c, hc, hexpand⟩ := @expand_compress_eq env s hwide
  obtain ⟨hexact, hexactGet⟩ := fillAll_of_survives SortedMap.table (SortedMap.keys_nodup _) (mem_exactPacked s)
    (SortedMap.get?_fill_empty (plain env) s.exactPostings) (fun k v hv => hwide v (.inl ⟨k, hv⟩))
    (fun k v hv => h v (.inl ⟨k, hv⟩))
  obtain ⟨hnumeric, hnumericGet⟩ := fillAll_of_survives SortedMap.table2 (SortedMap.flat_nodup _) (mem_numericPacked s)
    (SortedMap.get2?_fill_empty (plain env) s.numeric) (fun k v hv => hwide v (.inr ⟨k, hv⟩))
    (fun k v hv => h v (.inr ⟨k, hv⟩))
  have hexactEq : SortedMap.table.fill Column.decode (SortedMap.table.fill (forma env) s.exactPostings.entries .empty).entries
      (SortedMap.table.fill (plain env) s.exactPostings.entries .empty) = s.exactPostings := SortedMap.ext hexactGet
  have hnumericEq := ((SortedMap.full_empty.fill s.numeric.flat).fill
    (SortedMap.table2.fill (forma env) s.numeric.flat .empty).flat).ext hfull hnumericGet
  refine ⟨c, hc, ?_⟩
  rw [hexpand, hexact, Option.bind_some, hnumeric, Option.map_some, hexactEq, hnumericEq]

/-- **A list that an opened snapshot still has survives.** -/
theorem survives_of_expand (hwide : ∀ v, s.HasList v → ∀ l ∈ v, l < 2 ^ 64) (hc : compress env s = some c)
    (hexpand : expand c = some s') (hexact : ∀ k v, s.exactPostings.get? k = some v → (s'.exactPostings.get? k).getD [] = v)
    (hnumeric : ∀ k v, s.numeric.get2? k = some v → (s'.numeric.get2? k).getD [] = v) : ∀ v, s.HasList v → Survives env v := by
  obtain ⟨c', hc', heq⟩ := @expand_compress_eq env s hwide
  obtain rfl : c' = c := Option.some.inj (hc'.symm.trans hc)
  rw [heq] at hexpand
  obtain ⟨r, hr, hexpand⟩ := Option.bind_eq_some_iff.1 hexpand
  obtain ⟨n, hn, rfl⟩ := Option.map_eq_some_iff.1 hexpand
  rintro v (⟨k, hk⟩ | ⟨k, hk⟩)
  · exact survives_of_fillAll (SortedMap.keys_nodup _) (mem_exactPacked s) (fun k v hv => hwide v (.inl ⟨k, hv⟩)) hr hk
      (hexact k v hk)
  · exact survives_of_fillAll (SortedMap.flat_nodup _) (mem_numericPacked s) (fun k v hv => hwide v (.inr ⟨k, hv⟩)) hn hk
      (hnumeric k v hk)

theorem postings_eq (idx : AttrIndex) (key : Str) : (idx.snapshot.exactPostings.get? key).getD [] = idx.postings key := by
  unfold snapshot postings
  dsimp only
  rw [SortedMap.get?_mapVal]

theorem numPostings_eq (idx : AttrIndex) (field : Str) (n : Nat) :
    (idx.snapshot.numeric.get2? (field, n)).getD [] = idx.numPostings field n := by
  unfold snapshot numPostings SortedMap.get2?
  dsimp only
  rw [SortedMap.get?_mapVal]
  cases idx.numeric.get? field with
  | none => rfl
  | some m => exact congrArg (fun o => Option.getD o []) (SortedMap.get?_mapVal Postings.lsns m n)

theorem Tidy.full (h : idx.Tidy) : idx.snapshot.numeric.Full := by
  intro field m hm
  unfold snapshot at hm
  dsimp only at hm
  rw [SortedMap.get?_mapVal] at hm
  obtain ⟨m', hm', rfl⟩ := Option.map_eq_some_iff.1 hm
  obtain ⟨n, hn⟩ := h.fields field m' hm'
  exact ⟨n, by rw [SortedMap.get?_mapVal, Option.isSome_map]; exact hn⟩

theorem restores_self (idx : AttrIndex) : Restores idx idx.snapshot where
  watermark := rfl
  postings := postings_eq idx
  numPostings := numPostings_eq idx
  answers := ⟨idx, rfl, fun _ _ => rfl, fun _ _ _ => rfl, fun _ _ _ => rfl⟩

/-- **When a compressed snapshot restores its index**: exactly if every posting list survives. -/
theorem restores_iff (htidy : idx.Tidy) (hwide : ∀ v, idx.snapshot.HasList v → ∀ l ∈ v, l < 2 ^ 64)
    (hc : compress env idx.snapshot = some c) :
    Restores idx ((expand c).getD {}) ↔ ∀ v, idx.snapshot.HasList v → Survives env v := by
  constructor
  · intro h
    have hexact : ∀ k v, idx.snapshot.exactPostings.get? k = some v → (((expand c).getD {}).exactPostings.get? k).getD [] = v := by
      intro k v hv
      rw [h.postings, ← postings_eq, hv]
      rfl
    have hnumeric : ∀ k v, idx.snapshot.numeric.get2? k = some v → (((expand c).getD {}).numeric.get2? k).getD [] = v := by
      rintro ⟨field, n⟩ v hv
      rw [h.numPostings, ← numPostings_eq, hv]
      rfl
    cases hexpand : expand c with
    | some s' =>
      rw [hexpand] at hexact hnumeric
      exact survives_of_expand hwide hc hexpand hexact hnumeric
    | none =>
      -- nothing was opened, so the index had no posting but empty ones
      rw [hexpand] at hexact hnumeric
      rintro v (⟨k, hk⟩ | ⟨k, hk⟩)
      · obtain rfl : [] = v := hexact k v hk
        exact .inl (Nat.zero_le _)
      · obtain rfl : [] = v := hnumeric k v hk
        exact .inl (Nat.zero_le _)
  · intro h
    obtain ⟨c', hc', hexpand⟩ := expand_of_survives hwide htidy.full h
    obtain rfl : c' = c := Option.some.inj (hc'.symm.trans hc)
    rw [hexpand]
    exact restores_self idx

/-! ## Files -/

/-- **What is saved is parsed**: the magic, the version and the body are where they were written. -/
theorem openDir_save {dir : SortedMap Str Bytes} (hc : compress env idx.snapshot = some c) (hkeeps : env.Keeps c) :
    ∃ dir', save env dir idx = some dir' ∧ openDir env dir' = (expand c).getD {} := by
  obtain ⟨b, hencode, hdecode⟩ := hkeeps
  have hlength : ¬(magicV2 ++ (leBytes 2 formatV2 ++ b)).length < 6 := by
    rw [List.length_append, List.length_append, length_leBytes, show magicV2.length = 4 from rfl]
    omega
  have hversion : leNat (((magicV2 ++ (leBytes 2 formatV2 ++ b)).drop 4).take 2) = formatV2 := by
    rw [List.drop_left' (show magicV2.length = 4 from rfl), List.take_left' (length_leBytes 2 _)]
    decide
  have hbody : (magicV2 ++ (leBytes 2 formatV2 ++ b)).drop 6 = b := by
    rw [← List.append_assoc, List.drop_left' (show (magicV2 ++ leBytes 2 formatV2).length = 6 from rfl)]
  have hparse : parse env (magicV2 ++ (leBytes 2 formatV2 ++ b)) = expand c := by
    rw [parse, if_pos (List.prefix_append _ _), if_neg hlength, if_pos hversion, hbody, hdecode, Option.bind_some]
  have hsave : save env dir idx = some (writeRename dir (magicV2 ++ (leBytes 2 formatV2 ++ b))) := by
    unfold save
    rw [hc]
    dsimp only [bind, Option.bind_some]
    rw [hencode]
    rfl
  refine ⟨_, hsave, ?_⟩
  rw [openDir, writeRename, SortedMap.get?_insert, if_pos rfl]
  dsimp only
  rw [hparse]

/-! ## Delivered events -/

variable {numKey : Str → Option Nat} {log : Nat → Episode} {lsns : List Nat}

/-- The posting lists of an index hold delivered LSNs. -/
theorem wide_delivered (h : ∀ l ∈ lsns, l < 2 ^ 64) :
    ∀ v, (delivered numKey log lsns).snapshot.HasList v → ∀ l ∈ v, l < 2 ^ 64 := by
  rintro v (⟨key, hk⟩ | ⟨⟨field, n⟩, hk⟩) l hl
  · have hpost := postings_eq (delivered numKey log lsns) key
    rw [hk, Option.getD_some] at hpost
    rw [hpost] at hl
    exact h l ((mem_postings_delivered lsns).1 hl).1
  · have hpost := numPostings_eq (delivered numKey log lsns) field n
    rw [hk, Option.getD_some] at hpost
    rw [hpost] at hl
    exact h l ((mem_numPostings_delivered lsns).1 hl).1

/-- **When a saved index is restored**: for all events delivered in any order, `save` succeeds, and what `open` finds is the index
exactly if every posting list is within the ceiling of the column decoder or shorter plain than compressed. -/
theorem restores_delivered_iff (env : Bincode) (numKey : Str → Option Nat) (log : Nat → Episode) (lsns : List Nat)
    (hlsns : ∀ l ∈ lsns, l < 2 ^ 64)
    (hkeeps : ∀ c, compress env (delivered numKey log lsns).snapshot = some c → env.Keeps c) (dir : SortedMap Str Bytes) :
    ∃ dir', save env dir (delivered numKey log lsns) = some dir' ∧
      (Restores (delivered numKey log lsns) (openDir env dir') ↔
        ∀ v, (delivered numKey log lsns).snapshot.HasList v → Survives env v) := by
  have hwide := @wide_delivered numKey log lsns hlsns
  obtain ⟨c, hc, -⟩ := expand_compress_eq hwide
  obtain ⟨dir', hsave, hopen⟩ := @openDir_save _ _ _ dir hc (hkeeps c hc)
  exact ⟨dir', hsave, hopen ▸ restores_iff (tidy_delivered lsns) hwide hc⟩

/-! ## A codec -/

def varintLayout : Layout Nat where
  write := RaftLog.varint
  read bytes := (RaftLog.readVarint bytes).toOption
  Fits n := n < 2 ^ 64
  read_write := by
    intro n rest hn
    rw [RaftLog.readVarint_varint hn]
    rfl

def boolLayout : Layout Bool :=
  Layout.byte.comap (fun b => if b then 1 else 0) (fun x => if x = 1 then some true else if x = 0 then some false else none) (by
    intro b
    cases b <;> rfl)

def lsnsLayout : Layout (List Nat) := .list varintLayout varintLayout

def bytesLayout : Layout Bytes := .list varintLayout .byte

theorem utf8Decode_asBytes (s : Str) : (ByteArray.utf8Decode? (asBytes s).toByteArray).map Array.toList = some s := by
  have hs : (asBytes s).toByteArray = s.utf8Encode := rfl
  rw [hs, List.utf8Decode?_utf8Encode]
  rfl

def textLayout : Layout Str :=
  bytesLayout.comap asBytes (fun b => (ByteArray.utf8Decode? b.toByteArray).map Array.toList) utf8Decode_asBytes

def mapLayout {κ β : Type} [LinearOrder κ] (f : Layout κ) (g : Layout β) : Layout (SortedMap κ β) :=
  (Layout.list varintLayout (f.pair g)).comap SortedMap.entries (fun l => some (l.foldl (fun m e => m.insert e.1 e.2) .empty)) (by
    intro m
    congr 1
    ext1 k
    rw [SortedMap.get?_foldl_insert k _ _ m.sorted, SortedMap.get?_empty, Option.or_none]
    rfl)

/-- A compressed snapshot as `bincode` lays it out, with the keys in order. -/
def snapshotLayout : Layout CompressedSnapshot :=
  (varintLayout.pair (boolLayout.pair ((mapLayout textLayout lsnsLayout).pair ((mapLayout textLayout bytesLayout).pair
    ((mapLayout textLayout (mapLayout varintLayout lsnsLayout)).pair
      (mapLayout textLayout (mapLayout varintLayout bytesLayout))))))).comap
    (fun c => (c.watermark, c.applied, c.exactPlain, c.exactPacked, c.numericPlain, c.numericPacked))
    (fun p => some ⟨p.1, p.2.1, p.2.2.1, p.2.2.2.1, p.2.2.2.2.1, p.2.2.2.2.2⟩) (fun _ => rfl)

def v1Layout : Layout Snapshot :=
  (varintLayout.pair (boolLayout.pair ((mapLayout textLayout lsnsLayout).pair
    (mapLayout textLayout (mapLayout varintLayout lsnsLayout))))).comap
    (fun s => (s.watermark, s.applied, s.exactPostings, s.numeric)) (fun p => some ⟨p.1, p.2.1, p.2.2.1, p.2.2.2⟩) (fun _ => rfl)

def bincode : Bincode where
  columnLen v := (lsnsLayout.write v).length
  encodeToVec c := some (snapshotLayout.write c)
  decodeFromSlice b := (snapshotLayout.read b).map Prod.fst
  decodeV1 b := (v1Layout.read b).map Prod.fst

theorem bincode_keeps (h : snapshotLayout.Fits c) : bincode.Keeps c := by
  refine ⟨_, rfl, ?_⟩
  have hread := snapshotLayout.read_write [] h
  rw [List.append_nil] at hread
  show (snapshotLayout.read (snapshotLayout.write c)).map Prod.fst = some c
  rw [hread]
  rfl

/-- Each LSN takes a byte at least. -/
theorem length_le_columnLen (v : List Nat) : v.length ≤ bincode.columnLen v := by
  have hpos : ∀ n, 0 < (RaftLog.varint n).length := by
    intro n
    unfold RaftLog.varint
    split_ifs <;> simp
  have hflat : ∀ v : List Nat, v.length ≤ (v.flatMap RaftLog.varint).length := by
    intro v
    induction v with
    | nil => exact Nat.le_refl _
    | cons n v ih =>
      have := hpos n
      rw [List.flatMap_cons, List.length_append, List.length_cons]
      omega
  show v.length ≤ (RaftLog.varint v.length ++ v.flatMap RaftLog.varint).length
  rw [List.length_append]
  exact Nat.le_trans (hflat v) (Nat.le_add_left _ _)

/-! ## One value, many events -/

/-- An observation without agent and attributes. -/
def observationEvent : Episode := Episode.new 1 [] .observation []

def observationKey : Str := ikey kindField "Observation".toList

theorem files_observationEvent {key : Str} : Files observationEvent key ↔ key = observationKey := by
  have hagent : trim observationEvent.agentId = [] := by decide
  have hkind : trim observationEvent.kind.label = "Observation".toList := by decide
  unfold Files
  rw [hagent, hkind]
  constructor
  · rintro (⟨hne, -⟩ | ⟨-, -, h⟩ | ⟨attr, hattr, -⟩)
    · exact absurd rfl hne
    · exact h
    · cases hattr
  · exact fun h => .inr (.inl ⟨by decide, by decide, h⟩)

/-- The index of the first `n` events of a log of observations. -/
def observationIndex (n : Nat) : AttrIndex := delivered (fun _ => none) (fun _ => observationEvent) (List.range n)

def observationSnapshot (n : Nat) : Snapshot where
  watermark := n - 1
  applied := true
  exactPostings := SortedMap.empty.insert observationKey (List.range n)

theorem snapshot_observationIndex {n : Nat} (hn : 0 < n) : (observationIndex n).snapshot = observationSnapshot n := by
  have hidx : observationIndex n =
      ⟨n - 1, true, SortedMap.empty.insert observationKey ⟨List.range n, List.pairwise_lt_range⟩, .empty⟩ := by
    refine (tidy_delivered _).ext ⟨?_, fun f m i p h => (by cases h), fun f m h => (by cases h)⟩ (fun key l => ?_)
      (fun f i l => ?_) ?_ ?_
    · intro key p hp
      rw [SortedMap.get?_insert] at hp
      split at hp
      · cases hp
        exact List.ne_nil_of_mem (List.mem_range.2 hn)
      · cases hp
    · rw [mem_postings_delivered, files_observationEvent, postings, SortedMap.get?_insert]
      by_cases hkey : key = observationKey
      · rw [if_pos hkey]
        simp [hkey]
      · rw [if_neg hkey]
        simp [hkey]
    · rw [mem_numPostings_delivered]
      constructor
      · rintro ⟨-, v, hv, -⟩
        cases hv
      · intro hl
        cases hl
    · refine eq_of_forall_ge_iff (fun b => ?_)
      rw [watermark_delivered_le]
      simp only [List.mem_range]
      constructor
      · exact fun h => h (n - 1) (by omega)
      · exact fun h l hl => Nat.le_trans (by omega) h
    · rw [applied_delivered]
      cases n with
      | zero => exact absurd hn (Nat.lt_irrefl 0)
      | succ n => simp [List.range_succ]
  rw [hidx]
  rfl

theorem hasList_observationSnapshot {n : Nat} : (observationSnapshot n).HasList v ↔ v = List.range n := by
  unfold observationSnapshot Snapshot.HasList
  dsimp only
  constructor
  · rintro (⟨key, hk⟩ | ⟨k, hk⟩)
    · rw [SortedMap.get?_insert] at hk
      split at hk
      · cases hk
        rfl
      · cases hk
    · cases hk
  · rintro rfl
    exact .inl ⟨observationKey, by rw [SortedMap.get?_insert, if_pos rfl]⟩

/-- The snapshot of these events fits its layout. -/
theorem fits_observationSnapshot {n : Nat} (hn : n < 2 ^ 60) (hc : compress bincode (observationSnapshot n) = some c) :
    snapshotLayout.Fits c := by
  have hwide : ∀ l ∈ List.range n, l < 2 ^ 64 := fun l hl => by
    have := List.mem_range.1 hl
    omega
  rw [compress_eq (fun v hv => hasList_observationSnapshot.1 hv ▸ hwide)] at hc
  cases hc
  have hkeyLen : (asBytes observationKey).length < 2 ^ 64 := by decide
  have hzero : 0 < 2 ^ 64 := by decide
  have hsingle : 1 < 2 ^ 64 := by decide
  have hkey : textLayout.Fits observationKey := ⟨hkeyLen, fun _ _ => trivial⟩
  have hwatermark : (observationSnapshot n).watermark < 2 ^ 64 := by
    show n - 1 < 2 ^ 64
    omega
  have hempty : ∀ {κ β : Type} [LinearOrder κ] (f : Layout κ) (g : Layout β), (mapLayout f g).Fits .empty := fun f g =>
    ⟨hzero, fun a ha => absurd ha List.not_mem_nil⟩
  have hone : ∀ {β : Type} (g : Layout β) (b : β), g.Fits b →
      (mapLayout textLayout g).Fits (SortedMap.empty.insert observationKey b) := by
    intro β g b hb
    refine ⟨hsingle, fun a ha => ?_⟩
    obtain rfl : a = (observationKey, b) := List.mem_singleton.1 ha
    exact ⟨hkey, hb⟩
  have hplain : (mapLayout textLayout lsnsLayout).Fits
      (SortedMap.table.fill (plain bincode) [(observationKey, List.range n)] .empty) := by
    rw [Table.fill_cons]
    unfold plain
    split
    · rename_i v hv
      split at hv
      · cases hv
        refine hone _ _ ⟨?_, hwide⟩
        show (List.range n).length < 2 ^ 64
        rw [List.length_range]
        omega
      · cases hv
    · exact hempty _ _
  have hpacked : (mapLayout textLayout bytesLayout).Fits
      (SortedMap.table.fill (forma bincode) [(observationKey, List.range n)] .empty) := by
    rw [Table.fill_cons]
    split
    · rename_i blob hblob
      refine hone _ _ ⟨?_, fun _ _ => trivial⟩
      have := Column.columnSize_le (List.range n)
      rw [List.length_range] at this
      show blob.length < 2 ^ 64
      rw [length_forma hwide hblob]
      omega
    · exact hempty _ _
  exact ⟨hwatermark, trivial, hplain, hpacked, hempty _ _, hempty _ _⟩

/-- **A value with `2 ^ 28 + 1` events empties the index**: its list is compressed, and the column is refused when it is read. -/
theorem long_list_lost : ∃ dir, save bincode .empty (observationIndex (2 ^ 28 + 1)) = some dir ∧
    ¬Restores (observationIndex (2 ^ 28 + 1)) (openDir bincode dir) := by
  have hn : 0 < 2 ^ 28 + 1 := by decide
  have hsnap := snapshot_observationIndex hn
  have hwide : ∀ v, (observationIndex (2 ^ 28 + 1)).snapshot.HasList v → ∀ l ∈ v, l < 2 ^ 64 :=
    wide_delivered (fun l hl => Nat.lt_trans (List.mem_range.1 hl) (by decide))
  obtain ⟨c, hc, -⟩ := expand_compress_eq hwide
  have hkeeps : bincode.Keeps c := bincode_keeps (fits_observationSnapshot (by decide) (hsnap ▸ hc))
  obtain ⟨dir, hsave, hopen⟩ := @openDir_save _ _ _ .empty hc hkeeps
  refine ⟨dir, hsave, ?_⟩
  have htidy : (observationIndex (2 ^ 28 + 1)).Tidy := tidy_delivered _
  rw [hopen, restores_iff htidy hwide hc, hsnap]
  intro h
  have hlen : (List.range (2 ^ 28 + 1)).length = 2 ^ 28 + 1 := List.length_range
  have hlist : (observationSnapshot (2 ^ 28 + 1)).HasList (List.range (2 ^ 28 + 1)) := hasList_observationSnapshot.2 rfl
  have hsize : Column.columnSize (List.range (2 ^ 28 + 1)) ≤ 18 + 8 * 2 ^ 22 := Column.columnSize_range_le (by decide)
  have hplain := length_le_columnLen (List.range (2 ^ 28 + 1))
  rcases h _ hlist with hle | hle
  · rw [hlen] at hle
    exact absurd hle (by decide)
  · rw [hlen] at hplain
    omega

/-- Forty events of one value are stored compressed, and restored. -/
theorem forty_events_restored : forma bincode (List.range 40) ≠ none ∧
    ∃ dir, save bincode .empty (observationIndex 40) = some dir ∧ Restores (observationIndex 40) (openDir bincode dir) := by
  have hsnap : (observationIndex 40).snapshot = observationSnapshot 40 := snapshot_observationIndex (by decide)
  have hlsns : ∀ l ∈ List.range 40, l < 2 ^ 64 := by decide
  obtain ⟨dir, hsave, hiff⟩ := restores_delivered_iff bincode (fun _ => none) (fun _ => observationEvent) (List.range 40) hlsns
    (fun c hc => bincode_keeps (fits_observationSnapshot (by decide) (hsnap ▸ hc))) .empty
  refine ⟨by decide +kernel, dir, hsave, hiff.2 (fun v hv => .inl ?_)⟩
  change (observationIndex 40).snapshot.HasList v at hv
  rw [hsnap, hasList_observationSnapshot] at hv
  rw [hv]
  decide

end AttrIndex
end Heraclitus
