import Heraclitus.V6Catalogue
/-!
# V6Disk — the directory of a v6 log, between calls and in the middle of one

The sealed segments are there whole; how many of them the loaded manifest knows, and how much of the active file is
written, depends on the moment.  A crash takes bytes from the end of the active file that were not synced.
-/
namespace Heraclitus
namespace V6

/-! ## One active file -/

section Active

variable {d : Disk} {id : Nat} {f : File}

theorem activeFile_eq (h : d.active.entries = [(id, f)]) : d.activeFile id = .ok f := by
  have hget : d.active.get? id = some f := SortedMap.get?_eq_some.2 (by rw [h]; exact List.mem_cons_self)
  rw [Disk.activeFile, hget]
  rfl

theorem entries_modifyActive (h : d.active.entries = [(id, f)]) (change : File → File) :
    (d.modifyActive id change).active.entries = [(id, change f)] := by
  show SortedMap.alterList id _ d.active.entries = _
  rw [h, SortedMap.alterList, if_pos rfl]
  rfl

theorem entries_insert_active (h : d.active.entries = []) (id : Nat) (f : File) :
    (d.active.insert id f).entries = [(id, f)] := by
  show SortedMap.alterList id _ d.active.entries = _
  rw [h]
  rfl

theorem entries_erase_active (h : d.active.entries = [(id, f)]) : (d.active.erase id).entries = [] := by
  show SortedMap.alterList id _ d.active.entries = _
  rw [h, SortedMap.alterList, if_pos rfl]
  rfl

theorem contains_active_of_nil (h : d.active.entries = []) (id : Nat) : d.active.contains id = false := by
  rw [SortedMap.contains, SortedMap.get?, h]
  rfl

end Active

/-! ## The whole directory -/

/-- The active file: the segment it belongs to, the bytes that no crash takes, the bytes that are there. -/
structure Rest where
  segment : Segment
  low : Nat
  size : Nat

variable (env : Env)

/-- The active file is the one behind the sealed segments. -/
structure Rest.On (ns : Bytes) (segs : List Segment) (rest : Rest) (d : Disk) : Prop where
  valid : rest.segment.Valid env ns segs.length (recordsOf segs).length
  file : ∃ f, d.active.entries = [(segs.length, f)] ∧ f.data = (rest.segment.bytes env).take rest.size ∧
    rest.low ≤ f.durable ∧ f.durable ≤ rest.size
  size_le : rest.size ≤ (rest.segment.bytes env).length
  complete : rest.size = (rest.segment.bytes env).length → rest.segment.records ≠ []

def ActiveIs (ns : Bytes) (segs : List Segment) (d : Disk) : Option Rest → Prop
  | none => d.active.entries = []
  | some rest => rest.On env ns segs d

/-- **What is in the directory at any moment**: the sealed segments, of which the loaded manifest knows the first `k`, and
the active file. -/
structure Wreck (ns : Bytes) (segs : List Segment) (k : Nat) (rest : Option Rest) (d : Disk) : Prop where
  chain : Chain env ns 0 0 segs
  raw : ∀ id, (d.raw.get? id).map File.data = segs[id]?.map (Segment.bytes env)
  names : ∀ e ∈ d.packed, e.1.1 < 2 ^ 64 ∧ e.1.2 < 10 ^ 4
  loaded : Loaded env d ns (segs.take k)
  active : ActiveIs env ns segs d rest

variable {env} {ns : Bytes} {segs : List Segment} {k : Nat} {rest : Option Rest} {d d' : Disk}

theorem Chain.length_lt (h : Chain env ns 0 0 segs) : segs.length < 2 ^ 64 := by
  by_cases hnil : segs = []
  · rw [hnil]
    decide
  · obtain ⟨g, hg⟩ : ∃ g, segs[segs.length - 1]? = some g :=
      ⟨_, List.getElem?_eq_getElem (by have := List.length_pos_iff.2 hnil; omega)⟩
    obtain ⟨hvalid, hne⟩ := h.getElem? hg
    have hcount := (h.take (segs.length - 1)).length_le
    have hbound := hvalid.bound
    have hpos := List.length_pos_iff.2 hne
    rw [List.length_take] at hcount
    omega

namespace Wreck

variable (h : Wreck env ns segs k rest d)
include h

theorem raw_lt : ∀ e ∈ d.raw.entries, e.1 < segs.length := by
  intro e he
  have hraw := h.raw e.1
  rw [SortedMap.get?_eq_some.2 (show (e.1, e.2) ∈ d.raw.entries from he), Option.map_some] at hraw
  by_contra hge
  rw [List.getElem?_eq_none (Nat.not_lt.1 hge)] at hraw
  cases hraw

theorem raw_lt_pow : ∀ e ∈ d.raw.entries, e.1 < 2 ^ 64 := fun e he => Nat.lt_trans (h.raw_lt e he) h.chain.length_lt

/-- **The file of a sealed segment.** -/
theorem rawFile {j : Nat} {g : Segment} (hj : segs[j]? = some g) : ∃ f, d.raw.get? j = some f ∧ f.data = g.bytes env ∧
    d.rawFile j = .ok f ∧ d.fileAt (rawLocation j) = some (.raw f) := by
  have hraw := h.raw j
  rw [hj, Option.map_some] at hraw
  obtain ⟨f, hf, hdata⟩ := Option.map_eq_some_iff.1 hraw
  refine ⟨f, hf, hdata, by rw [Disk.rawFile, hf]; rfl, ?_⟩
  rw [fileAt_rawLocation h.raw_lt_pow (h.chain.getElem? hj).1.id_lt, hf]
  rfl

theorem raw_none {j : Nat} (hj : segs.length ≤ j) : d.raw.get? j = none := by
  have hraw := h.raw j
  rw [List.getElem?_eq_none hj] at hraw
  exact Option.map_eq_none_iff.1 hraw

theorem raw_contains {j : Nat} (hj : segs.length ≤ j) : d.raw.contains j = false := by
  rw [SortedMap.contains, h.raw_none hj]
  rfl

/-- The RAW files are the places of the chain. -/
theorem map_fst_raw : d.raw.entries.map Prod.fst = List.range segs.length := by
  have hsorted : (d.raw.entries.map Prod.fst).Pairwise (· < ·) := List.pairwise_map.2 d.raw.sorted
  refine List.Perm.eq_of_pairwise (fun a b _ _ (hab : a < b) (hba : b < a) => absurd hab (Nat.lt_asymm hba)) hsorted
    List.pairwise_lt_range ?_
  refine (List.perm_ext_iff_of_nodup (hsorted.imp Nat.ne_of_lt) List.nodup_range).2 (fun j => ?_)
  rw [List.mem_range, List.mem_map]
  constructor
  · rintro ⟨e, he, rfl⟩
    exact h.raw_lt e he
  · intro hj
    obtain ⟨f, hf, -⟩ := h.rawFile (List.getElem?_eq_getElem hj)
    exact ⟨(j, f), SortedMap.get?_eq_some.1 hf, rfl⟩

theorem discover_ok : discover d = .ok () := by
  have hnone : d.packed.find? (fun e => decide (10 ^ 4 ≤ e.1.2)) = none :=
    List.find?_eq_none.2 (fun e he hge => absurd (h.names e he).2 (Nat.not_lt.2 (of_decide_eq_true hge)))
  rw [discover, hnone]

/-- Another active file, the rest as it is. -/
theorem with_active {rest' : Option Rest} (hraw : d'.raw = d.raw) (hpacked : d'.packed = d.packed)
    (hmanifests : d'.manifests = d.manifests) (hcurrent : d'.current = d.current)
    (hactive : ActiveIs env ns segs d' rest') : Wreck env ns segs k rest' d' :=
  ⟨h.chain, by rw [hraw]; exact h.raw, by rw [hpacked]; exact h.names,
    h.loaded.mono (load_eq hmanifests hcurrent) (Disk.extends_of_eq hraw hpacked), hactive⟩

end Wreck

/-! ## Crashes -/

theorem Rest.On.crash {rest : Rest} (h : rest.On env ns segs d) (keep : Nat) : ∃ size, rest.low ≤ size ∧ size ≤ rest.size ∧
    Rest.On env ns segs ⟨rest.segment, rest.low, size⟩ (d.crash keep) := by
  obtain ⟨f, hentries, hdata, hlow, hdurable⟩ := h.file
  have hsize := h.size_le
  have hlength : f.data.length = rest.size := by
    rw [hdata, List.length_take]
    omega
  have hcrash : (f.crash keep).data = (rest.segment.bytes env).take (min (max f.durable keep) rest.size) := by
    show f.data.take (max f.durable keep) = _
    rw [hdata, List.take_take]
  have hdurable' : (f.crash keep).durable = min (max f.durable keep) rest.size := by
    show (f.data.take (max f.durable keep)).length = _
    rw [List.length_take, hlength]
  refine ⟨min (max f.durable keep) rest.size, by omega, by omega, h.valid, ⟨f.crash keep, ?_, hcrash, ?_, ?_⟩, ?_,
    fun hfull => h.complete ?_⟩
  · show d.active.entries.map _ = _
    rw [hentries]
    rfl
  · rw [hdurable']
    show rest.low ≤ _
    omega
  · rw [hdurable']
  · show min (max f.durable keep) rest.size ≤ (rest.segment.bytes env).length
    have hle := h.size_le
    omega
  · have hfull : min (max f.durable keep) rest.size = (rest.segment.bytes env).length := hfull
    have hle := h.size_le
    omega

/-- **A crash leaves a directory of the same history** with a shorter active file, if any. -/
theorem Wreck.crash (h : Wreck env ns segs k rest d) (keep : Nat) :
    ∃ rest', Wreck env ns segs k rest' (d.crash keep) ∧ (rest = none ∧ rest' = none ∨
      ∃ r size, rest = some r ∧ rest' = some ⟨r.segment, r.low, size⟩ ∧ r.low ≤ size ∧ size ≤ r.size) := by
  cases rest with
  | none =>
    have hentries : d.active.entries = [] := h.active
    refine ⟨none, h.with_active rfl rfl rfl rfl ?_, .inl ⟨rfl, rfl⟩⟩
    show d.active.entries.map _ = []
    rw [hentries]
    rfl
  | some r =>
    obtain ⟨size, hlow, hsize, hon⟩ := Rest.On.crash h.active keep
    have hactive : ActiveIs env ns segs (d.crash keep) (some ⟨r.segment, r.low, size⟩) := hon
    exact ⟨_, h.with_active rfl rfl rfl rfl hactive, .inr ⟨r, size, rfl, rfl, hlow, hsize⟩⟩

/-- **Can opening make sense of the active file?**  Its header is there, and what stands where a footer begins is no
footer's magic, unless the records are followed by a footer. -/
def Disk.readable (d : Disk) : Bool := d.active.entries.all (fun e =>
  decide (fileHeaderLen ≤ e.2.data.length) &&
    (!footerMagicAtEof e.2.data || (scanRawBytes e.2.data).toOption.any (fun scan => scan.footer.isSome)))

end V6
end Heraclitus
