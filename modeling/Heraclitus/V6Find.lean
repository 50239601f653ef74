import Heraclitus.V6Block
/-!
# V6Find — one record out of a block (`heraclitus-log/src/v6/block.rs`)

From the LSN to a restart point, and from there over at most `restart_interval` records.  That finds what a search through
the whole block finds.
-/
namespace Heraclitus
namespace V6

open Hrkm (sliceAt)

/-- The checks of one restart point. -/
def checkRestart (header : BlockHeaderV1) (i : Nat) (e : RestartPoint) : Except HeraclitusError RestartPoint :=
  let ctx := "hrkl v6 block restarts"
  if header.recordsRegionLen ≤ e.byteOffset then .error (corrupt ctx "restart byte_offset outside the records region")
  else if e.ordinal ≠ i * header.restartInterval then
    .error (corrupt ctx "restart ordinal does not follow restart_interval")
  else if header.recordCount ≤ e.ordinal then .error (corrupt ctx "restart ordinal beyond record_count")
  else .ok e

/-- The restart points from number `i` on. -/
def restartsFrom (header : BlockHeaderV1) (body : Bytes) : Nat → Nat → Except HeraclitusError (List RestartPoint)
  | _, 0 => .ok []
  | i, n + 1 =>
    match sliceAt "hrkl v6 block restarts" restartEntryLen body (header.recordsRegionLen + i * restartEntryLen) with
    | .error e => .error e
    | .ok (raw, _) =>
      match checkRestart header i (RestartPoint.decode raw) with
      | .error e => .error e
      | .ok e => (restartsFrom header body (i + 1) n).map (e :: ·)

def readRestarts (header : BlockHeaderV1) (body : Bytes) : Except HeraclitusError (List RestartPoint) :=
  match restartsFrom header body 0 header.restartCount with
  | .error e => .error e
  | .ok out =>
    if out.head?.any (fun r => decide (r.ordinal ≠ 0 ∨ r.byteOffset ≠ 0)) then
      .error (corrupt "hrkl v6 block restarts" "first restart point must be at ordinal 0, offset 0")
    else .ok out

def RecordCursor.atRestart (header : BlockHeaderV1) (body : Bytes) (rp : RestartPoint) : Except HeraclitusError RecordCursor :=
  (RecordCursor.start header body).map (fun _ =>
    { pos := rp.byteOffset, ordinal := rp.ordinal, prevLsn := rp.absoluteLsn, prevHlc := rp.absoluteHlc })

/-- The walk from a restart point; `budget` records at most, and one in any case. -/
def walkTo (header : BlockHeaderV1) (body : Bytes) (lsn : Nat) : Nat → RecordCursor → Except HeraclitusError (Option RawRecord)
  | 0, _ => .ok none
  | budget + 1, c =>
    match c.nextRecord header body with
    | .error e => .error e
    | .ok none => .ok none
    | .ok (some (r, c)) =>
      if r.lsn = lsn then .ok (some r)
      else if lsn < r.lsn then .ok none
      else walkTo header body lsn budget c

/-- The restart point to begin at. -/
def startFor (header : BlockHeaderV1) (restarts : List RestartPoint) (lsn : Nat) : Option RestartPoint :=
  if header.isSparseLsn then restarts[partitionPoint (fun r => decide (r.absoluteLsn ≤ lsn)) restarts - 1]?
  else restarts[(lsn - header.firstLsn) % 2 ^ 32 / header.restartInterval]?

def findRecordInBlock (header : BlockHeaderV1) (body : Bytes) (lsn : Nat) : Except HeraclitusError (Option RawRecord) :=
  if lsn < header.firstLsn ∨ header.lastLsn < lsn then .ok none
  else
    match readRestarts header body with
    | .error e => .error e
    | .ok restarts =>
      match startFor header restarts lsn with
      | none => .ok none
      | some rp =>
        match RecordCursor.atRestart header body rp with
        | .error e => .error e
        | .ok c => walkTo header body lsn (max header.restartInterval 1) c

/-! ## The restart points are read back -/

/-- The fields are of the widths that their types give them. -/
structure RestartPoint.Wide (p : RestartPoint) : Prop where
  ordinal : p.ordinal < 2 ^ 32
  byteOffset : p.byteOffset < 2 ^ 32
  absoluteHlc : p.absoluteHlc < 2 ^ 64
  absoluteLsn : p.absoluteLsn < 2 ^ 64

@[simp] theorem RestartPoint.length_encode (p : RestartPoint) : p.encode.length = restartEntryLen := by
  simp [RestartPoint.encode, restartEntryLen]

theorem RestartPoint.decode_encode {p : RestartPoint} (hw : p.Wide) : RestartPoint.decode p.encode = p := by
  have hoffset : p.encode.drop 4 = leBytes 4 p.byteOffset ++ (leBytes 8 p.absoluteHlc ++ leBytes 8 p.absoluteLsn) :=
    List.drop_left' (length_leBytes 4 _)
  have hhlc : p.encode.drop 8 = leBytes 8 p.absoluteHlc ++ leBytes 8 p.absoluteLsn := by
    rw [RestartPoint.encode, ← List.append_assoc]
    exact List.drop_left' (by simp)
  have hlsn : p.encode.drop 16 = leBytes 8 p.absoluteLsn := by
    rw [RestartPoint.encode, ← List.append_assoc, ← List.append_assoc]
    exact List.drop_left' (by simp)
  have hordinal : p.encode.take 4 = leBytes 4 p.ordinal := List.take_left' (length_leBytes 4 _)
  rw [RestartPoint.decode, hordinal, hoffset, hhlc, hlsn, List.take_left' (length_leBytes 4 _),
    List.take_left' (length_leBytes 8 _), List.take_of_length_le (by rw [length_leBytes]), leNat_leBytes_of_lt hw.ordinal,
    leNat_leBytes_of_lt hw.byteOffset, leNat_leBytes_of_lt hw.absoluteHlc, leNat_leBytes_of_lt hw.absoluteLsn]

variable {k : Nat} {sparse hlcAbsolute : Bool} {rs : List RawRecord} {header : BlockHeaderV1}

theorem start_pieces_lt {i : Nat} (hi : i < rs.length) : Heraclitus.start (pieces k sparse hlcAbsolute rs) i
    < (pieces k sparse hlcAbsolute rs).flatten.length := by
  have hsucc : Heraclitus.start (pieces k sparse hlcAbsolute rs) (i + 1) = _ := start_pieces_succ hi
  have hpos : 0 < (pieceAt k sparse hlcAbsolute rs i).length := length_pieceAt_pos i
  have hend : Heraclitus.start (pieces k sparse hlcAbsolute rs) (i + 1) ≤ (pieces k sparse hlcAbsolute rs).flatten.length := by
    rw [← start_length]
    exact start_mono _ (by rw [length_pieces]; exact hi)
  omega

theorem pointAt_wide (hfits : Fits k sparse hlcAbsolute rs header) (hheader : header.Wide) {j : Nat}
    (hj : j < divCeil rs.length k) : (pointAt k sparse hlcAbsolute rs j).Wide := by
  have hlt := mul_lt_of_lt_divCeil hfits.pos hj
  have hwide := hfits.wide _ (nth_mem hlt)
  have hcount := hheader.recordCount
  have hbody := hheader.uncompressedLen
  have hregion := hfits.region
  have hoffset : Heraclitus.start (pieces k sparse hlcAbsolute rs) (j * k) < _ := start_pieces_lt hlt
  rw [hfits.recordCount] at hcount
  rw [BlockHeaderV1.recordsRegionLen] at hregion
  refine ⟨Nat.lt_trans hlt hcount, ?_, hwide.hlc, hwide.lsn⟩
  show Heraclitus.start (pieces k sparse hlcAbsolute rs) (j * k) < 2 ^ 32
  omega

theorem checkRestart_eq (hfits : Fits k sparse hlcAbsolute rs header) {j : Nat} (hj : j < divCeil rs.length k) :
    checkRestart header j (pointAt k sparse hlcAbsolute rs j) = .ok (pointAt k sparse hlcAbsolute rs j) := by
  have hlt := mul_lt_of_lt_divCeil hfits.pos hj
  have hoffset : (pointAt k sparse hlcAbsolute rs j).byteOffset < header.recordsRegionLen := by
    rw [hfits.region]
    exact start_pieces_lt hlt
  have hordinal : (pointAt k sparse hlcAbsolute rs j).ordinal = j * header.restartInterval := by
    rw [hfits.restartInterval]
    rfl
  have hcount : (pointAt k sparse hlcAbsolute rs j).ordinal < header.recordCount := by
    rw [hfits.recordCount]
    exact hlt
  unfold checkRestart
  dsimp only
  rw [if_neg (Nat.not_le.2 hoffset), if_neg (fun hne => hne hordinal), if_neg (Nat.not_le.2 hcount)]

/-- The bytes of the restart points from number `i` on. -/
theorem drop_flatMap_encode : ∀ (points : List RestartPoint) (i : Nat),
    (points.flatMap RestartPoint.encode).drop (i * restartEntryLen) = (points.drop i).flatMap RestartPoint.encode
  | points, 0 => by simp
  | [], i + 1 => by simp
  | p :: points, i + 1 => by
    have hsum : (i + 1) * restartEntryLen = restartEntryLen + i * restartEntryLen := by
      rw [Nat.succ_mul, Nat.add_comm]
    rw [hsum, List.flatMap_cons, ← List.drop_drop, List.drop_left' p.length_encode, drop_flatMap_encode points i]
    rfl

theorem restartsFrom_eq (hfits : Fits k sparse hlcAbsolute rs header) (hheader : header.Wide) {body : Bytes}
    (hbody : body = (pieces k sparse hlcAbsolute rs).flatten ++
      (points k sparse hlcAbsolute rs rs.length).flatMap RestartPoint.encode) : ∀ (n i : Nat),
    i + n = divCeil rs.length k → restartsFrom header body i n = .ok ((points k sparse hlcAbsolute rs rs.length).drop i)
  | 0, i, hn => by
    rw [restartsFrom, List.drop_eq_nil_of_le (by rw [length_points]; omega)]
  | n + 1, i, hn => by
    have hi : i < divCeil rs.length k := by omega
    have hget : (points k sparse hlcAbsolute rs rs.length)[i]? = some (pointAt k sparse hlcAbsolute rs i) := by
      rw [points, List.getElem?_map, List.getElem?_range hi]
      rfl
    obtain ⟨hlt, hget⟩ := List.getElem?_eq_some_iff.1 hget
    have hdrop := List.drop_eq_getElem_cons hlt
    rw [hget] at hdrop
    have hbytes : body.drop (header.recordsRegionLen + i * restartEntryLen) = (pointAt k sparse hlcAbsolute rs i).encode ++
        ((points k sparse hlcAbsolute rs rs.length).drop (i + 1)).flatMap RestartPoint.encode := by
      rw [← List.drop_drop, hbody, List.drop_left' hfits.region.symm, drop_flatMap_encode, hdrop, List.flatMap_cons]
    have hroom : header.recordsRegionLen + i * restartEntryLen ≤ body.length := by
      have hmul := Nat.mul_le_mul_right restartEntryLen (Nat.le_of_lt hi)
      rw [hbody, List.length_append, length_flatMap_encode, length_points, hfits.region]
      omega
    have hslice := Hrkm.takes_sliceAt "hrkl v6 block restarts" (pointAt k sparse hlcAbsolute rs i).length_encode body _ _ hroom
      hbytes
    rw [restartsFrom, hslice]
    dsimp only
    rw [RestartPoint.decode_encode (pointAt_wide hfits hheader hi), checkRestart_eq hfits hi]
    dsimp only
    rw [restartsFrom_eq hfits hheader hbody n (i + 1) (by omega), hdrop]
    rfl

/-- **The restart points of a block are read back.** -/
theorem readRestarts_eq (hfits : Fits k sparse hlcAbsolute rs header) (hheader : header.Wide) {body : Bytes}
    (hbody : body = (pieces k sparse hlcAbsolute rs).flatten ++
      (points k sparse hlcAbsolute rs rs.length).flatMap RestartPoint.encode) :
    readRestarts header body = .ok (points k sparse hlcAbsolute rs rs.length) := by
  have hhead : ¬((points k sparse hlcAbsolute rs rs.length).head?.any
      (fun r => decide (r.ordinal ≠ 0 ∨ r.byteOffset ≠ 0)) = true) := by
    rw [points, List.head?_map]
    cases hrange : (List.range (divCeil rs.length k)).head? with
    | none => exact Bool.false_ne_true
    | some j =>
      rw [List.head?_range] at hrange
      split at hrange <;> cases hrange
      simp [pointAt, start]
  rw [readRestarts, hfits.restartCount, restartsFrom_eq hfits hheader hbody _ 0 (Nat.zero_add _)]
  dsimp only
  rw [List.drop_zero, if_neg hhead]

/-! ## The walk -/

theorem Fits.nth_lt (hfits : Fits k sparse hlcAbsolute rs header) : ∀ {i j : Nat}, i < j → j < rs.length →
    (nth rs i).lsn < (nth rs j).lsn
  | i, j + 1, hij, hj => by
    have hstep := hfits.sorted j hj
    rcases Nat.lt_or_eq_of_le (Nat.le_of_lt_succ hij) with hlt | heq
    · exact Nat.lt_trans (hfits.nth_lt hlt (Nat.lt_of_succ_lt hj)) hstep
    · rw [heq]
      exact hstep

theorem find?_eq_none_of_forall {l : List RawRecord} {lsn : Nat} (h : ∀ r ∈ l, r.lsn ≠ lsn) :
    l.find? (fun r => r.lsn == lsn) = none :=
  List.find?_eq_none.2 (fun r hr heq => h r hr (beq_iff_eq.1 heq))

/-- **The walk finds** what is among the next `budget` records. -/
theorem walkTo_eq (hfits : Fits k sparse hlcAbsolute rs header) {body tail : Bytes}
    (hbody : body = (pieces k sparse hlcAbsolute rs).flatten ++ tail) (lsn : Nat) : ∀ (budget : Nat) {i : Nat} {c : RecordCursor},
    c.At k sparse hlcAbsolute rs i → i ≤ rs.length →
    walkTo header body lsn budget c = .ok (((rs.drop i).take budget).find? (fun r => r.lsn == lsn))
  | 0, i, c, _, _ => by
    rw [walkTo, List.take_zero]
    rfl
  | budget + 1, i, c, hc, hle => by
    rw [walkTo]
    rcases Nat.lt_or_eq_of_le hle with hlt | heq
    · obtain ⟨c', hnext, hc'⟩ := nextRecord_eq hfits hc hlt hbody
      have hget : rs[i] = nth rs i := (nth_of_getElem? (List.getElem?_eq_getElem hlt)).symm
      rw [hnext, List.drop_eq_getElem_cons hlt, hget, List.take_succ_cons]
      dsimp only
      by_cases hfound : (nth rs i).lsn = lsn
      · have hhead : ((nth rs i).lsn == lsn) = true := beq_iff_eq.2 hfound
        rw [if_pos hfound, List.find?_cons, hhead]
      · have hhead : ((nth rs i).lsn == lsn) = false := beq_false_of_ne hfound
        rw [if_neg hfound, List.find?_cons, hhead]
        dsimp only
        by_cases hpast : lsn < (nth rs i).lsn
        · rw [if_pos hpast, find?_eq_none_of_forall]
          intro r hr
          obtain ⟨j, hj⟩ := List.getElem?_of_mem (List.mem_of_mem_take hr)
          rw [List.getElem?_drop] at hj
          have hlater := hfits.nth_lt (show i < i + 1 + j by omega) (List.getElem?_eq_some_iff.1 hj).1
          rw [nth_of_getElem? hj] at hlater
          omega
        · rw [if_neg hpast]
          exact walkTo_eq hfits hbody lsn budget hc' hlt
    · subst heq
      rw [nextRecord_end hfits.describes hc, List.drop_length, List.take_nil]
      rfl

/-! ## Where the walk begins -/

/-- The records in front of restart point `j` are before `lsn`, and those from the next one on behind it. -/
structure Brackets (k : Nat) (rs : List RawRecord) (lsn j : Nat) : Prop where
  inside : j < divCeil rs.length k
  before : ∀ i, i < j * k → (nth rs i).lsn < lsn
  behind : ∀ i, (j + 1) * k ≤ i → i < rs.length → lsn < (nth rs i).lsn

theorem Brackets.find?_eq {lsn j : Nat} (h : Brackets k rs lsn j) :
    ((rs.drop (j * k)).take k).find? (fun r => r.lsn == lsn) = rs.find? (fun r => r.lsn == lsn) := by
  have hsplit : rs = rs.take (j * k) ++ ((rs.drop (j * k)).take k ++ rs.drop ((j + 1) * k)) := by
    rw [Nat.succ_mul, ← List.drop_drop, List.take_append_drop, List.take_append_drop]
  have hlow : (rs.take (j * k)).find? (fun r => r.lsn == lsn) = none := by
    refine find?_eq_none_of_forall (fun r hr => ?_)
    obtain ⟨i, hi⟩ := List.getElem?_of_mem hr
    rw [List.getElem?_take] at hi
    split at hi
    · rename_i hlt
      have := h.before i hlt
      rw [nth_of_getElem? hi] at this
      omega
    · cases hi
  have hhigh : (rs.drop ((j + 1) * k)).find? (fun r => r.lsn == lsn) = none := by
    refine find?_eq_none_of_forall (fun r hr => ?_)
    obtain ⟨i, hi⟩ := List.getElem?_of_mem hr
    rw [List.getElem?_drop] at hi
    have := h.behind ((j + 1) * k + i) (Nat.le_add_right _ _) (List.getElem?_eq_some_iff.1 hi).1
    rw [nth_of_getElem? hi] at this
    omega
  conv_rhs => rw [hsplit, List.find?_append, hlow, Option.none_or, List.find?_append, hhigh, Option.or_none]

/-- **The walk begins in the right stretch.** -/
theorem startFor_eq (hfits : Fits k sparse hlcAbsolute rs header) (hheader : header.Wide) {lsn : Nat}
    (hfirst : header.firstLsn ≤ lsn) (hlast : lsn ≤ header.lastLsn) : ∃ j, Brackets k rs lsn j ∧
    startFor header (points k sparse hlcAbsolute rs rs.length) lsn = some (pointAt k sparse hlcAbsolute rs j) := by
  have hget : ∀ {j}, j < divCeil rs.length k →
      (points k sparse hlcAbsolute rs rs.length)[j]? = some (pointAt k sparse hlcAbsolute rs j) := fun {j} hj => by
    rw [points, List.getElem?_map, List.getElem?_range hj]
    rfl
  have hpos := hfits.nonempty
  rw [startFor, hfits.isSparseLsn]
  cases sparse with
  | false =>
    have hcontiguous := hfits.contiguous rfl
    have hcount := hheader.recordCount
    rw [hfits.recordCount] at hcount
    have hend : lsn - header.firstLsn < rs.length := by
      have := hcontiguous (rs.length - 1) (by omega)
      rw [hfits.lastLsn] at hlast
      omega
    rw [if_neg Bool.false_ne_true, Nat.mod_eq_of_lt (Nat.lt_trans hend hcount), hfits.restartInterval]
    generalize hordinal : lsn - header.firstLsn = ordinal at hend
    have hdiv := Nat.div_mul_le_self ordinal k
    have hnext : ordinal < (ordinal / k + 1) * k := by
      have := Nat.div_add_mod ordinal k
      have := Nat.mod_lt ordinal hfits.pos
      rw [Nat.succ_mul, Nat.mul_comm]
      omega
    have hinside : ordinal / k < divCeil rs.length k := by
      by_contra hge
      have hmul := Nat.mul_le_mul_right k (Nat.not_lt.1 hge)
      have := le_divCeil_mul hfits.pos rs.length
      omega
    refine ⟨ordinal / k, ⟨hinside, fun i hi => ?_, fun i hi hlt => ?_⟩, hget hinside⟩
    · have := hcontiguous i (by omega)
      omega
    · have := hcontiguous i hlt
      omega
  | true =>
    rw [if_pos rfl]
    obtain ⟨hbefore, hstop⟩ := partitionPoint_spec (fun r : RestartPoint => decide (r.absoluteLsn ≤ lsn))
      (points k true hlcAbsolute rs rs.length)
    have hle : partitionPoint (fun r : RestartPoint => decide (r.absoluteLsn ≤ lsn)) (points k true hlcAbsolute rs rs.length)
        ≤ divCeil rs.length k := by
      rw [← length_points k true hlcAbsolute rs rs.length]
      exact (List.takeWhile_sublist _).length_le
    generalize partitionPoint (fun r : RestartPoint => decide (r.absoluteLsn ≤ lsn))
      (points k true hlcAbsolute rs rs.length) = idx at hbefore hstop hle
    have hidx : idx ≠ 0 := by
      rintro rfl
      have hzero : 0 < divCeil rs.length k := by
        have := le_divCeil_mul hfits.pos rs.length
        refine Nat.pos_of_ne_zero (fun hz => ?_)
        rw [hz, Nat.zero_mul] at this
        omega
      have hno := of_decide_eq_false (hstop _ (hget hzero))
      rw [pointAt, Nat.zero_mul] at hno
      rw [hfits.firstLsn] at hfirst
      exact hno hfirst
    have hinside : idx - 1 < divCeil rs.length k := by omega
    have hlow : (nth rs ((idx - 1) * k)).lsn ≤ lsn :=
      of_decide_eq_true (hbefore (idx - 1) _ (by omega) (hget hinside))
    have hsucc : idx - 1 + 1 = idx := Nat.succ_pred_eq_of_ne_zero hidx
    have hlt := mul_lt_of_lt_divCeil hfits.pos hinside
    refine ⟨idx - 1, ⟨hinside, fun i hi => Nat.lt_of_lt_of_le (hfits.nth_lt hi hlt) hlow, fun i hi hi' => ?_⟩, hget hinside⟩
    rw [hsucc] at hi
    have hnot : idx < divCeil rs.length k := by
      by_contra hge
      have hmul := Nat.mul_le_mul_right k (Nat.not_lt.1 hge)
      have := le_divCeil_mul hfits.pos rs.length
      omega
    have hhigh := Nat.not_le.1 (of_decide_eq_false (hstop _ (hget hnot)))
    rcases Nat.lt_or_eq_of_le hi with hlt' | heq
    · exact Nat.lt_trans hhigh (hfits.nth_lt hlt' hi')
    · rw [← heq]
      exact hhigh

/-- **A point lookup in a block** finds what a search through it finds. -/
theorem findRecordInBlock_eq (hfits : Fits k sparse hlcAbsolute rs header) (hheader : header.Wide) {body : Bytes}
    (hbody : body = (pieces k sparse hlcAbsolute rs).flatten ++
      (points k sparse hlcAbsolute rs rs.length).flatMap RestartPoint.encode)
    (hlen : body.length = header.uncompressedLen) (lsn : Nat) :
    findRecordInBlock header body lsn = .ok (rs.find? (fun r => r.lsn == lsn)) := by
  rw [findRecordInBlock]
  by_cases hout : lsn < header.firstLsn ∨ header.lastLsn < lsn
  · rw [if_pos hout, find?_eq_none_of_forall]
    intro r hr heq
    have := hfits.lsns r hr
    omega
  · rw [if_neg hout, readRestarts_eq hfits hheader hbody]
    dsimp only
    obtain ⟨j, hbrackets, hstart⟩ := startFor_eq hfits hheader (Nat.not_lt.1 (fun h => hout (.inl h))) (Nat.not_lt.1 (fun h => hout (.inr h)))
    have hlt := mul_lt_of_lt_divCeil hfits.pos hbrackets.inside
    have hat : RecordCursor.At k sparse hlcAbsolute rs (j * k) {
        pos := (pointAt k sparse hlcAbsolute rs j).byteOffset, ordinal := (pointAt k sparse hlcAbsolute rs j).ordinal
        prevLsn := (pointAt k sparse hlcAbsolute rs j).absoluteLsn
        prevHlc := (pointAt k sparse hlcAbsolute rs j).absoluteHlc } :=
      ⟨rfl, rfl, fun h => absurd (Nat.mul_mod_left j k) h, fun h => absurd (Nat.mul_mod_left j k) h⟩
    rw [hstart]
    dsimp only
    rw [RecordCursor.atRestart, RecordCursor.start, if_neg (fun hne => hne hlen)]
    dsimp only [Except.map]
    have hbudget : max k 1 = k := Nat.max_eq_left hfits.pos
    rw [hfits.restartInterval, hbudget, walkTo_eq hfits hbody lsn k hat (Nat.le_of_lt hlt), hbrackets.find?_eq]

end V6
end Heraclitus
