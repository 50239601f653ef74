import Heraclitus.Lib.LittleEndian
/-!
# Frames — byte strings behind a four-byte length

A file of frames is read from the front.  What ends inside a frame is left over: that is how a reader without checksums
tells a write that was cut short from one that was finished.
-/
namespace Heraclitus

/-- A payload behind its length, of which four bytes are kept. -/
def frame (payload : List UInt8) : List UInt8 := leBytes 4 payload.length ++ payload

/-- The first frame and what follows it, unless the bytes end inside it. -/
def splitFrame (bytes : List UInt8) : Option (List UInt8 × List UInt8) :=
  if bytes.length < 4 then none
  else
    let len := leNat (bytes.take 4)
    if bytes.length - 4 < len then none else some ((bytes.drop 4).take len, bytes.drop (4 + len))

/-- The payloads from the front on, and what is left over.  A frame takes four bytes at least. -/
def framesFrom : Nat → List UInt8 → List (List UInt8) × List UInt8
  | 0, bytes => ([], bytes)
  | fuel + 1, bytes =>
    match splitFrame bytes with
    | none => ([], bytes)
    | some (payload, rest) => (payload :: (framesFrom fuel rest).1, (framesFrom fuel rest).2)

def frames (bytes : List UInt8) : List (List UInt8) × List UInt8 := framesFrom bytes.length bytes

variable {payload rest bytes : List UInt8} {ps : List (List UInt8)}

@[simp] theorem length_frame (payload : List UInt8) : (frame payload).length = 4 + payload.length := by
  rw [frame, List.length_append, length_leBytes]

theorem take_four_frame (payload rest : List UInt8) : (frame payload ++ rest).take 4 = leBytes 4 payload.length := by
  rw [frame, List.append_assoc]
  exact List.take_left' (length_leBytes 4 _)

theorem drop_four_frame (payload rest : List UInt8) : (frame payload ++ rest).drop 4 = payload ++ rest := by
  rw [frame, List.append_assoc]
  exact List.drop_left' (length_leBytes 4 _)

/-- **A frame is read as far as its length says**, which counts up to four bytes' worth. -/
theorem splitFrame_wraps (payload rest : List UInt8) : splitFrame (frame payload ++ rest)
    = some ((payload ++ rest).take (payload.length % 2 ^ 32), (payload ++ rest).drop (payload.length % 2 ^ 32)) := by
  have hlen : leNat (leBytes 4 payload.length) = payload.length % 2 ^ 32 := leNat_leBytes 4 _
  have hlength : (frame payload ++ rest).length = 4 + payload.length + rest.length := by
    rw [List.length_append, length_frame]
  have hle : payload.length % 2 ^ 32 ≤ payload.length := Nat.mod_le _ _
  rw [splitFrame, if_neg (by omega), take_four_frame, hlen]
  dsimp only
  rw [if_neg (by omega), ← List.drop_drop, drop_four_frame]

/-- **A frame is read back**, whatever follows it. -/
theorem splitFrame_frame (h : payload.length < 2 ^ 32) (rest : List UInt8) :
    splitFrame (frame payload ++ rest) = some (payload, rest) := by
  rw [splitFrame_wraps, Nat.mod_eq_of_lt h, List.take_left, List.drop_left]

/-- **A frame that is cut short is left over.** -/
theorem splitFrame_take {n : Nat} (h : payload.length < 2 ^ 32) (hn : n < (frame payload).length) :
    splitFrame ((frame payload).take n) = none := by
  rw [length_frame] at hn
  have hlength : ((frame payload).take n).length = n := by
    rw [List.length_take, length_frame]
    omega
  rw [splitFrame, hlength]
  by_cases hshort : n < 4
  · exact if_pos hshort
  · have hfour : ((frame payload).take n).take 4 = leBytes 4 payload.length := by
      rw [List.take_take, Nat.min_eq_left (Nat.not_lt.1 hshort), ← take_four_frame payload [], List.append_nil]
    rw [if_neg hshort, hfour, leNat_leBytes_of_lt h]
    exact if_pos (by omega)

/-- **What is read is what stands there**: the length's four bytes, the payload and the rest. -/
theorem splitFrame_eq_some (h : splitFrame bytes = some (payload, rest)) :
    bytes.length = 4 + payload.length + rest.length ∧ bytes.drop (4 + payload.length) = rest := by
  rw [splitFrame] at h
  split at h
  · cases h
  · rename_i hfour
    dsimp only at h
    split at h
    · cases h
    · rename_i hlen
      simp only [Option.some.injEq, Prod.mk.injEq] at h
      obtain ⟨rfl, rfl⟩ := h
      have hpayload : ((bytes.drop 4).take (leNat (bytes.take 4))).length = leNat (bytes.take 4) := by
        rw [List.length_take, List.length_drop]
        omega
      rw [hpayload, List.length_drop]
      exact ⟨by omega, rfl⟩

theorem length_lt_of_splitFrame (h : splitFrame bytes = some (payload, rest)) : rest.length < bytes.length := by
  have := (splitFrame_eq_some h).1
  omega

/-- Any two numbers of turns that are enough do the same. -/
theorem framesFrom_congr : ∀ {fuel fuel' : Nat} {bytes : List UInt8}, bytes.length ≤ fuel → bytes.length ≤ fuel' →
    framesFrom fuel bytes = framesFrom fuel' bytes
  | fuel, fuel', [], _, _ => by cases fuel <;> cases fuel' <;> rfl
  | fuel + 1, fuel' + 1, b :: bytes, h, h' => by
    rw [framesFrom, framesFrom]
    split
    · rfl
    · rename_i payload rest hsplit
      have hlt := length_lt_of_splitFrame hsplit
      rw [List.length_cons] at hlt h h'
      rw [@framesFrom_congr fuel fuel' rest (by omega) (by omega)]

/-- As many turns as bytes are enough. -/
theorem framesFrom_eq_frames (fuel : Nat) (bytes : List UInt8) (h : bytes.length ≤ fuel) :
    framesFrom fuel bytes = frames bytes := framesFrom_congr h (Nat.le_refl _)

theorem frames_of_none (h : splitFrame bytes = none) : frames bytes = ([], bytes) := by
  rw [← framesFrom_eq_frames (bytes.length + 1) bytes (Nat.le_succ _), framesFrom, h]

theorem frames_of_some (h : splitFrame bytes = some (payload, rest)) :
    frames bytes = (payload :: (frames rest).1, (frames rest).2) := by
  have hlt := length_lt_of_splitFrame h
  rw [← framesFrom_eq_frames (bytes.length + 1) bytes (Nat.le_succ _), framesFrom, h]
  dsimp only
  rw [framesFrom_eq_frames bytes.length rest (Nat.le_of_lt hlt)]

/-- What is read does not depend on what comes later. -/
theorem splitFrame_append (h : splitFrame bytes = some (payload, rest)) (more : List UInt8) :
    splitFrame (bytes ++ more) = some (payload, rest ++ more) := by
  rw [splitFrame] at h
  split at h
  · cases h
  · rename_i hfour
    dsimp only at h
    split at h
    · cases h
    · rename_i hlen
      simp only [Option.some.injEq, Prod.mk.injEq] at h
      obtain ⟨rfl, rfl⟩ := h
      have hfront : (bytes ++ more).take 4 = bytes.take 4 := List.take_append_of_le_length (Nat.not_lt.1 hfour)
      rw [splitFrame, List.length_append, if_neg (by omega), hfront]
      dsimp only
      rw [if_neg (by omega), List.drop_append_of_le_length (by omega), List.take_append_of_le_length (by
        rw [List.length_drop]
        omega), List.drop_append_of_le_length (by omega)]

/-- **Bytes that end with a frame are read first**, and then what follows them. -/
theorem frames_append_of_whole (more : List UInt8) : ∀ (fuel : Nat) (bytes : List UInt8), bytes.length ≤ fuel →
    (frames bytes).2 = [] → frames (bytes ++ more) = ((frames bytes).1 ++ (frames more).1, (frames more).2)
  | 0, bytes, h, _ => by
    rw [List.length_eq_zero_iff.1 (Nat.le_zero.1 h)]
    rfl
  | fuel + 1, bytes, h, hwhole => by
    cases hsplit : splitFrame bytes with
    | none =>
      rw [frames_of_none hsplit] at hwhole ⊢
      dsimp only at hwhole
      rw [hwhole]
      rfl
    | some found =>
      obtain ⟨payload, rest⟩ := found
      have hlt := length_lt_of_splitFrame hsplit
      rw [frames_of_some hsplit] at hwhole ⊢
      rw [frames_of_some (splitFrame_append hsplit more), frames_append_of_whole more fuel rest (by omega) hwhole]
      rfl

/-- **Whole frames are read one after another**, up to where they end. -/
theorem frames_flatMap : ∀ {ps : List (List UInt8)}, (∀ p ∈ ps, p.length < 2 ^ 32) → frames (ps.flatMap frame) = (ps, [])
  | [], _ => rfl
  | p :: ps, h => by
    rw [List.flatMap_cons, frames_of_some (splitFrame_frame (h p List.mem_cons_self) _),
      frames_flatMap (fun q hq => h q (List.mem_cons_of_mem p hq))]

theorem frames_append (h : ∀ p ∈ ps, p.length < 2 ^ 32) (rest : List UInt8) :
    frames (ps.flatMap frame ++ rest) = (ps ++ (frames rest).1, (frames rest).2) := by
  have hwhole := frames_flatMap h
  rw [frames_append_of_whole rest _ _ (Nat.le_refl _) (by rw [hwhole]), hwhole]

/-- **Nothing is lost between the frames and what is left over.** -/
theorem length_frames : ∀ (fuel : Nat) (bytes : List UInt8), bytes.length ≤ fuel →
    ((frames bytes).1.map (fun p => 4 + p.length)).sum + (frames bytes).2.length = bytes.length
  | 0, bytes, h => by
    rw [List.length_eq_zero_iff.1 (Nat.le_zero.1 h)]
    rfl
  | fuel + 1, bytes, h => by
    cases hsplit : splitFrame bytes with
    | none => simp [frames_of_none hsplit]
    | some found =>
      obtain ⟨payload, rest⟩ := found
      have hlt := length_lt_of_splitFrame hsplit
      have hsum := length_frames fuel rest (by omega)
      have hlen := (splitFrame_eq_some hsplit).1
      rw [frames_of_some hsplit, List.map_cons, List.sum_cons]
      dsimp only
      omega

end Heraclitus
