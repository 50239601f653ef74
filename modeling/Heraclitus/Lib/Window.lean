import Mathlib.Data.List.Basic
/-!
# Window — a buffer that is written in place

`window buf off len` is what stands in `buf` from `off` on, `len` elements of it, and `writeAt` overwrites such a window.
It is read back as it was written, and every window beside it stays as it was.
-/
namespace Heraclitus

variable {α : Type}

def window (buf : List α) (off len : Nat) : List α := (buf.drop off).take len

def writeAt (buf : List α) (off : Nat) (items : List α) : List α :=
  buf.take off ++ items ++ buf.drop (off + items.length)

theorem length_writeAt {buf items : List α} {off : Nat} (h : off + items.length ≤ buf.length) :
    (writeAt buf off items).length = buf.length := by
  rw [writeAt, List.length_append, List.length_append, List.length_take, List.length_drop]
  omega

theorem window_append (buf : List α) (off m n : Nat) : window buf off (m + n) = window buf off m ++ window buf (off + m) n := by
  rw [window, List.take_add, List.drop_drop]
  rfl

theorem drop_eq_window_append (buf : List α) (off len : Nat) : buf.drop off = window buf off len ++ buf.drop (off + len) := by
  rw [window, ← List.drop_drop, List.take_append_drop]

/-- **A window is read as it was written.** -/
theorem window_writeAt {buf items : List α} {off : Nat} (h : off ≤ buf.length) :
    window (writeAt buf off items) off items.length = items := by
  have hfront : (buf.take off).length = off := List.length_take_of_le h
  rw [window, writeAt, List.append_assoc, List.drop_left' hfront, List.take_left]

/-- A write behind a window. -/
theorem window_writeAt_of_le {buf items : List α} {off off' len : Nat} (h : off' + len ≤ off) (hoff : off ≤ buf.length) :
    window (writeAt buf off items) off' len = window buf off' len := by
  have hfront : (buf.take off).length = off := List.length_take_of_le hoff
  have hdrop : (writeAt buf off items).drop off'
      = (buf.drop off').take (off - off') ++ (items ++ buf.drop (off + items.length)) := by
    rw [writeAt, List.append_assoc, List.drop_append_of_le_length (by omega), List.drop_take]
  rw [window, hdrop, List.take_append_of_le_length (by rw [List.length_take, List.length_drop]; omega), List.take_take,
    Nat.min_eq_left (by omega)]
  rfl

/-- A write before a window. -/
theorem window_writeAt_of_ge {buf items : List α} {off off' len : Nat} (h : off + items.length ≤ off')
    (hoff : off + items.length ≤ buf.length) : window (writeAt buf off items) off' len = window buf off' len := by
  have hfront : (buf.take off ++ items).length = off + items.length := by
    rw [List.length_append, List.length_take_of_le (by omega)]
  rw [window, window, writeAt]
  obtain ⟨d, rfl⟩ := Nat.exists_eq_add_of_le h
  rw [← List.drop_drop, List.drop_left' hfront, List.drop_drop]

theorem take_writeAt {buf items : List α} {n off : Nat} (h : n ≤ off) (hoff : off ≤ buf.length) :
    (writeAt buf off items).take n = buf.take n := by
  have hwindow := @window_writeAt_of_le α buf items off 0 n (by omega) hoff
  rwa [window, window, List.drop_zero, List.drop_zero] at hwindow

/-! ## What stands in a buffer -/

def Stands (buf : List α) (off : Nat) (items : List α) : Prop := window buf off items.length = items

theorem stands_nil (buf : List α) (off : Nat) : Stands buf off [] := List.take_zero

theorem stands_append {buf front back : List α} {off : Nat} :
    Stands buf off (front ++ back) ↔ Stands buf off front ∧ Stands buf (off + front.length) back := by
  rw [Stands, Stands, Stands, List.length_append, window_append]
  constructor
  · intro h
    have hlength := congrArg List.length h
    rw [List.length_append, List.length_append] at hlength
    have hfront : (window buf off front.length).length ≤ front.length := List.length_take_le _ _
    have hback : (window buf (off + front.length) back.length).length ≤ back.length := List.length_take_le _ _
    exact List.append_inj h (by omega)
  · rintro ⟨hfront, hback⟩
    rw [hfront, hback]

theorem stands_writeAt {buf items : List α} {off : Nat} (h : off ≤ buf.length) : Stands (writeAt buf off items) off items :=
  window_writeAt h

theorem Stands.of_window {buf buf' items : List α} {off : Nat} (h : Stands buf off items)
    (heq : window buf' off items.length = window buf off items.length) : Stands buf' off items := heq.trans h

theorem Stands.le_length {buf items : List α} {off : Nat} (h : Stands buf off items) (hne : items ≠ []) :
    off + items.length ≤ buf.length := by
  have hlength := congrArg List.length h
  rw [window, List.length_take, List.length_drop] at hlength
  have hpos := List.length_pos_iff.2 hne
  omega

theorem stands_take {buf items : List α} {off n : Nat} (h : off + items.length ≤ n) :
    Stands (buf.take n) off items ↔ Stands buf off items := by
  rw [Stands, Stands, window, window, List.drop_take, List.take_take, Nat.min_eq_left (by omega)]

theorem Stands.drop_eq {buf items : List α} {off : Nat} (h : Stands buf off items) :
    buf.drop off = items ++ buf.drop (off + items.length) := by
  rw [drop_eq_window_append buf off items.length, show window buf off items.length = items from h]

end Heraclitus
