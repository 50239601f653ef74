import Mathlib.Data.List.Basic
/-!
# Layout — ways to write values as bytes that are read back from the front

A layout carries its own round trip, so layouts that are put together from others have theirs.
-/
namespace Heraclitus

/-- How a value is written, how one is read from the front, and which values are got back. -/
structure Layout (α : Type) where
  write : α → List UInt8
  read : List UInt8 → Option (α × List UInt8)
  Fits : α → Prop
  read_write : ∀ {a : α} (rest : List UInt8), Fits a → read (write a ++ rest) = some (a, rest)

namespace Layout

variable {α β : Type}

/-- One value behind the other. -/
def pair (f : Layout α) (g : Layout β) : Layout (α × β) where
  write p := f.write p.1 ++ g.write p.2
  read bytes := (f.read bytes).bind (fun a => (g.read a.2).map (fun b => ((a.1, b.1), b.2)))
  Fits p := f.Fits p.1 ∧ g.Fits p.2
  read_write := by
    rintro ⟨a, b⟩ rest ⟨ha, hb⟩
    rw [List.append_assoc, f.read_write _ ha, Option.bind_some, g.read_write rest hb]
    rfl

/-- Values that are written as values of another type. -/
def comap (f : Layout α) (g : β → α) (back : α → Option β) (h : ∀ b, back (g b) = some b) : Layout β where
  write b := f.write (g b)
  read bytes := (f.read bytes).bind (fun a => (back a.1).map (·, a.2))
  Fits b := f.Fits (g b)
  read_write := by
    intro b rest hb
    rw [f.read_write rest hb, Option.bind_some, h]
    rfl

/-- `n` values. -/
def readTimes (f : Layout α) : Nat → List UInt8 → Option (List α × List UInt8)
  | 0, bytes => some ([], bytes)
  | n + 1, bytes => (f.read bytes).bind (fun a => (readTimes f n a.2).map (fun l => (a.1 :: l.1, l.2)))

theorem readTimes_flatMap (f : Layout α) (rest : List UInt8) : ∀ l : List α, (∀ a ∈ l, f.Fits a) →
    readTimes f l.length (l.flatMap f.write ++ rest) = some (l, rest)
  | [], _ => rfl
  | a :: l, h => by
    rw [List.length_cons, readTimes, List.flatMap_cons, List.append_assoc, f.read_write _ (h a List.mem_cons_self), Option.bind_some,
      readTimes_flatMap f rest l (fun b hb => h b (List.mem_cons_of_mem a hb))]
    rfl

/-- Values behind their number. -/
def list (len : Layout Nat) (f : Layout α) : Layout (List α) where
  write l := len.write l.length ++ l.flatMap f.write
  read bytes := (len.read bytes).bind (fun n => readTimes f n.1 n.2)
  Fits l := len.Fits l.length ∧ ∀ a ∈ l, f.Fits a
  read_write := by
    rintro l rest ⟨hlen, hl⟩
    rw [List.append_assoc, len.read_write _ hlen, Option.bind_some, readTimes_flatMap f rest l hl]

/-- One byte. -/
def byte : Layout UInt8 where
  write b := [b]
  read
    | [] => none
    | b :: bytes => some (b, bytes)
  Fits _ := True
  read_write _ _ := rfl

end Layout
end Heraclitus
