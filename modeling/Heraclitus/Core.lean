import Mathlib.Algebra.Ring.Nat
import Mathlib.Data.List.Basic
/-!
# Core — the vocabulary every crate shares

Text, raw bytes, digests and the error taxonomy of `heraclitus-core`.  An LSN, a segment id, a ULID and every `u32` or
`u64` counter is a `Nat`; an operation whose result depends on the machine width says so (`satAdd64`, `satMul64`).
-/
namespace Heraclitus

abbrev Bytes := List UInt8

/-- A Rust `str`, as its characters. -/
abbrev Str := List Char

/-- `str::len`: the length of the UTF-8 encoding. -/
def utf8Len (s : Str) : Nat := (s.map Char.utf8Size).sum

/-- The `White_Space` property, which `str::trim` strips. -/
def isWhitespace (c : Char) : Bool :=
  (9 ≤ c.toNat && c.toNat ≤ 13) || (0x2000 ≤ c.toNat && c.toNat ≤ 0x200a)
    || [0x20, 0x85, 0xa0, 0x1680, 0x2028, 0x2029, 0x202f, 0x205f, 0x3000].contains c.toNat

def trim (s : Str) : Str := ((s.dropWhile isWhitespace).reverse.dropWhile isWhitespace).reverse

def toAsciiLowercase (s : Str) : Str := s.map Char.toLower

/-- A 32-byte digest, `[u8; 32]`. -/
abbrev Digest := { b : Bytes // b.length = 32 }

/-- `[x; 32]`. -/
def Digest.replicate (x : UInt8) : Digest := ⟨List.replicate 32 x, List.length_replicate⟩

def u64Max : Nat := 2 ^ 64 - 1

/-- `u64::saturating_add`. -/
def satAdd64 (a b : Nat) : Nat := min (a + b) u64Max

/-- `u64::saturating_mul`. -/
def satMul64 (a b : Nat) : Nat := min (a * b) u64Max

/-- `parse::<u64>`: digits, with an optional plus sign in front. -/
def parseU64 (s : Str) : Option Nat :=
  let digits := match s with
    | '+' :: rest => rest
    | _ => s
  if digits ≠ [] ∧ digits.all Char.isDigit then
    let n := digits.foldl (fun n c => 10 * n + (c.toNat - 48)) 0
    if n ≤ u64Max then some n else none
  else none

/-- `HeraclitusError`: `Corruption` is never silently swallowed. -/
inductive HeraclitusError where
  | storage (e : String)
  | storageEngine (e : String)
  | crypto (e : String)
  | corruption (context detail : String)
  | geometry (e : String)
  | config (e : String)
  | query (e : String)
  | serialization (e : String)
  | casConflict (expected head : Nat)
  | idempotencyConflict (key : Str)
  deriving DecidableEq, Repr

instance instDecidableEqExcept {ε α : Type} [DecidableEq ε] [DecidableEq α] : DecidableEq (Except ε α)
  | .error a, .error b => decidable_of_iff (a = b) (by rw [Except.error.injEq])
  | .ok a, .ok b => decidable_of_iff (a = b) (by rw [Except.ok.injEq])
  | .error _, .ok _ => isFalse nofun
  | .ok _, .error _ => isFalse nofun

/-- `corrupt(ctx, detail)` of the v6 readers. -/
def corrupt (context detail : String) : HeraclitusError := .corruption context detail

theorem trim_eq_self {s : Str} (h : ∀ c ∈ s, isWhitespace c = false) : trim s = s := by
  have hdrop : ∀ l : Str, (∀ c ∈ l, isWhitespace c = false) → l.dropWhile isWhitespace = l := fun l hl => by
    cases l with
    | nil => rfl
    | cons c l => exact List.dropWhile_cons_of_neg (by simp [hl c (by simp)])
  unfold trim
  rw [hdrop s h, hdrop s.reverse (fun c hc => h c (List.mem_reverse.1 hc)), List.reverse_reverse]

theorem parseU64_of_digits {digits : Str} {n : Nat} (hne : digits ≠ []) (hdigit : ∀ c ∈ digits, c.isDigit = true)
    (hvalue : Nat.ofDigitChars 10 digits 0 = n) (hn : n < 2 ^ 64) : parseU64 digits = some n := by
  cases digits with
  | nil => exact absurd rfl hne
  | cons c rest =>
    have hplus : c ≠ '+' := by
      rintro rfl
      exact absurd (hdigit '+' List.mem_cons_self) (by decide)
    have hall : c :: rest ≠ [] ∧ (c :: rest).all Char.isDigit = true := ⟨hne, List.all_eq_true.2 hdigit⟩
    have hvalue : (c :: rest).foldl (fun n c => 10 * n + (c.toNat - 48)) 0 = n := hvalue
    have hle : n ≤ u64Max := Nat.le_pred_of_lt hn
    unfold parseU64
    split
    · rename_i heq
      exact absurd (List.cons.inj heq).1 hplus
    · dsimp only
      rw [if_pos hall, hvalue, if_pos hle]

/-- The decimal text of a number is read back. -/
theorem parseU64_toString {n : Nat} (hn : n < 2 ^ 64) : parseU64 (toString n).toList = some n := by
  have htext : (toString n).toList = Nat.toDigits 10 n := by simp
  rw [htext]
  exact parseU64_of_digits Nat.toDigits_ne_nil (fun c => Nat.isDigit_of_mem_toDigits (by decide) (by decide))
    Nat.ofDigitChars_ten_toDigits hn

end Heraclitus
