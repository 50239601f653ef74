import Mathlib.Data.List.Basic
/-!
# Reader — decoders that walk through a buffer

A reader looks at the buffer from a position and returns a value and the position behind it.  `r.Takes bytes a` says that it
reads exactly `bytes` as `a`, wherever they stand and whatever is around them; a decoder is proved against its encoder by
adding up what its parts take.  `r.Ensures P` says what is known of a value that it returns, `r.Reads R` also of the bytes that it
read.
-/
namespace Heraclitus

def Reader (ε α : Type) : Type := List UInt8 → Nat → Except ε (α × Nat)

namespace Reader

variable {ε α β : Type}

def bind (r : Reader ε α) (f : α → Reader ε β) : Reader ε β := fun buf pos =>
  match r buf pos with
  | .error e => .error e
  | .ok (a, pos) => f a buf pos

instance : Monad (Reader ε) where
  pure a := fun _ pos => .ok (a, pos)
  bind := bind

theorem bind_pure_fun (r : Reader ε α) : bind r (fun a _ pos => .ok (a, pos)) = r := by
  funext buf pos
  unfold bind
  cases r buf pos <;> rfl

theorem bind_bind {γ : Type} (r : Reader ε α) (f : α → Reader ε β) (g : β → Reader ε γ) :
    bind (bind r f) g = bind r (fun a => bind (f a) g) := by
  funext buf pos
  unfold bind
  cases r buf pos <;> rfl

instance : LawfulMonad (Reader ε) := LawfulMonad.mk' (Reader ε) bind_pure_fun (fun _ _ => rfl) bind_bind

def fail (e : ε) : Reader ε α := fun _ _ => .error e

/-- A check that was made in memory. -/
def ofExcept (x : Except ε α) : Reader ε α := fun _ pos => x.map (·, pos)

/-- The next `len` bytes; where the buffer has fewer, `err` says so. -/
def slice (len : Nat) (err : Nat → Nat → ε) : Reader ε (List UInt8) := fun buf pos =>
  if pos + len ≤ buf.length then .ok ((buf.drop pos).take len, pos + len) else .error (err pos buf.length)

/-- How many bytes are left. -/
def remaining : Reader ε Nat := fun buf pos => .ok (buf.length - pos, pos)

/-- `n` values, one after the other. -/
def times (r : Reader ε α) : Nat → Reader ε (List α)
  | 0 => pure []
  | n + 1 => do
    let a ← r
    let l ← times r n
    pure (a :: l)

/-- The reader reads exactly `bytes`, as `a`. -/
def Takes (r : Reader ε α) (bytes : List UInt8) (a : α) : Prop :=
  ∀ buf pos rest, pos ≤ buf.length → buf.drop pos = bytes ++ rest → r buf pos = .ok (a, pos + bytes.length)

/-- The reader's answer to `bytes` is `x`; where that is no error, it has read them. -/
def Answers (r : Reader ε α) (bytes : List UInt8) (x : Except ε α) : Prop :=
  ∀ buf pos rest, pos ≤ buf.length → buf.drop pos = bytes ++ rest → r buf pos = x.map (·, pos + bytes.length)

theorem takes_pure (a : α) : (pure a : Reader ε α).Takes [] a := fun _ _ _ _ _ => rfl

theorem answers_fail (e : ε) (bytes : List UInt8) : (fail e : Reader ε α).Answers bytes (.error e) :=
  fun _ _ _ _ _ => rfl

theorem Takes.answers {r : Reader ε α} {bytes : List UInt8} {a : α} (h : r.Takes bytes a) : r.Answers bytes (.ok a) := h

/-- **Sequence**, where the first part may fail. -/
theorem Answers.bind {r : Reader ε α} {f : α → Reader ε β} {bytes bytes' : List UInt8} {x : Except ε α} {y : α → Except ε β}
    (h : r.Answers bytes x) (h' : ∀ a, x = .ok a → (f a).Answers bytes' (y a)) :
    (r >>= f).Answers (bytes ++ bytes') (x >>= y) := by
  intro buf pos rest hpos hdrop
  rw [List.append_assoc] at hdrop
  have hlength := congrArg List.length hdrop
  rw [List.length_drop, List.length_append] at hlength
  have hdrop' : buf.drop (pos + bytes.length) = bytes' ++ rest := by
    rw [← List.drop_drop, hdrop, List.drop_left]
  show Reader.bind r f buf pos = _
  rw [Reader.bind, h buf pos _ hpos hdrop]
  cases x with
  | error e => rfl
  | ok a =>
    have hnext := h' a rfl buf (pos + bytes.length) rest (by omega) hdrop'
    rw [Nat.add_assoc, ← List.length_append] at hnext
    exact hnext

/-- **Sequence.** -/
theorem Takes.bind {r : Reader ε α} {f : α → Reader ε β} {bytes bytes' : List UInt8} {a : α} {b : β}
    (h : r.Takes bytes a) (h' : (f a).Takes bytes' b) : (r >>= f).Takes (bytes ++ bytes') b :=
  h.answers.bind (y := fun _ => .ok b) (fun _ heq => Except.ok.inj heq ▸ h')

theorem Takes.bind_nil {r : Reader ε α} {f : α → Reader ε β} {bytes : List UInt8} {a : α} {b : β}
    (h : r.Takes [] a) (h' : (f a).Takes bytes b) : (r >>= f).Takes bytes b := h.bind h'

theorem Takes.bind_end {r : Reader ε α} {f : α → Reader ε β} {bytes : List UInt8} {a : α} {b : β}
    (h : r.Takes bytes a) (h' : (f a).Takes [] b) : (r >>= f).Takes bytes b := by
  have hend := h.bind h'
  rwa [List.append_nil] at hend

theorem takes_slice (bytes : List UInt8) (err : Nat → Nat → ε) : (slice bytes.length err).Takes bytes bytes := by
  intro buf pos rest hpos hdrop
  have hlength := congrArg List.length hdrop
  rw [List.length_drop, List.length_append] at hlength
  rw [slice, if_pos (by omega), hdrop, List.take_left]

theorem takes_ofExcept {x : Except ε α} {a : α} (h : x = .ok a) : (ofExcept x : Reader ε α).Takes [] a := by
  intro buf pos rest _ _
  rw [ofExcept, h]
  rfl

/-- A check against what is left: that is what the value itself still needs, at least. -/
theorem takes_remaining_bind {f : Nat → Reader ε α} {bytes : List UInt8} {a : α}
    (h : ∀ left, bytes.length ≤ left → (f left).Takes bytes a) : (remaining >>= f).Takes bytes a := by
  intro buf pos rest hpos hdrop
  have hlength := congrArg List.length hdrop
  rw [List.length_drop, List.length_append] at hlength
  exact h (buf.length - pos) (by omega) buf pos rest hpos hdrop

/-- **Repetition.** -/
theorem takes_times {r : Reader ε α} {encode : α → List UInt8} : ∀ l : List α, (∀ a ∈ l, r.Takes (encode a) a) →
    (times r l.length).Takes (l.flatMap encode) l
  | [], _ => takes_pure []
  | a :: l, h => by
    have ih := takes_times l (fun b hb => h b (List.mem_cons_of_mem a hb))
    rw [List.flatMap_cons]
    exact (h a List.mem_cons_self).bind (ih.bind_end (takes_pure (a :: l)))

/-! ## What a reader lets through -/

/-- Every value that the reader returns, wherever it reads, satisfies `P`. -/
def Ensures (r : Reader ε α) (P : α → Prop) : Prop := ∀ buf pos a pos', r buf pos = .ok (a, pos') → P a

section Ensures

variable {r : Reader ε α} {f : α → Reader ε β} {P : α → Prop} {Q : β → Prop}

theorem ensures_pure {a : α} (h : P a) : (pure a : Reader ε α).Ensures P := fun _ _ _ _ hr => by
  cases hr
  exact h

theorem ensures_fail (e : ε) : (fail e : Reader ε α).Ensures P := fun _ _ _ _ hr => by cases hr

theorem ensures_ofExcept (x : Except ε α) : (ofExcept x).Ensures (fun a => x = .ok a) := by
  intro buf pos a pos' hr
  cases x with
  | error e => cases hr
  | ok b =>
    cases hr
    rfl

theorem Ensures.bind (h : r.Ensures P) (hf : ∀ a, P a → (f a).Ensures Q) : (r >>= f).Ensures Q := by
  intro buf pos b pos' hr
  replace hr : Reader.bind r f buf pos = .ok (b, pos') := hr
  unfold Reader.bind at hr
  cases hfirst : r buf pos with
  | error e =>
    rw [hfirst] at hr
    cases hr
  | ok x =>
    rw [hfirst] at hr
    exact hf x.1 (h _ _ _ _ hfirst) _ _ _ _ hr

/-- The first part is not looked at. -/
theorem ensures_bind (hf : ∀ a, (f a).Ensures Q) : (r >>= f).Ensures Q :=
  Ensures.bind (P := fun _ => True) (fun _ _ _ _ _ => trivial) (fun a _ => hf a)

theorem Ensures.times (h : r.Ensures P) : ∀ n, (r.times n).Ensures (fun l => ∀ a ∈ l, P a)
  | 0 => ensures_pure (fun _ ha => absurd ha List.not_mem_nil)
  | n + 1 => h.bind (fun _ ha => (h.times n).bind (fun _ hl => ensures_pure (List.forall_mem_cons.2 ⟨ha, hl⟩)))

end Ensures

/-! ## What a reader has read -/

/-- Whatever the reader returns, it has read bytes that stand in the relation `R` to it. -/
def Reads (r : Reader ε α) (R : α → List UInt8 → Prop) : Prop :=
  ∀ buf pos a pos', r buf pos = .ok (a, pos') →
    ∃ bytes, buf.drop pos = bytes ++ buf.drop pos' ∧ pos' = pos + bytes.length ∧ R a bytes

section Reads

variable {r : Reader ε α} {f : α → Reader ε β} {R : α → List UInt8 → Prop} {S : β → List UInt8 → Prop}

theorem reads_pure {a : α} (h : R a []) : (pure a : Reader ε α).Reads R := fun _ _ _ _ hr => by
  cases hr
  exact ⟨[], rfl, rfl, h⟩

theorem reads_fail (e : ε) : (fail e : Reader ε α).Reads R := fun _ _ _ _ hr => by cases hr

theorem reads_slice (len : Nat) (err : Nat → Nat → ε) : (slice len err).Reads (fun a bytes => a = bytes ∧ bytes.length = len) := by
  intro buf pos a pos' hr
  unfold slice at hr
  split at hr
  · rename_i hle
    cases hr
    have hlength : ((buf.drop pos).take len).length = len := by
      rw [List.length_take, List.length_drop]
      omega
    refine ⟨_, ?_, by rw [hlength], rfl, hlength⟩
    rw [← List.drop_drop, List.take_append_drop]
  · cases hr

theorem Reads.mono {R' : α → List UInt8 → Prop} (h : r.Reads R) (himp : ∀ a bytes, R a bytes → R' a bytes) : r.Reads R' := by
  intro buf pos a pos' hr
  obtain ⟨bytes, hdrop, hpos, hR⟩ := h _ _ _ _ hr
  exact ⟨bytes, hdrop, hpos, himp a bytes hR⟩

/-- **Sequence.** -/
theorem Reads.bind (h : r.Reads R) (hf : ∀ a bytes, R a bytes → (f a).Reads (fun b bytes' => S b (bytes ++ bytes'))) :
    (r >>= f).Reads S := by
  intro buf pos b pos' hr
  replace hr : Reader.bind r f buf pos = .ok (b, pos') := hr
  unfold Reader.bind at hr
  cases hfirst : r buf pos with
  | error e =>
    rw [hfirst] at hr
    cases hr
  | ok x =>
    rw [hfirst] at hr
    obtain ⟨bytes, hdrop, hpos, hR⟩ := h _ _ _ _ hfirst
    obtain ⟨bytes', hdrop', hpos', hS⟩ := hf x.1 bytes hR _ _ _ _ hr
    refine ⟨bytes ++ bytes', ?_, ?_, hS⟩
    · rw [hdrop, hdrop', List.append_assoc]
    · rw [hpos', hpos, List.length_append, Nat.add_assoc]

end Reads

/-! ## Readers that look elsewhere -/

/-- A reader at `off`; the position stays. -/
def peek (off : Nat) (r : Reader ε α) : Reader ε α := fun buf pos => (r buf off).map (fun x => (x.1, pos))

/-- In `buf` the reader reads exactly `bytes`, as `a`, wherever they stand. -/
def TakesIn (buf : List UInt8) (r : Reader ε α) (bytes : List UInt8) (a : α) : Prop :=
  ∀ pos rest, pos ≤ buf.length → buf.drop pos = bytes ++ rest → r buf pos = .ok (a, pos + bytes.length)

variable {buf bytes bytes' : List UInt8} {r : Reader ε α} {f : α → Reader ε β} {a : α} {b : β}

theorem Takes.takesIn (h : r.Takes bytes a) : r.TakesIn buf bytes a := h buf

theorem TakesIn.bind (h : r.TakesIn buf bytes a) (h' : (f a).TakesIn buf bytes' b) :
    (r >>= f).TakesIn buf (bytes ++ bytes') b := by
  intro pos rest hpos hdrop
  rw [List.append_assoc] at hdrop
  have hlength := congrArg List.length hdrop
  rw [List.length_drop, List.length_append] at hlength
  have hdrop' : buf.drop (pos + bytes.length) = bytes' ++ rest := by
    rw [← List.drop_drop, hdrop, List.drop_left]
  show Reader.bind r f buf pos = _
  rw [Reader.bind, h pos _ hpos hdrop, List.length_append, ← Nat.add_assoc]
  exact h' (pos + bytes.length) rest (by omega) hdrop'

theorem TakesIn.bind_nil (h : r.TakesIn buf [] a) (h' : (f a).TakesIn buf bytes b) : (r >>= f).TakesIn buf bytes b :=
  h.bind h'

theorem TakesIn.bind_end (h : r.TakesIn buf bytes a) (h' : (f a).TakesIn buf [] b) : (r >>= f).TakesIn buf bytes b := by
  have hend := h.bind h'
  rwa [List.append_nil] at hend

theorem takesIn_pure (buf : List UInt8) (a : α) : (pure a : Reader ε α).TakesIn buf [] a := fun _ _ _ _ => rfl

/-- What is read elsewhere takes no bytes here. -/
theorem takesIn_peek {off off' : Nat} (h : r buf off = .ok (a, off')) : (peek off r).TakesIn buf [] a := by
  intro pos rest _ _
  rw [peek, h]
  rfl

end Reader
end Heraclitus
