import Mathlib.Data.List.Basic
import Mathlib.Tactic.Basic
/-!
# Delimited — encodings that say where they end

An encoding is delimited when streams that begin with two of its words agree only if both words encode one key and the
streams go on alike.  Such an encoding is injective up to the key, and none of its words is cut from a longer one.  Sequences,
alternatives behind a tag and counted lists are delimited when their parts are.
-/
namespace Heraclitus

variable {α α' β γ γ' : Type} {P Q : α → Prop} {key : α → γ} {key' : α → γ'} {enc enc' : α → List β}

/-- The words of what meets `P` tell the `key`, and where they end. -/
def Delimited (P : α → Prop) (key : α → γ) (enc : α → List β) : Prop :=
  ∀ a b x y, P a → P b → (enc a ++ x = enc b ++ y ↔ key a = key b ∧ x = y)

namespace Delimited

theorem eq_iff (h : Delimited P key enc) {a b : α} (ha : P a) (hb : P b) : enc a = enc b ↔ key a = key b := by
  have := h a b [] [] ha hb
  simpa using this

/-- **No word begins another.** -/
theorem eq_of_prefix (h : Delimited P key enc) {a b : α} (ha : P a) (hb : P b) (hp : enc a <+: enc b) : enc a = enc b := by
  obtain ⟨tail, htail⟩ := hp
  obtain ⟨-, hnil⟩ := (h a b tail [] ha hb).1 (by rw [htail, List.append_nil])
  rw [← htail, hnil, List.append_nil]

theorem mono (h : Delimited P key enc) (hQ : ∀ a, Q a → P a) : Delimited Q key enc :=
  fun a b x y ha hb => h a b x y (hQ a ha) (hQ b hb)

theorem comap (h : Delimited P key enc) (f : α' → α) :
    Delimited (fun a => P (f a)) (fun a => key (f a)) (fun a => enc (f a)) :=
  fun a b => h (f a) (f b)

theorem congr (h : Delimited P key enc) (henc : ∀ a, P a → enc' a = enc a) : Delimited P key enc' := by
  intro a b x y ha hb
  rw [henc a ha, henc b hb]
  exact h a b x y ha hb

/-- One key is as good as another that tells the same things apart. -/
theorem rekey (h : Delimited P key enc) (hkey : ∀ a b, P a → P b → (key a = key b ↔ key' a = key' b)) :
    Delimited P key' enc := by
  intro a b x y ha hb
  rw [h a b x y ha hb, hkey a b ha hb]

/-- Words of one length. -/
theorem of_length {n : Nat} (hlength : ∀ a, P a → (enc a).length = n)
    (hinj : ∀ a b, P a → P b → (enc a = enc b ↔ key a = key b)) : Delimited P key enc := by
  intro a b x y ha hb
  rw [← hinj a b ha hb]
  constructor
  · intro h
    exact List.append_inj h ((hlength a ha).trans (hlength b hb).symm)
  · rintro ⟨henc, rfl⟩
    rw [henc]

/-- **What the first word says may bear on how the second one ends.** -/
theorem dep (h : Delimited P key enc) (h' : ∀ k, Delimited (fun a => P a ∧ key a = k) key' enc') :
    Delimited P (fun a => (key a, key' a)) (fun a => enc a ++ enc' a) := by
  intro a b x y ha hb
  rw [List.append_assoc, List.append_assoc, h a b _ _ ha hb, Prod.mk.injEq, and_assoc]
  refine and_congr_right (fun hkey => ?_)
  exact h' (key b) a b x y ⟨ha, hkey⟩ ⟨hb, rfl⟩

theorem append (h : Delimited P key enc) (h' : Delimited P key' enc') :
    Delimited P (fun a => (key a, key' a)) (fun a => enc a ++ enc' a) :=
  h.dep (fun _ => h'.mono (fun _ ha => ha.1))

/-- Lists of one length, word by word. -/
theorem flatMap (h : Delimited P key enc) : ∀ n,
    Delimited (fun l : List α => (∀ a ∈ l, P a) ∧ l.length = n) (List.map key) (List.flatMap enc)
  | 0, l, l', x, y, hl, hl' => by
    have hnil := List.length_eq_zero_iff.1 hl.2
    have hnil' := List.length_eq_zero_iff.1 hl'.2
    subst hnil hnil'
    simp
  | n + 1, [], _, _, _, hl, _ => absurd hl.2 (by simp)
  | n + 1, _ :: _, [], _, _, _, hl' => absurd hl'.2 (by simp)
  | n + 1, a :: l, b :: l', x, y, hl, hl' => by
    have ih := flatMap h n l l' x y ⟨fun c hc => hl.1 c (List.mem_cons_of_mem a hc), Nat.succ.inj hl.2⟩
      ⟨fun c hc => hl'.1 c (List.mem_cons_of_mem b hc), Nat.succ.inj hl'.2⟩
    rw [List.flatMap_cons, List.flatMap_cons, List.append_assoc, List.append_assoc,
      h a b _ _ (hl.1 a List.mem_cons_self) (hl'.1 b List.mem_cons_self), ih, List.map_cons, List.map_cons, List.cons.injEq,
      and_assoc]

/-- **A list behind its length.** -/
theorem counted {N : Nat} {count : Nat → List β} (hcount : Delimited (fun n => n < N) id count) (h : Delimited P key enc) :
    Delimited (fun l : List α => l.length < N ∧ ∀ a ∈ l, P a) (List.map key)
      (fun l => count l.length ++ l.flatMap enc) := by
  have hlength : Delimited (fun l : List α => l.length < N ∧ ∀ a ∈ l, P a) List.length (fun l => count l.length) :=
    (hcount.comap List.length).mono (fun _ hl => hl.1)
  refine (hlength.dep (fun n => (h.flatMap n).mono (fun l hl => ⟨hl.1.2, hl.2⟩))).rekey (fun l l' _ _ => ?_)
  rw [Prod.mk.injEq, and_iff_right_iff_imp]
  intro hmap
  simpa using congrArg List.length hmap

/-- A value that may be absent, behind a tag. -/
theorem option {absent present : β} (hne : absent ≠ present) (h : Delimited P key enc) :
    Delimited (fun o : Option α => ∀ a, o = some a → P a) (Option.map key)
      (fun o => o.elim [absent] (fun a => present :: enc a))
  | none, none, x, y, _, _ => by simp
  | none, some b, x, y, _, _ => by simp [hne]
  | some a, none, x, y, _, _ => by simp [hne.symm]
  | some a, some b, x, y, ha, hb => by
    have := h a b x y (ha a rfl) (hb b rfl)
    simpa using this

end Delimited
end Heraclitus
