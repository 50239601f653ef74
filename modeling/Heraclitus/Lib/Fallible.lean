import Mathlib.Data.List.Forall2
/-!
# Fallible — loops that can fail, and loops that accumulate

General facts about `for` loops written in `Except`, about loops that push onto an accumulator, and about updates of one
element of a list.
-/
namespace Heraclitus

/-- A chain of guards that each answer `some` lets through exactly what fails every guard. -/
theorem ite_some_eq_none {α : Type} {p : Prop} [Decidable p] {a : α} {e : Option α} :
    (if p then some a else e) = none ↔ ¬p ∧ e = none := by
  split <;> simp_all

instance decidableForallSome {α : Type} {p : α → Prop} [∀ a, Decidable (p a)] :
    ∀ o : Option α, Decidable (∀ a, o = some a → p a)
  | none => isTrue nofun
  | some a => decidable_of_iff (p a) ⟨fun h _ hs => Option.some.inj hs ▸ h, fun h => h a rfl⟩

section Except

variable {ε α β : Type}

instance decidableForallOk {p : α → Prop} [∀ a, Decidable (p a)] : ∀ x : Except ε α, Decidable (∀ a, x = .ok a → p a)
  | .error _ => isTrue nofun
  | .ok a => decidable_of_iff (p a) ⟨fun h _ hs => Except.ok.inj hs ▸ h, fun h => h a rfl⟩

/-- A sequence of two fallible steps returns exactly when the first does and the second does from there. -/
theorem ok_of_bind {x : Except ε α} {f : α → Except ε β} {b : β} (h : (x >>= f) = .ok b) :
    ∃ a, x = .ok a ∧ f a = .ok b := by
  match x, h with
  | .ok a, h => exact ⟨a, rfl, h⟩

theorem map_eq_ok {x : Except ε α} {g : α → β} {b : β} (h : x.map g = .ok b) : ∃ a, x = .ok a ∧ g a = b := by
  cases x with
  | ok a =>
    cases h
    exact ⟨a, rfl, rfl⟩
  | error e => cases h

theorem map_eq_error {x : Except ε α} {g : α → β} {e : ε} (h : x.map g = .error e) : x = .error e := by
  cases x with
  | ok a => cases h
  | error e' =>
    cases h
    rfl

/-- A failing guard in front of a check. -/
theorem guard_eq_ok {p : Prop} [Decidable p] {e : ε} {x : Except ε α} {a : α} :
    (if p then .error e else x) = .ok a ↔ ¬p ∧ x = .ok a := by
  by_cases hp : p
  · rw [if_pos hp]
    exact ⟨fun h => (by cases h), fun h => absurd hp h.1⟩
  · rw [if_neg hp]
    exact ⟨fun h => ⟨hp, h⟩, And.right⟩

/-- A checking loop succeeds exactly when each check does. -/
theorem forM_eq_ok (f : α → Except ε Unit) : ∀ l : List α, forM l f = .ok () ↔ ∀ x ∈ l, f x = .ok ()
  | [] => by simp [pure, Except.pure]
  | x :: l => by
    rw [List.forM_cons, List.forall_mem_cons, ← forM_eq_ok f l]
    refine ⟨fun h => ?_, fun ⟨hx, hl⟩ => ?_⟩
    · obtain ⟨_, hx, hl⟩ := ok_of_bind h
      exact ⟨hx, hl⟩
    · rw [hx]
      exact hl

end Except

section Loops

variable {σ α β : Type}

/-- A loop whose every step appends what `f` says leaves all of it, in order, behind what was there. -/
theorem foldl_append_of_step (proj : σ → List β) {step : σ → α → σ} {f : α → List β}
    (h : ∀ s a, proj (step s a) = proj s ++ f a) :
    ∀ (l : List α) (s : σ), proj (l.foldl step s) = proj s ++ l.flatMap f
  | [], s => by simp
  | a :: l, s => by rw [List.foldl_cons, foldl_append_of_step proj h l, h, List.flatMap_cons, List.append_assoc]

/-- What every step of a loop keeps, the loop keeps. -/
theorem foldl_preserves {P : σ → Prop} {step : σ → α → σ} (h : ∀ s a, P s → P (step s a)) :
    ∀ (l : List α) (s : σ), P s → P (l.foldl step s)
  | [], _, hs => hs
  | a :: l, s, hs => foldl_preserves h l (step s a) (h s a hs)

/-- Where every step adds to a property what `F` says, so does the loop. -/
theorem foldl_iff_of_step {M : σ → Prop} {F : α → Prop} {step : σ → α → σ} (h : ∀ s a, M (step s a) ↔ F a ∨ M s) :
    ∀ (l : List α) (s : σ), M (l.foldl step s) ↔ (∃ a ∈ l, F a) ∨ M s
  | [], s => by simp
  | a :: l, s => by
    rw [List.foldl_cons, foldl_iff_of_step h l, h, List.exists_mem_cons_iff]
    exact or_left_comm.trans or_assoc.symm

end Loops

theorem Except.toOption_eq_some {ε α : Type} {x : Except ε α} {a : α} (h : x.toOption = some a) : x = .ok a := by
  cases x with
  | error e => cases h
  | ok b => exact congrArg Except.ok (Option.some.inj h)

section ToOption

variable {ε α β : Type}

@[simp] theorem Except.toOption_ok (a : α) : (Except.ok a : Except ε α).toOption = some a := rfl

@[simp] theorem Except.toOption_pure (a : α) : (pure a : Except ε α).toOption = some a := rfl

@[simp] theorem Except.toOption_error (e : ε) : (Except.error e : Except ε α).toOption = none := rfl

@[simp] theorem Except.toOption_throw (e : ε) : (throw e : Except ε α).toOption = none := rfl

@[simp] theorem Except.toOption_bind (x : Except ε α) (f : α → Except ε β) :
    (x >>= f).toOption = x.toOption.bind (fun a => (f a).toOption) := by
  cases x <;> rfl

@[simp] theorem Except.toOption_map (x : Except ε α) (f : α → β) : (f <$> x).toOption = x.toOption.map f := by
  cases x <;> rfl

theorem Except.toOption_eq_none {x : Except ε α} : x.toOption = none ↔ ∃ e, x = .error e := by
  cases x with
  | error e => exact ⟨fun _ => ⟨e, rfl⟩, fun _ => rfl⟩
  | ok a =>
    refine ⟨fun h => (by cases h), ?_⟩
    rintro ⟨e, h⟩
    cases h

/-- A loop whose every step pushes what it makes of its element. -/
theorem Except.toOption_forIn {σ γ : Type} {R : α → β → Prop} {f : α → Option γ} {g : σ → γ → σ}
    {k : β → σ → Except ε (ForInStep σ)} (hk : ∀ a b, R a b → ∀ s, (k b s).toOption = (f a).map (fun c => .yield (g s c)))
    {as : List α} {bs : List β} (h : List.Forall₂ R as bs) :
    ∀ s, (forIn bs s k).toOption = (as.mapM f).map (fun cs => cs.foldl g s) := by
  induction h with
  | nil => exact fun s => rfl
  | cons hab _ ih =>
    intro s
    rw [List.forIn_cons, Except.toOption_bind, hk _ _ hab, List.mapM_cons]
    cases f _ with
    | none => rfl
    | some c =>
      dsimp only [Option.map_some, Option.bind_some, Option.bind_eq_bind]
      rw [ih, Option.map_bind, Option.map_eq_bind]
      rfl

end ToOption

/-- A loop whose every step answers does, and its answers are in the same relation to what it went through. -/
theorem mapM_eq_some_of_forall {α β : Type} {f : α → Option β} {R : α → β → Prop} : ∀ {l : List α},
    (∀ a ∈ l, ∃ b, f a = some b ∧ R a b) → ∃ bs, l.mapM f = some bs ∧ List.Forall₂ R l bs
  | [], _ => ⟨[], rfl, .nil⟩
  | a :: l, h => by
    obtain ⟨b, hb, hR⟩ := h a (List.mem_cons_self ..)
    obtain ⟨bs, hbs, hall⟩ := mapM_eq_some_of_forall (fun x hx => h x (List.mem_cons_of_mem _ hx))
    exact ⟨b :: bs, by rw [List.mapM_cons, hb, hbs]; rfl, .cons hR hall⟩

end Heraclitus
