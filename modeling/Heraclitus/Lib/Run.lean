import Heraclitus.Lib.Fallible
/-!
# Run — transition systems and the runs that meet a condition

A system is a partial step function.  `Run step ok s₀ acts s` says that the actions `acts` lead from `s₀` to `s` and that
`ok` held before every one of them; an invariant of the steps that meet `ok` holds at the end of such a run.
-/
namespace Heraclitus

variable {σ α : Type}

inductive Run (step : σ → α → Option σ) (ok : σ → α → Prop) (s₀ : σ) : List α → σ → Prop
  | start : Run step ok s₀ [] s₀
  | next {acts : List α} {s s' : σ} (a : α) : Run step ok s₀ acts s → ok s a → step s a = some s' →
      Run step ok s₀ (acts ++ [a]) s'

variable {step : σ → α → Option σ} {ok ok' : σ → α → Prop} {s₀ s : σ} {acts : List α}

/-- **The induction rule of runs.** -/
theorem Run.invariant {Inv : σ → Prop} (h₀ : Inv s₀)
    (hstep : ∀ s a s', Inv s → ok s a → step s a = some s' → Inv s') (h : Run step ok s₀ acts s) : Inv s := by
  induction h with
  | start => exact h₀
  | next a _ hok hs ih => exact hstep _ a _ ih hok hs

theorem Run.weaken (hok : ∀ s a, ok s a → ok' s a) (h : Run step ok s₀ acts s) : Run step ok' s₀ acts s := by
  induction h with
  | start => exact .start
  | next a _ h hs ih => exact .next a ih (hok _ a h) hs

/-- The state a list of actions leads to, if every one of them is enabled. -/
def runs (step : σ → α → Option σ) : σ → List α → Option σ
  | s, [] => some s
  | s, a :: acts => (step s a).bind (fun s' => runs step s' acts)

/-- Every action meets `ok` where it is taken. -/
def allOk (step : σ → α → Option σ) (ok : σ → α → Prop) : σ → List α → Prop
  | _, [] => True
  | s, a :: acts => ok s a ∧ ∀ s', step s a = some s' → allOk step ok s' acts

instance instDecidableAllOk [∀ s a, Decidable (ok s a)] : ∀ (s : σ) (acts : List α), Decidable (allOk step ok s acts)
  | _, [] => isTrue trivial
  | s, a :: acts =>
    have := fun s' => instDecidableAllOk s' acts
    inferInstanceAs (Decidable (ok s a ∧ ∀ s', step s a = some s' → allOk step ok s' acts))

theorem Run.cons (a : α) {s₁ : σ} (hok : ok s₀ a) (hs : step s₀ a = some s₁) (h : Run step ok s₁ acts s) :
    Run step ok s₀ (a :: acts) s := by
  induction h with
  | start =>
    have h : Run step ok s₀ [] s₀ := .start
    exact h.next a hok hs
  | next b _ hb hsb ih => exact .next b ih hb hsb

theorem run_of_runs : ∀ {acts : List α} {s₀ : σ}, runs step s₀ acts = some s → allOk step ok s₀ acts →
    Run step ok s₀ acts s
  | [], _, h, _ => by cases h; exact .start
  | a :: acts, s₀, h, ⟨hok, hrest⟩ => by
    obtain ⟨s₁, hs, hruns⟩ := Option.bind_eq_some_iff.1 h
    exact .cons a hok hs (run_of_runs hruns (hrest s₁ hs))

theorem allOk_of_forall (hok : ∀ s a, ok s a) : ∀ (acts : List α) (s : σ), allOk step ok s acts
  | [], _ => trivial
  | a :: acts, s => ⟨hok s a, fun s' _ => allOk_of_forall hok acts s'⟩

theorem allOk_of_append : ∀ {acts acts' : List α} {s : σ}, allOk step ok s (acts ++ acts') → allOk step ok s acts
  | [], _, _, _ => trivial
  | _ :: _, _, _, h => ⟨h.1, fun s' hs => allOk_of_append (h.2 s' hs)⟩

/-- Where steps that are `ok` are taken and keep the invariant, so is a list of them. -/
theorem runs_of_allOk {I : σ → Prop} (hstep : ∀ s a, I s → ok s a → ∃ s', step s a = some s' ∧ I s') :
    ∀ {acts : List α} {s : σ}, I s → allOk step ok s acts → ∃ s', runs step s acts = some s' ∧ I s'
  | [], s, hI, _ => ⟨s, rfl, hI⟩
  | a :: acts, s, hI, ⟨hok, hrest⟩ => by
    obtain ⟨s₁, hs, hI₁⟩ := hstep s a hI hok
    obtain ⟨s', hs', hI'⟩ := runs_of_allOk hstep hI₁ (hrest s₁ hs)
    exact ⟨s', by rw [runs, hs, Option.bind_some, hs'], hI'⟩

/-- **A condition on steps, exactly.**  Where a step from a state with the invariant is `ok` just when it is `ok'`, and keeps the
invariant then, all steps of a run are `ok` just when all are `ok'`. -/
theorem allOk_iff {I : σ → Prop} (hiff : ∀ s a, I s → (ok s a ↔ ok' s a))
    (hstep : ∀ s a s', I s → ok s a → step s a = some s' → I s') :
    ∀ {acts : List α} {s : σ}, I s → (allOk step ok s acts ↔ allOk step ok' s acts)
  | [], _, _ => Iff.rfl
  | a :: acts, s, hI => by
    constructor
    · rintro ⟨hok, hrest⟩
      exact ⟨(hiff s a hI).1 hok, fun s' hs => (allOk_iff hiff hstep (hstep s a s' hI hok hs)).1 (hrest s' hs)⟩
    · rintro ⟨hok', hrest⟩
      have hok := (hiff s a hI).2 hok'
      exact ⟨hok, fun s' hs => (allOk_iff hiff hstep (hstep s a s' hI hok hs)).2 (hrest s' hs)⟩

/-- **A property of every state, exactly.**  Where each step that starts with the property keeps it just when the step is
`ok`, the property holds in every state of a run just when every step of it is `ok`. -/
theorem always_iff_allOk {P I : σ → Prop}
    (hstep : ∀ s a s', I s → P s → step s a = some s' → I s' ∧ (P s' ↔ ok s a)) :
    ∀ (acts : List α) (s : σ), I s → P s → (runs step s acts).isSome →
      ((∀ n s', runs step s (acts.take n) = some s' → P s') ↔ allOk step ok s acts)
  | [], s, _, hP, _ => by
    refine ⟨fun _ => trivial, fun _ n s' h => ?_⟩
    rw [List.take_nil] at h
    cases h
    exact hP
  | a :: acts, s, hI, hP, hrun => by
    obtain ⟨last, hlast⟩ := Option.isSome_iff_exists.1 hrun
    obtain ⟨s₁, hs, hruns⟩ := Option.bind_eq_some_iff.1 hlast
    obtain ⟨hI₁, hP₁⟩ := hstep s a s₁ hI hP hs
    have ih : P s₁ → _ := fun hP₁ => always_iff_allOk hstep acts s₁ hI₁ hP₁ (Option.isSome_iff_exists.2 ⟨_, hruns⟩)
    have hcons : ∀ n, runs step s ((a :: acts).take (n + 1)) = runs step s₁ (acts.take n) := fun n => by
      rw [List.take_succ_cons, runs, hs, Option.bind_some]
    constructor
    · intro hall
      have hP₁' : P s₁ := hall 1 s₁ (hcons 0)
      refine ⟨hP₁.1 hP₁', fun s' hs' => ?_⟩
      cases hs.symm.trans hs'
      exact (ih hP₁').1 fun n s' h => hall (n + 1) s' ((hcons n).trans h)
    · rintro ⟨hok, hrest⟩ n s' h
      cases n with
      | zero =>
        cases h
        exact hP
      | succ n =>
        rw [hcons] at h
        exact (ih (hP₁.2 hok)).2 (hrest s₁ hs) n s' h

end Heraclitus
