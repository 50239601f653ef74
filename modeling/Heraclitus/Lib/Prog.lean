import Heraclitus.Lib.Fallible
/-!
# Prog — programs whose steps can fail or be cut short

A program runs over a state.  Every step that touches the outside names its site.  At most one step goes wrong in a run: it
is taken in part, and then either the program is told of the failure or the process dies.  `wp` is the weakest precondition
of a postcondition with one clause for each way to stop.
-/
namespace Heraclitus

/-- The step at `site` that has `after` steps there before it goes wrong; it is taken as far as `part` says. -/
structure Mishap (κ : Type) where
  site : κ
  after : Nat
  part : Nat
  fatal : Bool
  deriving DecidableEq

/-- Why a program did not return: by its own decision, because a step failed, or because the process died. -/
inductive Stop (ε : Type) where
  | refused (e : ε)
  | failed
  | died
  deriving DecidableEq

/-- What the program learns of a step that went wrong. -/
def Mishap.stop {κ ε : Type} (x : Mishap κ) : Stop ε := if x.fatal then .died else .failed

/-- Is it the step at `k` that goes wrong?  If not, what is left of the mishap. -/
def strike {κ : Type} [DecidableEq κ] (k : κ) : Option (Mishap κ) → Mishap κ ⊕ Option (Mishap κ)
  | none => .inr none
  | some ⟨site, 0, part, fatal⟩ =>
    if site = k then .inl ⟨site, 0, part, fatal⟩ else .inr (some ⟨site, 0, part, fatal⟩)
  | some ⟨site, n + 1, part, fatal⟩ => .inr (some ⟨site, if site = k then n else n + 1, part, fatal⟩)

def Prog (κ σ ε α : Type) : Type := σ → Option (Mishap κ) → Except (Stop ε) α × σ × Option (Mishap κ)

namespace Prog

variable {κ σ ε α β : Type}

def bind (p : Prog κ σ ε α) (f : α → Prog κ σ ε β) : Prog κ σ ε β := fun s m =>
  match p s m with
  | (.ok a, s, m) => f a s m
  | (.error e, s, m) => (.error e, s, m)

instance : Monad (Prog κ σ ε) where
  pure a := fun s m => (.ok a, s, m)
  bind := bind

/-- A computation in memory. -/
def eval (f : σ → Except ε (α × σ)) : Prog κ σ ε α := fun s m =>
  match f s with
  | .ok (a, s) => (.ok a, s, m)
  | .error e => (.error (.refused e), s, m)

/-- A step that reads. -/
def look [DecidableEq κ] (k : κ) (f : σ → Except ε α) : Prog κ σ ε α := fun s m =>
  match strike k m with
  | .inl x => (.error x.stop, s, none)
  | .inr m => eval (fun s => (f s).map (·, s)) s m

/-- A step that writes: `torn` is what a part of it does. -/
def write [DecidableEq κ] (k : κ) (torn : Nat → σ → σ) (done : σ → σ) : Prog κ σ ε Unit := fun s m =>
  match strike k m with
  | .inl x => (.error x.stop, torn x.part s, none)
  | .inr m => (.ok (), done s, m)

/-- A step that is taken whole or not at all. -/
def step [DecidableEq κ] (k : κ) (done : σ → σ) : Prog κ σ ε Unit := write k (fun _ s => s) done

/-- A check that was made in memory. -/
def ofExcept (x : Except ε α) : Prog κ σ ε α := eval (fun s => x.map (·, s))

def get : Prog κ σ ε σ := eval (fun s => .ok (s, s))

def modify (f : σ → σ) : Prog κ σ ε Unit := eval (fun s => .ok ((), f s))

def refuse (e : ε) : Prog κ σ ε α := eval (fun _ => .error e)

/-- What a program does in memory before it passes an error on. -/
def onError (p : Prog κ σ ε α) (undo : σ → σ) : Prog κ σ ε α := fun s m =>
  match p s m with
  | (.ok a, s, m) => (.ok a, s, m)
  | (.error .died, s, m) => (.error .died, s, m)
  | (.error e, s, m) => (.error e, undo s, m)

end Prog

/-! ## Weakest preconditions -/

/-- `failed` is told where the step was and how far it was taken. -/
structure Post (κ σ ε α : Type) where
  ok : α → σ → Prop
  refused : ε → σ → Prop
  failed : κ → Nat → σ → Prop
  died : σ → Prop

section Rules

variable {κ σ ε α β : Type}

/-- A mishap but for the steps before it. -/
def Mishap.kind (x : Mishap κ) : κ × Nat × Bool := (x.site, x.part, x.fatal)

def Post.Holds (R : Post κ σ ε α) (m : Option (Mishap κ)) : Except (Stop ε) α × σ × Option (Mishap κ) → Prop
  | (.ok a, s, m') => R.ok a s ∧ m'.map Mishap.kind = m.map Mishap.kind
  | (.error (.refused e), s, _) => R.refused e s
  | (.error .failed, s, _) => ∃ k part, m.map Mishap.kind = some (k, part, false) ∧ R.failed k part s
  | (.error .died, s, _) => (∃ k part, m.map Mishap.kind = some (k, part, true)) ∧ R.died s

/-- **Weakest precondition**: from `s`, whatever goes wrong, the program stops as `R` says. -/
def Prog.wp (p : Prog κ σ ε α) (R : Post κ σ ε α) (s : σ) : Prop := ∀ m, R.Holds m (p s m)

variable {R : Post κ σ ε α} {S : Post κ σ ε β} {s : σ} {m m' : Option (Mishap κ)}

theorem Post.Holds.of_kind (h : m'.map Mishap.kind = m.map Mishap.kind) :
    ∀ {r : Except (Stop ε) α × σ × Option (Mishap κ)}, R.Holds m' r → R.Holds m r
  | (.ok _, _, _), hr => ⟨hr.1, hr.2.trans h⟩
  | (.error (.refused _), _, _), hr => hr
  | (.error .failed, _, _), ⟨k, part, hk, hr⟩ => ⟨k, part, h ▸ hk, hr⟩
  | (.error .died, _, _), ⟨⟨k, part, hk⟩, hr⟩ => ⟨⟨k, part, h ▸ hk⟩, hr⟩

theorem Post.Holds.mono {R' : Post κ σ ε α} (hok : ∀ a s, R.ok a s → R'.ok a s)
    (hrefused : ∀ e s, R.refused e s → R'.refused e s) (hfailed : ∀ k part s, R.failed k part s → R'.failed k part s)
    (hdied : ∀ s, R.died s → R'.died s) :
    ∀ {r : Except (Stop ε) α × σ × Option (Mishap κ)}, R.Holds m r → R'.Holds m r
  | (.ok _, _, _), hr => ⟨hok _ _ hr.1, hr.2⟩
  | (.error (.refused _), _, _), hr => hrefused _ _ hr
  | (.error .failed, _, _), ⟨k, part, hk, hr⟩ => ⟨k, part, hk, hfailed _ _ _ hr⟩
  | (.error .died, _, _), ⟨hk, hr⟩ => ⟨hk, hdied _ hr⟩

theorem Prog.wp.mono {R' : Post κ σ ε α} {p : Prog κ σ ε α} (h : p.wp R s) (hok : ∀ a s, R.ok a s → R'.ok a s)
    (hrefused : ∀ e s, R.refused e s → R'.refused e s) (hfailed : ∀ k part s, R.failed k part s → R'.failed k part s)
    (hdied : ∀ s, R.died s → R'.died s) : p.wp R' s :=
  fun m => (h m).mono hok hrefused hfailed hdied

theorem Prog.wp_pure {a : α} (h : R.ok a s) : (pure a : Prog κ σ ε α).wp R s := fun _ => ⟨h, rfl⟩

/-- The result of a first part decides how the whole goes on. -/
theorem Post.Holds.bind {f : α → Prog κ σ ε β} :
    ∀ {r : Except (Stop ε) α × σ × Option (Mishap κ)},
      Post.Holds ⟨fun a s' => (f a).wp S s', S.refused, S.failed, S.died⟩ m r →
      ∀ {p : Prog κ σ ε α}, p s m = r → S.Holds m (Prog.bind p f s m)
  | (.ok a, s', m'), hr, p, hp => by
    rw [Prog.bind, hp]
    exact (hr.1 m').of_kind hr.2
  | (.error (.refused _), _, _), hr, p, hp => by
    rw [Prog.bind, hp]
    exact hr
  | (.error .failed, _, _), hr, p, hp => by
    rw [Prog.bind, hp]
    exact hr
  | (.error .died, _, _), hr, p, hp => by
    rw [Prog.bind, hp]
    exact hr

/-- **Sequence.** -/
theorem Prog.wp_bind {p : Prog κ σ ε α} {f : α → Prog κ σ ε β}
    (h : p.wp ⟨fun a s' => (f a).wp S s', S.refused, S.failed, S.died⟩ s) : (p >>= f).wp S s :=
  fun m => (h m).bind rfl

theorem Prog.wp_eval {f : σ → Except ε (α × σ)} (hok : ∀ a s', f s = .ok (a, s') → R.ok a s')
    (herr : ∀ e, f s = .error e → R.refused e s) : (Prog.eval f : Prog κ σ ε α).wp R s := by
  intro m
  unfold Prog.eval
  split
  · rename_i h
    exact ⟨hok _ _ h, rfl⟩
  · rename_i h
    exact herr _ h

/-- **A step that does not go wrong** leaves a mishap of the same kind. -/
theorem strike_inr [DecidableEq κ] {k : κ} (h : strike k m = .inr m') : m'.map Mishap.kind = m.map Mishap.kind := by
  match m with
  | none =>
    cases h
    rfl
  | some ⟨site, 0, part, fatal⟩ =>
    rw [strike] at h
    split at h
    · cases h
    · cases h
      rfl
  | some ⟨site, n + 1, part, fatal⟩ =>
    cases h
    rfl

/-- A step that goes wrong is the one the mishap names. -/
theorem strike_inl [DecidableEq κ] {k : κ} {x : Mishap κ} (h : strike k m = .inl x) : m = some x ∧ x.site = k := by
  match m with
  | none => cases h
  | some ⟨site, 0, part, fatal⟩ =>
    rw [strike] at h
    split at h
    · rename_i hk
      cases h
      exact ⟨rfl, hk⟩
    · cases h
  | some ⟨site, n + 1, part, fatal⟩ => cases h

theorem Post.Holds.stop [DecidableEq κ] {k : κ} {x : Mishap κ} {s' : σ} (h : strike k m = .inl x)
    (hfailed : x.fatal = false → R.failed k x.part s') (hdied : x.fatal = true → R.died s') :
    R.Holds m (.error x.stop, s', none) := by
  obtain ⟨rfl, rfl⟩ := strike_inl h
  cases hx : x.fatal with
  | false =>
    rw [Mishap.stop, hx]
    exact ⟨x.site, x.part, by rw [Option.map_some, Mishap.kind, hx], hfailed hx⟩
  | true =>
    rw [Mishap.stop, hx]
    exact ⟨⟨x.site, x.part, by rw [Option.map_some, Mishap.kind, hx]⟩, hdied hx⟩

section Steps

variable [DecidableEq κ]

theorem Prog.wp_look {k : κ} {f : σ → Except ε α} (hok : ∀ a, f s = .ok a → R.ok a s)
    (herr : ∀ e, f s = .error e → R.refused e s) (hfailed : ∀ part, R.failed k part s) (hdied : R.died s) :
    (Prog.look k f).wp R s := by
  intro m
  unfold Prog.look
  split
  · rename_i x h
    exact .stop h (fun _ => hfailed _) (fun _ => hdied)
  · rename_i m' h
    refine Post.Holds.of_kind (strike_inr h) (Prog.wp_eval (R := R) (fun a s' hf => ?_) (fun e hf => ?_) m')
    · obtain ⟨b, hb, heq⟩ := map_eq_ok hf
      cases heq
      exact hok _ hb
    · exact herr e (map_eq_error hf)

theorem Prog.wp_write {R : Post κ σ ε Unit} {k : κ} {torn : Nat → σ → σ} {done : σ → σ} (hok : R.ok () (done s))
    (hfailed : ∀ part, R.failed k part (torn part s)) (hdied : ∀ part, R.died (torn part s)) :
    (Prog.write k torn done : Prog κ σ ε Unit).wp R s := by
  intro m
  unfold Prog.write
  split
  · rename_i x h
    exact .stop h (fun _ => hfailed _) (fun _ => hdied _)
  · rename_i m' h
    exact ⟨hok, strike_inr h⟩

theorem Prog.wp_step {R : Post κ σ ε Unit} {k : κ} {done : σ → σ} (hok : R.ok () (done s))
    (hfailed : ∀ part, R.failed k part s) (hdied : R.died s) : (Prog.step k done : Prog κ σ ε Unit).wp R s :=
  Prog.wp_write hok hfailed (fun _ => hdied)

end Steps

theorem Prog.wp_refuse {e : ε} (h : R.refused e s) : (Prog.refuse e : Prog κ σ ε α).wp R s := fun _ => h

theorem Post.Holds.onError {undo : σ → σ} : ∀ {r : Except (Stop ε) α × σ × Option (Mishap κ)},
    Post.Holds ⟨R.ok, fun e s => R.refused e (undo s), fun k part s => R.failed k part (undo s), R.died⟩ m r →
    ∀ {p : Prog κ σ ε α}, p s m = r → R.Holds m (p.onError undo s m)
  | (.ok _, _, _), hr, p, hp => by
    rw [Prog.onError, hp]
    exact hr
  | (.error (.refused _), _, _), hr, p, hp => by
    rw [Prog.onError, hp]
    exact hr
  | (.error .failed, _, _), hr, p, hp => by
    rw [Prog.onError, hp]
    exact hr
  | (.error .died, _, _), hr, p, hp => by
    rw [Prog.onError, hp]
    exact hr

theorem Prog.wp_onError {p : Prog κ σ ε α} {undo : σ → σ}
    (h : p.wp ⟨R.ok, fun e s => R.refused e (undo s), fun k part s => R.failed k part (undo s), R.died⟩ s) :
    (p.onError undo).wp R s :=
  fun m => (h m).onError rfl

/-! ### One statement after another -/

section Next

variable {f : α → Prog κ σ ε β}

theorem Prog.wp_get_bind {f : σ → Prog κ σ ε β} (h : (f s).wp S s) : (Prog.get >>= f).wp S s :=
  Prog.wp_bind (Prog.wp_eval (fun _ _ hs => by cases hs; exact h) nofun)

theorem Prog.wp_modify_bind {f : Unit → Prog κ σ ε β} {g : σ → σ} (h : (f ()).wp S (g s)) :
    (Prog.modify g >>= f).wp S s :=
  Prog.wp_bind (Prog.wp_eval (fun _ _ hs => by cases hs; exact h) nofun)

theorem Prog.wp_modify {R : Post κ σ ε Unit} {g : σ → σ} (h : R.ok () (g s)) :
    (Prog.modify g : Prog κ σ ε Unit).wp R s :=
  Prog.wp_eval (fun _ _ hs => by cases hs; exact h) nofun

theorem Prog.wp_eval_bind {g : σ → Except ε (α × σ)} {a : α} {s' : σ} (hg : g s = .ok (a, s')) (h : (f a).wp S s') :
    (Prog.eval g >>= f).wp S s :=
  Prog.wp_bind (Prog.wp_eval (fun _ _ hs => by cases hg.symm.trans hs; exact h)
    (fun _ hs => by cases hg.symm.trans hs))

/-- A check, however it comes out. -/
theorem Prog.wp_ofExcept_bind {x : Except ε α} (hok : ∀ a, x = .ok a → (f a).wp S s)
    (herr : ∀ e, x = .error e → S.refused e s) : (Prog.ofExcept x >>= f).wp S s := by
  refine Prog.wp_bind ?_
  cases x with
  | ok a => exact Prog.wp_eval (fun _ _ hs => by cases hs; exact hok a rfl) nofun
  | error e => exact Prog.wp_eval nofun (fun _ hs => by cases hs; exact herr e rfl)

/-- A check that succeeds. -/
theorem Prog.wp_ofExcept_ok {x : Except ε α} {a : α} (hx : x = .ok a) (h : (f a).wp S s) :
    (Prog.ofExcept x >>= f).wp S s :=
  Prog.wp_ofExcept_bind (fun b hb => by cases hx.symm.trans hb; exact h) (fun e he => by cases hx.symm.trans he)

section Steps

variable [DecidableEq κ]

/-- A step that reads what is known. -/
theorem Prog.wp_look_ok {k : κ} {g : σ → Except ε α} {a : α} (hg : g s = .ok a) (hfailed : ∀ part, S.failed k part s)
    (hdied : S.died s) (h : (f a).wp S s) : (Prog.look k g >>= f).wp S s :=
  Prog.wp_bind (Prog.wp_look (fun _ hs => by cases hg.symm.trans hs; exact h) (fun _ hs => by cases hg.symm.trans hs)
    hfailed hdied)

theorem Prog.wp_write_bind {f : Unit → Prog κ σ ε β} {k : κ} {torn : Nat → σ → σ} {done : σ → σ}
    (hfailed : ∀ part, S.failed k part (torn part s)) (hdied : ∀ part, S.died (torn part s)) (h : (f ()).wp S (done s)) :
    (Prog.write k torn done >>= f).wp S s :=
  Prog.wp_bind (Prog.wp_write h hfailed hdied)

theorem Prog.wp_step_bind {f : Unit → Prog κ σ ε β} {k : κ} {done : σ → σ} (hfailed : ∀ part, S.failed k part s)
    (hdied : S.died s) (h : (f ()).wp S (done s)) : (Prog.step k done >>= f).wp S s :=
  Prog.wp_bind (Prog.wp_step h hfailed hdied)

end Steps

end Next

/-- **Where nothing goes wrong** a program returns, or refuses. -/
theorem Prog.wp.run {p : Prog κ σ ε α} (h : p.wp R s) : (∃ a s', p s none = (.ok a, s', none) ∧ R.ok a s') ∨
    ∃ e s' m', p s none = (.error (.refused e), s', m') ∧ R.refused e s' := by
  have hr := h none
  match hp : p s none with
  | (.ok a, s', none) =>
    rw [hp] at hr
    exact .inl ⟨a, s', rfl, hr.1⟩
  | (.ok a, s', some x) =>
    rw [hp] at hr
    cases hr.2
  | (.error (.refused e), s', m') =>
    rw [hp] at hr
    exact .inr ⟨e, s', m', rfl, hr⟩
  | (.error .failed, s', m') =>
    rw [hp] at hr
    obtain ⟨k, part, hk, -⟩ := hr
    cases hk
  | (.error .died, s', m') =>
    rw [hp] at hr
    obtain ⟨⟨k, part, hk⟩, -⟩ := hr
    cases hk

/-- However the program stops. -/
def Post.always (P : σ → Prop) : Post κ σ ε α := ⟨fun _ => P, fun _ => P, fun _ _ => P, P⟩

theorem Prog.wp.always {P : σ → Prop} {p : Prog κ σ ε α} (h : p.wp (Post.always P) s) (m : Option (Mishap κ)) :
    P (p s m).2.1 := by
  have hr := h m
  match hp : p s m with
  | (.ok _, _, _) =>
    rw [hp] at hr
    exact hr.1
  | (.error (.refused _), _, _) =>
    rw [hp] at hr
    exact hr
  | (.error .failed, _, _) =>
    rw [hp] at hr
    obtain ⟨_, _, _, hP⟩ := hr
    exact hP
  | (.error .died, _, _) =>
    rw [hp] at hr
    exact hr.2

end Rules

end Heraclitus
