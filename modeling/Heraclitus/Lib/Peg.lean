import Mathlib.Data.List.TakeWhile
import Mathlib.Data.List.Flatten
/-!
# Peg — parsing expressions, and the pairs that their rules leave

A grammar gives each rule an expression.  Outside of atomic rules blanks may stand between the parts of a sequence and between
repetitions; a rule leaves a pair of its name, its text and the pairs inside, an atomic one without pairs inside.  `Shape` is what
the pairs of an expression look like, whatever the text.
-/
namespace Heraclitus

inductive Peg (ρ : Type) where
  | str (s : List Char)
  | insens (s : List Char)
  | char (p : Char → Bool)
  | soi
  | eoi
  | rule (r : ρ)
  | seq (a b : Peg ρ)
  | alt (a b : Peg ρ)
  | opt (a : Peg ρ)
  | star (a : Peg ρ)
  /-- What follows the first `a` of a repetition. -/
  | more (a : Peg ρ)
  | no (a : Peg ρ)

namespace Peg

variable {ρ : Type}

def plus (a : Peg ρ) : Peg ρ := .seq a (.star a)

/-- One after the other. -/
def all : List (Peg ρ) → Peg ρ
  | [] => .str []
  | [a] => a
  | a :: as => .seq a (all as)

/-- The first that is found. -/
def any : List (Peg ρ) → Peg ρ
  | [] => .no (.str [])
  | [a] => a
  | a :: as => .alt a (any as)

inductive Pair (ρ : Type) where
  | mk (rule : ρ) (text : List Char) (inner : List (Pair ρ))

def Pair.rule : Pair ρ → ρ
  | .mk rule _ _ => rule

def Pair.text : Pair ρ → List Char
  | .mk _ text _ => text

def Pair.inner : Pair ρ → List (Pair ρ)
  | .mk _ _ inner => inner

inductive Kind where
  | normal | atomic | compound

/-- Where an expression stands: among blanks, without them, or without them and without pairs. -/
inductive Context where
  | spaced | tight | silent
  deriving DecidableEq

def Kind.inside : Kind → Context → Context
  | .normal, ctx => ctx
  | .atomic, _ => .silent
  | .compound, _ => .tight

structure Grammar (ρ : Type) where
  kind : ρ → Kind
  body : ρ → Peg ρ
  blank : Char → Bool

inductive Outcome (ρ : Type) where
  | starved
  | fails
  | leaves (pairs : List (Pair ρ)) (rest : List Char)

def Outcome.andThen (o : Outcome ρ) (f : List Char → Outcome ρ) : Outcome ρ :=
  match o with
  | .leaves ps r =>
    match f r with
    | .leaves qs rest => .leaves (ps ++ qs) rest
    | o => o
  | o => o

def Outcome.orElse (o : Outcome ρ) (other : Outcome ρ) : Outcome ρ :=
  match o with
  | .fails => other
  | o => o

def Grammar.skip (G : Grammar ρ) (ctx : Context) (s : List Char) : List Char :=
  if ctx = .spaced then s.dropWhile G.blank else s

def emit (ctx : Context) (r : ρ) (text : List Char) (ps : List (Pair ρ)) : List (Pair ρ) :=
  if ctx = .silent then ps else [.mk r text ps]

/-- An expression at the front of a text, `size` being the length of the whole input. -/
def run (G : Grammar ρ) (size : Nat) : Nat → Context → Peg ρ → List Char → Outcome ρ
  | 0, _, _, _ => .starved
  | fuel + 1, ctx, e, s =>
    match e with
    | .str t => if t.isPrefixOf s then .leaves [] (s.drop t.length) else .fails
    | .insens t =>
      if (s.take t.length).map Char.toLower = t.map Char.toLower then .leaves [] (s.drop t.length) else .fails
    | .char p =>
      match s with
      | [] => .fails
      | c :: s => if p c then .leaves [] s else .fails
    | .soi => if s.length = size then .leaves [] s else .fails
    | .eoi => if s = [] then .leaves [] s else .fails
    | .rule r =>
      match run G size fuel ((G.kind r).inside ctx) (G.body r) s with
      | .leaves ps rest => .leaves (emit ctx r (s.take (s.length - rest.length)) ps) rest
      | o => o
    | .seq a b => (run G size fuel ctx a s).andThen (fun r => run G size fuel ctx b (G.skip ctx r))
    | .alt a b => (run G size fuel ctx a s).orElse (run G size fuel ctx b s)
    | .opt a => (run G size fuel ctx a s).orElse (.leaves [] s)
    | .star a => ((run G size fuel ctx a s).andThen (run G size fuel ctx (.more a))).orElse (.leaves [] s)
    | .more a => ((run G size fuel ctx a (G.skip ctx s)).andThen (run G size fuel ctx (.more a))).orElse (.leaves [] s)
    | .no a =>
      match run G size fuel ctx a s with
      | .leaves _ _ => .fails
      | .fails => .leaves [] s
      | .starved => .starved

attribute [local simp] run

/-- The expression is found at the front of `s`, with `rest` behind it. -/
def Parses (G : Grammar ρ) (size : Nat) (ctx : Context) (e : Peg ρ) (s : List Char) (ps : List (Pair ρ)) (rest : List Char) :
    Prop := ∃ fuel, run G size fuel ctx e s = .leaves ps rest

variable {G : Grammar ρ} {size fuel : Nat} {ctx : Context} {a b e : Peg ρ} {s rest : List Char} {ps : List (Pair ρ)}
variable {o o' : Outcome ρ} {f : List Char → Outcome ρ}

/-! ## Inversions -/

theorem andThen_eq (h : o.andThen f = .leaves ps rest) :
    ∃ p r q, o = .leaves p r ∧ f r = .leaves q rest ∧ ps = p ++ q := by
  unfold Outcome.andThen at h
  split at h
  · split at h
    · rename_i hq
      cases h
      exact ⟨_, _, _, rfl, hq, rfl⟩
    · rename_i hno
      exact absurd h (hno _ _)
  · rename_i hno
    exact absurd h (hno _ _)

theorem orElse_eq (h : o.orElse o' = .leaves ps rest) : o = .leaves ps rest ∨ o = .fails ∧ o' = .leaves ps rest := by
  unfold Outcome.orElse at h
  split at h
  · exact Or.inr ⟨rfl, h⟩
  · exact Or.inl h

theorem Parses.str {t : List Char} (h : Parses G size ctx (.str t) s ps rest) : s = t ++ rest ∧ ps = [] := by
  obtain ⟨_ | fuel, h⟩ := h
  · cases h
  · rw [run] at h
    split at h
    · rename_i hpre
      cases h
      obtain ⟨r, rfl⟩ := List.isPrefixOf_iff_prefix.1 hpre
      exact ⟨by rw [List.drop_left], rfl⟩
    · cases h

theorem Parses.insens {t : List Char} (h : Parses G size ctx (.insens t) s ps rest) :
    ∃ m, s = m ++ rest ∧ m.map Char.toLower = t.map Char.toLower ∧ ps = [] := by
  obtain ⟨_ | fuel, h⟩ := h
  · cases h
  · rw [run] at h
    split at h
    · rename_i heq
      cases h
      exact ⟨_, (List.take_append_drop _ _).symm, heq, rfl⟩
    · cases h

theorem Parses.char {p : Char → Bool} (h : Parses G size ctx (.char p) s ps rest) :
    ∃ c, s = c :: rest ∧ p c = true ∧ ps = [] := by
  obtain ⟨_ | fuel, h⟩ := h
  · cases h
  · cases s with
    | nil => cases h
    | cons c s =>
      simp only [run] at h
      split at h
      · rename_i hp
        cases h
        exact ⟨c, rfl, hp, rfl⟩
      · cases h

theorem Parses.soi (h : Parses G size ctx .soi s ps rest) : rest = s ∧ ps = [] := by
  obtain ⟨_ | fuel, h⟩ := h
  · cases h
  · rw [run] at h
    split at h <;> cases h
    exact ⟨rfl, rfl⟩

theorem Parses.eoi (h : Parses G size ctx .eoi s ps rest) : rest = s ∧ ps = [] := by
  obtain ⟨_ | fuel, h⟩ := h
  · cases h
  · rw [run] at h
    split at h <;> cases h
    exact ⟨rfl, rfl⟩

theorem Parses.rule {r : ρ} (h : Parses G size ctx (.rule r) s ps rest) : ∃ inner,
    Parses G size ((G.kind r).inside ctx) (G.body r) s inner rest ∧
      ps = emit ctx r (s.take (s.length - rest.length)) inner := by
  obtain ⟨_ | fuel, h⟩ := h
  · cases h
  · rw [run] at h
    split at h
    · rename_i hrun
      cases h
      exact ⟨_, ⟨fuel, hrun⟩, rfl⟩
    · rename_i hno
      exact absurd h (hno _ _)

theorem Parses.seq (h : Parses G size ctx (.seq a b) s ps rest) : ∃ p r q, Parses G size ctx a s p r ∧
    Parses G size ctx b (G.skip ctx r) q rest ∧ ps = p ++ q := by
  obtain ⟨_ | fuel, h⟩ := h
  · cases h
  · obtain ⟨p, r, q, hp, hq, rfl⟩ := andThen_eq h
    exact ⟨p, r, q, ⟨fuel, hp⟩, ⟨fuel, hq⟩, rfl⟩

theorem Parses.alt (h : Parses G size ctx (.alt a b) s ps rest) :
    Parses G size ctx a s ps rest ∨ Parses G size ctx b s ps rest := by
  obtain ⟨_ | fuel, h⟩ := h
  · cases h
  · rcases orElse_eq h with h | ⟨-, h⟩
    · exact Or.inl ⟨fuel, h⟩
    · exact Or.inr ⟨fuel, h⟩

theorem Parses.star (h : Parses G size ctx (.star a) s ps rest) : (∃ p r q, Parses G size ctx a s p r ∧
    Parses G size ctx (.more a) r q rest ∧ ps = p ++ q) ∨ rest = s ∧ ps = [] := by
  obtain ⟨_ | fuel, h⟩ := h
  · cases h
  · rcases orElse_eq h with h | ⟨-, h⟩
    · obtain ⟨p, r, q, hp, hq, rfl⟩ := andThen_eq h
      exact Or.inl ⟨p, r, q, ⟨fuel, hp⟩, ⟨fuel, hq⟩, rfl⟩
    · cases h
      exact Or.inr ⟨rfl, rfl⟩

theorem Parses.no (h : Parses G size ctx (.no a) s ps rest) :
    (∃ fuel, run G size fuel ctx a s = .fails) ∧ rest = s ∧ ps = [] := by
  obtain ⟨_ | fuel, h⟩ := h
  · cases h
  · rw [run] at h
    split at h
    · cases h
    · rename_i hfails
      cases h
      exact ⟨⟨fuel, hfails⟩, rfl, rfl⟩
    · cases h

theorem Parses.no_str {t : List Char} (h : Parses G size ctx (.no (.str t)) s ps rest) : ¬ t <+: s ∧ rest = s ∧ ps = [] := by
  obtain ⟨⟨fuel, hfails⟩, hrest⟩ := h.no
  refine ⟨fun hpre => ?_, hrest⟩
  cases fuel with
  | zero => cases hfails
  | succ fuel =>
    rw [run, if_pos (List.isPrefixOf_iff_prefix.2 hpre)] at hfails
    cases hfails

theorem Parses.any : ∀ {es : List (Peg ρ)}, Parses G size ctx (.any es) s ps rest → ∃ e ∈ es, Parses G size ctx e s ps rest
  | [], h => absurd (List.nil_prefix) (Parses.no_str h).1
  | [e], h => ⟨e, List.mem_singleton_self e, h⟩
  | e :: e' :: es, h => by
    rcases Parses.alt (b := Peg.any (e' :: es)) h with h | h
    · exact ⟨e, List.mem_cons_self, h⟩
    · obtain ⟨d, hd, h⟩ := Parses.any h
      exact ⟨d, List.mem_cons_of_mem _ hd, h⟩

theorem Grammar.skip_of_ne (h : ctx ≠ .spaced) : G.skip ctx s = s := if_neg h

/-- **The induction rule of repetitions without blanks**: what holds of none, and of one `a` in front of a list of them. -/
theorem Parses.star_induction {P : List Char → List Char → Prop} (hctx : ctx ≠ .spaced) (hnil : ∀ s, P s s)
    (hcons : ∀ s p r rest, Parses G size ctx a s p r → P r rest → P s rest) (h : Parses G size ctx (.star a) s ps rest) :
    P s rest := by
  have hmore : ∀ fuel s ps rest, run G size fuel ctx (.more a) s = .leaves ps rest → P s rest := by
    intro fuel
    induction fuel with
    | zero =>
      intro s ps rest h
      cases h
    | succ fuel ih =>
      intro s ps rest h
      rcases orElse_eq h with h | ⟨-, h⟩
      · obtain ⟨p, r, q, hp, hq, rfl⟩ := andThen_eq h
        rw [G.skip_of_ne hctx] at hp
        exact hcons s p r rest ⟨fuel, hp⟩ (ih r q rest hq)
      · cases h
        exact hnil s
  rcases h.star with ⟨p, r, q, hp, ⟨fuel, hq⟩, rfl⟩ | ⟨rfl, rfl⟩
  · exact hcons s p r rest hp (hmore fuel r q rest hq)
  · exact hnil _

/-- A repetition of what lacks a character lacks it. -/
theorem Parses.star_free {x : Char} (hctx : ctx ≠ .spaced)
    (hone : ∀ s p rest, Parses G size ctx a s p rest → ∃ m, s = m ++ rest ∧ x ∉ m) (h : Parses G size ctx (.star a) s ps rest) :
    ∃ m, s = m ++ rest ∧ x ∉ m := by
  refine h.star_induction (P := fun s rest => ∃ m, s = m ++ rest ∧ x ∉ m) hctx (fun s => ⟨[], rfl, List.not_mem_nil⟩) ?_
  rintro s p r rest hp ⟨m, rfl, hm⟩
  obtain ⟨m', rfl, hm'⟩ := hone s p _ hp
  exact ⟨m' ++ m, (List.append_assoc ..).symm, fun hmem => (List.mem_append.1 hmem).elim hm' hm⟩

/-! ## Texts -/

/-- What is left is the end of what was there. -/
theorem Parses.suffix : ∀ {e : Peg ρ} {ctx : Context} {s rest : List Char} {ps : List (Pair ρ)},
    Parses G size ctx e s ps rest → rest <:+ s := by
  have hrun : ∀ fuel ctx (e : Peg ρ) s ps rest, run G size fuel ctx e s = .leaves ps rest → rest <:+ s := by
    intro fuel
    induction fuel with
    | zero =>
      intro ctx e s ps rest h
      cases h
    | succ fuel ih =>
      intro ctx e s ps rest h
      have hskip : ∀ s, G.skip ctx s <:+ s := fun s => by
        unfold Grammar.skip
        split
        · exact List.dropWhile_suffix _
        · exact List.suffix_rfl
      have hp : Parses G size ctx e s ps rest := ⟨fuel + 1, h⟩
      match e with
      | .str t => exact ⟨t, hp.str.1.symm⟩
      | .insens t =>
        obtain ⟨m, rfl, -⟩ := hp.insens
        exact List.suffix_append _ _
      | .char p =>
        obtain ⟨c, rfl, -⟩ := hp.char
        exact List.suffix_cons _ _
      | .soi => exact hp.soi.1 ▸ List.suffix_rfl
      | .eoi => exact hp.eoi.1 ▸ List.suffix_rfl
      | .no a => exact hp.no.2.1 ▸ List.suffix_rfl
      | .rule r =>
        rw [run] at h
        split at h
        · rename_i hrun
          cases h
          exact ih _ _ _ _ _ hrun
        · rename_i hno
          exact absurd h (hno _ _)
      | .seq a b =>
        obtain ⟨p, r, q, hp, hq, -⟩ := andThen_eq h
        exact ((ih _ _ _ _ _ hq).trans (hskip r)).trans (ih _ _ _ _ _ hp)
      | .alt a b =>
        rcases orElse_eq h with h | ⟨-, h⟩
        · exact ih _ _ _ _ _ h
        · exact ih _ _ _ _ _ h
      | .opt a =>
        rcases orElse_eq h with h | ⟨-, h⟩
        · exact ih _ _ _ _ _ h
        · cases h
          exact List.suffix_rfl
      | .star a =>
        rcases orElse_eq h with h | ⟨-, h⟩
        · obtain ⟨p, r, q, hp, hq, -⟩ := andThen_eq h
          exact (ih _ _ _ _ _ hq).trans (ih _ _ _ _ _ hp)
        · cases h
          exact List.suffix_rfl
      | .more a =>
        rcases orElse_eq h with h | ⟨-, h⟩
        · obtain ⟨p, r, q, hp, hq, -⟩ := andThen_eq h
          exact ((ih _ _ _ _ _ hq).trans (ih _ _ _ _ _ hp)).trans (hskip s)
        · cases h
          exact List.suffix_rfl
  intro e ctx s rest ps ⟨fuel, h⟩
  exact hrun fuel _ _ _ _ _ h

/-! ## Shapes -/

/-- A pair of the rule, as the grammar makes them among blanks. -/
def Tree (G : Grammar ρ) (size : Nat) (r : ρ) (p : Pair ρ) : Prop := ∃ s rest,
  Parses G size ((G.kind r).inside .spaced) (G.body r) s p.inner rest ∧ s = p.text ++ rest ∧ p.rule = r

/-- What pairs an expression leaves among blanks, by the pairs of the rules. -/
def Shape (T : ρ → Pair ρ → Prop) : Peg ρ → List (Pair ρ) → Prop
  | .rule r, ps => ∃ p, ps = [p] ∧ T r p
  | .seq a b, ps => ∃ p q, ps = p ++ q ∧ Shape T a p ∧ Shape T b q
  | .alt a b, ps => Shape T a ps ∨ Shape T b ps
  | .opt a, ps => ps = [] ∨ Shape T a ps
  | .star a, ps => ∃ pss : List (List (Pair ρ)), ps = pss.flatten ∧ ∀ p ∈ pss, Shape T a p
  | .more a, ps => ∃ pss : List (List (Pair ρ)), ps = pss.flatten ∧ ∀ p ∈ pss, Shape T a p
  | _, ps => ps = []

/-- **What an expression leaves has its shape.** -/
theorem Parses.shape (h : Parses G size .spaced e s ps rest) : Shape (Tree G size) e ps := by
  obtain ⟨fuel, h⟩ := h
  induction fuel generalizing e s ps rest with
  | zero => cases h
  | succ fuel ih =>
    have hparses : Parses G size .spaced e s ps rest := ⟨fuel + 1, h⟩
    match e with
    | .str t => exact hparses.str.2
    | .insens t =>
      obtain ⟨m, -, -, hps⟩ := hparses.insens
      exact hps
    | .char p =>
      obtain ⟨c, -, -, hps⟩ := hparses.char
      exact hps
    | .soi => exact hparses.soi.2
    | .eoi => exact hparses.eoi.2
    | .no a => exact hparses.no.2.2
    | .rule r =>
      obtain ⟨inner, hinner, rfl⟩ := hparses.rule
      obtain ⟨m, rfl⟩ := hinner.suffix
      refine ⟨_, rfl, m ++ rest, rest, hinner, ?_, rfl⟩
      rw [List.length_append, Nat.add_sub_cancel, List.take_left]
      rfl
    | .seq a b =>
      obtain ⟨p, r, q, hp, hq, rfl⟩ := andThen_eq h
      exact ⟨p, q, rfl, ih hp, ih hq⟩
    | .alt a b =>
      rcases orElse_eq h with h | ⟨-, h⟩
      · exact Or.inl (ih h)
      · exact Or.inr (ih h)
    | .opt a =>
      rcases orElse_eq h with h | ⟨-, h⟩
      · exact Or.inr (ih h)
      · cases h
        exact Or.inl rfl
    | .star a =>
      rcases orElse_eq h with h | ⟨-, h⟩
      · obtain ⟨p, r, q, hp, hq, rfl⟩ := andThen_eq h
        obtain ⟨pss, rfl, hall⟩ := ih hq
        exact ⟨p :: pss, rfl, List.forall_mem_cons.2 ⟨ih hp, hall⟩⟩
      · cases h
        exact ⟨[], rfl, fun _ hp => (List.not_mem_nil hp).elim⟩
    | .more a =>
      rcases orElse_eq h with h | ⟨-, h⟩
      · obtain ⟨p, r, q, hp, hq, rfl⟩ := andThen_eq h
        obtain ⟨pss, rfl, hall⟩ := ih hq
        exact ⟨p :: pss, rfl, List.forall_mem_cons.2 ⟨ih hp, hall⟩⟩
      · cases h
        exact ⟨[], rfl, fun _ hp => (List.not_mem_nil hp).elim⟩

theorem Tree.rule_eq {r : ρ} {p : Pair ρ} (h : Tree G size r p) : p.rule = r := by
  obtain ⟨_, _, -, -, hrule⟩ := h
  exact hrule

theorem Tree.shape {r : ρ} {p : Pair ρ} (hkind : G.kind r = .normal) (h : Tree G size r p) :
    Shape (Tree G size) (G.body r) p.inner := by
  obtain ⟨s, rest, h, -⟩ := h
  rw [hkind] at h
  exact h.shape

end Peg
end Heraclitus
