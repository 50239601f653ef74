import Mathlib.Data.List.Basic
import Mathlib.Data.List.Induction
/-!
# Straightline — programs of lines that read lines before them

A line is numbered by its place and reads the lines that `operands` names.  `Solves` is the fixpoint reading of a program: every
value is what its line makes of the values.  Lines that no wanted line reads can be left out, the rest renumbered by `place`, and
the values that stay solve the shorter program.
-/
namespace Heraclitus
namespace Straightline

variable {ι V : Type}

/-- What the lines mean: a value, or none, from the values that the line reads. -/
structure Semantics (operands : ι → List Nat) (V : Type) where
  value : (Nat → Option V) → ι → Option V
  reads : ∀ env env' i, (∀ a ∈ operands i, env a = env' a) → value env i = value env' i

variable {operands : ι → List Nat}

/-- Each value is what its line makes of the values. -/
def Solves (S : Semantics operands V) (prog : List ι) (vals : List V) : Prop :=
  vals.length = prog.length ∧ ∀ (k : Nat) (i : ι), prog[k]? = some i → S.value (fun a => vals[a]?) i = vals[k]?

/-- Lines read lines before them. -/
def Backward (operands : ι → List Nat) (prog : List ι) : Prop := ∀ (k : Nat) (i : ι), prog[k]? = some i → ∀ a ∈ operands i, a < k

/-- The lines that `ret` depends on, itself included. -/
inductive DependsOn (operands : ι → List Nat) (prog : List ι) (ret : Nat) : Nat → Prop
  | ret : DependsOn operands prog ret ret
  | operand {k a : Nat} {i : ι} : DependsOn operands prog ret k → prog[k]? = some i → a ∈ operands i →
    DependsOn operands prog ret a

/-- The lines run in turn, each behind the values so far. -/
def exec (value : (Nat → Option V) → ι → Option V) : List V → List ι → Option (List V)
  | vals, [] => some vals
  | vals, i :: prog => (value (fun a => vals[a]?) i).bind (fun v => exec value (vals ++ [v]) prog)

theorem exec_append (value : (Nat → Option V) → ι → Option V) : ∀ (vals : List V) (prog more : List ι),
    exec value vals (prog ++ more) = (exec value vals prog).bind (fun vals => exec value vals more)
  | _, [], _ => rfl
  | vals, i :: prog, more => by
    rw [List.cons_append, exec, exec, Option.bind_assoc]
    exact Option.bind_congr (fun v _ => exec_append value (vals ++ [v]) prog more)

/-- A run adds one value for each line. -/
theorem exec_length {value : (Nat → Option V) → ι → Option V} : ∀ {vals vals' : List V} {prog : List ι},
    exec value vals prog = some vals' → vals'.length = vals.length + prog.length
  | _, _, [], h => by
    cases h
    rfl
  | vals, vals', i :: prog, h => by
    obtain ⟨v, -, hrest⟩ := Option.bind_eq_some_iff.1 h
    rw [exec_length hrest, List.length_append, List.length_singleton, List.length_cons]
    omega

variable {S : Semantics operands V} {prog : List ι} {vals : List V}

theorem Solves.nil : Solves S [] [] := ⟨rfl, fun _ _ h => nomatch h⟩

theorem Solves.concat {i : ι} (h : Solves S prog vals) (hback : Backward operands (prog ++ [i])) {v : V}
    (hv : S.value (fun a => vals[a]?) i = some v) : Solves S (prog ++ [i]) (vals ++ [v]) := by
  refine ⟨by rw [List.length_append, List.length_append, h.1]; rfl, fun k j hj => ?_⟩
  have hk := (List.getElem?_eq_some_iff.1 hj).1
  rw [List.length_append, List.length_singleton] at hk
  have hsame : S.value (fun a => (vals ++ [v])[a]?) j = S.value (fun a => vals[a]?) j := by
    refine S.reads _ _ _ (fun a ha => List.getElem?_append_left ?_)
    have hlt := hback k j hj a ha
    rw [h.1]
    omega
  rw [hsame]
  rcases Nat.lt_or_ge k prog.length with hlt | hge
  · rw [List.getElem?_append_left hlt] at hj
    rw [List.getElem?_append_left (h.1 ▸ hlt)]
    exact h.2 k j hj
  · obtain rfl : k = prog.length := by omega
    rw [List.getElem?_append_right hge, Nat.sub_self] at hj
    cases hj
    rw [hv, List.getElem?_append_right (Nat.le_of_eq h.1), h.1, Nat.sub_self]
    rfl

/-- The first lines of a program need the first values only. -/
theorem Solves.take (h : Solves S prog vals) (hback : Backward operands prog) (n : Nat) :
    Solves S (prog.take n) (vals.take n) := by
  refine ⟨by rw [List.length_take, List.length_take, h.1], fun k i hi => ?_⟩
  obtain ⟨hk, -⟩ := List.getElem?_eq_some_iff.1 hi
  rw [List.length_take] at hk
  rw [List.getElem?_take_of_lt (by omega)] at hi
  rw [List.getElem?_take_of_lt (by omega), ← h.2 k i hi]
  refine S.reads _ _ _ (fun a ha => List.getElem?_take_of_lt ?_)
  have := hback k i hi a ha
  omega

/-- **A program whose lines have values has a solution.** -/
theorem exists_solves : ∀ {prog : List ι}, Backward operands prog → (∀ (k : Nat) (i : ι), prog[k]? = some i → ∀ env,
    (∀ a ∈ operands i, (env a).isSome = true) → (S.value env i).isSome = true) → ∃ vals, Solves S prog vals := by
  intro prog
  induction prog using List.reverseRecOn with
  | nil => exact fun _ _ => ⟨[], .nil⟩
  | append_singleton prog i ih =>
    intro hback hvalue
    have hpre : ∀ (k : Nat) (j : ι), prog[k]? = some j → (prog ++ [i])[k]? = some j := fun k j hj => by
      rw [List.getElem?_append_left (List.getElem?_eq_some_iff.1 hj).1, hj]
    have hlast : (prog ++ [i])[prog.length]? = some i := List.getElem?_concat_length
    obtain ⟨vals, hvals⟩ := ih (fun k j hj => hback k j (hpre k j hj)) (fun k j hj => hvalue k j (hpre k j hj))
    have hsome := hvalue prog.length i hlast (fun a => vals[a]?) (fun a ha => by
      rw [List.getElem?_eq_getElem (hvals.1 ▸ hback prog.length i hlast a ha), Option.isSome_some])
    obtain ⟨v, hv⟩ := Option.isSome_iff_exists.1 hsome
    exact ⟨vals ++ [v], hvals.concat hback hv⟩

/-! ## Leaving lines out -/

/-- The number of a line among those that stay. -/
def place (live : List Bool) (k : Nat) : Nat := (live.take k).count true

/-- The items that stay. -/
def select {α : Type} : List Bool → List α → List α
  | true :: live, a :: l => a :: select live l
  | false :: live, _ :: l => select live l
  | [], _ => []
  | _, [] => []

section Select

variable {α : Type}

theorem place_succ (b : Bool) (live : List Bool) (k : Nat) :
    place (b :: live) (k + 1) = place live k + if b = true then 1 else 0 := by
  rw [place, List.take_succ_cons, List.count_cons, place]
  cases b <;> rfl

theorem place_le (live : List Bool) (k : Nat) : place live k ≤ k :=
  Nat.le_trans List.count_le_length (List.length_take_le k live)

theorem place_lt {live : List Bool} {j k : Nat} (hj : live[j]? = some true) (hlt : j < k) : place live j < place live k := by
  have htake : live.take k = live.take j ++ true :: (live.drop (j + 1)).take (k - (j + 1)) := by
    obtain ⟨hlength, hhere⟩ := List.getElem?_eq_some_iff.1 hj
    rw [← List.take_append_drop j (live.take k), List.take_take, Nat.min_eq_left (Nat.le_of_lt hlt), List.drop_take,
      List.drop_eq_getElem_cons hlength, hhere, show k - j = (k - (j + 1)) + 1 by omega, List.take_succ_cons]
  rw [place, place, htake, List.count_append, List.count_cons_self]
  omega

theorem getElem?_select_place : ∀ {live : List Bool} {l : List α} {k : Nat}, live[k]? = some true →
    (select live l)[place live k]? = l[k]?
  | true :: live, a :: l, 0, _ => rfl
  | true :: live, a :: l, k + 1, h => by
    rw [place_succ, if_pos rfl]
    exact @getElem?_select_place live _ _ h
  | false :: live, a :: l, k + 1, h => by
    rw [place_succ, if_neg Bool.false_ne_true]
    exact @getElem?_select_place live _ _ h
  | true :: live, [], k, _ => rfl
  | false :: live, [], k, _ => rfl

/-- Every place is that of an item that stays. -/
theorem exists_of_getElem?_select : ∀ {live : List Bool} {l : List α} {m : Nat} {a : α}, (select live l)[m]? = some a →
    ∃ k, live[k]? = some true ∧ place live k = m ∧ l[k]? = some a
  | true :: live, b :: l, 0, a, h => ⟨0, rfl, rfl, h⟩
  | true :: live, b :: l, m + 1, a, h => by
    obtain ⟨k, hk, hm, ha⟩ := @exists_of_getElem?_select live _ _ _ h
    exact ⟨k + 1, hk, by rw [place_succ, hm, if_pos rfl], ha⟩
  | false :: live, b :: l, m, a, h => by
    obtain ⟨k, hk, hm, ha⟩ := @exists_of_getElem?_select live _ _ _ h
    exact ⟨k + 1, hk, by rw [place_succ, hm, if_neg Bool.false_ne_true, Nat.add_zero], ha⟩
  | [], _, m, a, h => nomatch h
  | true :: _, [], m, a, h => nomatch h
  | false :: _, [], m, a, h => nomatch h

theorem length_select {β : Type} : ∀ {live : List Bool} {l : List α} {m : List β}, l.length = m.length →
    (select live l).length = (select live m).length
  | true :: _, _ :: _, _ :: _, h => congrArg (· + 1) (length_select (Nat.succ.inj h))
  | false :: live, _ :: _, _ :: _, h => @length_select _ live _ _ (Nat.succ.inj h)
  | [], _, _, _ => rfl
  | true :: _, [], [], _ => rfl
  | false :: _, [], [], _ => rfl

end Select

variable {live : List Bool} {rename : ι → ι}

/-- What a line that stays reads stays. -/
def Closed (operands : ι → List Nat) (live : List Bool) (prog : List ι) : Prop :=
  ∀ (k : Nat) (i : ι), prog[k]? = some i → live[k]? = some true → ∀ a ∈ operands i, live[a]? = some true

/-- **The values that stay solve the program that stays.** -/
theorem Solves.select (h : Solves S prog vals) (hclosed : Closed operands live prog)
    (hrename : ∀ (k : Nat) (i : ι), prog[k]? = some i → live[k]? = some true → ∀ env, S.value env (rename i) =
      S.value (fun a => env (place live a)) i) :
    Solves S ((select live prog).map rename) (select live vals) := by
  refine ⟨by rw [List.length_map, length_select h.1], fun m i' hi' => ?_⟩
  rw [List.getElem?_map] at hi'
  obtain ⟨i, hstays, rfl⟩ := Option.map_eq_some_iff.1 hi'
  obtain ⟨k, hk, rfl, hi⟩ := exists_of_getElem?_select hstays
  rw [hrename k i hi hk, getElem?_select_place hk, ← h.2 k i hi]
  exact S.reads _ _ _ (fun a ha => getElem?_select_place (hclosed k i hi hk a ha))

/-- **Nothing that stays is idle**, if nothing else was to stay. -/
theorem dependsOn_select {ret : Nat} (hlive : ∀ k, live[k]? = some true → DependsOn operands prog ret k)
    (hclosed : Closed operands live prog) (hret : live[ret]? = some true)
    (hrename : ∀ (k : Nat) (i : ι), prog[k]? = some i → live[k]? = some true → operands (rename i) = (operands i).map (place live))
    {m : Nat} (hm : m < ((select live prog).map rename).length) :
    DependsOn operands ((select live prog).map rename) (place live ret) m := by
  have hdepends : ∀ {k}, DependsOn operands prog ret k → live[k]? = some true ∧
      DependsOn operands ((select live prog).map rename) (place live ret) (place live k) := by
    intro k hk
    induction hk with
    | ret => exact ⟨hret, .ret⟩
    | @operand k a i _ hi ha ih =>
      have hline : ((Straightline.select live prog).map rename)[place live k]? = some (rename i) := by
        rw [List.getElem?_map, getElem?_select_place ih.1, hi]
        rfl
      refine ⟨hclosed _ _ hi ih.1 _ ha, ih.2.operand hline ?_⟩
      rw [hrename _ _ hi ih.1]
      exact List.mem_map_of_mem ha
  rw [List.length_map] at hm
  obtain ⟨k, hk, rfl, -⟩ := exists_of_getElem?_select (List.getElem?_eq_getElem hm)
  exact (hdepends (hlive k hk)).2

/-! ## Marking -/

def markAll (marks : List Nat) (live : List Bool) : List Bool := marks.foldl (fun live a => live.set a true) live

/-- Marks what marked lines read, from the last line to the first; `k` is the number of the first. -/
def mark (operands : ι → List Nat) : Nat → List ι → List Bool → List Bool
  | _, [], live => live
  | k, i :: rest, live =>
    let live := mark operands (k + 1) rest live
    if live.getD k false then markAll (operands i) live else live

theorem length_markAll : ∀ (marks : List Nat) (live : List Bool), (markAll marks live).length = live.length
  | [], _ => rfl
  | a :: marks, live => (length_markAll marks (live.set a true)).trans List.length_set

theorem markAll_eq_true {b : Nat} : ∀ {marks : List Nat} {live : List Bool},
    (markAll marks live)[b]? = some true ↔ live[b]? = some true ∨ b ∈ marks ∧ b < live.length
  | [], live => by
    rw [markAll, List.foldl_nil]
    exact ⟨.inl, fun h => h.elim id (fun h => absurd h.1 List.not_mem_nil)⟩
  | a :: marks, live => by
    show (markAll marks (live.set a true))[b]? = some true ↔ _
    rw [markAll_eq_true, List.length_set, List.getElem?_set, List.mem_cons]
    by_cases hab : a = b
    · subst hab
      rw [if_pos rfl]
      by_cases hlt : a < live.length
      · rw [if_pos hlt]
        exact iff_of_true (.inl rfl) (.inr ⟨.inl rfl, hlt⟩)
      · rw [if_neg hlt, List.getElem?_eq_none (Nat.not_lt.1 hlt)]
        exact iff_of_false (fun h => h.elim (fun h => nomatch h) (fun h => hlt h.2))
          (fun h => h.elim (fun h => nomatch h) (fun h => hlt h.2))
    · rw [if_neg hab]
      refine or_congr_right (and_congr_left' ?_)
      exact ⟨.inr, fun h => h.resolve_left (fun h => hab h.symm)⟩

theorem length_mark : ∀ (k : Nat) (rest : List ι) (live : List Bool), (mark operands k rest live).length = live.length
  | _, [], _ => rfl
  | k, i :: rest, live => by
    rw [mark]
    split
    · rw [length_markAll, length_mark]
    · exact length_mark (k + 1) rest live

theorem getD_eq_true {live : List Bool} {k : Nat} : live.getD k false = true ↔ live[k]? = some true := by
  rw [List.getD_eq_getElem?_getD]
  cases live[k]? with
  | none => exact ⟨fun h => (nomatch h), fun h => (nomatch h)⟩
  | some b => exact ⟨congrArg some, Option.some.inj⟩

/-- What was marked stays marked. -/
theorem mark_keeps {a : Nat} : ∀ {k : Nat} {rest : List ι} {live : List Bool}, live[a]? = some true →
    (mark operands k rest live)[a]? = some true
  | _, [], _, h => h
  | k, i :: rest, live, h => by
    rw [mark]
    split
    · exact markAll_eq_true.2 (.inl (mark_keeps h))
    · exact mark_keeps h

/-- Only what is wanted gets marked. -/
theorem mark_sound {P : Nat → Prop} : ∀ {k : Nat} {rest : List ι} {live : List Bool}, (∀ a, live[a]? = some true → P a) →
    (∀ (j : Nat) (i : ι), rest[j]? = some i → P (k + j) → ∀ a ∈ operands i, P a) →
    ∀ a, (mark operands k rest live)[a]? = some true → P a
  | _, [], _, hlive, _ => hlive
  | k, i :: rest, live, hlive, hstep => by
    have hrest : ∀ a, (mark operands (k + 1) rest live)[a]? = some true → P a := by
      refine mark_sound hlive (fun j i' hi' hP => ?_)
      rw [Nat.succ_add] at hP
      exact hstep (j + 1) i' hi' hP
    intro a ha
    rw [mark] at ha
    split at ha
    · rename_i hhere
      rcases markAll_eq_true.1 ha with ha | ⟨ha, -⟩
      · exact hrest a ha
      · exact hstep 0 i rfl (hrest k (getD_eq_true.1 hhere)) a ha
    · exact hrest a ha

/-- **What a marked line reads gets marked**, as long as lines read lines before them. -/
theorem mark_closed : ∀ {k : Nat} {rest : List ι} {live : List Bool}, k + rest.length ≤ live.length →
    (∀ (j : Nat) (i : ι), rest[j]? = some i → ∀ a ∈ operands i, a < k + j) →
    ∀ (j : Nat) (i : ι), rest[j]? = some i → (mark operands k rest live)[k + j]? = some true →
      ∀ a ∈ operands i, (mark operands k rest live)[a]? = some true
  | k, i :: rest, live, hlength, hback, j, i', hi', hmarked, a, ha => by
    rw [List.length_cons] at hlength
    have hrest : ∀ (j : Nat) (i : ι), rest[j]? = some i → ∀ a ∈ operands i, a < k + 1 + j := fun j i hi a ha => by
      rw [Nat.succ_add]
      exact hback (j + 1) i hi a ha
    have hlen : (mark operands (k + 1) rest live).length = live.length := length_mark _ _ _
    -- the line itself marks lines before it only
    have hsame : ∀ b : Nat, k ≤ b → (mark operands k (i :: rest) live)[b]? = some true →
        (mark operands (k + 1) rest live)[b]? = some true := by
      intro b hb hmark
      rw [mark] at hmark
      split at hmark
      · rcases markAll_eq_true.1 hmark with h | ⟨h, -⟩
        · exact h
        · have := hback 0 i rfl b h
          omega
      · exact hmark
    have hkept : ∀ b : Nat, (mark operands (k + 1) rest live)[b]? = some true →
        (mark operands k (i :: rest) live)[b]? = some true := by
      intro b hb
      rw [mark]
      split
      · exact markAll_eq_true.2 (.inl hb)
      · exact hb
    cases j with
    | zero =>
      cases hi'
      have hhere := hsame k (Nat.le_refl k) hmarked
      have hlt := hback 0 i rfl a ha
      rw [mark, if_pos (getD_eq_true.2 hhere)]
      exact markAll_eq_true.2 (.inr ⟨ha, by omega⟩)
    | succ j =>
      have hthere := hsame (k + (j + 1)) (Nat.le_add_right _ _) hmarked
      rw [show k + (j + 1) = k + 1 + j by omega] at hthere
      exact hkept a (mark_closed (by omega) hrest j i' hi' hthere a ha)

end Straightline
end Heraclitus
