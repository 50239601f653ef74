import Heraclitus.Lib.Fallible
/-!
# Sift — what each element of a list leaves, if anything

A sift goes through a list, makes of each element something or nothing, or fails.  A list may be sifted in chunks, and two sifts
are one sift.
-/
namespace Heraclitus

section Chunks

variable {α : Type}

def chunksFrom (n : Nat) : Nat → List α → List (List α)
  | 0, _ => []
  | _ + 1, [] => []
  | fuel + 1, a :: l => (a :: l).take n :: chunksFrom n fuel ((a :: l).drop n)

/-- `chunks(n)`; with no elements to a chunk it panics. -/
def chunks (n : Nat) (l : List α) : List (List α) := chunksFrom n l.length l

variable {n : Nat}

theorem flatten_chunksFrom (hn : 0 < n) : ∀ (fuel : Nat) (l : List α), l.length ≤ fuel → (chunksFrom n fuel l).flatten = l
  | 0, l, h => (List.length_eq_zero_iff.1 (Nat.le_zero.1 h)).symm
  | _ + 1, [], _ => rfl
  | fuel + 1, a :: l, h => by
    rw [chunksFrom, List.flatten_cons, flatten_chunksFrom hn fuel, List.take_append_drop]
    rw [List.length_drop]
    simp only [List.length_cons] at h ⊢
    omega

@[simp] theorem flatten_chunks (hn : 0 < n) (l : List α) : (chunks n l).flatten = l := flatten_chunksFrom hn l.length l (Nat.le_refl _)

theorem length_of_mem_chunksFrom (hn : 0 < n) : ∀ (fuel : Nat) (l : List α), ∀ c ∈ chunksFrom n fuel l, 0 < c.length ∧ c.length ≤ n
  | 0, _, _, hc => (List.not_mem_nil hc).elim
  | _ + 1, [], _, hc => (List.not_mem_nil hc).elim
  | fuel + 1, a :: l, c, hc => by
    rw [chunksFrom] at hc
    rcases List.mem_cons.1 hc with rfl | hc
    · rw [List.length_take, List.length_cons]
      omega
    · exact length_of_mem_chunksFrom hn fuel _ c hc

theorem length_of_mem_chunks (hn : 0 < n) {l c : List α} (hc : c ∈ chunks n l) : 0 < c.length ∧ c.length ≤ n :=
  length_of_mem_chunksFrom hn l.length l c hc

end Chunks

section Except

variable {ε α β γ : Type}

def sift (one : α → Except ε (Option β)) : List α → Except ε (List β)
  | [] => .ok []
  | a :: l => do
    let o ← one a
    let rest ← sift one l
    .ok (o.toList ++ rest)

attribute [local simp] sift

variable {one : α → Except ε (Option β)}

theorem sift_append (l l' : List α) : sift one (l ++ l') = (do
    let front ← sift one l
    let back ← sift one l'
    .ok (front ++ back)) := by
  induction l with
  | nil => cases h : sift one l' <;> simp [h, bind, Except.bind]
  | cons x l ih =>
    rw [List.cons_append, sift, ih, sift]
    cases one x with
    | error e => rfl
    | ok o =>
      cases sift one l with
      | error e => rfl
      | ok a =>
        cases sift one l' with
        | error e => rfl
        | ok b => simp [bind, Except.bind]

/-- **A sift chunk by chunk** is the sift of the whole. -/
theorem sift_flatten (ls : List (List α)) : (do
    let parts ← ls.mapM (sift one)
    .ok parts.flatten) = sift one ls.flatten := by
  induction ls with
  | nil => rfl
  | cons l ls ih =>
    rw [List.flatten_cons, sift_append, ← ih, List.mapM_cons]
    cases sift one l with
    | error e => rfl
    | ok a =>
      cases ls.mapM (sift one) with
      | error e => rfl
      | ok parts => rfl

end Except

section Option

variable {α β γ : Type}

/-- A sift of which only matters what it leaves. -/
def pass (one : α → Option (Option β)) : List α → Option (List β)
  | [] => some []
  | a :: l => (one a).bind fun o => (pass one l).map fun rest => o.toList ++ rest

attribute [local simp] pass

theorem toOption_sift {ε : Type} (one : α → Except ε (Option β)) (l : List α) :
    (sift one l).toOption = pass (fun a => (one a).toOption) l := by
  induction l with
  | nil => rfl
  | cons a l ih =>
    rw [sift, pass, Except.toOption_bind]
    refine Option.bind_congr fun o _ => ?_
    rw [Except.toOption_bind, ih]
    cases pass (fun a => (one a).toOption) l <;> rfl

theorem pass_congr {f g : α → Option (Option β)} : ∀ {l : List α}, (∀ a ∈ l, f a = g a) → pass f l = pass g l
  | [], _ => rfl
  | a :: l, h => by
    rw [pass, pass, h a List.mem_cons_self, pass_congr (l := l) fun x hx => h x (List.mem_cons_of_mem a hx)]

theorem pass_some (g : α → Option β) : ∀ l : List α, pass (fun a => some (g a)) l = some (l.filterMap g)
  | [] => rfl
  | a :: l => by
    rw [pass, pass_some g l, List.filterMap_cons]
    cases g a <;> rfl

/-- **Two sifts are one.** -/
theorem pass_bind (f : α → Option (Option β)) (g : β → Option (Option γ)) (l : List α) :
    (pass f l).bind (pass g) = pass (fun a => (f a).bind fun o => o.elim (some none) g) l := by
  induction l with
  | nil => rfl
  | cons a l ih =>
    rw [pass, pass, ← ih]
    cases f a with
    | none => rfl
    | some o =>
      cases o with
      | none => simp [Function.comp_def]
      | some b =>
        cases pass f l with
        | none => cases hg : g b <;> simp [hg]
        | some rest => simp

theorem mem_of_pass {P : β → Prop} {one : α → Option (Option β)} : ∀ {l : List α} {out : List β},
    (∀ a ∈ l, ∀ b, one a = some (some b) → P b) → pass one l = some out → ∀ b ∈ out, P b
  | [], out, _, h, b, hb => by
    cases h
    exact (List.not_mem_nil hb).elim
  | a :: l, out, hone, h, b, hb => by
    rw [pass] at h
    obtain ⟨o, ho, h⟩ := Option.bind_eq_some_iff.1 h
    obtain ⟨rest, hrest, rfl⟩ := Option.map_eq_some_iff.1 h
    rcases List.mem_append.1 hb with hb | hb
    · rw [Option.mem_toList] at hb
      exact hone a List.mem_cons_self b (by rw [ho, hb])
    · exact mem_of_pass (fun x hx => hone x (List.mem_cons_of_mem a hx)) hrest b hb

theorem toOption_foldlM {ε σ : Type} (f : σ → α → Except ε σ) : ∀ (l : List α) (s : σ),
    (l.foldlM f s).toOption = l.foldlM (fun s a => (f s a).toOption) s
  | [], _ => rfl
  | a :: l, s => by
    rw [List.foldlM_cons, List.foldlM_cons, Except.toOption_bind]
    exact Option.bind_congr fun s' _ => toOption_foldlM f l s'

theorem foldlM_invariant {σ : Type} {P : σ → Prop} {f : σ → α → Option σ} (hstep : ∀ s a s', P s → f s a = some s' → P s') :
    ∀ (l : List α) {s s' : σ}, P s → l.foldlM f s = some s' → P s'
  | [], _, _, h, hout => by
    cases hout
    exact h
  | a :: l, s, s', h, hout => by
    rw [List.foldlM_cons] at hout
    obtain ⟨t, ht, hrest⟩ := Option.bind_eq_some_iff.1 hout
    exact foldlM_invariant hstep l (hstep s a t h ht) hrest

/-- A loop whose every turn is guarded. -/
theorem foldlM_guarded {σ : Type} {P : α → Prop} [DecidablePred P] (g : σ → α → σ) : ∀ (l : List α) (s : σ),
    l.foldlM (fun s a => if P a then some (g s a) else none) s = if ∀ a ∈ l, P a then some (l.foldl g s) else none
  | [], _ => by simp
  | a :: l, s => by
    rw [List.foldlM_cons]
    by_cases ha : P a
    · rw [if_pos ha]
      refine (foldlM_guarded g l (g s a)).trans ?_
      simp only [List.forall_mem_cons, ha, true_and, List.foldl_cons]
    · rw [if_neg ha, if_neg fun h => ha (h a List.mem_cons_self)]
      rfl

end Option
end Heraclitus
