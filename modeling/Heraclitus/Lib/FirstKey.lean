import Mathlib.Data.List.Forall2
/-!
# FirstKey — a list searched by key

`find?` by key and an update through the borrow it gives touch only the first element that has the key.  `updateFirsts`
says what a whole run of such updates does: one function, applied to the first element of each key.
-/
namespace Heraclitus

variable {α κ : Type}

/-- Apply `f` to the first element that satisfies `p`: what the mutable borrow of a `find` lets its caller do. -/
def modifyFirst (p : α → Bool) (f : α → α) : List α → List α
  | [] => []
  | x :: xs => if p x then f x :: xs else x :: modifyFirst p f xs

theorem modifyFirst_append {p : α → Bool} {f : α → α} {x : α} {rest : List α} (hx : p x = true) : ∀ {lead : List α},
    (∀ y ∈ lead, p y = false) → modifyFirst p f (lead ++ x :: rest) = lead ++ f x :: rest
  | [], _ => if_pos hx
  | y :: lead, h => by
    obtain ⟨hy, hlead⟩ := List.forall_mem_cons.1 h
    rw [List.cons_append, modifyFirst, if_neg (by rw [hy]; exact Bool.false_ne_true), modifyFirst_append hx hlead,
      List.cons_append]

theorem map_modifyFirst {p : α → Bool} {f : α → α} {key : α → κ} (hf : ∀ x, key (f x) = key x) : ∀ l : List α,
    (modifyFirst p f l).map key = l.map key
  | [] => rfl
  | x :: l => by
    unfold modifyFirst
    split
    · rw [List.map_cons, List.map_cons, hf]
    · rw [List.map_cons, List.map_cons, map_modifyFirst hf l]

theorem forall_mem_modifyFirst {p : α → Bool} {f : α → α} {P : α → Prop} (hf : ∀ x, P x → P (f x)) : ∀ {l : List α},
    (∀ x ∈ l, P x) → ∀ x ∈ modifyFirst p f l, P x
  | [], h => h
  | x :: l, h => by
    obtain ⟨hx, hl⟩ := List.forall_mem_cons.1 h
    unfold modifyFirst
    split
    · exact List.forall_mem_cons.2 ⟨hf x hx, hl⟩
    · exact List.forall_mem_cons.2 ⟨hx, forall_mem_modifyFirst hf hl⟩

variable [DecidableEq κ] (key : α → κ)

/-- Apply `f` to the first element of every key, those in `seen` apart. -/
def updateFirsts (f : α → α) : List κ → List α → List α
  | _, [] => []
  | seen, x :: xs => (if key x ∈ seen then x else f x) :: updateFirsts f (key x :: seen) xs

variable {key}

theorem updateFirsts_congr {f g : α → α} : ∀ (l : List α) (seen : List κ),
    (∀ x ∈ l, key x ∉ seen → f x = g x) → updateFirsts key f seen l = updateFirsts key g seen l
  | [], _, _ => rfl
  | x :: l, seen, h => by
    have hl := updateFirsts_congr l (key x :: seen) (fun y hy hn => h y (by simp [hy]) (fun hs => hn (by simp [hs])))
    unfold updateFirsts
    rw [hl]
    by_cases hx : key x ∈ seen
    · rw [if_pos hx, if_pos hx]
    · rw [if_neg hx, if_neg hx, h x (by simp) hx]

theorem updateFirsts_id : ∀ (l : List α) (seen : List κ), updateFirsts key id seen l = l
  | [], _ => rfl
  | x :: l, seen => by
    unfold updateFirsts
    rw [updateFirsts_id l, id, ite_self]

/-- One borrow is the update of the first elements that leaves every other key alone. -/
theorem modifyFirst_eq_updateFirsts (f : α → α) (k : κ) : ∀ (l : List α) (seen : List κ), k ∉ seen →
    modifyFirst (fun x => key x == k) f l = updateFirsts key (fun x => if key x = k then f x else x) seen l
  | [], _, _ => rfl
  | x :: l, seen, hk => by
    unfold modifyFirst updateFirsts
    by_cases hx : key x = k
    · have hrest : updateFirsts key (fun x => if key x = k then f x else x) (key x :: seen) l = l := by
        rw [updateFirsts_congr (g := id) l]
        · exact updateFirsts_id l _
        · intro y _ hy
          exact if_neg (fun hyk => hy (by simp [hx, hyk]))
      rw [if_pos (by simpa using hx), hrest, if_neg (hx ▸ hk), if_pos hx]
    · rw [if_neg (by simpa using hx), if_neg hx, ite_self,
        modifyFirst_eq_updateFirsts f k l (key x :: seen) (by simp [hk, Ne.symm hx])]

theorem updateFirsts_comp {f g : α → α} (hf : ∀ x, key (f x) = key x) : ∀ (l : List α) (seen : List κ),
    updateFirsts key g seen (updateFirsts key f seen l) = updateFirsts key (fun x => g (f x)) seen l
  | [], _ => rfl
  | x :: l, seen => by
    have hk : key (if key x ∈ seen then x else f x) = key x := by split <;> simp [hf]
    simp only [updateFirsts, hk, updateFirsts_comp hf l]
    split <;> rfl

/-- **A run of borrows, each by its own key, is one update of the first elements.** -/
theorem foldl_modifyFirst {β : Type} (k : β → κ) (f : β → α → α) (hf : ∀ b x, key (f b x) = key x) :
    ∀ (bs : List β) (l : List α), bs.foldl (fun l b => modifyFirst (fun x => key x == k b) (f b) l) l
      = updateFirsts key (fun x => bs.foldl (fun x b => if key x = k b then f b x else x) x) [] l
  | [], l => (updateFirsts_id l []).symm
  | b :: bs, l => by
    rw [List.foldl_cons, foldl_modifyFirst k f hf bs, modifyFirst_eq_updateFirsts (f b) (k b) l [] (by simp),
      updateFirsts_comp]
    · rfl
    · intro x
      by_cases hx : key x = k b
      · rw [if_pos hx, hf]
      · rw [if_neg hx]

/-- Where keys are distinct, the first element of a key is the only one. -/
theorem find?_eq_some_of_nodup {k : κ} {x : α} : ∀ {l : List α}, (l.map key).Nodup → x ∈ l → key x = k →
    l.find? (fun x => key x == k) = some x
  | a :: l, hl, hx, hk => by
    obtain ⟨ha, hl⟩ := List.nodup_cons.1 hl
    rcases List.mem_cons.1 hx with rfl | hx
    · exact List.find?_cons_of_pos (by simpa using hk)
    · have hne : key a ≠ k := fun h => ha (h.trans hk.symm ▸ List.mem_map_of_mem hx)
      rw [List.find?_cons_of_neg (by simpa using hne)]
      exact find?_eq_some_of_nodup hl hx hk

/-- Where keys are distinct, the borrow of one key is an update of the elements that have it. -/
theorem modifyFirst_eq_map {f : α → α} {k : κ} : ∀ {l : List α}, (l.map key).Nodup →
    modifyFirst (fun x => key x == k) f l = l.map (fun x => if key x = k then f x else x)
  | [], _ => rfl
  | a :: l, hl => by
    obtain ⟨ha, hl⟩ := List.nodup_cons.1 hl
    rw [modifyFirst, List.map_cons]
    by_cases hk : key a = k
    · have hrest : l.map (fun x => if key x = k then f x else x) = l := by
        refine (List.map_congr_left (fun x hx => if_neg (fun h => ha ?_))).trans (List.map_id l)
        exact hk.trans h.symm ▸ List.mem_map_of_mem hx
      rw [if_pos (beq_iff_eq.2 hk), if_pos hk, hrest]
    · rw [if_neg (by simpa using hk), if_neg hk, modifyFirst_eq_map hl]

/-- A relation every element has to itself holds along an update exactly when it holds at each first element. -/
theorem forall₂_updateFirsts {R : α → α → Prop} (hR : ∀ x, R x x) (f : α → α) : ∀ (l : List α) (seen : List κ),
    List.Forall₂ R l (updateFirsts key f seen l)
      ↔ ∀ k, k ∉ seen → ∀ x, l.find? (fun x => key x == k) = some x → R x (f x)
  | [], _ => by simp [updateFirsts]
  | a :: l, seen => by
    unfold updateFirsts
    rw [List.forall₂_cons, forall₂_updateFirsts hR f l]
    simp only [List.mem_cons, not_or]
    constructor
    · rintro ⟨ha, hl⟩ k hk x hx
      by_cases hak : key a = k
      · rw [List.find?_cons_of_pos (by simpa using hak), Option.some.injEq] at hx
        subst hx
        rwa [if_neg (hak ▸ hk)] at ha
      · rw [List.find?_cons_of_neg (by simpa using hak)] at hx
        exact hl k ⟨Ne.symm hak, hk⟩ x hx
    · intro h
      refine ⟨?_, fun k hk x hx => h k hk.2 x ?_⟩
      · by_cases ha : key a ∈ seen
        · rw [if_pos ha]
          exact hR a
        · rw [if_neg ha]
          exact h (key a) ha a (List.find?_cons_of_pos (by simp))
      · rw [List.find?_cons_of_neg (by simpa using Ne.symm hk.1), hx]

/-- What holds of each pair still holds after an update that keeps it. -/
theorem forall₂_modifyFirst {β : Type} {R : β → α → Prop} {p : α → Bool} {f : α → α} :
    ∀ {bs : List β} {l : List α}, List.Forall₂ R bs l → (∀ b ∈ bs, ∀ x, R b x → p x = true → R b (f x)) →
      List.Forall₂ R bs (modifyFirst p f l)
  | _, _, .nil, _ => .nil
  | b :: bs, x :: l, .cons hx hl, h => by
    unfold modifyFirst
    split
    · rename_i hp
      exact .cons (h b List.mem_cons_self x hx hp) hl
    · exact .cons hx (forall₂_modifyFirst hl (fun c hc => h c (List.mem_cons_of_mem b hc)))

/-- A search finds related elements in related lists. -/
theorem find?_forall₂ {β : Type} {R : β → α → Prop} {p : α → Bool} {q : β → Bool} (hpq : ∀ b x, R b x → q b = p x) :
    ∀ {bs : List β} {l : List α}, List.Forall₂ R bs l → ∀ {b : β}, bs.find? q = some b → ∃ x, l.find? p = some x ∧ R b x
  | _, _, .nil, _, h => by cases h
  | c :: bs, x :: l, .cons hx hl, b, h => by
    by_cases hq : q c = true
    · rw [List.find?_cons_of_pos hq] at h
      cases h
      exact ⟨x, List.find?_cons_of_pos (hpq c x hx ▸ hq), hx⟩
    · rw [List.find?_cons_of_neg hq] at h
      rw [List.find?_cons_of_neg (hpq c x hx ▸ hq)]
      exact find?_forall₂ hpq hl h

end Heraclitus
