import Mathlib.Data.Set.Basic
/-!
# Classes — a set divided into classes, and the labels that tell them apart

A partial equivalence: what it relates to itself has been seen, and what it relates to each other is one class.  Classes
are united and elements are set apart.  A labelling has the classes of equal labels, and the three operations are three ways
to label anew, as long as a new label is one that nothing carries.
-/
namespace Heraclitus

variable {κ ι : Type}

@[ext] structure Classes (κ : Type) where
  same : κ → κ → Prop
  symm : ∀ {x y}, same x y → same y x
  trans : ∀ {x y z}, same x y → same y z → same x z

namespace Classes

/-- Nothing has been seen. -/
def none : Classes κ := ⟨fun _ _ => False, fun h => h, fun h _ => h⟩

def Seen (c : Classes κ) (x : κ) : Prop := c.same x x

/-- A new element is a class of its own. -/
def appear (c : Classes κ) (x : κ) : Classes κ where
  same a b := c.same a b ∨ (a = x ∧ b = x)
  symm h := h.imp c.symm (fun h => ⟨h.2, h.1⟩)
  trans := by
    rintro a b d (h | ⟨ha, hb⟩) (h' | ⟨hb', hd⟩)
    · exact .inl (c.trans h h')
    · exact .inl (hd.trans hb'.symm ▸ h)
    · exact .inl (ha.trans hb.symm ▸ h')
    · exact .inr ⟨ha, hd⟩

/-- Is `a` in the class of `x` or in that of `y`? -/
def InEither (c : Classes κ) (x y a : κ) : Prop := c.same a x ∨ c.same a y

/-- The classes of two elements become one. -/
def unite (c : Classes κ) (x y : κ) : Classes κ where
  same a b := c.same a b ∨ (c.InEither x y a ∧ c.InEither x y b)
  symm h := h.imp c.symm (fun h => ⟨h.2, h.1⟩)
  trans := by
    rintro a b d (h | ⟨ha, hb⟩) (h' | ⟨hb', hd⟩)
    · exact .inl (c.trans h h')
    · exact .inr ⟨hb'.imp (c.trans h) (c.trans h), hd⟩
    · exact .inr ⟨ha, hb.imp (c.trans (c.symm h')) (c.trans (c.symm h'))⟩
    · exact .inr ⟨ha, hd⟩

/-- An element leaves its class, and is one of its own. -/
def isolate (c : Classes κ) (x : κ) : Classes κ where
  same a b := (c.same a b ∧ a ≠ x ∧ b ≠ x) ∨ (c.Seen x ∧ a = x ∧ b = x)
  symm h := h.imp (fun h => ⟨c.symm h.1, h.2.2, h.2.1⟩) (fun h => ⟨h.1, h.2.2, h.2.1⟩)
  trans := by
    rintro a b d (⟨h, ha, hb⟩ | ⟨hx, rfl, rfl⟩) (⟨h', hb', hd⟩ | ⟨hx', hb', hd⟩)
    · exact .inl ⟨c.trans h h', ha, hd⟩
    · exact absurd hb' hb
    · exact absurd rfl hb'
    · exact .inr ⟨hx, rfl, hd⟩

theorem appear_of_seen {c : Classes κ} {x : κ} (h : c.Seen x) : c.appear x = c := by
  ext a b
  refine ⟨?_, .inl⟩
  rintro (h' | ⟨rfl, rfl⟩)
  · exact h'
  · exact h

theorem isolate_of_not_seen {c : Classes κ} {x : κ} (h : ¬c.Seen x) : c.isolate x = c := by
  ext a b
  constructor
  · rintro (h' | ⟨hx, -⟩)
    · exact h'.1
    · exact absurd hx h
  · intro h'
    refine .inl ⟨h', ?_, ?_⟩
    · rintro rfl
      exact h (c.trans h' (c.symm h'))
    · rintro rfl
      exact h (c.trans (c.symm h') h')

theorem unite_of_same {c : Classes κ} {x y : κ} (h : c.same x y) : c.unite x y = c := by
  ext a b
  refine ⟨?_, .inl⟩
  rintro (h' | ⟨ha, hb⟩)
  · exact h'
  · have hax : c.same a x := ha.elim id (fun ha => c.trans ha (c.symm h))
    have hbx : c.same b x := hb.elim id (fun hb => c.trans hb (c.symm h))
    exact c.trans hax (c.symm hbx)

theorem unite_comm (c : Classes κ) (x y : κ) : c.unite x y = c.unite y x := by
  ext a b
  exact or_congr_right (and_congr or_comm or_comm)

/-! ## Labels -/

/-- The classes of equal labels. -/
def ofLabels (label : κ → Option ι) : Classes κ where
  same a b := ∃ l, label a = some l ∧ label b = some l
  symm := by
    rintro a b ⟨l, ha, hb⟩
    exact ⟨l, hb, ha⟩
  trans := by
    rintro a b d ⟨l, ha, hb⟩ ⟨l', hb', hd⟩
    cases hb.symm.trans hb'
    exact ⟨l, ha, hd⟩

variable {label label' : κ → Option ι}

theorem ofLabels_seen {x : κ} : (ofLabels label).Seen x ↔ (label x).isSome := by
  rw [Option.isSome_iff_exists]
  exact exists_congr (fun l => and_self_iff)

theorem same_ofLabels {x a : κ} {l : ι} (hx : label x = some l) : (ofLabels label).same a x ↔ label a = some l := by
  constructor
  · rintro ⟨l', ha, hx'⟩
    cases hx.symm.trans hx'
    exact ha
  · intro ha
    exact ⟨l, ha, hx⟩

/-- A label that nothing carries sets an element apart. -/
theorem same_relabelled [DecidableEq κ] {x : κ} {l : ι} (hfresh : ∀ a, label a ≠ some l)
    (h : ∀ a, label' a = if a = x then some l else label a) (a b : κ) :
    (ofLabels label').same a b ↔ ((ofLabels label).same a b ∧ a ≠ x ∧ b ≠ x) ∨ (a = x ∧ b = x) := by
  have hx : label' x = some l := by rw [h, if_pos rfl]
  have hother : ∀ c, c ≠ x → label' c = label c := fun c hc => by rw [h, if_neg hc]
  constructor
  · rintro ⟨k, ha, hb⟩
    by_cases hax : a = x <;> by_cases hbx : b = x
    · exact .inr ⟨hax, hbx⟩
    · rw [hax, hx] at ha
      cases ha
      exact absurd ((hother b hbx).symm.trans hb) (hfresh b)
    · rw [hbx, hx] at hb
      cases hb
      exact absurd ((hother a hax).symm.trans ha) (hfresh a)
    · exact .inl ⟨⟨k, (hother a hax).symm.trans ha, (hother b hbx).symm.trans hb⟩, hax, hbx⟩
  · rintro (⟨⟨k, ha, hb⟩, hax, hbx⟩ | ⟨rfl, rfl⟩)
    · exact ⟨k, (hother a hax).trans ha, (hother b hbx).trans hb⟩
    · exact ⟨l, hx, hx⟩

/-- **A new element is labelled anew.** -/
theorem ofLabels_appear [DecidableEq κ] {x : κ} {l : ι} (hx : label x = Option.none) (hfresh : ∀ a, label a ≠ some l)
    (h : ∀ a, label' a = if a = x then some l else label a) : ofLabels label' = (ofLabels label).appear x := by
  ext a b
  have hne : ∀ {c d}, (ofLabels label).same c d → c ≠ x := by
    rintro c d ⟨k, hc, -⟩ rfl
    cases hx.symm.trans hc
  rw [same_relabelled hfresh h]
  exact or_congr_left ⟨fun hab => hab.1, fun hab => ⟨hab, hne hab, hne ((ofLabels label).symm hab)⟩⟩

/-- **One label takes the place of another.** -/
theorem ofLabels_unite [DecidableEq ι] {x y : κ} {l k : ι} (hx : label x = some l) (hy : label y = some k)
    (h : ∀ a, label' a = if label a = some k then some l else label a) :
    ofLabels label' = (ofLabels label).unite x y := by
  have hin : ∀ a, (ofLabels label).InEither x y a ↔ label a = some l ∨ label a = some k := fun a =>
    or_congr (same_ofLabels hx) (same_ofLabels hy)
  have hl : ∀ a, (label a = some l ∨ label a = some k) ↔ label' a = some l := by
    intro a
    rw [h]
    by_cases hk : label a = some k
    · simp [hk]
    · simp [hk]
  ext a b
  constructor
  · rintro ⟨m, ha, hb⟩
    by_cases hm : m = l
    · subst hm
      exact .inr ⟨(hin a).2 ((hl a).2 ha), (hin b).2 ((hl b).2 hb)⟩
    · -- another label is what it was
      have hold : ∀ c, label' c = some m → label c = some m := by
        intro c hc
        rw [h] at hc
        by_cases hk : label c = some k
        · rw [if_pos hk] at hc
          cases hc
          exact absurd rfl hm
        · rwa [if_neg hk] at hc
      exact .inl ⟨m, hold a ha, hold b hb⟩
  · rintro (⟨m, ha, hb⟩ | ⟨ha, hb⟩)
    · by_cases hm : m = k
      · subst hm
        exact ⟨l, (hl a).1 (.inr ha), (hl b).1 (.inr hb)⟩
      · have hne : some m ≠ some k := fun he => hm (Option.some.inj he)
        refine ⟨m, ?_, ?_⟩
        · rw [h, ha, if_neg hne]
        · rw [h, hb, if_neg hne]
    · exact ⟨l, (hl a).1 ((hin a).1 ha), (hl b).1 ((hin b).1 hb)⟩

/-- **A seen element is labelled anew.** -/
theorem ofLabels_isolate [DecidableEq κ] {x : κ} {l : ι} (hx : (label x).isSome) (hfresh : ∀ a, label a ≠ some l)
    (h : ∀ a, label' a = if a = x then some l else label a) : ofLabels label' = (ofLabels label).isolate x := by
  ext a b
  rw [same_relabelled hfresh h]
  exact or_congr_right ⟨fun hab => ⟨ofLabels_seen.2 hx, hab⟩, fun hab => hab.2⟩

end Classes
end Heraclitus
