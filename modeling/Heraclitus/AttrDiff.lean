import Heraclitus.AttrOrder
import Heraclitus.Lib.Pieces
import Mathlib.Data.List.DropRight
/-!
# AttrDiff — `diff` of the attribute index (`heraclitus-index-attr/src/lib.rs`)

The counts of every value in a window of LSNs and in the window before it, from two partition points each.  A key is split at its
first separator, so an attribute with the separator in its name is counted under another.
-/
namespace Heraclitus
namespace AttrIndex

structure DiffValor where
  valor : Str
  eventos : Nat
  anterior : Nat
  antes : Nat
  novo : Bool
  silencioso : Bool
  deriving DecidableEq

structure DiffCampo where
  campo : Str
  eventos : Nat := 0
  eventosAnterior : Nat := 0
  valoresNovos : Nat := 0
  valoresAtivos : Nat := 0
  valoresSilenciosos : Nat := 0
  valoresTotal : Nat := 0
  postingsTotal : Nat := 0
  topo : List DiffValor := []
  deriving DecidableEq

/-- `split_once(SEP)`. -/
def splitKey : Str → Option (Str × Str)
  | [] => none
  | c :: k => if c = sep then some ([], k) else (splitKey k).map (fun p => (c :: p.1, p.2))

/-- `lsns.partition_point(|l| *l < bound)`. -/
def pointBelow (lsns : List Nat) (bound : Nat) : Nat := partitionPoint (fun l => decide (l < bound)) lsns

/-- The LSN where the window before `[de, ate)` begins. -/
def anteriorDe (de ate : Nat) : Nat := de - (ate - de)

/-- The line of a value, with its counts. -/
def diffValor (de ate : Nat) (valor : Str) (lsns : List Nat) : DiffValor :=
  let naJanela := pointBelow lsns ate - pointBelow lsns de
  let naAnterior := pointBelow lsns de - pointBelow lsns (anteriorDe de ate)
  { valor := valor, eventos := naJanela, anterior := naAnterior, antes := pointBelow lsns de
    novo := decide (pointBelow lsns de = 0) && decide (0 < naJanela)
    silencioso := decide (naJanela = 0) && decide (0 < naAnterior) }

/-- What one key adds to its field. -/
def DiffCampo.add (de ate : Nat) (valor : Str) (lsns : List Nat) (e : DiffCampo) : DiffCampo :=
  let d := diffValor de ate valor lsns
  let e := { e with valoresTotal := e.valoresTotal + 1, postingsTotal := e.postingsTotal + lsns.length }
  if lsns.head?.all (fun f => decide (ate ≤ f)) then e
  else
    { e with
      eventos := e.eventos + d.eventos
      eventosAnterior := e.eventosAnterior + d.anterior
      valoresAtivos := e.valoresAtivos + (if 0 < d.eventos then 1 else 0)
      valoresNovos := e.valoresNovos + (if 0 < d.eventos && d.novo then 1 else 0)
      valoresSilenciosos := e.valoresSilenciosos + (if d.silencioso then 1 else 0)
      topo := if 0 < d.eventos ∨ 0 < d.anterior then e.topo ++ [d] else e.topo }

def addKey (de ate : Nat) (porCampo : SortedMap Str DiffCampo) (kp : Str × Postings) : SortedMap Str DiffCampo :=
  match splitKey kp.1 with
  | none => porCampo
  | some (campo, valor) => porCampo.alter campo (fun e => some ((e.getD { campo := campo }).add de ate valor kp.2.lsns))

def textOrder (a b : Str) : Ordering := if a < b then .lt else if a = b then .eq else .gt

/-- The order of the values of a field: new ones, those gone silent, the frequent. -/
def DiffValor.before (a b : DiffValor) : Bool :=
  ((compare b.novo a.novo).then ((compare b.silencioso a.silencioso).then
    ((compare (max b.eventos b.anterior) (max a.eventos a.anterior)).then (textOrder a.valor b.valor)))) != .gt

def DiffCampo.before (a b : DiffCampo) : Bool :=
  ((compare (max b.eventos b.eventosAnterior) (max a.eventos a.eventosAnterior)).then (textOrder a.campo b.campo)) != .gt

def diff (idx : AttrIndex) (de ate topo : Nat) : List DiffCampo :=
  let porCampo := idx.exactPostings.entries.foldl (addKey de ate) .empty
  let out := porCampo.entries.map (fun c => { c.2 with topo := (c.2.topo.mergeSort DiffValor.before).take topo })
  out.mergeSort DiffCampo.before

/-! ## What is claimed -/

/-- How many delivered events carry a value in a window. -/
def EventsIn (log : Nat → Episode) (lsns : List Nat) (name value : Str) (start stop : Nat) (n : Nat) : Prop :=
  ∃ ls : List Nat, ls.Nodup ∧ (∀ l, l ∈ ls ↔ l ∈ lsns ∧ start ≤ l ∧ l < stop ∧ Carries (log l) name value) ∧ ls.length = n

/-- A diff shows these counts for a value: in its line, or none and zero. -/
def Shows (out : List DiffCampo) (name value : Str) (eventos anterior : Nat) : Prop :=
  (∃ c ∈ out, c.campo = name ∧ ∃ d ∈ c.topo, d.valor = value ∧ d.eventos = eventos ∧ d.anterior = anterior) ∨
  ((∀ c ∈ out, c.campo = name → ∀ d ∈ c.topo, d.valor ≠ value) ∧ eventos = 0 ∧ anterior = 0)

variable {idx : AttrIndex} {de ate : Nat} {lsns : List Nat} {name value key : Str} {d : DiffValor}

/-! ## Keys -/

theorem splitKey_eq_some {k : Str} : splitKey k = some (name, value) ↔ sep ∉ name ∧ k = ikey name value := by
  induction k generalizing name with
  | nil => simp [splitKey, ikey]
  | cons c k ih =>
    unfold ikey
    rw [splitKey]
    split
    · rename_i hc
      subst hc
      cases name with
      | nil => simp
      | cons a name =>
        simp only [Option.some.injEq, Prod.mk.injEq, List.mem_cons, not_or, List.cons_append, List.cons.injEq]
        constructor
        · rintro ⟨h, -⟩
          cases h
        · rintro ⟨⟨hne, -⟩, ha, -⟩
          exact absurd ha hne
    · rename_i hc
      cases name with
      | nil =>
        simp only [Option.map_eq_some_iff, Prod.mk.injEq, List.nil_append, List.cons.injEq, List.not_mem_nil, not_false_eq_true,
          true_and]
        constructor
        · rintro ⟨p, -, h, -⟩
          cases h
        · rintro ⟨h, -⟩
          exact absurd h hc
      | cons a name =>
        simp only [Option.map_eq_some_iff, Prod.mk.injEq, List.mem_cons, not_or, List.cons_append, List.cons.injEq]
        constructor
        · rintro ⟨⟨n, v⟩, hsplit, ⟨rfl, rfl⟩, rfl⟩
          obtain ⟨hn, hk⟩ := ih.1 hsplit
          exact ⟨⟨fun h => hc h.symm, hn⟩, rfl, hk⟩
        · rintro ⟨⟨-, hn⟩, rfl, hk⟩
          exact ⟨(name, value), ih.2 ⟨hn, hk⟩, ⟨rfl, rfl⟩, rfl⟩

/-- A key has one reading whose name is free of the separator. -/
theorem ikey_inj_of_name {name' value' : Str} (hname : sep ∉ name) (hname' : sep ∉ name')
    (h : ikey name value = ikey name' value') : name = name' ∧ value = value' := by
  have hsplit : splitKey (ikey name value) = some (name', value') := splitKey_eq_some.2 ⟨hname', h⟩
  rw [splitKey_eq_some.2 ⟨hname, rfl⟩] at hsplit
  cases hsplit
  exact ⟨rfl, rfl⟩

/-! ## Counts -/

theorem pointBelow_eq {bound : Nat} (h : lsns.Pairwise (· < ·)) :
    pointBelow lsns bound = lsns.countP (fun l => decide (l < bound)) := by
  have hsorted : lsns.Pairwise (fun a b => decide (b < bound) = true → decide (a < bound) = true) := h.imp (fun hab hb => by
    rw [decide_eq_true_eq] at hb ⊢
    exact Nat.lt_trans hab hb)
  rw [List.countP_eq_length_filter]
  exact partitionPoint_eq (fun i l hl => iff_lt_length_filter hsorted i l hl) (List.length_filter_le _ _)

/-- How many LSNs of a list are in a window. -/
def within (lsns : List Nat) (start stop : Nat) : List Nat := lsns.filter (fun l => decide (start ≤ l ∧ l < stop))

/-- Two partition points count a window. -/
theorem pointBelow_sub {start stop : Nat} (h : lsns.Pairwise (· < ·)) :
    pointBelow lsns stop - pointBelow lsns start = (within lsns start stop).length := by
  rw [pointBelow_eq h, pointBelow_eq h, within, ← List.countP_eq_length_filter]
  rcases Nat.le_total start stop with hle | hle
  · have hsplit : lsns.countP (fun l => decide (l < stop)) =
        lsns.countP (fun l => decide (l < start)) + lsns.countP (fun l => decide (start ≤ l ∧ l < stop)) := by
      clear h
      induction lsns with
      | nil => rfl
      | cons l ls ih =>
        simp only [List.countP_cons, ih, decide_eq_true_eq]
        split_ifs <;> omega
    omega
  · have hzero : lsns.countP (fun l => decide (start ≤ l ∧ l < stop)) = 0 := by
      rw [List.countP_eq_zero]
      intro l _
      simp only [decide_eq_true_eq]
      omega
    have hmono : lsns.countP (fun l => decide (l < stop)) ≤ lsns.countP (fun l => decide (l < start)) := by
      refine List.countP_mono_left (fun l _ hlt => ?_)
      simp only [decide_eq_true_eq] at hlt ⊢
      omega
    omega

/-- A line that is shown: of a value with an event in one of the two windows. -/
def DiffValor.Shown (d : DiffValor) : Prop := 0 < d.eventos ∨ 0 < d.anterior

instance : DecidablePred DiffValor.Shown := fun d => inferInstanceAs (Decidable (0 < d.eventos ∨ 0 < d.anterior))

theorem diffValor_counts (de ate : Nat) (value : Str) (h : lsns.Pairwise (· < ·)) :
    (diffValor de ate value lsns).eventos = (within lsns de ate).length ∧
    (diffValor de ate value lsns).anterior = (within lsns (anteriorDe de ate) de).length :=
  ⟨pointBelow_sub h, pointBelow_sub h⟩

/-- A value whose first posting is behind the window has no event in either window. -/
theorem not_shown_of_head (h : lsns.Pairwise (· < ·)) (hhead : lsns.head?.all (fun f => decide (ate ≤ f)) = true) :
    ¬(diffValor de ate value lsns).Shown := by
  have hlate : ∀ l ∈ lsns, ate ≤ l := by
    cases lsns with
    | nil => simp
    | cons f ls =>
      have hf : ate ≤ f := by simpa using hhead
      intro l hl
      rcases List.mem_cons.1 hl with rfl | hl
      · exact hf
      · exact Nat.le_trans hf (Nat.le_of_lt ((List.pairwise_cons.1 h).1 l hl))
  have hnil : ∀ start stop, stop ≤ ate ∨ stop ≤ start → within lsns start stop = [] := by
    intro start stop hstop
    rw [within, List.filter_eq_nil_iff]
    intro l hl
    have := hlate l hl
    simp only [decide_eq_true_eq]
    omega
  unfold DiffValor.Shown
  have hant : de ≤ ate ∨ de ≤ anteriorDe de ate := by
    unfold anteriorDe
    omega
  rw [(diffValor_counts de ate value h).1, (diffValor_counts de ate value h).2, hnil _ _ (.inl (Nat.le_refl ate)),
    hnil _ _ hant]
  simp

/-! ## Fields -/

/-- What the keys of an index have under a name: each value with its postings. -/
def valuesOf (name : Str) (entries : List (Str × Postings)) : List (Str × Postings) :=
  entries.filterMap (fun kp => (splitKey kp.1).bind (fun p => if p.1 = name then some (p.2, kp.2) else none))

theorem mem_valuesOf {entries : List (Str × Postings)} {v : Str} {p : Postings} :
    (v, p) ∈ valuesOf name entries ↔ sep ∉ name ∧ (ikey name v, p) ∈ entries := by
  unfold valuesOf
  rw [List.mem_filterMap]
  constructor
  · rintro ⟨⟨k, q⟩, hmem, hsome⟩
    obtain ⟨⟨n, w⟩, hsplit, hif⟩ := Option.bind_eq_some_iff.1 hsome
    split at hif
    · rename_i hn
      cases hif
      subst hn
      obtain ⟨hsep, rfl⟩ := splitKey_eq_some.1 hsplit
      exact ⟨hsep, hmem⟩
    · cases hif
  · rintro ⟨hsep, hmem⟩
    refine ⟨(ikey name v, p), hmem, ?_⟩
    rw [splitKey_eq_some.2 ⟨hsep, rfl⟩, Option.bind_some, if_pos rfl]

theorem valuesOf_cons (k : Str) (p : Postings) (entries : List (Str × Postings)) : valuesOf name ((k, p) :: entries) =
    (match splitKey k with
      | none => []
      | some nv => if nv.1 = name then [(nv.2, p)] else []) ++ valuesOf name entries := by
  unfold valuesOf
  rw [List.filterMap_cons]
  dsimp only
  cases hsplit : splitKey k with
  | none => rfl
  | some nv =>
    dsimp only [Option.bind_some]
    by_cases hn : nv.1 = name
    · rw [if_pos hn, if_pos hn]
      rfl
    · rw [if_neg hn, if_neg hn]
      rfl

theorem length_valuesOf_le (entries : List (Str × Postings)) : (valuesOf name entries).length ≤ entries.length :=
  List.length_filterMap_le _ _

theorem get?_foldl_addKey : ∀ (entries : List (Str × Postings)) (m : SortedMap Str DiffCampo),
    (entries.foldl (addKey de ate) m).get? name = (valuesOf name entries).foldl
      (fun o vp => some ((o.getD { campo := name }).add de ate vp.1 vp.2.lsns)) (m.get? name)
  | [], _ => rfl
  | (k, p) :: entries, m => by
    rw [List.foldl_cons, get?_foldl_addKey entries, valuesOf_cons, List.foldl_append, addKey]
    dsimp only
    cases hsplit : splitKey k with
    | none => rfl
    | some nv =>
      dsimp only
      rw [SortedMap.get?_alter]
      by_cases hn : nv.1 = name
      · rw [if_pos hn.symm, if_pos hn, hn]
        rfl
      · rw [if_neg hn, if_neg (fun h => hn h.symm)]
        rfl

theorem campo_add (e : DiffCampo) : (e.add de ate value lsns).campo = e.campo := by
  unfold DiffCampo.add
  dsimp only
  split <;> rfl

theorem topo_add (h : lsns.Pairwise (· < ·)) (e : DiffCampo) : (e.add de ate value lsns).topo =
    e.topo ++ [diffValor de ate value lsns].filter DiffValor.Shown := by
  have hadd : (e.add de ate value lsns).topo =
      if (diffValor de ate value lsns).Shown then e.topo ++ [diffValor de ate value lsns] else e.topo := by
    unfold DiffCampo.add
    dsimp only
    split
    · rename_i hhead
      rw [if_neg (not_shown_of_head h hhead)]
    · rfl
  rw [hadd]
  split
  · rename_i hshown
    rw [List.filter_cons_of_pos (by simpa using hshown), List.filter_nil]
  · rename_i hshown
    rw [List.filter_cons_of_neg (by simpa using hshown), List.filter_nil, List.append_nil]

/-- The lines of some values. -/
def lines (de ate : Nat) (values : List (Str × Postings)) : List DiffValor :=
  (values.map (fun vp => diffValor de ate vp.1 vp.2.lsns)).filter DiffValor.Shown

theorem foldl_add_eq (de ate : Nat) (values : List (Str × Postings)) : ∀ e : DiffCampo, ∃ c,
    values.foldl (fun o vp => some ((o.getD { campo := name }).add de ate vp.1 vp.2.lsns)) (some e) = some c ∧
      c.campo = e.campo ∧ c.topo = e.topo ++ lines de ate values := by
  induction values with
  | nil => exact fun e => ⟨e, rfl, rfl, by simp [lines]⟩
  | cons vp values ih =>
    intro e
    obtain ⟨c, hc, hcampo, htopo⟩ := ih (e.add de ate vp.1 vp.2.lsns)
    refine ⟨c, hc, by rw [hcampo, campo_add], ?_⟩
    rw [htopo, topo_add vp.2.sorted, List.append_assoc, lines, lines, List.map_cons, ← List.filter_append]
    rfl

/-- A field of the diff lists the lines of its values. -/
theorem field_eq (de ate : Nat) (idx : AttrIndex) (name : Str) :
    ((idx.exactPostings.entries.foldl (addKey de ate) .empty).get? name = none ∧ valuesOf name idx.exactPostings.entries = []) ∨
    ∃ c, (idx.exactPostings.entries.foldl (addKey de ate) .empty).get? name = some c ∧ c.campo = name ∧
      c.topo = lines de ate (valuesOf name idx.exactPostings.entries) := by
  rw [get?_foldl_addKey, SortedMap.get?_empty]
  cases hvalues : valuesOf name idx.exactPostings.entries with
  | nil => exact .inl ⟨rfl, rfl⟩
  | cons vp values =>
    obtain ⟨c, hc, hcampo, htopo⟩ := foldl_add_eq de ate values (({ campo := name } : DiffCampo).add de ate vp.1 vp.2.lsns)
    refine .inr ⟨c, hc, by rw [hcampo, campo_add], ?_⟩
    rw [htopo, topo_add vp.2.sorted, List.nil_append, lines, lines, List.map_cons, ← List.filter_append]
    rfl

/-- **The lines of a diff** that is not cut are those of the index's values with an event in a window. -/
theorem mem_line_iff {topo : Nat} (htopo : idx.exactPostings.entries.length ≤ topo) :
    (∃ c ∈ diff idx de ate topo, c.campo = name ∧ d ∈ c.topo) ↔
      d ∈ lines de ate (valuesOf name idx.exactPostings.entries) := by
  have hcut : ∀ c : DiffCampo, c.topo = lines de ate (valuesOf c.campo idx.exactPostings.entries) →
      (d ∈ (c.topo.mergeSort DiffValor.before).take topo ↔ d ∈ c.topo) := by
    intro c hc
    have hlen : c.topo.length ≤ topo := by
      rw [hc, lines]
      refine Nat.le_trans (List.length_filter_le _ _) ?_
      rw [List.length_map]
      exact Nat.le_trans (length_valuesOf_le _) htopo
    rw [List.take_of_length_le (by rw [List.length_mergeSort]; exact hlen), List.mem_mergeSort]
  unfold diff
  simp only [List.mem_mergeSort, List.mem_map]
  constructor
  · rintro ⟨_, ⟨⟨k, c⟩, hmem, rfl⟩, hname, hd⟩
    dsimp only at hname hd
    have hget := SortedMap.get?_eq_some.2 hmem
    rcases field_eq de ate idx k with ⟨hnone, -⟩ | ⟨c', hc', hcampo, htopo'⟩
    · rw [hnone] at hget
      cases hget
    · rw [hc'] at hget
      cases hget
      rw [← hcampo, hname] at htopo'
      rw [hcut _ (by rw [hname]; exact htopo'), htopo'] at hd
      exact hd
  · intro hd
    rcases field_eq de ate idx name with ⟨-, hvalues⟩ | ⟨c, hc, hcampo, htopo'⟩
    · rw [hvalues] at hd
      cases hd
    · refine ⟨_, ⟨(name, c), SortedMap.get?_eq_some.1 hc, rfl⟩, hcampo, ?_⟩
      rw [hcut c (by rw [hcampo]; exact htopo'), htopo']
      exact hd

theorem mem_lines_valuesOf : d ∈ lines de ate (valuesOf name idx.exactPostings.entries) ↔
    sep ∉ name ∧ d.Shown ∧ ∃ p, idx.exactPostings.get? (ikey name d.valor) = some p ∧ d = diffValor de ate d.valor p.lsns := by
  unfold lines
  rw [List.mem_filter, List.mem_map, decide_eq_true_eq]
  constructor
  · rintro ⟨⟨⟨v, p⟩, hmem, rfl⟩, hshown⟩
    obtain ⟨hsep, hmem⟩ := mem_valuesOf.1 hmem
    exact ⟨hsep, hshown, p, SortedMap.get?_eq_some.2 hmem, rfl⟩
  · rintro ⟨hsep, hshown, p, hp, hd⟩
    exact ⟨⟨(d.valor, p), mem_valuesOf.2 ⟨hsep, SortedMap.get?_eq_some.1 hp⟩, hd.symm⟩, hshown⟩

/-- **What a diff shows of a value**: the windows of its posting list, unless its name has the separator. -/
theorem shows_iff {topo eventos anterior : Nat} (htopo : idx.exactPostings.entries.length ≤ topo) :
    Shows (diff idx de ate topo) name value eventos anterior ↔
      if sep ∈ name then eventos = 0 ∧ anterior = 0
      else eventos = (within (idx.postings (ikey name value)) de ate).length ∧
        anterior = (within (idx.postings (ikey name value)) (anteriorDe de ate) de).length := by
  have hline : ∀ d, (∃ c ∈ diff idx de ate topo, c.campo = name ∧ d ∈ c.topo) ↔ _ := fun d =>
    (mem_line_iff htopo).trans mem_lines_valuesOf
  have hshows : Shows (diff idx de ate topo) name value eventos anterior ↔
      (∃ d, (∃ c ∈ diff idx de ate topo, c.campo = name ∧ d ∈ c.topo) ∧ d.valor = value ∧ d.eventos = eventos ∧
        d.anterior = anterior) ∨
      ((∀ d, (∃ c ∈ diff idx de ate topo, c.campo = name ∧ d ∈ c.topo) → d.valor ≠ value) ∧ eventos = 0 ∧ anterior = 0) := by
    unfold Shows
    constructor
    · rintro (⟨c, hc, hn, d, hd, hcounts⟩ | ⟨hnone, hzero⟩)
      · exact .inl ⟨d, ⟨c, hc, hn, hd⟩, hcounts⟩
      · exact .inr ⟨fun d ⟨c, hc, hn, hd⟩ => hnone c hc hn d hd, hzero⟩
    · rintro (⟨d, ⟨c, hc, hn, hd⟩, hcounts⟩ | ⟨hnone, hzero⟩)
      · exact .inl ⟨c, hc, hn, d, hd, hcounts⟩
      · exact .inr ⟨fun c hc hn d hd => hnone d ⟨c, hc, hn, hd⟩, hzero⟩
  rw [hshows]
  simp only [hline]
  by_cases hsep : sep ∈ name
  · rw [if_pos hsep]
    constructor
    · rintro (⟨d, ⟨hnot, -⟩, -⟩ | ⟨-, h⟩)
      · exact absurd hsep hnot
      · exact h
    · exact fun h => .inr ⟨fun d ⟨hnot, _⟩ => absurd hsep hnot, h⟩
  · rw [if_neg hsep]
    have hcounts := fun p : Postings => diffValor_counts de ate value p.sorted
    unfold postings
    cases hget : idx.exactPostings.get? (ikey name value) with
    | none =>
      constructor
      · rintro (⟨d, ⟨-, -, p, hp, -⟩, rfl, -⟩ | ⟨-, h⟩)
        · rw [hget] at hp
          cases hp
        · exact h
      · refine fun h => .inr ⟨fun d ⟨_, _, p, hp, _⟩ hd => ?_, h⟩
        rw [hd, hget] at hp
        cases hp
    | some p =>
      rw [Option.map_some, Option.getD_some, ← (hcounts p).1, ← (hcounts p).2]
      by_cases hshown : (diffValor de ate value p.lsns).Shown
      · constructor
        · rintro (⟨d, ⟨-, -, q, hq, hd⟩, rfl, rfl, rfl⟩ | ⟨hnone, -⟩)
          · rw [hget] at hq
            cases hq
            exact ⟨congrArg _ hd, congrArg _ hd⟩
          · exact absurd rfl (hnone (diffValor de ate value p.lsns) ⟨hsep, hshown, p, hget, rfl⟩)
        · rintro ⟨rfl, rfl⟩
          exact .inl ⟨diffValor de ate value p.lsns, ⟨hsep, hshown, p, hget, rfl⟩, rfl, rfl, rfl⟩
      · have hzero : (diffValor de ate value p.lsns).eventos = 0 ∧ (diffValor de ate value p.lsns).anterior = 0 := by
          unfold DiffValor.Shown at hshown
          omega
        rw [hzero.1, hzero.2]
        have hnone : ∀ d : DiffValor, (sep ∉ name ∧ d.Shown ∧ ∃ p, idx.exactPostings.get? (ikey name d.valor) = some p ∧
            d = diffValor de ate d.valor p.lsns) → d.valor ≠ value := by
          rintro d ⟨-, hd, q, hq, hdq⟩ rfl
          rw [hget] at hq
          cases hq
          rw [hdq] at hd
          exact hshown hd
        constructor
        · rintro (⟨d, hd, hvalor, -⟩ | ⟨-, h⟩)
          · exact absurd hvalor (hnone d hd)
          · exact h
        · exact fun h => .inr ⟨hnone, h⟩

/-! ## When a diff is exact -/

theorem trim_trim (s : Str) : trim (trim s) = trim s := by
  have htrim : ∀ t : Str, trim t = (t.dropWhile isWhitespace).rdropWhile isWhitespace := fun _ => rfl
  have hstart : (trim s).dropWhile isWhitespace = trim s := by
    rw [List.dropWhile_eq_self_iff]
    intro hpos
    have hpre : trim s <+: s.dropWhile isWhitespace := List.rdropWhile_prefix _ _
    rw [hpre.getElem hpos]
    exact List.dropWhile_eq_self_iff.1 (List.dropWhile_idempotent isWhitespace s) (Nat.lt_of_lt_of_le hpos hpre.length_le)
  rw [htrim (trim s), hstart, htrim s, List.rdropWhile_idempotent]

theorem FiledAs.indexable {event : Episode} (h : FiledAs event name value) : Indexable name value := by
  rcases h with ⟨rfl, rfl, hbounds⟩ | ⟨rfl, rfl, hbounds⟩ | ⟨v, -, rfl, hskip⟩
  · exact ⟨trim_trim _, by rw [if_pos (.inl rfl)]; exact hbounds⟩
  · exact ⟨trim_trim _, by rw [if_pos (.inr rfl)]; exact hbounds⟩
  · refine ⟨trim_trim v, ?_⟩
    split
    · unfold skipped at hskip
      rw [Bool.or_eq_false_iff, decide_eq_false_iff_not] at hskip
      refine ⟨fun hnil => ?_, Nat.not_lt.1 hskip.1⟩
      rw [hnil] at hskip
      exact absurd hskip.2 (by decide)
    · exact hskip

/-- What is filed under a name with the separator is an attribute. -/
theorem FiledAs.carries_of_sep {event : Episode} (h : FiledAs event name value) (hsep : sep ∈ name) : Carries event name value := by
  have hreserved : sep ∉ agentField ∧ sep ∉ kindField := by decide
  have hagent : name ≠ agentField := fun heq => hreserved.1 (heq ▸ hsep)
  have hkind : name ≠ kindField := fun heq => hreserved.2 (heq ▸ hsep)
  rcases h with ⟨heq, -⟩ | ⟨heq, -⟩ | ⟨v, hget, hv, -⟩
  · exact absurd heq hagent
  · exact absurd heq hkind
  · unfold Carries
    rw [if_neg hagent, if_neg hkind]
    exact ⟨v, hget, hv.symm⟩

/-- Each name an event is filed under is free of the separator, and the event carries what is filed. -/
def PlainlyFiled (event : Episode) : Prop := ∀ name value, FiledAs event name value → sep ∉ name ∧ Carries event name value

/-- What is claimed: a diff shows of every value the events of the two windows that carry it. -/
def DiffExact (log : Nat → Episode) (lsns : List Nat) (idx : AttrIndex) (de ate : Nat) : Prop :=
  ∀ topo, idx.exactPostings.entries.length ≤ topo → ∀ name value, Indexable name value → ∃ eventos anterior,
    EventsIn log lsns name value de ate eventos ∧ EventsIn log lsns name value (anteriorDe de ate) de anterior ∧
      Shows (diff idx de ate topo) name value eventos anterior

variable {log : Nat → Episode} {numKey : Str → Option Nat} {start stop n : Nat}

theorem mem_within {l : Nat} : l ∈ within lsns start stop ↔ l ∈ lsns ∧ start ≤ l ∧ l < stop := by
  rw [within, List.mem_filter, decide_eq_true_eq]

theorem nodup_within {key : Str} : (within (idx.postings key) start stop).Nodup :=
  ((postings_sorted idx key).imp Nat.ne_of_lt).filter _

/-- What an event carries is in the posting list of its key. -/
theorem mem_postings_of_carries (hin : Indexable name value) {l : Nat} (hl : l ∈ lsns) (h : Carries (log l) name value) :
    l ∈ (delivered numKey log lsns).postings (ikey name value) :=
  (mem_postings_delivered lsns).2 ⟨hl, (files_iff _ _).2 ⟨name, value, h.filedAs hin, rfl⟩⟩

/-- **When the window of a posting list counts the events that carry a value**: exactly if all its events do. -/
theorem eventsIn_within_iff (hin : Indexable name value) :
    EventsIn log lsns name value start stop (within ((delivered numKey log lsns).postings (ikey name value)) start stop).length ↔
      ∀ l ∈ within ((delivered numKey log lsns).postings (ikey name value)) start stop, Carries (log l) name value := by
  constructor
  · rintro ⟨ls, hnodup, hmem, hlen⟩ l hl
    have hsub : ls ⊆ within ((delivered numKey log lsns).postings (ikey name value)) start stop := by
      intro x hx
      obtain ⟨hxl, hstart, hstop, hcarries⟩ := (hmem x).1 hx
      exact mem_within.2 ⟨mem_postings_of_carries hin hxl hcarries, hstart, hstop⟩
    have hperm := (List.subperm_of_subset hnodup hsub).perm_of_length_le (Nat.le_of_eq hlen.symm)
    exact ((hmem l).1 (hperm.mem_iff.2 hl)).2.2.2
  · intro h
    refine ⟨_, nodup_within, fun l => ?_, rfl⟩
    constructor
    · intro hl
      obtain ⟨hpost, hstart, hstop⟩ := mem_within.1 hl
      exact ⟨((mem_postings_delivered lsns).1 hpost).1, hstart, hstop, h l hl⟩
    · rintro ⟨hl, hstart, hstop, hcarries⟩
      exact mem_within.2 ⟨mem_postings_of_carries hin hl hcarries, hstart, hstop⟩

theorem eventsIn_zero_iff : EventsIn log lsns name value start stop 0 ↔
    ∀ l ∈ lsns, start ≤ l → l < stop → ¬Carries (log l) name value := by
  constructor
  · rintro ⟨ls, -, hmem, hlen⟩ l hl hstart hstop hcarries
    rw [List.length_eq_zero_iff] at hlen
    subst hlen
    cases (hmem l).2 ⟨hl, hstart, hstop, hcarries⟩
  · intro h
    refine ⟨[], .nil, fun l => ?_, rfl⟩
    constructor
    · intro hl
      cases hl
    · exact fun ⟨hl, hstart, hstop, hcarries⟩ => absurd hcarries (h l hl hstart hstop)

/-- **When a diff is exact**: for every log, all deliveries and all bounds, exactly if every event of its two windows is plainly
filed. -/
theorem diffExact_iff (numKey : Str → Option Nat) (log : Nat → Episode) (lsns : List Nat) (de ate : Nat) :
    DiffExact log lsns (delivered numKey log lsns) de ate ↔
      ∀ l ∈ lsns, anteriorDe de ate ≤ l → l < ate → PlainlyFiled (log l) := by
  have hwindows : ∀ l, anteriorDe de ate ≤ l → (l < de → l < ate) ∧ (de ≤ l ∨ l < de) := by
    intro l hl
    unfold anteriorDe at hl
    omega
  constructor
  · intro h l hl hstart hstop name value hfiled
    have hin := hfiled.indexable
    obtain ⟨eventos, anterior, heventos, hanterior, hshows⟩ := h _ (Nat.le_refl _) name value hin
    rw [shows_iff (Nat.le_refl _)] at hshows
    by_cases hsep : sep ∈ name
    · rw [if_pos hsep] at hshows
      obtain ⟨rfl, rfl⟩ := hshows
      have hcarries := hfiled.carries_of_sep hsep
      rcases (hwindows l hstart).2 with hde | hde
      · exact absurd hcarries (eventsIn_zero_iff.1 heventos l hl hde hstop)
      · exact absurd hcarries (eventsIn_zero_iff.1 hanterior l hl hstart hde)
    · rw [if_neg hsep] at hshows
      obtain ⟨rfl, rfl⟩ := hshows
      rw [eventsIn_within_iff hin] at heventos hanterior
      have hpost : l ∈ (delivered numKey log lsns).postings (ikey name value) :=
        (mem_postings_delivered lsns).2 ⟨hl, (files_iff _ _).2 ⟨name, value, hfiled, rfl⟩⟩
      rcases (hwindows l hstart).2 with hde | hde
      · exact ⟨hsep, heventos l (mem_within.2 ⟨hpost, hde, hstop⟩)⟩
      · exact ⟨hsep, hanterior l (mem_within.2 ⟨hpost, hstart, hde⟩)⟩
  · intro h topo htopo name value hin
    have hin_windows : ∀ P : Nat → Prop, (∀ l, anteriorDe de ate ≤ l → l < ate → P l) →
        (∀ l, de ≤ l → l < ate → P l) ∧ ∀ l, anteriorDe de ate ≤ l → l < de → P l := fun P hP =>
      ⟨fun l hstart hstop => hP l (Nat.le_trans (Nat.sub_le _ _) hstart) hstop,
        fun l hstart hstop => hP l hstart ((hwindows l hstart).1 hstop)⟩
    by_cases hsep : sep ∈ name
    · obtain ⟨hde, hant⟩ := hin_windows (fun l => l ∈ lsns → ¬Carries (log l) name value) (fun l hstart hstop hl hcarries =>
        (h l hl hstart hstop name value (hcarries.filedAs hin)).1 hsep)
      exact ⟨0, 0, eventsIn_zero_iff.2 (fun l hl hstart hstop => hde l hstart hstop hl),
        eventsIn_zero_iff.2 (fun l hl hstart hstop => hant l hstart hstop hl),
        (shows_iff htopo).2 (by rw [if_pos hsep]; exact ⟨rfl, rfl⟩)⟩
    · have hfiled : ∀ l, anteriorDe de ate ≤ l → l < ate →
          l ∈ (delivered numKey log lsns).postings (ikey name value) → Carries (log l) name value := by
        intro l hstart hstop hpost
        obtain ⟨hl, hfiles⟩ := (mem_postings_delivered lsns).1 hpost
        obtain ⟨name', value', hfiled, hkey⟩ := (files_iff _ _).1 hfiles
        obtain ⟨hsep', hcarries⟩ := h l hl hstart hstop name' value' hfiled
        obtain ⟨rfl, rfl⟩ := ikey_inj_of_name hsep hsep' hkey
        exact hcarries
      obtain ⟨hde, hant⟩ := hin_windows _ hfiled
      refine ⟨_, _, (eventsIn_within_iff hin).2 (fun l hl => ?_), (eventsIn_within_iff hin).2 (fun l hl => ?_),
        (shows_iff htopo).2 (by rw [if_neg hsep]; exact ⟨rfl, rfl⟩)⟩
      · obtain ⟨hpost, hstart, hstop⟩ := mem_within.1 hl
        exact hde l hstart hstop hpost
      · obtain ⟨hpost, hstart, hstop⟩ := mem_within.1 hl
        exact hant l hstart hstop hpost

/-- **An attribute called `_agent` counts as the agent**: the window of one event shows one of the agent `bob`, who wrote none. -/
theorem diff_counts_posing_attribute :
    Shows (diff (delivered (fun _ => none) (fun _ => aliceEvent) [0]) 0 1 10) agentField "bob".toList 1 0 ∧
    ¬DiffExact (fun _ => aliceEvent) [0] (delivered (fun _ => none) (fun _ => aliceEvent) [0]) 0 1 := by
  have hlen : (delivered (fun _ => none) (fun _ => aliceEvent) [0]).exactPostings.entries.length ≤ 10 := by decide +kernel
  have hpostings : (delivered (fun _ => none) (fun _ => aliceEvent) [0]).postings (ikey agentField "bob".toList) = [0] := by
    decide +kernel
  have hin : Indexable agentField "bob".toList := by
    refine ⟨by decide, ?_⟩
    rw [if_pos (.inl rfl)]
    decide
  have hnot : ¬Carries aliceEvent agentField "bob".toList := by
    intro hcarries
    unfold Carries at hcarries
    rw [if_pos rfl] at hcarries
    exact absurd hcarries (by decide)
  refine ⟨(shows_iff hlen).2 (by rw [if_neg (by decide), hpostings]; exact ⟨rfl, rfl⟩), fun h => ?_⟩
  obtain ⟨eventos, anterior, ⟨ls, -, hmem, hcount⟩, -, hfound⟩ := h 10 hlen _ _ hin
  rw [shows_iff hlen, if_neg (by decide), hpostings] at hfound
  obtain ⟨l, hl⟩ := List.exists_mem_of_length_pos (by rw [hcount, hfound.1]; decide)
  exact hnot ((hmem l).1 hl).2.2.2

end AttrIndex
end Heraclitus
