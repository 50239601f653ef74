import Heraclitus.Core
/-!
# LogSpec — the log as its users see it

An append-only sequence of records whose positions are the LSNs: `read`, `scan_capped`, and the loop by which every
replay walks it window by window.
-/
namespace Heraclitus

variable {α σ : Type}

/-- The records with their LSNs, the first one being `n`. -/
def number : Nat → List α → List (Nat × α)
  | _, [] => []
  | n, a :: l => (n, a) :: number (n + 1) l

/-- `scan_capped(from, to, max)`: the first `max` records with `from ≤ lsn < to`. -/
def scanCapped (log : List α) (start stop max : Nat) : List (Nat × α) :=
  number start ((log.drop start).take (min max (stop - start)))

/-- The replay loop up to `stop`: scan a window, feed it, go on after its last LSN, stop at an empty window. -/
def drain (window : Nat) (feed : σ → Nat × α → σ) (log : List α) (stop : Nat) : Nat → Nat → σ → σ
  | 0, _, s => s
  | fuel + 1, cur, s =>
    match (scanCapped log cur stop window).getLast? with
    | none => s
    | some last => drain window feed log stop fuel (last.1 + 1) ((scanCapped log cur stop window).foldl feed s)

/-- The whole replay of the records from `cur` on. -/
def replayFrom (feed : σ → Nat × α → σ) (log : List α) (cur : Nat) (s : σ) : σ :=
  (number cur (log.drop cur)).foldl feed s

theorem mem_number {a : α} {i : Nat} : ∀ {l : List α} {n : Nat}, (i, a) ∈ number n l ↔ n ≤ i ∧ l[i - n]? = some a
  | [], n => by simp [number]
  | b :: l, n => by
    unfold number
    rw [List.mem_cons, mem_number, Prod.mk.injEq]
    constructor
    · rintro (⟨rfl, rfl⟩ | ⟨hle, h⟩)
      · simp
      · have : i - n = i - (n + 1) + 1 := by omega
        rw [this, List.getElem?_cons_succ]
        exact ⟨by omega, h⟩
    · rintro ⟨hle, h⟩
      rcases Nat.eq_or_lt_of_le hle with rfl | hlt
      · rw [Nat.sub_self, List.getElem?_cons_zero, Option.some.injEq] at h
        exact .inl ⟨rfl, h.symm⟩
      · have : i - n = i - (n + 1) + 1 := by omega
        rw [this, List.getElem?_cons_succ] at h
        exact .inr ⟨hlt, h⟩

theorem mem_number_drop {log : List α} {a : α} {cur i : Nat} :
    (i, a) ∈ number cur (log.drop cur) ↔ cur ≤ i ∧ log[i]? = some a := by
  rw [mem_number, List.getElem?_drop]
  refine and_congr_right fun h => ?_
  rw [Nat.add_sub_cancel' h]

theorem number_append : ∀ (l r : List α) (n : Nat), number n (l ++ r) = number n l ++ number (n + l.length) r
  | [], _, _ => rfl
  | a :: l, r, n => by
    rw [List.cons_append, number, number, number_append l r, List.cons_append, List.length_cons, Nat.add_assoc,
      Nat.add_comm 1]

theorem map_snd_number : ∀ (l : List α) (n : Nat), (number n l).map Prod.snd = l
  | [], _ => rfl
  | a :: l, n => by rw [number, List.map_cons, map_snd_number l]

theorem getLast?_number : ∀ (l : List α) (n : Nat), (number n l).getLast?.map Prod.fst
    = if l = [] then none else some (n + l.length - 1)
  | [], _ => rfl
  | [a], n => by simp [number]
  | a :: b :: l, n => by
    have ih := getLast?_number (b :: l) (n + 1)
    rw [if_neg (List.cons_ne_nil b l)] at ih
    have hcons : (number n (a :: b :: l)).getLast? = (number (n + 1) (b :: l)).getLast? := List.getLast?_cons_cons
    rw [hcons, ih, if_neg (List.cons_ne_nil _ _)]
    simp only [List.length_cons]
    congr 1
    omega

theorem number_pairwise : ∀ (l : List α) (n : Nat), (number n l).Pairwise (fun a b => a.1 < b.1)
  | [], _ => List.Pairwise.nil
  | a :: l, n => by
    refine List.pairwise_cons.2 ⟨fun r hr => ?_, number_pairwise l (n + 1)⟩
    have := (mem_number.1 hr).1
    omega

theorem number_split {n b : Nat} (h : n ≤ b) (log : List α) :
    number n (log.drop n) = number n ((log.drop n).take (b - n)) ++ number b (log.drop b) := by
  by_cases hb : b ≤ log.length
  · conv_lhs => rw [← List.take_append_drop (b - n) (log.drop n), number_append, List.drop_drop]
    rw [List.length_take, List.length_drop, Nat.min_eq_left (by omega), Nat.add_sub_cancel' h]
  · rw [List.drop_eq_nil_of_le (show log.length ≤ b by omega), List.take_of_length_le (by simp; omega)]
    simp [number]

/-- Of the records from `n` on, those at `b` or above are the records from `b` on. -/
theorem filter_number_drop {n b : Nat} (h : n ≤ b) (log : List α) :
    (number n (log.drop n)).filter (fun r => decide (b ≤ r.1)) = number b (log.drop b) := by
  have hlow : (number n ((log.drop n).take (b - n))).filter (fun r => decide (b ≤ r.1)) = [] := by
    refine List.filter_eq_nil_iff.2 (fun r hr => ?_)
    have hr' := (List.getElem?_eq_some_iff.1 (mem_number.1 hr).2).1
    have hn := (mem_number.1 hr).1
    rw [List.length_take] at hr'
    simp only [decide_eq_true_eq]
    omega
  have hhigh : (number b (log.drop b)).filter (fun r => decide (b ≤ r.1)) = number b (log.drop b) :=
    List.filter_eq_self.2 (fun r hr => by simpa using (mem_number.1 hr).1)
  rw [number_split h, List.filter_append, hlow, hhigh, List.nil_append]

theorem number_take : ∀ (k : Nat) (l : List α) (n : Nat), number n (l.take k) = (number n l).take k
  | 0, _, _ => by rw [List.take_zero, List.take_zero, number]
  | _ + 1, [], _ => by rw [List.take_nil, number, List.take_nil]
  | k + 1, a :: l, n => by rw [List.take_succ_cons, number, number, List.take_succ_cons, number_take k l]

theorem filter_number_lt : ∀ (l : List α) (n stop : Nat),
    (number n l).filter (fun r => decide (r.1 < stop)) = (number n l).take (stop - n)
  | [], _, _ => by rw [number, List.filter_nil, List.take_nil]
  | a :: l, n, stop => by
    rw [number, List.filter_cons, filter_number_lt l]
    by_cases h : n < stop
    · have : stop - n = stop - (n + 1) + 1 := by omega
      rw [if_pos (decide_eq_true h), this, List.take_succ_cons]
    · have h₁ : stop - n = 0 := by omega
      have h₂ : stop - (n + 1) = 0 := by omega
      rw [if_neg (by simpa using h), h₁, h₂, List.take_zero, List.take_zero]

/-- A scan is the first `max` of all records that lie in its window. -/
theorem scanCapped_eq_filter (log : List α) (start stop max : Nat) : scanCapped log start stop max
    = ((number 0 log).filter (fun r => decide (start ≤ r.1) && decide (r.1 < stop))).take max := by
  have hlow : (number 0 log).filter (fun r => decide (start ≤ r.1)) = number start (log.drop start) :=
    filter_number_drop (Nat.zero_le start) log
  rw [← List.filter_filter, List.filter_comm, hlow, filter_number_lt, scanCapped, number_take, List.take_take]

/-- **Walking the log by windows is walking it.** -/
theorem drain_eq_replayFrom {window stop : Nat} (hw : 0 < window) (feed : σ → Nat × α → σ) (log : List α)
    (hstop : log.length ≤ stop) : ∀ (fuel cur : Nat) (s : σ), log.length - cur ≤ fuel →
      drain window feed log stop fuel cur s = replayFrom feed log cur s
  | 0, cur, s, h => by
    have : log.drop cur = [] := List.drop_eq_nil_of_le (by omega)
    simp [drain, replayFrom, this, number]
  | fuel + 1, cur, s, h => by
    by_cases hcur : log.length ≤ cur
    · have : log.drop cur = [] := List.drop_eq_nil_of_le hcur
      simp [drain, scanCapped, replayFrom, this, number]
    · have hlen : ((log.drop cur).take (min window (stop - cur))).length = min window (log.length - cur) := by
        rw [List.length_take, List.length_drop]
        omega
      have hne : (log.drop cur).take (min window (stop - cur)) ≠ [] := by
        intro h0
        rw [h0, List.length_nil] at hlen
        omega
      have hlast := getLast?_number ((log.drop cur).take (min window (stop - cur))) cur
      rw [if_neg hne] at hlast
      obtain ⟨last, hl, hfst⟩ := Option.map_eq_some_iff.1 hlast
      have hnext : last.1 + 1 = cur + ((log.drop cur).take (min window (stop - cur))).length := by
        rw [hfst, hlen]
        omega
      unfold drain scanCapped
      rw [hl]
      dsimp only
      rw [drain_eq_replayFrom hw feed log hstop fuel _ _ (by rw [hnext, hlen]; omega)]
      unfold replayFrom
      rw [← List.foldl_append, hnext]
      congr 1
      rw [← List.drop_drop, ← number_append]
      congr 1
      conv_rhs => rw [← List.take_append_drop (min window (stop - cur)) (log.drop cur)]
      congr 1
      rw [List.length_take]
      by_cases hmin : min window (stop - cur) ≤ (log.drop cur).length
      · rw [Nat.min_eq_left hmin]
      · rw [List.drop_eq_nil_of_le (by omega), List.drop_eq_nil_of_le (by omega)]

end Heraclitus
