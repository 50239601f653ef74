import Heraclitus.V6Reopen
/-!
# V6Faults — runs of a v6 log in which a step on the file system may fail

A call whose step fails returns an error.  Where the step comes before anything of the record is written, or belongs to a
flush, to a read or to a packing, the log is as it was.  After a part of a record, after a record that was not synced, and
anywhere in a sealing it is not.
-/
namespace Heraclitus
namespace V6

variable {env : Env} {s : State} {es : List Episode} {synced : Nat} {sync : Prop}

/-! ## Reopening without a crash -/

/-- **A log that works is opened again as it is**, flushed or not, if nothing in it looks like a footer. -/
theorem Live.wp_openLog (h : Live env es synced sync s) (hmarked : s.disk.marked = false) (hmax : 0 < env.segmentMaxBytes)
    (seed : Bytes) : (openLog env seed).wp ⟨fun _ s' => Live env es synced True s', fun _ _ => False, fun _ _ _ => True,
      fun _ => True⟩ s := by
  obtain ⟨ns, hist, ⟨segs, g, low, hsteady, rfl, hsafe, -⟩, hholds⟩ := h
  obtain ⟨f, hentries, hdata, -⟩ := hsteady.file
  have hlength : f.data.length = g.bodyLen := by rw [hdata, hsteady.valid.length_open]
  have hheader : fileHeaderLen ≤ f.data.length := by
    rw [hlength]
    exact Nat.le_add_right _ _
  have hunmarked : footerMagicAtEof f.data = false := by
    rw [Disk.marked, hentries, List.any_cons] at hmarked
    exact (Bool.or_eq_false_iff.1 hmarked).1
  have hread : s.disk.readable = true := by
    rw [Disk.readable, hentries, List.all_cons, List.all_nil, Bool.and_true, hunmarked, decide_eq_true hheader]
    rfl
  refine ((hsteady.leaves hsafe True).wp_openLog trivial hread hmax seed).mono ?_ (fun _ _ hf => hf) (fun _ _ _ _ => trivial)
    (fun _ _ => trivial)
  rintro - s' ⟨ns', halive⟩
  have hcomplete : Rest.complete env ⟨g, low, g.bodyLen⟩ = false := by
    refine beq_false_of_ne (Nat.ne_of_lt ?_)
    show g.bodyLen < (g.bytes env).length
    rw [hsteady.valid.length_bytes]
    exact Nat.lt_add_of_pos_right (by decide)
  have hrecovered : V6.recovered env segs (some ⟨g, low, g.bodyLen⟩) = recordsOf segs ++ g.records := by
    rw [V6.recovered, Option.elim_some, hcomplete, if_neg Bool.false_ne_true, Rest.kept, Segment.cut_bodyLen]
  rw [hrecovered] at halive
  exact ⟨ns', _, halive, hholds⟩

/-! ## Runs -/

namespace World

variable (env)

inductive FaultAct where
  /-- A call in which nothing goes wrong, or one step fails. -/
  | call (c : Call) (x : Option (Mishap Site))
  /-- The log is closed and opened again. -/
  | reopen (seed : Bytes)

variable (w : World)

/-- The step does not end the process. -/
def failing (x : Mishap Site) : Mishap Site := { x with fatal := false }

def faultStep : FaultAct → Option World
  | .call c x => some (w.returned env c (c.run env w.state (x.map failing)))
  | .reopen seed => opened env seed w.state w.hist w.synced

/-- There is room for the call, and the step that fails, if any, does no harm; a log that is opened has no payload that looks
like a footer. -/
def Harmless : FaultAct → Prop
  | .call c x => c.Room env w.state ∧ ∀ m ∈ x, c.harmed m.site m.part = false
  | .reopen _ => w.state.disk.marked = false

/-- **The log is as if no step had failed**: it reads as what was appended, is opened again as that, and every call answers as
that, or is refused for what it is. -/
structure Faithful : Prop where
  head : w.state.nextLsn = w.hist.length
  reads : ∀ n, ∃ s, read env n w.state none = (.ok (w.hist[n]?.map (fun e => (n, e))), s, none)
  reopens : w.state.disk.marked = false → ∀ seed, ∃ w', opened env seed w.state w.hist w.synced = some w' ∧
    w'.hist = w.hist ∧ w'.state.nextLsn = w.hist.length ∧
    ∀ n, ∃ s, read env n w'.state none = (.ok (w.hist[n]?.map (fun e => (n, e))), s, none)
  answers : ∀ c : Call, c.Room env w.state →
    (∃ answer s, c.run env w.state none = (.ok answer, s, none) ∧ c.Answers w.hist answer) ∨
      ∃ e s m, c.run env w.state none = (.error (.refused e), s, m) ∧ c.Refuses env w.hist w.state e

end World

/-! ## The invariant -/

theorem Live.reads (h : Live env es synced sync s) (n : Nat) :
    ∃ s', read env n s none = (.ok (es[n]?.map (fun e => (n, e))), s', none) := by
  rcases (h.wp_read n).run with ⟨found, s', hread, rfl, -⟩ | ⟨e, s', m, -, hf⟩
  · exact ⟨s', hread⟩
  · exact hf.elim

theorem Live.reopened {w : World} (h : Live env w.hist w.synced sync w.state) (hmarked : w.state.disk.marked = false)
    (hmax : 0 < env.segmentMaxBytes) (seed : Bytes) : ∃ w', World.opened env seed w.state w.hist w.synced = some w' ∧
      w'.hist = w.hist ∧ w'.synced = w.synced ∧ Live env w'.hist w'.synced True w'.state := by
  rcases (h.wp_openLog hmarked hmax seed).run with ⟨a, s', hopen, hlive⟩ | ⟨-, -, -, -, ⟨⟩⟩
  have htake : w.hist.take s'.nextLsn = w.hist := by rw [hlive.head, List.take_length]
  refine ⟨⟨s', w.hist.take s'.nextLsn, w.synced⟩, by rw [World.opened, hopen], htake, rfl, ?_⟩
  rw [htake]
  exact hlive

theorem Live.faithful {w : World} (h : Live env w.hist w.synced sync w.state) (hcodec : env.RoundTrips)
    (hmax : 0 < env.segmentMaxBytes) : w.Faithful env := by
  refine ⟨h.head, h.reads, fun hmarked seed => ?_, fun c hroom => ?_⟩
  · obtain ⟨w', hw', hhist, -, hlive⟩ := h.reopened hmarked hmax seed
    rw [hhist] at hlive
    exact ⟨w', hw', hhist, hlive.head, hlive.reads⟩
  · rcases (h.wp_call hcodec hroom).run with ⟨answer, s', hrun, hanswers, -⟩ | ⟨e, s', m, hrun, hrefuses, -⟩
    · exact .inl ⟨answer, s', hrun, hanswers⟩
    · exact .inr ⟨e, s', m, hrun, hrefuses⟩

theorem Live.returned_failing {w : World} {c : Call} {x : Option (Mishap Site)}
    (hx : ∀ m ∈ x, c.harmed m.site m.part = false) :
    ∀ {r : Except (Stop HeraclitusError) Answer × State × Option (Mishap Site)},
      (callPost env w.hist w.synced False w.state c).Holds (x.map World.failing) r →
      Live env (w.returned env c r).hist (w.returned env c r).synced False (w.returned env c r).state
  | (.ok _, _, _), ⟨⟨_, hlive⟩, _⟩ => hlive.sealed
  | (.error (.refused _), _, _), ⟨_, hlive⟩ => hlive
  | (.error .failed, _, _), ⟨_, _, hk, hfailed⟩ => by
    cases x with
    | none => cases hk
    | some m =>
      cases hk
      rcases hfailed with hharmed | hlive
      · exact absurd (hharmed.symm.trans (hx m rfl)) (by decide)
      · exact hlive
  | (.error .died, _, _), ⟨⟨_, _, hk⟩, _⟩ => by
    cases x with
    | none => cases hk
    | some m => cases hk

/-- **Every step keeps the invariant.** -/
theorem Live.faultStep {w : World} (h : Live env w.hist w.synced False w.state) (hcodec : env.RoundTrips)
    (hmax : 0 < env.segmentMaxBytes) {act : World.FaultAct} (hok : w.Harmless env act) :
    ∃ w', w.faultStep env act = some w' ∧ Live env w'.hist w'.synced False w'.state := by
  cases act with
  | call c x => exact ⟨_, rfl, Live.returned_failing hok.2 (h.wp_call hcodec hok.1 _)⟩
  | reopen seed =>
    obtain ⟨w', hw', -, -, hlive⟩ := h.reopened hok hmax seed
    exact ⟨w', hw', hlive.mono (Nat.le_refl _) False.elim⟩

theorem Live.faultRuns (hcodec : env.RoundTrips) (hmax : 0 < env.segmentMaxBytes) : ∀ {acts : List World.FaultAct} {w : World},
    Live env w.hist w.synced False w.state → allOk (World.faultStep env) (World.Harmless env) w acts →
    ∃ w', Heraclitus.runs (World.faultStep env) w acts = some w' ∧ Live env w'.hist w'.synced False w'.state
  | [], w, h, _ => ⟨w, rfl, h⟩
  | act :: acts, w, h, ⟨hok, hrest⟩ => by
    obtain ⟨w₁, hstep, h₁⟩ := h.faultStep hcodec hmax hok
    obtain ⟨w', hruns, h'⟩ := h₁.faultRuns hcodec hmax (hrest w₁ hstep)
    exact ⟨w', by rw [Heraclitus.runs, hstep]; exact hruns, h'⟩

/-- **Failing steps that do no harm leave no trace**: in every state of every run whose steps meet the condition, the log is
as if the calls that failed had not been made. -/
theorem faithful_after_faults (hcodec : env.RoundTrips) (hmax : 0 < env.segmentMaxBytes) (seed : Bytes) :
    ∃ w₀, World.fresh env seed = some w₀ ∧ ∀ acts, allOk (World.faultStep env) (World.Harmless env) w₀ acts →
      ∃ w, runs (World.faultStep env) w₀ acts = some w ∧ w.Faithful env := by
  obtain ⟨w₀, hw₀, hlive⟩ := live_fresh hmax seed
  refine ⟨w₀, hw₀, fun acts hok => ?_⟩
  obtain ⟨w, hruns, hlive'⟩ := (hlive.mono (Nat.le_refl _) False.elim).faultRuns hcodec hmax hok
  exact ⟨w, hruns, hlive'.faithful hcodec hmax⟩

instance (env : Env) (w : World) : (act : World.FaultAct) → Decidable (w.Harmless env act)
  | .call _ _ => inferInstanceAs (Decidable (Call.Room _ _ _ ∧ ∀ _ ∈ _, _ = false))
  | .reopen _ => inferInstanceAs (Decidable (_ = false))

/-- One record, a flush that fails, and the log is opened again. -/
def sampleFaultActs : List World.FaultAct :=
  [.call (.append sampleEpisode 0) none, .call .flush (some ⟨.flush, 0, 0, false⟩), .reopen sampleSeed]

theorem faithful_after_faults_sample : ∃ w₀, World.fresh sampleEnv sampleSeed = some w₀ ∧
    ∃ w, runs (World.faultStep sampleEnv) w₀ sampleFaultActs = some w ∧ w.Faithful sampleEnv := by
  obtain ⟨w₀, hw₀, hall⟩ := faithful_after_faults sampleEnv_roundTrips (by decide) sampleSeed
  have happend : ∀ w ∈ World.fresh sampleEnv sampleSeed,
      w.Harmless sampleEnv (.call (.append sampleEpisode 0) none) := by
    decide +kernel
  have hflush : ∀ w ∈ World.fresh sampleEnv sampleSeed,
      ∀ w₁ ∈ w.faultStep sampleEnv (.call (.append sampleEpisode 0) none),
      w₁.Harmless sampleEnv (.call .flush (some ⟨.flush, 0, 0, false⟩)) := by
    decide +kernel
  have hreopen : ∀ w ∈ World.fresh sampleEnv sampleSeed,
      ∀ w₁ ∈ w.faultStep sampleEnv (.call (.append sampleEpisode 0) none),
      ∀ w₂ ∈ w₁.faultStep sampleEnv (.call .flush (some ⟨.flush, 0, 0, false⟩)),
      w₂.Harmless sampleEnv (.reopen sampleSeed) := by
    decide +kernel
  exact ⟨w₀, hw₀, hall sampleFaultActs ⟨happend w₀ hw₀, fun w₁ h₁ => ⟨hflush w₀ hw₀ w₁ h₁,
    fun w₂ h₂ => ⟨hreopen w₀ hw₀ w₁ h₁ w₂ h₂, fun _ _ => trivial⟩⟩⟩⟩

set_option maxRecDepth 4000 in
/-- **A step that fails in a sealing, or behind a record, leaves a trace**: when the footer is not written, the records of
the active segment are not read any more; when a record is not synced, the append fails and the record is found by the next
opening. -/
theorem failing_step_leaves_trace : sampleEnv.RoundTrips ∧
    (World.fresh sampleEnv sampleSeed).map (fun w =>
      (runs (World.faultStep sampleEnv) w [.call (.append sampleEpisode 0) none,
        .call .sealActive (some ⟨.footer, 0, 0, false⟩)]).map (fun w =>
          (w.hist.length, (read sampleEnv 0 w.state none).1.isOk))) = some (some (1, false)) ∧
    (World.fresh sampleEnv sampleSeed).map (fun w =>
      (runs (World.faultStep sampleEnv) w [.call (.append sampleEpisode 0) (some ⟨.recordSync, 0, 0, false⟩)]).map (fun w =>
        (w.hist.length, (openLog sampleEnv sampleSeed w.state none).2.1.nextLsn))) = some (some (0, 1)) :=
  ⟨sampleEnv_roundTrips, by decide +kernel, by decide +kernel⟩

end V6
end Heraclitus
