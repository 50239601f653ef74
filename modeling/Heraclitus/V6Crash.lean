import Heraclitus.V6Recovery
import Heraclitus.LegacyLogRun
/-!
# V6Crash — runs of a v6 log that crashes

A process may die at any step of any call, and lose what was not synced of the active file.  Opening then finds every record
that was synced, and the log goes on.  It does not where the active file has no whole header, or where payload bytes stand
as the magic of a footer at the place of one.
-/
namespace Heraclitus
namespace V6

variable {env : Env} {ns : Bytes} {segs : List Segment} {k : Nat} {rest : Option Rest} {d : Disk} {s : State}
  {hist : List RawRecord} {es : List Episode} {synced : Nat} {sync fits : Prop}

/-! ## What a crash leaves -/

theorem encodeManifest_eq_ok (m : DatabaseManifest) : encodeManifest m = .ok () ↔
    m.segmentsV2.length ≤ hardMaxSegments ∧ (m.segmentsV2.map segmentLen).sum ≤ hardMaxBodyBytes := by
  unfold encodeManifest
  simp only [guard_eq_ok, Nat.not_lt, and_true]

/-- Fewer segments fit as well. -/
theorem encodeManifest_append {descs descs' : List SegmentDescriptorV2}
    (h : encodeManifest { segmentsV2 := descs ++ descs' } = .ok ()) : encodeManifest { segmentsV2 := descs } = .ok () := by
  rw [encodeManifest_eq_ok] at h ⊢
  simp only [List.length_append, List.map_append, List.sum_append] at h
  exact ⟨Nat.le_trans (Nat.le_add_right _ _) h.1, Nat.le_trans (Nat.le_add_right _ _) h.2⟩

/-- **A crash leaves a directory of the same history.** -/
theorem Leaves.crash (h : Leaves env ns hist synced fits d segs k rest) (keep : Nat) :
    ∃ rest', Leaves env ns hist synced fits (d.crash keep) segs k rest' := by
  obtain ⟨rest', hwreck, hrest⟩ := h.wreck.crash keep
  refine ⟨rest', hwreck, ?_, ?_, fun hf hne => ?_⟩
  · rcases hrest with ⟨rfl, rfl⟩ | ⟨r, size, rfl, rfl, -⟩
    · exact h.hist
    · exact h.hist
  · rcases hrest with ⟨rfl, rfl⟩ | ⟨r, size, rfl, rfl, -⟩
    · exact h.safe
    · exact h.safe
  · have hfitting := h.fitting hf
    rcases hrest with ⟨rfl, rfl⟩ | ⟨r, size, rfl, rfl, -, hsize⟩
    · exact hfitting hne
    · have hle : r.size ≤ (r.segment.bytes env).length := Rest.On.size_le h.wreck.active
      unfold Fitting uncatalogued at hfitting
      unfold uncatalogued at hne ⊢
      cases hcomplete : Rest.complete env ⟨r.segment, r.low, size⟩ with
      | true =>
        have hfull : size = (r.segment.bytes env).length := beq_iff_eq.1 hcomplete
        have hcomplete' : r.complete env = true := beq_iff_eq.2 (Nat.le_antisymm hle (hfull ▸ hsize))
        rw [Option.filter_some, hcomplete'] at hfitting
        rw [Option.filter_some, hcomplete] at hne ⊢
        exact hfitting hne
      | false =>
        rw [Option.filter_some, hcomplete] at hne ⊢
        have hne' : segs.drop k ≠ [] := fun hnil => hne (by rw [hnil]; rfl)
        have hold := hfitting (fun hnil => hne' (List.append_eq_nil_iff.1 hnil).1)
        rw [List.map_append, ← List.append_assoc] at hold
        have hnew := encodeManifest_append hold
        show encodeManifest { segmentsV2 := d.descriptors ++ (segs.drop k ++ []).map (rawDescriptor env) } = _
        rw [List.append_nil]
        exact hnew

theorem Left.crash (h : Left env es synced fits d) (keep : Nat) : Left env es synced fits (d.crash keep) := by
  obtain ⟨ns, hist, ⟨segs, k, rest, hleaves⟩, hholds⟩ := h
  obtain ⟨rest', hleaves'⟩ := hleaves.crash keep
  exact ⟨ns, hist, ⟨segs, k, rest', hleaves'⟩, hholds⟩

/-- **Opening finds a part of the episodes**, and every one that was synced. -/
theorem Left.wp_openLog (h : Left env es synced fits s.disk) (hfits : fits) (hread : s.disk.readable = true)
    (hmax : 0 < env.segmentMaxBytes) (seed : Bytes) : (openLog env seed).wp
      ⟨fun _ s' => ∃ es', es' <+: es ∧ Live env es' synced True s', fun _ _ => False, fun _ _ _ => True, fun _ => True⟩ s := by
  obtain ⟨ns, hist, ⟨segs, k, rest, hleaves⟩, hholds⟩ := h
  refine (hleaves.wp_openLog hfits hread hmax seed).mono ?_ (fun _ _ hf => hf) (fun _ _ _ _ => trivial) (fun _ _ => trivial)
  rintro - s' ⟨ns', halive⟩
  have hprefix := recovered_prefix env segs rest
  rw [hleaves.hist] at hprefix
  obtain ⟨others, rfl⟩ := hprefix
  have hlength := hholds.length_eq
  rw [List.length_append] at hlength
  refine ⟨es.take (recovered env segs rest).length, List.take_prefix _ _, ns', _, halive, ?_⟩
  have htake := List.forall₂_take (recovered env segs rest).length hholds
  rwa [List.take_left] at htake

/-- Nothing was written yet. -/
def State.empty : State := {
  disk := { active := .empty, raw := .empty, packed := [], manifests := .empty, current := none }
  clock := .new, ticks := 0, manifest := {}, active := none, nextLsn := 0 }

/-- An empty directory holds the empty history. -/
theorem left_empty (env : Env) (fits : Prop) : Left env [] 0 fits State.empty.disk :=
  ⟨[], [], ⟨[], 0, none, ⟨trivial, fun _ => rfl, nofun, .inl ⟨rfl, rfl⟩, rfl⟩, rfl, Nat.le_refl _,
    fun _ hne => absurd rfl hne⟩, .nil⟩

/-! ## The log and what was appended to it -/

/-- A log that is open, the episodes under their LSNs, and how many of them were synced. -/
structure World where
  state : State
  hist : List Episode
  synced : Nat

/-- The LSN behind the sealed segments; a segment is synced before it gets its name. -/
def sealedLsn (m : DatabaseManifest) : Nat := m.segmentsV2.getLast?.elim 0 (fun desc => desc.lastLsn + 1)

namespace World

variable (env)

/-- Opening a directory: the head says how much of the history is there. -/
def opened (seed : Bytes) (s : State) (hist : List Episode) (synced : Nat) : Option World :=
  match openLog env seed s none with
  | (.ok _, s, _) => some { state := s, hist := hist.take s.nextLsn, synced := synced }
  | (.error _, _, _) => none

/-- A new log in an empty directory. -/
def fresh (seed : Bytes) : Option World := opened env seed .empty [] 0

inductive Act where
  | call (c : Call)
  /-- The process dies at a step of the call, or behind it, and the log is opened again. -/
  | crash (c : Call) (x : Mishap Site) (keep : Nat) (seed : Bytes)

variable (w : World)

/-- A call that dies at `x`. -/
def dying (c : Call) (x : Mishap Site) : Except (Stop HeraclitusError) Answer × State × Option (Mishap Site) :=
  c.run env w.state (some { x with fatal := true })

def syncedBy (c : Call) (s : State) : Nat := max (c.syncs env w.hist.length w.synced) (sealedLsn s.manifest)

/-- The world when a call is over. -/
def returned (c : Call) : Except (Stop HeraclitusError) Answer × State × Option (Mishap Site) → World
  | (.ok _, s, _) => { state := s, hist := w.hist ++ c.appends env w.state, synced := w.syncedBy env c s }
  | (.error _, s, _) => { w with state := s }

/-- The world when a process that died is started again: what the call was appending may be there. -/
def restarted (c : Call) (keep : Nat) (seed : Bytes) :
    Except (Stop HeraclitusError) Answer × State × Option (Mishap Site) → Option World
  | (.ok _, s, _) =>
    opened env seed (s.mapDisk (·.crash keep)) (w.hist ++ c.appends env w.state) (w.syncedBy env c s)
  | (.error _, s, _) => opened env seed (s.mapDisk (·.crash keep)) (w.hist ++ c.appends env w.state) w.synced

def step : Act → Option World
  | .call c => some (w.returned env c (c.run env w.state none))
  | .crash c x keep seed => w.restarted env c keep seed (w.dying env c x)

/-- There is room for the call; and where the process dies, it leaves an active file that opening can make sense of. -/
def Meets : Act → Prop
  | .call c => c.Room env w.state
  | .crash c x keep _ => c.Room env w.state ∧ ((w.dying env c x).2.1.disk.crash keep).readable = true

/-- **The log is as it should be**: it has every synced record, reads as what was appended, and goes on. -/
structure Recovered : Prop where
  head : w.state.nextLsn = w.hist.length
  synced : w.synced ≤ w.hist.length
  reads : ∀ n, ∃ s, read env n w.state none = (.ok (w.hist[n]?.map (fun e => (n, e))), s, none)
  goesOn : ∀ episode elapsedMs, (Call.append episode elapsedMs).Room env w.state →
    (∃ s, (Call.append episode elapsedMs).run env w.state none = (.ok (.appended w.hist.length), s, none)) ∨
      ∃ e s m, (Call.append episode elapsedMs).run env w.state none = (.error (.refused e), s, m) ∧
        (Call.append episode elapsedMs).Refuses env w.hist w.state e

end World

/-! ## The invariant -/

/-- The sealed records are safe. -/
theorem Live.sealed (h : Live env es synced sync s) : Live env es (max synced (sealedLsn s.manifest)) sync s := by
  obtain ⟨ns, hist, ⟨segs, g, low, hsteady, rfl, hsafe, hsync⟩, hholds⟩ := h
  have hsealed : sealedLsn s.manifest = (recordsOf segs).length := by
    by_cases hnil : segs = []
    · subst hnil
      have hdescs : s.manifest.segmentsV2 = [] := List.forall₂_nil_left_iff.1 hsteady.catalogue.described
      rw [sealedLsn, hdescs]
      rfl
    · obtain ⟨desc, hlast, heq⟩ := getLast?_described hsteady.wreck.chain hsteady.catalogue.described hnil
      rw [sealedLsn, hlast]
      exact heq.trans (Nat.zero_add _)
  refine ⟨ns, _, ⟨segs, g, low, hsteady, rfl, ?_, hsync⟩, hholds⟩
  rw [hsealed]
  rcases Nat.le_total synced (recordsOf segs).length with hle | hle
  · rw [Nat.max_eq_right hle]
    exact .inl (Nat.le_refl _)
  · rw [Nat.max_eq_left hle]
    exact hsafe

theorem Live.synced_le (h : Live env es synced sync s) : synced ≤ es.length := by
  obtain ⟨ns, hist, halive, hholds⟩ := h
  exact hholds.length_eq ▸ halive.synced_le

theorem opened_eq_some {seed : Bytes} {w : World} (h : World.opened env seed s es synced = some w) :
    w.synced = synced ∧ w.hist <+: es := by
  unfold World.opened at h
  split at h
  · cases h
    exact ⟨rfl, List.take_prefix _ _⟩
  · cases h

/-- **A directory that a process has left is opened**, and the log holds a part of the episodes. -/
theorem Left.opened {es' : List Episode} (h : Left env es synced fits s.disk) (hfits : fits) (hread : s.disk.readable = true)
    (hmax : 0 < env.segmentMaxBytes) (seed : Bytes) (hes : es <+: es') :
    ∃ w, World.opened env seed s es' synced = some w ∧ Live env w.hist w.synced True w.state := by
  rcases (h.wp_openLog hfits hread hmax seed).run with ⟨a, s', hopen, found, hfound, hlive⟩ | ⟨e, s', m, hopen, hf⟩
  · refine ⟨⟨s', es'.take s'.nextLsn, synced⟩, by rw [World.opened, hopen], ?_⟩
    have htake : es'.take s'.nextLsn = found := by
      rw [hlive.head, (List.prefix_iff_eq_take.1 (hfound.trans hes)).symm]
    rw [htake]
    exact hlive
  · exact hf.elim

theorem Live.recovered {w : World} (h : Live env w.hist w.synced True w.state) (hcodec : env.RoundTrips) :
    w.Recovered env := by
  refine ⟨h.head, h.synced_le, fun n => ?_, fun episode elapsedMs hroom => ?_⟩
  · rcases (h.wp_read n).run with ⟨found, s', hread, rfl, -⟩ | ⟨e, s', m, -, hf⟩
    · exact ⟨s', hread⟩
    · exact hf.elim
  · rcases (h.wp_call hcodec hroom).run with ⟨answer, s', hrun, hanswers, -⟩ | ⟨e, s', m, hrun, hrefuses, -⟩
    · cases hanswers
      exact .inl ⟨s', hrun⟩
    · exact .inr ⟨e, s', m, hrun, hrefuses⟩

theorem Live.returned {w : World} {c : Call} :
    ∀ {r : Except (Stop HeraclitusError) Answer × State × Option (Mishap Site)},
      (callPost env w.hist w.synced True w.state c).Holds none r →
      Live env (w.returned env c r).hist (w.returned env c r).synced True (w.returned env c r).state
  | (.ok _, _, _), ⟨⟨_, hlive⟩, _⟩ => hlive.sealed
  | (.error (.refused _), _, _), ⟨_, hlive⟩ => hlive
  | (.error .failed, _, _), ⟨_, _, hk, _⟩ => by cases hk
  | (.error .died, _, _), ⟨⟨_, _, hk⟩, _⟩ => by cases hk

theorem Live.restarted {w : World} {c : Call} {x : Mishap Site} (hx : x.fatal = true) (hmax : 0 < env.segmentMaxBytes)
    (keep : Nat) (seed : Bytes) : ∀ {r : Except (Stop HeraclitusError) Answer × State × Option (Mishap Site)},
      (callPost env w.hist w.synced True w.state c).Holds (some x) r → (r.2.1.disk.crash keep).readable = true →
      ∃ w', w.restarted env c keep seed r = some w' ∧ Live env w'.hist w'.synced True w'.state
  | (.ok _, s, _), ⟨⟨_, hlive⟩, _⟩, hread =>
    Left.opened (s := s.mapDisk (·.crash keep)) ((hlive.sealed.left True).crash keep) trivial hread hmax seed List.prefix_rfl
  | (.error (.refused _), s, _), ⟨_, hlive⟩, hread =>
    Left.opened (s := s.mapDisk (·.crash keep)) ((hlive.left True).crash keep) trivial hread hmax seed (List.prefix_append _ _)
  | (.error .failed, _, _), ⟨_, _, hk, _⟩, _ => by
    rw [Option.map_some, Mishap.kind, hx] at hk
    cases hk
  | (.error .died, s, _), ⟨_, hleft⟩, hread => by
    rcases hleft with hleft | hleft
    · exact Left.opened (s := s.mapDisk (·.crash keep)) (hleft.crash keep) trivial hread hmax seed (List.prefix_append _ _)
    · exact Left.opened (s := s.mapDisk (·.crash keep)) (hleft.crash keep) trivial hread hmax seed List.prefix_rfl

/-- **Every step keeps the invariant.** -/
theorem Live.step {w : World} (h : Live env w.hist w.synced True w.state) (hcodec : env.RoundTrips)
    (hmax : 0 < env.segmentMaxBytes) {act : World.Act} (hok : w.Meets env act) :
    ∃ w', w.step env act = some w' ∧ Live env w'.hist w'.synced True w'.state := by
  cases act with
  | call c => exact ⟨_, rfl, Live.returned (h.wp_call hcodec hok none)⟩
  | crash c x keep seed => exact Live.restarted (x := { x with fatal := true }) rfl hmax keep seed (h.wp_call hcodec hok.1 _) hok.2

theorem Live.runs (hcodec : env.RoundTrips) (hmax : 0 < env.segmentMaxBytes) : ∀ {acts : List World.Act} {w : World},
    Live env w.hist w.synced True w.state → allOk (World.step env) (World.Meets env) w acts →
    ∃ w', runs (World.step env) w acts = some w' ∧ Live env w'.hist w'.synced True w'.state
  | [], w, h, _ => ⟨w, rfl, h⟩
  | act :: acts, w, h, ⟨hok, hrest⟩ => by
    obtain ⟨w₁, hstep, h₁⟩ := h.step hcodec hmax hok
    obtain ⟨w', hruns, h'⟩ := h₁.runs hcodec hmax (hrest w₁ hstep)
    exact ⟨w', by rw [Heraclitus.runs, hstep]; exact hruns, h'⟩

theorem live_fresh (hmax : 0 < env.segmentMaxBytes) (seed : Bytes) :
    ∃ w, World.fresh env seed = some w ∧ Live env w.hist w.synced True w.state :=
  Left.opened (left_empty env True) trivial rfl hmax seed List.prefix_rfl

/-- **A v6 log recovers from every crash**, where opening can make sense of the active file that it finds: each synced
record is there, each LSN reads the episode that was appended under it, and appends go on. -/
theorem recovers_from_crashes (hcodec : env.RoundTrips) (hmax : 0 < env.segmentMaxBytes) (seed : Bytes) :
    ∃ w₀, World.fresh env seed = some w₀ ∧ ∀ acts, allOk (World.step env) (World.Meets env) w₀ acts →
      ∃ w, runs (World.step env) w₀ acts = some w ∧ w.Recovered env := by
  obtain ⟨w₀, hw₀, hlive⟩ := live_fresh hmax seed
  refine ⟨w₀, hw₀, fun acts hok => ?_⟩
  obtain ⟨w, hruns, hlive'⟩ := hlive.runs hcodec hmax hok
  exact ⟨w, hruns, hlive'.recovered hcodec⟩

/-! ## A concrete environment -/

instance (s : State) (id : Nat) : Decidable (Packable s id) :=
  decidable_of_iff ((∀ e ∈ s.disk.packed, e.1.1 = id → e.1.2 < 9999) ∧
    ∀ desc ∈ s.manifest.segment id, ∀ x ∈ desc.generations, x.generation < 9999)
    ⟨fun h => ⟨h.1, h.2⟩, fun h => ⟨h.files, h.generations⟩⟩

instance (env : Env) (s : State) : (c : Call) → Decidable (c.Room env s)
  | .append _ _ => inferInstanceAs (Decidable ((_ = true → _ = true) ∧ _))
  | .appendReplicated _ _ _ => inferInstanceAs (Decidable ((_ = true → _ = true) ∧ _ ∧ _))
  | .flush => inferInstanceAs (Decidable True)
  | .sealActive => inferInstanceAs (Decidable (_ = true))
  | .packPending _ => inferInstanceAs (Decidable (∀ _ ∈ _, _))

instance (env : Env) (w : World) : (act : World.Act) → Decidable (w.Meets env act)
  | .call _ => inferInstanceAs (Decidable (Call.Room _ _ _))
  | .crash _ _ _ _ => inferInstanceAs (Decidable (_ ∧ _ = true))

/-- The digests of the namespace of the path `/`, and of the leaf and the root of the record `sampleEpisode` under LSN 0. -/
def sampleBlake3 (input : Bytes) : Digest :=
  if input.length = 30 then
    ⟨[146, 170, 252, 68, 40, 117, 126, 185, 5, 230, 240, 236, 218, 230, 47, 182, 191, 170, 245, 185, 56, 102, 49, 130, 187,
      20, 195, 3, 173, 93, 76, 244], rfl⟩
  else if input.length = 49 then
    ⟨[9, 185, 72, 83, 71, 244, 108, 151, 139, 231, 69, 28, 232, 98, 102, 166, 224, 52, 8, 179, 179, 246, 225, 77, 93, 1, 30,
      134, 202, 148, 113, 235], rfl⟩
  else
    ⟨[180, 121, 27, 221, 199, 39, 215, 176, 85, 55, 4, 87, 56, 31, 161, 117, 181, 50, 64, 227, 62, 55, 203, 22, 204, 217, 54,
      37, 120, 205, 92, 209], rfl⟩

def sampleEnv : Env where
  blake3 := sampleBlake3
  encodePayload := Legacy.plainEncode
  decodePayload payload := (Legacy.plainDecode 0 payload).map (fun e => (payload.take 16, e))
  hashEpisodeRecord _ _ _ _ :=
    ⟨[238, 170, 149, 176, 246, 35, 74, 128, 9, 50, 90, 34, 233, 206, 208, 139, 63, 72, 160, 33, 48, 17, 18, 185, 235, 136, 32,
      234, 68, 246, 142, 55], rfl⟩
  packBlocks _ _ := .ok 1
  packedDigest _ := Digest.replicate 0
  packedSize _ := 0
  wall _ := 0
  segmentMaxBytes := 4096
  fsync := .always

theorem sampleEnv_roundTrips : sampleEnv.RoundTrips := by
  intro opaqueMeta e payload h
  obtain ⟨hdecode, hmeta⟩ := Legacy.sampleEnv_roundTrips opaqueMeta e payload h
  have hdecode : Legacy.plainDecode 0 payload = .ok e := hdecode
  have hmeta : payload.take 16 = opaqueMeta := Except.ok.inj hmeta
  show (Legacy.plainDecode 0 payload).map _ = _
  rw [hdecode, hmeta]
  rfl

def sampleEpisode : Episode := Legacy.plainEpisode 0 [120]

def sampleSeed : Bytes := [47]

/-- One record; the process dies when 70 bytes of the footer are written. -/
def sampleActs : List World.Act :=
  [.call (.append sampleEpisode 0), .crash .sealActive ⟨.footer, 0, 70, true⟩ 0 sampleSeed]

theorem recovers_from_crashes_sample : ∃ w₀, World.fresh sampleEnv sampleSeed = some w₀ ∧
    ∃ w, runs (World.step sampleEnv) w₀ sampleActs = some w ∧ w.Recovered sampleEnv := by
  obtain ⟨w₀, hw₀, hall⟩ := recovers_from_crashes sampleEnv_roundTrips (by decide) sampleSeed
  have happend : ∀ w ∈ World.fresh sampleEnv sampleSeed, w.Meets sampleEnv (.call (.append sampleEpisode 0)) := by
    decide +kernel
  have hseal : ∀ w ∈ World.fresh sampleEnv sampleSeed, ∀ w' ∈ w.step sampleEnv (.call (.append sampleEpisode 0)),
      w'.Meets sampleEnv (.crash .sealActive ⟨.footer, 0, 70, true⟩ 0 sampleSeed) := by
    decide +kernel
  exact ⟨w₀, hw₀, hall sampleActs ⟨happend w₀ hw₀, fun w hw => ⟨hseal w₀ hw₀ w hw, fun _ _ => trivial⟩⟩⟩

/-- **An active file without a header is not opened**: the process dies when the file has its name and nothing in it. -/
theorem dies_before_header : sampleEnv.RoundTrips ∧ (World.fresh sampleEnv sampleSeed).map (fun w =>
    (w.step sampleEnv (.crash .sealActive ⟨.create, 1, 0, true⟩ 0 sampleSeed)).isNone) = some true :=
  ⟨sampleEnv_roundTrips, by decide +kernel⟩

end V6
end Heraclitus
