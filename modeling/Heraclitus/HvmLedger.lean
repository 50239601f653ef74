import Heraclitus.TableCodec
import Heraclitus.LegacyWindows
import Heraclitus.Vm
import Mathlib.Data.List.Induction
import Mathlib.Data.List.Sort
/-!
# HvmLedger — the order of the H-VM ledger (`heraclitus-server/src/engine.rs`, `heraclitus-log/src/vm_bridge.rs`)

A call locks the ledger, stamps its instruction with the head of the log, queues the frame for the log's worker and waits.
Ordinary appends queue beside it, without the lock.  A replay folds the frames in the order of the log.
-/
namespace Heraclitus
namespace Hvm

open Legacy
open Vm (VmInstruction VmState reduceStep)

/-! ## Replay -/

/-- What `replay_vm` does with one record. -/
def replayVisit (s : VmState) (r : Nat × Episode) : Except HeraclitusError VmState :=
  if isHvm r.2 then
    match Vm.decode r.2.content with
    | .error e => .error (.serialization e.text)
    | .ok (_, instr) => .ok (reduceStep s instr)
  else .ok s

/-- `replay_vm`: `while cur <= head`, in windows of 100000. -/
def replayVm (env : Env) (log : Log) : Except HeraclitusError VmState :=
  log.walk env replayVisit (log.committedLsn + 1) 100000 (log.committedLsn + 1) 0 {}

/-! ## Calls -/

inductive HvmCall where
  | upsert (key val : Bytes)
  | delete (key : Bytes)

/-- The instruction of a call, under its stamp and its event id. -/
def HvmCall.instr (lsn evId : Nat) : HvmCall → VmInstruction
  | .upsert key val => .upsert key val lsn evId
  | .delete key => .delete key lsn evId

/-- The arguments fit a frame. -/
def HvmCall.Fits : HvmCall → Prop
  | .upsert key val => key.length + val.length + 32 < 2 ^ 32
  | .delete key => key.length + 28 < 2 ^ 32

/-- Who has `hvm_lock`, and how far the call is. -/
inductive Holder where
  | free
  | locked (call : HvmCall)
  | stamped (instr : VmInstruction)
  | waiting (instr : VmInstruction)
  | answered

/-- The log, its queue, the ledger's lock, the calls that were answered with an LSN, and every event in the log. -/
structure Ledger where
  log : Log
  queue : List LogCommand
  holder : Holder
  acked : List (Nat × VmInstruction)
  history : List Episode

/-- The frame of an instruction; the version is 1. -/
def frameOf (id tsHlc : Nat) (instr : VmInstruction) : Episode :=
  (Episode.new id "hvm".toList (.custom hvmKind) (Vm.encode 1 instr)).stamp tsHlc

/-- Does a command append a frame? -/
def carriesFrame (cmd : LogCommand) : Bool := cmd.event.any isHvm

inductive HvmAction where
  /-- A call gets the lock. -/
  | lock (call : HvmCall)
  /-- It reads the head; its event gets an id. -/
  | head (evId : Nat)
  /-- It puts the frame into the queue, stamped by the log's clock. -/
  | enqueue (id tsHlc : Nat)
  /-- The queue is full for too long. -/
  | timeout
  /-- It has its answer and gives the lock back. -/
  | release
  /-- An ordinary append, which may not carry a frame. -/
  | append (cmd : LogCommand)
  /-- The worker takes the first `n` commands. -/
  | worker (n : Nat)

variable (env : Env)

/-- A batch of the worker, and the answer to the call that waits if its frame was in it. -/
def Ledger.worker (segmentMaxBytes : Nat) (s : Ledger) (n : Nat) : Ledger :=
  let cmds := s.queue.take n
  let done := s.log.batch env segmentMaxBytes cmds
  let next := { s with
    log := done.1
    queue := s.queue.drop n
    history := s.history ++ (acks done.2).map Prod.snd }
  match s.holder with
  | .waiting instr =>
    if cmds.any carriesFrame then
      match (acks done.2).find? (fun r => isHvm r.2) with
      | some r => { next with holder := .answered, acked := s.acked ++ [(r.1, instr)] }
      | none => { next with holder := .answered }
    else next
  | _ => next

def Ledger.step (segmentMaxBytes : Nat) (s : Ledger) : HvmAction → Option Ledger
  | .lock call =>
    match s.holder with
    | .free => some { s with holder := .locked call }
    | _ => none
  | .head evId =>
    match s.holder with
    | .locked call => some { s with holder := .stamped (call.instr s.log.committedLsn evId) }
    | _ => none
  | .enqueue id tsHlc =>
    match s.holder with
    | .stamped instr => some { s with
        queue := s.queue ++ [.append (Vm.beBytes 16 id) (frameOf id tsHlc instr) none]
        holder := .waiting instr }
    | _ => none
  | .timeout =>
    match s.holder with
    | .stamped _ => some { s with holder := .free }
    | _ => none
  | .release =>
    match s.holder with
    | .answered => some { s with holder := .free }
    | _ => none
  | .append cmd => some (if carriesFrame cmd then s else { s with queue := s.queue ++ [cmd] })
  | .worker n => if 1 ≤ n ∧ n ≤ 128 ∧ n ≤ s.queue.length then some (s.worker env segmentMaxBytes n) else none

def Ledger.start : Ledger := { log := Log.create env, queue := [], holder := .free, acked := [], history := [] }

/-- Arguments and ids fit their fields; what the worker writes is within the readers' bound, and the log has room. -/
def HvmActionOk (s : Ledger) : HvmAction → Prop
  | .lock call => call.Fits
  | .head evId => evId < 2 ^ 128
  | .worker n => s.log.BatchOk env (s.queue.take n)
  | _ => True

/-! ## What the orders promise -/

/-- The instruction in an event. -/
def instructionIn (e : Episode) : Option VmInstruction :=
  if isHvm e then (Vm.decode e.content).toOption.map Prod.snd else none

/-- The instructions in `history`, under their LSNs, from LSN `n` on. -/
def framesFrom (n : Nat) (history : List Episode) : List (Nat × VmInstruction) :=
  (number n history).filterMap (fun r => (instructionIn r.2).map (fun instr => (r.1, instr)))

/-- The key an instruction sets, to a value or to nothing. -/
def sets : VmInstruction → Option (Bytes × Option Bytes)
  | .upsert key val _ _ => some (key, some val)
  | .delete key _ _ => some (key, none)
  | .splitShard _ _ _ _ => none

/-- Every key is as the call with the highest LSN left it. -/
def LastWins (acked : List (Nat × VmInstruction)) (m : SortedMap Bytes Bytes) : Prop :=
  (∀ a ∈ acked, ∀ key v, sets a.2 = some (key, v) → (∀ b ∈ acked, ∀ w, sets b.2 = some (key, w) → b.1 ≤ a.1) →
    m.get? key = v) ∧
  ∀ key, (∀ a ∈ acked, ∀ v, sets a.2 ≠ some (key, v)) → m.get? key = none

/-- **The orders agree**: in the log, stamps increase with the LSNs; a replay is the fold in the order of the stamps; the
last stamp is the highest; every key is as the last acknowledged call left it. -/
def OrdersAgree (s : Ledger) : Prop :=
  (framesFrom 0 s.history).Pairwise (fun a b => a.1 < b.1 ∧ a.2.lsn < b.2.lsn) ∧
  ∃ state, replayVm env s.log = .ok state ∧
    state = Vm.run {} (((framesFrom 0 s.history).map Prod.snd).insertionSort (fun a b => a.lsn ≤ b.lsn)) ∧
    state.maxLsnApplied = state.currentLsn ∧ LastWins s.acked state.memoryLayers

/-! ## The fold -/

theorem reduceStep_get? (s : VmState) (instr : VmInstruction) (key : Bytes) : (reduceStep s instr).memoryLayers.get? key
    = match sets instr with
      | some (k, v) => if key = k then v else s.memoryLayers.get? key
      | none => s.memoryLayers.get? key := by
  cases instr with
  | upsert k val lsn evId =>
    show (s.memoryLayers.insert k val).get? key = if key = k then some val else s.memoryLayers.get? key
    rw [SortedMap.get?_insert]
    by_cases hkey : key = k <;> simp [hkey]
  | delete k lsn evId =>
    show (s.memoryLayers.erase k).get? key = if key = k then none else s.memoryLayers.get? key
    rw [SortedMap.get?_erase]
    by_cases hkey : key = k <;> simp [hkey]
  | splitShard shardId splitKey newShardId lsn => rfl

theorem run_concat (s : VmState) (l : List VmInstruction) (instr : VmInstruction) :
    Vm.run s (l ++ [instr]) = reduceStep (Vm.run s l) instr := List.foldl_concat _ _ _ _

@[simp] theorem reduceStep_currentLsn (s : VmState) (instr : VmInstruction) :
    (reduceStep s instr).currentLsn = instr.lsn := by cases instr <;> rfl

@[simp] theorem reduceStep_maxLsnApplied (s : VmState) (instr : VmInstruction) :
    (reduceStep s instr).maxLsnApplied = max s.maxLsnApplied instr.lsn := by cases instr <;> rfl

/-- **The last stamp is the highest** when stamps increase. -/
theorem run_max {l : List VmInstruction} (h : l.Pairwise (fun a b => a.lsn < b.lsn)) :
    (Vm.run {} l).maxLsnApplied = (Vm.run {} l).currentLsn ∧
      ∀ b, (∀ a ∈ l, a.lsn < b) → (Vm.run {} l).maxLsnApplied ≤ b := by
  induction l using List.reverseRecOn with
  | nil => exact ⟨rfl, fun b _ => Nat.zero_le b⟩
  | append_singleton l instr ih =>
    obtain ⟨hl, -, hlast⟩ := List.pairwise_append.1 h
    have hle := (ih hl).2 instr.lsn (fun a ha => hlast a ha instr List.mem_cons_self)
    rw [run_concat, reduceStep_maxLsnApplied, reduceStep_currentLsn, Nat.max_eq_right hle]
    exact ⟨rfl, fun b hb => Nat.le_of_lt (hb instr (by simp))⟩

/-- **The last instruction on a key wins.** -/
theorem run_lastWins {l : List (Nat × VmInstruction)} (h : l.Pairwise (fun a b => a.1 < b.1)) :
    LastWins l (Vm.run {} (l.map Prod.snd)).memoryLayers := by
  induction l using List.reverseRecOn with
  | nil => exact ⟨fun a ha => (by cases ha), fun key _ => rfl⟩
  | append_singleton l x ih =>
    obtain ⟨hl, -, hlast⟩ := List.pairwise_append.1 h
    obtain ⟨hset, hnone⟩ := ih hl
    have hx : x ∈ l ++ [x] := by simp
    have hold : ∀ a ∈ l, a ∈ l ++ [x] := fun a ha => List.mem_append_left _ ha
    rw [List.map_append, List.map_cons, List.map_nil, run_concat]
    constructor
    · intro a ha key v hsets hmax
      rw [reduceStep_get?]
      rcases List.mem_append.1 ha with ha | ha
      · cases hxs : sets x.2 with
        | none => exact hset a ha key v hsets (fun b hb => hmax b (hold b hb))
        | some kw =>
          obtain ⟨k, w⟩ := kw
          dsimp only
          by_cases hkey : key = k
          · subst hkey
            have := hmax x hx w hxs
            have := hlast a ha x List.mem_cons_self
            omega
          · rw [if_neg hkey]
            exact hset a ha key v hsets (fun b hb => hmax b (hold b hb))
      · rw [List.mem_singleton.1 ha] at hsets
        rw [hsets]
        exact if_pos rfl
    · intro key hother
      rw [reduceStep_get?]
      have hrest := hnone key (fun a ha => hother a (hold a ha))
      cases hxs : sets x.2 with
      | none => exact hrest
      | some kw =>
        obtain ⟨k, w⟩ := kw
        dsimp only
        rw [if_neg (fun hkey : key = k => hother x hx w (hkey ▸ hxs))]
        exact hrest

/-- A replay of frames that decode is their fold. -/
theorem replayVisit_eq : ∀ (l : List Episode) (n : Nat) (s : VmState),
    (∀ e ∈ l, isHvm e = true → (instructionIn e).isSome = true) →
    (number n l).foldlM replayVisit s = .ok (Vm.run s ((framesFrom n l).map Prod.snd))
  | [], _, _, _ => rfl
  | e :: l, n, s, h => by
    have hrest : ∀ e' ∈ l, isHvm e' = true → (instructionIn e').isSome = true :=
      fun e' he' => h e' (List.mem_cons_of_mem e he')
    rw [number, List.foldlM_cons, framesFrom, number, List.filterMap_cons]
    by_cases hframe : isHvm e = true
    · obtain ⟨instr, hinstr⟩ := Option.isSome_iff_exists.1 (h e List.mem_cons_self hframe)
      have hdecode := hinstr
      rw [instructionIn, if_pos hframe] at hdecode
      cases hd : Vm.decode e.content with
      | error err =>
        rw [hd] at hdecode
        cases hdecode
      | ok p =>
        rw [hd] at hdecode
        cases hdecode
        have hvisit : replayVisit s (n, e) = .ok (reduceStep s p.2) := by
          rw [replayVisit, if_pos hframe]
          dsimp only
          rw [hd]
        rw [hvisit]
        dsimp only
        rw [hinstr]
        exact replayVisit_eq l (n + 1) _ hrest
    · have hvisit : replayVisit s (n, e) = .ok s := if_neg hframe
      have hnone : instructionIn e = none := if_neg hframe
      rw [hvisit]
      dsimp only
      rw [hnone]
      exact replayVisit_eq l (n + 1) s hrest

/-! ## Frames in a history, frames in a queue -/

theorem framesFrom_append (n : Nat) (l more : List Episode) :
    framesFrom n (l ++ more) = framesFrom n l ++ framesFrom (n + l.length) more := by
  rw [framesFrom, number_append, List.filterMap_append]
  rfl

/-- Only frames have an instruction. -/
theorem framesFrom_filter (n : Nat) (l : List Episode) : framesFrom n l
    = ((number n l).filter (fun r => isHvm r.2)).filterMap (fun r => (instructionIn r.2).map (fun instr => (r.1, instr))) := by
  rw [List.filterMap_filter, framesFrom]
  refine congrArg (List.filterMap · _) (funext (fun r => ?_))
  by_cases hframe : isHvm r.2 = true
  · rw [if_pos hframe]
  · rw [if_neg hframe, instructionIn, if_neg hframe]
    rfl

theorem map_snd_filter_number (n : Nat) (l : List Episode) :
    ((number n l).filter (fun r => isHvm r.2)).map Prod.snd = l.filter isHvm := by
  conv_rhs => rw [← map_snd_number l n, List.filter_map]
  rfl

theorem framesFrom_eq_nil {n : Nat} {l : List Episode} (h : l.filter isHvm = []) : framesFrom n l = [] := by
  have hnone := map_snd_filter_number n l
  rw [h, List.map_eq_nil_iff] at hnone
  rw [framesFrom_filter, hnone]
  rfl

theorem le_framesFrom {n : Nat} {l : List Episode} {f : Nat × VmInstruction} (h : f ∈ framesFrom n l) :
    n ≤ f.1 ∧ f.1 < n + l.length := by
  obtain ⟨⟨lsn, e⟩, hmem, hf⟩ := List.mem_filterMap.1 h
  obtain ⟨instr, -, rfl⟩ := Option.map_eq_some_iff.1 hf
  obtain ⟨hle, hget⟩ := mem_number.1 hmem
  have := (List.getElem?_eq_some_iff.1 hget).1
  dsimp only
  omega

theorem framesFrom_pairwise (n : Nat) (l : List Episode) : (framesFrom n l).Pairwise (fun a b => a.1 < b.1) := by
  refine List.Pairwise.filterMap _ (fun r r' hr f hf f' hf' => ?_) (number_pairwise l n)
  obtain ⟨instr, -, rfl⟩ := Option.map_eq_some_iff.1 hf
  obtain ⟨instr', -, rfl⟩ := Option.map_eq_some_iff.1 hf'
  exact hr

/-- The frames that commands append. -/
def framesIn (cmds : List LogCommand) : List Episode := (cmds.filterMap LogCommand.event).filter isHvm

theorem framesIn_append (cmds more : List LogCommand) : framesIn (cmds ++ more) = framesIn cmds ++ framesIn more := by
  rw [framesIn, List.filterMap_append, List.filter_append]
  rfl

theorem framesIn_eq_nil_iff {cmds : List LogCommand} : framesIn cmds = [] ↔ cmds.any carriesFrame = false := by
  rw [framesIn, List.filter_eq_nil_iff, List.any_eq_false]
  constructor
  · intro h cmd hcmd hcarries
    obtain ⟨e, he, hframe⟩ := (Option.any_eq_true _ _).1 hcarries
    exact h e (List.mem_filterMap.2 ⟨cmd, hcmd, he⟩) hframe
  · intro h e he hframe
    obtain ⟨cmd, hcmd, heq⟩ := List.mem_filterMap.1 he
    exact h cmd hcmd ((Option.any_eq_true _ _).2 ⟨e, heq, hframe⟩)

theorem isHvm_frameOf (id tsHlc : Nat) (instr : VmInstruction) : isHvm (frameOf id tsHlc instr) = true := by
  simp [frameOf, isHvm, Episode.new, Episode.stamp]

theorem instructionIn_frameOf (id tsHlc : Nat) {instr : VmInstruction} (h : instr.Fits) :
    instructionIn (frameOf id tsHlc instr) = some instr := by
  rw [instructionIn, if_pos (isHvm_frameOf id tsHlc instr)]
  show (Vm.decode (Vm.encode 1 instr)).toOption.map Prod.snd = some instr
  rw [Vm.decode_encode (by decide) h]
  rfl

/-! ## The invariant -/

variable {env}

/-- A stamp that was read: no frame is at or behind it, and it is not ahead of the head. -/
structure Fresh (history : List Episode) (instr : VmInstruction) : Prop where
  fits : instr.Fits
  low : ∀ f ∈ framesFrom 0 history, f.1 < instr.lsn
  high : instr.lsn ≤ history.length

/-- What the holder of the lock has done, and the frames in the queue. -/
inductive HolderOk (history : List Episode) (frames : List Episode) : Holder → Prop
  | free : frames = [] → HolderOk history frames .free
  | locked (call : HvmCall) : frames = [] → call.Fits → HolderOk history frames (.locked call)
  | stamped (instr : VmInstruction) : frames = [] → Fresh history instr → HolderOk history frames (.stamped instr)
  | waiting (instr : VmInstruction) (e : Episode) : frames = [e] → instructionIn e = some instr → Fresh history instr →
      HolderOk history frames (.waiting instr)
  | answered : frames = [] → HolderOk history frames .answered

variable (env) in
/-- What holds between the steps. -/
structure Inv (s : Ledger) (segs : List (List Rec)) (act : List Rec) : Prop where
  steady : Steady env s.log segs act
  solid : s.log.dir.get? segs.length ≠ some []
  history : s.history = (segs.flatten ++ act).map Rec.episode
  acked : s.acked = framesFrom 0 s.history
  decodes : ∀ e ∈ s.history, isHvm e = true → (instructionIn e).isSome = true
  behind : ∀ f ∈ framesFrom 0 s.history, f.2.lsn ≤ f.1
  stamps : (framesFrom 0 s.history).Pairwise (fun a b => a.2.lsn < b.2.lsn)
  holder : HolderOk s.history (framesIn s.queue) s.holder

theorem inv_start : Inv env (Ledger.start env) [] [] where
  steady := steady_create
  solid := solid_create
  history := rfl
  acked := rfl
  decodes := fun e he => by cases he
  behind := fun f hf => by cases hf
  stamps := .nil
  holder := .free rfl

variable {s s' : Ledger} {segs : List (List Rec)} {act : List Rec}

theorem Inv.committed (h : Inv env s segs act) : s.log.committedLsn = s.history.length := by
  rw [h.steady.committed, h.history, List.length_map]

/-- New events without frames. -/
theorem Fresh.append {history more : List Episode} {instr : VmInstruction} (h : Fresh history instr)
    (hmore : more.filter isHvm = []) : Fresh (history ++ more) instr := by
  refine ⟨h.fits, fun f hf => ?_, ?_⟩
  · rw [framesFrom_append, framesFrom_eq_nil hmore, List.append_nil] at hf
    exact h.low f hf
  · rw [List.length_append]
    exact Nat.le_trans h.high (Nat.le_add_right _ _)

/-- A batch in which no frame is acknowledged. -/
theorem Inv.plain (h : Inv env s segs act) {log : Log} {queue : List LogCommand} {holder : Holder} {more : List Episode}
    {segs' : List (List Rec)} {act' : List Rec} (hsteady : Steady env log segs' act')
    (hsolid : log.dir.get? segs'.length ≠ some []) (hrecords : (segs'.flatten ++ act').map Rec.episode = s.history ++ more)
    (hmore : more.filter isHvm = []) (hholder : HolderOk (s.history ++ more) (framesIn queue) holder) :
    Inv env { s with log := log, queue := queue, holder := holder, history := s.history ++ more } segs' act' := by
  have hframes : framesFrom 0 (s.history ++ more) = framesFrom 0 s.history := by
    rw [framesFrom_append, framesFrom_eq_nil hmore, List.append_nil]
  refine ⟨hsteady, hsolid, hrecords.symm, ?_, fun e he hframe => ?_, ?_, ?_, hholder⟩
  · exact h.acked.trans hframes.symm
  · rcases List.mem_append.1 he with he | he
    · exact h.decodes e he hframe
    · exact absurd hframe (List.filter_eq_nil_iff.1 hmore e he)
  · dsimp only
    rw [hframes]
    exact h.behind
  · dsimp only
    rw [hframes]
    exact h.stamps

/-- A batch in which the frame of the waiting call is acknowledged, under `lsn`. -/
theorem Inv.frame (h : Inv env s segs act) {log : Log} {queue : List LogCommand} {more : List Episode} {e : Episode}
    {instr : VmInstruction} {lsn : Nat} {segs' : List (List Rec)} {act' : List Rec} (hsteady : Steady env log segs' act')
    (hsolid : log.dir.get? segs'.length ≠ some []) (hrecords : (segs'.flatten ++ act').map Rec.episode = s.history ++ more)
    (hinstr : instructionIn e = some instr) (hfresh : Fresh s.history instr)
    (hmore : (number s.history.length more).filter (fun r => isHvm r.2) = [(lsn, e)]) (hqueue : framesIn queue = []) :
    Inv env { s with
      log := log
      queue := queue
      holder := .answered
      acked := s.acked ++ [(lsn, instr)]
      history := s.history ++ more } segs' act' := by
  have hnew : framesFrom s.history.length more = [(lsn, instr)] := by
    rw [framesFrom_filter, hmore]
    simp [hinstr]
  have hframes : framesFrom 0 (s.history ++ more) = framesFrom 0 s.history ++ [(lsn, instr)] := by
    rw [framesFrom_append, Nat.zero_add, hnew]
  have hlsn : s.history.length ≤ lsn :=
    (le_framesFrom (f := (lsn, instr)) (by rw [hnew]; exact List.mem_cons_self)).1
  refine ⟨hsteady, hsolid, hrecords.symm, ?_, fun e' he' hframe => ?_, ?_, ?_, .answered hqueue⟩
  · dsimp only
    rw [hframes, h.acked]
  · rcases List.mem_append.1 he' with he' | he'
    · exact h.decodes e' he' hframe
    · have hmem : e' ∈ more.filter isHvm := List.mem_filter.2 ⟨he', hframe⟩
      rw [← map_snd_filter_number s.history.length, hmore] at hmem
      rw [List.mem_singleton.1 hmem, hinstr]
      rfl
  · dsimp only
    rw [hframes]
    intro f hf
    rcases List.mem_append.1 hf with hf | hf
    · exact h.behind f hf
    · rw [List.mem_singleton.1 hf]
      exact Nat.le_trans hfresh.high hlsn
  · dsimp only
    rw [hframes]
    refine List.pairwise_append.2 ⟨h.stamps, List.pairwise_singleton _ _, fun a ha b hb => ?_⟩
    rw [List.mem_singleton.1 hb]
    exact Nat.lt_of_le_of_lt (h.behind a ha) (hfresh.low a ha)

/-- Who has the lock stays where he is when the batch has no frame. -/
theorem HolderOk.append {history more frames : List Episode} {holder : Holder} (h : HolderOk history frames holder)
    (hmore : more.filter isHvm = []) : HolderOk (history ++ more) frames holder := by
  cases h with
  | free hq => exact .free hq
  | locked call hq hfits => exact .locked call hq hfits
  | stamped instr hq hfresh => exact .stamped instr hq (hfresh.append hmore)
  | waiting instr e hq hinstr hfresh => exact .waiting instr e hq hinstr (hfresh.append hmore)
  | answered hq => exact .answered hq

/-- **The worker's batch.**  At most one frame is in the queue, that of the call that waits. -/
theorem Inv.worker (h : Inv env s segs act) (hcodec : env.RoundTrips) (segmentMaxBytes : Nat) {n : Nat}
    (hok : s.log.BatchOk env (s.queue.take n)) : ∃ segs' act', Inv env (s.worker env segmentMaxBytes n) segs' act' := by
  obtain ⟨log, queue, holder, acked, history⟩ := s
  dsimp only at hok
  obtain ⟨segs', act', done, hsteady, hsolid, hrecords, hacks⟩ :=
    h.steady.batch hcodec segmentMaxBytes h.solid hok.1 hok.2
  have hsub := acks_sublist env log segmentMaxBytes (queue.take n)
  have hparts : framesIn (queue.take n) ++ framesIn (queue.drop n) = framesIn queue := by
    rw [← framesIn_append, List.take_append_drop]
  have hcommitted : log.committedLsn = history.length := h.committed
  dsimp only at hacks hsteady hsolid
  rw [hcommitted] at hacks
  generalize hmore : done.map Rec.episode = more at hacks
  have hhistory : (segs'.flatten ++ act').map Rec.episode = history ++ more := by
    rw [hrecords, show history = _ from h.history, ← hmore]
    exact List.map_append
  have hframes : (more.filter isHvm).Sublist (framesIn (queue.take n)) := by
    rw [hacks, map_snd_number] at hsub
    exact hsub.filter isHvm
  have hskip : framesIn (queue.take n) = [] → Inv env
      ⟨(log.batch env segmentMaxBytes (queue.take n)).1, queue.drop n, holder, acked, history ++ more⟩ segs' act' := by
    intro hnone
    have hplain := List.sublist_nil.1 (hnone ▸ hframes)
    refine h.plain hsteady hsolid hhistory hplain ?_
    rw [hnone, List.nil_append] at hparts
    rw [hparts]
    exact h.holder.append hplain
  have hnoframe : framesIn queue = [] → framesIn (queue.take n) = [] := fun hq =>
    (List.append_eq_nil_iff.1 (hparts.trans hq)).1
  have hholder : HolderOk history (framesIn queue) holder := h.holder
  unfold Ledger.worker
  dsimp only
  rw [hacks, map_snd_number]
  cases hholder with
  | free hq => exact ⟨segs', act', hskip (hnoframe hq)⟩
  | locked call hq _ => exact ⟨segs', act', hskip (hnoframe hq)⟩
  | stamped instr hq _ => exact ⟨segs', act', hskip (hnoframe hq)⟩
  | answered hq => exact ⟨segs', act', hskip (hnoframe hq)⟩
  | waiting instr e hq hinstr hfresh =>
    dsimp only
    cases hany : (queue.take n).any carriesFrame with
    | false =>
      rw [if_neg Bool.false_ne_true]
      exact ⟨segs', act', hskip (framesIn_eq_nil_iff.2 hany)⟩
    | true =>
      rw [if_pos rfl]
      have hne : framesIn (queue.take n) ≠ [] := fun hnone => by
        rw [framesIn_eq_nil_iff.1 hnone] at hany
        cases hany
      have htaken : framesIn (queue.take n) = [e] ∧ framesIn (queue.drop n) = [] := by
        rcases List.append_eq_singleton_iff.1 (hparts.trans hq) with ⟨hnone, -⟩ | hone
        · exact absurd hnone hne
        · exact hone
      rw [htaken.1] at hframes
      rcases List.sublist_singleton.1 hframes with hnone | hone
      · have hfind : (number history.length more).find? (fun r => isHvm r.2) = none := by
          rw [← List.head?_filter, List.map_eq_nil_iff.1 ((map_snd_filter_number _ more).trans hnone)]
          rfl
        rw [hfind]
        exact ⟨segs', act', h.plain hsteady hsolid hhistory hnone (.answered htaken.2)⟩
      · obtain ⟨⟨lsn, e'⟩, hfilter, heq⟩ := List.map_eq_singleton_iff.1 ((map_snd_filter_number _ more).trans hone)
        cases heq
        have hfind : (number history.length more).find? (fun r => isHvm r.2) = some (lsn, e') := by
          rw [← List.head?_filter, hfilter]
          rfl
        rw [hfind]
        exact ⟨segs', act', h.frame hsteady hsolid hhistory hinstr hfresh hfilter htaken.2⟩

/-- A step that leaves the log alone. -/
theorem Inv.setQueue (h : Inv env s segs act) {queue : List LogCommand} {holder : Holder}
    (hholder : HolderOk s.history (framesIn queue) holder) :
    Inv env { s with queue := queue, holder := holder } segs act :=
  { h with holder := hholder }

/-- **Every step keeps the order of the stamps.** -/
theorem Inv.step (h : Inv env s segs act) (hcodec : env.RoundTrips) {segmentMaxBytes : Nat} {a : HvmAction}
    (hok : HvmActionOk env s a) (hs : s.step env segmentMaxBytes a = some s') : ∃ segs' act', Inv env s' segs' act' := by
  have hholder := h.holder
  cases a with
  | lock call =>
    simp only [Ledger.step] at hs
    generalize hlock : s.holder = holder at hs hholder
    cases hholder with
    | free hq =>
      cases hs
      exact ⟨segs, act, h.setQueue (.locked call hq hok)⟩
    | _ => cases hs
  | head evId =>
    simp only [Ledger.step] at hs
    generalize hlock : s.holder = holder at hs hholder
    cases hholder with
    | locked call hq hfits =>
      cases hs
      have hlsn : s.log.committedLsn < 2 ^ 64 := h.steady.committed ▸ h.steady.lsns
      refine ⟨segs, act, h.setQueue (.stamped _ hq ⟨?_, fun f hf => ?_, ?_⟩)⟩
      · cases call with
        | upsert key val => exact ⟨hlsn, hok, hfits⟩
        | delete key => exact ⟨hlsn, hok, hfits⟩
      · have hstamp : (call.instr s.log.committedLsn evId).lsn = s.log.committedLsn := by cases call <;> rfl
        rw [hstamp, h.committed]
        have := (le_framesFrom hf).2
        omega
      · have hstamp : (call.instr s.log.committedLsn evId).lsn = s.log.committedLsn := by cases call <;> rfl
        rw [hstamp, h.committed]
    | _ => cases hs
  | enqueue id tsHlc =>
    simp only [Ledger.step] at hs
    generalize hlock : s.holder = holder at hs hholder
    cases hholder with
    | stamped instr hq hfresh =>
      cases hs
      refine ⟨segs, act, h.setQueue (.waiting instr (frameOf id tsHlc instr) ?_ (instructionIn_frameOf id tsHlc hfresh.fits) hfresh)⟩
      rw [framesIn_append, hq]
      simp [framesIn, LogCommand.event, isHvm_frameOf]
    | _ => cases hs
  | timeout =>
    simp only [Ledger.step] at hs
    generalize hlock : s.holder = holder at hs hholder
    cases hholder with
    | stamped instr hq _ =>
      cases hs
      exact ⟨segs, act, h.setQueue (.free hq)⟩
    | _ => cases hs
  | release =>
    simp only [Ledger.step] at hs
    generalize hlock : s.holder = holder at hs hholder
    cases hholder with
    | answered hq =>
      cases hs
      exact ⟨segs, act, h.setQueue (.free hq)⟩
    | _ => cases hs
  | append cmd =>
    simp only [Ledger.step, Option.some.injEq] at hs
    cases hcarries : carriesFrame cmd with
    | true =>
      rw [hcarries, if_pos rfl] at hs
      exact ⟨segs, act, hs ▸ h⟩
    | false =>
      rw [hcarries, if_neg Bool.false_ne_true] at hs
      have hone : framesIn [cmd] = [] := framesIn_eq_nil_iff.2 (by rw [List.any_cons, hcarries]; rfl)
      have hsame : framesIn (s.queue ++ [cmd]) = framesIn s.queue := by rw [framesIn_append, hone, List.append_nil]
      rw [← hs]
      refine ⟨segs, act, h.setQueue ?_⟩
      rw [hsame]
      exact h.holder
  | worker n =>
    simp only [Ledger.step] at hs
    split at hs
    · cases hs
      exact h.worker hcodec segmentMaxBytes hok
    · cases hs

theorem inv_of_run (hcodec : env.RoundTrips) {segmentMaxBytes : Nat} {actions : List HvmAction} {s : Ledger}
    (h : Run (Ledger.step env segmentMaxBytes) (HvmActionOk env) (Ledger.start env) actions s) :
    ∃ segs act, Inv env s segs act := by
  induction h with
  | start => exact ⟨[], [], inv_start⟩
  | next a _ hok hs ih =>
    obtain ⟨segs, act, hinv⟩ := ih
    exact hinv.step hcodec hok hs

/-- **The orders agree** after every interleaving of calls, ordinary appends and batches, if the replay finds every
record. -/
theorem orders_agree (hS : IsBinarySearch env.binarySearch) (hcodec : env.RoundTrips) {segmentMaxBytes : Nat}
    {actions : List HvmAction} {s : Ledger}
    (h : Run (Ledger.step env segmentMaxBytes) (HvmActionOk env) (Ledger.start env) actions s)
    (hhit : s.log.catalog.NoEmptyHit env) : OrdersAgree env s := by
  obtain ⟨segs, act, hinv⟩ := inv_of_run hcodec h
  have hpairs : (framesFrom 0 s.history).Pairwise (fun a b => a.1 < b.1 ∧ a.2.lsn < b.2.lsn) :=
    List.pairwise_and_iff.2 ⟨framesFrom_pairwise 0 s.history, hinv.stamps⟩
  have hstamps : ((framesFrom 0 s.history).map Prod.snd).Pairwise (fun a b => a.lsn < b.lsn) :=
    List.pairwise_map.2 hinv.stamps
  have hsorted : ((framesFrom 0 s.history).map Prod.snd).insertionSort (fun a b => a.lsn ≤ b.lsn)
      = (framesFrom 0 s.history).map Prod.snd :=
    List.Pairwise.insertionSort_eq (hstamps.imp (fun hlt => Nat.le_of_lt hlt))
  have hreplay : replayVm env s.log = .ok (Vm.run {} ((framesFrom 0 s.history).map Prod.snd)) := by
    rw [replayVm, hinv.steady.walk_eq hS hhit replayVisit (Nat.le_succ _) (by decide) _ _ _ (Nat.sub_le _ _), List.drop_zero,
      ← hinv.history]
    exact replayVisit_eq s.history 0 {} hinv.decodes
  refine ⟨hpairs, _, hreplay, by rw [hsorted], (run_max hstamps).1, ?_⟩
  rw [hinv.acked]
  exact run_lastWins (framesFrom_pairwise 0 s.history)

/-! ## A frame that is too large -/

/-- **A record over the readers' bound** is written and acknowledged, and no replay gets past it. -/
theorem replayVm_oversized {segmentMaxBytes : Nat} {opaqueMeta payload : Bytes} {e : Episode}
    (hencode : env.encodePayload opaqueMeta e = .ok payload) (hbig : maxPayloadLen < payload.length)
    (hsize : payload.length < 2 ^ 30) (hroom : Legacy.headerLen + (recordHeaderLen + payload.length) ≤ segmentMaxBytes) :
    acks ((Log.create env).batch env segmentMaxBytes [.append opaqueMeta e none]).2 = [(0, e)] ∧
      ∃ err, replayVm env ((Log.create env).batch env segmentMaxBytes [.append opaqueMeta e none]).1 = .error err := by
  generalize hrecord : encodeRecord env.toHashes formatVersion 0 e.tsHlc payload = record
  have hlen : record.length = recordHeaderLen + payload.length := hrecord ▸ length_encodeRecord _ _ _ _ _
  have hstay : (Batch.start (Log.create env)).makeRoom env segmentMaxBytes record = Batch.start (Log.create env) := by
    refine if_neg ?_
    show ¬segmentMaxBytes < Legacy.headerLen + record.length
    omega
  have hlog : (Log.create env).batch env segmentMaxBytes [.append opaqueMeta e none] = ({
      dir := writeAll (Log.create env).dir 0 record
      catalog := {
        sealedSegments := []
        active := { emptyActive 0 0 with
          maxLsn := 0, entries := [{ lsn := 0, offset := Legacy.headerLen, opaqueMeta := opaqueMeta }] } }
      active := {
        segmentId := 0, bytesWritten := Legacy.headerLen + record.length
        recordHashes := [recordLeaf env.toHashes formatVersion record], baseLsn := 0, maxLsn := 0 }
      committedLsn := 1 }, [.appended 0 e]) := by
    rw [Log.batch, List.foldl_cons, List.foldl_nil]
    simp only [Batch.command, Batch.append, Option.filter_none, hencode]
    rw [show (Batch.start (Log.create env)).tentativeLsn = 0 from rfl, hrecord, hstay]
    rfl
  have hfile : (writeAll (Log.create env).dir 0 record).get? 0
      = some (SegmentHeader.encode { version := formatVersion, segmentId := 0, createdHlc := env.createdHlc 0 } ++ record) := by
    rw [get?_writeAll, if_pos rfl]
    rfl
  generalize hheader : SegmentHeader.encode { version := formatVersion, segmentId := 0, createdHlc := env.createdHlc 0 } = header
    at hfile
  have hdrop : (header ++ record).drop Legacy.headerLen = record :=
    List.drop_left' (hheader ▸ SegmentHeader.length_encode _)
  have hfour : (record.take recordHeaderLen).take 4 = leBytes 4 payload.length := by
    have htake := take_four_encodeRecord env.toHashes formatVersion 0 e.tsHlc payload []
    rw [List.append_nil, hrecord] at htake
    rw [List.take_take, show min 4 recordHeaderLen = 4 from rfl, htake]
  have hnumber : leNat (leBytes 4 payload.length) = payload.length := leNat_leBytes_of_lt (by omega)
  have hmagic : leBytes 4 payload.length ≠ footerMagic := by
    intro heq
    rw [heq, leNat_footerMagic] at hnumber
    omega
  have hwhole : (record.take recordHeaderLen).length = recordHeaderLen := List.length_take_of_le (by omega)
  rw [hlog]
  refine ⟨rfl, ?_⟩
  generalize hlog : Prod.fst _ = log
  let active : SegmentContainer := { emptyActive 0 0 with
    maxLsn := 0, entries := [{ lsn := 0, offset := Legacy.headerLen, opaqueMeta := opaqueMeta }] }
  have hcommitted : log.committedLsn = 1 := by rw [← hlog]
  have hpick : log.catalog.pick env 0 = some active := by
    rw [← hlog]
    exact if_pos (Nat.le_refl 0)
  have hentry : active.entries[0 - active.baseLsn]? = some { lsn := 0, offset := Legacy.headerLen, opaqueMeta := opaqueMeta } := rfl
  have hget : log.dir.get? active.id = some (header ++ record) := by
    rw [← hlog]
    exact hfile
  have hscan : ∃ err, scanSegment env active (header ++ record) 1 100000 1 Legacy.headerLen 0 [] = .error err := by
    rw [scanSegment, if_neg (by decide), if_neg (fun h => Bool.false_ne_true h.1)]
    dsimp only
    rw [hdrop, hwhole, if_neg (Nat.lt_irrefl _), hfour, if_neg hmagic, hnumber, if_pos hbig]
    exact ⟨_, rfl⟩
  obtain ⟨err, hscan⟩ := hscan
  have hloop : log.scanCapped env 0 2 100000 = .error err := by
    rw [Log.scanCapped, hcommitted]
    show log.scanLoop env 1 100000 1 0 [] = .error err
    rw [Log.scanLoop, if_neg (by decide), hpick]
    dsimp only
    rw [hentry]
    dsimp only
    rw [hget]
    dsimp only
    rw [hscan]
  refine ⟨err, ?_⟩
  rw [replayVm, hcommitted, Log.walk, if_pos (by decide), hloop]

/-- A call with a value and no key, stamped at an empty log. -/
def firstCall (val : Bytes) : VmInstruction := .upsert [] val 0 21

def firstEnv (val : Bytes) : Env := tableEnv [(Vm.beBytes 16 1, frameOf 1 1 (firstCall val))] Legacy.sampleEnv

theorem length_varNat_le (n : Nat) : (varNat n).length ≤ 9 := by
  unfold varNat
  split
  · simp
  · split
    · simp
    · split <;> simp

theorem length_firstFrame (val : Bytes) : val.length < (bincode (Vm.beBytes 16 1) (frameOf 1 1 (firstCall val))).length ∧
    (bincode (Vm.beBytes 16 1) (frameOf 1 1 (firstCall val))).length ≤ val.length + 128 := by
  have hcontent : (frameOf 1 1 (firstCall val)).content.length = 40 + val.length := by
    show (Vm.encode 1 (firstCall val)).length = _
    simp [Vm.encode, Vm.encodePayload, firstCall]
    omega
  have hle := length_content_le (Vm.beBytes 16 1) (frameOf 1 1 (firstCall val))
  have hnumber := length_varNat_le (frameOf 1 1 (firstCall val)).content.length
  generalize hfront : varText (ulidText 1) ++ varText "hvm".toList ++ varText [] ++ varNat 1 ++ kindBytes (.custom hvmKind) = front
  have hlength : front.length = 42 := by
    rw [← hfront]
    decide +kernel
  have hbytes : bincode (Vm.beBytes 16 1) (frameOf 1 1 (firstCall val)) = Vm.beBytes 16 1 ++
      (front ++ varBytes (frameOf 1 1 (firstCall val)).content ++ 0 :: varNat 0 ++ [] ++ [0, 0, 0]) := by
    rw [← hfront]
    rfl
  have hzero : (varNat 0).length = 1 := rfl
  refine ⟨by omega, ?_⟩
  rw [hbytes]
  simp only [List.length_append, List.length_cons, List.length_nil, Vm.length_beBytes, varBytes, hlength, hzero, hcontent]
    at hnumber ⊢
  omega

theorem firstEnv_roundTrips (val : Bytes) : (firstEnv val).RoundTrips := by
  refine tableEnv_roundTrips (fun p hp => ?_)
  rw [List.mem_singleton.1 hp]
  refine ⟨Vm.length_beBytes 16 1, fun q hq _ => ?_⟩
  rw [List.mem_singleton.1 hq]

/-- The state of the ledger after the first call, and of its replay, when its value is over the readers' bound. -/
theorem firstCall_oversized {val : Bytes} (hbig : maxPayloadLen ≤ val.length) (hsize : val.length + 128 < 2 ^ 30) :
    ∃ s : Ledger, Run (Ledger.step (firstEnv val) (2 ^ 40)) (fun _ _ => True) (Ledger.start (firstEnv val))
        [.lock (.upsert [] val), .head 21, .enqueue 1 1, .worker 1] s ∧
      s.acked = [(0, firstCall val)] ∧ ∃ err, replayVm (firstEnv val) s.log = .error err := by
  obtain ⟨hlow, hhigh⟩ := length_firstFrame val
  have hencode : (firstEnv val).encodePayload (Vm.beBytes 16 1) (frameOf 1 1 (firstCall val))
      = .ok (bincode (Vm.beBytes 16 1) (frameOf 1 1 (firstCall val))) := if_pos List.mem_cons_self
  have hroom : Legacy.headerLen + (recordHeaderLen + (bincode (Vm.beBytes 16 1) (frameOf 1 1 (firstCall val))).length)
      ≤ 2 ^ 40 := by
    have hwidth : Legacy.headerLen + recordHeaderLen = 46 := rfl
    omega
  obtain ⟨hacks, err, hreplay⟩ := replayVm_oversized hencode (Nat.lt_of_le_of_lt hbig hlow) (by omega) hroom
  let cmd : LogCommand := .append (Vm.beBytes 16 1) (frameOf 1 1 (firstCall val)) none
  let queued : Ledger := {
    log := Log.create (firstEnv val), queue := [cmd], holder := .waiting (firstCall val), acked := [], history := [] }
  let done : Ledger := {
    log := ((Log.create (firstEnv val)).batch (firstEnv val) (2 ^ 40) [cmd]).1
    queue := [], holder := .answered, acked := [(0, firstCall val)], history := [frameOf 1 1 (firstCall val)] }
  have hframe : isHvm (frameOf 1 1 (firstCall val)) = true := isHvm_frameOf 1 1 (firstCall val)
  have hcarries : [cmd].any carriesFrame = true := by simp [cmd, carriesFrame, LogCommand.event, hframe]
  have hworker : queued.worker (firstEnv val) (2 ^ 40) 1 = done := by
    unfold Ledger.worker
    dsimp only [queued, List.take_succ_cons, List.take_zero]
    rw [if_pos hcarries, hacks, List.find?_cons, hframe]
    rfl
  have hstep : queued.step (firstEnv val) (2 ^ 40) (.worker 1) = some done := by
    rw [← hworker]
    have hall : 1 ≤ 1 ∧ 1 ≤ 128 ∧ 1 ≤ queued.queue.length := ⟨Nat.le_refl 1, by decide, Nat.le_refl 1⟩
    show (if 1 ≤ 1 ∧ 1 ≤ 128 ∧ 1 ≤ queued.queue.length then some (queued.worker (firstEnv val) (2 ^ 40) 1) else none) = _
    exact if_pos hall
  have hlast : Run (Ledger.step (firstEnv val) (2 ^ 40)) (fun _ _ => True) queued [.worker 1] done :=
    Run.cons (HvmAction.worker 1) trivial hstep .start
  have hrun : Run (Ledger.step (firstEnv val) (2 ^ 40)) (fun _ _ => True) (Ledger.start (firstEnv val))
      [.lock (.upsert [] val), .head 21, .enqueue 1 1, .worker 1] done :=
    Run.cons _ trivial rfl (Run.cons _ trivial rfl (Run.cons _ trivial rfl hlast))
  exact ⟨done, hrun, rfl, err, hreplay⟩

/-- **A large frame ends the replay**: a value of 512 MiB makes a payload over the readers' bound; the call is acknowledged,
and from then on there is no state. -/
theorem large_frame_ends_replay : ∃ val : Bytes, val.length = 2 ^ 29 ∧ IsBinarySearch (firstEnv val).binarySearch ∧
    (firstEnv val).RoundTrips ∧ ∃ s : Ledger,
      Run (Ledger.step (firstEnv val) (2 ^ 40)) (fun _ _ => True) (Ledger.start (firstEnv val))
        [.lock (.upsert [] val), .head 21, .enqueue 1 1, .worker 1] s ∧
      s.acked = [(0, firstCall val)] ∧ ¬OrdersAgree (firstEnv val) s := by
  obtain ⟨val, hlength⟩ : ∃ val : Bytes, val.length = 2 ^ 29 := ⟨List.replicate (2 ^ 29) 0, List.length_replicate⟩
  have hbig : maxPayloadLen ≤ val.length := hlength ▸ Nat.le_refl (2 ^ 29)
  have hsize : val.length + 128 < 2 ^ 30 := by omega
  obtain ⟨s, hrun, hacked, err, hreplay⟩ := firstCall_oversized hbig hsize
  refine ⟨val, hlength, isBinarySearch_searchFirst, firstEnv_roundTrips val, s, hrun, hacked, ?_⟩
  rintro ⟨-, state, hstate, -⟩
  rw [hreplay] at hstate
  cases hstate

/-! ## A short run -/

/-- An observation between two calls. -/
def noteEvent : Episode := (Episode.new 9 "a".toList .observation [7]).stamp 3

def sharedEnv : Env := tableEnv [(Vm.beBytes 16 1, frameOf 1 1 (.upsert [97] [49] 0 21)), (Vm.beBytes 16 9, noteEvent),
  (Vm.beBytes 16 2, frameOf 2 2 (.delete [97] 2 22))] Legacy.sampleEnv

/-- The note gets in front of the first frame; the second call sees both. -/
def sharedActions : List HvmAction :=
  [.lock (.upsert [97] [49]), .head 21, .append (.append (Vm.beBytes 16 9) noteEvent none), .enqueue 1 1, .worker 2, .release,
    .lock (.delete [97]), .head 22, .enqueue 2 2, .worker 1, .release]

instance (s : Ledger) : ∀ a : HvmAction, Decidable (HvmActionOk sharedEnv s a)
  | .lock (.upsert key val) => inferInstanceAs (Decidable (key.length + val.length + 32 < 2 ^ 32))
  | .lock (.delete key) => inferInstanceAs (Decidable (key.length + 28 < 2 ^ 32))
  | .head evId => inferInstanceAs (Decidable (evId < 2 ^ 128))
  | .worker n => inferInstanceAs (Decidable (s.log.BatchOk sharedEnv (s.queue.take n)))
  | .enqueue _ _ => inferInstanceAs (Decidable True)
  | .timeout => inferInstanceAs (Decidable True)
  | .release => inferInstanceAs (Decidable True)
  | .append _ => inferInstanceAs (Decidable True)

theorem sharedEnv_roundTrips : sharedEnv.RoundTrips := tableEnv_roundTrips (by decide +kernel)

set_option maxRecDepth 20000 in
theorem orders_agree_sample : ∃ s : Ledger,
    Run (Ledger.step sharedEnv 4096) (HvmActionOk sharedEnv) (Ledger.start sharedEnv) sharedActions s ∧
      s.acked = [(1, .upsert [97] [49] 0 21), (2, .delete [97] 2 22)] ∧ OrdersAgree sharedEnv s := by
  have hrun : (runs (Ledger.step sharedEnv 4096) (Ledger.start sharedEnv) sharedActions).map
      (fun s => (s.acked, decide s.log.NoEmptySealed))
      = some ([(1, .upsert [97] [49] 0 21), (2, .delete [97] 2 22)], true) := by decide +kernel
  obtain ⟨s, hs, hdata⟩ := Option.map_eq_some_iff.1 hrun
  obtain ⟨hacked, hne⟩ := Prod.mk.inj hdata
  have hok : allOk (Ledger.step sharedEnv 4096) (HvmActionOk sharedEnv) (Ledger.start sharedEnv) sharedActions := by
    decide +kernel
  exact ⟨s, run_of_runs hs hok, hacked, orders_agree isBinarySearch_searchFirst sharedEnv_roundTrips (run_of_runs hs hok)
    (of_decide_eq_true hne).noEmptyHit⟩

end Hvm
end Heraclitus
