import Heraclitus.LegacyLogRun
/-!
# TableCodec — payloads of given events

The bincode of an event without embedding, parents and valid time, and an environment that stores the events of a table.
Its codec is that of the log on these events, and refuses all others.
-/
namespace Heraclitus
namespace Legacy

/-- A number as bincode writes it. -/
def varNat (n : Nat) : Bytes :=
  if n < 251 then leBytes 1 n
  else if n < 2 ^ 16 then 251 :: leBytes 2 n
  else if n < 2 ^ 32 then 252 :: leBytes 4 n
  else 253 :: leBytes 8 n

def varBytes (bytes : Bytes) : Bytes := varNat bytes.length ++ bytes

def varText (text : Str) : Bytes := varBytes (text.flatMap String.utf8EncodeChar)

def ulidAlphabet : List Char :=
  ['0', '1', '2', '3', '4', '5', '6', '7', '8', '9', 'A', 'B', 'C', 'D', 'E', 'F', 'G', 'H', 'J', 'K', 'M', 'N', 'P', 'Q', 'R', 'S',
    'T', 'V', 'W', 'X', 'Y', 'Z']

/-- The text of a ULID: 26 digits to the base 32. -/
def ulidText (id : Nat) : Str := (List.range 26).map (fun i => ulidAlphabet.getD (id / 32 ^ (25 - i) % 32) '0')

def kindBytes : EventKind → Bytes
  | .observation => [0]
  | .action => [1]
  | .message => [2]
  | .retrievalFeedback => [3]
  | .factDerived => [4]
  | .demotionReceipt => [5]
  | .custom name => 6 :: varText name
  | .systemMetric => [7]

/-- The bincode of a `StoragePayload` without embedding, parents and valid time. -/
def bincode (opaqueMeta : Bytes) (e : Episode) : Bytes :=
  opaqueMeta ++ (varText (ulidText e.id) ++ varText e.agentId ++ varText e.sessionId ++ varNat e.tsHlc ++ kindBytes e.kind ++
    varBytes e.content ++ 0 :: varNat e.attrs.entries.length ++
    e.attrs.entries.flatMap (fun p => varText p.1 ++ varText p.2) ++ [0, 0, 0])

/-- `env` with the codec of the events in `table`. -/
def tableEnv (table : List (Bytes × Episode)) (env : Env) : Env := { env with
  encodePayload := fun opaqueMeta e => if (opaqueMeta, e) ∈ table then .ok (bincode opaqueMeta e) else .error "not in the table"
  decodePayload := fun _ payload =>
    match table.find? (fun p => decide (bincode p.1 p.2 = payload)) with
    | some p => .ok p.2
    | none => .error (.serialization "not in the table")
  decodeMeta := fun _ payload => .ok (payload.take 16) }

/-- The entries of a table are told apart by their bytes. -/
def TableOk (table : List (Bytes × Episode)) : Prop :=
  ∀ p ∈ table, p.1.length = 16 ∧ ∀ q ∈ table, bincode q.1 q.2 = bincode p.1 p.2 → q.2 = p.2

instance (table : List (Bytes × Episode)) : Decidable (TableOk table) :=
  inferInstanceAs (Decidable (∀ p ∈ table, p.1.length = 16 ∧ ∀ q ∈ table, bincode q.1 q.2 = bincode p.1 p.2 → q.2 = p.2))

variable {table : List (Bytes × Episode)} {env : Env}

theorem encode_table {opaqueMeta : Bytes} {e : Episode} {payload : Bytes}
    (h : (tableEnv table env).encodePayload opaqueMeta e = .ok payload) :
    (opaqueMeta, e) ∈ table ∧ payload = bincode opaqueMeta e := by
  unfold tableEnv at h
  dsimp only at h
  split at h
  · rename_i hmem
    cases h
    exact ⟨hmem, rfl⟩
  · cases h

/-- **A table is read back.** -/
theorem tableEnv_roundTrips (h : TableOk table) : (tableEnv table env).RoundTrips := by
  intro opaqueMeta e payload hencode
  obtain ⟨hmem, rfl⟩ := encode_table hencode
  obtain ⟨hmeta, hsame⟩ := h _ hmem
  constructor
  · unfold tableEnv
    dsimp only
    cases hfind : table.find? (fun p => decide (bincode p.1 p.2 = bincode opaqueMeta e)) with
    | none => exact absurd (decide_eq_true rfl) (List.find?_eq_none.1 hfind _ hmem)
    | some q =>
      have hbytes : bincode q.1 q.2 = bincode opaqueMeta e := by simpa using List.find?_some hfind
      exact congrArg Except.ok (hsame q (List.mem_of_find?_eq_some hfind) hbytes)
  · show Except.ok ((bincode opaqueMeta e).take 16) = .ok opaqueMeta
    rw [bincode, List.take_left' hmeta]

theorem tableEnv_bounded (h : ∀ p ∈ table, (bincode p.1 p.2).length ≤ maxPayloadLen) (cmd : LogCommand) :
    cmd.Bounded (tableEnv table env) := by
  cases cmd with
  | flush => trivial
  | append opaqueMeta e expected =>
    intro payload hencode
    obtain ⟨hmem, rfl⟩ := encode_table hencode
    exact h _ hmem

theorem length_content_le (opaqueMeta : Bytes) (e : Episode) : e.content.length ≤ (bincode opaqueMeta e).length := by
  simp [bincode, varBytes]
  omega

end Legacy
end Heraclitus
