import Heraclitus.Idempotency
/-!
# Encryption — content at rest, and crypto-shredding (`heraclitus-crypto/src/lib.rs`, `heraclitus-log/src/lib.rs`)

Every agent owns a key, kept in a file outside the log.  Content and sensitive fields are sealed under it before they are
stored; to forget an agent is to destroy the file.  Whether a stored record is sealed is read off the record itself.
-/
namespace Heraclitus
namespace Crypto

abbrev Key := Digest
abbrev Nonce := { b : Bytes // b.length = 12 }

def encMagic : Bytes := [0x48, 0x52, 0x4b, 0x4c, 0x45, 0x4e, 0x43, 0x31]
def nonceLen : Nat := 12

/-- Tombstone substituted for content whose key was crypto-shredded. -/
def shredded : Bytes := [0x5b, 0x73, 0x68, 0x72, 0x65, 0x64, 0x64, 0x65, 0x64, 0x5d]

/-- `str::as_bytes`. -/
def asBytes (s : Str) : Bytes := s.flatMap String.utf8EncodeChar

theorem length_asBytes (s : Str) : (asBytes s).length = utf8Len s := by
  unfold asBytes utf8Len
  rw [List.length_flatMap]
  simp

theorem asBytes_injective {s t : Str} (h : asBytes s = asBytes t) : s = t := by
  have hs : s.utf8Encode = t.utf8Encode := congrArg List.toByteArray h
  have := congrArg ByteArray.utf8Decode? hs
  rw [List.utf8Decode?_utf8Encode, List.utf8Decode?_utf8Encode, Option.some.injEq] at this
  exact List.toArray_inj this

def hexDigits : List Char := "0123456789abcdef".toList

def hexByte (b : UInt8) : Str := [hexDigits.getD (b >>> 4).toNat '0', hexDigits.getD (b &&& 0x0f).toNat '0']

def hexEncode (bytes : Bytes) : Str := bytes.flatMap hexByte

def nibble (b : UInt8) : Option UInt8 :=
  if 48 ≤ b ∧ b ≤ 57 then some (b - 48)
  else if 97 ≤ b ∧ b ≤ 102 then some (b - 97 + 10)
  else if 65 ≤ b ∧ b ≤ 70 then some (b - 65 + 10)
  else none

/-- `chunks_exact(2)`, every pair read as one byte. -/
def hexPairs : Bytes → Option Bytes
  | hi :: lo :: rest =>
    (nibble hi).bind (fun hi => (nibble lo).bind (fun lo => (hexPairs rest).map ((hi <<< 4 ||| lo) :: ·)))
  | _ => some []

def hexDecode (text : Str) : Option Bytes :=
  if (asBytes text).length % 2 ≠ 0 then none else hexPairs (asBytes text)

/-! ## The key store -/

structure KeyStore where
  dir : SortedMap Str Bytes
  cache : SortedMap Str Key

namespace KeyStore

def openDir (dir : SortedMap Str Bytes) : KeyStore := ⟨dir, .empty⟩

def keyPath (agentId : Str) : Str := hexEncode (asBytes agentId) ++ ".key".toList

/-- A file that is not 32 bytes long is no key. -/
def readKey (dir : SortedMap Str Bytes) (path : Str) : Option Key :=
  (dir.get? path).bind (fun bytes => if h : bytes.length = 32 then some ⟨bytes, h⟩ else none)

/-- `draw` are the random bytes of the key, should one be created. -/
def getOrCreate (ks : KeyStore) (agentId : Str) (draw : Key) : Except String Key × KeyStore :=
  match ks.cache.get? agentId with
  | some k => (.ok k, ks)
  | none =>
    let path := keyPath agentId
    match readKey ks.dir path with
    | some k => (.ok k, { ks with cache := ks.cache.insert agentId k })
    | none =>
      if ks.dir.contains path then
        (.error "ficheiro de chave existe mas está incompleto (artefacto de crash?)", ks)
      else (.ok draw, { dir := ks.dir.insert path draw.1, cache := ks.cache.insert agentId draw })

def get (ks : KeyStore) (agentId : Str) : Option Key × KeyStore :=
  match ks.cache.get? agentId with
  | some k => (some k, ks)
  | none =>
    match readKey ks.dir (keyPath agentId) with
    | none => (none, ks)
    | some k => (some k, { ks with cache := ks.cache.insert agentId k })

/-- The overwriting of the key bytes before the file goes is not seen by anybody. -/
def shred (ks : KeyStore) (agentId : Str) : Bool × KeyStore :=
  let ks := { ks with cache := ks.cache.erase agentId }
  let path := keyPath agentId
  if ks.dir.contains path then (true, { ks with dir := ks.dir.erase path }) else (false, ks)

end KeyStore

/-! ## Sealing -/

structure SensitiveFields where
  attrs : SortedMap Str Str
  embedding : Option ProductPoint
  deriving DecidableEq

/-- An episode as it is stored. -/
structure StoragePayload extends Episode where
  opaqueMeta : Bytes
  deriving DecidableEq

/-- The code outside this repository: ChaCha20-Poly1305, and the serialisation of the two stored structures. -/
structure Env where
  encrypt (key : Key) (nonce : Nonce) (msg aad : Bytes) : Bytes
  decrypt (key : Key) (nonce : Nonce) (ct aad : Bytes) : Option Bytes
  encodePayload : StoragePayload → Except String Bytes
  decodePayload : Bytes → Except String StoragePayload
  encodeSensitive : SensitiveFields → Except String Bytes
  decodeSensitive : Bytes → Except String SensitiveFields

/-- **What the code relies on**: the cipher opens under the sealing key and under no other and adds to the length, and a
serialised value is read back; the texts of the fields stand in the serialised bytes. -/
structure Env.Lawful (env : Env) : Prop where
  opens : ∀ k n m a, env.decrypt k n (env.encrypt k n m a) a = some m
  wrongKey : ∀ k k' n m a, k ≠ k' → env.decrypt k' n (env.encrypt k n m a) a = none
  shorter : ∀ k n ct a m, env.decrypt k n ct a = some m → m.length ≤ ct.length
  payload : ∀ p b, env.encodePayload p = .ok b → env.decodePayload b = .ok p
  sensitive : ∀ f b, env.encodeSensitive f = .ok b → env.decodeSensitive b = .ok f
  inline : ∀ b f k v, env.decodeSensitive b = .ok f → f.attrs.get? k = some v → utf8Len v ≤ b.length

variable (env : Env)

def isEncrypted (blob : Bytes) : Bool :=
  decide (encMagic.length + nonceLen ≤ blob.length) && blob.take encMagic.length == encMagic

/-- `crypto::seal`; the nonce is drawn by the caller. -/
def seal_ (key : Key) (nonce : Nonce) (plaintext aad : Bytes) : Bytes :=
  encMagic ++ nonce.1 ++ env.encrypt key nonce plaintext aad

/-- The nonce of a blob, `&blob[8..20]`. -/
def nonceOf (blob : Bytes) : Option Nonce :=
  let nonce := (blob.drop encMagic.length).take nonceLen
  if h : nonce.length = 12 then some ⟨nonce, h⟩ else none

/-- `crypto::open`. -/
def open_ (key : Key) (blob aad : Bytes) : Option Bytes :=
  if isEncrypted blob then
    (nonceOf blob).bind (fun nonce => env.decrypt key nonce (blob.drop (encMagic.length + nonceLen)) aad)
  else none

def encryptedFieldsAttr : Str := "__heraclitus_encrypted_fields_v1".toList
def shreddedAttr : Str := "__heraclitus_shredded".toList

def isPublicTechnicalAttr (name : Str) : Bool :=
  decide (name = Idem.keyAttr) || decide (name = Idem.hashAttr)

def fieldsAad (agentId : Str) : Bytes := asBytes agentId ++ 0 :: asBytes "fields-v1".toList

def sensitiveFields (episode : Episode) : SensitiveFields :=
  { attrs := episode.attrs.filter (fun k => !isPublicTechnicalAttr k), embedding := episode.embedding }

/-- The episode that is stored when the agent has a key; `encoded` are its serialised sensitive fields. -/
def sealEpisode (key : Key) (contentNonce fieldsNonce : Nonce) (encoded : Bytes) (episode : Episode) : Episode :=
  { episode with
    content := seal_ env key contentNonce episode.content (asBytes episode.agentId)
    embedding := none
    attrs := (episode.attrs.filter isPublicTechnicalAttr).insert encryptedFieldsAttr
      (hexEncode (seal_ env key fieldsNonce encoded (fieldsAad episode.agentId))) }

/-- The random bytes of one append. -/
structure Draws where
  key : Key
  contentNonce : Nonce
  fieldsNonce : Nonce

def encodeStoragePayload (opaqueMeta : Bytes) (episode : Episode) (draws : Draws) :
    Option KeyStore → Except HeraclitusError Bytes × Option KeyStore
  | some ks =>
    match ks.getOrCreate episode.agentId draws.key with
    | (.error e, ks) => (.error (.crypto ("Keystore Isolation Fault: " ++ e)), some ks)
    | (.ok key, ks) =>
      match env.encodeSensitive (sensitiveFields episode) with
      | .error e => (.error (.serialization e), some ks)
      | .ok encoded =>
        let stored := sealEpisode env key draws.contentNonce draws.fieldsNonce encoded episode
        ((env.encodePayload ⟨stored, opaqueMeta⟩).mapError .serialization, some ks)
  | none => ((env.encodePayload ⟨episode, opaqueMeta⟩).mapError .serialization, none)

/-- The record of an agent without a key: forgotten, not corrupt. -/
def shreddedEpisode (ep : Episode) : Episode :=
  { ep with
    content := shredded
    embedding := none
    attrs := (ep.attrs.filter isPublicTechnicalAttr).insert shreddedAttr "true".toList }

def openContent (key : Key) (ep : Episode) : Except HeraclitusError Episode :=
  if isEncrypted ep.content then
    match open_ env key ep.content (asBytes ep.agentId) with
    | none => .error (.crypto ("Assinatura inválida detectada na cifra do agente: " ++ String.ofList ep.agentId))
    | some opened => .ok { ep with content := opened }
  else .ok ep

def openFields (key : Key) (encoded : Option Str) (ep : Episode) : Except HeraclitusError Episode :=
  match encoded with
  | none => .ok ep
  | some text =>
    match hexDecode text with
    | none => .error (.crypto ("Envelope de atributos ilegível para o agente: " ++ String.ofList ep.agentId))
    | some blob =>
      match open_ env key blob (fieldsAad ep.agentId) with
      | none => .error (.crypto
          ("Assinatura inválida no envelope de atributos do agente: " ++ String.ofList ep.agentId))
      | some opened =>
        match env.decodeSensitive opened with
        | .error e => .error (.serialization e)
        | .ok sensitive => .ok { ep with attrs := ep.attrs.extend sensitive.attrs, embedding := sensitive.embedding }

def decryptStorageEpisode (ep : Episode) : Option KeyStore → Except HeraclitusError Episode × Option KeyStore
  | none => (.ok ep, none)
  | some ks =>
    let encryptedFields := ep.attrs.get? encryptedFieldsAttr
    let bare := { ep with attrs := ep.attrs.erase encryptedFieldsAttr }
    if !isEncrypted ep.content && encryptedFields.isNone then (.ok bare, some ks)
    else
      match ks.get ep.agentId with
      | (none, ks) => (.ok (shreddedEpisode bare), some ks)
      | (some key, ks) => (openContent env key bare >>= openFields env key encryptedFields, some ks)

/-! ## The log over the store -/

/-- The stored payloads by LSN, and the key store the log was opened with. -/
structure Log where
  payloads : List Bytes
  keystore : Option KeyStore

/-- `append`: the LSN is the position of the payload. -/
def Log.append (log : Log) (opaqueMeta : Bytes) (episode : Episode) (draws : Draws) :
    Except HeraclitusError Nat × Log :=
  match encodeStoragePayload env opaqueMeta episode draws log.keystore with
  | (.error e, keystore) => (.error e, { log with keystore := keystore })
  | (.ok payload, keystore) =>
    (.ok log.payloads.length, { payloads := log.payloads ++ [payload], keystore := keystore })

def Log.read (log : Log) (lsn : Nat) : Except HeraclitusError (Option Episode) × Log :=
  match log.payloads[lsn]? with
  | none => (.ok none, log)
  | some payload =>
    match env.decodePayload payload with
    | .error e => (.error (.serialization e), log)
    | .ok stored =>
      let opened := decryptStorageEpisode env stored.toEpisode log.keystore
      (opened.1.map some, { log with keystore := opened.2 })

end Crypto
end Heraclitus
