import Heraclitus.Encryption
import Mathlib.Data.List.Induction
/-!
# EncryptionRun — what can be read back after appends and shreds

A record under a key reads back as long as the agent's key is the one it was sealed under, and as the tombstone when the
agent has no key.  A key that is created again after a shred opens nothing older (`reads_as_written_iff`); and a record
from before the encryption is taken for a sealed one when it looks like one.
-/
namespace Heraclitus
namespace Crypto

/-! ## Hexadecimal text -/

theorem hexPairs_hexByte (b : UInt8) : (asBytes (hexByte b)).length = 2 ∧ hexPairs (asBytes (hexByte b)) = some [b] := by
  have hall : ∀ n : Fin 256, (asBytes (hexByte (UInt8.ofNat n))).length = 2 ∧
      hexPairs (asBytes (hexByte (UInt8.ofNat n))) = some [UInt8.ofNat n] := by decide +kernel
  have := hall ⟨b.toNat, b.toNat_lt⟩
  rwa [UInt8.ofNat_toNat] at this

theorem asBytes_hexEncode (bytes : Bytes) : asBytes (hexEncode bytes) = bytes.flatMap (fun b => asBytes (hexByte b)) :=
  List.flatMap_assoc

theorem hexPairs_append {pair rest : Bytes} {b : UInt8} (hlen : pair.length = 2) (h : hexPairs pair = some [b]) :
    hexPairs (pair ++ rest) = (hexPairs rest).map (b :: ·) := by
  obtain ⟨hi, lo, rfl⟩ := List.length_eq_two.1 hlen
  simp only [hexPairs, Option.map_some, Option.bind_eq_some_iff, Option.some.injEq, List.cons.injEq, and_true] at h
  obtain ⟨x, hx, y, hy, rfl⟩ := h
  rw [List.cons_append, List.cons_append, List.nil_append, hexPairs, hx, hy, Option.bind_some, Option.bind_some]

theorem hexPairs_flatMap : ∀ bytes : Bytes, hexPairs (bytes.flatMap (fun b => asBytes (hexByte b))) = some bytes
  | [] => rfl
  | b :: bytes => by
    obtain ⟨hlen, hpair⟩ := hexPairs_hexByte b
    rw [List.flatMap_cons, hexPairs_append hlen hpair, hexPairs_flatMap bytes, Option.map_some]

theorem utf8Len_hexEncode (bytes : Bytes) : utf8Len (hexEncode bytes) = 2 * bytes.length := by
  rw [← length_asBytes, asBytes_hexEncode, List.length_flatMap]
  have hmap : bytes.map (fun b => (asBytes (hexByte b)).length) = List.replicate bytes.length 2 :=
    List.eq_replicate_iff.2 ⟨List.length_map _, fun n hn => by
      obtain ⟨b, -, rfl⟩ := List.mem_map.1 hn
      exact (hexPairs_hexByte b).1⟩
  rw [hmap, List.sum_replicate_nat, Nat.mul_comm]

/-- **What is written in hexadecimal is read back.** -/
theorem hexDecode_hexEncode (bytes : Bytes) : hexDecode (hexEncode bytes) = some bytes := by
  have hlen : (asBytes (hexEncode bytes)).length % 2 = 0 := by
    rw [length_asBytes, utf8Len_hexEncode]
    omega
  rw [hexDecode, if_neg (fun h => h hlen), asBytes_hexEncode, hexPairs_flatMap]

theorem length_of_hexPairs : ∀ {text bytes : Bytes}, hexPairs text = some bytes → text.length / 2 = bytes.length
  | [], _, h => by cases h; rfl
  | [_], _, h => by
    cases h
    simp
  | hi :: lo :: rest, bytes, h => by
    simp only [hexPairs, Option.bind_eq_some_iff, Option.map_eq_some_iff] at h
    obtain ⟨x, -, y, -, tail, htail, rfl⟩ := h
    have := length_of_hexPairs htail
    simp only [List.length_cons]
    omega

theorem utf8Len_of_hexDecode {text : Str} {bytes : Bytes} (h : hexDecode text = some bytes) :
    utf8Len text = 2 * bytes.length := by
  unfold hexDecode at h
  split at h
  · cases h
  · rename_i heven
    have := length_of_hexPairs h
    rw [← length_asBytes]
    omega

theorem hexEncode_injective {a b : Bytes} (h : hexEncode a = hexEncode b) : a = b := by
  have := hexDecode_hexEncode a
  rw [h, hexDecode_hexEncode] at this
  exact (Option.some.inj this).symm

/-- No two agents share a key file. -/
theorem keyPath_injective {a b : Str} (h : KeyStore.keyPath a = KeyStore.keyPath b) : a = b :=
  asBytes_injective (hexEncode_injective (List.append_cancel_right h))

/-! ## The key store -/

namespace KeyStore

variable {ks : KeyStore} {agent : Str}

/-- The key of an agent, as the files say. -/
def current (ks : KeyStore) (agent : Str) : Option Key := readKey ks.dir (keyPath agent)

/-- What is cached is on disk. -/
def Coherent (ks : KeyStore) : Prop := ∀ agent k, ks.cache.get? agent = some k → ks.current agent = some k

theorem coherent_openDir (dir : SortedMap Str Bytes) : (openDir dir).Coherent := nofun

theorem readKey_insert (dir : SortedMap Str Bytes) (k : Key) (agent b : Str) :
    readKey (dir.insert (keyPath agent) k.1) (keyPath b) = if b = agent then some k else readKey dir (keyPath b) := by
  unfold readKey
  rw [SortedMap.get?_insert]
  by_cases hb : b = agent
  · rw [hb, if_pos rfl, if_pos rfl, Option.bind_some, dif_pos k.2]
  · rw [if_neg hb, if_neg (fun h => hb (keyPath_injective h))]

theorem readKey_erase (dir : SortedMap Str Bytes) (agent b : Str) :
    readKey (dir.erase (keyPath agent)) (keyPath b) = if b = agent then none else readKey dir (keyPath b) := by
  unfold readKey
  rw [SortedMap.get?_erase]
  by_cases hb : b = agent
  · rw [hb, if_pos rfl, if_pos rfl, Option.bind_none]
  · rw [if_neg hb, if_neg (fun h => hb (keyPath_injective h))]

theorem Coherent.cache_insert (h : ks.Coherent) {k : Key} (hk : ks.current agent = some k) :
    Coherent { ks with cache := ks.cache.insert agent k } := by
  intro b k' hb
  rw [SortedMap.get?_insert] at hb
  split at hb
  · rename_i heq
    cases hb
    rw [heq]
    exact hk
  · exact h b k' hb

/-- **A look-up answers what is on disk** and changes no file. -/
theorem get_spec (h : ks.Coherent) (agent : Str) :
    (ks.get agent).1 = ks.current agent ∧ (ks.get agent).2.dir = ks.dir ∧ (ks.get agent).2.Coherent := by
  unfold get
  split
  · rename_i k hk
    exact ⟨(h agent k hk).symm, rfl, h⟩
  · split
    · rename_i hnone
      exact ⟨hnone.symm, rfl, h⟩
    · rename_i k hk
      exact ⟨hk.symm, rfl, h.cache_insert hk⟩

/-- **The key an append gets**: the agent's, or a fresh one when it has none. -/
theorem getOrCreate_spec (h : ks.Coherent) (agent : Str) (draw : Key) :
    (ks.getOrCreate agent draw).2.Coherent ∧
    ((∃ k, ks.current agent = some k ∧ (ks.getOrCreate agent draw).1 = .ok k ∧
        (ks.getOrCreate agent draw).2.dir = ks.dir) ∨
      (ks.current agent = none ∧ (∃ e, (ks.getOrCreate agent draw).1 = .error e) ∧
        (ks.getOrCreate agent draw).2 = ks) ∨
      (ks.current agent = none ∧ (ks.getOrCreate agent draw).1 = .ok draw ∧
        (ks.getOrCreate agent draw).2.dir = ks.dir.insert (keyPath agent) draw.1)) := by
  unfold getOrCreate
  split
  · rename_i k hk
    exact ⟨h, .inl ⟨k, h agent k hk, rfl, rfl⟩⟩
  · dsimp only
    split
    · rename_i k hk
      exact ⟨h.cache_insert hk, .inl ⟨k, hk, rfl, rfl⟩⟩
    · rename_i hnone
      split
      · exact ⟨h, .inr (.inl ⟨hnone, ⟨_, rfl⟩, rfl⟩)⟩
      · refine ⟨fun b k hb => ?_, .inr (.inr ⟨hnone, rfl, rfl⟩)⟩
        rw [SortedMap.get?_insert] at hb
        rw [current, readKey_insert]
        split at hb
        · rename_i heq
          rw [if_pos heq, hb]
        · rename_i hne
          rw [if_neg hne]
          exact h b k hb

/-- **A shred leaves the agent without a key** and every other agent with its own. -/
theorem shred_spec (h : ks.Coherent) (agent : Str) : (ks.shred agent).2.Coherent ∧
    ∀ b, (ks.shred agent).2.current b = if b = agent then none else ks.current b := by
  have hcache : ∀ b k, (ks.cache.erase agent).get? b = some k → b ≠ agent ∧ ks.current b = some k := fun b k hb => by
    rw [SortedMap.get?_erase] at hb
    split at hb
    · cases hb
    · rename_i hne
      exact ⟨hne, h b k hb⟩
  unfold shred
  dsimp only
  split
  · refine ⟨fun b k hb => ?_, fun b => readKey_erase ks.dir agent b⟩
    obtain ⟨hne, hk⟩ := hcache b k hb
    rw [current, readKey_erase, if_neg hne]
    exact hk
  · rename_i habsent
    refine ⟨fun b k hb => (hcache b k hb).2, fun b => ?_⟩
    split
    · rename_i hb
      rw [SortedMap.contains, Bool.not_eq_true, Option.isSome_eq_false_iff, Option.isNone_iff_eq_none] at habsent
      rw [hb, current, readKey, habsent, Option.bind_none]
    · rfl

end KeyStore

/-! ## One record -/

variable {env : Env}

theorem isEncrypted_seal_ (k : Key) (n : Nonce) (m a : Bytes) : isEncrypted (seal_ env k n m a) = true := by
  have htake : (seal_ env k n m a).take encMagic.length = encMagic := by
    rw [seal_, List.append_assoc]
    exact List.take_left' rfl
  unfold isEncrypted
  rw [htake, Bool.and_eq_true, decide_eq_true_eq]
  refine ⟨?_, beq_self_eq_true _⟩
  rw [seal_, List.length_append, List.length_append, n.2, nonceLen]
  omega

theorem open_seal_ (k k' : Key) (n : Nonce) (m a : Bytes) :
    open_ env k' (seal_ env k n m a) a = env.decrypt k' n (env.encrypt k n m a) a := by
  have hdrop : (seal_ env k n m a).drop (encMagic.length + nonceLen) = env.encrypt k n m a :=
    List.drop_left' (by rw [List.length_append, n.2, nonceLen])
  have hnonce : nonceOf (seal_ env k n m a) = some n := by
    have : ((seal_ env k n m a).drop encMagic.length).take nonceLen = n.1 := by
      rw [seal_, List.append_assoc, List.drop_left' rfl]
      exact List.take_left' n.2
    unfold nonceOf
    simp only [this]
    rw [dif_pos n.2]
  rw [open_, if_pos (isEncrypted_seal_ k n m a), hnonce, hdrop, Option.bind_some]

/-- What is opened is shorter than the blob. -/
theorem length_of_open_ (hlaw : env.Lawful) {k : Key} {blob aad m : Bytes} (h : open_ env k blob aad = some m) :
    m.length + 20 ≤ blob.length := by
  unfold open_ at h
  split at h
  · rename_i hblob
    obtain ⟨n, -, hm⟩ := Option.bind_eq_some_iff.1 h
    have hle := hlaw.shorter _ _ _ _ _ hm
    unfold isEncrypted at hblob
    rw [Bool.and_eq_true, decide_eq_true_eq] at hblob
    have h20 : encMagic.length + nonceLen = 20 := rfl
    rw [List.length_drop] at hle
    omega
  · cases h

theorem encryptedFieldsAttr_not_public : isPublicTechnicalAttr encryptedFieldsAttr = false := by decide

theorem shreddedAttr_ne : encryptedFieldsAttr ≠ shreddedAttr := by decide

theorem isEncrypted_shredded : isEncrypted shredded = false := by decide

/-- A record that a reader with a key store takes for a sealed one. -/
def looksSealed (ep : Episode) : Bool := isEncrypted ep.content || ep.attrs.contains encryptedFieldsAttr

theorem erase_of_not_contains {m : SortedMap Str Str} {k : Str} (h : m.contains k = false) : m.erase k = m := by
  ext1 j
  rw [SortedMap.get?_erase]
  split
  · rename_i hj
    rw [SortedMap.contains, Option.isSome_eq_false_iff, Option.isNone_iff_eq_none] at h
    rw [hj, h]
  · rfl

theorem openContent_of_open_ {key : Key} {ep : Episode} {opened : Bytes} (hsealed : isEncrypted ep.content = true)
    (h : open_ env key ep.content (asBytes ep.agentId) = some opened) :
    openContent env key ep = .ok { ep with content := opened } := by
  rw [openContent, if_pos hsealed, h]

theorem openContent_of_none {key : Key} {ep : Episode} (hsealed : isEncrypted ep.content = true)
    (h : open_ env key ep.content (asBytes ep.agentId) = none) : openContent env key ep =
      .error (.crypto ("Assinatura inválida detectada na cifra do agente: " ++ String.ofList ep.agentId)) := by
  rw [openContent, if_pos hsealed, h]

theorem openFields_of_open_ {key : Key} {ep : Episode} {text : Str} {blob opened : Bytes} {sensitive : SensitiveFields}
    (hblob : hexDecode text = some blob) (h : open_ env key blob (fieldsAad ep.agentId) = some opened)
    (hdecode : env.decodeSensitive opened = .ok sensitive) : openFields env key (some text) ep =
      .ok { ep with attrs := ep.attrs.extend sensitive.attrs, embedding := sensitive.embedding } := by
  unfold openFields
  dsimp only
  rw [hblob]
  dsimp only
  rw [h]
  dsimp only
  rw [hdecode]

section Sealed

variable (k : Key) (n₁ n₂ : Nonce) (enc : Bytes) (ep : Episode)

theorem attrs_sealEpisode : (sealEpisode env k n₁ n₂ enc ep).attrs.get? encryptedFieldsAttr
    = some (hexEncode (seal_ env k n₂ enc (fieldsAad ep.agentId))) := by
  rw [sealEpisode, SortedMap.get?_insert, if_pos rfl]

theorem erase_sealEpisode : (sealEpisode env k n₁ n₂ enc ep).attrs.erase encryptedFieldsAttr
    = ep.attrs.filter isPublicTechnicalAttr := by
  ext1 j
  rw [SortedMap.get?_erase, sealEpisode, SortedMap.get?_insert, SortedMap.get?_filter]
  split
  · rename_i hj
    rw [hj, encryptedFieldsAttr_not_public]
    rfl
  · rfl

/-- The public attributes and the sensitive ones are the attributes. -/
theorem extend_sensitive : (ep.attrs.filter isPublicTechnicalAttr).extend (sensitiveFields ep).attrs = ep.attrs := by
  ext1 j
  rw [SortedMap.get?_extend, sensitiveFields, SortedMap.get?_filter, SortedMap.get?_filter]
  cases isPublicTechnicalAttr j <;> simp

/-- The tombstone of a sealed record is that of the episode. -/
theorem shreddedEpisode_sealEpisode :
    shreddedEpisode { sealEpisode env k n₁ n₂ enc ep with
      attrs := (sealEpisode env k n₁ n₂ enc ep).attrs.erase encryptedFieldsAttr } = shreddedEpisode ep := by
  have hfilter : ((sealEpisode env k n₁ n₂ enc ep).attrs.erase encryptedFieldsAttr).filter isPublicTechnicalAttr
      = ep.attrs.filter isPublicTechnicalAttr := by
    rw [erase_sealEpisode]
    ext1 j
    rw [SortedMap.get?_filter, SortedMap.get?_filter]
    cases isPublicTechnicalAttr j <;> rfl
  unfold shreddedEpisode
  rw [hfilter]
  rfl

variable {ks : KeyStore}

theorem decrypt_sealEpisode_eq : decryptStorageEpisode env (sealEpisode env k n₁ n₂ enc ep) (some ks) =
    match ks.get ep.agentId with
    | (none, ks) => (.ok (shreddedEpisode ep), some ks)
    | (some key, ks) =>
      (openContent env key { sealEpisode env k n₁ n₂ enc ep with
          attrs := (sealEpisode env k n₁ n₂ enc ep).attrs.erase encryptedFieldsAttr } >>=
        openFields env key (some (hexEncode (seal_ env k n₂ enc (fieldsAad ep.agentId)))), some ks) := by
  have hcontent : isEncrypted (sealEpisode env k n₁ n₂ enc ep).content = true := isEncrypted_seal_ _ _ _ _
  unfold decryptStorageEpisode
  dsimp only
  rw [hcontent, attrs_sealEpisode, shreddedEpisode_sealEpisode]
  rfl

/-- **The agent has no key: the tombstone.** -/
theorem decrypt_forgotten (h : (ks.get ep.agentId).1 = none) :
    (decryptStorageEpisode env (sealEpisode env k n₁ n₂ enc ep) (some ks)).1 = .ok (shreddedEpisode ep) := by
  rw [decrypt_sealEpisode_eq]
  split
  · rfl
  · rename_i heq
    rw [heq] at h
    cases h

/-- **The agent has the key of the record: the episode.** -/
theorem decrypt_kept (hlaw : env.Lawful) (henc : env.decodeSensitive enc = .ok (sensitiveFields ep))
    (h : (ks.get ep.agentId).1 = some k) :
    (decryptStorageEpisode env (sealEpisode env k n₁ n₂ enc ep) (some ks)).1 = .ok ep := by
  rw [decrypt_sealEpisode_eq]
  split
  · rename_i heq
    rw [heq] at h
    cases h
  · rename_i key ks' heq
    rw [heq] at h
    cases h
    dsimp only
    rw [erase_sealEpisode]
    let bare : Episode := { sealEpisode env k n₁ n₂ enc ep with attrs := ep.attrs.filter isPublicTechnicalAttr }
    let opened : Episode := { bare with content := ep.content }
    have hcontent : openContent env k bare = .ok opened :=
      openContent_of_open_ (isEncrypted_seal_ _ _ _ _) ((open_seal_ k k n₁ _ _).trans (hlaw.opens _ _ _ _))
    have hfields : openFields env k (some (hexEncode (seal_ env k n₂ enc (fieldsAad ep.agentId)))) opened = .ok ep := by
      have hopen : open_ env k (seal_ env k n₂ enc (fieldsAad ep.agentId)) (fieldsAad opened.agentId) = some enc :=
        (open_seal_ k k n₂ _ _).trans (hlaw.opens _ _ _ _)
      refine (openFields_of_open_ (hexDecode_hexEncode _) hopen henc).trans ?_
      dsimp only [opened, bare]
      rw [extend_sensitive]
      rfl
    change (openContent env k bare >>= _) = _
    rw [hcontent]
    exact hfields

/-- **The agent has another key: an error.** -/
theorem decrypt_rekeyed (hlaw : env.Lawful) {k' : Key} (hne : k ≠ k') (h : (ks.get ep.agentId).1 = some k') :
    (decryptStorageEpisode env (sealEpisode env k n₁ n₂ enc ep) (some ks)).1 =
      .error (.crypto ("Assinatura inválida detectada na cifra do agente: " ++ String.ofList ep.agentId)) := by
  rw [decrypt_sealEpisode_eq]
  split
  · rename_i heq
    rw [heq] at h
    cases h
  · rename_i key ks' heq
    rw [heq] at h
    cases h
    have hcontent : openContent env k' { sealEpisode env k n₁ n₂ enc ep with
          attrs := (sealEpisode env k n₁ n₂ enc ep).attrs.erase encryptedFieldsAttr } =
        .error (.crypto ("Assinatura inválida detectada na cifra do agente: " ++ String.ofList ep.agentId)) :=
      openContent_of_none (isEncrypted_seal_ _ _ _ _) ((open_seal_ k k' n₁ _ _).trans (hlaw.wrongKey _ _ _ _ _ hne))
    dsimp only
    rw [hcontent]
    rfl

end Sealed

/-- **A record that does not look sealed** is returned as it is. -/
theorem decrypt_plain {ep : Episode} {ks : KeyStore} (h : looksSealed ep = false) :
    (decryptStorageEpisode env ep (some ks)).1 = .ok ep := by
  unfold looksSealed at h
  rw [Bool.or_eq_false_iff] at h
  have hnone : ep.attrs.get? encryptedFieldsAttr = none := by
    have := h.2
    rwa [SortedMap.contains, Option.isSome_eq_false_iff, Option.isNone_iff_eq_none] at this
  unfold decryptStorageEpisode
  dsimp only
  rw [hnone, h.1, erase_of_not_contains h.2]
  rfl

theorem content_of_openFields {key : Key} {encoded : Option Str} {ep ep' : Episode}
    (h : openFields env key encoded ep = .ok ep') : ep'.content = ep.content := by
  unfold openFields at h
  split at h
  · cases h
    rfl
  · split at h
    · cases h
    · split at h
      · cases h
      · split at h
        · cases h
        · cases h
          rfl

/-- What is opened as content is not the content that was stored. -/
theorem content_of_openContent (hlaw : env.Lawful) {key : Key} {ep ep' : Episode} (hsealed : isEncrypted ep.content = true)
    (h : openContent env key ep = .ok ep') : ep'.content ≠ ep.content := by
  unfold openContent at h
  rw [if_pos hsealed] at h
  split at h
  · cases h
  · rename_i opened hopen
    cases h
    intro heq
    have := length_of_open_ hlaw hopen
    rw [← heq] at this
    dsimp only at this
    omega

/-- No envelope holds its own text. -/
theorem attrs_of_openFields (hlaw : env.Lawful) {key : Key} {text : Str} {ep ep' : Episode}
    (hnone : ep.attrs.get? encryptedFieldsAttr = none) (h : openFields env key (some text) ep = .ok ep') :
    ep'.attrs.get? encryptedFieldsAttr ≠ some text := by
  unfold openFields at h
  dsimp only at h
  split at h
  · cases h
  · rename_i blob hblob
    split at h
    · cases h
    · rename_i opened hopen
      split at h
      · cases h
      · rename_i sensitive hdecode
        cases h
        dsimp only
        rw [SortedMap.get?_extend, hnone, Option.or_none]
        intro htext
        have hle := hlaw.inline _ _ _ _ hdecode htext
        have hlen := length_of_open_ hlaw hopen
        have := utf8Len_of_hexDecode hblob
        omega

/-- **A record that only looks sealed** is not returned as it was written. -/
theorem decrypt_looksSealed (hlaw : env.Lawful) {ep : Episode} {ks : KeyStore} (h : looksSealed ep = true) :
    (decryptStorageEpisode env ep (some ks)).1 ≠ .ok ep := by
  intro heq
  unfold looksSealed at h
  unfold decryptStorageEpisode at heq
  dsimp only at heq
  have herase : (ep.attrs.erase encryptedFieldsAttr).get? encryptedFieldsAttr = none := by
    rw [SortedMap.get?_erase, if_pos rfl]
  split at heq
  · rename_i hneither
    rw [Bool.and_eq_true, Bool.not_eq_true', Option.isNone_iff_eq_none] at hneither
    rw [hneither.1, SortedMap.contains, hneither.2] at h
    cases h
  · split at heq
    · rename_i hks
      have hep : shreddedEpisode { ep with attrs := ep.attrs.erase encryptedFieldsAttr } = ep := Except.ok.inj heq
      rw [← hep] at h
      have hattr : (shreddedEpisode { ep with attrs := ep.attrs.erase encryptedFieldsAttr }).attrs.contains
          encryptedFieldsAttr = false := by
        rw [SortedMap.contains, shreddedEpisode, SortedMap.get?_insert, if_neg shreddedAttr_ne, SortedMap.get?_filter,
          encryptedFieldsAttr_not_public]
        rfl
      rw [hattr, Bool.or_false] at h
      exact absurd (h.symm.trans isEncrypted_shredded) nofun
    · rename_i key ks' hks
      obtain ⟨mid, hcontent, hfields⟩ := ok_of_bind heq
      cases hsealed : isEncrypted ep.content with
      | true =>
        have hne := fun hs => content_of_openContent hlaw hs hcontent
        exact hne hsealed (content_of_openFields hfields).symm
      | false =>
        rw [hsealed, Bool.false_or, SortedMap.contains, Option.isSome_iff_exists] at h
        obtain ⟨text, htext⟩ := h
        unfold openContent at hcontent
        rw [if_neg (by rw [hsealed]; nofun)] at hcontent
        cases hcontent
        rw [htext] at hfields
        exact attrs_of_openFields hlaw herase hfields htext

/-! ## The log and what its clients did -/

/-- What became of a record: written without a key store; under the key its agent has; under one that was destroyed; under
one that was destroyed and replaced. -/
inductive Fate where
  | plain | kept | forgotten | rekeyed
  deriving DecidableEq

structure Written where
  episode : Episode
  fate : Fate

def Written.forget (agentId : Str) (r : Written) : Written :=
  if r.episode.agentId = agentId ∧ r.fate ≠ .plain then { r with fate := .forgotten } else r

def Written.rekey (agentId : Str) (r : Written) : Written :=
  if r.episode.agentId = agentId ∧ r.fate = .forgotten then { r with fate := .rekeyed } else r

/-- What a read owes: the episode, or its tombstone once the agent was shredded. -/
def Written.expected (r : Written) : Episode :=
  match r.fate with
  | .plain | .kept => r.episode
  | .forgotten | .rekeyed => shreddedEpisode r.episode

structure World where
  log : Log
  written : List Written

inductive Action where
  | append (opaqueMeta : Bytes) (episode : Episode) (draws : Draws)
  | shred (agentId : Str)
  | read (lsn : Nat)
  | reopen

def Action.draw? : Action → Option Key
  | .append _ _ draws => some draws.key
  | _ => none

variable (env) in
/-- An append that gets a key replaces a destroyed one. -/
def World.append (w : World) (opaqueMeta : Bytes) (episode : Episode) (draws : Draws) : World :=
  let keyed := w.log.keystore.any (fun ks => (ks.getOrCreate episode.agentId draws.key).1.toBool)
  let written := if keyed then w.written.map (Written.rekey episode.agentId) else w.written
  let fate := if w.log.keystore.isSome then .kept else .plain
  match w.log.append env opaqueMeta episode draws with
  | (.error _, log) => { log := log, written := written }
  | (.ok _, log) => { log := log, written := written ++ [⟨episode, fate⟩] }

variable (env) in
def World.step (w : World) : Action → World
  | .append opaqueMeta episode draws => w.append env opaqueMeta episode draws
  | .shred agentId =>
    { log := { w.log with keystore := w.log.keystore.map (fun ks => (ks.shred agentId).2) }
      written := if w.log.keystore.isSome then w.written.map (Written.forget agentId) else w.written }
  | .read lsn => { w with log := (w.log.read env lsn).2 }
  | .reopen => { w with log := { w.log with keystore := w.log.keystore.map (fun ks => .openDir ks.dir) } }

/-- No draw is used without a key store. -/
def noDraws : Draws := ⟨Digest.replicate 0, ⟨List.replicate 12 0, rfl⟩, ⟨List.replicate 12 0, rfl⟩⟩

variable (env) in
/-- A log with the records that were written before there was a key store, opened with one. -/
def World.start (files : SortedMap Str Bytes) (earlier : List (Bytes × Episode)) : World :=
  let w := earlier.foldl (fun (w : World) e => w.append env e.1 e.2 noDraws) { log := ⟨[], none⟩, written := [] }
  { w with log := { w.log with keystore := some (.openDir files) } }

/-- **Every read answers what was written.** -/
def World.ReadsAsWritten (env : Env) (w : World) : Prop :=
  ∀ lsn, (w.log.read env lsn).1 = .ok (w.written[lsn]?.map Written.expected)

/-- Written before the encryption it does not look sealed; its agent has not appended since it was forgotten. -/
def Written.Settled (r : Written) : Prop :=
  (r.fate = .plain → looksSealed r.episode = false) ∧ r.fate ≠ .rekeyed

/-- The random keys are new and all different. -/
def FreshDraws (files : SortedMap Str Bytes) (acts : List Action) : Prop :=
  (acts.filterMap Action.draw?).Nodup ∧
    ∀ k ∈ acts.filterMap Action.draw?, ∀ path, KeyStore.readKey files path ≠ some k

/-! ## What holds in any run -/

/-- The keys there were: in the directory at first, or drawn since. -/
def KeysSeen (files : SortedMap Str Bytes) (acts : List Action) (k : Key) : Prop :=
  (∃ path, KeyStore.readKey files path = some k) ∨ k ∈ acts.filterMap Action.draw?

/-- The key the agent has now, for a record sealed under `k`. -/
def KeyStands (fresh : Prop) (k : Key) (current : Option Key) : Fate → Prop
  | .plain => False
  | .kept => current = some k
  | .forgotten => current = none
  | .rekeyed => fresh → ∃ k', current = some k' ∧ k ≠ k'

/-- A payload and the record it is of. -/
def Stored (env : Env) (seen : Key → Prop) (fresh : Prop) (current : Str → Option Key) (payload : Bytes) (r : Written) :
    Prop :=
  (r.fate = .plain ∧ ∃ opaqueMeta, env.decodePayload payload = .ok ⟨r.episode, opaqueMeta⟩) ∨
    ∃ opaqueMeta k n₁ n₂ enc, env.decodePayload payload = .ok ⟨sealEpisode env k n₁ n₂ enc r.episode, opaqueMeta⟩ ∧
      env.decodeSensitive enc = .ok (sensitiveFields r.episode) ∧ seen k ∧
      KeyStands fresh k (current r.episode.agentId) r.fate

structure World.Inv (env : Env) (files : SortedMap Str Bytes) (acts : List Action) (w : World) (ks : KeyStore) : Prop where
  keystore : w.log.keystore = some ks
  coherent : ks.Coherent
  seen : ∀ agent k, ks.current agent = some k → KeysSeen files acts k
  stored : List.Forall₂ (Stored env (KeysSeen files acts) (FreshDraws files acts) ks.current) w.log.payloads w.written

variable {seen seen' : Key → Prop} {fresh fresh' : Prop} {current current' : Str → Option Key} {payload : Bytes}
  {r : Written} {agent : Str}

theorem Stored.mono (h : Stored env seen fresh current payload r) (hseen : ∀ k, seen k → seen' k) (hfresh : fresh' → fresh)
    (hcurrent : current' r.episode.agentId = current r.episode.agentId) :
    Stored env seen' fresh' current' payload r := by
  rcases h with h | ⟨opaqueMeta, k, n₁, n₂, enc, hpayload, henc, hk, hstands⟩
  · exact .inl h
  · refine .inr ⟨opaqueMeta, k, n₁, n₂, enc, hpayload, henc, hseen k hk, ?_⟩
    rw [hcurrent]
    cases hfate : r.fate with
    | rekeyed =>
      rw [hfate] at hstands
      exact fun hf => hstands (hfresh hf)
    | _ => rwa [hfate] at hstands

/-- **A shred** turns the sealed records of its agent into forgotten ones. -/
theorem Stored.forget (h : Stored env seen fresh current payload r)
    (hcurrent : ∀ b, current' b = if b = agent then none else current b) :
    Stored env seen fresh current' payload (r.forget agent) := by
  unfold Written.forget
  split
  · rename_i hr
    rcases h with h | ⟨opaqueMeta, k, n₁, n₂, enc, hpayload, henc, hk, -⟩
    · exact absurd h.1 hr.2
    · refine .inr ⟨opaqueMeta, k, n₁, n₂, enc, hpayload, henc, hk, ?_⟩
      dsimp only
      rw [hcurrent, if_pos hr.1]
      rfl
  · rename_i hr
    by_cases hplain : r.fate = .plain
    · rcases h with h | ⟨opaqueMeta, k, n₁, n₂, enc, -, -, -, hstands⟩
      · exact .inl h
      · rw [hplain] at hstands
        cases hstands
    · have hne : r.episode.agentId ≠ agent := fun heq => hr ⟨heq, hplain⟩
      exact h.mono (fun _ hk => hk) id (by rw [hcurrent, if_neg hne])

/-- **An append** turns the forgotten records of its agent into records under a replaced key. -/
theorem Stored.rekey {key : Key} (h : Stored env seen fresh current payload r) (hseen : ∀ k, seen k → seen' k)
    (hfresh : fresh' → fresh) (hother : ∀ b, b ≠ agent → current' b = current b) (hkey : current' agent = some key)
    (hbefore : current agent = some key ∨ (current agent = none ∧ (fresh' → ¬seen key))) :
    Stored env seen' fresh' current' payload (r.rekey agent) := by
  by_cases hr : r.episode.agentId = agent
  swap
  · unfold Written.rekey
    rw [if_neg (fun h => hr h.1)]
    exact h.mono hseen hfresh (hother _ hr)
  rcases hbefore with hsame | ⟨hnone, hnew⟩
  · -- the agent has its key: nothing of it is forgotten
    have hnot : ¬(r.episode.agentId = agent ∧ r.fate = .forgotten) := by
      rintro ⟨-, hfate⟩
      rcases h with h | ⟨-, k, -, -, -, -, -, -, hstands⟩
      · rw [h.1] at hfate
        cases hfate
      · rw [hfate, hr, hsame] at hstands
        cases hstands
    unfold Written.rekey
    rw [if_neg hnot]
    exact h.mono hseen hfresh (by rw [hr, hkey, hsame])
  · rcases h with h | ⟨opaqueMeta, k, n₁, n₂, enc, hpayload, henc, hk, hstands⟩
    · unfold Written.rekey
      rw [if_neg (fun hfate => by rw [h.1] at hfate; cases hfate.2)]
      exact .inl h
    · rw [hr, hnone] at hstands
      have hreplaced : fresh' → ∃ k', some key = some k' ∧ k ≠ k' :=
        fun hf => ⟨key, rfl, fun heq => hnew hf (heq ▸ hk)⟩
      cases hfate : r.fate with
      | plain =>
        rw [hfate] at hstands
        cases hstands
      | kept =>
        rw [hfate] at hstands
        cases hstands
      | forgotten =>
        unfold Written.rekey
        rw [if_pos ⟨hr, hfate⟩]
        refine .inr ⟨opaqueMeta, k, n₁, n₂, enc, hpayload, henc, hseen k hk, ?_⟩
        dsimp only
        rw [hr, hkey]
        exact hreplaced
      | rekeyed =>
        unfold Written.rekey
        rw [if_neg (fun h => by rw [hfate] at h; cases h.2)]
        refine .inr ⟨opaqueMeta, k, n₁, n₂, enc, hpayload, henc, hseen k hk, ?_⟩
        rw [hr, hkey, hfate]
        exact hreplaced

variable (env) in
/-- What an append does, by the key it gets and by what is serialised. -/
theorem World.append_cases {w : World} {ks : KeyStore} (hks : w.log.keystore = some ks) (opaqueMeta : Bytes) (ep : Episode)
    (draws : Draws) :
    ((∃ e, (ks.getOrCreate ep.agentId draws.key).1 = .error e) ∧
      w.append env opaqueMeta ep draws
        = ⟨⟨w.log.payloads, some (ks.getOrCreate ep.agentId draws.key).2⟩, w.written⟩) ∨
    ∃ key, (ks.getOrCreate ep.agentId draws.key).1 = .ok key ∧
      (w.append env opaqueMeta ep draws
          = ⟨⟨w.log.payloads, some (ks.getOrCreate ep.agentId draws.key).2⟩, w.written.map (Written.rekey ep.agentId)⟩ ∨
        ∃ enc payload, env.encodeSensitive (sensitiveFields ep) = .ok enc ∧
          env.encodePayload ⟨sealEpisode env key draws.contentNonce draws.fieldsNonce enc ep, opaqueMeta⟩ = .ok payload ∧
          w.append env opaqueMeta ep draws
            = ⟨⟨w.log.payloads ++ [payload], some (ks.getOrCreate ep.agentId draws.key).2⟩,
                w.written.map (Written.rekey ep.agentId) ++ [⟨ep, .kept⟩]⟩) := by
  obtain ⟨⟨payloads, keystore⟩, written⟩ := w
  cases hks
  unfold World.append Log.append encodeStoragePayload
  dsimp only
  rw [Option.any_some, Option.isSome_some]
  rcases hget : ks.getOrCreate ep.agentId draws.key with ⟨e | key, ks'⟩
  · exact .inl ⟨⟨e, rfl⟩, rfl⟩
  · refine .inr ⟨key, rfl, ?_⟩
    dsimp only
    cases henc : env.encodeSensitive (sensitiveFields ep) with
    | error e => exact .inl rfl
    | ok enc =>
      dsimp only
      cases hpayload : env.encodePayload ⟨sealEpisode env key draws.contentNonce draws.fieldsNonce enc ep, opaqueMeta⟩ with
      | error e => exact .inl rfl
      | ok payload => exact .inr ⟨enc, payload, rfl, hpayload, rfl⟩

variable {files : SortedMap Str Bytes} {acts : List Action} {w : World} {ks : KeyStore}

theorem KeysSeen.snoc {k : Key} (h : KeysSeen files acts k) (a : Action) : KeysSeen files (acts ++ [a]) k :=
  h.imp id fun h => by
    rw [List.filterMap_append]
    exact List.mem_append_left _ h

theorem FreshDraws.init {a : Action} (h : FreshDraws files (acts ++ [a])) : FreshDraws files acts := by
  unfold FreshDraws at h
  rw [List.filterMap_append] at h
  exact ⟨(List.nodup_append.1 h.1).1, fun k hk => h.2 k (List.mem_append_left _ hk)⟩

/-- A fresh draw is no key there was. -/
theorem FreshDraws.not_seen {opaqueMeta : Bytes} {ep : Episode} {draws : Draws}
    (h : FreshDraws files (acts ++ [.append opaqueMeta ep draws])) : ¬KeysSeen files acts draws.key := by
  unfold FreshDraws at h
  rw [List.filterMap_append] at h
  rintro (⟨path, hpath⟩ | hdrawn)
  · exact h.2 _ (List.mem_append_right _ List.mem_cons_self) path hpath
  · exact (List.nodup_append.1 h.1).2.2 _ hdrawn _ List.mem_cons_self rfl

/-- Every record is rewritten, one by one. -/
theorem forall₂_map_right {α β : Type} {R S : α → β → Prop} {f : β → β} {l : List α} {l' : List β}
    (h : List.Forall₂ R l l') (hf : ∀ a b, R a b → S a (f b)) : List.Forall₂ S l (l'.map f) :=
  List.forall₂_map_right_iff.2 (h.imp hf)

theorem World.Inv.append (hlaw : env.Lawful) (hw : w.Inv env files acts ks) (opaqueMeta : Bytes) (ep : Episode)
    (draws : Draws) : ∃ ks', (w.append env opaqueMeta ep draws).Inv env files
      (acts ++ [.append opaqueMeta ep draws]) ks' := by
  obtain ⟨hcoherent, hcases⟩ := KeyStore.getOrCreate_spec hw.coherent ep.agentId draws.key
  have hinit : FreshDraws files (acts ++ [.append opaqueMeta ep draws]) → FreshDraws files acts := FreshDraws.init
  have hsnoc : ∀ k, KeysSeen files acts k → KeysSeen files (acts ++ [.append opaqueMeta ep draws]) k :=
    fun k hk => hk.snoc _
  have hdrawn : KeysSeen files (acts ++ [.append opaqueMeta ep draws]) draws.key := by
    refine .inr ?_
    rw [List.filterMap_append]
    exact List.mem_append_right _ List.mem_cons_self
  refine ⟨(ks.getOrCreate ep.agentId draws.key).2, ?_⟩
  have hcurrent : ∀ b, (ks.getOrCreate ep.agentId draws.key).2.dir = ks.dir →
      (ks.getOrCreate ep.agentId draws.key).2.current b = ks.current b := fun b hdir => by
    rw [KeyStore.current, hdir]
    rfl
  -- the keys after the append, when it gets one
  have hkeyed : ∀ key, (ks.getOrCreate ep.agentId draws.key).1 = .ok key →
      (ks.getOrCreate ep.agentId draws.key).2.current ep.agentId = some key ∧
      (∀ b, b ≠ ep.agentId → (ks.getOrCreate ep.agentId draws.key).2.current b = ks.current b) ∧
      (ks.current ep.agentId = some key ∨ (ks.current ep.agentId = none ∧ key = draws.key)) := fun key hkey => by
    rcases hcases with ⟨k, hk, hok, hdir⟩ | ⟨-, ⟨e, he⟩, -⟩ | ⟨hnone, hok, hdir⟩
    · rw [hok, Except.ok.injEq] at hkey
      subst hkey
      exact ⟨(hcurrent _ hdir).trans hk, fun b _ => hcurrent b hdir, .inl hk⟩
    · rw [he] at hkey
      cases hkey
    · rw [hok, Except.ok.injEq] at hkey
      subst hkey
      refine ⟨?_, fun b hb => ?_, .inr ⟨hnone, rfl⟩⟩
      · rw [KeyStore.current, hdir, KeyStore.readKey_insert, if_pos rfl]
      · rw [KeyStore.current, hdir, KeyStore.readKey_insert, if_neg hb]
        rfl
  rcases World.append_cases env hw.keystore opaqueMeta ep draws with ⟨⟨e, he⟩, heq⟩ | ⟨key, hkey, happ⟩
  · rcases hcases with ⟨k, -, hok, -⟩ | ⟨-, -, hsame⟩ | ⟨-, hok, -⟩
    · rw [he] at hok
      cases hok
    · rw [heq, hsame]
      exact ⟨rfl, hw.coherent, fun a k hk => hsnoc k (hw.seen a k hk), hw.stored.imp fun _ _ h => h.mono hsnoc hinit rfl⟩
    · rw [he] at hok
      cases hok
  · obtain ⟨hnow, hother, hbefore⟩ := hkeyed key hkey
    have hkeySeen : KeysSeen files (acts ++ [.append opaqueMeta ep draws]) key :=
      hbefore.elim (fun h => hsnoc key (hw.seen _ _ h)) (fun h => h.2 ▸ hdrawn)
    have hseen : ∀ agent k, (ks.getOrCreate ep.agentId draws.key).2.current agent = some k →
        KeysSeen files (acts ++ [.append opaqueMeta ep draws]) k := fun agent k hk => by
      by_cases hagent : agent = ep.agentId
      · rw [hagent, hnow, Option.some.injEq] at hk
        exact hk ▸ hkeySeen
      · rw [hother agent hagent] at hk
        exact hsnoc k (hw.seen agent k hk)
    have hnew : ks.current ep.agentId = some key ∨ (ks.current ep.agentId = none ∧
        (FreshDraws files (acts ++ [.append opaqueMeta ep draws]) → ¬KeysSeen files acts key)) :=
      hbefore.elim .inl fun hb => .inr ⟨hb.1, fun hf => hb.2 ▸ hf.not_seen⟩
    have hrekey := forall₂_map_right hw.stored fun payload r h => h.rekey hsnoc hinit hother hnow hnew
    rcases happ with heq | ⟨enc, payload, henc, hpayload, heq⟩
    · rw [heq]
      exact ⟨rfl, hcoherent, hseen, hrekey⟩
    · rw [heq]
      refine ⟨rfl, hcoherent, hseen, List.rel_append hrekey (.cons ?_ .nil)⟩
      exact .inr ⟨opaqueMeta, key, draws.contentNonce, draws.fieldsNonce, enc, hlaw.payload _ _ hpayload,
        hlaw.sensitive _ _ henc, hkeySeen, hnow⟩

/-- **One action** of the clients. -/
theorem World.Inv.step (hlaw : env.Lawful) (hw : w.Inv env files acts ks) (a : Action) :
    ∃ ks', (w.step env a).Inv env files (acts ++ [a]) ks' := by
  have hsnoc : ∀ k, KeysSeen files acts k → KeysSeen files (acts ++ [a]) k := fun k hk => hk.snoc a
  -- what leaves the files alone leaves everything
  have hsame : ∀ ks' : KeyStore, ks'.dir = ks.dir → ks'.Coherent →
      World.Inv env files (acts ++ [a]) ⟨⟨w.log.payloads, some ks'⟩, w.written⟩ ks' := fun ks' hdir hcoherent => by
    have hcurrent : ks'.current = ks.current := by
      funext b
      rw [KeyStore.current, hdir]
      rfl
    refine ⟨rfl, hcoherent, fun agent k hk => hsnoc k (hw.seen agent k (hcurrent ▸ hk)), ?_⟩
    exact hw.stored.imp fun _ _ h => h.mono hsnoc FreshDraws.init (by rw [hcurrent])
  cases a with
  | append opaqueMeta ep draws => exact hw.append hlaw opaqueMeta ep draws
  | shred agentId =>
    obtain ⟨hcoherent, hcurrent⟩ := KeyStore.shred_spec hw.coherent agentId
    refine ⟨(ks.shred agentId).2, ?_⟩
    unfold World.step
    dsimp only
    rw [hw.keystore]
    refine ⟨rfl, hcoherent, fun agent k hk => ?_, forall₂_map_right hw.stored fun payload r h => ?_⟩
    · rw [hcurrent] at hk
      split at hk
      · cases hk
      · exact hsnoc k (hw.seen agent k hk)
    · exact (h.forget hcurrent).mono hsnoc FreshDraws.init rfl
  | read lsn =>
    unfold World.step Log.read
    dsimp only
    have hrefl := hsame ks rfl hw.coherent
    rw [← hw.keystore] at hrefl
    split
    · exact ⟨ks, hrefl⟩
    · split
      · exact ⟨ks, hrefl⟩
      · rename_i stored _
        dsimp only
        rw [hw.keystore]
        obtain ⟨-, hdir, hcoherent⟩ := KeyStore.get_spec hw.coherent stored.agentId
        unfold decryptStorageEpisode
        dsimp only
        split
        · exact ⟨ks, hsame ks rfl hw.coherent⟩
        · split
          · rename_i ks' heq
            rw [heq] at hdir hcoherent
            exact ⟨ks', hsame ks' hdir hcoherent⟩
          · rename_i ks' heq
            rw [heq] at hdir hcoherent
            exact ⟨ks', hsame ks' hdir hcoherent⟩
  | reopen =>
    refine ⟨.openDir ks.dir, ?_⟩
    unfold World.step
    dsimp only
    rw [hw.keystore]
    exact hsame (.openDir ks.dir) rfl (KeyStore.coherent_openDir ks.dir)

/-- The records of a log without a key store are all plain. -/
theorem World.plain_earlier (hlaw : env.Lawful) (current : Str → Option Key) : ∀ (earlier : List (Bytes × Episode)) (w : World),
    w.log.keystore = none → List.Forall₂ (Stored env seen fresh current) w.log.payloads w.written →
    List.Forall₂ (Stored env seen fresh current)
      (earlier.foldl (fun (w : World) e => w.append env e.1 e.2 noDraws) w).log.payloads
      (earlier.foldl (fun (w : World) e => w.append env e.1 e.2 noDraws) w).written
  | [], _, _, h => h
  | (opaqueMeta, ep) :: earlier, ⟨⟨payloads, _⟩, written⟩, rfl, h => by
    rw [List.foldl_cons]
    have happ : World.append env ⟨⟨payloads, none⟩, written⟩ opaqueMeta ep noDraws = ⟨⟨payloads, none⟩, written⟩ ∨
        ∃ payload, env.encodePayload ⟨ep, opaqueMeta⟩ = .ok payload ∧
          World.append env ⟨⟨payloads, none⟩, written⟩ opaqueMeta ep noDraws
            = ⟨⟨payloads ++ [payload], none⟩, written ++ [⟨ep, .plain⟩]⟩ := by
      unfold World.append Log.append encodeStoragePayload
      dsimp only
      cases hpayload : env.encodePayload ⟨ep, opaqueMeta⟩ with
      | error e => exact .inl rfl
      | ok payload => exact .inr ⟨payload, rfl, rfl⟩
    rcases happ with heq | ⟨payload, hpayload, heq⟩
    · rw [heq]
      exact World.plain_earlier hlaw current earlier _ rfl h
    · rw [heq]
      refine World.plain_earlier hlaw current earlier _ rfl (List.rel_append h (.cons ?_ .nil))
      exact .inl ⟨rfl, opaqueMeta, hlaw.payload _ _ hpayload⟩

theorem World.inv_start (hlaw : env.Lawful) (files : SortedMap Str Bytes) (earlier : List (Bytes × Episode)) :
    (World.start env files earlier).Inv env files [] (.openDir files) :=
  ⟨rfl, KeyStore.coherent_openDir files, fun _ _ hk => .inl ⟨_, hk⟩, World.plain_earlier hlaw _ earlier _ rfl .nil⟩

/-- **What a read answers** about a record, in a state that a run reaches. -/
theorem Stored.read_iff (hlaw : env.Lawful) (hcoherent : ks.Coherent)
    (h : Stored env seen fresh ks.current payload r) {stored : StoragePayload}
    (hstored : env.decodePayload payload = .ok stored) :
    (r.Settled → (decryptStorageEpisode env stored.toEpisode (some ks)).1 = .ok r.expected) ∧
      (fresh → (decryptStorageEpisode env stored.toEpisode (some ks)).1 = .ok r.expected → r.Settled) := by
  rcases h with ⟨hplain, opaqueMeta, hdecode⟩ | ⟨opaqueMeta, k, n₁, n₂, enc, hdecode, henc, -, hstands⟩
  · rw [hdecode, Except.ok.injEq] at hstored
    subst hstored
    have hexpected : r.expected = r.episode := by rw [Written.expected, hplain]
    rw [hexpected]
    refine ⟨fun hr => decrypt_plain (hr.1 hplain), fun _ hread => ⟨fun _ => ?_, by rw [hplain]; nofun⟩⟩
    cases hlooks : looksSealed r.episode with
    | false => rfl
    | true => exact absurd hread (decrypt_looksSealed hlaw hlooks)
  · rw [hdecode, Except.ok.injEq] at hstored
    subst hstored
    have hget := (KeyStore.get_spec hcoherent r.episode.agentId).1
    cases hfate : r.fate with
    | plain =>
      rw [hfate] at hstands
      cases hstands
    | kept =>
      rw [hfate] at hstands
      have hexpected : r.expected = r.episode := by rw [Written.expected, hfate]
      rw [hexpected]
      exact ⟨fun _ => decrypt_kept k n₁ n₂ enc r.episode hlaw henc (hget.trans hstands),
        fun _ _ => ⟨by rw [hfate]; nofun, by rw [hfate]; nofun⟩⟩
    | forgotten =>
      rw [hfate] at hstands
      have hexpected : r.expected = shreddedEpisode r.episode := by rw [Written.expected, hfate]
      rw [hexpected]
      exact ⟨fun _ => decrypt_forgotten k n₁ n₂ enc r.episode (hget.trans hstands),
        fun _ _ => ⟨by rw [hfate]; nofun, by rw [hfate]; nofun⟩⟩
    | rekeyed =>
      rw [hfate] at hstands
      refine ⟨fun hr => absurd hfate hr.2, fun hf hread => ?_⟩
      obtain ⟨k', hk', hne⟩ := hstands hf
      rw [decrypt_rekeyed k n₁ n₂ enc r.episode hlaw hne (hget.trans hk')] at hread
      cases hread

/-- **Every run**, from any directory of key files and any records from before. -/
theorem World.inv_run (hlaw : env.Lawful) (files : SortedMap Str Bytes) (earlier : List (Bytes × Episode))
    (acts : List Action) : ∃ ks, (acts.foldl (World.step env) (.start env files earlier)).Inv env files acts ks := by
  induction acts using List.reverseRecOn with
  | nil => exact ⟨_, World.inv_start hlaw files earlier⟩
  | append_singleton acts a ih =>
    obtain ⟨ks, hw⟩ := ih
    rw [List.foldl_append, List.foldl_cons, List.foldl_nil]
    exact hw.step hlaw a

/-- The read of a record, and past the end. -/
theorem World.Inv.read (hw : w.Inv env files acts ks) (lsn : Nat) :
    (w.log.payloads[lsn]? = none ∧ w.written[lsn]? = none ∧ (w.log.read env lsn).1 = .ok none) ∨
    ∃ payload r stored, w.written[lsn]? = some r ∧
      Stored env (KeysSeen files acts) (FreshDraws files acts) ks.current payload r ∧
      env.decodePayload payload = .ok stored ∧
      (w.log.read env lsn).1 = (decryptStorageEpisode env stored.toEpisode (some ks)).1.map some := by
  have hlen := hw.stored.length_eq
  unfold Log.read
  cases hpayload : w.log.payloads[lsn]? with
  | none =>
    rw [List.getElem?_eq_none_iff, hlen] at hpayload
    exact .inl ⟨rfl, List.getElem?_eq_none hpayload, rfl⟩
  | some payload =>
    obtain ⟨hlt, rfl⟩ := List.getElem?_eq_some_iff.1 hpayload
    have hstored := (List.forall₂_iff_get.1 hw.stored).2 lsn hlt (hlen ▸ hlt)
    have hdecode : ∃ stored, env.decodePayload w.log.payloads[lsn] = .ok stored := by
      rcases hstored with ⟨-, _, h⟩ | ⟨_, _, _, _, _, h, -⟩
      · exact ⟨_, h⟩
      · exact ⟨_, h⟩
    obtain ⟨stored, hdecode⟩ := hdecode
    refine .inr ⟨_, w.written.get ⟨lsn, hlen ▸ hlt⟩, stored, List.getElem?_eq_getElem _, hstored, hdecode, ?_⟩
    dsimp only
    rw [hdecode, hw.keystore]

/-- **Every read answers what was written** when no record before the encryption looks sealed and no forgotten agent has
appended since; and, with keys that never repeat, only then. -/
theorem reads_as_written_iff (hlaw : env.Lawful) (files : SortedMap Str Bytes) (earlier : List (Bytes × Episode))
    (acts : List Action) : let w := acts.foldl (World.step env) (.start env files earlier)
    ((∀ r ∈ w.written, r.Settled) → w.ReadsAsWritten env) ∧
      (FreshDraws files acts → w.ReadsAsWritten env → ∀ r ∈ w.written, r.Settled) := by
  obtain ⟨ks, hw⟩ := World.inv_run hlaw files earlier acts
  constructor
  · intro hsettled lsn
    rcases hw.read lsn with ⟨-, hnone, hread⟩ | ⟨payload, r, stored, hr, hstored, hdecode, hread⟩
    · rw [hread, hnone]
      rfl
    · rw [hread, hr, (hstored.read_iff hlaw hw.coherent hdecode).1 (hsettled r (List.mem_of_getElem? hr))]
      rfl
  · intro hfresh hreads r hr
    obtain ⟨lsn, hlsn⟩ := List.getElem?_of_mem hr
    rcases hw.read lsn with ⟨-, hnone, -⟩ | ⟨payload, r', stored, hr', hstored, hdecode, hread⟩
    · rw [hnone] at hlsn
      cases hlsn
    · cases hr'.symm.trans hlsn
      have := hreads lsn
      rw [hread, hr'] at this
      refine (hstored.read_iff hlaw hw.coherent hdecode).2 hfresh ?_
      cases hep : (decryptStorageEpisode env stored.toEpisode (some ks)).1 with
      | error e =>
        rw [hep] at this
        cases this
      | ok ep =>
        rw [hep] at this
        cases this
        rfl

/-! ## Two agents -/

def bytesOf (n : Nat) : Key := Digest.replicate (UInt8.ofNat n)
def sampleNonce : Nonce := ⟨List.replicate 12 7, rfl⟩
def sampleDraws (n : Nat) : Draws := ⟨bytesOf n, sampleNonce, sampleNonce⟩

/-- A cipher that hides nothing, with the key as its tag. -/
def tagEncrypt (key : Key) (_ : Nonce) (msg _ : Bytes) : Bytes := msg ++ key.1

def tagDecrypt (key : Key) (_ : Nonce) (ct _ : Bytes) : Option Bytes :=
  if ct.drop (ct.length - 32) = key.1 then some (ct.take (ct.length - 32)) else none

/-- No attribute and no embedding. -/
def bareFields : SensitiveFields := ⟨.empty, none⟩

def sampleMeta : Bytes := List.replicate 16 0

def sampleEpisode (agentId : String) (content : Bytes) : Episode := .new 0 agentId.toList .observation content

/-- What is stored of an episode without sensitive fields, under the key `n`. -/
def sampleStored (n : Nat) (ep : Episode) : StoragePayload :=
  ⟨sealEpisode ⟨tagEncrypt, tagDecrypt, fun _ => .error "", fun _ => .error "", fun _ => .error "", fun _ => .error ""⟩
    (bytesOf n) sampleNonce sampleNonce [0, 0] ep, sampleMeta⟩

/-- The ULID as text, no timestamp, the agent, no session, `Observation`, the content, and the attributes. -/
def shortPayload (p : StoragePayload) : Bytes :=
  p.opaqueMeta ++ 26 :: List.replicate 26 0x30 ++ UInt8.ofNat p.agentId.length :: asBytes p.agentId ++ [0, 0, 0] ++
    UInt8.ofNat p.content.length :: p.content ++ 0 :: UInt8.ofNat p.attrs.entries.length ::
    p.attrs.entries.flatMap (fun e => UInt8.ofNat e.1.length :: asBytes e.1 ++ UInt8.ofNat e.2.length :: asBytes e.2) ++
    [0, 0, 0]

/-- Content from before the encryption that starts like a sealed blob. -/
def disguised : Episode := sampleEpisode "a" (encMagic ++ List.replicate 12 0)

def samplePayloads : List StoragePayload :=
  [⟨sampleEpisode "a" [120], sampleMeta⟩, ⟨disguised, sampleMeta⟩, sampleStored 1 (sampleEpisode "a" [120]),
    sampleStored 2 (sampleEpisode "a" [121]), sampleStored 3 (sampleEpisode "b" [122])]

def sampleEnv : Env where
  encrypt := tagEncrypt
  decrypt := tagDecrypt
  encodePayload p := if p ∈ samplePayloads then .ok (shortPayload p) else .error "not a sample"
  decodePayload b := (samplePayloads.find? (fun p => shortPayload p = b)).elim (.error "UnexpectedEnd") .ok
  encodeSensitive f := if f = bareFields then .ok [0, 0] else .error "not a sample"
  decodeSensitive b := if b = [0, 0] then .ok bareFields else .error "UnexpectedEnd"

theorem tagDecrypt_tagEncrypt (k k' : Key) (n : Nonce) (m a : Bytes) :
    tagDecrypt k' n (tagEncrypt k n m a) a = if k = k' then some m else none := by
  have hlen : (m ++ k.1).length - 32 = m.length := by
    rw [List.length_append, k.2, Nat.add_sub_cancel]
  unfold tagDecrypt tagEncrypt
  rw [hlen, List.drop_left, List.take_left]
  simp only [Subtype.ext_iff]

theorem sampleEnv_lawful : sampleEnv.Lawful where
  opens k n m a := (tagDecrypt_tagEncrypt k k n m a).trans (if_pos rfl)
  wrongKey k k' n m a hne := (tagDecrypt_tagEncrypt k k' n m a).trans (if_neg hne)
  shorter k n ct a m h := by
    change tagDecrypt k n ct a = some m at h
    unfold tagDecrypt at h
    split at h
    · cases h
      rw [List.length_take]
      exact Nat.min_le_right _ _
    · cases h
  payload p b h := by
    have hall : ∀ p ∈ samplePayloads, samplePayloads.find? (fun q => shortPayload q = shortPayload p) = some p := by
      decide +kernel
    unfold sampleEnv at h ⊢
    dsimp only at h ⊢
    split at h
    · rename_i hp
      cases h
      rw [hall p hp]
      rfl
    · cases h
  sensitive f b h := by
    unfold sampleEnv at h ⊢
    dsimp only at h ⊢
    split at h
    · rename_i hf
      cases h
      rw [if_pos rfl, hf]
    · cases h
  inline b f k v h hv := by
    unfold sampleEnv at h
    dsimp only at h
    split at h
    · cases h
      cases hv
    · cases h

/-- Agent `a` writes and is forgotten; agent `b` is not. -/
def sampleActions : List Action :=
  [.append sampleMeta (sampleEpisode "a" [120]) (sampleDraws 1), .append sampleMeta (sampleEpisode "b" [122]) (sampleDraws 3),
    .shred "a".toList, .read 1, .reopen]

theorem reads_as_written_iff_sample : sampleEnv.Lawful ∧
    (sampleActions.foldl (World.step sampleEnv)
      (.start sampleEnv .empty [(sampleMeta, sampleEpisode "a" [120])])).ReadsAsWritten sampleEnv := by
  refine ⟨sampleEnv_lawful, (reads_as_written_iff sampleEnv_lawful .empty _ sampleActions).1 ?_⟩
  unfold Written.Settled
  decide +kernel

def rekeyActions : List Action :=
  [.append sampleMeta (sampleEpisode "a" [120]) (sampleDraws 1), .shred "a".toList,
    .append sampleMeta (sampleEpisode "a" [121]) (sampleDraws 2)]

/-- **A forgotten agent appends again, and its old record is an error**; and content from before the encryption that only
looks sealed is returned as a tombstone. -/
theorem reads_not_as_written : sampleEnv.Lawful ∧
    ((rekeyActions.foldl (World.step sampleEnv) (.start sampleEnv .empty [])).log.read sampleEnv 0).1
        = .error (.crypto "Assinatura inválida detectada na cifra do agente: a") ∧
    ¬(rekeyActions.foldl (World.step sampleEnv) (.start sampleEnv .empty [])).ReadsAsWritten sampleEnv ∧
    ((World.start sampleEnv .empty [(sampleMeta, disguised)]).log.read sampleEnv 0).1
        = .ok (some (shreddedEpisode disguised)) ∧
    ¬(World.start sampleEnv .empty [(sampleMeta, disguised)]).ReadsAsWritten sampleEnv := by
  refine ⟨sampleEnv_lawful, by decide +kernel, fun h => ?_, by decide +kernel, fun h => ?_⟩
  · have := h 0
    revert this
    decide +kernel
  · have := h 0
    revert this
    decide +kernel

end Crypto
end Heraclitus
