import Heraclitus.Encryption
import Heraclitus.Episode
import Heraclitus.Lib.Delimited
import Heraclitus.Lib.LittleEndian
import Heraclitus.V6Varint
/-!
# V6Canonical — the logical bytes of a record (`heraclitus-log/src/v6/canonical.rs`)

One manual codec writes a record to a sink: a buffer, or a hasher.  Whatever the sink, it is fed the same bytes
(`encodeCanonicalRecord_eq`), and these tell every field of the record, embeddings up to the canonical bits of their numbers
(`canonicalRecordBytes_eq_iff`).
-/
namespace Heraclitus
namespace V6

open Crypto (asBytes)

def domainCanonicalRecord : Bytes := asBytes "HRKL6:CANONICAL_RECORD:V1".toList

/-- The permanent tags of the kinds. -/
def tagOf : EventKind → UInt8
  | .observation => 0x01
  | .action => 0x02
  | .message => 0x03
  | .retrievalFeedback => 0x04
  | .factDerived => 0x05
  | .demotionReceipt => 0x06
  | .custom _ => 0x07
  | .systemMetric => 0x08

/-- `-0.0` is `+0.0`, and every NaN is the quiet one. -/
def canonicalF32Bits (v : F32) : UInt32 :=
  if 0x7f800000 < v.toNat % 2 ^ 31 then 0x7fc00000
  else if v.toNat % 2 ^ 31 = 0 then 0
  else v

/-- The 16 bytes of a ULID, most significant first. -/
def eventIdBytes (id : Nat) : Bytes := (leBytes 16 id).reverse

/-! ## Sinks -/

/-- Where canonical bytes go; only `put_bytes` is a sink's own. -/
structure CanonicalSink (σ : Type) where
  putBytes : σ → Bytes → σ

namespace CanonicalSink

variable {σ : Type} (out : CanonicalSink σ)

def putU8 (sink : σ) (v : UInt8) : σ := out.putBytes sink [v]
def putU64Le (sink : σ) (v : Nat) : σ := out.putBytes sink (leBytes 8 v)
def putU32Le (sink : σ) (v : UInt32) : σ := out.putBytes sink (leBytes 4 v.toNat)
def putVarint (sink : σ) (v : Nat) : σ := out.putBytes sink (V6.putVarint v)

/-- `varint(len) || bytes`. -/
def putLp (sink : σ) (bytes : Bytes) : σ := out.putBytes (out.putVarint sink bytes.length) bytes

def putStr (sink : σ) (s : Str) : σ := out.putLp sink (asBytes s)
def putF32 (sink : σ) (v : F32) : σ := out.putU32Le sink (canonicalF32Bits v)

def putOptU64 (sink : σ) : Option Nat → σ
  | some x => out.putU64Le (out.putU8 sink 1) x
  | none => out.putU8 sink 0

/-- `Vec<u8>`; a hasher that is fed piece by piece is the bytes that it was fed. -/
def vec : CanonicalSink Bytes := ⟨(· ++ ·)⟩

end CanonicalSink

/-! ## The record -/

/-- `[u8; 16]`. -/
abbrev OpaqueMeta := { b : Bytes // b.length = 16 }

structure CanonicalRecordV1 where
  lsn : Nat
  recordHlc : Nat
  opaqueMeta : OpaqueMeta
  episode : Episode

section Encode

variable {σ : Type} (out : CanonicalSink σ)

def putProductPoint (sink : σ) (p : ProductPoint) : σ :=
  let sink := p.hyp.foldl out.putF32 (out.putVarint sink p.hyp.length)
  let sink := p.sph.foldl out.putF32 (out.putVarint sink p.sph.length)
  p.euc.foldl out.putF32 (out.putVarint sink p.euc.length)

def putKind (sink : σ) (kind : EventKind) : σ :=
  let sink := out.putU8 sink (tagOf kind)
  match kind with
  | .custom name => out.putStr sink name
  | _ => sink

def putEmbedding (sink : σ) : Option ProductPoint → σ
  | some p => putProductPoint out (out.putU8 sink 1) p
  | none => out.putU8 sink 0

def encodeCanonicalRecord (record : CanonicalRecordV1) (sink : σ) : σ :=
  let ep := record.episode
  let sink := out.putU64Le sink record.lsn
  let sink := out.putU64Le sink record.recordHlc
  let sink := out.putBytes sink record.opaqueMeta.1
  let sink := out.putBytes sink (eventIdBytes ep.id)
  let sink := out.putU64Le sink ep.tsHlc
  let sink := out.putStr sink ep.agentId
  let sink := out.putStr sink ep.sessionId
  let sink := putKind out sink ep.kind
  let sink := out.putLp sink ep.content
  let sink := putEmbedding out sink ep.embedding
  let sink := out.putVarint sink ep.attrs.entries.length
  let sink := ep.attrs.entries.foldl (fun sink kv => out.putStr (out.putStr sink kv.1) kv.2) sink
  let sink := out.putVarint sink ep.parents.length
  let sink := ep.parents.foldl (fun sink p => out.putBytes sink (eventIdBytes p)) sink
  let sink := out.putOptU64 sink ep.validFrom
  out.putOptU64 sink ep.validTo

end Encode

def canonicalRecordBytes (record : CanonicalRecordV1) : Bytes := encodeCanonicalRecord .vec record []

/-- `BLAKE3(domain || record)`, the record fed to the hasher piece by piece. -/
def canonicalRecordHash (blake3 : Bytes → Digest) (record : CanonicalRecordV1) : Digest :=
  blake3 (encodeCanonicalRecord .vec record domainCanonicalRecord)

/-! ## One stream of bytes, whatever the sink -/

def lpBytes (bytes : Bytes) : Bytes := putVarint bytes.length ++ bytes
def strBytes (s : Str) : Bytes := lpBytes (asBytes s)
def f32Bytes (v : F32) : Bytes := leBytes 4 (canonicalF32Bits v).toNat
def f32sBytes (l : List F32) : Bytes := putVarint l.length ++ l.flatMap f32Bytes
def pointBytes (p : ProductPoint) : Bytes := f32sBytes p.hyp ++ f32sBytes p.sph ++ f32sBytes p.euc
def optBytes (o : Option Nat) : Bytes := o.elim [0] (fun x => 1 :: leBytes 8 x)
def embeddingBytes (o : Option ProductPoint) : Bytes := o.elim [0] (fun p => 1 :: pointBytes p)

/-- What follows the tag of a kind. -/
def nameBytes : EventKind → Bytes
  | .custom name => strBytes name
  | _ => []

def kindBytes (kind : EventKind) : Bytes := [tagOf kind] ++ nameBytes kind

def attrsBytes (attrs : List (Str × Str)) : Bytes :=
  putVarint attrs.length ++ attrs.flatMap (fun kv => strBytes kv.1 ++ strBytes kv.2)

def parentsBytes (parents : List Nat) : Bytes := putVarint parents.length ++ parents.flatMap eventIdBytes

def recordBytes (r : CanonicalRecordV1) : Bytes :=
  leBytes 8 r.lsn ++ leBytes 8 r.recordHlc ++ r.opaqueMeta.1 ++ eventIdBytes r.episode.id ++ leBytes 8 r.episode.tsHlc ++
    strBytes r.episode.agentId ++ strBytes r.episode.sessionId ++ kindBytes r.episode.kind ++ lpBytes r.episode.content ++
    embeddingBytes r.episode.embedding ++ attrsBytes r.episode.attrs.entries ++ parentsBytes r.episode.parents ++
    optBytes r.episode.validFrom ++ optBytes r.episode.validTo

/-- A sink does not see how its bytes are cut. -/
structure CanonicalSink.Lawful {σ : Type} (out : CanonicalSink σ) : Prop where
  nil : ∀ sink, out.putBytes sink [] = sink
  append : ∀ sink a b, out.putBytes (out.putBytes sink a) b = out.putBytes sink (a ++ b)

theorem CanonicalSink.vec_lawful : CanonicalSink.vec.Lawful where
  nil := List.append_nil
  append := List.append_assoc

section

variable {σ : Type} {out : CanonicalSink σ} (h : out.Lawful)
include h

theorem foldl_put {α : Type} {f : σ → α → σ} {g : α → Bytes} (hf : ∀ sink a, f sink a = out.putBytes sink (g a)) :
    ∀ (l : List α) (sink : σ), l.foldl f sink = out.putBytes sink (l.flatMap g)
  | [], sink => (h.nil sink).symm
  | a :: l, sink => by rw [List.foldl_cons, hf, foldl_put hf l, h.append, List.flatMap_cons]

theorem putStr_eq (sink : σ) (s : Str) : out.putStr sink s = out.putBytes sink (strBytes s) := h.append _ _ _

theorem putOptU64_eq (sink : σ) (o : Option Nat) : out.putOptU64 sink o = out.putBytes sink (optBytes o) := by
  cases o with
  | none => rfl
  | some x => exact h.append _ _ _

theorem putKind_eq (sink : σ) (kind : EventKind) : putKind out sink kind = out.putBytes sink (kindBytes kind) := by
  unfold kindBytes
  rw [← h.append]
  cases kind with
  | custom name => exact putStr_eq h _ name
  | _ => exact (h.nil _).symm

theorem putEmbedding_eq (sink : σ) (o : Option ProductPoint) :
    putEmbedding out sink o = out.putBytes sink (embeddingBytes o) := by
  cases o with
  | none => rfl
  | some p =>
    have hf32s : ∀ (sink : σ) (l : List F32), l.foldl out.putF32 (out.putVarint sink l.length)
        = out.putBytes sink (f32sBytes l) := fun sink l => by
      have hfold := foldl_put h (f := out.putF32) (g := f32Bytes) (fun _ _ => rfl) l
      rw [hfold, CanonicalSink.putVarint, h.append, f32sBytes]
    have happ : (1 :: pointBytes p) = [1] ++ f32sBytes p.hyp ++ f32sBytes p.sph ++ f32sBytes p.euc := by
      simp [pointBytes]
    show putProductPoint out (out.putU8 sink 1) p = out.putBytes sink (1 :: pointBytes p)
    rw [happ, ← h.append, ← h.append, ← h.append, ← hf32s, ← hf32s, ← hf32s]
    rfl

/-- **Every sink is fed the same bytes.** -/
theorem encodeCanonicalRecord_eq (r : CanonicalRecordV1) (sink : σ) :
    encodeCanonicalRecord out r sink = out.putBytes sink (recordBytes r) := by
  have hattrs : ∀ sink, r.episode.attrs.entries.foldl (fun sink kv => out.putStr (out.putStr sink kv.1) kv.2) sink
      = out.putBytes sink (r.episode.attrs.entries.flatMap (fun kv => strBytes kv.1 ++ strBytes kv.2)) :=
    foldl_put h (fun sink kv => by rw [putStr_eq h, putStr_eq h, h.append]) _
  have hparents : ∀ sink, r.episode.parents.foldl (fun sink p => out.putBytes sink (eventIdBytes p)) sink
      = out.putBytes sink (r.episode.parents.flatMap eventIdBytes) := foldl_put h (fun _ _ => rfl) _
  have hlp : ∀ sink bytes, out.putLp sink bytes = out.putBytes sink (lpBytes bytes) := fun _ _ => h.append _ _ _
  unfold encodeCanonicalRecord recordBytes attrsBytes parentsBytes
  simp only [hattrs, hparents]
  simp only [CanonicalSink.putU64Le, CanonicalSink.putVarint, hlp, putStr_eq h, putOptU64_eq h, putKind_eq h,
    putEmbedding_eq h, h.append, List.append_assoc]

end

theorem canonicalRecordBytes_eq (r : CanonicalRecordV1) : canonicalRecordBytes r = recordBytes r :=
  encodeCanonicalRecord_eq CanonicalSink.vec_lawful r []

/-! ## Every part says where it ends -/

theorem delimited_varint : Delimited (· < 2 ^ 64) id putVarint := by
  intro a b x y ha hb
  constructor
  · intro h
    have hread := readVarint_putVarint "" ha x
    rw [h, readVarint_putVarint "" hb y, Except.ok.injEq, Prod.mk.injEq] at hread
    obtain ⟨rfl, -⟩ := hread
    exact ⟨rfl, List.append_cancel_left h⟩
  · rintro ⟨hab, rfl⟩
    rw [show a = b from hab]

theorem delimited_leBytes {w N : Nat} (hN : N ≤ 256 ^ w) : Delimited (· < N) id (leBytes w) := by
  refine .of_length (fun a _ => length_leBytes w a) (fun a b ha hb => ⟨fun h => ?_, congrArg (leBytes w)⟩)
  rw [← leNat_leBytes_of_lt (Nat.lt_of_lt_of_le ha hN), h, leNat_leBytes_of_lt (Nat.lt_of_lt_of_le hb hN)]

theorem delimited_u64 : Delimited (· < 2 ^ 64) id (leBytes 8) := delimited_leBytes (by decide)

theorem delimited_eventId : Delimited (· < 2 ^ 128) id eventIdBytes := by
  refine .of_length (n := 16) (fun a _ => by simp [eventIdBytes]) (fun a b ha hb => ?_)
  rw [eventIdBytes, eventIdBytes, List.reverse_inj]
  exact (delimited_leBytes (w := 16) (by decide)).eq_iff ha hb

theorem delimited_f32 : Delimited (fun _ => True) canonicalF32Bits f32Bytes := by
  refine .rekey ((delimited_leBytes (w := 4) (N := 2 ^ 32) (by decide)).comap (fun v => (canonicalF32Bits v).toNat) |>.mono
    (fun v _ => (canonicalF32Bits v).toNat_lt)) (fun a b _ _ => UInt32.toNat_inj)

theorem delimited_f32s : Delimited (fun l : List F32 => l.length < 2 ^ 64) (List.map canonicalF32Bits) f32sBytes :=
  (delimited_varint.counted delimited_f32).mono (fun _ h => ⟨h, fun _ _ => trivial⟩)

theorem delimited_lp : Delimited (fun bytes : Bytes => bytes.length < 2 ^ 64) id lpBytes := by
  have hbyte : Delimited (fun _ : UInt8 => True) id (fun b => [b]) :=
    .of_length (n := 1) (fun _ _ => rfl) (fun a b _ _ => by simp)
  refine (((delimited_varint.counted hbyte).mono (fun _ h => ⟨h, fun _ _ => trivial⟩)).rekey (fun a b _ _ => ?_)).congr
    (fun bytes _ => ?_)
  · simp
  · rw [lpBytes, List.flatMap_singleton']

theorem delimited_str : Delimited (fun s : Str => utf8Len s < 2 ^ 64) id strBytes :=
  ((delimited_lp.comap asBytes).mono (fun s h => by rwa [Crypto.length_asBytes])).rekey
    (fun _ _ _ _ => ⟨fun h => Crypto.asBytes_injective h, congrArg asBytes⟩)

theorem delimited_opt : Delimited (fun o : Option Nat => ∀ t, o = some t → t < 2 ^ 64) id optBytes :=
  (delimited_u64.option (by decide)).rekey (fun a b _ _ => by simp)

/-- Only the tag of a custom kind is followed by a name. -/
theorem delimited_kind : Delimited (fun kind => ∀ name, kind = EventKind.custom name → utf8Len name < 2 ^ 64) id kindBytes := by
  have htag : Delimited (fun kind => ∀ name, kind = EventKind.custom name → utf8Len name < 2 ^ 64) tagOf
      (fun kind => [tagOf kind]) := .of_length (n := 1) (fun _ _ => rfl) (fun a b _ _ => by simp)
  have hname : ∀ t, Delimited (fun kind => (∀ name, kind = EventKind.custom name → utf8Len name < 2 ^ 64) ∧ tagOf kind = t)
      id nameBytes := by
    rintro t a b x y ⟨ha, hat⟩ ⟨hb, hbt⟩
    have hsame : tagOf a = tagOf b := hat.trans hbt.symm
    cases a with
    | custom n =>
      cases b with
      | custom m =>
        have := delimited_str n m x y (ha n rfl) (hb m rfl)
        simpa [nameBytes] using this
      | _ => simp [tagOf] at hsame
    | _ => cases b <;> simp [tagOf, nameBytes] at hsame ⊢
  refine (htag.dep hname).rekey (fun a b _ _ => ?_)
  rw [Prod.mk.injEq, and_iff_right_iff_imp]
  exact fun h => congrArg tagOf h

/-! ## The record tells all of its fields -/

/-- The point with canonical numbers. -/
def ProductPoint.canonical (p : ProductPoint) : ProductPoint where
  hyp := p.hyp.map canonicalF32Bits
  sph := p.sph.map canonicalF32Bits
  euc := p.euc.map canonicalF32Bits

/-- The record with its embedding in canonical numbers. -/
def CanonicalRecordV1.canonical (r : CanonicalRecordV1) : CanonicalRecordV1 :=
  { r with episode := { r.episode with embedding := r.episode.embedding.map ProductPoint.canonical } }

structure ProductPoint.Fits (p : ProductPoint) : Prop where
  hyp : p.hyp.length < 2 ^ 64
  sph : p.sph.length < 2 ^ 64
  euc : p.euc.length < 2 ^ 64

/-- The quantities of a record fit their machine types, and so do the lengths of what it holds. -/
structure CanonicalRecordV1.Fits (r : CanonicalRecordV1) : Prop where
  lsn : r.lsn < 2 ^ 64
  recordHlc : r.recordHlc < 2 ^ 64
  id : r.episode.id < 2 ^ 128
  tsHlc : r.episode.tsHlc < 2 ^ 64
  agentId : utf8Len r.episode.agentId < 2 ^ 64
  sessionId : utf8Len r.episode.sessionId < 2 ^ 64
  kind : ∀ name, r.episode.kind = .custom name → utf8Len name < 2 ^ 64
  content : r.episode.content.length < 2 ^ 64
  embedding : ∀ p, r.episode.embedding = some p → ProductPoint.Fits p
  attrs : r.episode.attrs.entries.length < 2 ^ 64
  attr : ∀ kv ∈ r.episode.attrs.entries, utf8Len kv.1 < 2 ^ 64 ∧ utf8Len kv.2 < 2 ^ 64
  parents : r.episode.parents.length < 2 ^ 64
  parent : ∀ p ∈ r.episode.parents, p < 2 ^ 128
  validFrom : ∀ t, r.episode.validFrom = some t → t < 2 ^ 64
  validTo : ∀ t, r.episode.validTo = some t → t < 2 ^ 64

theorem delimited_point : Delimited ProductPoint.Fits ProductPoint.canonical pointBytes := by
  have hhyp := (delimited_f32s.comap ProductPoint.hyp).mono (fun p (h : ProductPoint.Fits p) => h.hyp)
  have hsph := (delimited_f32s.comap ProductPoint.sph).mono (fun p (h : ProductPoint.Fits p) => h.sph)
  have heuc := (delimited_f32s.comap ProductPoint.euc).mono (fun p (h : ProductPoint.Fits p) => h.euc)
  refine ((hhyp.append hsph).append heuc).rekey (fun p q _ _ => ?_)
  simp [ProductPoint.canonical, and_assoc]

theorem delimited_embedding : Delimited (fun o => ∀ p, o = some p → ProductPoint.Fits p) (Option.map ProductPoint.canonical)
    embeddingBytes := delimited_point.option (by decide)

theorem delimited_attrs : Delimited (fun attrs : List (Str × Str) => attrs.length < 2 ^ 64 ∧
    ∀ kv ∈ attrs, utf8Len kv.1 < 2 ^ 64 ∧ utf8Len kv.2 < 2 ^ 64) id attrsBytes := by
  have hkey := (delimited_str.comap Prod.fst).mono
    (fun kv (h : utf8Len kv.1 < 2 ^ 64 ∧ utf8Len kv.2 < 2 ^ 64) => h.1)
  have hvalue := (delimited_str.comap Prod.snd).mono
    (fun kv (h : utf8Len kv.1 < 2 ^ 64 ∧ utf8Len kv.2 < 2 ^ 64) => h.2)
  exact (delimited_varint.counted (hkey.append hvalue)).rekey (fun a b _ _ => by simp)

theorem delimited_parents : Delimited (fun parents : List Nat => parents.length < 2 ^ 64 ∧ ∀ p ∈ parents, p < 2 ^ 128) id
    parentsBytes := (delimited_varint.counted delimited_eventId).rekey (fun a b _ _ => by simp)

/-- **The bytes of a record tell the record**, its embedding in canonical numbers, and where they end. -/
theorem delimited_record : Delimited CanonicalRecordV1.Fits CanonicalRecordV1.canonical recordBytes := by
  have hmeta : Delimited (fun _ : OpaqueMeta => True) id Subtype.val :=
    .of_length (n := 16) (fun m _ => m.2) (fun _ _ _ _ => Subtype.ext_iff.symm)
  have hlsn := (delimited_u64.comap CanonicalRecordV1.lsn).mono (fun r (h : r.Fits) => h.lsn)
  have hhlc := (delimited_u64.comap CanonicalRecordV1.recordHlc).mono (fun r (h : r.Fits) => h.recordHlc)
  have hopaque := (hmeta.comap CanonicalRecordV1.opaqueMeta).mono (fun r (_ : r.Fits) => trivial)
  have hid := (delimited_eventId.comap (fun r : CanonicalRecordV1 => r.episode.id)).mono (fun r (h : r.Fits) => h.id)
  have hts := (delimited_u64.comap (fun r : CanonicalRecordV1 => r.episode.tsHlc)).mono (fun r (h : r.Fits) => h.tsHlc)
  have hagent := (delimited_str.comap (fun r : CanonicalRecordV1 => r.episode.agentId)).mono
    (fun r (h : r.Fits) => h.agentId)
  have hsession := (delimited_str.comap (fun r : CanonicalRecordV1 => r.episode.sessionId)).mono
    (fun r (h : r.Fits) => h.sessionId)
  have hkind := (delimited_kind.comap (fun r : CanonicalRecordV1 => r.episode.kind)).mono (fun r (h : r.Fits) => h.kind)
  have hcontent := (delimited_lp.comap (fun r : CanonicalRecordV1 => r.episode.content)).mono
    (fun r (h : r.Fits) => h.content)
  have hembedding := (delimited_embedding.comap (fun r : CanonicalRecordV1 => r.episode.embedding)).mono
    (fun r (h : r.Fits) => h.embedding)
  have hattrs := (delimited_attrs.comap (fun r : CanonicalRecordV1 => r.episode.attrs.entries)).mono
    (fun r (h : r.Fits) => ⟨h.attrs, h.attr⟩)
  have hparents := (delimited_parents.comap (fun r : CanonicalRecordV1 => r.episode.parents)).mono
    (fun r (h : r.Fits) => ⟨h.parents, h.parent⟩)
  have hfrom := (delimited_opt.comap (fun r : CanonicalRecordV1 => r.episode.validFrom)).mono
    (fun r (h : r.Fits) => h.validFrom)
  have hto := (delimited_opt.comap (fun r : CanonicalRecordV1 => r.episode.validTo)).mono (fun r (h : r.Fits) => h.validTo)
  have hall := ((((((((((((hlsn.append hhlc).append hopaque).append hid).append hts).append hagent).append hsession).append
    hkind).append hcontent).append hembedding).append hattrs).append hparents).append hfrom).append hto
  refine hall.rekey (fun r r' _ _ => ?_)
  obtain ⟨lsn, hlc, m, ep⟩ := r
  obtain ⟨lsn', hlc', m', ep'⟩ := r'
  obtain ⟨id, ts, agent, session, kind, content, embedding, ⟨attrs, _⟩, parents, start, stop⟩ := ep
  obtain ⟨id', ts', agent', session', kind', content', embedding', ⟨attrs', _⟩, parents', start', stop'⟩ := ep'
  simp [CanonicalRecordV1.canonical, and_assoc]

/-- **Records have the same bytes exactly when they agree on every field**, embeddings up to the canonical bits of their
numbers, and the bytes of no record are cut from those of another. -/
theorem canonicalRecordBytes_eq_iff (r r' : CanonicalRecordV1) (h : r.Fits) (h' : r'.Fits) :
    (canonicalRecordBytes r = canonicalRecordBytes r' ↔ r.canonical = r'.canonical) ∧
      (canonicalRecordBytes r <+: canonicalRecordBytes r' → canonicalRecordBytes r = canonicalRecordBytes r') := by
  rw [canonicalRecordBytes_eq, canonicalRecordBytes_eq]
  exact ⟨delimited_record.eq_iff h h', delimited_record.eq_of_prefix h h'⟩

def plainEpisode : Episode := Episode.new 9 "a".toList (.custom "note".toList) [1, 2]

def plainRecord (lsn : Nat) : CanonicalRecordV1 := ⟨lsn, 5, ⟨List.replicate 16 0, rfl⟩, plainEpisode⟩

theorem plainRecord_fits {lsn : Nat} (h : lsn < 2 ^ 64) : (plainRecord lsn).Fits where
  lsn := h
  recordHlc := (by decide : 5 < 2 ^ 64)
  id := (by decide : plainEpisode.id < 2 ^ 128)
  tsHlc := (by decide : plainEpisode.tsHlc < 2 ^ 64)
  agentId := (by decide : utf8Len plainEpisode.agentId < 2 ^ 64)
  sessionId := (by decide : utf8Len plainEpisode.sessionId < 2 ^ 64)
  kind := by
    rintro _ ⟨⟩
    decide
  content := (by decide : plainEpisode.content.length < 2 ^ 64)
  embedding := by
    rintro _ ⟨⟩
  attrs := (by decide : plainEpisode.attrs.entries.length < 2 ^ 64)
  attr := fun _ h => absurd h List.not_mem_nil
  parents := (by decide : plainEpisode.parents.length < 2 ^ 64)
  parent := fun _ h => absurd h List.not_mem_nil
  validFrom := by
    rintro _ ⟨⟩
  validTo := by
    rintro _ ⟨⟩

/-- The records of two positions. -/
theorem canonicalRecordBytes_eq_iff_sample :
    (canonicalRecordBytes (plainRecord 3) = canonicalRecordBytes (plainRecord 4) ↔
      (plainRecord 3).canonical = (plainRecord 4).canonical) ∧
      (canonicalRecordBytes (plainRecord 3) <+: canonicalRecordBytes (plainRecord 4) →
        canonicalRecordBytes (plainRecord 3) = canonicalRecordBytes (plainRecord 4)) :=
  canonicalRecordBytes_eq_iff (plainRecord 3) (plainRecord 4) (plainRecord_fits (by decide)) (plainRecord_fits (by decide))

end V6
end Heraclitus
