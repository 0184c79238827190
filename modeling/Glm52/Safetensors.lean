import Glm52.Dict
import Mathlib.Algebra.BigOperators.Group.List.Basic
import Mathlib.Algebra.GroupWithZero.Nat

/-! # Safetensors files

A file is the length of its header in eight bytes, the header as JSON, and the tensors'
bytes one behind the other.  The header gives each tensor's dtype and shape, and where
its bytes start and end behind the header.

`writeSafetensors` lays out a list of tensors, `parseHeader` and `readTensorBytes` read
a file, and what is read is what was written (`safetensors_round_trip`).  JSON is a
parameter: `dumps` and `loads` of a header. -/
namespace Glm52

/-! ### The format -/

/-- A tensor to be written: `(name, dtype, shape, bytes)`. -/
structure TensorRecord where
  name : String
  dtype : String
  shape : List ℕ
  bytes : List UInt8
deriving DecidableEq

/-- What a header says of a tensor. -/
structure TensorInfo where
  dtype : String
  shape : List ℕ
  dataOffsets : ℕ × ℕ
deriving DecidableEq

/-- A value of the header; the metadata object maps names to values in `V`. -/
inductive HeaderEntry (V : Type)
  | metadata (m : Dict String V)
  | tensor (info : TensorInfo)

/-- `m["data_offsets"]`. -/
def HeaderEntry.dataOffsets {V : Type} : HeaderEntry V → Option (ℕ × ℕ)
  | .metadata _ => none
  | .tensor info => some info.dataOffsets

abbrev Header (V : Type) := Dict String (HeaderEntry V)

/-- `json.dumps(header).encode("utf-8")`, and `json.loads`, which fails on bytes that
are no header. -/
structure HeaderCodec (V : Type) where
  dumps : Header V → List UInt8
  loads : List UInt8 → Option (Header V)

/-- `n` in `k` bytes, the lowest first. -/
def littleEndian : ℕ → ℕ → List UInt8
  | 0, _ => []
  | k + 1, n => UInt8.ofNat (n % 256) :: littleEndian k (n / 256)

/-- The number that bytes stand for, the lowest first. -/
def ofLittleEndian : List UInt8 → ℕ
  | [] => 0
  | b :: bs => b.toNat + 256 * ofLittleEndian bs

/-- `struct.pack("<Q", n)`; a number of more than 64 bits raises. -/
def packQ (n : ℕ) : Option (List UInt8) := if n < 2 ^ 64 then some (littleEndian 8 n) else none

/-- `struct.unpack("<Q", bytes)[0]`; it takes eight bytes. -/
def unpackQ (bytes : List UInt8) : Option ℕ :=
  if bytes.length = 8 then some (ofLittleEndian bytes) else none

/-- `"__metadata__"`. -/
def metadataKey : String := "__metadata__"

/-! ### Writing and reading -/

section Files
variable {V : Type}

/-- The header before any tensor: a metadata object that is there and not empty. -/
def startHeader : Option (Dict String V) → Header V
  | some m => if m.entries.isEmpty then Dict.empty else Dict.empty.set metadataKey (.metadata m)
  | none => Dict.empty

/-- The header, tensor by tensor with the running offset. -/
def buildHeader (tensors : List TensorRecord) (metadata : Option (Dict String V)) : Header V :=
  (tensors.foldl (fun (acc : Header V × ℕ) t =>
    (acc.1.set t.name (.tensor ⟨t.dtype, t.shape, (acc.2, acc.2 + t.bytes.length)⟩),
      acc.2 + t.bytes.length)) (startHeader metadata, 0)).1

/-- `write_safetensors`: the bytes of the file. -/
def writeSafetensors (codec : HeaderCodec V) (tensors : List TensorRecord)
    (metadata : Option (Dict String V)) : Option (List UInt8) := do
  let hj := codec.dumps (buildHeader tensors metadata)
  let len ← packQ hj.length
  some (len ++ hj ++ tensors.flatMap TensorRecord.bytes)

/-- `parse_header`: the header, and where the data starts. -/
def parseHeader (codec : HeaderCodec V) (file : List UInt8) : Option (Header V × ℕ) := do
  let n ← unpackQ (file.take 8)
  let hdr ← codec.loads ((file.drop 8).take n)
  some (hdr, 8 + n)

/-- `f.seek(ds+s); f.read(e-s)`; a count of -1 reads to the end, and one below raises. -/
def readSpan (file : List UInt8) (ds : ℕ) (span : ℕ × ℕ) : Option (List UInt8) :=
  if span.1 ≤ span.2 then some ((file.drop (ds + span.1)).take (span.2 - span.1))
  else if span.1 = span.2 + 1 then some (file.drop (ds + span.1))
  else none

/-- `read_tensor_bytes`: the bytes, the dtype and the shape. -/
def readTensorBytes (codec : HeaderCodec V) (file : List UInt8) (name : String) :
    Option (List UInt8 × String × List ℕ) := do
  let (hdr, ds) ← parseHeader codec file
  match hdr.get? name with
  | some (.tensor info) =>
    let buf ← readSpan file ds info.dataOffsets
    some (buf, info.dtype, info.shape)
  | _ => none

end Files

/-! ### Lengths in bytes -/

@[simp] theorem length_littleEndian (k n : ℕ) : (littleEndian k n).length = k := by
  induction k generalizing n with
  | zero => rfl
  | succ k ih => rw [littleEndian, List.length_cons, ih]

theorem ofLittleEndian_littleEndian (k n : ℕ) :
    ofLittleEndian (littleEndian k n) = n % 256 ^ k := by
  induction k generalizing n with
  | zero => rw [littleEndian, ofLittleEndian, Nat.pow_zero, Nat.mod_one]
  | succ k ih =>
    have hbyte : (UInt8.ofNat (n % 256)).toNat = n % 256 :=
      UInt8.toNat_ofNat_of_lt' (Nat.mod_lt n (by decide))
    rw [littleEndian, ofLittleEndian, ih, hbyte, Nat.pow_succ', Nat.mod_mul]

/-- **A length that fits is read back.** -/
theorem unpackQ_packQ {n : ℕ} {bytes : List UInt8} (h : packQ n = some bytes) :
    bytes.length = 8 ∧ unpackQ bytes = some n := by
  obtain ⟨hn, hbytes⟩ := Option.ite_none_right_eq_some.mp h
  obtain rfl := Option.some.inj hbytes
  have hlen := length_littleEndian 8 n
  refine ⟨hlen, ?_⟩
  rw [unpackQ, if_pos hlen, ofLittleEndian_littleEndian, Nat.mod_eq_of_lt (by omega)]

/-! ### The header -/

/-- The bytes of the tensors. -/
def totalBytes (tensors : List TensorRecord) : ℕ := (tensors.map (fun t => t.bytes.length)).sum

/-- Where a tensor's bytes lie when they start at `off`. -/
def TensorRecord.span (t : TensorRecord) (off : ℕ) : ℕ × ℕ := (off, off + t.bytes.length)

/-- Spans one behind the other, from `start` to `stop`. -/
def Contiguous : ℕ → List (ℕ × ℕ) → ℕ → Prop
  | start, [], stop => start = stop
  | start, span :: rest, stop => span.1 = start ∧ span.1 ≤ span.2 ∧ Contiguous span.2 rest stop

/-- The spans of tensors whose bytes start at `off`. -/
def spansFrom : ℕ → List TensorRecord → List (ℕ × ℕ)
  | _, [] => []
  | off, t :: rest => t.span off :: spansFrom (off + t.bytes.length) rest

/-- The header entries of tensors whose bytes start at `off`. -/
def entriesFrom (V : Type) : ℕ → List TensorRecord → List (String × HeaderEntry V)
  | _, [] => []
  | off, t :: rest =>
    (t.name, .tensor ⟨t.dtype, t.shape, t.span off⟩) :: entriesFrom V (off + t.bytes.length) rest

theorem totalBytes_cons (t : TensorRecord) (rest : List TensorRecord) :
    totalBytes (t :: rest) = t.bytes.length + totalBytes rest := by
  rw [totalBytes, List.map_cons, List.sum_cons, totalBytes]

theorem length_flatMap_bytes (tensors : List TensorRecord) :
    (tensors.flatMap TensorRecord.bytes).length = totalBytes tensors := by
  rw [List.length_flatMap]
  rfl

theorem contiguous_spansFrom (off : ℕ) (tensors : List TensorRecord) :
    Contiguous off (spansFrom off tensors) (off + totalBytes tensors) := by
  induction tensors generalizing off with
  | nil => rfl
  | cons t rest ih =>
    refine ⟨rfl, Nat.le_add_right off t.bytes.length, ?_⟩
    rw [totalBytes_cons, ← Nat.add_assoc]
    exact ih (off + t.bytes.length)

section Header
variable {V : Type}

theorem map_fst_entriesFrom (off : ℕ) (tensors : List TensorRecord) :
    (entriesFrom V off tensors).map Prod.fst = tensors.map TensorRecord.name := by
  induction tensors generalizing off with
  | nil => rfl
  | cons t rest ih => rw [entriesFrom, List.map_cons, ih, List.map_cons]

/-- The loop sets the entries one after another. -/
theorem foldl_header (d : Header V) (off : ℕ) (tensors : List TensorRecord) :
    (tensors.foldl (fun (acc : Header V × ℕ) t =>
      (acc.1.set t.name (.tensor ⟨t.dtype, t.shape, (acc.2, acc.2 + t.bytes.length)⟩),
        acc.2 + t.bytes.length)) (d, off)).1 =
      (entriesFrom V off tensors).foldl (fun d e => d.set e.1 e.2) d := by
  induction tensors generalizing d off with
  | nil => rfl
  | cons t rest ih =>
    rw [List.foldl_cons, ih, entriesFrom, List.foldl_cons]
    rfl

theorem mem_keys_startHeader {metadata : Option (Dict String V)} {k : String}
    (hk : k ∈ (startHeader metadata).keys) : k = metadataKey := by
  unfold startHeader at hk
  split at hk
  · split at hk
    · cases hk
    · rcases Dict.mem_keys_set.mp hk with h | h
      · exact h
      · cases h
  · cases hk

/-- **The header's entries**: the metadata, and the tensors in their order. -/
theorem entries_buildHeader {tensors : List TensorRecord}
    (hnames : (tensors.map TensorRecord.name).Nodup)
    (hmeta : metadataKey ∉ tensors.map TensorRecord.name) (metadata : Option (Dict String V)) :
    (buildHeader tensors metadata).entries =
      (startHeader metadata).entries ++ entriesFrom V 0 tensors := by
  rw [buildHeader, foldl_header]
  refine Dict.entries_foldl_set ?_ _ ?_
  · rwa [map_fst_entriesFrom]
  · intro k hk hstart
    rw [map_fst_entriesFrom] at hk
    exact hmeta (mem_keys_startHeader hstart ▸ hk)

/-- A tensor's entry, by the tensors before it. -/
theorem mem_entriesFrom (off : ℕ) (before after : List TensorRecord) (t : TensorRecord) :
    (t.name, .tensor ⟨t.dtype, t.shape, t.span (off + totalBytes before)⟩) ∈
      entriesFrom V off (before ++ t :: after) := by
  induction before generalizing off with
  | nil => exact List.mem_cons_self
  | cons first before ih =>
    refine List.mem_cons_of_mem _ ?_
    rw [totalBytes_cons, ← Nat.add_assoc]
    exact ih (off + first.bytes.length)

/-- What the header says of a tensor. -/
theorem get?_buildHeader {before after : List TensorRecord} {t : TensorRecord}
    (hnames : ((before ++ t :: after).map TensorRecord.name).Nodup)
    (hmeta : metadataKey ∉ (before ++ t :: after).map TensorRecord.name)
    (metadata : Option (Dict String V)) :
    (buildHeader (before ++ t :: after) metadata).get? t.name =
      some (.tensor ⟨t.dtype, t.shape, t.span (totalBytes before)⟩) := by
  rw [Dict.get?_eq_some, entries_buildHeader hnames hmeta]
  refine List.mem_append_right _ ?_
  have hentry := mem_entriesFrom (V := V) 0 before after t
  rwa [Nat.zero_add] at hentry

/-- The offsets of the tensors, in the order of the list. -/
theorem map_dataOffsets_buildHeader {tensors : List TensorRecord}
    (hnames : (tensors.map TensorRecord.name).Nodup)
    (hmeta : metadataKey ∉ tensors.map TensorRecord.name) (metadata : Option (Dict String V)) :
    tensors.map (fun t =>
      ((buildHeader tensors metadata).get? t.name).bind HeaderEntry.dataOffsets) =
        (spansFrom 0 tensors).map some := by
  -- behind a part of the list the offsets start at that part's bytes
  have hsuffix : ∀ before rest, tensors = before ++ rest →
      rest.map (fun t =>
        ((buildHeader tensors metadata).get? t.name).bind HeaderEntry.dataOffsets) =
          (spansFrom (totalBytes before) rest).map some := by
    intro before rest
    induction rest generalizing before with
    | nil => exact fun _ => rfl
    | cons t rest ih =>
      rintro rfl
      have htotal : totalBytes (before ++ [t]) = totalBytes before + t.bytes.length := by
        simp [totalBytes]
      rw [List.map_cons, get?_buildHeader hnames hmeta, spansFrom, List.map_cons,
        ih (before ++ [t]) (List.append_cons before t rest), htotal]
      rfl
  exact hsuffix [] tensors rfl

end Header

/-! ### Round trip -/

section RoundTrip
variable {V : Type} {codec : HeaderCodec V} {tensors : List TensorRecord}
  {metadata : Option (Dict String V)} {file : List UInt8}

/-- Writing fails on a header of `2^64` bytes or more. -/
theorem writeSafetensors_eq_none_iff :
    writeSafetensors codec tensors metadata = none ↔
      2 ^ 64 ≤ (codec.dumps (buildHeader tensors metadata)).length := by
  simp [writeSafetensors, packQ]

/-- The parts of a written file. -/
theorem writeSafetensors_eq_some (h : writeSafetensors codec tensors metadata = some file) :
    ∃ len, packQ (codec.dumps (buildHeader tensors metadata)).length = some len ∧
      file = len ++ codec.dumps (buildHeader tensors metadata) ++
        tensors.flatMap TensorRecord.bytes := by
  unfold writeSafetensors at h
  obtain ⟨len, hlen, h⟩ := Option.bind_eq_some_iff.mp h
  exact ⟨len, hlen, (Option.some.inj h).symm⟩

/-- **The header is read back**, and the data starts behind it. -/
theorem parseHeader_written
    (hjson : codec.loads (codec.dumps (buildHeader tensors metadata)) =
      some (buildHeader tensors metadata))
    (h : writeSafetensors codec tensors metadata = some file) :
    parseHeader codec file = some (buildHeader tensors metadata,
      8 + (codec.dumps (buildHeader tensors metadata)).length) := by
  obtain ⟨len, hlen, rfl⟩ := writeSafetensors_eq_some h
  obtain ⟨hlen8, hunpack⟩ := unpackQ_packQ hlen
  have htake : (len ++ codec.dumps (buildHeader tensors metadata) ++
      tensors.flatMap TensorRecord.bytes).take 8 = len := by
    rw [List.append_assoc, ← hlen8, List.take_left]
  have hdrop : (len ++ codec.dumps (buildHeader tensors metadata) ++
      tensors.flatMap TensorRecord.bytes).drop 8 =
        codec.dumps (buildHeader tensors metadata) ++ tensors.flatMap TensorRecord.bytes := by
    rw [List.append_assoc, ← hlen8, List.drop_left]
  simp only [parseHeader, htake, hdrop, hunpack, Option.bind_eq_bind, Option.bind_some,
    List.take_left, hjson]

/-- The data of a written file. -/
theorem drop_written (h : writeSafetensors codec tensors metadata = some file) :
    file.drop (8 + (codec.dumps (buildHeader tensors metadata)).length) =
      tensors.flatMap TensorRecord.bytes := by
  obtain ⟨len, hlen, rfl⟩ := writeSafetensors_eq_some h
  rw [← (unpackQ_packQ hlen).1, ← List.length_append, List.drop_left]

/-- The length of a written file. -/
theorem length_written (h : writeSafetensors codec tensors metadata = some file) :
    file.length = 8 + (codec.dumps (buildHeader tensors metadata)).length + totalBytes tensors := by
  obtain ⟨len, hlen, rfl⟩ := writeSafetensors_eq_some h
  rw [List.length_append, List.length_append, (unpackQ_packQ hlen).1, length_flatMap_bytes]

/-- A span of the data reads the bytes of its tensor. -/
theorem readSpan_span {ds : ℕ} {before after : List TensorRecord} {t : TensorRecord}
    (hdata : file.drop ds = (before ++ t :: after).flatMap TensorRecord.bytes) :
    readSpan file ds (t.span (totalBytes before)) = some t.bytes := by
  have hstart : file.drop (ds + totalBytes before) =
      t.bytes ++ after.flatMap TensorRecord.bytes := by
    rw [← List.drop_drop, hdata, List.flatMap_append, ← length_flatMap_bytes, List.drop_left,
      List.flatMap_cons]
  rw [readSpan, TensorRecord.span, if_pos (Nat.le_add_right _ _), hstart,
    Nat.add_sub_cancel_left, List.take_left]

/-- **Each tensor is read back.** -/
theorem readTensorBytes_written (hnames : (tensors.map TensorRecord.name).Nodup)
    (hmeta : metadataKey ∉ tensors.map TensorRecord.name)
    (hjson : codec.loads (codec.dumps (buildHeader tensors metadata)) =
      some (buildHeader tensors metadata))
    (h : writeSafetensors codec tensors metadata = some file) {t : TensorRecord}
    (ht : t ∈ tensors) :
    readTensorBytes codec file t.name = some (t.bytes, t.dtype, t.shape) := by
  obtain ⟨before, after, rfl⟩ := List.append_of_mem ht
  have hread := readSpan_span (drop_written h)
  simp only [readTensorBytes, parseHeader_written hjson h, Option.bind_eq_bind, Option.bind_some,
    get?_buildHeader hnames hmeta, hread]

/-- A written file has no other tensors. -/
theorem mem_names_of_readTensorBytes (hnames : (tensors.map TensorRecord.name).Nodup)
    (hmeta : metadataKey ∉ tensors.map TensorRecord.name)
    (hjson : codec.loads (codec.dumps (buildHeader tensors metadata)) =
      some (buildHeader tensors metadata))
    (h : writeSafetensors codec tensors metadata = some file) {name : String}
    {data : List UInt8 × String × List ℕ} (hread : readTensorBytes codec file name = some data) :
    name ∈ tensors.map TensorRecord.name := by
  simp only [readTensorBytes, parseHeader_written hjson h, Option.bind_eq_bind,
    Option.bind_some] at hread
  split at hread
  · next info hinfo =>
    rw [Dict.get?_eq_some, entries_buildHeader hnames hmeta, List.mem_append] at hinfo
    -- a tensor's entry is not the metadata's
    rcases hinfo with hstart | hentry
    · unfold startHeader at hstart
      split at hstart
      · split at hstart
        · cases hstart
        · rcases List.mem_singleton.mp hstart with heq
          cases heq
      · cases hstart
    · rw [← map_fst_entriesFrom (V := V) 0]
      exact List.mem_map_of_mem hentry
  · cases hread

end RoundTrip

/-- **Safetensors round trip.** For tensors with distinct names, none of them the
metadata's, writing fails only on a header whose length does not fit; otherwise every
name reads back as its tensor's bytes, dtype and shape, the offsets run without gap or
overlap from zero to the sum of the lengths in the order of the list, and the file is
eight bytes, the header and that sum. -/
theorem safetensors_round_trip {V : Type} (codec : HeaderCodec V) {tensors : List TensorRecord}
    (hnames : (tensors.map TensorRecord.name).Nodup)
    (hmeta : metadataKey ∉ tensors.map TensorRecord.name) {metadata : Option (Dict String V)}
    (hjson : codec.loads (codec.dumps (buildHeader tensors metadata)) =
      some (buildHeader tensors metadata)) :
    let headerLength := (codec.dumps (buildHeader tensors metadata)).length
    (writeSafetensors codec tensors metadata = none ↔ 2 ^ 64 ≤ headerLength) ∧
    ∀ file, writeSafetensors codec tensors metadata = some file →
      (∃ hdr spans, parseHeader codec file = some (hdr, 8 + headerLength) ∧
        tensors.map (fun t => (hdr.get? t.name).bind HeaderEntry.dataOffsets) = spans.map some ∧
        Contiguous 0 spans (totalBytes tensors)) ∧
      (∀ t ∈ tensors, readTensorBytes codec file t.name = some (t.bytes, t.dtype, t.shape)) ∧
      file.length = 8 + headerLength + totalBytes tensors := by
  intro headerLength
  refine ⟨writeSafetensors_eq_none_iff, fun file hfile => ⟨?_, ?_, ?_⟩⟩
  · refine ⟨_, _, parseHeader_written hjson hfile, map_dataOffsets_buildHeader hnames hmeta _, ?_⟩
    have hspans := contiguous_spansFrom 0 tensors
    rwa [Nat.zero_add] at hspans
  · exact fun t ht => readTensorBytes_written hnames hmeta hjson hfile ht
  · exact length_written hfile

/-- JSON of a header whose names need no escapes. -/
def renderList (items : List String) : String := ", ".intercalate items

def renderEntry : String × HeaderEntry String → String
  | (k, .metadata m) => "\"" ++ k ++ "\": \x7b" ++
      renderList (m.entries.map (fun e => "\"" ++ e.1 ++ "\": \"" ++ e.2 ++ "\"")) ++ "\x7d"
  | (k, .tensor info) => "\"" ++ k ++ "\": \x7b\"dtype\": \"" ++ info.dtype ++
      "\", \"shape\": [" ++ renderList (info.shape.map toString) ++ "], \"data_offsets\": [" ++
      renderList [toString info.dataOffsets.1, toString info.dataOffsets.2] ++ "]\x7d"

def renderHeader (h : Header String) : List UInt8 :=
  ("\x7b" ++ renderList (h.entries.map renderEntry) ++ "\x7d").toList.map
    (fun c => UInt8.ofNat c.toNat)

/-- Two tensors, one of them without bytes, and a metadata object. -/
def sampleTensors : List TensorRecord :=
  [⟨"w", "F32", [1], [0, 0, 128, 63]⟩, ⟨"empty", "U8", [0], []⟩]

def sampleMetadata : Option (Dict String String) := some (Dict.ofPairs [("format", "pt")])

/-- JSON, as far as the sample goes. -/
def sampleCodec : HeaderCodec String where
  dumps := renderHeader
  loads := fun bytes =>
    let h := buildHeader sampleTensors sampleMetadata
    if bytes = renderHeader h then some h else none

theorem sampleCodec_loads (h : Header String)
    (hsample : h = buildHeader sampleTensors sampleMetadata) :
    sampleCodec.loads (sampleCodec.dumps h) = some h := by
  show (if renderHeader h = renderHeader (buildHeader sampleTensors sampleMetadata) then
    some (buildHeader sampleTensors sampleMetadata) else none) = some h
  rw [← hsample, if_pos rfl]

theorem safetensors_round_trip_sample :
    ∃ file, writeSafetensors sampleCodec sampleTensors sampleMetadata = some file ∧
      readTensorBytes sampleCodec file "w" = some ([0, 0, 128, 63], "F32", [1]) := by
  have htrip := @safetensors_round_trip _ sampleCodec sampleTensors (by decide) (by decide)
    sampleMetadata (sampleCodec_loads _ rfl)
  cases hfile : writeSafetensors sampleCodec sampleTensors sampleMetadata with
  | none =>
    have hlong := htrip.1.mp hfile
    exact absurd hlong (by decide +kernel)
  | some file => exact ⟨file, rfl, (htrip.2 file hfile).2.1 _ List.mem_cons_self⟩

end Glm52
