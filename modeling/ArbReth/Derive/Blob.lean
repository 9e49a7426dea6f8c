import ArbReth.Derive.Batch
import ArbReth.Lib.Regroup
import ArbReth.Lib.Runs

/-! # Blobs

`decode_blobs` (`arb-reth-derive/src/blob.rs`) takes the payload of a batch out of EIP-4844 blobs.  A blob has
4096 field elements of 32 bytes: 31 of them are bytes of the payload, and the low six bits of the first one are
spare bits, of which four make three bytes.  A blob is read in two passes, the bodies first; the blobs together
hold an RLP string.

`encodeBlobs` is the encoder of the source's tests, which follows the one of the batch poster; the string is
given in its canonical RLP form.

The spare bits are put together by an accumulator of 16 bits.  What it computes is `Regroup.gather`, and the
accumulator of the encoder is `Regroup.scatter`: no bit is ever shifted out of them (`push_eq`, `fill_eq`). -/

namespace ArbReth.Derive

open ArbReth.Runs ArbReth.Regroup

def fieldElementsPerBlob : ℕ := 4096

def bytesPerFieldElement : ℕ := 32

def bytesPerBlob : ℕ := fieldElementsPerBlob * bytesPerFieldElement

/-- Spare low bits in the first byte of each field element. -/
def spareBlobBits : ℕ := 6

/-- Payload bytes in one blob. -/
def blobEncodableData : ℕ := 254 * fieldElementsPerBlob / 8

/-- Payload bytes in the bodies of one blob. -/
def bodyBytesPerBlob : ℕ := (bytesPerFieldElement - 1) * fieldElementsPerBlob

def u16Size : ℕ := 2 ^ 16

structure Blob where
  bytes : Bytes
  length_eq : bytes.length = bytesPerBlob

inductive BlobDecodeError where
  | spareBits (bits : ℕ)
  | rlp (what : String)
deriving DecidableEq, Repr

/-! ### Decoding -/

/-- The first pass: bytes 1 to 31 of every field element. -/
def Blob.bodies (blob : Blob) : Bytes :=
  (List.range fieldElementsPerBlob).flatMap fun fe =>
    (blob.bytes.drop (fe * bytesPerFieldElement + 1)).take (bytesPerFieldElement - 1)

/-- Byte 0 of every field element. -/
def Blob.spareBytes (blob : Blob) : Bytes :=
  (List.range fieldElementsPerBlob).map fun fe => blob.bytes.getD (fe * bytesPerFieldElement) 0

/-- The running values of the second pass. -/
structure SpareState where
  acc : ℕ
  accBits : ℕ
  out : Bytes
deriving DecidableEq, Repr

def SpareState.start : SpareState := ⟨0, 0, []⟩

/-- One field element; the accumulator has 16 bits. -/
def SpareState.push (s : SpareState) (byte : UInt8) : SpareState :=
  let acc := s.acc ||| (byte.toNat <<< s.accBits) % u16Size
  let accBits := s.accBits + spareBlobBits
  if 8 ≤ accBits then ⟨acc >>> 8, accBits - 8, s.out ++ [UInt8.ofNat acc]⟩ else ⟨acc, accBits, s.out⟩

/-- The running values after the first `n` field elements. -/
def Blob.sparesAfter (blob : Blob) (n : ℕ) : SpareState := (blob.spareBytes.take n).foldl SpareState.push .start

/-- The bytes of one blob. -/
def decodeBlob (blob : Blob) : Except BlobDecodeError Bytes :=
  let s := blob.sparesAfter fieldElementsPerBlob
  if s.accBits ≠ 0 then .error (.spareBits s.accBits) else .ok (blob.bodies ++ s.out)

/-- The string in the bytes of all blobs; what follows it is padding. -/
def decodeString (rlpData : Bytes) : Except BlobDecodeError Bytes :=
  match Rlp.decodeHeader rlpData with
  | none => .error (.rlp "bad header")
  | some (header, rest) =>
    if header.list then .error (.rlp "expected string, got list")
    else if rest.length < header.payloadLength then .error (.rlp "payload length exceeds data")
    else .ok (rest.take header.payloadLength)

def decodeBlobs (blobs : List Blob) : Except BlobDecodeError Bytes := do
  let parts ← blobs.mapM decodeBlob
  decodeString parts.flatten

/-! ### Encoding -/

/-- The running values of the encoder's pass over the spare bits. -/
structure FillState where
  acc : ℕ
  accBits : ℕ
  data : Bytes
  out : Bytes

def FillState.start (spares : Bytes) : FillState := ⟨0, 0, spares, []⟩

/-- Take in another byte if fewer bits are there than a field element has. -/
def FillState.load (s : FillState) : FillState :=
  if s.accBits < spareBlobBits then
    match s.data with
    | [] => s
    | byte :: data => ⟨s.acc ||| (byte.toNat <<< s.accBits) % u16Size, s.accBits + 8, data, s.out⟩
  else s

/-- One field element. -/
def FillState.fill (s : FillState) : FillState :=
  ⟨s.load.acc >>> spareBlobBits, s.load.accBits - spareBlobBits, s.load.data,
    s.load.out ++ [UInt8.ofNat (s.load.acc &&& 0x3f)]⟩

/-- The spare bits of each field element. -/
def spareGroups (spares : Bytes) : Bytes := (FillState.fill^[fieldElementsPerBlob] (.start spares)).out

/-- What one blob holds. -/
abbrev Chunk := { bytes : Bytes // bytes.length = blobEncodableData }

/-- A field element of the blob: its spare bits and its body. -/
def Chunk.element (chunk : Chunk) (fe : ℕ) : Bytes :=
  (spareGroups (chunk.1.drop bodyBytesPerBlob)).getD fe 0 ::
    ((chunk.1.take bodyBytesPerBlob).drop (fe * (bytesPerFieldElement - 1))).take (bytesPerFieldElement - 1)

theorem Chunk.length_element (chunk : Chunk) {fe : ℕ} (hfe : fe < fieldElementsPerBlob) :
    (chunk.element fe).length = bytesPerFieldElement := by
  obtain ⟨bytes, hlength⟩ := chunk
  unfold element
  rw [List.length_cons, List.length_take, List.length_drop, List.length_take, hlength]
  unfold fieldElementsPerBlob at hfe
  unfold bodyBytesPerBlob blobEncodableData bytesPerFieldElement fieldElementsPerBlob
  omega

def Chunk.blobBytes (chunk : Chunk) : Bytes := (List.range fieldElementsPerBlob).flatMap chunk.element

def encodeBlob (chunk : Chunk) : Blob where
  bytes := chunk.blobBytes
  length_eq := length_flatMap_parts fun _ hfe => chunk.length_element hfe

/-- The number of blobs for some bytes. -/
def blobCount (bytes : Bytes) : ℕ := max ((bytes.length + blobEncodableData - 1) / blobEncodableData) 1

/-- The bytes with zeros up to the end of the last blob. -/
def padded (bytes : Bytes) : Bytes := bytes ++ List.replicate (blobCount bytes * blobEncodableData - bytes.length) 0

theorem length_padded (bytes : Bytes) : (padded bytes).length = blobCount bytes * blobEncodableData := by
  have hle : bytes.length ≤ blobCount bytes * blobEncodableData := by
    unfold blobCount blobEncodableData fieldElementsPerBlob
    omega
  unfold padded
  rw [List.length_append, List.length_replicate, Nat.add_sub_cancel' hle]

def chunk (bytes : Bytes) (i : Fin (blobCount bytes)) : Chunk where
  val := ((padded bytes).drop (i * blobEncodableData)).take blobEncodableData
  property := by
    have hi : (i + 1) * blobEncodableData ≤ blobCount bytes * blobEncodableData := Nat.mul_le_mul_right _ i.isLt
    rw [Nat.add_mul, Nat.one_mul] at hi
    rw [List.length_take, List.length_drop, length_padded]
    omega

/-- The blobs of a payload. -/
def encodeBlobs (payload : Bytes) : List Blob :=
  let rlp := Rlp.encodeString payload
  (List.finRange (blobCount rlp)).map fun i => encodeBlob (chunk rlp i)

/-! ### The spare bits -/

def SpareState.toGather (s : SpareState) : Gather := ⟨s.acc, s.accBits, s.out.map UInt8.toNat⟩

/-- With fewer than eight bits in the accumulator no bit of a byte is shifted out of it. -/
theorem shiftLeft_lt (byte : UInt8) {bits : ℕ} (h : bits < 8) : byte.toNat <<< bits < u16Size := by
  have hbyte : byte.toNat < 2 ^ 8 := byte.toNat_lt
  rw [Nat.shiftLeft_eq]
  calc byte.toNat * 2 ^ bits < 2 ^ 8 * 2 ^ bits := Nat.mul_lt_mul_of_pos_right hbyte (by positivity)
    _ ≤ 2 ^ 8 * 2 ^ 8 := Nat.mul_le_mul_left _ (Nat.pow_le_pow_right (by decide) h.le)
    _ = u16Size := by decide

theorem SpareState.push_eq {s : SpareState} (h : s.accBits < 8) (byte : UInt8) :
    (s.push byte).toGather = gather spareBlobBits 8 s.toGather byte.toNat := by
  unfold SpareState.push gather SpareState.toGather
  rw [Nat.mod_eq_of_lt (shiftLeft_lt byte h)]
  dsimp only
  split
  · rw [List.map_append, List.map_cons, List.map_nil, UInt8.toNat_ofNat']
  · rfl

theorem foldl_push (bytes : Bytes) :
    (bytes.foldl SpareState.push .start).toGather = (bytes.map UInt8.toNat).foldl (gather spareBlobBits 8) .start := by
  induction bytes using List.reverseRecOn with
  | nil => rfl
  | append_singleton bytes byte ih =>
    rw [List.foldl_append, List.map_append, List.foldl_append, ← ih]
    refine SpareState.push_eq ?_ byte
    have hbits := (gather_count (by decide : spareBlobBits ≤ 8) (by decide) (bytes.map UInt8.toNat)).1
    rw [← ih] at hbits
    exact hbits

theorem Blob.length_spareBytes (blob : Blob) : blob.spareBytes.length = fieldElementsPerBlob := by
  unfold spareBytes
  rw [List.length_map, List.length_range]

/-- The bits in the accumulator after some field elements, whatever the blob holds. -/
theorem Blob.sparesAfter_accBits (blob : Blob) {n : ℕ} (hn : n ≤ fieldElementsPerBlob) :
    (blob.sparesAfter n).accBits < 8 ∧ 8 * (blob.sparesAfter n).out.length + (blob.sparesAfter n).accBits =
      spareBlobBits * n := by
  have hcount := gather_count (by decide : spareBlobBits ≤ 8) (by decide)
    ((blob.spareBytes.take n).map UInt8.toNat)
  rw [← foldl_push, List.length_map, List.length_take, length_spareBytes, min_eq_left hn] at hcount
  unfold SpareState.toGather at hcount
  rwa [List.length_map] at hcount

theorem decodeBlob_eq (blob : Blob) :
    decodeBlob blob = .ok (blob.bodies ++ (blob.sparesAfter fieldElementsPerBlob).out) := by
  obtain ⟨hlt, hcount⟩ := blob.sparesAfter_accBits le_rfl
  unfold decodeBlob
  dsimp only
  rw [if_neg]
  rw [not_not]
  generalize blob.sparesAfter fieldElementsPerBlob = s at hlt hcount
  unfold spareBlobBits fieldElementsPerBlob at hcount
  omega

def FillState.toScatter (s : FillState) : Scatter := ⟨s.acc, s.accBits, s.data.map UInt8.toNat, s.out.map UInt8.toNat⟩

theorem FillState.load_eq (s : FillState) : s.load.toScatter = s.toScatter.pull spareBlobBits 8 := by
  obtain ⟨acc, accBits, data, out⟩ := s
  unfold FillState.load Scatter.pull FillState.toScatter
  dsimp only
  split
  · have hbits : accBits < 8 := lt_of_lt_of_le ‹_› (by decide)
    cases data with
    | nil => rfl
    | cons byte data =>
      dsimp only
      rw [Nat.mod_eq_of_lt (shiftLeft_lt byte hbits)]
      rfl
  · rfl

theorem FillState.fill_eq (s : FillState) : s.fill.toScatter = scatter spareBlobBits 8 s.toScatter := by
  have hload := s.load_eq
  unfold scatter
  rw [← hload]
  unfold FillState.fill FillState.toScatter
  dsimp only
  have hmask : s.load.acc &&& 0x3f = s.load.acc % 2 ^ spareBlobBits := Nat.and_two_pow_sub_one_eq_mod _ 6
  rw [List.map_append, List.map_cons, List.map_nil, UInt8.toNat_ofNat', hmask]
  have hsmall : s.load.acc % 2 ^ spareBlobBits < 2 ^ 8 := (Nat.mod_lt _ (by decide)).trans (by decide)
  rw [Nat.mod_eq_of_lt hsmall]

theorem iterate_fill (spares : Bytes) (n : ℕ) :
    (FillState.fill^[n] (.start spares)).toScatter = (scatter spareBlobBits 8)^[n] (.start (spares.map UInt8.toNat)) := by
  induction n with
  | zero => rfl
  | succ n ih => rw [Function.iterate_succ_apply', Function.iterate_succ_apply', FillState.fill_eq, ih]

/-- What was put into the spare bits of some field elements is read back from them. -/
theorem foldl_push_iterate_fill {spares : Bytes} {n : ℕ} (h : spareBlobBits * n = 8 * spares.length) :
    ((FillState.fill^[n] (.start spares)).out.foldl SpareState.push .start).out = spares := by
  have hsmall : ∀ d ∈ spares.map UInt8.toNat, d < 2 ^ 8 := by
    intro d hd
    obtain ⟨byte, -, rfl⟩ := List.mem_map.mp hd
    exact byte.toNat_lt
  have hroundtrip := gather_scatter (by decide : spareBlobBits ≤ 8) (by decide) hsmall (k := n)
    (by rw [List.length_map]; exact h)
  rw [← iterate_fill] at hroundtrip
  generalize FillState.fill^[n] (.start spares) = s at hroundtrip
  have hout := congrArg Gather.out (foldl_push s.out)
  exact List.map_injective_iff.mpr (fun a b => UInt8.toNat_inj.mp) (hout.trans hroundtrip)

theorem length_iterate_fill (spares : Bytes) (n : ℕ) : (FillState.fill^[n] (.start spares)).out.length = n := by
  have hload : ∀ s : FillState, s.load.out = s.out := by
    intro s
    unfold FillState.load
    split
    · split <;> rfl
    · rfl
  have hfill : ∀ s : FillState, s.fill.out.length = s.out.length + 1 := by
    intro s
    unfold FillState.fill
    rw [List.length_append, hload, List.length_singleton]
  induction n with
  | zero => rfl
  | succ n ih => rw [Function.iterate_succ_apply', hfill, ih]

/-! ### One blob -/

variable (c : Chunk)

theorem Chunk.length_spares : spareBlobBits * fieldElementsPerBlob = 8 * (c.1.drop bodyBytesPerBlob).length := by
  rw [List.length_drop, c.2]
  rfl

theorem encodeBlob_element {fe : ℕ} (hfe : fe < fieldElementsPerBlob) :
    ((encodeBlob c).bytes.drop (fe * bytesPerFieldElement)).take bytesPerFieldElement = c.element fe := by
  have hbytes : (encodeBlob c).bytes = c.blobBytes := by simp only [encodeBlob]
  have hlength : ∀ i < fieldElementsPerBlob, (c.element i).length = bytesPerFieldElement :=
    fun i hi => c.length_element hi
  rw [hbytes, Chunk.blobBytes, part_flatMap hlength hfe]

theorem bodies_encodeBlob : (encodeBlob c).bodies = c.1.take bodyBytesPerBlob := by
  have hbody : ∀ fe ∈ List.range fieldElementsPerBlob,
      ((encodeBlob c).bytes.drop (fe * bytesPerFieldElement + 1)).take (bytesPerFieldElement - 1) =
        ((c.1.take bodyBytesPerBlob).drop (fe * (bytesPerFieldElement - 1))).take (bytesPerFieldElement - 1) := by
    intro fe hfe
    have helement := congrArg (List.drop 1) (encodeBlob_element c (List.mem_range.mp hfe))
    rw [List.drop_take, List.drop_drop] at helement
    exact helement
  unfold Blob.bodies
  rw [List.flatMap_congr hbody, flatMap_parts]
  refine List.take_of_length_le ?_
  rw [List.length_take]
  refine (min_le_left _ _).trans (le_of_eq ?_)
  unfold bodyBytesPerBlob
  exact Nat.mul_comm _ _

theorem spareBytes_encodeBlob : (encodeBlob c).spareBytes = spareGroups (c.1.drop bodyBytesPerBlob) := by
  have hlength := length_iterate_fill (c.1.drop bodyBytesPerBlob) fieldElementsPerBlob
  have hbyte : ∀ fe ∈ List.range fieldElementsPerBlob, (encodeBlob c).bytes.getD (fe * bytesPerFieldElement) 0 =
      (spareGroups (c.1.drop bodyBytesPerBlob)).getD fe 0 := by
    intro fe hfe
    have helement := congrArg (fun l : Bytes => l.getD 0 0) (encodeBlob_element c (List.mem_range.mp hfe))
    rw [List.getD_eq_getElem?_getD, List.getElem?_take_of_lt (by decide), List.getElem?_drop, Nat.add_zero] at helement
    rw [List.getD_eq_getElem?_getD, helement, Chunk.element, List.getD_cons_zero]
  unfold Blob.spareBytes
  rw [List.map_congr_left hbyte]
  unfold spareGroups at *
  generalize FillState.fill^[fieldElementsPerBlob] (.start (c.1.drop bodyBytesPerBlob)) = s at *
  refine List.ext_getElem ?_ ?_
  · rw [List.length_map, List.length_range, hlength]
  · intro i hi hi'
    rw [List.getElem_map, List.getElem_range, List.getD_eq_getElem _ _ hi']

theorem decodeBlob_encodeBlob : decodeBlob (encodeBlob c) = .ok c.1 := by
  have hspares : ((encodeBlob c).sparesAfter fieldElementsPerBlob).out = c.1.drop bodyBytesPerBlob := by
    unfold Blob.sparesAfter
    rw [List.take_of_length_le (encodeBlob c).length_spareBytes.le, spareBytes_encodeBlob]
    exact foldl_push_iterate_fill c.length_spares
  rw [decodeBlob_eq, bodies_encodeBlob, hspares, List.take_append_drop]

/-! ### All blobs -/

theorem flatten_chunks (bytes : Bytes) :
    ((List.finRange (blobCount bytes)).map fun i => (chunk bytes i).1).flatten = padded bytes := by
  have hparts := flatMap_parts blobEncodableData (padded bytes) (blobCount bytes)
  rw [← length_padded, List.take_length, ← List.map_coe_finRange_eq_range, List.flatMap_map] at hparts
  exact hparts

/-- A list of blobs is decoded to the bytes of its blobs; none of them fails. -/
theorem mapM_decodeBlob (blobs : List Blob) :
    blobs.mapM decodeBlob = .ok (blobs.map fun blob => blob.bodies ++ (blob.sparesAfter fieldElementsPerBlob).out) := by
  rw [mapM_ok, List.forall₂_map_right_iff]
  exact List.forall₂_same.mpr fun blob _ => decodeBlob_eq blob

theorem decodeString_encodeString {payload : Bytes} (h : payload.length < 2 ^ 64) (rest : Bytes) :
    decodeString (Rlp.encodeString payload ++ rest) = .ok payload := by
  unfold decodeString
  rw [Rlp.decodeHeader_encodeString h]
  dsimp only
  rw [if_neg Bool.false_ne_true, if_neg, List.take_left]
  rw [List.length_append]
  omega

theorem decodeString_ne_spareBits (bytes : Bytes) (bits : ℕ) : decodeString bytes ≠ .error (.spareBits bits) := by
  unfold decodeString
  split
  · simp
  · split
    · simp
    · split <;> simp

/-- Decoding the blobs of a payload gives it back, whatever blobs follow. -/
theorem decode_blobs_encode_blobs : (∀ payload : Bytes, payload.length < 2 ^ 64 → ∀ trailing : List Blob,
      decodeBlobs (encodeBlobs payload ++ trailing) = .ok payload) ∧
    (∀ blobs bits, decodeBlobs blobs ≠ .error (.spareBits bits)) ∧
    ∀ (blob : Blob) (n : ℕ) (byte : UInt8), blob.spareBytes[n]? = some byte →
      byte.toNat <<< (blob.sparesAfter n).accBits < u16Size := by
  refine ⟨?_, ?_, ?_⟩
  · intro payload hlength trailing
    unfold decodeBlobs
    have hencoded : (encodeBlobs payload).mapM decodeBlob =
        .ok ((List.finRange _).map fun i => (chunk (Rlp.encodeString payload) i).1) := by
      unfold encodeBlobs
      rw [mapM_ok, List.forall₂_map_right_iff, List.forall₂_map_left_iff]
      exact List.forall₂_same.mpr fun i _ => decodeBlob_encodeBlob _
    rw [List.mapM_append, hencoded, mapM_decodeBlob]
    refine Eq.trans (congrArg decodeString (List.flatten_append)) ?_
    rw [flatten_chunks, padded, List.append_assoc]
    exact decodeString_encodeString hlength _
  · intro blobs bits
    unfold decodeBlobs
    rw [mapM_decodeBlob, ok_bind]
    exact decodeString_ne_spareBits _ bits
  · intro blob n byte hget
    have hn : n < blob.spareBytes.length := (List.getElem?_eq_some_iff.mp hget).1
    rw [blob.length_spareBytes] at hn
    exact shiftLeft_lt byte (blob.sparesAfter_accBits hn.le).1

def Blob.zero : Blob := ⟨List.replicate bytesPerBlob 0, List.length_replicate⟩

theorem decode_blobs_encode_blobs_padded : decodeBlobs (encodeBlobs [1, 2, 3] ++ [.zero, .zero]) = .ok [1, 2, 3] ∧
      decodeBlobs (encodeBlobs [7]) = .ok [7] := by
  obtain ⟨hdecode, -, -⟩ := decode_blobs_encode_blobs
  refine ⟨hdecode [1, 2, 3] (by decide) [.zero, .zero], ?_⟩
  have hlow := hdecode [7] (by decide) []
  rwa [List.append_nil] at hlow

end ArbReth.Derive
