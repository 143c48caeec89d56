import EraseCure.CheckedReads
import EraseCure.FileSystems
import EraseCure.Occurrences
import EraseCure.WordBytes

/-!
# Block states and their encoding

A block state holds what is known of a block and data of its format. It is
written as a fixed sequence of words in the byte order of the machine, with the
length of the format data, and the data after it. Reading checks the magic and
the length of the data, but not that the words are there.
-/

set_option autoImplicit false

namespace EraseCure.BlockStates
open EraseCure.FileSystems EraseCure.WordBytes EraseCure.CheckedReads EraseCure.Occurrences

/-- The format data is null or what the pointer leads to. The validation is any
word, as it is read from an encoding without a check. -/
structure BlockState where
  blockNumber : UInt64
  confidence : UInt32
  validation : UInt32
  fileType : Vector UInt8 32
  formatData : Option Bytes
  formatDataLen : UInt64
  offsetInFile : UInt64
  crc32 : UInt32
  crcValid : Bool
  deriving DecidableEq

inductive BlockStateError where
  | invalidArg | noMem
  deriving DecidableEq

def blockValidationUnknown : UInt32 := 0

def blockStateMagic : ℕ := 0x424C4B53

def BlockState.zero : BlockState where
  blockNumber := 0
  confidence := 0
  validation := 0
  fileType := Vector.replicate 32 0
  formatData := none
  formatDataLen := 0
  offsetInFile := 0
  crc32 := 0
  crcValid := false

def blockStateCreate (blockNumber : UInt64) : BlockState :=
  { BlockState.zero with
    blockNumber := blockNumber
    confidence := 0
    validation := blockValidationUnknown }

def blockStateFree (_ : BlockState) : BlockState := .zero

def BlockState.data (bs : BlockState) : Bytes := bs.formatData.getD []

/-- A buffer that is filled from its start, and where the next bytes go. -/
structure Cursor where
  buf : Bytes
  ptr : ℕ

def Cursor.put (c : Cursor) (bytes : Bytes) : Cursor :=
  ⟨c.buf.take c.ptr++(bytes++c.buf.drop (c.ptr+bytes.length)), c.ptr+bytes.length⟩

/-- The copies that serializing makes, in order. -/
def BlockState.pieces (order : ByteOrder) (bs : BlockState) : List Bytes :=
  [stored order 4 blockStateMagic, stored order 8 bs.blockNumber.toNat,
    stored order 4 bs.confidence.toNat, stored order 4 bs.validation.toNat, bs.fileType.toList,
    stored order 8 bs.offsetInFile.toNat, stored order 4 bs.crc32.toNat,
    [if bs.crcValid then 1 else 0], stored order 8 bs.formatDataLen.toNat]++
  if 0 < bs.formatDataLen then [bs.data.take bs.formatDataLen.toNat] else []

def blockStateSerialize (order : ByteOrder) (bs : BlockState) (buf : Bytes) :
    Except BlockStateError (Bytes × ℕ) :=
  let required := (73+bs.formatDataLen.toNat)%2^64
  if buf.length < required then .error .invalidArg
  else
    let c := (bs.pieces order).foldl Cursor.put ⟨buf, 0⟩
    .ok (c.buf, c.ptr)

def readWord (order : ByteOrder) (buf : Bytes) (ptr width : ℕ) : Checked ℕ :=
  (readRange buf ptr width).map (loaded order)

/-- The error, if any, and the block state afterwards. The sum of the position
and the length of the data is a word of 64 bits. -/
def blockStateDeserialize (order : ByteOrder) (malloc : Bool) (bs : BlockState) (buf : Bytes) :
    Checked (Option BlockStateError × BlockState) :=
  if buf.length < 4 then return (some .invalidArg, bs)
  else do
    let magic ← readWord order buf 0 4
    if magic ≠ blockStateMagic then return (some .invalidArg, bs)
    else do
      let bs := blockStateFree bs
      let blockNumber ← readWord order buf 4 8
      let confidence ← readWord order buf 12 4
      let validation ← readWord order buf 16 4
      let fileType ← readRange buf 20 32
      let offsetInFile ← readWord order buf 52 8
      let crc32 ← readWord order buf 60 4
      let cv ← readWord order buf 64 1
      let fdLen ← readWord order buf 65 8
      let bs := { bs with
        blockNumber := UInt64.ofNat blockNumber
        confidence := UInt32.ofNat confidence
        validation := UInt32.ofNat validation
        fileType := Vector.ofFn (fun i => fileType.getD i 0)
        offsetInFile := UInt64.ofNat offsetInFile
        crc32 := UInt32.ofNat crc32
        crcValid := cv ≠ 0 }
      if 0 < fdLen then
        if buf.length < (73+fdLen)%2^64 then return (some .invalidArg, bs)
        else if !malloc then return (some .noMem, bs)
        else do
          let data ← readRange buf 73 fdLen
          return (none, { bs with formatData := some data, formatDataLen := UInt64.ofNat fdLen })
      else return (none, bs)

def BlockState.Holds (bs : BlockState) : Prop := bs.data.length = bs.formatDataLen.toNat

/-- Equal in every field, with the bytes of the format data in place of the pointer. -/
def Same (a b : BlockState) : Prop :=
  { a with formatData := none } = { b with formatData := none } ∧ a.data = b.data

def encoding (order : ByteOrder) (bs : BlockState) : Bytes := (bs.pieces order).flatten

section Writing
variable (order : ByteOrder) (bs : BlockState)

theorem pieces_data (hb : bs.Holds) :
    (if 0 < bs.formatDataLen then [bs.data.take bs.formatDataLen.toNat] else []).flatten =
      bs.data := by
  split_ifs with h
  · rw [List.flatten_singleton, ← hb, List.take_length]
  · have hz : bs.formatDataLen = 0 := by
      rw [UInt64.lt_iff_toNat_lt] at h
      exact UInt64.toNat_inj.mp (Nat.eq_zero_of_not_pos h)
    rw [BlockState.Holds, hz] at hb
    rw [List.flatten_nil, List.eq_nil_of_length_eq_zero hb]

theorem encoding_words (hb : bs.Holds) : encoding order bs =
    stored order 4 blockStateMagic++(stored order 8 bs.blockNumber.toNat++
      (stored order 4 bs.confidence.toNat++(stored order 4 bs.validation.toNat++
        (bs.fileType.toList++(stored order 8 bs.offsetInFile.toNat++
          (stored order 4 bs.crc32.toNat++([if bs.crcValid then 1 else 0]++
            (stored order 8 bs.formatDataLen.toNat++bs.data)))))))) := by
  rw [encoding, BlockState.pieces, List.flatten_append, pieces_data bs hb]
  simp

theorem encoding_length (hb : bs.Holds) :
    (encoding order bs).length = 73+bs.formatDataLen.toNat := by
  rw [encoding_words order bs hb]
  simp only [List.length_append, stored_length, Vector.length_toList, List.length_singleton]
  rw [show bs.data.length = bs.formatDataLen.toNat from hb]
  omega

theorem put_all (pieces : List Bytes) (written rest : Bytes)
    (h : pieces.flatten.length ≤ rest.length) :
    pieces.foldl Cursor.put ⟨written++rest, written.length⟩ =
      ⟨written++(pieces.flatten++rest.drop pieces.flatten.length),
        written.length+pieces.flatten.length⟩ := by
  induction pieces generalizing written rest with
  | nil => simp
  | cons piece pieces ih =>
    rw [List.flatten_cons, List.length_append] at h
    have hput : Cursor.put ⟨written++rest, written.length⟩ piece =
        ⟨(written++piece)++rest.drop piece.length, (written++piece).length⟩ := by
      simp only [Cursor.put, List.take_left, List.drop_append, List.length_append,
        Nat.add_sub_cancel_left]
      rw [List.drop_eq_nil_of_le (by omega)]
      simp
    rw [List.foldl_cons, hput, ih _ _ (by rw [List.length_drop]; omega)]
    simp only [List.flatten_cons, List.length_append, List.drop_drop, List.append_assoc]
    congr 1
    omega

theorem serialize_encoding (hb : bs.Holds) (buf : Bytes)
    (hlen : 73+bs.formatDataLen.toNat ≤ buf.length) (hsize : buf.length < 2^64) :
    blockStateSerialize order bs buf =
      .ok (encoding order bs++buf.drop (73+bs.formatDataLen.toNat),
        73+bs.formatDataLen.toNat) := by
  have henc := encoding_length order bs hb
  have hput := put_all (bs.pieces order) [] buf (by rw [← encoding, henc]; exact hlen)
  rw [← encoding, henc, List.nil_append, List.nil_append, List.length_nil, Nat.zero_add] at hput
  rw [blockStateSerialize]
  dsimp only
  rw [Nat.mod_eq_of_lt (by omega), if_neg (by omega), hput]

end Writing

section Reading
variable (order : ByteOrder)

theorem readWord_occurs (buf : Bytes) (o width n : ℕ) (hn : n < 256^width)
    (h : OccursAt buf o (stored order width n)) : readWord order buf o width = .ok n := by
  have hread := readRange_occurs buf o _ h
  rw [stored_length] at hread
  rw [readWord, hread]
  exact congrArg Except.ok (loaded_stored order width n hn)

theorem flag_occurs (buf : Bytes) (o : ℕ) (b : UInt8) (h : OccursAt buf o [b]) :
    readWord order buf o 1 = .ok b.toNat := by
  have hread := readRange_occurs buf o _ h
  rw [List.length_singleton] at hread
  rw [readWord, hread]
  cases order <;> rfl

/-- The bytes of an encoding that begins the buffer, each where it is read. -/
theorem encoding_occurs (bs : BlockState) (hb : bs.Holds) (buf : Bytes)
    (hbuf : encoding order bs <+: buf) :
    readWord order buf 0 4 = .ok blockStateMagic ∧
      readWord order buf 4 8 = .ok bs.blockNumber.toNat ∧
      readWord order buf 12 4 = .ok bs.confidence.toNat ∧
      readWord order buf 16 4 = .ok bs.validation.toNat ∧
      readRange buf 20 32 = .ok bs.fileType.toList ∧
      readWord order buf 52 8 = .ok bs.offsetInFile.toNat ∧
      readWord order buf 60 4 = .ok bs.crc32.toNat ∧
      readWord order buf 64 1 = .ok (if bs.crcValid then 1 else 0) ∧
      readWord order buf 65 8 = .ok bs.formatDataLen.toNat ∧
      readRange buf 73 bs.formatDataLen.toNat = .ok bs.data := by
  rw [← occurs_zero, encoding_words order bs hb] at hbuf
  simp only [occurs_append, stored_length, Vector.length_toList, List.length_singleton,
    Nat.zero_add, Nat.reduceAdd] at hbuf
  obtain ⟨hmagic, hnumber, hconfidence, hvalidation, htype, hoffset, hcrc, hvalid, hlen, hdata⟩ :=
    hbuf
  have htype := readRange_occurs buf 20 _ htype
  have hdata := readRange_occurs buf 73 _ hdata
  have hvalid := flag_occurs order buf 64 _ hvalid
  rw [Vector.length_toList] at htype
  rw [show bs.data.length = bs.formatDataLen.toNat from hb] at hdata
  refine ⟨readWord_occurs order buf 0 4 _ (by decide) hmagic,
    readWord_occurs order buf 4 8 _ bs.blockNumber.toNat_lt hnumber,
    readWord_occurs order buf 12 4 _ bs.confidence.toNat_lt hconfidence,
    readWord_occurs order buf 16 4 _ bs.validation.toNat_lt hvalidation, htype,
    readWord_occurs order buf 52 8 _ bs.offsetInFile.toNat_lt hoffset,
    readWord_occurs order buf 60 4 _ bs.crc32.toNat_lt hcrc, ?_,
    readWord_occurs order buf 65 8 _ bs.formatDataLen.toNat_lt hlen, hdata⟩
  rw [hvalid]
  split_ifs <;> rfl

theorem vector_of_list (v : Vector UInt8 32) : Vector.ofFn (fun i => v.toList.getD i 0) = v := by
  apply Vector.ext
  intro i hi
  rw [Vector.getElem_ofFn, List.getD_eq_getElem?_getD,
    List.getElem?_eq_getElem (by rwa [Vector.length_toList]), Vector.getElem_toList]
  rfl

/-- A buffer that begins with an encoding is read as the state that was encoded. -/
theorem deserialize_encoding (bs old : BlockState) (hb : bs.Holds) (buf : Bytes)
    (hbuf : encoding order bs <+: buf) (hsize : buf.length < 2^64) :
    ∃ bs', blockStateDeserialize order true old buf = .ok (none, bs') ∧ Same bs' bs := by
  have hlen := hbuf.length_le
  rw [encoding_length order bs hb] at hlen
  obtain ⟨hmagic, hnumber, hconfidence, hvalidation, htype, hoffset, hcrc, hvalid, hfd, hdata⟩ :=
    encoding_occurs order bs hb buf hbuf
  have hflag : decide ((if bs.crcValid then 1 else 0 : ℕ) ≠ 0) = bs.crcValid := by
    cases bs.crcValid <;> rfl
  rw [blockStateDeserialize, if_neg (by omega), hmagic, ok_bind, if_neg (by simp), hnumber,
    ok_bind, hconfidence, ok_bind, hvalidation, ok_bind, htype, ok_bind, hoffset, ok_bind, hcrc,
    ok_bind, hvalid, ok_bind, hfd, ok_bind]
  dsimp only
  rw [vector_of_list, hflag]
  simp only [UInt64.ofNat_toNat, UInt32.ofNat_toNat]
  split_ifs with hpos
  · omega
  · contradiction
  · rw [hdata, ok_bind]
    exact ⟨_, rfl, rfl, rfl⟩
  · have hz : bs.formatDataLen = 0 := UInt64.toNat_inj.mp (Nat.eq_zero_of_not_pos hpos)
    rw [BlockState.Holds, hz] at hb
    refine ⟨_, rfl, ?_, ?_⟩
    · rw [hz]
      rfl
    · exact (List.eq_nil_of_length_eq_zero hb).symm

end Reading

section RoundTrips
variable (order : ByteOrder)

theorem same_of_encoding (a b : BlockState) (ha : a.Holds) (hb : b.Holds)
    (hsize : 73+a.formatDataLen.toNat < 2^64) (h : encoding order a = encoding order b) :
    Same a b := by
  have hlen : (encoding order a).length < 2^64 := by rwa [encoding_length order a ha]
  obtain ⟨a', hread, hsame⟩ :=
    deserialize_encoding order a .zero ha _ (List.prefix_refl _) hlen
  obtain ⟨b', hread', hsame'⟩ :=
    deserialize_encoding order b .zero hb (encoding order a) (by rw [h]) hlen
  rw [hread] at hread'
  cases hread'
  exact ⟨hsame.1.symm.trans hsame'.1, hsame.2.symm.trans hsame'.2⟩

/-- What was written, in front of anything, is read as the state it was written
from, and by no other state. -/
theorem block_state_round_trip (bs : BlockState) (hb : bs.Holds) (buf : Bytes)
    (hbuf : 73+bs.formatDataLen.toNat ≤ buf.length) (hsize : buf.length < 2^64) :
    ∃ out, blockStateSerialize order bs buf = .ok (out, 73+bs.formatDataLen.toNat) ∧
      (∀ (old : BlockState) (input : Bytes), input.length < 2^64 →
        out.take (73+bs.formatDataLen.toNat) <+: input →
        ∃ bs', blockStateDeserialize order true old input = .ok (none, bs') ∧ Same bs' bs) ∧
      ∀ (other : BlockState) (buf' out' : Bytes) (n : ℕ), other.Holds →
        73+other.formatDataLen.toNat ≤ buf'.length → buf'.length < 2^64 →
        blockStateSerialize order other buf' = .ok (out', n) →
        out'.take n = out.take (73+bs.formatDataLen.toNat) → Same other bs := by
  have hwritten : ∀ (a : BlockState) (rest : Bytes), a.Holds →
      (encoding order a++rest).take (73+a.formatDataLen.toNat) = encoding order a := by
    intro a rest ha
    rw [← encoding_length order a ha, List.take_left]
  refine ⟨_, serialize_encoding order bs hb buf hbuf hsize, ?_, ?_⟩
  · intro old input hinput hbegins
    rw [hwritten bs _ hb] at hbegins
    exact deserialize_encoding order bs old hb input hbegins hinput
  · intro other buf' out' n ho hbuf' hsize' hser heq
    rw [serialize_encoding order other ho buf' hbuf' hsize'] at hser
    cases hser
    rw [hwritten bs _ hb, hwritten other _ ho] at heq
    exact same_of_encoding order other bs ho hb (by omega) heq

def twoBytes : BlockState :=
  { blockStateCreate 7 with formatData := some [1, 2], formatDataLen := 2 }

theorem block_state_round_trip_two :
    ∃ out, blockStateSerialize .big twoBytes (List.replicate 80 9) = .ok (out, 75) ∧
      ∀ (old : BlockState) (input : Bytes), input.length < 2^64 → out.take 75 <+: input →
        ∃ bs', blockStateDeserialize .big true old input = .ok (none, bs') ∧
          Same bs' twoBytes := by
  obtain ⟨out, hser, hread, _⟩ := block_state_round_trip .big twoBytes rfl (List.replicate 80 9)
    (by decide) (by decide)
  exact ⟨out, hser, hread⟩

end RoundTrips

end EraseCure.BlockStates
