import Shovel.Library.LittleEndian

/-!
# The datagram header and the encoder

`DataHead` is the 12-byte header `ParserExample::data_head`, laid out without
padding and read and written in little-endian byte order. The parser sees it
through a cast of its byte buffer (`DataHead.ofBytes`); the encoder
`prepareDataForSending` copies the bytes of a header in front of a payload.
-/

namespace Shovel.Parsers

open LittleEndian

/-- `sizeof(data_head)`. -/
def sizeofDataHead : Nat := 12

/-- `sizeof(head)` for a `data_head *head`: the size of a pointer, not of the header. -/
def sizeofHeadPointer : Nat := 8

/-- `std::numeric_limits<uint16_t>::max()`. -/
def uint16Max : Nat := 65535

/-- `MAIN_WORD`, the marker in front of every datagram. -/
def MAIN_WORD : UInt32 := 0xffffffff

/-- The first byte of `_MAIN_WORD` in memory. -/
def mainWordFirstByte : UInt8 := 0xff

/-- `ParserExample::data_head`. -/
structure DataHead where
  mainWord : UInt32
  msgType : UInt16
  msgVer : UInt16
  size : UInt16
  reserv : UInt16
  deriving DecidableEq, Repr

namespace DataHead

/-- The constructor `data_head()`: all bytes zero except for the marker. -/
def init : DataHead := ⟨MAIN_WORD, 0, 0, 0, 0⟩

/-- The bytes of a header in memory. -/
def toBytes (head : DataHead) : List UInt8 :=
  encode 4 head.mainWord.toNat ++ encode 2 head.msgType.toNat ++ encode 2 head.msgVer.toNat ++
    encode 2 head.size.toNat ++ encode 2 head.reserv.toNat

/-- The header at the front of a byte buffer, `(data_head*)buffer.data()`. -/
def ofBytes (bytes : List UInt8) : DataHead where
  mainWord := .ofNat (decode (bytes.take 4))
  msgType := .ofNat (decode ((bytes.drop 4).take 2))
  msgVer := .ofNat (decode ((bytes.drop 6).take 2))
  size := .ofNat (decode ((bytes.drop 8).take 2))
  reserv := .ofNat (decode ((bytes.drop 10).take 2))

@[simp] theorem length_toBytes (head : DataHead) : head.toBytes.length = sizeofDataHead := by
  simp [toBytes, sizeofDataHead]

/-- A header in front of a buffer reads back as itself. -/
theorem ofBytes_toBytes (head : DataHead) (rest : List UInt8) :
    ofBytes (head.toBytes ++ rest) = head := by
  have h32 := head.mainWord.toNat_lt
  have htype := head.msgType.toNat_lt
  have hver := head.msgVer.toNat_lt
  have hsize := head.size.toNat_lt
  have hreserv := head.reserv.toNat_lt
  simp [ofBytes, toBytes, List.drop_append, drop_encode, decode_encode, h32, htype, hver, hsize,
    hreserv]

/-- Only the first twelve bytes of a buffer matter for its header. -/
theorem ofBytes_take (bytes : List UInt8) :
    ofBytes (bytes.take sizeofDataHead) = ofBytes bytes := by
  simp [ofBytes, sizeofDataHead, List.take_take, List.drop_take]

end DataHead

/-! ## The header fields of a byte string -/

/-- The first four bytes are all `0xff`. -/
def hasMainWord (bytes : List UInt8) : Prop :=
  bytes.take 4 = List.replicate 4 0xff

instance (bytes : List UInt8) : Decidable (hasMainWord bytes) :=
  inferInstanceAs (Decidable (_ = _))

/-- The little-endian 16-bit number at bytes 8 and 9. -/
def sizeField (bytes : List UInt8) : Nat :=
  decode ((bytes.drop 8).take 2)

/-- The size field is a 16-bit number. -/
theorem sizeField_le (bytes : List UInt8) : sizeField bytes ≤ uint16Max := by
  have hlt := decode_lt ((bytes.drop 8).take 2)
  have hle : ((bytes.drop 8).take 2).length ≤ 2 := List.length_take_le ..
  have hpow : 256 ^ ((bytes.drop 8).take 2).length ≤ 256 ^ 2 := Nat.pow_le_pow_right (by omega) hle
  simp only [sizeField, uint16Max]
  omega

theorem ofBytes_size (bytes : List UInt8) :
    (DataHead.ofBytes bytes).size.toNat = sizeField bytes := by
  have h := sizeField_le bytes
  simp only [uint16Max] at h
  simp only [DataHead.ofBytes, UInt16.toNat_ofNat']
  exact Nat.mod_eq_of_lt (by simp only [sizeField] at h ⊢; omega)

/-- The marker word of a header is `MAIN_WORD` exactly when its four bytes are `0xff`. -/
theorem ofBytes_mainWord_iff {bytes : List UInt8} (h : 4 ≤ bytes.length) :
    (DataHead.ofBytes bytes).mainWord = MAIN_WORD ↔ hasMainWord bytes := by
  obtain ⟨a, b, c, d, rest, rfl⟩ : ∃ a b c d rest, bytes = a :: b :: c :: d :: rest := by
    match bytes, h with
    | a :: b :: c :: d :: rest, _ => exact ⟨a, b, c, d, rest, rfl⟩
  have ha := a.toNat_lt
  have hb := b.toNat_lt
  have hc := c.toNat_lt
  have hd := d.toNat_lt
  simp only [DataHead.ofBytes, MAIN_WORD, hasMainWord, ← UInt32.toNat_inj, UInt32.toNat_ofNat',
    List.take_succ_cons, List.take_zero, decode, List.replicate, List.cons.injEq, and_true,
    ← UInt8.toNat_inj]
  constructor
  · intro hword
    change _ = 4294967295 at hword
    change _ = 255 ∧ _ = 255 ∧ _ = 255 ∧ _ = 255
    omega
  · rintro ⟨h1, h2, h3, h4⟩
    rw [h1, h2, h3, h4]
    rfl

/-- Appending input does not change the marker once its bytes are there. -/
theorem hasMainWord_append {bytes : List UInt8} (more : List UInt8) (h : 4 ≤ bytes.length) :
    hasMainWord (bytes ++ more) ↔ hasMainWord bytes := by
  simp [hasMainWord, List.take_append_of_le_length h]

/-- Appending input does not change the size field once its bytes are there. -/
theorem sizeField_append {bytes : List UInt8} (more : List UInt8) (h : 10 ≤ bytes.length) :
    sizeField (bytes ++ more) = sizeField bytes := by
  have hdrop : 2 ≤ (bytes.drop 8).length := by
    simp only [List.length_drop]
    omega
  rw [sizeField, List.drop_append_of_le_length (by omega), List.take_append_of_le_length hdrop,
    sizeField]

/-! ## The encoder -/

/-- `ParserExample::prepare_data_for_sending`. A payload that does not fit behind a header into
a 16-bit size yields the empty vector. -/
def prepareDataForSending (buf : List UInt8) : List UInt8 :=
  if buf.length > uint16Max - sizeofDataHead then []
  else
    let head : DataHead :=
      { DataHead.init with
        mainWord := MAIN_WORD
        size := .ofNat (sizeofDataHead + buf.length)
        msgType := 1
        msgVer := 1 }
    let out := List.replicate sizeofDataHead 0 ++ buf
    head.toBytes ++ out.drop sizeofDataHead

/-- The header that `prepareDataForSending` puts in front of a payload of this length. -/
def sendHead (length : Nat) : DataHead :=
  ⟨MAIN_WORD, 1, 1, .ofNat (sizeofDataHead + length), 0⟩

variable {payload : List UInt8}

theorem prepare_eq (h : payload.length ≤ uint16Max - sizeofDataHead) :
    prepareDataForSending payload = (sendHead payload.length).toBytes ++ payload := by
  have hdrop : (List.replicate sizeofDataHead (0 : UInt8) ++ payload).drop sizeofDataHead =
      payload := by simp [sizeofDataHead]
  simp [prepareDataForSending, hdrop, sendHead, DataHead.init, Nat.not_lt.mpr h]

theorem prepare_oversize (h : uint16Max - sizeofDataHead < payload.length) :
    prepareDataForSending payload = [] := by
  simp [prepareDataForSending, h]

/-- A frame is twelve bytes longer than its payload. -/
theorem length_prepare (h : payload.length ≤ uint16Max - sizeofDataHead) :
    (prepareDataForSending payload).length = sizeofDataHead + payload.length := by
  simp [prepare_eq h]

/-- Dropping the header of a frame recovers the payload. -/
theorem drop_prepare (h : payload.length ≤ uint16Max - sizeofDataHead) :
    (prepareDataForSending payload).drop sizeofDataHead = payload := by
  simp [prepare_eq h]

/-- A frame begins with the marker, whatever follows it. -/
theorem prepare_hasMainWord (h : payload.length ≤ uint16Max - sizeofDataHead)
    (rest : List UInt8) : hasMainWord (prepareDataForSending payload ++ rest) := by
  rw [← ofBytes_mainWord_iff (by simp [length_prepare h, sizeofDataHead]; omega), prepare_eq h,
    List.append_assoc, DataHead.ofBytes_toBytes]
  rfl

/-- The size field of a frame is the frame's own length, whatever follows it. -/
theorem prepare_sizeField (h : payload.length ≤ uint16Max - sizeofDataHead)
    (rest : List UInt8) :
    sizeField (prepareDataForSending payload ++ rest) = (prepareDataForSending payload).length := by
  rw [← ofBytes_size, prepare_eq h, List.append_assoc, DataHead.ofBytes_toBytes]
  simp only [sendHead, UInt16.toNat_ofNat', List.length_append, DataHead.length_toBytes]
  simp only [uint16Max, sizeofDataHead] at h ⊢
  omega

end Shovel.Parsers
