import Mathlib.Data.String.Basic
import Tikv.Foundation.AppendLog
import Tikv.Foundation.BigEndian
import Tikv.Foundation.OrderedMap
import Tikv.Foundation.Serial

/-!
# The encryption file dictionary

The dictionary says for every data file which data key and which initialization vector it is
encrypted with. `FileDictionaryFile` keeps it in a file: a header and the whole dictionary, and,
if the log is enabled, one record for every update since. When enough entries have been removed
the file is rewritten. `recovery` reads the file back.

`Format` is what the file needs of the libraries for protobuf messages and checksums. A call of
`FileDictionaryFile` gives the new object and what it does to the file, in order.

A header, a record and a whole dictionary are read back as they were written (`Header.parse_append`,
`encodes`, `recovery_log`), and a record that is cut off is recognised.
-/

namespace Tikv.Encryption

open List

/-- Why a call fails. -/
inductive Error
  /-- `file corrupted! header size mismatch {} != {}` -/
  | headerSizeMismatch (expected actual : ℕ)
  /-- `unknown version {:x}` -/
  | unknownVersion (input : UInt8)
  /-- `file corrupted! content size isn't expected: {}, expected: {}` -/
  | contentSizeUnexpected (actual expected : ℕ)
  /-- `file corrupted! content size is too small: {}, expected: {}` -/
  | contentSizeTooSmall (actual expected : ℕ)
  /-- `file corrupted! crc32 mismatch {} != {}` -/
  | crc32Mismatch (expected checksum : UInt32)
  | tailRecordParseIncomplete
  /-- `parse file name failed: {:?}` -/
  | parseFileName
  /-- `file corrupted! record type is unknown: {}` -/
  | unknownRecordType (mode : UInt8)
  /-- `Try to recovery from log file but remove a null entry, file name: {}` -/
  | removeNullEntry (fileName : String)
  /-- A message that protobuf does not parse. -/
  | protobuf
  /-- `metadata {} not found` -/
  | metadataNotFound (key : String)
  /-- `encryption method mismatch, expected {:?} vs actual {:?}` -/
  | wrongMasterKey (expected actual : Bytes)
  /-- `file already exists, {}` -/
  | alreadyExists (fname : String)
  /-- `file name collides with existing file: {}` -/
  | fileNameCollides (fname : String)
  /-- `key id collides {} times!` -/
  | keyIdCollides (times : ℕ)
  /-- `unwrap` of an append file that was never opened, a panic. -/
  | appendFileNone
  /-- `assert!(!self.committed)` -/
  | committed
  /-- The dictionary is too large to be held in memory, and the process ends. -/
  | outOfMemory
  deriving DecidableEq

/-- The encryption method of a file. -/
inductive EncryptionMethod
  | unknown
  | plaintext
  | aes128Ctr
  | aes192Ctr
  | aes256Ctr
  | sm4Ctr
  deriving DecidableEq

structure FileInfo where
  iv : Bytes
  keyId : ℕ
  method : EncryptionMethod
  deriving DecidableEq

/-- The file names with their encryption, as `FileDictionary::files`. -/
abbrev FileDictionary := OrderedMap String FileInfo

structure EncryptedContent where
  metadata : OrderedMap String Bytes
  content : Bytes

/-! ### What libraries do -/

/-- A way to write messages that can be read back. -/
structure MessageCodec (α : Type) where
  /-- `write_to_bytes` -/
  encode : α → Bytes
  decode : Bytes → Option α
  decode_encode : ∀ a, decode (encode a) = some a

namespace MessageCodec

variable {α : Type}

/-- `merge_from_bytes` into an empty message. -/
def mergeFromBytes (c : MessageCodec α) (b : Bytes) : Except Error α :=
  match c.decode b with
  | some a => .ok a
  | none => .error .protobuf

theorem mergeFromBytes_encode (c : MessageCodec α) (a : α) :
    c.mergeFromBytes (c.encode a) = .ok a := by
  rw [mergeFromBytes, c.decode_encode]

end MessageCodec

/-- What the file takes from libraries. -/
structure Format where
  crc32 : Bytes → UInt32
  fileInfo : MessageCodec FileInfo
  fileDictionary : MessageCodec FileDictionary
  encryptedContent : MessageCodec EncryptedContent

/-- `as_bytes` of a string. -/
def asBytes (s : String) : Bytes := s.toByteArray.data.toList

/-- `String::from_utf8`. -/
def fromUtf8 (b : Bytes) : Except Error String :=
  match String.fromUTF8? ⟨b.toArray⟩ with
  | some s => .ok s
  | none => .error .parseFileName

theorem fromUtf8_asBytes (s : String) : fromUtf8 (asBytes s) = .ok s := by
  have hbytes : (⟨(asBytes s).toArray⟩ : ByteArray) = s.toByteArray := by
    rw [asBytes]
  rw [fromUtf8, hbytes, String.fromUTF8?, dif_pos s.isValidUTF8]
  rfl

/-! ### A plain format

Every value is written field by field, with its lengths in front. The checksum is the sum of the
bytes. -/

namespace Plain

def nat : Serial UInt8 ℕ := .nat (· = 0) 1 0 rfl rfl

def bytes : Serial UInt8 Bytes := nat.list .symbol

def string : Serial UInt8 String :=
  bytes.ofPartialInv asBytes (fun b => (fromUtf8 b).toOption) fun s => by
    rw [fromUtf8_asBytes]
    rfl

def method : Serial UInt8 EncryptionMethod :=
  let methods : List EncryptionMethod :=
    [.unknown, .plaintext, .aes128Ctr, .aes192Ctr, .aes256Ctr, .sm4Ctr]
  nat.ofPartialInv (methods.idxOf ·) (methods[·]?) fun m => by cases m <;> rfl

def map {V : Type} (A : Serial UInt8 V) : Serial UInt8 (OrderedMap String V) :=
  (nat.list (string.prod A)).ofPartialInv OrderedMap.entries
    (fun entries => if h : entries.Pairwise (·.1 < ·.1) then some ⟨entries, h⟩ else none)
    fun m => dif_pos m.sorted

def fileInfo : Serial UInt8 FileInfo :=
  (bytes.prod (nat.prod method)).ofPartialInv (fun i => (i.iv, i.keyId, i.method))
    (fun i => some ⟨i.1, i.2.1, i.2.2⟩) fun _ => rfl

def encryptedContent : Serial UInt8 EncryptedContent :=
  ((map bytes).prod bytes).ofPartialInv (fun c => (c.metadata, c.content))
    (fun c => some ⟨c.1, c.2⟩) fun _ => rfl

/-- A message is a value with nothing behind it. -/
def codec {α : Type} (A : Serial UInt8 α) : MessageCodec α where
  encode := A.write
  decode b := (A.read b).map Prod.fst
  decode_encode a := by
    have h := A.read_write a []
    rw [List.append_nil] at h
    rw [h, Option.map_some]

end Plain

def plainFormat : Format where
  crc32 b := b.foldl (fun crc byte => crc + byte.toUInt32) 0
  fileInfo := Plain.codec Plain.fileInfo
  fileDictionary := Plain.codec (Plain.map Plain.fileInfo)
  encryptedContent := Plain.codec Plain.encryptedContent

/-! ### Slices of bytes -/

/-- `&b[off..off + len]` -/
def slice (b : Bytes) (off len : ℕ) : Bytes := (b.drop off).take len

theorem slice_append {a b : Bytes} {off len : ℕ} (ha : a.length = off) (hb : b.length = len)
    (c : Bytes) : slice (a ++ (b ++ c)) off len = b := by
  rw [slice, drop_left' ha, take_left' hb]

theorem slice_zero {b : Bytes} {len : ℕ} (hb : b.length = len) (c : Bytes) :
    slice (b ++ c) 0 len = b := take_left' hb

theorem ofBeBytes_crc (v : UInt32) : UInt32.ofNat (ofBeBytes (beBytes 4 v.toNat)) = v := by
  rw [ofBeBytes_beBytes v.toNat_lt, UInt32.ofNat_toNat]

/-! ### The header of an encrypted file -/

inductive Version
  | v1
  /-- The end contains a variable number of unencrypted log records. -/
  | v2
  deriving DecidableEq

namespace Version

def toByte : Version → UInt8
  | v1 => 1
  | v2 => 2

def ofByte (input : UInt8) : Except Error Version :=
  if input = 1 then .ok v1 else if input = 2 then .ok v2 else .error (.unknownVersion input)

theorem ofByte_toByte (v : Version) : ofByte v.toByte = .ok v := by
  cases v <;> rfl

/-- A file of the first version ends with the content. -/
def checkSize (remainedSize size : ℕ) : Version → Except Error Unit
  | v1 => if remainedSize ≠ size then .error (.contentSizeUnexpected remainedSize size) else .ok ()
  | v2 => if remainedSize < size then .error (.contentSizeTooSmall remainedSize size) else .ok ()

end Version

structure Header where
  version : Version
  crc32 : UInt32
  size : ℕ

namespace Header

variable (fmt : Format)

/-- Version, reserved bytes, checksum and content size. -/
def headerSize : ℕ := 1 + 3 + 4 + 8

def new (content : Bytes) (version : Version) : Header where
  version := version
  crc32 := fmt.crc32 content
  size := content.length

def toBytes (h : Header) : Bytes :=
  [h.version.toByte, 0, 0, 0] ++ (beBytes 4 h.crc32.toNat ++ beBytes 8 h.size)

/-- Parse bytes into header, content and remained bytes. -/
def parse (buf : Bytes) : Except Error (Header × Bytes × Bytes) :=
  if buf.length < headerSize then .error (.headerSizeMismatch headerSize buf.length)
  else do
    let version ← Version.ofByte (buf.getD 0 0)
    let crc32 := UInt32.ofNat (ofBeBytes (slice buf 4 4))
    let size := ofBeBytes (slice buf 8 8)
    version.checkSize (buf.length - headerSize) size
    let content := slice buf headerSize size
    let remained := buf.drop (headerSize + size)
    if fmt.crc32 content ≠ crc32 then throw (.crc32Mismatch crc32 (fmt.crc32 content))
    else return (⟨version, crc32, size⟩, content, remained)

theorem length_toBytes (h : Header) : h.toBytes.length = headerSize := by
  simp [toBytes, headerSize]

/-- A header and its content are read back, and what is behind them is left. -/
theorem parse_append {content : Bytes} (version : Version) (rest : Bytes)
    (hsize : content.length < 2 ^ 64)
    (hcheck : version.checkSize (content ++ rest).length content.length = .ok ()) :
    parse fmt ((new fmt content version).toBytes ++ (content ++ rest)) =
      .ok (new fmt content version, content, rest) := by
  set h := new fmt content version with hh
  have hlen := h.length_toBytes
  have hcrc : slice (h.toBytes ++ (content ++ rest)) 4 4 = beBytes 4 h.crc32.toNat := by
    rw [toBytes, append_assoc, append_assoc]
    exact slice_append rfl (length_beBytes _ _) _
  have hsz : slice (h.toBytes ++ (content ++ rest)) 8 8 = beBytes 8 h.size := by
    rw [toBytes, ← append_assoc [_, 0, 0, 0], append_assoc]
    exact slice_append (by simp) (length_beBytes _ _) _
  have hcontent : slice (h.toBytes ++ (content ++ rest)) headerSize content.length = content :=
    slice_append hlen rfl _
  have hrest : (h.toBytes ++ (content ++ rest)).drop (headerSize + content.length) = rest := by
    rw [← append_assoc]
    exact drop_left' (by rw [length_append, hlen])
  have hver : (h.toBytes ++ (content ++ rest)).getD 0 0 = version.toByte := rfl
  have hremained : (h.toBytes ++ (content ++ rest)).length - headerSize =
      (content ++ rest).length := by
    rw [length_append, hlen, Nat.add_sub_cancel_left]
  have hge : ¬ (h.toBytes ++ (content ++ rest)).length < headerSize := by
    rw [length_append]
    omega
  have hread : ofBeBytes (beBytes 8 h.size) = content.length := ofBeBytes_beBytes hsize
  rw [parse, hver, Version.ofByte_toByte, hcrc, hsz, hremained, hread, ofBeBytes_crc]
  simp only [ok_bind, hcheck, hcontent, hrest]
  exact if_neg (not_not_intro rfl)

end Header

open Header

/-! ### Records -/

inductive LogRecord
  | insert (info : FileInfo)
  | remove
  deriving DecidableEq

/-- An update of the dictionary: the name of a file and what happens to its entry. -/
abbrev Update := String × LogRecord

namespace LogRecord

/-- The byte of the log type. -/
def mode : LogRecord → UInt8
  | insert _ => 1
  | remove => 2

/-- The bytes of the `FileInfo` of a record. -/
def infoBytes (fmt : Format) : LogRecord → Bytes
  | insert info => fmt.fileInfo.encode info
  | remove => []

end LogRecord

namespace Update

variable (dict : FileDictionary)

/-- What `insert` and `remove` do to the dictionary in memory. -/
def apply : Update → FileDictionary
  | (name, .insert info) => dict.insert name info
  | (name, .remove) => dict.erase name

/-- What recovery does with a record. -/
def replay : Update → Except Error FileDictionary
  | (name, .insert info) => .ok (dict.insert name info)
  | (name, .remove) =>
    if (dict.lookup name).isSome then .ok (dict.erase name) else .error (.removeNullEntry name)

/-- The callers remove a name only if the dictionary has it. -/
def Applicable : Update → Prop
  | (_, .insert _) => True
  | (name, .remove) => (dict.lookup name).isSome = true

instance (dict : FileDictionary) : DecidablePred (Applicable dict)
  | (_, .insert _) => .isTrue trivial
  | (name, .remove) => inferInstanceAs (Decidable ((dict.lookup name).isSome = true))

/-- The lengths of the name and of the info fit into the two bytes the record has for them. -/
def Short (fmt : Format) (u : Update) : Prop :=
  (asBytes u.1).length < 65536 ∧ (u.2.infoBytes fmt).length < 65536

theorem replay_of_applicable {dict : FileDictionary} {u : Update} (h : Applicable dict u) :
    replay dict u = .ok (apply dict u) := by
  obtain ⟨name, record⟩ := u
  cases record with
  | insert info => rfl
  | remove => exact if_pos h

end Update

/-- Checksum, name length, info length and log type. -/
def recordHeaderSize : ℕ := 4 + 2 + 2 + 1

/-- The name and the info of a record. -/
def recordContent (fmt : Format) (u : Update) : Bytes := asBytes u.1 ++ u.2.infoBytes fmt

/-- The header of a record. The lengths are truncated to two bytes. -/
def recordHeader (fmt : Format) (u : Update) : Bytes :=
  beBytes 4 (fmt.crc32 (recordContent fmt u)).toNat ++ (beBytes 2 (asBytes u.1).length ++
    (beBytes 2 (u.2.infoBytes fmt).length ++ [u.2.mode]))

def convertRecordToBytes (fmt : Format) (u : Update) : Bytes :=
  recordHeader fmt u ++ recordContent fmt u

def parseNextRecord (fmt : Format) (remained : Bytes) : Except Error (ℕ × Update) :=
  if remained.length < recordHeaderSize then .error .tailRecordParseIncomplete
  else
    let crc32 := UInt32.ofNat (ofBeBytes (slice remained 0 4))
    let nameLen := ofBeBytes (slice remained 4 2)
    let infoLen := ofBeBytes (slice remained 6 2)
    let mode := remained.getD (recordHeaderSize - 1) 0
    let content := remained.drop recordHeaderSize
    if content.length < nameLen + infoLen then .error .tailRecordParseIncomplete
    else
      let checksum := fmt.crc32 (slice content 0 (nameLen + infoLen))
      if checksum ≠ crc32 then
        -- Only when this record is the last one can the panic be skipped.
        if (content.drop (nameLen + infoLen)).isEmpty then .error .tailRecordParseIncomplete
        else .error (.crc32Mismatch crc32 checksum)
      else do
        let fileName ← fromUtf8 (slice content 0 nameLen)
        let usedSize := recordHeaderSize + nameLen + infoLen
        if mode = 2 then return (usedSize, fileName, .remove)
        else if mode = 1 then
          let info ← fmt.fileInfo.mergeFromBytes (slice content nameLen infoLen)
          return (usedSize, fileName, .insert info)
        else throw (.unknownRecordType mode)

section Records

variable {fmt : Format} {u : Update}

@[simp]
theorem length_recordHeader (fmt : Format) (u : Update) :
    (recordHeader fmt u).length = recordHeaderSize := by
  simp [recordHeader, recordHeaderSize]

theorem length_convertRecordToBytes (fmt : Format) (u : Update) :
    (convertRecordToBytes fmt u).length =
    recordHeaderSize + (asBytes u.1).length + (u.2.infoBytes fmt).length := by
  simp [convertRecordToBytes, recordContent, Nat.add_assoc]

/-- The fields of a record's header, whatever is behind it. -/
theorem slice_recordHeader (hu : u.Short fmt) (tail : Bytes) :
    UInt32.ofNat (ofBeBytes (slice (recordHeader fmt u ++ tail) 0 4)) =
        fmt.crc32 (recordContent fmt u) ∧
      ofBeBytes (slice (recordHeader fmt u ++ tail) 4 2) = (asBytes u.1).length ∧
      ofBeBytes (slice (recordHeader fmt u ++ tail) 6 2) = (u.2.infoBytes fmt).length ∧
      (recordHeader fmt u ++ tail).getD (recordHeaderSize - 1) 0 = u.2.mode := by
  simp only [recordHeader, append_assoc]
  refine ⟨?_, ?_, ?_, ?_⟩
  · rw [slice_zero (length_beBytes _ _), ofBeBytes_crc]
  · rw [slice_append (length_beBytes _ _) (length_beBytes _ _), ofBeBytes_beBytes hu.1]
  · rw [← append_assoc (beBytes 4 _), slice_append (by simp) (length_beBytes _ _),
      ofBeBytes_beBytes hu.2]
  · rw [← append_assoc (beBytes 4 _), ← append_assoc (_ ++ _),
      getD_eq_getElem?_getD, getElem?_append_right (by simp [recordHeaderSize])]
    simp [recordHeaderSize]

/-- A record is read back, and what is behind it is left. -/
theorem parseNextRecord_append (hu : u.Short fmt) (rest : Bytes) :
    parseNextRecord fmt (convertRecordToBytes fmt u ++ rest) =
      .ok ((convertRecordToBytes fmt u).length, u) := by
  obtain ⟨hcrc, hname, hinfo, hmode⟩ := slice_recordHeader hu (recordContent fmt u ++ rest)
  have hcontent : (recordContent fmt u).length =
      (asBytes u.1).length + (u.2.infoBytes fmt).length := length_append
  have hdrop : (recordHeader fmt u ++ (recordContent fmt u ++ rest)).drop recordHeaderSize =
      recordContent fmt u ++ rest := drop_left' (length_recordHeader fmt u)
  have hlen : ¬ (recordHeader fmt u ++ (recordContent fmt u ++ rest)).length <
      recordHeaderSize := by
    rw [length_append, length_recordHeader]
    omega
  have hge : ¬ (recordContent fmt u ++ rest).length <
      (asBytes u.1).length + (u.2.infoBytes fmt).length := by
    rw [length_append]
    omega
  have hslice : slice (recordContent fmt u ++ rest) 0
      ((asBytes u.1).length + (u.2.infoBytes fmt).length) = recordContent fmt u :=
    slice_zero hcontent rest
  have hsliceName : slice (recordContent fmt u ++ rest) 0 (asBytes u.1).length = asBytes u.1 := by
    rw [recordContent, append_assoc]
    exact slice_zero rfl _
  have hsliceInfo : slice (recordContent fmt u ++ rest) (asBytes u.1).length
      (u.2.infoBytes fmt).length = u.2.infoBytes fmt := by
    rw [recordContent, append_assoc]
    exact slice_append rfl rfl _
  rw [length_convertRecordToBytes, convertRecordToBytes, append_assoc, parseNextRecord,
    if_neg hlen, hcrc,
    hname, hinfo, hmode, hdrop]
  simp only [if_neg hge, hslice, ne_eq, not_true_eq_false, if_false, hsliceName, hsliceInfo,
    fromUtf8_asBytes, ok_bind]
  obtain ⟨name, record⟩ := u
  cases record with
  | insert info =>
    simp only [LogRecord.infoBytes, MessageCodec.mergeFromBytes_encode]
    rfl
  | remove => exact if_pos rfl

/-- A record that is cut off is recognised: the header is not there, or it asks for more than
there is. -/
theorem parseNextRecord_cut (hu : u.Short fmt) {cut : Bytes}
    (hcut : cut <+: convertRecordToBytes fmt u)
    (hne : cut ≠ convertRecordToBytes fmt u) :
    parseNextRecord fmt cut = .error .tailRecordParseIncomplete := by
  by_cases hlen : cut.length < recordHeaderSize
  · exact if_pos hlen
  obtain ⟨tail, rfl⟩ : recordHeader fmt u <+: cut := by
    refine prefix_of_prefix_length_le (prefix_append _ _) hcut ?_
    exact not_lt.mp hlen
  have htail : tail <+: recordContent fmt u := (prefix_append_right_inj _).mp hcut
  obtain ⟨-, hname, hinfo, -⟩ := slice_recordHeader hu tail
  have hshort : tail.length < (asBytes u.1).length + (u.2.infoBytes fmt).length := by
    have hle := htail.length_le
    rw [recordContent, length_append] at hle
    refine lt_of_le_of_ne hle fun heq => hne ?_
    rw [convertRecordToBytes, htail.eq_of_length (by rw [heq, recordContent, length_append])]
  rw [parseNextRecord, hname, hinfo]
  exact if_pos hshort

theorem used_pos {b : Bytes} {n : ℕ} (h : parseNextRecord fmt b = .ok (n, u)) : 0 < n := by
  unfold parseNextRecord at h
  split_ifs at h
  dsimp only at h
  split at h
  · cases h
  split at h
  · split at h <;> cases h
  obtain ⟨name, -, h⟩ := bind_eq_ok.mp h
  split at h
  · cases h
    exact Nat.add_pos_left (Nat.add_pos_left (by decide) _) _
  split_ifs at h
  obtain ⟨info, -, h⟩ := bind_eq_ok.mp h
  cases h
  exact Nat.add_pos_left (Nat.add_pos_left (by decide) _) _

end Records

/-- The loop of `recovery` goes on while records can be read, and ends at an incomplete one. -/
def recordReader (fmt : Format) : RecordReader UInt8 Update Error where
  parse := parseNextRecord fmt
  isTail e := e = .tailRecordParseIncomplete
  used_pos := used_pos

theorem encodes (fmt : Format) :
    Encodes (recordReader fmt) (convertRecordToBytes fmt) (Update.Short fmt) where
  parse_encode hu rest := by
    exact parseNextRecord_append hu rest
  parse_cut hu hcut _ hne := by
    exact ⟨_, parseNextRecord_cut hu hcut hne, rfl⟩

/-! ### The content of the file -/

namespace PlaintextBackend

def encrypt (plaintext : Bytes) : EncryptedContent where
  metadata := OrderedMap.empty.insert "method" (asBytes "plaintext")
  content := plaintext

def decrypt (ciphertext : EncryptedContent) : Except Error Bytes :=
  match ciphertext.metadata.lookup "method" with
  | none => .error (.metadataNotFound "method")
  | some method =>
    if method ≠ asBytes "plaintext" then .error (.wrongMasterKey (asBytes "plaintext") method)
    else .ok ciphertext.content

theorem decrypt_encrypt (plaintext : Bytes) : decrypt (encrypt plaintext) = .ok plaintext := by
  simp [decrypt, encrypt, OrderedMap.lookup_insert]

end PlaintextBackend

open PlaintextBackend

/-- The bytes that `rewrite` puts into the file. Without the log they are those of
`EncryptedFile::write`. -/
def rewriteBytes (fmt : Format) (enableLog : Bool) (fileDict : FileDictionary) : Bytes :=
  let fileDictBytes := fmt.fileDictionary.encode fileDict
  if enableLog then (new fmt fileDictBytes .v2).toBytes ++ fileDictBytes
  else
    let encryptedContent := fmt.encryptedContent.encode (encrypt fileDictBytes)
    (new fmt encryptedContent .v1).toBytes ++ encryptedContent

/-- The encodings of the dictionary have a length that a machine word holds, as everything in
memory has. -/
def Fits (fmt : Format) (fileDict : FileDictionary) : Prop :=
  let fileDictBytes := fmt.fileDictionary.encode fileDict
  fileDictBytes.length < 2 ^ 64 ∧
    (fmt.encryptedContent.encode (encrypt fileDictBytes)).length < 2 ^ 64

instance (fmt : Format) : DecidablePred (Fits fmt) := fun _ => inferInstanceAs (Decidable (_ ∧ _))

/-- Read a dictionary from the bytes of a file. -/
def recovery (fmt : Format) (buf : Bytes) : Except Error FileDictionary := do
  let (header, content, remained) ← parse fmt buf
  match header.version with
  | .v1 =>
    let encryptedContent ← fmt.encryptedContent.mergeFromBytes content
    let content ← decrypt encryptedContent
    fmt.fileDictionary.mergeFromBytes content
  | .v2 =>
    let fileDict ← fmt.fileDictionary.mergeFromBytes content
    (recordReader fmt).replay Update.replay fileDict remained

section Content

variable {fmt : Format} {fileDict : FileDictionary}

/-- A rewritten file with log records behind it: the records are applied to the dictionary. -/
theorem recovery_log (h : Fits fmt fileDict) (remained : Bytes) :
    recovery fmt (rewriteBytes fmt true fileDict ++ remained) =
      (recordReader fmt).replay Update.replay fileDict remained := by
  have hcheck : ∀ content : Bytes, Version.v2.checkSize (content ++ remained).length
      content.length = .ok () := by
    intro content
    rw [length_append]
    exact if_neg (by omega)
  rw [rewriteBytes, if_pos rfl, append_assoc, recovery,
    parse_append fmt _ _ h.1 (hcheck _)]
  simp only [ok_bind, new, MessageCodec.mergeFromBytes_encode]

theorem recovery_rewriteBytes (h : Fits fmt fileDict) (enableLog : Bool) :
    recovery fmt (rewriteBytes fmt enableLog fileDict) = .ok fileDict := by
  cases enableLog with
  | true =>
    have hlog := recovery_log h []
    rwa [append_nil, RecordReader.replay_nil] at hlog
  | false =>
    have hparse := parse_append fmt .v1 [] h.2
      (by rw [append_nil]; exact if_neg (not_not_intro rfl))
    rw [append_nil] at hparse
    rw [rewriteBytes, if_neg (by decide), recovery, hparse]
    simp only [ok_bind, new, MessageCodec.mergeFromBytes_encode,
      decrypt_encrypt]

end Content

/-! ### The file dictionary file -/

/-- What a call does to the file. -/
abbrev FileEffect := AppendFile.Effect UInt8

structure FileDictionaryFile where
  /-- Whether the file is open to be appended to. -/
  appendFile : Bool
  fileDict : FileDictionary
  enableLog : Bool
  fileRewriteThreshold : ℕ
  /-- The number of entries removed since the file was rewritten. -/
  removed : ℕ
  fileSize : ℕ

namespace FileDictionaryFile

variable (fmt : Format) (f : FileDictionaryFile)

/-- Write the whole dictionary to a new file and put it in the place of the old one. -/
def rewrite : FileDictionaryFile × List FileEffect :=
  let bytes := rewriteBytes fmt f.enableLog f.fileDict
  if f.enableLog then
    ({ f with fileSize := bytes.length, appendFile := true }, [.install bytes])
  else
    ({ f with fileSize := (fmt.fileDictionary.encode f.fileDict).length }, [.install bytes])

def new (enableLog : Bool) (fileRewriteThreshold : ℕ) : FileDictionaryFile × List FileEffect :=
  rewrite fmt ⟨false, .empty, enableLog, fileRewriteThreshold, 0, 0⟩

/-- `open` -/
def openFile (file : Bytes) (enableLog : Bool) (fileRewriteThreshold : ℕ) (skipRewrite : Bool) :
    Except Error (FileDictionaryFile × FileDictionary × List FileEffect) := do
  let fileDict ← recovery fmt file
  let f : FileDictionaryFile := ⟨false, fileDict, enableLog, fileRewriteThreshold, 0, 0⟩
  if skipRewrite then return (f, fileDict, [])
  else
    let (f, effects) := rewrite fmt f
    return (f, fileDict, effects)

/-- Called after each append operation. -/
def checkCompact : FileDictionaryFile × List FileEffect :=
  if f.fileRewriteThreshold < f.removed then rewrite fmt { f with removed := 0 } else (f, [])

/-- The object once a record is appended. -/
def appended (u : Update) (removed : ℕ) : FileDictionaryFile :=
  { f with
    fileDict := u.apply f.fileDict
    removed := removed
    fileSize := f.fileSize + (convertRecordToBytes fmt u).length }

/-- What `insert` and `remove` have in common: the dictionary is updated, and a record is appended
or the file is rewritten. -/
def update (u : Update) (removed : ℕ) (sync : Bool) :
    Except Error (FileDictionaryFile × List FileEffect) :=
  if f.enableLog then
    if f.appendFile then
      let compacted := (f.appended fmt u removed).checkCompact fmt
      let effects := if sync then .syncAll :: compacted.2 else compacted.2
      .ok (compacted.1, .append (convertRecordToBytes fmt u) :: effects)
    else .error .appendFileNone
  else .ok (rewrite fmt { f with fileDict := u.apply f.fileDict })

def insert (name : String) (info : FileInfo) (sync : Bool) :
    Except Error (FileDictionaryFile × List FileEffect) :=
  f.update fmt (name, .insert info) f.removed sync

def remove (name : String) (sync : Bool) : Except Error (FileDictionaryFile × List FileEffect) :=
  f.update fmt (name, .remove) (f.removed + 1) sync

def sync : Except Error (List FileEffect) :=
  if f.enableLog then if f.appendFile then .ok [.syncAll] else .error .appendFileNone
  else .ok []

end FileDictionaryFile

end Tikv.Encryption
