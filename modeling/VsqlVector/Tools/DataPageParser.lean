/-
# Data pages read by the dump tool

`DataPageParser::parse` (`src/storage/tools/data_page_parser.cc`) reads a data
page by itself: it finds the bitmap and the records from the number of records in
the header and the size of the column, and the ids of a record from the degree it
computes back from that size. The graph view goes further: it is given the column
size of level 0 only, takes `M` from it and from `M` the column sizes of the other
levels.

The bytes of a page are its fields at their offsets, with the bitmap and the
records behind them (`Page.image`). Where the first record is where the bitmap
ends, the tool and the store read the same of every slot
(`parse_neighbours`, `parse_overflows`).

Key definitions: `DataPageParser.parse`, `fetchRecord`, `Page.image`.
Key theorem: `dump_tool_decodes`.
-/
import VsqlVector.Tools.HnswLayout
import VsqlVector.Storage.RootLayout

namespace VsqlVector

/-! ### The bytes of a data page -/

namespace DataPage

def filPagePrev : ℕ := 8
def filPageNext : ℕ := 12

/-- `ColumnPageType::DATA_PAGE`. -/
def dataPageType : ℕ := 2

end DataPage

namespace Page

open Bytes DataPage

/-- A link as it is stored. -/
def linkRef (r : Option ℕ) : ℕ := r.getD invalidRef

/-- The header fields of a data page, from the version on. -/
def headerFields (version : ℕ) (p : Page) : List (List (BitVec 8)) :=
  [encode 1 version, encode 1 dataPageType, encode 2 p.freeSlotNumber, encode 4 p.rootPageRef,
    encode 4 (linkRef p.prevFreePage), encode 4 (linkRef p.nextFreePage), encode 2 p.maxNumRecs,
    encode 2 p.numFreeRecs]

/-- The bytes of a data page: the links of the server's header and the fields
before the bitmap, then the bitmap and the records. -/
def image (version : ℕ) (p : Page) : Frame :=
  store (store p.bytes filPagePrev (encode 4 (linkRef p.prev) ++ encode 4 (linkRef p.next)))
    versionOff (p.headerFields version).flatten

theorem length_headerFields (version : ℕ) (p : Page) : (p.headerFields version).flatten.length = 20 := by
  simp [headerFields]

/-- Behind the header stand the bitmap and the records. -/
theorem slice_image (version : ℕ) (p : Page) {o n : ℕ} (ho : freeBitmapOff ≤ o) :
    slice (p.image version) o n = slice p.bytes o n := by
  have h58 : freeBitmapOff = 58 := rfl
  have h38 : versionOff = 38 := rfl
  rw [image, slice_store_of_disjoint, slice_store_of_disjoint]
  · right
    simp [filPagePrev]
    omega
  · right
    rw [length_headerFields]
    omega

theorem readNat_image (version : ℕ) (p : Page) {o n : ℕ} (ho : freeBitmapOff ≤ o) :
    readNat (p.image version) o n = readNat p.bytes o n := by
  rw [readNat, readNat, slice_image version p ho]

/-- A header field reads as it was written. -/
theorem at_header (version : ℕ) (p : Page) {k : ℕ} (hk : k < (p.headerFields version).length) :
    At (p.image version) (versionOff + (((p.headerFields version).map List.length).take k).sum)
      (p.headerFields version)[k] :=
  at_of_fields at_store_self hk

theorem readNat_pageType (version : ℕ) (p : Page) : readNat (p.image version) pageTypeOff 1 = dataPageType :=
  readNat_of_at (at_header version p (k := 1) (by norm_num [headerFields]))

theorem readNat_maxNumRecs (version : ℕ) (p : Page) :
    readNat (p.image version) maxNumRecsOff 2 = p.maxNumRecs % 2 ^ 16 :=
  readNat_of_at (at_header version p (k := 6) (by norm_num [headerFields]))

end Page

/-! ### The tool -/

namespace Hnsw
namespace Tools

open Bytes

/-- `HnswRecordKind`. -/
inductive HnswRecordKind where
  | none
  | neighbour
  | overflow
  deriving DecidableEq, Repr

/-- A raw page: its bytes and how many there are. -/
structure RawPage where
  size : ℕ
  bytes : Frame

namespace DataPageParser

/-- The `n` bytes from `offset` on. Indexes have 32 bits; a read past the end of the
page is an outcome of its own. -/
def readBytes (n : ℕ) (data : RawPage) (offset : ℕ) : Except (Fault String) (List (BitVec 8)) :=
  if ∀ k < n, (offset + k) % 2 ^ 32 < data.size then
    .ok ((List.range n).map fun k => data.bytes ((offset + k) % 2 ^ 32))
  else .error .pastEnd

/-- A number of `n` bytes, the most significant first. -/
def readUint (n : ℕ) (data : RawPage) (offset : ℕ) : Except (Fault String) ℕ := (readBytes n data offset).map decode

/-- A read that ends within the page, and whose indexes do not wrap. -/
theorem readBytes_of_le {n offset : ℕ} {data : RawPage} (h : offset + n ≤ data.size) (h32 : offset + n ≤ 2 ^ 32) :
    readBytes n data offset = .ok (slice data.bytes offset n) := by
  have hmod (k : ℕ) (hk : k < n) : (offset + k) % 2 ^ 32 = offset + k := Nat.mod_eq_of_lt (by omega)
  unfold readBytes
  rw [if_pos fun k hk => by rw [hmod k hk]; omega, slice]
  congr 1
  exact List.map_congr_left fun k hk => by rw [hmod k (List.mem_range.mp hk)]

theorem readUint_of_le {n offset : ℕ} {data : RawPage} (h : offset + n ≤ data.size) (h32 : offset + n ≤ 2 ^ 32) :
    readUint n data offset = .ok (readNat data.bytes offset n) := by
  rw [readUint, readBytes_of_le h h32]
  rfl

def readUint8 : RawPage → ℕ → Except (Fault String) ℕ := readUint 1
def readUint16 : RawPage → ℕ → Except (Fault String) ℕ := readUint 2
def readUint32 : RawPage → ℕ → Except (Fault String) ℕ := readUint 4
def readUint64 : RawPage → ℕ → Except (Fault String) ℕ := readUint 8
def readId48 : RawPage → ℕ → Except (Fault String) ℕ := readUint hnswIdSize

/-- The word of a float, which is stored with the least significant byte first. -/
def readFloat (data : RawPage) (offset : ℕ) : Except (Fault String) ℕ :=
  (readBytes 4 data offset).map fun bytes => decode bytes.reverse

structure RecordStatus where
  isFree : Bool
  isDeleted : Bool
  trxRef : ℕ
  vectorData : List ℕ
  ownerVid : ℕ
  lowerLevelNid : ℕ
  neighbours : List (ℕ × ℕ)
  overflowNid : ℕ
  incoming : List ℕ
  deriving DecidableEq, Repr

structure DataPageInfo where
  version : ℕ
  pageType : ℕ
  freeSlotNumber : ℕ
  rootPageRef : ℕ
  prevFreePage : ℕ
  nextFreePage : ℕ
  maxNumRecs : ℕ
  numFreeRecs : ℕ
  filPagePrev : ℕ
  filPageNext : ℕ
  records : List RecordStatus
  indexKind : HnswRecordKind
  hasLowerLevel : Bool
  deriving DecidableEq, Repr

/-- `get_record_bits`: free, and deleted. -/
def getRecordBits (data : RawPage) (bitmapOffset recIndex : ℕ) : Except (Fault String) (Bool × Bool) := do
  let bitPos := recIndex * DataPage.bitsPerRecord
  let bitInByte := bitPos % 8
  let bitmapByte ← readUint8 data (bitmapOffset + bitPos / 8)
  pure (bitmapByte &&& (1 <<< (bitInByte + DataPage.freeBit)) == 0,
    bitmapByte &&& (1 <<< (bitInByte + DataPage.deleteMarkBit)) != 0)

/-- The loop over the neighbour slots, with the offset behind the last one. -/
def readNeighbours (data : RawPage) : ℕ → ℕ → Except (Fault String) (List (ℕ × ℕ) × ℕ)
  | 0, off => pure ([], off)
  | n + 1, off => do
    let nid ← readId48 data off
    let vid ← readId48 data (off + hnswIdSize)
    let (rest, off) ← readNeighbours data n (off + hnswIdSize + hnswIdSize)
    pure ((nid, vid) :: rest, off)

/-- The loop over the incoming slots. -/
def readIncoming (data : RawPage) : ℕ → ℕ → Except (Fault String) (List ℕ × ℕ)
  | 0, off => pure ([], off)
  | n + 1, off => do
    let nid ← readId48 data off
    let (rest, off) ← readIncoming data n (off + hnswIdSize)
    pure (nid :: rest, off)

/-- The loop over the floats, which leaves out those that do not fit the page. -/
def readVector (data : RawPage) (off : ℕ) : ℕ → ℕ → Except (Fault String) (List ℕ)
  | 0, _ => pure []
  | n + 1, j =>
    let floatOffset := (off + j * 4) % 2 ^ 32
    if floatOffset + 4 ≤ data.size then do
      let v ← readFloat data floatOffset
      let rest ← readVector data off n (j + 1)
      pure (v :: rest)
    else readVector data off n (j + 1)

/-- The columns of a record, from `off` on. -/
def readColumns (data : RawPage) (columnSize : ℕ) (indexKind : HnswRecordKind) (hasLowerLevel : Bool)
    (record : RecordStatus) (off : ℕ) : Except (Fault String) RecordStatus :=
  match indexKind with
  | .neighbour => do
    let ownerVid ← readId48 data off
    let off := off + hnswIdSize
    let (lowerLevelNid, off) ←
      if hasLowerLevel then do
        let nid ← readId48 data off
        pure (nid, off + hnswIdSize)
      else pure (record.lowerLevelNid, off)
    let (neighbours, off) ← readNeighbours data (hnswMaxNeighbours columnSize hasLowerLevel) off
    let overflowNid ← readId48 data off
    pure { record with ownerVid, lowerLevelNid, neighbours, overflowNid }
  | .overflow => do
    let (incoming, off) ← readIncoming data (hnswOverflowCapacity columnSize) off
    let overflowNid ← readId48 data off
    pure { record with incoming, overflowNid }
  | .none => do
    let vectorData ← readVector data off (columnSize / 4) 0
    pure { record with vectorData }

/-- One turn of the loop over the records. Offsets have 32 bits. -/
def readRecord (data : RawPage) (columnSize firstRecOffset : ℕ) (indexKind : HnswRecordKind)
    (hasLowerLevel : Bool) (i : ℕ) : Except (Fault String) RecordStatus := do
  let (isFree, isDeleted) ← getRecordBits data DataPage.freeBitmapOff i
  let recSize := DataPage.trxRefSize + columnSize
  let recOffset := (firstRecOffset + i * recSize) % 2 ^ 32
  let record : RecordStatus := ⟨isFree, isDeleted, 0, [], 0, 0, [], 0, []⟩
  if !isFree ∧ (recOffset + recSize) % 2 ^ 32 ≤ data.size then do
    let trxRef ← readUint64 data recOffset
    readColumns data columnSize indexKind hasLowerLevel { record with trxRef } (recOffset + DataPage.trxRefSize)
  else pure record

/-- `DataPageParser::parse`. -/
def parse (data : RawPage) (columnSize : ℕ) (indexKind : HnswRecordKind) (hasLowerLevel : Bool) :
    Except (Fault String) DataPageInfo :=
  if data.size < DataPage.freeBitmapOff then .error (.malformed "Page too small to contain data page header")
  else do
    let filPagePrev ← readUint32 data DataPage.filPagePrev
    let filPageNext ← readUint32 data DataPage.filPageNext
    let version ← readUint8 data DataPage.versionOff
    let pageType ← readUint8 data DataPage.pageTypeOff
    let freeSlotNumber ← readUint16 data DataPage.freeSlotNumberOff
    let rootPageRef ← readUint32 data DataPage.rootPageRefOff
    let prevFreePage ← readUint32 data DataPage.prevFreePageOff
    let nextFreePage ← readUint32 data DataPage.nextFreePageOff
    let maxNumRecs ← readUint16 data DataPage.maxNumRecsOff
    let numFreeRecs ← readUint16 data DataPage.numFreeRecsOff
    if pageType ≠ DataPage.dataPageType then
      .error (.malformed ("Invalid page type: expected DATA_PAGE (2), got " ++ toString pageType))
    else do
      let bitmapSizeBytes := (maxNumRecs * DataPage.bitsPerRecord + 7) / 8
      let firstRecOffset := DataPage.freeBitmapOff + bitmapSizeBytes
      let records ← (List.range maxNumRecs).mapM
        (readRecord data columnSize firstRecOffset indexKind hasLowerLevel)
      pure ⟨version, pageType, freeSlotNumber, rootPageRef, prevFreePage, nextFreePage, maxNumRecs, numFreeRecs,
        filPagePrev, filPageNext, records, indexKind, hasLowerLevel⟩

end DataPageParser

/-! ### The graph view -/

/-- `level_max_neighbours`. -/
def levelMaxNeighbours (level M : ℕ) : ℕ := if level = 0 then 2 * M else M

/-- The `M` that `render_hnsw_graph` takes from the column size of level 0. -/
def inferM (level0ColumnSize : ℕ) : Option ℕ :=
  let maxN0 := hnswMaxNeighbours level0ColumnSize false
  if maxN0 = 0 ∨ maxN0 % 2 ≠ 0 then none else some (maxN0 / 2)

/-- `fetch_record`; `intro` is the line up to its message. -/
def fetchRecord (readPage : ℕ → Except String RawPage) (nidRef level M : ℕ) (intro : String) :
    Except (Fault String) DataPageParser.RecordStatus :=
  let ref := hnswDecodeRef nidRef
  let hasLower := decide (level > 0)
  let columnSize := hnswNeighbourColumnSize (levelMaxNeighbours level M) hasLower
  match readPage ref.pageRef with
  | .error text =>
    .error (.malformed (intro ++ "  (error reading page " ++ toString ref.pageRef ++ ": " ++ text ++ ")\n"))
  | .ok data =>
    match DataPageParser.parse data columnSize .neighbour hasLower with
    | .error (.malformed error) =>
      .error (.malformed (intro ++ "  (error decoding page " ++ toString ref.pageRef ++ ": " ++ error ++ ")\n"))
    | .error .pastEnd => .error .pastEnd
    | .ok info =>
      match info.records[ref.slotIndex]?.filter fun record => !record.isFree with
      | none =>
        .error (.malformed (intro ++ "  (slot " ++ toString ref.slotIndex ++ " on page " ++ toString ref.pageRef ++
          " is not a live record)\n"))
      | some record => .ok record

/-! ### Reading a page of a store -/

/-- The page as the tool gets it. -/
def rawPage (ps : PageSize) (version : ℕ) (p : Page) : RawPage := ⟨ps.bytes, p.image version⟩

namespace DataPageParser

section Reads

variable {ps : PageSize} {version : ℕ} {p : Page} {i n o : ℕ}

theorem readUint_ok (hin : o + n ≤ ps.bytes) :
    readUint n (rawPage ps version p) o = .ok (readNat (p.image version) o n) := by
  have hps : ps.bytes ≤ 2 ^ 16 := by cases ps <;> decide
  exact readUint_of_le hin (by omega)

/-- Behind the header the tool reads the bitmap and the records. -/
theorem readUint_body (ho : DataPage.freeBitmapOff ≤ o) (hin : o + n ≤ ps.bytes) :
    readUint n (rawPage ps version p) o = .ok (readNat p.bytes o n) := by
  rw [readUint_ok hin, Page.readNat_image version p ho]

theorem readNat_one (f : Frame) (o : ℕ) : readNat f o 1 = (f o).toNat := by
  simp [readNat, slice, decode]

/-- A bit of a byte, masked out. -/
theorem and_one_shiftLeft (b : BitVec 8) (k : ℕ) :
    b.toNat &&& (1 <<< k) = (b.getLsbD k).toNat * 2 ^ k := by
  rw [Nat.one_shiftLeft, Nat.and_two_pow]
  rfl

/-- The two bits of a record. -/
theorem getRecordBits_eq (hin : DataPage.freeBitmapOff + i * DataPage.bitsPerRecord / 8 + 1 ≤ ps.bytes) :
    getRecordBits (rawPage ps version p) DataPage.freeBitmapOff i =
      .ok ((DataPage.getRecordStatus p i).2, (DataPage.getRecordStatus p i).1) := by
  have hbyte : readUint8 (rawPage ps version p) (DataPage.freeBitmapOff + i * DataPage.bitsPerRecord / 8) =
      .ok (p.bytes (DataPage.freeBitmapOff + i * DataPage.bitsPerRecord / 8)).toNat := by
    rw [readUint8, readUint_body (Nat.le_add_right _ _) hin, readNat_one]
  unfold getRecordBits DataPage.getRecordStatus DataPage.bitmapPos Page.readInteger1
  simp only [hbyte, and_one_shiftLeft, bind, Except.bind, pure, Except.pure, Except.ok.injEq, Prod.mk.injEq]
  constructor
  · cases (p.bytes (DataPage.freeBitmapOff + i * DataPage.bitsPerRecord / 8)).getLsbD
      (i * DataPage.bitsPerRecord % 8 + DataPage.freeBit) <;> simp
  · cases (p.bytes (DataPage.freeBitmapOff + i * DataPage.bitsPerRecord / 8)).getLsbD
      (i * DataPage.bitsPerRecord % 8 + DataPage.deleteMarkBit) <;> simp

/-- The ids of a record are the chunks of its data. -/
theorem readId48_eq (version : ℕ) (p : Page) (k : ℕ) (ho : DataPage.freeBitmapOff ≤ o) (hk : (k + 1) * Serial.chunkSize ≤ n)
    (hin : o + n ≤ ps.bytes) :
    readId48 (rawPage ps version p) (o + k * Serial.chunkSize) = .ok (Serial.readChunk (slice p.bytes o n) k) := by
  have h6 : Serial.chunkSize = hnswIdSize := rfl
  rw [Nat.succ_mul] at hk
  rw [readId48, readUint_body (by omega) (by omega), readNat, Serial.readChunk, chunk, drop_slice (by omega),
    take_slice (by omega), h6]

theorem readNeighbours_eq (version : ℕ) (p : Page) (base : ℕ) (ho : DataPage.freeBitmapOff ≤ o)
    (hin : o + n ≤ ps.bytes) : ∀ (m k : ℕ),
    (base + 2 * (k + m)) * Serial.chunkSize ≤ n →
    readNeighbours (rawPage ps version p) m (o + (base + 2 * k) * Serial.chunkSize) =
      .ok ((List.range' k m).map fun j => (Serial.readChunk (slice p.bytes o n) (base + 2 * j),
        Serial.readChunk (slice p.bytes o n) (base + 2 * j + 1)), o + (base + 2 * (k + m)) * Serial.chunkSize)
  | 0, k, _ => rfl
  | m + 1, k, h => by
    have h6 : hnswIdSize = Serial.chunkSize := rfl
    have hle : (base + 2 * k + 2) * Serial.chunkSize ≤ n :=
      (Nat.mul_le_mul_right _ (by omega)).trans h
    have h1 : o + (base + 2 * k) * Serial.chunkSize + Serial.chunkSize =
        o + (base + 2 * k + 1) * Serial.chunkSize := by ring
    have h2 : o + (base + 2 * k + 1) * Serial.chunkSize + Serial.chunkSize =
        o + (base + 2 * (k + 1)) * Serial.chunkSize := by ring
    have hnid := readId48_eq version p (base + 2 * k) ho
      ((Nat.mul_le_mul_right _ (Nat.le_succ _)).trans hle) hin
    have hvid := readId48_eq version p (base + 2 * k + 1) ho hle hin
    have hrest := readNeighbours_eq version p base ho hin m (k + 1) (by rwa [show k + 1 + m = k + (m + 1) by omega])
    unfold readNeighbours
    rw [hnid, h6, h1, hvid, h2, hrest, List.range'_succ, show k + 1 + m = k + (m + 1) by omega]
    rfl

theorem readIncoming_eq (version : ℕ) (p : Page) (ho : DataPage.freeBitmapOff ≤ o)
    (hin : o + n ≤ ps.bytes) : ∀ (m k : ℕ),
    (k + m) * Serial.chunkSize ≤ n →
    readIncoming (rawPage ps version p) m (o + k * Serial.chunkSize) =
      .ok ((List.range' k m).map (Serial.readChunk (slice p.bytes o n)), o + (k + m) * Serial.chunkSize)
  | 0, k, _ => rfl
  | m + 1, k, h => by
    have h6 : hnswIdSize = Serial.chunkSize := rfl
    have h1 : o + k * Serial.chunkSize + Serial.chunkSize = o + (k + 1) * Serial.chunkSize := by ring
    have hnid := readId48_eq version p k ho
      ((Nat.mul_le_mul_right _ (by omega)).trans h) hin
    have hrest := readIncoming_eq version p ho hin m (k + 1) (by rwa [show k + 1 + m = k + (m + 1) by omega])
    unfold readIncoming
    rw [hnid, h6, h1, hrest, List.range'_succ, show k + 1 + m = k + (m + 1) by omega]
    rfl

end Reads

/-- A record with the columns of a neighbour entry. -/
def withEntry (record : RecordStatus) (e : RawEntry) : RecordStatus :=
  { record with
    ownerVid := e.owner
    lowerLevelNid := e.lowerLevel
    neighbours := e.neighbours.map fun n => (n.nid, n.vid)
    overflowNid := e.overflow }

/-- A record with the columns of an overflow entry. -/
def withOverflow (record : RecordStatus) (e : RawOverflow) : RecordStatus :=
  { record with incoming := e.incoming, overflowNid := e.overflow }

section Columns

variable {L : LevelLayout} {ps : PageSize} {version : ℕ} {p : Page} {o : ℕ} {record : RecordStatus}

theorem readColumns_neighbour (hM : L.M ≤ 128) (ho : DataPage.freeBitmapOff ≤ o) (hin : o + L.entryLen ≤ ps.bytes)
    (hrecord : record.lowerLevelNid = invalidId) :
    readColumns (rawPage ps version p) L.entryLen .neighbour L.hasLower record o =
      .ok (withEntry record (Serial.storedEntry L (slice p.bytes o L.entryLen))) := by
  have h6 : hnswIdSize = Serial.chunkSize := rfl
  have hlen := LevelLayout.entryLen_eq (L := L)
  have hbase := LevelLayout.neighboursBaseChunk_pos (L := L)
  have hid (k : ℕ) (hk : k < L.neighboursBaseChunk + 2 * L.maxNeighbours + 1) :=
    readId48_eq version p k ho
      (hlen ▸ Nat.mul_le_mul_right _ hk) hin
  have howner := hid 0 (by omega)
  rw [Nat.zero_mul, Nat.add_zero] at howner
  have hnodes := readNeighbours_eq version p L.neighboursBaseChunk ho hin L.maxNeighbours 0 (hlen ▸ Nat.mul_le_mul_right _ (by omega))
  rw [Nat.mul_zero, Nat.add_zero, Nat.zero_add, ← List.range_eq_range'] at hnodes
  have hoverflow := hid (L.neighboursBaseChunk + 2 * L.maxNeighbours) (by omega)
  have hnodesEq : (List.range L.maxNeighbours).map (fun j =>
      (Serial.readChunk (slice p.bytes o L.entryLen) (L.neighboursBaseChunk + 2 * j),
        Serial.readChunk (slice p.bytes o L.entryLen) (L.neighboursBaseChunk + 2 * j + 1))) =
      (Serial.storedEntry L (slice p.bytes o L.entryLen)).neighbours.map fun n => (n.nid, n.vid) := by
    rw [Serial.storedEntry, List.map_map]
    refine List.map_congr_left fun i hi => ?_
    have hi := List.mem_range.mp hi
    simp only [Function.comp_apply, Serial.readNode, LevelLayout.neighbourNidChunk_eq hM hi,
      LevelLayout.neighbourVidChunk_eq hM hi]
  have hoverflowEq : Serial.readChunk (slice p.bytes o L.entryLen) (L.neighboursBaseChunk + 2 * L.maxNeighbours) =
      (Serial.storedEntry L (slice p.bytes o L.entryLen)).overflow := by
    rw [Serial.storedEntry, LevelLayout.neighbourOverflowChunk_eq hM]
  rw [hnodesEq] at hnodes
  rw [hoverflowEq] at hoverflow
  have hstart := LevelLayout.neighboursBaseChunk_eq (L := L)
  have hlower : (Serial.storedEntry L (slice p.bytes o L.entryLen)).lowerLevel =
      if L.hasLower then Serial.readChunk (slice p.bytes o L.entryLen) 1 else invalidId := rfl
  unfold readColumns
  dsimp only
  rw [hnswMaxNeighbours_entryLen]
  -- the slots begin behind the owner and, above level 0, the reference below
  cases hl : L.hasLower
  · rw [hl, if_neg Bool.false_ne_true] at hstart hlower
    have hoff : o + hnswIdSize = o + L.neighboursBaseChunk * Serial.chunkSize := by rw [hstart, h6, Nat.one_mul]
    simp only [howner, hoff, hnodes, hoverflow, bind, Except.bind, pure, Except.pure, Bool.false_eq_true, if_false]
    rw [withEntry, hlower, ← hrecord]
    rfl
  · rw [hl, if_pos rfl] at hstart hlower
    have hnid := hid 1 (by omega)
    rw [Nat.one_mul, ← h6, ← hlower] at hnid
    have hoff : o + hnswIdSize + hnswIdSize = o + L.neighboursBaseChunk * Serial.chunkSize := by
      rw [hstart, h6]
      ring
    simp only [howner, hnid, hoff, hnodes, hoverflow, bind, Except.bind, pure, Except.pure, if_true]
    rfl

theorem readColumns_overflow (ho : DataPage.freeBitmapOff ≤ o) (hin : o + L.overflowLen ≤ ps.bytes) :
    readColumns (rawPage ps version p) L.overflowLen .overflow L.hasLower record o =
      .ok (withOverflow record (Serial.storedOverflow L (slice p.bytes o L.overflowLen))) := by
  have hlen := LevelLayout.overflowLen_eq (L := L)
  have hslots := readIncoming_eq version p ho hin L.overflowCapacity 0 (hlen ▸ Nat.mul_le_mul_right _ (by omega))
  rw [Nat.zero_mul, Nat.add_zero, Nat.zero_add, ← List.range_eq_range'] at hslots
  have hoverflow := readId48_eq version p L.overflowCapacity ho
    (hlen ▸ le_rfl) hin
  unfold readColumns
  simp only [hnswOverflowCapacity_overflowLen, hslots, hoverflow, bind, Except.bind, pure, Except.pure]
  rw [Except.ok.injEq, withOverflow, RecordStatus.mk.injEq]
  refine ⟨rfl, rfl, rfl, rfl, rfl, rfl, rfl, ?_, ?_⟩
  · rw [Serial.storedOverflow, LevelLayout.overflowChunk_eq]
  · rfl

end Columns

/-- What the tool shows of a slot: its bits and, where it is occupied, the
transaction and the columns of the data. -/
def slotRecord (columns : RecordStatus → List (BitVec 8) → RecordStatus) (d : DataPage) (n : ℕ) (p : Page) (i : ℕ) :
    RecordStatus :=
  match d.fetch n i p with
  | .ok r => columns ⟨false, r.deleteMarked, r.trxRef.toNat, [], 0, 0, [], 0, []⟩ r.colData
  | .error _ => ⟨true, (DataPage.getRecordStatus p i).1, 0, [], 0, 0, [], 0, []⟩

section Parse

variable {ps : PageSize} {version n : ℕ} {p : Page} {d : DataPage} {kind : HnswRecordKind} {hasLower : Bool}
  {columns : RecordStatus → List (BitVec 8) → RecordStatus}

theorem readRecord_eq (hok : d.LayoutOK ps n) (hd : d.Apart n) {i : ℕ} (hi : i < d.maxNumRecs)
    (hcols : ∀ record o, DataPage.freeBitmapOff ≤ o → o + n ≤ ps.bytes → record.lowerLevelNid = invalidId →
      readColumns (rawPage ps version p) n kind hasLower record o = .ok (columns record (slice p.bytes o n))) :
    readRecord (rawPage ps version p) n d.firstRecOffset kind hasLower i = .ok (slotRecord columns d n p i) := by
  have hps : ps.bytes ≤ 2 ^ 16 := by cases ps <;> decide
  have h8 : DataPage.trxRefSize = 8 := rfl
  have h2 : DataPage.bitsPerRecord = 2 := rfl
  obtain ⟨hbitmap, harea, -⟩ := hok
  have hoff : d.getRecordOffset i = d.firstRecOffset + i * (DataPage.trxRefSize + n) := by
    rw [DataPage.getRecordOffset, hd.recSize]
  have hlast : d.getRecordOffset i + (DataPage.trxRefSize + n) ≤ ps.bytes := by
    have hle : (i + 1) * (DataPage.trxRefSize + n) ≤ d.maxNumRecs * (DataPage.trxRefSize + n) :=
      Nat.mul_le_mul_right _ hi
    rw [Nat.succ_mul] at hle
    rw [hoff]
    exact (by omega : _ ≤ d.firstRecOffset + d.maxNumRecs * (DataPage.trxRefSize + n)).trans
      ((Nat.le_add_right _ _).trans harea)
  have hbits : getRecordBits (rawPage ps version p) DataPage.freeBitmapOff i =
      .ok ((DataPage.getRecordStatus p i).2, (DataPage.getRecordStatus p i).1) := by
    apply getRecordBits_eq
    have hpos : d.maxNumRecs ≤ d.maxNumRecs * (DataPage.trxRefSize + n) := Nat.le_mul_of_pos_right _ (by omega)
    unfold DataPage.bitsToBytesCeil at hbitmap
    rw [h2] at hbitmap ⊢
    omega
  have hfirst : DataPage.freeBitmapOff ≤ d.getRecordOffset i := by omega
  have hmod : (d.firstRecOffset + i * (DataPage.trxRefSize + n)) % 2 ^ 32 = d.getRecordOffset i := by
    rw [← hoff]
    exact Nat.mod_eq_of_lt (by omega)
  have hmod' : (d.getRecordOffset i + (DataPage.trxRefSize + n)) % 2 ^ 32 =
      d.getRecordOffset i + (DataPage.trxRefSize + n) := Nat.mod_eq_of_lt (by omega)
  have htrx : readUint64 (rawPage ps version p) (d.getRecordOffset i) =
      .ok (p.readInteger8 (d.getRecordOffset i)).toNat := by
    rw [readUint64, readUint_body hfirst (by omega), Page.readInteger8_toNat]
  have hcolumns := hcols ⟨false, (DataPage.getRecordStatus p i).1, (p.readInteger8 (d.getRecordOffset i)).toNat,
    [], 0, 0, [], 0, []⟩ (d.getRecordOffset i + DataPage.trxRefSize) (by omega) (by omega) rfl
  unfold readRecord slotRecord DataPage.fetch
  rcases hs : DataPage.getRecordStatus p i with ⟨deleted, free⟩
  rw [hs] at hbits hcolumns
  simp only [hbits, hmod, hmod', bind, Except.bind, pure, Except.pure]
  cases free
  · rw [if_pos ⟨rfl, show d.getRecordOffset i + (DataPage.trxRefSize + n) ≤ ps.bytes from hlast⟩, htrx]
    exact hcolumns
  · rfl

theorem mapM_ok {α β ε : Type} {f : α → Except ε β} {g : α → β} : ∀ {l : List α}, (∀ a ∈ l, f a = .ok (g a)) →
    l.mapM f = .ok (l.map g)
  | [], _ => rfl
  | a :: l, h => by
    rw [List.mapM_cons, h a List.mem_cons_self, mapM_ok fun b hb => h b (List.mem_cons_of_mem _ hb)]
    rfl

/-- **The pages of a store.** The tool accepts the page and shows every slot. -/
theorem parse_eq (hok : d.LayoutOK ps n) (hd : d.Apart n) (hp : p.maxNumRecs = d.maxNumRecs)
    (hcols : ∀ record o, DataPage.freeBitmapOff ≤ o → o + n ≤ ps.bytes → record.lowerLevelNid = invalidId →
      readColumns (rawPage ps version p) n kind hasLower record o = .ok (columns record (slice p.bytes o n))) :
    ∃ info, parse (rawPage ps version p) n kind hasLower = .ok info ∧
      info.records = (List.range d.maxNumRecs).map (slotRecord columns d n p) := by
  have h58 : DataPage.freeBitmapOff = 58 := rfl
  have hps : 4096 ≤ ps.bytes := by cases ps <;> decide
  have hmax := hd.maxNumRecs_lt
  have hread (m o : ℕ) (h : o + m ≤ DataPage.freeBitmapOff) :
      readUint m (rawPage ps version p) o = .ok (readNat (p.image version) o m) :=
    readUint_ok (by omega)
  have htype : readUint 1 (rawPage ps version p) DataPage.pageTypeOff = .ok DataPage.dataPageType := by
    rw [hread 1 _ (by decide), Page.readNat_pageType]
  have hrecs : readUint 2 (rawPage ps version p) DataPage.maxNumRecsOff = .ok d.maxNumRecs := by
    rw [hread 2 _ (by decide), Page.readNat_maxNumRecs, hp, Nat.mod_eq_of_lt hmax]
  have hfirst : DataPage.freeBitmapOff + (d.maxNumRecs * DataPage.bitsPerRecord + 7) / 8 = d.firstRecOffset := by
    rw [hok.2.2, DataPage.bitsToBytesCeil, Nat.mul_comm]
  have hrecords := mapM_ok (f := readRecord (rawPage ps version p) n d.firstRecOffset kind hasLower)
    (l := List.range d.maxNumRecs) fun i hi => readRecord_eq hok hd (List.mem_range.mp hi) hcols
  unfold parse
  rw [if_neg (show ¬ (rawPage ps version p).size < DataPage.freeBitmapOff from fun h => by
    change ps.bytes < _ at h
    omega)]
  simp only [htype, hrecs, hfirst, hrecords, readUint8, readUint16, readUint32,
    hread 4 DataPage.filPagePrev (by decide), hread 4 DataPage.filPageNext (by decide),
    hread 1 DataPage.versionOff (by decide), hread 2 DataPage.freeSlotNumberOff (by decide),
    hread 4 DataPage.rootPageRefOff (by decide), hread 4 DataPage.prevFreePageOff (by decide),
    hread 4 DataPage.nextFreePageOff (by decide), hread 2 DataPage.numFreeRecsOff (by decide),
    bind, Except.bind, pure, Except.pure, ne_eq, not_true_eq_false, if_false]
  exact ⟨_, rfl, rfl⟩

end Parse

/-- The neighbour entry a record of the tool is. -/
def RecordStatus.entry (record : RecordStatus) : RawEntry :=
  ⟨record.ownerVid, record.lowerLevelNid, record.neighbours.map fun n => ⟨n.1, n.2⟩, record.overflowNid⟩

/-- The overflow entry a record of the tool is. -/
def RecordStatus.overflowEntry (record : RecordStatus) : RawOverflow := ⟨record.incoming, record.overflowNid⟩

/-- The page shows an occupied record at slot `i`, with the transaction, the delete
mark and the entry. -/
def Shows {α : Type} (entry : RecordStatus → α) (parsed : Except (Fault String) DataPageInfo) (i : ℕ)
    (trxRef : BitVec 64) (deleted : Bool) (e : α) : Prop :=
  ∃ info record, parsed = .ok info ∧ info.records[i]? = some record ∧ record.isFree = false ∧
    record.isDeleted = deleted ∧ record.trxRef = trxRef.toNat ∧ entry record = e

/-- The tool decodes the pages of a store of records of `n` bytes: it accepts each
page, shows the status of every slot, and of an occupied one what a fetch
answers from. -/
structure Decodes {α : Type} (entry : RecordStatus → α) (parsed : Page → Except (Fault String) DataPageInfo)
    (d : DataPage) (n : ℕ) (Answers : Page → ℕ → α → Prop) : Prop where
  status : ∀ p, p.maxNumRecs = d.maxNumRecs → ∃ info, parsed p = .ok info ∧
    info.records.map (fun record => (record.isDeleted, record.isFree)) =
      (List.range d.maxNumRecs).map (DataPage.getRecordStatus p)
  fetched : ∀ p i r, p.maxNumRecs = d.maxNumRecs → i < d.maxNumRecs → d.fetch n i p = .ok r →
    ∃ e, Shows entry (parsed p) i r.trxRef r.deleteMarked e ∧ Answers p i e

def parseEntries (L : LevelLayout) (ps : PageSize) (version : ℕ) (p : Page) : Except (Fault String) DataPageInfo :=
  parse (rawPage ps version p) L.entryLen .neighbour L.hasLower

def parseOverflows (L : LevelLayout) (ps : PageSize) (version : ℕ) (p : Page) : Except (Fault String) DataPageInfo :=
  parse (rawPage ps version p) L.overflowLen .overflow L.hasLower

theorem entry_withEntry (record : RecordStatus) (e : RawEntry) : (withEntry record e).entry = e := by
  unfold withEntry RecordStatus.entry
  simp [Function.comp_def]

section Decode

variable {L : LevelLayout} {ps : PageSize} {version n : ℕ} {p : Page} {d : DataPage} {i : ℕ}
  {columns : RecordStatus → List (BitVec 8) → RecordStatus}

/-- A slot of the page is shown with its bits. -/
theorem slotRecord_status (hcolumns : ∀ record data, (columns record data).isFree = record.isFree ∧
      (columns record data).isDeleted = record.isDeleted) (p : Page) (i : ℕ) :
    ((slotRecord columns d n p i).isDeleted, (slotRecord columns d n p i).isFree) = DataPage.getRecordStatus p i := by
  unfold slotRecord DataPage.fetch
  rcases DataPage.getRecordStatus p i with ⟨deleted, free⟩
  cases free
  · simp [hcolumns]
  · simp

theorem parseEntries_eq (version : ℕ) (h2 : 2 ≤ L.M) (hM : L.M ≤ 128) (hd : DataPage.init ps L.entryLen = some d)
    (hp : p.maxNumRecs = d.maxNumRecs) : ∃ info, parseEntries L ps version p = .ok info ∧
      info.records = (List.range d.maxNumRecs).map
        (slotRecord (fun record data => withEntry record (Serial.storedEntry L data)) d L.entryLen p) := by
  refine parse_eq (layout_of_fits ?_ (LevelLayout.fits ps h2 hM).1 hd) (Serial.apart_entry h2 hM hd) hp
    fun record o ho hin hrecord => readColumns_neighbour hM ho hin hrecord
  rw [LevelLayout.entryLen_eq, Nat.succ_mul]
  exact Nat.le_add_left _ _

theorem parseOverflows_eq (version : ℕ) (h2 : 2 ≤ L.M) (hM : L.M ≤ 128) (hd : DataPage.init ps L.overflowLen = some d)
    (hp : p.maxNumRecs = d.maxNumRecs) : ∃ info, parseOverflows L ps version p = .ok info ∧
      info.records = (List.range d.maxNumRecs).map
        (slotRecord (fun record data => withOverflow record (Serial.storedOverflow L data)) d L.overflowLen p) := by
  refine parse_eq (layout_of_fits ?_ (LevelLayout.fits ps h2 hM).2 hd) (Serial.apart_overflow h2 hM hd) hp
    fun record o ho hin _ => readColumns_overflow ho hin
  rw [LevelLayout.overflowLen_eq, Nat.succ_mul]
  exact Nat.le_add_left _ _

/-- What a fetch hands out is shown. -/
theorem shows_entry (h2 : 2 ≤ L.M) (hM : L.M ≤ 128) (hd : DataPage.init ps L.entryLen = some d)
    (hp : p.maxNumRecs = d.maxNumRecs) (hi : i < d.maxNumRecs) {r : Fetched} (hr : d.fetch L.entryLen i p = .ok r) :
    Shows RecordStatus.entry (parseEntries L ps version p) i r.trxRef r.deleteMarked
      (Serial.storedEntry L r.colData) := by
  obtain ⟨info, hinfo, hrecords⟩ := parseEntries_eq version h2 hM hd hp
  refine ⟨info, _, hinfo, by rw [hrecords, List.getElem?_map, List.getElem?_range hi, Option.map_some], ?_⟩
  rw [slotRecord, hr]
  exact ⟨rfl, rfl, rfl, entry_withEntry _ _⟩

theorem shows_overflow (h2 : 2 ≤ L.M) (hM : L.M ≤ 128) (hd : DataPage.init ps L.overflowLen = some d)
    (hp : p.maxNumRecs = d.maxNumRecs) (hi : i < d.maxNumRecs) {r : Fetched}
    (hr : d.fetch L.overflowLen i p = .ok r) :
    Shows RecordStatus.overflowEntry (parseOverflows L ps version p) i r.trxRef r.deleteMarked
      (Serial.storedOverflow L r.colData) := by
  obtain ⟨info, hinfo, hrecords⟩ := parseOverflows_eq version h2 hM hd hp
  refine ⟨info, _, hinfo, by rw [hrecords, List.getElem?_map, List.getElem?_range hi, Option.map_some], ?_⟩
  rw [slotRecord, hr]
  exact ⟨rfl, rfl, rfl, rfl⟩

theorem decodes_entries (version : ℕ) (h2 : 2 ≤ L.M) (hM : L.M ≤ 128) (hd : DataPage.init ps L.entryLen = some d) :
    Decodes RecordStatus.entry (parseEntries L ps version) d L.entryLen (Serial.Entry L d) where
  status p hp := by
    obtain ⟨info, hinfo, hrecords⟩ := parseEntries_eq version h2 hM hd hp
    refine ⟨info, hinfo, ?_⟩
    rw [hrecords, List.map_map]
    exact List.map_congr_left fun i _ => @slotRecord_status L.entryLen d
      (fun record data => withEntry record (Serial.storedEntry L data)) (fun _ _ => ⟨rfl, rfl⟩) p i
  fetched p i r hp hi hr := ⟨_, shows_entry h2 hM hd hp hi hr, Serial.entry_of_fetch hr⟩

theorem decodes_overflows (version : ℕ) (h2 : 2 ≤ L.M) (hM : L.M ≤ 128) (hd : DataPage.init ps L.overflowLen = some d) :
    Decodes RecordStatus.overflowEntry (parseOverflows L ps version) d L.overflowLen (Serial.Overflow L d) where
  status p hp := by
    obtain ⟨info, hinfo, hrecords⟩ := parseOverflows_eq version h2 hM hd hp
    refine ⟨info, hinfo, ?_⟩
    rw [hrecords, List.map_map]
    exact List.map_congr_left fun i _ => @slotRecord_status L.overflowLen d
      (fun record data => withOverflow record (Serial.storedOverflow L data)) (fun _ _ => ⟨rfl, rfl⟩) p i
  fetched p i r hp hi hr := ⟨_, shows_overflow h2 hM hd hp hi hr, Serial.overflow_of_fetch hr⟩

/-! ### What the index wrote -/

theorem Shows.unique {α : Type} {entry : RecordStatus → α} {parsed : Except (Fault String) DataPageInfo}
    {t t' : BitVec 64} {del del' : Bool} {e e' : α} (h : Shows entry parsed i t del e)
    (h' : Shows entry parsed i t' del' e') : t = t' ∧ del = del' ∧ e = e' := by
  obtain ⟨info, record, hinfo, hrecord, -, rfl, ht, rfl⟩ := h
  obtain ⟨info', record', hinfo', hrecord', -, rfl, ht', rfl⟩ := h'
  obtain rfl : info = info' := Except.ok.inj (hinfo.symm.trans hinfo')
  obtain rfl : record = record' := Option.some.inj (hrecord.symm.trans hrecord')
  exact ⟨BitVec.eq_of_toNat_eq (ht.symm.trans ht'), rfl, rfl⟩

/-- A record that is shown is occupied. -/
theorem Decodes.occupied {α : Type} {entry : RecordStatus → α} {parsed : Page → Except (Fault String) DataPageInfo}
    {Answers : Page → ℕ → α → Prop} (h : Decodes entry parsed d n Answers) (hp : p.maxNumRecs = d.maxNumRecs)
    (hi : i < d.maxNumRecs) {t : BitVec 64} {del : Bool} {e : α} (hs : Shows entry (parsed p) i t del e) :
    (DataPage.getRecordStatus p i).2 = false := by
  obtain ⟨info, hinfo, hstatus⟩ := h.status p hp
  obtain ⟨info', record, hinfo', hrecord, hfree, -⟩ := hs
  obtain rfl : info = info' := Except.ok.inj (hinfo.symm.trans hinfo')
  have hget := congrArg (·[i]?) hstatus
  simp only [List.getElem?_map, hrecord, List.getElem?_range hi, Option.map_some, Option.some.injEq] at hget
  rw [← hget]
  exact hfree

theorem shows_insertEntry (h2 : 2 ≤ L.M) (hM : L.M ≤ 128) (hd : DataPage.init ps L.entryLen = some d)
    (hp : p.maxNumRecs = d.maxNumRecs) {hint : ℕ} {t : BitVec 64} {e : RawEntry} (he : e.Small)
    (hop : (Serial.insertEntry L hint t e).Allowed d L.entryLen p) :
    Shows RecordStatus.entry (parseEntries L ps version ((Serial.insertEntry L hint t e).apply d L.entryLen p))
      ((Serial.insertEntry L hint t e).slotIndex d p) t false (e.padded L) := by
  obtain ⟨r, hr, hstored, rfl, hdel⟩ := Serial.fetch_insertEntry hM (Serial.apart_entry h2 hM hd) he hop
  rw [← hdel, ← hstored]
  exact shows_entry h2 hM hd (ColumnStore.maxNumRecs_apply.trans hp) hop.1 hr

theorem shows_insertOverflow (h2 : 2 ≤ L.M) (hM : L.M ≤ 128) (hd : DataPage.init ps L.overflowLen = some d)
    (hp : p.maxNumRecs = d.maxNumRecs) {hint : ℕ} {t : BitVec 64} {e : RawOverflow} (he : e.Small)
    (hop : (Serial.insertOverflow L hint t e).Allowed d L.overflowLen p) :
    Shows RecordStatus.overflowEntry
      (parseOverflows L ps version ((Serial.insertOverflow L hint t e).apply d L.overflowLen p))
      ((Serial.insertOverflow L hint t e).slotIndex d p) t false (e.padded L) := by
  obtain ⟨r, hr, hstored, rfl, hdel⟩ := Serial.fetch_insertOverflow (Serial.apart_overflow h2 hM hd) he hop
  rw [← hdel, ← hstored]
  exact shows_overflow h2 hM hd (ColumnStore.maxNumRecs_apply.trans hp) hop.1 hr

theorem shows_updateEntry (h2 : 2 ≤ L.M) (hM : L.M ≤ 128) (hd : DataPage.init ps L.entryLen = some d)
    (hp : p.maxNumRecs = d.maxNumRecs) (hi : i < d.maxNumRecs) {addr : String} {t : BitVec 64} {del : Bool}
    {old e : RawEntry} {mask : NodeField} {slots : List ℕ} {buffer : List (BitVec 8)}
    (hold : Shows RecordStatus.entry (parseEntries L ps version p) i t del old)
    (hargs : Serial.EntryArgs L e mask slots) (hbuf : L.entryLen ≤ buffer.length) :
    Shows RecordStatus.entry
      (parseEntries L ps version ((Serial.updateEntry L i addr e mask slots buffer).apply d L.entryLen p)) i t del
      (old.merge e mask slots) := by
  obtain ⟨r, hr⟩ := Serial.fetch_of_occupied (n := L.entryLen) (d := d)
    ((decodes_entries version h2 hM hd).occupied hp hi hold)
  obtain ⟨rfl, rfl, rfl⟩ := hold.unique (shows_entry h2 hM hd hp hi hr)
  obtain ⟨r', hr', hstored, ht, hdel⟩ := Serial.fetch_updateEntry hM (Serial.apart_entry h2 hM hd) hi
    addr hargs hbuf hr
  rw [← ht, ← hdel, ← hstored]
  exact shows_entry h2 hM hd (ColumnStore.maxNumRecs_apply.trans hp) hi hr'

theorem shows_updateOverflow (h2 : 2 ≤ L.M) (hM : L.M ≤ 128) (hd : DataPage.init ps L.overflowLen = some d)
    (hp : p.maxNumRecs = d.maxNumRecs) (hi : i < d.maxNumRecs) {addr : String} {t : BitVec 64} {del : Bool}
    {old e : RawOverflow} {mask : OverflowField} {slots : List ℕ} {buffer : List (BitVec 8)}
    (hold : Shows RecordStatus.overflowEntry (parseOverflows L ps version p) i t del old)
    (hargs : Serial.OverflowArgs L e slots) (hbuf : L.overflowLen ≤ buffer.length) :
    Shows RecordStatus.overflowEntry
      (parseOverflows L ps version ((Serial.updateOverflow L i addr e mask slots buffer).apply d L.overflowLen p))
      i t del (old.merge e mask slots) := by
  obtain ⟨r, hr⟩ := Serial.fetch_of_occupied (n := L.overflowLen) (d := d)
    ((decodes_overflows version h2 hM hd).occupied hp hi hold)
  obtain ⟨rfl, rfl, rfl⟩ := hold.unique (shows_overflow h2 hM hd hp hi hr)
  obtain ⟨r', hr', hstored, ht, hdel⟩ := Serial.fetch_updateOverflow (Serial.apart_overflow h2 hM hd) hi
    addr mask hargs hbuf hr
  rw [← ht, ← hdel, ← hstored]
  exact shows_overflow h2 hM hd (ColumnStore.maxNumRecs_apply.trans hp) hi hr'

end Decode

end DataPageParser

open DataPageParser

/-! ### The sizes the tool works with -/

/-- A root page of a store of columns of `len` bytes, after any changes. -/
def IsRootPage (ps : PageSize) (len : ℕ) (f : Frame) : Prop :=
  ∃ numSegments numRootPages metadata version f₀ rp f₁ c, numSegments ≤ 255 ∧ 1 ≤ numRootPages ∧
    numRootPages ≤ 255 ∧ metadata.length ≤ 255 ∧ version < 256 ∧ RootPage.Blank numSegments ps.bytes f₀ ∧
    (RootPage.initSized ps.bytes len numSegments numRootPages metadata.length).format version metadata f₀ =
      some (rp, f₁) ∧
    RootPage.RootRun (RootPage.initSized ps.bytes len numSegments numRootPages metadata.length)
      (RootContents.format metadata (numRootPages - 1)) f₁ c f

theorem columnSize_of_rootPage {ps : PageSize} {len : ℕ} {f : Frame} (h1 : 1 ≤ len) (h2 : len < 2 ^ 16)
    (h : IsRootPage ps len f) : ∃ info, RootPageParser.parse ps.bytes f = .ok info ∧ info.columnSize = len := by
  obtain ⟨numSegments, numRootPages, metadata, version, f₀, rp, f₁, c, hseg, hroot1, hroot, hmeta, hversion, hblank,
    hformat, hrun⟩ := h
  have hps : 4096 ≤ ps.bytes := by cases ps <;> decide
  obtain ⟨-, hstores, hb, hsize⟩ := RootPage.initSized_stores hps hseg hroot1 hroot hmeta h1 h2 hblank hformat hrun
  exact ⟨_, hstores.parse hb hversion hsize, rfl⟩

theorem inferM_entryLen {M : ℕ} (h2 : 2 ≤ M) : inferM (LevelLayout.entryLen ⟨0, M⟩) = some M := by
  have h : hnswMaxNeighbours (LevelLayout.entryLen ⟨0, M⟩) false = 2 * M := hnswMaxNeighbours_entryLen ⟨0, M⟩
  unfold inferM
  rw [h]
  dsimp only
  rw [if_neg (by omega), Nat.mul_div_cancel_left _ (by norm_num)]

/-- The graph view reads a record as the store does. -/
theorem fetchRecord_eq {L : LevelLayout} {ps : PageSize} {version : ℕ} {p : Page} {nid : ℕ}
    {readPage : ℕ → Except String RawPage} {intro : String} {t : BitVec 64} {del : Bool} {e : RawEntry}
    (hM : L.M ≤ 128) (hread : readPage (DataPage.decodeColumnRef nid).1 = .ok (rawPage ps version p))
    (hs : Shows RecordStatus.entry (parseEntries L ps version p) (DataPage.decodeColumnRef nid).2 t del e) :
    ∃ record, fetchRecord readPage nid L.level L.M intro = .ok record ∧ record.isDeleted = del ∧
      record.trxRef = t.toNat ∧ record.entry = e := by
  obtain ⟨info, record, hinfo, hrecord, hfree, hrest⟩ := hs
  have hsize : hnswNeighbourColumnSize (levelMaxNeighbours L.level L.M) L.hasLower = L.entryLen :=
    hnswNeighbourColumnSize_maxNeighbours hM
  refine ⟨record, ?_, hrest⟩
  unfold fetchRecord
  rw [hnswDecodeRef_eq]
  dsimp only
  rw [hread, show decide (L.level > 0) = L.hasLower from rfl, hsize]
  dsimp only
  rw [show parse (rawPage ps version p) L.entryLen .neighbour L.hasLower = .ok info from hinfo]
  dsimp only
  rw [hrecord, Option.filter_some, hfree]
  rfl

/-- **The dump tool decodes what the index wrote.** For every `M` an index can have
and every level, the tool's sizes are those of the level, whether the column size
comes from the root page or is worked out from that of level 0. On every page of
either store it shows the status of each slot, and of an occupied one the
transaction, the mark and the entry every fetch answers from: after an insert the
entry that was inserted, after an update the entry with the change. -/
theorem dump_tool_decodes {L : LevelLayout} {ps : PageSize} {d dov : DataPage} (h2 : 2 ≤ L.M) (hM : L.M ≤ 128)
    (hd : DataPage.init ps L.entryLen = some d) (hdov : DataPage.init ps L.overflowLen = some dov) (version : ℕ) :
    (hnswMaxNeighbours L.entryLen L.hasLower = L.maxNeighbours ∧
      hnswOverflowCapacity L.overflowLen = L.overflowCapacity) ∧
    ((∀ f, IsRootPage ps L.entryLen f →
        ∃ info, RootPageParser.parse ps.bytes f = .ok info ∧ info.columnSize = L.entryLen) ∧
      (∀ f, IsRootPage ps L.overflowLen f →
        ∃ info, RootPageParser.parse ps.bytes f = .ok info ∧ info.columnSize = L.overflowLen) ∧
      inferM (LevelLayout.entryLen ⟨0, L.M⟩) = some L.M ∧
      hnswNeighbourColumnSize (levelMaxNeighbours L.level L.M) L.hasLower = L.entryLen) ∧
    (Decodes RecordStatus.entry (parseEntries L ps version) d L.entryLen (Serial.Entry L d) ∧
      Decodes RecordStatus.overflowEntry (parseOverflows L ps version) dov L.overflowLen (Serial.Overflow L dov)) ∧
    (∀ readPage nid intro p t del e, readPage (DataPage.decodeColumnRef nid).1 = .ok (rawPage ps version p) →
      Shows RecordStatus.entry (parseEntries L ps version p) (DataPage.decodeColumnRef nid).2 t del e →
      ∃ record, fetchRecord readPage nid L.level L.M intro = .ok record ∧ record.isDeleted = del ∧
        record.trxRef = t.toNat ∧ record.entry = e) ∧
    ((∀ p hint t e, p.maxNumRecs = d.maxNumRecs → e.Small →
        (Serial.insertEntry L hint t e).Allowed d L.entryLen p →
        Shows RecordStatus.entry
          (parseEntries L ps version ((Serial.insertEntry L hint t e).apply d L.entryLen p))
          ((Serial.insertEntry L hint t e).slotIndex d p) t false (e.padded L)) ∧
      ∀ p i addr t del old e mask slots buffer, p.maxNumRecs = d.maxNumRecs → i < d.maxNumRecs →
        Shows RecordStatus.entry (parseEntries L ps version p) i t del old →
        Serial.EntryArgs L e mask slots → L.entryLen ≤ buffer.length →
        Shows RecordStatus.entry
          (parseEntries L ps version ((Serial.updateEntry L i addr e mask slots buffer).apply d L.entryLen p))
          i t del (old.merge e mask slots)) ∧
    ((∀ p hint t e, p.maxNumRecs = dov.maxNumRecs → e.Small →
        (Serial.insertOverflow L hint t e).Allowed dov L.overflowLen p →
        Shows RecordStatus.overflowEntry
          (parseOverflows L ps version ((Serial.insertOverflow L hint t e).apply dov L.overflowLen p))
          ((Serial.insertOverflow L hint t e).slotIndex dov p) t false (e.padded L)) ∧
      ∀ p i addr t del old e mask slots buffer, p.maxNumRecs = dov.maxNumRecs → i < dov.maxNumRecs →
        Shows RecordStatus.overflowEntry (parseOverflows L ps version p) i t del old →
        Serial.OverflowArgs L e slots → L.overflowLen ≤ buffer.length →
        Shows RecordStatus.overflowEntry
          (parseOverflows L ps version ((Serial.updateOverflow L i addr e mask slots buffer).apply dov L.overflowLen p))
          i t del (old.merge e mask slots)) ∧
    ∀ (cs : ColumnStore) s r p, Reaches ColumnStore.Fresh (ColumnStore.UpdateStep cs) s → s.pages r = some p →
      p.maxNumRecs = cs.data.maxNumRecs := by
  have hlen := entryLen_lt hM
  have hlen1 : 1 ≤ L.entryLen := by
    rw [LevelLayout.entryLen_eq, Nat.succ_mul]
    exact Nat.le_add_left _ _
  have hlenOv1 : 1 ≤ L.overflowLen := by
    rw [LevelLayout.overflowLen_eq, Nat.succ_mul]
    exact Nat.le_add_left _ _
  have hlenOv : L.overflowLen < 2 ^ 16 := by
    have := LevelLayout.overflowCapacity_le (L := L)
    unfold LevelLayout.overflowLen
    omega
  refine ⟨⟨hnswMaxNeighbours_entryLen L, hnswOverflowCapacity_overflowLen L⟩,
    ⟨fun f hf => columnSize_of_rootPage hlen1 hlen hf, fun f hf => columnSize_of_rootPage hlenOv1 hlenOv hf,
      inferM_entryLen h2, hnswNeighbourColumnSize_maxNeighbours hM⟩,
    ⟨decodes_entries version h2 hM hd, decodes_overflows version h2 hM hdov⟩,
    fun readPage nid intro p t del e hread hs => fetchRecord_eq hM hread hs,
    ⟨fun p hint t e hp he hop => shows_insertEntry h2 hM hd hp he hop,
      fun p i addr t del old e mask slots buffer hp hi hold hargs hbuf =>
        shows_updateEntry h2 hM hd hp hi hold hargs hbuf⟩,
    ⟨fun p hint t e hp he hop => shows_insertOverflow h2 hM hdov hp he hop,
      fun p i addr t del old e mask slots buffer hp hi hold hargs hbuf =>
        shows_updateOverflow h2 hM hdov hp hi hold hargs hbuf⟩, fun cs s r p hs hp => ?_⟩
  exact ColumnStore.reaches_counted hs r p.links (by simp [Store.links, hp])

/-- A page of level 1 with `M` of 2, on 4K pages, after one insert. -/
theorem dump_tool_decodes_level_one :
    let L : LevelLayout := ⟨1, 2⟩
    let d : DataPage := ⟨50, 20, 80, 78⟩
    let op := Serial.insertEntry L 0 7 ⟨9, 5, [⟨2 ^ 46 + 7, 8⟩], 0⟩
    Shows RecordStatus.entry (parseEntries L .k4 1 (op.apply d L.entryLen (d.format 3 Page.zero))) 0 7 false
      ⟨9, 5, [⟨2 ^ 46 + 7, 8⟩, ⟨0, 0⟩], 0⟩ := by
  intro L d op
  have hallowed : op.Allowed d L.entryLen (d.format 3 Page.zero) := by
    unfold op Serial.insertEntry RecordOp.Allowed
    decide
  have hslot : op.slotIndex d (d.format 3 Page.zero) = 0 := by decide
  have hpadded : RawEntry.padded L ⟨9, 5, [⟨2 ^ 46 + 7, 8⟩], 0⟩ = ⟨9, 5, [⟨2 ^ 46 + 7, 8⟩, ⟨0, 0⟩], 0⟩ := by decide
  obtain ⟨-, -, -, -, ⟨hinsert, -⟩, -⟩ := dump_tool_decodes (L := L) (d := d) (by decide) (by decide)
    (show DataPage.init .k4 L.entryLen = some d by decide)
    (show DataPage.init .k4 L.overflowLen = some ⟨26, 39, 153, 97⟩ by decide) 1
  have h := hinsert (d.format 3 Page.zero) 0 7 ⟨9, 5, [⟨2 ^ 46 + 7, 8⟩], 0⟩ rfl
    ⟨by decide, by decide, by decide, by decide⟩ hallowed
  rw [hslot, hpadded] at h
  exact h

end Tools
end Hnsw
end VsqlVector
