/-
# What the dump tool reads of a page

The dump tool gets a page of any content, and takes the counts and lengths of what it
reads from the page. `RootPageParser::parse` tests the size of the page before each
read that depends on them, and stays within it (`parseRaw_eq`).
`DataPageParser::parse` tests for the header and, record by record, for the end of the
record. It does not test for the bitmap, nor whether the fields of a record, which
have a fixed size, fit into the column size (`parse_within`).

Key definitions: `RootPageParser.parseRaw`, `DataPageParser.fieldBytes`, `DataPageParser.InPage`.
Key theorem: `parsers_in_page_iff`.
-/
import VsqlVector.Tools.DataPageParser

namespace VsqlVector

namespace RootPageParser

open Bytes RootPage Hnsw.Tools Hnsw.Tools.DataPageParser

/-! ### The parser of root pages -/

/-- The loop of `read_string`, from byte `i` on. -/
def readStringRaw (data : RawPage) (offset i : ℕ) : ℕ → Except (Fault String) (List (BitVec 8))
  | 0 => pure []
  | n + 1 => do
    let b ← readBytes 1 data (offset + i)
    if b = [0] then pure []
    else do
      let rest ← readStringRaw data offset (i + 1) n
      pure (b ++ rest)

/-- The slots from the `i`-th on, until one does not fit the page. -/
def readSlotsRaw (data : RawPage) (slotArrayOff i : ℕ) : ℕ → Except (Fault String) (List ℕ)
  | 0 => pure []
  | n + 1 =>
    let offset := slotArrayOff + i * 4
    if offset + 4 > data.size then .error (.malformed "Free slot array extends beyond page boundary")
    else do
      let slot ← readUint32 data offset
      let rest ← readSlotsRaw data slotArrayOff (i + 1) n
      pure (slot :: rest)

/-- `RootPageParser::parse`, with reads that know where the page ends. -/
def parseRaw (data : RawPage) : Except (Fault String) RootPageInfo :=
  let tooSmall := Fault.malformed "Page too small to contain root page header"
  if data.size ≤ pageHeaderSize then .error tooSmall
  else do
    let ns ← readUint8 data pageHeaderSize
    let rp := setLayout ns 0 1
    if data.size ≤ rp.storageMetadataLenOff then .error tooSmall
    else do
      let ml ← readUint8 data rp.storageMetadataLenOff
      let rp := setLayout ns ml 1
      if data.size ≤ rp.numOtherRootPagesOff then .error tooSmall
      else do
        let nrp ← readUint8 data rp.numOtherRootPagesOff
        let rp := setLayout ns ml nrp
        if data.size < rp.slotArrayOff then .error tooSmall
        else do
          let version ← readUint8 data rp.versionOff
          let pageType ← readUint8 data rp.pageTypeOff
          let storageMetadata ← readStringRaw data rp.storageMetadataOff 0 ml
          let storageMetadataRaw ← readBytes ml data rp.storageMetadataOff
          let otherRootPageRefs ← (List.range nrp).mapM fun i => readUint32 data (rp.otherRootPagesOff + i * 4)
          let columnSize ← readUint16 data rp.columnSizeOff
          let allSlotHead ← readUint32 data rp.allSlotHeadOff
          let allSlotTail ← readUint32 data rp.allSlotTailOff
          let totalDataPages ← readUint32 data rp.totalDataPagesOff
          let totalFreePages ← readUint32 data rp.totalFreePagesOff
          let freeSlotArrayMaxSize ← readUint16 data rp.freeSlotArrayMaxSizeOff
          let freeSlotArrayCurSize ← readUint16 data rp.freeSlotArrayCurSizeOff
          if pageType ≠ rootPageType then
            .error (.malformed ("Invalid page type: expected ROOT_PAGE (1), got " ++ toString pageType))
          else do
            let freeSlots ← readSlotsRaw data rp.slotArrayOff 0 freeSlotArrayCurSize
            pure ⟨version, pageType, storageMetadata, storageMetadataRaw, (nrp + 1) % 2 ^ 8, otherRootPageRefs,
              columnSize, allSlotHead, allSlotTail, totalDataPages, totalFreePages, freeSlotArrayMaxSize,
              freeSlotArrayCurSize, freeSlots⟩

section Raw

variable {data : RawPage} {o n i : ℕ}

theorem readStringRaw_eq (h : o + (i + n) ≤ data.size) (h32 : o + (i + n) ≤ 2 ^ 32) :
    readStringRaw data o i n = .ok (readString data.bytes (o + i) n) := by
  induction n generalizing i with
  | zero => rfl
  | succ n ih =>
    have hbyte : readBytes 1 data (o + i) = .ok [data.bytes (o + i)] := readBytes_of_le (by omega) (by omega)
    have hslice : slice data.bytes (o + i) (n + 1) = data.bytes (o + i) :: slice data.bytes (o + (i + 1)) n := by
      rw [Nat.add_comm n 1, slice_add]
      rfl
    unfold readStringRaw readString
    rw [hbyte, hslice, List.takeWhile_cons]
    simp only [bind, Except.bind, List.cons.injEq, and_true]
    by_cases hb : data.bytes (o + i) = 0
    · simp [hb, pure, Except.pure]
    · rw [if_neg hb, ih (by omega) (by omega), if_pos (by simpa using hb)]
      rfl

theorem readSlotsRaw_eq (h32 : o + (i + n) * 4 ≤ 2 ^ 32) :
    readSlotsRaw data o i n = (readSlots data.size o data.bytes i n).mapError .malformed := by
  induction n generalizing i with
  | zero => rfl
  | succ n ih =>
    unfold readSlotsRaw readSlots
    dsimp only
    by_cases hfit : o + i * 4 + 4 > data.size
    · rw [if_pos hfit, if_pos hfit]
      rfl
    · rw [if_neg hfit, if_neg hfit, readUint32, readUint_of_le (by omega) (by omega), ih (by omega)]
      cases readSlots data.size o data.bytes (i + 1) n <;> rfl

theorem mapM_readUint32 (h : o + n * 4 ≤ data.size) (h32 : o + n * 4 ≤ 2 ^ 32) :
    ((List.range n).mapM fun i => readUint32 data (o + i * 4)) =
      .ok ((List.range n).map fun i => readNat data.bytes (o + i * 4) 4) :=
  mapM_ok fun i hi => by
    have hi := List.mem_range.mp hi
    exact readUint_of_le (by omega) (by omega)

/-- **Root pages.** What is read is within the page: the parser is the one on a page
that never ends. -/
theorem parseRaw_eq (data : RawPage) : parseRaw data = (parse data.size data.bytes).mapError .malformed := by
  have h38 : pageHeaderSize = 38 := rfl
  have h256 (o : ℕ) : readNat data.bytes o 1 < 256 := readNat_lt data.bytes o 1
  unfold parseRaw parse readUint8 readUint16
  dsimp only
  by_cases h1 : data.size ≤ pageHeaderSize
  · rw [if_pos h1, if_pos h1]
    rfl
  rw [if_neg h1, if_neg h1, readUint_of_le (by omega) (by omega)]
  set ns := readNat data.bytes pageHeaderSize 1
  have hns' : ns < 256 := h256 _
  have hoff1 : (setLayout ns 0 1).storageMetadataLenOff = pageHeaderSize + 1 + 10 * ns + 2 := rfl
  dsimp only [bind, Except.bind]
  by_cases h2 : data.size ≤ (setLayout ns 0 1).storageMetadataLenOff
  · rw [if_pos h2, if_pos h2]
    rfl
  rw [if_neg h2, if_neg h2, readUint_of_le (by omega) (by omega)]
  set ml := readNat data.bytes (setLayout ns 0 1).storageMetadataLenOff 1
  have hml' : ml < 256 := h256 _
  have hoff2 : (setLayout ns ml 1).numOtherRootPagesOff = pageHeaderSize + 1 + 10 * ns + 3 + ml := rfl
  dsimp only
  by_cases h3 : data.size ≤ (setLayout ns ml 1).numOtherRootPagesOff
  · rw [if_pos h3, if_pos h3]
    rfl
  rw [if_neg h3, if_neg h3, readUint_of_le (by omega) (by omega)]
  set nrp := readNat data.bytes (setLayout ns ml 1).numOtherRootPagesOff 1
  have hnrp' : nrp < 256 := h256 _
  dsimp only
  by_cases h4 : data.size < (setLayout ns ml nrp).slotArrayOff
  · rw [if_pos h4, if_pos h4]
    rfl
  rw [if_neg h4, if_neg h4]
  have hcur : readNat data.bytes (setLayout ns ml nrp).freeSlotArrayCurSizeOff 2 < 65536 := readNat_lt data.bytes _ 2
  set rp := setLayout ns ml nrp
  -- where the fields are
  have hother : rp.otherRootPagesOff = pageHeaderSize + 1 + 10 * ns + 1 + 1 + 1 + ml + 1 := rfl
  have hmeta : rp.storageMetadataOff + ml + 1 = rp.otherRootPagesOff := rfl
  have hcol : rp.columnSizeOff = rp.otherRootPagesOff + 4 * nrp := rfl
  have hend : rp.slotArrayOff = rp.columnSizeOff + 2 + 4 + 4 + 4 + 4 + 2 + 2 := rfl
  have hread (m o : ℕ) (ho : o + m ≤ rp.slotArrayOff) : readUint m data o = .ok (readNat data.bytes o m) :=
    readUint_of_le (by omega) (by omega)
  have hversion : readUint 1 data rp.versionOff = _ := hread _ _ (by
    have : rp.versionOff + 3 = rp.storageMetadataOff := rfl
    omega)
  have htype : readUint 1 data rp.pageTypeOff = _ := hread _ _ (by
    have : rp.pageTypeOff + 2 = rp.storageMetadataOff := rfl
    omega)
  have hname : readStringRaw data rp.storageMetadataOff 0 ml = _ := readStringRaw_eq (by omega) (by omega)
  have hraw : readBytes ml data rp.storageMetadataOff = _ := readBytes_of_le (by omega) (by omega)
  have hrefs : ((List.range nrp).mapM fun i => readUint32 data (rp.otherRootPagesOff + i * 4)) = _ :=
    mapM_readUint32 (by omega) (by omega)
  have hslots : readSlotsRaw data rp.slotArrayOff 0 (readNat data.bytes rp.freeSlotArrayCurSizeOff 2) = _ :=
    readSlotsRaw_eq (by omega)
  have hhead : readUint 4 data rp.allSlotHeadOff = _ := hread _ _ (by
    have : rp.allSlotHeadOff = rp.columnSizeOff + 2 := rfl
    omega)
  have htail : readUint 4 data rp.allSlotTailOff = _ := hread _ _ (by
    have : rp.allSlotTailOff = rp.columnSizeOff + 2 + 4 := rfl
    omega)
  have htotal : readUint 4 data rp.totalDataPagesOff = _ := hread _ _ (by
    have : rp.totalDataPagesOff = rp.columnSizeOff + 2 + 4 + 4 := rfl
    omega)
  have hfree : readUint 4 data rp.totalFreePagesOff = _ := hread _ _ (by
    have : rp.totalFreePagesOff = rp.columnSizeOff + 2 + 4 + 4 + 4 := rfl
    omega)
  have hmax : readUint 2 data rp.freeSlotArrayMaxSizeOff = _ := hread _ _ (by
    have : rp.freeSlotArrayMaxSizeOff = rp.columnSizeOff + 2 + 4 + 4 + 4 + 4 := rfl
    omega)
  have hsize : readUint 2 data rp.freeSlotArrayCurSizeOff = _ := hread _ _ (by
    have : rp.freeSlotArrayCurSizeOff = rp.columnSizeOff + 2 + 4 + 4 + 4 + 4 + 2 := rfl
    omega)
  unfold readUint32 at hrefs ⊢
  simp only [hversion, htype, hname, hraw, hrefs, hread 2 rp.columnSizeOff (by omega), hhead, htail, htotal, hfree,
    hmax, hsize, hslots]
  by_cases hbad : readNat data.bytes rp.pageTypeOff 1 = rootPageType
  · rw [if_neg (not_not_intro hbad), if_neg (not_not_intro hbad)]
    cases readSlots data.size rp.slotArrayOff data.bytes 0 (readNat data.bytes rp.freeSlotArrayCurSizeOff 2) <;> rfl
  · rw [if_pos hbad, if_pos hbad]
    rfl

end Raw

end RootPageParser

namespace Hnsw
namespace Tools
namespace DataPageParser

open Bytes

/-! ### The parser of data pages -/

/-- The `n` bytes from `offset` on are bytes of the page. -/
def Inside (data : RawPage) (offset n : ℕ) : Prop := ∀ k < n, (offset + k) % 2 ^ 32 < data.size

section Reads

variable {data : RawPage} {o n : ℕ}

theorem inside_add {m : ℕ} : Inside data o (m + n) ↔ Inside data o m ∧ Inside data (o + m) n := by
  constructor
  · refine fun h => ⟨fun k hk => h k (by omega), fun k hk => ?_⟩
    rw [Nat.add_assoc]
    exact h (m + k) (by omega)
  · rintro ⟨h1, h2⟩ k hk
    rcases Nat.lt_or_ge k m with hkm | hkm
    · exact h1 k hkm
    · have := h2 (k - m) (by omega)
      rwa [show o + m + (k - m) = o + k by omega] at this

/-- Where an offset wraps makes no difference. -/
theorem inside_mod : Inside data (o % 2 ^ 32) n ↔ Inside data o n := by
  unfold Inside
  simp only [Nat.mod_add_mod]

theorem inside_of_le (h : o + n ≤ data.size) : Inside data o n :=
  fun k hk => (Nat.mod_le _ _).trans_lt (by omega)

theorem readBytes_stops : StopsUnless .pastEnd (Inside data o n) (readBytes n data o) :=
  ⟨fun h => ⟨_, if_pos h⟩, fun h => if_neg h⟩

theorem readUint_stops : StopsUnless .pastEnd (Inside data o n) (readUint n data o) := readBytes_stops.map _

theorem readNeighbours_stops : StopsUnless .pastEnd (Inside data o (n * (hnswIdSize + hnswIdSize)))
    (readNeighbours data n o) := by
  induction n generalizing o with
  | zero => exact (StopsUnless.pure _).congr (by simp [Inside])
  | succ n ih =>
    unfold readNeighbours
    refine (readUint_stops.bind fun nid _ => readUint_stops.bind fun vid _ => ih.bind_pure _).congr ?_
    rw [Nat.succ_mul, Nat.add_comm (n * _), inside_add, inside_add, and_assoc, Nat.add_assoc o]

theorem readNeighbours_off {r : List (ℕ × ℕ) × ℕ} (h : readNeighbours data n o = .ok r) :
    r.2 = o + n * (hnswIdSize + hnswIdSize) := by
  induction n generalizing o r with
  | zero =>
    cases h
    rw [Nat.zero_mul, Nat.add_zero]
  | succ n ih =>
    unfold readNeighbours at h
    obtain ⟨nid, -, h⟩ := bind_eq_ok.mp h
    obtain ⟨vid, -, h⟩ := bind_eq_ok.mp h
    obtain ⟨rest, hrest, h⟩ := bind_eq_ok.mp h
    cases h
    rw [ih hrest]
    ring

theorem readIncoming_stops : StopsUnless .pastEnd (Inside data o (n * hnswIdSize)) (readIncoming data n o) := by
  induction n generalizing o with
  | zero => exact (StopsUnless.pure _).congr (by simp [Inside])
  | succ n ih =>
    unfold readIncoming
    refine (readUint_stops.bind fun nid _ => ih.bind_pure _).congr ?_
    rw [Nat.succ_mul, Nat.add_comm (n * _), inside_add]

theorem readIncoming_off {r : List ℕ × ℕ} (h : readIncoming data n o = .ok r) : r.2 = o + n * hnswIdSize := by
  induction n generalizing o r with
  | zero =>
    cases h
    rw [Nat.zero_mul, Nat.add_zero]
  | succ n ih =>
    unfold readIncoming at h
    obtain ⟨nid, -, h⟩ := bind_eq_ok.mp h
    obtain ⟨rest, hrest, h⟩ := bind_eq_ok.mp h
    cases h
    rw [ih hrest]
    ring

/-- Floats are tested one by one. -/
theorem readVector_stops {j : ℕ} : StopsUnless .pastEnd True (readVector data o n j) := by
  induction n generalizing j with
  | zero => exact StopsUnless.pure _
  | succ n ih =>
    unfold readVector
    dsimp only
    split
    case isTrue h =>
      have hfloat : StopsUnless .pastEnd True (readFloat data ((o + j * 4) % 2 ^ 32)) :=
        (readBytes_stops.map _).congr (iff_true_intro (inside_of_le h))
      exact (hfloat.bind fun v _ => ih.bind_pure _).congr (and_self_iff)
    case isFalse => exact ih

/-- How many bytes from the start of a record on are read once the record passes the
test for the end of the page. -/
def fieldBytes (columnSize : ℕ) (hasLowerLevel : Bool) : HnswRecordKind → ℕ
  | .neighbour => DataPage.trxRefSize + (hnswIdSize + ((if hasLowerLevel then hnswIdSize else 0) +
      (hnswMaxNeighbours columnSize hasLowerLevel * (hnswIdSize + hnswIdSize) + hnswIdSize)))
  | .overflow => DataPage.trxRefSize + (hnswOverflowCapacity columnSize * hnswIdSize + hnswIdSize)
  | .none => DataPage.trxRefSize

/-- The columns are read from where the transaction reference ends. -/
theorem readColumns_stops {columnSize : ℕ} {indexKind : HnswRecordKind} {hasLowerLevel : Bool} {record : RecordStatus} :
    StopsUnless .pastEnd
      (Inside data (o + DataPage.trxRefSize) (fieldBytes columnSize hasLowerLevel indexKind - DataPage.trxRefSize))
      (readColumns data columnSize indexKind hasLowerLevel record (o + DataPage.trxRefSize)) := by
  set off := o + DataPage.trxRefSize
  unfold readColumns fieldBytes
  cases indexKind with
  | neighbour =>
    dsimp only
    rw [Nat.add_sub_cancel_left, inside_add]
    refine readUint_stops.bind fun owner _ => ?_
    have hslots (nid o' : ℕ) : StopsUnless .pastEnd
        (Inside data o' (hnswMaxNeighbours columnSize hasLowerLevel * (hnswIdSize + hnswIdSize) + hnswIdSize))
        (readNeighbours data (hnswMaxNeighbours columnSize hasLowerLevel) o' >>= fun r =>
          readId48 data r.2 >>= fun overflowNid => pure { record with
            ownerVid := owner, lowerLevelNid := nid, neighbours := r.1, overflowNid := overflowNid }) := by
      rw [inside_add]
      refine readNeighbours_stops.bind fun r hr => ?_
      rw [← readNeighbours_off hr]
      exact readUint_stops.bind_pure _
    cases hasLowerLevel with
    | false => exact (hslots _ _).congr (by rw [if_neg Bool.false_ne_true, Nat.zero_add])
    | true =>
      rw [if_pos rfl, inside_add]
      exact readUint_stops.bind fun nid _ => hslots nid (off + hnswIdSize + hnswIdSize)
  | overflow =>
    dsimp only
    rw [Nat.add_sub_cancel_left, inside_add]
    refine readIncoming_stops.bind fun r hr => ?_
    rw [← readIncoming_off hr]
    exact readUint_stops.bind_pure _
  | none =>
    dsimp only
    rw [Nat.sub_self]
    exact (readVector_stops.bind_pure _).congr (by simp [Inside])

end Reads

section Pages

variable (data : RawPage) (columnSize : ℕ) (indexKind : HnswRecordKind) (hasLowerLevel : Bool)

/-- `max_num_recs`, as it stands in the page. -/
def maxNumRecs : ℕ := readNat data.bytes DataPage.maxNumRecsOff 2

/-- The bit of the bitmap that says that slot `i` is occupied. -/
def occupiedBit (i : ℕ) : Bool :=
  (data.bytes (DataPage.freeBitmapOff + i * DataPage.bitsPerRecord / 8)).getLsbD
    (i * DataPage.bitsPerRecord % 8 + DataPage.freeBit)

/-- `rec_offset`. -/
def recOffset (i : ℕ) : ℕ :=
  (DataPage.freeBitmapOff + (maxNumRecs data * DataPage.bitsPerRecord + 7) / 8 +
    i * (DataPage.trxRefSize + columnSize)) % 2 ^ 32

/-- What is read behind the header is in the page: the byte of the bitmap for every
slot, and the fields of every record that is occupied and passes the test for the end
of the page. -/
structure InPage : Prop where
  bitmap : ∀ i < maxNumRecs data, DataPage.freeBitmapOff + i * DataPage.bitsPerRecord / 8 < data.size
  records : ∀ i < maxNumRecs data, occupiedBit data i = true →
    (recOffset data columnSize i + (DataPage.trxRefSize + columnSize)) % 2 ^ 32 ≤ data.size →
    Inside data (recOffset data columnSize i) (fieldBytes columnSize hasLowerLevel indexKind)

variable {data} {columnSize} {indexKind} {hasLowerLevel}

theorem bitmapByte_lt {i : ℕ} (hi : i < 2 ^ 16) :
    DataPage.freeBitmapOff + i * DataPage.bitsPerRecord / 8 + 1 ≤ 2 ^ 32 := by
  unfold DataPage.bitsPerRecord
  have h58 : DataPage.freeBitmapOff = 58 := rfl
  omega

theorem getRecordBits_stops {i : ℕ} (hi : i < 2 ^ 16) : StopsUnless .pastEnd
    (DataPage.freeBitmapOff + i * DataPage.bitsPerRecord / 8 < data.size)
    (getRecordBits data DataPage.freeBitmapOff i) := by
  have hoff := bitmapByte_lt hi
  refine (readUint_stops.bind_pure _).congr ⟨fun h => ?_, fun h => inside_of_le h⟩
  have h0 := h 0 Nat.one_pos
  rwa [Nat.add_zero, Nat.mod_eq_of_lt (by omega)] at h0

/-- The bit that is read is the one that says so. -/
theorem getRecordBits_free {i : ℕ} (hi : i < 2 ^ 16) {bits : Bool × Bool}
    (h : getRecordBits data DataPage.freeBitmapOff i = .ok bits) : bits.1 = !occupiedBit data i := by
  have hoff := bitmapByte_lt hi
  have hin := (getRecordBits_stops hi).ne_iff.mp (show getRecordBits data _ i ≠ _ by rw [h]; exact fun h => by cases h)
  have hbyte : readUint8 data (DataPage.freeBitmapOff + i * DataPage.bitsPerRecord / 8) =
      .ok (data.bytes (DataPage.freeBitmapOff + i * DataPage.bitsPerRecord / 8)).toNat := by
    rw [readUint8, readUint_of_le (by omega) (by omega), readNat_one]
  unfold getRecordBits at h
  simp only [hbyte, and_one_shiftLeft, bind, Except.bind, pure, Except.pure, Except.ok.injEq] at h
  rw [← h, occupiedBit]
  cases (data.bytes (DataPage.freeBitmapOff + i * DataPage.bitsPerRecord / 8)).getLsbD
    (i * DataPage.bitsPerRecord % 8 + DataPage.freeBit) <;> simp

theorem trxRefSize_le_fieldBytes : DataPage.trxRefSize ≤ fieldBytes columnSize hasLowerLevel indexKind := by
  cases indexKind with
  | neighbour => exact Nat.le_add_right _ _
  | overflow => exact Nat.le_add_right _ _
  | none => exact le_rfl

/-- One turn of the loop. -/
theorem readRecord_stops {i : ℕ} (hi : i < 2 ^ 16) : StopsUnless .pastEnd
    (DataPage.freeBitmapOff + i * DataPage.bitsPerRecord / 8 < data.size ∧ (occupiedBit data i = true →
      (recOffset data columnSize i + (DataPage.trxRefSize + columnSize)) % 2 ^ 32 ≤ data.size →
      Inside data (recOffset data columnSize i) (fieldBytes columnSize hasLowerLevel indexKind)))
    (readRecord data columnSize (DataPage.freeBitmapOff + (maxNumRecs data * DataPage.bitsPerRecord + 7) / 8)
      indexKind hasLowerLevel i) := by
  unfold readRecord
  refine (getRecordBits_stops hi).bind fun bits hbits => ?_
  have hfree := getRecordBits_free hi hbits
  obtain ⟨isFree, isDeleted⟩ := bits
  dsimp only at hfree ⊢
  subst hfree
  rw [← recOffset]
  by_cases hread : occupiedBit data i = true ∧
      (recOffset data columnSize i + (DataPage.trxRefSize + columnSize)) % 2 ^ 32 ≤ data.size
  · rw [if_pos (by simpa using hread)]
    have hsplit : Inside data (recOffset data columnSize i) (DataPage.trxRefSize +
        (fieldBytes columnSize hasLowerLevel indexKind - DataPage.trxRefSize)) ↔ _ := inside_add
    rw [Nat.add_sub_cancel' trxRefSize_le_fieldBytes] at hsplit
    refine (readUint_stops.bind fun trxRef _ => readColumns_stops).congr ?_
    exact hsplit.symm.trans ⟨fun h _ _ => h, fun h => h hread.1 hread.2⟩
  · rw [if_neg (by simpa using hread)]
    exact (StopsUnless.pure _).congr ⟨fun _ h1 h2 => absurd ⟨h1, h2⟩ hread, fun _ => trivial⟩

variable (columnSize) (indexKind) (hasLowerLevel)

/-- The header is in the page, and then come the type and the records. -/
theorem parse_of_size (hsize : DataPage.freeBitmapOff ≤ data.size) :
    ∃ (text : String) (info : List RecordStatus → DataPageInfo),
    parse data columnSize indexKind hasLowerLevel =
      if readNat data.bytes DataPage.pageTypeOff 1 ≠ DataPage.dataPageType then .error (.malformed text)
      else (List.range (maxNumRecs data)).mapM (readRecord data columnSize
        (DataPage.freeBitmapOff + (maxNumRecs data * DataPage.bitsPerRecord + 7) / 8) indexKind hasLowerLevel) >>=
          fun records => pure (info records) := by
  have h58 : DataPage.freeBitmapOff = 58 := rfl
  have hread (n o : ℕ) (h : o + n ≤ DataPage.freeBitmapOff) :
      readUint n data o = .ok (readNat data.bytes o n) := readUint_of_le (by omega) (by omega)
  unfold parse readUint8 readUint16 readUint32
  rw [if_neg (by omega)]
  simp only [hread 4 DataPage.filPagePrev (by decide), hread 4 DataPage.filPageNext (by decide),
    hread 1 DataPage.versionOff (by decide), hread 1 DataPage.pageTypeOff (by decide),
    hread 2 DataPage.freeSlotNumberOff (by decide), hread 4 DataPage.rootPageRefOff (by decide),
    hread 4 DataPage.prevFreePageOff (by decide), hread 4 DataPage.nextFreePageOff (by decide),
    hread 2 DataPage.maxNumRecsOff (by decide), hread 2 DataPage.numFreeRecsOff (by decide), ok_bind]
  exact ⟨_, _, rfl⟩

/-- **Data pages.** What is read behind the header of a data page. -/
theorem parse_stops (hsize : DataPage.freeBitmapOff ≤ data.size)
    (htype : readNat data.bytes DataPage.pageTypeOff 1 = DataPage.dataPageType) :
    StopsUnless .pastEnd (InPage data columnSize indexKind hasLowerLevel)
      (parse data columnSize indexKind hasLowerLevel) := by
  have hmax : maxNumRecs data < 2 ^ 16 := readNat_lt data.bytes _ 2
  obtain ⟨text, info, hparse⟩ := parse_of_size columnSize indexKind hasLowerLevel hsize
  rw [hparse, if_neg (not_not_intro htype)]
  have hloop := StopsUnless.mapM (l := List.range (maxNumRecs data)) fun i hi =>
    @readRecord_stops data columnSize indexKind hasLowerLevel i ((List.mem_range.mp hi).trans hmax)
  refine (hloop.bind_pure info).congr ⟨fun h => ⟨fun i hi => ?_, fun i hi => ?_⟩, fun h i hi => ?_⟩
  · exact (h i (List.mem_range.mpr hi)).1
  · exact (h i (List.mem_range.mpr hi)).2
  · exact ⟨h.bitmap i (List.mem_range.mp hi), h.records i (List.mem_range.mp hi)⟩

/-- A page without a header, or of another type, is refused. -/
theorem parse_refuses (h : data.size < DataPage.freeBitmapOff ∨
    readNat data.bytes DataPage.pageTypeOff 1 ≠ DataPage.dataPageType) :
    ∃ text, parse data columnSize indexKind hasLowerLevel = .error (.malformed text) := by
  by_cases hsize : data.size < DataPage.freeBitmapOff
  · exact ⟨_, if_pos hsize⟩
  · obtain ⟨text, info, hparse⟩ := parse_of_size columnSize indexKind hasLowerLevel (Nat.le_of_not_lt hsize)
    exact ⟨text, by rw [hparse, if_pos (h.resolve_left hsize)]⟩

end Pages

end DataPageParser

open DataPageParser

/-- **Reads within the page.** The parser of root pages never reads past the end. That of
data pages does not if and only if it refuses the page on account of its size or its
type, or the bitmap and the fields that are read are in the page. -/
theorem parsers_in_page_iff (data : RawPage) (columnSize : ℕ) (indexKind : HnswRecordKind) (hasLowerLevel : Bool) :
    (RootPageParser.parseRaw data ≠ .error .pastEnd ∧
      DataPageParser.parse data columnSize indexKind hasLowerLevel ≠ .error .pastEnd) ↔
    data.size < DataPage.freeBitmapOff ∨ Bytes.readNat data.bytes DataPage.pageTypeOff 1 ≠ DataPage.dataPageType ∨
      InPage data columnSize indexKind hasLowerLevel := by
  have hroot : RootPageParser.parseRaw data ≠ .error .pastEnd := by
    rw [RootPageParser.parseRaw_eq]
    cases VsqlVector.RootPageParser.parse data.size data.bytes with
    | error text => exact fun h => by cases h
    | ok info => exact fun h => by cases h
  by_cases hrefuse : data.size < DataPage.freeBitmapOff ∨
      Bytes.readNat data.bytes DataPage.pageTypeOff 1 ≠ DataPage.dataPageType
  · obtain ⟨text, htext⟩ := parse_refuses columnSize indexKind hasLowerLevel hrefuse
    rw [← or_assoc]
    exact iff_of_true ⟨hroot, by rw [htext]; exact fun h => by cases h⟩ (.inl hrefuse)
  · rw [not_or, Nat.not_lt, not_not] at hrefuse
    have hstops := parse_stops columnSize indexKind hasLowerLevel hrefuse.1 hrefuse.2
    rw [and_iff_right hroot, hstops.ne_iff, or_iff_right (Nat.not_lt.mpr hrefuse.1),
      or_iff_right (not_not_intro hrefuse.2)]

/-- A page of 4096 bytes whose header says that it is a data page of 65535 records. -/
def damagedPage : RawPage where
  size := 4096
  bytes a := if a = 39 then 2 else if a = 54 ∨ a = 55 then 0xFF else 0

/-- **A damaged page.** The bitmap of 65535 records would end behind byte 16440. -/
theorem damagedPage_read : ¬ ∀ (data : RawPage) (columnSize : ℕ) (indexKind : HnswRecordKind) (hasLowerLevel : Bool),
    RootPageParser.parseRaw data ≠ .error .pastEnd ∧
      DataPageParser.parse data columnSize indexKind hasLowerLevel ≠ .error .pastEnd := by
  intro h
  have hstops := parse_stops 16 .none false (show DataPage.freeBitmapOff ≤ damagedPage.size by decide) (by decide)
  have hin := hstops.ne_iff.mp (h damagedPage 16 .none false).2
  exact absurd (hin.bitmap 65534 (by decide)) (by decide)

end Tools
end Hnsw

end VsqlVector
