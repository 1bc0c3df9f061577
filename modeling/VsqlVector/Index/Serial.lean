/-
# The bytes of an index record

`LevelStore` (`src/index/hnsw/storage.cc`) keeps an entry as a row of six-byte
ids: the owner, above level 0 the record one level down, a pair of ids for
every neighbour slot, and the head of the overflow chain. `insert` writes the
row, `update` writes the chunks of the fields and slots it is given, and
`fetch` reads chunks; each computes the place of a chunk on its own.

Above the bytes an entry is what its readers see of it: an insert stores the
entry with its slots filled up (`RawEntry.padded`), an update puts the fields
and slots it names in place (`RawEntry.merge`), and a fetch selects
(`RawEntry.select`). `records_roundtrip` says that the bytes do just that.

Key definitions: `LevelLayout`, `Serial.insertEntry`, `Serial.updateEntry`,
`Serial.fetchEntry`, `RawEntry.merge`, `RawEntry.select`.
Key theorems: `Serial.readChunk_spliceChunks`, `Serial.records_roundtrip`.
-/
import VsqlVector.Storage.Records
import VsqlVector.Index.Level

namespace VsqlVector
namespace Hnsw

/-! ### Entries as ids -/

/-- `Id::INVALID`. -/
def invalidId : ℕ := 0

/-- `NID::INCOMING_BIT`, by its position. -/
def incomingBit : ℕ := 46

/-- A node as two words. -/
structure RawNode where
  nid : ℕ
  vid : ℕ
  deriving DecidableEq, Repr

/-- A `NeighbourEntry` as words. -/
@[ext]
structure RawEntry where
  owner : ℕ
  lowerLevel : ℕ
  neighbours : List RawNode
  overflow : ℕ
  deriving DecidableEq, Repr

/-- An `OverflowEntry` as words. -/
@[ext]
structure RawOverflow where
  incoming : List ℕ
  overflow : ℕ
  deriving DecidableEq, Repr

/-- `NodeField`, a mask. -/
structure NodeField where
  owner : Bool
  lowerLevel : Bool
  neighbours : Bool
  overflow : Bool
  deriving DecidableEq, Repr

/-- `FieldAll`. -/
def NodeField.all : NodeField := ⟨true, true, true, true⟩

/-- `OverflowField`, a mask. -/
structure OverflowField where
  incoming : Bool
  overflow : Bool
  deriving DecidableEq, Repr

/-- `OverflowFieldAll`. -/
def OverflowField.all : OverflowField := ⟨true, true⟩

inductive IncomingFilter where
  | all
  | excludeIncoming
  deriving DecidableEq, Repr

/-! ### Chunks -/

namespace Serial

/-- `LevelStore::CHUNK_SIZE`: the width of an id. -/
def chunkSize : ℕ := 6

/-- `write_id48_be`. -/
def writeId48 (v : ℕ) : List (BitVec 8) := Bytes.encode chunkSize v

/-- The read of one chunk, `read_id48_be`. -/
def readChunk (data : List (BitVec 8)) (idx : ℕ) : ℕ := Bytes.decode (Bytes.chunk chunkSize data idx)

end Serial

/-- What places the chunks of a level's records. -/
structure LevelLayout where
  level : ℕ
  M : ℕ
  deriving DecidableEq, Repr

namespace LevelLayout

variable (L : LevelLayout)

/-- `has_lower_level`. -/
def hasLower : Bool := 0 < L.level

def maxNeighbours : ℕ := LevelStore.maxNeighbours L.level L.M
def overflowCapacity : ℕ := LevelStore.overflowCapacity L.M

/-- `NeighbourEntry::storage_size`. -/
def entryLen : ℕ := 6 + (if L.hasLower then 6 else 0) + L.maxNeighbours * 12 + 6

/-- `OverflowEntry::storage_size`. -/
def overflowLen : ℕ := L.overflowCapacity * 6 + 6

def ownerChunk : ℕ := 0
def lowerLevelChunk : ℕ := ownerChunk + 1
def neighboursBaseChunk : ℕ := lowerLevelChunk + (if L.hasLower then 1 else 0)

/-- `neighbour_nid_chunk`; chunk indexes have 16 bits. -/
def neighbourNidChunk (slot : ℕ) : ℕ := (L.neighboursBaseChunk + slot * 2) % 2 ^ 16
def neighbourVidChunk (slot : ℕ) : ℕ := (L.neighbourNidChunk slot + 1) % 2 ^ 16
def neighbourOverflowChunk : ℕ := (L.neighboursBaseChunk + L.maxNeighbours % 2 ^ 16 * 2) % 2 ^ 16

def incomingChunk (slot : ℕ) : ℕ := slot
def overflowChunk : ℕ := L.overflowCapacity % 2 ^ 16

end LevelLayout

namespace Serial

variable (L : LevelLayout)

/-! ### Insert -/

/-- The bytes `LevelStore::insert` makes of a neighbour entry. -/
def formatEntry (e : RawEntry) : List (BitVec 8) :=
  writeId48 e.owner ++ (if L.hasLower then writeId48 e.lowerLevel else []) ++
    (List.range L.maxNeighbours).flatMap (fun i =>
      match e.neighbours[i]? with
      | some n => writeId48 n.nid ++ writeId48 n.vid
      | none => writeId48 invalidId ++ writeId48 invalidId) ++
    writeId48 e.overflow

/-- The bytes `LevelStore::insert` makes of an overflow entry. -/
def formatOverflow (e : RawOverflow) : List (BitVec 8) :=
  (List.range L.overflowCapacity).flatMap (fun i =>
    match e.incoming[i]? with
    | some nid => writeId48 nid
    | none => writeId48 invalidId) ++
    writeId48 e.overflow

/-! ### Update -/

/-- The chunks `LevelStore::update` of a neighbour entry writes, in order. -/
def entryChunks (e : RawEntry) (mask : NodeField) (slots : List ℕ) : List (ℕ × ℕ) :=
  (if mask.owner then [(LevelLayout.ownerChunk, e.owner)] else []) ++
    (if mask.lowerLevel then [(LevelLayout.lowerLevelChunk, e.lowerLevel)] else []) ++
    (if mask.neighbours then (slots.zip e.neighbours).flatMap fun w =>
      [(L.neighbourNidChunk w.1, w.2.nid), (L.neighbourVidChunk w.1, w.2.vid)] else []) ++
    (if mask.overflow then [(L.neighbourOverflowChunk, e.overflow)] else [])

/-- The chunks `LevelStore::update` of an overflow entry writes, in order. -/
def overflowChunks (e : RawOverflow) (mask : OverflowField) (slots : List ℕ) : List (ℕ × ℕ) :=
  (if mask.incoming then (slots.zip e.incoming).map fun w => (LevelLayout.incomingChunk w.1, w.2) else []) ++
    (if mask.overflow then [(L.overflowChunk, e.overflow)] else [])

/-- `write_chunk` for each of `ws` in the scratch buffer. -/
def writeChunks (ws : List (ℕ × ℕ)) (buffer : List (BitVec 8)) : List (BitVec 8) :=
  ws.foldl (fun b w => Bytes.splice b (w.1 * chunkSize) (writeId48 w.2)) buffer

/-- `LevelStore::insert` of a neighbour entry, as what it is to the data page. -/
def insertEntry (hintIndex : ℕ) (trxRef : BitVec 64) (e : RawEntry) : RecordOp :=
  .insert hintIndex trxRef (formatEntry L e)

/-- `LevelStore::insert` of an overflow entry. -/
def insertOverflow (hintIndex : ℕ) (trxRef : BitVec 64) (e : RawOverflow) : RecordOp :=
  .insert hintIndex trxRef (formatOverflow L e)

/-- The call of `ColumnStore::update` for the chunks `ws`, with the data up to and
with chunk `last`. -/
def updateChunks (slotIndex : ℕ) (addr : String) (last : ℕ) (ws : List (ℕ × ℕ)) (buffer : List (BitVec 8)) :
    RecordOp :=
  .update slotIndex addr (some ((writeChunks ws buffer).take ((last + 1) * chunkSize))) (ws.map (·.1)) chunkSize

/-- `LevelStore::update` of a neighbour entry. -/
def updateEntry (slotIndex : ℕ) (addr : String) (e : RawEntry) (mask : NodeField) (slots : List ℕ)
    (buffer : List (BitVec 8)) : RecordOp :=
  updateChunks slotIndex addr L.neighbourOverflowChunk (entryChunks L e mask slots) buffer

/-- `LevelStore::update` of an overflow entry. -/
def updateOverflow (slotIndex : ℕ) (addr : String) (e : RawOverflow) (mask : OverflowField) (slots : List ℕ)
    (buffer : List (BitVec 8)) : RecordOp :=
  updateChunks slotIndex addr L.overflowChunk (overflowChunks L e mask slots) buffer

/-! ### Fetch -/

/-- `handle_slot` over the slots, with `read` for the slot's content and
`valid` for what counts: what is written to the entry and how many count. -/
def handleSlots {α : Type} (forUpdate : Bool) (read : ℕ → α) (valid : α → Bool) : List ℕ → List α × ℕ
  | [] => ([], 0)
  | s :: ss =>
    let (written, count) := handleSlots forUpdate read valid ss
    if valid (read s) then (read s :: written, count + 1)
    else if forUpdate then (read s :: written, count)
    else (written, count)

/-- What the entry's span holds after a fetch: with `forUpdate` the slots in
place, else it ends with them. -/
def fillSpan {α : Type} (forUpdate : Bool) (written span : List α) : List α :=
  if forUpdate then written ++ span.drop written.length else written

/-- A neighbour that a filter keeps. -/
def included (filter : IncomingFilter) (n : RawNode) : Bool :=
  n.nid ≠ invalidId && !(filter = .excludeIncoming && n.nid.testBit incomingBit)

/-- The read of a neighbour slot. -/
def readNode (data : List (BitVec 8)) (slot : ℕ) : RawNode :=
  ⟨readChunk data (L.neighbourNidChunk slot), readChunk data (L.neighbourVidChunk slot)⟩

/-- What `LevelStore::fetch` makes of the data of a neighbour entry: the entry
and, where the mask has the neighbours, the number that count. -/
def readEntry (data : List (BitVec 8)) (forUpdate : Bool) (entry : RawEntry) (mask : NodeField)
    (filter : IncomingFilter) (slots : Option (List ℕ)) : RawEntry × Option ℕ :=
  let res := handleSlots forUpdate (readNode L data) (included filter)
    (slots.getD (List.range L.maxNeighbours))
  ({ owner := if mask.owner then readChunk data LevelLayout.ownerChunk else entry.owner
     lowerLevel :=
      if mask.lowerLevel ∧ L.hasLower then readChunk data LevelLayout.lowerLevelChunk else entry.lowerLevel
     neighbours := if mask.neighbours then fillSpan forUpdate res.1 entry.neighbours else entry.neighbours
     overflow := if mask.overflow then readChunk data L.neighbourOverflowChunk else entry.overflow },
    if mask.neighbours then some res.2 else none)

/-- What `LevelStore::fetch` makes of the data of an overflow entry. -/
def readOverflow (data : List (BitVec 8)) (forUpdate : Bool) (entry : RawOverflow) (mask : OverflowField)
    (slots : Option (List ℕ)) : RawOverflow × Option ℕ :=
  let res := handleSlots forUpdate (fun slot => readChunk data (LevelLayout.incomingChunk slot))
    (fun nid => nid ≠ invalidId) (slots.getD (List.range L.overflowCapacity))
  ({ incoming := if mask.incoming then fillSpan forUpdate res.1 entry.incoming else entry.incoming
     overflow := if mask.overflow then readChunk data L.overflowChunk else entry.overflow },
    if mask.incoming then some res.2 else none)

/-- `LevelStore::fetch` of a neighbour entry. -/
def fetchEntry (d : DataPage) (p : Page) (slotIndex : ℕ) (forUpdate : Bool) (entry : RawEntry)
    (mask : NodeField) (filter : IncomingFilter) (slots : Option (List ℕ)) :
    Except StorageError (RawEntry × Option ℕ) :=
  (d.fetch L.entryLen slotIndex p).map fun r => readEntry L r.colData forUpdate entry mask filter slots

/-- `LevelStore::fetch` of an overflow entry. -/
def fetchOverflow (d : DataPage) (p : Page) (slotIndex : ℕ) (forUpdate : Bool) (entry : RawOverflow)
    (mask : OverflowField) (slots : Option (List ℕ)) : Except StorageError (RawOverflow × Option ℕ) :=
  (d.fetch L.overflowLen slotIndex p).map fun r => readOverflow L r.colData forUpdate entry mask slots

end Serial

/-! ### The sizes of a level

With `M` up to 128 no chunk index wraps, and no record size of an index is one
for which `DataPage::init` makes the areas of a page overlap. -/

namespace LevelLayout

variable {L : LevelLayout} {slot : ℕ}

theorem maxNeighbours_le (hM : L.M ≤ 128) : L.maxNeighbours ≤ 256 := by
  unfold maxNeighbours LevelStore.maxNeighbours
  split <;> omega

theorem neighboursBaseChunk_eq : L.neighboursBaseChunk = if L.hasLower then 2 else 1 := by
  unfold neighboursBaseChunk lowerLevelChunk ownerChunk
  split <;> rfl

theorem neighboursBaseChunk_le : L.neighboursBaseChunk ≤ 2 := by
  rw [neighboursBaseChunk_eq]
  split <;> omega

theorem neighboursBaseChunk_pos : 1 ≤ L.neighboursBaseChunk := by
  rw [neighboursBaseChunk_eq]
  split <;> omega

theorem neighbourNidChunk_eq (hM : L.M ≤ 128) (h : slot < L.maxNeighbours) :
    L.neighbourNidChunk slot = L.neighboursBaseChunk + 2 * slot := by
  have h1 := maxNeighbours_le hM
  have h2 := neighboursBaseChunk_le (L := L)
  unfold neighbourNidChunk
  omega

theorem neighbourVidChunk_eq (hM : L.M ≤ 128) (h : slot < L.maxNeighbours) :
    L.neighbourVidChunk slot = L.neighboursBaseChunk + 2 * slot + 1 := by
  have h1 := maxNeighbours_le hM
  have h2 := neighboursBaseChunk_le (L := L)
  unfold neighbourVidChunk
  rw [neighbourNidChunk_eq hM h]
  omega

theorem neighbourOverflowChunk_eq (hM : L.M ≤ 128) :
    L.neighbourOverflowChunk = L.neighboursBaseChunk + 2 * L.maxNeighbours := by
  have h1 := maxNeighbours_le hM
  have h2 := neighboursBaseChunk_le (L := L)
  unfold neighbourOverflowChunk
  omega

theorem entryLen_eq : L.entryLen = (L.neighboursBaseChunk + 2 * L.maxNeighbours + 1) * Serial.chunkSize := by
  rw [neighboursBaseChunk_eq]
  unfold entryLen Serial.chunkSize
  split <;> omega

theorem overflowCapacity_le : L.overflowCapacity ≤ 8 := Nat.min_le_left _ _

theorem overflowChunk_eq : L.overflowChunk = L.overflowCapacity := by
  have := overflowCapacity_le (L := L)
  unfold overflowChunk
  omega

theorem overflowLen_eq : L.overflowLen = (L.overflowCapacity + 1) * Serial.chunkSize := by
  unfold overflowLen Serial.chunkSize
  ring

/-- A record size that leaves no remainder of the bad kind. -/
def Fits (ps : PageSize) (len : ℕ) : Prop :=
  ¬ (4 * (DataPage.trxRefSize + len) + 1 ∣ DataPage.availableSpace ps - (DataPage.trxRefSize + len)) ∧
    DataPage.trxRefSize + len ≤ DataPage.availableSpace ps

instance (ps : PageSize) (len : ℕ) : Decidable (Fits ps len) := inferInstanceAs (Decidable (_ ∧ _))

theorem fits_table : ∀ ps ∈ [PageSize.k4, .k8, .k16, .k32, .k64], ∀ M < 129, 2 ≤ M →
    Fits ps (12 + 24 * M) ∧ Fits ps (18 + 12 * M) ∧ Fits ps (6 + 6 * min 8 M) := by decide +kernel

theorem fits (ps : PageSize) (h2 : 2 ≤ L.M) (hM : L.M ≤ 128) :
    Fits ps L.entryLen ∧ Fits ps L.overflowLen := by
  obtain ⟨h0, h1, hov⟩ := fits_table ps (by cases ps <;> decide) L.M (by omega) h2
  have hlen : L.entryLen = 12 + 24 * L.M ∨ L.entryLen = 18 + 12 * L.M := by
    unfold entryLen hasLower maxNeighbours LevelStore.maxNeighbours
    by_cases hl : L.level = 0
    · left
      simp [hl]
      omega
    · right
      simp [hl, Nat.pos_of_ne_zero hl]
      omega
  have hlen' : L.overflowLen = 6 + 6 * min 8 L.M := by
    unfold overflowLen overflowCapacity LevelStore.overflowCapacity LevelStore.maxOverflowLen
    omega
  refine ⟨?_, hlen' ▸ hov⟩
  rcases hlen with h | h <;> rw [h] <;> assumption

end LevelLayout

theorem recSize_of_init {ps : PageSize} {len : ℕ} {d : DataPage} (h : DataPage.init ps len = some d) :
    d.recSize = (DataPage.trxRefSize + len) % 2 ^ 16 := by
  unfold DataPage.init at h
  dsimp only at h
  split at h
  · cases h
    rfl
  · split at h
    · cases h
    · split at h <;> cases h <;> rfl

/-- The pages of an index are laid out as the readers assume. -/
theorem layout_of_fits {ps : PageSize} {len : ℕ} {d : DataPage} (hpos : 1 ≤ len)
    (hfit : LevelLayout.Fits ps len) (h : DataPage.init ps len = some d) : DataPage.LayoutOK ps len d := by
  obtain ⟨hdvd, hle⟩ := hfit
  have hps : DataPage.availableSpace ps < 65536 := by cases ps <;> decide
  have h8 : DataPage.trxRefSize = 8 := rfl
  obtain ⟨d', hd', hok⟩ := @DataPage.layoutOK_of_settles ps _ hpos (by omega) fun k hk => hdvd
    ⟨k, by
      rw [hk, show (4 * k + 1) * (DataPage.trxRefSize + len) + k =
        (DataPage.trxRefSize + len) + (4 * (DataPage.trxRefSize + len) + 1) * k by ring]
      exact Nat.add_sub_cancel_left _ _⟩
  obtain rfl : d' = d := Option.some.inj (hd'.symm.trans h)
  exact hok

/-- The pages of an index have their areas apart. -/
theorem apart_of_fits {ps : PageSize} {len : ℕ} {d : DataPage} (hpos : 1 ≤ len)
    (hfit : LevelLayout.Fits ps len) (h : DataPage.init ps len = some d) : d.Apart len := by
  obtain ⟨hbitmap, harea, -⟩ := layout_of_fits hpos hfit h
  have hps : DataPage.availableSpace ps < 65536 ∧ ps.bytes ≤ 2 ^ 16 := by cases ps <;> decide
  have hrec : d.recSize = DataPage.trxRefSize + len := by
    have := hfit.2
    rw [recSize_of_init h]
    exact Nat.mod_eq_of_lt (by omega)
  exact ⟨hrec, hbitmap, by rw [hrec]; omega⟩

/-! ### What an entry is to its readers -/

/-- An empty slot. -/
def RawNode.invalid : RawNode := ⟨invalidId, invalidId⟩

namespace RawEntry

/-- The ids of an entry: 46 bits of column reference and the incoming flag. -/
structure Small (e : RawEntry) : Prop where
  owner : e.owner < 2 ^ 47
  lowerLevel : e.lowerLevel < 2 ^ 47
  neighbours : ∀ n ∈ e.neighbours, n.nid < 2 ^ 47 ∧ n.vid < 2 ^ 47
  overflow : e.overflow < 2 ^ 47

/-- The entry as an insert stores it: with all slots of the level. -/
def padded (L : LevelLayout) (e : RawEntry) : RawEntry where
  owner := e.owner
  lowerLevel := if L.hasLower then e.lowerLevel else invalidId
  neighbours := (List.range L.maxNeighbours).map fun i => (e.neighbours[i]?).getD .invalid
  overflow := e.overflow

/-- The stored entry `old` after an update with `e`: the fields of the mask and,
of the neighbours, the slots named. -/
def merge (old e : RawEntry) (mask : NodeField) (slots : List ℕ) : RawEntry where
  owner := if mask.owner then e.owner else old.owner
  lowerLevel := if mask.lowerLevel then e.lowerLevel else old.lowerLevel
  neighbours :=
    if mask.neighbours then (slots.zip e.neighbours).foldl (fun ns w => ns.set w.1 w.2) old.neighbours
    else old.neighbours
  overflow := if mask.overflow then e.overflow else old.overflow

/-- What a fetch into `entry` makes of the stored entry: the fields of the mask
and the slots asked for, all of them in place for an update, else the ones that
count. -/
def select (L : LevelLayout) (stored : RawEntry) (forUpdate : Bool) (entry : RawEntry) (mask : NodeField)
    (filter : IncomingFilter) (slots : List ℕ) : RawEntry × Option ℕ :=
  let view := slots.map fun i => (stored.neighbours[i]?).getD .invalid
  let kept := view.filter (Serial.included filter)
  ({ owner := if mask.owner then stored.owner else entry.owner
     lowerLevel := if mask.lowerLevel ∧ L.hasLower then stored.lowerLevel else entry.lowerLevel
     neighbours :=
      if mask.neighbours then (if forUpdate then view ++ entry.neighbours.drop view.length else kept)
      else entry.neighbours
     overflow := if mask.overflow then stored.overflow else entry.overflow },
    if mask.neighbours then some kept.length else none)

end RawEntry

namespace RawOverflow

structure Small (e : RawOverflow) : Prop where
  incoming : ∀ nid ∈ e.incoming, nid < 2 ^ 47
  overflow : e.overflow < 2 ^ 47

/-- The entry as an insert stores it. -/
def padded (L : LevelLayout) (e : RawOverflow) : RawOverflow where
  incoming := (List.range L.overflowCapacity).map fun i => (e.incoming[i]?).getD invalidId
  overflow := e.overflow

/-- The stored entry `old` after an update with `e`. -/
def merge (old e : RawOverflow) (mask : OverflowField) (slots : List ℕ) : RawOverflow where
  incoming :=
    if mask.incoming then (slots.zip e.incoming).foldl (fun ns w => ns.set w.1 w.2) old.incoming
    else old.incoming
  overflow := if mask.overflow then e.overflow else old.overflow

/-- What a fetch into `entry` makes of the stored entry. -/
def select (stored : RawOverflow) (forUpdate : Bool) (entry : RawOverflow) (mask : OverflowField)
    (slots : List ℕ) : RawOverflow × Option ℕ :=
  let view := slots.map fun i => (stored.incoming[i]?).getD invalidId
  let kept := view.filter fun nid => nid ≠ invalidId
  ({ incoming :=
      if mask.incoming then (if forUpdate then view ++ entry.incoming.drop view.length else kept)
      else entry.incoming
     overflow := if mask.overflow then stored.overflow else entry.overflow },
    if mask.incoming then some kept.length else none)

end RawOverflow

namespace Serial

variable {L : LevelLayout}

/-! ### Chunks of a row -/

theorem length_writeId48 (v : ℕ) : (writeId48 v).length = chunkSize := Bytes.length_encode _ _

/-- An id of 48 bits survives. -/
theorem readChunk_of_chunk {data : List (BitVec 8)} {k v : ℕ} (hv : v < 2 ^ 48)
    (h : Bytes.chunk chunkSize data k = writeId48 v) : readChunk data k = v := by
  rw [readChunk, h]
  exact Bytes.decode_encode_of_lt (hv.trans_le (by norm_num [chunkSize]))

section Update

variable {ws : List (ℕ × ℕ)} {buffer old : List (BitVec 8)} {k : ℕ}

theorem length_writeChunks : ∀ {ws : List (ℕ × ℕ)} {buffer : List (BitVec 8)},
    (∀ w ∈ ws, w.1 * chunkSize + chunkSize ≤ buffer.length) →
    (writeChunks ws buffer).length = buffer.length
  | [], _, _ => rfl
  | w :: ws, buffer, hin => by
    have hw := hin w List.mem_cons_self
    have hlen := Bytes.length_splice (l := buffer) (d := writeId48 w.2) (k := w.1 * chunkSize)
      (by rw [length_writeId48]; exact hw)
    show (writeChunks ws (Bytes.splice buffer (w.1 * chunkSize) (writeId48 w.2))).length = _
    rw [length_writeChunks fun x hx => ?_, hlen]
    rw [hlen]
    exact hin x (List.mem_cons_of_mem w hx)

theorem chunk_writeChunks_of_notMem : ∀ {ws : List (ℕ × ℕ)} {buffer : List (BitVec 8)},
    (∀ w ∈ ws, w.1 * chunkSize + chunkSize ≤ buffer.length) → k ∉ ws.map (·.1) →
    Bytes.chunk chunkSize (writeChunks ws buffer) k = Bytes.chunk chunkSize buffer k
  | [], _, _, _ => rfl
  | w :: ws, buffer, hin, hk => by
    have hw := hin w List.mem_cons_self
    have hlen := Bytes.length_splice (l := buffer) (d := writeId48 w.2) (k := w.1 * chunkSize)
      (by rw [length_writeId48]; exact hw)
    rw [List.map_cons, List.mem_cons, not_or] at hk
    show Bytes.chunk chunkSize (writeChunks ws (Bytes.splice buffer (w.1 * chunkSize) (writeId48 w.2))) k = _
    rw [chunk_writeChunks_of_notMem (fun x hx => ?_) hk.2,
      Bytes.chunk_splice (length_writeId48 w.2) hw, if_neg hk.1]
    rw [hlen]
    exact hin x (List.mem_cons_of_mem w hx)

/-- What was written to the scratch buffer stands there. -/
theorem chunk_writeChunks : ∀ {ws : List (ℕ × ℕ)} {buffer : List (BitVec 8)},
    ws.Pairwise (·.1 < ·.1) → (∀ w ∈ ws, w.1 * chunkSize + chunkSize ≤ buffer.length) → ∀ w ∈ ws,
    Bytes.chunk chunkSize (writeChunks ws buffer) w.1 = writeId48 w.2
  | x :: ws, buffer, hs, hin, w, hw => by
    have hx := hin x List.mem_cons_self
    have hlen := Bytes.length_splice (l := buffer) (d := writeId48 x.2) (k := x.1 * chunkSize)
      (by rw [length_writeId48]; exact hx)
    obtain ⟨hlt, hs⟩ := List.pairwise_cons.mp hs
    have hin' : ∀ y ∈ ws, y.1 * chunkSize + chunkSize ≤
        (Bytes.splice buffer (x.1 * chunkSize) (writeId48 x.2)).length := by
      intro y hy
      rw [hlen]
      exact hin y (List.mem_cons_of_mem x hy)
    show Bytes.chunk chunkSize (writeChunks ws (Bytes.splice buffer (x.1 * chunkSize) (writeId48 x.2))) w.1 = _
    rcases List.mem_cons.mp hw with rfl | hw
    · have hnot : w.1 ∉ ws.map (·.1) := by
        intro hmem
        obtain ⟨y, hy, he⟩ := List.mem_map.mp hmem
        have := hlt y hy
        omega
      rw [chunk_writeChunks_of_notMem hin' hnot, Bytes.chunk_splice (length_writeId48 w.2) hx, if_pos rfl]
    · exact chunk_writeChunks hs hin' w hw

/-- **An update of chunks.** The chunks written read as they were written, the
others as before. -/
theorem readChunk_spliceChunks (hs : ws.Pairwise (·.1 < ·.1))
    (hin : ∀ w ∈ ws, w.1 * chunkSize + chunkSize ≤ old.length) (hsmall : ∀ w ∈ ws, w.2 < 2 ^ 48)
    (hbuf : old.length ≤ buffer.length) :
    (∀ w ∈ ws, readChunk (DataPage.spliceChunks chunkSize ((writeChunks ws buffer).take old.length)
      (ws.map (·.1)) old) w.1 = w.2) ∧
    ∀ k, k ∉ ws.map (·.1) → readChunk (DataPage.spliceChunks chunkSize
      ((writeChunks ws buffer).take old.length) (ws.map (·.1)) old) k = readChunk old k := by
  have hbufIn : ∀ w ∈ ws, w.1 * chunkSize + chunkSize ≤ buffer.length := fun w hw => (hin w hw).trans hbuf
  have hlen : ((writeChunks ws buffer).take old.length).length = old.length := by
    rw [List.length_take, length_writeChunks hbufIn]
    omega
  have hids : ∀ c ∈ ws.map (·.1), c * chunkSize + chunkSize ≤ old.length := by
    intro c hc
    obtain ⟨w, hw, rfl⟩ := List.mem_map.mp hc
    exact hin w hw
  constructor
  · intro w hw
    apply readChunk_of_chunk (hsmall w hw)
    rw [DataPage.chunk_spliceChunks hlen hids, if_pos (List.mem_map_of_mem hw),
      Bytes.chunk_take (hin w hw), chunk_writeChunks hs hbufIn w hw]
  · intro k hk
    rw [readChunk, readChunk, DataPage.chunk_spliceChunks hlen hids, if_neg hk]

end Update

/-! ### Slots -/

theorem handleSlots_eq {α : Type} (forUpdate : Bool) (read : ℕ → α) (valid : α → Bool) : ∀ slots : List ℕ,
    handleSlots forUpdate read valid slots =
      (if forUpdate then slots.map read else (slots.map read).filter valid,
        ((slots.map read).filter valid).length)
  | [] => by cases forUpdate <;> rfl
  | s :: ss => by
    rw [handleSlots, handleSlots_eq forUpdate read valid ss]
    cases forUpdate <;> by_cases h : valid (read s) <;> simp [h]

theorem pairwise_zip {α : Type} : ∀ {slots : List ℕ} {ns : List α}, slots.Pairwise (· < ·) →
    (slots.zip ns).Pairwise (·.1 < ·.1)
  | [], _, _ => by simp
  | _ :: _, [], _ => by simp
  | s :: ss, n :: ns, h => by
    obtain ⟨hlt, hs⟩ := List.pairwise_cons.mp h
    rw [List.zip_cons_cons, List.pairwise_cons]
    exact ⟨fun w hw => hlt w.1 (List.of_mem_zip hw).1, pairwise_zip hs⟩

theorem length_foldl_set {α : Type} : ∀ (ws : List (ℕ × α)) (ns : List α),
    (ws.foldl (fun ns w => ns.set w.1 w.2) ns).length = ns.length
  | [], _ => rfl
  | w :: ws, ns => by rw [List.foldl_cons, length_foldl_set ws, List.length_set]

theorem getElem?_foldl_set_of_notMem {α : Type} {i : ℕ} : ∀ {ws : List (ℕ × α)} {ns : List α},
    (∀ w ∈ ws, w.1 ≠ i) → (ws.foldl (fun ns w => ns.set w.1 w.2) ns)[i]? = ns[i]?
  | [], _, _ => rfl
  | w :: ws, ns, h => by
    rw [List.foldl_cons, getElem?_foldl_set_of_notMem fun x hx => h x (List.mem_cons_of_mem w hx),
      List.getElem?_set_ne (h w List.mem_cons_self)]

theorem getElem?_foldl_set {α : Type} : ∀ {ws : List (ℕ × α)} {ns : List α}, ws.Pairwise (·.1 < ·.1) →
    ∀ w ∈ ws, w.1 < ns.length → (ws.foldl (fun ns w => ns.set w.1 w.2) ns)[w.1]? = some w.2
  | x :: ws, ns, hs, w, hw, hlt => by
    obtain ⟨hx, hs⟩ := List.pairwise_cons.mp hs
    rw [List.foldl_cons]
    rcases List.mem_cons.mp hw with rfl | hw
    · rw [getElem?_foldl_set_of_notMem fun y hy => (Nat.ne_of_lt (hx y hy)).symm,
        List.getElem?_set_self hlt]
    · exact getElem?_foldl_set hs w hw (by rwa [List.length_set])

/-! ### Neighbour entries -/

/-- The entry that the data of a record stands for. -/
def storedEntry (L : LevelLayout) (data : List (BitVec 8)) : RawEntry where
  owner := readChunk data LevelLayout.ownerChunk
  lowerLevel := if L.hasLower then readChunk data LevelLayout.lowerLevelChunk else invalidId
  neighbours := (List.range L.maxNeighbours).map (readNode L data)
  overflow := readChunk data L.neighbourOverflowChunk

/-- The slots a fetch takes. -/
def InRange (n : ℕ) (slots : Option (List ℕ)) : Prop := ∀ i ∈ slots.getD [], i < n

theorem mem_slots {n i : ℕ} {slots : Option (List ℕ)} (h : InRange n slots)
    (hi : i ∈ slots.getD (List.range n)) : i < n := by
  cases slots with
  | none => exact List.mem_range.mp hi
  | some ss => exact h i hi

/-- A fetch is a selection of the stored entry. -/
theorem readEntry_eq {data : List (BitVec 8)} {forUpdate : Bool} {entry : RawEntry} {mask : NodeField}
    {filter : IncomingFilter} {slots : Option (List ℕ)} (h : InRange L.maxNeighbours slots) :
    readEntry L data forUpdate entry mask filter slots =
      (storedEntry L data).select L forUpdate entry mask filter (slots.getD (List.range L.maxNeighbours)) := by
  have hview : (slots.getD (List.range L.maxNeighbours)).map (readNode L data) =
      (slots.getD (List.range L.maxNeighbours)).map fun i =>
        ((storedEntry L data).neighbours[i]?).getD .invalid := by
    apply List.map_congr_left
    intro i hi
    have hlt := mem_slots h hi
    simp [storedEntry, hlt]
  have hlower : (if mask.lowerLevel ∧ L.hasLower then readChunk data LevelLayout.lowerLevelChunk
      else entry.lowerLevel) =
      if mask.lowerLevel ∧ L.hasLower then (storedEntry L data).lowerLevel else entry.lowerLevel := by
    split
    · rename_i hm
      simp [storedEntry, hm.2]
    · rfl
  unfold readEntry RawEntry.select
  dsimp only
  rw [handleSlots_eq, hview, hlower]
  unfold fillSpan
  cases forUpdate <;> rfl

section Format

variable {e : RawEntry}

/-- The bytes of a neighbour slot. -/
def nodeBytes (n : RawNode) : List (BitVec 8) := writeId48 n.nid ++ writeId48 n.vid

theorem length_nodeBytes (n : RawNode) : (nodeBytes n).length = 2 * chunkSize := by
  unfold nodeBytes
  rw [List.length_append, length_writeId48, length_writeId48, Nat.two_mul]

theorem length_padded : (e.padded L).neighbours.length = L.maxNeighbours := by simp [RawEntry.padded]

/-- The fields of the bytes: what stands before the slots, the slots, the overflow. -/
theorem formatEntry_eq : formatEntry L e =
    (writeId48 e.owner ++ if L.hasLower then writeId48 e.lowerLevel else []) ++
      (e.padded L).neighbours.flatMap nodeBytes ++ writeId48 e.overflow := by
  unfold formatEntry RawEntry.padded
  rw [List.flatMap_map]
  congr 3
  funext i
  cases e.neighbours[i]? <;> rfl

theorem length_head : (writeId48 e.owner ++ if L.hasLower then writeId48 e.lowerLevel else []).length =
    L.neighboursBaseChunk * chunkSize := by
  rw [LevelLayout.neighboursBaseChunk_eq, List.length_append, length_writeId48]
  split
  · rw [length_writeId48]
    rfl
  · rfl

theorem length_slots : ((e.padded L).neighbours.flatMap nodeBytes).length =
    2 * L.maxNeighbours * chunkSize := by
  rw [Bytes.length_flatMap_const length_nodeBytes, length_padded]
  ring

theorem length_formatEntry : (formatEntry L e).length = L.entryLen := by
  rw [formatEntry_eq, List.length_append, List.length_append, length_head, length_slots, length_writeId48,
    LevelLayout.entryLen_eq]
  ring

theorem chunk_slot {i j : ℕ} (hi : i < L.maxNeighbours) (hj : j < 2) :
    Bytes.chunk chunkSize (formatEntry L e) (L.neighboursBaseChunk + (2 * i + j)) =
      Bytes.chunk chunkSize (nodeBytes ((e.neighbours[i]?).getD .invalid)) j := by
  have hin : (2 * i + j + 1) * chunkSize ≤ 2 * L.maxNeighbours * chunkSize :=
    Nat.mul_le_mul_right _ (by omega)
  rw [formatEntry_eq, List.append_assoc, Bytes.chunk_append_right length_head, Bytes.chunk_append_left]
  · rw [Bytes.chunk_flatMap length_nodeBytes hj (by rwa [length_padded])]
    simp [RawEntry.padded]
  · rw [length_slots, ← Nat.succ_mul]
    exact hin

theorem small_slot (he : e.Small) (i : ℕ) :
    ((e.neighbours[i]?).getD .invalid).nid < 2 ^ 48 ∧ ((e.neighbours[i]?).getD .invalid).vid < 2 ^ 48 := by
  cases h : e.neighbours[i]? with
  | none => exact ⟨by decide, by decide⟩
  | some n =>
    have := he.neighbours n (List.mem_of_getElem? h)
    simp only [Option.getD_some]
    omega

theorem readNode_formatEntry (hM : L.M ≤ 128) (he : e.Small) {i : ℕ} (hi : i < L.maxNeighbours) :
    readNode L (formatEntry L e) i = (e.neighbours[i]?).getD .invalid := by
  obtain ⟨hnid, hvid⟩ := small_slot he i
  unfold readNode
  rw [LevelLayout.neighbourNidChunk_eq hM hi, LevelLayout.neighbourVidChunk_eq hM hi]
  have h0 := chunk_slot (L := L) (e := e) (j := 0) hi (by norm_num)
  have h1 := chunk_slot (L := L) (e := e) (j := 1) hi (by norm_num)
  rw [nodeBytes, Bytes.chunk_append_left (by rw [length_writeId48]; omega),
    Bytes.chunk_self (length_writeId48 _)] at h0
  rw [nodeBytes, Bytes.chunk_append_right (m := 1) (k := 0) (by rw [length_writeId48, Nat.one_mul]),
    Bytes.chunk_self (length_writeId48 _)] at h1
  rw [Nat.add_zero] at h0
  rw [readChunk_of_chunk hnid h0, Nat.add_assoc, readChunk_of_chunk hvid h1]

/-- **What an insert writes.** The data stands for the entry with its slots filled
up. -/
theorem storedEntry_formatEntry (hM : L.M ≤ 128) (he : e.Small) :
    storedEntry L (formatEntry L e) = e.padded L := by
  have hbase := LevelLayout.neighboursBaseChunk_pos (L := L)
  have howner : readChunk (formatEntry L e) LevelLayout.ownerChunk = e.owner := by
    apply readChunk_of_chunk (he.owner.trans (by norm_num))
    rw [formatEntry_eq, List.append_assoc, Bytes.chunk_append_left, Bytes.chunk_append_left]
    · exact Bytes.chunk_self (length_writeId48 _)
    · rw [length_writeId48]
      exact (Nat.zero_add _).le
    · rw [length_head]
      exact Nat.le_mul_of_pos_left _ hbase
  have hlower : L.hasLower → readChunk (formatEntry L e) LevelLayout.lowerLevelChunk = e.lowerLevel := by
    intro hl
    apply readChunk_of_chunk (he.lowerLevel.trans (by norm_num))
    rw [formatEntry_eq, List.append_assoc, if_pos hl, Bytes.chunk_append_left]
    · rw [show LevelLayout.lowerLevelChunk = 1 + 0 from rfl,
        Bytes.chunk_append_right (by rw [length_writeId48, Nat.one_mul])]
      exact Bytes.chunk_self (length_writeId48 _)
    · rw [List.length_append, length_writeId48, length_writeId48]
      decide
  have hnodes : (List.range L.maxNeighbours).map (readNode L (formatEntry L e)) = (e.padded L).neighbours := by
    apply List.map_congr_left
    intro i hi
    exact readNode_formatEntry hM he (List.mem_range.mp hi)
  have hoverflow : readChunk (formatEntry L e) L.neighbourOverflowChunk = e.overflow := by
    apply readChunk_of_chunk (he.overflow.trans (by norm_num))
    rw [formatEntry_eq, LevelLayout.neighbourOverflowChunk_eq hM, ← Nat.add_zero (_ + _),
      Bytes.chunk_append_right]
    · exact Bytes.chunk_self (length_writeId48 _)
    · rw [List.length_append, length_head, length_slots]
      ring
  unfold storedEntry
  rw [howner, hnodes, hoverflow]
  unfold RawEntry.padded
  congr 1
  split
  · rename_i hl
    exact hlower hl
  · rfl

end Format

section EntryUpdate

variable {e : RawEntry} {mask : NodeField} {slots : List ℕ}

/-- The calls of an update that its callers promise: slots in order and within
the level, and the lower level only where there is one. -/
structure EntryArgs (L : LevelLayout) (e : RawEntry) (mask : NodeField) (slots : List ℕ) : Prop where
  sorted : slots.Pairwise (· < ·)
  inRange : ∀ i ∈ slots, i < L.maxNeighbours
  small : e.Small
  lowerLevel : mask.lowerLevel → L.hasLower

theorem mem_entryChunks {w : ℕ × ℕ} : w ∈ entryChunks L e mask slots ↔
    (mask.owner ∧ w = (LevelLayout.ownerChunk, e.owner)) ∨
    (mask.lowerLevel ∧ w = (LevelLayout.lowerLevelChunk, e.lowerLevel)) ∨
    (mask.neighbours ∧ ∃ x ∈ slots.zip e.neighbours,
      w = (L.neighbourNidChunk x.1, x.2.nid) ∨ w = (L.neighbourVidChunk x.1, x.2.vid)) ∨
    (mask.overflow ∧ w = (L.neighbourOverflowChunk, e.overflow)) := by
  unfold entryChunks
  rw [List.mem_append, List.mem_append, List.mem_append, or_assoc, or_assoc]
  refine or_congr ?_ (or_congr ?_ (or_congr ?_ ?_))
  · split <;> simp [*]
  · split <;> simp [*]
  · split <;> simp [*]
  · split <;> simp [*]

theorem base_of_lower (hargs : EntryArgs L e mask slots) (h : mask.lowerLevel) :
    L.neighboursBaseChunk = 2 := by
  rw [LevelLayout.neighboursBaseChunk_eq, if_pos (hargs.lowerLevel h)]

/-- The chunks of a slot. -/
theorem slot_chunks (hM : L.M ≤ 128) (hargs : EntryArgs L e mask slots) {x : ℕ × RawNode}
    (hx : x ∈ slots.zip e.neighbours) : x.1 < L.maxNeighbours ∧
      L.neighbourNidChunk x.1 = L.neighboursBaseChunk + 2 * x.1 ∧
      L.neighbourVidChunk x.1 = L.neighboursBaseChunk + 2 * x.1 + 1 := by
  have hlt := hargs.inRange x.1 (List.of_mem_zip hx).1
  exact ⟨hlt, LevelLayout.neighbourNidChunk_eq hM hlt, LevelLayout.neighbourVidChunk_eq hM hlt⟩

theorem entryChunks_sorted (hM : L.M ≤ 128) (hargs : EntryArgs L e mask slots) :
    (entryChunks L e mask slots).Pairwise (·.1 < ·.1) := by
  have hbase := LevelLayout.neighboursBaseChunk_pos (L := L)
  set nodes := if mask.neighbours then (slots.zip e.neighbours).flatMap fun w =>
    [(L.neighbourNidChunk w.1, w.2.nid), (L.neighbourVidChunk w.1, w.2.vid)] else [] with hnodes
  have hsorted : nodes.Pairwise (·.1 < ·.1) := by
    rw [hnodes]
    split
    · rw [List.pairwise_flatMap]
      refine ⟨fun x hx => ?_, (pairwise_zip hargs.sorted).imp_of_mem fun hx hy hlt => ?_⟩
      · have := slot_chunks hM hargs hx
        simp
        omega
      · have := slot_chunks hM hargs hx
        have := slot_chunks hM hargs hy
        simp
        omega
    · exact .nil
  have hbounds : ∀ w ∈ nodes, L.neighboursBaseChunk ≤ w.1 ∧ w.1 < L.neighboursBaseChunk + 2 * L.maxNeighbours := by
    intro w hw
    rw [hnodes] at hw
    split at hw
    · obtain ⟨x, hx, hw⟩ := List.mem_flatMap.mp hw
      have := slot_chunks hM hargs hx
      simp only [List.mem_cons, List.not_mem_nil, or_false] at hw
      rcases hw with rfl | rfl <;> dsimp only <;> omega
    · cases hw
  -- the first two fields stand before the slots, the overflow behind them
  have hfirst : ∀ w ∈ (if mask.owner then [(LevelLayout.ownerChunk, e.owner)] else []), w.1 = 0 := by
    intro w hw
    split at hw
    · rw [List.mem_singleton.mp hw]
      rfl
    · cases hw
  have hsecond : ∀ w ∈ (if mask.lowerLevel then [(LevelLayout.lowerLevelChunk, e.lowerLevel)] else []),
      w.1 = 1 ∧ L.neighboursBaseChunk = 2 := by
    intro w hw
    split at hw
    · rename_i hm
      rw [List.mem_singleton.mp hw]
      exact ⟨rfl, base_of_lower hargs hm⟩
    · cases hw
  have hlast : ∀ w ∈ (if mask.overflow then [(L.neighbourOverflowChunk, e.overflow)] else []),
      w.1 = L.neighboursBaseChunk + 2 * L.maxNeighbours := by
    intro w hw
    split at hw
    · rw [List.mem_singleton.mp hw]
      exact LevelLayout.neighbourOverflowChunk_eq hM
    · cases hw
  unfold entryChunks
  rw [← hnodes, List.pairwise_append, List.pairwise_append, List.pairwise_append]
  refine ⟨⟨⟨?_, ?_, fun a ha b hb => ?_⟩, hsorted, fun a ha b hb => ?_⟩, ?_, fun a ha b hb => ?_⟩
  · split <;> simp
  · split <;> simp
  · rw [hfirst a ha, (hsecond b hb).1]
    exact Nat.one_pos
  · have := hbounds b hb
    rcases List.mem_append.mp ha with ha | ha
    · have := hfirst a ha
      omega
    · have := hsecond a ha
      omega
  · split <;> simp
  · rw [hlast b hb]
    rcases List.mem_append.mp ha with ha | ha
    · rcases List.mem_append.mp ha with ha | ha
      · have := hfirst a ha
        omega
      · have := hsecond a ha
        omega
    · exact (hbounds a ha).2

theorem entryChunks_inRange (hM : L.M ≤ 128) (hargs : EntryArgs L e mask slots) :
    ∀ w ∈ entryChunks L e mask slots, w.1 * chunkSize + chunkSize ≤ L.entryLen := by
  intro w hw
  rw [LevelLayout.entryLen_eq, ← Nat.succ_mul]
  apply Nat.mul_le_mul_right
  have hbase := LevelLayout.neighboursBaseChunk_pos (L := L)
  rcases mem_entryChunks.mp hw with ⟨-, rfl⟩ | ⟨hm, rfl⟩ | ⟨-, x, hx, rfl | rfl⟩ | ⟨-, rfl⟩
  · dsimp only [LevelLayout.ownerChunk]
    omega
  · have := base_of_lower hargs hm
    dsimp only [LevelLayout.lowerLevelChunk, LevelLayout.ownerChunk]
    omega
  · have := slot_chunks hM hargs hx
    dsimp only
    omega
  · have := slot_chunks hM hargs hx
    dsimp only
    omega
  · rw [LevelLayout.neighbourOverflowChunk_eq hM]

theorem entryChunks_small (hargs : EntryArgs L e mask slots) :
    ∀ w ∈ entryChunks L e mask slots, w.2 < 2 ^ 48 := by
  intro w hw
  have hsmall := hargs.small
  have h47 : ∀ {v : ℕ}, v < 2 ^ 47 → v < 2 ^ 48 := fun h => h.trans (by norm_num)
  rcases mem_entryChunks.mp hw with ⟨-, rfl⟩ | ⟨hm, rfl⟩ | ⟨-, x, hx, rfl | rfl⟩ | ⟨-, rfl⟩
  · exact h47 hsmall.owner
  · exact h47 hsmall.lowerLevel
  · exact h47 (hsmall.neighbours x.2 (List.of_mem_zip hx).2).1
  · exact h47 (hsmall.neighbours x.2 (List.of_mem_zip hx).2).2
  · exact h47 hsmall.overflow

/-- The chunks an update names, by field. -/
theorem key_cases (hM : L.M ≤ 128) (hargs : EntryArgs L e mask slots) {k : ℕ}
    (hk : k ∈ (entryChunks L e mask slots).map (·.1)) :
    (mask.owner ∧ k = 0) ∨ (mask.lowerLevel ∧ k = 1 ∧ L.neighboursBaseChunk = 2) ∨
    (mask.neighbours ∧ ∃ x ∈ slots.zip e.neighbours, x.1 < L.maxNeighbours ∧
      (k = L.neighboursBaseChunk + 2 * x.1 ∨ k = L.neighboursBaseChunk + 2 * x.1 + 1)) ∨
    (mask.overflow ∧ k = L.neighboursBaseChunk + 2 * L.maxNeighbours) := by
  obtain ⟨w, hw, rfl⟩ := List.mem_map.mp hk
  rcases mem_entryChunks.mp hw with ⟨hm, rfl⟩ | ⟨hm, rfl⟩ | ⟨hm, x, hx, hw⟩ | ⟨hm, rfl⟩
  · exact .inl ⟨hm, rfl⟩
  · exact .inr (.inl ⟨hm, rfl, base_of_lower hargs hm⟩)
  · obtain ⟨hlt, hnid, hvid⟩ := slot_chunks hM hargs hx
    refine .inr (.inr (.inl ⟨hm, x, hx, hlt, ?_⟩))
    rcases hw with rfl | rfl
    · exact .inl hnid
    · exact .inr hvid
  · exact .inr (.inr (.inr ⟨hm, LevelLayout.neighbourOverflowChunk_eq hM⟩))

section Updated

variable (hM : L.M ≤ 128) (hargs : EntryArgs L e mask slots) {old new : List (BitVec 8)}
  (hnamed : ∀ w ∈ entryChunks L e mask slots, readChunk new w.1 = w.2)
  (hother : ∀ k, k ∉ (entryChunks L e mask slots).map (·.1) → readChunk new k = readChunk old k)
include hM hargs hnamed hother

/-- A slot's chunks are written exactly when the mask and the slots name it. -/
theorem readNode_updated {i : ℕ} (hi : i < L.maxNeighbours) :
    some (readNode L new i) = ((storedEntry L old).merge e mask slots).neighbours[i]? := by
  have hold : (storedEntry L old).neighbours[i]? = some (readNode L old i) := by
    simp [storedEntry, hi]
  have hlen : (storedEntry L old).neighbours.length = L.maxNeighbours := by simp [storedEntry]
  by_cases hnode : mask.neighbours ∧ ∃ x ∈ slots.zip e.neighbours, x.1 = i
  · obtain ⟨hm, x, hx, rfl⟩ := hnode
    have h0 := hnamed (L.neighbourNidChunk x.1, x.2.nid)
      (mem_entryChunks.mpr (.inr (.inr (.inl ⟨hm, x, hx, .inl rfl⟩))))
    have h1 := hnamed (L.neighbourVidChunk x.1, x.2.vid)
      (mem_entryChunks.mpr (.inr (.inr (.inl ⟨hm, x, hx, .inr rfl⟩))))
    rw [RawEntry.merge, if_pos hm, getElem?_foldl_set (pairwise_zip hargs.sorted) x hx (by rwa [hlen]),
      readNode, h0, h1]
  · have hnot : ∀ k, k = L.neighboursBaseChunk + 2 * i ∨ k = L.neighboursBaseChunk + 2 * i + 1 →
        k ∉ (entryChunks L e mask slots).map (·.1) := by
      intro k hk hmem
      have hbase := LevelLayout.neighboursBaseChunk_pos (L := L)
      rcases key_cases hM hargs hmem with ⟨-, h⟩ | ⟨-, h, h2⟩ | ⟨hm, x, hx, -, h⟩ | ⟨-, h⟩
      · omega
      · omega
      · have hne : x.1 ≠ i := fun h => hnode ⟨hm, x, hx, h⟩
        omega
      · omega
    have hsame : readNode L new i = readNode L old i := by
      unfold readNode
      rw [LevelLayout.neighbourNidChunk_eq hM hi, LevelLayout.neighbourVidChunk_eq hM hi,
        hother _ (hnot _ (.inl rfl)), hother _ (hnot _ (.inr rfl))]
    rw [hsame, ← hold, RawEntry.merge]
    dsimp only
    split
    · rename_i hm
      rw [getElem?_foldl_set_of_notMem fun x hx h => hnode ⟨hm, x, hx, h⟩]
    · rfl

/-- **What an update writes.** The data stands for the merged entry. -/
theorem storedEntry_updated : storedEntry L new = (storedEntry L old).merge e mask slots := by
  have hbase := LevelLayout.neighboursBaseChunk_pos (L := L)
  have howner : readChunk new LevelLayout.ownerChunk =
      if mask.owner then e.owner else readChunk old LevelLayout.ownerChunk := by
    split
    · rename_i hm
      exact hnamed _ (mem_entryChunks.mpr (.inl ⟨hm, rfl⟩))
    · rename_i hm
      refine hother _ fun hmem => ?_
      unfold LevelLayout.ownerChunk at hmem
      rcases key_cases hM hargs hmem with ⟨h, -⟩ | ⟨-, h, -⟩ | ⟨-, x, hx, -, h⟩ | ⟨-, h⟩
      · exact hm h
      all_goals omega
  have hlower : (if L.hasLower then readChunk new LevelLayout.lowerLevelChunk else invalidId) =
      if mask.lowerLevel then e.lowerLevel
      else if L.hasLower then readChunk old LevelLayout.lowerLevelChunk else invalidId := by
    by_cases hm : mask.lowerLevel
    · rw [if_pos (hargs.lowerLevel hm), if_pos hm]
      exact hnamed _ (mem_entryChunks.mpr (.inr (.inl ⟨hm, rfl⟩)))
    · rw [if_neg hm]
      split
      · rename_i hl
        have h2 : L.neighboursBaseChunk = 2 := by rw [LevelLayout.neighboursBaseChunk_eq, if_pos hl]
        refine hother _ fun hmem => ?_
        unfold LevelLayout.lowerLevelChunk LevelLayout.ownerChunk at hmem
        rcases key_cases hM hargs hmem with ⟨-, h⟩ | ⟨h, -⟩ | ⟨-, x, hx, -, h⟩ | ⟨-, h⟩
        · omega
        · exact hm h
        all_goals omega
      · rfl
  have hnodes : (storedEntry L new).neighbours = ((storedEntry L old).merge e mask slots).neighbours := by
    have hlen : ((storedEntry L old).merge e mask slots).neighbours.length = L.maxNeighbours := by
      unfold RawEntry.merge storedEntry
      dsimp only
      split <;> simp [length_foldl_set]
    apply List.ext_getElem?
    intro i
    rcases Nat.lt_or_ge i L.maxNeighbours with hi | hi
    · rw [← readNode_updated hM hargs hnamed hother hi]
      simp [storedEntry, hi]
    · rw [List.getElem?_eq_none (by simpa [storedEntry] using hi), List.getElem?_eq_none (by rwa [hlen])]
  have hoverflow : readChunk new L.neighbourOverflowChunk =
      if mask.overflow then e.overflow else readChunk old L.neighbourOverflowChunk := by
    split
    · rename_i hm
      exact hnamed _ (mem_entryChunks.mpr (.inr (.inr (.inr ⟨hm, rfl⟩))))
    · rename_i hm
      refine hother _ fun hmem => ?_
      rw [LevelLayout.neighbourOverflowChunk_eq hM] at hmem
      rcases key_cases hM hargs hmem with ⟨-, h⟩ | ⟨-, h, h2⟩ | ⟨-, x, hx, hlt, h⟩ | ⟨h, -⟩
      · omega
      · omega
      · omega
      · exact hm h
  exact RawEntry.ext howner hlower hnodes hoverflow

end Updated

end EntryUpdate

/-! ### Overflow entries -/

/-- The overflow entry that the data of a record stands for. -/
def storedOverflow (L : LevelLayout) (data : List (BitVec 8)) : RawOverflow where
  incoming := (List.range L.overflowCapacity).map fun i => readChunk data (LevelLayout.incomingChunk i)
  overflow := readChunk data L.overflowChunk

theorem readOverflow_eq {data : List (BitVec 8)} {forUpdate : Bool} {entry : RawOverflow} {mask : OverflowField}
    {slots : Option (List ℕ)} (h : InRange L.overflowCapacity slots) :
    readOverflow L data forUpdate entry mask slots =
      (storedOverflow L data).select forUpdate entry mask (slots.getD (List.range L.overflowCapacity)) := by
  have hview : (slots.getD (List.range L.overflowCapacity)).map
      (fun i => readChunk data (LevelLayout.incomingChunk i)) =
      (slots.getD (List.range L.overflowCapacity)).map fun i =>
        ((storedOverflow L data).incoming[i]?).getD invalidId := by
    apply List.map_congr_left
    intro i hi
    have hlt := mem_slots h hi
    simp [storedOverflow, hlt]
  unfold readOverflow RawOverflow.select
  dsimp only
  rw [handleSlots_eq, hview]
  unfold fillSpan
  cases forUpdate <;> rfl

section FormatOverflow

variable {e : RawOverflow}

theorem formatOverflow_eq :
    formatOverflow L e = (e.padded L).incoming.flatMap writeId48 ++ writeId48 e.overflow := by
  unfold formatOverflow RawOverflow.padded
  rw [List.flatMap_map]
  congr 2
  funext i
  cases e.incoming[i]? <;> rfl

theorem length_incoming : ((e.padded L).incoming.flatMap writeId48).length = L.overflowCapacity * chunkSize := by
  rw [Bytes.length_flatMap_const length_writeId48, Nat.mul_comm]
  simp [RawOverflow.padded]

theorem length_formatOverflow : (formatOverflow L e).length = L.overflowLen := by
  rw [formatOverflow_eq, List.length_append, length_incoming, length_writeId48, LevelLayout.overflowLen_eq]
  ring

/-- What an insert of an overflow entry writes. -/
theorem storedOverflow_formatOverflow (he : e.Small) : storedOverflow L (formatOverflow L e) = e.padded L := by
  have hincoming : ∀ i, i < L.overflowCapacity →
      readChunk (formatOverflow L e) (LevelLayout.incomingChunk i) = (e.incoming[i]?).getD invalidId := by
    intro i hi
    have hsmall : (e.incoming[i]?).getD invalidId < 2 ^ 48 := by
      cases h : e.incoming[i]? with
      | none => decide
      | some nid => exact (he.incoming nid (List.mem_of_getElem? h)).trans (by norm_num)
    apply readChunk_of_chunk hsmall
    have hi' : i < (e.padded L).incoming.length := by simpa [RawOverflow.padded] using hi
    have hone : ∀ v, (writeId48 v).length = 1 * chunkSize := fun v => by rw [length_writeId48, Nat.one_mul]
    have hchunk := Bytes.chunk_flatMap (w := 1) (j := 0) hone Nat.one_pos hi'
    rw [Nat.one_mul, Nat.add_zero, Bytes.chunk_self (length_writeId48 _)] at hchunk
    rw [formatOverflow_eq, LevelLayout.incomingChunk, Bytes.chunk_append_left, hchunk]
    · simp [RawOverflow.padded]
    · rw [length_incoming, ← Nat.succ_mul]
      exact Nat.mul_le_mul_right _ hi
  have hoverflow : readChunk (formatOverflow L e) L.overflowChunk = e.overflow := by
    apply readChunk_of_chunk (he.overflow.trans (by norm_num))
    rw [formatOverflow_eq, LevelLayout.overflowChunk_eq, ← Nat.add_zero L.overflowCapacity,
      Bytes.chunk_append_right]
    · exact Bytes.chunk_self (length_writeId48 _)
    · exact length_incoming
  exact RawOverflow.ext (List.map_congr_left fun i hi => hincoming i (List.mem_range.mp hi)) hoverflow

end FormatOverflow

section OverflowUpdate

variable {e : RawOverflow} {mask : OverflowField} {slots : List ℕ}

/-- The calls of an update of an overflow entry. -/
structure OverflowArgs (L : LevelLayout) (e : RawOverflow) (slots : List ℕ) : Prop where
  sorted : slots.Pairwise (· < ·)
  inRange : ∀ i ∈ slots, i < L.overflowCapacity
  small : e.Small

theorem mem_overflowChunks {w : ℕ × ℕ} : w ∈ overflowChunks L e mask slots ↔
    (mask.incoming ∧ w ∈ slots.zip e.incoming) ∨ (mask.overflow ∧ w = (L.overflowCapacity, e.overflow)) := by
  unfold overflowChunks
  rw [List.mem_append, LevelLayout.overflowChunk_eq]
  refine or_congr ?_ ?_
  · split
    · simp [*, LevelLayout.incomingChunk]
    · simp [*]
  · split <;> simp [*]

theorem overflowChunks_sorted (hargs : OverflowArgs L e slots) :
    (overflowChunks L e mask slots).Pairwise (·.1 < ·.1) := by
  unfold overflowChunks
  rw [List.pairwise_append]
  refine ⟨?_, ?_, fun a ha b hb => ?_⟩
  · split
    · rw [List.pairwise_map]
      exact pairwise_zip hargs.sorted
    · exact .nil
  · split <;> simp
  · split at ha
    · split at hb
      · obtain ⟨x, hx, rfl⟩ := List.mem_map.mp ha
        rw [List.mem_singleton.mp hb, LevelLayout.overflowChunk_eq]
        exact hargs.inRange x.1 (List.of_mem_zip hx).1
      · cases hb
    · cases ha

theorem overflowChunks_inRange (hargs : OverflowArgs L e slots) :
    ∀ w ∈ overflowChunks L e mask slots, w.1 * chunkSize + chunkSize ≤ L.overflowLen := by
  intro w hw
  rw [LevelLayout.overflowLen_eq, ← Nat.succ_mul]
  apply Nat.mul_le_mul_right
  rcases mem_overflowChunks.mp hw with ⟨-, hw⟩ | ⟨-, rfl⟩
  · have := hargs.inRange w.1 (List.of_mem_zip hw).1
    omega
  · exact le_rfl

theorem overflowChunks_small (hargs : OverflowArgs L e slots) :
    ∀ w ∈ overflowChunks L e mask slots, w.2 < 2 ^ 48 := by
  intro w hw
  rcases mem_overflowChunks.mp hw with ⟨-, hw⟩ | ⟨-, rfl⟩
  · exact (hargs.small.incoming w.2 (List.of_mem_zip hw).2).trans (by norm_num)
  · exact hargs.small.overflow.trans (by norm_num)

/-- What an update of an overflow entry writes. -/
theorem storedOverflow_updated (hargs : OverflowArgs L e slots) {old new : List (BitVec 8)}
    (hnamed : ∀ w ∈ overflowChunks L e mask slots, readChunk new w.1 = w.2)
    (hother : ∀ k, k ∉ (overflowChunks L e mask slots).map (·.1) → readChunk new k = readChunk old k) :
    storedOverflow L new = (storedOverflow L old).merge e mask slots := by
  have hlen : (storedOverflow L old).incoming.length = L.overflowCapacity := by simp [storedOverflow]
  have hmerge : ((storedOverflow L old).merge e mask slots).incoming.length = L.overflowCapacity := by
    unfold RawOverflow.merge
    dsimp only
    split
    · rw [length_foldl_set, hlen]
    · exact hlen
  have hslot : ∀ i, i < L.overflowCapacity → some (readChunk new (LevelLayout.incomingChunk i)) =
      ((storedOverflow L old).merge e mask slots).incoming[i]? := by
    intro i hi
    have hold : (storedOverflow L old).incoming[i]? = some (readChunk old (LevelLayout.incomingChunk i)) := by
      simp [storedOverflow, hi]
    by_cases hin : mask.incoming ∧ ∃ x ∈ slots.zip e.incoming, x.1 = i
    · obtain ⟨hm, x, hx, rfl⟩ := hin
      rw [RawOverflow.merge, if_pos hm, getElem?_foldl_set (pairwise_zip hargs.sorted) x hx (by rwa [hlen])]
      exact congrArg some (hnamed x (mem_overflowChunks.mpr (.inl ⟨hm, hx⟩)))
    · have hnot : i ∉ (overflowChunks L e mask slots).map (·.1) := by
        intro hmem
        obtain ⟨w, hw, rfl⟩ := List.mem_map.mp hmem
        rcases mem_overflowChunks.mp hw with ⟨hm, hw⟩ | ⟨-, rfl⟩
        · exact hin ⟨hm, w, hw, rfl⟩
        · exact Nat.lt_irrefl _ hi
      rw [LevelLayout.incomingChunk, hother i hnot]
      rw [LevelLayout.incomingChunk] at hold
      rw [← hold, RawOverflow.merge]
      dsimp only
      split
      · rename_i hm
        rw [getElem?_foldl_set_of_notMem fun x hx h => hin ⟨hm, x, hx, h⟩]
      · rfl
  have hincoming : (storedOverflow L new).incoming = ((storedOverflow L old).merge e mask slots).incoming := by
    apply List.ext_getElem?
    intro i
    rcases Nat.lt_or_ge i L.overflowCapacity with hi | hi
    · rw [← hslot i hi]
      simp [storedOverflow, hi]
    · rw [List.getElem?_eq_none (by simpa [storedOverflow] using hi), List.getElem?_eq_none (by rwa [hmerge])]
  have hoverflow : readChunk new L.overflowChunk =
      if mask.overflow then e.overflow else readChunk old L.overflowChunk := by
    rw [LevelLayout.overflowChunk_eq]
    split
    · rename_i hm
      exact hnamed _ (mem_overflowChunks.mpr (.inr ⟨hm, rfl⟩))
    · rename_i hm
      refine hother _ fun hmem => ?_
      obtain ⟨w, hw, he⟩ := List.mem_map.mp hmem
      rcases mem_overflowChunks.mp hw with ⟨-, hw⟩ | ⟨h, -⟩
      · have := hargs.inRange w.1 (List.of_mem_zip hw).1
        omega
      · exact hm h
  exact RawOverflow.ext hincoming hoverflow

end OverflowUpdate

/-! ### Records -/

section Records

variable {d : DataPage} {p : Page} {i : ℕ}

/-- Every fetch of the record answers from the entry `stored`. -/
def Entry (L : LevelLayout) (d : DataPage) (p : Page) (i : ℕ) (stored : RawEntry) : Prop :=
  ∀ forUpdate entry mask filter slots, InRange L.maxNeighbours slots →
    fetchEntry L d p i forUpdate entry mask filter slots =
      .ok (stored.select L forUpdate entry mask filter (slots.getD (List.range L.maxNeighbours)))

/-- Every fetch of the record answers from the overflow entry `stored`. -/
def Overflow (L : LevelLayout) (d : DataPage) (p : Page) (i : ℕ) (stored : RawOverflow) : Prop :=
  ∀ forUpdate entry mask slots, InRange L.overflowCapacity slots →
    fetchOverflow L d p i forUpdate entry mask slots =
      .ok (stored.select forUpdate entry mask (slots.getD (List.range L.overflowCapacity)))

theorem entry_of_fetch {r : Fetched} (h : d.fetch L.entryLen i p = .ok r) :
    Entry L d p i (storedEntry L r.colData) := by
  intro forUpdate entry mask filter slots hslots
  rw [fetchEntry, h, ← readEntry_eq hslots]
  rfl

theorem overflow_of_fetch {r : Fetched} (h : d.fetch L.overflowLen i p = .ok r) :
    Overflow L d p i (storedOverflow L r.colData) := by
  intro forUpdate entry mask slots hslots
  rw [fetchOverflow, h, ← readOverflow_eq hslots]
  rfl

/-- A fetch hands out data of the column's size. -/
theorem length_of_fetch {n : ℕ} {r : Fetched} (h : d.fetch n i p = .ok r) : r.colData.length = n := by
  unfold DataPage.fetch at h
  dsimp only at h
  split at h
  · cases h
  · cases h
    exact Bytes.length_slice

/-- The record after an update of the chunks `ws`. -/
theorem fetch_updateChunks {n last : ℕ} {ws : List (ℕ × ℕ)} {buffer : List (BitVec 8)} {addr : String} {r : Fetched}
    (hd : d.Apart n) (hi : i < d.maxNumRecs) (hn : n = (last + 1) * chunkSize)
    (hs : ws.Pairwise (·.1 < ·.1)) (hin : ∀ w ∈ ws, w.1 * chunkSize + chunkSize ≤ n)
    (hbuf : n ≤ buffer.length) (hr : d.fetch n i p = .ok r) :
    d.fetch n i ((updateChunks i addr last ws buffer).apply d n p) =
      .ok ⟨DataPage.spliceChunks chunkSize ((writeChunks ws buffer).take r.colData.length) (ws.map (·.1)) r.colData,
        r.trxRef, r.deleteMarked⟩ := by
  have hlen := length_of_fetch hr
  rw [hlen, updateChunks, ← hn]
  refine DataPage.fetch_update hd hi (DataPage.checkUpdate_of_sorted (by decide) ?_ ?_ ?_) hr
  · rw [List.length_take, length_writeChunks fun w hw => (hin w hw).trans hbuf]
    omega
  · rw [List.pairwise_map]
    exact hs
  · intro c hc
    obtain ⟨w, hw, rfl⟩ := List.mem_map.mp hc
    exact hin w hw

theorem fetch_of_occupied {n : ℕ} (hocc : (DataPage.getRecordStatus p i).2 = false) :
    ∃ r, d.fetch n i p = .ok r := by
  unfold DataPage.fetch
  cases hs : DataPage.getRecordStatus p i with
  | mk del free =>
    rw [hs] at hocc
    dsimp only at hocc ⊢
    rw [hocc, if_neg Bool.false_ne_true]
    exact ⟨_, rfl⟩

/-- The pages of an index's two stores have their areas apart. -/
theorem apart_entry {ps : PageSize} (h2 : 2 ≤ L.M) (hM : L.M ≤ 128) (hd : DataPage.init ps L.entryLen = some d) :
    d.Apart L.entryLen :=
  apart_of_fits (by rw [LevelLayout.entryLen_eq, Nat.succ_mul]; exact Nat.le_add_left _ _)
    (LevelLayout.fits ps h2 hM).1 hd

theorem apart_overflow {ps : PageSize} (h2 : 2 ≤ L.M) (hM : L.M ≤ 128)
    (hd : DataPage.init ps L.overflowLen = some d) : d.Apart L.overflowLen :=
  apart_of_fits (by rw [LevelLayout.overflowLen_eq, Nat.succ_mul]; exact Nat.le_add_left _ _)
    (LevelLayout.fits ps h2 hM).2 hd

/-- After an insert the record is there, with the entry filled up. -/
theorem fetch_insertEntry (hM : L.M ≤ 128) (hd : d.Apart L.entryLen) {hint : ℕ} {t : BitVec 64} {e : RawEntry}
    (he : e.Small) (hop : (insertEntry L hint t e).Allowed d L.entryLen p) :
    ∃ r, d.fetch L.entryLen ((insertEntry L hint t e).slotIndex d p)
        ((insertEntry L hint t e).apply d L.entryLen p) = .ok r ∧
      storedEntry L r.colData = e.padded L ∧ r.trxRef = t ∧ r.deleteMarked = false :=
  ⟨_, DataPage.fetch_insert hd hop, storedEntry_formatEntry hM he, rfl, rfl⟩

theorem fetch_insertOverflow (hd : d.Apart L.overflowLen) {hint : ℕ} {t : BitVec 64} {e : RawOverflow}
    (he : e.Small) (hop : (insertOverflow L hint t e).Allowed d L.overflowLen p) :
    ∃ r, d.fetch L.overflowLen ((insertOverflow L hint t e).slotIndex d p)
        ((insertOverflow L hint t e).apply d L.overflowLen p) = .ok r ∧
      storedOverflow L r.colData = e.padded L ∧ r.trxRef = t ∧ r.deleteMarked = false :=
  ⟨_, DataPage.fetch_insert hd hop, storedOverflow_formatOverflow he, rfl, rfl⟩

/-- After an update the record has the named fields of the entry, and the rest
of it as it was. -/
theorem fetch_updateEntry (hM : L.M ≤ 128) (hd : d.Apart L.entryLen) (hi : i < d.maxNumRecs) (addr : String)
    {e : RawEntry} {mask : NodeField} {slots : List ℕ} {buffer : List (BitVec 8)} {r : Fetched}
    (hargs : EntryArgs L e mask slots) (hbuf : L.entryLen ≤ buffer.length) (hr : d.fetch L.entryLen i p = .ok r) :
    ∃ r', d.fetch L.entryLen i ((updateEntry L i addr e mask slots buffer).apply d L.entryLen p) = .ok r' ∧
      storedEntry L r'.colData = (storedEntry L r.colData).merge e mask slots ∧ r'.trxRef = r.trxRef ∧
      r'.deleteMarked = r.deleteMarked := by
  have hcol := length_of_fetch hr
  have hs := entryChunks_sorted hM hargs
  have hin := entryChunks_inRange hM hargs
  have hlast : L.entryLen = (L.neighbourOverflowChunk + 1) * chunkSize := by
    rw [LevelLayout.neighbourOverflowChunk_eq hM, LevelLayout.entryLen_eq]
  obtain ⟨hnamed, hother⟩ := readChunk_spliceChunks hs (hcol.symm ▸ hin) (entryChunks_small hargs)
    (show r.colData.length ≤ buffer.length by rwa [hcol])
  exact ⟨_, fetch_updateChunks hd hi hlast hs hin hbuf hr, storedEntry_updated hM hargs hnamed hother, rfl, rfl⟩

theorem fetch_updateOverflow (hd : d.Apart L.overflowLen) (hi : i < d.maxNumRecs) (addr : String)
    (mask : OverflowField) {e : RawOverflow} {slots : List ℕ} {buffer : List (BitVec 8)} {r : Fetched}
    (hargs : OverflowArgs L e slots) (hbuf : L.overflowLen ≤ buffer.length)
    (hr : d.fetch L.overflowLen i p = .ok r) :
    ∃ r', d.fetch L.overflowLen i ((updateOverflow L i addr e mask slots buffer).apply d L.overflowLen p) = .ok r' ∧
      storedOverflow L r'.colData = (storedOverflow L r.colData).merge e mask slots ∧ r'.trxRef = r.trxRef ∧
      r'.deleteMarked = r.deleteMarked := by
  have hcol := length_of_fetch hr
  have hs : (overflowChunks L e mask slots).Pairwise (·.1 < ·.1) := overflowChunks_sorted hargs
  have hin : ∀ w ∈ overflowChunks L e mask slots, w.1 * chunkSize + chunkSize ≤ L.overflowLen :=
    overflowChunks_inRange hargs
  have hlast : L.overflowLen = (L.overflowChunk + 1) * chunkSize := by
    rw [LevelLayout.overflowChunk_eq, LevelLayout.overflowLen_eq]
  obtain ⟨hnamed, hother⟩ := readChunk_spliceChunks hs (hcol.symm ▸ hin) (overflowChunks_small hargs)
    (show r.colData.length ≤ buffer.length by rwa [hcol])
  exact ⟨_, fetch_updateChunks hd hi hlast hs hin hbuf hr, storedOverflow_updated hargs hnamed hother, rfl, rfl⟩

/-- **The records of an index.** For every `M` an index can have, every level and
both kinds of record: a record that `insert` wrote is read back with its fields
and its slots, filled up; an update with any mask and any slots in order leaves
the new value in every field and slot it names and the old one in every other;
and each fetch, with any mask, filter and slots, answers from that one entry. -/
theorem records_roundtrip {ps : PageSize} {dov : DataPage} (h2 : 2 ≤ L.M) (hM : L.M ≤ 128)
    (hd : DataPage.init ps L.entryLen = some d) (hdov : DataPage.init ps L.overflowLen = some dov) :
    ((∀ p hint t e, e.Small → (insertEntry L hint t e).Allowed d L.entryLen p →
        Entry L d ((insertEntry L hint t e).apply d L.entryLen p) ((insertEntry L hint t e).slotIndex d p)
          (e.padded L)) ∧
      (∀ p i, i < d.maxNumRecs → (DataPage.getRecordStatus p i).2 = false →
        ∃ old, Entry L d p i old ∧
          ∀ addr e mask slots buffer, EntryArgs L e mask slots → L.entryLen ≤ buffer.length →
            Entry L d ((updateEntry L i addr e mask slots buffer).apply d L.entryLen p) i
              (old.merge e mask slots))) ∧
    ((∀ p hint t e, e.Small → (insertOverflow L hint t e).Allowed dov L.overflowLen p →
        Overflow L dov ((insertOverflow L hint t e).apply dov L.overflowLen p)
          ((insertOverflow L hint t e).slotIndex dov p) (e.padded L)) ∧
      (∀ p i, i < dov.maxNumRecs → (DataPage.getRecordStatus p i).2 = false →
        ∃ old, Overflow L dov p i old ∧
          ∀ addr e mask slots buffer, OverflowArgs L e slots → L.overflowLen ≤ buffer.length →
            Overflow L dov ((updateOverflow L i addr e mask slots buffer).apply dov L.overflowLen p) i
              (old.merge e mask slots))) := by
  have happart := apart_entry h2 hM hd
  have happartOv := apart_overflow h2 hM hdov
  refine ⟨⟨fun p hint t e he hop => ?_, fun p i hi hocc => ?_⟩, fun p hint t e he hop => ?_, fun p i hi hocc => ?_⟩
  · obtain ⟨r, hr, hstored, -⟩ := fetch_insertEntry hM happart he hop
    exact hstored ▸ entry_of_fetch hr
  · obtain ⟨r, hr⟩ := fetch_of_occupied (d := d) (n := L.entryLen) hocc
    refine ⟨_, entry_of_fetch hr, fun addr e mask slots buffer hargs hbuf => ?_⟩
    obtain ⟨r', hr', hstored, -⟩ := fetch_updateEntry hM happart hi addr hargs hbuf hr
    exact hstored ▸ entry_of_fetch hr'
  · obtain ⟨r, hr, hstored, -⟩ := fetch_insertOverflow happartOv he hop
    exact hstored ▸ overflow_of_fetch hr
  · obtain ⟨r, hr⟩ := fetch_of_occupied (d := dov) (n := L.overflowLen) hocc
    refine ⟨_, overflow_of_fetch hr, fun addr e mask slots buffer hargs hbuf => ?_⟩
    obtain ⟨r', hr', hstored, -⟩ := fetch_updateOverflow happartOv hi addr mask hargs hbuf hr
    exact hstored ▸ overflow_of_fetch hr'

/-- A record of level 1 with `M` of 2, on 4K pages, with one neighbour whose link
is incoming. -/
theorem records_roundtrip_level_one :
    let L : LevelLayout := ⟨1, 2⟩
    let d : DataPage := ⟨50, 20, 80, 78⟩
    let e : RawEntry := ⟨9, 5, [⟨2 ^ 46 + 7, 8⟩], 0⟩
    let q := (insertEntry L 0 7 e).apply d L.entryLen (d.format 3 Page.zero)
    fetchEntry L d q 0 true ⟨0, 0, [], 0⟩ .all .all none =
      .ok (⟨9, 5, [⟨2 ^ 46 + 7, 8⟩, ⟨0, 0⟩], 0⟩, some 1) := by
  intro L d e q
  have hallowed : (insertEntry L 0 7 e).Allowed d L.entryLen (d.format 3 Page.zero) := by
    unfold insertEntry RecordOp.Allowed
    decide
  have h := (records_roundtrip (L := L) (d := d) (by decide) (by decide)
    (show DataPage.init .k4 L.entryLen = some d by decide)
    (show DataPage.init .k4 L.overflowLen = some ⟨26, 39, 153, 97⟩ by decide)).1.1 _ 0 7 e ⟨by decide, by decide, by decide, by decide⟩ hallowed
  have hslot : (insertEntry L 0 7 e).slotIndex d (d.format 3 Page.zero) = 0 := by decide
  have hselect : (e.padded L).select L true ⟨0, 0, [], 0⟩ .all .all (List.range L.maxNeighbours) =
      (⟨9, 5, [⟨2 ^ 46 + 7, 8⟩, ⟨0, 0⟩], 0⟩, some 1) := by decide
  have hfetch := h true ⟨0, 0, [], 0⟩ .all .all none (by intro i hi; cases hi)
  rw [hslot, Option.getD_none, hselect] at hfetch
  exact hfetch

end Records

end Serial
end Hnsw
end VsqlVector
