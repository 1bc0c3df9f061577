/-
# The records of a data page

A data page keeps two status bits a record in its bitmap, four records to a
byte, and behind the bitmap the records: a transaction reference and the
column data. The setters of `src/storage/data_page.cc` read a bitmap byte,
change one or two bits and write it back, and the number of free records is a
field of its own.

Where the bitmap and the records do not overlap (`DataPage.Apart`), a slot is a
state machine of its own: free, active or delete marked, with the transaction
that stamped it and its data (`Slot`). `view` reads the state of a slot off the
page; every operation moves the slot it is about as the machine says and
leaves the others alone (`apply_view`), so a slot is known by the operations on
it (`records_independent`).

Key definitions: `ColumnStore.fetch`, `ColumnStore.update`, `Slot`,
`DataPage.view`, `RecordOp`.
Key theorems: `DataPage.status_updateStatus`, `DataPage.apply_view`,
`DataPage.records_independent`.
-/
import Mathlib
import VsqlVector.Lib.Bytes
import VsqlVector.Storage.FreeList

namespace VsqlVector

/-! ### Reading and updating a record -/

/-- What `ColumnStore::fetch` hands out of a record. -/
structure Fetched where
  colData : List (BitVec 8)
  trxRef : BitVec 64
  deleteMarked : Bool
  deriving DecidableEq, Repr

namespace DataPage

/-- `ColumnStore::fetch` once the page is loaded. -/
def fetch (d : DataPage) (columnSize slotIndex : ℕ) (p : Page) : Except StorageError Fetched :=
  let (deleteMarked, isFree) := getRecordStatus p slotIndex
  if isFree then .error ⟨"fetch: slot " ++ toString slotIndex ++ " is free", true⟩
  else
    let recOffset := d.getRecordOffset slotIndex
    .ok ⟨Bytes.slice p.bytes (recOffset + trxRefSize) columnSize, p.readInteger8 recOffset, deleteMarked⟩

/-- `ColumnStore::mark_delete` once the page is loaded. -/
def markDelete (d : DataPage) (trxRef : BitVec 64) (slotIndex : ℕ) (deleteMark : Bool) (p : Page) :
    Page :=
  let recOffset := d.getRecordOffset slotIndex
  let oldTrxRef := p.readInteger8 recOffset
  let p := if deleteMark then setRecordDelete p slotIndex else setRecordUndelete p slotIndex
  if oldTrxRef = trxRef then p else p.writeInteger8 recOffset trxRef

/-- Step 2 of `ColumnStore::update`: the chunk indexes are strictly increasing
and within the record. `prev` is the index before the first. -/
def checkChunks (chunkSize length : ℕ) : Option ℕ → List ℕ → Except StorageError Unit
  | _, [] => .ok ()
  | prev, c :: cs =>
    match prev.filter (c ≤ ·) with
    | some q =>
      .error ⟨"update: chunk indexes not in strictly increasing order: " ++ toString c ++ " follows " ++
        toString q, true⟩
    | none =>
      if c * chunkSize + chunkSize > length then
        .error ⟨"update: chunk " ++ toString c ++ " out of bounds: end=" ++
          toString (c * chunkSize + chunkSize) ++ ", length=" ++ toString length, true⟩
      else checkChunks chunkSize length (some c) cs

/-- The runs of consecutive indexes, each with its first index and its length:
step 7 of `ColumnStore::update` writes a run with one call. -/
def chunkRuns : List ℕ → List (ℕ × ℕ)
  | [] => []
  | c :: cs =>
    match chunkRuns cs with
    | [] => [(c, 1)]
    | (s, n) :: runs => if s = c + 1 then (c, n + 1) :: runs else (c, 1) :: (s, n) :: runs

/-- Step 7 of `ColumnStore::update`. -/
def writeRuns (colOffset chunkSize : ℕ) (colData : List (BitVec 8)) (runs : List (ℕ × ℕ)) (p : Page) :
    Page :=
  runs.foldl (fun p run =>
    p.writeString (colOffset + run.1 * chunkSize)
      ((colData.drop (run.1 * chunkSize)).take (run.2 * chunkSize))) p

/-- Steps 1 and 2 of `ColumnStore::update`, where there is a chunk to write. `addr`
is the data pointer as it is printed, and the data `none` where it is null. -/
def checkUpdate (columnSize : ℕ) (addr : String) (colData : Option (List (BitVec 8)))
    (chunkIds : List ℕ) (chunkSize : ℕ) : Except StorageError (List (BitVec 8)) :=
  let length := (colData.map List.length).getD 0
  match colData.filter fun data => chunkSize ≠ 0 ∧ data.length = columnSize with
  | none =>
    .error ⟨"update: bad arguments: data=" ++ addr ++ ", chunk_size=" ++ toString chunkSize ++
      ", length=" ++ toString length ++ ", column_size=" ++ toString columnSize, true⟩
  | some data => (checkChunks chunkSize length none chunkIds).map fun _ => data

/-- `ColumnStore::update` once the arguments are checked and the page loaded. -/
def update (d : DataPage) (slotIndex : ℕ) (colData : List (BitVec 8)) (chunkIds : List ℕ)
    (chunkSize : ℕ) (p : Page) : Except StorageError Page :=
  if (getRecordStatus p slotIndex).2 then
    .error ⟨"update: slot " ++ toString slotIndex ++ " is free", true⟩
  else
    .ok (writeRuns (d.getRecordOffset slotIndex + trxRefSize) chunkSize colData (chunkRuns chunkIds) p)

end DataPage

namespace ColumnStore

open StoreProg

/-- An outcome computed from the loaded page. -/
def ofExcept {α : Type} : Except StorageError α → StoreProg α
  | .ok a => pure a
  | .error e => Prog.fail e

/-- `ColumnStore::fetch`. -/
def fetch (cs : ColumnStore) (colRef : ℕ) : StoreProg Fetched := do
  let p ← load ⟨"fetch: failed to load data page", false⟩ (DataPage.decodeColumnRef colRef).1
  ofExcept (cs.data.fetch cs.root.columnSize (DataPage.decodeColumnRef colRef).2 p)

/-- `ColumnStore::update`. -/
def update (cs : ColumnStore) (colRef : ℕ) (addr : String) (colData : Option (List (BitVec 8)))
    (chunkIds : List ℕ) (chunkSize : ℕ) : StoreProg Unit := do
  match chunkIds with
  | [] => pure ()
  | _ =>
    let data ← ofExcept (DataPage.checkUpdate cs.root.columnSize addr colData chunkIds chunkSize)
    let r := (DataPage.decodeColumnRef colRef).1
    let p ← load ⟨"update: failed to load data page", false⟩ r
    let p' ← ofExcept (cs.data.update (DataPage.decodeColumnRef colRef).2 data chunkIds chunkSize p)
    modifyPage r fun _ => p'

end ColumnStore

/-! ### Integers on a page -/

namespace Page

theorem writeString_bytes (p : Page) (off : ℕ) (data : List (BitVec 8)) :
    (p.writeString off data).bytes = Bytes.store p.bytes off data := rfl

theorem writeInteger8_eq (p : Page) (off : ℕ) (v : BitVec 64) :
    p.writeInteger8 off v = p.writeString off (Bytes.encode 8 v.toNat) := by
  have : ((List.range 8).map fun i => v.extractLsb' (8 * (7 - i)) 8) = Bytes.encode 8 v.toNat := by
    simp [Bytes.encode, List.range, List.range.loop, BitVec.extractLsb', Nat.shiftRight_eq_div_pow]
  rw [writeInteger8, this]

/-- One turn of the loop that assembles an integer. -/
theorem toNat_shiftLeft_or {acc : BitVec 64} {b : BitVec 8} (h : acc.toNat < 2 ^ 56) :
    (acc <<< 8 ||| b.setWidth 64).toNat = acc.toNat * 256 + b.toNat := by
  have hb : b.toNat < 2 ^ 8 := b.isLt
  rw [BitVec.toNat_or, BitVec.toNat_shiftLeft, BitVec.toNat_setWidth,
    Nat.mod_eq_of_lt (show b.toNat < 2 ^ 64 by omega),
    Nat.mod_eq_of_lt (show acc.toNat <<< 8 < 2 ^ 64 by rw [Nat.shiftLeft_eq]; omega),
    ← Nat.shiftLeft_add_eq_or_of_lt hb, Nat.shiftLeft_eq]

theorem foldl_toNat : ∀ (l : List (BitVec 8)) (acc : BitVec 64), (acc.toNat + 1) * 256 ^ l.length ≤ 2 ^ 64 →
    (l.foldl (fun (acc : BitVec 64) b => acc <<< 8 ||| b.setWidth 64) acc).toNat =
      l.foldl (fun acc b => acc * 256 + b.toNat) acc.toNat
  | [], _, _ => rfl
  | b :: l, acc, h => by
    have hb : b.toNat < 256 := b.isLt
    have hle : acc.toNat * 256 + b.toNat + 1 ≤ (acc.toNat + 1) * 256 := by omega
    have hpow : 1 ≤ 256 ^ l.length := Nat.one_le_pow _ _ (by norm_num)
    rw [List.length_cons, pow_succ, ← Nat.mul_assoc] at h
    have hacc : acc.toNat < 2 ^ 56 := by
      have : (acc.toNat + 1) * 1 ≤ (acc.toNat + 1) * 256 ^ l.length := Nat.mul_le_mul_left _ hpow
      omega
    have hstep := toNat_shiftLeft_or (b := b) hacc
    rw [List.foldl_cons, List.foldl_cons, foldl_toNat l, hstep]
    rw [hstep]
    calc (acc.toNat * 256 + b.toNat + 1) * 256 ^ l.length
        ≤ (acc.toNat + 1) * 256 * 256 ^ l.length := Nat.mul_le_mul_right (256 ^ l.length) hle
      _ = (acc.toNat + 1) * 256 ^ l.length * 256 := by ring
      _ ≤ 2 ^ 64 := h

theorem readInteger8_toNat (p : Page) (off : ℕ) :
    (p.readInteger8 off).toNat = Bytes.readNat p.bytes off 8 := by
  have h := foldl_toNat (Bytes.slice p.bytes off 8) 0 (by simp)
  rw [Bytes.slice, List.foldl_map] at h
  rw [readInteger8, h]
  rfl

/-- What was written last is read back. -/
theorem readInteger8_of_at {p : Page} {off : ℕ} {v : BitVec 64}
    (h : Bytes.At p.bytes off (Bytes.encode 8 v.toNat)) : p.readInteger8 off = v := by
  apply BitVec.eq_of_toNat_eq
  rw [readInteger8_toNat, Bytes.readNat_of_at h]
  exact Nat.mod_eq_of_lt v.isLt

theorem readInteger8_congr {p q : Page} {off : ℕ}
    (h : Bytes.slice p.bytes off 8 = Bytes.slice q.bytes off 8) :
    p.readInteger8 off = q.readInteger8 off := by
  apply BitVec.eq_of_toNat_eq
  rw [readInteger8_toNat, readInteger8_toNat, Bytes.readNat, Bytes.readNat, h]

end Page

/-! ### The status bits -/

namespace DataPage

/-- A bit of a byte after `f` changed the two bits from `bit` on. -/
structure Sets (f : ℕ → BitVec 8 → BitVec 8) (del alloc : Bool → Bool) : Prop where
  delete : ∀ bit b, bit < 7 → (f bit b).getLsbD (bit + deleteMarkBit) = del (b.getLsbD (bit + deleteMarkBit))
  free : ∀ bit b, bit < 7 → (f bit b).getLsbD (bit + freeBit) = alloc (b.getLsbD (bit + freeBit))
  other : ∀ bit b m, m < 8 → m ≠ bit → m ≠ bit + 1 → (f bit b).getLsbD m = b.getLsbD m

theorem getLsbD_one_shiftLeft {k m : ℕ} (hm : m < 8) : (1#8 <<< k).getLsbD m = decide (m = k) := by
  rw [BitVec.getLsbD_shiftLeft, BitVec.getLsbD_one]
  simp only [hm, decide_true, Bool.true_and]
  rcases Nat.lt_trichotomy m k with h | h | h
  · simp [h, Nat.ne_of_lt h]
  · simp [h]
  · have h1 : ¬ m < k := by omega
    have h2 : ¬ m - k = 0 := by omega
    simp [h1, h2, Nat.ne_of_gt h]

theorem sets_delete : Sets (fun bit b => b ||| (1#8 <<< (bit + deleteMarkBit))) (fun _ => true) id where
  delete bit b hb := by
    rw [BitVec.getLsbD_or, getLsbD_one_shiftLeft (by unfold deleteMarkBit; omega)]
    simp
  free bit b hb := by
    rw [BitVec.getLsbD_or, getLsbD_one_shiftLeft (by unfold freeBit; omega)]
    simp [freeBit, deleteMarkBit]
  other bit b m hm h0 h1 := by
    rw [BitVec.getLsbD_or, getLsbD_one_shiftLeft hm]
    simp [deleteMarkBit, h0]

theorem sets_undelete : Sets (fun bit b => b &&& ~~~(1#8 <<< (bit + deleteMarkBit))) (fun _ => false) id where
  delete bit b hb := by
    have hm : bit + deleteMarkBit < 8 := by unfold deleteMarkBit; omega
    rw [BitVec.getLsbD_and, BitVec.getLsbD_not, getLsbD_one_shiftLeft hm]
    simp
  free bit b hb := by
    have hm : bit + freeBit < 8 := by unfold freeBit; omega
    rw [BitVec.getLsbD_and, BitVec.getLsbD_not, getLsbD_one_shiftLeft hm]
    simp [freeBit, deleteMarkBit, show bit + 1 < 8 by omega]
  other bit b m hm h0 h1 := by
    rw [BitVec.getLsbD_and, BitVec.getLsbD_not, getLsbD_one_shiftLeft hm]
    simp [deleteMarkBit, h0, hm]

theorem sets_free : Sets (fun bit b => b &&& ~~~(1#8 <<< (bit + freeBit)) &&&
    ~~~(1#8 <<< (bit + deleteMarkBit))) (fun _ => false) (fun _ => false) where
  delete bit b hb := by
    have hm : bit + deleteMarkBit < 8 := by unfold deleteMarkBit; omega
    simp only [BitVec.getLsbD_and, BitVec.getLsbD_not, getLsbD_one_shiftLeft hm]
    simp
  free bit b hb := by
    have hm : bit + freeBit < 8 := by unfold freeBit; omega
    simp only [BitVec.getLsbD_and, BitVec.getLsbD_not, getLsbD_one_shiftLeft hm]
    simp
  other bit b m hm h0 h1 := by
    simp only [BitVec.getLsbD_and, BitVec.getLsbD_not, getLsbD_one_shiftLeft hm]
    simp [deleteMarkBit, freeBit, h0, h1, hm]

theorem sets_allocated : Sets (fun bit b => (b ||| (1#8 <<< (bit + freeBit))) &&&
    ~~~(1#8 <<< (bit + deleteMarkBit))) (fun _ => false) (fun _ => true) where
  delete bit b hb := by
    have hm : bit + deleteMarkBit < 8 := by unfold deleteMarkBit; omega
    simp only [BitVec.getLsbD_and, BitVec.getLsbD_or, BitVec.getLsbD_not, getLsbD_one_shiftLeft hm]
    simp
  free bit b hb := by
    have hm : bit + freeBit < 8 := by unfold freeBit; omega
    simp only [BitVec.getLsbD_and, BitVec.getLsbD_or, BitVec.getLsbD_not, getLsbD_one_shiftLeft hm]
    simp [freeBit, deleteMarkBit, show bit + 1 < 8 by omega]
  other bit b m hm h0 h1 := by
    simp only [BitVec.getLsbD_and, BitVec.getLsbD_or, BitVec.getLsbD_not, getLsbD_one_shiftLeft hm]
    simp [deleteMarkBit, freeBit, h0, h1, hm]

/-- **One slot's bits.** A setter changes the status of its own slot and, though
it writes back the byte of four, of no other. -/
theorem status_updateStatus {f : ℕ → BitVec 8 → BitVec 8} {del alloc : Bool → Bool} (hf : Sets f del alloc)
    (p : Page) (i j : ℕ) :
    getRecordStatus (updateStatus f p i) j =
      if j = i then (del (getRecordStatus p i).1, !alloc (!(getRecordStatus p i).2))
      else getRecordStatus p j := by
  have hbit : i * bitsPerRecord % 8 < 7 := by unfold bitsPerRecord; omega
  simp only [getRecordStatus, updateStatus, bitmapPos, Page.readInteger1, Page.writeInteger1]
  by_cases hj : j = i
  · subst hj
    rw [if_pos rfl, Function.update_self, hf.delete _ _ hbit, hf.free _ _ hbit, Bool.not_not]
  · rw [if_neg hj]
    by_cases hb : freeBitmapOff + j * bitsPerRecord / 8 = freeBitmapOff + i * bitsPerRecord / 8
    · -- the two slots share a byte, so their bits differ
      rw [hb, Function.update_self]
      unfold bitsPerRecord at hb hbit ⊢
      unfold deleteMarkBit freeBit
      rw [hf.other _ _ _ (by omega) (by omega) (by omega),
        hf.other _ _ _ (by omega) (by omega) (by omega)]
    · rw [Function.update_of_ne hb]

theorem status_setRecordDelete (p : Page) (i : ℕ) :
    getRecordStatus (setRecordDelete p i) i = (true, (getRecordStatus p i).2) := by
  rw [setRecordDelete, status_updateStatus sets_delete, if_pos rfl, id, Bool.not_not]

theorem status_setRecordUndelete (p : Page) (i : ℕ) :
    getRecordStatus (setRecordUndelete p i) i = (false, (getRecordStatus p i).2) := by
  rw [setRecordUndelete, status_updateStatus sets_undelete, if_pos rfl, id, Bool.not_not]

theorem status_setRecordFree (p : Page) (i : ℕ) : getRecordStatus (setRecordFree p i) i = (false, true) := by
  rw [setRecordFree, status_updateStatus sets_free, if_pos rfl, Bool.not_false]

theorem status_setRecordAllocated (p : Page) (i : ℕ) :
    getRecordStatus (setRecordAllocated p i) i = (false, false) := by
  rw [setRecordAllocated, status_updateStatus sets_allocated, if_pos rfl, Bool.not_true]

theorem updateStatus_bytes (f : ℕ → BitVec 8 → BitVec 8) (p : Page) (i : ℕ) :
    (updateStatus f p i).bytes = Function.update p.bytes (bitmapPos i).1
      (f (bitmapPos i).2 (p.readInteger1 (bitmapPos i).1)) := rfl

/-! ### A page whose areas are apart -/

/-- The bitmap ends before the records, which have the size of the column and
end where page offsets do. -/
structure Apart (d : DataPage) (colLen : ℕ) : Prop where
  recSize : d.recSize = trxRefSize + colLen
  bitmap : freeBitmapOff + bitsToBytesCeil (bitsPerRecord * d.maxNumRecs) ≤ d.firstRecOffset
  area : d.firstRecOffset + d.maxNumRecs * d.recSize ≤ 2 ^ 16

/-- The bytes of a record. -/
def recordBytes (d : DataPage) (p : Page) (i : ℕ) : List (BitVec 8) :=
  Bytes.slice p.bytes (d.getRecordOffset i) d.recSize

section Apart

variable {d : DataPage} {colLen : ℕ} {p : Page} {i j : ℕ}

theorem Apart.bitmapPos_lt (hd : d.Apart colLen) (hi : i < d.maxNumRecs) :
    (bitmapPos i).1 < d.firstRecOffset := by
  have := hd.bitmap
  simp only [bitmapPos, bitsToBytesCeil, bitsPerRecord] at this ⊢
  omega

theorem le_getRecordOffset : d.firstRecOffset ≤ d.getRecordOffset i := Nat.le_add_right _ _

/-- Two records do not overlap. -/
theorem getRecordOffset_disjoint (h : i ≠ j) :
    d.getRecordOffset j + d.recSize ≤ d.getRecordOffset i ∨
      d.getRecordOffset i + d.recSize ≤ d.getRecordOffset j := by
  unfold getRecordOffset
  rcases Nat.lt_or_gt_of_ne h with hlt | hlt
  · right
    have : (i + 1) * d.recSize ≤ j * d.recSize := Nat.mul_le_mul_right _ hlt
    rw [Nat.add_mul] at this
    omega
  · left
    have : (j + 1) * d.recSize ≤ i * d.recSize := Nat.mul_le_mul_right _ hlt
    rw [Nat.add_mul] at this
    omega

/-- A write to the records leaves every status as it is. -/
theorem status_writeString (hd : d.Apart colLen) (hi : i < d.maxNumRecs) {off : ℕ}
    (hoff : d.firstRecOffset ≤ off) (data : List (BitVec 8)) :
    getRecordStatus (p.writeString off data) i = getRecordStatus p i := by
  have hlt : (bitmapPos i).1 < off := (hd.bitmapPos_lt hi).trans_le hoff
  have hb : (p.writeString off data).bytes (bitmapPos i).1 = p.bytes (bitmapPos i).1 :=
    Bytes.store_of_lt hlt
  simp only [getRecordStatus, Page.readInteger1, hb]

/-- A setter leaves the bytes behind the bitmap as they are. -/
theorem slice_updateStatus (hd : d.Apart colLen) (hi : i < d.maxNumRecs) {f : ℕ → BitVec 8 → BitVec 8}
    {o n : ℕ} (ho : d.firstRecOffset ≤ o) :
    Bytes.slice (updateStatus f p i).bytes o n = Bytes.slice p.bytes o n := by
  apply Bytes.slice_congr
  intro k _
  have := hd.bitmapPos_lt hi
  rw [updateStatus_bytes, Function.update_of_ne (by omega)]

end Apart

/-! ### The machine of a slot -/

/-- The data with the chunks of `new` that `chunkIds` names. -/
def spliceChunks (chunkSize : ℕ) (new : List (BitVec 8)) (chunkIds : List ℕ) (old : List (BitVec 8)) :
    List (BitVec 8) :=
  chunkIds.foldl (fun l c => Bytes.splice l (c * chunkSize) (Bytes.chunk chunkSize new c)) old

end DataPage

/-- What a slot holds: nothing, or a record with the transaction that stamped
it last. -/
inductive Slot where
  | free
  | active (trxRef : BitVec 64) (data : List (BitVec 8))
  | deleteMarked (trxRef : BitVec 64) (data : List (BitVec 8))
  deriving DecidableEq, Repr

/-- What can happen to a slot. -/
inductive Slot.Event where
  | insert (trxRef : BitVec 64) (data : List (BitVec 8))
  | markDelete (trxRef : BitVec 64) (deleteMark : Bool)
  | purge (trxRef : BitVec 64)
  | update (colData : List (BitVec 8)) (chunkIds : List ℕ) (chunkSize : ℕ)

namespace Slot

/-- The machine of a slot: a record is inserted active, is delete marked and
unmarked, and goes when the transaction that stamped it purges it. -/
def step : Slot → Event → Slot
  | _, .insert t data => active t data
  | free, _ => free
  | active _ data, .markDelete t mark => if mark then deleteMarked t data else active t data
  | deleteMarked _ data, .markDelete t mark => if mark then deleteMarked t data else active t data
  | active t data, .purge t' => if t = t' then free else active t data
  | deleteMarked t data, .purge t' => if t = t' then free else deleteMarked t data
  | active t data, .update new ids size => active t (DataPage.spliceChunks size new ids data)
  | deleteMarked t data, .update new ids size => deleteMarked t (DataPage.spliceChunks size new ids data)

/-- The transaction an occupied slot is stamped with. -/
def stamp : Slot → Option (BitVec 64)
  | free => none
  | active t _ => some t
  | deleteMarked t _ => some t

/-- What a fetch of slot `i` answers. -/
def fetched (i : ℕ) : Slot → Except StorageError Fetched
  | free => .error ⟨"fetch: slot " ++ toString i ++ " is free", true⟩
  | active t data => .ok ⟨data, t, false⟩
  | deleteMarked t data => .ok ⟨data, t, true⟩

end Slot

/-- The operations on the records of a page. -/
inductive RecordOp where
  | insert (hintIndex : ℕ) (trxRef : BitVec 64) (colData : List (BitVec 8))
  | markDelete (slotIndex : ℕ) (trxRef : BitVec 64) (deleteMark : Bool)
  | purge (slotIndex : ℕ) (trxRef : BitVec 64)
  | update (slotIndex : ℕ) (addr : String) (colData : Option (List (BitVec 8))) (chunkIds : List ℕ)
      (chunkSize : ℕ)

namespace RecordOp

/-- The slot an operation is about. An insert takes the one `find_free_slot`
finds, or slot 0. -/
def slotIndex (d : DataPage) (p : Page) : RecordOp → ℕ
  | insert hint _ _ => (DataPage.findFreeSlot d p hint).getD 0
  | markDelete i _ _ => i
  | purge i _ => i
  | update i _ _ _ _ => i

/-- The page after an operation. One that fails leaves it as it is. -/
def apply (d : DataPage) (columnSize : ℕ) (p : Page) : RecordOp → Page
  | op@(insert _ trxRef colData) => d.insertAt trxRef colData (op.slotIndex d p) p
  | markDelete i trxRef deleteMark => d.markDelete trxRef i deleteMark p
  | purge i trxRef => ((d.purge i trxRef p).map (·.1)).getD p
  | update i addr colData chunkIds chunkSize =>
    if chunkIds = [] then p
    else
      match DataPage.checkUpdate columnSize addr colData chunkIds chunkSize with
      | .error _ => p
      | .ok data =>
        match d.update i data chunkIds chunkSize p with
        | .error _ => p
        | .ok p' => p'

/-- The operations on slots below the capacity, with an insert into a free slot
and a delete mark on an occupied one. -/
def Allowed (d : DataPage) (columnSize : ℕ) (p : Page) (op : RecordOp) : Prop :=
  op.slotIndex d p < d.maxNumRecs ∧
  match op with
  | insert _ _ colData =>
    (DataPage.getRecordStatus p (op.slotIndex d p)).2 = true ∧ colData.length = columnSize
  | markDelete i _ _ => (DataPage.getRecordStatus p i).2 = false
  | _ => True

/-- What an operation is to the slot it is about. An update whose arguments are
refused writes no chunk. -/
def event (columnSize : ℕ) : RecordOp → Slot.Event
  | insert _ trxRef colData => .insert trxRef colData
  | markDelete _ trxRef deleteMark => .markDelete trxRef deleteMark
  | purge _ trxRef => .purge trxRef
  | update _ addr colData chunkIds chunkSize =>
    match DataPage.checkUpdate columnSize addr colData chunkIds chunkSize with
    | .error _ => .update [] [] chunkSize
    | .ok data => .update data chunkIds chunkSize

end RecordOp

namespace DataPage

/-- The state of a slot, read off the page. -/
def view (d : DataPage) (columnSize : ℕ) (p : Page) (i : ℕ) : Slot :=
  match d.fetch columnSize i p with
  | .error _ => .free
  | .ok r => if r.deleteMarked then .deleteMarked r.trxRef r.colData else .active r.trxRef r.colData

/-- The slots whose free bit is clear. -/
def freeSlots (d : DataPage) (p : Page) : Finset ℕ :=
  (Finset.range d.maxNumRecs).filter fun i => (getRecordStatus p i).2

/-! ### What an operation does to the slots -/

section Effects

variable {d : DataPage} {n : ℕ} {p q r : Page} {i j : ℕ}

theorem view_eq (d : DataPage) (n : ℕ) (p : Page) (i : ℕ) :
    d.view n p i =
      if (getRecordStatus p i).2 then .free
      else if (getRecordStatus p i).1 then
        .deleteMarked (p.readInteger8 (d.getRecordOffset i))
          (Bytes.slice p.bytes (d.getRecordOffset i + trxRefSize) n)
      else
        .active (p.readInteger8 (d.getRecordOffset i))
          (Bytes.slice p.bytes (d.getRecordOffset i + trxRefSize) n) := by
  unfold view fetch
  rcases hs : getRecordStatus p i with ⟨del, free⟩
  cases free <;> simp

theorem view_of_occupied {del : Bool} {t : BitVec 64} {data : List (BitVec 8)}
    (hs : getRecordStatus p i = (del, false)) (ht : p.readInteger8 (d.getRecordOffset i) = t)
    (hdata : Bytes.slice p.bytes (d.getRecordOffset i + trxRefSize) n = data) :
    d.view n p i = if del then .deleteMarked t data else .active t data := by
  rw [view_eq, hs, ht, hdata]
  simp

/-- The slot `j` is on `q` as it is on `p`. -/
structure SameSlot (d : DataPage) (p q : Page) (j : ℕ) : Prop where
  status : getRecordStatus q j = getRecordStatus p j
  bytes : d.recordBytes q j = d.recordBytes p j

theorem SameSlot.trans (h1 : SameSlot d p q j) (h2 : SameSlot d q r j) : SameSlot d p r j :=
  ⟨h2.status.trans h1.status, h2.bytes.trans h1.bytes⟩

theorem SameSlot.refl : SameSlot d p p j := ⟨rfl, rfl⟩

theorem SameSlot.view (hd : d.Apart n) (h : SameSlot d p q j) : d.view n q j = d.view n p j := by
  have hb := h.bytes
  unfold recordBytes at hb
  rw [hd.recSize, Bytes.slice_add, Bytes.slice_add] at hb
  obtain ⟨htrx, hdata⟩ := List.append_inj hb (by simp)
  rw [view_eq, view_eq, h.status, Page.readInteger8_congr htrx, hdata]

/-- A write within one record leaves the other slots. -/
theorem sameSlot_writeString (hd : d.Apart n) (hj : j < d.maxNumRecs) (hij : i ≠ j) {o : ℕ}
    {data : List (BitVec 8)} (h1 : d.getRecordOffset i ≤ o)
    (h2 : o + data.length ≤ d.getRecordOffset i + d.recSize) :
    SameSlot d p (p.writeString o data) j where
  status := status_writeString hd hj (le_getRecordOffset.trans h1) data
  bytes := by
    have := getRecordOffset_disjoint (d := d) hij
    exact Bytes.slice_store_of_disjoint (by omega)

theorem sameSlot_writeInteger8 (hd : d.Apart n) (hj : j < d.maxNumRecs) (hij : i ≠ j) {v : BitVec 64} :
    SameSlot d p (p.writeInteger8 (d.getRecordOffset i) v) j := by
  rw [Page.writeInteger8_eq]
  refine sameSlot_writeString hd hj hij le_rfl ?_
  rw [Bytes.length_encode, hd.recSize]
  unfold trxRefSize
  omega

theorem sameSlot_updateStatus {f : ℕ → BitVec 8 → BitVec 8} {del alloc : Bool → Bool} (hf : Sets f del alloc)
    (hd : d.Apart n) (hi : i < d.maxNumRecs) (hij : i ≠ j) : SameSlot d p (updateStatus f p i) j where
  status := by rw [status_updateStatus hf, if_neg (Ne.symm hij)]
  bytes := slice_updateStatus hd hi le_getRecordOffset

/-! #### Insert -/

theorem sameSlot_numFreeRecs (p : Page) (m : ℕ) : SameSlot d p { p with numFreeRecs := m } j := ⟨rfl, rfl⟩

theorem insertAt_other (hd : d.Apart n) (hi : i < d.maxNumRecs) (hj : j < d.maxNumRecs) (hij : i ≠ j)
    {t : BitVec 64} {data : List (BitVec 8)} (hlen : data.length = n) :
    SameSlot d p (d.insertAt t data i p) j := by
  refine (sameSlot_writeInteger8 hd hj hij).trans ((sameSlot_writeString hd hj hij ?_ ?_).trans
    ((sameSlot_updateStatus sets_allocated hd hi hij).trans (sameSlot_numFreeRecs _ _)))
  · exact Nat.le_add_right _ _
  · rw [hd.recSize]
    omega

theorem insertAt_status (t : BitVec 64) (data : List (BitVec 8)) :
    getRecordStatus (d.insertAt t data i p) i = (false, false) := by
  exact status_setRecordAllocated _ i

theorem insertAt_view (hd : d.Apart n) (hi : i < d.maxNumRecs) {t : BitVec 64} {data : List (BitVec 8)}
    (hlen : data.length = n) : d.view n (d.insertAt t data i p) i = .active t data := by
  have hkeep : ∀ o m, d.firstRecOffset ≤ o → Bytes.slice (d.insertAt t data i p).bytes o m =
      Bytes.slice ((p.writeInteger8 (d.getRecordOffset i) t).writeString
        (d.getRecordOffset i + trxRefSize) data).bytes o m := by
    intro o m ho
    show Bytes.slice (setRecordAllocated _ i).bytes o m = _
    exact slice_updateStatus hd hi ho
  have hdata : Bytes.slice (d.insertAt t data i p).bytes (d.getRecordOffset i + trxRefSize) n = data := by
    rw [hkeep _ _ (le_getRecordOffset.trans (Nat.le_add_right _ _)), ← hlen]
    exact Bytes.slice_store_self
  have htrx : (d.insertAt t data i p).readInteger8 (d.getRecordOffset i) = t := by
    rw [Page.readInteger8_congr (hkeep _ _ le_getRecordOffset)]
    apply Page.readInteger8_of_at
    rw [Page.writeInteger8_eq, Page.writeString_bytes, Bytes.at_store_of_disjoint]
    · exact Bytes.at_store_self
    · left
      rw [Bytes.length_encode]
      rfl
  rw [view_of_occupied (insertAt_status t data) htrx hdata]
  rfl

/-! #### Delete mark -/

/-- The page with the mark set or cleared, before the stamp. -/
def setMark (p : Page) (i : ℕ) (mark : Bool) : Page :=
  if mark then setRecordDelete p i else setRecordUndelete p i

theorem setMark_status (p : Page) (i : ℕ) (mark : Bool) :
    getRecordStatus (setMark p i mark) i = (mark, (getRecordStatus p i).2) := by
  cases mark
  · exact status_setRecordUndelete p i
  · exact status_setRecordDelete p i

theorem sameSlot_setMark (hd : d.Apart n) (hi : i < d.maxNumRecs) (hij : i ≠ j) (mark : Bool) :
    SameSlot d p (setMark p i mark) j := by
  cases mark
  · exact sameSlot_updateStatus sets_undelete hd hi hij
  · exact sameSlot_updateStatus sets_delete hd hi hij

theorem slice_setMark (hd : d.Apart n) (hi : i < d.maxNumRecs) (mark : Bool) {o m : ℕ}
    (ho : d.firstRecOffset ≤ o) : Bytes.slice (setMark p i mark).bytes o m = Bytes.slice p.bytes o m := by
  cases mark
  · show Bytes.slice (setRecordUndelete p i).bytes o m = _
    exact slice_updateStatus hd hi ho
  · show Bytes.slice (setRecordDelete p i).bytes o m = _
    exact slice_updateStatus hd hi ho

/-- The stamp is written where it is another transaction's. -/
theorem markDelete_eq (d : DataPage) (t : BitVec 64) (i : ℕ) (mark : Bool) (p : Page) :
    d.markDelete t i mark p =
      if p.readInteger8 (d.getRecordOffset i) = t then setMark p i mark
      else (setMark p i mark).writeInteger8 (d.getRecordOffset i) t := rfl

theorem markDelete_other (hd : d.Apart n) (hi : i < d.maxNumRecs) (hj : j < d.maxNumRecs) (hij : i ≠ j)
    {t : BitVec 64} {mark : Bool} : SameSlot d p (d.markDelete t i mark p) j := by
  rw [markDelete_eq]
  split
  · exact sameSlot_setMark hd hi hij mark
  · exact (sameSlot_setMark hd hi hij mark).trans (sameSlot_writeInteger8 hd hj hij)

theorem markDelete_status (hd : d.Apart n) (hi : i < d.maxNumRecs) (t : BitVec 64) (mark : Bool) :
    getRecordStatus (d.markDelete t i mark p) i = (mark, (getRecordStatus p i).2) := by
  rw [markDelete_eq]
  split
  · exact setMark_status p i mark
  · rw [Page.writeInteger8_eq, status_writeString hd hi le_getRecordOffset, setMark_status]

theorem markDelete_view (hd : d.Apart n) (hi : i < d.maxNumRecs) (hocc : (getRecordStatus p i).2 = false)
    (t : BitVec 64) (mark : Bool) :
    d.view n (d.markDelete t i mark p) i = (d.view n p i).step (.markDelete t mark) := by
  have hs := markDelete_status (p := p) hd hi t mark
  have htrx : (d.markDelete t i mark p).readInteger8 (d.getRecordOffset i) = t := by
    rw [markDelete_eq]
    split
    · rename_i hold
      -- the stamp is the transaction already
      rw [Page.readInteger8_congr (slice_setMark hd hi mark le_getRecordOffset), hold]
    · rw [Page.writeInteger8_eq]
      exact Page.readInteger8_of_at Bytes.at_store_self
  have hdata : Bytes.slice (d.markDelete t i mark p).bytes (d.getRecordOffset i + trxRefSize) n =
      Bytes.slice p.bytes (d.getRecordOffset i + trxRefSize) n := by
    have hkeep := slice_setMark (p := p) (m := n) hd hi mark
      (le_getRecordOffset.trans (Nat.le_add_right (d.getRecordOffset i) trxRefSize))
    rw [markDelete_eq]
    split
    · exact hkeep
    · rw [Page.writeInteger8_eq, Page.writeString_bytes, Bytes.slice_store_of_disjoint, hkeep]
      right
      rw [Bytes.length_encode]
      rfl
  rw [hocc] at hs
  rw [view_of_occupied hs htrx hdata, view_eq d n p i, hocc]
  cases (getRecordStatus p i).1 <;> rfl

/-! #### Purge -/

/-- **What a purge does.** It frees an occupied slot that the transaction
stamped, and changes nothing otherwise. -/
theorem purge_cases (d : DataPage) (n : ℕ) (p : Page) {i : ℕ} (hi : i < d.maxNumRecs) (t : BitVec 64) :
    ((d.view n p i).stamp = some t ∧ d.purge i t p =
      some ({ setRecordFree p i with numFreeRecs := (p.numFreeRecs + 1) % 2 ^ 16 }, true)) ∨
    ((d.view n p i).stamp ≠ some t ∧ d.purge i t p = some (p, false)) := by
  unfold purge
  rw [if_neg (by omega), view_eq]
  split
  · right
    exact ⟨nofun, rfl⟩
  · rename_i hocc
    have hstamp : (if (getRecordStatus p i).1 then
        Slot.deleteMarked (p.readInteger8 (d.getRecordOffset i))
          (Bytes.slice p.bytes (d.getRecordOffset i + trxRefSize) n)
        else .active (p.readInteger8 (d.getRecordOffset i))
          (Bytes.slice p.bytes (d.getRecordOffset i + trxRefSize) n)).stamp =
        some (p.readInteger8 (d.getRecordOffset i)) := by
      split <;> rfl
    rw [hstamp]
    split
    · rename_i hne
      right
      exact ⟨fun h => hne (Option.some.inj h), rfl⟩
    · rename_i heq
      left
      exact ⟨congrArg some (not_not.mp heq), rfl⟩

theorem setRecordFree_view (d : DataPage) (n : ℕ) (p : Page) (i m : ℕ) :
    d.view n { setRecordFree p i with numFreeRecs := m } i = .free := by
  have hs : getRecordStatus { setRecordFree p i with numFreeRecs := m } i = (false, true) :=
    status_setRecordFree p i
  rw [view_eq, hs]
  rfl

/-! #### Update -/

theorem checkChunks_ok {size len : ℕ} : ∀ {prev : Option ℕ} {ids : List ℕ},
    checkChunks size len prev ids = .ok () → ∀ c ∈ ids, c * size + size ≤ len
  | prev, [], _, c, hc => by simp at hc
  | prev, x :: ids, h, c, hc => by
    unfold checkChunks at h
    split at h
    · cases h
    · split at h
      · cases h
      · rcases List.mem_cons.mp hc with rfl | hc
        · omega
        · exact checkChunks_ok h c hc

/-- The arguments that `update` takes: data of the column's size, with every
chunk inside it. -/
theorem checkUpdate_ok {addr : String} {colData : Option (List (BitVec 8))} {ids : List ℕ} {size : ℕ}
    {data : List (BitVec 8)} (h : checkUpdate n addr colData ids size = .ok data) :
    data.length = n ∧ ∀ c ∈ ids, c * size + size ≤ n := by
  unfold checkUpdate at h
  dsimp only at h
  split at h
  · cases h
  · rename_i data' hdata
    rw [Option.filter_eq_some_iff] at hdata
    obtain ⟨rfl, hok⟩ := hdata
    simp only [ne_eq, decide_eq_true_eq] at hok
    rcases hc : checkChunks size ((some data').map List.length |>.getD 0) none ids with e | u
    · rw [hc] at h
      cases h
    · rw [hc] at h
      cases h
      refine ⟨hok.2, fun c hcm => ?_⟩
      have := checkChunks_ok hc c hcm
      rwa [Option.map_some, Option.getD_some, hok.2] at this

theorem chunkRuns_eq_nil {ids : List ℕ} (h : chunkRuns ids = []) : ids = [] := by
  cases ids with
  | nil => rfl
  | cons c ids =>
    unfold chunkRuns at h
    split at h
    · cases h
    · split at h <;> cases h

/-- Writing a run of chunks at once is writing them one by one. -/
theorem foldl_chunkRuns {o size : ℕ} {data : List (BitVec 8)} : ∀ {ids : List ℕ} {f : Frame},
    (∀ c ∈ ids, c * size + size ≤ data.length) →
    (chunkRuns ids).foldl (fun f run => Bytes.store f (o + run.1 * size)
      ((data.drop (run.1 * size)).take (run.2 * size))) f =
    ids.foldl (fun f c => Bytes.store f (o + c * size) (Bytes.chunk size data c)) f
  | [], f, _ => rfl
  | c :: ids, f, h => by
    have ih := fun f => foldl_chunkRuns (o := o) (f := f) fun x hx => h x (List.mem_cons_of_mem c hx)
    unfold chunkRuns
    rw [List.foldl_cons, ← ih]
    split
    · rename_i hnil
      rw [hnil]
      simp [Bytes.chunk]
    · rename_i s m runs hruns
      rw [hruns]
      split
      · rename_i hs
        subst hs
        -- the run starts one chunk earlier
        have hsplit : (data.drop (c * size)).take ((m + 1) * size) =
            Bytes.chunk size data c ++ (data.drop ((c + 1) * size)).take (m * size) := by
          rw [Bytes.chunk, Nat.succ_mul, Nat.succ_mul, Nat.add_comm, List.take_add, List.drop_drop]
        rw [List.foldl_cons, List.foldl_cons, hsplit, Bytes.store_append,
          Bytes.length_chunk (h c List.mem_cons_self), Nat.add_assoc, ← Nat.succ_mul]
      · simp only [List.foldl_cons, Nat.one_mul]
        rfl

/-- The writes of an update, as one write a chunk to the bytes. -/
theorem writeRuns_bytes {o size : ℕ} {data : List (BitVec 8)} {ids : List ℕ}
    (h : ∀ c ∈ ids, c * size + size ≤ data.length) :
    (writeRuns o size data (chunkRuns ids) p).bytes =
      ids.foldl (fun f c => Bytes.store f (o + c * size) (Bytes.chunk size data c)) p.bytes := by
  have hfold : ∀ (runs : List (ℕ × ℕ)) (p : Page), (writeRuns o size data runs p).bytes =
      runs.foldl (fun f run => Bytes.store f (o + run.1 * size)
        ((data.drop (run.1 * size)).take (run.2 * size))) p.bytes := by
    intro runs
    induction runs with
    | nil => intro p; rfl
    | cons run runs ih => intro p; exact ih _
  rw [hfold, foldl_chunkRuns h]

/-- Writes of chunks leave the bytes outside the column. -/
theorem slice_foldl_chunks_of_disjoint {o size a m : ℕ} {data : List (BitVec 8)}
    (hdis : a + m ≤ o ∨ o + data.length ≤ a) : ∀ {ids : List ℕ} {f : Frame},
    (∀ c ∈ ids, c * size + size ≤ data.length) →
    Bytes.slice (ids.foldl (fun f c => Bytes.store f (o + c * size) (Bytes.chunk size data c)) f) a m =
      Bytes.slice f a m
  | [], f, _ => rfl
  | c :: ids, f, h => by
    have hc := h c List.mem_cons_self
    rw [List.foldl_cons, slice_foldl_chunks_of_disjoint hdis fun x hx => h x (List.mem_cons_of_mem c hx)]
    apply Bytes.slice_store_of_disjoint
    rw [Bytes.length_chunk hc]
    omega

/-- Writes of chunks splice them into the column. -/
theorem slice_foldl_chunks {o size : ℕ} {data : List (BitVec 8)} : ∀ {ids : List ℕ} {f : Frame},
    (∀ c ∈ ids, c * size + size ≤ data.length) →
    Bytes.slice (ids.foldl (fun f c => Bytes.store f (o + c * size) (Bytes.chunk size data c)) f) o data.length =
      spliceChunks size data ids (Bytes.slice f o data.length)
  | [], f, _ => rfl
  | c :: ids, f, h => by
    have hc := h c List.mem_cons_self
    rw [List.foldl_cons, slice_foldl_chunks fun x hx => h x (List.mem_cons_of_mem c hx),
      Bytes.slice_store_inside (by rw [Bytes.length_chunk hc]; exact hc)]
    rfl

theorem update_writeRuns (hd : d.Apart n) (hi : i < d.maxNumRecs) {size : ℕ} {data : List (BitVec 8)}
    {ids : List ℕ} (hlen : data.length = n) (h : ∀ c ∈ ids, c * size + size ≤ n) :
    (∀ j, j < d.maxNumRecs → getRecordStatus (writeRuns (d.getRecordOffset i + trxRefSize) size data
      (chunkRuns ids) p) j = getRecordStatus p j) ∧
    (∀ j, j < d.maxNumRecs → j ≠ i → SameSlot d p (writeRuns (d.getRecordOffset i + trxRefSize) size data
      (chunkRuns ids) p) j) ∧
    d.view n (writeRuns (d.getRecordOffset i + trxRefSize) size data (chunkRuns ids) p) i =
      (d.view n p i).step (.update data ids size) := by
  subst hlen
  set q := writeRuns (d.getRecordOffset i + trxRefSize) size data (chunkRuns ids) p with hq
  have hbytes := writeRuns_bytes (p := p) (o := d.getRecordOffset i + trxRefSize) h
  rw [← hq] at hbytes
  have hout : ∀ a m, (a + m ≤ d.getRecordOffset i + trxRefSize ∨
      d.getRecordOffset i + trxRefSize + data.length ≤ a) → Bytes.slice q.bytes a m = Bytes.slice p.bytes a m := by
    intro a m hdis
    rw [hbytes]
    exact slice_foldl_chunks_of_disjoint hdis h
  have hstatus : ∀ j, j < d.maxNumRecs → getRecordStatus q j = getRecordStatus p j := by
    intro j hj
    have hlt := hd.bitmapPos_lt hj
    have hle := le_getRecordOffset (d := d) (i := i)
    have hb : q.bytes (bitmapPos j).1 = p.bytes (bitmapPos j).1 := by
      have := hout (bitmapPos j).1 1 (by omega)
      simpa [Bytes.slice] using this
    simp only [getRecordStatus, Page.readInteger1, hb]
  refine ⟨hstatus, ?_, ?_⟩
  · intro j hj hij
    refine ⟨hstatus j hj, hout _ _ ?_⟩
    have := getRecordOffset_disjoint (d := d) hij
    have := hd.recSize
    omega
  · have htrx : q.readInteger8 (d.getRecordOffset i) = p.readInteger8 (d.getRecordOffset i) :=
      Page.readInteger8_congr (hout _ _ (Or.inl le_rfl))
    have hdata : Bytes.slice q.bytes (d.getRecordOffset i + trxRefSize) data.length =
        spliceChunks size data ids (Bytes.slice p.bytes (d.getRecordOffset i + trxRefSize) data.length) := by
      rw [hbytes]
      exact slice_foldl_chunks h
    rw [view_eq, view_eq, hstatus i hi, htrx, hdata]
    split
    · rfl
    · split <;> rfl

/-- **One operation.** It moves its slot as the machine says and leaves the
status and the bytes of every other. -/
theorem apply_view (hd : d.Apart n) {op : RecordOp} (hop : op.Allowed d n p) :
    (∀ j, j < d.maxNumRecs → j ≠ op.slotIndex d p → SameSlot d p (op.apply d n p) j) ∧
    d.view n (op.apply d n p) (op.slotIndex d p) = (d.view n p (op.slotIndex d p)).step (op.event n) := by
  obtain ⟨hi, hok⟩ := hop
  cases op with
  | insert hint t data =>
    obtain ⟨-, hlen⟩ := hok
    refine ⟨fun j hj hij => insertAt_other hd hi hj (Ne.symm hij) hlen, ?_⟩
    rw [RecordOp.event, show ∀ s : Slot, s.step (.insert t data) = .active t data from fun s => by cases s <;> rfl]
    exact insertAt_view hd hi hlen
  | markDelete i t mark =>
    exact ⟨fun j hj hij => markDelete_other hd hi hj (Ne.symm hij), markDelete_view hd hi hok t mark⟩
  | purge i t =>
    simp only [RecordOp.apply, RecordOp.slotIndex, RecordOp.event] at hi ⊢
    obtain ⟨hstamp, hp⟩ | ⟨hstamp, hp⟩ := purge_cases d n p hi t
    · rw [hp]
      refine ⟨fun j hj hij => ?_, ?_⟩
      · exact (sameSlot_updateStatus sets_free hd hi (Ne.symm hij)).trans (sameSlot_numFreeRecs _ _)
      · rw [Option.map_some, Option.getD_some, setRecordFree_view]
        cases hv : d.view n p i <;> simp_all [Slot.stamp, Slot.step]
    · rw [hp]
      refine ⟨fun j hj hij => SameSlot.refl, ?_⟩
      rw [Option.map_some, Option.getD_some]
      cases hv : d.view n p i <;> simp_all [Slot.stamp, Slot.step]
  | update i addr colData ids size =>
    simp only [RecordOp.apply, RecordOp.slotIndex, RecordOp.event] at hi ⊢
    have hsame : ∀ data, (d.view n p i).step (.update data [] size) = d.view n p i := by
      intro data
      cases d.view n p i <;> rfl
    split
    · rename_i hids
      subst hids
      refine ⟨fun j hj hij => SameSlot.refl, ?_⟩
      split <;> exact (hsame _).symm
    · split
      · exact ⟨fun j hj hij => SameSlot.refl, (hsame _).symm⟩
      · rename_i data hcheck
        obtain ⟨hlen, hin⟩ := checkUpdate_ok hcheck
        unfold update
        by_cases hfree : (getRecordStatus p i).2
        · rw [if_pos hfree]
          refine ⟨fun j hj hij => SameSlot.refl, ?_⟩
          rw [view_eq, if_pos hfree]
          rfl
        · rw [if_neg hfree]
          exact (update_writeRuns hd hi hlen hin).2

/-! #### What a fetch answers afterwards -/

theorem fetch_eq (d : DataPage) (n i : ℕ) (p : Page) : d.fetch n i p = (d.view n p i).fetched i := by
  unfold view fetch
  rcases getRecordStatus p i with ⟨del, free⟩
  cases free
  · cases del <;> rfl
  · rfl

theorem checkChunks_of_sorted {size len : ℕ} : ∀ {prev : Option ℕ} {ids : List ℕ}, ids.Pairwise (· < ·) →
    (∀ q ∈ prev, ∀ c ∈ ids, q < c) → (∀ c ∈ ids, c * size + size ≤ len) →
    checkChunks size len prev ids = .ok ()
  | _, [], _, _, _ => rfl
  | prev, c :: ids, hs, hprev, hin => by
    have hnone : prev.filter (c ≤ ·) = none := by
      rw [Option.filter_eq_none_iff]
      intro q hq
      have := hprev q hq c List.mem_cons_self
      simpa using this
    have hc := hin c List.mem_cons_self
    obtain ⟨hlt, hs⟩ := List.pairwise_cons.mp hs
    rw [checkChunks, hnone]
    dsimp only
    rw [if_neg (by omega)]
    refine checkChunks_of_sorted hs ?_ fun x hx => hin x (List.mem_cons_of_mem c hx)
    rintro q hq x hx
    cases hq
    exact hlt x hx

/-- The arguments that `update` takes, the other way round. -/
theorem checkUpdate_of_sorted {size : ℕ} {addr : String} {data : List (BitVec 8)} {ids : List ℕ}
    (hsize : size ≠ 0) (hlen : data.length = n) (hs : ids.Pairwise (· < ·))
    (hin : ∀ c ∈ ids, c * size + size ≤ n) : checkUpdate n addr (some data) ids size = .ok data := by
  have hfilter : (some data).filter (fun data => decide (size ≠ 0 ∧ data.length = n)) = some data := by
    simp [Option.filter, hsize, hlen]
  unfold checkUpdate
  dsimp only
  rw [hfilter]
  dsimp only
  rw [Option.map_some, Option.getD_some, hlen, checkChunks_of_sorted hs (by simp) hin]
  rfl

theorem length_spliceChunks {size : ℕ} {new : List (BitVec 8)} : ∀ {ids : List ℕ} {old : List (BitVec 8)},
    new.length = old.length → (∀ c ∈ ids, c * size + size ≤ old.length) →
    (spliceChunks size new ids old).length = old.length
  | [], _, _, _ => rfl
  | c :: ids, old, hlen, hin => by
    have hc := hin c List.mem_cons_self
    have hsplice : (Bytes.splice old (c * size) (Bytes.chunk size new c)).length = old.length :=
      Bytes.length_splice (by rw [Bytes.length_chunk (hlen ▸ hc)]; exact hc)
    show (spliceChunks size new ids (Bytes.splice old (c * size) (Bytes.chunk size new c))).length = _
    rw [length_spliceChunks (by omega) fun x hx => ?_, hsplice]
    rw [hsplice]
    exact hin x (List.mem_cons_of_mem c hx)

/-- An update changes the chunks it names and no other. -/
theorem chunk_spliceChunks {size k : ℕ} {new : List (BitVec 8)} : ∀ {ids : List ℕ} {old : List (BitVec 8)},
    new.length = old.length → (∀ c ∈ ids, c * size + size ≤ old.length) →
    Bytes.chunk size (spliceChunks size new ids old) k =
      if k ∈ ids then Bytes.chunk size new k else Bytes.chunk size old k
  | [], _, _, _ => by simp [spliceChunks]
  | c :: ids, old, hlen, hin => by
    have hc := hin c List.mem_cons_self
    have hchunk : (Bytes.chunk size new c).length = size := Bytes.length_chunk (hlen ▸ hc)
    have hsplice : (Bytes.splice old (c * size) (Bytes.chunk size new c)).length = old.length :=
      Bytes.length_splice (by rw [hchunk]; exact hc)
    show Bytes.chunk size (spliceChunks size new ids (Bytes.splice old (c * size) (Bytes.chunk size new c))) k = _
    rw [chunk_spliceChunks (by omega) (by
      rw [hsplice]
      exact fun x hx => hin x (List.mem_cons_of_mem c hx)), Bytes.chunk_splice hchunk hc]
    by_cases hk : k = c
    · subst hk
      simp
    · simp [hk]

theorem fetch_insert (hd : d.Apart n) {hint : ℕ} {t : BitVec 64} {data : List (BitVec 8)}
    (hop : (RecordOp.insert hint t data).Allowed d n p) :
    d.fetch n ((RecordOp.insert hint t data).slotIndex d p) ((RecordOp.insert hint t data).apply d n p) =
      .ok ⟨data, t, false⟩ := by
  rw [fetch_eq, (apply_view hd hop).2]
  cases d.view n p ((RecordOp.insert hint t data).slotIndex d p) <;> rfl

theorem fetch_update (hd : d.Apart n) (hi : i < d.maxNumRecs) {size : ℕ} {addr : String}
    {data : List (BitVec 8)} {ids : List ℕ} (hcheck : checkUpdate n addr (some data) ids size = .ok data)
    {r : Fetched} (hr : d.fetch n i p = .ok r) :
    d.fetch n i ((RecordOp.update i addr (some data) ids size).apply d n p) =
      .ok { r with colData := spliceChunks size data ids r.colData } := by
  have hop : (RecordOp.update i addr (some data) ids size).Allowed d n p := ⟨hi, trivial⟩
  have hview := (apply_view hd hop).2
  rw [fetch_eq] at hr
  rw [RecordOp.slotIndex, RecordOp.event, hcheck] at hview
  rw [fetch_eq, hview]
  cases hv : d.view n p i with
  | free =>
    rw [hv] at hr
    cases hr
  | active t old =>
    rw [hv] at hr
    cases hr
    rfl
  | deleteMarked t old =>
    rw [hv] at hr
    cases hr
    rfl

end Effects

/-! ### Runs -/

/-- A run of operations from one page to another, with the slot and the event of
each. -/
inductive RecordRun (d : DataPage) (n : ℕ) (p : Page) : List (ℕ × Slot.Event) → Page → Prop
  | nil : RecordRun d n p [] p
  | snoc {log : List (ℕ × Slot.Event)} {q : Page} (op : RecordOp) : RecordRun d n p log q →
    op.Allowed d n q → RecordRun d n p (log ++ [(op.slotIndex d q, op.event n)]) (op.apply d n q)

/-- The events of one slot. -/
def history (i : ℕ) (log : List (ℕ × Slot.Event)) : List Slot.Event :=
  (log.filter fun e => e.1 = i).map (·.2)

section Runs

variable {d : DataPage} {n : ℕ} {p q : Page} {log : List (ℕ × Slot.Event)}

theorem history_snoc (i k : ℕ) (log : List (ℕ × Slot.Event)) (e : Slot.Event) :
    history i (log ++ [(k, e)]) = history i log ++ (if k = i then [e] else []) := by
  unfold history
  rw [List.filter_append, List.map_append]
  congr 1
  by_cases h : k = i <;> simp [h]

theorem view_of_run (hd : d.Apart n) (hrun : RecordRun d n p log q) {i : ℕ} (hi : i < d.maxNumRecs) :
    d.view n q i = (history i log).foldl Slot.step (d.view n p i) := by
  induction hrun with
  | nil => rfl
  | @snoc log q op _ hop ih =>
    obtain ⟨hother, hself⟩ := apply_view hd hop
    rw [history_snoc, List.foldl_append, ← ih]
    by_cases h : op.slotIndex d q = i
    · rw [if_pos h, ← h]
      exact hself
    · rw [if_neg h]
      exact (hother i hi (Ne.symm h)).view hd

/-- No page has more records than 16 bits count. -/
theorem Apart.maxNumRecs_lt (hd : d.Apart n) : d.maxNumRecs < 2 ^ 16 := by
  have h1 := hd.area
  have h2 : d.maxNumRecs * 8 ≤ d.maxNumRecs * d.recSize :=
    Nat.mul_le_mul_left _ (by rw [hd.recSize]; exact Nat.le_add_right 8 n)
  omega

theorem mem_freeSlots {i : ℕ} :
    i ∈ d.freeSlots p ↔ i < d.maxNumRecs ∧ (getRecordStatus p i).2 = true := by
  simp [freeSlots]

theorem freeSlots_congr (h : ∀ j, j < d.maxNumRecs → getRecordStatus q j = getRecordStatus p j) :
    d.freeSlots q = d.freeSlots p := by
  ext j
  simp only [mem_freeSlots]
  constructor
  · rintro ⟨hj, hs⟩
    exact ⟨hj, by rw [← h j hj]; exact hs⟩
  · rintro ⟨hj, hs⟩
    exact ⟨hj, by rw [h j hj]; exact hs⟩

section OneSlot

variable {i : ℕ} (hi : i < d.maxNumRecs) (h : ∀ j, j < d.maxNumRecs → j ≠ i → SameSlot d p q j)
include h

theorem mem_freeSlots_other {j : ℕ} (hj : j ≠ i) : j ∈ d.freeSlots q ↔ j ∈ d.freeSlots p := by
  simp only [mem_freeSlots]
  constructor
  · rintro ⟨hlt, hs⟩
    exact ⟨hlt, by rw [← (h j hlt hj).status]; exact hs⟩
  · rintro ⟨hlt, hs⟩
    exact ⟨hlt, by rw [(h j hlt hj).status]; exact hs⟩

theorem freeSlots_of_occupied (hs : (getRecordStatus q i).2 = false) :
    d.freeSlots q = (d.freeSlots p).erase i := by
  ext j
  by_cases hj : j = i
  · simp [mem_freeSlots, hj, hs]
  · simp [mem_freeSlots_other h hj, hj]

include hi in
theorem freeSlots_of_free (hs : (getRecordStatus q i).2 = true) :
    d.freeSlots q = Insert.insert i (d.freeSlots p) := by
  ext j
  by_cases hj : j = i
  · simp [mem_freeSlots, hj, hs, hi]
  · simp [mem_freeSlots_other h hj, hj]

end OneSlot

theorem numFreeRecs_writeRuns {o size : ℕ} {data : List (BitVec 8)} : ∀ (runs : List (ℕ × ℕ)) (p : Page),
    (writeRuns o size data runs p).numFreeRecs = p.numFreeRecs
  | [], _ => rfl
  | _ :: runs, _ => numFreeRecs_writeRuns runs _

/-- The counter follows the bits through every operation. -/
theorem numFreeRecs_apply (hd : d.Apart n) {op : RecordOp} (hop : op.Allowed d n p)
    (hcount : p.numFreeRecs = (d.freeSlots p).card) :
    (op.apply d n p).numFreeRecs = (d.freeSlots (op.apply d n p)).card := by
  obtain ⟨hother, -⟩ := apply_view hd hop
  obtain ⟨hi, hok⟩ := hop
  cases op with
  | insert hint t data =>
    have hmem : RecordOp.slotIndex d p (.insert hint t data) ∈ d.freeSlots p :=
      mem_freeSlots.mpr ⟨hi, hok.1⟩
    have hpos : 0 < (d.freeSlots p).card := Finset.card_pos.mpr ⟨_, hmem⟩
    have hset := freeSlots_of_occupied hother (congrArg Prod.snd (insertAt_status t data))
    rw [hset, Finset.card_erase_of_mem hmem, ← hcount]
    exact if_neg (show p.numFreeRecs ≠ 0 by omega)
  | markDelete i t mark =>
    have hset : d.freeSlots (d.markDelete t i mark p) = d.freeSlots p := by
      refine (freeSlots_of_occupied hother
        ((congrArg Prod.snd (markDelete_status hd hi t mark)).trans hok)).trans ?_
      apply Finset.erase_eq_of_notMem
      exact fun hmem => Bool.false_ne_true (hok.symm.trans (mem_freeSlots.mp hmem).2)
    have hnum : (d.markDelete t i mark p).numFreeRecs = p.numFreeRecs := by
      rw [markDelete_eq]
      split <;> cases mark <;> rfl
    exact hnum.trans (hcount.trans (congrArg Finset.card hset.symm))
  | purge i t =>
    simp only [RecordOp.apply, RecordOp.slotIndex] at hi hother ⊢
    obtain ⟨hstamp, hp⟩ | ⟨hstamp, hp⟩ := purge_cases d n p hi t
    · rw [hp, Option.map_some, Option.getD_some] at hother ⊢
      have hocc : i ∉ d.freeSlots p := by
        intro hmem
        rw [view_eq, if_pos (mem_freeSlots.mp hmem).2] at hstamp
        cases hstamp
      have hlt : (d.freeSlots p).card < d.maxNumRecs := by
        have hsub : d.freeSlots p ⊂ Finset.range d.maxNumRecs :=
          ⟨Finset.filter_subset _ _, fun h => hocc (h (Finset.mem_range.mpr hi))⟩
        simpa using Finset.card_lt_card hsub
      have hmax := hd.maxNumRecs_lt
      rw [freeSlots_of_free hi hother (congrArg Prod.snd (status_setRecordFree p i)),
        Finset.card_insert_of_notMem hocc, hcount]
      exact Nat.mod_eq_of_lt (by omega)
    · rw [hp]
      exact hcount
  | update i addr colData ids size =>
    simp only [RecordOp.apply, RecordOp.slotIndex] at hi ⊢
    split
    · exact hcount
    · split
      · exact hcount
      · rename_i data hcheck
        obtain ⟨hlen, hin⟩ := checkUpdate_ok hcheck
        unfold update
        split
        · exact hcount
        · rename_i p' hp'
          split at hp'
          · cases hp'
          · cases hp'
            rw [numFreeRecs_writeRuns, freeSlots_congr (update_writeRuns hd hi hlen hin).1, hcount]

theorem numFreeRecs_of_run (hd : d.Apart n) (hcount : p.numFreeRecs = (d.freeSlots p).card)
    (hrun : RecordRun d n p log q) : q.numFreeRecs = (d.freeSlots q).card := by
  induction hrun with
  | nil => exact hcount
  | snoc op _ hop ih => exact numFreeRecs_apply hd hop ih

/-- **The records of a page.** After any run every slot is where its own events
bring it, and a fetch answers so; a purge frees a slot exactly when it is
occupied and stamped with the transaction, and changes nothing otherwise; an
operation leaves the status and the bytes of every slot but its own; and the
number of free records is that of the clear free bits. -/
theorem records_independent (hd : d.Apart n) (hcount : p.numFreeRecs = (d.freeSlots p).card)
    (hrun : RecordRun d n p log q) :
    (∀ i, i < d.maxNumRecs → d.view n q i = (history i log).foldl Slot.step (d.view n p i) ∧
      d.fetch n i q = (d.view n q i).fetched i) ∧
    (∀ i, i < d.maxNumRecs → ∀ t, ∃ q' purged, d.purge i t q = some (q', purged) ∧
      (purged = true ↔ (d.view n q i).stamp = some t) ∧ (purged = true → d.view n q' i = .free) ∧
      (purged = false → q' = q)) ∧
    (∀ op : RecordOp, op.Allowed d n q → ∀ j, j < d.maxNumRecs → j ≠ op.slotIndex d q →
      getRecordStatus (op.apply d n q) j = getRecordStatus q j ∧
      d.recordBytes (op.apply d n q) j = d.recordBytes q j) ∧
    q.numFreeRecs = (d.freeSlots q).card := by
  refine ⟨fun i hi => ⟨view_of_run hd hrun hi, fetch_eq d n i q⟩, fun i hi t => ?_, fun op hop j hj hij => ?_,
    numFreeRecs_of_run hd hcount hrun⟩
  · obtain ⟨hstamp, hp⟩ | ⟨hstamp, hp⟩ := purge_cases d n q hi t
    · exact ⟨_, _, hp, ⟨fun _ => hstamp, fun _ => rfl⟩, fun _ => setRecordFree_view d n q i _, nofun⟩
    · exact ⟨_, _, hp, ⟨nofun, fun h => absurd h hstamp⟩, nofun, fun _ => rfl⟩
  · have h := (apply_view hd hop).1 j hj hij
    exact ⟨h.status, h.bytes⟩

/-- A page of four records of four bytes, and a run that inserts two, marks one
and purges it. -/
theorem records_independent_four :
    let d : DataPage := ⟨12, 1, 4, 59⟩
    let p := d.format 3 Page.zero
    let q1 := RecordOp.apply d 4 p (.insert 0 7 [1, 2, 3, 4])
    let q2 := RecordOp.apply d 4 q1 (.insert 1 8 [5, 6, 7, 8])
    let q3 := RecordOp.apply d 4 q2 (.markDelete 0 9 true)
    let q4 := RecordOp.apply d 4 q3 (.purge 0 9)
    q4.numFreeRecs = 3 ∧ d.fetch 4 1 q4 = .ok ⟨[5, 6, 7, 8], 8, false⟩ ∧
      q4.numFreeRecs = (d.freeSlots q4).card := by
  intro d p q1 q2 q3 q4
  have hd : d.Apart 4 := ⟨rfl, by decide, by decide⟩
  have hrun : RecordRun d 4 p _ q4 :=
    (((RecordRun.nil.snoc (.insert 0 7 [1, 2, 3, 4]) (by unfold RecordOp.Allowed; decide)).snoc
      (.insert 1 8 [5, 6, 7, 8]) (by unfold RecordOp.Allowed; decide)).snoc
      (.markDelete 0 9 true) (by unfold RecordOp.Allowed; decide)).snoc
      (.purge 0 9) (by unfold RecordOp.Allowed; decide)
  exact ⟨by decide, by decide, (records_independent hd (by decide) hrun).2.2.2⟩

end Runs

end DataPage

namespace ColumnStore

open StoreProg

/-- `mark_delete` changes its page as `DataPage.markDelete` says and no other. -/
theorem markDelete_page {cs : ColumnStore} {t : BitVec 64} {colRef : ℕ} {mark : Bool} {s s' : Store}
    (h : cs.markDelete t colRef mark s = (.ok (), s')) :
    ∃ p, s.pages (DataPage.decodeColumnRef colRef).1 = some p ∧
      s'.pages = Function.update s.pages (DataPage.decodeColumnRef colRef).1
        (some (cs.data.markDelete t (DataPage.decodeColumnRef colRef).2 mark p)) := by
  simp only [markDelete, Prog.bind_returns] at h
  obtain ⟨p, s1, hload, u, s2, hmark, hstamp⟩ := h
  obtain ⟨hp, fs, rfl⟩ := load_returns hload
  obtain ⟨-, hp2⟩ := modifyPage_returns hmark
  obtain ⟨-, hp3⟩ := modifyPage_returns hstamp
  refine ⟨p, hp, funext fun q => ?_⟩
  rw [hp3, hp2]
  by_cases hq : q = (DataPage.decodeColumnRef colRef).1
  · subst hq
    simp only [hp, Option.map_some, if_true, Function.update_self]
    rfl
  · simp [hq]

/-! ### The capacity of the pages

The header of a page has the number of records it was formatted for, which is
that of its store; no operation writes it again. -/

/-- Every page has the capacity of the store. -/
def Counted (cs : ColumnStore) (s : Store) : Prop :=
  ∀ r l, s.links r = some l → l.maxNumRecs = cs.data.maxNumRecs

/-- One step of a store whose records are updated too. -/
inductive UpdateStep (cs : ColumnStore) : Store → Store → Prop
  | step {s s' : Store} : Step cs (fun _ _ => True) s s' → UpdateStep cs s s'
  | update {s s' : Store} (colRef : ℕ) (addr : String) (colData : Option (List (BitVec 8))) (chunkIds : List ℕ)
      (chunkSize : ℕ) : cs.update colRef addr colData chunkIds chunkSize s = (.ok (), s') → UpdateStep cs s s'

section Counted

variable {cs : ColumnStore} {s s' : Store} {r : ℕ}

/-- Whatever changes of a page, its capacity stays. -/
theorem Counted.map (h : Counted cs s) {f : ℕ → Page → Page} (hf : ∀ q p, (f q p).maxNumRecs = p.maxNumRecs)
    (hp : s'.pages = fun q => (s.pages q).map (f q)) : Counted cs s' := by
  intro q l hl
  simp only [Store.links, hp, Option.map_map, Option.map_eq_some_iff] at hl
  obtain ⟨p, hp, rfl⟩ := hl
  exact (hf q p).trans (h q p.links (by simp [Store.links, hp]))

theorem Counted.addFreePage {i : ℕ} {e : StorageError} {u : Unit} (h : Counted cs s)
    (hr : RootPage.addFreePage cs r i e s = (.ok u, s')) : Counted cs s' := by
  obtain ⟨fs, rfl⟩ := RootPage.addFreePage_returns hr
  refine h.map (fun q p => ?_) rfl
  split <;> rfl

theorem Counted.insertNewPage {u : Unit} (h : Counted cs s) (hr : insertNewPage cs r s = (.ok u, s')) :
    Counted cs s' := by
  obtain ⟨-, -, -, s₁, -, -, hpages, hend⟩ := insertNewPage_cases hr
  have h₁ : Counted cs { s with pages := Function.update s.pages r (some (cs.data.format cs.rootPageRef Page.zero)) } := by
    intro q l hl
    by_cases hq : q = r
    · subst hq
      simp only [Store.links, Function.update_self, Option.map_some, Option.some.injEq] at hl
      rw [← hl]
      rfl
    · exact h q l (by simpa [Store.links, hq] using hl)
  have h₂ : Counted cs s₁ := by
    refine h₁.map (fun q p => ?_) hpages
    split <;> rfl
  rcases hend with ⟨-, rfl⟩ | ⟨-, e, h3⟩
  · exact h₂
  · exact h₂.addFreePage h3

theorem Counted.insertPage {env : InsertEnv} (h : Counted cs s) (hpos : 0 < s.root.slots.length)
    (hr : insertPage cs env s = (.ok r, s')) : Counted cs s' := by
  cases insertPage_cases hpos hr with
  | room hgrow hpages => exact fun q l hl => h q l (by simpa [Store.links, hpages] using hl)
  | last hgrow hpages hsel hp hone h1 =>
    obtain ⟨p, fs, -, rfl⟩ := RootPage.removeFreePage_returns h1
    refine h.map (fun q p => ?_) (by rw [← hpages]; rfl)
    split <;> rfl
  | fresh hgrow hpages hsel hslot h1 =>
    exact Counted.insertNewPage (fun q l hl => h q l (by simpa [Store.links, hpages] using hl)) h1

theorem Counted.call {c : Call} {res : Option ℕ} (h : Counted cs s) (hpos : 0 < s.root.slots.length)
    (hr : cs.call c s = (.ok res, s')) : Counted cs s' := by
  cases c with
  | insert env trxRef colData =>
    obtain ⟨colRef, h1, -⟩ := Prog.map_returns.mp hr
    unfold ColumnStore.insert at h1
    split at h1
    · simp at h1
    · split at h1
      · simp at h1
      · obtain ⟨q, s1, h2, h3⟩ := Prog.bind_returns.mp h1
        obtain ⟨p, s2, h4, h5⟩ := Prog.bind_returns.mp h3
        obtain ⟨-, rfl⟩ := readPage_returns h4
        rw [Prog.get_bind] at h5
        obtain ⟨u, s3, h6, h7⟩ := Prog.bind_returns.mp h5
        have hlinks := (modifyPage_links (links_insertAt _ _ _ _) h6).2
        rw [Prog.modify_bind, Prog.pure_apply, Prod.mk.injEq] at h7
        obtain ⟨-, rfl⟩ := h7
        exact fun q l hl => h.insertPage hpos h2 q l (by rw [← hlinks]; exact hl)
  | markDelete trxRef colRef deleteMark =>
    obtain ⟨u, h1, -⟩ := Prog.map_returns.mp hr
    exact fun q l hl => h q l (by rw [← (markDelete_links h1).2]; exact hl)
  | purge rand trxRef colRef =>
    obtain ⟨u, h1, -⟩ := Prog.map_returns.mp hr
    obtain ⟨p, p', purged, s₁, hp, hpurge, -, hpages, hend⟩ := purge_cases h1
    have h₁ : Counted cs s₁ := fun q l hl => h q l (by rw [← links_purged hp hpurge hpages]; exact hl)
    split at hend
    · obtain ⟨e, h2⟩ := hend
      exact h₁.addFreePage h2
    · exact hend ▸ h₁

theorem ofExcept_returns {α : Type} {x : Except StorageError α} {a : α} (h : ofExcept x s = (.ok a, s')) :
    x = .ok a ∧ s' = s := by
  cases x with
  | error e => cases h
  | ok b =>
    cases h
    exact ⟨rfl, rfl⟩

theorem links_writeRuns {o size : ℕ} {data : List (BitVec 8)} : ∀ (runs : List (ℕ × ℕ)) (p : Page),
    (DataPage.writeRuns o size data runs p).links = p.links
  | [], _ => rfl
  | _ :: runs, _ => links_writeRuns runs _

theorem links_update {d : DataPage} {i size : ℕ} {data : List (BitVec 8)} {ids : List ℕ} {p p' : Page}
    (h : d.update i data ids size p = .ok p') : p'.links = p.links := by
  unfold DataPage.update at h
  split at h
  · cases h
  · cases h
    exact links_writeRuns _ _

/-- No operation on a record changes the links of its page. -/
theorem links_apply (d : DataPage) (n : ℕ) (p : Page) (op : RecordOp) : (op.apply d n p).links = p.links := by
  cases op with
  | insert hint trxRef colData => exact links_insertAt _ _ _ _ _
  | markDelete i trxRef deleteMark =>
    unfold RecordOp.apply DataPage.markDelete
    dsimp only
    split <;> split <;> rfl
  | purge i trxRef =>
    show (((d.purge i trxRef p).map (·.1)).getD p).links = p.links
    rcases hp : d.purge i trxRef p with _ | ⟨p', purged⟩
    · rfl
    · exact links_purge hp
  | update i addr colData chunkIds chunkSize =>
    unfold RecordOp.apply
    dsimp only
    split
    · rfl
    · split
      · rfl
      · split
        · rfl
        · rename_i h
          exact links_update h

theorem maxNumRecs_apply {d : DataPage} {n : ℕ} {p : Page} {op : RecordOp} :
    (op.apply d n p).maxNumRecs = p.maxNumRecs :=
  congrArg PageLinks.maxNumRecs (links_apply d n p op)

/-- An update writes the bytes of a record only. -/
theorem update_links {colRef : ℕ} {addr : String} {colData : Option (List (BitVec 8))} {chunkIds : List ℕ}
    {chunkSize : ℕ} {u : Unit} (hr : cs.update colRef addr colData chunkIds chunkSize s = (.ok u, s')) :
    s'.root = s.root ∧ s'.links = s.links := by
  unfold ColumnStore.update at hr
  split at hr
  · simp only [Prog.pure_apply, Prod.mk.injEq, true_and] at hr
    exact ⟨by rw [hr], by rw [hr]⟩
  · obtain ⟨data, s1, h1, h2⟩ := Prog.bind_returns.mp hr
    obtain ⟨-, rfl⟩ := ofExcept_returns h1
    obtain ⟨p, s2, h3, h4⟩ := Prog.bind_returns.mp h2
    obtain ⟨hp, fs, rfl⟩ := load_returns h3
    obtain ⟨p', s3, h5, h6⟩ := Prog.bind_returns.mp h4
    obtain ⟨hupd, rfl⟩ := ofExcept_returns h5
    obtain ⟨hroot, hpages⟩ := modifyPage_returns h6
    have hp' := links_update hupd
    refine ⟨hroot, funext fun q => ?_⟩
    by_cases hq : q = (DataPage.decodeColumnRef colRef).1
    · simp [Store.links, hpages, hq, hp, hp']
    · simp [Store.links, hpages, hq]

/-- **The capacity of the pages.** Every page of every run is laid out for the
records of its store. -/
theorem reaches_counted (h : Reaches Fresh (UpdateStep cs) s) : Counted cs s := by
  refine (Reaches.invariant (I := fun s => (∃ ch all, Lists cs s.root s.links ch all) ∧ Counted cs s)
    (fun s hs => ⟨⟨_, _, fresh_lists hs⟩, fun q l hl => ?_⟩) (fun s s' hI hst => ?_) h).2
  · simp [Store.links, hs.2 q] at hl
  · obtain ⟨⟨ch, all, hlists⟩, hc⟩ := hI
    cases hst with
    | step hst =>
      cases hst with
      | switch info faults => exact ⟨⟨ch, all, hlists⟩, hc⟩
      | call c res _ hr =>
        obtain ⟨ch', all', hl', -⟩ := call_lists hlists hr
        exact ⟨⟨ch', all', hl'⟩, hc.call hlists.slots_pos hr⟩
    | update colRef addr colData chunkIds chunkSize hr =>
      obtain ⟨hroot, hlinks⟩ := update_links hr
      exact ⟨⟨ch, all, by rw [hroot, hlinks]; exact hlists⟩, fun q l hl => hc q l (by rw [← hlinks]; exact hl)⟩

end Counted

end ColumnStore

end VsqlVector
