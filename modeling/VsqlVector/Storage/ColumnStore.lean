/-
# The column store

`ColumnStore` (`src/storage/storage.cc`) keeps fixed-size records on data
pages. A root page heads the list of all data pages and an array of free
slots, each the head of a chain of pages with room; an insert takes the page
at the head of the slot its thread used last, or of a random one
(`RootPage::page_select`), and a purge that leaves enough room puts the page
back on a chain.

The model keeps the fields of a page header apart and the bitmap and records
as bytes at their page offsets. A page reference is a number, `INVALID_REF`
is `none`, and every page load and release asks the state's list of faults
whether the server's page API fails there. The assertions of the source do
nothing, as in a release build.

Key definitions: `Page`, `RootFrame`, `Store`, `ColumnStore.insert`,
`ColumnStore.markDelete`, `ColumnStore.purge`.
-/
import Mathlib
import VsqlVector.Lib.Prog
import VsqlVector.Storage.Layout

namespace VsqlVector

/-! ### Pages in memory -/

/-- A data page. `prev` and `next` are the links of the server's page header,
which carry the list of all data pages; the bitmap and the records are the
`bytes`, by page offset. -/
structure Page where
  freeSlotNumber : ℕ
  rootPageRef : ℕ
  prevFreePage : Option ℕ
  nextFreePage : Option ℕ
  maxNumRecs : ℕ
  numFreeRecs : ℕ
  prev : Option ℕ
  next : Option ℕ
  bytes : ℕ → BitVec 8

namespace Page

/-- A page as the server allocates it: zero filled, with no links. -/
def zero : Page := ⟨0, 0, none, none, 0, 0, none, none, fun _ => 0⟩

def readInteger1 (p : Page) (off : ℕ) : BitVec 8 := p.bytes off

def writeInteger1 (p : Page) (off : ℕ) (b : BitVec 8) : Page :=
  { p with bytes := Function.update p.bytes off b }

/-- `read_integer_8`, most significant byte first. -/
def readInteger8 (p : Page) (off : ℕ) : BitVec 64 :=
  (List.range 8).foldl (fun acc i => acc <<< 8 ||| (p.bytes (off + i)).setWidth 64) 0

/-- `write_string`. -/
def writeString (p : Page) (off : ℕ) (data : List (BitVec 8)) : Page :=
  { p with bytes := fun i => if off ≤ i then (data[i - off]?).getD (p.bytes i) else p.bytes i }

def writeInteger8 (p : Page) (off : ℕ) (v : BitVec 64) : Page :=
  p.writeString off ((List.range 8).map fun i => v.extractLsb' (8 * (7 - i)) 8)

end Page

/-- The largest `Page::Ref`, `INVALID_REF`, names no page. -/
def invalidRef : ℕ := 2 ^ 32 - 1

/-! ### The root page -/

/-- What `RootPage::init` fixes. At most 2048 free slots are kept. -/
structure RootPage where
  numSegments : ℕ
  numOtherRootPages : ℕ
  storageMetadataLen : ℕ
  columnSize : ℕ
  maxFreeSlots : ℕ
  maxFreeSlots_le : maxFreeSlots ≤ 2048

namespace RootPage

def freeSlotLen : ℕ := 4
def maxFreeSlotStep : ℕ := 16

/-- `free_slot_array_off`: the header, the segments, version and type, the
metadata, the other root pages, the column size, head, tail, the two counters
and the two sizes of the array stand before it. -/
def freeSlotArrayOff (numSegments storageMetadataLen numOtherRootPages : ℕ) : ℕ :=
  pageHeaderSize + 1 + 10 * numSegments + 1 + 1 + 1 + storageMetadataLen + 1 +
    4 * numOtherRootPages + 2 + 4 + 4 + 4 + 4 + 2 + 2

/-- `RootPage::init`. -/
def init (ps : PageSize) (colLen numSegments numRootPages storageMetadataLen : ℕ) : RootPage where
  numSegments := numSegments
  numOtherRootPages := numRootPages - 1
  storageMetadataLen := storageMetadataLen
  columnSize := colLen
  maxFreeSlots :=
    min ((ps.bytes - freeSlotArrayOff numSegments storageMetadataLen (numRootPages - 1) -
      pageTrailerSize) / freeSlotLen % 2 ^ 16) 2048
  maxFreeSlots_le := Nat.min_le_right _ _

end RootPage

/-- The fields of the root page that the store changes: the free slot array up
to its current size, the ends of the list of all pages, and the counters. -/
structure RootFrame where
  slots : List (Option ℕ)
  head : Option ℕ
  tail : Option ℕ
  totalDataPages : ℕ
  totalFreePages : ℕ
  deriving DecidableEq, Repr

/-- `RootPage::format`: one empty slot and no pages. -/
def RootFrame.format : RootFrame := ⟨[none], none, none, 0, 0⟩

/-- `RootPage::LastSlotInfo`, which each thread has one of. -/
structure LastSlotInfo where
  spaceRef : ℕ
  pageRef : Option ℕ
  slotNumber : ℕ
  nextFreeRecHint : ℕ
  deriving DecidableEq, Repr

/-- A column store: its space, its root page, the root page its segment is on
and the two page layouts. -/
structure ColumnStore where
  spaceRef : ℕ
  rootPageRef : ℕ
  primaryRootPageRef : ℕ
  root : RootPage
  data : DataPage

/-- `ColumnStore::init`, with the primary root page that `create`, `load` or
`init_root_page` records next. -/
def ColumnStore.init (ps : PageSize) (spaceRef rootPageRef primaryRootPageRef colLen numSegments
    numRootPages metadataLen : ℕ) : Option ColumnStore :=
  (DataPage.init ps colLen).map fun data =>
    ⟨spaceRef, rootPageRef, primaryRootPageRef,
      RootPage.init ps colLen numSegments numRootPages metadataLen, data⟩

/-- What an operation on a store reads and writes: the pages, the calling
thread's `s_last_slot_info`, and the failures still to come from the page API
(none once the list is used up). -/
structure Store where
  root : RootFrame
  pages : ℕ → Option Page
  lastSlotInfo : LastSlotInfo
  faults : List Bool

/-- The arguments of `fill_error`. -/
structure StorageError where
  info : String
  isLocal : Bool
  deriving DecidableEq, Repr

/-- An operation on a store. -/
abbrev StoreProg := Prog StorageError Store

namespace StoreProg

/-- A call of the page API, which fails with `e` when the next fault says so. -/
def tick (e : StorageError) : StoreProg Unit := fun s =>
  match s.faults with
  | [] => (.ok (), s)
  | false :: fs => (.ok (), { s with faults := fs })
  | true :: fs => (.error e, { s with faults := fs })

/-- A data page that is loaded. -/
def readPage (r : ℕ) : StoreProg Page := do
  let s ← Prog.get
  Prog.ofOption ⟨"page not loaded", true⟩ (s.pages r)

/-- `Page::load` of a data page. -/
def load (e : StorageError) (r : ℕ) : StoreProg Page := do
  tick e
  let s ← Prog.get
  Prog.ofOption e (s.pages r)

/-- `Page::load_new`: the server hands out a page that is not in use. -/
def loadNew (e : StorageError) (cs : ColumnStore) (r : ℕ) : StoreProg Unit := do
  tick e
  let s ← Prog.get
  if (s.pages r).isNone ∧ r ≠ cs.rootPageRef ∧ r < invalidRef then
    Prog.modify fun s => { s with pages := Function.update s.pages r (some Page.zero) }
  else Prog.fail e

/-- `load` where the reference can be `INVALID_REF` and nothing is loaded then. -/
def loadLinked (e : StorageError) : Option ℕ → StoreProg Unit
  | none => pure ()
  | some r => do let _ ← load e r

/-- Change the data page `r` in place. -/
def modifyPage (r : ℕ) (f : Page → Page) : StoreProg Unit :=
  Prog.modify fun s => { s with pages := fun q => (s.pages q).map fun p => if q = r then f p else p }

/-- Change the data page a link names, if it names one. -/
def modifyLinked (r : Option ℕ) (f : Page → Page) : StoreProg Unit :=
  Prog.modify fun s =>
    { s with pages := fun q => (s.pages q).map fun p => if r = some q then f p else p }

/-- Change the root page in place. -/
def modifyRoot (f : RootFrame → RootFrame) : StoreProg Unit :=
  Prog.modify fun s => { s with root := f s.root }

end StoreProg

/-! ### Records on a data page -/

namespace DataPage

/-- `INVALID_SLOT`: the page is in no free list. -/
def invalidSlot : ℕ := 0xFFFF

def minFreePercentForFreeList : ℕ := 20
def deleteMarkBit : ℕ := 0
def freeBit : ℕ := 1

/-- `DataPage::format`. -/
def format (d : DataPage) (rootPageRef : ℕ) (p : Page) : Page :=
  { p with freeSlotNumber := invalidSlot, rootPageRef := rootPageRef, prevFreePage := none,
           nextFreePage := none, maxNumRecs := d.maxNumRecs, numFreeRecs := d.maxNumRecs }

/-- `encode_column_ref`: the page in the lower 32 bits, then the slot. -/
def encodeColumnRef (pageRef slotIndex : ℕ) : ℕ := pageRef ||| (slotIndex <<< 32)

/-- `decode_column_ref`. -/
def decodeColumnRef (colRef : ℕ) : ℕ × ℕ :=
  (colRef &&& 0xFFFFFFFF, (colRef >>> 32) &&& maxSlotIndex)

/-- `has_last_free_slot`. -/
def hasLastFreeSlot (p : Page) : Bool := p.numFreeRecs = 1

/-- `needs_add_to_free_list`. Before a purge the record it will free is
counted too. -/
def needsAddToFreeList (p : Page) (prePurge : Bool) : Bool :=
  if p.freeSlotNumber ≠ invalidSlot then false
  else if p.maxNumRecs = 0 then false
  else
    let numFreeRecs :=
      if prePurge ∧ p.numFreeRecs < p.maxNumRecs then p.numFreeRecs + 1 else p.numFreeRecs
    numFreeRecs * 100 / p.maxNumRecs > minFreePercentForFreeList

/-- The bitmap byte of a slot and the first of its two bits there. -/
def bitmapPos (slotIndex : ℕ) : ℕ × ℕ :=
  (freeBitmapOff + slotIndex * bitsPerRecord / 8, slotIndex * bitsPerRecord % 8)

/-- `get_record_status`: delete marked, and free. -/
def getRecordStatus (p : Page) (slotIndex : ℕ) : Bool × Bool :=
  let (off, bit) := bitmapPos slotIndex
  let b := p.readInteger1 off
  (b.getLsbD (bit + deleteMarkBit), !b.getLsbD (bit + freeBit))

/-- Change the bitmap byte of a slot, given the position of its bits. -/
def updateStatus (f : ℕ → BitVec 8 → BitVec 8) (p : Page) (slotIndex : ℕ) : Page :=
  let (off, bit) := bitmapPos slotIndex
  p.writeInteger1 off (f bit (p.readInteger1 off))

/-- `set_record_delete`. -/
def setRecordDelete : Page → ℕ → Page :=
  updateStatus fun bit b => b ||| (1#8 <<< (bit + deleteMarkBit))

/-- `set_record_undelete`. -/
def setRecordUndelete : Page → ℕ → Page :=
  updateStatus fun bit b => b &&& ~~~(1#8 <<< (bit + deleteMarkBit))

/-- `set_record_free`. -/
def setRecordFree : Page → ℕ → Page :=
  updateStatus fun bit b => b &&& ~~~(1#8 <<< (bit + freeBit)) &&& ~~~(1#8 <<< (bit + deleteMarkBit))

/-- `set_record_allocated`. -/
def setRecordAllocated : Page → ℕ → Page :=
  updateStatus fun bit b => (b ||| (1#8 <<< (bit + freeBit))) &&& ~~~(1#8 <<< (bit + deleteMarkBit))

/-- `free_bit_in_byte`. -/
def freeBitInByte (b : BitVec 8) : Option ℕ :=
  if b &&& 0xAA = 0xAA then none else [0, 2, 4, 6].find? fun bit => !b.getLsbD (bit + freeBit)

/-- `find_free_slot`: the hint, else the first clear bit from the hint's byte
on, else from the first byte. Nothing keeps the bits past the last record out
of the scan. -/
def findFreeSlot (d : DataPage) (p : Page) (hintIndex : ℕ) : Option ℕ :=
  if hintIndex < d.maxNumRecs ∧ (getRecordStatus p hintIndex).2 then some hintIndex
  else
    let numBitmapBytes := bitsToBytesCeil (d.maxNumRecs * bitsPerRecord)
    let startIdx := hintIndex * bitsPerRecord / 8
    let scan := fun byteIdx =>
      (freeBitInByte (p.readInteger1 (freeBitmapOff + byteIdx))).map fun bit => byteIdx * 4 + bit / 2
    ((List.range' startIdx (numBitmapBytes - startIdx)).findSome? scan).or
      ((List.range startIdx).findSome? scan)

/-- `DataPage::insert` into a page, with the slot found: the record, its bits
and the number of free records. -/
def insertAt (d : DataPage) (trxRef : BitVec 64) (colData : List (BitVec 8)) (slotIndex : ℕ)
    (p : Page) : Page :=
  let recOffset := d.getRecordOffset slotIndex
  let p := p.writeInteger8 recOffset trxRef
  let p := p.writeString (recOffset + trxRefSize) colData
  let p := setRecordAllocated p slotIndex
  { p with numFreeRecs := if p.numFreeRecs = 0 then 2 ^ 16 - 1 else p.numFreeRecs - 1 }

/-- `DataPage::insert`. Where no slot is found the record goes to slot 0. -/
def insert (d : DataPage) (r : ℕ) (trxRef : BitVec 64) (colData : List (BitVec 8)) :
    StoreProg ℕ := do
  let p ← StoreProg.readPage r
  let s ← Prog.get
  let slotIndex := (findFreeSlot d p s.lastSlotInfo.nextFreeRecHint).getD 0
  StoreProg.modifyPage r (insertAt d trxRef colData slotIndex)
  let hint := if slotIndex + 1 ≥ d.maxNumRecs then 0 else slotIndex + 1
  Prog.modify fun s => { s with lastSlotInfo := { s.lastSlotInfo with nextFreeRecHint := hint } }
  pure (encodeColumnRef r slotIndex)

/-- `DataPage::purge` of one page: `none` for a slot out of bounds, else the
page afterwards and whether the record was freed. -/
def purge (d : DataPage) (slotIndex : ℕ) (trxRef : BitVec 64) (p : Page) : Option (Page × Bool) :=
  if slotIndex ≥ d.maxNumRecs then none
  else if (getRecordStatus p slotIndex).2 then some (p, false)
  else if p.readInteger8 (d.getRecordOffset slotIndex) ≠ trxRef then some (p, false)
  else
    let p := setRecordFree p slotIndex
    some ({ p with numFreeRecs := (p.numFreeRecs + 1) % 2 ^ 16 }, true)

end DataPage

/-! ### The lists of the root page -/

namespace RootPage

open StoreProg

/-- `get_random_slot`, with the number the generator gives. -/
def getRandomSlot (rand maxSize : ℕ) : ℕ := if maxSize = 0 then 0 else rand % maxSize

/-- `get_cached_slot_number`. -/
def getCachedSlotNumber (info : LastSlotInfo) (spaceRef pageRef maxSlots : ℕ) : Option ℕ :=
  if info.spaceRef ≠ spaceRef then none
  else if info.pageRef ≠ some pageRef then none
  else if info.slotNumber ≥ maxSlots then none
  else some info.slotNumber

/-- `grow_free_slots`. -/
def growFreeSlots (rp : RootPage) (f : RootFrame) : RootFrame :=
  let cur := f.slots.length
  let new := min (cur + min cur maxFreeSlotStep) rp.maxFreeSlots
  { f with slots := f.slots ++ List.replicate (new - cur) none }

/-- The slot `page_select` takes, with the thread's information afterwards. -/
def selectSlot (cs : ColumnStore) (f : RootFrame) (rand : ℕ) (info : LastSlotInfo) :
    ℕ × LastSlotInfo :=
  match getCachedSlotNumber info cs.spaceRef cs.rootPageRef f.slots.length with
  | some slot => (slot, info)
  | none =>
    let slot := getRandomSlot rand f.slots.length
    (slot, ⟨cs.spaceRef, some cs.rootPageRef, slot, 0⟩)

/-- `page_select`: the page at the head of the slot, if there is one. -/
def pageSelect (cs : ColumnStore) (rand : ℕ) : StoreProg (Option ℕ) := do
  let s ← Prog.get
  let (slot, info) := selectSlot cs s.root rand s.lastSlotInfo
  Prog.modify fun s => { s with lastSlotInfo := info }
  pure (s.root.slots[slot]?).join

/-- `add_free_page`: the page becomes the head of the slot's chain. -/
def addFreePage (cs : ColumnStore) (r slotNumber : ℕ) (e : StorageError) : StoreProg Unit := do
  let s ← Prog.get
  let slotPageRef := (s.root.slots[slotNumber]?).join
  loadLinked e slotPageRef
  modifyLinked slotPageRef fun p => { p with prevFreePage := some r }
  modifyRoot fun f => { f with slots := f.slots.set slotNumber (some r) }
  modifyPage r fun p => { p with prevFreePage := some cs.rootPageRef, nextFreePage := slotPageRef }
  modifyPage r fun p => { p with freeSlotNumber := slotNumber }
  modifyRoot fun f => { f with totalFreePages := (f.totalFreePages + 1) % 2 ^ 32 }

/-- `remove_free_page`. The free slot number of the page stays as it is. A
page whose predecessor is neither the root page nor valid fails to load it. -/
def removeFreePage (cs : ColumnStore) (r : ℕ) (e : StorageError) : StoreProg Unit := do
  let p ← readPage r
  let slotNumber := p.freeSlotNumber
  let nextRef := p.nextFreePage
  let prevPage := if p.prevFreePage = some cs.rootPageRef then none
    else some (p.prevFreePage.getD invalidRef)
  loadLinked e prevPage
  loadLinked e nextRef
  modifyRoot fun f => if p.prevFreePage = some cs.rootPageRef
    then { f with slots := f.slots.set slotNumber nextRef } else f
  modifyLinked prevPage fun q => { q with nextFreePage := nextRef }
  modifyLinked nextRef fun q => { q with prevFreePage := p.prevFreePage }
  modifyPage r fun q => { q with prevFreePage := none, nextFreePage := none }
  modifyRoot fun f => { f with totalFreePages := (f.totalFreePages + 2 ^ 32 - 1) % 2 ^ 32 }

/-- `add_data_page`: the page becomes the head of the list of all pages. -/
def addDataPage (r : ℕ) (e : StorageError) : StoreProg Unit := do
  let s ← Prog.get
  let headRef := s.root.head
  loadLinked e headRef
  modifyRoot fun f => if headRef = none then { f with tail := some r } else f
  modifyLinked headRef fun p => { p with prev := some r }
  modifyPage r fun p => { p with prev := none, next := headRef }
  modifyRoot fun f => { f with head := some r }
  modifyRoot fun f => { f with totalDataPages := (f.totalDataPages + 1) % 2 ^ 32 }

/-- `get_free_slot`: the first empty slot, else a random one. -/
def getFreeSlot (rand : ℕ) (f : RootFrame) : ℕ :=
  (f.slots.findIdx? (·.isNone)).getD (getRandomSlot rand f.slots.length)

end RootPage

/-! ### The operations -/

namespace ColumnStore

open StoreProg

/-- What the surroundings decide for one insert: the numbers the generator
gives to the two page selections, how many inserts the store counts at once,
and the page the segment hands out if one is needed. -/
structure InsertEnv where
  rand : ℕ
  pessimisticRand : ℕ
  concurrency : ℕ
  newRef : ℕ
  deriving DecidableEq, Repr

/-- Whether `insert` grows the slot array. -/
def needGrow (cs : ColumnStore) (env : InsertEnv) (f : RootFrame) : Bool :=
  env.concurrency > f.slots.length ∧ f.slots.length < cs.root.maxFreeSlots

/-- A call on the primary root page, which only a store with another root page
makes. -/
def tickPrimary (cs : ColumnStore) (e : StorageError) : StoreProg Unit :=
  if cs.primaryRootPageRef ≠ cs.rootPageRef then tick e else pure ()

/-- A new data page from the store's segment, in the list of all pages and,
unless one record fills it, on the chain of the thread's slot. -/
def insertNewPage (cs : ColumnStore) (r : ℕ) : StoreProg Unit := do
  tickPrimary cs ⟨"insert: failed to load primary root page for segment", false⟩
  loadNew ⟨"insert: failed to allocate new data page", false⟩ cs r
  tickPrimary cs ⟨"insert: failed to release primary root page", false⟩
  modifyPage r (cs.data.format cs.rootPageRef)
  RootPage.addDataPage r ⟨"insert: failed to register new data page", true⟩
  let p ← readPage r
  let s ← Prog.get
  if DataPage.hasLastFreeSlot p then
    pure ()
  else
    RootPage.addFreePage cs r s.lastSlotInfo.slotNumber
      ⟨"insert: failed to register new data page", true⟩

/-- The page the record goes to, given the one selected under the exclusive
latch: where there is none a new one, and a page with one free record leaves
its chain. -/
def insertSelected (cs : ColumnStore) (env : InsertEnv) : Option ℕ → StoreProg ℕ
  | none => do
    insertNewPage cs env.newRef
    pure env.newRef
  | some r => do
    let p ← load ⟨"insert: failed to load data page", false⟩ r
    if DataPage.hasLastFreeSlot p then
      RootPage.removeFreePage cs r ⟨"insert: failed to remove full page from free list", true⟩
      pure r
    else
      pure r

/-- The pessimistic path of `insert`: the root page is latched exclusively and
the page selected again. -/
def insertPessimistic (cs : ColumnStore) (env : InsertEnv) (grow : Bool) : StoreProg ℕ := do
  tick ⟨"insert: failed to release root page", false⟩
  tick ⟨"insert: failed to load root page", false⟩
  modifyRoot fun f => if grow then cs.root.growFreeSlots f else f
  let dataPageRef ← RootPage.pageSelect cs env.pessimisticRand
  insertSelected cs env dataPageRef

/-- The optimistic path of `insert`, given the page selected under the shared
latch: a page that keeps a free record is used right away. -/
def insertOptimistic (cs : ColumnStore) (env : InsertEnv) : Option ℕ → StoreProg ℕ
  | none => insertPessimistic cs env false
  | some r => do
    let p ← load ⟨"insert: failed to load data page", false⟩ r
    if DataPage.hasLastFreeSlot p then
      tick ⟨"insert: failed to release data page", false⟩
      insertPessimistic cs env false
    else
      tick ⟨"insert: failed to release root page", false⟩
      pure r

/-- Steps 2 to 6 of `insert`: the page the record goes to. -/
def insertPage (cs : ColumnStore) (env : InsertEnv) : StoreProg ℕ := do
  tick ⟨"insert: failed to load root page", false⟩
  let dataPageRef ← RootPage.pageSelect cs env.rand
  let s ← Prog.get
  if needGrow cs env s.root then
    insertPessimistic cs env true
  else
    insertOptimistic cs env dataPageRef

/-- `ColumnStore::insert`; `none` is a null data pointer. -/
def insert (cs : ColumnStore) (env : InsertEnv) (trxRef : BitVec 64)
    (colData : Option (List (BitVec 8))) : StoreProg ℕ := do
  match colData with
  | none => Prog.fail ⟨"insert: NULL column data", true⟩
  | some data =>
    if data.length ≠ cs.root.columnSize then
      Prog.fail ⟨"insert: data size mismatch: size=" ++ toString data.length ++ ", expected=" ++
        toString cs.root.columnSize, true⟩
    else
      let r ← insertPage cs env
      cs.data.insert r trxRef data

/-- `ColumnStore::mark_delete`. -/
def markDelete (cs : ColumnStore) (trxRef : BitVec 64) (colRef : ℕ) (deleteMark : Bool) :
    StoreProg Unit := do
  let r := (DataPage.decodeColumnRef colRef).1
  let slotIndex := (DataPage.decodeColumnRef colRef).2
  let p ← load ⟨"mark_delete: failed to load data page", false⟩ r
  let recOffset := cs.data.getRecordOffset slotIndex
  let oldTrxRef := p.readInteger8 recOffset
  modifyPage r fun p => if deleteMark then DataPage.setRecordDelete p slotIndex
    else DataPage.setRecordUndelete p slotIndex
  modifyPage r fun p => if oldTrxRef = trxRef then p else p.writeInteger8 recOffset trxRef

/-- Step 5 of `purge`: where the page will go back to a free list, the root
page is latched before the data page. -/
def purgeRelatch (r : ℕ) (needPessimistic : Bool) : StoreProg Unit :=
  if needPessimistic then do
    tick ⟨"purge: failed to release data page", false⟩
    tick ⟨"purge: failed to load root page", false⟩
    loadLinked ⟨"purge: failed to reload data page", false⟩ (some r)
  else pure ()

/-- `ColumnStore::purge`; `rand` is the number the generator gives if the page
goes to a random slot. -/
def purge (cs : ColumnStore) (rand : ℕ) (trxRef : BitVec 64) (colRef : ℕ) : StoreProg Unit := do
  let r := (DataPage.decodeColumnRef colRef).1
  let slotIndex := (DataPage.decodeColumnRef colRef).2
  let p ← load ⟨"purge: failed to load data page", false⟩ r
  let needPessimistic := DataPage.needsAddToFreeList p true
  purgeRelatch r needPessimistic
  let res ← Prog.ofOption
    ⟨"purge: failed on page " ++ toString r ++ " slot " ++ toString slotIndex, true⟩
    (cs.data.purge slotIndex trxRef p)
  modifyPage r fun _ => res.1
  let s ← Prog.get
  if needPessimistic ∧ res.2 ∧ DataPage.needsAddToFreeList res.1 false then
    RootPage.addFreePage cs r (RootPage.getFreeSlot rand s.root)
      ⟨"purge: failed to add page " ++ toString r ++ " to free list", true⟩
  else
    pure ()

/-! ### Runs -/

/-- The calls a store serves. -/
inductive Call where
  | insert (env : InsertEnv) (trxRef : BitVec 64) (colData : Option (List (BitVec 8)))
  | markDelete (trxRef : BitVec 64) (colRef : ℕ) (deleteMark : Bool)
  | purge (rand : ℕ) (trxRef : BitVec 64) (colRef : ℕ)

/-- The outcome of a call, with the reference an insert returns. -/
def call (cs : ColumnStore) : Call → StoreProg (Option ℕ)
  | .insert env trxRef colData => some <$> cs.insert env trxRef colData
  | .markDelete trxRef colRef deleteMark => (fun _ => none) <$> cs.markDelete trxRef colRef deleteMark
  | .purge rand trxRef colRef => (fun _ => none) <$> cs.purge rand trxRef colRef

/-- A store after `RootPage::format`, in the hands of some thread. -/
def Fresh (s : Store) : Prop := s.root = RootFrame.format ∧ ∀ r, s.pages r = none

/-- One step of a run of successful calls, each allowed by `allow`. Before a
call the control can go to another thread, with its own `s_last_slot_info`,
and the page API to another schedule of failures. -/
inductive Step (cs : ColumnStore) (allow : Call → Store → Prop) : Store → Store → Prop
  | switch (s : Store) (info : LastSlotInfo) (faults : List Bool) :
    Step cs allow s { s with lastSlotInfo := info, faults := faults }
  | call {s s' : Store} (c : Call) (res : Option ℕ) : allow c s → cs.call c s = (.ok res, s') →
    Step cs allow s s'

end ColumnStore

end VsqlVector
