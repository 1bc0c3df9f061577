/-
# The bytes of a root page

A root page (`src/storage/root_page.h`) is a list of fields behind the segment
headers: version, type, metadata, the other root pages, the column size, the
ends of the list of data pages, two counters and the array of free slots. The
place of a field depends on the number of segments, the length of the
metadata and the number of other root pages, which are stored in the page, so
a reader finds them in three stages (`readPageInfo`, `RootPageParser.parse`).

`RootContents` is what a page stands for. `Stores` says that the bytes are
those fields of it; `format` establishes it, every change of the page keeps it
with the contents changed accordingly (`apply_stores`), and both readers get
the contents back (`root_page_readers`).

Key definitions: `RootPage.format`, `RootPage.readPageInfo`,
`RootPageParser.parse`, `RootContents`, `RootPage.Stores`.
Key theorems: `RootPage.stores_format`, `RootPage.apply_stores`,
`RootPage.root_page_readers`.
-/
import Mathlib
import VsqlVector.Lib.Bytes
import VsqlVector.Storage.ColumnStore

namespace VsqlVector

namespace RootPage

open Bytes

/-! ### Layout -/

/-- `RootPage::init` for pages of `pageSize` bytes. -/
def initSized (pageSize colLen numSegments numRootPages storageMetadataLen : ℕ) : RootPage where
  numSegments := numSegments
  numOtherRootPages := numRootPages - 1
  storageMetadataLen := storageMetadataLen
  columnSize := colLen
  maxFreeSlots :=
    min ((pageSize - freeSlotArrayOff numSegments storageMetadataLen (numRootPages - 1) -
      pageTrailerSize) / freeSlotLen % 2 ^ 16) 2048
  maxFreeSlots_le := Nat.min_le_right _ _

theorem init_eq_initSized (ps : PageSize) (colLen numSegments numRootPages storageMetadataLen : ℕ) :
    init ps colLen numSegments numRootPages storageMetadataLen =
      initSized ps.bytes colLen numSegments numRootPages storageMetadataLen := rfl

/-- `RootPage::set_layout` on a new object. -/
def setLayout (numSegments storageMetadataLen numOtherRootPages : ℕ) : RootPage :=
  ⟨numSegments, numOtherRootPages, storageMetadataLen, 0, 2048, le_rfl⟩

/-- `ColumnPageType::ROOT_PAGE`. -/
def rootPageType : ℕ := 1

section Offsets

variable (rp : RootPage)

def versionOff : ℕ := pageHeaderSize + 1 + 10 * rp.numSegments
def pageTypeOff : ℕ := rp.versionOff + 1
def storageMetadataLenOff : ℕ := rp.pageTypeOff + 1
def storageMetadataOff : ℕ := rp.storageMetadataLenOff + 1
def numOtherRootPagesOff : ℕ := rp.storageMetadataOff + rp.storageMetadataLen
def otherRootPagesOff : ℕ := rp.numOtherRootPagesOff + 1
def columnSizeOff : ℕ := rp.otherRootPagesOff + 4 * rp.numOtherRootPages
def allSlotHeadOff : ℕ := rp.columnSizeOff + 2
def allSlotTailOff : ℕ := rp.allSlotHeadOff + 4
def totalDataPagesOff : ℕ := rp.allSlotTailOff + 4
def totalFreePagesOff : ℕ := rp.totalDataPagesOff + 4
def freeSlotArrayMaxSizeOff : ℕ := rp.totalFreePagesOff + 4
def freeSlotArrayCurSizeOff : ℕ := rp.freeSlotArrayMaxSizeOff + 2

/-- `free_slot_array_off`. -/
def slotArrayOff : ℕ := rp.freeSlotArrayCurSizeOff + 2

theorem slotArrayOff_eq :
    rp.slotArrayOff = freeSlotArrayOff rp.numSegments rp.storageMetadataLen rp.numOtherRootPages := by
  unfold slotArrayOff freeSlotArrayCurSizeOff freeSlotArrayMaxSizeOff totalFreePagesOff totalDataPagesOff
    allSlotTailOff allSlotHeadOff columnSizeOff otherRootPagesOff numOtherRootPagesOff storageMetadataOff
    storageMetadataLenOff pageTypeOff versionOff freeSlotArrayOff
  omega

end Offsets

/-! ### The writers -/

/-- `RootPage::format`, with the layout it leaves: the number of segments is the
one in the page. -/
def format (rp : RootPage) (formatVersion : ℕ) (metadata : List (BitVec 8)) (f : Frame) :
    Option (RootPage × Frame) :=
  if rp.columnSize = 0 ∨ rp.maxFreeSlots = 0 ∨ metadata.length > 255 then none
  else
    let rp := { rp with numSegments := readNat f pageHeaderSize 1 }
    let f := store f rp.versionOff (encode 1 formatVersion)
    let f := store f rp.pageTypeOff (encode 1 rootPageType)
    let f := store f rp.storageMetadataLenOff (encode 1 metadata.length)
    let f := store f rp.storageMetadataOff metadata
    let f := store f rp.numOtherRootPagesOff (encode 1 rp.numOtherRootPages)
    let f := (List.range' 0 rp.numOtherRootPages).foldl
      (fun f i => store f (rp.otherRootPagesOff + 4 * i) (encode 4 invalidRef)) f
    let f := store f rp.columnSizeOff (encode 2 rp.columnSize)
    let f := store f rp.allSlotHeadOff (encode 4 invalidRef)
    let f := store f rp.allSlotTailOff (encode 4 invalidRef)
    let f := store f rp.freeSlotArrayMaxSizeOff (encode 2 rp.maxFreeSlots)
    let f := store f rp.freeSlotArrayCurSizeOff (encode 2 1)
    let f := store f rp.slotArrayOff (encode 4 invalidRef)
    some (rp, f)

/-- `RootPage::update_header`. -/
def updateHeader (rp : RootPage) (metadata : List (BitVec 8)) (f : Frame) : Option Frame :=
  if metadata.length ≠ rp.storageMetadataLen then none else some (store f rp.storageMetadataOff metadata)

/-- The write of `MultiColumnStore::init_root_page` to the primary root page. -/
def writeRootRef (rp : RootPage) (rootIdx : ℕ) (ref : BitVec 32) (f : Frame) : Frame :=
  store f (rp.otherRootPagesOff + 4 * (rootIdx - 1)) (encode 4 ref.toNat)

/-- `RootPage::grow_free_slots`. -/
def growSlots (rp : RootPage) (f : Frame) : Frame :=
  let cur := readNat f rp.freeSlotArrayCurSizeOff 2
  let new := min (cur + min cur maxFreeSlotStep) rp.maxFreeSlots
  let f := (List.range' cur (new - cur)).foldl
    (fun f i => store f (rp.slotArrayOff + 4 * i) (encode 4 invalidRef)) f
  store f rp.freeSlotArrayCurSizeOff (encode 2 new)

/-- A counter of 32 bits, moved by `by'`. -/
def bump (off by' : ℕ) (f : Frame) : Frame := store f off (encode 4 (readNat f off 4 + by'))

/-- What `RootPage::add_free_page` writes to the root page. -/
def addFree (rp : RootPage) (r : BitVec 32) (slotNumber : ℕ) (f : Frame) : Frame :=
  bump rp.totalFreePagesOff 1 (store f (rp.slotArrayOff + 4 * slotNumber) (encode 4 r.toNat))

/-- What `RootPage::remove_free_page` writes to the root page: `atHead` if the
page is the head of its slot's chain. -/
def removeFree (rp : RootPage) (slotNumber : ℕ) (atHead : Bool) (next : BitVec 32) (f : Frame) : Frame :=
  bump rp.totalFreePagesOff (2 ^ 32 - 1)
    (if atHead then store f (rp.slotArrayOff + 4 * slotNumber) (encode 4 next.toNat) else f)

/-- What `RootPage::add_data_page` writes to the root page. -/
def addData (rp : RootPage) (r : BitVec 32) (f : Frame) : Frame :=
  let f' := if readNat f rp.allSlotHeadOff 4 = invalidRef then store f rp.allSlotTailOff (encode 4 r.toNat)
    else f
  bump rp.totalDataPagesOff 1 (store f' rp.allSlotHeadOff (encode 4 r.toNat))

/-- What `RootPage::remove_data_page` writes to the root page. -/
def removeData (rp : RootPage) (prev next : BitVec 32) (f : Frame) : Frame :=
  let f := if prev.toNat = invalidRef then store f rp.allSlotHeadOff (encode 4 next.toNat) else f
  let f := if next.toNat = invalidRef then store f rp.allSlotTailOff (encode 4 prev.toNat) else f
  bump rp.totalDataPagesOff (2 ^ 32 - 1) f

/-! ### The readers -/

/-- `RootPage::read_metadata`. -/
def readMetadata (rp : RootPage) (f : Frame) : List (BitVec 8) :=
  slice f rp.storageMetadataOff (readNat f rp.storageMetadataLenOff 1)

/-- The `PageInfo` of `MultiColumnStore::load`. -/
structure PageInfo where
  numSegs : ℕ
  numOtherRootPages : ℕ
  colLen : ℕ
  metadata : List (BitVec 8)
  rp : RootPage

/-- `read_page_info` of `MultiColumnStore::load`. Each stage reads what places
the next field. -/
def readPageInfo (f : Frame) : PageInfo :=
  let ns := readNat f pageHeaderSize 1
  let rp := setLayout ns 0 1
  let ml := readNat f rp.storageMetadataLenOff 1
  let rp := setLayout ns ml 1
  let nrp := readNat f rp.numOtherRootPagesOff 1
  let rp := setLayout ns ml nrp
  ⟨ns, nrp, readNat f rp.columnSizeOff 2, rp.readMetadata f, rp⟩

/-- The references of the other root pages that `MultiColumnStore::load`
collects. -/
def readOtherRefs (info : PageInfo) (f : Frame) : List ℕ :=
  (List.range info.numOtherRootPages).map fun i => readNat f (info.rp.otherRootPagesOff + 4 * i) 4

end RootPage

/-! ### The dump tool's parser -/

/-- `RootPageParser::RootPageInfo`. -/
structure RootPageInfo where
  version : ℕ
  pageType : ℕ
  storageMetadata : List (BitVec 8)
  storageMetadataRaw : List (BitVec 8)
  numRootPages : ℕ
  otherRootPageRefs : List ℕ
  columnSize : ℕ
  allSlotHead : ℕ
  allSlotTail : ℕ
  totalDataPages : ℕ
  totalFreePages : ℕ
  freeSlotArrayMaxSize : ℕ
  freeSlotArrayCurSize : ℕ
  freeSlots : List ℕ
  deriving DecidableEq, Repr

namespace RootPageParser

open Bytes RootPage

/-- `read_string`: up to the first NUL. -/
def readString (f : Frame) (offset length : ℕ) : List (BitVec 8) :=
  (slice f offset length).takeWhile (· ≠ 0)

/-- The slots from the first on, until one does not fit the page. -/
def readSlots (size slotArrayOff : ℕ) (f : Frame) (i : ℕ) : ℕ → Except String (List ℕ)
  | 0 => .ok []
  | n + 1 =>
    let offset := slotArrayOff + i * 4
    if offset + 4 > size then .error "Free slot array extends beyond page boundary"
    else (readSlots size slotArrayOff f (i + 1) n).map (readNat f offset 4 :: ·)

/-- `RootPageParser::parse` of a page of `size` bytes. -/
def parse (size : ℕ) (f : Frame) : Except String RootPageInfo :=
  let tooSmall := "Page too small to contain root page header"
  if size ≤ pageHeaderSize then .error tooSmall
  else
    let ns := readNat f pageHeaderSize 1
    let rp := setLayout ns 0 1
    if size ≤ rp.storageMetadataLenOff then .error tooSmall
    else
      let ml := readNat f rp.storageMetadataLenOff 1
      let rp := setLayout ns ml 1
      if size ≤ rp.numOtherRootPagesOff then .error tooSmall
      else
        let nrp := readNat f rp.numOtherRootPagesOff 1
        let rp := setLayout ns ml nrp
        if size < rp.slotArrayOff then .error tooSmall
        else
          let pageType := readNat f rp.pageTypeOff 1
          let cur := readNat f rp.freeSlotArrayCurSizeOff 2
          if pageType ≠ rootPageType then
            .error ("Invalid page type: expected ROOT_PAGE (1), got " ++ toString pageType)
          else
            (readSlots size rp.slotArrayOff f 0 cur).map fun freeSlots =>
              { version := readNat f rp.versionOff 1
                pageType := pageType
                storageMetadata := readString f rp.storageMetadataOff ml
                storageMetadataRaw := slice f rp.storageMetadataOff ml
                numRootPages := (nrp + 1) % 2 ^ 8
                otherRootPageRefs :=
                  (List.range nrp).map fun i => readNat f (rp.otherRootPagesOff + i * 4) 4
                columnSize := readNat f rp.columnSizeOff 2
                allSlotHead := readNat f rp.allSlotHeadOff 4
                allSlotTail := readNat f rp.allSlotTailOff 4
                totalDataPages := readNat f rp.totalDataPagesOff 4
                totalFreePages := readNat f rp.totalFreePagesOff 4
                freeSlotArrayMaxSize := readNat f rp.freeSlotArrayMaxSizeOff 2
                freeSlotArrayCurSize := cur
                freeSlots := freeSlots }

end RootPageParser

/-! ### What a root page stands for -/

/-- The contents of a root page that change after `init`. -/
structure RootContents where
  metadata : List (BitVec 8)
  otherRefs : List (BitVec 32)
  head : BitVec 32
  tail : BitVec 32
  totalDataPages : BitVec 32
  totalFreePages : BitVec 32
  slots : List (BitVec 32)
  deriving DecidableEq, Repr

/-- `INVALID_REF` as the page holds it. -/
def noRef : BitVec 32 := BitVec.ofNat 32 invalidRef

/-- The contents `format` starts with: no other root page, no data page and one
empty slot. -/
def RootContents.format (metadata : List (BitVec 8)) (numOtherRootPages : ℕ) : RootContents :=
  ⟨metadata, List.replicate numOtherRootPages noRef, noRef, noRef, 0, 0, [noRef]⟩

/-- The changes of a root page. -/
inductive RootOp where
  | updateHeader (metadata : List (BitVec 8))
  | writeRootRef (rootIdx : ℕ) (ref : BitVec 32)
  | growSlots
  | addFree (r : BitVec 32) (slotNumber : ℕ)
  | removeFree (slotNumber : ℕ) (atHead : Bool) (next : BitVec 32)
  | addData (r : BitVec 32)
  | removeData (prev next : BitVec 32)

namespace RootOp

/-- The bytes after a change. A header of another length is refused. -/
def apply (rp : RootPage) (f : Frame) : RootOp → Frame
  | updateHeader metadata => (rp.updateHeader metadata f).getD f
  | writeRootRef rootIdx ref => rp.writeRootRef rootIdx ref f
  | growSlots => rp.growSlots f
  | addFree r slotNumber => rp.addFree r slotNumber f
  | removeFree slotNumber atHead next => rp.removeFree slotNumber atHead next f
  | addData r => rp.addData r f
  | removeData prev next => rp.removeData prev next f

/-- The contents after a change. -/
def applyTo (rp : RootPage) (c : RootContents) : RootOp → RootContents
  | updateHeader metadata =>
    if metadata.length = rp.storageMetadataLen then { c with metadata := metadata } else c
  | writeRootRef rootIdx ref => { c with otherRefs := c.otherRefs.set (rootIdx - 1) ref }
  | growSlots =>
    let new := min (c.slots.length + min c.slots.length RootPage.maxFreeSlotStep) rp.maxFreeSlots
    { c with slots := c.slots ++ List.replicate (new - c.slots.length) noRef }
  | addFree r slotNumber =>
    { c with slots := c.slots.set slotNumber r, totalFreePages := c.totalFreePages + 1 }
  | removeFree slotNumber atHead next =>
    { c with slots := if atHead then c.slots.set slotNumber next else c.slots,
             totalFreePages := c.totalFreePages - 1 }
  | addData r =>
    { c with tail := if c.head = noRef then r else c.tail, head := r,
             totalDataPages := c.totalDataPages + 1 }
  | removeData prev next =>
    { c with head := if prev = noRef then next else c.head,
             tail := if next = noRef then prev else c.tail,
             totalDataPages := c.totalDataPages - 1 }

/-- The other root page and the slot a change names are there. -/
def Allowed (c : RootContents) : RootOp → Prop
  | writeRootRef rootIdx _ => 1 ≤ rootIdx ∧ rootIdx ≤ c.otherRefs.length
  | addFree _ slotNumber => slotNumber < c.slots.length
  | removeFree slotNumber _ _ => slotNumber < c.slots.length
  | _ => True

end RootOp

namespace RootPage

open Bytes

/-! ### Fields -/

/-- The offsets of the fields behind the segment headers. -/
def offsets (rp : RootPage) : List ℕ :=
  [rp.versionOff, rp.pageTypeOff, rp.storageMetadataLenOff, rp.storageMetadataOff, rp.numOtherRootPagesOff,
    rp.otherRootPagesOff, rp.columnSizeOff, rp.allSlotHeadOff, rp.allSlotTailOff, rp.totalDataPagesOff,
    rp.totalFreePagesOff, rp.freeSlotArrayMaxSizeOff, rp.freeSlotArrayCurSizeOff, rp.slotArrayOff]

/-- Their lengths, with `n` free slots. -/
def widths (rp : RootPage) (n : ℕ) : List ℕ :=
  [1, 1, 1, rp.storageMetadataLen, 1, 4 * rp.numOtherRootPages, 2, 4, 4, 4, 4, 2, 2, 4 * n]

theorem length_offsets (rp : RootPage) : rp.offsets.length = 14 := rfl

theorem length_widths (rp : RootPage) (n : ℕ) : (rp.widths n).length = 14 := rfl

/-- A field stands where the ones before it end. -/
theorem offsets_eq (rp : RootPage) (n : ℕ) {k : ℕ} (hk : k < rp.offsets.length) :
    rp.offsets[k] = rp.versionOff + ((rp.widths n).take k).sum := by
  rw [length_offsets] at hk
  interval_cases k <;>
    simp [offsets, widths, slotArrayOff, freeSlotArrayCurSizeOff, freeSlotArrayMaxSizeOff,
      totalFreePagesOff, totalDataPagesOff, allSlotTailOff, allSlotHeadOff, columnSizeOff, otherRootPagesOff,
      numOtherRootPagesOff, storageMetadataOff, storageMetadataLenOff, pageTypeOff, Nat.add_assoc] <;>
    omega

/-- The fields `fs` stand on the page behind the segment count. -/
structure Laid (rp : RootPage) (n : ℕ) (fs : List (List (BitVec 8))) (f : Frame) : Prop where
  segments : At f pageHeaderSize (encode 1 rp.numSegments)
  fields : At f rp.versionOff fs.flatten
  widths : fs.map List.length = rp.widths n

section Laid

variable {rp : RootPage} {n : ℕ} {fs : List (List (BitVec 8))} {f : Frame} {d : List (BitVec 8)}

theorem Laid.length (h : Laid rp n fs f) : fs.length = 14 := by
  have := congrArg List.length h.widths
  rwa [List.length_map, length_widths] at this

theorem Laid.getD_length (h : Laid rp n fs f) (k : ℕ) : (fs.getD k []).length = (rp.widths n).getD k 0 := by
  rw [← h.widths]
  rcases Nat.lt_or_ge k fs.length with hk | hk
  · simp [List.getD_eq_getElem?_getD, hk]
  · simp [List.getD_eq_getElem?_getD, hk]

theorem offsets_getD (rp : RootPage) (n : ℕ) {k : ℕ} (hk : k < 14) :
    rp.offsets.getD k 0 = rp.versionOff + ((rp.widths n).take k).sum := by
  rw [← offsets_eq rp n (k := k) hk, List.getD_eq_getElem _ _ hk]

/-- A field can be read at its offset. -/
theorem Laid.read (h : Laid rp n fs f) (k : ℕ) (hk : k < 14) : At f (rp.offsets.getD k 0) (fs.getD k []) := by
  have hk' : k < fs.length := h.length.symm ▸ hk
  rw [offsets_getD rp n hk, ← h.widths, List.getD_eq_getElem _ _ hk']
  exact at_of_fields h.fields hk'

theorem header_lt_versionOff (rp : RootPage) : pageHeaderSize + 1 ≤ rp.versionOff := Nat.le_add_right _ _

/-- Writing inside a field. -/
theorem Laid.write (h : Laid rp n fs f) (k : ℕ) (hk : k < 14) (j : ℕ)
    (hj : j + d.length ≤ (rp.widths n).getD k 0) :
    Laid rp n (fs.set k (splice (fs.getD k []) j d)) (store f (rp.offsets.getD k 0 + j) d) := by
  have hk' : k < fs.length := h.length.symm ▸ hk
  have hlen := h.getD_length k
  rw [← hlen] at hj
  rw [List.getD_eq_getElem _ _ hk'] at hj hlen ⊢
  refine ⟨?_, ?_, ?_⟩
  · rw [at_store_of_disjoint]
    · exact h.segments
    · have := header_lt_versionOff rp
      rw [offsets_getD rp n hk, length_encode]
      omega
  · rw [offsets_getD rp n hk, ← h.widths]
    exact at_store_field h.fields hk' hj
  · rw [List.map_set, length_splice hj, hlen, ← h.widths]
    apply List.ext_getElem (by simp)
    intro i h1 h2
    rw [List.getElem_set]
    split
    · rename_i hki
      subst hki
      exact List.getD_eq_getElem _ _ h2
    · rfl

/-- Writing a whole field. -/
theorem Laid.put (h : Laid rp n fs f) (k : ℕ) (hk : k < 14) (hd : d.length = (rp.widths n).getD k 0) :
    Laid rp n (fs.set k d) (store f (rp.offsets.getD k 0) d) := by
  have := h.write k hk 0 (d := d) (by omega)
  rwa [splice_full (hd.trans (h.getD_length k).symm)] at this

theorem slotArrayOff_widths (rp : RootPage) (n : ℕ) :
    rp.slotArrayOff = rp.versionOff + ((rp.widths n).take 13).sum := offsets_getD rp n (k := 13) (by norm_num)

/-- Writing behind the slots makes the array longer. -/
theorem Laid.extend (h : Laid rp n fs f) {m : ℕ} (hd : d.length = 4 * m) :
    Laid rp (n + m) (fs.set 13 (fs.getD 13 [] ++ d)) (store f (rp.slotArrayOff + 4 * n) d) := by
  have hlen := h.length
  have hk : 13 < fs.length := by omega
  have h13 := h.getD_length 13
  rw [List.getD_eq_getElem _ _ hk] at h13 ⊢
  have hlast : fs.flatten.length = ((rp.widths n).take 13).sum + 4 * n := by
    rw [List.length_flatten, h.widths]
    simp [RootPage.widths]
    omega
  have hoff : rp.slotArrayOff + 4 * n = rp.versionOff + fs.flatten.length := by
    rw [hlast, ← Nat.add_assoc, ← slotArrayOff_widths]
  have hflat : (fs.set 13 (fs[13] ++ d)).flatten = fs.flatten ++ d := by
    have hdrop : fs.drop 14 = [] := List.drop_eq_nil_of_le hlen.le
    conv_rhs => rw [← List.take_append_drop 13 fs, List.flatten_append, List.drop_eq_getElem_cons hk, hdrop]
    rw [List.set_eq_take_append_cons_drop, if_pos hk, hdrop]
    simp
  refine ⟨?_, ?_, ?_⟩
  · rw [at_store_of_disjoint]
    · exact h.segments
    · have := header_lt_versionOff rp
      rw [hoff, length_encode]
      omega
  · rw [hflat, at_append, hoff]
    refine ⟨?_, at_store_self⟩
    rw [at_store_of_disjoint (Or.inl le_rfl)]
    exact h.fields
  · rw [List.map_set, h.widths, List.length_append, h13, hd]
    show _ = rp.widths (n + m)
    rw [show rp.widths (n + m) = (rp.widths n).set 13 (4 * (n + m)) from rfl, Nat.mul_add]
    rfl

end Laid

/-- A page reference or counter, as the page holds it. -/
def encodeRef (r : BitVec 32) : List (BitVec 8) := encode 4 r.toNat

@[simp] theorem length_encodeRef (r : BitVec 32) : (encodeRef r).length = 4 := length_encode 4 _

theorem decode_encodeRef (r : BitVec 32) : decode (encodeRef r) = r.toNat :=
  decode_encode_of_lt (n := 4) r.isLt

/-- A loop that writes `INVALID_REF` to the elements of an array. -/
theorem store_noRefs (o k n : ℕ) (f : Frame) :
    (List.range' k n).foldl (fun f i => store f (o + 4 * i) (encode 4 invalidRef)) f =
      store f (o + 4 * k) ((List.replicate n noRef).flatMap encodeRef) :=
  foldl_store_array length_encodeRef noRef n k f

/-- The fields of a page with the contents `c`. -/
def fields (rp : RootPage) (version : ℕ) (c : RootContents) : List (List (BitVec 8)) :=
  [encode 1 version, encode 1 rootPageType, encode 1 rp.storageMetadataLen, c.metadata,
    encode 1 rp.numOtherRootPages, c.otherRefs.flatMap encodeRef, encode 2 rp.columnSize, encodeRef c.head,
    encodeRef c.tail, encodeRef c.totalDataPages, encodeRef c.totalFreePages, encode 2 rp.maxFreeSlots,
    encode 2 c.slots.length, c.slots.flatMap encodeRef]

/-- The bytes of a page are those of the contents `c`, which have the size the
layout gives them. -/
structure Stores (rp : RootPage) (version : ℕ) (c : RootContents) (f : Frame) : Prop where
  laid : Laid rp c.slots.length (rp.fields version c) f
  metadata : c.metadata.length = rp.storageMetadataLen
  otherRefs : c.otherRefs.length = rp.numOtherRootPages
  pos : 0 < c.slots.length
  slots : c.slots.length ≤ rp.maxFreeSlots

theorem fields_widths {rp : RootPage} {version : ℕ} {c : RootContents}
    (hm : c.metadata.length = rp.storageMetadataLen) (ho : c.otherRefs.length = rp.numOtherRootPages) :
    (rp.fields version c).map List.length = rp.widths c.slots.length := by
  simp [fields, widths, hm, ho, length_flatMap_const length_encodeRef]

/-! ### Format -/

/-- A page as the server hands it out: the segment count in place, and nothing
behind the segment headers. -/
structure Blank (numSegments pageSize : ℕ) (f : Frame) : Prop where
  segments : At f pageHeaderSize (encode 1 numSegments)
  zero : ∀ i, pageHeaderSize + 1 + 10 * numSegments ≤ i → i < pageSize - pageTrailerSize → f i = 0

theorem laid_blank {rp : RootPage} {pageSize : ℕ} {f : Frame} (h : Blank rp.numSegments pageSize f) {n : ℕ}
    (hfit : rp.slotArrayOff + 4 * n ≤ pageSize - pageTrailerSize) :
    Laid rp n ((rp.widths n).map fun w => List.replicate w 0) f where
  segments := h.segments
  fields := by
    have hlen : (((rp.widths n).map fun w => List.replicate w (0 : BitVec 8)).flatten).length =
        ((rp.widths n).take 13).sum + 4 * n := by
      simp [widths]
      omega
    have hoff := slotArrayOff_widths rp n
    rw [at_iff]
    intro i hi
    have hz : (((rp.widths n).map fun w => List.replicate w (0 : BitVec 8)).flatten)[i] = 0 := by
      have hmem := List.getElem_mem hi
      rw [List.mem_flatten] at hmem
      obtain ⟨l, hl, hil⟩ := hmem
      rw [List.mem_map] at hl
      obtain ⟨w, -, rfl⟩ := hl
      exact List.eq_of_mem_replicate hil
    rw [hz]
    apply h.zero
    · show rp.versionOff ≤ _
      omega
    · omega
  widths := by simp [Function.comp_def]

theorem fields_format (rp : RootPage) (version : ℕ) (metadata : List (BitVec 8)) :
    rp.fields version (RootContents.format metadata rp.numOtherRootPages) =
      [encode 1 version, encode 1 rootPageType, encode 1 rp.storageMetadataLen, metadata,
        encode 1 rp.numOtherRootPages, (List.replicate rp.numOtherRootPages noRef).flatMap encodeRef,
        encode 2 rp.columnSize, encode 4 invalidRef, encode 4 invalidRef, List.replicate 4 0,
        List.replicate 4 0, encode 2 rp.maxFreeSlots, encode 2 1, encode 4 invalidRef] := by
  have hzero : encodeRef 0#32 = [0#8, 0#8, 0#8, 0#8] := by decide
  have hnone : encodeRef noRef = encode 4 invalidRef := rfl
  simp [fields, RootContents.format, hzero, hnone]

/-- **Format** stores the first contents. -/
theorem stores_format {rp : RootPage} {pageSize version : ℕ} {metadata : List (BitVec 8)} {f : Frame}
    (hblank : Blank rp.numSegments pageSize f) (hseg : rp.numSegments < 256) (hcol : rp.columnSize ≠ 0)
    (hslots : rp.maxFreeSlots ≠ 0) (hmeta : metadata.length = rp.storageMetadataLen)
    (hlen : metadata.length ≤ 255) (hfit : rp.slotArrayOff + 4 * rp.maxFreeSlots ≤ pageSize - pageTrailerSize) :
    ∃ f', rp.format version metadata f = some (rp, f') ∧
      Stores rp version (RootContents.format metadata rp.numOtherRootPages) f' := by
  have hns : readNat f pageHeaderSize 1 = rp.numSegments := by
    rw [readNat_of_at hblank.segments]
    exact Nat.mod_eq_of_lt (by simpa using hseg)
  have hrp : { rp with numSegments := readNat f pageHeaderSize 1 } = rp := by rw [hns]
  unfold format
  rw [if_neg (by push Not; exact ⟨hcol, hslots, hlen⟩), hrp]
  refine ⟨_, rfl, ?_, hmeta, by simp [RootContents.format], by simp [RootContents.format],
    by simp [RootContents.format]; omega⟩
  rw [store_noRefs, hmeta]
  have h := laid_blank (n := 1) hblank (by omega)
  have h := h.put 0 (by norm_num) (length_encode 1 version)
  have h := h.put 1 (by norm_num) (length_encode 1 rootPageType)
  have h := h.put 2 (by norm_num) (length_encode 1 rp.storageMetadataLen)
  have h := h.put 3 (by norm_num) hmeta
  have h := h.put 4 (by norm_num) (length_encode 1 rp.numOtherRootPages)
  have h := h.put 5 (d := (List.replicate rp.numOtherRootPages noRef).flatMap encodeRef) (by norm_num)
    ((length_flatMap_const length_encodeRef _).trans (by rw [List.length_replicate]; rfl))
  have h := h.put 6 (by norm_num) (length_encode 2 rp.columnSize)
  have h := h.put 7 (by norm_num) (length_encode 4 invalidRef)
  have h := h.put 8 (by norm_num) (length_encode 4 invalidRef)
  have h := h.put 11 (by norm_num) (length_encode 2 rp.maxFreeSlots)
  have h := h.put 12 (by norm_num) (length_encode 2 1)
  rw [fields_format]
  exact h.put 13 (by norm_num) (length_encode 4 invalidRef)

/-! ### Changes -/

section Changes

variable {rp : RootPage} {version : ℕ} {c : RootContents} {f : Frame}

theorem Stores.setMetadata (h : Stores rp version c f) {metadata : List (BitVec 8)}
    (hm : metadata.length = rp.storageMetadataLen) :
    Stores rp version { c with metadata := metadata } (store f rp.storageMetadataOff metadata) :=
  ⟨h.laid.put 3 (by norm_num) hm, hm, h.otherRefs, h.pos, h.slots⟩

theorem Stores.setHead (h : Stores rp version c f) (r : BitVec 32) :
    Stores rp version { c with head := r } (store f rp.allSlotHeadOff (encode 4 r.toNat)) :=
  ⟨h.laid.put 7 (by norm_num) (length_encodeRef r), h.metadata, h.otherRefs, h.pos, h.slots⟩

theorem Stores.setTail (h : Stores rp version c f) (r : BitVec 32) :
    Stores rp version { c with tail := r } (store f rp.allSlotTailOff (encode 4 r.toNat)) :=
  ⟨h.laid.put 8 (by norm_num) (length_encodeRef r), h.metadata, h.otherRefs, h.pos, h.slots⟩

theorem Stores.setOtherRef (h : Stores rp version c f) {i : ℕ} (hi : i < c.otherRefs.length) (r : BitVec 32) :
    Stores rp version { c with otherRefs := c.otherRefs.set i r }
      (store f (rp.otherRootPagesOff + 4 * i) (encode 4 r.toNat)) := by
  have hin : 4 * i + (encodeRef r).length ≤ (rp.widths c.slots.length).getD 5 0 := by
    show 4 * i + (encodeRef r).length ≤ 4 * rp.numOtherRootPages
    have := h.otherRefs
    rw [length_encodeRef]
    omega
  have hlaid := h.laid.write 5 (by norm_num) (4 * i) hin
  rw [show (rp.fields version c).getD 5 [] = c.otherRefs.flatMap encodeRef from rfl,
    splice_flatMap length_encodeRef hi] at hlaid
  exact ⟨hlaid, h.metadata, by rw [List.length_set]; exact h.otherRefs, h.pos, h.slots⟩

theorem Stores.setSlot (h : Stores rp version c f) {i : ℕ} (hi : i < c.slots.length) (r : BitVec 32) :
    Stores rp version { c with slots := c.slots.set i r }
      (store f (rp.slotArrayOff + 4 * i) (encode 4 r.toNat)) := by
  have hin : 4 * i + (encodeRef r).length ≤ (rp.widths c.slots.length).getD 13 0 := by
    show 4 * i + (encodeRef r).length ≤ 4 * c.slots.length
    rw [length_encodeRef]
    omega
  have hlaid := h.laid.write 13 (by norm_num) (4 * i) hin
  rw [show (rp.fields version c).getD 13 [] = c.slots.flatMap encodeRef from rfl,
    splice_flatMap length_encodeRef hi] at hlaid
  have hlen : (c.slots.set i r).length = c.slots.length := List.length_set
  refine ⟨?_, h.metadata, h.otherRefs, by rw [hlen]; exact h.pos, by rw [hlen]; exact h.slots⟩
  show Laid rp (c.slots.set i r).length (rp.fields version { c with slots := c.slots.set i r }) _
  rw [hlen, show rp.fields version { c with slots := c.slots.set i r } =
    (rp.fields version c).set 13 ((c.slots.set i r).flatMap encodeRef) by simp [fields]]
  exact hlaid

/-- A counter is moved by reading it and writing it back. -/
theorem bump_eq {off k : ℕ} {v : BitVec 32} (h : At f off (encodeRef v)) :
    bump off k f = store f off (encode 4 (v + BitVec.ofNat 32 k).toNat) := by
  unfold bump
  rw [readNat_of_at h, encode_congr]
  have hv : v.toNat % 256 ^ 4 = v.toNat := Nat.mod_eq_of_lt v.isLt
  rw [hv, BitVec.toNat_add, BitVec.toNat_ofNat]
  omega

theorem Stores.bumpData (h : Stores rp version c f) (k : ℕ) :
    Stores rp version { c with totalDataPages := c.totalDataPages + BitVec.ofNat 32 k }
      (bump rp.totalDataPagesOff k f) := by
  have hat : At f rp.totalDataPagesOff (encodeRef c.totalDataPages) := h.laid.read 9 (by norm_num)
  rw [bump_eq hat]
  exact ⟨h.laid.put 9 (by norm_num) (length_encodeRef _), h.metadata, h.otherRefs, h.pos, h.slots⟩

theorem Stores.bumpFree (h : Stores rp version c f) (k : ℕ) :
    Stores rp version { c with totalFreePages := c.totalFreePages + BitVec.ofNat 32 k }
      (bump rp.totalFreePagesOff k f) := by
  have hat : At f rp.totalFreePagesOff (encodeRef c.totalFreePages) := h.laid.read 10 (by norm_num)
  rw [bump_eq hat]
  exact ⟨h.laid.put 10 (by norm_num) (length_encodeRef _), h.metadata, h.otherRefs, h.pos, h.slots⟩

/-- Counting down wraps like counting up by the largest number. -/
theorem sub_one_eq (v : BitVec 32) : v - 1 = v + BitVec.ofNat 32 (2 ^ 32 - 1) := BitVec.sub_eq_add_neg v 1

theorem readNat_encodeRef {off : ℕ} {r : BitVec 32} (h : At f off (encodeRef r)) :
    readNat f off 4 = r.toNat := by
  rw [readNat_of_at h]
  exact Nat.mod_eq_of_lt r.isLt

theorem Stores.readHead (h : Stores rp version c f) : readNat f rp.allSlotHeadOff 4 = c.head.toNat :=
  readNat_encodeRef (h.laid.read 7 (by norm_num))

theorem Stores.readCurSize (h : Stores rp version c f) :
    readNat f rp.freeSlotArrayCurSizeOff 2 = c.slots.length := by
  have hat : At f rp.freeSlotArrayCurSizeOff (encode 2 c.slots.length) := h.laid.read 12 (by norm_num)
  have h1 := h.slots
  have h2 := rp.maxFreeSlots_le
  rw [readNat_of_at hat]
  exact Nat.mod_eq_of_lt (by omega)

theorem toNat_eq_invalidRef {r : BitVec 32} : r.toNat = invalidRef ↔ r = noRef := by
  constructor
  · intro h
    exact BitVec.eq_of_toNat_eq (h.trans rfl)
  · rintro rfl
    rfl

/-- `grow_free_slots` makes the array longer. -/
theorem Stores.growSlots (h : Stores rp version c f) :
    Stores rp version (RootOp.growSlots.applyTo rp c) (rp.growSlots f) := by
  unfold RootPage.growSlots RootOp.applyTo
  dsimp only
  rw [h.readCurSize, store_noRefs]
  set new := min (c.slots.length + min c.slots.length maxFreeSlotStep) rp.maxFreeSlots with hnew
  have h1 := h.slots
  have hle : c.slots.length ≤ new := by omega
  set more := List.replicate (new - c.slots.length) noRef with hmore
  have hlen : (c.slots ++ more).length = new := by
    rw [List.length_append, hmore, List.length_replicate]
    omega
  have hext := h.laid.extend (m := new - c.slots.length) (d := more.flatMap encodeRef)
    ((length_flatMap_const length_encodeRef _).trans (by rw [hmore, List.length_replicate]))
  rw [Nat.add_sub_cancel' hle] at hext
  have hput := hext.put 12 (by norm_num) (length_encode 2 new)
  refine ⟨?_, h.metadata, h.otherRefs, by rw [hlen]; exact h.pos.trans_le hle, by rw [hlen]; omega⟩
  show Laid rp (c.slots ++ more).length (rp.fields version { c with slots := c.slots ++ more }) _
  rw [hlen, show rp.fields version { c with slots := c.slots ++ more } =
    ((rp.fields version c).set 13 ((rp.fields version c).getD 13 [] ++ more.flatMap encodeRef)).set 12
      (encode 2 new) by simp only [fields, hlen, List.flatMap_append]; rfl]
  exact hput

/-- The ends of the list of data pages without a page that has `prev` and `next`
next to it. -/
theorem Stores.dropEnds (h : Stores rp version c f) (prev next : BitVec 32) :
    let f1 := if prev.toNat = invalidRef then store f rp.allSlotHeadOff (encode 4 next.toNat) else f
    Stores rp version
      { c with head := if prev = noRef then next else c.head, tail := if next = noRef then prev else c.tail }
      (if next.toNat = invalidRef then store f1 rp.allSlotTailOff (encode 4 prev.toNat) else f1) := by
  simp only [toNat_eq_invalidRef]
  by_cases hprev : prev = noRef <;> by_cases hnext : next = noRef <;>
    simp only [hprev, hnext, if_true, if_false]
  · exact (h.setHead noRef).setTail noRef
  · exact h.setHead next
  · exact h.setTail prev
  · exact h

/-- **Every change keeps the layout** and changes the contents it is about. -/
theorem apply_stores (h : Stores rp version c f) {op : RootOp} (hop : op.Allowed c) :
    Stores rp version (op.applyTo rp c) (op.apply rp f) := by
  cases op with
  | updateHeader metadata =>
    unfold RootOp.apply RootOp.applyTo updateHeader
    by_cases hm : metadata.length = rp.storageMetadataLen
    · simp only [hm, ne_eq, not_true_eq_false, if_false, if_true, Option.getD_some]
      exact h.setMetadata hm
    · simpa [hm] using h
  | writeRootRef rootIdx ref =>
    exact h.setOtherRef (Nat.sub_one_lt_of_le hop.1 hop.2) ref
  | growSlots => exact h.growSlots
  | addFree r slotNumber => exact (h.setSlot hop r).bumpFree 1
  | removeFree slotNumber atHead next =>
    unfold RootOp.apply RootOp.applyTo removeFree
    rw [sub_one_eq]
    cases atHead with
    | false => exact h.bumpFree (2 ^ 32 - 1)
    | true => exact (h.setSlot hop next).bumpFree (2 ^ 32 - 1)
  | addData r =>
    unfold RootOp.apply RootOp.applyTo addData
    simp only [h.readHead, toNat_eq_invalidRef]
    by_cases hhead : c.head = noRef
    · simp only [hhead, if_true]
      exact ((h.setTail r).setHead r).bumpData 1
    · simp only [hhead, if_false]
      exact (h.setHead r).bumpData 1
  | removeData prev next =>
    have hdrop := (h.dropEnds prev next).bumpData (2 ^ 32 - 1)
    rw [← sub_one_eq] at hdrop
    exact hdrop

end Changes

/-! ### Reading a page back -/

/-- What the parser returns for a page with the contents `c`. -/
def info (rp : RootPage) (version : ℕ) (c : RootContents) : RootPageInfo where
  version := version
  pageType := rootPageType
  storageMetadata := c.metadata.takeWhile (· ≠ 0)
  storageMetadataRaw := c.metadata
  numRootPages := rp.numOtherRootPages + 1
  otherRootPageRefs := c.otherRefs.map (·.toNat)
  columnSize := rp.columnSize
  allSlotHead := c.head.toNat
  allSlotTail := c.tail.toNat
  totalDataPages := c.totalDataPages.toNat
  totalFreePages := c.totalFreePages.toNat
  freeSlotArrayMaxSize := rp.maxFreeSlots
  freeSlotArrayCurSize := c.slots.length
  freeSlots := c.slots.map (·.toNat)

/-- The bounds of the types in `RootPage`: the numbers of segments and other
root pages and the metadata length are bytes, the column size has 16 bits. -/
structure Bounded (rp : RootPage) : Prop where
  numSegments : rp.numSegments < 256
  storageMetadataLen : rp.storageMetadataLen < 256
  numOtherRootPages : rp.numOtherRootPages < 255
  columnSize : rp.columnSize < 2 ^ 16

section Readers

variable {rp : RootPage} {version pageSize : ℕ} {c : RootContents} {f : Frame}

theorem readNat_encode {o n v : ℕ} (h : At f o (encode n v)) (hv : v < 256 ^ n) : readNat f o n = v := by
  rw [readNat_of_at h, Nat.mod_eq_of_lt hv]

theorem map_readNat_array {o : ℕ} {xs : List (BitVec 32)} (h : At f o (xs.flatMap encodeRef)) :
    (List.range xs.length).map (fun i => readNat f (o + 4 * i) 4) = xs.map (·.toNat) := by
  rw [at_flatMap_iff length_encodeRef] at h
  apply List.ext_getElem (by simp)
  intro i h1 h2
  rw [List.length_map] at h2
  simp only [List.getElem_map, List.getElem_range]
  exact readNat_encodeRef (h i h2)

section Stages

variable (h : Stores rp version c f) (hb : rp.Bounded)
include h hb

/-- The three stages find the layout. -/
theorem Stores.stages :
    readNat f pageHeaderSize 1 = rp.numSegments ∧
    readNat f (setLayout rp.numSegments 0 1).storageMetadataLenOff 1 = rp.storageMetadataLen ∧
    readNat f (setLayout rp.numSegments rp.storageMetadataLen 1).numOtherRootPagesOff 1 =
      rp.numOtherRootPages := by
  have hlen : At f rp.storageMetadataLenOff (encode 1 rp.storageMetadataLen) := h.laid.read 2 (by norm_num)
  have hnum : At f rp.numOtherRootPagesOff (encode 1 rp.numOtherRootPages) := h.laid.read 4 (by norm_num)
  have hk := hb.numOtherRootPages
  exact ⟨readNat_encode h.laid.segments hb.numSegments, readNat_encode hlen hb.storageMetadataLen,
    readNat_encode hnum (by omega)⟩

theorem Stores.readColumnSize : readNat f rp.columnSizeOff 2 = rp.columnSize :=
  readNat_encode (h.laid.read 6 (by norm_num)) hb.columnSize

omit hb in
theorem Stores.slice_metadata : slice f rp.storageMetadataOff rp.storageMetadataLen = c.metadata := by
  have hat : At f rp.storageMetadataOff c.metadata := h.laid.read 3 (by norm_num)
  unfold At at hat
  rwa [h.metadata] at hat

omit hb in
theorem Stores.map_otherRefs :
    (List.range rp.numOtherRootPages).map (fun i => readNat f (rp.otherRootPagesOff + 4 * i) 4) =
      c.otherRefs.map (·.toNat) := by
  rw [← h.otherRefs]
  exact map_readNat_array (h.laid.read 5 (by norm_num))

/-- **Load** gets the layout, the metadata and the references back. -/
theorem Stores.readPageInfo :
    readPageInfo f = ⟨rp.numSegments, rp.numOtherRootPages, rp.columnSize, c.metadata,
      setLayout rp.numSegments rp.storageMetadataLen rp.numOtherRootPages⟩ ∧
    readOtherRefs (RootPage.readPageInfo f) f = c.otherRefs.map (·.toNat) := by
  obtain ⟨h1, h2, h3⟩ := h.stages hb
  have hcol : readNat f (setLayout rp.numSegments rp.storageMetadataLen rp.numOtherRootPages).columnSizeOff 2 =
      rp.columnSize := h.readColumnSize hb
  have hmeta : (setLayout rp.numSegments rp.storageMetadataLen rp.numOtherRootPages).readMetadata f =
      c.metadata := by
    have hlen : readNat f rp.storageMetadataLenOff 1 = rp.storageMetadataLen := h2
    show slice f rp.storageMetadataOff (readNat f rp.storageMetadataLenOff 1) = c.metadata
    rw [hlen, h.slice_metadata]
  have hinfo : RootPage.readPageInfo f = ⟨rp.numSegments, rp.numOtherRootPages, rp.columnSize, c.metadata,
      setLayout rp.numSegments rp.storageMetadataLen rp.numOtherRootPages⟩ := by
    unfold RootPage.readPageInfo
    simp only [h1, h2, h3, hcol, hmeta]
  refine ⟨hinfo, ?_⟩
  rw [hinfo]
  exact h.map_otherRefs

omit hb in
theorem Stores.readSlots (hsize : rp.slotArrayOff + 4 * c.slots.length ≤ pageSize) :
    ∀ n i, i + n = c.slots.length →
      RootPageParser.readSlots pageSize rp.slotArrayOff f i n = .ok ((c.slots.drop i).map (·.toNat))
  | 0, i, hi => by rw [List.drop_eq_nil_of_le (by omega)]; rfl
  | n + 1, i, hi => by
    have hlt : i < c.slots.length := by omega
    have hat : At f rp.slotArrayOff (c.slots.flatMap encodeRef) := h.laid.read 13 (by norm_num)
    have hslot := readNat_encodeRef ((at_flatMap_iff length_encodeRef).mp hat i hlt)
    unfold RootPageParser.readSlots
    rw [if_neg (by omega), Stores.readSlots hsize n (i + 1) (by omega), Nat.mul_comm i 4, hslot,
      List.drop_eq_getElem_cons hlt]
    rfl

/-- **The parser** accepts the page and returns what it stands for. -/
theorem Stores.parse (hv : version < 256) (hsize : rp.slotArrayOff + 4 * c.slots.length ≤ pageSize) :
    RootPageParser.parse pageSize f = .ok (rp.info version c) := by
  obtain ⟨h1, h2, h3⟩ := h.stages hb
  have hoff := slotArrayOff_eq rp
  unfold freeSlotArrayOff at hoff
  have hk := hb.numOtherRootPages
  have hs := h.slots
  have hmax := rp.maxFreeSlots_le
  have hver : At f rp.versionOff (encode 1 version) := h.laid.read 0 (by norm_num)
  have htype : At f rp.pageTypeOff (encode 1 rootPageType) := h.laid.read 1 (by norm_num)
  have htail : At f rp.allSlotTailOff (encodeRef c.tail) := h.laid.read 8 (by norm_num)
  have hdata : At f rp.totalDataPagesOff (encodeRef c.totalDataPages) := h.laid.read 9 (by norm_num)
  have hfree : At f rp.totalFreePagesOff (encodeRef c.totalFreePages) := h.laid.read 10 (by norm_num)
  have hmaxs : At f rp.freeSlotArrayMaxSizeOff (encode 2 rp.maxFreeSlots) := h.laid.read 11 (by norm_num)
  have e1 : rp.storageMetadataLenOff < pageSize := by
    have : rp.storageMetadataLenOff = pageHeaderSize + 1 + 10 * rp.numSegments + 2 := rfl
    omega
  have e2 : rp.numOtherRootPagesOff < pageSize := by
    have : rp.numOtherRootPagesOff = pageHeaderSize + 1 + 10 * rp.numSegments + 3 + rp.storageMetadataLen := rfl
    omega
  have e0 : ¬ pageSize ≤ pageHeaderSize := by omega
  have e1' : ¬ pageSize ≤ (setLayout rp.numSegments 0 1).storageMetadataLenOff := Nat.not_le.mpr e1
  have e2' : ¬ pageSize ≤ (setLayout rp.numSegments rp.storageMetadataLen 1).numOtherRootPagesOff :=
    Nat.not_le.mpr e2
  have e3' : ¬ pageSize < (setLayout rp.numSegments rp.storageMetadataLen rp.numOtherRootPages).slotArrayOff := by
    show ¬ pageSize < rp.slotArrayOff
    omega
  have r1 : readNat f (setLayout rp.numSegments rp.storageMetadataLen rp.numOtherRootPages).pageTypeOff 1 =
      rootPageType := readNat_encode htype (by decide)
  have r2 : readNat f (setLayout rp.numSegments rp.storageMetadataLen
      rp.numOtherRootPages).freeSlotArrayCurSizeOff 2 = c.slots.length := h.readCurSize
  have r3 : RootPageParser.readSlots pageSize (setLayout rp.numSegments rp.storageMetadataLen
      rp.numOtherRootPages).slotArrayOff f 0 c.slots.length = .ok (c.slots.map (·.toNat)) :=
    h.readSlots hsize _ 0 (Nat.zero_add _)
  unfold RootPageParser.parse
  simp only [h1, h2, h3, e0, e1', e2', e3', r1, r2, r3, if_false, ne_eq, not_true_eq_false, Except.map]
  have hmod : (rp.numOtherRootPages + 1) % 2 ^ 8 = rp.numOtherRootPages + 1 := Nat.mod_eq_of_lt (by omega)
  have hrefs := h.map_otherRefs
  simp only [Nat.mul_comm 4] at hrefs
  have hname : RootPageParser.readString f rp.storageMetadataOff rp.storageMetadataLen =
      c.metadata.takeWhile (· ≠ 0) := by
    rw [RootPageParser.readString, h.slice_metadata]
  rw [Except.ok.injEq, info, RootPageInfo.mk.injEq]
  exact ⟨readNat_encode hver (by simpa using hv), rfl, hname, h.slice_metadata, hmod, hrefs,
    h.readColumnSize hb, h.readHead, readNat_encodeRef htail, readNat_encodeRef hdata, readNat_encodeRef hfree,
    readNat_encode hmaxs (by omega), rfl, rfl⟩

end Stages

end Readers

/-! ### Runs -/

/-- A run of changes, with the contents and the bytes it leads to. -/
inductive RootRun (rp : RootPage) (c : RootContents) (f : Frame) : RootContents → Frame → Prop
  | nil : RootRun rp c f c f
  | snoc {c' : RootContents} {f' : Frame} (op : RootOp) : RootRun rp c f c' f' → op.Allowed c' →
    RootRun rp c f (op.applyTo rp c') (op.apply rp f')

theorem stores_of_run {rp : RootPage} {version : ℕ} {c c' : RootContents} {f f' : Frame}
    (h : Stores rp version c f) (hrun : RootRun rp c f c' f') : Stores rp version c' f' := by
  induction hrun with
  | nil => exact h
  | snoc op _ hop ih => exact apply_stores ih hop

/-- A field ends before the next ones start. -/
theorem offsets_apart (rp : RootPage) (n : ℕ) {j k : ℕ} (hjk : j < k) (hk : k < 14) :
    rp.offsets.getD j 0 + (rp.widths n).getD j 0 ≤ rp.offsets.getD k 0 := by
  rw [offsets_getD rp n hk, offsets_getD rp n (hjk.trans hk), Nat.add_assoc]
  apply Nat.add_le_add_left
  have hj : j < (rp.widths n).length := hjk.trans hk
  have htake : ((rp.widths n).take (j + 1)).sum = ((rp.widths n).take j).sum + (rp.widths n).getD j 0 := by
    rw [List.take_succ_eq_append_getElem hj, List.sum_append, List.getD_eq_getElem _ _ hj]
    simp
  rw [← htake]
  exact (List.take_sublist_take_left hjk).sum_le_sum fun _ _ => Nat.zero_le _

section Sized

variable {pageSize numSegments numRootPages colLen : ℕ} {metadata : List (BitVec 8)}

theorem initSized_fits (hps : 4096 ≤ pageSize) (hseg : numSegments ≤ 255) (hroot : numRootPages ≤ 255)
    (hmeta : metadata.length ≤ 255) :
    let rp := initSized pageSize colLen numSegments numRootPages metadata.length
    rp.slotArrayOff + 4 * rp.maxFreeSlots + pageTrailerSize ≤ pageSize ∧
      (pageSize ≤ 2 ^ 18 → rp.maxFreeSlots ≠ 0) := by
  intro rp
  have hoff : rp.slotArrayOff = freeSlotArrayOff numSegments metadata.length (numRootPages - 1) :=
    slotArrayOff_eq rp
  have hmax : rp.maxFreeSlots = min ((pageSize - freeSlotArrayOff numSegments metadata.length
    (numRootPages - 1) - pageTrailerSize) / freeSlotLen % 2 ^ 16) 2048 := rfl
  have hsmall : freeSlotArrayOff numSegments metadata.length (numRootPages - 1) ≤ 3886 := by
    unfold freeSlotArrayOff pageHeaderSize
    omega
  set off := freeSlotArrayOff numSegments metadata.length (numRootPages - 1)
  unfold freeSlotLen at hmax
  have htr : pageTrailerSize = 8 := rfl
  have hdiv := Nat.mod_le ((pageSize - off - pageTrailerSize) / 4) (2 ^ 16)
  constructor
  · omega
  · intro hle
    have hmod : (pageSize - off - pageTrailerSize) / 4 % 2 ^ 16 = (pageSize - off - pageTrailerSize) / 4 :=
      Nat.mod_eq_of_lt (by omega)
    omega

/-- After `format` and any run of changes the page still holds what it stands for. -/
theorem initSized_stores {version : ℕ} {f₀ f f' : Frame} {rp' : RootPage} {c' : RootContents}
    (hps : 4096 ≤ pageSize) (hseg : numSegments ≤ 255) (hroot1 : 1 ≤ numRootPages) (hroot : numRootPages ≤ 255)
    (hmeta : metadata.length ≤ 255) (hcol1 : 1 ≤ colLen) (hcol : colLen < 2 ^ 16)
    (hblank : Blank numSegments pageSize f₀)
    (hf : (initSized pageSize colLen numSegments numRootPages metadata.length).format version metadata f₀ =
      some (rp', f)) (hrun : RootRun (initSized pageSize colLen numSegments numRootPages metadata.length)
      (RootContents.format metadata (numRootPages - 1)) f c' f') :
    let rp := initSized pageSize colLen numSegments numRootPages metadata.length
    rp' = rp ∧ Stores rp version c' f' ∧ rp.Bounded ∧ rp.slotArrayOff + 4 * c'.slots.length ≤ pageSize := by
  intro rp
  obtain ⟨hfit, -⟩ := @initSized_fits pageSize numSegments numRootPages colLen metadata hps hseg hroot hmeta
  replace hfit : rp.slotArrayOff + 4 * rp.maxFreeSlots + pageTrailerSize ≤ pageSize := hfit
  have hb : rp.Bounded := ⟨Nat.lt_succ_of_le hseg, Nat.lt_succ_of_le hmeta,
    show numRootPages - 1 < 255 by omega, hcol⟩
  have hslots : rp.maxFreeSlots ≠ 0 := by
    intro h0
    unfold format at hf
    rw [if_pos (Or.inr (Or.inl h0))] at hf
    cases hf
  obtain ⟨f1, hf1, hstores⟩ : ∃ f, rp.format version metadata f₀ = some (rp, f) ∧
      Stores rp version (RootContents.format metadata rp.numOtherRootPages) f :=
    stores_format hblank hb.numSegments (show colLen ≠ 0 by omega) hslots rfl hmeta (by omega)
  rw [hf1, Option.some.injEq, Prod.mk.injEq] at hf
  obtain ⟨rfl, rfl⟩ := hf
  have h := stores_of_run hstores hrun
  have hs := h.slots
  exact ⟨rfl, h, hb, by omega⟩

/-- **The root page.** On pages of at least 4096 bytes the fields behind the
segment headers follow each other and end before the trailer. `format` of a
blank page succeeds (the slot count is cut to 16 bits, which no page up to 256K
notices); and after it and any run of changes, `load` and the parser both read
back what the page stands for. -/
theorem root_page_readers {version : ℕ} {f₀ : Frame} (hps : 4096 ≤ pageSize) (hseg : numSegments ≤ 255)
    (hroot1 : 1 ≤ numRootPages) (hroot : numRootPages ≤ 255) (hmeta : metadata.length ≤ 255)
    (hcol1 : 1 ≤ colLen) (hcol : colLen < 2 ^ 16) (hversion : version < 256)
    (hblank : Blank numSegments pageSize f₀) :
    let rp := initSized pageSize colLen numSegments numRootPages metadata.length
    (∀ j k, j < k → k < 14 →
      rp.offsets.getD j 0 + (rp.widths rp.maxFreeSlots).getD j 0 ≤ rp.offsets.getD k 0) ∧
    rp.slotArrayOff + 4 * rp.maxFreeSlots + pageTrailerSize ≤ pageSize ∧
    (pageSize ≤ 2 ^ 18 → (rp.format version metadata f₀).isSome) ∧
    ∀ rp' f, rp.format version metadata f₀ = some (rp', f) → rp' = rp ∧
      ∀ c' f', RootRun rp (RootContents.format metadata (numRootPages - 1)) f c' f' →
        readPageInfo f' = ⟨numSegments, numRootPages - 1, colLen, c'.metadata,
          setLayout numSegments metadata.length (numRootPages - 1)⟩ ∧
        readOtherRefs (readPageInfo f') f' = c'.otherRefs.map (·.toNat) ∧
        RootPageParser.parse pageSize f' = .ok (rp.info version c') := by
  intro rp
  obtain ⟨hfit, hsome⟩ := @initSized_fits pageSize numSegments numRootPages colLen metadata hps hseg hroot hmeta
  replace hfit : rp.slotArrayOff + 4 * rp.maxFreeSlots + pageTrailerSize ≤ pageSize := hfit
  refine ⟨fun j k => offsets_apart rp _, hfit, fun hle => ?_, fun rp' f hf => ?_⟩
  · obtain ⟨f, hf, -⟩ : ∃ f, rp.format version metadata f₀ = some (rp, f) ∧
        Stores rp version (RootContents.format metadata rp.numOtherRootPages) f :=
      stores_format hblank (show numSegments < 256 by omega) (show colLen ≠ 0 by omega) (hsome hle) rfl hmeta (by omega)
    rw [hf]
    rfl
  · have hstores := fun c' f' => @initSized_stores pageSize numSegments numRootPages colLen metadata version f₀ f f'
      rp' c' hps hseg hroot1 hroot hmeta hcol1 hcol hblank hf
    refine ⟨(hstores _ _ .nil).1, fun c' f' hrun => ?_⟩
    obtain ⟨-, h, hb, hsize⟩ := hstores c' f' hrun
    obtain ⟨hinfo, hrefs⟩ := h.readPageInfo hb
    exact ⟨hinfo, hrefs, h.parse hb hversion hsize⟩

/-- The primary root page of an index on 16K pages: two segments, 64 root pages
and five bytes of metadata, with a second root page and a slot in use. -/
theorem root_page_readers_index :
    ∃ f c, (let rp := initSized 16384 200 2 64 5
      RootRun rp (RootContents.format [1, 2, 3, 4, 5] 63) f
        ((RootOp.addFree 7 0).applyTo rp ((RootOp.writeRootRef 1 9).applyTo rp
          (RootContents.format [1, 2, 3, 4, 5] 63))) c ∧
      ∃ r, RootPageParser.parse 16384 c = .ok r ∧ r.freeSlots = [7] ∧ r.numRootPages = 64) := by
  have hblank : Blank 2 16384 (fun i => if i = 38 then 2 else 0) := by
    refine ⟨rfl, fun i hi _ => if_neg ?_⟩
    have : pageHeaderSize = 38 := rfl
    omega
  have hmain := @root_page_readers 16384 2 64 200 [1, 2, 3, 4, 5] 1 _ (by norm_num) (by norm_num)
    (by norm_num) (by norm_num) (by decide) (by norm_num) (by norm_num) (by norm_num) hblank
  obtain ⟨-, -, hsome, hrun⟩ := hmain
  obtain ⟨⟨rp', f⟩, hf⟩ := Option.isSome_iff_exists.mp (hsome (by norm_num))
  have hnil : RootRun (initSized 16384 200 2 64 5) (RootContents.format [1, 2, 3, 4, 5] 63) f _ f := .nil
  have h := (hnil.snoc (.writeRootRef 1 9) ⟨le_rfl, by decide⟩).snoc (.addFree 7 0) (show 0 < 1 by norm_num)
  exact ⟨f, _, h, _, ((hrun rp' f hf).2 _ _ h).2.2, by decide, by decide⟩

end Sized

end RootPage

end VsqlVector
