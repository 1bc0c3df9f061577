/-
# Concurrent calls of column stores

Any number of threads call the stores of one space at once. A call works on pages it has
latched: `insert` latches the root page in shared mode and selects a page; if the page
keeps a free record that is enough, otherwise it latches the root page exclusively, in
between holding nothing, selects again, and takes the page off its chain or allocates one.
`purge` latches the data page, and if the page may have to go back to a chain it releases
it and latches the root page first. The other calls work on one data page.

A thread is at a `Place` of its call and has the latches of its mini-transaction in a
memo; the call releases some of them itself, the others stay until the mini-transaction
commits, which can be several calls later. A step goes from one latch to the next, and what
happens to the pages in between are the functions of the sequential store. A page that the
segment has handed out stands in the store once it is registered; up to then only the
latch on it counts.

Key definitions: `Place`, `Worker`, `Move`, `Step`, `threads`.
-/
import VsqlVector.Lib.Latches
import VsqlVector.Storage.Records

namespace VsqlVector
namespace Concurrent

open ColumnStore StoreProg

/-- A page as the latches know it: the root page of a store, or a data page of store `i`. -/
inductive PageId (ι : Type) where
  | root (r : ℕ)
  | data (i : ι) (r : ℕ)
  deriving DecidableEq

/-- What the threads share of a store. -/
structure StorePages where
  root : RootFrame
  pages : ℕ → Option Page

/-- The store as a call sees it, with the `s_last_slot_info` of its thread. -/
def StorePages.store (x : StorePages) (info : LastSlotInfo) : Store := ⟨x.root, x.pages, info, []⟩

/-- What a call leaves for the other threads. -/
def sharedPages (s : Store) : StorePages := ⟨s.root, s.pages⟩

/-- The calls of a store. -/
inductive Request where
  | insert (trxRef : BitVec 64) (colData : List (BitVec 8))
  | markDelete (trxRef : BitVec 64) (colRef : ℕ) (deleteMark : Bool)
  | purge (trxRef : BitVec 64) (colRef : ℕ)
  | update (colRef : ℕ) (addr : String) (colData : Option (List (BitVec 8))) (chunkIds : List ℕ) (chunkSize : ℕ)
  | fetch (colRef : ℕ) (forUpdate : Bool)

/-- The arguments of an insert. -/
structure Record where
  trxRef : BitVec 64
  colData : List (BitVec 8)

/-- Where a thread is in a call of store `i`, with the variables it goes on with. -/
inductive Place (ι : Type) where
  | idle
  | called (i : ι) (q : Request)
  /-- The root page is latched in shared mode and a page selected. -/
  | insertSelected (i : ι) (c : Record) (sel : Option ℕ) (needGrow : Bool)
  /-- The page selected is latched too. -/
  | insertLatched (i : ι) (c : Record) (r : ℕ)
  /-- It has its last free slot and is released. -/
  | insertLast (i : ι) (c : Record)
  | insertReleased (i : ι) (c : Record) (needGrow : Bool)
  /-- The root page is latched exclusively and a page selected again. -/
  | insertExclusive (i : ι) (c : Record) (sel : Option ℕ)
  /-- The root page with the segment is latched. -/
  | insertSegment (i : ι) (c : Record)
  | insertAllocated (i : ι) (c : Record) (r : ℕ)
  /-- The root page with the segment is released. -/
  | insertNew (i : ι) (c : Record) (r : ℕ)
  | insertPicked (i : ι) (c : Record) (r : ℕ)
  /-- The page before it on the chain is latched. -/
  | insertUnlink (i : ι) (c : Record) (r : ℕ)
  /-- The page the record goes to is latched and has room. -/
  | insertRecord (i : ι) (c : Record) (r : ℕ)
  | purgeLatched (i : ι) (trxRef : BitVec 64) (colRef : ℕ)
  | purgeReleased (i : ι) (trxRef : BitVec 64) (colRef : ℕ)
  | purgeRoot (i : ι) (trxRef : BitVec 64) (colRef : ℕ)
  | purgeRelatched (i : ι) (trxRef : BitVec 64) (colRef : ℕ)
  /-- The record is purged and the page goes to the chain of a slot. -/
  | purgeLink (i : ι) (r slot : ℕ)

/-- A thread: its `s_last_slot_info`, the latches of its mini-transaction, its place. -/
structure Worker (ι : Type) where
  info : LastSlotInfo
  memo : Memo (PageId ι)
  place : Place ι

variable {ι : Type} [DecidableEq ι] (cs : ι → ColumnStore)

/-- The root page of a store, and the root page its segment is on. -/
def rootId (i : ι) : PageId ι := .root (cs i).rootPageRef
def segmentId (i : ι) : PageId ι := .root (cs i).primaryRootPageRef

/-- The latch on the root page with the segment, if that is another page. -/
def segmentLatch (i : ι) : Memo (PageId ι) :=
  if (cs i).primaryRootPageRef ≠ (cs i).rootPageRef then [(segmentId cs i, .exclusive)] else []

/-- The latch on a neighbour of a page in a list, if there is one. -/
def linkLatch (i : ι) (q : Option ℕ) : Memo (PageId ι) := q.toList.map fun r => (.data i r, .exclusive)

/-- The page before `p` on its chain, if that is not the root page. -/
def prevPage (i : ι) (p : Page) : Option ℕ := if p.prevFreePage = some (cs i).rootPageRef then none else p.prevFreePage

/-- The page and the slot of a record. -/
def pageOf (colRef : ℕ) : ℕ := (DataPage.decodeColumnRef colRef).1
def slotOf (colRef : ℕ) : ℕ := (DataPage.decodeColumnRef colRef).2

/-- Store `i` with one page written. -/
def setPage (σ : ι → StorePages) (i : ι) (r : ℕ) (p : Page) : ι → StorePages :=
  Function.update σ i { σ i with pages := Function.update (σ i).pages r (some p) }

/-- A page after `DataPage::purge`, and whether the record was freed. A slot out of bounds
is an error and changes nothing. -/
def purgedPage (d : DataPage) (trxRef : BitVec 64) (slot : ℕ) (p : Page) : Page × Bool :=
  (d.purge slot trxRef p).getD (p, false)

/-- The calls that return an error before they latch a page, and an update of nothing. -/
def Refused (cs : ColumnStore) (x : StorePages) : Request → Prop
  | .insert _ data => data.length ≠ cs.root.columnSize
  | .markDelete _ colRef _ | .purge _ colRef | .fetch colRef _ => x.pages (pageOf colRef) = none
  | .update colRef addr colData chunkIds chunkSize => chunkIds = [] ∨ x.pages (pageOf colRef) = none ∨
      ∃ e, DataPage.checkUpdate cs.root.columnSize addr colData chunkIds chunkSize = .error e

/-- A thread goes from one latch to the next. -/
inductive Move (σ : ι → StorePages) : Worker ι → (ι → StorePages) → Worker ι → Prop
  | commit {info : LastSlotInfo} {memo : Memo (PageId ι)} : memo ≠ [] → Move σ ⟨info, memo, .idle⟩ σ ⟨info, [], .idle⟩
  | refuse {info : LastSlotInfo} {memo : Memo (PageId ι)} {i : ι} {q : Request} : Refused (cs i) (σ i) q →
    Move σ ⟨info, memo, .called i q⟩ σ ⟨info, memo, .idle⟩
  /-- Steps 2 and 3 of `insert`. -/
  | select {info : LastSlotInfo} {memo : Memo (PageId ι)} {i : ι} {t : BitVec 64} {data : List (BitVec 8)}
      {sel : Option ℕ} {s : Store} (env : InsertEnv) : data.length = (cs i).root.columnSize →
    RootPage.pageSelect (cs i) env.rand ((σ i).store info) = (.ok sel, s) →
    Move σ ⟨info, memo, .called i (.insert t data)⟩ σ ⟨s.lastSlotInfo, (rootId cs i, .shared) :: memo,
      .insertSelected i ⟨t, data⟩ sel (needGrow (cs i) env (σ i).root)⟩
  /-- No page is selected, or the slot array has to grow: step 5. -/
  | releaseRoot {info : LastSlotInfo} {memo : Memo (PageId ι)} {i : ι} {c : Record} {sel : Option ℕ} {grow : Bool} :
    grow = true ∨ sel = none → Move σ ⟨info, memo, .insertSelected i c sel grow⟩ σ
      ⟨info, memo.erase (rootId cs i, .shared), .insertReleased i c grow⟩
  /-- Step 4a. -/
  | latchSelected {info : LastSlotInfo} {memo : Memo (PageId ι)} {i : ι} {c : Record} {r : ℕ} :
    Move σ ⟨info, memo, .insertSelected i c (some r) false⟩ σ
      ⟨info, (.data i r, .exclusive) :: memo, .insertLatched i c r⟩
  /-- Step 4b: the page has its last free slot. -/
  | releaseLast {info : LastSlotInfo} {memo : Memo (PageId ι)} {i : ι} {c : Record} {r : ℕ} {p : Page} :
    (σ i).pages r = some p → DataPage.hasLastFreeSlot p = true → Move σ ⟨info, memo, .insertLatched i c r⟩ σ
      ⟨info, memo.erase (.data i r, .exclusive), .insertLast i c⟩
  | releaseRootLast {info : LastSlotInfo} {memo : Memo (PageId ι)} {i : ι} {c : Record} :
    Move σ ⟨info, memo, .insertLast i c⟩ σ ⟨info, memo.erase (rootId cs i, .shared), .insertReleased i c false⟩
  /-- Step 6. -/
  | roomy {info : LastSlotInfo} {memo : Memo (PageId ι)} {i : ι} {c : Record} {r : ℕ} {p : Page} :
    (σ i).pages r = some p → DataPage.hasLastFreeSlot p = false → Move σ ⟨info, memo, .insertLatched i c r⟩ σ
      ⟨info, memo.erase (rootId cs i, .shared), .insertRecord i c r⟩
  /-- Step 5a: the root page exclusively, and `page_select` again. -/
  | latchRoot {info : LastSlotInfo} {memo : Memo (PageId ι)} {i : ι} {c : Record} {grow : Bool} {sel : Option ℕ}
      {f : RootFrame} {s : Store} (rand : ℕ) : f = (if grow then (cs i).root.growFreeSlots (σ i).root else (σ i).root) →
    RootPage.pageSelect (cs i) rand (StorePages.store ⟨f, (σ i).pages⟩ info) = (.ok sel, s) →
    Move σ ⟨info, memo, .insertReleased i c grow⟩ (Function.update σ i (sharedPages s))
      ⟨s.lastSlotInfo, (rootId cs i, .exclusive) :: memo, .insertExclusive i c sel⟩
  /-- No page: the root page with the segment is latched, if it is another one. -/
  | latchSegment {info : LastSlotInfo} {memo : Memo (PageId ι)} {i : ι} {c : Record} :
    Move σ ⟨info, memo, .insertExclusive i c none⟩ σ ⟨info, segmentLatch cs i ++ memo, .insertSegment i c⟩
  /-- `load_new`: a page that is not in use. -/
  | allocate {info : LastSlotInfo} {memo : Memo (PageId ι)} {i : ι} {c : Record} (r : ℕ) : (σ i).pages r = none →
    r ≠ (cs i).rootPageRef → r < invalidRef → Move σ ⟨info, memo, .insertSegment i c⟩ σ
      ⟨info, (.data i r, .exclusive) :: memo, .insertAllocated i c r⟩
  /-- The segment gives no page. -/
  | noSpace {info : LastSlotInfo} {memo : Memo (PageId ι)} {i : ι} {c : Record} :
    Move σ ⟨info, memo, .insertSegment i c⟩ σ ⟨info, memo, .idle⟩
  | releaseSegment {info : LastSlotInfo} {memo : Memo (PageId ι)} {i : ι} {c : Record} {r : ℕ} :
    Move σ ⟨info, memo, .insertAllocated i c r⟩ σ
      ⟨info, if (cs i).primaryRootPageRef ≠ (cs i).rootPageRef then memo.erase (segmentId cs i, .exclusive) else memo,
        .insertNew i c r⟩
  /-- `format`, `add_data_page` and, unless one record fills the page, `add_free_page`. The
  slot is empty, so the only other page is the first of all pages. -/
  | register {info : LastSlotInfo} {memo : Memo (PageId ι)} {i : ι} {c : Record} {r : ℕ} {s : Store} :
    insertNewPage (cs i) r ((σ i).store info) = (.ok (), s) →
    Move σ ⟨info, memo, .insertNew i c r⟩ (Function.update σ i (sharedPages s))
      ⟨info, linkLatch i (σ i).root.head ++ memo, .insertRecord i c r⟩
  | latchPicked {info : LastSlotInfo} {memo : Memo (PageId ι)} {i : ι} {c : Record} {r : ℕ} :
    Move σ ⟨info, memo, .insertExclusive i c (some r)⟩ σ
      ⟨info, (.data i r, .exclusive) :: memo, .insertPicked i c r⟩
  /-- Under the exclusive latch of the root page the page has room. -/
  | keep {info : LastSlotInfo} {memo : Memo (PageId ι)} {i : ι} {c : Record} {r : ℕ} {p : Page} :
    (σ i).pages r = some p → DataPage.hasLastFreeSlot p = false →
    Move σ ⟨info, memo, .insertPicked i c r⟩ σ ⟨info, memo, .insertRecord i c r⟩
  /-- `remove_free_page` latches the page before it, then the page after it. -/
  | latchPrev {info : LastSlotInfo} {memo : Memo (PageId ι)} {i : ι} {c : Record} {r : ℕ} {p : Page} :
    (σ i).pages r = some p → DataPage.hasLastFreeSlot p = true → Move σ ⟨info, memo, .insertPicked i c r⟩ σ
      ⟨info, linkLatch i (prevPage cs i p) ++ memo, .insertUnlink i c r⟩
  | unlink {info : LastSlotInfo} {memo : Memo (PageId ι)} {i : ι} {c : Record} {r : ℕ} {p : Page} {e : StorageError}
      {s : Store} : (σ i).pages r = some p → RootPage.removeFreePage (cs i) r e ((σ i).store info) = (.ok (), s) →
    Move σ ⟨info, memo, .insertUnlink i c r⟩ (Function.update σ i (sharedPages s))
      ⟨info, linkLatch i p.nextFreePage ++ memo, .insertRecord i c r⟩
  /-- Step 7. -/
  | record {info : LastSlotInfo} {memo : Memo (PageId ι)} {i : ι} {c : Record} {r colRef : ℕ} {s : Store} :
    (cs i).data.insert r c.trxRef c.colData ((σ i).store info) = (.ok colRef, s) →
    Move σ ⟨info, memo, .insertRecord i c r⟩ (Function.update σ i (sharedPages s)) ⟨s.lastSlotInfo, memo, .idle⟩
  /-- Step 3 of `purge`. -/
  | latchPurge {info : LastSlotInfo} {memo : Memo (PageId ι)} {i : ι} {t : BitVec 64} {colRef : ℕ} :
    ((σ i).pages (pageOf colRef)).isSome = true → Move σ ⟨info, memo, .called i (.purge t colRef)⟩ σ
      ⟨info, (.data i (pageOf colRef), .exclusive) :: memo, .purgeLatched i t colRef⟩
  /-- The page stays where it is: step 6. -/
  | purge {info : LastSlotInfo} {memo : Memo (PageId ι)} {i : ι} {t : BitVec 64} {colRef : ℕ} {p : Page} :
    (σ i).pages (pageOf colRef) = some p → DataPage.needsAddToFreeList p true = false →
    Move σ ⟨info, memo, .purgeLatched i t colRef⟩
      (setPage σ i (pageOf colRef) (purgedPage (cs i).data t (slotOf colRef) p).1) ⟨info, memo, .idle⟩
  /-- Step 5. -/
  | releasePurge {info : LastSlotInfo} {memo : Memo (PageId ι)} {i : ι} {t : BitVec 64} {colRef : ℕ} {p : Page} :
    (σ i).pages (pageOf colRef) = some p → DataPage.needsAddToFreeList p true = true →
    Move σ ⟨info, memo, .purgeLatched i t colRef⟩ σ
      ⟨info, memo.erase (.data i (pageOf colRef), .exclusive), .purgeReleased i t colRef⟩
  | latchPurgeRoot {info : LastSlotInfo} {memo : Memo (PageId ι)} {i : ι} {t : BitVec 64} {colRef : ℕ} :
    Move σ ⟨info, memo, .purgeReleased i t colRef⟩ σ
      ⟨info, (rootId cs i, .exclusive) :: memo, .purgeRoot i t colRef⟩
  | relatchPurge {info : LastSlotInfo} {memo : Memo (PageId ι)} {i : ι} {t : BitVec 64} {colRef : ℕ} :
    Move σ ⟨info, memo, .purgeRoot i t colRef⟩ σ
      ⟨info, (.data i (pageOf colRef), .exclusive) :: memo, .purgeRelatched i t colRef⟩
  /-- Step 6 under both latches, and the re-check of step 7. -/
  | purgeStays {info : LastSlotInfo} {memo : Memo (PageId ι)} {i : ι} {t : BitVec 64} {colRef : ℕ} {p p' : Page}
      {purged : Bool} : (σ i).pages (pageOf colRef) = some p → purgedPage (cs i).data t (slotOf colRef) p = (p', purged) →
    (purged && DataPage.needsAddToFreeList p' false) = false →
    Move σ ⟨info, memo, .purgeRelatched i t colRef⟩ (setPage σ i (pageOf colRef) p') ⟨info, memo, .idle⟩
  | purgeLeaves {info : LastSlotInfo} {memo : Memo (PageId ι)} {i : ι} {t : BitVec 64} {colRef : ℕ} {p p' : Page}
      (rand : ℕ) : (σ i).pages (pageOf colRef) = some p → purgedPage (cs i).data t (slotOf colRef) p = (p', true) →
    DataPage.needsAddToFreeList p' false = true →
    Move σ ⟨info, memo, .purgeRelatched i t colRef⟩ (setPage σ i (pageOf colRef) p')
      ⟨info, memo, .purgeLink i (pageOf colRef) (RootPage.getFreeSlot rand (σ i).root)⟩
  /-- `add_free_page` latches the page at the head of the slot. -/
  | link {info : LastSlotInfo} {memo : Memo (PageId ι)} {i : ι} {r slot : ℕ} {e : StorageError} {s : Store} :
    RootPage.addFreePage (cs i) r slot e ((σ i).store info) = (.ok (), s) →
    Move σ ⟨info, memo, .purgeLink i r slot⟩ (Function.update σ i (sharedPages s))
      ⟨info, linkLatch i ((σ i).root.slots[slot]?).join ++ memo, .idle⟩
  | markDelete {info : LastSlotInfo} {memo : Memo (PageId ι)} {i : ι} {t : BitVec 64} {colRef : ℕ} {mark : Bool}
      {p : Page} : (σ i).pages (pageOf colRef) = some p →
    Move σ ⟨info, memo, .called i (.markDelete t colRef mark)⟩
      (setPage σ i (pageOf colRef) ((cs i).data.markDelete t (slotOf colRef) mark p))
      ⟨info, (.data i (pageOf colRef), .exclusive) :: memo, .idle⟩
  /-- A free slot is not written. -/
  | update {info : LastSlotInfo} {memo : Memo (PageId ι)} {i : ι} {colRef : ℕ} {addr : String}
      {colData : Option (List (BitVec 8))} {chunkIds : List ℕ} {chunkSize : ℕ} {data : List (BitVec 8)} {p : Page} :
    chunkIds ≠ [] → DataPage.checkUpdate (cs i).root.columnSize addr colData chunkIds chunkSize = .ok data →
    (σ i).pages (pageOf colRef) = some p →
    Move σ ⟨info, memo, .called i (.update colRef addr colData chunkIds chunkSize)⟩
      (setPage σ i (pageOf colRef) (((cs i).data.update (slotOf colRef) data chunkIds chunkSize p).toOption.getD p))
      ⟨info, (.data i (pageOf colRef), .exclusive) :: memo, .idle⟩
  | fetch {info : LastSlotInfo} {memo : Memo (PageId ι)} {i : ι} {colRef : ℕ} {forUpdate : Bool} :
    ((σ i).pages (pageOf colRef)).isSome = true → Move σ ⟨info, memo, .called i (.fetch colRef forUpdate)⟩ σ
      ⟨info, (.data i (pageOf colRef), if forUpdate then .exclusive else .shared) :: memo, .idle⟩

/-- A page call of a thread at this place can fail. Once the page for a record is there
`insert` makes none. -/
def Place.Falls : Place ι → Prop
  | .idle | .insertRecord .. => False
  | _ => True

/-- A step of a thread: it calls a store, if its mini-transaction may (`allow`), or goes on
with its call, or a page call fails, and the call returns and leaves its latches in the
memo. -/
inductive Step (allow : Memo (PageId ι) → Prop) (σ : ι → StorePages) : Worker ι → (ι → StorePages) → Worker ι → Prop
  | call {info : LastSlotInfo} {memo : Memo (PageId ι)} (i : ι) (q : Request) : allow memo →
    Step allow σ ⟨info, memo, .idle⟩ σ ⟨info, memo, .called i q⟩
  | move {w w' : Worker ι} {σ' : ι → StorePages} : Move cs σ w σ' w' → Step allow σ w σ' w'
  | fail {info : LastSlotInfo} {memo : Memo (PageId ι)} {place : Place ι} : place.Falls →
    Step allow σ ⟨info, memo, place⟩ σ ⟨info, memo, .idle⟩

/-- The latches of a thread. -/
def Worker.held (w : Worker ι) : PageId ι → Option Latch := w.memo.mode

/-- The threads that call the stores. -/
def threads (T : Type) (allow : Memo (PageId ι) → Prop) : Threads T (ι → StorePages) (Worker ι) (PageId ι) where
  step _ σ w σ' w' := Step cs allow σ w σ' w'
  held := Worker.held

/-- The same threads where no call begins and none fails. -/
def moves (T : Type) : Threads T (ι → StorePages) (Worker ι) (PageId ι) where
  step _ σ w σ' w' := Move cs σ w σ' w'
  held := Worker.held

/-- The stores are empty and no thread has begun. -/
def Fresh {T : Type} (x : (ι → StorePages) × (T → Worker ι)) : Prop :=
  (∀ i, x.1 i = ⟨RootFrame.format, fun _ => none⟩) ∧ ∀ t, (x.2 t).memo = [] ∧ (x.2 t).place = .idle

end Concurrent
end VsqlVector
