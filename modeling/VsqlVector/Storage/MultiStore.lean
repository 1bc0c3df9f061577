/-
# The column stores of a column

A `MultiColumnStore` (`src/storage/storage.cc`) is a row of column stores. The
first owns the segments: its root page has their headers and the references of
the other root pages. `create` formats only that page; `init_root_page` adds
another store's root page when it is needed, and `load` rebuilds the row from
the pages.

`Mounted` says that the pages hold what the row in memory says. Every call
keeps it, however many of its page operations fail (`initRootPage_mounted`),
and `load` reads the row back (`load_mounted`). What `load` does not read back
is the segment index of a store: it is not on the pages.

Key definitions: `StoreHandle`, `MultiState`, `MultiColumnStore.create`,
`MultiColumnStore.initRootPage`, `MultiColumnStore.load`, `Mounted`.
Key theorems: `MultiColumnStore.create_mounted`,
`MultiColumnStore.initRootPage_mounted`, `MultiColumnStore.load_mounted`.
-/
import VsqlVector.Storage.RootLayout

namespace VsqlVector

/-! ### The state -/

/-- `Storage_spec`. -/
structure StorageSpec where
  colLen : ℕ
  metadata : List (BitVec 8)
  deriving DecidableEq, Repr

/-- The fields of a `ColumnStore` that `create`, `load` and `init_root_page`
set. A reference is `noRef` while there is no page. -/
structure StoreHandle where
  rootPageRef : BitVec 32
  primaryRootPageRef : BitVec 32
  segmentIndex : ℕ
  metadata : List (BitVec 8)
  root : RootPage

namespace StoreHandle

/-- `ColumnStore::init` of a new object. -/
def init (ps : PageSize) (rootPageRef : BitVec 32) (colLen numSegments numRootPages : ℕ)
    (metadata : List (BitVec 8)) : StoreHandle where
  rootPageRef := rootPageRef
  primaryRootPageRef := noRef
  segmentIndex := 0
  metadata := metadata
  root := RootPage.initSized ps.bytes colLen numSegments numRootPages (metadata.length % 2 ^ 8)

/-- A new object. -/
instance : Inhabited StoreHandle := ⟨⟨noRef, noRef, 0, [], RootPage.setLayout 0 0 0⟩⟩

/-- `initialized`. -/
def initialized (h : StoreHandle) : Bool := h.rootPageRef ≠ noRef

/-- The handle as it comes back from the pages: they do not have the segment
index. -/
def reloaded (h : StoreHandle) : StoreHandle := { h with segmentIndex := 0 }

end StoreHandle

/-- What happens to the stores: a root page or a data page of one of them comes
from a segment, or the row is loaded. -/
inductive SegmentEvent where
  | rootPage (store segment : ℕ)
  | dataPage (store segment : ℕ)
  | load
  deriving DecidableEq, Repr

/-- The pages of the space, the pages the server hands out next, the failures
still to come from the page API, what has happened, and the
`MultiColumnStore`. -/
structure MultiState where
  pages : BitVec 32 → Option Frame
  supply : List (BitVec 32 × Frame)
  faults : List Bool
  log : List SegmentEvent
  ref : BitVec 64
  stores : List StoreHandle

abbrev MultiProg := Prog StorageError MultiState

namespace MultiColumnStore

/-! ### The page API -/

/-- A call of the page API, which fails with `e` when the next fault says so. -/
def tick (e : StorageError) : MultiProg Unit := fun s =>
  match s.faults with
  | [] => (.ok (), s)
  | false :: fs => (.ok (), { s with faults := fs })
  | true :: fs => (.error e, { s with faults := fs })

/-- `Page::load`. -/
def loadPage (e : StorageError) (r : BitVec 32) : MultiProg Frame := do
  tick e
  let s ← Prog.get
  Prog.ofOption e (s.pages r)

/-- `Page::load_new`: the server hands out a page that is not in use. -/
def loadNew (e : StorageError) : MultiProg (BitVec 32 × Frame) := do
  tick e
  let s ← Prog.get
  match s.supply with
  | [] => Prog.fail e
  | (r, f) :: rest =>
    if r = noRef ∨ (s.pages r).isSome then Prog.fail e
    else do
      Prog.modify fun s => { s with pages := Function.update s.pages r (some f), supply := rest }
      pure (r, f)

def writePage (r : BitVec 32) (f : Frame) : MultiProg Unit :=
  Prog.modify fun s => { s with pages := Function.update s.pages r (some f) }

/-- The store at an index. -/
def store (i : ℕ) : MultiProg StoreHandle := fun s => (.ok (s.stores.getD i default), s)

def setStore (i : ℕ) (h : StoreHandle) : MultiProg Unit :=
  Prog.modify fun s => { s with stores := s.stores.set i h }

def note (e : SegmentEvent) : MultiProg Unit := Prog.modify fun s => { s with log := s.log ++ [e] }

/-! ### The calls -/

/-- `FORMAT_VERSION`. -/
def formatVersion : ℕ := 1

/-- `encode_ref`: the space in the lower half. -/
def encodeRef (spaceRef pageRef : BitVec 32) : BitVec 64 := pageRef ++ spaceRef

/-- `decode_ref`: the space and the page. -/
def decodeRef (ref : BitVec 64) : BitVec 32 × BitVec 32 := (ref.extractLsb' 0 32, ref.extractLsb' 32 32)

/-- The row of `create`: the first store has the segments and the references of
the others, which have no root page yet. -/
def initStores (ps : PageSize) (root : BitVec 32) (numSegments : ℕ) (storages : List StorageSpec) :
    List StoreHandle :=
  match storages with
  | [] => []
  | spec :: rest =>
    { StoreHandle.init ps root spec.colLen numSegments (storages.length % 2 ^ 8) spec.metadata with
      primaryRootPageRef := root } ::
    rest.map fun spec => StoreHandle.init ps noRef spec.colLen 0 1 spec.metadata

/-- `MultiColumnStore::create`, with the page that `Segment::create` hands out. -/
def create (ps : PageSize) (spaceRef : BitVec 32) (segment : BitVec 32 × Frame) (storages : List StorageSpec)
    (numSegments : ℕ) : MultiProg Unit := do
  tick ⟨"create: failed to create segment", false⟩
  writePage segment.1 segment.2
  Prog.modify fun s => { s with stores := initStores ps segment.1 numSegments storages }
  let primary ← store 0
  let f ← loadPage ⟨"create: failed to load root page", false⟩ segment.1
  match primary.root.format formatVersion primary.metadata f with
  | none => Prog.fail ⟨"create: failed to format root page", true⟩
  | some (root, f) => do
    writePage segment.1 f
    setStore 0 { primary with root := root }
    Prog.modify fun s => { s with ref := encodeRef spaceRef segment.1 }

/-- `MultiColumnStore::init_root_page`. -/
def initRootPage (segIdx rootIdx : ℕ) : MultiProg Unit := do
  let primary ← store 0
  let target ← store rootIdx
  let primaryRoot ← loadPage ⟨"init_root_page: failed to load primary root page", false⟩ primary.rootPageRef
  let (newRef, newPage) ← loadNew ⟨"init_root_page: failed to allocate page", false⟩
  match target.root.format formatVersion target.metadata newPage with
  | none => Prog.fail ⟨"init_root_page: failed to format root page", true⟩
  | some (root, f) => do
    writePage newRef f
    writePage primary.rootPageRef (primary.root.writeRootRef rootIdx newRef primaryRoot)
    setStore rootIdx { target with root := root, rootPageRef := newRef,
                                   primaryRootPageRef := primary.rootPageRef, segmentIndex := segIdx }
    note (.rootPage rootIdx segIdx)

/-- `ColumnStore::update_metadata` of a store. -/
def updateMetadata (i : ℕ) (metadata : List (BitVec 8)) : MultiProg Unit := do
  let h ← store i
  let f ← loadPage ⟨"update_metadata: failed to load root page", false⟩ h.rootPageRef
  match h.root.updateHeader metadata f with
  | none =>
    Prog.fail ⟨"update_metadata: size mismatch: got=" ++ toString metadata.length ++ ", expected=" ++
      toString h.root.storageMetadataLen, true⟩
  | some f => do
    writePage h.rootPageRef f
    setStore i { h with metadata := metadata }

/-- A store of `load` other than the first, from the reference on the primary
root page. -/
def loadStore (ps : PageSize) (root : BitVec 32) (ref : ℕ) (spec : StorageSpec) : MultiProg StoreHandle :=
  if ref = invalidRef then pure (StoreHandle.init ps noRef spec.colLen 0 1 spec.metadata)
  else do
    let f ← loadPage ⟨"load: failed to load secondary root page", false⟩ (BitVec.ofNat 32 ref)
    let info := RootPage.readPageInfo f
    pure { StoreHandle.init ps (BitVec.ofNat 32 ref) info.colLen info.numSegs
        ((info.numOtherRootPages + 1) % 2 ^ 8) info.metadata with primaryRootPageRef := root }

/-- `MultiColumnStore::load` into a new object. -/
def load (ps : PageSize) (storageRef : BitVec 64) (specs : List StorageSpec) : MultiProg Unit := do
  let (spaceRef, root) := decodeRef storageRef
  let f ← loadPage ⟨"load: failed to load primary root page", false⟩ root
  let info := RootPage.readPageInfo f
  let primary := { StoreHandle.init ps root info.colLen info.numSegs ((info.numOtherRootPages + 1) % 2 ^ 8)
      info.metadata with primaryRootPageRef := root }
  let others ← ((RootPage.readOtherRefs info f).zip specs.tail).mapM fun x => loadStore ps root x.1 x.2
  Prog.modify fun s => { s with stores := primary :: others, ref := encodeRef spaceRef root }
  note .load

/-- A store that is not the first loads the page with the segments. -/
def loadOwningRoot (h : StoreHandle) : MultiProg Unit :=
  if h.primaryRootPageRef = h.rootPageRef then pure ()
  else do
    let _ ← loadPage ⟨"insert: failed to load primary root page for segment", false⟩ h.primaryRootPageRef

/-- And releases it. -/
def releaseOwningRoot (h : StoreHandle) : MultiProg Unit :=
  if h.primaryRootPageRef = h.rootPageRef then pure ()
  else tick ⟨"insert: failed to release primary root page", false⟩

/-- The part of `ColumnStore::insert` that takes a new data page from the store's
segment and puts it in the list of all pages. -/
def allocateDataPage (i : ℕ) : MultiProg (BitVec 32) := do
  let h ← store i
  let root ← loadPage ⟨"insert: failed to load root page", false⟩ h.rootPageRef
  loadOwningRoot h
  let (r, _) ← loadNew ⟨"insert: failed to allocate new data page", false⟩
  note (.dataPage i h.segmentIndex)
  releaseOwningRoot h
  writePage h.rootPageRef (h.root.addData r root)
  pure r

/-- Another change of a store's root page that an insert or a purge makes for its
data pages. -/
def changeRoot (i : ℕ) (op : RootOp) : MultiProg Unit := do
  let h ← store i
  let f ← loadPage ⟨"insert: failed to load root page", false⟩ h.rootPageRef
  writePage h.rootPageRef (op.apply h.root f)

/-! ### What the pages hold -/

/-- Columns, metadata and a row that fit their fields. -/
structure Sized (numSegments colLen : ℕ) (specs : List StorageSpec) : Prop where
  segments : numSegments ≤ 255
  first : colLen < 2 ^ 16
  length : specs.length < 255
  colLen : ∀ spec ∈ specs, spec.colLen < 2 ^ 16
  metadata : ∀ spec ∈ specs, spec.metadata.length ≤ 255

/-- A store other than the first: its root page, once it has one, holds its
metadata and its column size. -/
structure MountedStore (ps : PageSize) (pages : BitVec 32 → Option Frame) (r : BitVec 32) (spec : StorageSpec)
    (h : StoreHandle) : Prop where
  metadata : h.metadata = spec.metadata
  root : h.root = RootPage.initSized ps.bytes spec.colLen 0 1 spec.metadata.length
  fresh : h.rootPageRef = noRef → h.primaryRootPageRef = noRef
  page : h.rootPageRef ≠ noRef → h.primaryRootPageRef = r ∧ h.rootPageRef ≠ r ∧
    ∃ c f, pages h.rootPageRef = some f ∧ RootPage.Stores h.root formatVersion c f ∧ c.metadata = h.metadata

/-- The row `p :: others` in memory is on the pages. -/
structure Mounted (ps : PageSize) (spaceRef : BitVec 32) (numSegments colLen : ℕ) (specs : List StorageSpec)
    (s : MultiState) (p : StoreHandle) (others : List StoreHandle) : Prop where
  stores : s.stores = p :: others
  ref : s.ref = encodeRef spaceRef p.rootPageRef
  root : p.root = RootPage.initSized ps.bytes colLen numSegments (others.length + 1) p.metadata.length
  metadata : p.metadata.length ≤ 255
  valid : p.rootPageRef ≠ noRef
  own : p.primaryRootPageRef = p.rootPageRef
  page : ∃ c f, s.pages p.rootPageRef = some f ∧ RootPage.Stores p.root formatVersion c f ∧
    c.metadata = p.metadata ∧ c.otherRefs = others.map (·.rootPageRef)
  rest : List.Forall₂ (MountedStore ps s.pages p.rootPageRef) specs others
  distinct : ∀ i j, (hi : i < others.length) → (hj : j < others.length) →
    others[i].rootPageRef = others[j].rootPageRef → others[i].rootPageRef ≠ noRef → i = j
  supply : ∀ x ∈ s.supply, RootPage.Blank 0 ps.bytes x.2

theorem decodeRef_encodeRef (spaceRef pageRef : BitVec 32) :
    decodeRef (encodeRef spaceRef pageRef) = (spaceRef, pageRef) := by
  unfold decodeRef encodeRef
  rw [BitVec.extractLsb'_append_eq_right, BitVec.extractLsb'_append_eq_left]

section Api

variable {e : StorageError} {s : MultiState} {r : BitVec 32}

theorem tick_cases (e : StorageError) (s : MultiState) : ∃ fs, tick e s = (.ok (), { s with faults := fs }) ∨
    tick e s = (.error e, { s with faults := fs }) := by
  unfold tick
  split
  · exact ⟨s.faults, Or.inl rfl⟩
  · exact ⟨_, Or.inl rfl⟩
  · exact ⟨_, Or.inr rfl⟩

theorem tick_nil (h : s.faults = []) : tick e s = (.ok (), s) := by
  unfold tick
  rw [h]

theorem loadPage_cases (e : StorageError) (r : BitVec 32) (s : MultiState) : ∃ fs,
    (∃ f, s.pages r = some f ∧ loadPage e r s = (.ok f, { s with faults := fs })) ∨
    loadPage e r s = (.error e, { s with faults := fs }) := by
  obtain ⟨fs, h | h⟩ := tick_cases e s
  · refine ⟨fs, ?_⟩
    unfold loadPage
    rw [Prog.bind_apply, h]
    cases hp : s.pages r with
    | none =>
      right
      simp [hp, Prog.ofOption]
    | some f =>
      left
      exact ⟨f, rfl, by simp [hp, Prog.ofOption]⟩
  · refine ⟨fs, Or.inr ?_⟩
    unfold loadPage
    rw [Prog.bind_apply, h]

theorem loadPage_nil {f : Frame} (hf : s.faults = []) (hp : s.pages r = some f) :
    loadPage e r s = (.ok f, s) := by
  unfold loadPage
  rw [Prog.bind_apply, tick_nil hf]
  simp [hp, Prog.ofOption]

/-- A new page is none of those in use. -/
theorem loadNew_cases (e : StorageError) (s : MultiState) : ∃ fs,
    (∃ r f rest, s.supply = (r, f) :: rest ∧ r ≠ noRef ∧ s.pages r = none ∧ loadNew e s =
      (.ok (r, f), { s with pages := Function.update s.pages r (some f), supply := rest, faults := fs })) ∨
    loadNew e s = (.error e, { s with faults := fs }) := by
  obtain ⟨fs, h | h⟩ := tick_cases e s
  · refine ⟨fs, ?_⟩
    unfold loadNew
    rw [Prog.bind_apply, h]
    cases hs : s.supply with
    | nil =>
      right
      simp
    | cons x rest =>
      obtain ⟨r, f⟩ := x
      by_cases huse : r = noRef ∨ (s.pages r).isSome
      · right
        simp [huse]
      · left
        push Not at huse
        refine ⟨r, f, rest, rfl, huse.1, by simpa using huse.2, ?_⟩
        simp only [Prog.get_bind, huse.1, huse.2]
        rfl
  · refine ⟨fs, Or.inr ?_⟩
    unfold loadNew
    rw [Prog.bind_apply, h]

/-- The page with the segments only comes and goes. -/
theorem loadOwningRoot_cases (h : StoreHandle) (s : MultiState) : ∃ fs,
    loadOwningRoot h s = (.ok (), { s with faults := fs }) ∨
    ∃ e, loadOwningRoot h s = (.error e, { s with faults := fs }) := by
  unfold loadOwningRoot
  split
  · exact ⟨s.faults, Or.inl rfl⟩
  · obtain ⟨fs, ⟨f, -, hrun⟩ | hrun⟩ := loadPage_cases
      ⟨"insert: failed to load primary root page for segment", false⟩ h.primaryRootPageRef s
    · refine ⟨fs, Or.inl ?_⟩
      rw [Prog.bind_apply, hrun]
      rfl
    · refine ⟨fs, Or.inr ⟨⟨"insert: failed to load primary root page for segment", false⟩, ?_⟩⟩
      rw [Prog.bind_apply, hrun]

theorem releaseOwningRoot_cases (h : StoreHandle) (s : MultiState) : ∃ fs,
    releaseOwningRoot h s = (.ok (), { s with faults := fs }) ∨
    ∃ e, releaseOwningRoot h s = (.error e, { s with faults := fs }) := by
  unfold releaseOwningRoot
  split
  · exact ⟨s.faults, Or.inl rfl⟩
  · obtain ⟨fs, hrun | hrun⟩ := tick_cases ⟨"insert: failed to release primary root page", false⟩ s
    · exact ⟨fs, Or.inl hrun⟩
    · exact ⟨fs, Or.inr ⟨_, hrun⟩⟩

end Api

section Format

variable {ps : PageSize} {n k colLen : ℕ} {metadata : List (BitVec 8)}

/-- A page that `format` accepted. -/
theorem stores_of_format (hn : n ≤ 255) (hk : k ≤ 255) (hmeta : metadata.length ≤ 255) {f f' : Frame}
    {rp : RootPage} (hblank : RootPage.Blank n ps.bytes f)
    (h : (RootPage.initSized ps.bytes colLen n k metadata.length).format formatVersion metadata f = some (rp, f')) :
    rp = RootPage.initSized ps.bytes colLen n k metadata.length ∧
      RootPage.Stores rp formatVersion (RootContents.format metadata (k - 1)) f' := by
  have hps : 4096 ≤ ps.bytes := by cases ps <;> decide
  obtain ⟨hfit, -⟩ := @RootPage.initSized_fits ps.bytes n k colLen metadata hps hn hk hmeta
  have hok : (RootPage.initSized ps.bytes colLen n k metadata.length).columnSize ≠ 0 ∧
      (RootPage.initSized ps.bytes colLen n k metadata.length).maxFreeSlots ≠ 0 := by
    unfold RootPage.format at h
    split at h
    · cases h
    · rename_i hno
      push Not at hno
      exact ⟨hno.1, hno.2.1⟩
  obtain ⟨f1, hf1, hstores⟩ : ∃ f1, (RootPage.initSized ps.bytes colLen n k metadata.length).format
      formatVersion metadata f = some (_, f1) ∧ RootPage.Stores _ formatVersion _ f1 :=
    RootPage.stores_format hblank (Nat.lt_succ_of_le hn) hok.1 hok.2 rfl hmeta (by omega)
  rw [h, Option.some.injEq, Prod.mk.injEq] at hf1
  obtain ⟨rfl, rfl⟩ := hf1
  exact ⟨rfl, hstores⟩

end Format

/-! ### What the calls do -/

section Calls

variable {ps : PageSize} {spaceRef : BitVec 32} {n colLen : ℕ} {specs : List StorageSpec} {s s' : MultiState}
  {p : StoreHandle} {others : List StoreHandle}

/-- A page of the row stays where the pages it is on stay. -/
theorem MountedStore.congr {pages pages' : BitVec 32 → Option Frame} {r : BitVec 32} {spec : StorageSpec}
    {h : StoreHandle} (hm : MountedStore ps pages r spec h)
    (hp : h.rootPageRef ≠ noRef → h.rootPageRef ≠ r → pages' h.rootPageRef = pages h.rootPageRef) :
    MountedStore ps pages' r spec h where
  metadata := hm.metadata
  root := hm.root
  fresh := hm.fresh
  page hne := by
    obtain ⟨hown, hr, c, f, hf, hstores⟩ := hm.page hne
    exact ⟨hown, hr, c, f, (hp hne hr).trans hf, hstores⟩

/-- Only the failures to come can change without notice. -/
theorem Mounted.setFaults (h : Mounted ps spaceRef n colLen specs s p others) (fs : List Bool) :
    Mounted ps spaceRef n colLen specs { s with faults := fs } p others := ⟨h.stores, h.ref, h.root, h.metadata, h.valid, h.own,
  h.page, h.rest, h.distinct, h.supply⟩

theorem Mounted.setLog (h : Mounted ps spaceRef n colLen specs s p others) (log : List SegmentEvent) :
    Mounted ps spaceRef n colLen specs { s with log := log } p others :=
  ⟨h.stores, h.ref, h.root, h.metadata, h.valid, h.own, h.page, h.rest, h.distinct, h.supply⟩

/-- A page that was not in use changes nothing for the row. -/
theorem Mounted.allocate (h : Mounted ps spaceRef n colLen specs s p others) (f' : Frame) {r : BitVec 32} {f : Frame}
    {rest : List (BitVec 32 × Frame)} (hs : s.supply = (r, f) :: rest) (hr : s.pages r = none) (fs : List Bool) :
    Mounted ps spaceRef n colLen specs
      { s with pages := Function.update s.pages r (some f'), supply := rest, faults := fs } p others where
  stores := h.stores
  ref := h.ref
  root := h.root
  metadata := h.metadata
  valid := h.valid
  own := h.own
  page := by
    obtain ⟨c, f, hf, hstores⟩ := h.page
    refine ⟨c, f, ?_, hstores⟩
    rw [← hf]
    exact Function.update_of_ne (fun he => by rw [he, hr] at hf; cases hf) _ _
  rest := h.rest.imp fun spec hdl hm => hm.congr fun hne hnr => by
    obtain ⟨-, -, c, f, hf, -⟩ := hm.page hne
    exact Function.update_of_ne (fun he => by rw [he, hr] at hf; cases hf) _ _
  distinct := h.distinct
  supply x hx := h.supply x (by rw [hs]; exact List.mem_cons_of_mem _ hx)

/-- Pages that no store has as its root page can change. -/
theorem Mounted.congr (h : Mounted ps spaceRef n colLen specs s p others) {pages' : BitVec 32 → Option Frame}
    (hp : ∀ x ∈ p :: others, x.rootPageRef ≠ noRef → pages' x.rootPageRef = s.pages x.rootPageRef) :
    Mounted ps spaceRef n colLen specs { s with pages := pages' } p others where
  stores := h.stores
  ref := h.ref
  root := h.root
  metadata := h.metadata
  valid := h.valid
  own := h.own
  page := by
    obtain ⟨c, f, hf, hstores⟩ := h.page
    exact ⟨c, f, (hp p List.mem_cons_self h.valid).trans hf, hstores⟩
  rest := by
    rw [List.forall₂_iff_get]
    refine ⟨h.rest.length_eq, fun j h1 h2 => (h.rest.get h1 h2).congr fun hne _ => hp _ ?_ hne⟩
    exact List.mem_cons_of_mem _ (List.getElem_mem h2)
  distinct := h.distinct
  supply := h.supply

/-- A store with the root page `r` from a segment of the row's first page. -/
def mount (p h : StoreHandle) (r : BitVec 32) (segIdx : ℕ) : StoreHandle :=
  { h with rootPageRef := r, primaryRootPageRef := p.rootPageRef, segmentIndex := segIdx }

theorem Mounted.lt_length (h : Mounted ps spaceRef n colLen specs s p others) {i : ℕ} (hi : i < others.length) :
    i < specs.length := by rwa [h.rest.length_eq]

/-- The row with a new root page for one store. -/
theorem Mounted.mounted (h : Mounted ps spaceRef n colLen specs s p others) {i : ℕ} (segIdx : ℕ)
    (hi : i < others.length) {r : BitVec 32} {f f' f0 : Frame} {rest : List (BitVec 32 × Frame)}
    (hr : r ≠ noRef) (hfree : s.pages r = none) (hsupply : s.supply = (r, f) :: rest)
    (hf0 : s.pages p.rootPageRef = some f0) {c : RootContents}
    (hstores : RootPage.Stores others[i].root formatVersion c f') (hc : c.metadata = others[i].metadata)
    (fs : List Bool) :
    Mounted ps spaceRef n colLen specs
      { s with
        pages := Function.update (Function.update (Function.update s.pages r (some f)) r (some f'))
          p.rootPageRef (some (p.root.writeRootRef (i + 1) r f0))
        supply := rest
        faults := fs
        log := s.log ++ [.rootPage (i + 1) segIdx]
        stores := s.stores.set (i + 1) (mount p others[i] r segIdx) } p
      (others.set i (mount p others[i] r segIdx)) := by
  have hrp : r ≠ p.rootPageRef := by
    rintro rfl
    rw [hfree] at hf0
    cases hf0
  -- no other store has the new page
  have hother : ∀ j (hj : j < others.length), others[j].rootPageRef ≠ noRef → others[j].rootPageRef ≠ r := by
    intro j hj hne he
    obtain ⟨-, -, c1, f1, hf1, -⟩ := (h.rest.get (h.lt_length hj) hj).page hne
    rw [List.get_eq_getElem, he, hfree] at hf1
    cases hf1
  refine ⟨?_, h.ref, ?_, h.metadata, h.valid, h.own, ?_, ?_, ?_, ?_⟩
  · dsimp only
    rw [h.stores]
    rfl
  · rw [List.length_set]
    exact h.root
  · -- the reference written is the new page's
    obtain ⟨c0, f0', hf0', hstores0, hmeta0, hrefs0⟩ := h.page
    obtain rfl : f0 = f0' := Option.some.inj (hf0.symm.trans hf0')
    have hop : (RootOp.writeRootRef (i + 1) r).Allowed c0 := by
      refine ⟨Nat.succ_pos i, ?_⟩
      rw [hrefs0, List.length_map]
      exact hi
    refine ⟨_, _, Function.update_self _ _ _, RootPage.apply_stores hstores0 hop, hmeta0, ?_⟩
    show c0.otherRefs.set i r = _
    rw [hrefs0, List.map_set]
    rfl
  · rw [List.forall₂_iff_get]
    refine ⟨by rw [List.length_set]; exact h.rest.length_eq, fun j h1 h2 => ?_⟩
    rw [List.length_set] at h2
    have hj := h.rest.get h1 h2
    simp only [List.get_eq_getElem, List.getElem_set] at hj ⊢
    split
    · rename_i hij
      subst hij
      refine ⟨hj.metadata, hj.root, fun hno => absurd hno hr, fun _ => ⟨rfl, hrp, c, f', ?_, hstores, hc⟩⟩
      show (Function.update (Function.update (Function.update s.pages r (some f)) r (some f')) p.rootPageRef
        (some (p.root.writeRootRef (i + 1) r f0))) r = some f'
      rw [Function.update_of_ne hrp, Function.update_self]
    · refine hj.congr fun hne hnr => ?_
      have hjr := hother j h2 hne
      rw [Function.update_of_ne hnr, Function.update_of_ne hjr, Function.update_of_ne hjr]
  · intro j k hj hk he hne
    rw [List.length_set] at hj hk
    simp only [List.getElem_set] at he hne
    split at he
    · split at he
      · omega
      · exact absurd he.symm (hother k hk fun hno => hr (he.trans hno))
    · rename_i hij
      rw [if_neg hij] at hne
      split at he
      · exact absurd he (hother j hj hne)
      · exact h.distinct j k hj hk he hne
  · exact fun x hx => h.supply x (by rw [hsupply]; exact List.mem_cons_of_mem _ hx)

/-- **Another root page.** `init_root_page` leaves the row as it was, when it
fails, or gives the store a page that holds it. -/
theorem initRootPage_mounted (h : Mounted ps spaceRef n colLen specs s p others)
    (hmeta : ∀ spec ∈ specs, spec.metadata.length ≤ 255) {i : ℕ} (segIdx : ℕ)
    (hi : i < others.length) :
    ∃ s', (∃ e, initRootPage segIdx (i + 1) s = (.error e, s') ∧ s'.log = s.log ∧
        Mounted ps spaceRef n colLen specs s' p others) ∨
      ∃ r, r ≠ noRef ∧ initRootPage segIdx (i + 1) s = (.ok (), s') ∧
        s'.log = s.log ++ [.rootPage (i + 1) segIdx] ∧
        Mounted ps spaceRef n colLen specs s' p (others.set i (mount p others[i] r segIdx)) := by
  have hprimary : store 0 s = (.ok p, s) := by
    unfold store
    rw [h.stores]
    rfl
  have htarget : store (i + 1) s = (.ok others[i], s) := by
    unfold store
    rw [h.stores, List.getD_cons_succ, List.getD_eq_getElem _ _ hi]
  have hlt := h.lt_length hi
  have hm : MountedStore ps s.pages p.rootPageRef specs[i] others[i] := h.rest.get hlt hi
  obtain ⟨fs, ⟨f0, hf0, h1⟩ | h1⟩ := loadPage_cases
    ⟨"init_root_page: failed to load primary root page", false⟩ p.rootPageRef s
  · obtain ⟨fs', ⟨r, f, rest, hsupply, hr, hfree, h2⟩ | h2⟩ := loadNew_cases
      ⟨"init_root_page: failed to allocate page", false⟩ { s with faults := fs }
    · have halloc := fun f' => h.allocate f' hsupply hfree fs'
      have hblank := h.supply (r, f) (by rw [hsupply]; exact List.mem_cons_self)
      cases hformat : others[i].root.format formatVersion others[i].metadata f with
      | none =>
        refine ⟨{ s with pages := Function.update s.pages r (some f), supply := rest, faults := fs' },
          Or.inl ⟨⟨"init_root_page: failed to format root page", true⟩, ?_, rfl, halloc f⟩⟩
        unfold initRootPage
        simp only [Prog.bind_apply, hprimary, htarget, h1, h2, hformat]
        rfl
      | some x =>
        obtain ⟨root, f'⟩ := x
        have hmetaLen : others[i].metadata.length ≤ 255 := by
          rw [hm.metadata]
          exact hmeta _ (List.getElem_mem _)
        have hroot := hm.root
        rw [← hm.metadata] at hroot
        rw [hroot] at hformat
        obtain ⟨rfl, hstores⟩ := stores_of_format (by norm_num) (by norm_num) hmetaLen hblank hformat
        rw [← hroot] at hformat hstores
        refine ⟨_, Or.inr ⟨r, hr, ?_, ?_, h.mounted segIdx hi hr hfree hsupply hf0 hstores rfl fs'⟩⟩
        · unfold initRootPage
          simp only [Prog.bind_apply, hprimary, htarget, h1, h2, hformat]
          rfl
        · rfl
    · refine ⟨{ s with faults := fs' }, Or.inl ⟨⟨"init_root_page: failed to allocate page", false⟩, ?_, rfl,
        h.setFaults fs'⟩⟩
      unfold initRootPage
      simp only [Prog.bind_apply, hprimary, htarget, h1, h2]
  · refine ⟨{ s with faults := fs }, Or.inl ⟨⟨"init_root_page: failed to load primary root page", false⟩, ?_, rfl,
      h.setFaults fs⟩⟩
    unfold initRootPage
    simp only [Prog.bind_apply, hprimary, htarget, h1]

/-- A store read back from its page. -/
theorem loadStore_mounted {r : BitVec 32} {spec : StorageSpec} {h : StoreHandle}
    (hm : MountedStore ps s.pages r spec h) (hcol : spec.colLen < 2 ^ 16) (hmeta : spec.metadata.length ≤ 255)
    (hf : s.faults = []) : loadStore ps r h.rootPageRef.toNat spec s = (.ok h.reloaded, s) := by
  have hmod : spec.metadata.length % 2 ^ 8 = spec.metadata.length := Nat.mod_eq_of_lt (by omega)
  obtain ⟨rootRef, primaryRef, seg, metadata, root⟩ := h
  obtain ⟨rfl, rfl, hfresh, hpage⟩ := hm
  unfold loadStore
  by_cases hno : rootRef = noRef
  · obtain rfl : primaryRef = noRef := hfresh hno
    rw [if_pos (RootPage.toNat_eq_invalidRef.mpr hno), hno]
    unfold StoreHandle.init
    rw [hmod]
    rfl
  · obtain ⟨rfl, -, c, f, hfr, hstores, hc⟩ := hpage hno
    have hb : (RootPage.initSized ps.bytes spec.colLen 0 1 spec.metadata.length).Bounded :=
      ⟨show 0 < 256 by norm_num, Nat.lt_succ_of_le hmeta, show 1 - 1 < 255 by norm_num, hcol⟩
    obtain ⟨hinfo, -⟩ := hstores.readPageInfo hb
    rw [if_neg fun hi => hno (RootPage.toNat_eq_invalidRef.mp hi), BitVec.ofNat_toNat, BitVec.setWidth_eq,
      Prog.bind_apply, loadPage_nil hf hfr]
    simp only [hinfo, hc, StoreHandle.init, hmod]
    rfl

theorem loadStores_mounted {r : BitVec 32} (hf : s.faults = []) : ∀ {specs : List StorageSpec}
    {others : List StoreHandle}, List.Forall₂ (MountedStore ps s.pages r) specs others →
    (∀ spec ∈ specs, spec.colLen < 2 ^ 16 ∧ spec.metadata.length ≤ 255) →
    (((others.map (·.rootPageRef)).map (·.toNat)).zip specs).mapM (fun x => loadStore ps r x.1 x.2) s =
      (.ok (others.map (·.reloaded)), s)
  | [], [], _, _ => rfl
  | spec :: specs, h :: others, .cons hm hms, hsized => by
    have h1 := loadStore_mounted hm (hsized spec List.mem_cons_self).1 (hsized spec List.mem_cons_self).2 hf
    have h2 := loadStores_mounted hf hms fun spec' hs => hsized spec' (List.mem_cons_of_mem spec hs)
    rw [List.map_cons, List.map_cons, List.zip_cons_cons, List.mapM_cons, Prog.bind_apply, h1]
    dsimp only
    rw [Prog.bind_apply, h2]
    rfl

/-- **Load.** The row that a process `t` reads back from the pages is the row in
memory, but for the segment indexes. -/
theorem load_mounted (h : Mounted ps spaceRef n colLen specs s p others) (hs : Sized n colLen specs)
    {t : MultiState} (hpages : t.pages = s.pages) (hf : t.faults = []) (spec : StorageSpec) :
    load ps s.ref (spec :: specs) t =
      (.ok (), { t with stores := (p :: others).map (·.reloaded), ref := s.ref, log := t.log ++ [.load] }) := by
  obtain ⟨c, f, hfp, hstores, hmeta, hrefs⟩ := h.page
  rw [← hpages] at hfp
  have hlen := h.rest.length_eq
  have hpmeta := h.metadata
  have hroot := h.root
  have hb : p.root.Bounded := by
    rw [hroot]
    refine ⟨Nat.lt_succ_of_le hs.segments, Nat.lt_succ_of_le hpmeta, ?_, hs.first⟩
    have := hs.length
    show others.length + 1 - 1 < 255
    omega
  obtain ⟨hinfo, hread⟩ := hstores.readPageInfo hb
  have hstep : ((RootPage.readOtherRefs (RootPage.readPageInfo f) f).zip specs).mapM
      (fun x => loadStore ps p.rootPageRef x.1 x.2) t = (.ok (others.map (·.reloaded)), t) := by
    rw [hread, hrefs]
    exact loadStores_mounted hf (hpages.symm ▸ h.rest) fun spec hspec => ⟨hs.colLen spec hspec, hs.metadata spec hspec⟩
  have hprimary : { StoreHandle.init ps p.rootPageRef (RootPage.readPageInfo f).colLen
      (RootPage.readPageInfo f).numSegs (((RootPage.readPageInfo f).numOtherRootPages + 1) % 2 ^ 8)
      (RootPage.readPageInfo f).metadata with primaryRootPageRef := p.rootPageRef } = p.reloaded := by
    have hk : (others.length + 1 - 1 + 1) % 2 ^ 8 = others.length + 1 := by
      have := hs.length
      omega
    have hm8 : p.metadata.length % 2 ^ 8 = p.metadata.length := Nat.mod_eq_of_lt (by omega)
    have hown := h.own
    obtain ⟨rootRef, primaryRef, seg, metadata, root⟩ := p
    dsimp only at hroot hown hk hm8 hmeta hinfo
    subst hroot hown
    simp only [hinfo, hmeta, StoreHandle.init, hm8, RootPage.initSized, hk]
    rfl
  unfold load
  rw [h.ref, decodeRef_encodeRef]
  dsimp only [List.tail_cons]
  rw [Prog.bind_apply, loadPage_nil hf hfp]
  dsimp only
  rw [Prog.bind_apply, hstep]
  dsimp only
  rw [hprimary, ← h.ref]
  rfl

/-- The stores that `create` leaves without a root page. -/
def freshStores (ps : PageSize) (specs : List StorageSpec) : List StoreHandle :=
  specs.map fun spec => StoreHandle.init ps noRef spec.colLen 0 1 spec.metadata

theorem getD_freshStores (ps : PageSize) (specs : List StorageSpec) (k : ℕ) :
    ((freshStores ps specs).getD k default).rootPageRef = noRef ∧
      ((freshStores ps specs).getD k default).segmentIndex = 0 := by
  rw [freshStores, List.getD_eq_getElem?_getD, List.getElem?_map]
  cases specs[k]? <;> exact ⟨rfl, rfl⟩

theorem freshStores_mounted {pages : BitVec 32 → Option Frame} {r : BitVec 32} : ∀ {specs : List StorageSpec},
    (∀ spec ∈ specs, spec.metadata.length ≤ 255) →
    List.Forall₂ (MountedStore ps pages r) specs (freshStores ps specs)
  | [], _ => .nil
  | spec :: specs, h => by
    have hlt := h spec List.mem_cons_self
    refine .cons ⟨rfl, ?_, fun _ => rfl, fun hne => absurd rfl hne⟩
      (freshStores_mounted fun x hx => h x (List.mem_cons_of_mem spec hx))
    show RootPage.initSized ps.bytes spec.colLen 0 1 (spec.metadata.length % 2 ^ 8) = _
    rw [Nat.mod_eq_of_lt (by omega)]

/-- **Create.** The row that `create` leaves has one root page, and it is on it. -/
theorem create_mounted {spec : StorageSpec} {segment : BitVec 32 × Frame} (hs : Sized n spec.colLen specs)
    (hmeta : spec.metadata.length ≤ 255) (hseg : segment.1 ≠ noRef)
    (hblank : RootPage.Blank n ps.bytes segment.2) (hsupply : ∀ x ∈ s.supply, RootPage.Blank 0 ps.bytes x.2)
    (h : create ps spaceRef segment (spec :: specs) n s = (.ok (), s')) :
    ∃ p, p.metadata = spec.metadata ∧ p.segmentIndex = 0 ∧ s'.log = s.log ∧
      Mounted ps spaceRef n spec.colLen specs s' p (freshStores ps specs) := by
  have hlen := hs.length
  have hk : (specs.length + 1) % 2 ^ 8 = specs.length + 1 := Nat.mod_eq_of_lt (by omega)
  have hm8 : spec.metadata.length % 2 ^ 8 = spec.metadata.length := Nat.mod_eq_of_lt (by omega)
  obtain ⟨fs, h0 | h0⟩ := tick_cases ⟨"create: failed to create segment", false⟩ s
  · set s1 : MultiState := { s with
      pages := Function.update s.pages segment.1 (some segment.2)
      faults := fs
      stores := initStores ps segment.1 n (spec :: specs) } with hs1
    obtain ⟨fs', ⟨f, hf, h1⟩ | h1⟩ := loadPage_cases ⟨"create: failed to load root page", false⟩ segment.1 s1
    · obtain rfl : segment.2 = f := by
        rw [hs1] at hf
        simpa using hf
      set primary : StoreHandle := { StoreHandle.init ps segment.1 spec.colLen n
        ((specs.length + 1) % 2 ^ 8) spec.metadata with primaryRootPageRef := segment.1 } with hprimary
      have hroot : primary.root = RootPage.initSized ps.bytes spec.colLen n (specs.length + 1)
          spec.metadata.length := by
        rw [hprimary]
        unfold StoreHandle.init
        dsimp only
        rw [hk, hm8]
      have hget : s1.stores.getD 0 default = primary := rfl
      unfold create at h
      simp only [Prog.bind_apply, h0, writePage, Prog.modify_apply, ← hs1, store, hget, h1] at h
      cases hformat : primary.root.format formatVersion primary.metadata segment.2 with
      | none =>
        rw [hformat] at h
        cases h
      | some x =>
        obtain ⟨root, f'⟩ := x
        rw [hformat] at h
        rw [hroot, show primary.metadata = spec.metadata from rfl] at hformat
        obtain ⟨hrp, hstores⟩ := stores_of_format hs.segments (by omega) hmeta hblank hformat
        simp only [setStore, Prog.modify_apply, Prog.bind_apply, Prod.mk.injEq, true_and] at h
        subst h
        refine ⟨{ primary with root := root }, rfl, rfl, rfl, rfl, rfl, ?_, hmeta, hseg, rfl, ?_, ?_, ?_, hsupply⟩
        · rw [freshStores, List.length_map]
          exact hrp
        · refine ⟨_, f', Function.update_self _ _ _, hstores, rfl, ?_⟩
          simp [RootContents.format, freshStores, Function.comp_def, StoreHandle.init]
        · exact freshStores_mounted hs.metadata
        · intro i j hi hj he hne
          simp [freshStores, StoreHandle.init] at hne
    · unfold create at h
      simp only [Prog.bind_apply, h0, writePage, Prog.modify_apply, ← hs1, store, h1] at h
      cases h
  · unfold create at h
    simp only [Prog.bind_apply, h0] at h
    cases h

/-- **New metadata** of the same length for the first store: only the load of its
page can fail. -/
theorem updateMetadata_mounted (h : Mounted ps spaceRef n colLen specs s p others) {metadata : List (BitVec 8)}
    (hlen : metadata.length = p.metadata.length) :
    (∃ s', updateMetadata 0 metadata s = (.ok (), s') ∧ s'.log = s.log ∧
      Mounted ps spaceRef n colLen specs s' { p with metadata := metadata } others) ∨
    ∃ s', updateMetadata 0 metadata s = (.error ⟨"update_metadata: failed to load root page", false⟩, s') ∧
      s'.log = s.log ∧ Mounted ps spaceRef n colLen specs s' p others := by
  have hget : s.stores.getD 0 default = p := by
    rw [h.stores]
    rfl
  obtain ⟨fs, ⟨f, hf, h1⟩ | h1⟩ := loadPage_cases ⟨"update_metadata: failed to load root page", false⟩
    p.rootPageRef s
  · obtain ⟨c, f', hf', hstores, hmeta, hrefs⟩ := h.page
    obtain rfl : f = f' := Option.some.inj (hf.symm.trans hf')
    have hroot : metadata.length = p.root.storageMetadataLen := by
      rw [hlen, ← hmeta]
      exact hstores.metadata
    have hheader : p.root.updateHeader metadata f = some ((RootOp.updateHeader metadata).apply p.root f) := by
      simp only [RootOp.apply, RootPage.updateHeader, hroot, ne_eq, not_true_eq_false, if_false, Option.getD_some]
    have happly : RootPage.Stores p.root formatVersion ((RootOp.updateHeader metadata).applyTo p.root c)
        ((RootOp.updateHeader metadata).apply p.root f) := RootPage.apply_stores hstores trivial
    rw [RootOp.applyTo, if_pos hroot] at happly
    refine Or.inl ⟨{ s with
      faults := fs
      pages := Function.update s.pages p.rootPageRef (some ((RootOp.updateHeader metadata).apply p.root f))
      stores := s.stores.set 0 { p with metadata := metadata } }, ?_, rfl, ?_⟩
    · unfold updateMetadata
      simp only [Prog.bind_apply, store, hget, h1, hheader]
      rfl
    · refine ⟨?_, h.ref, ?_, ?_, h.valid, h.own, ⟨_, _, Function.update_self _ _ _, happly, rfl, hrefs⟩, ?_,
        h.distinct, h.supply⟩
      · dsimp only
        rw [h.stores]
        rfl
      · rw [hlen]
        exact h.root
      · rw [hlen]
        exact h.metadata
      · exact h.rest.imp fun spec hdl hm => hm.congr fun _ hnr => Function.update_of_ne hnr _ _
  · refine Or.inr ⟨{ s with faults := fs }, ?_, rfl, h.setFaults fs⟩
    unfold updateMetadata
    simp only [Prog.bind_apply, store, hget, h1]

/-- The changes of a root page that data pages make. -/
def OfData : RootOp → Prop
  | .updateHeader _ | .writeRootRef _ _ => False
  | _ => True

theorem applyTo_ofData {op : RootOp} (hop : OfData op) (rp : RootPage) (c : RootContents) :
    (op.applyTo rp c).metadata = c.metadata ∧ (op.applyTo rp c).otherRefs = c.otherRefs := by
  cases op with
  | updateHeader metadata => cases hop
  | writeRootRef rootIdx ref => cases hop
  | growSlots => exact ⟨rfl, rfl⟩
  | addFree r slotNumber => exact ⟨rfl, rfl⟩
  | removeFree slotNumber atHead next => exact ⟨rfl, rfl⟩
  | addData r => exact ⟨rfl, rfl⟩
  | removeData prev next => exact ⟨rfl, rfl⟩

/-- A data page's change of a root page of the row. -/
theorem Mounted.applyData (h : Mounted ps spaceRef n colLen specs s p others) {i : ℕ} {x : StoreHandle}
    (hx : (p :: others)[i]? = some x) (hinit : x.rootPageRef ≠ noRef) {f : Frame}
    (hf : s.pages x.rootPageRef = some f) {op : RootOp} (hop : OfData op)
    (hallowed : ∀ c, RootPage.Stores x.root formatVersion c f → op.Allowed c) :
    Mounted ps spaceRef n colLen specs
      { s with pages := Function.update s.pages x.rootPageRef (some (op.apply x.root f)) } p others := by
  cases i with
  | zero =>
    rw [List.getElem?_cons_zero, Option.some.injEq] at hx
    subst hx
    obtain ⟨c, f', hf', hstores, hmeta, hrefs⟩ := h.page
    obtain rfl : f = f' := Option.some.inj (hf.symm.trans hf')
    obtain ⟨hm', hr'⟩ := applyTo_ofData hop p.root c
    refine ⟨h.stores, h.ref, h.root, h.metadata, h.valid, h.own, ⟨_, _, Function.update_self _ _ _,
      RootPage.apply_stores hstores (hallowed c hstores), hm'.trans hmeta, hr'.trans hrefs⟩, ?_, h.distinct,
      h.supply⟩
    exact h.rest.imp fun spec hdl hm => hm.congr fun _ hnr => Function.update_of_ne hnr _ _
  | succ i =>
    obtain ⟨hi, rfl⟩ := List.getElem?_eq_some_iff.mp hx
    rw [List.length_cons] at hi
    rw [List.getElem_cons_succ] at hinit hf hallowed ⊢
    have hi' := Nat.lt_of_succ_lt_succ hi
    have hm := h.rest.get (h.lt_length hi') hi'
    simp only [List.get_eq_getElem] at hm
    obtain ⟨hown, hnp, c, f', hf', hstores, hmeta⟩ := hm.page hinit
    obtain rfl : f = f' := Option.some.inj (hf.symm.trans hf')
    refine ⟨h.stores, h.ref, h.root, h.metadata, h.valid, h.own, ?_, ?_, h.distinct, h.supply⟩
    · obtain ⟨c0, f0, hf0, hstores0⟩ := h.page
      exact ⟨c0, f0, (Function.update_of_ne (Ne.symm hnp) _ _).trans hf0, hstores0⟩
    · rw [List.forall₂_iff_get]
      refine ⟨h.rest.length_eq, fun j h1 h2 => ?_⟩
      have hj := h.rest.get h1 h2
      simp only [List.get_eq_getElem] at hj ⊢
      by_cases hij : j = i
      · subst hij
        refine ⟨hj.metadata, hj.root, hj.fresh, fun _ => ⟨hown, hnp, _, _, Function.update_self _ _ _,
          RootPage.apply_stores hstores (hallowed c hstores), ?_⟩⟩
        exact (applyTo_ofData hop others[j].root c).1.trans hmeta
      · exact hj.congr fun hne _ => Function.update_of_ne
          (fun he => hij (h.distinct j i h2 hi' he hne)) _ _

/-- **A data page.** Whatever its page operations do, an insert that needs a new
data page leaves the row on its pages, and the page it gets is from the
store's segment. -/
theorem allocateDataPage_mounted (h : Mounted ps spaceRef n colLen specs s p others) {i : ℕ} {x : StoreHandle}
    (hx : (p :: others)[i]? = some x) (hinit : x.rootPageRef ≠ noRef) :
    Mounted ps spaceRef n colLen specs (allocateDataPage i s).2 p others ∧
      ((allocateDataPage i s).2.log = s.log ∨
        (allocateDataPage i s).2.log = s.log ++ [.dataPage i x.segmentIndex]) := by
  have hstore : store i s = (.ok x, s) := by
    unfold store
    rw [h.stores, List.getD_eq_getElem?_getD, hx]
    rfl
  unfold allocateDataPage
  rw [Prog.bind_apply, hstore]
  dsimp only
  obtain ⟨fs, ⟨root, hroot, h1⟩ | h1⟩ := loadPage_cases ⟨"insert: failed to load root page", false⟩
    x.rootPageRef s <;> rw [Prog.bind_apply, h1]
  · obtain ⟨fs1, h2 | ⟨e, h2⟩⟩ := loadOwningRoot_cases x { s with faults := fs } <;>
      simp only [Prog.bind_apply, h2]
    · obtain ⟨fs2, ⟨r, f, rest, hsupply, hr, hfree, h3⟩ | h3⟩ := loadNew_cases
        ⟨"insert: failed to allocate new data page", false⟩ { s with faults := fs1 } <;> simp only [h3]
      · -- the page is there, and the log says from which segment
        have halloc := fun fs => (h.allocate f hsupply hfree fs).setLog (s.log ++ [.dataPage i x.segmentIndex])
        obtain ⟨fs3, h4 | ⟨e, h4⟩⟩ := releaseOwningRoot_cases x { s with
          pages := Function.update s.pages r (some f)
          supply := rest
          faults := fs2
          log := s.log ++ [.dataPage i x.segmentIndex] } <;>
          simp only [note, Prog.modify_apply, h4]
        · have hpage : Function.update s.pages r (some f) x.rootPageRef = some root := by
            rw [Function.update_of_ne (fun he => by rw [he, hfree] at hroot; cases hroot), hroot]
          have hdata : OfData (.addData r) := trivial
          exact ⟨(halloc fs3).applyData hx hinit hpage hdata fun _ _ => trivial, Or.inr rfl⟩
        · exact ⟨halloc fs3, Or.inr trivial⟩
      · exact ⟨h.setFaults fs2, Or.inl trivial⟩
    · exact ⟨h.setFaults fs1, Or.inl trivial⟩
  · exact ⟨h.setFaults fs, Or.inl rfl⟩

/-- The other changes for data pages. -/
theorem changeRoot_mounted (h : Mounted ps spaceRef n colLen specs s p others) {i : ℕ} {x : StoreHandle}
    (hx : (p :: others)[i]? = some x) (hinit : x.rootPageRef ≠ noRef) {op : RootOp} (hop : OfData op)
    (hallowed : ∀ c f, s.pages x.rootPageRef = some f → RootPage.Stores x.root formatVersion c f → op.Allowed c) :
    Mounted ps spaceRef n colLen specs (changeRoot i op s).2 p others ∧ (changeRoot i op s).2.log = s.log := by
  have hstore : store i s = (.ok x, s) := by
    unfold store
    rw [h.stores, List.getD_eq_getElem?_getD, hx]
    rfl
  unfold changeRoot
  rw [Prog.bind_apply, hstore]
  dsimp only
  obtain ⟨fs, ⟨f, hf, h1⟩ | h1⟩ := loadPage_cases ⟨"insert: failed to load root page", false⟩
    x.rootPageRef s <;> rw [Prog.bind_apply, h1]
  · exact ⟨(h.setFaults fs).applyData hx hinit hf hop fun c hc => hallowed c f hf hc, rfl⟩
  · exact ⟨h.setFaults fs, rfl⟩

/-- The row after a load. -/
theorem Mounted.reload (h : Mounted ps spaceRef n colLen specs s p others) :
    Mounted ps spaceRef n colLen specs
      { s with stores := (p :: others).map (·.reloaded), log := s.log ++ [.load] } p.reloaded
      (others.map (·.reloaded)) where
  stores := rfl
  ref := h.ref
  root := by
    rw [List.length_map]
    exact h.root
  metadata := h.metadata
  valid := h.valid
  own := h.own
  page := by
    rw [List.map_map]
    exact h.page
  rest := by
    rw [List.forall₂_map_right_iff]
    exact h.rest.imp fun spec x hm => ⟨hm.metadata, hm.root, hm.fresh, hm.page⟩
  distinct i j hi hj he hne := by
    rw [List.length_map] at hi hj
    simp only [List.getElem_map] at he hne
    exact h.distinct i j hi hj he hne
  supply := h.supply

end Calls

end MultiColumnStore
end VsqlVector
