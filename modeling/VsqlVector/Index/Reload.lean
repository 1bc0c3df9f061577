/-
# Runs of an index's storage

An index lives through many processes: one creates it, inserts into it, adds
levels and moves its entry point, another loads it and goes on. `StorageStep`
has what any of them does, with whatever page operations failing.

In every state such a run comes through, the pages hold what is in memory, so
a load of the index reconstructs it (`load_reconstructs`). What is not on the
pages is the segment that a store takes its data pages from. `init_root_page`
sets it, and `ensure_levels` does not call that again for a store that has its
root page. So after a load the stores of the upper levels take data pages from
the segment of level 0, until they are made anew, which never happens
(`dataPage_segment`).

Key definitions: `Created`, `StorageStep`.
Key theorems: `reached_whole`, `load_reconstructs`, `dataPage_segment`.
-/
import VsqlVector.Index.IndexStore
import VsqlVector.Lib.Runs

namespace VsqlVector
namespace Hnsw
namespace IndexStore

/-! ### Runs -/

/-- What the index relies on of `IndexScanKey::EMPTY_REF`: it fits the field of a
reference and is the reference of no record. -/
structure NoRecord (emptyRef : ℕ) : Prop where
  lt : emptyRef < 2 ^ 64
  ne : ∀ nid, nid ≠ invalidId → nid < 2 ^ incomingBit → nid ≠ emptyRef

section Runs

variable (ps : PageSize) (emptyRef : ℕ) (spaceRef : BitVec 32) (M : ℕ)

/-- `create` made the index, on pages as the server hands them out. -/
def Created (s : IndexState) : Prop :=
  ∃ s₀ segment, segment.1 ≠ noRef ∧ RootPage.Blank segmentTotal ps.bytes segment.2 ∧
    (∀ x ∈ s₀.multi.supply, RootPage.Blank 0 ps.bytes x.2) ∧ s₀.multi.log = [] ∧
    create ps emptyRef spaceRef segment M s₀ = (.ok (), s)

/-- The pages the server has to hand out and the page operations that will fail. -/
def serve (supply : List (BitVec 32 × Frame)) (faults : List Bool) (s : IndexState) : IndexState :=
  { s with multi := { s.multi with supply := supply, faults := faults } }

/-- A write to a page. -/
def write (r : BitVec 32) (f : Frame) (s : IndexState) : IndexState :=
  { s with multi := { s.multi with pages := Function.update s.multi.pages r (some f) } }

/-- What an insert of a record does to the pages: a new data page, where one is
needed, changes of its store's root page and writes to data pages. -/
inductive RecordStep : IndexState → IndexState → Prop
  | dataPage {s : IndexState} (level : ℕ) (overflow : Bool) : s.levels level →
    RecordStep s (onStores (MultiColumnStore.allocateDataPage (rootIndex level overflow)) s).2
  | changeRoot {s : IndexState} (level : ℕ) (overflow : Bool) (op : RootOp) : s.levels level →
    MultiColumnStore.OfData op →
    (∀ x c f, s.multi.stores[rootIndex level overflow]? = some x → s.multi.pages x.rootPageRef = some f →
      RootPage.Stores x.root MultiColumnStore.formatVersion c f → op.Allowed c) →
    RecordStep s (onStores (MultiColumnStore.changeRoot (rootIndex level overflow) op) s).2
  | write {s : IndexState} (r : BitVec 32) (f : Frame) :
    (∀ x ∈ s.multi.stores, x.rootPageRef ≠ r) → RecordStep s (write r f s)

/-- A step of a run. -/
inductive StorageStep : IndexState → IndexState → Prop
  | serve {s : IndexState} (supply : List (BitVec 32 × Frame)) (faults : List Bool) :
    (∀ x ∈ supply, RootPage.Blank 0 ps.bytes x.2) → StorageStep s (serve supply faults s)
  | ensureLevels {s : IndexState} (target : ℕ) : target < maxLevel →
    StorageStep s (ensureLevels target s).2
  | setEntryPoint {s : IndexState} (node : RawNode) (level : ℕ) : s.levels level →
    node.nid < 2 ^ incomingBit → StorageStep s (setEntryPoint emptyRef node level s).2
  | record {s s' : IndexState} : RecordStep s s' → StorageStep s s'
  | load {s s' : IndexState} (dataPages : ℕ → Option Page) : s.multi.faults = [] →
    load ps emptyRef dataPages s.multi.ref M s = (.ok (), s') → StorageStep s s'

/-- The states that runs come through. -/
abbrev Reached : IndexState → Prop := Reaches (Created ps emptyRef spaceRef M) (StorageStep ps emptyRef M)

end Runs

section Reached

variable {ps : PageSize} {emptyRef : ℕ} {spaceRef : BitVec 32} {M : ℕ} {s s' : IndexState} {p : StoreHandle}
  {others : List StoreHandle} {level : ℕ}

/-- Both stores of a level that is there have a root page. -/
theorem Whole.getElem?_level (h : Whole ps emptyRef spaceRef M s p others) (hl : s.levels level) (overflow : Bool) :
    ∃ x, (p :: others)[rootIndex level overflow]? = some x ∧ x.rootPageRef ≠ noRef := by
  obtain ⟨hlt, hf, ht⟩ := (h.levels level).mp hl
  have hhalf : half s.multi.stores level overflow := by
    cases overflow
    · exact hf
    · exact ht
  unfold half at hhalf
  rw [h.mounted.stores, List.getD_eq_getElem?_getD] at hhalf
  cases hx : (p :: others)[rootIndex level overflow]? with
  | none =>
    rw [hx] at hhalf
    cases hhalf
  | some x =>
    rw [hx] at hhalf
    exact ⟨x, rfl, of_decide_eq_true hhalf⟩

theorem reloadEntryPoint_nid {dataPages : ℕ → Option Page} {node : RawNode}
    (h : reloadEntryPoint ps dataPages s = .ok node) : node.nid = s.entryPoint.nid := by
  unfold reloadEntryPoint at h
  split at h
  · rename_i hnid
    cases h
    exact hnid.symm
  · cases howner : resolveOwner ps dataPages s.numNeighbours s.entryLevel s.entryPoint.nid with
    | error e =>
      rw [howner] at h
      cases h
    | ok vid =>
      rw [howner] at h
      cases h
      rfl

theorem serve_whole (h : Whole ps emptyRef spaceRef M s p others) {supply : List (BitVec 32 × Frame)}
    (hblank : ∀ x ∈ supply, RootPage.Blank 0 ps.bytes x.2) (faults : List Bool) :
    Whole ps emptyRef spaceRef M (serve supply faults s) p others := by
  refine h.of_stores ?_ (h.traced.congr (fun _ => rfl) rfl)
  exact ⟨h.mounted.stores, h.mounted.ref, h.mounted.root, h.mounted.metadata, h.mounted.valid, h.mounted.own,
    h.mounted.page, h.mounted.rest, h.mounted.distinct, hblank⟩

/-- The pages of a record change nothing that the index has in memory. -/
structure SameMemory (s s' : IndexState) : Prop where
  levels : s'.levels = s.levels
  entryPoint : s'.entryPoint = s.entryPoint
  entryLevel : s'.entryLevel = s.entryLevel
  stores : s'.multi.stores = s.multi.stores

theorem record_whole (h : Whole ps emptyRef spaceRef M s p others) (hstep : RecordStep s s') :
    Whole ps emptyRef spaceRef M s' p others ∧ SameMemory s s' := by
  cases hstep with
  | dataPage level overflow hl =>
    obtain ⟨x, hx, hinit⟩ := h.getElem?_level hl overflow
    have hget : s.multi.stores.getD (rootIndex level overflow) default = x := by
      rw [h.mounted.stores, List.getD_eq_getElem?_getD, hx]
      rfl
    obtain ⟨hm, hlog⟩ := MultiColumnStore.allocateDataPage_mounted h.mounted hx hinit
    have hstores := hm.stores.trans h.mounted.stores.symm
    refine ⟨h.of_stores hm ?_, rfl, rfl, rfl, hstores⟩
    rcases hlog with hlog | hlog
    · exact h.traced.congr (fun _ => by rw [hstores]) hlog
    · exact h.traced.dataPage hstores (hget.symm ▸ hlog)
  | changeRoot level overflow op hl hop hallowed =>
    obtain ⟨x, hx, hinit⟩ := h.getElem?_level hl overflow
    obtain ⟨hm, hlog⟩ := MultiColumnStore.changeRoot_mounted h.mounted hx hinit hop fun c f hf hc =>
      hallowed x c f (h.mounted.stores ▸ hx) hf hc
    have hstores := hm.stores.trans h.mounted.stores.symm
    exact ⟨h.of_stores hm (h.traced.congr (fun _ => by rw [hstores]) hlog), rfl, rfl, rfl, hstores⟩
  | write r f hr =>
    refine ⟨h.of_stores (h.mounted.congr fun x hx _ => ?_) (h.traced.congr (fun _ => rfl) rfl), rfl, rfl, rfl, rfl⟩
    exact Function.update_of_ne (hr x (h.mounted.stores ▸ hx)) _ _

/-- **One step** keeps the index on its pages. -/
theorem step_whole (hempty : NoRecord emptyRef) (h : Whole ps emptyRef spaceRef M s p others)
    (hstep : StorageStep ps emptyRef M s s') : ∃ p' others', Whole ps emptyRef spaceRef M s' p' others' := by
  cases hstep with
  | serve supply faults hblank => exact ⟨p, others, serve_whole h hblank faults⟩
  | ensureLevels target ht => exact ⟨p, (ensureLevels_whole h ht).whole⟩
  | setEntryPoint node level hl hnid =>
    have hlt : node.nid < 2 ^ 64 := hnid.trans (by norm_num [incomingBit])
    obtain ⟨s1, p1, hrun, -, -, -, hw⟩ | ⟨s1, hrun, -, -, -, hw⟩ := setEntryPoint_whole h hempty.lt hl hlt
      fun hne => hempty.ne node.nid hne hnid
    · rw [hrun]
      exact ⟨p1, others, hw⟩
    · rw [hrun]
      exact ⟨p, others, hw⟩
  | record hrecord => exact ⟨p, others, (record_whole h hrecord).1⟩
  | load dataPages hf hrun =>
    rw [load_whole h hempty.lt rfl hf] at hrun
    cases hentry : reloadEntryPoint ps dataPages s with
    | error e =>
      rw [hentry] at hrun
      cases hrun
    | ok node =>
      rw [hentry] at hrun
      cases hrun
      exact ⟨_, _, h.reload (reloadEntryPoint_nid hentry)⟩

/-- **The invariant of all runs.** -/
theorem reached_whole (hempty : NoRecord emptyRef) (h : Reached ps emptyRef spaceRef M s) :
    ∃ p others, Whole ps emptyRef spaceRef M s p others := by
  refine h.invariant (I := fun s => ∃ p others, Whole ps emptyRef spaceRef M s p others) (fun s hinit => ?_)
    fun s s' hI hstep => ?_
  · obtain ⟨s₀, segment, hseg, hblank, hsupply, hlog, hrun⟩ := hinit
    exact create_whole hseg hblank hsupply hlog hrun
  · obtain ⟨p, others, hw⟩ := hI
    exact step_whole hempty hw hstep

/-- The levels go from 0 to the top. -/
theorem Whole.exists_top (h : Whole ps emptyRef spaceRef M s p others) :
    ∃ top, s.entryLevel ≤ top ∧ top < maxLevel ∧ ∀ l, s.levels l ↔ l ≤ top := by
  have hle : ∀ {l}, s.levels l → l ≤ maxLevel - 1 := fun hl => Nat.le_pred_of_lt (h.levels_lt hl)
  have hspec : s.levels (Nat.findGreatest (fun l => s.levels l) (maxLevel - 1)) :=
    Nat.findGreatest_spec (P := fun l => s.levels l) (hle h.entryLevel) h.entryLevel
  refine ⟨Nat.findGreatest (fun l => s.levels l) (maxLevel - 1), Nat.le_findGreatest (hle h.entryLevel) h.entryLevel,
    h.levels_lt hspec, fun l => ⟨fun hl => Nat.le_findGreatest (hle hl) hl, fun hl => h.prefix_levels hspec hl⟩⟩

/-! ### Load -/

/-- The record of `nid` is stored at a level, with the owner `vid`. -/
def OwnedBy (ps : PageSize) (dataPages : ℕ → Option Page) (L : LevelLayout) (nid vid : ℕ) : Prop :=
  ∃ p stored, dataPages (DataPage.decodeColumnRef (columnRef nid)).1 = some p ∧
    Serial.Entry L (dataLayout ps L) p (DataPage.decodeColumnRef (columnRef nid)).2 stored ∧ stored.owner = vid

theorem resolveOwner_of_ownedBy {dataPages : ℕ → Option Page} {level nid vid : ℕ}
    (h : OwnedBy ps dataPages ⟨level, M⟩ nid vid) : resolveOwner ps dataPages M level nid = .ok vid := by
  obtain ⟨p, stored, hp, hentry, rfl⟩ := h
  have hfetch := hentry false ⟨invalidId, invalidId, [], invalidId⟩ ⟨true, false, false, false⟩ .all none
    (by intro i hi; cases hi)
  unfold resolveOwner
  dsimp only
  rw [hp]
  dsimp only
  rw [hfetch]
  rfl

/-- What a store has on its pages. -/
structure SameStore (x y : StoreHandle) : Prop where
  rootPageRef : y.rootPageRef = x.rootPageRef
  primaryRootPageRef : y.primaryRootPageRef = x.primaryRootPageRef
  columnSize : y.root.columnSize = x.root.columnSize
  metadata : y.metadata = x.metadata

/-- The index `s'` is the index `s` again, with the entry point's owner `vid`. -/
structure Reconstructed (vid : ℕ) (s s' : IndexState) : Prop where
  ref : s'.multi.ref = s.multi.ref
  stores : List.Forall₂ SameStore s.multi.stores s'.multi.stores
  levels : s'.levels = s.levels
  numNeighbours : s'.numNeighbours = s.numNeighbours
  entryLevel : s'.entryLevel = s.entryLevel
  entryNid : s'.entryPoint.nid = s.entryPoint.nid
  entryVid : s.entryPoint.nid ≠ invalidId → s'.entryPoint.vid = vid

theorem reconstructed_reloaded (t : IndexState) {node : RawNode} {vid : ℕ} (hnid : node.nid = s.entryPoint.nid)
    (hvid : s.entryPoint.nid ≠ invalidId → node.vid = vid) : Reconstructed vid s (reloaded t s node) where
  ref := rfl
  stores := by
    unfold reloaded
    dsimp only
    rw [List.forall₂_map_right_iff, List.forall₂_same]
    exact fun x _ => ⟨rfl, rfl, rfl, rfl⟩
  levels := rfl
  numNeighbours := rfl
  entryLevel := rfl
  entryNid := hnid
  entryVid := hvid

/-- **A load reconstructs the index.** After every run of an index, whatever page
operations failed in it: a process that finds the pages and the record of the
entry point loads the index as it was; the levels go from 0 up to one that is
not below the entry level, and are those with both root pages; and
`set_entry_point` cannot fail but for the load of the root page. -/
theorem load_reconstructs (hempty : NoRecord emptyRef) (h : Reached ps emptyRef spaceRef M s) :
    (∀ t dataPages vid, t.multi.pages = s.multi.pages → t.multi.faults = [] →
      (s.entryPoint.nid ≠ invalidId → OwnedBy ps dataPages ⟨s.entryLevel, M⟩ s.entryPoint.nid vid) →
      ∃ s', load ps emptyRef dataPages s.multi.ref M t = (.ok (), s') ∧ Reconstructed vid s s') ∧
    (∃ top, s.entryLevel ≤ top ∧ top < maxLevel ∧ ∀ l, s.levels l ↔ l ≤ top) ∧
    (∀ l, s.levels l ↔ l < maxLevel ∧ half s.multi.stores l false ∧ half s.multi.stores l true) ∧
    ∀ node level e s', s.levels level → node.nid < 2 ^ incomingBit →
      setEntryPoint emptyRef node level s = (.error e, s') →
      e = ⟨"update_metadata: failed to load root page", false⟩ := by
  obtain ⟨p, others, hw⟩ := reached_whole hempty h
  refine ⟨fun t dataPages vid hpages hf howned => ?_, hw.exists_top, hw.levels, fun node level e s' hl hnid hrun => ?_⟩
  · have hload := load_whole hw hempty.lt hpages hf dataPages
    unfold reloadEntryPoint at hload
    by_cases hnid : s.entryPoint.nid = invalidId
    · rw [if_pos hnid] at hload
      exact ⟨_, hload, reconstructed_reloaded t hnid.symm fun hne => absurd hnid hne⟩
    · rw [if_neg hnid, hw.numNeighbours, resolveOwner_of_ownedBy (howned hnid)] at hload
      exact ⟨_, hload, reconstructed_reloaded t rfl fun _ => rfl⟩
  · have hlt : node.nid < 2 ^ 64 := hnid.trans (by norm_num [incomingBit])
    obtain ⟨s1, p1, hrun1, -⟩ | ⟨s1, hrun1, -⟩ := setEntryPoint_whole hw hempty.lt hl hlt
      fun hne => hempty.ne node.nid hne hnid
    · cases hrun.symm.trans hrun1
    · cases hrun.symm.trans hrun1
      rfl

/-! ### A run -/

/-- A server with blank pages to hand out. -/
def blankServer : MultiState where
  pages := fun _ => none
  supply := [(5, fun _ => 0), (6, fun _ => 0), (7, fun _ => 0), (8, fun _ => 0), (10, fun _ => 0)]
  faults := []
  log := []
  ref := 0
  stores := []

/-- A process that has no index yet. -/
def newProcess : IndexState := ⟨blankServer, fun _ => false, 0, 0, .invalid⟩

/-- The page of a new index: two segments. -/
def segmentPage : BitVec 32 × Frame := (4, fun i => if i = 38 then 2 else 0)

/-- The index after `create` and after `ensure_levels` of level 1. -/
def newIndex : IndexState := (create .k16 (2 ^ 64 - 1) 1 segmentPage 2 newProcess).2
def twoLevels : IndexState := (ensureLevels 1 newIndex).2

theorem noRecord_max : NoRecord (2 ^ 64 - 1) :=
  ⟨by norm_num, fun nid _ hlt he => by
    replace hlt : nid < 2 ^ 46 := hlt
    omega⟩

set_option maxRecDepth 10000 in
theorem created_newIndex : Created .k16 (2 ^ 64 - 1) 1 2 newIndex := by
  have hzero : ∀ x ∈ blankServer.supply, RootPage.Blank 0 PageSize.k16.bytes x.2 := by
    intro x hx
    have hx0 : x.2 = fun _ => 0 := by
      simp only [blankServer, List.mem_cons, List.not_mem_nil, or_false] at hx
      rcases hx with rfl | rfl | rfl | rfl | rfl <;> rfl
    rw [hx0]
    exact ⟨rfl, fun _ _ _ => rfl⟩
  refine ⟨newProcess, segmentPage, by decide, ⟨rfl, fun i hi _ => if_neg ?_⟩, hzero, rfl, ?_⟩
  · have : pageHeaderSize = 38 := rfl
    omega
  · exact Prog.returns_of_fst rfl

theorem reached_twoLevels : Reached .k16 (2 ^ 64 - 1) 1 2 twoLevels :=
  (Reaches.init created_newIndex).step (.ensureLevels 1 (by decide))

/-- A data page of level 1 with the record of an entry point. -/
def entryPage : Page :=
  (Serial.insertEntry ⟨1, 2⟩ 0 7 ⟨5, 3, [], 0⟩).apply (dataLayout .k16 ⟨1, 2⟩) (LevelLayout.mk 1 2).entryLen
    ((dataLayout .k16 ⟨1, 2⟩).format 3 Page.zero)

theorem ownedBy_entryPage : OwnedBy .k16 (fun r => if r = 9 then some entryPage else none) ⟨1, 2⟩ 9 5 := by
  have hfetch : (dataLayout .k16 ⟨1, 2⟩).fetch (LevelLayout.mk 1 2).entryLen 0 entryPage =
      .ok ⟨Serial.formatEntry ⟨1, 2⟩ ⟨5, 3, [], 0⟩, 7, false⟩ := by decide +kernel
  exact ⟨entryPage, _, rfl, Serial.entry_of_fetch hfetch, by decide⟩

/-- The entry point set on level 1, cleared in memory, and loaded. -/
theorem load_reconstructs_two_levels :
    let s := (setEntryPoint (2 ^ 64 - 1) ⟨9, 5⟩ 1 twoLevels).2
    ∃ s', load .k16 (2 ^ 64 - 1) (fun r => if r = 9 then some entryPage else none) s.multi.ref 2
        { newProcess with multi := { blankServer with pages := s.multi.pages } } = (.ok (), s') ∧
      s'.entryPoint = ⟨9, 5⟩ ∧ s'.entryLevel = 1 ∧ s'.levels 1 := by
  intro s
  have hreached : Reached .k16 (2 ^ 64 - 1) 1 2 s :=
    reached_twoLevels.step (.setEntryPoint ⟨9, 5⟩ 1 (by decide +kernel) (by norm_num [incomingBit]))
  have hnid : s.entryPoint.nid = 9 := by decide +kernel
  have hlevel : s.entryLevel = 1 := by decide +kernel
  obtain ⟨s', hrun, hr⟩ := (load_reconstructs noRecord_max hreached).1
    { newProcess with multi := { blankServer with pages := s.multi.pages } }
    (fun r => if r = 9 then some entryPage else none) 5 rfl rfl fun _ => by
      rw [hnid, hlevel]
      exact ownedBy_entryPage
  have hvid := hr.entryVid (by rw [hnid]; decide)
  refine ⟨s', hrun, ?_, hr.entryLevel.trans hlevel, ?_⟩
  · rw [← hvid, ← hnid, ← hr.entryNid]
  · rw [hr.levels]
    decide +kernel

/-! ### Segments -/

/-- **The segment of a data page.** In every run, a data page that a store takes is
from the segment of the store's level exactly where the level is 0 or the
store's root page was made since the index was last loaded. -/
theorem dataPage_segment (hempty : NoRecord emptyRef) (h : Reached ps emptyRef spaceRef M s) {i seg : ℕ}
    {pre post : List SegmentEvent} (hlog : s.multi.log = pre ++ .dataPage i seg :: post) :
    seg = segmentIndex (i / 2) ↔ i / 2 = 0 ∨ madeHere pre i := by
  obtain ⟨p, others, hw⟩ := reached_whole hempty h
  rw [hw.traced.dataPages pre post i seg hlog]
  unfold segmentFrom segmentIndex
  by_cases hmade : madeHere pre i
  · simp [hmade]
  · by_cases hlevel : i / 2 = 0
    · simp [hlevel]
    · simp [hmade, hlevel]

/-- Two levels, a record of level 1, a load, and a record of level 1 that needs a
new data page. -/
def oneRecord : IndexState := (onStores (MultiColumnStore.allocateDataPage 2) twoLevels).2
def loadedAgain : IndexState := (load .k16 (2 ^ 64 - 1) (fun _ => none) oneRecord.multi.ref 2 oneRecord).2
def twoRecords : IndexState := (onStores (MultiColumnStore.allocateDataPage 2) loadedAgain).2

theorem reached_twoRecords : Reached .k16 (2 ^ 64 - 1) 1 2 twoRecords := by
  have hrun : load .k16 (2 ^ 64 - 1) (fun _ => none) oneRecord.multi.ref 2 oneRecord = (.ok (), loadedAgain) :=
    Prog.returns_of_fst (by decide +kernel)
  exact ((reached_twoLevels.step (.record (.dataPage 1 false (by decide +kernel)))).step
    (.load _ (by decide +kernel) hrun)).step (.record (.dataPage 1 false (by decide +kernel)))

theorem twoRecords_log : twoRecords.multi.log =
    [.rootPage 1 0, .rootPage 2 1, .rootPage 3 1, .dataPage 2 1, .load, .dataPage 2 0] := by
  decide +kernel

/-- After the load level 1 takes its data page from the segment of level 0. -/
theorem not_segment_of_level :
    ¬ ∀ s, Reached .k16 (2 ^ 64 - 1) 1 2 s → ∀ i seg, .dataPage i seg ∈ s.multi.log → seg = segmentIndex (i / 2) := by
  intro h
  have h0 := h twoRecords reached_twoRecords 2 0 (by simp [twoRecords_log])
  cases h0

/-- The same run, event by event. -/
theorem dataPage_segment_two_records : (1 = segmentIndex 1 ∧ madeHere [.rootPage 1 0, .rootPage 2 1, .rootPage 3 1] 2) ∧
    ¬ madeHere [.rootPage 1 0, .rootPage 2 1, .rootPage 3 1, .dataPage 2 1, .load] 2 := by
  have h1 : twoRecords.multi.log =
      [.rootPage 1 0, .rootPage 2 1, .rootPage 3 1] ++ .dataPage 2 1 :: [.load, .dataPage 2 0] := twoRecords_log
  have h2 : twoRecords.multi.log =
      [.rootPage 1 0, .rootPage 2 1, .rootPage 3 1, .dataPage 2 1, .load] ++ .dataPage 2 0 :: [] := twoRecords_log
  refine ⟨⟨rfl, ?_⟩, fun hmade => ?_⟩
  · exact ((dataPage_segment noRecord_max reached_twoRecords h1).mp rfl).resolve_left (by decide)
  · cases (dataPage_segment noRecord_max reached_twoRecords h2).mpr (.inr hmade)

end Reached

end IndexStore
end Hnsw
end VsqlVector
