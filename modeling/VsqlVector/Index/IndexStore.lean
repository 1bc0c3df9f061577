/-
# The storage of an index

`IndexStore` (`src/index/hnsw/storage.cc`) keeps an index in 64 column stores,
two for each of 32 levels. The entry point and its level stand in the metadata
of the first store's root page, which `set_entry_point` rewrites in place;
`ensure_levels` creates the root pages of further levels, each level in two
steps that can fail; and `load` rebuilds the index from its storage reference.

Whatever fails on the way, what is in memory is on the pages (`Whole`): every
call keeps it, and `load` reads it back (`load_whole`). The log of the row
accounts for the segment that each store takes its data pages from (`Traced`).

Key definitions: `StorageMeta`, `IndexStore.ensureLevels`,
`IndexStore.setEntryPoint`, `IndexStore.load`, `IndexStore.Whole`.
Key theorems: `StorageMeta.decode_encode`, `IndexStore.create_whole`,
`IndexStore.ensureLevels_whole`, `IndexStore.setEntryPoint_whole`,
`IndexStore.load_whole`.
-/
import VsqlVector.Storage.MultiStore
import VsqlVector.Index.Serial

namespace VsqlVector
namespace Hnsw

/-! ### The metadata of a store -/

/-- `StorageMeta`. -/
structure StorageMeta where
  name : List (BitVec 8)
  level : ℕ
  entryLevel : ℕ
  entryPoints : List ℕ
  deriving DecidableEq, Repr

namespace StorageMeta

def version : ℕ := 1
def entryPointLen : ℕ := 8

/-- `StorageMeta::encode`. -/
def encode (m : StorageMeta) : List (BitVec 8) :=
  Bytes.encode 1 version ++ Bytes.encode 1 m.name.length ++ m.name ++ Bytes.encode 1 m.level ++
    Bytes.encode 1 m.entryLevel ++ Bytes.encode 1 m.entryPoints.length ++
    m.entryPoints.flatMap (Bytes.encode entryPointLen)

/-- `read1` of `StorageMeta::decode`: a byte and what is left. -/
def read1 : List (BitVec 8) → Option (ℕ × List (BitVec 8))
  | [] => none
  | b :: rest => some (b.toNat, rest)

/-- `StorageMeta::decode`; `none` is malformed input. -/
def decode (data : List (BitVec 8)) : Option StorageMeta := do
  let (v, data) ← read1 data
  if v ≠ version then none
  else
    let (nameLen, data) ← read1 data
    if data.length < nameLen then none
    else
      let name := data.take nameLen
      let (level, data) ← read1 (data.drop nameLen)
      let (entryLevel, data) ← read1 data
      let (numEps, data) ← read1 data
      if data.length < numEps * entryPointLen then none
      else
        some ⟨name, level, entryLevel,
          (List.range numEps).map fun i => Bytes.decode (Bytes.chunk entryPointLen data i)⟩

/-- Metadata whose fields have their sizes. -/
structure Fits (m : StorageMeta) : Prop where
  name : m.name.length < 256
  level : m.level < 256
  entryLevel : m.entryLevel < 256
  length : m.entryPoints.length < 256
  entryPoints : ∀ r ∈ m.entryPoints, r < 2 ^ 64

theorem read1_encode {v : ℕ} (h : v < 256) (rest : List (BitVec 8)) :
    read1 (Bytes.encode 1 v ++ rest) = some (v, rest) := by
  simp [Bytes.encode, read1, Nat.mod_eq_of_lt h]

/-- **The metadata can be read back.** -/
theorem decode_encode {m : StorageMeta} (h : m.Fits) : decode m.encode = some m := by
  have hlen : (m.entryPoints.flatMap (Bytes.encode entryPointLen)).length = m.entryPoints.length * entryPointLen := by
    rw [Bytes.length_flatMap_const (Bytes.length_encode entryPointLen), Nat.mul_comm]
  have heps : (List.range m.entryPoints.length).map (fun i => Bytes.decode (Bytes.chunk entryPointLen
      (m.entryPoints.flatMap (Bytes.encode entryPointLen)) i)) = m.entryPoints := by
    apply List.ext_getElem (by simp)
    intro i h1 h2
    have hw : ∀ v, (Bytes.encode entryPointLen v).length = 1 * entryPointLen := fun v => by
      rw [Bytes.length_encode, Nat.one_mul]
    have hchunk := Bytes.chunk_flatMap (w := 1) (j := 0) hw Nat.one_pos h2
    rw [Nat.one_mul, Nat.add_zero, Bytes.chunk_self (Bytes.length_encode _ _)] at hchunk
    rw [List.getElem_map, List.getElem_range, hchunk]
    exact Bytes.decode_encode_of_lt ((h.entryPoints _ (List.getElem_mem h2)).trans_le (by norm_num [entryPointLen]))
  unfold decode encode
  simp only [List.append_assoc]
  rw [read1_encode (by decide)]
  simp only [Option.bind_eq_bind, Option.bind_some, ne_eq, not_true_eq_false, if_false]
  rw [read1_encode h.name]
  simp only [Option.bind_some]
  rw [if_neg (by simp), List.take_left, List.drop_left, read1_encode h.level]
  simp only [Option.bind_some]
  rw [read1_encode h.entryLevel]
  simp only [Option.bind_some]
  rw [read1_encode h.length]
  simp only [Option.bind_some]
  rw [if_neg (by rw [hlen]; omega), heps]

theorem length_encode (m : StorageMeta) :
    m.encode.length = 5 + m.name.length + m.entryPoints.length * entryPointLen := by
  unfold encode
  simp only [List.length_append, Bytes.length_encode,
    Bytes.length_flatMap_const (Bytes.length_encode entryPointLen)]
  ring

end StorageMeta

/-! ### The index -/

/-- The server's pages with the `MultiColumnStore`, and the fields of an
`IndexStore`: which of `m_levels` have a value, the number of neighbours and
the entry point with its level. -/
structure IndexState where
  multi : MultiState
  levels : ℕ → Bool
  numNeighbours : ℕ
  entryLevel : ℕ
  entryPoint : RawNode

abbrev IndexProg := Prog StorageError IndexState

namespace IndexStore

/-- A call of the `MultiColumnStore`. -/
def onStores {α : Type} (m : MultiProg α) : IndexProg α := fun s =>
  ((m s.multi).1, { s with multi := (m s.multi).2 })

/-- `S_MAX_LEVEL`. -/
def maxLevel : ℕ := 32

/-- `segment_total`. -/
def segmentTotal : ℕ := 2

/-- `entry_len`. -/
def entryLen (M level : ℕ) : ℕ := (LevelLayout.mk level M).entryLen % 2 ^ 16

/-- `overflow_len`. -/
def overflowLen (M level : ℕ) : ℕ := (LevelLayout.mk level M).overflowLen % 2 ^ 16

/-- `segment_index`. -/
def segmentIndex (level : ℕ) : ℕ := if level = 0 then 0 else 1

/-- `root_index`. -/
def rootIndex (level : ℕ) (overflow : Bool) : ℕ := level * 2 + if overflow then 1 else 0

def nameBytes (name : String) : List (BitVec 8) := name.toList.map fun c => BitVec.ofNat 8 c.toNat

/-- The name of a level's store. -/
def storeName (level : ℕ) (overflow : Bool) : List (BitVec 8) :=
  nameBytes ("HNSW-L" ++ toString level ++ if overflow then "-OV" else "")

section Calls

-- the server's page size, and `IndexScanKey::EMPTY_REF`
variable (ps : PageSize) (emptyRef : ℕ)

/-- The reference of an entry point as it is stored. -/
def entryRef (nid : ℕ) : ℕ := if nid ≠ invalidId then nid else emptyRef

/-- The metadata of a store of `build_storage_specs`: the first one has the entry
level and the entry point. -/
def storeMeta (entryNid entryLevel level : ℕ) (overflow : Bool) : StorageMeta where
  name := storeName level overflow
  level := level
  entryLevel := if level = 0 ∧ ¬ overflow then entryLevel else 0
  entryPoints := if level = 0 ∧ ¬ overflow then [entryRef emptyRef entryNid] else []

/-- `build_storage_specs`. -/
def buildStorageSpecs (M entryNid entryLevel : ℕ) : List StorageSpec :=
  (List.range maxLevel).flatMap fun level =>
    [⟨entryLen M level, (storeMeta emptyRef entryNid entryLevel level false).encode⟩,
      ⟨overflowLen M level, (storeMeta emptyRef entryNid entryLevel level true).encode⟩]

/-- `IndexStore::create` of a new object, with the page that `Segment::create`
hands out. -/
def create (spaceRef : BitVec 32) (segment : BitVec 32 × Frame) (M : ℕ) : IndexProg Unit := do
  Prog.modify fun s => { s with numNeighbours := M, levels := fun _ => false, entryLevel := 0, entryPoint := .invalid }
  onStores (MultiColumnStore.create ps spaceRef segment (buildStorageSpecs emptyRef M invalidId 0) segmentTotal)
  onStores (MultiColumnStore.initRootPage (segmentIndex 0) (rootIndex 0 true))
  Prog.modify fun s => { s with levels := Function.update s.levels 0 true }

/-- One half of a level of `ensure_levels`, unless it is there. -/
def ensureHalf (level : ℕ) (overflow : Bool) : IndexProg Unit := do
  let s ← Prog.get
  if (s.multi.stores.getD (rootIndex level overflow) default).initialized then pure ()
  else onStores (MultiColumnStore.initRootPage (segmentIndex level) (rootIndex level overflow))

/-- One level of `ensure_levels`. -/
def ensureLevel (level : ℕ) : IndexProg Unit := do
  ensureHalf level false
  ensureHalf level true
  Prog.modify fun s => { s with levels := Function.update s.levels level true }

/-- `IndexStore::ensure_levels`; the outcome says whether `target` has a store. -/
def ensureLevels (target : ℕ) : IndexProg Bool := do
  let s ← Prog.get
  (List.range' (s.entryLevel + 1) (target - s.entryLevel)).forM ensureLevel
  let s ← Prog.get
  pure (s.levels target)

/-- `IndexStore::set_entry_point`. -/
def setEntryPoint (node : RawNode) (level : ℕ) : IndexProg Unit := do
  let s ← Prog.get
  match StorageMeta.decode (s.multi.stores.getD 0 default).metadata with
  | none => Prog.fail ⟨"HNSW: set_entry_point: failed to decode level-0 metadata", true⟩
  | some m => do
    let m := { m with entryLevel := level, entryPoints := [entryRef emptyRef node.nid] }
    onStores (MultiColumnStore.updateMetadata 0 m.encode)
    Prog.modify fun s => { s with entryPoint := node, entryLevel := level }

/-- Both stores of a level have their root pages. -/
def complete (stores : List StoreHandle) (level : ℕ) : Bool :=
  level * 2 + 1 < stores.length ∧ (stores.getD (level * 2) default).initialized ∧
    (stores.getD (level * 2 + 1) default).initialized

/-- The levels `load` reconstructs: all up to the first that is not complete. -/
def loadLevels (stores : List StoreHandle) (level : ℕ) : Bool :=
  level ∈ (List.range maxLevel).takeWhile (complete stores)

/-- `column_ref` of a node's reference: `COLUMN_REF_MASK` leaves out the bits above. -/
def columnRef (nid : ℕ) : ℕ := nid &&& (2 ^ incomingBit - 1)

/-- The data page layout of a level's primary store. -/
def dataLayout (L : LevelLayout) : DataPage := (DataPage.init ps L.entryLen).getD ⟨0, 0, 0, 0⟩

/-- `LevelStore::resolve_owner`, over the data pages of the space. -/
def resolveOwner (dataPages : ℕ → Option Page) (M level nid : ℕ) : Except StorageError ℕ :=
  let (r, slot) := DataPage.decodeColumnRef (columnRef nid)
  match dataPages r with
  | none => .error ⟨"fetch: failed to load data page", false⟩
  | some p =>
    (Serial.fetchEntry ⟨level, M⟩ (dataLayout ps ⟨level, M⟩) p slot false ⟨invalidId, invalidId, [], invalidId⟩
      ⟨true, false, false, false⟩ .all none).map fun res => res.1.owner

/-- `IndexStore::load` into a new object, over the data pages of the space. -/
def load (dataPages : ℕ → Option Page) (storageRef : BitVec 64) (M : ℕ) : IndexProg Unit := do
  Prog.modify fun s => { s with numNeighbours := M, levels := fun _ => false, entryLevel := 0, entryPoint := .invalid }
  onStores (MultiColumnStore.load ps storageRef (buildStorageSpecs emptyRef M invalidId 0))
  let s ← Prog.get
  match StorageMeta.decode (s.multi.stores.getD 0 default).metadata with
  | none => Prog.fail ⟨"HNSW: load: failed to decode level-0 metadata", true⟩
  | some m => do
    let entryRef := m.entryPoints.headD emptyRef
    let entryNid := if entryRef ≠ emptyRef then entryRef else invalidId
    Prog.modify fun s => { s with entryLevel := m.entryLevel, levels := loadLevels s.multi.stores }
    if entryNid ≠ invalidId then
      match resolveOwner ps dataPages M m.entryLevel entryNid with
      | .error e => Prog.fail e
      | .ok vid => Prog.modify fun s => { s with entryPoint := ⟨entryNid, vid⟩ }

end Calls

/-! ### Sizes -/

theorem length_storeName_lt : ∀ level < maxLevel, ∀ overflow, (storeName level overflow).length < 256 := by
  decide +kernel

section Sizes

variable {emptyRef M entryNid entryLevel : ℕ}

theorem entryRef_lt (hempty : emptyRef < 2 ^ 64) (hnid : entryNid < 2 ^ 64) : entryRef emptyRef entryNid < 2 ^ 64 := by
  unfold entryRef
  split <;> assumption

theorem fits_storeMeta (hempty : emptyRef < 2 ^ 64) (hnid : entryNid < 2 ^ 64) (hlevel : entryLevel < maxLevel)
    {level : ℕ} (h : level < maxLevel) (overflow : Bool) :
    (storeMeta emptyRef entryNid entryLevel level overflow).Fits := by
  have h32 : maxLevel = 32 := rfl
  refine ⟨length_storeName_lt level h overflow, ?_, ?_, ?_, ?_⟩
  · show level < 256
    omega
  · show (if _ then _ else _) < 256
    split <;> omega
  · show (if _ then _ else _ : List ℕ).length < 256
    split <;> simp
  · intro r hr
    change r ∈ (if _ then _ else _ : List ℕ) at hr
    split at hr
    · rw [List.mem_singleton.mp hr]
      exact entryRef_lt hempty hnid
    · cases hr

theorem length_storeMeta_le {level : ℕ} (h : level < maxLevel) (overflow : Bool) :
    (storeMeta emptyRef entryNid entryLevel level overflow).encode.length ≤ 255 := by
  have hname : ∀ level < maxLevel, ∀ overflow, (storeName level overflow).length ≤ 200 := by decide +kernel
  rw [StorageMeta.length_encode]
  have hn := hname level h overflow
  change 5 + (storeName level overflow).length + (if _ then _ else _ : List ℕ).length * _ ≤ 255
  unfold StorageMeta.entryPointLen
  split <;> simp <;> omega

/-- The specifications of the stores behind the first. -/
def restSpecs (emptyRef M : ℕ) : List StorageSpec := (buildStorageSpecs emptyRef M invalidId 0).tail

theorem buildStorageSpecs_eq : buildStorageSpecs emptyRef M invalidId 0 =
    ⟨entryLen M 0, (storeMeta emptyRef invalidId 0 0 false).encode⟩ :: restSpecs emptyRef M := rfl

theorem length_restSpecs : (restSpecs emptyRef M).length = 63 := by
  simp [restSpecs, buildStorageSpecs, maxLevel]

theorem sized_restSpecs : MultiColumnStore.Sized segmentTotal (entryLen M 0) (restSpecs emptyRef M) := by
  have hmem : ∀ spec ∈ restSpecs emptyRef M, spec.colLen < 2 ^ 16 ∧ spec.metadata.length ≤ 255 := by
    intro spec hspec
    obtain ⟨level, hlevel, hspec⟩ := List.mem_flatMap.mp (List.mem_of_mem_tail hspec)
    have hlt := List.mem_range.mp hlevel
    simp only [List.mem_cons, List.not_mem_nil, or_false] at hspec
    rcases hspec with rfl | rfl
    · exact ⟨Nat.mod_lt _ (by norm_num), length_storeMeta_le hlt false⟩
    · exact ⟨Nat.mod_lt _ (by norm_num), length_storeMeta_le hlt true⟩
  exact ⟨by decide, Nat.mod_lt _ (by norm_num), by rw [length_restSpecs]; norm_num,
    fun spec h => (hmem spec h).1, fun spec h => (hmem spec h).2⟩

end Sizes

/-! ### Where data pages come from -/

/-- The root page of a store was made since the row was last loaded. -/
def madeHere (log : List SegmentEvent) (i : ℕ) : Bool :=
  log.foldl (fun made e =>
    match e with
    | .rootPage j _ => made || j == i
    | .dataPage _ _ => made
    | .load => false) false

/-- The segment that a store gets its data pages from. -/
def segmentFrom (log : List SegmentEvent) (i : ℕ) : ℕ := if madeHere log i then segmentIndex (i / 2) else 0

/-- The log accounts for the segment index of every store, and for the segment of
every data page. -/
structure Traced (s : MultiState) : Prop where
  stores : ∀ i, (s.stores.getD i default).segmentIndex = segmentFrom s.log i
  dataPages : ∀ pre post i seg, s.log = pre ++ .dataPage i seg :: post → seg = segmentFrom pre i

section Traced

variable {log : List SegmentEvent} {s : MultiState} {i j seg : ℕ}

@[simp] theorem madeHere_rootPage : madeHere (log ++ [.rootPage j seg]) i = (madeHere log i || j == i) := by
  simp [madeHere]

@[simp] theorem madeHere_dataPage : madeHere (log ++ [.dataPage j seg]) i = madeHere log i := by
  simp [madeHere]

@[simp] theorem madeHere_load : madeHere (log ++ [.load]) i = false := by
  simp [madeHere]

/-- An event of the log, or of the log before its last entry. -/
theorem Traced.snoc (h : Traced s) {e : SegmentEvent} (he : ∀ i seg, e = .dataPage i seg → seg = segmentFrom s.log i)
    {pre post : List SegmentEvent} (hlog : s.log ++ [e] = pre ++ .dataPage i seg :: post) :
    seg = segmentFrom pre i := by
  rcases List.eq_nil_or_concat post with rfl | ⟨post, e', rfl⟩
  · obtain ⟨rfl, he'⟩ := List.append_inj' hlog rfl
    exact he i seg (List.cons.inj he').1
  · rw [List.concat_eq_append, ← List.cons_append, ← List.append_assoc] at hlog
    exact h.dataPages pre post i seg (List.append_inj' hlog rfl).1

/-- A new root page gives its store the segment of its level. -/
theorem Traced.rootPage (h : Traced s) {x : StoreHandle} (hi : i < s.stores.length)
    (hx : x.segmentIndex = segmentIndex (i / 2)) {s' : MultiState} (hstores : s'.stores = s.stores.set i x)
    (hlog : s'.log = s.log ++ [.rootPage i seg]) : Traced s' := by
  refine ⟨fun j => ?_, fun pre post j sg hsplit => ?_⟩
  · rw [hstores, hlog, List.getD_eq_getElem?_getD, List.getElem?_set]
    unfold segmentFrom
    rw [madeHere_rootPage]
    by_cases hij : i = j
    · subst hij
      simp [hi, hx]
    · have hj := h.stores j
      rw [List.getD_eq_getElem?_getD] at hj
      rw [if_neg hij, hj]
      simp [segmentFrom, hij]
  · rw [hlog] at hsplit
    exact h.snoc (fun _ _ he => by cases he) hsplit

/-- A data page comes from the segment of its store. -/
theorem Traced.dataPage (h : Traced s) {s' : MultiState} (hstores : s'.stores = s.stores)
    (hlog : s'.log = s.log ++ [.dataPage i (s.stores.getD i default).segmentIndex]) : Traced s' := by
  refine ⟨fun j => ?_, fun pre post j sg hsplit => ?_⟩
  · rw [hstores, hlog, h.stores j]
    simp [segmentFrom]
  · rw [hlog] at hsplit
    refine h.snoc (fun _ _ he => ?_) hsplit
    cases he
    exact h.stores i

/-- After a load no store has a segment of its own. -/
theorem Traced.load (h : Traced s) {s' : MultiState} (hstores : s'.stores = s.stores.map (·.reloaded))
    (hlog : s'.log = s.log ++ [.load]) : Traced s' := by
  refine ⟨fun j => ?_, fun pre post j sg hsplit => ?_⟩
  · rw [hstores, hlog, List.getD_eq_getElem?_getD, List.getElem?_map]
    unfold segmentFrom
    rw [madeHere_load]
    cases s.stores[j]? <;> rfl
  · rw [hlog] at hsplit
    exact h.snoc (fun _ _ he => by cases he) hsplit

/-- Nothing that the log is about happens. -/
theorem Traced.congr (h : Traced s) {s' : MultiState}
    (hstores : ∀ i, (s'.stores.getD i default).segmentIndex = (s.stores.getD i default).segmentIndex)
    (hlog : s'.log = s.log) : Traced s' := by
  refine ⟨fun i => ?_, fun pre post i seg => ?_⟩
  · rw [hstores, hlog]
    exact h.stores i
  · rw [hlog]
    exact h.dataPages pre post i seg

end Traced

/-! ### What the pages hold of an index -/

/-- A level has its root page of this half. -/
def half (stores : List StoreHandle) (level : ℕ) (overflow : Bool) : Bool :=
  (stores.getD (rootIndex level overflow) default).initialized

/-- **The index in memory is on the pages.** The row of stores is, the first
store's metadata has the entry point and its level, the levels with a store are
those with both root pages, no level is begun before the one below is there,
and the log accounts for the segments. -/
structure Whole (ps : PageSize) (emptyRef : ℕ) (spaceRef : BitVec 32) (M : ℕ) (s : IndexState) (p : StoreHandle)
    (others : List StoreHandle) : Prop where
  mounted : MultiColumnStore.Mounted ps spaceRef segmentTotal (entryLen M 0) (restSpecs emptyRef M) s.multi p others
  metadata : p.metadata = (storeMeta emptyRef s.entryPoint.nid s.entryLevel 0 false).encode
  numNeighbours : s.numNeighbours = M
  entryNid : s.entryPoint.nid < 2 ^ 64
  entryValid : s.entryPoint.nid ≠ invalidId → s.entryPoint.nid ≠ emptyRef
  entryLevel : s.levels s.entryLevel
  levels : ∀ l, s.levels l ↔ l < maxLevel ∧ half s.multi.stores l false ∧ half s.multi.stores l true
  order : ∀ l < maxLevel, half s.multi.stores l true → half s.multi.stores l false
  below : ∀ l < maxLevel, 1 ≤ l → half s.multi.stores l false → s.levels (l - 1)
  traced : Traced s.multi

section Whole

variable {ps : PageSize} {emptyRef : ℕ} {spaceRef : BitVec 32} {M : ℕ} {s s' : IndexState} {p : StoreHandle}
  {others : List StoreHandle} {level l : ℕ} {overflow o : Bool}

theorem rootIndex_inj : rootIndex level overflow = rootIndex l o ↔ level = l ∧ overflow = o := by
  unfold rootIndex
  cases overflow <;> cases o <;> simp <;> omega

theorem half_set {stores : List StoreHandle} {h : StoreHandle} (hlt : rootIndex level overflow < stores.length) :
    half (stores.set (rootIndex level overflow) h) l o =
      if l = level ∧ o = overflow then h.initialized else half stores l o := by
  unfold half
  rw [List.getD_eq_getElem?_getD, List.getElem?_set]
  by_cases heq : l = level ∧ o = overflow
  · obtain ⟨rfl, rfl⟩ := heq
    simp [hlt]
  · have hne : ¬ rootIndex level overflow = rootIndex l o := by
      rw [rootIndex_inj]
      exact fun he => heq ⟨he.1.symm, he.2.symm⟩
    rw [if_neg hne, if_neg heq, List.getD_eq_getElem?_getD]

theorem Whole.length (h : Whole ps emptyRef spaceRef M s p others) : s.multi.stores.length = 64 := by
  rw [h.mounted.stores, List.length_cons, ← h.mounted.rest.length_eq, length_restSpecs]

theorem Whole.levels_lt (h : Whole ps emptyRef spaceRef M s p others) (hl : s.levels l) : l < maxLevel :=
  ((h.levels l).mp hl).1

/-- What a call on the levels leaves: the same first store, entry point and entry
level, and the levels there were. -/
structure Grown (ps : PageSize) (emptyRef : ℕ) (spaceRef : BitVec 32) (M : ℕ) (s : IndexState) (p : StoreHandle)
    (s' : IndexState) : Prop where
  whole : ∃ others, Whole ps emptyRef spaceRef M s' p others
  entryPoint : s'.entryPoint = s.entryPoint
  entryLevel : s'.entryLevel = s.entryLevel
  levels : ∀ l, s.levels l → s'.levels l

theorem Grown.trans {s'' : IndexState} (h1 : Grown ps emptyRef spaceRef M s p s')
    (h2 : Grown ps emptyRef spaceRef M s' p s'') : Grown ps emptyRef spaceRef M s p s'' :=
  ⟨h2.whole, h2.entryPoint.trans h1.entryPoint, h2.entryLevel.trans h1.entryLevel,
    fun l hl => h2.levels l (h1.levels l hl)⟩

/-- The index stays whole where its row of stores stays. -/
theorem Whole.of_stores (h : Whole ps emptyRef spaceRef M s p others) {m : MultiState}
    (hm : MultiColumnStore.Mounted ps spaceRef segmentTotal (entryLen M 0) (restSpecs emptyRef M) m p others)
    (htraced : Traced m) : Whole ps emptyRef spaceRef M { s with multi := m } p others := by
  have hstores : m.stores = s.multi.stores := hm.stores.trans h.mounted.stores.symm
  refine ⟨hm, h.metadata, h.numNeighbours, h.entryNid, h.entryValid, h.entryLevel, ?_, ?_, ?_, htraced⟩ <;>
    dsimp only <;> rw [hstores]
  · exact h.levels
  · exact h.order
  · exact h.below

/-- `init_root_page` of a half, as a call of the index. -/
theorem initHalf_cases (h : Whole ps emptyRef spaceRef M s p others) (h1 : 1 ≤ level) (hlt : level < maxLevel)
    (overflow : Bool) :
    ∃ m, (∃ e, onStores (MultiColumnStore.initRootPage (segmentIndex level) (rootIndex level overflow)) s =
        (.error e, { s with multi := m }) ∧
        Whole ps emptyRef spaceRef M { s with multi := m } p others) ∨
      ∃ others', onStores (MultiColumnStore.initRootPage (segmentIndex level) (rootIndex level overflow)) s =
        (.ok (), { s with multi := m }) ∧
        MultiColumnStore.Mounted ps spaceRef segmentTotal (entryLen M 0) (restSpecs emptyRef M) m p others' ∧
        Traced m ∧ ∀ l o, half m.stores l o = if l = level ∧ o = overflow then true else half s.multi.stores l o := by
  have h32 : maxLevel = 32 := rfl
  have hlen := h.length
  have hroot : rootIndex level overflow < 64 ∧ 1 ≤ rootIndex level overflow := by
    unfold rootIndex
    cases overflow <;> simp <;> omega
  obtain ⟨i, hi⟩ := Nat.exists_eq_add_of_le' hroot.2
  have hother : i < others.length := by
    have := h.mounted.stores
    rw [this, List.length_cons] at hlen
    omega
  have hlevel : rootIndex level overflow / 2 = level := by
    unfold rootIndex
    cases overflow
    · simp
    · simp
      omega
  obtain ⟨m, ⟨e, hrun, hlog, hm⟩ | ⟨r, hr, hrun, hlog, hm⟩⟩ := MultiColumnStore.initRootPage_mounted h.mounted
    (fun spec hspec => sized_restSpecs.metadata spec hspec) (segmentIndex level) hother
  · have hstores : m.stores = s.multi.stores := hm.stores.trans h.mounted.stores.symm
    refine ⟨m, Or.inl ⟨e, ?_, h.of_stores hm (h.traced.congr (fun _ => by rw [hstores]) hlog)⟩⟩
    rw [hi, onStores, hrun]
  · have hset : m.stores = s.multi.stores.set (rootIndex level overflow)
        (MultiColumnStore.mount p others[i] r (segmentIndex level)) := by
      rw [hm.stores, h.mounted.stores, hi, List.set_cons_succ]
    rw [← hi] at hlog
    refine ⟨m, Or.inr ⟨_, ?_, hm, h.traced.rootPage (by omega) ?_ hset hlog, fun l o => ?_⟩⟩
    · rw [hi, onStores, hrun]
    · rw [hlevel]
      rfl
    · rw [hset, half_set (by omega)]
      have hinit : (MultiColumnStore.mount p others[i] r (segmentIndex level)).initialized = true :=
        decide_eq_true hr
      rw [hinit]

theorem onStores_returns {α : Type} {m : MultiProg α} {a : α} :
    onStores m s = (.ok a, s') ↔ ∃ m', m s.multi = (.ok a, m') ∧ s' = { s with multi := m' } := by
  unfold onStores
  rw [Prod.mk.injEq]
  constructor
  · rintro ⟨h1, rfl⟩
    exact ⟨_, Prog.returns_of_fst h1, rfl⟩
  · rintro ⟨m', h1, rfl⟩
    rw [h1]
    exact ⟨rfl, rfl⟩

/-- **Create.** A new index is on its pages. -/
theorem create_whole {segment : BitVec 32 × Frame} (hseg : segment.1 ≠ noRef)
    (hblank : RootPage.Blank segmentTotal ps.bytes segment.2)
    (hsupply : ∀ x ∈ s.multi.supply, RootPage.Blank 0 ps.bytes x.2) (hlog : s.multi.log = [])
    (h : create ps emptyRef spaceRef segment M s = (.ok (), s')) :
    ∃ p others, Whole ps emptyRef spaceRef M s' p others := by
  unfold create at h
  rw [Prog.modify_bind, Prog.bind_returns] at h
  obtain ⟨⟨⟩, s1, h1, h⟩ := h
  rw [Prog.bind_returns] at h
  obtain ⟨⟨⟩, s2, h2, h⟩ := h
  rw [Prog.modify_apply, Prod.mk.injEq] at h
  obtain ⟨-, rfl⟩ := h
  obtain ⟨m1, hm1, rfl⟩ := onStores_returns.mp h1
  obtain ⟨m2, hm2, rfl⟩ := onStores_returns.mp h2
  obtain ⟨p, hmeta, hindex, hlog1, hmounted⟩ := MultiColumnStore.create_mounted sized_restSpecs
    (length_storeMeta_le (by decide) false) hseg hblank hsupply (buildStorageSpecs_eq ▸ hm1)
  have hlen : (MultiColumnStore.freshStores ps (restSpecs emptyRef M)).length = 63 := by
    rw [MultiColumnStore.freshStores, List.length_map, length_restSpecs]
  have h0 : 0 < (MultiColumnStore.freshStores ps (restSpecs emptyRef M)).length := by omega
  obtain ⟨m, ⟨e, hrun, -⟩ | ⟨r, hr, hrun, hlog2, hm⟩⟩ := MultiColumnStore.initRootPage_mounted hmounted
    (fun spec hspec => sized_restSpecs.metadata spec hspec) (segmentIndex 0) h0
  · cases hm2.symm.trans hrun
  · obtain rfl : m2 = m := (Prod.mk.inj (hm2.symm.trans hrun)).2
    -- the stores with a root page are the two of level 0
    have hset : ∀ k, m2.stores.getD (k + 2) default =
        (MultiColumnStore.freshStores ps (restSpecs emptyRef M)).getD (k + 1) default := by
      intro k
      rw [hm.stores, List.getD_cons_succ, List.getD_eq_getElem?_getD, List.getElem?_set_ne (by omega),
        List.getD_eq_getElem?_getD]
    have hhalf : ∀ l o, half m2.stores l o = decide (l = 0) := by
      intro l o
      unfold half
      cases l with
      | zero =>
        rw [hm.stores]
        cases o
        · exact decide_eq_true hmounted.valid
        · have hget := List.getElem?_set_self (a := MultiColumnStore.mount p
            (MultiColumnStore.freshStores ps (restSpecs emptyRef M))[0] r (segmentIndex 0)) h0
          show ((p :: _).getD (0 + 1) default).initialized = true
          rw [List.getD_cons_succ, List.getD_eq_getElem?_getD, hget]
          exact decide_eq_true hr
      | succ l =>
        obtain ⟨k, hk⟩ : ∃ k, rootIndex (l + 1) o = k + 2 := ⟨l * 2 + if o then 1 else 0, by unfold rootIndex; ring⟩
        rw [hk, hset, StoreHandle.initialized, (MultiColumnStore.getD_freshStores ps _ (k + 1)).1]
        simp
    refine ⟨p, _, hm, hmeta, rfl, show (0 : ℕ) < 2 ^ 64 by norm_num, fun hno => absurd rfl hno, rfl, fun l => ?_,
      fun l _ => ?_, fun l _ hl => ?_, ?_⟩
    · dsimp only
      rw [hhalf, hhalf, Function.update_apply]
      by_cases hl : l = 0
      · simp [hl, maxLevel]
      · simp [hl]
    · rw [hhalf, hhalf]
      exact id
    · rw [hhalf, decide_eq_true_eq]
      omega
    · have htraced : Traced m1 := by
        refine ⟨fun i => ?_, fun pre post i seg hsplit => ?_⟩
        · rw [hmounted.stores, hlog1, hlog]
          cases i with
          | zero => exact hindex
          | succ i => exact (MultiColumnStore.getD_freshStores ps _ i).2
        · rw [hlog1, hlog] at hsplit
          simp at hsplit
      have hlt : 1 < m1.stores.length := by
        rw [hmounted.stores, List.length_cons]
        omega
      have hstores : m2.stores = m1.stores.set 1 (MultiColumnStore.mount p
          (MultiColumnStore.freshStores ps (restSpecs emptyRef M))[0] r (segmentIndex 0)) := by
        rw [hm.stores, hmounted.stores, List.set_cons_succ]
      exact htraced.rootPage hlt rfl hstores hlog2

theorem ensureHalf_apply (level : ℕ) (overflow : Bool) (s : IndexState) :
    ensureHalf level overflow s = if half s.multi.stores level overflow then (.ok (), s)
      else onStores (MultiColumnStore.initRootPage (segmentIndex level) (rootIndex level overflow)) s := by
  unfold ensureHalf half
  rw [Prog.get_bind]
  split <;> rfl

/-- The first half of a level. -/
theorem ensurePrimary_whole (h : Whole ps emptyRef spaceRef M s p others) (h1 : 1 ≤ level)
    (hlt : level < maxLevel) (hbelow : s.levels (level - 1)) :
    (∃ s', ensureHalf level false s = (.ok (), s') ∧ Grown ps emptyRef spaceRef M s p s' ∧ s'.levels = s.levels ∧
        half s'.multi.stores level false) ∨
      ∃ e s', ensureHalf level false s = (.error e, s') ∧ Grown ps emptyRef spaceRef M s p s' := by
  rw [ensureHalf_apply]
  by_cases hhalf : half s.multi.stores level false
  · rw [if_pos hhalf]
    exact Or.inl ⟨s, rfl, ⟨⟨others, h⟩, rfl, rfl, fun _ hl => hl⟩, rfl, hhalf⟩
  · rw [if_neg hhalf]
    obtain ⟨m, ⟨e, hrun, hw⟩ | ⟨others', hrun, hm, htraced, hset⟩⟩ := initHalf_cases h h1 hlt false
    · exact Or.inr ⟨e, _, hrun, ⟨_, hw⟩, rfl, rfl, fun _ hl => hl⟩
    · -- the other half cannot be there yet
      have hno : ¬ half s.multi.stores level true := fun ht => hhalf (h.order level hlt ht)
      have htrue : ∀ l, half m.stores l true = half s.multi.stores l true := fun l => by simp [hset]
      have hfalse : ∀ l, half m.stores l false = if l = level then true else half s.multi.stores l false := by
        intro l
        simp [hset]
      refine Or.inl ⟨_, hrun, ⟨⟨others', hm, h.metadata, h.numNeighbours, h.entryNid, h.entryValid,
        h.entryLevel, fun l => ?_, fun l hl ht => ?_, fun l hl hl1 hf => ?_, htraced⟩, rfl, rfl, fun _ hl => hl⟩, rfl, ?_⟩
      · dsimp only
        rw [htrue, hfalse, h.levels l]
        by_cases hll : l = level
        · subst hll
          simp [hhalf, hno]
        · rw [if_neg hll]
      · dsimp only at ht ⊢
        rw [hfalse]
        split
        · rfl
        · exact h.order l hl (htrue l ▸ ht)
      · dsimp only at hf ⊢
        rw [hfalse] at hf
        split at hf
        · rename_i hll
          rw [hll]
          exact hbelow
        · exact h.below l hl hl1 hf
      · rw [hfalse, if_pos rfl]

/-- The second half, and the level. -/
theorem ensureOverflow_whole (h : Whole ps emptyRef spaceRef M s p others) (h1 : 1 ≤ level)
    (hlt : level < maxLevel) (hprimary : half s.multi.stores level false) :
    (∃ s', ensureHalf level true s = (.ok (), s') ∧
        Grown ps emptyRef spaceRef M s p { s' with levels := Function.update s'.levels level true }) ∨
      ∃ e s', ensureHalf level true s = (.error e, s') ∧ Grown ps emptyRef spaceRef M s p s' := by
  have hmono : ∀ l, s.levels l → Function.update s.levels level true l := by
    intro l hl
    rw [Function.update_apply]
    split
    · rfl
    · exact hl
  rw [ensureHalf_apply]
  by_cases hhalf : half s.multi.stores level true
  · rw [if_pos hhalf]
    have hlevel : s.levels level = true := (h.levels level).mpr ⟨hlt, hprimary, hhalf⟩
    have hsame : Function.update s.levels level true = s.levels := by
      rw [← hlevel]
      exact Function.update_eq_self _ _
    refine Or.inl ⟨s, rfl, ?_⟩
    rw [hsame]
    exact ⟨⟨others, h⟩, rfl, rfl, fun _ hl => hl⟩
  · rw [if_neg hhalf]
    obtain ⟨m, ⟨e, hrun, hw⟩ | ⟨others', hrun, hm, htraced, hset⟩⟩ := initHalf_cases h h1 hlt true
    · exact Or.inr ⟨e, _, hrun, ⟨_, hw⟩, rfl, rfl, fun _ hl => hl⟩
    · have hfalse : ∀ l, half m.stores l false = half s.multi.stores l false := fun l => by simp [hset]
      have htrue : ∀ l, half m.stores l true = if l = level then true else half s.multi.stores l true := by
        intro l
        simp [hset]
      refine Or.inl ⟨_, hrun, ⟨others', hm, h.metadata, h.numNeighbours, h.entryNid, h.entryValid,
        hmono _ h.entryLevel, fun l => ?_, fun l hl ht => ?_, fun l hl hl1 hf => ?_, htraced⟩, rfl, rfl, hmono⟩
      · dsimp only
        rw [htrue, hfalse, Function.update_apply]
        by_cases hll : l = level
        · subst hll
          simp [hlt, hprimary]
        · rw [if_neg hll, if_neg hll]
          exact h.levels l
      · dsimp only at ht ⊢
        rw [hfalse]
        rw [htrue] at ht
        split at ht
        · rename_i hll
          rw [hll]
          exact hprimary
        · exact h.order l hl ht
      · dsimp only at hf ⊢
        rw [hfalse] at hf
        exact hmono _ (h.below l hl hl1 hf)

/-- **One level.** `ensure_levels` creates what a level lacks; where it fails, what
is there is still on the pages. -/
theorem ensureLevel_whole (h : Whole ps emptyRef spaceRef M s p others) (h1 : 1 ≤ level) (hlt : level < maxLevel)
    (hbelow : s.levels (level - 1)) :
    (∃ s', ensureLevel level s = (.ok (), s') ∧ Grown ps emptyRef spaceRef M s p s' ∧ s'.levels level) ∨
      ∃ e s', ensureLevel level s = (.error e, s') ∧ Grown ps emptyRef spaceRef M s p s' := by
  unfold ensureLevel
  obtain ⟨s1, hrun1, hg1, hlevels, hhalf⟩ | ⟨e, s1, hrun1, hg1⟩ := ensurePrimary_whole h h1 hlt hbelow
  · obtain ⟨others1, hw1⟩ := hg1.whole
    obtain ⟨s2, hrun2, hg2⟩ | ⟨e, s2, hrun2, hg2⟩ := ensureOverflow_whole hw1 h1 hlt hhalf
    · refine Or.inl ⟨{ s2 with levels := Function.update s2.levels level true }, ?_, hg1.trans hg2,
        Function.update_self _ _ _⟩
      rw [Prog.bind_apply, hrun1]
      dsimp only
      rw [Prog.bind_apply, hrun2]
      rfl
    · refine Or.inr ⟨e, s2, ?_, hg1.trans hg2⟩
      rw [Prog.bind_apply, hrun1]
      dsimp only
      rw [Prog.bind_apply, hrun2]
  · refine Or.inr ⟨e, s1, ?_, hg1⟩
    rw [Prog.bind_apply, hrun1]

/-- **More levels.** However far `ensure_levels` gets, the index is on the pages. -/
theorem ensureLevels_whole (h : Whole ps emptyRef spaceRef M s p others) {target : ℕ} (ht : target < maxLevel) :
    Grown ps emptyRef spaceRef M s p (ensureLevels target s).2 := by
  -- the level below the next one to ensure is there
  have hloop := Prog.forM_cases (f := ensureLevel) (fun ls s1 =>
      Grown ps emptyRef spaceRef M s p s1 ∧ ∃ k n, ls = List.range' k n ∧ 1 ≤ k ∧ k + n ≤ maxLevel ∧
        s1.levels (k - 1))
    (fun _ s1 => Grown ps emptyRef spaceRef M s p s1) (fun l ls s1 hI => ?_)
    (List.range' (s.entryLevel + 1) (target - s.entryLevel)) s
    ⟨⟨⟨others, h⟩, rfl, rfl, fun _ hl => hl⟩, _, _, rfl, Nat.succ_pos _, ?_, h.entryLevel⟩
  · unfold ensureLevels
    rw [Prog.get_bind, Prog.bind_apply]
    obtain ⟨s', hrun, hg, -⟩ | ⟨e, s', hrun, hg⟩ := hloop
    · rw [hrun]
      exact hg
    · rw [hrun]
      exact hg
  · obtain ⟨hg, k, n, hls, hk, hn, hlevel⟩ := hI
    obtain ⟨n, rfl⟩ : ∃ n', n = n' + 1 := by
      cases n with
      | zero => simp at hls
      | succ n => exact ⟨n, rfl⟩
    rw [List.range'_succ, List.cons.injEq] at hls
    obtain ⟨rfl, rfl⟩ := hls
    obtain ⟨others1, hw⟩ := hg.whole
    obtain ⟨s', hrun, hg', hl⟩ | ⟨e, s', hrun, hg'⟩ := ensureLevel_whole hw hk (by omega) hlevel
    · exact Or.inl ⟨s', hrun, hg.trans hg', l + 1, n, rfl, by omega, by omega, hl⟩
    · exact Or.inr ⟨e, s', hrun, hg.trans hg'⟩
  · have := h.levels_lt h.entryLevel
    omega

/-- **A new entry point.** `set_entry_point` on a level that is there can only fail
to load its page: the new metadata has the length of the old. -/
theorem setEntryPoint_whole (h : Whole ps emptyRef spaceRef M s p others) (hempty : emptyRef < 2 ^ 64)
    {node : RawNode} (hlevel : s.levels level) (hnid : node.nid < 2 ^ 64)
    (hvalid : node.nid ≠ invalidId → node.nid ≠ emptyRef) :
    (∃ s' p', setEntryPoint emptyRef node level s = (.ok (), s') ∧ s'.entryPoint = node ∧ s'.entryLevel = level ∧
        s'.levels = s.levels ∧ Whole ps emptyRef spaceRef M s' p' others) ∨
      ∃ s', setEntryPoint emptyRef node level s =
          (.error ⟨"update_metadata: failed to load root page", false⟩, s') ∧
        s'.entryPoint = s.entryPoint ∧ s'.entryLevel = s.entryLevel ∧ s'.levels = s.levels ∧
        Whole ps emptyRef spaceRef M s' p others := by
  have hdecode : StorageMeta.decode (s.multi.stores.getD 0 default).metadata =
      some (storeMeta emptyRef s.entryPoint.nid s.entryLevel 0 false) := by
    rw [h.mounted.stores, List.getD_cons_zero, h.metadata]
    exact StorageMeta.decode_encode (fits_storeMeta hempty h.entryNid (h.levels_lt h.entryLevel) (by decide) false)
  have hlen : (storeMeta emptyRef node.nid level 0 false).encode.length = p.metadata.length := by
    rw [h.metadata, StorageMeta.length_encode, StorageMeta.length_encode]
    rfl
  have hrun : setEntryPoint emptyRef node level s = (do
      onStores (MultiColumnStore.updateMetadata 0 (storeMeta emptyRef node.nid level 0 false).encode)
      Prog.modify fun s => { s with entryPoint := node, entryLevel := level } : IndexProg Unit) s := by
    unfold setEntryPoint
    rw [Prog.get_bind, hdecode]
    rfl
  rw [hrun, Prog.bind_apply]
  obtain ⟨m, hm, hlog, hmount⟩ | ⟨m, hm, hlog, hmount⟩ := MultiColumnStore.updateMetadata_mounted h.mounted hlen
  · have hstores : ∀ l o, half m.stores l o = half s.multi.stores l o := by
      intro l o
      unfold half
      rw [hmount.stores, h.mounted.stores]
      cases rootIndex l o <;> rfl
    refine Or.inl ⟨{ s with multi := m, entryPoint := node, entryLevel := level }, _, ?_, rfl, rfl, rfl, hmount, rfl,
      h.numNeighbours, hnid, hvalid, hlevel, fun l => ?_, fun l hl => ?_, fun l hl => ?_,
      h.traced.congr (fun i => ?_) hlog⟩
    · rw [onStores, hm]
      rfl
    · exact (hstores l false ▸ hstores l true ▸ h.levels l)
    · exact (hstores l false ▸ hstores l true ▸ h.order l hl)
    · exact (hstores l false ▸ h.below l hl)
    · rw [hmount.stores, h.mounted.stores]
      cases i <;> rfl
  · have hsame : m.stores = s.multi.stores := hmount.stores.trans h.mounted.stores.symm
    refine Or.inr ⟨{ s with multi := m }, ?_, rfl, rfl, rfl,
      h.of_stores hmount (h.traced.congr (fun _ => by rw [hsame]) hlog)⟩
    rw [onStores, hm]

theorem mem_takeWhile_range' {P : ℕ → Bool} : ∀ {n a l : ℕ},
    l ∈ (List.range' a n).takeWhile P ↔ a ≤ l ∧ l < a + n ∧ ∀ k, a ≤ k → k ≤ l → P k
  | 0, a, l => by
    simp
    omega
  | n + 1, a, l => by
    rw [List.range'_succ, List.takeWhile_cons]
    split
    · rename_i ha
      rw [List.mem_cons, mem_takeWhile_range']
      constructor
      · rintro (rfl | ⟨h1, h2, h3⟩)
        · exact ⟨le_rfl, by omega, fun k hk1 hk2 => by rwa [Nat.le_antisymm hk2 hk1]⟩
        · refine ⟨by omega, by omega, fun k hk1 hk2 => ?_⟩
          rcases Nat.eq_or_lt_of_le hk1 with rfl | hlt
          · exact ha
          · exact h3 k hlt hk2
      · rintro ⟨h1, h2, h3⟩
        rcases Nat.eq_or_lt_of_le h1 with rfl | hlt
        · exact Or.inl rfl
        · exact Or.inr ⟨hlt, by omega, fun k hk1 hk2 => h3 k (by omega) hk2⟩
    · rename_i ha
      constructor
      · intro h
        cases h
      · rintro ⟨h1, -, h3⟩
        exact absurd (h3 a le_rfl h1) ha

/-- The levels there are go from 0 up. -/
theorem Whole.prefix_levels (h : Whole ps emptyRef spaceRef M s p others) : ∀ {l k : ℕ}, s.levels l → k ≤ l →
    s.levels k
  | 0, k, hl, hk => by rwa [Nat.le_zero.mp hk]
  | l + 1, k, hl, hk => by
    rcases Nat.eq_or_lt_of_le hk with rfl | hlt
    · exact hl
    · obtain ⟨hlt32, hf, -⟩ := (h.levels _).mp hl
      exact h.prefix_levels (h.below (l + 1) hlt32 (Nat.succ_pos l) hf) (Nat.lt_succ_iff.mp hlt)

/-- The levels `load` finds are the levels there are. -/
theorem Whole.loadLevels_eq (h : Whole ps emptyRef spaceRef M s p others) {stores : List StoreHandle}
    (hlen : stores.length = 64) (hhalf : ∀ l o, half stores l o = half s.multi.stores l o) :
    loadLevels stores = s.levels := by
  have h32 : maxLevel = 32 := rfl
  have hcomplete : ∀ l < maxLevel, complete stores l = s.levels l := by
    intro l hl
    have h0 : (stores.getD (l * 2) default).initialized = half s.multi.stores l false := hhalf l false
    have h1 : (stores.getD (l * 2 + 1) default).initialized = half s.multi.stores l true := hhalf l true
    rw [Bool.eq_iff_iff, h.levels l, complete, h0, h1]
    simp [hl, hlen]
    omega
  funext l
  rw [Bool.eq_iff_iff, loadLevels, decide_eq_true_eq, List.range_eq_range', mem_takeWhile_range']
  constructor
  · rintro ⟨-, hl, hall⟩
    rw [Nat.zero_add] at hl
    rw [← hcomplete l hl]
    exact hall l (Nat.zero_le l) le_rfl
  · intro hl
    have hlt := h.levels_lt hl
    refine ⟨Nat.zero_le l, by omega, fun k _ hk => ?_⟩
    rw [hcomplete k (by omega)]
    exact h.prefix_levels hl hk

theorem half_reloaded {stores : List StoreHandle} (l : ℕ) (o : Bool) :
    half (stores.map StoreHandle.reloaded) l o = half stores l o := by
  unfold half
  rw [List.getD_eq_getElem?_getD, List.getD_eq_getElem?_getD, List.getElem?_map]
  cases stores[rootIndex l o]? <;> rfl

/-- The entry point as `load` gets it. -/
def reloadEntryPoint (ps : PageSize) (dataPages : ℕ → Option Page) (s : IndexState) : Except StorageError RawNode :=
  if s.entryPoint.nid = invalidId then .ok .invalid
  else (resolveOwner ps dataPages s.numNeighbours s.entryLevel s.entryPoint.nid).map fun vid =>
    ⟨s.entryPoint.nid, vid⟩

/-- The index as a process `t` reads it back from its pages. -/
def reloaded (t s : IndexState) (node : RawNode) : IndexState :=
  { s with
    multi := { t.multi with
      stores := s.multi.stores.map (·.reloaded)
      ref := s.multi.ref
      log := t.multi.log ++ [.load] }
    entryPoint := node }

/-- **Load.** Where no page operation fails, and the entry point's record has an
owner, `load` reconstructs the index from the pages. -/
theorem load_whole (h : Whole ps emptyRef spaceRef M s p others) (hempty : emptyRef < 2 ^ 64) {t : IndexState}
    (hpages : t.multi.pages = s.multi.pages) (hf : t.multi.faults = []) (dataPages : ℕ → Option Page) :
    load ps emptyRef dataPages s.multi.ref M t =
      match reloadEntryPoint ps dataPages s with
      | .ok node => (.ok (), reloaded t s node)
      | .error e => (.error e, reloaded t s .invalid) := by
  have hstores := h.mounted.stores
  have hload := MultiColumnStore.load_mounted h.mounted sized_restSpecs hpages hf
    ⟨entryLen M 0, (storeMeta emptyRef invalidId 0 0 false).encode⟩
  rw [← buildStorageSpecs_eq, ← hstores] at hload
  have hdecode : StorageMeta.decode ((s.multi.stores.map StoreHandle.reloaded).getD 0 default).metadata =
      some (storeMeta emptyRef s.entryPoint.nid s.entryLevel 0 false) := by
    rw [hstores, List.map_cons, List.getD_cons_zero]
    show StorageMeta.decode p.metadata = _
    rw [h.metadata]
    exact StorageMeta.decode_encode (fits_storeMeta hempty h.entryNid (h.levels_lt h.entryLevel) (by decide) false)
  have hlevels : loadLevels (s.multi.stores.map StoreHandle.reloaded) = s.levels :=
     h.loadLevels_eq (by rw [List.length_map]; exact h.length) half_reloaded
  have hentry : (if (storeMeta emptyRef s.entryPoint.nid s.entryLevel 0 false).entryPoints.headD emptyRef ≠ emptyRef
      then (storeMeta emptyRef s.entryPoint.nid s.entryLevel 0 false).entryPoints.headD emptyRef
      else invalidId) = s.entryPoint.nid := by
    show (if entryRef emptyRef s.entryPoint.nid ≠ emptyRef then entryRef emptyRef s.entryPoint.nid
      else invalidId) = s.entryPoint.nid
    unfold entryRef
    by_cases hnid : s.entryPoint.nid = invalidId
    · simp [hnid]
    · simp [hnid, h.entryValid hnid]
  have hnum := h.numNeighbours
  unfold load
  rw [Prog.modify_bind, Prog.bind_apply]
  simp only [onStores, hload]
  rw [Prog.get_bind]
  dsimp only
  rw [hdecode]
  dsimp only
  rw [hentry]
  unfold reloadEntryPoint reloaded
  by_cases hnid : s.entryPoint.nid = invalidId
  · rw [if_neg (not_not.mpr hnid), if_pos hnid, ← hlevels, hnum]
    rfl
  · rw [if_pos hnid, if_neg hnid, show (storeMeta emptyRef s.entryPoint.nid s.entryLevel 0 false).entryLevel =
      s.entryLevel from rfl, ← hlevels, hnum]
    cases resolveOwner ps dataPages M s.entryLevel s.entryPoint.nid <;> rfl

/-- And the index read back is on the pages too. -/
theorem Whole.reload (h : Whole ps emptyRef spaceRef M s p others) {node : RawNode}
    (hnode : node.nid = s.entryPoint.nid) :
    Whole ps emptyRef spaceRef M (reloaded s s node) p.reloaded (others.map (·.reloaded)) := by
  have hmounted := h.mounted.reload
  rw [← h.mounted.stores] at hmounted
  unfold reloaded
  refine ⟨hmounted, ?_, h.numNeighbours, ?_, ?_, h.entryLevel, fun l => ?_, fun l hl => ?_, fun l hl => ?_,
    h.traced.load rfl rfl⟩
  all_goals dsimp only; simp only [half_reloaded, hnode]
  · exact h.metadata
  · exact h.entryNid
  · exact h.entryValid
  · exact h.levels l
  · exact h.order l hl
  · exact h.below l hl

end Whole

end IndexStore
end Hnsw
end VsqlVector
