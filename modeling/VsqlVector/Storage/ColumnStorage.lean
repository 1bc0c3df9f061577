/-
# Columns a store accepts

`ColumnStorage::create` (`src/storage/storage.cc`) admits a column whose length is
less than the size of a page. A page has a header, a trailer and the bitmap beside its
records, so the longest columns it admits have no room for a single one
(`create_capacity_iff`).

Key definition: `ColumnStorage.create`.
Key theorem: `create_capacity_iff`.
-/
import VsqlVector.Storage.MultiStore

namespace VsqlVector

namespace ColumnStorage

open MultiColumnStore

/-- `sizeof(Column::Ref)`, the part of a column that is not stored in its record. -/
def columnRefSize : ℕ := 8

/-- The characters of `SVECTOR`. -/
def typeName : List (BitVec 8) := [0x53, 0x56, 0x45, 0x43, 0x54, 0x4F, 0x52]

/-- `ColumnStorage::create`. -/
def create (ps : PageSize) (spaceRef : BitVec 32) (segment : BitVec 32 × Frame) (colLen : ℕ) : MultiProg Unit :=
  if colLen ≥ ps.bytes ∨ colLen < columnRefSize then
    Prog.fail ⟨"create: column length " ++ toString colLen ++ " out of range for page size " ++
      toString ps.bytes, true⟩
  else
    let storeLen := (colLen - columnRefSize) % 2 ^ 16
    MultiColumnStore.create ps spaceRef segment [⟨storeLen, typeName⟩] 1

variable {ps : PageSize} {spaceRef : BitVec 32} {segment : BitVec 32 × Frame} {colLen : ℕ} {s s' : MultiState}

theorem format_columnSize {rp rp' : RootPage} {version : ℕ} {metadata : List (BitVec 8)} {f f' : Frame}
    (h : rp.format version metadata f = some (rp', f')) : 0 < rp.columnSize ∧ rp'.columnSize = rp.columnSize := by
  unfold RootPage.format at h
  split_ifs at h with hbad
  simp only [Option.some.injEq, Prod.mk.injEq] at h
  rw [← h.1]
  exact ⟨by omega, rfl⟩

/-- The store of an accepted column. An empty record is refused by `RootPage::format`. -/
theorem create_returns (h : create ps spaceRef segment colLen s = (.ok (), s')) :
    columnRefSize < colLen ∧ colLen < ps.bytes ∧
      ∃ store, s'.stores = [store] ∧ store.root.columnSize = colLen - columnRefSize := by
  have hps : ps.bytes ≤ 2 ^ 16 := by cases ps <;> decide
  unfold create at h
  by_cases hrange : colLen ≥ ps.bytes ∨ colLen < columnRefSize
  · rw [if_pos hrange] at h
    cases h
  rw [if_neg hrange, Nat.mod_eq_of_lt (show colLen - columnRefSize < 2 ^ 16 by omega)] at h
  obtain ⟨u1, s1, -, h⟩ := Prog.bind_returns.mp h
  rw [writePage, Prog.modify_bind, Prog.modify_bind] at h
  set s2 : MultiState := { s1 with
    pages := Function.update s1.pages segment.1 (some segment.2)
    stores := initStores ps segment.1 1 [⟨colLen - columnRefSize, typeName⟩] } with hs2
  set primary := s2.stores.getD 0 default with hprimary
  have hcol : primary.root.columnSize = colLen - columnRefSize := rfl
  rw [Prog.bind_apply, show MultiColumnStore.store 0 s2 = (.ok primary, s2) from rfl] at h
  dsimp only at h
  obtain ⟨f, s3, hload, h⟩ := Prog.bind_returns.mp h
  obtain ⟨fs, ⟨f', -, hrun⟩ | hrun⟩ := loadPage_cases ⟨"create: failed to load root page", false⟩ segment.1 s2
  · rw [hload] at hrun
    obtain ⟨-, rfl⟩ := Prod.mk.inj hrun
    cases hformat : primary.root.format formatVersion primary.metadata f with
    | none =>
      rw [hformat] at h
      cases h
    | some x =>
      obtain ⟨root, f'⟩ := x
      obtain ⟨hpos, hsize⟩ := format_columnSize hformat
      rw [hformat] at h
      obtain ⟨-, rfl⟩ := Prod.mk.inj h
      exact ⟨by omega, by omega, { primary with root := root }, rfl, hsize.trans hcol⟩
  · rw [hload] at hrun
    cases hrun

/-- **The capacity of an accepted column.** Its pages have room for a record if and
only if its length is that of a page less header, bitmap offset and trailer, or less. -/
theorem create_capacity_iff (ps : PageSize) (spaceRef : BitVec 32) (segment : BitVec 32 × Frame) (colLen : ℕ)
    (s s' : MultiState) (h : create ps spaceRef segment colLen s = (.ok (), s')) :
    ∃ store d, s'.stores = [store] ∧ DataPage.init ps store.root.columnSize = some d ∧
      (1 ≤ d.maxNumRecs ↔ colLen ≤ ps.bytes - DataPage.freeBitmapOff - pageTrailerSize) := by
  have hps : ps.bytes ≤ 2 ^ 16 := by cases ps <;> decide
  have h8 : columnRefSize = 8 := rfl
  have ht : DataPage.trxRefSize = 8 := rfl
  obtain ⟨hlow, hhigh, store, hstores, hsize⟩ := create_returns h
  have h1 : 1 ≤ colLen - columnRefSize := by omega
  have h2 : colLen - columnRefSize ≤ 65527 := by omega
  obtain ⟨d, hd⟩ := DataPage.exists_init ps h1 h2
  refine ⟨store, d, hstores, by rw [hsize, hd], ?_⟩
  rw [DataPage.init_capacity_iff h1 h2 hd, DataPage.availableSpace]
  omega

/-- A new index file whose root page will be page 4. -/
def newFile : MultiState := ⟨fun _ => none, [], [], [], 0, []⟩

theorem create_newFile {colLen : ℕ} (h : (create .k4 1 (4, fun _ => 0) colLen newFile).1 = .ok ()) :
    ∃ s', create .k4 1 (4, fun _ => 0) colLen newFile = (.ok (), s') := ⟨_, Prog.returns_of_fst h⟩

/-- A column of 1000 dimensions on 4K pages. -/
theorem create_capacity_thousand : ∃ s' store d, create .k4 1 (4, fun _ => 0) 4008 newFile = (.ok (), s') ∧
    s'.stores = [store] ∧ DataPage.init .k4 store.root.columnSize = some d ∧ 1 ≤ d.maxNumRecs := by
  obtain ⟨s', hrun⟩ := create_newFile (show (create .k4 1 (4, fun _ => 0) 4008 newFile).1 = .ok () by decide +kernel)
  obtain ⟨store, d, hstores, hd, hiff⟩ := create_capacity_iff .k4 1 (4, fun _ => 0) 4008 newFile s' hrun
  exact ⟨s', store, d, hrun, hstores, hd, hiff.mpr (by decide)⟩

/-- A column of 4032 bytes on 4K pages, of which 4030 are for bitmap and records. -/
theorem create_without_room : ¬ ∀ (ps : PageSize) (spaceRef : BitVec 32) (segment : BitVec 32 × Frame) (colLen : ℕ)
    (s s' : MultiState), create ps spaceRef segment colLen s = (.ok (), s') →
    ∀ store d, s'.stores = [store] → DataPage.init ps store.root.columnSize = some d → 1 ≤ d.maxNumRecs := by
  intro h
  obtain ⟨s', hrun⟩ := create_newFile (show (create .k4 1 (4, fun _ => 0) 4032 newFile).1 = .ok () by decide +kernel)
  obtain ⟨-, -, store, hstores, hsize⟩ := create_returns hrun
  have hinit : DataPage.init .k4 store.root.columnSize = some ⟨4032, 0, 0, 58⟩ := by
    rw [hsize]
    decide
  have := h _ _ _ _ _ _ hrun store _ hstores hinit
  exact absurd this (by decide)

end ColumnStorage

end VsqlVector
