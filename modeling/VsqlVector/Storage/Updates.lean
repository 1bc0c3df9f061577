/-
# Updates in place

`ColumnStore::update` (`src/storage/storage.cc`) overwrites chunks of a record. It
checks everything first, in a pass over the chunk indexes, and then writes each run of
consecutive indexes with one call. What comes of it is the plain overwrite of the
listed chunks and nothing else (`overwrite`), or an error and no change.

One thing is left to an assertion: that the page has a record with the slot number
of the column reference. `DataPage::purge` checks it, `update` does not, and reads two
bits for the slot wherever they would stand (`update_overwrites_iff`).

Key definitions: `overwrite`, `Checked`, `Overwrites`.
Key theorem: `update_overwrites_iff`.
-/
import VsqlVector.Storage.Failures
import VsqlVector.Storage.Records

namespace VsqlVector

/-! ### The plain overwrite -/

/-- The chunks `ids` of the column at `o` come from `data`, everything else stays. -/
def overwrite (o size : ℕ) (data : List (BitVec 8)) (ids : List ℕ) (f : Frame) : Frame := fun a =>
  if o ≤ a ∧ (a - o) / size ∈ ids then data.getD (a - o) 0 else f a

section Overwrite

variable {o size : ℕ} {data : List (BitVec 8)}

theorem overwrite_cons {c : ℕ} {ids : List ℕ} {f : Frame} (hsize : 0 < size) (hc : c * size + size ≤ data.length) :
    overwrite o size data ids (Bytes.store f (o + c * size) (Bytes.chunk size data c)) =
      overwrite o size data (c :: ids) f := by
  have hlen : (Bytes.chunk size data c).length = size := Bytes.length_chunk hc
  funext a
  unfold overwrite
  by_cases hin : o ≤ a ∧ (a - o) / size ∈ ids
  · rw [if_pos hin, if_pos ⟨hin.1, List.mem_cons_of_mem c hin.2⟩]
  rw [if_neg hin]
  by_cases ha : o + c * size ≤ a ∧ a < o + c * size + size
  · have hdiv : (a - o) / size = c := by
      rw [Nat.div_eq_iff hsize]
      omega
    rw [if_pos ⟨by omega, by rw [hdiv]; exact List.mem_cons_self⟩]
    obtain ⟨k, rfl⟩ := Nat.exists_eq_add_of_le ha.1
    have hk : k < (Bytes.chunk size data c).length := by omega
    rw [Bytes.store_mid hk]
    have hget : (Bytes.chunk size data c)[k]? = _ := Bytes.getElem?_chunk k
    rw [if_pos (by omega), List.getElem?_eq_getElem hk] at hget
    rw [List.getD_eq_getElem?_getD, show o + c * size + k - o = c * size + k by omega, ← hget]
    rfl
  · have hout : Bytes.store f (o + c * size) (Bytes.chunk size data c) a = f a := by
      rcases Nat.lt_or_ge a (o + c * size) with h | h
      · exact Bytes.store_of_lt h
      · exact Bytes.store_of_ge (by rw [hlen]; omega)
    rw [hout, if_neg]
    rintro ⟨hle, hmem⟩
    rcases List.mem_cons.mp hmem with hdiv | hmem
    · rw [Nat.div_eq_iff hsize] at hdiv
      omega
    · exact hin ⟨hle, hmem⟩

/-- Writing the listed chunks one by one. -/
theorem foldl_store_chunks (hsize : 0 < size) : ∀ {ids : List ℕ} {f : Frame},
    (∀ c ∈ ids, c * size + size ≤ data.length) →
    ids.foldl (fun f c => Bytes.store f (o + c * size) (Bytes.chunk size data c)) f = overwrite o size data ids f
  | [], f, _ => by
    funext a
    simp [overwrite]
  | c :: ids, f, h => by
    rw [List.foldl_cons, foldl_store_chunks hsize fun x hx => h x (List.mem_cons_of_mem c hx),
      overwrite_cons hsize (h c List.mem_cons_self)]

end Overwrite

namespace DataPage

variable {n size : ℕ} {data : List (BitVec 8)} {ids : List ℕ}

/-! ### The checks -/

theorem checkChunks_sorted {len : ℕ} : ∀ {prev : Option ℕ} {ids : List ℕ}, checkChunks size len prev ids = .ok () →
    ids.Pairwise (· < ·) ∧ ∀ q ∈ prev, ∀ c ∈ ids, q < c
  | prev, [], _ => ⟨.nil, by simp⟩
  | prev, c :: ids, h => by
    unfold checkChunks at h
    split at h
    · cases h
    rename_i hnone
    split at h
    · cases h
    obtain ⟨hsorted, hlt⟩ := checkChunks_sorted h
    have hprev : ∀ q ∈ prev, q < c := by
      intro q hq
      rw [Option.filter_eq_none_iff] at hnone
      simpa using hnone q hq
    refine ⟨List.pairwise_cons.mpr ⟨fun x hx => hlt c rfl x hx, hsorted⟩, fun q hq x hx => ?_⟩
    rcases List.mem_cons.mp hx with rfl | hx
    · exact hprev q hq
    · exact (hprev q hq).trans (hlt c rfl x hx)

/-- **What the checks of an update let through.** -/
theorem checkUpdate_iff {addr : String} {colData : Option (List (BitVec 8))} :
    checkUpdate n addr colData ids size = .ok data ↔ colData = some data ∧ 0 < size ∧ data.length = n ∧
      ids.Pairwise (· < ·) ∧ ∀ c ∈ ids, c * size + size ≤ n := by
  constructor
  · intro h
    obtain ⟨hlen, hin⟩ := checkUpdate_ok h
    unfold checkUpdate at h
    dsimp only at h
    split at h
    · cases h
    rename_i data' hdata
    rw [Option.filter_eq_some_iff] at hdata
    obtain ⟨rfl, hok⟩ := hdata
    simp only [ne_eq, decide_eq_true_eq] at hok
    rcases hc : checkChunks size ((some data').map List.length |>.getD 0) none ids with e | u
    · rw [hc] at h
      cases h
    · rw [hc] at h
      cases h
      exact ⟨rfl, Nat.pos_of_ne_zero hok.1, hlen, (checkChunks_sorted hc).1, hin⟩
  · rintro ⟨rfl, hsize, hlen, hsorted, hin⟩
    exact checkUpdate_of_sorted (by omega) hlen hsorted hin

/-- The runs that are written come to the plain overwrite. -/
theorem writeRuns_eq {o : ℕ} {p : Page} (hsize : 0 < size) (h : ∀ c ∈ ids, c * size + size ≤ data.length) :
    writeRuns o size data (chunkRuns ids) p = { p with bytes := overwrite o size data ids p.bytes } := by
  have hrest : ∀ (runs : List (ℕ × ℕ)) (p : Page), ∃ f, writeRuns o size data runs p = { p with bytes := f } := by
    intro runs
    induction runs with
    | nil => exact fun p => ⟨p.bytes, rfl⟩
    | cons run runs ih => exact fun p => ih _
  obtain ⟨f, hf⟩ := hrest (chunkRuns ids) p
  have hbytes := writeRuns_bytes (p := p) (o := o) h
  rw [hf, foldl_store_chunks hsize h] at hbytes
  rw [hf]
  dsimp only at hbytes
  rw [hbytes]

end DataPage

namespace ColumnStore

open StoreProg DataPage

/-! ### The call -/

/-- What `update` checks, for the column `data` and the page `p`: the arguments, that
the page loads, and that the bits of the slot say it is occupied. -/
structure Checked (cs : ColumnStore) (s : Store) (colRef : ℕ) (colData : Option (List (BitVec 8)))
    (chunkIds : List ℕ) (chunkSize : ℕ) (data : List (BitVec 8)) (p : Page) : Prop where
  pointer : colData = some data
  chunkSize_pos : 0 < chunkSize
  length : data.length = cs.root.columnSize
  sorted : chunkIds.Pairwise (· < ·)
  inside : ∀ c ∈ chunkIds, c * chunkSize + chunkSize ≤ data.length
  loads : s.faults[0]? ≠ some true
  page : s.pages (decodeColumnRef colRef).1 = some p
  occupied : (getRecordStatus p (decodeColumnRef colRef).2).2 = false

/-- The page after the listed chunks of a record are overwritten. -/
def updated (cs : ColumnStore) (colRef : ℕ) (data : List (BitVec 8)) (chunkIds : List ℕ) (chunkSize : ℕ)
    (p : Page) : Page :=
  let colOffset := cs.data.getRecordOffset (decodeColumnRef colRef).2 + trxRefSize
  { p with bytes := overwrite colOffset chunkSize data chunkIds p.bytes }

variable {cs : ColumnStore} {s s' : Store} {colRef chunkSize : ℕ} {addr : String}
  {colData : Option (List (BitVec 8))} {chunkIds : List ℕ} {data : List (BitVec 8)} {p : Page}

theorem Checked.unique {data' : List (BitVec 8)} {p' : Page}
    (h : Checked cs s colRef colData chunkIds chunkSize data p)
    (h' : Checked cs s colRef colData chunkIds chunkSize data' p') : data = data' ∧ p = p' :=
  ⟨Option.some.inj (h.pointer.symm.trans h'.pointer), Option.some.inj (h.page.symm.trans h'.page)⟩

theorem Checked.one_le (h : Checked cs s colRef colData chunkIds chunkSize data p) (hne : chunkIds ≠ []) :
    1 ≤ cs.root.columnSize := by
  obtain ⟨c, cs', rfl⟩ := List.exists_cons_of_ne_nil hne
  have hin := h.inside c List.mem_cons_self
  have hlen := h.length
  have hpos := h.chunkSize_pos
  omega

theorem update_nil : cs.update colRef addr colData [] chunkSize s = (.ok (), s) := rfl

/-- What is checked is enough. -/
theorem Checked.update (h : Checked cs s colRef colData chunkIds chunkSize data p) (hne : chunkIds ≠ []) :
    cs.update colRef addr colData chunkIds chunkSize s = (.ok (), { s with
      pages := fun q => (s.pages q).map fun p' =>
        if q = (decodeColumnRef colRef).1 then updated cs colRef data chunkIds chunkSize p else p',
      faults := s.faults.drop 1 }) := by
  obtain ⟨c, cs', rfl⟩ := List.exists_cons_of_ne_nil hne
  have hcheck : checkUpdate cs.root.columnSize addr colData (c :: cs') chunkSize = .ok data :=
    checkUpdate_iff.mpr ⟨h.pointer, h.chunkSize_pos, h.length, h.sorted, h.length ▸ h.inside⟩
  have hwrites := writeRuns_eq (p := p) (o := cs.data.getRecordOffset (decodeColumnRef colRef).2 + trxRefSize)
    h.chunkSize_pos h.inside
  have hupdate : cs.data.update (decodeColumnRef colRef).2 data (c :: cs') chunkSize p =
      .ok (updated cs colRef data (c :: cs') chunkSize p) := by
    unfold DataPage.update
    rw [if_neg (by rw [h.occupied]; simp), hwrites]
    rfl
  unfold ColumnStore.update
  dsimp only
  rw [hcheck, ofExcept, Prog.pure_bind, Prog.bind_apply, load_run h.loads h.page]
  dsimp only
  rw [hupdate, ofExcept, Prog.pure_bind, modifyPage, Prog.modify_apply]

/-- And needed: otherwise the call is an error that has written nothing. -/
theorem update_fails (hne : chunkIds ≠ []) (h : ¬ ∃ data p, Checked cs s colRef colData chunkIds chunkSize data p) :
    ∃ e fs, cs.update colRef addr colData chunkIds chunkSize s = (.error e, { s with faults := fs }) := by
  obtain ⟨c, cs', rfl⟩ := List.exists_cons_of_ne_nil hne
  unfold ColumnStore.update
  dsimp only
  cases hcheck : checkUpdate cs.root.columnSize addr colData (c :: cs') chunkSize with
  | error e => exact ⟨e, s.faults, rfl⟩
  | ok data =>
    obtain ⟨hpointer, hsize, hlen, hsorted, hin⟩ := checkUpdate_iff.mp hcheck
    rw [ofExcept, Prog.pure_bind]
    rcases hload : load ⟨"update: failed to load data page", false⟩ (decodeColumnRef colRef).1 s with ⟨e | p, s₁⟩
    · obtain ⟨-, fs, rfl⟩ := load_fails hload
      exact ⟨e, fs, by rw [Prog.bind_apply, hload]⟩
    · obtain ⟨hloads, rfl⟩ := load_ok hload
      have hp := (load_returns hload).1
      have hfree : (getRecordStatus p (decodeColumnRef colRef).2).2 = true := by
        by_contra hocc
        exact h ⟨data, p, hpointer, hsize, hlen, hsorted, hlen ▸ hin, hloads, hp, by simpa using hocc⟩
      have hupdate : cs.data.update (decodeColumnRef colRef).2 data (c :: cs') chunkSize p =
          .error ⟨"update: slot " ++ toString (decodeColumnRef colRef).2 ++ " is free", true⟩ := if_pos hfree
      refine ⟨⟨"update: slot " ++ toString (decodeColumnRef colRef).2 ++ " is free", true⟩, s.faults.drop 1, ?_⟩
      rw [Prog.bind_apply, hload]
      dsimp only
      rw [hupdate]
      rfl

/-! ### What is left alone -/

/-- The layout of a page with a record: the bitmap reaches into the first record by
one byte at most, which is one of its transaction reference. -/
theorem layout_of_init {ps : PageSize} {n : ℕ} {d : DataPage} (h1 : 1 ≤ n) (h2 : n ≤ 65527)
    (hinit : DataPage.init ps n = some d) (hm : 1 ≤ d.maxNumRecs) :
    d.recSize = trxRefSize + n ∧ freeBitmapOff + bitmapBytes d.maxNumRecs ≤ d.firstRecOffset + 1 := by
  obtain ⟨hsize, -, hfirst | ⟨k, hk, hfirst⟩⟩ := init_cases h1 h2 hinit hm
  · exact ⟨hsize, by omega⟩
  · refine ⟨hsize, ?_⟩
    rw [hfirst, hk]
    unfold bitmapBytes
    omega

/-- What an update of slot `i` leaves of the slots of its page: every status and every
transaction reference, and the whole record of the others. -/
structure SlotsKept (d : DataPage) (i : ℕ) (p p' : Page) : Prop where
  status : ∀ j < d.maxNumRecs, getRecordStatus p' j = getRecordStatus p j
  stamp : ∀ j < d.maxNumRecs, p'.readInteger8 (d.getRecordOffset j) = p.readInteger8 (d.getRecordOffset j)
  others : ∀ j < d.maxNumRecs, j ≠ i → recordBytes d p' j = recordBytes d p j

theorem overwrite_outside {o size a m : ℕ} {ids : List ℕ} {f : Frame} (hsize : 0 < size)
    (h : ∀ c ∈ ids, c * size + size ≤ data.length) (hdis : a + m ≤ o ∨ o + data.length ≤ a) :
    Bytes.slice (overwrite o size data ids f) a m = Bytes.slice f a m := by
  rw [← foldl_store_chunks hsize h]
  exact slice_foldl_chunks_of_disjoint hdis h

theorem updated_kept {ps : PageSize} {n : ℕ} (h1 : 1 ≤ n) (h2 : n ≤ 65527)
    (hinit : DataPage.init ps n = some cs.data) (hlen : data.length = n)
    (hi : (decodeColumnRef colRef).2 < cs.data.maxNumRecs) (hsize : 0 < chunkSize)
    (h : ∀ c ∈ chunkIds, c * chunkSize + chunkSize ≤ data.length) :
    SlotsKept cs.data (decodeColumnRef colRef).2 p (updated cs colRef data chunkIds chunkSize p) := by
  obtain ⟨hrec, hbitmap⟩ := layout_of_init h1 h2 hinit (by omega)
  have h8 : trxRefSize = 8 := rfl
  set i := (decodeColumnRef colRef).2 with hidef
  set o := cs.data.getRecordOffset i + trxRefSize with ho
  have hout : ∀ a m, (a + m ≤ o ∨ o + data.length ≤ a) →
      Bytes.slice (updated cs colRef data chunkIds chunkSize p).bytes a m = Bytes.slice p.bytes a m :=
    fun a m hdis => overwrite_outside hsize h hdis
  have hfirst := le_getRecordOffset (d := cs.data) (i := i)
  constructor
  · intro j hj
    have hb : (updated cs colRef data chunkIds chunkSize p).bytes (bitmapPos j).1 = p.bytes (bitmapPos j).1 := by
      have hpos : (bitmapPos j).1 + 1 ≤ freeBitmapOff + bitmapBytes cs.data.maxNumRecs := by
        unfold bitmapPos bitmapBytes bitsPerRecord
        dsimp only
        omega
      have hbyte := hout (bitmapPos j).1 1 (by omega)
      simpa [Bytes.slice] using hbyte
    simp only [getRecordStatus, Page.readInteger1, hb]
  · intro j hj
    apply Page.readInteger8_congr
    apply hout
    by_cases hij : j = i
    · left
      subst hij
      omega
    · have := getRecordOffset_disjoint (d := cs.data) hij
      omega
  · intro j hj hij
    have := getRecordOffset_disjoint (d := cs.data) hij
    exact hout _ _ (by omega)

/-- The column of the record, as a list. -/
theorem updated_column {n : ℕ} (hlen : data.length = n) (hsize : 0 < chunkSize)
    (h : ∀ c ∈ chunkIds, c * chunkSize + chunkSize ≤ data.length) :
    Bytes.slice (updated cs colRef data chunkIds chunkSize p).bytes
      (cs.data.getRecordOffset (decodeColumnRef colRef).2 + trxRefSize) n =
    spliceChunks chunkSize data chunkIds
      (Bytes.slice p.bytes (cs.data.getRecordOffset (decodeColumnRef colRef).2 + trxRefSize) n) := by
  subst hlen
  have hbytes : (updated cs colRef data chunkIds chunkSize p).bytes =
      overwrite (cs.data.getRecordOffset (decodeColumnRef colRef).2 + trxRefSize) chunkSize data chunkIds p.bytes := rfl
  rw [hbytes, ← foldl_store_chunks hsize h]
  exact slice_foldl_chunks h

/-! ### The claim of the header file -/

/-- What an update is to do: nothing without a chunk; refuse, and change no page; or
overwrite the listed chunks of the record, and leave everything else. -/
structure Overwrites (cs : ColumnStore) (s : Store) (colRef : ℕ) (colData : Option (List (BitVec 8)))
    (chunkIds : List ℕ) (chunkSize : ℕ) (out : Except StorageError Unit × Store) : Prop where
  nothing : chunkIds = [] → out = (.ok (), s)
  accepts : chunkIds ≠ [] → (out.1 = .ok () ↔ ∃ data p, Checked cs s colRef colData chunkIds chunkSize data p ∧
    (decodeColumnRef colRef).2 < cs.data.maxNumRecs)
  refuses : ∀ e, out.1 = .error e → out.2.root = s.root ∧ out.2.pages = s.pages
  writes : chunkIds ≠ [] → out.1 = .ok () → ∃ data p, colData = some data ∧
    s.pages (decodeColumnRef colRef).1 = some p ∧ out.2.root = s.root ∧
    out.2.pages = Function.update s.pages (decodeColumnRef colRef).1
      (some (updated cs colRef data chunkIds chunkSize p)) ∧
    Bytes.slice (updated cs colRef data chunkIds chunkSize p).bytes
      (cs.data.getRecordOffset (decodeColumnRef colRef).2 + trxRefSize) cs.root.columnSize =
      spliceChunks chunkSize data chunkIds
        (Bytes.slice p.bytes (cs.data.getRecordOffset (decodeColumnRef colRef).2 + trxRefSize) cs.root.columnSize) ∧
    SlotsKept cs.data (decodeColumnRef colRef).2 p (updated cs colRef data chunkIds chunkSize p)

/-- The page of the reference has no record with its slot number, but the two bits that
would be the slot's read as occupied, and everything else is in order. -/
def OutOfRange (cs : ColumnStore) (s : Store) (colRef : ℕ) (colData : Option (List (BitVec 8)))
    (chunkIds : List ℕ) (chunkSize : ℕ) : Prop :=
  chunkIds ≠ [] ∧ cs.data.maxNumRecs ≤ (decodeColumnRef colRef).2 ∧
    ∃ data p, Checked cs s colRef colData chunkIds chunkSize data p

/-- **Updates.** `update` does what it is to do unless the slot number is out of range. -/
theorem update_overwrites_iff {ps : PageSize} {spaceRef rootPageRef primaryRootPageRef colLen numSegments
    numRootPages metadataLen : ℕ} (hinit : ColumnStore.init ps spaceRef rootPageRef primaryRootPageRef colLen
      numSegments numRootPages metadataLen = some cs) (hlen : colLen ≤ 65527) (s : Store) (colRef : ℕ) (addr : String)
    (colData : Option (List (BitVec 8))) (chunkIds : List ℕ) (chunkSize : ℕ) :
    Overwrites cs s colRef colData chunkIds chunkSize (cs.update colRef addr colData chunkIds chunkSize s) ↔
      ¬ OutOfRange cs s colRef colData chunkIds chunkSize := by
  obtain ⟨hd, hcol⟩ : DataPage.init ps colLen = some cs.data ∧ cs.root.columnSize = colLen := by
    obtain ⟨d, hd, rfl⟩ := Option.map_eq_some_iff.mp hinit
    exact ⟨hd, rfl⟩
  subst hcol
  constructor
  · rintro hover ⟨hne, hout, data, p, hchecked⟩
    obtain ⟨_, _, -, hlt⟩ := (hover.accepts hne).mp (by rw [hchecked.update hne])
    omega
  intro hrange
  by_cases hne : chunkIds = []
  · subst hne
    rw [update_nil]
    exact ⟨fun _ => rfl, fun h => absurd rfl h, fun e h => (by cases h), fun h => absurd rfl h⟩
  by_cases hchecked : ∃ data p, Checked cs s colRef colData chunkIds chunkSize data p
  · obtain ⟨data, p, h⟩ := hchecked
    have hlt : (decodeColumnRef colRef).2 < cs.data.maxNumRecs := by
      by_contra hge
      exact hrange ⟨hne, Nat.le_of_not_lt hge, data, p, h⟩
    have hpages : (fun q => (s.pages q).map fun p' =>
        if q = (decodeColumnRef colRef).1 then updated cs colRef data chunkIds chunkSize p else p') =
        Function.update s.pages (decodeColumnRef colRef).1 (some (updated cs colRef data chunkIds chunkSize p)) := by
      funext q
      by_cases hq : q = (decodeColumnRef colRef).1
      · subst hq
        simp [h.page]
      · simp [hq]
    rw [h.update hne]
    refine ⟨fun h' => absurd h' hne, fun _ => ⟨fun _ => ⟨data, p, h, hlt⟩, fun _ => rfl⟩, fun e h' => (by cases h'),
      fun _ _ => ⟨data, p, h.pointer, h.page, rfl, hpages, ?_, ?_⟩⟩
    · exact updated_column h.length h.chunkSize_pos h.inside
    · exact updated_kept (h.one_le hne) hlen hd h.length hlt h.chunkSize_pos h.inside
  · obtain ⟨e, fs, hrun⟩ : ∃ e fs, cs.update colRef addr colData chunkIds chunkSize s = (.error e, { s with faults := fs }) :=
      update_fails hne hchecked
    rw [hrun]
    refine ⟨fun h' => absurd h' hne, fun _ => ⟨fun h' => (by cases h'), ?_⟩, fun _ _ => ⟨rfl, rfl⟩,
      fun _ h' => (by cases h')⟩
    rintro ⟨data, p, h, -⟩
    exact absurd ⟨data, p, h⟩ hchecked

/-! A page of 4096 bytes holds five records of 171 dimensions, and its free bitmap has two
bytes. -/

/-- A store of `SVECTOR(171)` on 4K pages. -/
def fiveStore : ColumnStore := ⟨1, 4, 4, RootPage.init .k4 692 1 1 7, ⟨700, 2, 5, 60⟩⟩

/-- A data page after `find_free_slot` has handed out slot 5, which it can. -/
def overrunPage : Page :=
  { fiveStore.data.format 4 Page.zero with
    numFreeRecs := 0, bytes := fun a => if a = 58 then 0xAA else if a = 59 then 0x0A else 0 }

def overrunState : Store :=
  ⟨RootFrame.format, fun q => if q = 6 then some overrunPage else none, ⟨0, none, 0, 0⟩, []⟩

theorem init_fiveStore : ColumnStore.init .k4 1 4 4 692 1 1 7 = some fiveStore := by
  unfold ColumnStore.init fiveStore
  rw [show DataPage.init .k4 692 = some ⟨700, 2, 5, 60⟩ by decide]
  rfl

/-- The first dimension of slot 4 is set. -/
theorem update_overwrites_four :
    Overwrites fiveStore overrunState (encodeColumnRef 6 4) (some (List.replicate 692 1)) [0] 4
      (fiveStore.update (encodeColumnRef 6 4) "0x1" (some (List.replicate 692 1)) [0] 4 overrunState) :=
  (update_overwrites_iff init_fiveStore (by decide) _ _ _ _ _ _).mpr fun h => absurd h.2.1 (by decide)

/-- **An update of slot 5 of 5 writes.** -/
theorem update_past_records :
    ColumnStore.init .k4 1 4 4 692 1 1 7 = some fiveStore ∧
    ¬ Overwrites fiveStore overrunState (encodeColumnRef 6 5) (some (List.replicate 692 1)) [0] 4
      (fiveStore.update (encodeColumnRef 6 5) "0x1" (some (List.replicate 692 1)) [0] 4 overrunState) := by
  refine ⟨init_fiveStore, fun h => ?_⟩
  have hok : (fiveStore.update (encodeColumnRef 6 5) "0x1" (some (List.replicate 692 1)) [0] 4 overrunState).1 =
      .ok () := by decide +kernel
  obtain ⟨_, _, -, hlt⟩ := (h.accepts (by decide)).mp hok
  exact absurd hlt (by decide)

end ColumnStore

end VsqlVector
