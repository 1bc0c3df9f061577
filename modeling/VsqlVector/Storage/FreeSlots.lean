/-
# The free slot of an insert

`DataPage::find_free_slot` looks for a free record from a hint that every thread
keeps for itself: the slot after its last insert into the store. It scans the bitmap
byte by byte. A byte has the bits of four records, so where the capacity is no
multiple of four the last byte has bits of records that do not exist, which are
clear.

The scan comes to these bits when it starts in the last byte, the records of that
byte are occupied and others further up are free. Two threads and a purge bring a
page there (`overrun`), unless the bitmap has only one byte (`inserts_safe_iff`).

Key definitions: `DataPage.SharedPages`, `DataPage.InsertStep`, `DataPage.InsertsSafe`.
Key theorems: `DataPage.findFreeSlot_free`, `DataPage.findFreeSlot_first`,
`DataPage.inserts_safe_iff`.
-/
import VsqlVector.Lib.Runs
import VsqlVector.Storage.Records

namespace VsqlVector
namespace DataPage

/-! ### The scan of the bitmap -/

/-- The record of a slot is free. -/
def IsFree (p : Page) (i : ℕ) : Prop := (getRecordStatus p i).2 = true

instance (p : Page) (i : ℕ) : Decidable (IsFree p i) := inferInstanceAs (Decidable (_ = true))

section Scan

variable {d : DataPage} {p : Page} {i j k hint : ℕ}

theorem isFree_iff {q : ℕ} (hj : j = 4 * k + q) (hq : q < 4) :
    IsFree p j ↔ (p.readInteger1 (freeBitmapOff + k)).getLsbD (2 * q + freeBit) = false := by
  have h1 : j * bitsPerRecord / 8 = k := by
    unfold bitsPerRecord
    omega
  have h2 : j * bitsPerRecord % 8 = 2 * q := by
    unfold bitsPerRecord
    omega
  simp [IsFree, getRecordStatus, bitmapPos, h1, h2]

/-- The first clear free bit of a byte, if there is one. -/
theorem freeBitInByte_cases (b : BitVec 8) :
    (freeBitInByte b = none ∧ ∀ q < 4, b.getLsbD (2 * q + freeBit) = true) ∨
      ∃ q < 4, freeBitInByte b = some (2 * q) ∧ b.getLsbD (2 * q + freeBit) = false ∧
        ∀ q' < q, b.getLsbD (2 * q' + freeBit) = true := by
  revert b
  decide +kernel

/-- The scan of one byte. -/
def scanByte (p : Page) (k : ℕ) : Option ℕ :=
  (freeBitInByte (p.readInteger1 (freeBitmapOff + k))).map fun bit => k * 4 + bit / 2

/-- It finds the first free slot of the four. -/
theorem scanByte_cases (p : Page) (k : ℕ) :
    (scanByte p k = none ∧ ∀ j, j / 4 = k → ¬ IsFree p j) ∨
      ∃ i, scanByte p k = some i ∧ i / 4 = k ∧ IsFree p i ∧ ∀ j, j / 4 = k → j < i → ¬ IsFree p j := by
  rcases freeBitInByte_cases (p.readInteger1 (freeBitmapOff + k)) with ⟨hn, hb⟩ | ⟨q, hq, hs, hbq, hb⟩
  · refine .inl ⟨by rw [scanByte, hn]; rfl, fun j hj hf => ?_⟩
    rw [isFree_iff (show j = 4 * k + j % 4 by omega) (by omega), hb _ (by omega)] at hf
    exact absurd hf (by simp)
  · refine .inr ⟨4 * k + q, ?_, by omega, (isFree_iff rfl hq).mpr hbq, fun j hj hlt hf => ?_⟩
    · rw [scanByte, hs, Option.map_some]
      congr 1
      omega
    · rw [isFree_iff (show j = 4 * k + j % 4 by omega) (by omega), hb _ (by omega)] at hf
      exact absurd hf (by simp)

theorem findFreeSlot_eq (d : DataPage) (p : Page) (hint : ℕ) :
    findFreeSlot d p hint =
      if hint < d.maxNumRecs ∧ IsFree p hint then some hint
      else ((List.range' (hint / 4) (bitmapBytes d.maxNumRecs - hint / 4)).findSome? (scanByte p)).or
        ((List.range (hint / 4)).findSome? (scanByte p)) := by
  have h : hint * bitsPerRecord / 8 = hint / 4 := by
    unfold bitsPerRecord
    omega
  unfold findFreeSlot
  rw [bitsToBytesCeil_two, h]
  rfl

/-- What is found is free, and in a byte of the bitmap. -/
theorem findFreeSlot_free (hhint : hint / 4 ≤ bitmapBytes d.maxNumRecs) (h : findFreeSlot d p hint = some i) :
    IsFree p i ∧ (i < d.maxNumRecs ∨ i / 4 < bitmapBytes d.maxNumRecs ∧ ∀ j, j / 4 = i / 4 → j < i → ¬ IsFree p j) := by
  rw [findFreeSlot_eq] at h
  split at h
  · rename_i hfast
    obtain rfl := Option.some.inj h
    exact ⟨hfast.2, .inl hfast.1⟩
  · have hbyte {ks : List ℕ} (hks : ∀ k ∈ ks, k < bitmapBytes d.maxNumRecs) (hf : ks.findSome? (scanByte p) = some i) :
        IsFree p i ∧ i / 4 < bitmapBytes d.maxNumRecs ∧ ∀ j, j / 4 = i / 4 → j < i → ¬ IsFree p j := by
      obtain ⟨k, hk, hs⟩ := List.exists_of_findSome?_eq_some hf
      obtain ⟨hn, -⟩ | ⟨i', hs', rfl, hfree, hbelow⟩ := scanByte_cases p k
      · rw [hn] at hs
        exact absurd hs (by simp)
      · obtain rfl : i' = i := Option.some.inj (hs'.symm.trans hs)
        exact ⟨hfree, hks _ hk, hbelow⟩
    rcases Option.or_eq_some_iff.mp h with h | ⟨-, h⟩
    · obtain ⟨h1, h2⟩ := hbyte (fun k hk => by rw [List.mem_range'_1] at hk; omega) h
      exact ⟨h1, .inr h2⟩
    · obtain ⟨h1, h2⟩ := hbyte (fun k hk => by rw [List.mem_range] at hk; omega) h
      exact ⟨h1, .inr h2⟩

/-- A free record is not overlooked. -/
theorem findFreeSlot_isSome (hi : i < d.maxNumRecs) (hfree : IsFree p i) : ∃ s, findFreeSlot d p hint = some s := by
  rw [findFreeSlot_eq]
  split
  · exact ⟨hint, rfl⟩
  · have hscan : ∃ s, scanByte p (i / 4) = some s := by
      obtain ⟨-, hno⟩ | ⟨s, hs, -⟩ := scanByte_cases p (i / 4)
      · exact absurd hfree (hno i rfl)
      · exact ⟨s, hs⟩
    obtain ⟨s, hs⟩ := hscan
    have hb : i / 4 < bitmapBytes d.maxNumRecs := by
      unfold bitmapBytes
      omega
    rw [← Option.isSome_iff_exists, Option.isSome_or, Bool.or_eq_true, List.findSome?_isSome_iff,
      List.findSome?_isSome_iff]
    rcases Nat.lt_or_ge (i / 4) (hint / 4) with h | h
    · exact .inr ⟨i / 4, List.mem_range.mpr h, by simp [hs]⟩
    · exact .inl ⟨i / 4, List.mem_range'_1.mpr (by omega), by simp [hs]⟩

/-- From an occupied hint on, the first slot whose bit is clear is found, whether or
not there is a record for it. -/
theorem findFreeSlot_first (hhint : ¬ IsFree p hint) (h1 : hint / 4 ≤ i / 4) (h2 : i / 4 < bitmapBytes d.maxNumRecs)
    (hfree : IsFree p i) (hocc : ∀ j, hint / 4 ≤ j / 4 → j < i → ¬ IsFree p j) :
    findFreeSlot d p hint = some i := by
  rw [findFreeSlot_eq, if_neg (fun h => hhint h.2), Option.or_eq_some_iff]
  refine .inl ?_
  have hsplit : List.range' (hint / 4) (bitmapBytes d.maxNumRecs - hint / 4) =
      List.range' (hint / 4) (i / 4 - hint / 4) ++ i / 4 ::
        List.range' (i / 4 + 1) (bitmapBytes d.maxNumRecs - i / 4 - 1) := by
    rw [show bitmapBytes d.maxNumRecs - hint / 4 = (i / 4 - hint / 4) + (bitmapBytes d.maxNumRecs - i / 4 - 1 + 1) by omega,
      ← List.range'_append_1, List.range'_succ]
    congr 2
    · omega
    · congr 1
      omega
  rw [hsplit, List.findSome?_append, Option.or_eq_some_iff]
  refine .inr ⟨List.findSome?_eq_none_iff.mpr fun k hk => ?_, ?_⟩
  · rw [List.mem_range'_1] at hk
    obtain ⟨hn, -⟩ | ⟨s, -, hsk, hsf, -⟩ := scanByte_cases p k
    · exact hn
    · exact absurd hsf (hocc s (by omega) (by omega))
  · rw [List.findSome?_cons]
    obtain ⟨-, hno⟩ | ⟨s, hs, hsk, hsf, hbelow⟩ := scanByte_cases p (i / 4)
    · exact absurd hfree (hno i rfl)
    · rw [hs]
      have hle : s ≤ i := Nat.le_of_not_lt fun hlt => hbelow i rfl hlt hfree
      have hge : i ≤ s := Nat.le_of_not_lt fun hlt => hocc s (by omega) hlt hsf
      rw [le_antisymm hle hge]

end Scan

/-! ### Pages that threads share -/

/-- The data pages of a store, and the hint that each thread has for it. -/
structure SharedPages where
  pages : ℕ → Page
  hints : ℕ → ℕ

namespace SharedPages

/-- Every page as `format` leaves it, and no thread with a hint. -/
def formatted (d : DataPage) (root : ℕ) : SharedPages := ⟨fun _ => d.format root .zero, fun _ => 0⟩

/-- The slot an insert by thread `t` into page `r` takes. -/
def slotOf (d : DataPage) (t r : ℕ) (s : SharedPages) : ℕ := (findFreeSlot d (s.pages r) (s.hints t)).getD 0

/-- `DataPage::insert` by thread `t`: the page and the thread's hint. -/
def inserted (d : DataPage) (t r : ℕ) (trxRef : BitVec 64) (colData : List (BitVec 8)) (s : SharedPages) : SharedPages where
  pages := Function.update s.pages r (d.insertAt trxRef colData (s.slotOf d t r) (s.pages r))
  hints := Function.update s.hints t (if s.slotOf d t r + 1 ≥ d.maxNumRecs then 0 else s.slotOf d t r + 1)

end SharedPages

/-- A step: some thread inserts where a record is free, some record is changed, or a
thread's hint is given up because it turned to another store. -/
inductive InsertStep (d : DataPage) (colLen : ℕ) (s : SharedPages) : SharedPages → Prop
  | insert (t r : ℕ) (trxRef : BitVec 64) (colData : List (BitVec 8)) : 0 < (s.pages r).numFreeRecs →
      colData.length = colLen → InsertStep d colLen s (s.inserted d t r trxRef colData)
  | record (r : ℕ) (op : RecordOp) : (∀ hint trxRef colData, op ≠ .insert hint trxRef colData) →
      op.Allowed d colLen (s.pages r) →
      InsertStep d colLen s { s with pages := Function.update s.pages r (op.apply d colLen (s.pages r)) }
  | forget (t : ℕ) : InsertStep d colLen s { s with hints := Function.update s.hints t 0 }

abbrev SharedRun (d : DataPage) (colLen root : ℕ) : SharedPages → Prop :=
  Reaches (fun s => s = .formatted d root) (InsertStep d colLen)

/-- An insert by thread `t` into page `r` finds a free record below the capacity,
writes it between the bitmap and the trailer of the page, and returns a reference
that no record has. -/
structure InsertFits (ps : PageSize) (d : DataPage) (colLen : ℕ) (s : SharedPages) (t r : ℕ) (slot : ℕ) : Prop where
  found : findFreeSlot d (s.pages r) (s.hints t) = some slot
  lt : slot < d.maxNumRecs
  free : IsFree (s.pages r) slot
  first : d.firstRecOffset ≤ d.getRecordOffset slot
  last : d.getRecordOffset slot + trxRefSize + colLen + pageTrailerSize ≤ ps.bytes
  fresh : ∀ r' i, r' < 2 ^ 32 → i < d.maxNumRecs → ¬ IsFree (s.pages r') i →
    encodeColumnRef r' i ≠ encodeColumnRef r slot

/-- In every run, every insert into a page that counts a free record fits. -/
def InsertsSafe (ps : PageSize) (d : DataPage) (colLen root : ℕ) : Prop :=
  ∀ s, SharedRun d colLen root s → ∀ t r, r < 2 ^ 32 → 0 < (s.pages r).numFreeRecs →
    ∃ slot, InsertFits ps d colLen s t r slot

theorem encodeColumnRef_inj {r r' i i' : ℕ} (hr : r < 2 ^ 32) (hr' : r' < 2 ^ 32)
    (h : encodeColumnRef r i = encodeColumnRef r' i') : r = r' ∧ i = i' := by
  have heq (a b : ℕ) (ha : a < 2 ^ 32) : encodeColumnRef a b = b * 2 ^ 32 + a := by
    rw [encodeColumnRef, Nat.or_comm, ← Nat.shiftLeft_add_eq_or_of_lt ha, Nat.shiftLeft_eq]
  rw [heq r i hr, heq r' i' hr'] at h
  omega

/-! ### Where inserts are safe -/

section Safe

variable {d : DataPage} {n : ℕ} {p : Page} {hint i : ℕ}

/-- Where the bitmap has one byte, or no bits without a record, a free record is
found below the capacity. -/
theorem findFreeSlot_lt (hm : d.maxNumRecs ≤ 4 ∨ d.maxNumRecs % 4 = 0) (hhint : hint < d.maxNumRecs)
    (hi : i < d.maxNumRecs) (hfree : IsFree p i) :
    ∃ s, findFreeSlot d p hint = some s ∧ s < d.maxNumRecs ∧ IsFree p s := by
  obtain ⟨s, hs⟩ : ∃ s, findFreeSlot d p hint = some s := findFreeSlot_isSome hi hfree
  obtain ⟨hsf, hlt | ⟨hbyte, hbelow⟩⟩ := findFreeSlot_free (by unfold bitmapBytes; omega) hs
  · exact ⟨s, hs, hlt, hsf⟩
  · refine ⟨s, hs, ?_, hsf⟩
    rcases hm with hm | hm
    · by_contra hge
      unfold bitmapBytes at hbyte
      exact hbelow i (by omega) (by omega) hfree
    · unfold bitmapBytes at hbyte
      omega

theorem isFree_format (root i : ℕ) : IsFree (d.format root .zero) i := by
  simp [IsFree, getRecordStatus, format, Page.zero, Page.readInteger1, bitmapPos]

theorem card_freeSlots_format (root : ℕ) :
    (d.format root .zero).numFreeRecs = (d.freeSlots (d.format root .zero)).card := by
  have : d.freeSlots (d.format root .zero) = Finset.range d.maxNumRecs := by
    ext i
    rw [mem_freeSlots, Finset.mem_range]
    exact and_iff_left (isFree_format root i)
  rw [this, Finset.card_range]
  rfl

/-- A hint is a slot below the capacity. -/
theorem run_hints (hpos : 0 < d.maxNumRecs) {root : ℕ} {s : SharedPages} (h : SharedRun d n root s) (t : ℕ) :
    s.hints t < d.maxNumRecs := by
  revert t
  refine h.invariant (I := fun s => ∀ t, s.hints t < d.maxNumRecs) ?_ ?_
  · rintro s rfl t
    exact hpos
  · intro s s' hI hstep t'
    cases hstep with
    | insert t r trxRef colData _ _ =>
      by_cases ht : t' = t
      · subst ht
        simp only [SharedPages.inserted, Function.update_self]
        split <;> omega
      · simpa [SharedPages.inserted, ht] using hI t'
    | record r op _ _ => exact hI t'
    | forget t =>
      by_cases ht : t' = t
      · simpa [ht] using hpos
      · simpa [ht] using hI t'

/-- With the areas apart the count is that of the clear bits, in every run. -/
theorem run_counts (hd : d.Apart n) (hcap : 0 < d.maxNumRecs) (hm : d.maxNumRecs ≤ 4 ∨ d.maxNumRecs % 4 = 0)
    {root : ℕ} {s : SharedPages} (h : SharedRun d n root s) :
    ∀ r, (s.pages r).numFreeRecs = (d.freeSlots (s.pages r)).card := by
  induction h with
  | init h0 =>
    rintro r
    rw [h0]
    exact card_freeSlots_format root
  | @step s s' hrun hstep hI =>
    intro r'
    cases hstep with
    | insert t r trxRef colData hpos hlen =>
      obtain ⟨i, hi⟩ := Finset.card_pos.mp ((hI r) ▸ hpos)
      obtain ⟨hlt, hfree⟩ := mem_freeSlots.mp hi
      obtain ⟨slot, hs, hslot, hsf⟩ := findFreeSlot_lt hm (run_hints hcap hrun t) hlt hfree
      have hop : (RecordOp.insert (s.hints t) trxRef colData).Allowed d n (s.pages r) := by
        have he : RecordOp.slotIndex d (s.pages r) (.insert (s.hints t) trxRef colData) = slot := by
          simp [RecordOp.slotIndex, hs]
        exact ⟨by rw [he]; exact hslot, by rw [he]; exact hsf, hlen⟩
      by_cases hr : r' = r
      · subst hr
        have := numFreeRecs_apply hd hop (hI r')
        simpa [SharedPages.inserted, SharedPages.slotOf, RecordOp.apply, RecordOp.slotIndex] using this
      · simpa [SharedPages.inserted, hr] using hI r'
    | record r op _ hop =>
      by_cases hr : r' = r
      · subst hr
        simpa using numFreeRecs_apply hd hop (hI r')
      · simpa [hr] using hI r'
    | forget t => exact hI r'

theorem numFreeRecs_insertAt (hpos : 0 < p.numFreeRecs) {trxRef : BitVec 64} {colData : List (BitVec 8)} :
    (d.insertAt trxRef colData i p).numFreeRecs = p.numFreeRecs - 1 :=
  if_neg (show p.numFreeRecs ≠ 0 by omega)

/-- With one record a page the count is at most one, and positive only where the
record is free. The bitmap may overlap the record. -/
theorem run_single (hone : d.maxNumRecs = 1) {root : ℕ} {s : SharedPages} (h : SharedRun d n root s) :
    ∀ r, (s.pages r).numFreeRecs ≤ 1 ∧ ((s.pages r).numFreeRecs = 1 → IsFree (s.pages r) 0) := by
  induction h with
  | init h0 =>
    intro r
    rw [h0]
    exact ⟨hone.le, fun _ => isFree_format root 0⟩
  | @step s s' hrun hstep hI =>
    intro r'
    cases hstep with
    | insert t r trxRef colData hpos hlen =>
      by_cases hr : r' = r
      · subst hr
        have hnum : ((s.inserted d t r' trxRef colData).pages r').numFreeRecs = 0 := by
          have h1 : (s.pages r').numFreeRecs = 1 := le_antisymm (hI r').1 hpos
          simp only [SharedPages.inserted, Function.update_self, numFreeRecs_insertAt hpos, h1]
        rw [hnum]
        exact ⟨by omega, by omega⟩
      · simpa [SharedPages.inserted, hr] using hI r'
    | record r op hop hallow =>
      by_cases hr : r' = r
      · subst hr
        simp only [Function.update_self]
        obtain ⟨h1, h2⟩ := hI r'
        obtain ⟨hlt, hok⟩ := hallow
        cases op with
        | insert hint trxRef colData => exact absurd rfl (hop hint trxRef colData)
        | markDelete i t mark =>
          obtain rfl : i = 0 := by
            simp only [RecordOp.slotIndex, hone] at hlt
            omega
          have hnum : (d.markDelete t 0 mark (s.pages r')).numFreeRecs = (s.pages r').numFreeRecs := by
            rw [markDelete_eq]
            split <;> cases mark <;> rfl
          simp only [RecordOp.apply, hnum]
          exact ⟨h1, fun h => absurd ((h2 h).symm.trans hok) (by simp)⟩
        | purge i t =>
          obtain rfl : i = 0 := by
            simp only [RecordOp.slotIndex, hone] at hlt
            omega
          simp only [RecordOp.apply]
          obtain ⟨hstamp, hp⟩ | ⟨-, hp⟩ := purge_cases d n (s.pages r') (show 0 < d.maxNumRecs by omega) t
          · rw [hp, Option.map_some, Option.getD_some]
            have hocc : (s.pages r').numFreeRecs = 0 := by
              by_contra hne
              have hfree : (getRecordStatus (s.pages r') 0).2 = true := h2 (by omega)
              rw [view_eq, if_pos hfree] at hstamp
              cases hstamp
            refine ⟨by simp [hocc], fun _ => congrArg Prod.snd (status_setRecordFree (s.pages r') 0)⟩
          · rw [hp]
            exact ⟨h1, h2⟩
        | update i addr colData ids size =>
          obtain rfl : i = 0 := by
            simp only [RecordOp.slotIndex, hone] at hlt
            omega
          simp only [RecordOp.apply]
          split
          · exact ⟨h1, h2⟩
          · split
            · exact ⟨h1, h2⟩
            · unfold update
              by_cases hfree : (getRecordStatus (s.pages r') 0).2 = true
              · simp only [hfree, if_true]
                exact ⟨h1, h2⟩
              · simp only [hfree, Bool.false_eq_true, if_false, numFreeRecs_writeRuns]
                exact ⟨h1, fun h => absurd (h2 h) hfree⟩
      · simpa [hr] using hI r'
    | forget t => exact hI r'

/-- Where a record is free the insert fits. -/
theorem insertFits_of_free {ps : PageSize} (hm : d.maxNumRecs ≤ 4 ∨ d.maxNumRecs % 4 = 0)
    (hsize : d.recSize = trxRefSize + n) (hlast : d.firstRecOffset + d.maxNumRecs * d.recSize + pageTrailerSize ≤ ps.bytes)
    {s : SharedPages} {t r : ℕ} (hhint : s.hints t < d.maxNumRecs) (hr : r < 2 ^ 32) (hi : i < d.maxNumRecs)
    (hfree : IsFree (s.pages r) i) : ∃ slot, InsertFits ps d n s t r slot := by
  obtain ⟨slot, hs, hlt, hsf⟩ := findFreeSlot_lt hm hhint hi hfree
  refine ⟨slot, hs, hlt, hsf, le_getRecordOffset, ?_, fun r' j hr' _ hocc he => ?_⟩
  · have hmul : (slot + 1) * d.recSize ≤ d.maxNumRecs * d.recSize := Nat.mul_le_mul_right _ hlt
    rw [Nat.add_mul, Nat.one_mul] at hmul
    unfold getRecordOffset
    omega
  · obtain ⟨rfl, rfl⟩ := encodeColumnRef_inj hr' hr he
    exact hocc hsf

end Safe

/-! ### A run past the last record

Thread 0 fills a page up to its last record but one, so its hint is the last record.
A purge frees the record before that, which thread 1 takes: its hint is the last
record too. Another purge frees a record further up, and thread 0 takes the last
record. Thread 1 finds its hint occupied and scans the last byte of the bitmap. -/

section Overrun

variable {d : DataPage} {n root : ℕ} {p : Page} {s : SharedPages} {F : ℕ → Prop} {i j num t : ℕ}

/-- The clear bits of the bitmap, those without a record among them, and the count. -/
structure Bits (d : DataPage) (p : Page) (F : ℕ → Prop) (num : ℕ) : Prop where
  free : ∀ j, j / 4 < bitmapBytes d.maxNumRecs → (IsFree p j ↔ F j)
  count : p.numFreeRecs = num

/-- A record written outside the bitmap takes its bit and no other. -/
theorem isFree_insertAt {trxRef : BitVec 64} {colData : List (BitVec 8)}
    (hbytes : ∀ o < freeBitmapOff + bitmapBytes d.maxNumRecs,
      ((p.writeInteger8 (d.getRecordOffset i) trxRef).writeString (d.getRecordOffset i + trxRefSize) colData).bytes o =
        p.bytes o) (hj : j / 4 < bitmapBytes d.maxNumRecs) :
    IsFree (d.insertAt trxRef colData i p) j ↔ IsFree p j ∧ j ≠ i := by
  set q := (p.writeInteger8 (d.getRecordOffset i) trxRef).writeString (d.getRecordOffset i + trxRefSize) colData with hq
  have hstatus : getRecordStatus (d.insertAt trxRef colData i p) j = getRecordStatus (setRecordAllocated q i) j := rfl
  rw [IsFree, hstatus, setRecordAllocated, status_updateStatus sets_allocated]
  have hpos : (bitmapPos j).1 < freeBitmapOff + bitmapBytes d.maxNumRecs := by
    simp only [bitmapPos, bitsPerRecord]
    omega
  have hsame : getRecordStatus q j = getRecordStatus p j := by
    simp only [getRecordStatus, Page.readInteger1, hbytes _ hpos]
  by_cases hji : j = i
  · simp [hji]
  · rw [if_neg hji, hsame]
    exact (and_iff_left hji).symm

/-- Only the first record can overlap the bitmap. -/
theorem insert_bytes_other (hfirst : freeBitmapOff + bitmapBytes d.maxNumRecs ≤ d.firstRecOffset + 1)
    (hsize : 1 ≤ d.recSize) (hi : 1 ≤ i) (trxRef : BitVec 64) (colData : List (BitVec 8)) :
    ∀ o < freeBitmapOff + bitmapBytes d.maxNumRecs,
      ((p.writeInteger8 (d.getRecordOffset i) trxRef).writeString (d.getRecordOffset i + trxRefSize) colData).bytes o =
        p.bytes o := by
  intro o ho
  have hoff : d.firstRecOffset + 1 ≤ d.getRecordOffset i := by
    have : 1 * 1 ≤ i * d.recSize := Nat.mul_le_mul hi hsize
    unfold getRecordOffset
    omega
  rw [Page.writeString_bytes, Bytes.store_of_lt (by omega), Page.writeInteger8_eq, Page.writeString_bytes,
    Bytes.store_of_lt (by omega)]

/-- On a formatted page the first record overlaps with a zero. -/
theorem insert_bytes_first (hfirst : freeBitmapOff + bitmapBytes d.maxNumRecs ≤ d.firstRecOffset + 1)
    (colData : List (BitVec 8)) :
    ∀ o < freeBitmapOff + bitmapBytes d.maxNumRecs,
      (((d.format root .zero).writeInteger8 (d.getRecordOffset 0) 0).writeString
        (d.getRecordOffset 0 + trxRefSize) colData).bytes o = (d.format root .zero).bytes o := by
  intro o ho
  have hoff : d.getRecordOffset 0 = d.firstRecOffset := by simp [getRecordOffset]
  have h8 : trxRefSize = 8 := rfl
  rw [hoff, Page.writeString_bytes, Bytes.store_of_lt (by omega), Page.writeInteger8_eq, Page.writeString_bytes]
  rcases Nat.lt_or_ge o d.firstRecOffset with h | h
  · exact Bytes.store_of_lt h
  · obtain rfl : o = d.firstRecOffset + 0 := by omega
    rw [Bytes.store_mid (by simp)]
    rfl

/-- An insert of zeros into page 0. -/
theorem Bits.insert (hb : Bits d (s.pages 0) F num) (hrun : SharedRun d n root s) (hnum : 0 < num)
    (hs : findFreeSlot d (s.pages 0) (s.hints t) = some i)
    (hbytes : ∀ o < freeBitmapOff + bitmapBytes d.maxNumRecs,
      (((s.pages 0).writeInteger8 (d.getRecordOffset i) 0).writeString (d.getRecordOffset i + trxRefSize)
        (List.replicate n 0)).bytes o = (s.pages 0).bytes o) :
    ∃ s', SharedRun d n root s' ∧ Bits d (s'.pages 0) (fun j => F j ∧ j ≠ i) (num - 1) ∧
      s'.hints = Function.update s.hints t (if i + 1 ≥ d.maxNumRecs then 0 else i + 1) := by
  have hslot : s.slotOf d t 0 = i := by rw [SharedPages.slotOf, hs, Option.getD_some]
  have hpos : 0 < (s.pages 0).numFreeRecs := hb.count ▸ hnum
  refine ⟨_, .step hrun (.insert t 0 0 (List.replicate n 0) hpos (List.length_replicate ..)), ⟨fun j hj => ?_, ?_⟩, ?_⟩
  · simp only [SharedPages.inserted, hslot, Function.update_self]
    rw [isFree_insertAt hbytes hj, hb.free j hj]
  · simp only [SharedPages.inserted, hslot, Function.update_self]
    rw [numFreeRecs_insertAt hpos, hb.count]
  · simp only [SharedPages.inserted, hslot]

/-- A purge of an occupied record of page 0 by the transaction that stamped it. -/
theorem Bits.purge (hb : Bits d (s.pages 0) F num) (hrun : SharedRun d n root s) (hi : i < d.maxNumRecs)
    (hocc : ¬ F i) (hnum : num + 1 < 2 ^ 16) :
    ∃ s', SharedRun d n root s' ∧ Bits d (s'.pages 0) (fun j => F j ∨ j = i) (num + 1) ∧ s'.hints = s.hints := by
  have hbyte : i / 4 < bitmapBytes d.maxNumRecs := by
    unfold bitmapBytes
    omega
  have hstatus : (getRecordStatus (s.pages 0) i).2 = false := by
    have := (hb.free i hbyte).not.mpr hocc
    simpa [IsFree] using this
  have happly : (RecordOp.purge i ((s.pages 0).readInteger8 (d.getRecordOffset i))).apply d n (s.pages 0) =
      { setRecordFree (s.pages 0) i with numFreeRecs := ((s.pages 0).numFreeRecs + 1) % 2 ^ 16 } := by
    simp only [RecordOp.apply, DataPage.purge, hstatus, Bool.false_eq_true, ne_eq, not_true_eq_false, if_false,
      if_neg (show ¬ i ≥ d.maxNumRecs by omega), Option.map_some, Option.getD_some]
    rfl
  refine ⟨_, .step hrun (.record 0 (.purge i ((s.pages 0).readInteger8 (d.getRecordOffset i)))
    (by simp) ⟨hi, trivial⟩), ⟨fun j hj => ?_, ?_⟩, rfl⟩
  · simp only [Function.update_self, happly]
    show (getRecordStatus (setRecordFree (s.pages 0) i) j).2 = true ↔ _
    rw [setRecordFree, status_updateStatus sets_free]
    by_cases hji : j = i
    · simp [hji]
    · rw [if_neg hji, or_iff_left hji]
      exact hb.free j hj
  · simp only [Function.update_self, happly, hb.count]
    exact Nat.mod_eq_of_lt hnum

/-- Thread 0 inserts `k` records into a fresh page. -/
theorem fill (hfirst : freeBitmapOff + bitmapBytes d.maxNumRecs ≤ d.firstRecOffset + 1) (hsize : 1 ≤ d.recSize)
    (n root : ℕ) : ∀ k, k < d.maxNumRecs → ∃ s, SharedRun d n root s ∧ Bits d (s.pages 0) (fun j => k ≤ j) (d.maxNumRecs - k) ∧
      s.hints 0 = k ∧ s.hints 1 = 0 ∧ (k = 0 → s.pages 0 = d.format root .zero)
  | 0, _ => ⟨.formatted d root, .init rfl, ⟨fun j _ => ⟨fun _ => Nat.zero_le j, fun _ => isFree_format root j⟩, rfl⟩,
      rfl, rfl, fun _ => rfl⟩
  | k + 1, hk => by
    obtain ⟨s, hrun, hb, h0, h1, hfresh⟩ := fill hfirst hsize n root k (by omega)
    have hbyte : k / 4 < bitmapBytes d.maxNumRecs := by
      unfold bitmapBytes
      omega
    have hs : findFreeSlot d (s.pages 0) (s.hints 0) = some k := by
      rw [findFreeSlot_eq, h0, if_pos ⟨by omega, (hb.free k hbyte).mpr le_rfl⟩]
    obtain ⟨s', hrun', hb', hh⟩ := hb.insert hrun (by omega) hs (by
      rcases Nat.eq_zero_or_pos k with rfl | hpos
      · rw [hfresh rfl]
        exact insert_bytes_first hfirst _
      · exact insert_bytes_other hfirst hsize hpos _ _)
    refine ⟨s', hrun', ⟨fun j hj => (hb'.free j hj).trans (by omega), hb'.count.trans (by omega)⟩, ?_, ?_, nofun⟩
    · rw [hh, Function.update_self, if_neg (by omega)]
    · rw [hh, Function.update_of_ne (by omega), h1]

/-- **The overrun.** Where the last byte of the bitmap has bits without a record and
is not the only byte, some run comes to an insert that takes the first of them. -/
theorem overrun (hfirst : freeBitmapOff + bitmapBytes d.maxNumRecs ≤ d.firstRecOffset + 1) (hsize : 1 ≤ d.recSize)
    (hm : 4 < d.maxNumRecs) (hm4 : d.maxNumRecs % 4 ≠ 0) (n root : ℕ) :
    ∃ s, SharedRun d n root s ∧ 0 < (s.pages 0).numFreeRecs ∧
      findFreeSlot d (s.pages 0) (s.hints 1) = some d.maxNumRecs := by
  obtain ⟨m, hm'⟩ : ∃ m, d.maxNumRecs = m + 2 := ⟨d.maxNumRecs - 2, by omega⟩
  have hbytes : bitmapBytes d.maxNumRecs = (m + 5) / 4 := by
    unfold bitmapBytes
    omega
  -- thread 0 fills the page but for the last record
  obtain ⟨s₁, hrun₁, hb₁, h0, h1, -⟩ := fill hfirst hsize n root (m + 1) (by omega)
  -- the record before is purged, and thread 1 takes it
  obtain ⟨s₂, hrun₂, hb₂, hh₂⟩ := hb₁.purge (i := m) hrun₁ (by omega) (by omega) (by omega)
  have hs₂ : findFreeSlot d (s₂.pages 0) (s₂.hints 1) = some m := by
    rw [hh₂, h1]
    have hfree (j : ℕ) (hj : j ≤ m) : IsFree (s₂.pages 0) j ↔ m + 1 ≤ j ∨ j = m := hb₂.free j (by omega)
    refine findFreeSlot_first ?_ (by omega) (by omega) ((hfree m le_rfl).mpr (.inr rfl)) fun j _ hj => ?_
    · rw [hfree 0 (by omega)]
      omega
    · rw [hfree j (by omega)]
      omega
  obtain ⟨s₃, hrun₃, hb₃, hh₃⟩ := hb₂.insert hrun₂ (by omega) hs₂ (insert_bytes_other hfirst hsize (by omega) _ _)
  -- a record further up is purged, and thread 0 takes the last one
  obtain ⟨s₄, hrun₄, hb₄, hh₄⟩ := hb₃.purge (i := 1) hrun₃ (by omega) (by omega) (by omega)
  have hs₄ : findFreeSlot d (s₄.pages 0) (s₄.hints 0) = some (m + 1) := by
    have hhint : s₄.hints 0 = m + 1 := by
      rw [hh₄, hh₃, Function.update_of_ne (by omega), hh₂, h0]
    rw [findFreeSlot_eq, hhint, if_pos ⟨by omega, (hb₄.free (m + 1) (by omega)).mpr (by omega)⟩]
  obtain ⟨s₅, hrun₅, hb₅, hh₅⟩ := hb₄.insert hrun₄ (by omega) hs₄ (insert_bytes_other hfirst hsize (by omega) _ _)
  -- thread 1 finds its hint occupied, in the last byte of the bitmap
  refine ⟨s₅, hrun₅, by rw [hb₅.count]; omega, ?_⟩
  have hhint : s₅.hints 1 = m + 1 := by
    rw [hh₅, Function.update_of_ne (by omega), hh₄, hh₃, Function.update_self, if_neg (by omega)]
  have hfree (j : ℕ) (hj : j ≤ m + 2) := hb₅.free j (by omega)
  rw [hhint, hm']
  refine findFreeSlot_first ?_ (by omega) (by omega) ((hfree (m + 2) le_rfl).mpr (by omega)) fun j hbyte hj => ?_
  · rw [hfree (m + 1) (by omega)]
    omega
  · rw [hfree j (by omega)]
    omega

end Overrun

/-- **When inserts are safe.** For a column and a page size with room for a record,
every insert of every run takes a free record within the page if and only if the
record size fits in 16 bits and the bitmap has one byte or no bits without a
record. -/
theorem inserts_safe_iff {ps : PageSize} {colLen : ℕ} {d : DataPage} (h1 : 1 ≤ colLen) (h2 : colLen < 2 ^ 16)
    (hinit : init ps colLen = some d) (hcap : 1 ≤ d.maxNumRecs) (root : ℕ) :
    InsertsSafe ps d colLen root ↔ colLen ≤ 65527 ∧ (d.maxNumRecs ≤ 4 ∨ d.maxNumRecs % 4 = 0) := by
  have h8 : trxRefSize = 8 := rfl
  constructor
  · intro hsafe
    have hlen : colLen ≤ 65527 := by
      -- a record of that length is longer than the page
      obtain ⟨slot, hfit⟩ := hsafe _ (.init rfl) 0 0 (by norm_num) hcap
      have hlast := hfit.last
      have hps : ps.bytes ≤ 65536 := by cases ps <;> decide
      have htr : pageTrailerSize = 8 := rfl
      omega
    refine ⟨hlen, ?_⟩
    by_contra hm
    obtain ⟨hsize, hlast, hfirst⟩ := init_cases h1 hlen hinit hcap
    have hover : freeBitmapOff + bitmapBytes d.maxNumRecs ≤ d.firstRecOffset + 1 := by
      rcases hfirst with hf | ⟨k, hk, hf⟩
      · omega
      · rw [hf, hk]
        unfold bitmapBytes
        omega
    obtain ⟨s, hrun, hpos, hs⟩ := overrun hover (by omega) (by omega) (by omega) colLen root
    obtain ⟨slot, hfit⟩ := hsafe s hrun 1 0 (by norm_num) hpos
    have := hfit.lt
    rw [Option.some.inj (hs.symm.trans hfit.found)] at this
    exact absurd this (by omega)
  · rintro ⟨hlen, hm⟩ s hrun t r hr hpos
    obtain ⟨hsize, hlast, hfirst⟩ := init_cases h1 hlen hinit hcap
    have hhint := run_hints hcap hrun t
    rcases hfirst with hf | ⟨k, hk, hf⟩
    · have hd : d.Apart colLen := by
        refine ⟨hsize, ?_, ?_⟩
        · rw [Nat.mul_comm, bitsToBytesCeil_two, hf]
        · have hps : ps.bytes ≤ 65536 := by cases ps <;> decide
          omega
      rw [run_counts hd hcap hm hrun r] at hpos
      obtain ⟨i, hi⟩ := Finset.card_pos.mp hpos
      obtain ⟨hlt, hfree⟩ := mem_freeSlots.mp hi
      exact insertFits_of_free hm hsize hlast hhint hr hlt hfree
    · -- the bitmap overlaps the first record, which is the only one
      have hone : d.maxNumRecs = 1 := by omega
      obtain ⟨hle, hfree⟩ := run_single hone hrun r
      exact insertFits_of_free hm hsize hlast hhint hr (show 0 < d.maxNumRecs by omega) (hfree (by omega))

theorem inserts_safe_iff_hundred : InsertsSafe .k16 ⟨108, 38, 150, 96⟩ 100 3 ↔
    100 ≤ 65527 ∧ (150 ≤ 4 ∨ 150 % 4 = 0) :=
  inserts_safe_iff (by norm_num) (by norm_num) (by decide) (by norm_num) 3

/-- A vector of 171 dimensions on 4K pages: five records a page. -/
theorem inserts_unsafe : ¬ InsertsSafe .k4 ⟨700, 2, 5, 60⟩ 692 3 := by
  intro hsafe
  obtain ⟨s, hrun, hpos, hs⟩ := overrun (d := ⟨700, 2, 5, 60⟩) (by decide) (by decide) (by decide) (by decide) 692 3
  obtain ⟨slot, hfit⟩ := hsafe s hrun 1 0 (by norm_num) hpos
  have := hfit.lt
  rw [Option.some.inj (hs.symm.trans hfit.found)] at this
  exact absurd this (lt_irrefl _)

end DataPage
end VsqlVector
