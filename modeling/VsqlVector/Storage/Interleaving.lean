/-
# What concurrent calls keep

The lists and counters of a store are right at every moment of a concurrent run, not only
between calls. The optimistic path of `insert` gives up the root page before it writes, but
it has the data page latched and seen two free records on it; the pessimistic path sees
the last free record under both latches and takes the page off its chain before it fills
it (`Room`). `purge` looks at its page again once it has both latches.

A thread knows something of a page only while it has it latched (`Facts`), and changes
only what it has latched exclusively (`Frame`), so no step of another thread takes away
what it knows (`Facts.other`). Each step keeps the stores whole and leaves its thread with
what it has to know next (`move_keeps`).

Key definitions: `Sound`, `Whole`, `Room`, `Facts`, `Frame`.
Key theorems: `Whole.register`, `Whole.unlink`, `Whole.record`, `move_keeps`,
`concurrent_stores`.
-/
import VsqlVector.Storage.OneThread
import VsqlVector.Storage.FreeSlots

namespace VsqlVector
namespace Concurrent

open ColumnStore StoreProg DataPage

/-! ### A page -/

/-- The page has the capacity of the store, and as many free records as it counts. -/
structure Sound (d : DataPage) (p : Page) : Prop where
  cap : p.maxNumRecs = d.maxNumRecs
  free : p.numFreeRecs ≤ (d.freeSlots p).card

/-- A record can be written: the page keeps a free one, or is on no chain. -/
def Room (p : Page) : Prop := 2 ≤ p.numFreeRecs ∨ p.numFreeRecs = 1 ∧ p.prevFreePage = none

/-- At most the links of the page changed. -/
structure Relinked (p p' : Page) : Prop where
  cap : p'.maxNumRecs = p.maxNumRecs
  num : p'.numFreeRecs = p.numFreeRecs
  bytes : p'.bytes = p.bytes

/-- Records of the page were marked, written or freed. -/
structure Wrote (d : DataPage) (p p' : Page) : Prop where
  links : p'.links = p.links
  num : p.numFreeRecs ≤ p'.numFreeRecs
  sound : Sound d p → Sound d p'

section Pages

variable {d : DataPage} {n i j : ℕ} {p p' : Page}

theorem Room.pos (h : Room p) : 0 < p.numFreeRecs := by
  rcases h with h | ⟨h, -⟩ <;> omega

theorem Sound.relinked (h : Sound d p) (hr : Relinked p p') : Sound d p' := by
  have hfree : d.freeSlots p' = d.freeSlots p :=
    freeSlots_congr fun j _ => by simp only [getRecordStatus, Page.readInteger1, hr.bytes]
  exact ⟨hr.cap.trans h.cap, by rw [hr.num, hfree]; exact h.free⟩

theorem Sound.le (h : Sound d p) : p.numFreeRecs ≤ d.maxNumRecs := by
  calc p.numFreeRecs ≤ (d.freeSlots p).card := h.free
    _ ≤ (Finset.range d.maxNumRecs).card := Finset.card_le_card (Finset.filter_subset _ _)
    _ = d.maxNumRecs := Finset.card_range _

theorem Wrote.refl : Wrote d p p := ⟨rfl, le_rfl, id⟩

/-- A record that is free before and is free afterwards lets the count be. -/
theorem Wrote.of_status (hl : p'.links = p.links) (hn : p'.numFreeRecs = p.numFreeRecs)
    (hs : ∀ j, j < d.maxNumRecs → (getRecordStatus p j).2 = true → (getRecordStatus p' j).2 = true) : Wrote d p p' := by
  refine ⟨hl, hn.ge, fun h => ⟨?_, ?_⟩⟩
  · exact (congrArg PageLinks.maxNumRecs hl).trans h.cap
  · calc p'.numFreeRecs = p.numFreeRecs := hn
      _ ≤ (d.freeSlots p).card := h.free
      _ ≤ (d.freeSlots p').card := Finset.card_le_card fun j hj => by
        obtain ⟨hlt, hfree⟩ := mem_freeSlots.mp hj
        exact mem_freeSlots.mpr ⟨hlt, hs j hlt hfree⟩

/-- A page that goes back to a chain has a free record. -/
theorem pos_of_needsAdd (h : needsAddToFreeList p false = true) : 0 < p.numFreeRecs := by
  by_contra hzero
  have hnum : p.numFreeRecs = 0 := by omega
  simp [needsAddToFreeList, hnum] at h

variable (hd : d.Apart n)
include hd

/-- Wherever the record of an insert goes, the other slots keep their status. -/
theorem status_insertAt {t : BitVec 64} {data : List (BitVec 8)} (hj : j < d.maxNumRecs) (hne : j ≠ i) :
    getRecordStatus (d.insertAt t data i p) j = getRecordStatus p j := by
  have hoff : d.firstRecOffset ≤ d.getRecordOffset i + trxRefSize := le_getRecordOffset.trans (Nat.le_add_right _ _)
  have hset : getRecordStatus (d.insertAt t data i p) j =
      getRecordStatus ((p.writeInteger8 (d.getRecordOffset i) t).writeString (d.getRecordOffset i + trxRefSize) data) j := by
    refine Eq.trans (b := getRecordStatus (setRecordAllocated _ i) j) rfl ?_
    rw [setRecordAllocated, status_updateStatus sets_allocated, if_neg hne]
  rw [hset, status_writeString hd hj hoff, Page.writeInteger8, status_writeString hd hj le_getRecordOffset]

/-- A record fewer is free, by the count and by the bits at most. -/
theorem Sound.insertAt {t : BitVec 64} {data : List (BitVec 8)} (h : Sound d p) (hpos : 0 < p.numFreeRecs) :
    Sound d (d.insertAt t data i p) := by
  refine ⟨h.cap, ?_⟩
  calc (d.insertAt t data i p).numFreeRecs = p.numFreeRecs - 1 := numFreeRecs_insertAt hpos
    _ ≤ (d.freeSlots p).card - 1 := Nat.sub_le_sub_right h.free 1
    _ ≤ ((d.freeSlots p).erase i).card := Finset.pred_card_le_card_erase
    _ ≤ (d.freeSlots (d.insertAt t data i p)).card := Finset.card_le_card fun j hj => by
      obtain ⟨hne, hj⟩ := Finset.mem_erase.mp hj
      obtain ⟨hlt, hfree⟩ := mem_freeSlots.mp hj
      exact mem_freeSlots.mpr ⟨hlt, by rw [status_insertAt hd hlt hne]; exact hfree⟩

theorem wrote_markDelete (t : BitVec 64) (i : ℕ) (mark : Bool) (p : Page) : Wrote d p (d.markDelete t i mark p) := by
  have hmark : ∀ j, (getRecordStatus (setMark p i mark) j).2 = (getRecordStatus p j).2 := fun j => by
    by_cases hj : j = i
    · rw [hj, setMark_status]
    · cases mark
      · show (getRecordStatus (setRecordUndelete p i) j).2 = _
        rw [setRecordUndelete, status_updateStatus sets_undelete, if_neg hj]
      · show (getRecordStatus (setRecordDelete p i) j).2 = _
        rw [setRecordDelete, status_updateStatus sets_delete, if_neg hj]
  rw [markDelete_eq]
  split
  · refine Wrote.of_status ?_ ?_ fun j _ hfree => by rw [hmark]; exact hfree
    all_goals
      unfold setMark
      split <;> rfl
  · refine Wrote.of_status ?_ ?_ fun j hj hfree => ?_
    · unfold setMark
      split <;> rfl
    · unfold setMark
      split <;> rfl
    · rw [Page.writeInteger8, status_writeString hd hj le_getRecordOffset, hmark]
      exact hfree

theorem status_writeRuns {o size : ℕ} {data : List (BitVec 8)} (ho : d.firstRecOffset ≤ o) (hj : j < d.maxNumRecs) :
    ∀ (runs : List (ℕ × ℕ)) (p : Page), getRecordStatus (writeRuns o size data runs p) j = getRecordStatus p j := by
  intro runs
  induction runs with
  | nil => exact fun _ => rfl
  | cons run runs ih =>
    intro p
    calc getRecordStatus (writeRuns o size data (run :: runs) p) j =
        getRecordStatus (p.writeString (o + run.1 * size) ((data.drop (run.1 * size)).take (run.2 * size))) j := ih _
      _ = getRecordStatus p j := status_writeString hd hj (ho.trans (Nat.le_add_right _ _)) _

theorem wrote_update (i : ℕ) (data : List (BitVec 8)) (ids : List ℕ) (size : ℕ) (p : Page) :
    Wrote d p ((d.update i data ids size p).toOption.getD p) := by
  rcases h : d.update i data ids size p with e | p'
  · exact Wrote.refl
  · have hp' : p' = writeRuns (d.getRecordOffset i + trxRefSize) size data (chunkRuns ids) p := by
      unfold DataPage.update at h
      split at h
      · cases h
      · exact (Except.ok.inj h).symm
    refine Wrote.of_status (links_update h) ?_ fun j hj hfree => ?_
    · show p'.numFreeRecs = _
      rw [hp', numFreeRecs_writeRuns]
    · show (getRecordStatus p' j).2 = true
      rw [hp', status_writeRuns hd (le_getRecordOffset.trans (Nat.le_add_right _ _)) hj]
      exact hfree

omit hd in
/-- A record that is freed was not free, so count and bits both grow by one. -/
theorem wrote_purgedPage (hcap : d.maxNumRecs < 2 ^ 16) (t : BitVec 64) (i : ℕ) (hp : Sound d p) :
    Wrote d p (purgedPage d t i p).1 := by
  unfold purgedPage DataPage.purge
  split_ifs with h1 h2 h3
  · exact Wrote.refl
  · exact Wrote.refl
  · exact Wrote.refl
  · have hle := hp.le
    have hi : i ∉ d.freeSlots p := fun hi => h2 (mem_freeSlots.mp hi).2
    have hlt : p.numFreeRecs < d.maxNumRecs := by
      calc p.numFreeRecs ≤ (d.freeSlots p).card := hp.free
        _ < (Finset.range d.maxNumRecs).card := Finset.card_lt_card
          (Finset.ssubset_iff_of_subset (Finset.filter_subset _ _) |>.mpr ⟨i, Finset.mem_range.mpr (by omega), hi⟩)
        _ = d.maxNumRecs := Finset.card_range _
    have hnum : (p.numFreeRecs + 1) % 2 ^ 16 = p.numFreeRecs + 1 := Nat.mod_eq_of_lt (by omega)
    refine ⟨rfl, ?_, fun _ => ⟨hp.cap, ?_⟩⟩
    · show p.numFreeRecs ≤ (p.numFreeRecs + 1) % 2 ^ 16
      omega
    · calc (p.numFreeRecs + 1) % 2 ^ 16 = p.numFreeRecs + 1 := hnum
        _ ≤ (d.freeSlots p).card + 1 := Nat.add_le_add_right hp.free 1
        _ = (Insert.insert i (d.freeSlots p)).card := (Finset.card_insert_of_notMem hi).symm
        _ ≤ (d.freeSlots { setRecordFree p i with numFreeRecs := (p.numFreeRecs + 1) % 2 ^ 16 }).card := by
          refine Finset.card_le_card fun j hj => mem_freeSlots.mpr ?_
          show j < d.maxNumRecs ∧ (getRecordStatus (setRecordFree p i) j).2 = true
          by_cases hji : j = i
          · subst hji
            exact ⟨by omega, by rw [status_setRecordFree]⟩
          · obtain ⟨hlt, hfree⟩ := mem_freeSlots.mp ((Finset.mem_insert.mp hj).resolve_left hji)
            rw [setRecordFree, status_updateStatus sets_free, if_neg hji]
            exact ⟨hlt, hfree⟩

end Pages

/-! ### A store -/

/-- The links of the data pages. -/
def StorePages.links (x : StorePages) (r : ℕ) : Option PageLinks := (x.pages r).map Page.links

/-- The lists of the store are whole, every page of a chain has a free record, and every page
is sound. -/
structure Whole (cs : ColumnStore) (x : StorePages) : Prop where
  lists : ∃ ch all, Lists cs x.root x.links ch all ∧ ∀ i, ∀ r ∈ ch i, ∀ p, x.pages r = some p → 0 < p.numFreeRecs
  sound : ∀ r p, x.pages r = some p → Sound cs.data p

/-- `sel` is the page at the head of the slot the thread remembers. -/
structure Selected (x : StorePages) (info : LastSlotInfo) (sel : Option ℕ) : Prop where
  lt : info.slotNumber < x.root.slots.length
  head : (x.root.slots[info.slotNumber]?).join = sel

/-- The pages outside `l` are as they were, and none is gone. -/
structure SameBut (l : List ℕ) (x y : StorePages) : Prop where
  page : ∀ q, q ∉ l → y.pages q = x.pages q
  kept : ∀ q, (x.pages q).isSome → (y.pages q).isSome

section Stores

variable {cs : ColumnStore} {x : StorePages} {info : LastSlotInfo} {s : Store} {r rand slot : ℕ} {p p' : Page}
  {sel : Option ℕ} {n : ℕ}

theorem links_eq_some (hp : x.pages r = some p) : x.links r = some p.links := by rw [StorePages.links, hp, Option.map_some]

/-- A page of a chain has one before it, at least the root page. -/
theorem prevFreePage_of_mem {ch : ℕ → List ℕ} {all : List ℕ} (hl : Lists cs x.root x.links ch all) {i : ℕ} (hr : r ∈ ch i)
    (hp : x.pages r = some p) : p.prevFreePage ≠ none := by
  obtain ⟨l₁, l₂, hc⟩ := List.append_of_mem hr
  obtain ⟨-, hprev, -⟩ := hl.links_of_mem (links_eq_some hp) hc
  rw [show p.prevFreePage = p.links.prevFreePage from rfl, hprev]
  cases l₁.getLast? <;> simp

theorem Lists.exists_page {ch : ℕ → List ℕ} {all : List ℕ} (hl : Lists cs x.root x.links ch all) (hr : r ∈ all) :
    ∃ p, x.pages r = some p := by
  have hsome := (hl.mem_all r).mp hr
  rw [StorePages.links, Option.isSome_map] at hsome
  exact Option.isSome_iff_exists.mp hsome

namespace Whole

theorem slots_pos (h : Whole cs x) : 0 < x.root.slots.length := by
  obtain ⟨ch, all, hl, -⟩ := h.lists
  exact hl.slots_pos

theorem grow (h : Whole cs x) : Whole cs ⟨cs.root.growFreeSlots x.root, x.pages⟩ := by
  obtain ⟨ch, all, hl, hroom⟩ := h.lists
  exact ⟨⟨ch, all, hl.grow, hroom⟩, h.sound⟩

/-- `page_select` takes the head of a slot and changes only what the thread remembers. -/
theorem select (h : Whole cs x) (hs : RootPage.pageSelect cs rand (x.store info) = (.ok sel, s)) :
    sharedPages s = x ∧ Selected x s.lastSlotInfo sel := by
  rw [RootPage.pageSelect_apply] at hs
  obtain ⟨hsel, rfl⟩ := Prod.mk.inj hs
  obtain ⟨hlt, hnum⟩ := RootPage.selectSlot_lt cs rand info h.slots_pos
  exact ⟨rfl, ⟨hnum ▸ hlt, by rw [← Except.ok.inj hsel]; exact congrArg (fun k => (x.root.slots[k]?).join) hnum⟩⟩

/-- The page at the head of a slot is there and has a free record. -/
theorem selected (h : Whole cs x) (hsel : Selected x info (some r)) :
    ∃ ch all, Lists cs x.root x.links ch all ∧ (∀ i, ∀ q ∈ ch i, ∀ p, x.pages q = some p → 0 < p.numFreeRecs) ∧
      (ch info.slotNumber).head? = some r ∧ ∃ p, x.pages r = some p ∧ 0 < p.numFreeRecs := by
  obtain ⟨ch, all, hl, hroom⟩ := h.lists
  have hhead : (ch info.slotNumber).head? = some r := (hl.head_eq _).symm.trans hsel.head
  have hmem := List.mem_of_mem_head? (hhead : r ∈ (ch info.slotNumber).head?)
  obtain ⟨p, hp⟩ := Lists.exists_page hl (hl.mem_all_of_mem hmem)
  exact ⟨ch, all, hl, hroom, hhead, p, hp, hroom _ r hmem p hp⟩

/-- With more than one free record by the count the page has room. -/
theorem roomy (h : Whole cs x) (hsel : Selected x info (some r)) (hp : x.pages r = some p)
    (hlast : hasLastFreeSlot p = false) : Room p := by
  obtain ⟨-, -, -, -, -, p', hp', hpos⟩ := h.selected hsel
  obtain rfl : p = p' := Option.some.inj (hp.symm.trans hp')
  have hne : p.numFreeRecs ≠ 1 := by simpa [hasLastFreeSlot] using hlast
  exact .inl (by omega)

/-- A page is written that keeps its links, and a free record if it is on a chain. -/
theorem write (h : Whole cs x) (hp : x.pages r = some p) (hlinks : p'.links = p.links) (hs : Sound cs.data p')
    (hn : 0 < p.numFreeRecs → p.prevFreePage ≠ none → 0 < p'.numFreeRecs) :
    Whole cs ⟨x.root, Function.update x.pages r (some p')⟩ := by
  obtain ⟨ch, all, hl, hroom⟩ := h.lists
  have hsame : StorePages.links ⟨x.root, Function.update x.pages r (some p')⟩ = x.links := by
    funext q
    by_cases hq : q = r
    · simp [StorePages.links, hq, hp, hlinks]
    · simp [StorePages.links, hq]
  refine ⟨⟨ch, all, by rw [hsame]; exact hl, fun i q hq p₁ hp₁ => ?_⟩, fun q p₁ hp₁ => ?_⟩
  all_goals
    by_cases hqr : q = r
    · subst hqr
      simp only [Function.update_self, Option.some.injEq] at hp₁
      subst hp₁
      first
      | exact hn (hroom i q hq p hp) (prevFreePage_of_mem hl hq hp)
      | exact hs
    · simp only [Function.update_of_ne hqr] at hp₁
      first
      | exact hroom i q hq p₁ hp₁
      | exact h.sound q p₁ hp₁

theorem wrote (h : Whole cs x) (hp : x.pages r = some p) (hw : Wrote cs.data p p') :
    Whole cs ⟨x.root, Function.update x.pages r (some p')⟩ :=
  h.write hp hw.links (hw.sound (h.sound r p hp)) fun hpos _ => hpos.trans_le hw.num

/-- What happens to the pages when links change. -/
theorem relinked {f : ℕ → Page → Page} {g g' : ℕ → Option Page} (hg : ∀ r p, g r = some p → Sound cs.data p)
    (hpages : ∀ q, g' q = (g q).map (f q)) (hf : ∀ q p, Relinked p (f q p)) : ∀ r p, g' r = some p → Sound cs.data p := by
  intro q p hp
  rw [hpages] at hp
  obtain ⟨p₀, hp₀, rfl⟩ := Option.map_eq_some_iff.mp hp
  exact (hg q p₀ hp₀).relinked (hf q p₀)

theorem relinked_pushFree (cs : ColumnStore) (r slot q : ℕ) (h : Option ℕ) (p : Page) : Relinked p
    (if q = r then { p with prevFreePage := some cs.rootPageRef, nextFreePage := h, freeSlotNumber := slot }
      else { p with prevFreePage := if h = some q then some r else p.prevFreePage }) := by
  split <;> exact ⟨rfl, rfl, rfl⟩

theorem relinked_popFree {q : ℕ} {p₀ : Page} (p : Page) : Relinked p
    (if q = r then { p with prevFreePage := none, nextFreePage := none }
      else { p with
        prevFreePage := if p₀.nextFreePage = some q then p₀.prevFreePage else p.prevFreePage
        nextFreePage := if p₀.prevFreePage ≠ some cs.rootPageRef ∧ p₀.prevFreePage.getD invalidRef = q
          then p₀.nextFreePage else p.nextFreePage }) := by
  split <;> exact ⟨rfl, rfl, rfl⟩

theorem relinked_pushData {q : ℕ} {h : Option ℕ} (p : Page) : Relinked p
    (if q = r then { p with prev := none, next := h }
      else { p with prev := if h = some q then some r else p.prev }) := by
  split <;> exact ⟨rfl, rfl, rfl⟩

/-- **A page goes on a chain.** -/
theorem link {s₀ : Store} {e : StorageError} (h : Whole cs (sharedPages s₀)) (hslot : slot < s₀.root.slots.length)
    (hp : s₀.pages r = some p) (hinv : p.freeSlotNumber = invalidSlot) (hpos : 0 < p.numFreeRecs)
    (hs : RootPage.addFreePage cs r slot e s₀ = (.ok (), s)) :
    Whole cs (sharedPages s) ∧ SameBut (r :: (s₀.root.slots[slot]?).join.toList) (sharedPages s₀) (sharedPages s) ∧
      ∃ p', s.pages r = some p' ∧ p'.numFreeRecs = p.numFreeRecs := by
  obtain ⟨ch, all, hl, hroom⟩ := h.lists
  have hlinks : s₀.links r = some p.links := links_eq_some (x := sharedPages s₀) hp
  have hout := not_mem_chain_of_invalid hl hlinks hinv
  have hr : r ∈ all := (hl.mem_all r).mpr (Option.isSome_iff_exists.mpr ⟨_, hlinks⟩)
  obtain ⟨fs, rfl⟩ := RootPage.addFreePage_returns hs
  refine ⟨⟨⟨_, all, addFreePage_lists hl hr hout hslot hs, fun i q hq p₁ hp₁ => ?_⟩,
    relinked h.sound (fun q => rfl) fun q p => relinked_pushFree cs r slot q _ p⟩, ⟨fun q hq => ?_, fun q hq => ?_⟩, ?_⟩
  · obtain ⟨p₀, hp₀, rfl⟩ := Option.map_eq_some_iff.mp hp₁
    rw [(relinked_pushFree cs r slot q _ p₀).num]
    by_cases hqr : q = r
    · subst hqr
      rw [show p₀ = p from Option.some.inj (hp₀.symm.trans hp)]
      exact hpos
    · refine hroom i q ?_ p₀ hp₀
      by_cases hi : i = slot
      · subst hi
        rw [Function.update_self] at hq
        exact (List.mem_cons.mp hq).resolve_left hqr
      · rwa [Function.update_of_ne hi] at hq
  · obtain ⟨hqr, hhead⟩ := not_or.mp (mt List.mem_cons.mpr hq)
    have hne : (s₀.root.slots[slot]?).join ≠ some q := fun h => hhead (by rw [h]; exact List.mem_singleton_self q)
    show (s₀.pages q).map _ = s₀.pages q
    simp only [hqr, if_false, hne]
    exact Option.map_id'
  · exact (Option.isSome_map ..).trans hq
  · refine ⟨_, ?_, (relinked_pushFree cs r slot r (s₀.root.slots[slot]?).join p).num⟩
    show (s₀.pages r).map _ = _
    rw [hp, Option.map_some]

/-- **The page at the head of the slot leaves its chain** with its last free record. -/
theorem unlink {e : StorageError} (h : Whole cs x) (hsel : Selected x info (some r)) (hp : x.pages r = some p)
    (hone : p.numFreeRecs = 1) (hs : RootPage.removeFreePage cs r e (x.store info) = (.ok (), s)) :
    Whole cs (sharedPages s) ∧ SameBut (r :: p.nextFreePage.toList) x (sharedPages s) ∧
      ∃ p', s.pages r = some p' ∧ Room p' := by
  obtain ⟨ch, all, hl, hroom, hhead, -⟩ := h.selected hsel
  obtain ⟨l₂, hc⟩ := List.head?_eq_some_iff.mp hhead
  have hc' : ch info.slotNumber = [] ++ r :: l₂ := hc
  have hlinks := links_eq_some hp
  have hprev : p.prevFreePage = some cs.rootPageRef := (hl.prevFreePage_eq_root_iff hlinks hc').mpr rfl
  obtain ⟨p₁, fs, hp₁, rfl⟩ := RootPage.removeFreePage_returns hs
  obtain rfl : p = p₁ := Option.some.inj (hp.symm.trans hp₁)
  refine ⟨⟨⟨Function.update ch info.slotNumber ([] ++ l₂), all, ?_, fun i q hq p₂ hp₂ => ?_⟩,
    relinked h.sound (fun q => rfl) fun q p => relinked_popFree p⟩, ⟨fun q hq => ?_, fun q hq => ?_⟩, ?_⟩
  · have hpop : ∀ y : Store, y.pages = RootPage.popFree cs r p x.pages → y.links = Lists.popFree cs r p.links x.links :=
      fun y hy => Lists.links_popFree (s := x.store info) hy
    refine Eq.mpr (congrArg (fun L => Lists cs _ L _ all) ?_) (hl.removeFree hlinks hc')
    exact hpop (StorePages.store ⟨x.root, RootPage.popFree cs r p x.pages⟩ info) rfl
  · obtain ⟨p₀, hp₀, rfl⟩ := Option.map_eq_some_iff.mp hp₂
    rw [(relinked_popFree p₀).num]
    refine hroom i q ?_ p₀ hp₀
    by_cases hi : i = info.slotNumber
    · subst hi
      rw [Function.update_self] at hq
      rw [hc]
      exact List.mem_cons_of_mem _ hq
    · rwa [Function.update_of_ne hi] at hq
  · obtain ⟨hqr, hnext⟩ := not_or.mp (mt List.mem_cons.mpr hq)
    have hne : p.nextFreePage ≠ some q := fun h => hnext (by rw [h]; exact List.mem_singleton_self q)
    show ((x.store info).pages q).map _ = _
    simp only [hqr, if_false, hne, hprev, ne_eq, not_true_eq_false, false_and]
    exact Option.map_id'
  · rw [sharedPages]
    exact (Option.isSome_map ..).trans hq
  · refine ⟨{ p with prevFreePage := none, nextFreePage := none }, ?_, .inr ⟨hone, rfl⟩⟩
    show ((x.store info).pages r).map _ = _
    rw [show (x.store info).pages r = some p from hp, Option.map_some, if_pos rfl]

/-- A new page in the list of all pages: it is formatted and on no chain. -/
theorem listed {s₁ : Store} (h : Whole cs x) (hnone : x.pages r = none) (hroot : r ≠ cs.rootPageRef) (hlt : r < invalidRef)
    (hroot₁ : s₁.root = { x.root with
      head := some r
      tail := if x.root.head = none then some r else x.root.tail
      totalDataPages := (x.root.totalDataPages + 1) % 2 ^ 32 })
    (hpages₁ : s₁.pages = RootPage.pushData r x.root.head
      (Function.update x.pages r (some (cs.data.format cs.rootPageRef Page.zero)))) :
    Whole cs (sharedPages s₁) ∧ SameBut (r :: x.root.head.toList) x (sharedPages s₁) ∧
      s₁.pages r = some { cs.data.format cs.rootPageRef Page.zero with prev := none, next := x.root.head } := by
  obtain ⟨ch, all, hl, hroom⟩ := h.lists
  have hlinks : x.links r = none := by rw [StorePages.links, hnone, Option.map_none]
  have hl₁ : Lists cs s₁.root s₁.links ch (r :: all) := by
    rw [hroot₁, Lists.links_pushData (s := x.store ⟨0, none, 0, 0⟩) hpages₁]
    exact hl.addData hlinks hlt hroot
  have hold : ∀ q, q ≠ r → s₁.pages q = (x.pages q).map fun p =>
      { p with prev := if x.root.head = some q then some r else p.prev } := fun q hq => by
    rw [hpages₁, RootPage.pushData, Function.update_of_ne hq]
    simp only [hq, if_false]
  have hp₁ : s₁.pages r = some { cs.data.format cs.rootPageRef Page.zero with prev := none, next := x.root.head } := by
    rw [hpages₁, RootPage.pushData, Function.update_self, Option.map_some, if_pos rfl]
  refine ⟨⟨⟨ch, _, hl₁, fun i q hq p hp => ?_⟩, ?_⟩, ⟨fun q hq => ?_, fun q hq => ?_⟩, hp₁⟩
  · have hqr : q ≠ r := fun hqr => by
      have hsome := (hl.mem_all r).mp (hl.mem_all_of_mem (hqr ▸ hq))
      rw [hlinks] at hsome
      cases hsome
    obtain ⟨p₀, hp₀, rfl⟩ := Option.map_eq_some_iff.mp ((hold q hqr).symm.trans hp)
    exact hroom i q hq p₀ hp₀
  · refine relinked (g := Function.update x.pages r (some (cs.data.format cs.rootPageRef Page.zero))) (fun q p hp => ?_)
      (fun q => congrFun hpages₁ q) fun q p => relinked_pushData p
    by_cases hq : q = r
    · subst hq
      rw [Function.update_self] at hp
      obtain rfl := Option.some.inj hp
      exact ⟨rfl, (card_freeSlots_format cs.rootPageRef).le⟩
    · rw [Function.update_of_ne hq] at hp
      exact h.sound q p hp
  · obtain ⟨hqr, hhead⟩ := not_or.mp (mt List.mem_cons.mpr hq)
    have hne : x.root.head ≠ some q := fun h => hhead (by rw [h]; exact List.mem_singleton_self q)
    show s₁.pages q = _
    rw [hold q hqr]
    simp only [hne, if_false]
    exact Option.map_id'
  · show (s₁.pages q).isSome
    by_cases hqr : q = r
    · rw [hqr, hp₁]
      rfl
    · rw [hold q hqr, Option.isSome_map]
      exact hq

/-- **A new page is registered**, with room for the record it was allocated for. -/
theorem register (h : Whole cs x) (hcap : 0 < cs.data.maxNumRecs) (hsel : Selected x info none)
    (hs : insertNewPage cs r (x.store info) = (.ok (), s)) :
    Whole cs (sharedPages s) ∧ SameBut (r :: x.root.head.toList) x (sharedPages s) ∧
      ∃ p', s.pages r = some p' ∧ Room p' := by
  obtain ⟨hnone, hroot, hlt, s₁, -, hroot₁, hpages₁, hend⟩ := insertNewPage_cases hs
  obtain ⟨hwhole, hsame, hp₁⟩ := h.listed hnone hroot hlt hroot₁ hpages₁
  rcases hend with ⟨hone, rfl⟩ | ⟨hne, e, hadd⟩
  · exact ⟨hwhole, hsame, _, hp₁, .inr ⟨hone, rfl⟩⟩
  -- the slot is empty, so the chain changes no other page
  have hslots : s₁.root.slots = x.root.slots := by
    rw [hroot₁]
    rfl
  have hpos : 0 < cs.data.maxNumRecs := hcap
  obtain ⟨hwhole', hsame', p', hp', hnum⟩ := hwhole.link (hslots ▸ hsel.lt) hp₁ rfl hpos hadd
  have hempty : (s₁.root.slots[(x.store info).lastSlotInfo.slotNumber]?).join = none := hslots ▸ hsel.head
  rw [hempty] at hsame'
  refine ⟨hwhole', ⟨fun q hq => ?_, fun q hq => hsame'.kept q (hsame.kept q hq)⟩, p', hp', .inl ?_⟩
  · refine (hsame'.page q fun hqr => hq ?_).trans (hsame.page q hq)
    exact List.mem_cons.mpr (.inl (List.mem_singleton.mp hqr))
  · have hmax : p'.numFreeRecs = cs.data.maxNumRecs := hnum
    omega

/-- **A record is written.** -/
theorem record {t : BitVec 64} {data : List (BitVec 8)} {colRef : ℕ} (h : Whole cs x) (hd : cs.data.Apart n)
    (hp : x.pages r = some p) (hroom : Room p) (hs : cs.data.insert r t data (x.store info) = (.ok colRef, s)) :
    Whole cs (sharedPages s) ∧ s.root = x.root ∧ SameBut [r] x (sharedPages s) := by
  obtain ⟨p₁, s₁, hread, hs⟩ := Prog.bind_returns.mp hs
  obtain ⟨hp₁, rfl⟩ := readPage_returns hread
  obtain rfl : p = p₁ := Option.some.inj (hp.symm.trans hp₁)
  rw [Prog.get_bind] at hs
  simp only [modifyPage, Prog.modify_bind, Prog.pure_apply] at hs
  obtain ⟨-, rfl⟩ := Prod.mk.inj hs
  set i := (findFreeSlot cs.data p (x.store info).lastSlotInfo.nextFreeRecHint).getD 0
  have hpages : (fun q => ((x.store info).pages q).map fun p => if q = r then cs.data.insertAt t data i p else p) =
      Function.update x.pages r (some (cs.data.insertAt t data i p)) := by
    funext q
    by_cases hq : q = r
    · subst hq
      rw [show (x.store info).pages q = some p from hp, Function.update_self, Option.map_some, if_pos rfl]
    · rw [Function.update_of_ne hq]
      simp only [hq, if_false]
      exact Option.map_id'
  have hnum : (cs.data.insertAt t data i p).numFreeRecs = p.numFreeRecs - 1 := numFreeRecs_insertAt hroom.pos
  simp only [sharedPages, hpages]
  refine ⟨h.write hp (links_insertAt _ _ _ _ _) ((h.sound r p hp).insertAt hd hroom.pos) fun _ hprev => ?_, rfl,
    fun q hq => ?_, fun q hq => ?_⟩
  · rw [hnum]
    rcases hroom with hroom | ⟨-, hoff⟩
    · omega
    · exact absurd hoff hprev
  · exact Function.update_of_ne (fun h => hq (List.mem_singleton.mpr h)) _ _
  · show (Function.update x.pages r _ q).isSome
    by_cases hqr : q = r
    · rw [hqr, Function.update_self]
      rfl
    · rw [Function.update_of_ne hqr]
      exact hq

end Whole

end Stores

/-! ### What a thread knows -/

section Knowledge

variable {ι : Type} [DecidableEq ι] {cs : ι → ColumnStore} {σ σ' : ι → StorePages} {w w' : Worker ι} {m : Memo (PageId ι)}
  {i : ι} {r : ℕ} {x y : StorePages} {info : LastSlotInfo} {sel : Option ℕ}

/-- The page of a record is there. -/
def Present (σ : ι → StorePages) (i : ι) (r : ℕ) : Prop := ((σ i).pages r).isSome = true

/-- What a thread knows at its place, by the latches it has. -/
def Facts (cs : ι → ColumnStore) (σ : ι → StorePages) (w : Worker ι) : Prop :=
  match w.place with
  | .idle | .called .. | .insertLast .. | .insertReleased .. => True
  | .insertSelected i _ sel _ => (∃ k, (rootId cs i, k) ∈ w.memo) ∧ Selected (σ i) w.info sel
  | .insertLatched i _ r => (∃ k, (rootId cs i, k) ∈ w.memo) ∧ (.data i r, .exclusive) ∈ w.memo ∧
      Selected (σ i) w.info (some r)
  | .insertExclusive i _ sel => (rootId cs i, .exclusive) ∈ w.memo ∧ Selected (σ i) w.info sel
  | .insertSegment i _ => (rootId cs i, .exclusive) ∈ w.memo ∧ Selected (σ i) w.info none
  | .insertAllocated i _ r | .insertNew i _ r => (rootId cs i, .exclusive) ∈ w.memo ∧
      (.data i r, .exclusive) ∈ w.memo ∧ Selected (σ i) w.info none ∧ (σ i).pages r = none ∧
      r ≠ (cs i).rootPageRef ∧ r < invalidRef
  | .insertPicked i _ r => (rootId cs i, .exclusive) ∈ w.memo ∧ (.data i r, .exclusive) ∈ w.memo ∧
      Selected (σ i) w.info (some r)
  | .insertUnlink i _ r => (rootId cs i, .exclusive) ∈ w.memo ∧ (.data i r, .exclusive) ∈ w.memo ∧
      Selected (σ i) w.info (some r) ∧ ∃ p, (σ i).pages r = some p ∧ p.numFreeRecs = 1
  | .insertRecord i _ r => (.data i r, .exclusive) ∈ w.memo ∧ ∃ p, (σ i).pages r = some p ∧ Room p
  | .purgeLatched i _ c => (.data i (pageOf c), .exclusive) ∈ w.memo ∧ Present σ i (pageOf c)
  | .purgeReleased i _ c => Present σ i (pageOf c)
  | .purgeRoot i _ c => (rootId cs i, .exclusive) ∈ w.memo ∧ Present σ i (pageOf c)
  | .purgeRelatched i _ c => (rootId cs i, .exclusive) ∈ w.memo ∧ (.data i (pageOf c), .exclusive) ∈ w.memo ∧
      Present σ i (pageOf c)
  | .purgeLink i r slot => (rootId cs i, .exclusive) ∈ w.memo ∧ (.data i r, .exclusive) ∈ w.memo ∧
      slot < (σ i).root.slots.length ∧ ∃ p, (σ i).pages r = some p ∧ p.freeSlotNumber = invalidSlot ∧ 0 < p.numFreeRecs

/-- A step changed only what is latched exclusively in `m`, and no page is gone. -/
structure Frame (cs : ι → ColumnStore) (σ σ' : ι → StorePages) (m : Memo (PageId ι)) : Prop where
  root : ∀ i, (rootId cs i, .exclusive) ∈ m ∨ (σ' i).root = (σ i).root
  page : ∀ i r, (.data i r, .exclusive) ∈ m ∨ (σ' i).pages r = (σ i).pages r
  kept : ∀ i r, Present σ i r → Present σ' i r

omit [DecidableEq ι] in
theorem Frame.refl : Frame cs σ σ m := ⟨fun _ => .inr rfl, fun _ _ => .inr rfl, fun _ _ => id⟩

/-- One store changed. -/
theorem Frame.update {l : List ℕ} (hroot : (rootId cs i, .exclusive) ∈ m ∨ y.root = (σ i).root)
    (hsame : SameBut l (σ i) y) (hl : ∀ q ∈ l, (.data i q, .exclusive) ∈ m) : Frame cs σ (Function.update σ i y) m := by
  refine ⟨fun j => ?_, fun j q => ?_, fun j q hq => ?_⟩
  all_goals
    by_cases hj : j = i
    · subst hj
      first
      | rw [Function.update_self]
      | rw [Present, Function.update_self]
      first
      | exact hroot
      | exact (em (q ∈ l)).imp (hl q) (hsame.page q)
      | exact hsame.kept q hq
    · first
      | rw [Function.update_of_ne hj]
      | rw [Present, Function.update_of_ne hj]
      first
      | exact .inr rfl
      | exact hq

theorem whole_update (hw : ∀ i, Whole (cs i) (σ i)) (hy : Whole (cs i) y) :
    ∀ j, Whole (cs j) (Function.update σ i y j) := by
  intro j
  by_cases hj : j = i
  · subst hj
    rw [Function.update_self]
    exact hy
  · rw [Function.update_of_ne hj]
    exact hw j

theorem Selected.congr (h : Selected x info sel) (hroot : y.root = x.root) : Selected y info sel :=
  ⟨by rw [hroot]; exact h.lt, by rw [hroot]; exact h.head⟩

/-- **No other thread takes away what a thread knows.** -/
theorem Facts.other (h : Facts cs σ w) (hf : Frame cs σ σ' m) (hgoes : ∀ r, Latch.Goes (m.mode r) (w.held r)) :
    Facts cs σ' w := by
  have hroot : ∀ {i k}, (rootId cs i, k) ∈ w.memo → (σ' i).root = (σ i).root := fun {i k} hk =>
    (hf.root i).resolve_left fun hx => Memo.apart (hgoes _) hx k hk
  have hpage : ∀ {i r k}, (.data i r, k) ∈ w.memo → (σ' i).pages r = (σ i).pages r := fun {i r k} hk =>
    (hf.page i r).resolve_left fun hx => Memo.apart (hgoes _) hx k hk
  obtain ⟨info, memo, place⟩ := w
  cases place with
  | idle | called | insertLast | insertReleased => trivial
  | insertSelected i c sel grow =>
    obtain ⟨⟨k, hk⟩, hsel⟩ := h
    exact ⟨⟨k, hk⟩, hsel.congr (hroot hk)⟩
  | insertLatched i c r =>
    obtain ⟨⟨k, hk⟩, hr, hsel⟩ := h
    exact ⟨⟨k, hk⟩, hr, hsel.congr (hroot hk)⟩
  | insertExclusive i c sel => exact ⟨h.1, h.2.congr (hroot h.1)⟩
  | insertSegment i c => exact ⟨h.1, h.2.congr (hroot h.1)⟩
  | insertAllocated i c r | insertNew i c r =>
    obtain ⟨hk, hr, hsel, hnone, hne⟩ := h
    exact ⟨hk, hr, hsel.congr (hroot hk), (hpage hr).trans hnone, hne⟩
  | insertPicked i c r => exact ⟨h.1, h.2.1, h.2.2.congr (hroot h.1)⟩
  | insertUnlink i c r =>
    obtain ⟨hk, hr, hsel, p, hp, hone⟩ := h
    exact ⟨hk, hr, hsel.congr (hroot hk), p, (hpage hr).trans hp, hone⟩
  | insertRecord i c r =>
    obtain ⟨hr, p, hp, hroom⟩ := h
    exact ⟨hr, p, (hpage hr).trans hp, hroom⟩
  | purgeLatched i t c => exact ⟨h.1, hf.kept _ _ h.2⟩
  | purgeReleased i t c => exact hf.kept _ _ h
  | purgeRoot i t c => exact ⟨h.1, hf.kept _ _ h.2⟩
  | purgeRelatched i t c => exact ⟨h.1, h.2.1, hf.kept _ _ h.2.2⟩
  | purgeLink i r slot =>
    obtain ⟨hk, hr, hlt, p, hp, hfacts⟩ := h
    exact ⟨hk, hr, hlt.trans_eq (congrArg (fun f => f.slots.length) (hroot hk).symm), p, (hpage hr).trans hp, hfacts⟩

omit [DecidableEq ι] in
theorem mem_linkLatch {o : Option ℕ} {q : ℕ} (hq : q ∈ o.toList) : (PageId.data i q, Latch.exclusive) ∈ linkLatch i o :=
  List.mem_map_of_mem hq

theorem setPage_wrote {p p' : Page} (hw : ∀ i, Whole (cs i) (σ i)) (hp : (σ i).pages r = some p)
    (hr : (.data i r, .exclusive) ∈ m) (hwrote : Wrote (cs i).data p p') :
    (∀ j, Whole (cs j) (setPage σ i r p' j)) ∧ Frame cs σ (setPage σ i r p') m := by
  refine ⟨whole_update hw ((hw i).wrote hp hwrote), Frame.update (l := [r]) (.inr rfl) ⟨fun q hq => ?_, fun q hq => ?_⟩ ?_⟩
  · exact Function.update_of_ne (fun h => hq (List.mem_singleton.mpr h)) _ _
  · show (Function.update (σ i).pages r _ q).isSome
    by_cases hqr : q = r
    · rw [hqr, Function.update_self]
      rfl
    · rw [Function.update_of_ne hqr]
      exact hq
  · exact List.forall_mem_singleton.mpr hr

/-- **What a step keeps.** The stores stay whole, the thread knows what it needs at its next
place, and it changed only what it has latched. -/
theorem move_keeps (hd : ∀ i, ∃ n, (cs i).data.Apart n) (hcap : ∀ i, 0 < (cs i).data.maxNumRecs)
    (hw : ∀ i, Whole (cs i) (σ i)) (hf : Facts cs σ w) (h : Move cs σ w σ' w') :
    (∀ i, Whole (cs i) (σ' i)) ∧ Facts cs σ' w' ∧ Frame cs σ σ' w'.memo := by
  cases h with
  | commit | refuse | noSpace | fetch | releaseRootLast | releaseRoot => exact ⟨hw, trivial, .refl⟩
  | select env hlen hsel =>
    exact ⟨hw, ⟨⟨_, List.mem_cons_self⟩, ((hw _).select hsel).2⟩, .refl⟩
  | latchSelected =>
    obtain ⟨⟨k, hk⟩, hsel⟩ := hf
    exact ⟨hw, ⟨⟨k, List.mem_cons_of_mem _ hk⟩, List.mem_cons_self, hsel⟩, .refl⟩
  | releaseLast => exact ⟨hw, trivial, .refl⟩
  | @roomy info memo i c r p hp hlast =>
    obtain ⟨-, hr, hsel⟩ := hf
    exact ⟨hw, ⟨(List.mem_erase_of_ne (by simp [rootId])).mpr hr, p, hp, (hw i).roomy hsel hp hlast⟩, .refl⟩
  | @latchRoot info memo i c grow sel f s rand hgrow hsel =>
    have hf : Whole (cs i) ⟨f, (σ i).pages⟩ := by
      rw [hgrow]
      split
      · exact (hw i).grow
      · exact hw i
    obtain ⟨hshared, hsel⟩ := hf.select hsel
    have hsame : SameBut [] (σ i) (sharedPages s) := by
      rw [hshared]
      exact ⟨fun _ _ => rfl, fun _ => id⟩
    refine ⟨whole_update hw (hshared ▸ hf), ⟨List.mem_cons_self, ?_⟩, .update (.inl List.mem_cons_self) hsame (by simp)⟩
    rw [Function.update_self, hshared]
    exact hsel
  | latchSegment => exact ⟨hw, ⟨List.mem_append_right _ hf.1, hf.2⟩, .refl⟩
  | allocate r hnone hroot hlt =>
    exact ⟨hw, ⟨List.mem_cons_of_mem _ hf.1, List.mem_cons_self, hf.2, hnone, hroot, hlt⟩, .refl⟩
  | @releaseSegment info memo i c r =>
    obtain ⟨hroot, hr, hrest⟩ := hf
    refine ⟨hw, ⟨?_, ?_, hrest⟩, .refl⟩
    all_goals
      dsimp only
      split
    · rename_i hne
      exact (List.mem_erase_of_ne (by simpa [rootId, segmentId] using Ne.symm hne)).mpr hroot
    · exact hroot
    · exact (List.mem_erase_of_ne (by simp [segmentId])).mpr hr
    · exact hr
  | @register info memo i c r s hs =>
    obtain ⟨hroot, hr, hsel, -⟩ := hf
    obtain ⟨hwhole, hsame, p', hp', hroom⟩ := (hw i).register (hcap i) hsel hs
    refine ⟨whole_update hw hwhole, ⟨List.mem_append_right _ hr, p', ?_, hroom⟩,
      .update (.inl (List.mem_append_right _ hroot)) hsame (List.forall_mem_cons.mpr
        ⟨List.mem_append_right _ hr, fun q hq => List.mem_append_left _ (mem_linkLatch hq)⟩)⟩
    rw [Function.update_self]
    exact hp'
  | latchPicked => exact ⟨hw, ⟨List.mem_cons_of_mem _ hf.1, List.mem_cons_self, hf.2⟩, .refl⟩
  | @keep info memo i c r p hp hlast =>
    obtain ⟨-, hr, hsel⟩ := hf
    exact ⟨hw, ⟨hr, p, hp, (hw i).roomy hsel hp hlast⟩, .refl⟩
  | @latchPrev info memo i c r p hp hlast =>
    obtain ⟨hroot, hr, hsel⟩ := hf
    exact ⟨hw, ⟨List.mem_append_right _ hroot, List.mem_append_right _ hr, hsel, p, hp,
      by simpa [hasLastFreeSlot] using hlast⟩,
      .refl⟩
  | @unlink info memo i c r p e s hp hs =>
    obtain ⟨hroot, hr, hsel, p', hp', hone⟩ := hf
    obtain rfl : p = p' := Option.some.inj (hp.symm.trans hp')
    obtain ⟨hwhole, hsame, p', hp', hroom⟩ := (hw i).unlink hsel hp hone hs
    refine ⟨whole_update hw hwhole, ⟨List.mem_append_right _ hr, p', ?_, hroom⟩,
      .update (.inl (List.mem_append_right _ hroot)) hsame (List.forall_mem_cons.mpr
        ⟨List.mem_append_right _ hr, fun q hq => List.mem_append_left _ (mem_linkLatch hq)⟩)⟩
    rw [Function.update_self]
    exact hp'
  | @record info memo i c r colRef s hs =>
    obtain ⟨hr, p, hp, hroom⟩ := hf
    obtain ⟨n, hn⟩ := hd i
    obtain ⟨hwhole, hroot, hsame⟩ := (hw i).record hn hp hroom hs
    exact ⟨whole_update hw hwhole, trivial, .update (.inr hroot) hsame (List.forall_mem_singleton.mpr hr)⟩
  | latchPurge hp => exact ⟨hw, ⟨List.mem_cons_self, hp⟩, .refl⟩
  | @purge info memo i t colRef p hp hstays =>
    obtain ⟨n, hn⟩ := hd i
    obtain ⟨hwhole, hframe⟩ := setPage_wrote hw hp hf.1
      (wrote_purgedPage hn.maxNumRecs_lt t (slotOf colRef) ((hw i).sound _ p hp))
    exact ⟨hwhole, trivial, hframe⟩
  | releasePurge => exact ⟨hw, hf.2, .refl⟩
  | latchPurgeRoot => exact ⟨hw, ⟨List.mem_cons_self, hf⟩, .refl⟩
  | relatchPurge => exact ⟨hw, ⟨List.mem_cons_of_mem _ hf.1, List.mem_cons_self, hf.2⟩, .refl⟩
  | @purgeStays info memo i t colRef p p' purged hp hpurge hstays =>
    obtain ⟨n, hn⟩ := hd i
    have hwrote := wrote_purgedPage hn.maxNumRecs_lt t (slotOf colRef) ((hw i).sound _ p hp)
    rw [hpurge] at hwrote
    obtain ⟨hwhole, hframe⟩ := setPage_wrote hw hp hf.2.1 hwrote
    exact ⟨hwhole, trivial, hframe⟩
  | @purgeLeaves info memo i t colRef p p' rand hp hpurge hleaves =>
    obtain ⟨n, hn⟩ := hd i
    have hwrote := wrote_purgedPage hn.maxNumRecs_lt t (slotOf colRef) ((hw i).sound _ p hp)
    rw [hpurge] at hwrote
    obtain ⟨hwhole, hframe⟩ := setPage_wrote hw hp hf.2.1 hwrote
    refine ⟨hwhole, ⟨hf.1, hf.2.1, ?_, p', ?_, freeSlotNumber_of_needsAdd hleaves, ?_⟩, hframe⟩
    · rw [setPage, Function.update_self]
      exact getFreeSlot_lt (hw i).slots_pos
    · rw [setPage, Function.update_self]
      exact Function.update_self ..
    · exact pos_of_needsAdd hleaves
  | @link info memo i r slot e s hs =>
    obtain ⟨hroot, hr, hlt, p, hp, hinv, hpos⟩ := hf
    have hwσ : Whole (cs i) (sharedPages ((σ i).store info)) := hw i
    obtain ⟨hwhole, hsame, -⟩ := hwσ.link hlt hp hinv hpos hs
    exact ⟨whole_update hw hwhole, trivial, .update (.inl (List.mem_append_right _ hroot)) hsame (List.forall_mem_cons.mpr
      ⟨List.mem_append_right _ hr, fun q hq => List.mem_append_left _ (mem_linkLatch hq)⟩)⟩
  | @markDelete info memo i t colRef mark p hp =>
    obtain ⟨n, hn⟩ := hd i
    obtain ⟨hwhole, hframe⟩ := setPage_wrote hw hp List.mem_cons_self (wrote_markDelete hn t (slotOf colRef) mark p)
    exact ⟨hwhole, trivial, hframe⟩
  | @update info memo i colRef addr colData ids size data p hne hcheck hp =>
    obtain ⟨n, hn⟩ := hd i
    obtain ⟨hwhole, hframe⟩ := setPage_wrote hw hp List.mem_cons_self (wrote_update hn (slotOf colRef) data ids size p)
    exact ⟨hwhole, trivial, hframe⟩

/-! ### Every run -/

variable {T : Type} [DecidableEq T] {allow : Memo (PageId ι) → Prop} {ws : T → Worker ι}

theorem step_keeps (hd : ∀ i, ∃ n, (cs i).data.Apart n) (hcap : ∀ i, 0 < (cs i).data.maxNumRecs)
    (hw : ∀ i, Whole (cs i) (σ i)) (hf : Facts cs σ w) (h : Step cs allow σ w σ' w') :
    (∀ i, Whole (cs i) (σ' i)) ∧ Facts cs σ' w' ∧ Frame cs σ σ' w'.memo := by
  cases h with
  | call | fail => exact ⟨hw, trivial, .refl⟩
  | move h => exact move_keeps hd hcap hw hf h

theorem whole_format (cs : ColumnStore) : Whole cs ⟨RootFrame.format, fun _ => none⟩ := by
  have hl : Lists cs RootFrame.format (fun _ => none) (fun _ => []) [] :=
    fresh_lists (s := ⟨RootFrame.format, fun _ => none, ⟨0, none, 0, 0⟩, []⟩) ⟨rfl, fun _ => rfl⟩
  exact ⟨⟨_, _, hl, fun _ _ _ p hp => by cases hp⟩, fun _ p hp => by cases hp⟩

end Knowledge

end Concurrent
end VsqlVector
