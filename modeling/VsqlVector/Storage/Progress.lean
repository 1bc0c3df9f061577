/-
# Concurrent calls finish

Calls that each have a mini-transaction of their own never wait for each other in a circle.
A thread that holds a data page without the root page waits for nothing. One that holds a
data page and waits for another, a neighbour in a list, has the root page exclusively, so
only one thread of a store does. Below it come those that wait for a data page with the
root page or with nothing in hand, those that wait for the root page the segment is on, and
those that hold nothing and wait for the root page (`rank`). Whoever is in the way of a
thread is further up, so the one furthest up goes on, and in the end all calls return
(`concurrent_calls_finish`).

With two calls in one mini-transaction this is lost: a thread that has a data page latched
and inserts into the same store waits for the root page, and another waits for the data page
with the root page in hand.

Key definitions: `Shape`, `rank`, `left`.
Key theorems: `holds_root`, `holds_data`, `concurrent_calls_finish`.
-/
import VsqlVector.Storage.Interleaving

namespace VsqlVector
namespace Concurrent

open ColumnStore StoreProg DataPage

/-! ### The lists let the calls go on -/

section Success

variable {cs : ColumnStore} {x : StorePages} {info : LastSlotInfo} {r slot : ℕ} {p : Page} {s : Store} {e : StorageError}

theorem load_present (hs : s.faults = []) (hp : s.pages r = some p) : load e r s = (.ok p, s) := by
  rw [load, Prog.bind_apply, tick_nil hs]
  show Prog.ofOption e (s.pages r) s = _
  rw [hp]
  rfl

theorem loadLinked_present {o : Option ℕ} (hs : s.faults = []) (ho : ∀ r ∈ o, (s.pages r).isSome = true) :
    loadLinked e o s = (.ok (), s) := by
  cases o with
  | none => rfl
  | some r =>
    obtain ⟨p, hp⟩ := Option.isSome_iff_exists.mp (ho r rfl)
    rw [loadLinked, Prog.bind_apply, load_present hs hp]
    rfl

theorem readPage_present (hp : s.pages r = some p) : readPage r s = (.ok p, s) := by
  show Prog.ofOption _ (s.pages r) s = _
  rw [hp]
  rfl

theorem addDataPage_succeeds (hs : s.faults = []) (hhead : ∀ q ∈ s.root.head, (s.pages q).isSome = true) :
    ∃ s', RootPage.addDataPage r e s = (.ok (), s') ∧ s'.faults = [] ∧ s'.root.slots = s.root.slots ∧
      s'.lastSlotInfo = s.lastSlotInfo ∧ ∀ q, (s'.pages q).isSome = (s.pages q).isSome := by
  rw [RootPage.addDataPage, Prog.get_bind, Prog.bind_apply, loadLinked_present hs hhead]
  refine ⟨_, rfl, hs, ?_, rfl, fun q => ?_⟩
  · split <;> rfl
  · exact (Option.isSome_map ..).trans (Option.isSome_map ..)

namespace Whole

/-- The page at the head of a slot can be loaded. -/
theorem slot_present (h : Whole cs x) : ∀ q ∈ (x.root.slots[slot]?).join, (x.pages q).isSome = true := by
  obtain ⟨ch, all, hl, -⟩ := h.lists
  intro q hq
  rw [hl.head_eq] at hq
  obtain ⟨p, hp⟩ := Lists.exists_page hl (hl.mem_all_of_mem (List.mem_of_mem_head? hq))
  rw [hp]
  rfl

/-- So can the first of all pages. -/
theorem head_present (h : Whole cs x) : ∀ q ∈ x.root.head, (x.pages q).isSome = true := by
  obtain ⟨ch, all, hl, -⟩ := h.lists
  intro q hq
  rw [hl.linked_all.head_eq] at hq
  obtain ⟨p, hp⟩ := Lists.exists_page hl (List.mem_of_mem_head? hq)
  rw [hp]
  rfl

theorem link_succeeds (h : Whole cs x) : ∃ s, RootPage.addFreePage cs r slot e (x.store info) = (.ok (), s) := by
  rw [RootPage.addFreePage, Prog.get_bind, Prog.bind_apply, loadLinked_present rfl h.slot_present]
  exact ⟨_, rfl⟩

theorem unlink_succeeds (h : Whole cs x) (hsel : Selected x info (some r)) (hp : x.pages r = some p) :
    ∃ s, RootPage.removeFreePage cs r e (x.store info) = (.ok (), s) := by
  obtain ⟨ch, all, hl, -, hhead, -⟩ := h.selected hsel
  obtain ⟨l₂, hc⟩ := List.head?_eq_some_iff.mp hhead
  have hc' : ch info.slotNumber = [] ++ r :: l₂ := hc
  have hprev : p.prevFreePage = some cs.rootPageRef := (hl.prevFreePage_eq_root_iff (links_eq_some hp) hc').mpr rfl
  obtain ⟨-, -, hnext⟩ := hl.links_of_mem (links_eq_some hp) hc'
  have hload : loadLinked e p.nextFreePage (x.store info) = (.ok (), x.store info) := by
    refine loadLinked_present rfl fun q hq => ?_
    have hq' : q ∈ l₂ := List.mem_of_mem_head? (by rw [← hnext]; exact hq)
    obtain ⟨p', hp'⟩ := Lists.exists_page hl (hl.mem_all_of_mem (i := info.slotNumber) (hc ▸ List.mem_cons_of_mem _ hq'))
    exact Option.isSome_iff_exists.mpr ⟨p', hp'⟩
  rw [RootPage.removeFreePage, Prog.bind_apply, readPage_present (show (x.store info).pages r = some p from hp)]
  simp only [hprev, if_true]
  rw [Prog.bind_apply, loadLinked]
  simp only [Prog.pure_apply]
  rw [Prog.bind_apply, hload]
  exact ⟨_, rfl⟩

theorem register_succeeds (h : Whole cs x) (hsel : Selected x info none) (hnone : x.pages r = none)
    (hroot : r ≠ cs.rootPageRef) (hlt : r < invalidRef) : ∃ s, insertNewPage cs r (x.store info) = (.ok (), s) := by
  have hprimary : ∀ e s, s.faults = [] → tickPrimary cs e s = (.ok (), s) := fun e s hs => by
    unfold tickPrimary
    split
    · exact tick_nil hs
    · rfl
  have hnew : ∀ e, loadNew e cs r (x.store info) =
      (.ok (), { x.store info with pages := Function.update x.pages r (some Page.zero) }) := fun e => by
    rw [loadNew, Prog.bind_apply, tick_nil rfl]
    show (if _ then _ else _ : StoreProg Unit) (x.store info) = _
    rw [if_pos ⟨by rw [show (x.store info).pages r = none from hnone]; rfl, hroot, hlt⟩]
    rfl
  -- the page formatted
  let s₁ := (modifyPage r (cs.data.format cs.rootPageRef)
    { x.store info with pages := Function.update x.pages r (some Page.zero) }).2
  have hpages : ∀ q, (s₁.pages q).isSome = (Function.update x.pages r (some Page.zero) q).isSome :=
    fun q => Option.isSome_map ..
  obtain ⟨s₂, hadd, hfaults, hslots, hinfo, hkept⟩ := addDataPage_succeeds (r := r) (s := s₁)
    (e := ⟨"insert: failed to register new data page", true⟩) rfl fun q hq => by
      rw [hpages]
      by_cases hqr : q = r
      · rw [hqr, Function.update_self]
        rfl
      · rw [Function.update_of_ne hqr]
        exact h.head_present q hq
  obtain ⟨p, hp⟩ := Option.isSome_iff_exists.mp ((hkept r).trans ((hpages r).trans (by rw [Function.update_self]; rfl)))
  obtain ⟨s, hlast⟩ : ∃ s, (if hasLastFreeSlot p then pure () else RootPage.addFreePage cs r s₂.lastSlotInfo.slotNumber
      ⟨"insert: failed to register new data page", true⟩ : StoreProg Unit) s₂ = (.ok (), s) := by
    split
    · exact ⟨s₂, rfl⟩
    · have hempty : (s₂.root.slots[s₂.lastSlotInfo.slotNumber]?).join = none := by
        rw [hslots, hinfo]
        exact hsel.head
      rw [RootPage.addFreePage, Prog.get_bind, hempty]
      exact ⟨_, rfl⟩
  exact ⟨s, Prog.bind_returns.mpr ⟨(), _, hprimary _ _ rfl, Prog.bind_returns.mpr ⟨(), _, hnew _,
    Prog.bind_returns.mpr ⟨(), _, hprimary _ _ rfl, Prog.bind_returns.mpr ⟨(), s₁, rfl,
      Prog.bind_returns.mpr ⟨(), s₂, hadd, Prog.bind_returns.mpr ⟨p, s₂, readPage_present hp, hlast⟩⟩⟩⟩⟩⟩⟩

end Whole

theorem record_succeeds {d : DataPage} {t : BitVec 64} {data : List (BitVec 8)} (hp : x.pages r = some p) :
    ∃ colRef s, d.insert r t data (x.store info) = (.ok colRef, s) := by
  rw [DataPage.insert, Prog.bind_apply, readPage_present (show (x.store info).pages r = some p from hp)]
  exact ⟨_, _, rfl⟩

end Success

/-! ### The latches of a call -/

section Shapes

variable {ι : Type} [DecidableEq ι] {cs : ι → ColumnStore} {σ σ' : ι → StorePages} {w w' : Worker ι} {i : ι} {r : ℕ}
  {k : Latch}

/-- The latches at each place of a call that is alone in its mini-transaction. -/
def Shape (cs : ι → ColumnStore) (w : Worker ι) : Prop :=
  match w.place with
  | .idle | .insertRecord .. => True
  | .called .. | .insertReleased .. | .purgeReleased .. => w.memo = []
  | .insertSelected i .. | .insertLast i _ => w.memo = [(rootId cs i, .shared)]
  | .insertLatched i _ r => w.memo = [(.data i r, .exclusive), (rootId cs i, .shared)]
  | .insertExclusive i .. | .purgeRoot i .. => w.memo = [(rootId cs i, .exclusive)]
  | .insertSegment i _ => w.memo = segmentLatch cs i ++ [(rootId cs i, .exclusive)]
  | .insertAllocated i _ r => w.memo = (.data i r, .exclusive) :: (segmentLatch cs i ++ [(rootId cs i, .exclusive)])
  | .insertNew i _ r | .insertPicked i _ r | .purgeLink i r _ =>
    w.memo = [(.data i r, .exclusive), (rootId cs i, .exclusive)]
  | .insertUnlink i _ r => ∃ q, w.memo = linkLatch i q ++ [(.data i r, .exclusive), (rootId cs i, .exclusive)]
  | .purgeLatched i _ c => w.memo = [(.data i (pageOf c), .exclusive)]
  | .purgeRelatched i _ c => w.memo = [(.data i (pageOf c), .exclusive), (rootId cs i, .exclusive)]

/-- How far up a thread is: 5 if it waits for nothing. -/
def rank (cs : ι → ColumnStore) (w : Worker ι) : ℕ :=
  match w.place with
  | .called _ (.insert ..) | .insertReleased .. | .purgeReleased .. => 0
  | .insertExclusive i _ none => if (cs i).primaryRootPageRef ≠ (cs i).rootPageRef then 1 else 5
  | .insertSelected .. | .insertExclusive _ _ (some _) | .purgeRoot .. => 2
  | .called .. => 3
  | .insertNew .. | .insertPicked .. | .insertUnlink .. | .purgeLink .. => 4
  | .idle | .insertLatched .. | .insertLast .. | .insertSegment .. | .insertAllocated .. | .insertRecord .. |
    .purgeLatched .. | .purgeRelatched .. => 5

/-- The call or its mini-transaction is not over. -/
def Busy (w : Worker ι) : Prop := w.place ≠ .idle ∨ w.memo ≠ []

/-- The steps a thread has left at most. -/
def left (w : Worker ι) : ℕ :=
  match w.place with
  | .idle => min w.memo.length 1
  | .insertRecord .. | .purgeLink .. => 2
  | .insertNew .. | .insertUnlink .. | .purgeRelatched .. => 3
  | .insertAllocated .. | .insertPicked .. | .purgeRoot .. => 4
  | .insertSegment .. | .purgeReleased .. => 5
  | .insertExclusive .. | .purgeLatched .. => 6
  | .insertReleased .. => 7
  | .insertLast .. => 8
  | .insertLatched .. => 9
  | .insertSelected .. => 10
  | .called .. => 11

theorem move_left (h : Move cs σ w σ' w') : left w' < left w := by
  cases h with
  | commit hne =>
    have hpos := List.length_pos_of_ne_nil hne
    dsimp only [left, List.length_nil]
    omega
  | _ =>
    dsimp only [left]
    omega

omit [DecidableEq ι] in
/-- The latches on neighbours are of the same store. -/
theorem store_of_mem {j : ι} {l : Memo (PageId ι)} (hl : ∀ x ∈ l, ∃ q, x = (.data j q, .exclusive))
    (hm : (.data i r, k) ∈ l ++ [(rootId cs j, .exclusive)]) : i = j := by
  rcases List.mem_append.mp hm with hm | hm
  · obtain ⟨q, hq⟩ := hl _ hm
    exact (PageId.data.inj (Prod.mk.inj hq).1).1
  · cases List.mem_singleton.mp hm

omit [DecidableEq ι] in
/-- **Who holds a root page** waits for a data page at most, or for the root page its segment
is on. -/
theorem holds_root (hs : Shape cs w) (hm : (.root r, k) ∈ w.memo) (hb : rank cs w < 2) :
    ∃ i, r = (cs i).rootPageRef ∧ (cs i).primaryRootPageRef ≠ (cs i).rootPageRef ∧ rank cs w = 1 := by
  obtain ⟨info, memo, place⟩ := w
  cases place with
  | called i q => exact absurd hm (by rw [show memo = [] from hs]; exact List.not_mem_nil)
  | insertReleased i c grow => exact absurd hm (by rw [show memo = [] from hs]; exact List.not_mem_nil)
  | purgeReleased i t c => exact absurd hm (by rw [show memo = [] from hs]; exact List.not_mem_nil)
  | insertExclusive i c sel =>
    rw [show memo = _ from hs, List.mem_singleton] at hm
    cases sel with
    | none =>
      have hne : (cs i).primaryRootPageRef ≠ (cs i).rootPageRef := by
        intro heq
        simp [rank, heq] at hb
      exact ⟨i, PageId.root.inj (Prod.mk.inj hm).1, hne, if_pos hne⟩
    | some r => simp [rank] at hb
  | _ => simp [rank] at hb

omit [DecidableEq ι] in
/-- **Who holds a data page** and waits for another holds the root page too. -/
theorem holds_data (hs : Shape cs w) (hm : (.data i r, k) ∈ w.memo) :
    rank cs w = 5 ∨ rank cs w = 4 ∧ (rootId cs i, .exclusive) ∈ w.memo := by
  obtain ⟨info, memo, place⟩ := w
  cases place with
  | idle | insertLatched | insertLast | insertSegment | insertAllocated | insertRecord | purgeLatched | purgeRelatched =>
    exact .inl rfl
  | called | insertReleased | purgeReleased =>
    exact absurd hm (by rw [show memo = [] from hs]; exact List.not_mem_nil)
  | insertSelected j c sel grow | insertExclusive j c sel | purgeRoot j t c =>
    rw [show memo = _ from hs, List.mem_singleton] at hm
    cases hm
  | insertNew j c q | insertPicked j c q | purgeLink j q slot =>
    have hmemo : memo = [(.data j q, .exclusive)] ++ [(rootId cs j, .exclusive)] := hs
    subst hmemo
    obtain rfl := store_of_mem (fun x hx => ⟨q, List.mem_singleton.mp hx⟩) hm
    exact .inr ⟨rfl, List.mem_append_right _ (List.mem_singleton_self _)⟩
  | insertUnlink j c q =>
    obtain ⟨o, hmemo⟩ := hs
    have hmemo : memo = (linkLatch j o ++ [(.data j q, .exclusive)]) ++ [(rootId cs j, .exclusive)] := by
      rw [List.append_assoc]
      exact hmemo
    subst hmemo
    have hlatches : ∀ x ∈ linkLatch j o ++ [(PageId.data j q, Latch.exclusive)], ∃ q, x = (.data j q, .exclusive) := by
      intro x hx
      rcases List.mem_append.mp hx with hx | hx
      · obtain ⟨q', -, rfl⟩ := List.mem_map.mp hx
        exact ⟨q', rfl⟩
      · exact ⟨q, List.mem_singleton.mp hx⟩
    obtain rfl := store_of_mem hlatches hm
    exact .inr ⟨rfl, List.mem_append_right _ (List.mem_singleton_self _)⟩

/-- A step keeps the shape. -/
theorem step_shape (hs : Shape cs w) (h : Step cs (fun m => m = []) σ w σ' w') : Shape cs w' := by
  cases h with
  | call i q hm => exact hm
  | fail => trivial
  | move h =>
    cases h with
    | commit | refuse | roomy | noSpace | register | keep | unlink | record | purge | purgeStays | link | markDelete |
      update | fetch => trivial
    | select | latchSelected | latchRoot | latchPicked | latchPurge | latchPurgeRoot | relatchPurge | allocate =>
      exact congrArg (List.cons _) hs
    | releaseRoot | releaseRootLast =>
      refine Eq.trans (congrArg (fun m => List.erase m _) hs) ?_
      exact List.erase_cons_head ..
    | releaseLast =>
      refine Eq.trans (congrArg (fun m => List.erase m _) hs) ?_
      exact List.erase_cons_head ..
    | releasePurge =>
      refine Eq.trans (congrArg (fun m => List.erase m _) hs) ?_
      exact List.erase_cons_head ..
    | latchSegment => exact congrArg (segmentLatch cs _ ++ ·) hs
    | @releaseSegment info memo i c r =>
      have hmemo : memo = (.data i r, .exclusive) :: (segmentLatch cs i ++ [(rootId cs i, .exclusive)]) := hs
      show (if _ then _ else _) = [_, _]
      subst hmemo
      split
      · rename_i hne
        rw [segmentLatch, if_pos hne, List.erase_cons_tail (by simp [segmentId])]
        simp
      · rename_i heq
        rw [segmentLatch, if_neg heq, List.nil_append]
    | latchPrev => exact ⟨_, congrArg (linkLatch _ _ ++ ·) hs⟩
    | purgeLeaves => exact hs

end Shapes

/-! ### The next step of a thread -/

section Next

variable {ι : Type} [DecidableEq ι] {cs : ι → ColumnStore} {σ : ι → StorePages} {w u : Worker ι} {i : ι} {r : ℕ}

/-- No thread is in the way of `l`, or those that are come further up. -/
def Ahead (cs : ι → ColumnStore) (w : Worker ι) (m : Memo (PageId ι)) (u : Worker ι) : Prop :=
  ∀ q, ¬ Latch.Goes (m.mode q) (u.held q) → Busy u ∧ rank cs w < rank cs u

theorem Ahead.subset {m : Memo (PageId ι)} (hgoes : ∀ q, Latch.Goes (w.held q) (u.held q)) (hm : ∀ x ∈ m, x ∈ w.memo) :
    Ahead cs w m u := fun q hq => absurd (Memo.goes_of_subset (hgoes q) hm) hq

omit [DecidableEq ι] in
theorem busy_of_mem {x : PageId ι × Latch} (h : x ∈ u.memo) : Busy u := .inr (List.ne_nil_of_mem h)

/-- A thread with nothing in hand waits for a root page. -/
theorem Ahead.root {k : Latch} (hgoes : ∀ q, Latch.Goes (w.held q) (u.held q)) (hs : Shape cs u) (hw : rank cs w = 0) :
    Ahead cs w ((.root r, k) :: w.memo) u := by
  intro q hq
  obtain ⟨k', hk'⟩ := Memo.blocked hgoes hq
  refine ⟨busy_of_mem hk', ?_⟩
  by_contra hlow
  obtain ⟨-, -, -, hone⟩ := holds_root hs hk' (by omega)
  omega

/-- A thread waits for a data page with its root page in hand. -/
theorem Ahead.data {k k' : Latch} (hgoes : ∀ q, Latch.Goes (w.held q) (u.held q)) (hs : Shape cs u)
    (hroot : (rootId cs i, k') ∈ w.memo) (hw : rank cs w < 5) : Ahead cs w ((.data i r, k) :: w.memo) u := by
  intro q hq
  obtain ⟨k'', hk''⟩ := Memo.blocked hgoes hq
  refine ⟨busy_of_mem hk'', ?_⟩
  rcases holds_data hs hk'' with hfive | ⟨-, hx⟩
  · omega
  · exact absurd hroot (Memo.apart (hgoes _).symm hx k')

/-- A thread waits for a data page with nothing in hand. -/
theorem Ahead.first {k : Latch} (hgoes : ∀ q, Latch.Goes (w.held q) (u.held q)) (hs : Shape cs u) (hw : rank cs w < 4) :
    Ahead cs w ((.data i r, k) :: w.memo) u := by
  intro q hq
  obtain ⟨k', hk'⟩ := Memo.blocked hgoes hq
  refine ⟨busy_of_mem hk', ?_⟩
  rcases holds_data hs hk' with hfive | ⟨hfour, -⟩
  · omega
  · omega

theorem Ahead.link {o : Option ℕ} {k' : Latch} (hgoes : ∀ q, Latch.Goes (w.held q) (u.held q)) (hs : Shape cs u)
    (hroot : (rootId cs i, k') ∈ w.memo) (hw : rank cs w < 5) : Ahead cs w (linkLatch i o ++ w.memo) u := by
  cases o with
  | none => exact .subset hgoes fun _ => id
  | some r => exact .data hgoes hs hroot hw

/-- The root page with the segment is latched last of the root pages. -/
theorem Ahead.segment (hfam : ∀ i j, (cs i).primaryRootPageRef = (cs j).rootPageRef →
      (cs j).primaryRootPageRef = (cs j).rootPageRef) (hgoes : ∀ q, Latch.Goes (w.held q) (u.held q)) (hs : Shape cs u)
    (hw : (cs i).primaryRootPageRef ≠ (cs i).rootPageRef → rank cs w = 1) :
    Ahead cs w (segmentLatch cs i ++ w.memo) u := by
  by_cases hne : (cs i).primaryRootPageRef ≠ (cs i).rootPageRef
  · rw [segmentLatch, if_pos hne]
    intro q hq
    obtain ⟨k, hk⟩ := Memo.blocked hgoes hq
    refine ⟨busy_of_mem hk, ?_⟩
    by_contra hlow
    have hone := hw hne
    obtain ⟨j, hj, hown, -⟩ := holds_root hs hk (by omega)
    exact hown (hfam i j hj)
  · rw [segmentLatch, if_neg hne]
    exact .subset hgoes fun _ => id

/-- **Every call that is not over has a next step**, and who is in the way of it is further
up. -/
theorem next_move (hfam : ∀ i j, (cs i).primaryRootPageRef = (cs j).rootPageRef →
      (cs j).primaryRootPageRef = (cs j).rootPageRef) (hw : ∀ i, Whole (cs i) (σ i)) (hf : Facts cs σ w)
    (hs : Shape cs w) (hb : Busy w) : ∃ σ' w', Move cs σ w σ' w' ∧ ∀ u, (∀ q, Latch.Goes (w.held q) (u.held q)) →
      Shape cs u → Ahead cs w w'.memo u := by
  obtain ⟨info, memo, place⟩ := w
  cases place with
  | idle =>
    have hne : memo ≠ [] := hb.resolve_left fun h => h rfl
    exact ⟨_, _, .commit hne, fun u hgoes _ => .subset hgoes fun x hx => absurd hx List.not_mem_nil⟩
  | called i q =>
    have hnil : memo = [] := hs
    subst hnil
    by_cases href : Refused (cs i) (σ i) q
    · exact ⟨_, _, .refuse href, fun u hgoes _ => .subset hgoes fun x => id⟩
    cases q with
    | insert t data =>
      exact ⟨_, _, .select ⟨0, 0, 0, 0⟩ (not_not.mp href) (RootPage.pageSelect_apply _),
        fun u hgoes hs => .root hgoes hs rfl⟩
    | markDelete t colRef mark =>
      obtain ⟨p, hp⟩ := Option.ne_none_iff_exists'.mp href
      exact ⟨_, _, .markDelete hp, fun u hgoes hs => .first hgoes hs (by simp [rank])⟩
    | purge t colRef =>
      exact ⟨_, _, .latchPurge (Option.isSome_iff_ne_none.mpr href), fun u hgoes hs => .first hgoes hs (by simp [rank])⟩
    | update colRef addr colData ids size =>
      obtain ⟨hne, hrest⟩ := not_or.mp href
      obtain ⟨hp, hcheck⟩ := not_or.mp hrest
      obtain ⟨p, hp⟩ := Option.ne_none_iff_exists'.mp hp
      rcases h : checkUpdate (cs i).root.columnSize addr colData ids size with e | data
      · exact absurd ⟨e, h⟩ hcheck
      · exact ⟨_, _, .update hne h hp, fun u hgoes hs => .first hgoes hs (by simp [rank])⟩
    | fetch colRef forUpdate =>
      exact ⟨_, _, .fetch (Option.isSome_iff_ne_none.mpr href), fun u hgoes hs => .first hgoes hs (by simp [rank])⟩
  | insertSelected i c sel grow =>
    obtain ⟨⟨k, hk⟩, -⟩ := hf
    by_cases hrel : grow = true ∨ sel = none
    · exact ⟨_, _, .releaseRoot hrel, fun u hgoes _ => .subset hgoes fun x hx => List.mem_of_mem_erase hx⟩
    · obtain ⟨hgrow, hsel⟩ := not_or.mp hrel
      obtain ⟨r, rfl⟩ := Option.ne_none_iff_exists'.mp hsel
      obtain rfl : grow = false := by simpa using hgrow
      exact ⟨_, _, .latchSelected, fun u hgoes hs => .data hgoes hs hk (by simp [rank])⟩
  | insertLatched i c r =>
    obtain ⟨-, -, hsel⟩ := hf
    obtain ⟨-, -, -, -, -, p, hp, -⟩ := (hw i).selected hsel
    rcases hlast : hasLastFreeSlot p with _ | _
    · exact ⟨_, _, .roomy hp hlast, fun u hgoes _ => .subset hgoes fun x hx => List.mem_of_mem_erase hx⟩
    · exact ⟨_, _, .releaseLast hp hlast, fun u hgoes _ => .subset hgoes fun x hx => List.mem_of_mem_erase hx⟩
  | insertLast i c =>
    exact ⟨_, _, .releaseRootLast, fun u hgoes _ => .subset hgoes fun x hx => List.mem_of_mem_erase hx⟩
  | insertReleased i c grow =>
    exact ⟨_, _, .latchRoot 0 rfl (RootPage.pageSelect_apply _), fun u hgoes hs => .root hgoes hs rfl⟩
  | insertExclusive i c sel =>
    cases sel with
    | none => exact ⟨_, _, .latchSegment, fun u hgoes hs => .segment hfam hgoes hs fun hne => if_pos hne⟩
    | some r => exact ⟨_, _, .latchPicked, fun u hgoes hs => .data hgoes hs hf.1 (by simp [rank])⟩
  | insertSegment i c => exact ⟨_, _, .noSpace, fun u hgoes _ => .subset hgoes fun x => id⟩
  | insertAllocated i c r =>
    refine ⟨_, _, .releaseSegment, fun u hgoes _ => .subset hgoes fun x hx => ?_⟩
    dsimp only at hx
    split at hx
    · exact List.mem_of_mem_erase hx
    · exact hx
  | insertNew i c r =>
    obtain ⟨hroot, -, hsel, hnone, hne, hlt⟩ := hf
    obtain ⟨s, hs⟩ := (hw i).register_succeeds hsel hnone hne hlt
    exact ⟨_, _, .register hs, fun u hgoes hs => .link hgoes hs hroot (by simp [rank])⟩
  | insertPicked i c r =>
    obtain ⟨hroot, -, hsel⟩ := hf
    obtain ⟨-, -, -, -, -, p, hp, -⟩ := (hw i).selected hsel
    rcases hlast : hasLastFreeSlot p with _ | _
    · exact ⟨_, _, .keep hp hlast, fun u hgoes _ => .subset hgoes fun x => id⟩
    · exact ⟨_, _, .latchPrev hp hlast, fun u hgoes hs => .link hgoes hs hroot (by simp [rank])⟩
  | insertUnlink i c r =>
    obtain ⟨hroot, -, hsel, p, hp, -⟩ := hf
    obtain ⟨s, hs⟩ := (hw i).unlink_succeeds hsel hp
    exact ⟨_, _, .unlink (e := ⟨"insert: failed to remove full page from free list", true⟩) hp hs,
      fun u hgoes hs => .link hgoes hs hroot (by simp [rank])⟩
  | insertRecord i c r =>
    obtain ⟨-, p, hp, -⟩ := hf
    obtain ⟨colRef, s, hs⟩ : ∃ colRef s, (cs i).data.insert r c.trxRef c.colData ((σ i).store info) = (.ok colRef, s) :=
      record_succeeds hp
    exact ⟨_, _, .record hs, fun u hgoes _ => .subset hgoes fun x => id⟩
  | purgeLatched i t c =>
    obtain ⟨p, hp⟩ := Option.isSome_iff_exists.mp hf.2
    rcases hneeds : needsAddToFreeList p true with _ | _
    · exact ⟨_, _, .purge hp hneeds, fun u hgoes _ => .subset hgoes fun x => id⟩
    · exact ⟨_, _, .releasePurge hp hneeds, fun u hgoes _ => .subset hgoes fun x hx => List.mem_of_mem_erase hx⟩
  | purgeReleased i t c => exact ⟨_, _, .latchPurgeRoot, fun u hgoes hs => .root hgoes hs rfl⟩
  | purgeRoot i t c => exact ⟨_, _, .relatchPurge, fun u hgoes hs => .data hgoes hs hf.1 (by simp [rank])⟩
  | purgeRelatched i t c =>
    obtain ⟨p, hp⟩ := Option.isSome_iff_exists.mp hf.2.2
    obtain ⟨p', purged, hpurge⟩ : ∃ p' purged, purgedPage (cs i).data t (slotOf c) p = (p', purged) := ⟨_, _, rfl⟩
    rcases hneeds : (purged && needsAddToFreeList p' false) with _ | _
    · exact ⟨_, _, .purgeStays hp hpurge hneeds, fun u hgoes _ => .subset hgoes fun x => id⟩
    · obtain ⟨rfl, hneeds⟩ := (Bool.and_eq_true _ _).mp hneeds
      exact ⟨_, _, .purgeLeaves 0 hp hpurge hneeds, fun u hgoes _ => .subset hgoes fun x => id⟩
  | purgeLink i r slot =>
    obtain ⟨s, hs⟩ : ∃ s, RootPage.addFreePage (cs i) r slot ⟨"purge: failed to add page " ++ toString r ++ " to free list",
      true⟩ ((σ i).store info) = (.ok (), s) := (hw i).link_succeeds
    exact ⟨_, _, .link hs, fun u hgoes hs => .link hgoes hs hf.1 (by simp [rank])⟩

end Next

/-! ### All calls return -/

section Finish

variable {ι T : Type} [DecidableEq ι] [DecidableEq T] {cs : ι → ColumnStore} {x y : (ι → StorePages) × (T → Worker ι)}

/-- What holds while every call is alone in its mini-transaction. -/
def Orderly (cs : ι → ColumnStore) (x : (ι → StorePages) × (T → Worker ι)) : Prop :=
  (threads cs T fun m => m = []).Exclusive x.2 ∧ (∀ i, Whole (cs i) (x.1 i)) ∧
    ∀ t, Facts cs x.1 (x.2 t) ∧ Shape cs (x.2 t)

theorem reaches_orderly (hd : ∀ i, ∃ n, (cs i).data.Apart n) (hcap : ∀ i, 0 < (cs i).data.maxNumRecs)
    {init : (ι → StorePages) × (T → Worker ι) → Prop} (h0 : ∀ x, init x → Orderly cs x)
    (h : Reaches init (threads cs T fun m => m = []).Step x) : Orderly cs x := by
  refine Threads.invariant (S := threads cs T fun m => m = []) (G := fun σ => ∀ i, Whole (cs i) (σ i))
    (L := fun _ w σ => Facts cs σ w ∧ Shape cs w) (fun x hx => (h0 x hx).1) (fun x hx => (h0 x hx).2)
    (fun t s l s' l' hw hf hstep => ?_) (fun t u s l s' l' m _ hw hf hm hstep _ hgoes => ?_) h
  · obtain ⟨hw', hf', -⟩ := step_keeps hd hcap hw hf.1 hstep
    exact ⟨hw', hf', step_shape hf.2 hstep⟩
  · obtain ⟨-, -, hframe⟩ := step_keeps hd hcap hw hf.1 hstep
    exact ⟨hm.1.other hframe hgoes, hm.2⟩

omit [DecidableEq T] in
theorem fresh_orderly (h : Fresh x) : Orderly cs x := by
  refine ⟨fun t u _ r => ?_, fun i => ?_, fun t => ⟨?_, ?_⟩⟩
  · show Latch.Goes ((x.2 t).memo.mode r) _
    rw [(h.2 t).1, Memo.mode_nil]
    exact Latch.goes_none_left
  · rw [h.1 i]
    exact whole_format _
  · unfold Facts
    rw [(h.2 t).2]
    trivial
  · unfold Shape
    rw [(h.2 t).2]
    trivial

theorem reaches_moves {allow : Memo (PageId ι) → Prop} (h : Reaches Fresh (threads cs T allow).Step x)
    (hrun : Relation.ReflTransGen (moves cs T).Step x y) : Reaches Fresh (threads cs T allow).Step y := by
  induction hrun with
  | refl => exact h
  | tail _ hstep ih =>
    refine ih.step ?_
    cases hstep with
    | intro t hmove hgranted => exact .intro t (.move hmove) hgranted

/-- While a call or its mini-transaction is not over a thread can move. -/
theorem Orderly.goes_on (hfam : ∀ i j, (cs i).primaryRootPageRef = (cs j).rootPageRef →
      (cs j).primaryRootPageRef = (cs j).rootPageRef) (h : Orderly cs x) {t : T} (ht : Busy (x.2 t)) :
    ∃ y, (moves cs T).Step x y := by
  obtain ⟨hex, hw, hknown⟩ := h
  have hrank : ∀ w : Worker ι, rank cs w ≤ 5 := fun w => by
    unfold rank
    split <;> first | omega | split <;> omega
  obtain ⟨u, s', l, -, hstep, hgranted⟩ := Threads.progress (S := moves cs T) (s := x.1) hrank (fun t ht => by
    obtain ⟨σ', w', hmove, hahead⟩ := next_move hfam hw (hknown t).1 (hknown t).2 ht
    exact ⟨σ', w', hmove, fun u hu r => hahead (x.2 u) (hex t u (Ne.symm hu)) (hknown u).2 r⟩) ht
  exact ⟨_, .intro u hstep hgranted⟩

/-- **Concurrent calls finish.** Where every call has a mini-transaction of its own, after any
run, in which page calls failed or not, the calls that have begun go on however they are
scheduled, for at most eleven steps each, and stop only when all have returned and committed. -/
theorem concurrent_calls_finish [Fintype T] (hd : ∀ i, ∃ n, (cs i).data.Apart n) (hcap : ∀ i, 0 < (cs i).data.maxNumRecs)
    (hfam : ∀ i j, (cs i).primaryRootPageRef = (cs j).rootPageRef → (cs j).primaryRootPageRef = (cs j).rootPageRef)
    (h : Reaches Fresh (threads cs T fun m => m = []).Step x) :
    (∀ (f : ℕ → (ι → StorePages) × (T → Worker ι)) (n : ℕ), f 0 = x → (∀ k, k < n → (moves cs T).Step (f k) (f (k + 1))) →
      n ≤ 11 * Fintype.card T) ∧
    ∀ y, Relation.ReflTransGen (moves cs T).Step x y → (∀ z, ¬ (moves cs T).Step y z) →
      ∀ t, (y.2 t).place = .idle ∧ (y.2 t).memo = [] := by
  constructor
  · intro f n hf hrun
    calc n ≤ ∑ t, left ((f 0).2 t) := Threads.run_le (S := moves cs T) (fun _ _ _ _ _ hmove => move_left hmove) hrun
      _ ≤ ∑ _ : T, 11 := Finset.sum_le_sum fun t _ => by
        unfold left
        split <;> omega
      _ = 11 * Fintype.card T := by rw [Finset.sum_const, Finset.card_univ, smul_eq_mul, Nat.mul_comm]
  · intro y hrun hstuck t
    by_contra hover
    have hb : Busy (y.2 t) := by
      unfold Busy
      tauto
    obtain ⟨z, hz⟩ := (reaches_orderly hd hcap (fun _ => fresh_orderly) (reaches_moves h hrun)).goes_on hfam hb
    exact hstuck z hz

/-- Two threads insert the first records of a small store. -/
theorem concurrent_calls_finish_two :
    (∀ (f : ℕ → (Unit → StorePages) × (Bool → Worker Unit)) (n : ℕ),
      f 0 = (noPages, fun _ => ⟨emptyStore.lastSlotInfo, [], .called () (.insert 7 (List.replicate 2000 0))⟩) →
      (∀ k, k < n → (moves (fun _ => smallStore) Bool).Step (f k) (f (k + 1))) → n ≤ 11 * Fintype.card Bool) ∧
    ∀ y, Relation.ReflTransGen (moves (fun _ => smallStore) Bool).Step
      (noPages, fun _ => ⟨emptyStore.lastSlotInfo, [], .called () (.insert 7 (List.replicate 2000 0))⟩) y →
      (∀ z, ¬ (moves (fun _ => smallStore) Bool).Step y z) → ∀ t, (y.2 t).place = .idle ∧ (y.2 t).memo = [] := by
  let w : Worker Unit := ⟨emptyStore.lastSlotInfo, [], .called () (.insert 7 (List.replicate 2000 0))⟩
  have hone : Reaches Fresh (threads (fun _ : Unit => smallStore) Bool fun m => m = []).Step
      (noPages, Function.update twoIdle true w) := called_reaches true () _ rfl (fun _ => ⟨rfl, rfl⟩) reaches_twoIdle
  have htwo : Reaches Fresh (threads (fun _ : Unit => smallStore) Bool fun m => m = []).Step
      (noPages, Function.update (Function.update twoIdle true w) false w) :=
    hone.step (.intro false (.call () _ rfl) fun _ _ _ => Latch.goes_none_left)
  have hboth : Function.update (Function.update twoIdle true w) false w = fun _ => w := by
    funext t
    cases t <;> rfl
  rw [hboth] at htwo
  exact concurrent_calls_finish (fun _ => ⟨2000, apart_smallStore⟩) (fun _ => by decide) (fun _ _ h => h) htwo

end Finish

end Concurrent
end VsqlVector
