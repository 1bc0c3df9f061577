/-
# The page lists of a column store

The root page heads one chain of pages for each of its free slots and one
list of all data pages. Every insert and purge that returns keeps them whole:
each chain is a doubly linked list that ends, no page is on two of them, and
the counters are right (`reachable_lists`).

Whether a page is on a chain is recorded a second time, by the free slot
number on the page. `remove_free_page` takes a page off its chain and leaves
the number, so a page that fills up counts as "already in the free list" from
then on and its space is lost (`filled_page_is_lost`). As long as no insert
fills a page of a chain the number is right, and a purge that leaves room
leaves the page on a chain (`free_slot_number_faithful`).

Key definitions: `Lists`, `OnChain`, `KeepsRoom`.
Key theorems: `addFreePage_lists`, `removeFreePage_lists`, `addDataPage_lists`,
`call_lists`, `reachable_lists`, `free_slot_number_faithful`.
-/
import Mathlib
import VsqlVector.Lib.Links
import VsqlVector.Lib.Runs
import VsqlVector.Storage.ColumnStore

namespace VsqlVector

/-- The fields of a page that its records do not touch: its place in the lists
and its capacity. -/
structure PageLinks where
  freeSlotNumber : ℕ
  prevFreePage : Option ℕ
  nextFreePage : Option ℕ
  prev : Option ℕ
  next : Option ℕ
  maxNumRecs : ℕ

def Page.links (p : Page) : PageLinks :=
  ⟨p.freeSlotNumber, p.prevFreePage, p.nextFreePage, p.prev, p.next, p.maxNumRecs⟩

/-- The links of all data pages. -/
def Store.links (s : Store) (r : ℕ) : Option PageLinks := (s.pages r).map Page.links

/-! ### What the operations do to the state -/

namespace StoreProg

variable {s s' : Store} {e : StorageError} {r : ℕ} {p : Page}

theorem tick_returns {u : Unit} (h : tick e s = (.ok u, s')) : ∃ fs, s' = { s with faults := fs } := by
  unfold tick at h
  split at h <;> simp only [Prod.mk.injEq, reduceCtorEq, false_and, true_and] at h
  · exact ⟨s.faults, h.symm⟩
  · rename_i fs _
    exact ⟨fs, h.symm⟩

theorem load_returns (h : load e r s = (.ok p, s')) :
    s.pages r = some p ∧ ∃ fs, s' = { s with faults := fs } := by
  simp only [load, Prog.bind_returns, Prog.get_apply, Prog.ofOption_returns, Prod.mk.injEq,
    Except.ok.injEq] at h
  obtain ⟨u, s1, h1, s2, s3, ⟨rfl, rfl⟩, h2, rfl⟩ := h
  obtain ⟨fs, rfl⟩ := tick_returns h1
  exact ⟨h2, fs, rfl⟩

theorem loadLinked_returns {l : Option ℕ} {u : Unit} (h : loadLinked e l s = (.ok u, s')) :
    (∀ r ∈ l, (s.pages r).isSome) ∧ ∃ fs, s' = { s with faults := fs } := by
  cases l with
  | none =>
    simp only [loadLinked, Prog.pure_apply, Prod.mk.injEq, true_and] at h
    exact ⟨by simp, s.faults, h.symm⟩
  | some r =>
    obtain ⟨p, s1, h1, h2⟩ := Prog.bind_returns.mp h
    simp only [Prog.pure_apply, Prod.mk.injEq, true_and] at h2
    subst h2
    obtain ⟨hp, fs, rfl⟩ := load_returns h1
    exact ⟨by simp [hp], fs, rfl⟩

theorem readPage_returns (h : readPage r s = (.ok p, s')) : s.pages r = some p ∧ s' = s := by
  simp only [readPage, Prog.bind_returns, Prog.get_apply, Prog.ofOption_returns, Prod.mk.injEq,
    Except.ok.injEq] at h
  obtain ⟨s1, s2, ⟨rfl, rfl⟩, h2, rfl⟩ := h
  exact ⟨h2, rfl⟩

theorem loadNew_returns {cs : ColumnStore} {u : Unit} (h : loadNew e cs r s = (.ok u, s')) :
    s.pages r = none ∧ r ≠ cs.rootPageRef ∧ r < invalidRef ∧
      ∃ fs, s' = { s with pages := Function.update s.pages r (some Page.zero), faults := fs } := by
  simp only [loadNew, Prog.bind_returns, Prog.get_apply, Prod.mk.injEq, Except.ok.injEq] at h
  obtain ⟨u, s1, h1, s2, s3, ⟨rfl, rfl⟩, h2⟩ := h
  obtain ⟨fs, rfl⟩ := tick_returns h1
  split at h2
  · rename_i hc
    simp only [Prog.modify_apply, Prod.mk.injEq, true_and] at h2
    exact ⟨by simpa using hc.1, hc.2.1, hc.2.2, fs, h2.symm⟩
  · simp at h2

end StoreProg

namespace RootPage

open StoreProg

variable {cs : ColumnStore} {s s' : Store} {e : StorageError} {r i : ℕ}

/-- The pages after `r` went to the head of a chain that began at `h`. -/
def pushFree (cs : ColumnStore) (r i : ℕ) (h : Option ℕ) (pages : ℕ → Option Page) (q : ℕ) :
    Option Page :=
  (pages q).map fun p =>
    if q = r then
      { p with prevFreePage := some cs.rootPageRef, nextFreePage := h, freeSlotNumber := i }
    else { p with prevFreePage := if h = some q then some r else p.prevFreePage }

theorem addFreePage_returns {u : Unit} (h : addFreePage cs r i e s = (.ok u, s')) :
    ∃ fs, s' = { s with
      root := { s.root with slots := s.root.slots.set i (some r),
                            totalFreePages := (s.root.totalFreePages + 1) % 2 ^ 32 },
      pages := pushFree cs r i (s.root.slots[i]?).join s.pages,
      faults := fs } := by
  simp only [addFreePage, Prog.get_bind] at h
  obtain ⟨u1, s1, h1, h2⟩ := Prog.bind_returns.mp h
  obtain ⟨-, fs, rfl⟩ := loadLinked_returns h1
  simp only [modifyLinked, modifyPage, modifyRoot, Prog.modify_bind, Prog.modify_apply,
    Prod.mk.injEq, true_and, Option.map_map] at h2
  refine ⟨fs, ?_⟩
  rw [← h2]
  simp only [Store.mk.injEq, true_and, and_true]
  funext q
  unfold pushFree
  congr 1
  funext p
  by_cases hq : q = r
  · subst hq
    simp only [Function.comp_apply, if_true]
    split_ifs <;> rfl
  · by_cases hh : (s.root.slots[i]?).join = some q <;> simp [hq, hh]

/-- The pages after `r`, with the free links `p`, left its chain. -/
def popFree (cs : ColumnStore) (r : ℕ) (p : Page) (pages : ℕ → Option Page) (q : ℕ) :
    Option Page :=
  (pages q).map fun p' =>
    if q = r then { p' with prevFreePage := none, nextFreePage := none }
    else { p' with
      prevFreePage := if p.nextFreePage = some q then p.prevFreePage else p'.prevFreePage
      nextFreePage := if p.prevFreePage ≠ some cs.rootPageRef ∧ p.prevFreePage.getD invalidRef = q
        then p.nextFreePage else p'.nextFreePage }

theorem removeFreePage_returns {u : Unit} (h : removeFreePage cs r e s = (.ok u, s')) :
    ∃ p fs, s.pages r = some p ∧ s' = { s with
      root := { s.root with
        slots := if p.prevFreePage = some cs.rootPageRef
          then s.root.slots.set p.freeSlotNumber p.nextFreePage else s.root.slots,
        totalFreePages := (s.root.totalFreePages + 2 ^ 32 - 1) % 2 ^ 32 },
      pages := popFree cs r p s.pages,
      faults := fs } := by
  obtain ⟨p, s1, h1, h2⟩ := Prog.bind_returns.mp h
  obtain ⟨hp, rfl⟩ := readPage_returns h1
  -- the loads of the two neighbours only use up faults
  obtain ⟨u1, s2, h3, h4⟩ := Prog.bind_returns.mp h2
  obtain ⟨-, fs, rfl⟩ := loadLinked_returns h3
  obtain ⟨u2, s3, h5, h6⟩ := Prog.bind_returns.mp h4
  obtain ⟨-, fs, rfl⟩ := loadLinked_returns h5
  simp only [modifyLinked, modifyPage, modifyRoot, Prog.modify_bind, Prog.modify_apply,
    Prod.mk.injEq, true_and, Option.map_map] at h6
  refine ⟨p, fs, hp, ?_⟩
  rw [← h6]
  simp only [Store.mk.injEq, and_true]
  constructor
  · split <;> rfl
  · funext q
    unfold popFree
    congr 1
    funext p'
    by_cases hq : q = r
    · subst hq
      simp only [Function.comp_apply, if_true]
      split_ifs <;> rfl
    · by_cases hprev : p.prevFreePage = some cs.rootPageRef
      · by_cases hn : p.nextFreePage = some q <;> simp [hq, hprev, hn]
      · by_cases hn : p.nextFreePage = some q <;>
          by_cases hg : p.prevFreePage.getD invalidRef = q <;> simp [hq, hprev, hn, hg]

/-- The pages after `r` went to the head of the list of all pages, which began
at `h`. -/
def pushData (r : ℕ) (h : Option ℕ) (pages : ℕ → Option Page) (q : ℕ) : Option Page :=
  (pages q).map fun p =>
    if q = r then { p with prev := none, next := h }
    else { p with prev := if h = some q then some r else p.prev }

theorem addDataPage_returns {u : Unit} (h : addDataPage r e s = (.ok u, s')) :
    ∃ fs, s' = { s with
      root := { s.root with
        head := some r
        tail := if s.root.head = none then some r else s.root.tail
        totalDataPages := (s.root.totalDataPages + 1) % 2 ^ 32 },
      pages := pushData r s.root.head s.pages,
      faults := fs } := by
  simp only [addDataPage, Prog.get_bind] at h
  obtain ⟨u1, s1, h1, h2⟩ := Prog.bind_returns.mp h
  obtain ⟨-, fs, rfl⟩ := loadLinked_returns h1
  simp only [modifyLinked, modifyPage, modifyRoot, Prog.modify_bind, Prog.modify_apply,
    Prod.mk.injEq, true_and, Option.map_map] at h2
  refine ⟨fs, ?_⟩
  rw [← h2]
  simp only [Store.mk.injEq, and_true]
  constructor
  · split <;> rfl
  · funext q
    unfold pushData
    congr 1
    funext p
    by_cases hq : q = r
    · subst hq
      simp only [Function.comp_apply, if_true]
      split_ifs <;> rfl
    · by_cases hh : s.root.head = some q <;> simp [hq, hh]

end RootPage

/-! ### The lists -/

section Lists

/-- The links of a page, `none` where there is no page. -/
def prevFree (L : ℕ → Option PageLinks) (r : ℕ) : Option ℕ := (L r).bind PageLinks.prevFreePage
def nextFree (L : ℕ → Option PageLinks) (r : ℕ) : Option ℕ := (L r).bind PageLinks.nextFreePage
def prevData (L : ℕ → Option PageLinks) (r : ℕ) : Option ℕ := (L r).bind PageLinks.prev
def nextData (L : ℕ → Option PageLinks) (r : ℕ) : Option ℕ := (L r).bind PageLinks.next

/-- The lists of a store with the root page `f` and the links `L` are whole:
`ch i` is the chain of slot `i` and `all` the list of all pages. -/
structure Lists (cs : ColumnStore) (f : RootFrame) (L : ℕ → Option PageLinks) (ch : ℕ → List ℕ)
    (all : List ℕ) : Prop where
  slots_pos : 0 < f.slots.length
  slots_le : f.slots.length ≤ 2048
  chain : ∀ i h, f.slots[i]? = some h →
    Linked (prevFree L) (nextFree L) (some cs.rootPageRef) h (ch i)
  outside : ∀ i, f.slots.length ≤ i → ch i = []
  number : ∀ i, ∀ r ∈ ch i, (L r).map PageLinks.freeSlotNumber = some i
  total_free : f.totalFreePages = ∑ i ∈ Finset.range f.slots.length, (ch i).length
  linked_all : Linked (prevData L) (nextData L) none f.head all
  tail : f.tail = all.getLast?
  mem_all : ∀ r, r ∈ all ↔ (L r).isSome
  ref_lt : ∀ r ∈ all, r < invalidRef
  ref_ne_root : ∀ r ∈ all, r ≠ cs.rootPageRef
  total_data : f.totalDataPages = all.length

namespace Lists

variable {cs : ColumnStore} {f f' : RootFrame} {L L' : ℕ → Option PageLinks} {ch : ℕ → List ℕ}
  {all : List ℕ} {r i j : ℕ}

theorem mem_all_of_mem (hl : Lists cs f L ch all) (hr : r ∈ ch i) : r ∈ all := by
  have := hl.number i r hr
  rw [hl.mem_all]
  cases h : L r <;> simp_all

/-- No page is on two chains. -/
theorem chain_unique (hl : Lists cs f L ch all) (hi : r ∈ ch i) (hj : r ∈ ch j) : i = j := by
  have h1 := hl.number i r hi
  have h2 := hl.number j r hj
  simpa using h1.symm.trans h2

theorem lt_length_of_mem (hl : Lists cs f L ch all) (hr : r ∈ ch i) : i < f.slots.length := by
  by_contra h
  rw [hl.outside i (by omega)] at hr
  simp at hr

theorem chain_at (hl : Lists cs f L ch all) (hi : i < f.slots.length) :
    Linked (prevFree L) (nextFree L) (some cs.rootPageRef) (f.slots[i]?).join (ch i) := by
  have := hl.chain i f.slots[i] (List.getElem?_eq_getElem hi)
  rwa [List.getElem?_eq_getElem hi]

theorem head_eq (hl : Lists cs f L ch all) (i : ℕ) : (f.slots[i]?).join = (ch i).head? := by
  rcases lt_or_ge i f.slots.length with hi | hi
  · exact (hl.chain_at hi).head_eq
  · rw [hl.outside i hi, List.getElem?_eq_none hi]
    rfl

theorem nodup_chain (hl : Lists cs f L ch all) (i : ℕ) : (ch i).Nodup := by
  rcases lt_or_ge i f.slots.length with hi | hi
  · exact (hl.chain_at hi).nodup
  · rw [hl.outside i hi]
    exact List.nodup_nil

/-- The pages on the chains. -/
def onChains (n : ℕ) (ch : ℕ → List ℕ) : Finset ℕ := (Finset.range n).biUnion fun i => (ch i).toFinset

theorem total_free_eq_card (hl : Lists cs f L ch all) :
    f.totalFreePages = (onChains f.slots.length ch).card := by
  have hdisj : (Finset.range f.slots.length : Set ℕ).PairwiseDisjoint fun i => (ch i).toFinset := by
    intro i _ j _ hij
    rw [Function.onFun, Finset.disjoint_left]
    intro r hr hr'
    exact hij (hl.chain_unique (List.mem_toFinset.mp hr) (List.mem_toFinset.mp hr'))
  rw [hl.total_free, onChains, Finset.card_biUnion hdisj]
  exact Finset.sum_congr rfl fun i _ => (List.toFinset_card_of_nodup (hl.nodup_chain i)).symm

/-- A page reference has 32 bits, so there are not more pages than the counters
can count. -/
theorem length_le_of_refs {l : List ℕ} (hnd : l.Nodup) (hlt : ∀ r ∈ l, r < invalidRef) :
    l.length ≤ invalidRef := by
  have hsub : l.toFinset ⊆ Finset.range invalidRef := fun r hr =>
    Finset.mem_range.mpr (hlt r (List.mem_toFinset.mp hr))
  have := Finset.card_le_card hsub
  rwa [Finset.card_range, List.toFinset_card_of_nodup hnd] at this

theorem total_free_lt (hl : Lists cs f L ch all) (hr : r ∈ all) (hout : ∀ j, r ∉ ch j) :
    f.totalFreePages + 1 < 2 ^ 32 := by
  have hsub : onChains f.slots.length ch ⊆ all.toFinset.erase r := by
    intro q hq
    obtain ⟨i, _, hq⟩ := Finset.mem_biUnion.mp hq
    have hqi := List.mem_toFinset.mp hq
    refine Finset.mem_erase.mpr ⟨fun heq => hout i (heq ▸ hqi), ?_⟩
    exact List.mem_toFinset.mpr (hl.mem_all_of_mem hqi)
  have h1 := Finset.card_le_card hsub
  have h2 := length_le_of_refs hl.linked_all.nodup hl.ref_lt
  have h3 : 0 < all.length := List.length_pos_of_mem hr
  rw [Finset.card_erase_of_mem (List.mem_toFinset.mpr hr),
    List.toFinset_card_of_nodup hl.linked_all.nodup, ← hl.total_free_eq_card] at h1
  unfold invalidRef at h2
  omega

/-- The head of a chain does not come again behind it. -/
theorem head_not_mem_tail (hl : Lists cs f L ch all) {q : ℕ} (hq : q ∈ (ch i).tail) :
    (f.slots[i]?).join ≠ some q := by
  have hnd := hl.nodup_chain i
  rw [hl.head_eq i]
  cases hc : ch i with
  | nil => simp
  | cons a l =>
    rw [hc] at hnd hq
    rintro h
    obtain rfl : a = q := by simpa using h
    exact (List.nodup_cons.mp hnd).1 hq

/-- The slot array grows by empty slots. -/
theorem grow (hl : Lists cs f L ch all) : Lists cs (cs.root.growFreeSlots f) L ch all := by
  obtain ⟨k, hk⟩ : ∃ k, (cs.root.growFreeSlots f).slots = f.slots ++ List.replicate k none := ⟨_, rfl⟩
  have hlen : (cs.root.growFreeSlots f).slots.length = f.slots.length + k := by simp [hk]
  have hle : (cs.root.growFreeSlots f).slots.length ≤ 2048 := by
    have := cs.root.maxFreeSlots_le
    have := hl.slots_le
    simp only [RootPage.growFreeSlots, List.length_append, List.length_replicate]
    omega
  refine ⟨by have := hl.slots_pos; omega, hle, ?_, fun i hi => hl.outside i (by omega), hl.number,
    ?_, hl.linked_all, hl.tail, hl.mem_all, hl.ref_lt, hl.ref_ne_root, hl.total_data⟩
  · intro i h hi
    rw [hk] at hi
    rcases lt_or_ge i f.slots.length with hlt | hge
    · rw [List.getElem?_append_left hlt] at hi
      exact hl.chain i h hi
    · rw [List.getElem?_append_right hge, List.getElem?_replicate] at hi
      rw [hl.outside i hge]
      split at hi
      · exact (Option.some.inj hi).symm
      · exact absurd hi (by simp)
  · show f.totalFreePages = _
    rw [hl.total_free, hlen]
    refine Finset.sum_subset (by simp) fun i _ hi => ?_
    rw [hl.outside i (by simpa using hi)]
    rfl

/-- The links after `r` went to the head of the chain of slot `i`, which began
at `h`. -/
def pushFree (cs : ColumnStore) (r i : ℕ) (h : Option ℕ) (L : ℕ → Option PageLinks) (q : ℕ) :
    Option PageLinks :=
  (L q).map fun p =>
    if q = r then
      { p with prevFreePage := some cs.rootPageRef, nextFreePage := h, freeSlotNumber := i }
    else { p with prevFreePage := if h = some q then some r else p.prevFreePage }

theorem links_pushFree {s s' : Store} {h : Option ℕ}
    (hp : s'.pages = RootPage.pushFree cs r i h s.pages) : s'.links = pushFree cs r i h s.links := by
  funext q
  simp only [Store.links, hp, RootPage.pushFree, pushFree, Option.map_map]
  congr 1
  funext p
  simp only [Function.comp_apply]
  split <;> rfl

section PushFree

variable {h : Option ℕ} {q : ℕ} {p : PageLinks}

theorem prevFree_pushFree_self (hp : L r = some p) :
    prevFree (pushFree cs r i h L) r = some cs.rootPageRef := by
  simp [prevFree, pushFree, hp]

theorem nextFree_pushFree_self (hp : L r = some p) : nextFree (pushFree cs r i h L) r = h := by
  simp [nextFree, pushFree, hp]

theorem nextFree_pushFree (hq : q ≠ r) : nextFree (pushFree cs r i h L) q = nextFree L q := by
  simp [nextFree, pushFree, hq, Option.bind_map]

theorem prevFree_pushFree (hq : q ≠ r) (hh : h ≠ some q) :
    prevFree (pushFree cs r i h L) q = prevFree L q := by
  simp [prevFree, pushFree, hq, hh]

theorem prevFree_pushFree_head (hp : L q = some p) (hq : q ≠ r) (hh : h = some q) :
    prevFree (pushFree cs r i h L) q = some r := by
  simp [prevFree, pushFree, hq, hh, hp]

theorem freeSlotNumber_pushFree (hq : q ≠ r) :
    (pushFree cs r i h L q).map PageLinks.freeSlotNumber = (L q).map PageLinks.freeSlotNumber := by
  simp [pushFree, hq, Function.comp_def]

theorem prevData_pushFree : prevData (pushFree cs r i h L) = prevData L := by
  funext q
  simp only [prevData, pushFree, Option.bind_map, Function.comp_def]
  congr 1
  funext p
  split <;> rfl

theorem nextData_pushFree : nextData (pushFree cs r i h L) = nextData L := by
  funext q
  simp only [nextData, pushFree, Option.bind_map, Function.comp_def]
  congr 1
  funext p
  split <;> rfl

end PushFree

/-- The chains after a page was put on one of them. -/
theorem addFree_chain (hl : Lists cs f L ch all) (hr : r ∈ all) (hout : ∀ j, r ∉ ch j)
    (hi : i < f.slots.length) {h : Option ℕ} (hj : (f.slots.set i (some r))[j]? = some h) :
    Linked (prevFree (pushFree cs r i (f.slots[i]?).join L))
      (nextFree (pushFree cs r i (f.slots[i]?).join L)) (some cs.rootPageRef) h
      (Function.update ch i (r :: ch i) j) := by
  obtain ⟨p, hp⟩ := Option.isSome_iff_exists.mp ((hl.mem_all r).mp hr)
  have hne : ∀ j, ∀ q ∈ ch j, q ≠ r := fun j q hq heq => hout j (heq ▸ hq)
  have hhead := hl.head_eq i
  rcases eq_or_ne j i with rfl | hji
  · rw [Function.update_self]
    obtain rfl : h = some r := by
      rw [List.getElem?_set_self hi] at hj
      exact (Option.some.inj hj).symm
    refine (hl.chain_at hi).push (prevFree_pushFree_self hp) (nextFree_pushFree_self hp) ?_ ?_
      fun q hq => nextFree_pushFree (hne j q hq)
    · intro q hq
      have hqj := List.mem_of_mem_head? hq
      obtain ⟨p', hp'⟩ := Option.isSome_iff_exists.mp ((hl.mem_all q).mp (hl.mem_all_of_mem hqj))
      exact prevFree_pushFree_head hp' (hne j q hqj) (hhead.trans hq)
    · intro q hq
      exact prevFree_pushFree (hne j q (List.mem_of_mem_tail hq)) (hl.head_not_mem_tail hq)
  · rw [Function.update_of_ne hji]
    rw [List.getElem?_set_ne (Ne.symm hji)] at hj
    refine (hl.chain j h hj).congr (fun q hq => prevFree_pushFree (hne j q hq) fun hhq => ?_)
      fun q hq => nextFree_pushFree (hne j q hq)
    -- the head of chain `i` is on no other chain
    exact hji (hl.chain_unique hq (List.mem_of_mem_head? (hhead ▸ hhq)))

theorem sum_length_update (ch : ℕ → List ℕ) {n : ℕ} (hi : i < n) (l : List ℕ) :
    ∑ j ∈ Finset.range n, (Function.update ch i l j).length + (ch i).length =
      ∑ j ∈ Finset.range n, (ch j).length + l.length := by
  have hmem : i ∈ Finset.range n := Finset.mem_range.mpr hi
  rw [← Finset.add_sum_erase _ _ hmem, ← Finset.add_sum_erase _ (fun j => (ch j).length) hmem,
    Function.update_self]
  have hrest : ∑ j ∈ (Finset.range n).erase i, (Function.update ch i l j).length =
      ∑ j ∈ (Finset.range n).erase i, (ch j).length :=
    Finset.sum_congr rfl fun j hj => by rw [Function.update_of_ne (Finset.ne_of_mem_erase hj)]
  omega

/-- **A page put on a chain.** -/
theorem addFree (hl : Lists cs f L ch all) (hr : r ∈ all) (hout : ∀ j, r ∉ ch j)
    (hi : i < f.slots.length) :
    Lists cs { f with slots := f.slots.set i (some r), totalFreePages := (f.totalFreePages + 1) % 2 ^ 32 }
      (pushFree cs r i (f.slots[i]?).join L) (Function.update ch i (r :: ch i)) all where
  slots_pos := by simpa using hl.slots_pos
  slots_le := by simpa using hl.slots_le
  chain j h hj := hl.addFree_chain hr hout hi hj
  outside j hj := by
    rw [List.length_set] at hj
    rw [Function.update_of_ne (by omega)]
    exact hl.outside j hj
  number j q hq := by
    obtain ⟨p, hp⟩ := Option.isSome_iff_exists.mp ((hl.mem_all r).mp hr)
    rcases eq_or_ne q r with rfl | hqr
    · rcases eq_or_ne j i with rfl | hji
      · simp [pushFree, hp]
      · rw [Function.update_of_ne hji] at hq
        exact absurd hq (hout j)
    · rw [freeSlotNumber_pushFree hqr]
      rcases eq_or_ne j i with rfl | hji
      · rw [Function.update_self] at hq
        exact hl.number j q ((List.mem_cons.mp hq).resolve_left hqr)
      · rw [Function.update_of_ne hji] at hq
        exact hl.number j q hq
  total_free := by
    have hsum := sum_length_update ch hi (r :: ch i)
    rw [← hl.total_free, List.length_cons] at hsum
    simp only [List.length_set]
    rw [Nat.mod_eq_of_lt (hl.total_free_lt hr hout)]
    omega
  linked_all := by
    rw [prevData_pushFree, nextData_pushFree]
    exact hl.linked_all
  tail := hl.tail
  mem_all q := by
    rw [hl.mem_all q]
    simp [pushFree]
  ref_lt := hl.ref_lt
  ref_ne_root := hl.ref_ne_root
  total_data := hl.total_data

/-- The links after `r`, whose own links were `p`, left its chain. -/
def popFree (cs : ColumnStore) (r : ℕ) (p : PageLinks) (L : ℕ → Option PageLinks) (q : ℕ) :
    Option PageLinks :=
  (L q).map fun p' =>
    if q = r then { p' with prevFreePage := none, nextFreePage := none }
    else { p' with
      prevFreePage := if p.nextFreePage = some q then p.prevFreePage else p'.prevFreePage
      nextFreePage := if p.prevFreePage ≠ some cs.rootPageRef ∧ p.prevFreePage.getD invalidRef = q
        then p.nextFreePage else p'.nextFreePage }

theorem links_popFree {s s' : Store} {p : Page} (hp : s'.pages = RootPage.popFree cs r p s.pages) :
    s'.links = popFree cs r p.links s.links := by
  funext q
  simp only [Store.links, hp, RootPage.popFree, popFree, Option.map_map]
  congr 1
  funext p'
  simp only [Function.comp_apply]
  split <;> rfl

section PopFree

variable {q : ℕ} {p p' : PageLinks}

theorem prevFree_popFree (hq : q ≠ r) (hn : p.nextFreePage ≠ some q) :
    prevFree (popFree cs r p L) q = prevFree L q := by
  simp [prevFree, popFree, hq, hn, Option.bind_map]

theorem prevFree_popFree_next (hp : L q = some p') (hq : q ≠ r) (hn : p.nextFreePage = some q) :
    prevFree (popFree cs r p L) q = p.prevFreePage := by
  simp [prevFree, popFree, hq, hn, hp]

theorem nextFree_popFree (hq : q ≠ r) (hs : p.prevFreePage.isSome) (hv : p.prevFreePage ≠ some q) :
    nextFree (popFree cs r p L) q = nextFree L q := by
  obtain ⟨v, hv'⟩ := Option.isSome_iff_exists.mp hs
  have hvq : v ≠ q := fun h => hv (hv'.trans (congrArg some h))
  simp [nextFree, popFree, hq, hv', hvq, Option.bind_map]

theorem nextFree_popFree_prev (hp : L q = some p') (hq : q ≠ r) (hv : p.prevFreePage = some q)
    (hroot : q ≠ cs.rootPageRef) : nextFree (popFree cs r p L) q = p.nextFreePage := by
  simp [nextFree, popFree, hq, hv, hroot, hp]

theorem freeSlotNumber_popFree :
    (popFree cs r p L q).map PageLinks.freeSlotNumber = (L q).map PageLinks.freeSlotNumber := by
  simp only [popFree, Option.map_map]
  congr 1
  funext p'
  simp only [Function.comp_apply]
  split <;> rfl

theorem prevData_popFree : prevData (popFree cs r p L) = prevData L := by
  funext q
  simp only [prevData, popFree, Option.bind_map, Function.comp_def]
  congr 1
  funext p'
  split <;> rfl

theorem nextData_popFree : nextData (popFree cs r p L) = nextData L := by
  funext q
  simp only [nextData, popFree, Option.bind_map, Function.comp_def]
  congr 1
  funext p'
  split <;> rfl

end PopFree

/-- Where a page of a chain stands: its own links name its neighbours. -/
theorem links_of_mem (hl : Lists cs f L ch all) {p : PageLinks} (hp : L r = some p)
    {l₁ l₂ : List ℕ} (hc : ch i = l₁ ++ r :: l₂) :
    p.freeSlotNumber = i ∧ p.prevFreePage = l₁.getLast?.or (some cs.rootPageRef) ∧
      p.nextFreePage = l₂.head? := by
  have hr : r ∈ ch i := by simp [hc]
  have hlk := hl.chain_at (hl.lt_length_of_mem hr)
  rw [hc] at hlk
  refine ⟨?_, ?_, ?_⟩
  · have := hl.number i r hr
    simpa [hp] using this
  · have := hlk.prev_eq
    simpa [prevFree, hp] using this
  · have := hlk.next_eq
    simpa [nextFree, hp] using this

/-- The chain a page was taken off. -/
theorem removeFree_chain (hl : Lists cs f L ch all) {p : PageLinks} (hp : L r = some p)
    {l₁ l₂ : List ℕ} (hc : ch i = l₁ ++ r :: l₂) {h : Option ℕ}
    (h0 : l₁ = [] → h = p.nextFreePage) (h1 : l₁ ≠ [] → h = (f.slots[i]?).join) :
    Linked (prevFree (popFree cs r p L)) (nextFree (popFree cs r p L)) (some cs.rootPageRef) h
      (l₁ ++ l₂) := by
  have hr : r ∈ ch i := by simp [hc]
  obtain ⟨-, hprev, hnext⟩ := hl.links_of_mem hp hc
  have hs : p.prevFreePage.isSome := by rw [hprev]; cases l₁.getLast? <;> simp
  have hnd := hl.nodup_chain i
  rw [hc] at hnd
  have hnd' := List.nodup_append.mp hnd
  have hr1 : ∀ q ∈ l₁, q ≠ r := fun q hq => hnd'.2.2 q hq r List.mem_cons_self
  have hr2 : ∀ q ∈ l₂, q ≠ r := fun q hq heq => (List.nodup_cons.mp hnd'.2.1).1 (heq ▸ hq)
  have h12 : ∀ q ∈ l₁, q ∉ l₂ := fun q hq hq' => hnd'.2.2 q hq q (List.mem_cons_of_mem _ hq') rfl
  have hin : ∀ q ∈ l₁ ++ l₂, q ∈ all := fun q hq => hl.mem_all_of_mem (i := i) (by
    rw [hc, List.mem_append, List.mem_cons]; rw [List.mem_append] at hq; tauto)
  have hpage : ∀ q ∈ l₁ ++ l₂, ∃ p', L q = some p' := fun q hq =>
    Option.isSome_iff_exists.mp ((hl.mem_all q).mp (hin q hq))
  have hroot : ∀ q ∈ l₁ ++ l₂, q ≠ cs.rootPageRef := fun q hq => hl.ref_ne_root q (hin q hq)
  have hlk := hl.chain_at (hl.lt_length_of_mem hr)
  rw [hc] at hlk
  have hra : nextFree L r = p.nextFreePage := by simp [nextFree, hp]
  have hrp : prevFree L r = p.prevFreePage := by simp [prevFree, hp]
  -- the predecessor named on the page is the last of `l₁`, or the root page
  have hprev1 : ∀ q ∈ l₁ ++ l₂, p.prevFreePage = some q → q ∈ l₁.getLast? := by
    intro q hq hq'
    rw [hprev] at hq'
    rcases hg : l₁.getLast? with _ | b
    · rw [hg] at hq'
      exact absurd (by simpa using hq'.symm) (hroot q hq)
    · rw [hg] at hq'
      simpa using hq'
  refine hlk.remove (fun h => (h0 h).trans hra.symm) h1 ?_ ?_ ?_ ?_ ?_ ?_
  · intro b hb
    have hb1 : b ∈ l₁ := List.mem_of_mem_getLast? hb
    have hbm : b ∈ l₁ ++ l₂ := List.mem_append_left _ hb1
    obtain ⟨p', hp'⟩ := hpage b hbm
    rw [hra]
    refine nextFree_popFree_prev hp' (hr1 b hb1) ?_ (hroot b hbm)
    rw [hprev, hb]
    rfl
  · intro b hb
    have hb1 : b ∈ l₁ := List.mem_of_mem_dropLast hb
    refine nextFree_popFree (hr1 b hb1) hs fun hv => ?_
    -- `b` would be the last of `l₁` and stand before it
    have hlast := hprev1 b (List.mem_append_left _ hb1) hv
    have hne : l₁ ≠ [] := List.ne_nil_of_mem hb1
    rw [List.getLast?_eq_getLast_of_ne_nil hne] at hlast
    have hsplit := List.dropLast_append_getLast hne
    have hnd1 := hnd'.1
    rw [← hsplit, List.nodup_append] at hnd1
    exact hnd1.2.2 b hb _ (List.mem_singleton_self _) (by simpa using hlast.symm)
  · intro b hb
    refine prevFree_popFree (hr1 b hb) fun hn => ?_
    rw [hnext] at hn
    exact h12 b hb (List.mem_of_mem_head? hn)
  · intro b hb
    refine nextFree_popFree (hr2 b hb) hs fun hv => ?_
    exact h12 b (List.mem_of_mem_getLast? (hprev1 b (List.mem_append_right _ hb) hv)) hb
  · intro b hb
    have hb2 : b ∈ l₂ := List.mem_of_mem_head? hb
    obtain ⟨p', hp'⟩ := hpage b (List.mem_append_right _ hb2)
    rw [hrp]
    exact prevFree_popFree_next hp' (hr2 b hb2) (hnext.trans hb)
  · intro b hb
    refine prevFree_popFree (hr2 b (List.mem_of_mem_tail hb)) fun hn => ?_
    rw [hnext] at hn
    cases l₂ with
    | nil => simp at hb
    | cons c l₂ =>
      obtain rfl : c = b := by simpa using hn
      exact (List.nodup_cons.mp (List.nodup_cons.mp hnd'.2.1).2).1 hb

/-- The page named on `r` before it is the root page exactly when `r` is the
head. -/
theorem prevFreePage_eq_root_iff (hl : Lists cs f L ch all) {p : PageLinks} (hp : L r = some p)
    {l₁ l₂ : List ℕ} (hc : ch i = l₁ ++ r :: l₂) : p.prevFreePage = some cs.rootPageRef ↔ l₁ = [] := by
  rw [(hl.links_of_mem hp hc).2.1]
  constructor
  · intro h
    rcases hg : l₁.getLast? with _ | b
    · exact List.getLast?_eq_none_iff.mp hg
    · rw [hg] at h
      have hb : b ∈ ch i := by
        rw [hc]
        exact List.mem_append_left _ (List.mem_of_mem_getLast? hg)
      exact absurd (by simpa using h) (hl.ref_ne_root b (hl.mem_all_of_mem hb))
  · rintro rfl
    rfl

/-- **A page taken off its chain**, wherever it stands. -/
theorem removeFree (hl : Lists cs f L ch all) {p : PageLinks} (hp : L r = some p)
    {l₁ l₂ : List ℕ} (hc : ch i = l₁ ++ r :: l₂) :
    Lists cs
      { f with
        slots := if p.prevFreePage = some cs.rootPageRef
          then f.slots.set p.freeSlotNumber p.nextFreePage else f.slots
        totalFreePages := (f.totalFreePages + 2 ^ 32 - 1) % 2 ^ 32 }
      (popFree cs r p L) (Function.update ch i (l₁ ++ l₂)) all := by
  have hr : r ∈ ch i := by simp [hc]
  have hi := hl.lt_length_of_mem hr
  obtain ⟨hnum, -, hnext⟩ := hl.links_of_mem hp hc
  have hroot := hl.prevFreePage_eq_root_iff hp hc
  set slots := if p.prevFreePage = some cs.rootPageRef
    then f.slots.set p.freeSlotNumber p.nextFreePage else f.slots with hslots
  have hlen : slots.length = f.slots.length := by rw [hslots]; split <;> simp
  have hsub : ∀ q ∈ l₁ ++ l₂, q ∈ ch i := by
    intro q hq
    rw [hc, List.mem_append, List.mem_cons]
    rw [List.mem_append] at hq
    tauto
  constructor
  case slots_pos => exact hlen ▸ hl.slots_pos
  case slots_le => exact hlen ▸ hl.slots_le
  case chain =>
    intro j h hj
    change slots[j]? = some h at hj
    rcases eq_or_ne j i with rfl | hji
    · rw [Function.update_self]
      refine hl.removeFree_chain hp hc (fun h0 => ?_) fun h1 => ?_
      · rw [hslots, if_pos (hroot.mpr h0), hnum, List.getElem?_set_self hi] at hj
        exact (Option.some.inj hj).symm
      · rw [hslots, if_neg (hroot.not.mpr h1)] at hj
        rw [hj]
        rfl
    · rw [Function.update_of_ne hji]
      have hj' : f.slots[j]? = some h := by
        rw [hslots] at hj
        split at hj
        · rwa [hnum, List.getElem?_set_ne (Ne.symm hji)] at hj
        · exact hj
      -- neither `r` nor its neighbours are on another chain
      have hout : ∀ q ∈ ch j, q ∉ ch i := fun q hq hq' => hji (hl.chain_unique hq hq')
      refine (hl.chain j h hj').congr (fun q hq => ?_) fun q hq => ?_
      · refine prevFree_popFree (fun heq => hout q hq (heq ▸ hr)) fun hn => hout q hq ?_
        rw [hnext] at hn
        exact hsub q (List.mem_append_right _ (List.mem_of_mem_head? hn))
      · have hprev := (hl.links_of_mem hp hc).2.1
        refine nextFree_popFree (fun heq => hout q hq (heq ▸ hr))
          (by rw [hprev]; cases l₁.getLast? <;> simp) fun hv => ?_
        rw [hprev] at hv
        rcases hg : l₁.getLast? with _ | b
        · rw [hg] at hv
          exact hl.ref_ne_root q (hl.mem_all_of_mem hq) (by simpa using hv.symm)
        · rw [hg] at hv
          obtain rfl : b = q := by simpa using hv
          exact hout b hq (hsub b (List.mem_append_left _ (List.mem_of_mem_getLast? hg)))
  case outside =>
    intro j hj
    change slots.length ≤ j at hj
    rw [Function.update_of_ne (by omega)]
    exact hl.outside j (by omega)
  case number =>
    intro j q hq
    rw [freeSlotNumber_popFree]
    rcases eq_or_ne j i with rfl | hji
    · rw [Function.update_self] at hq
      exact hl.number j q (hsub q hq)
    · rw [Function.update_of_ne hji] at hq
      exact hl.number j q hq
  case total_free =>
    have hsum := sum_length_update ch hi (l₁ ++ l₂)
    have hlen' : (ch i).length = (l₁ ++ l₂).length + 1 := by simp [hc]; omega
    have hlt : f.totalFreePages ≤ invalidRef := by
      rw [hl.total_free_eq_card]
      have hsub : onChains f.slots.length ch ⊆ Finset.range invalidRef := by
        intro q hq
        obtain ⟨j, _, hq⟩ := Finset.mem_biUnion.mp hq
        exact Finset.mem_range.mpr (hl.ref_lt q (hl.mem_all_of_mem (List.mem_toFinset.mp hq)))
      simpa using Finset.card_le_card hsub
    rw [← hl.total_free] at hsum
    show (f.totalFreePages + 2 ^ 32 - 1) % 2 ^ 32 = ∑ j ∈ Finset.range slots.length, _
    rw [hlen]
    unfold invalidRef at hlt
    omega
  case linked_all =>
    rw [prevData_popFree, nextData_popFree]
    exact hl.linked_all
  case tail => exact hl.tail
  case mem_all =>
    intro q
    rw [hl.mem_all q]
    simp [popFree]
  case ref_lt => exact hl.ref_lt
  case ref_ne_root => exact hl.ref_ne_root
  case total_data => exact hl.total_data

/-- The links after the new page `r`, with room for `m` records, went to the
head of the list of all pages, which began at `h`. -/
def pushData (r m : ℕ) (h : Option ℕ) (L : ℕ → Option PageLinks) (q : ℕ) : Option PageLinks :=
  if q = r then some ⟨DataPage.invalidSlot, none, none, none, h, m⟩
  else (L q).map fun p => { p with prev := if h = some q then some r else p.prev }

theorem links_pushData {s s' : Store} {h : Option ℕ}
    (hp : s'.pages = RootPage.pushData r h (Function.update s.pages r
      (some (cs.data.format cs.rootPageRef Page.zero)))) :
    s'.links = pushData r cs.data.maxNumRecs h s.links := by
  funext q
  by_cases hq : q = r
  · subst hq
    simp [Store.links, hp, RootPage.pushData, pushData, Page.links, DataPage.format]
  · simp only [Store.links, hp, RootPage.pushData, pushData, if_neg hq, Function.update_of_ne hq,
      Option.map_map]
    rfl

/-- **A new page registered.** -/
theorem addData {m : ℕ} (hl : Lists cs f L ch all) (hr : L r = none) (hlt : r < invalidRef)
    (hroot : r ≠ cs.rootPageRef) :
    Lists cs
      { f with
        head := some r
        tail := if f.head = none then some r else f.tail
        totalDataPages := (f.totalDataPages + 1) % 2 ^ 32 }
      (pushData r m f.head L) ch (r :: all) := by
  have hnot : r ∉ all := fun h => by simpa [hr] using (hl.mem_all r).mp h
  have hne : ∀ q ∈ all, q ≠ r := fun q hq heq => hnot (heq ▸ hq)
  have hne' : ∀ j, ∀ q ∈ ch j, q ≠ r := fun j q hq => hne q (hl.mem_all_of_mem hq)
  have hother : ∀ (g : PageLinks → Option ℕ) (q : ℕ), q ≠ r →
      (∀ p v, g { p with prev := v } = g p) → (pushData r m f.head L q).bind g = (L q).bind g := by
    intro g q hq hg
    simp only [pushData, if_neg hq, Option.bind_map, Function.comp_def, hg]
  have hhead := hl.linked_all.head_eq
  constructor
  case slots_pos => exact hl.slots_pos
  case slots_le => exact hl.slots_le
  case chain =>
    intro j h hj
    exact (hl.chain j h hj).congr (fun q hq => hother _ q (hne' j q hq) fun _ _ => rfl)
      fun q hq => hother _ q (hne' j q hq) fun _ _ => rfl
  case outside => exact hl.outside
  case number =>
    intro j q hq
    have := hl.number j q hq
    rw [pushData, if_neg (hne' j q hq)]
    rwa [Option.map_map, show PageLinks.freeSlotNumber ∘ (fun p : PageLinks =>
      { p with prev := if f.head = some q then some r else p.prev }) = PageLinks.freeSlotNumber from rfl]
  case total_free => exact hl.total_free
  case linked_all =>
    refine hl.linked_all.push (by simp [prevData, pushData]) (by simp [nextData, pushData]) ?_ ?_
      fun q hq => hother _ q (hne q hq) fun _ _ => rfl
    · intro q hq
      have hqa := List.mem_of_mem_head? hq
      obtain ⟨p, hp⟩ := Option.isSome_iff_exists.mp ((hl.mem_all q).mp hqa)
      simp [prevData, pushData, hne q hqa, hp, hhead.trans hq]
    · intro q hq
      have hqa := List.mem_of_mem_tail hq
      have hnq : f.head ≠ some q := by
        rw [hhead]
        have hnd := hl.linked_all.nodup
        cases all with
        | nil => simp
        | cons a l =>
          intro h
          obtain rfl : a = q := by simpa using h
          exact (List.nodup_cons.mp hnd).1 hq
      simp [prevData, pushData, hne q hqa, hnq]
  case tail =>
    show (if f.head = none then some r else f.tail) = _
    rw [hhead, hl.tail]
    cases all with
    | nil => simp
    | cons a l => simp [List.getLast?_cons_cons]
  case mem_all =>
    intro q
    by_cases hq : q = r
    · simp [pushData, hq]
    · simp [pushData, hq, hl.mem_all q]
  case ref_lt =>
    intro q hq
    rcases List.mem_cons.mp hq with rfl | hq
    · exact hlt
    · exact hl.ref_lt q hq
  case ref_ne_root =>
    intro q hq
    rcases List.mem_cons.mp hq with rfl | hq
    · exact hroot
    · exact hl.ref_ne_root q hq
  case total_data =>
    have hlen : (r :: all).length ≤ invalidRef := by
      refine length_le_of_refs (List.nodup_cons.mpr ⟨hnot, hl.linked_all.nodup⟩) fun q hq => ?_
      rcases List.mem_cons.mp hq with rfl | hq
      · exact hlt
      · exact hl.ref_lt q hq
    rw [List.length_cons] at hlen ⊢
    unfold invalidRef at hlen
    show (f.totalDataPages + 1) % 2 ^ 32 = _
    rw [hl.total_data]
    omega

end Lists

end Lists
/-! ### What a call does to the lists -/

namespace RootPage

variable {cs : ColumnStore} {f : RootFrame} {info : LastSlotInfo} {rand : ℕ} {s s' : Store}

/-- The slot selected is one of the array, and the thread remembers it. -/
theorem selectSlot_lt (cs : ColumnStore) (rand : ℕ) (info : LastSlotInfo) (hpos : 0 < f.slots.length) :
    (selectSlot cs f rand info).1 < f.slots.length ∧
      (selectSlot cs f rand info).2.slotNumber = (selectSlot cs f rand info).1 := by
  unfold selectSlot
  split
  · rename_i slot hc
    unfold getCachedSlotNumber at hc
    split_ifs at hc with h1 h2 h3
    obtain rfl := Option.some.inj hc
    exact ⟨by omega, rfl⟩
  · refine ⟨?_, rfl⟩
    simp only [getRandomSlot]
    split
    · exact hpos
    · exact Nat.mod_lt _ hpos

/-- A second selection takes the same slot. -/
theorem selectSlot_again {f' : RootFrame} {rand' : ℕ} (hpos : 0 < f.slots.length)
    (hle : f.slots.length ≤ f'.slots.length) :
    selectSlot cs f' rand' (selectSlot cs f rand info).2 = selectSlot cs f rand info := by
  obtain ⟨hlt, hnum⟩ := selectSlot_lt cs rand info hpos
  have hkey : (selectSlot cs f rand info).2.spaceRef = cs.spaceRef ∧
      (selectSlot cs f rand info).2.pageRef = some cs.rootPageRef := by
    unfold selectSlot
    split
    · rename_i slot hc
      unfold getCachedSlotNumber at hc
      split_ifs at hc with h1 h2 h3
      exact ⟨not_not.mp h1, not_not.mp h2⟩
    · exact ⟨rfl, rfl⟩
  have hcache : getCachedSlotNumber (selectSlot cs f rand info).2 cs.spaceRef cs.rootPageRef
      f'.slots.length = some (selectSlot cs f rand info).1 := by
    unfold getCachedSlotNumber
    rw [if_neg (not_not.mpr hkey.1), if_neg (not_not.mpr hkey.2), hnum, if_neg (by omega)]
  rw [selectSlot.eq_def cs f', hcache]

theorem pageSelect_apply (s : Store) : pageSelect cs rand s =
    (.ok (s.root.slots[(selectSlot cs s.root rand s.lastSlotInfo).1]?).join,
      { s with lastSlotInfo := (selectSlot cs s.root rand s.lastSlotInfo).2 }) := rfl

theorem growFreeSlots_join (rp : RootPage) (i : ℕ) :
    ((rp.growFreeSlots f).slots[i]?).join = (f.slots[i]?).join := by
  simp only [growFreeSlots]
  rcases lt_or_ge i f.slots.length with hlt | hge
  · rw [List.getElem?_append_left hlt]
  · rw [List.getElem?_append_right hge, List.getElem?_replicate, List.getElem?_eq_none hge]
    split <;> rfl

end RootPage

namespace ColumnStore

open StoreProg

variable {cs : ColumnStore} {env : InsertEnv} {s s' : Store} {r : ℕ}

/-- The page an insert selects: the head of its thread's slot. -/
def selectedPage (cs : ColumnStore) (env : InsertEnv) (s : Store) : Option ℕ :=
  (s.root.slots[(RootPage.selectSlot cs s.root env.rand s.lastSlotInfo).1]?).join

/-- The root page of an insert, before or after its slot array grew. -/
def MayGrow (cs : ColumnStore) (f f' : RootFrame) : Prop := f' = f ∨ f' = cs.root.growFreeSlots f

theorem MayGrow.length_le {f f' : RootFrame} (h : MayGrow cs f f') : f.slots.length ≤ f'.slots.length := by
  rcases h with rfl | rfl
  · exact le_rfl
  · simp [RootPage.growFreeSlots]

theorem MayGrow.join {f f' : RootFrame} (h : MayGrow cs f f') (i : ℕ) :
    (f'.slots[i]?).join = (f.slots[i]?).join := by
  rcases h with rfl | rfl
  · rfl
  · exact RootPage.growFreeSlots_join _ i

/-- What an insert does before it writes the record: it uses the selected page
as it is, or takes it off its chain for its last record, or allocates a page
where none is selected. `s₁` is the state in which the root page is latched
exclusively. -/
inductive InsertPage (cs : ColumnStore) (env : InsertEnv) (s : Store) : ℕ → Store → Prop
  | room {r : ℕ} {p : Page} {s' : Store} : MayGrow cs s.root s'.root → s'.pages = s.pages →
    selectedPage cs env s = some r → s.pages r = some p → p.numFreeRecs ≠ 1 →
    InsertPage cs env s r s'
  | last {r : ℕ} {p : Page} {s₁ s' : Store} {e : StorageError} : MayGrow cs s.root s₁.root →
    s₁.pages = s.pages → selectedPage cs env s = some r → s.pages r = some p → p.numFreeRecs = 1 →
    RootPage.removeFreePage cs r e s₁ = (.ok (), s') → InsertPage cs env s r s'
  | fresh {s₁ s' : Store} : MayGrow cs s.root s₁.root → s₁.pages = s.pages →
    selectedPage cs env s = none →
    s₁.lastSlotInfo.slotNumber = (RootPage.selectSlot cs s.root env.rand s.lastSlotInfo).1 →
    insertNewPage cs env.newRef s₁ = (.ok (), s') → InsertPage cs env s env.newRef s'

theorem insertSelected_cases (s₁ : Store) (hpos : 0 < s.root.slots.length)
    (hroot : MayGrow cs s.root s₁.root) (hpages : s₁.pages = s.pages)
    (hinfo : s₁.lastSlotInfo = (RootPage.selectSlot cs s.root env.rand s.lastSlotInfo).2)
    (h : insertSelected cs env (selectedPage cs env s) s₁ = (.ok r, s')) :
    InsertPage cs env s r s' := by
  rcases hsel : selectedPage cs env s with _ | r' <;> rw [hsel] at h
  · obtain ⟨u, s2, h1, h2⟩ := Prog.bind_returns.mp h
    simp only [Prog.pure_apply, Prod.mk.injEq, Except.ok.injEq] at h2
    obtain ⟨rfl, rfl⟩ := h2
    exact .fresh hroot hpages hsel (hinfo ▸ (RootPage.selectSlot_lt _ _ _ hpos).2) h1
  · obtain ⟨p, s2, h1, h2⟩ := Prog.bind_returns.mp h
    obtain ⟨hp, fs, rfl⟩ := load_returns h1
    rw [hpages] at hp
    by_cases hlast : p.numFreeRecs = 1
    · rw [if_pos (by simp [DataPage.hasLastFreeSlot, hlast])] at h2
      obtain ⟨u, s3, h3, h4⟩ := Prog.bind_returns.mp h2
      simp only [Prog.pure_apply, Prod.mk.injEq, Except.ok.injEq] at h4
      obtain ⟨rfl, rfl⟩ := h4
      refine InsertPage.last ?_ ?_ hsel hp hlast h3
      · exact hroot
      · exact hpages
    · rw [if_neg (by simp [DataPage.hasLastFreeSlot, hlast])] at h2
      simp only [Prog.pure_apply, Prod.mk.injEq, Except.ok.injEq] at h2
      obtain ⟨rfl, rfl⟩ := h2
      exact .room hroot hpages hsel hp hlast

theorem insertPessimistic_cases {grow : Bool} (s₀ : Store) (hpos : 0 < s.root.slots.length)
    (hroot : s₀.root = s.root) (hpages : s₀.pages = s.pages)
    (hinfo : s₀.lastSlotInfo = (RootPage.selectSlot cs s.root env.rand s.lastSlotInfo).2)
    (h : insertPessimistic cs env grow s₀ = (.ok r, s')) : InsertPage cs env s r s' := by
  obtain ⟨u1, s1, h1, h2⟩ := Prog.bind_returns.mp h
  obtain ⟨fs, rfl⟩ := tick_returns h1
  obtain ⟨u2, s2, h3, h4⟩ := Prog.bind_returns.mp h2
  obtain ⟨fs, rfl⟩ := tick_returns h3
  set f := if grow then cs.root.growFreeSlots s₀.root else s₀.root with hf
  have hgrow : MayGrow cs s.root f := by
    rw [hf, hroot]
    split
    · exact Or.inr rfl
    · exact Or.inl rfl
  change (RootPage.pageSelect cs env.pessimisticRand >>= insertSelected cs env)
    { s₀ with root := f, faults := fs } = _ at h4
  rw [Prog.bind_apply, RootPage.pageSelect_apply] at h4
  simp only [hinfo, RootPage.selectSlot_again hpos hgrow.length_le, hgrow.join] at h4
  exact insertSelected_cases { s₀ with root := f, faults := fs, lastSlotInfo := _ } hpos hgrow
    hpages rfl h4

theorem insertPage_cases (hpos : 0 < s.root.slots.length) (h : insertPage cs env s = (.ok r, s')) :
    InsertPage cs env s r s' := by
  obtain ⟨u1, s1, h1, h2⟩ := Prog.bind_returns.mp h
  obtain ⟨fs, rfl⟩ := tick_returns h1
  rw [Prog.bind_apply, RootPage.pageSelect_apply] at h2
  simp only [Prog.get_bind] at h2
  set s₁ : Store :=
    { s with faults := fs, lastSlotInfo := (RootPage.selectSlot cs s.root env.rand s.lastSlotInfo).2 }
    with hs₁
  split at h2
  · exact insertPessimistic_cases s₁ hpos rfl rfl rfl h2
  · change insertOptimistic cs env (selectedPage cs env s) s₁ = _ at h2
    rcases hsel : selectedPage cs env s with _ | r' <;> rw [hsel] at h2
    · exact insertPessimistic_cases s₁ hpos rfl rfl rfl h2
    · obtain ⟨p, s3, h3, h4⟩ := Prog.bind_returns.mp h2
      obtain ⟨hp, fs', rfl⟩ := load_returns h3
      by_cases hlast : p.numFreeRecs = 1
      · rw [if_pos (by simp [DataPage.hasLastFreeSlot, hlast])] at h4
        obtain ⟨u4, s4, h5, h6⟩ := Prog.bind_returns.mp h4
        obtain ⟨fs'', rfl⟩ := tick_returns h5
        exact insertPessimistic_cases { s₁ with faults := fs'' } hpos rfl rfl rfl h6
      · rw [if_neg (by simp [DataPage.hasLastFreeSlot, hlast])] at h4
        obtain ⟨u4, s4, h5, h6⟩ := Prog.bind_returns.mp h4
        obtain ⟨fs'', rfl⟩ := tick_returns h5
        simp only [Prog.pure_apply, Prod.mk.injEq, Except.ok.injEq] at h6
        obtain ⟨rfl, rfl⟩ := h6
        exact .room (Or.inl rfl) rfl hsel hp hlast

theorem tickPrimary_returns {e : StorageError} {u : Unit} (h : tickPrimary cs e s = (.ok u, s')) :
    ∃ fs, s' = { s with faults := fs } := by
  unfold tickPrimary at h
  split at h
  · exact tick_returns h
  · simp only [Prog.pure_apply, Prod.mk.injEq, true_and] at h
    exact ⟨s.faults, h.symm⟩

/-- What a new page leaves: it is at the head of the list of all pages, and on
the chain of the thread's slot unless one record fills it. -/
theorem insertNewPage_cases {u : Unit} (h : insertNewPage cs r s = (.ok u, s')) :
    s.pages r = none ∧ r ≠ cs.rootPageRef ∧ r < invalidRef ∧ ∃ s₁ : Store,
      s₁.lastSlotInfo = s.lastSlotInfo ∧
      s₁.root = { s.root with
        head := some r
        tail := if s.root.head = none then some r else s.root.tail
        totalDataPages := (s.root.totalDataPages + 1) % 2 ^ 32 } ∧
      s₁.pages = RootPage.pushData r s.root.head
        (Function.update s.pages r (some (cs.data.format cs.rootPageRef Page.zero))) ∧
      ((cs.data.maxNumRecs = 1 ∧ s' = s₁) ∨ (cs.data.maxNumRecs ≠ 1 ∧
        ∃ e, RootPage.addFreePage cs r s.lastSlotInfo.slotNumber e s₁ = (.ok (), s'))) := by
  obtain ⟨u1, s1, h1, h⟩ := Prog.bind_returns.mp h
  obtain ⟨fs, rfl⟩ := tickPrimary_returns h1
  obtain ⟨u2, s2, h2, h⟩ := Prog.bind_returns.mp h
  obtain ⟨hnone, hroot, hlt, fs, rfl⟩ := loadNew_returns h2
  obtain ⟨u3, s3, h3, h⟩ := Prog.bind_returns.mp h
  obtain ⟨fs, rfl⟩ := tickPrimary_returns h3
  simp only [modifyPage, Prog.modify_bind] at h
  obtain ⟨u4, s4, h4, h⟩ := Prog.bind_returns.mp h
  obtain ⟨fs, rfl⟩ := RootPage.addDataPage_returns h4
  obtain ⟨p, s5, h5, h⟩ := Prog.bind_returns.mp h
  obtain ⟨hp, rfl⟩ := readPage_returns h5
  -- formatting the new page changes no other
  have hformat : (fun q => ((Function.update s.pages r (some Page.zero)) q).map fun p =>
      if q = r then cs.data.format cs.rootPageRef p else p) =
      Function.update s.pages r (some (cs.data.format cs.rootPageRef Page.zero)) := by
    funext q
    by_cases hq : q = r
    · subst hq; simp
    · simp [hq]
  simp only [hformat, Prog.get_bind] at h hp
  have hmax : p.numFreeRecs = cs.data.maxNumRecs := by
    simp only [RootPage.pushData, Function.update_self, Option.map_some, if_true,
      Option.some.injEq] at hp
    rw [← hp]
    rfl
  refine ⟨hnone, hroot, hlt, ?_⟩
  by_cases hlast : cs.data.maxNumRecs = 1
  · rw [if_pos (by simp [DataPage.hasLastFreeSlot, hmax, hlast])] at h
    simp only [Prog.pure_apply, Prod.mk.injEq, true_and] at h
    refine ⟨_, ?_, ?_, ?_, Or.inl ⟨hlast, h.symm⟩⟩ <;> rfl
  · rw [if_neg (by simp [DataPage.hasLastFreeSlot, hmax, hlast])] at h
    refine ⟨_, ?_, ?_, ?_, Or.inr ⟨hlast, _, h⟩⟩ <;> rfl

/-! ### Steps and runs -/

/-- An off-chain page was never on a chain: it has room for one record only,
and its free slot number is unset. -/
def Faithful (L : ℕ → Option PageLinks) (ch : ℕ → List ℕ) : Prop :=
  ∀ r p, L r = some p → (∃ i, r ∈ ch i) ∨ (p.freeSlotNumber = DataPage.invalidSlot ∧ p.maxNumRecs = 1)

/-- No page with a single free record is selected: the call fills no page of a
chain. -/
def KeepsRoom (cs : ColumnStore) : Call → Store → Prop
  | .insert env _ _, s => ∀ r p, selectedPage cs env s = some r → s.pages r = some p → p.numFreeRecs ≠ 1
  | .markDelete .., _ => True
  | .purge .., _ => True

variable {ch : ℕ → List ℕ} {all : List ℕ}

theorem MayGrow.lists {f f' : RootFrame} {L : ℕ → Option PageLinks} (h : MayGrow cs f f')
    (hl : Lists cs f L ch all) : Lists cs f' L ch all := by
  rcases h with rfl | rfl
  · exact hl
  · exact hl.grow

theorem addFreePage_lists {i : ℕ} {e : StorageError} {u : Unit} (hl : Lists cs s.root s.links ch all)
    (hr : r ∈ all) (hout : ∀ j, r ∉ ch j) (hi : i < s.root.slots.length)
    (h : RootPage.addFreePage cs r i e s = (.ok u, s')) :
    Lists cs s'.root s'.links (Function.update ch i (r :: ch i)) all := by
  obtain ⟨fs, rfl⟩ := RootPage.addFreePage_returns h
  rw [Lists.links_pushFree (s := s) rfl]
  exact hl.addFree hr hout hi

theorem removeFreePage_lists {i : ℕ} {e : StorageError} {u : Unit}
    (hl : Lists cs s.root s.links ch all) (hr : r ∈ ch i)
    (h : RootPage.removeFreePage cs r e s = (.ok u, s')) :
    ∃ ch', Lists cs s'.root s'.links ch' all := by
  obtain ⟨p, fs, hp, rfl⟩ := RootPage.removeFreePage_returns h
  obtain ⟨l₁, l₂, hc⟩ := List.append_of_mem hr
  have hp' : s.links r = some p.links := by simp [Store.links, hp]
  refine ⟨Function.update ch i (l₁ ++ l₂), ?_⟩
  rw [Lists.links_popFree (s := s) rfl]
  exact hl.removeFree hp' hc

theorem Faithful.addFree {L : ℕ → Option PageLinks} {i : ℕ} {h : Option ℕ} (hf : ∀ q, q ≠ r →
    ∀ p, L q = some p → (∃ i, q ∈ ch i) ∨ (p.freeSlotNumber = DataPage.invalidSlot ∧ p.maxNumRecs = 1)) :
    Faithful (Lists.pushFree cs r i h L) (Function.update ch i (r :: ch i)) := by
  intro q p hp
  by_cases hq : q = r
  · exact Or.inl ⟨i, by simp [hq]⟩
  · simp only [Lists.pushFree, if_neg hq, Option.map_eq_some_iff] at hp
    obtain ⟨p', hp', rfl⟩ := hp
    rcases hf q hq p' hp' with ⟨j, hj⟩ | hinv
    · refine Or.inl ⟨j, ?_⟩
      rcases eq_or_ne j i with rfl | hji
      · simp [hj]
      · rwa [Function.update_of_ne hji]
    · exact Or.inr hinv

/-- The pages and lists after the part of an insert that chooses the page. -/
theorem insertPage_lists (hl : Lists cs s.root s.links ch all) (h : insertPage cs env s = (.ok r, s')) :
    ∃ ch' all', Lists cs s'.root s'.links ch' all' ∧
      ((∀ r p, selectedPage cs env s = some r → s.pages r = some p → p.numFreeRecs ≠ 1) →
        Faithful s.links ch → Faithful s'.links ch') := by
  have hlt := RootPage.selectSlot_lt cs env.rand s.lastSlotInfo hl.slots_pos
  cases insertPage_cases hl.slots_pos h with
  | room hgrow hpages hsel hp hne =>
    have hlinks : s'.links = s.links := by funext q; simp [Store.links, hpages]
    exact ⟨ch, all, hlinks ▸ hgrow.lists hl, fun _ hf => hlinks ▸ hf⟩
  | @last _ p s₁ _ e hgrow hpages hsel hp hone h1 =>
    have hlinks₁ : s₁.links = s.links := by funext q; simp [Store.links, hpages]
    have hl₁ : Lists cs s₁.root s₁.links ch all := hlinks₁ ▸ hgrow.lists hl
    -- the selected page is the head of its chain
    have hhead : r ∈ (ch (RootPage.selectSlot cs s.root env.rand s.lastSlotInfo).1).head? := by
      rw [← hl.head_eq]
      exact hsel
    obtain ⟨ch', hl'⟩ := removeFreePage_lists hl₁ (List.mem_of_mem_head? hhead) h1
    exact ⟨ch', all, hl', fun hroom => absurd hone (hroom r p hsel hp)⟩
  | @fresh s₁ _ hgrow hpages hsel hslot h1 =>
    obtain ⟨hnone, hroot, href, s₂, hinfo, hroot₂, hpages₂, hend⟩ := insertNewPage_cases h1
    have hlinks₁ : s₁.links = s.links := by funext q; simp [Store.links, hpages]
    have hl₁ : Lists cs s₁.root s₁.links ch all := hlinks₁ ▸ hgrow.lists hl
    have hnone₁ : s₁.links env.newRef = none := by simp [Store.links, hnone]
    have hlinks₂ : s₂.links = Lists.pushData env.newRef cs.data.maxNumRecs s₁.root.head s₁.links :=
      Lists.links_pushData hpages₂
    have hl₂ : Lists cs s₂.root s₂.links ch (env.newRef :: all) := by
      rw [hroot₂, hlinks₂]
      exact hl₁.addData hnone₁ href hroot
    have hout : ∀ j, env.newRef ∉ ch j := fun j hj => by
      have := (hl₁.mem_all _).mp (hl₁.mem_all_of_mem hj)
      simp [hnone₁] at this
    -- the pages registered before keep their place
    have hold : Faithful s.links ch → ∀ q, q ≠ env.newRef → ∀ p, s₂.links q = some p →
        (∃ i, q ∈ ch i) ∨ (p.freeSlotNumber = DataPage.invalidSlot ∧ p.maxNumRecs = 1) := by
      intro hf q hq p hp
      rw [hlinks₂, Lists.pushData, if_neg hq, hlinks₁, Option.map_eq_some_iff] at hp
      obtain ⟨p', hp', rfl⟩ := hp
      exact hf q p' hp'
    rcases hend with ⟨hone, rfl⟩ | ⟨_, e, h2⟩
    · refine ⟨ch, _, hl₂, fun _ hf q p hp => ?_⟩
      by_cases hq : q = env.newRef
      · subst hq
        simp only [hlinks₂, Lists.pushData, if_true, Option.some.injEq] at hp
        subst hp
        exact Or.inr ⟨rfl, hone⟩
      · exact hold hf q hq p hp
    · have hi : s₁.lastSlotInfo.slotNumber < s₂.root.slots.length := by
        rw [hroot₂, hslot]
        exact hlt.1.trans_le hgrow.length_le
      refine ⟨_, _, addFreePage_lists hl₂ List.mem_cons_self hout hi h2, fun _ hf => ?_⟩
      obtain ⟨fs, rfl⟩ := RootPage.addFreePage_returns h2
      rw [Lists.links_pushFree (s := s₂) rfl]
      exact Faithful.addFree (hold hf)

/-! The record operations leave the links alone. -/

theorem links_mapPage {f : Page → Page} (hf : ∀ p, (f p).links = p.links)
    (hp : s'.pages = fun q => (s.pages q).map fun p => if q = r then f p else p) :
    s'.links = s.links := by
  funext q
  simp only [Store.links, hp, Option.map_map]
  congr 1
  funext p
  simp only [Function.comp_apply]
  split
  · exact hf p
  · rfl

theorem modifyPage_returns {f : Page → Page} {u : Unit} (h : modifyPage r f s = (.ok u, s')) :
    s'.root = s.root ∧ s'.pages = fun q => (s.pages q).map fun p => if q = r then f p else p := by
  simp only [modifyPage, Prog.modify_apply, Prod.mk.injEq, true_and] at h
  subst h
  exact ⟨rfl, rfl⟩

theorem modifyPage_links {f : Page → Page} {u : Unit} (hf : ∀ p, (f p).links = p.links)
    (h : modifyPage r f s = (.ok u, s')) : s'.root = s.root ∧ s'.links = s.links :=
  ⟨(modifyPage_returns h).1, links_mapPage hf (modifyPage_returns h).2⟩

theorem links_setRecord (f : ℕ → BitVec 8 → BitVec 8) (p : Page) (slotIndex : ℕ) :
    (DataPage.updateStatus f p slotIndex).links = p.links := rfl

theorem links_insertAt (d : DataPage) (trxRef : BitVec 64) (colData : List (BitVec 8)) (slotIndex : ℕ)
    (p : Page) : (d.insertAt trxRef colData slotIndex p).links = p.links := rfl

theorem links_purge {d : DataPage} {slotIndex : ℕ} {trxRef : BitVec 64} {p p' : Page} {purged : Bool}
    (h : d.purge slotIndex trxRef p = some (p', purged)) : p'.links = p.links := by
  unfold DataPage.purge at h
  split_ifs at h with h1 h2 h3
  all_goals
    simp only [Option.some.injEq, Prod.mk.injEq] at h
    obtain ⟨rfl, -⟩ := h
    rfl

theorem insert_lists {trxRef : BitVec 64} {colData : Option (List (BitVec 8))} {colRef : ℕ}
    (hl : Lists cs s.root s.links ch all)
    (h : cs.insert env trxRef colData s = (.ok colRef, s')) :
    ∃ ch' all', Lists cs s'.root s'.links ch' all' ∧
      (KeepsRoom cs (.insert env trxRef colData) s → Faithful s.links ch → Faithful s'.links ch') := by
  unfold insert at h
  split at h
  · simp at h
  · split at h
    · simp at h
    · obtain ⟨r, s1, h1, h2⟩ := Prog.bind_returns.mp h
      obtain ⟨ch', all', hl', hf'⟩ := insertPage_lists hl h1
      obtain ⟨p, s2, h3, h4⟩ := Prog.bind_returns.mp h2
      obtain ⟨-, rfl⟩ := readPage_returns h3
      rw [Prog.get_bind] at h4
      obtain ⟨u, s3, h5, h6⟩ := Prog.bind_returns.mp h4
      obtain ⟨hroot, hlinks⟩ := modifyPage_links (links_insertAt _ _ _ _) h5
      rw [Prog.modify_bind, Prog.pure_apply, Prod.mk.injEq] at h6
      obtain ⟨-, rfl⟩ := h6
      refine ⟨ch', all', ?_, fun hk hf => ?_⟩
      · change Lists cs s3.root s3.links ch' all'
        rw [hroot, hlinks]
        exact hl'
      · change Faithful s3.links ch'
        rw [hlinks]
        exact hf' hk hf

theorem markDelete_links {trxRef : BitVec 64} {colRef : ℕ} {deleteMark : Bool} {u : Unit}
    (h : cs.markDelete trxRef colRef deleteMark s = (.ok u, s')) :
    s'.root = s.root ∧ s'.links = s.links := by
  obtain ⟨p, s1, h1, h2⟩ := Prog.bind_returns.mp h
  obtain ⟨-, fs, rfl⟩ := load_returns h1
  obtain ⟨u2, s2, h3, h4⟩ := Prog.bind_returns.mp h2
  obtain ⟨hroot, hlinks⟩ := modifyPage_links (fun p => by split <;> exact links_setRecord _ _ _) h3
  obtain ⟨hroot', hlinks'⟩ := modifyPage_links
    (fun p => by split <;> rfl) h4
  exact ⟨hroot'.trans hroot, hlinks'.trans hlinks⟩

theorem purgeRelatch_returns {b : Bool} {u : Unit} (h : purgeRelatch r b s = (.ok u, s')) :
    ∃ fs, s' = { s with faults := fs } := by
  unfold purgeRelatch at h
  split at h
  · obtain ⟨u1, s1, h1, h⟩ := Prog.bind_returns.mp h
    obtain ⟨fs, rfl⟩ := tick_returns h1
    obtain ⟨u2, s2, h2, h⟩ := Prog.bind_returns.mp h
    obtain ⟨fs, rfl⟩ := tick_returns h2
    exact (loadLinked_returns h).2
  · simp only [Prog.pure_apply, Prod.mk.injEq, true_and] at h
    exact ⟨s.faults, h.symm⟩

/-- What a purge does: it changes its page, and puts it on a chain if it has to
be added before and after. -/
theorem purge_cases {rand : ℕ} {trxRef : BitVec 64} {colRef : ℕ} {u : Unit}
    (h : cs.purge rand trxRef colRef s = (.ok u, s')) :
    ∃ p p' purged s₁, s.pages (DataPage.decodeColumnRef colRef).1 = some p ∧
      cs.data.purge (DataPage.decodeColumnRef colRef).2 trxRef p = some (p', purged) ∧
      s₁.root = s.root ∧
      s₁.pages = (fun q => (s.pages q).map fun p =>
        if q = (DataPage.decodeColumnRef colRef).1 then p' else p) ∧
      if DataPage.needsAddToFreeList p true ∧ purged ∧ DataPage.needsAddToFreeList p' false
      then ∃ e, RootPage.addFreePage cs (DataPage.decodeColumnRef colRef).1
        (RootPage.getFreeSlot rand s.root) e s₁ = (.ok (), s')
      else s' = s₁ := by
  obtain ⟨p, s1, h1, h⟩ := Prog.bind_returns.mp h
  obtain ⟨hp, fs, rfl⟩ := load_returns h1
  obtain ⟨u2, s2, h2, h⟩ := Prog.bind_returns.mp h
  obtain ⟨fs, rfl⟩ := purgeRelatch_returns h2
  obtain ⟨⟨p', purged⟩, s3, h3, h⟩ := Prog.bind_returns.mp h
  obtain ⟨hpurge, rfl⟩ := Prog.ofOption_returns.mp h3
  obtain ⟨u4, s₁, h4, h⟩ := Prog.bind_returns.mp h
  obtain ⟨hroot, hpages⟩ := modifyPage_returns h4
  rw [Prog.get_bind, hroot] at h
  refine ⟨p, p', purged, s₁, hp, hpurge, hroot, hpages, ?_⟩
  split at h
  · rename_i hc
    rw [if_pos hc]
    exact ⟨_, h⟩
  · rename_i hc
    rw [if_neg hc]
    simp only [Prog.pure_apply, Prod.mk.injEq, true_and] at h
    exact h.symm

theorem getFreeSlot_lt {f : RootFrame} {rand : ℕ} (hpos : 0 < f.slots.length) :
    RootPage.getFreeSlot rand f < f.slots.length := by
  unfold RootPage.getFreeSlot
  rcases hi : f.slots.findIdx? (·.isNone) with _ | i
  · rw [hi, Option.getD_none, RootPage.getRandomSlot]
    split
    · exact hpos
    · exact Nat.mod_lt _ hpos
  · rw [hi, Option.getD_some]
    exact (List.findIdx?_eq_some_iff_getElem.mp hi).1

theorem freeSlotNumber_of_needsAdd {p : Page} {b : Bool} (h : DataPage.needsAddToFreeList p b) :
    p.freeSlotNumber = DataPage.invalidSlot := by
  unfold DataPage.needsAddToFreeList at h
  by_contra hne
  rw [if_pos hne] at h
  exact absurd h (by simp)

/-- A page of a chain has the number of its slot, so it is not added again. -/
theorem not_mem_chain_of_invalid {L : ℕ → Option PageLinks} {f : RootFrame} {p : PageLinks}
    (hl : Lists cs f L ch all) (hp : L r = some p) (hinv : p.freeSlotNumber = DataPage.invalidSlot)
    (i : ℕ) : r ∉ ch i := by
  intro hr
  have h1 := hl.number i r hr
  have h2 := hl.lt_length_of_mem hr
  have h3 := hl.slots_le
  rw [hp, Option.map_some, hinv, Option.some.injEq] at h1
  unfold DataPage.invalidSlot at h1
  omega

theorem links_purged {s₁ : Store} {d : DataPage} {slotIndex : ℕ} {trxRef : BitVec 64} {p p' : Page}
    {purged : Bool} (hp : s.pages r = some p) (hpurge : d.purge slotIndex trxRef p = some (p', purged))
    (hpages : s₁.pages = fun q => (s.pages q).map fun p => if q = r then p' else p) :
    s₁.links = s.links := by
  funext q
  by_cases hq : q = r
  · simp [Store.links, hpages, hq, hp, links_purge hpurge]
  · simp [Store.links, hpages, hq]

theorem purge_lists {rand : ℕ} {trxRef : BitVec 64} {colRef : ℕ} {u : Unit}
    (hl : Lists cs s.root s.links ch all) (h : cs.purge rand trxRef colRef s = (.ok u, s')) :
    ∃ ch', Lists cs s'.root s'.links ch' all ∧ (Faithful s.links ch → Faithful s'.links ch') := by
  obtain ⟨p, p', purged, s₁, hp, hpurge, hroot, hpages, hend⟩ := purge_cases h
  set r := (DataPage.decodeColumnRef colRef).1 with hr
  have hp' : s₁.pages r = some p' := by simp [hpages, hp]
  have hlinks : s₁.links = s.links := links_purged hp hpurge hpages
  have hl₁ : Lists cs s₁.root s₁.links ch all := by rw [hroot, hlinks]; exact hl
  split at hend
  · rename_i hc
    obtain ⟨e, h1⟩ := hend
    have hlr : s₁.links r = some p'.links := by simp [Store.links, hp']
    have hout := not_mem_chain_of_invalid hl₁ hlr (freeSlotNumber_of_needsAdd hc.2.2)
    have hin : r ∈ all := (hl₁.mem_all r).mpr (by simp [hlr])
    have hi : RootPage.getFreeSlot rand s.root < s₁.root.slots.length := by
      rw [hroot]
      exact getFreeSlot_lt hl.slots_pos
    refine ⟨_, addFreePage_lists hl₁ hin hout hi h1, fun hf => ?_⟩
    obtain ⟨fs, rfl⟩ := RootPage.addFreePage_returns h1
    rw [Lists.links_pushFree (s := s₁) rfl]
    exact Faithful.addFree fun q _ p hp => hf q p (hlinks ▸ hp)
  · subst hend
    exact ⟨ch, hl₁, fun hf => hlinks ▸ hf⟩

/-- **What one call keeps.** -/
theorem call_lists {c : Call} {res : Option ℕ} (hl : Lists cs s.root s.links ch all)
    (h : cs.call c s = (.ok res, s')) :
    ∃ ch' all', Lists cs s'.root s'.links ch' all' ∧
      (KeepsRoom cs c s → Faithful s.links ch → Faithful s'.links ch') := by
  cases c with
  | insert env trxRef colData =>
    obtain ⟨colRef, h1, -⟩ := Prog.map_returns.mp h
    exact insert_lists hl h1
  | markDelete trxRef colRef deleteMark =>
    obtain ⟨u, h1, -⟩ := Prog.map_returns.mp h
    obtain ⟨hroot, hlinks⟩ := markDelete_links h1
    exact ⟨ch, all, by rw [hroot, hlinks]; exact hl, fun _ hf => hlinks ▸ hf⟩
  | purge rand trxRef colRef =>
    obtain ⟨u, h1, -⟩ := Prog.map_returns.mp h
    obtain ⟨ch', hl', hf'⟩ := purge_lists hl h1
    exact ⟨ch', all, hl', fun _ => hf'⟩

theorem fresh_lists (h : Fresh s) : Lists cs s.root s.links (fun _ => []) [] := by
  have hlinks : ∀ q, s.links q = none := fun q => by simp [Store.links, h.2 q]
  rw [h.1]
  constructor <;> simp [RootFrame.format, Linked, hlinks]
  intro i p hi
  rcases i with _ | i
  · simpa using hi.symm
  · simp at hi

/-- The lists of every state of a run are whole; while every call keeps room,
the free slot numbers are faithful too. -/
theorem reaches_lists {allow : Call → Store → Prop} (h : Reaches Fresh (Step cs allow) s) :
    ∃ ch all, Lists cs s.root s.links ch all ∧
      ((∀ c s, allow c s → KeepsRoom cs c s) → Faithful s.links ch) := by
  refine Reaches.invariant (I := fun s => ∃ ch all, Lists cs s.root s.links ch all ∧
    ((∀ c s, allow c s → KeepsRoom cs c s) → Faithful s.links ch)) (fun s hs => ?_)
    (fun s s' hI hst => ?_) h
  · exact ⟨_, _, fresh_lists hs, fun _ r p hp => by simp [Store.links, hs.2 r] at hp⟩
  · obtain ⟨ch, all, hl, hf⟩ := hI
    cases hst with
    | switch info faults => exact ⟨ch, all, hl, hf⟩
    | call c res hallow hc =>
      obtain ⟨ch', all', hl', hf'⟩ := call_lists hl hc
      exact ⟨ch', all', hl', fun hroom => hf' (hroom c s hallow) (hf hroom)⟩

/-- **Whole lists.** After any run of successful calls each free slot heads a
doubly linked chain that ends, the chains share no page, and the list of all
pages visits every data page once; both counters are right. -/
theorem reachable_lists (h : Reaches Fresh (Step cs fun _ _ => True) s) :
    ∃ (ch : ℕ → List ℕ) (all : List ℕ),
      (∀ i head, s.root.slots[i]? = some head →
        Linked (fun r => (s.pages r).bind Page.prevFreePage) (fun r => (s.pages r).bind Page.nextFreePage)
          (some cs.rootPageRef) head (ch i) ∧ (ch i).Nodup) ∧
      (∀ i j, i < s.root.slots.length → j < s.root.slots.length → i ≠ j → List.Disjoint (ch i) (ch j)) ∧
      s.root.totalFreePages = ∑ i ∈ Finset.range s.root.slots.length, (ch i).length ∧
      Linked (fun r => (s.pages r).bind Page.prev) (fun r => (s.pages r).bind Page.next)
        none s.root.head all ∧
      s.root.tail = all.getLast? ∧ all.Nodup ∧ (∀ r, r ∈ all ↔ (s.pages r).isSome) ∧
      s.root.totalDataPages = all.length := by
  obtain ⟨ch, all, hl, -⟩ := reaches_lists h
  have hbind : ∀ g : PageLinks → Option ℕ,
      (fun r => (s.links r).bind g) = fun r => (s.pages r).bind fun p => g p.links := by
    intro g
    funext r
    simp [Store.links, Option.bind_map]
  refine ⟨ch, all, fun i head hi => ⟨?_, hl.nodup_chain i⟩, fun i j _ _ hij r hr hr' => ?_,
    hl.total_free, ?_, hl.tail, hl.linked_all.nodup, fun r => ?_, hl.total_data⟩
  · have := hl.chain i head hi
    unfold prevFree nextFree at this
    rw [hbind, hbind] at this
    exact this
  · exact hij (hl.chain_unique hr hr')
  · have := hl.linked_all
    unfold prevData nextData at this
    rw [hbind, hbind] at this
    exact this
  · rw [hl.mem_all r]
    simp [Store.links]

/-! ### The free slot number -/

/-- `r` is on the free chain of slot `i`: the free links lead to it from the
slot's head. -/
def OnChain (s : Store) (i r : ℕ) : Prop :=
  ∃ head, s.root.slots[i]? = some (some head) ∧
    Relation.ReflTransGen (fun a b => (s.pages a).bind Page.nextFreePage = some b) head r

theorem onChain_iff (hl : Lists cs s.root s.links ch all) (i : ℕ) : OnChain s i r ↔ r ∈ ch i := by
  have hnext : (fun a b => (s.pages a).bind Page.nextFreePage = some b) =
      fun a b => nextFree s.links a = some b := by
    funext a b
    simp only [nextFree, Store.links, Option.bind_map]
    rfl
  unfold OnChain
  rw [hnext]
  constructor
  · rintro ⟨head, hi, hreach⟩
    exact ((hl.chain i _ hi).mem_iff).mpr hreach
  · intro hr
    have hi := hl.lt_length_of_mem hr
    have hlk := hl.chain i _ (List.getElem?_eq_getElem hi)
    rcases hh : s.root.slots[i] with _ | head
    · rw [hh] at hlk
      cases hc : ch i with
      | nil => rw [hc] at hr; simp at hr
      | cons a l => rw [hc] at hlk; exact absurd hlk.1 (by simp)
    · refine ⟨head, by rw [List.getElem?_eq_getElem hi, hh], ?_⟩
      rw [hh] at hlk
      exact hlk.mem_iff.mp hr

theorem purge_eq_of_not_purged {d : DataPage} {slotIndex : ℕ} {trxRef : BitVec 64} {p p' : Page}
    (h : d.purge slotIndex trxRef p = some (p', false)) : p' = p := by
  unfold DataPage.purge at h
  split_ifs at h with h1 h2 h3
  all_goals
    simp only [Option.some.injEq, Prod.mk.injEq, reduceCtorEq, and_false, and_true] at h
  all_goals exact h.symm

/-- A purge that frees the record of an off-chain page finds the page in need
of a free list, before and after. -/
theorem needsAdd_of_single {d : DataPage} {slotIndex : ℕ} {trxRef : BitVec 64} {p p' : Page}
    (hinv : p.freeSlotNumber = DataPage.invalidSlot) (hone : p.maxNumRecs = 1)
    (h : d.purge slotIndex trxRef p = some (p', true)) (hfree : p'.numFreeRecs ≠ 0) :
    DataPage.needsAddToFreeList p true ∧ DataPage.needsAddToFreeList p' false := by
  have hlinks := links_purge h
  have hinv' : p'.freeSlotNumber = DataPage.invalidSlot := by
    rw [← hinv]
    exact congrArg PageLinks.freeSlotNumber hlinks
  have hone' : p'.maxNumRecs = 1 := by
    rw [← hone]
    exact congrArg PageLinks.maxNumRecs hlinks
  unfold DataPage.needsAddToFreeList DataPage.minFreePercentForFreeList
  simp only [hinv, hone, hinv', hone']
  constructor
  · by_cases h0 : p.numFreeRecs < 1 <;> simp [h0] <;> omega
  · simp
    omega

/-- **The free slot number is faithful** as long as no call fills a page of a
chain: in every state reached it is set exactly on the pages of its slot's
chain, and a purge that frees a record and leaves more than a fifth of the
page free leaves the page on a chain. -/
theorem free_slot_number_faithful (h : Reaches Fresh (Step cs (KeepsRoom cs)) s) :
    (∀ r p, s.pages r = some p →
      (p.freeSlotNumber ≠ DataPage.invalidSlot ↔ OnChain s p.freeSlotNumber r)) ∧
    (∀ rand trxRef colRef s' p p', cs.purge rand trxRef colRef s = (.ok (), s') →
      s.pages (DataPage.decodeColumnRef colRef).1 = some p →
      s'.pages (DataPage.decodeColumnRef colRef).1 = some p' →
      (DataPage.getRecordStatus p (DataPage.decodeColumnRef colRef).2).2 = false →
      (DataPage.getRecordStatus p' (DataPage.decodeColumnRef colRef).2).2 = true →
      20 * p'.maxNumRecs < 100 * p'.numFreeRecs →
      ∃ i, OnChain s' i (DataPage.decodeColumnRef colRef).1) := by
  obtain ⟨ch, all, hl, hf⟩ := reaches_lists h
  replace hf := hf fun _ _ h => h
  refine ⟨fun r p hp => ?_, fun rand trxRef colRef s' p p' hpurge hp hp' hocc hfree hpct => ?_⟩
  · have hlr : s.links r = some p.links := by simp [Store.links, hp]
    rw [onChain_iff hl]
    constructor
    · intro hne
      rcases hf r _ hlr with ⟨i, hi⟩ | ⟨hinv, -⟩
      · have hnum := hl.number i r hi
        rw [hlr, Option.map_some, Option.some.injEq] at hnum
        rw [show p.freeSlotNumber = i from hnum]
        exact hi
      · exact absurd hinv hne
    · intro hr hinv
      exact not_mem_chain_of_invalid hl hlr hinv _ hr
  · obtain ⟨p₀, p₁, purged, s₁, hp₀, hpurge₁, hroot, hpages, hend⟩ := purge_cases hpurge
    set r := (DataPage.decodeColumnRef colRef).1 with hr
    obtain rfl : p = p₀ := Option.some.inj (hp.symm.trans hp₀)
    have hp₁ : s₁.pages r = some p₁ := by simp [hpages, hp]
    have hlinks : s₁.links = s.links := links_purged hp hpurge₁ hpages
    have hl₁ : Lists cs s₁.root s₁.links ch all := by rw [hroot, hlinks]; exact hl
    have hlr : s₁.links r = some p₁.links := by simp [Store.links, hp₁]
    split at hend
    · rename_i hc
      obtain ⟨e, h1⟩ := hend
      have hin : r ∈ all := (hl₁.mem_all r).mpr (by simp [hlr])
      have hi : RootPage.getFreeSlot rand s.root < s₁.root.slots.length := by
        rw [hroot]
        exact getFreeSlot_lt hl.slots_pos
      have hl' := addFreePage_lists hl₁ hin
        (not_mem_chain_of_invalid hl₁ hlr (freeSlotNumber_of_needsAdd hc.2.2)) hi h1
      exact ⟨_, (onChain_iff hl' _).mpr (by rw [Function.update_self]; exact List.mem_cons_self)⟩
    · rename_i hc
      subst hend
      obtain rfl : p' = p₁ := Option.some.inj (hp'.symm.trans hp₁)
      rcases hf r _ (hlinks ▸ hlr) with ⟨i, hi⟩ | ⟨hinv, hone⟩
      · exact ⟨i, (onChain_iff hl₁ i).mpr hi⟩
      · -- an off-chain page would have been added
        exfalso
        have hlinks' := links_purge hpurge₁
        rw [hlinks'] at hinv hone
        cases purged with
        | false =>
          rw [purge_eq_of_not_purged hpurge₁, hocc] at hfree
          exact absurd hfree (by simp)
        | true =>
          have hadd := needsAdd_of_single hinv hone hpurge₁ (by omega)
          exact hc ⟨hadd.1, rfl, hadd.2⟩

/-! A page filled to the last record: two records of 500 dimensions fill a page
of 4096 bytes. -/

/-- A store of `SVECTOR(500)` on 4K pages. -/
def smallStore : ColumnStore := ⟨1, 4, 4, RootPage.init .k4 2000 1 1 7, ⟨2008, 1, 2, 59⟩⟩

theorem smallStore_init : ColumnStore.init .k4 1 4 4 2000 1 1 7 = some smallStore := by
  unfold ColumnStore.init smallStore
  rw [show DataPage.init .k4 2000 = some ⟨2008, 1, 2, 59⟩ by decide]
  rfl

def emptyStore : Store := ⟨RootFrame.format, fun _ => none, ⟨0, none, 0, 0⟩, []⟩

/-- An insert into the small store; a page the segment hands out is page 5. -/
def smallInsert : Call := .insert ⟨0, 0, 1, 5⟩ 7 (some (List.replicate 2000 0))

/-- The small store after one insert, after two, and after a purge of the
first record. -/
def smallRun1 : Store := (smallStore.call smallInsert emptyStore).2
def smallRun2 : Store := (smallStore.call smallInsert smallRun1).2
def smallRun3 : Store := (smallStore.purge 0 7 5 smallRun2).2

theorem reaches_emptyStore {allow : Call → Store → Prop} :
    Reaches Fresh (Step smallStore allow) emptyStore := .init ⟨rfl, fun _ => rfl⟩

theorem reaches_smallRun1 {allow : Call → Store → Prop} (h : allow smallInsert emptyStore) :
    Reaches Fresh (Step smallStore allow) smallRun1 := by
  have hok : (smallStore.call smallInsert emptyStore).1 = .ok (some 5) := by decide +kernel
  exact .step reaches_emptyStore (.call smallInsert (some 5) h (Prog.returns_of_fst hok))

theorem reaches_smallRun2 : Reaches Fresh (Step smallStore fun _ _ => True) smallRun2 := by
  have hok : (smallStore.call smallInsert smallRun1).1 = .ok (some (DataPage.encodeColumnRef 5 1)) := by
    decide +kernel
  exact .step (reaches_smallRun1 trivial) (.call smallInsert _ trivial (Prog.returns_of_fst hok))

theorem smallRun3_purge : smallStore.purge 0 7 5 smallRun2 = (.ok (), smallRun3) :=
  Prog.returns_of_fst (by decide +kernel)

theorem call_purge_returns {rand colRef : ℕ} {trxRef : BitVec 64}
    (h : cs.purge rand trxRef colRef s = (.ok (), s')) :
    cs.call (.purge rand trxRef colRef) s = (.ok none, s') :=
  Prog.map_returns.mpr ⟨(), h, rfl⟩

theorem reaches_smallRun3 : Reaches Fresh (Step smallStore fun _ _ => True) smallRun3 :=
  .step reaches_smallRun2 (.call _ none trivial (call_purge_returns smallRun3_purge))

/-- The number is faithful after the first insert. -/
theorem free_slot_number_first_insert : ∃ p, smallRun1.pages 5 = some p ∧
    p.freeSlotNumber ≠ DataPage.invalidSlot ∧ OnChain smallRun1 p.freeSlotNumber 5 := by
  have hmap : (smallRun1.pages 5).map Page.freeSlotNumber = some 0 := by decide +kernel
  obtain ⟨p, hp, hnum⟩ := Option.map_eq_some_iff.mp hmap
  have hroom : KeepsRoom smallStore smallInsert emptyStore := by
    intro r p _ hp
    simp [emptyStore] at hp
  have hne : p.freeSlotNumber ≠ DataPage.invalidSlot := by
    rw [hnum]
    decide
  exact ⟨p, hp, hne, ((free_slot_number_faithful (reaches_smallRun1 hroom)).1 5 p hp).mp hne⟩

/-- **A page that fills up is lost.** Two inserts fill page 5 and take it off
its chain; a purge then frees half of it, and it is on no chain, with the
number of slot 0 still on it. -/
theorem filled_page_is_lost : ColumnStore.init .k4 1 4 4 2000 1 1 7 = some smallStore ∧
    Reaches Fresh (Step smallStore fun _ _ => True) smallRun2 ∧
    smallStore.purge 0 7 5 smallRun2 = (.ok (), smallRun3) ∧
    ∃ p p', smallRun2.pages 5 = some p ∧ smallRun3.pages 5 = some p' ∧
      (DataPage.getRecordStatus p 0).2 = false ∧ (DataPage.getRecordStatus p' 0).2 = true ∧
      20 * p'.maxNumRecs < 100 * p'.numFreeRecs ∧
      p'.freeSlotNumber ≠ DataPage.invalidSlot ∧ ∀ i, ¬ OnChain smallRun3 i 5 := by
  have h2 : (smallRun2.pages 5).map (fun p => (DataPage.getRecordStatus p 0).2) = some false := by
    decide +kernel
  have h3 : (smallRun3.pages 5).map (fun p => ((DataPage.getRecordStatus p 0).2, p.maxNumRecs,
      p.numFreeRecs, p.freeSlotNumber)) = some (true, 2, 1, 0) := by decide +kernel
  obtain ⟨p, hp, hocc⟩ := Option.map_eq_some_iff.mp h2
  obtain ⟨p', hp', hrest⟩ := Option.map_eq_some_iff.mp h3
  simp only [Prod.mk.injEq] at hrest
  obtain ⟨hfree, hmax, hnum, hslot⟩ := hrest
  refine ⟨smallStore_init, reaches_smallRun2, smallRun3_purge, p, p', hp, hp', hocc, hfree, ?_, ?_, ?_⟩
  · rw [hmax, hnum]
    decide
  · rw [hslot]
    decide
  · rintro i ⟨head, hi, -⟩
    have hslots : smallRun3.root.slots = [none] := by decide +kernel
    rw [hslots] at hi
    match i with
    | 0 => simp at hi
    | i + 1 => simp at hi

/-- The lists after the page filled up and a record of it was purged. -/
theorem lists_smallRun3 : ∃ all : List ℕ,
    Linked (fun r => (smallRun3.pages r).bind Page.prev) (fun r => (smallRun3.pages r).bind Page.next)
      none smallRun3.root.head all ∧ smallRun3.root.totalDataPages = all.length := by
  obtain ⟨-, all, -, -, -, hall, -, -, -, hdata⟩ := reachable_lists reaches_smallRun3
  exact ⟨all, hall, hdata⟩

end ColumnStore

end VsqlVector
