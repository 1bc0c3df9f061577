/-
# Calls that fail

A page written under an mtr stays written, so a call of a column store that may
still fail must not have written yet. `add_free_page`, `remove_free_page` and
`add_data_page` load every page they need before they change one, and say so.

An insert keeps to this: where it allocates a page, the slot the page goes to is
empty, so the last of its steps loads nothing. A purge does not: it frees the
record first and then lets `add_free_page` load the page at the head of the free
slot (`failed_purge_unchanged_iff`).

Key definitions: `Unchanged`, `RelinksInVain`.
Key theorem: `failed_calls_unchanged_iff`.
-/
import VsqlVector.Storage.FreeList

namespace VsqlVector

namespace StoreProg

variable {s s' : Store} {e e' : StorageError} {r : ℕ}

/-- A call takes the next fault. -/
theorem tick_eq (e : StorageError) (s : Store) : tick e s =
    (if s.faults[0]? = some true then .error e else .ok (), { s with faults := s.faults.drop 1 }) := by
  obtain ⟨root, pages, info, faults⟩ := s
  match faults with
  | [] => simp [tick]
  | false :: _ => simp [tick]
  | true :: _ => simp [tick]

theorem tick_fails (h : tick e s = (.error e', s')) : s.faults[0]? = some true ∧ ∃ fs, s' = { s with faults := fs } := by
  rw [tick_eq] at h
  split at h
  · rename_i hfault
    exact ⟨hfault, _, (Prod.mk.inj h).2.symm⟩
  · cases (Prod.mk.inj h).1

theorem tick_ok {u : Unit} (h : tick e s = (.ok u, s')) :
    s.faults[0]? ≠ some true ∧ s' = { s with faults := s.faults.drop 1 } := by
  rw [tick_eq] at h
  split at h
  · cases (Prod.mk.inj h).1
  · rename_i hfault
    exact ⟨hfault, (Prod.mk.inj h).2.symm⟩

theorem load_ok {p : Page} (h : load e r s = (.ok p, s')) :
    s.faults[0]? ≠ some true ∧ s' = { s with faults := s.faults.drop 1 } := by
  obtain ⟨u, s1, h1, h2⟩ := Prog.bind_returns.mp h
  obtain ⟨hfault, rfl⟩ := tick_ok h1
  rw [Prog.get_bind] at h2
  exact ⟨hfault, (Prog.ofOption_returns.mp h2).2⟩

theorem load_fails (h : load e r s = (.error e', s')) :
    (s.faults[0]? = some true ∨ s.pages r = none) ∧ ∃ fs, s' = { s with faults := fs } := by
  rcases Prog.bind_fails.mp h with h1 | ⟨u, s1, h1, h2⟩
  · obtain ⟨hfault, fs, rfl⟩ := tick_fails h1
    exact ⟨.inl hfault, fs, rfl⟩
  · obtain ⟨fs, rfl⟩ := tick_returns h1
    rw [Prog.get_bind] at h2
    cases hp : s.pages r with
    | none =>
      simp only [hp, Prog.ofOption, Prog.fail_apply, Prod.mk.injEq] at h2
      exact ⟨.inr rfl, fs, h2.2.symm⟩
    | some p => simp [hp, Prog.ofOption] at h2

theorem loadLinked_fails {l : Option ℕ} (h : loadLinked e l s = (.error e', s')) :
    (∃ r, l = some r ∧ (s.faults[0]? = some true ∨ s.pages r = none)) ∧ ∃ fs, s' = { s with faults := fs } := by
  cases l with
  | none => simp [loadLinked] at h
  | some r =>
    rcases Prog.bind_fails.mp h with h1 | ⟨p, s1, -, h2⟩
    · obtain ⟨hwhy, hstate⟩ := load_fails h1
      exact ⟨⟨r, rfl, hwhy⟩, hstate⟩
    · simp at h2

theorem tick_run (h : s.faults[0]? ≠ some true) : tick e s = (.ok (), { s with faults := s.faults.drop 1 }) := by
  rw [tick_eq, if_neg h]

theorem load_run {p : Page} (h : s.faults[0]? ≠ some true) (hp : s.pages r = some p) :
    load e r s = (.ok p, { s with faults := s.faults.drop 1 }) := by
  rw [load, Prog.bind_apply, tick_run h]
  simp [hp, Prog.ofOption]

/-- A page that is not there, or whose load fails. -/
theorem loadLinked_vain (h : s.faults[0]? = some true ∨ s.pages r = none) :
    ∃ fs, loadLinked e (some r) s = (.error e, { s with faults := fs }) := by
  by_cases hfault : s.faults[0]? = some true
  · refine ⟨s.faults.drop 1, ?_⟩
    rw [loadLinked, Prog.bind_apply, load, Prog.bind_apply, tick_eq, if_pos hfault]
  · have hp := h.resolve_left hfault
    refine ⟨s.faults.drop 1, ?_⟩
    rw [loadLinked, Prog.bind_apply, load, Prog.bind_apply, tick_run hfault]
    simp [hp, Prog.ofOption]

theorem readPage_fails (h : readPage r s = (.error e', s')) : s.pages r = none ∧ s' = s := by
  unfold readPage at h
  rw [Prog.get_bind] at h
  cases hp : s.pages r with
  | none =>
    simp only [hp, Prog.ofOption, Prog.fail_apply, Prod.mk.injEq] at h
    exact ⟨rfl, h.2.symm⟩
  | some p => simp [hp, Prog.ofOption] at h

theorem loadNew_fails {cs : ColumnStore} (h : loadNew e cs r s = (.error e', s')) :
    ∃ fs, s' = { s with faults := fs } := by
  rcases Prog.bind_fails.mp h with h1 | ⟨u, s1, h1, h2⟩
  · obtain ⟨-, fs, rfl⟩ := tick_fails h1
    exact ⟨fs, rfl⟩
  · obtain ⟨fs, rfl⟩ := tick_returns h1
    rw [Prog.get_bind] at h2
    split at h2
    · simp at h2
    · simp only [Prog.fail_apply, Prod.mk.injEq] at h2
      exact ⟨fs, h2.2.symm⟩

end StoreProg

namespace RootPage

open StoreProg

variable {cs : ColumnStore} {s s' : Store} {e e' : StorageError} {r i : ℕ}

/-! ### The changes of the lists load first -/

/-- `add_free_page` fails before it writes, and only where the slot has a chain. -/
theorem addFreePage_fails (h : addFreePage cs r i e s = (.error e', s')) :
    (∃ r, (s.root.slots[i]?).join = some r ∧ (s.faults[0]? = some true ∨ s.pages r = none)) ∧
      ∃ fs, s' = { s with faults := fs } := by
  rw [addFreePage, Prog.get_bind] at h
  rcases Prog.bind_fails.mp h with h1 | ⟨u, s1, -, h2⟩
  · exact loadLinked_fails h1
  · simp only [modifyLinked, modifyRoot, modifyPage, Prog.modify_bind, Prog.modify_apply, Prod.mk.injEq, reduceCtorEq,
      false_and] at h2

theorem addDataPage_fails (h : addDataPage r e s = (.error e', s')) : ∃ fs, s' = { s with faults := fs } := by
  rw [addDataPage, Prog.get_bind] at h
  rcases Prog.bind_fails.mp h with h1 | ⟨u, s1, -, h2⟩
  · exact (loadLinked_fails h1).2
  · simp only [modifyLinked, modifyRoot, modifyPage, Prog.modify_bind, Prog.modify_apply, Prod.mk.injEq, reduceCtorEq,
      false_and] at h2

theorem removeFreePage_fails (h : removeFreePage cs r e s = (.error e', s')) :
    ∃ fs, s' = { s with faults := fs } := by
  rcases Prog.bind_fails.mp h with h1 | ⟨p, s1, h1, hrest⟩
  · obtain ⟨-, rfl⟩ := readPage_fails h1
    exact ⟨s'.faults, rfl⟩
  obtain ⟨-, rfl⟩ := readPage_returns h1
  rcases Prog.bind_fails.mp hrest with h2 | ⟨u2, s2, h2, hrest⟩
  · exact (loadLinked_fails h2).2
  obtain ⟨-, fs, rfl⟩ := loadLinked_returns h2
  rcases Prog.bind_fails.mp hrest with h3 | ⟨u3, s3, -, hwrites⟩
  · obtain ⟨-, fs', rfl⟩ := loadLinked_fails h3
    exact ⟨fs', rfl⟩
  · simp only [modifyLinked, modifyRoot, modifyPage, Prog.modify_bind, Prog.modify_apply, Prod.mk.injEq, reduceCtorEq,
      false_and] at hwrites

/-- The thread remembers the slot selected. -/
theorem selectSlot_number (cs : ColumnStore) (f : RootFrame) (rand : ℕ) (info : LastSlotInfo) :
    (selectSlot cs f rand info).2.slotNumber = (selectSlot cs f rand info).1 := by
  unfold selectSlot
  split
  · rename_i slot hc
    unfold getCachedSlotNumber at hc
    split_ifs at hc with h1 h2 h3
    exact Option.some.inj hc
  · rfl

end RootPage

namespace ColumnStore

open StoreProg

variable {cs : ColumnStore} {env : InsertEnv} {s s' s₁ : Store} {e : StorageError} {r : ℕ}

/-- What a call that fails may leave different: more empty free slots, and the page
`fresh` that was allocated and never registered. -/
structure Unchanged (fresh : Option ℕ) (s s' : Store) : Prop where
  root : ∃ k, s'.root = { s.root with slots := s.root.slots ++ List.replicate k none }
  pages : ∀ r, s'.pages r = s.pages r ∨ (fresh = some r ∧ s.pages r = none)

namespace Unchanged

variable {fresh : Option ℕ}

theorem of_eq (hroot : s'.root = s.root) (hpages : s'.pages = s.pages) : Unchanged fresh s s' :=
  ⟨⟨0, by simp [hroot]⟩, fun r => .inl (by rw [hpages])⟩

theorem of_same (h : Unchanged fresh s₁ s') (hroot : s₁.root = s.root) (hpages : s₁.pages = s.pages) :
    Unchanged fresh s s' := by
  obtain ⟨k, hk⟩ := h.root
  exact ⟨⟨k, by rw [hk, hroot]⟩, fun r => by rw [← hpages]; exact h.pages r⟩

/-- With the slot array grown before. -/
theorem grown (h : Unchanged fresh s₁ s') (hroot : MayGrow cs s.root s₁.root) (hpages : s₁.pages = s.pages) :
    Unchanged fresh s s' := by
  obtain ⟨k, hk⟩ := h.root
  refine ⟨?_, fun r => by rw [← hpages]; exact h.pages r⟩
  rcases hroot with heq | heq
  · exact ⟨k, by rw [hk, heq]⟩
  · have hslots : ∃ n, s₁.root = { s.root with slots := s.root.slots ++ List.replicate n none } := ⟨_, heq⟩
    obtain ⟨n, hn⟩ := hslots
    exact ⟨n + k, by rw [hk, hn, List.append_assoc, List.replicate_append_replicate]⟩

end Unchanged

/-! ### Inserts -/

theorem tickPrimary_fails {e' : StorageError} (h : tickPrimary cs e s = (.error e', s')) :
    ∃ fs, s' = { s with faults := fs } := by
  unfold tickPrimary at h
  split at h
  · obtain ⟨-, fs, rfl⟩ := tick_fails h
    exact ⟨fs, rfl⟩
  · simp at h

/-- A new page that fails to be registered is in no list. Its slot has no chain, so
nothing is left to load once it is in the list of all pages. -/
theorem insertNewPage_fails (hslot : (s.root.slots[s.lastSlotInfo.slotNumber]?).join = none)
    (h : insertNewPage cs r s = (.error e, s')) : Unchanged (some r) s s' := by
  rcases Prog.bind_fails.mp h with h1 | ⟨u1, s1, h1, h⟩
  · obtain ⟨fs, rfl⟩ := tickPrimary_fails h1
    exact .of_eq rfl rfl
  obtain ⟨fs, rfl⟩ := tickPrimary_returns h1
  rcases Prog.bind_fails.mp h with h2 | ⟨u2, s2, h2, h⟩
  · obtain ⟨fs, rfl⟩ := loadNew_fails h2
    exact .of_eq rfl rfl
  obtain ⟨hnone, -, -, fs, rfl⟩ := loadNew_returns h2
  have hfresh {f : RootFrame} {pages : ℕ → Option Page} {info : LastSlotInfo} {fs : List Bool} (hf : f = s.root)
      (hpages : ∀ q, q ≠ r → pages q = s.pages q) : Unchanged (some r) s ⟨f, pages, info, fs⟩ := by
    refine ⟨⟨0, by simp [hf]⟩, fun q => ?_⟩
    by_cases hq : q = r
    · exact .inr ⟨by rw [hq], by rw [hq]; exact hnone⟩
    · exact .inl (hpages q hq)
  rcases Prog.bind_fails.mp h with h3 | ⟨u3, s3, h3, h⟩
  · obtain ⟨fs, rfl⟩ := tickPrimary_fails h3
    exact hfresh rfl fun q hq => Function.update_of_ne hq _ _
  obtain ⟨fs, rfl⟩ := tickPrimary_returns h3
  simp only [modifyPage, Prog.modify_bind] at h
  rcases Prog.bind_fails.mp h with h4 | ⟨u4, s4, h4, h⟩
  · obtain ⟨fs, rfl⟩ := RootPage.addDataPage_fails h4
    exact hfresh rfl fun q hq => by simp [hq]
  -- from here on nothing fails
  exfalso
  obtain ⟨fs, rfl⟩ := RootPage.addDataPage_returns h4
  rcases Prog.bind_fails.mp h with h5 | ⟨p, s5, h5, h⟩
  · have := (readPage_fails h5).1
    simp [RootPage.pushData] at this
  obtain ⟨-, rfl⟩ := readPage_returns h5
  rw [Prog.get_bind] at h
  split at h
  · simp at h
  · obtain ⟨⟨r', hhead, -⟩, -⟩ := RootPage.addFreePage_fails h
    exact Option.some_ne_none _ (hhead.symm.trans hslot)

theorem insertSelected_fails {sel : Option ℕ}
    (hslot : sel = none → (s.root.slots[s.lastSlotInfo.slotNumber]?).join = none)
    (h : insertSelected cs env sel s = (.error e, s')) : Unchanged (some env.newRef) s s' := by
  cases sel with
  | none =>
    rcases Prog.bind_fails.mp h with h1 | ⟨u, s1, -, h2⟩
    · exact insertNewPage_fails (hslot rfl) h1
    · simp at h2
  | some r =>
    rcases Prog.bind_fails.mp h with h1 | ⟨p, s1, h1, h⟩
    · obtain ⟨-, fs, rfl⟩ := load_fails h1
      exact .of_eq rfl rfl
    obtain ⟨-, fs, rfl⟩ := load_returns h1
    split at h
    · rcases Prog.bind_fails.mp h with h2 | ⟨u, s2, -, h3⟩
      · obtain ⟨fs', rfl⟩ := RootPage.removeFreePage_fails h2
        exact .of_eq rfl rfl
      · simp at h3
    · simp at h

theorem insertPessimistic_fails {grow : Bool} (h : insertPessimistic cs env grow s = (.error e, s')) :
    Unchanged (some env.newRef) s s' := by
  rcases Prog.bind_fails.mp h with h1 | ⟨u1, s1, h1, h⟩
  · obtain ⟨-, fs, rfl⟩ := tick_fails h1
    exact .of_eq rfl rfl
  obtain ⟨fs, rfl⟩ := tick_returns h1
  rcases Prog.bind_fails.mp h with h2 | ⟨u2, s2, h2, h⟩
  · obtain ⟨-, fs, rfl⟩ := tick_fails h2
    exact .of_eq rfl rfl
  obtain ⟨fs, rfl⟩ := tick_returns h2
  set f := if grow then cs.root.growFreeSlots s.root else s.root with hf
  have hgrow : MayGrow cs s.root f := by
    rw [hf]
    split
    · exact Or.inr rfl
    · exact Or.inl rfl
  change (RootPage.pageSelect cs env.pessimisticRand >>= insertSelected cs env)
    { s with root := f, faults := fs } = _ at h
  rw [Prog.bind_apply, RootPage.pageSelect_apply] at h
  have hsel := insertSelected_fails (fun hnone => by rw [RootPage.selectSlot_number]; exact hnone) h
  exact hsel.grown hgrow rfl

theorem insertOptimistic_fails {sel : Option ℕ} (h : insertOptimistic cs env sel s = (.error e, s')) :
    Unchanged (some env.newRef) s s' := by
  cases sel with
  | none => exact insertPessimistic_fails h
  | some r =>
    rcases Prog.bind_fails.mp h with h1 | ⟨p, s1, h1, h⟩
    · obtain ⟨-, fs, rfl⟩ := load_fails h1
      exact .of_eq rfl rfl
    obtain ⟨-, fs, rfl⟩ := load_returns h1
    split at h
    · rcases Prog.bind_fails.mp h with h2 | ⟨u, s2, h2, h3⟩
      · obtain ⟨-, fs', rfl⟩ := tick_fails h2
        exact .of_eq rfl rfl
      · obtain ⟨fs', rfl⟩ := tick_returns h2
        have hrest := insertPessimistic_fails h3
        exact hrest.of_same rfl rfl
    · rcases Prog.bind_fails.mp h with h2 | ⟨u, s2, -, h3⟩
      · obtain ⟨-, fs', rfl⟩ := tick_fails h2
        exact .of_eq rfl rfl
      · simp at h3

theorem insertPage_fails (h : insertPage cs env s = (.error e, s')) : Unchanged (some env.newRef) s s' := by
  rcases Prog.bind_fails.mp h with h1 | ⟨u1, s1, h1, h⟩
  · obtain ⟨-, fs, rfl⟩ := tick_fails h1
    exact .of_eq rfl rfl
  obtain ⟨fs, rfl⟩ := tick_returns h1
  rw [Prog.bind_apply, RootPage.pageSelect_apply] at h
  simp only [Prog.get_bind] at h
  set s₁ : Store :=
    { s with faults := fs, lastSlotInfo := (RootPage.selectSlot cs s.root env.rand s.lastSlotInfo).2 } with hs₁
  have hrest : Unchanged (some env.newRef) s₁ s' := by
    split at h
    · exact insertPessimistic_fails h
    · exact insertOptimistic_fails h
  exact hrest.of_same rfl rfl

/-! The page an insert comes to is there. -/

theorem insertNewPage_present {u : Unit} (h : insertNewPage cs r s = (.ok u, s')) : (s'.pages r).isSome := by
  obtain ⟨-, -, -, s₁, -, -, hpages, ⟨-, rfl⟩ | ⟨-, e, hadd⟩⟩ := insertNewPage_cases h
  · simp [hpages, RootPage.pushData]
  · obtain ⟨fs, rfl⟩ := RootPage.addFreePage_returns hadd
    simp [hpages, RootPage.pushFree, RootPage.pushData]

theorem insertSelected_present {sel : Option ℕ} (h : insertSelected cs env sel s = (.ok r, s')) :
    (s'.pages r).isSome := by
  cases sel with
  | none =>
    obtain ⟨u, s1, h1, h2⟩ := Prog.bind_returns.mp h
    simp only [Prog.pure_apply, Prod.mk.injEq, Except.ok.injEq] at h2
    obtain ⟨rfl, rfl⟩ := h2
    exact insertNewPage_present h1
  | some r' =>
    obtain ⟨p, s1, h1, h2⟩ := Prog.bind_returns.mp h
    obtain ⟨hp, fs, rfl⟩ := load_returns h1
    split at h2
    · obtain ⟨u, s2, h3, h4⟩ := Prog.bind_returns.mp h2
      simp only [Prog.pure_apply, Prod.mk.injEq, Except.ok.injEq] at h4
      obtain ⟨rfl, rfl⟩ := h4
      obtain ⟨p', fs', hp', rfl⟩ := RootPage.removeFreePage_returns h3
      simp [RootPage.popFree, hp]
    · simp only [Prog.pure_apply, Prod.mk.injEq, Except.ok.injEq] at h2
      obtain ⟨rfl, rfl⟩ := h2
      simp [hp]

theorem insertPessimistic_present {grow : Bool} (h : insertPessimistic cs env grow s = (.ok r, s')) :
    (s'.pages r).isSome := by
  obtain ⟨u1, s1, -, h2⟩ := Prog.bind_returns.mp h
  obtain ⟨u2, s2, -, h4⟩ := Prog.bind_returns.mp h2
  obtain ⟨u3, s3, -, h6⟩ := Prog.bind_returns.mp h4
  obtain ⟨sel, s4, -, h8⟩ := Prog.bind_returns.mp h6
  exact insertSelected_present h8

theorem insertOptimistic_present {sel : Option ℕ} (h : insertOptimistic cs env sel s = (.ok r, s')) :
    (s'.pages r).isSome := by
  cases sel with
  | none => exact insertPessimistic_present h
  | some r' =>
    obtain ⟨p, s1, h1, h2⟩ := Prog.bind_returns.mp h
    obtain ⟨hp, fs, rfl⟩ := load_returns h1
    split at h2
    · obtain ⟨u, s2, -, h4⟩ := Prog.bind_returns.mp h2
      exact insertPessimistic_present h4
    · obtain ⟨u, s2, h3, h4⟩ := Prog.bind_returns.mp h2
      obtain ⟨fs', rfl⟩ := tick_returns h3
      simp only [Prog.pure_apply, Prod.mk.injEq, Except.ok.injEq] at h4
      obtain ⟨rfl, rfl⟩ := h4
      simp [hp]

theorem insertPage_present (h : insertPage cs env s = (.ok r, s')) : (s'.pages r).isSome := by
  obtain ⟨u1, s1, -, h2⟩ := Prog.bind_returns.mp h
  obtain ⟨sel, s2, -, h4⟩ := Prog.bind_returns.mp h2
  rw [Prog.get_bind] at h4
  split at h4
  · exact insertPessimistic_present h4
  · exact insertOptimistic_present h4

/-- An insert that fails has not begun to write its record. -/
theorem insert_fails {trxRef : BitVec 64} {colData : Option (List (BitVec 8))}
    (h : cs.insert env trxRef colData s = (.error e, s')) : Unchanged (some env.newRef) s s' := by
  cases colData with
  | none =>
    obtain ⟨-, rfl⟩ := Prod.mk.inj h
    exact .of_eq rfl rfl
  | some data =>
    unfold insert at h
    dsimp only at h
    split at h
    · obtain ⟨-, rfl⟩ := Prod.mk.inj h
      exact .of_eq rfl rfl
    · rcases Prog.bind_fails.mp h with h1 | ⟨r, s1, h1, h2⟩
      · exact insertPage_fails h1
      · exfalso
        rcases Prog.bind_fails.mp h2 with h3 | ⟨p, s2, -, h4⟩
        · have := insertPage_present h1
          rw [(readPage_fails h3).1] at this
          cases this
        · simp only [modifyPage, Prog.modify_bind, Prog.get_bind, Prog.pure_apply, Prod.mk.injEq, reduceCtorEq,
            false_and] at h4

/-! ### Purges -/

/-- The purge frees a record and has to put its page back on a chain, and the page at
the head of that chain fails to load. This is the fifth call of the page API; the four
before it, for the data page, the root page and the data page again, succeed. -/
structure RelinksInVain (cs : ColumnStore) (rand : ℕ) (trxRef : BitVec 64) (colRef : ℕ) (s : Store)
    (p : Page) (head : ℕ) : Prop where
  page : s.pages (DataPage.decodeColumnRef colRef).1 = some p
  slot : (DataPage.decodeColumnRef colRef).2 < cs.data.maxNumRecs
  occupied : (DataPage.getRecordStatus p (DataPage.decodeColumnRef colRef).2).2 = false
  stamp : p.readInteger8 (cs.data.getRecordOffset (DataPage.decodeColumnRef colRef).2) = trxRef
  before : DataPage.needsAddToFreeList p true
  after : DataPage.needsAddToFreeList { p with numFreeRecs := (p.numFreeRecs + 1) % 2 ^ 16 } false
  head_eq : (s.root.slots[RootPage.getFreeSlot rand s.root]?).join = some head
  calls : ∀ i < 4, s.faults[i]? ≠ some true
  load : s.faults[4]? = some true ∨ s.pages head = none

variable {rand colRef : ℕ} {trxRef : BitVec 64}

theorem purgeRelatch_fails {b : Bool} (h : purgeRelatch r b s = (.error e, s')) : ∃ fs, s' = { s with faults := fs } := by
  unfold purgeRelatch at h
  split at h
  · rcases Prog.bind_fails.mp h with h1 | ⟨u1, s1, h1, h⟩
    · exact (tick_fails h1).2
    obtain ⟨fs, rfl⟩ := tick_returns h1
    rcases Prog.bind_fails.mp h with h2 | ⟨u2, s2, h2, h⟩
    · obtain ⟨-, fs', rfl⟩ := tick_fails h2
      exact ⟨fs', rfl⟩
    obtain ⟨fs', rfl⟩ := tick_returns h2
    obtain ⟨-, fs'', rfl⟩ := loadLinked_fails h
    exact ⟨fs'', rfl⟩
  · simp at h

/-- The three calls of step 5. -/
theorem purgeRelatch_ok {u : Unit} (h : purgeRelatch r true s = (.ok u, s')) :
    (∀ i < 3, s.faults[i]? ≠ some true) ∧ s' = { s with faults := s.faults.drop 3 } := by
  obtain ⟨u1, s1, h1, h⟩ := Prog.bind_returns.mp h
  obtain ⟨hf0, rfl⟩ := tick_ok h1
  obtain ⟨u2, s2, h2, h⟩ := Prog.bind_returns.mp h
  obtain ⟨hf1, rfl⟩ := tick_ok h2
  obtain ⟨p, s3, h3, h⟩ := Prog.bind_returns.mp h
  obtain ⟨hf2, rfl⟩ := load_ok h3
  simp only [List.getElem?_drop, Nat.add_zero, List.drop_drop] at hf1 hf2 h
  refine ⟨fun i hi => ?_, (Prod.mk.inj h).2.symm⟩
  match i, hi with
  | 0, _ => exact hf0
  | 1, _ => exact hf1
  | 2, _ => exact hf2

/-- What `DataPage::purge` does where it frees the record. -/
theorem purge_freed {d : DataPage} {slotIndex : ℕ} {p p' : Page}
    (h : d.purge slotIndex trxRef p = some (p', true)) :
    slotIndex < d.maxNumRecs ∧ (DataPage.getRecordStatus p slotIndex).2 = false ∧
      p.readInteger8 (d.getRecordOffset slotIndex) = trxRef ∧
      p' = { DataPage.setRecordFree p slotIndex with numFreeRecs := (p.numFreeRecs + 1) % 2 ^ 16 } := by
  unfold DataPage.purge at h
  split_ifs at h with h1 h2 h3
  · simp at h
  · simp at h
  · simp only [Option.some.injEq, Prod.mk.injEq, and_true] at h
    exact ⟨Nat.lt_of_not_le h1, by simpa using h2, not_not.mp h3, h.symm⟩

/-- A purge that fails after it has freed its record relinks in vain. -/
theorem purge_fails (h : cs.purge rand trxRef colRef s = (.error e, s')) :
    Unchanged none s s' ∨ ∃ p head, RelinksInVain cs rand trxRef colRef s p head := by
  rcases Prog.bind_fails.mp h with h1 | ⟨p, s1, h1, h⟩
  · obtain ⟨-, fs, rfl⟩ := load_fails h1
    exact .inl (.of_eq rfl rfl)
  obtain ⟨hf0, rfl⟩ := load_ok h1
  have hp := (load_returns h1).1
  rcases Prog.bind_fails.mp h with h2 | ⟨u, s2, h2, h⟩
  · obtain ⟨fs, rfl⟩ := purgeRelatch_fails h2
    exact .inl (.of_eq rfl rfl)
  obtain ⟨fs, rfl⟩ := purgeRelatch_returns h2
  rcases Prog.bind_fails.mp h with h3 | ⟨⟨p', purged⟩, s3, h3, h⟩
  · cases hpurge : cs.data.purge (DataPage.decodeColumnRef colRef).2 trxRef p with
    | none =>
      rw [hpurge] at h3
      obtain ⟨-, rfl⟩ := Prod.mk.inj h3
      exact .inl (.of_eq rfl rfl)
    | some res =>
      rw [hpurge] at h3
      cases (Prod.mk.inj h3).1
  obtain ⟨hpurge, rfl⟩ := Prog.ofOption_returns.mp h3
  rw [modifyPage, Prog.modify_bind, Prog.get_bind] at h
  split at h
  · rename_i hc
    obtain ⟨hbefore, hpurged, hafter⟩ := hc
    dsimp only at hpurged
    subst hpurged
    rw [hbefore] at h2
    obtain ⟨hcalls, hs2⟩ := purgeRelatch_ok h2
    obtain ⟨⟨head, hhead, hload⟩, -⟩ := RootPage.addFreePage_fails h
    obtain ⟨hslot, hocc, hstamp, rfl⟩ := purge_freed hpurge
    simp only [Store.mk.injEq, true_and] at hs2
    rw [hs2] at hload
    refine .inr ⟨p, head, hp, hslot, hocc, hstamp, hbefore, hafter, hhead, fun i hi => ?_, ?_⟩
    · rcases i with _ | i
      · exact hf0
      · have := hcalls i (by omega)
        rwa [List.getElem?_drop, Nat.add_comm] at this
    · rcases hload with hfault | hnone
      · left
        simpa using hfault
      · right
        simpa using hnone
  · cases (Prod.mk.inj h).1

theorem purgeRelatch_run {p : Page} (h : ∀ i < 3, s.faults[i]? ≠ some true) (hp : s.pages r = some p) :
    purgeRelatch r true s = (.ok (), { s with faults := s.faults.drop 3 }) := by
  have hf1 : (s.faults.drop 1)[0]? ≠ some true := by
    rw [List.getElem?_drop]
    exact h 1 (by norm_num)
  have hf2 : ((s.faults.drop 1).drop 1)[0]? ≠ some true := by
    rw [List.getElem?_drop, List.getElem?_drop]
    exact h 2 (by norm_num)
  rw [purgeRelatch, if_pos rfl, Prog.bind_apply, tick_run (h 0 (by norm_num))]
  dsimp only
  rw [Prog.bind_apply, tick_run (s := { s with faults := s.faults.drop 1 }) hf1]
  dsimp only
  rw [loadLinked, Prog.bind_apply,
    load_run (s := { s with faults := (s.faults.drop 1).drop 1 }) hf2 hp]
  simp

/-- A purge that relinks in vain has freed its record when it fails. -/
theorem RelinksInVain.purge_fails {p : Page} {head : ℕ} (h : RelinksInVain cs rand trxRef colRef s p head) :
    ∃ e s', cs.purge rand trxRef colRef s = (.error e, s') ∧ ¬ Unchanged none s s' := by
  set r := (DataPage.decodeColumnRef colRef).1 with hr
  set slotIndex := (DataPage.decodeColumnRef colRef).2 with hslot
  set p' : Page := { DataPage.setRecordFree p slotIndex with numFreeRecs := (p.numFreeRecs + 1) % 2 ^ 16 } with hp'
  have hpurge : cs.data.purge slotIndex trxRef p = some (p', true) := by
    unfold DataPage.purge
    rw [if_neg (Nat.not_le_of_lt h.slot), if_neg (by rw [hslot, h.occupied]; simp), if_neg (not_not.mpr h.stamp)]
    rfl
  have hafter : DataPage.needsAddToFreeList p' false := h.after
  have hcalls : ∀ i < 3, (s.faults.drop 1)[i]? ≠ some true := fun i hi => by
    rw [List.getElem?_drop]
    exact h.calls (1 + i) (by omega)
  have hload : ((s.faults.drop 1).drop 3)[0]? = some true ∨
      (s.pages head).map (fun q => if head = r then p' else q) = none := by
    rcases h.load with hfault | hnone
    · left
      simpa using hfault
    · right
      rw [hnone]
      rfl
  obtain ⟨fs, hvain⟩ := loadLinked_vain
    (e := ⟨"purge: failed to add page " ++ toString r ++ " to free list", true⟩)
    (s := { s with pages := fun q => (s.pages q).map fun p => if q = r then p' else p,
                   faults := (s.faults.drop 1).drop 3 }) hload
  have hrun : cs.purge rand trxRef colRef s = (.error ⟨"purge: failed to add page " ++ toString r ++ " to free list", true⟩,
      { s with pages := fun q => (s.pages q).map fun p => if q = r then p' else p, faults := fs }) := by
    unfold purge
    dsimp only
    rw [← hr, ← hslot, Prog.bind_apply, load_run (h.calls 0 (by norm_num)) h.page]
    dsimp only
    rw [h.before, Prog.bind_apply, purgeRelatch_run (s := { s with faults := s.faults.drop 1 }) hcalls h.page]
    dsimp only
    rw [hpurge, Prog.ofOption, Prog.pure_bind, modifyPage, Prog.modify_bind, Prog.get_bind,
      if_pos ⟨rfl, rfl, hafter⟩, RootPage.addFreePage, Prog.get_bind]
    dsimp only
    rw [h.head_eq, Prog.bind_apply, hvain]
  refine ⟨_, _, hrun, fun hun => ?_⟩
  rcases hun.pages r with hsame | ⟨hfresh, -⟩
  · have hfreed : (s.pages r).map (fun p => if r = r then p' else p) = some p' := by
      rw [h.page]
      simp
    have hnum : (p.numFreeRecs + 1) % 2 ^ 16 = p.numFreeRecs :=
      congrArg Page.numFreeRecs (Option.some.inj (hfreed.symm.trans (hsame.trans h.page)))
    omega
  · cases hfresh

/-- **What failed calls leave.** An insert that fails leaves the store as it was, and
so does a purge unless it relinks in vain. -/
theorem failed_calls_unchanged_iff (cs : ColumnStore) (s : Store) :
    (∀ env trxRef colData e s', cs.insert env trxRef colData s = (.error e, s') → Unchanged (some env.newRef) s s') ∧
    ∀ rand trxRef colRef, (∀ e s', cs.purge rand trxRef colRef s = (.error e, s') → Unchanged none s s') ↔
      ¬ ∃ p head, RelinksInVain cs rand trxRef colRef s p head := by
  refine ⟨fun env trxRef colData e s' h => insert_fails h, fun rand trxRef colRef => ⟨?_, ?_⟩⟩
  · rintro hun ⟨p, head, h⟩
    obtain ⟨e, s', hrun, hnot⟩ := h.purge_fails
    exact hnot (hun e s' hrun)
  · intro hnot e s' hrun
    exact (purge_fails hrun).resolve_right hnot

/-! A page of 4096 bytes holds one record of 503 dimensions. Two inserts take the pages
5 and 6; a purge puts page 5 on the chain of the one slot there is, and the purge of
page 6 then has to load it. -/

/-- A store of `SVECTOR(503)` on 4K pages. -/
def wideStore : ColumnStore := ⟨1, 4, 4, RootPage.init .k4 2012 1 1 7, ⟨2020, 1, 1, 59⟩⟩

def wideInsert (newRef : ℕ) : Call := .insert ⟨0, 0, 1, newRef⟩ 7 (some (List.replicate 2012 0))

def wideRun1 : Store := (wideStore.call (wideInsert 5) emptyStore).2
def wideRun2 : Store := (wideStore.call (wideInsert 6) wideRun1).2
def wideRun3 : Store := (wideStore.call (.purge 0 7 5) wideRun2).2

/-- The fifth call of the page API will fail. -/
def wideRun4 : Store := { wideRun3 with faults := [false, false, false, false, true] }

theorem reaches_wideRun4 : Reaches Fresh (Step wideStore fun _ _ => True) wideRun4 := by
  have h1 : (wideStore.call (wideInsert 5) emptyStore).1 = .ok (some 5) := by decide +kernel
  have h2 : (wideStore.call (wideInsert 6) wideRun1).1 = .ok (some 6) := by decide +kernel
  have h3 : (wideStore.call (.purge 0 7 5) wideRun2).1 = .ok none := by decide +kernel
  have hrun1 : Reaches Fresh (Step wideStore fun _ _ => True) wideRun1 :=
    .step (.init ⟨rfl, fun _ => rfl⟩) (.call _ _ trivial (Prog.returns_of_fst h1))
  have hrun2 : Reaches Fresh (Step wideStore fun _ _ => True) wideRun2 :=
    .step hrun1 (.call _ _ trivial (Prog.returns_of_fst h2))
  exact .step (.step hrun2 (.call _ _ trivial (Prog.returns_of_fst h3))) (.switch wideRun3 _ _)

/-- **A purge that fails has freed its record.** -/
theorem failed_purge_frees : ColumnStore.init .k4 1 4 4 2012 1 1 7 = some wideStore ∧
    Reaches Fresh (Step wideStore fun _ _ => True) wideRun4 ∧
    ¬ ∀ e s', wideStore.purge 0 7 6 wideRun4 = (.error e, s') → Unchanged none wideRun4 s' := by
  refine ⟨?_, reaches_wideRun4, fun h => ?_⟩
  · unfold ColumnStore.init wideStore
    rw [show DataPage.init .k4 2012 = some ⟨2020, 1, 1, 59⟩ by decide]
    rfl
  · have hpage : (wideRun4.pages 6).map (fun p => ((DataPage.getRecordStatus p 0).2, p.readInteger8 59,
        p.freeSlotNumber, p.maxNumRecs, p.numFreeRecs)) = some (false, 7, DataPage.invalidSlot, 1, 0) := by
      decide +kernel
    obtain ⟨p, hp, hfields⟩ := Option.map_eq_some_iff.mp hpage
    simp only [Prod.mk.injEq] at hfields
    obtain ⟨hocc, hstamp, hnumber, hmax, hfree⟩ := hfields
    have href : DataPage.decodeColumnRef 6 = (6, 0) := by decide
    have hfaults : wideRun4.faults = [false, false, false, false, true] := rfl
    have hvain : RelinksInVain wideStore 0 7 6 wideRun4 p 5 := by
      constructor
      case page =>
        rw [href]
        dsimp only
        exact hp
      case slot => decide
      case occupied =>
        rw [href]
        exact hocc
      case stamp =>
        rw [href]
        exact hstamp
      case before =>
        simp [DataPage.needsAddToFreeList, hnumber, hmax, hfree, DataPage.minFreePercentForFreeList]
      case after =>
        simp [DataPage.needsAddToFreeList, hnumber, hmax, hfree, DataPage.minFreePercentForFreeList]
      case head_eq => decide +kernel
      case calls =>
        rw [hfaults]
        decide
      case load =>
        left
        rw [hfaults]
        rfl
    obtain ⟨e, s', hrun, hnot⟩ := hvain.purge_fails
    exact hnot (h e s' hrun)

end ColumnStore

end VsqlVector
