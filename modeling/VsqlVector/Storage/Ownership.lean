/-
# The store of a data page

A data page carries the reference of its store's root page, which
`DataPage::format` writes and nothing changes. The stores of one space share its
pages, so a store must not come by another's: it gets its pages from the lists of
its root page and from the links of pages it has, and those stay within the store
(`Within`), whether a call returns or fails. So a call of one store leaves the pages
of all others alone.

Key definitions: `IsPageOf`, `Within`.
Key theorem: `ColumnStore.call_within`.
-/
import VsqlVector.Storage.Failures
import VsqlVector.Storage.Records
import VsqlVector.Lib.Triple

namespace VsqlVector

/-- `r` is a data page of the store with this root page. -/
def IsPageOf (pages : ℕ → Option Page) (root r : ℕ) : Prop := ∃ p, pages r = some p ∧ p.rootPageRef = root

/-- No page has a free link to a page of another store. -/
structure LinksWithin (pages : ℕ → Option Page) : Prop where
  next : ∀ r p q, pages r = some p → p.nextFreePage = some q → IsPageOf pages p.rootPageRef q
  prev : ∀ r p q, pages r = some p → p.prevFreePage = some q → q = p.rootPageRef ∨ IsPageOf pages p.rootPageRef q
  bound : ∀ r, (pages r).isSome → r < invalidRef

/-- The root page names a data page, as the head of a free slot or of the list of
all pages. -/
def RootFrame.Names (f : RootFrame) (r : ℕ) : Prop := some r ∈ f.slots ∨ f.head = some r

/-- A store among others: its lists are lists of its own pages. Its pages in `base`
are still its own, and the pages of others are as they were in `base`. -/
structure Within (cs : ColumnStore) (base : ℕ → Option Page) (s : Store) : Prop where
  links : LinksWithin s.pages
  heads : ∀ r, s.root.Names r → IsPageOf s.pages cs.rootPageRef r
  own : ∀ r, IsPageOf base cs.rootPageRef r → IsPageOf s.pages cs.rootPageRef r
  others : ∀ r p, base r = some p → p.rootPageRef ≠ cs.rootPageRef → s.pages r = some p

section Pages

variable {cs : ColumnStore} {base pages : ℕ → Option Page} {s s' : Store} {root r q : ℕ} {p : Page}

theorem IsPageOf.root_eq (h : IsPageOf pages root r) (hp : pages r = some p) : p.rootPageRef = root := by
  obtain ⟨p', hp', hroot⟩ := h
  rw [hp, Option.some.injEq] at hp'
  rw [hp']
  exact hroot

/-- Pages that keep their store. -/
theorem IsPageOf.map (h : IsPageOf pages root r) {f : ℕ → Page → Page}
    (hf : ∀ q p, pages q = some p → (f q p).rootPageRef = p.rootPageRef) : IsPageOf (fun q => (pages q).map (f q)) root r := by
  obtain ⟨p, hp, rfl⟩ := h
  refine ⟨f r p, ?_, hf r p hp⟩
  dsimp only
  rw [hp, Option.map_some]

theorem Within.head (h : Within cs base s) {i : ℕ} (hi : (s.root.slots[i]?).join = some r) :
    IsPageOf s.pages cs.rootPageRef r := by
  rw [Option.join_eq_some_iff] at hi
  exact h.heads r (.inl (List.mem_of_getElem? hi))

/-- The pages that stores had are theirs. -/
theorem Within.kept (h : Within cs base s) (hr : IsPageOf base root r) : IsPageOf s.pages root r := by
  by_cases hroot : root = cs.rootPageRef
  · subst hroot
    exact h.own r hr
  · obtain ⟨p, hp, rfl⟩ := hr
    exact ⟨p, h.others r p hp hroot, rfl⟩

/-- Nothing happens to the pages, and the root page names no new one. -/
theorem Within.same (h : Within cs base s) (hpages : s'.pages = s.pages)
    (hnames : ∀ r, s'.root.Names r → s.root.Names r) : Within cs base s' := by
  refine ⟨?_, fun r hr => ?_, ?_, ?_⟩ <;> rw [hpages]
  · exact h.links
  · exact h.heads r (hnames r hr)
  · exact h.own
  · exact h.others

/-- Pages of the store change in place: links and heads that are new name pages of
the store. -/
theorem Within.map (h : Within cs base s) {f : ℕ → Page → Page}
    (hpages : s'.pages = fun q => (s.pages q).map (f q))
    (hroot : ∀ q p, s.pages q = some p → (f q p).rootPageRef = p.rootPageRef)
    (hothers : ∀ q p, s.pages q = some p → p.rootPageRef ≠ cs.rootPageRef → f q p = p)
    (hnext : ∀ q p t, s.pages q = some p → (f q p).nextFreePage = some t →
      p.nextFreePage = some t ∨ IsPageOf s.pages p.rootPageRef t)
    (hprev : ∀ q p t, s.pages q = some p → (f q p).prevFreePage = some t →
      p.prevFreePage = some t ∨ t = p.rootPageRef ∨ IsPageOf s.pages p.rootPageRef t)
    (hnames : ∀ t, s'.root.Names t → s.root.Names t ∨ IsPageOf s.pages cs.rootPageRef t) :
    Within cs base s' := by
  have hkeep : ∀ {root r}, IsPageOf s.pages root r → IsPageOf s'.pages root r := fun hr => hpages ▸ hr.map hroot
  have hget : ∀ {q p'}, s'.pages q = some p' → ∃ p, s.pages q = some p ∧ f q p = p' := fun {q p'} hp => by
    rw [hpages] at hp
    exact Option.map_eq_some_iff.mp hp
  refine ⟨⟨fun q p' t hp ht => ?_, fun q p' t hp ht => ?_, fun q hq => ?_⟩, fun t ht => ?_,
    fun r hr => hkeep (h.own r hr), fun r p hp hne => ?_⟩
  · obtain ⟨p, hold, rfl⟩ := hget hp
    rw [hroot q p hold]
    rcases hnext q p t hold ht with hsame | hnew
    · exact hkeep (h.links.next q p t hold hsame)
    · exact hkeep hnew
  · obtain ⟨p, hold, rfl⟩ := hget hp
    rw [hroot q p hold]
    rcases hprev q p t hold ht with hsame | heq | hnew
    · exact (h.links.prev q p t hold hsame).imp_right hkeep
    · exact .inl heq
    · exact .inr (hkeep hnew)
  · rw [hpages, Option.isSome_map] at hq
    exact h.links.bound q hq
  · rcases hnames t ht with hold | hnew
    · exact hkeep (h.heads t hold)
    · exact hkeep hnew
  · have hsame := h.others r p hp hne
    rw [hpages]
    dsimp only
    rw [hsame, Option.map_some, hothers r p hsame hne]

/-- A page of the store changes in place and keeps its store and its free links. -/
theorem Within.mapPage (h : Within cs base s) (hr : IsPageOf s.pages cs.rootPageRef r) {f : Page → Page}
    (hlinks : ∀ p, s.pages r = some p → (f p).links = p.links)
    (hroot : ∀ p, s.pages r = some p → (f p).rootPageRef = p.rootPageRef) :
    Within cs base { s with pages := fun q => (s.pages q).map fun p => if q = r then f p else p } ∧
      IsPageOf (fun q => (s.pages q).map fun p => if q = r then f p else p) cs.rootPageRef r := by
  have hlinks' : ∀ q p, s.pages q = some p → (if q = r then f p else p).links = p.links := fun q p hp => by
    split
    · rename_i hq
      exact hlinks p (hq ▸ hp)
    · rfl
  have hroot' : ∀ q p, s.pages q = some p → (if q = r then f p else p).rootPageRef = p.rootPageRef := fun q p hp => by
    split
    · rename_i hq
      exact hroot p (hq ▸ hp)
    · rfl
  refine ⟨h.map rfl hroot' (fun q p hp hne => if_neg fun hq : q = r => hne (hr.root_eq (hq ▸ hp))) (fun q p t hp ht => .inl ?_)
    (fun q p t hp ht => .inl ?_) fun t ht => .inl ht, hr.map hroot'⟩
  · rw [← ht]
    exact congrArg PageLinks.nextFreePage (hlinks' q p hp).symm
  · rw [← ht]
    exact congrArg PageLinks.prevFreePage (hlinks' q p hp).symm

/-- A page is replaced by one of the same store with the same links. -/
theorem Within.replace (h : Within cs base s) (hr : IsPageOf s.pages cs.rootPageRef r) (hp : s.pages r = some p)
    {p' : Page} (hlinks : p'.links = p.links)
    (hroot : p'.rootPageRef = p.rootPageRef) :
    Within cs base { s with pages := fun q => (s.pages q).map fun p => if q = r then p' else p } ∧
      IsPageOf (fun q => (s.pages q).map fun p => if q = r then p' else p) cs.rootPageRef r := by
  refine h.mapPage hr (fun q hq => ?_) fun q hq => ?_
  · rw [Option.some.inj (hq.symm.trans hp)]
    exact hlinks
  · rw [Option.some.inj (hq.symm.trans hp)]
    exact hroot

/-- A page that was in no store, and has no free links. -/
theorem Within.fresh (h : Within cs base s) (hnone : s.pages r = none) (hlt : r < invalidRef)
    (hprev : p.prevFreePage = none) (hnext : p.nextFreePage = none)
    (hpages : s'.pages = Function.update s.pages r (some p)) (hs : s'.root = s.root) : Within cs base s' := by
  have hold : ∀ {q p'}, s.pages q = some p' → q ≠ r := fun {q p'} hp he => by
    rw [he, hnone] at hp
    cases hp
  have hkeep : ∀ {root q}, IsPageOf s.pages root q → IsPageOf s'.pages root q := fun {root q} hq => by
    obtain ⟨p', hp', hroot⟩ := hq
    exact ⟨p', by rw [hpages, Function.update_of_ne (hold hp'), hp'], hroot⟩
  have hget : ∀ {q p'}, s'.pages q = some p' → (q = r ∧ p' = p) ∨ s.pages q = some p' := fun {q p'} hp => by
    rw [hpages] at hp
    by_cases hq : q = r
    · rw [hq, Function.update_self, Option.some.injEq] at hp
      exact .inl ⟨hq, hp.symm⟩
    · rw [Function.update_of_ne hq] at hp
      exact .inr hp
  refine ⟨⟨fun q p' t hp ht => ?_, fun q p' t hp ht => ?_, fun q hq => ?_⟩, fun t ht => ?_,
    fun t ht => hkeep (h.own t ht), fun t p' hp hne => ?_⟩
  · rcases hget hp with ⟨-, rfl⟩ | hp
    · rw [hnext] at ht
      cases ht
    · exact hkeep (h.links.next q p' t hp ht)
  · rcases hget hp with ⟨-, rfl⟩ | hp
    · rw [hprev] at ht
      cases ht
    · exact (h.links.prev q p' t hp ht).imp_right hkeep
  · obtain ⟨p', hp⟩ := Option.isSome_iff_exists.mp hq
    rcases hget hp with ⟨rfl, -⟩ | hp
    · exact hlt
    · exact h.links.bound q (by rw [hp]; rfl)
  · exact hkeep (h.heads t (hs ▸ ht))
  · have hsame := h.others t p' hp hne
    rw [hpages, Function.update_of_ne (hold hsame), hsame]

end Pages

/-! ### The page API -/

/-- A store that has the page `r`. -/
def Owns (cs : ColumnStore) (base : ℕ → Option Page) (r : ℕ) (s : Store) : Prop :=
  Within cs base s ∧ IsPageOf s.pages cs.rootPageRef r

section Calls

open Prog

variable {cs : ColumnStore} {base : ℕ → Option Page} {P : Store → Prop} {e : StorageError} {r : ℕ}

/-- `P` says nothing about the failures to come. -/
def Faultless (P : Store → Prop) : Prop := ∀ s fs, P s → P { s with faults := fs }

theorem within_faultless : Faultless (Within cs base) := fun _ _ h => h.same rfl fun _ hr => hr

theorem owns_faultless : Faultless (Owns cs base r) := fun s fs h => ⟨within_faultless s fs h.1, h.2⟩

namespace StoreProg

theorem tick_triple (hP : Faultless P) : Triple P (tick e) (fun _ => P) P := by
  refine fun s hs => ⟨fun u s' h => ?_, fun e' s' h => ?_⟩
  · obtain ⟨fs, rfl⟩ := tick_returns h
    exact hP s fs hs
  · obtain ⟨-, fs, rfl⟩ := tick_fails h
    exact hP s fs hs

theorem load_triple (hP : Faultless P) : Triple P (load e r) (fun p s => P s ∧ s.pages r = some p) P := by
  refine fun s hs => ⟨fun p s' h => ?_, fun e' s' h => ?_⟩
  · obtain ⟨hp, fs, rfl⟩ := load_returns h
    exact ⟨hP s fs hs, hp⟩
  · obtain ⟨-, fs, rfl⟩ := load_fails h
    exact hP s fs hs

theorem readPage_triple : Triple P (readPage r) (fun p s => P s ∧ s.pages r = some p) P := by
  refine fun s hs => ⟨fun p s' h => ?_, fun e' s' h => ?_⟩
  · obtain ⟨hp, rfl⟩ := readPage_returns h
    exact ⟨hs, hp⟩
  · obtain ⟨-, rfl⟩ := readPage_fails h
    exact hs

/-- A write to a record of the store. -/
theorem modifyPage_triple {f : Page → Page} {E : Store → Prop} (hlinks : ∀ p, (f p).links = p.links)
    (hroot : ∀ p, (f p).rootPageRef = p.rootPageRef) :
    Triple (Owns cs base r) (modifyPage r f) (fun _ => Owns cs base r) E :=
  Triple.modify fun _ hs => hs.1.mapPage hs.2 (fun p _ => hlinks p) fun p _ => hroot p

end StoreProg

namespace RootPage

/-- The head of a slot's chain is a page of the store. -/
theorem pageSelect_triple (rand : ℕ) : Triple (Within cs base) (pageSelect cs rand)
    (fun sel s => Within cs base s ∧ ∀ r, sel = some r → IsPageOf s.pages cs.rootPageRef r) (Within cs base) := by
  refine fun s hs => ⟨fun sel s' h => ?_, fun e s' h => ?_⟩
  · rw [pageSelect_apply] at h
    obtain ⟨hsel, rfl⟩ := Prod.mk.inj h
    cases hsel
    exact ⟨hs.same rfl fun _ hr => hr, fun r hr => hs.head hr⟩
  · cases (Prod.mk.inj h).1

theorem addFreePage_triple (i : ℕ) : Triple (Owns cs base r) (addFreePage cs r i e) (fun _ => Owns cs base r)
    (Within cs base) := by
  refine fun s hs => ⟨fun u s' h => ?_, fun e' s' h => ?_⟩
  · obtain ⟨fs, rfl⟩ := addFreePage_returns h
    have hroot : ∀ q p, s.pages q = some p → (if q = r then { p with
        prevFreePage := some cs.rootPageRef, nextFreePage := (s.root.slots[i]?).join, freeSlotNumber := i }
        else { p with prevFreePage := if (s.root.slots[i]?).join = some q then some r else p.prevFreePage }).rootPageRef =
        p.rootPageRef := fun q p _ => by split <;> rfl
    refine ⟨hs.1.map rfl hroot (fun q p hp hne => ?_) (fun q p t hp ht => ?_) (fun q p t hp ht => ?_) fun t ht => ?_,
      hs.2.map hroot⟩
    · rw [if_neg fun hq : q = r => hne (hs.2.root_eq (hq ▸ hp)), if_neg fun hq => hne ((hs.1.head hq).root_eq hp)]
    · by_cases hq : q = r
      · rw [if_pos hq] at ht
        rw [hs.2.root_eq (hq ▸ hp)]
        exact .inr (hs.1.head ht)
      · rw [if_neg hq] at ht
        exact .inl ht
    · by_cases hq : q = r
      · rw [if_pos hq] at ht
        rw [hs.2.root_eq (hq ▸ hp)]
        exact .inr (.inl (Option.some.inj ht).symm)
      · rw [if_neg hq] at ht
        dsimp only at ht
        split at ht
        · rename_i hhead
          rw [(hs.1.head hhead).root_eq hp, ← Option.some.inj ht]
          exact .inr (.inr hs.2)
        · exact .inl ht
    · rcases ht with ht | ht
      · rcases List.mem_or_eq_of_mem_set ht with ht | ht
        · exact .inl (.inl ht)
        · rw [Option.some.inj ht]
          exact .inr hs.2
      · exact .inl (.inr ht)
  · obtain ⟨-, fs, rfl⟩ := addFreePage_fails h
    exact within_faultless s fs hs.1

theorem removeFreePage_triple : Triple (Owns cs base r) (removeFreePage cs r e) (fun _ => Owns cs base r)
    (Within cs base) := by
  refine fun s hs => ⟨fun u s' h => ?_, fun e' s' h => ?_⟩
  · obtain ⟨p, fs, hp, rfl⟩ := removeFreePage_returns h
    have hown := hs.2.root_eq hp
    have hroot : ∀ q p', s.pages q = some p' → (if q = r then { p' with prevFreePage := none, nextFreePage := none }
        else { p' with
          prevFreePage := if p.nextFreePage = some q then p.prevFreePage else p'.prevFreePage
          nextFreePage := if p.prevFreePage ≠ some cs.rootPageRef ∧ p.prevFreePage.getD invalidRef = q
            then p.nextFreePage else p'.nextFreePage }).rootPageRef = p'.rootPageRef := fun q p' _ => by split <;> rfl
    -- the page before `r`, where it is not the root page, is one of the store
    have hbefore : ∀ {q p'}, s.pages q = some p' →
        (p.prevFreePage ≠ some cs.rootPageRef ∧ p.prevFreePage.getD invalidRef = q) → p'.rootPageRef = p.rootPageRef := by
      intro q p' hp' hprev
      cases hlink : p.prevFreePage with
      | none =>
        rw [hlink] at hprev
        have hlt := hs.1.links.bound q (by rw [hp']; rfl)
        exact absurd hprev.2 (Nat.ne_of_gt hlt)
      | some w =>
        rw [hlink] at hprev
        rcases hs.1.links.prev r p w hp hlink with heq | hpage
        · exact absurd (by rw [heq, hown]) hprev.1
        · obtain rfl : w = q := hprev.2
          exact hpage.root_eq hp'
    refine ⟨hs.1.map rfl hroot (fun q p' hp' hne => ?_) (fun q p' t hp' ht => ?_) (fun q p' t hp' ht => ?_) fun t ht => ?_,
      hs.2.map hroot⟩
    · rw [if_neg fun hq : q = r => hne (hs.2.root_eq (hq ▸ hp')),
        if_neg fun hq => hne ((hs.1.links.next r p q hp hq).root_eq hp' ▸ hown),
        if_neg fun hq => hne ((hbefore hp' hq).trans hown)]
    · by_cases hq : q = r
      · rw [if_pos hq] at ht
        cases ht
      · rw [if_neg hq] at ht
        dsimp only at ht
        split at ht
        · rename_i hprev
          rw [hbefore hp' hprev]
          exact .inr (hs.1.links.next r p t hp ht)
        · exact .inl ht
    · by_cases hq : q = r
      · rw [if_pos hq] at ht
        cases ht
      · rw [if_neg hq] at ht
        dsimp only at ht
        split at ht
        · rename_i hnext
          rw [(hs.1.links.next r p q hp hnext).root_eq hp']
          exact .inr (hs.1.links.prev r p t hp ht)
        · exact .inl ht
    · rcases ht with ht | ht
      · dsimp only at ht
        split at ht
        · rcases List.mem_or_eq_of_mem_set ht with ht | ht
          · exact .inl (.inl ht)
          · rw [← hown]
            exact .inr (hs.1.links.next r p t hp ht.symm)
        · exact .inl (.inl ht)
      · exact .inl (.inr ht)
  · obtain ⟨fs, rfl⟩ := removeFreePage_fails h
    exact within_faultless s fs hs.1

theorem addDataPage_triple : Triple (Owns cs base r) (addDataPage r e) (fun _ => Owns cs base r) (Within cs base) := by
  refine fun s hs => ⟨fun u s' h => ?_, fun e' s' h => ?_⟩
  · obtain ⟨fs, rfl⟩ := addDataPage_returns h
    have hroot : ∀ q p, s.pages q = some p → (if q = r then { p with prev := none, next := s.root.head }
        else { p with prev := if s.root.head = some q then some r else p.prev }).rootPageRef = p.rootPageRef :=
      fun q p _ => by split <;> rfl
    refine ⟨hs.1.map rfl hroot (fun q p hp hne => ?_) (fun q p t _ ht => .inl ?_) (fun q p t _ ht => .inl ?_) fun t ht => ?_,
      hs.2.map hroot⟩
    · rw [if_neg fun hq : q = r => hne (hs.2.root_eq (hq ▸ hp)), if_neg fun hq => hne ((hs.1.heads q (.inr hq)).root_eq hp)]
    · split at ht <;> exact ht
    · split at ht <;> exact ht
    · rcases ht with ht | ht
      · exact .inl (.inl ht)
      · rw [← Option.some.inj ht]
        exact .inr hs.2
  · obtain ⟨fs, rfl⟩ := addDataPage_fails h
    exact within_faultless s fs hs.1

end RootPage

/-! ### The calls -/

namespace ColumnStore

open StoreProg

variable {env : InsertEnv}

theorem tickPrimary_triple (hP : Faultless P) : Triple P (tickPrimary cs e) (fun _ => P) P := by
  unfold tickPrimary
  split
  · exact tick_triple hP
  · exact Triple.pure fun _ hs => hs

/-- A page just allocated: without it the store is as before. -/
def Allocated (cs : ColumnStore) (base : ℕ → Option Page) (r : ℕ) (s : Store) : Prop :=
  ∃ pages, Within cs base { s with pages := pages } ∧ pages r = none ∧ r < invalidRef ∧
    s.pages = Function.update pages r (some Page.zero)

theorem Allocated.within {s : Store} (h : Allocated cs base r s) : Within cs base s := by
  obtain ⟨pages, hw, hnone, hlt, hpages⟩ := h
  exact hw.fresh hnone hlt rfl rfl hpages rfl

theorem loadNew_triple : Triple (Within cs base) (loadNew e cs r) (fun _ => Allocated cs base r) (Within cs base) := by
  refine fun s hs => ⟨fun u s' h => ?_, fun e' s' h => ?_⟩
  · obtain ⟨hnone, -, hlt, fs, rfl⟩ := loadNew_returns h
    exact ⟨s.pages, hs.same rfl fun _ hr => hr, hnone, hlt, rfl⟩
  · obtain ⟨fs, rfl⟩ := loadNew_fails h
    exact within_faultless s fs hs

/-- `DataPage::format` gives the page to the store. -/
theorem format_triple : Triple (Allocated cs base r) (modifyPage r (cs.data.format cs.rootPageRef))
    (fun _ => Owns cs base r) (Within cs base) := by
  refine Triple.modify fun s hs => ?_
  obtain ⟨pages, hw, hnone, hlt, hpages⟩ := hs
  have hformat : (fun q => (s.pages q).map fun p => if q = r then cs.data.format cs.rootPageRef p else p) =
      Function.update pages r (some (cs.data.format cs.rootPageRef Page.zero)) := by
    funext q
    rw [hpages]
    by_cases hq : q = r
    · subst hq
      simp
    · simp [hq]
  refine ⟨hw.fresh hnone hlt rfl rfl hformat rfl, cs.data.format cs.rootPageRef Page.zero, ?_, rfl⟩
  exact (congrFun hformat r).trans (Function.update_self _ _ _)

theorem insertNewPage_triple : Triple (Within cs base) (insertNewPage cs r) (fun _ => Owns cs base r)
    (Within cs base) := by
  have howns : ∀ s, Owns cs base r s → Within cs base s := fun _ hs => hs.1
  unfold insertNewPage
  refine (tickPrimary_triple within_faultless).bind fun _ => loadNew_triple.bind fun _ => ?_
  refine Triple.bind (Q := fun _ => Allocated cs base r) ?_ fun _ => format_triple.bind fun _ => ?_
  · refine (tickPrimary_triple fun s fs hs => ?_).conseq (fun _ hs => hs) (fun _ _ hs => hs) fun _ hs => hs.within
    obtain ⟨pages, hw, hrest⟩ := hs
    exact ⟨pages, within_faultless _ fs hw, hrest⟩
  refine RootPage.addDataPage_triple.bind fun _ => (readPage_triple.conseq (fun _ hs => hs) (fun _ _ hs => hs.1)
    howns).bind fun p => (Triple.get.conseq (fun _ hs => hs) (fun _ _ hs => hs.2) fun _ hs => hs).bind fun s => ?_
  split
  · exact Triple.pure fun _ hs => hs
  · exact RootPage.addFreePage_triple _

/-- The page that is selected, if there is one, is the store's. -/
def Selected (cs : ColumnStore) (base : ℕ → Option Page) (sel : Option ℕ) (s : Store) : Prop :=
  Within cs base s ∧ ∀ r, sel = some r → IsPageOf s.pages cs.rootPageRef r

theorem insertSelected_triple (sel : Option ℕ) : Triple (Selected cs base sel) (insertSelected cs env sel)
    (Owns cs base) (Within cs base) := by
  cases sel with
  | none =>
    refine (insertNewPage_triple.bind fun _ => Triple.pure fun _ hs => hs).conseq (fun _ hs => hs.1) (fun _ _ hs => hs)
      fun _ hs => hs
  | some r =>
    have hsel : ∀ s, Selected cs base (some r) s → Owns cs base r s := fun s hs => ⟨hs.1, hs.2 r rfl⟩
    unfold insertSelected
    refine Triple.conseq (Triple.bind (Q := fun _ => Owns cs base r) ?_ fun p => ?_) hsel (fun _ _ hs => hs) fun _ hs => hs
    · exact (load_triple owns_faultless).conseq (fun _ hs => hs) (fun _ _ hs => hs.1) fun _ hs => hs.1
    · split
      · exact RootPage.removeFreePage_triple.bind fun _ => Triple.pure fun _ hs => hs
      · exact Triple.pure fun _ hs => hs

theorem insertPessimistic_triple (grow : Bool) : Triple (Within cs base) (insertPessimistic cs env grow)
    (Owns cs base) (Within cs base) := by
  unfold insertPessimistic
  refine (tick_triple within_faultless).bind fun _ => (tick_triple within_faultless).bind fun _ => ?_
  refine Triple.bind (Q := fun _ => Within cs base) (Triple.modify fun s hs => hs.same rfl fun r hr => ?_) fun _ =>
    (RootPage.pageSelect_triple _).bind insertSelected_triple
  cases grow with
  | false => exact hr
  | true =>
    refine hr.imp_left fun hr => ?_
    rcases List.mem_append.mp hr with hr | hr
    · exact hr
    · cases (List.mem_replicate.mp hr).2

theorem insertOptimistic_triple (sel : Option ℕ) : Triple (Selected cs base sel) (insertOptimistic cs env sel)
    (Owns cs base) (Within cs base) := by
  cases sel with
  | none => exact (insertPessimistic_triple false).conseq (fun _ hs => hs.1) (fun _ _ hs => hs) fun _ hs => hs
  | some r =>
    have hsel : ∀ s, Selected cs base (some r) s → Owns cs base r s := fun s hs => ⟨hs.1, hs.2 r rfl⟩
    unfold insertOptimistic
    refine Triple.conseq (Triple.bind (Q := fun _ => Owns cs base r) ?_ fun p => ?_) hsel (fun _ _ hs => hs) fun _ hs => hs
    · exact (load_triple owns_faultless).conseq (fun _ hs => hs) (fun _ _ hs => hs.1) fun _ hs => hs.1
    · split
      · exact ((tick_triple within_faultless).bind fun _ => insertPessimistic_triple false).conseq (fun _ hs => hs.1)
          (fun _ _ hs => hs) fun _ hs => hs
      · exact ((tick_triple owns_faultless).conseq (fun _ hs => hs) (fun _ _ hs => hs) fun _ hs => hs.1).bind
          fun _ => Triple.pure fun _ hs => hs

theorem insertPage_triple : Triple (Within cs base) (insertPage cs env) (Owns cs base) (Within cs base) := by
  unfold insertPage
  refine (tick_triple within_faultless).bind fun _ => (RootPage.pageSelect_triple _).bind fun sel =>
    (Triple.get.conseq (fun _ hs => hs) (fun _ _ hs => hs.2) fun _ hs => hs).bind fun s => ?_
  split
  · exact (insertPessimistic_triple true).conseq (fun _ hs => hs.1) (fun _ _ hs => hs) fun _ hs => hs
  · exact insertOptimistic_triple sel

end ColumnStore

/-- The reference of a record has its page in the lower half, whatever the slot is. -/
theorem DataPage.decodeColumnRef_encodeColumnRef {r : ℕ} (hr : r < 2 ^ 32) (slotIndex : ℕ) :
    (decodeColumnRef (encodeColumnRef r slotIndex)).1 = r := by
  unfold decodeColumnRef encodeColumnRef
  have hmask : 0xFFFFFFFF = 2 ^ 32 - 1 := by norm_num
  dsimp only
  rw [hmask, Nat.and_two_pow_sub_one_eq_mod, Nat.lor_comm, ← Nat.shiftLeft_add_eq_or_of_lt hr, Nat.shiftLeft_eq,
    Nat.mul_add_mod_self_right, Nat.mod_eq_of_lt hr]

/-- A record goes to the page it is given. -/
theorem DataPage.insert_triple (d : DataPage) {trxRef : BitVec 64} {colData : List (BitVec 8)} :
    Triple (Owns cs base r) (d.insert r trxRef colData)
      (fun ref s => Owns cs base r s ∧ (decodeColumnRef ref).1 = r) (Within cs base) := by
  have howns : ∀ s, Owns cs base r s → Within cs base s := fun _ hs => hs.1
  unfold DataPage.insert
  refine (StoreProg.readPage_triple.conseq (fun _ hs => hs) (fun _ _ hs => hs.1) howns).bind fun p =>
    (Triple.get.conseq (fun _ hs => hs) (fun _ _ hs => hs.2) fun _ hs => hs).bind fun s => ?_
  dsimp only
  refine (StoreProg.modifyPage_triple (ColumnStore.links_insertAt d trxRef colData _) fun _ => rfl).bind fun _ =>
    Triple.bind (Q := fun _ => Owns cs base r) (Triple.modify fun s hs => ?_) fun _ => Triple.pure fun s hs => ⟨hs, ?_⟩
  · exact ⟨hs.1.same rfl fun _ hr => hr, hs.2⟩
  · obtain ⟨p, hp, -⟩ := hs.2
    have hlt := hs.1.links.bound r (by rw [hp]; rfl)
    have hmax : invalidRef ≤ 2 ^ 32 := by norm_num [invalidRef]
    exact decodeColumnRef_encodeColumnRef (hlt.trans_le hmax) _

namespace ColumnStore

open StoreProg

theorem markDelete_triple (trxRef : BitVec 64) (colRef : ℕ) (deleteMark : Bool) :
    Triple (Owns cs base (DataPage.decodeColumnRef colRef).1) (cs.markDelete trxRef colRef deleteMark)
      (fun _ => Within cs base) (Within cs base) := by
  unfold markDelete
  refine ((load_triple owns_faultless).conseq (fun _ hs => hs) (fun _ _ hs => hs.1) fun _ hs => hs.1).bind fun p => ?_
  refine (modifyPage_triple (fun p => ?_) fun p => ?_).bind fun _ =>
    (modifyPage_triple (fun p => ?_) fun p => ?_).conseq (fun _ hs => hs) (fun _ _ hs => hs.1) fun _ hs => hs
  all_goals split <;> rfl

theorem rootPageRef_purge {d : DataPage} {slotIndex : ℕ} {trxRef : BitVec 64} {p p' : Page} {purged : Bool}
    (h : d.purge slotIndex trxRef p = some (p', purged)) : p'.rootPageRef = p.rootPageRef := by
  unfold DataPage.purge at h
  split_ifs at h
  all_goals
    simp only [Option.some.injEq, Prod.mk.injEq] at h
    obtain ⟨rfl, -⟩ := h
    rfl

theorem purgeRelatch_triple (hP : Faultless P) (b : Bool) : Triple P (purgeRelatch r b) (fun _ => P) P := by
  refine fun s hs => ⟨fun u s' h => ?_, fun e' s' h => ?_⟩
  · obtain ⟨fs, rfl⟩ := purgeRelatch_returns h
    exact hP s fs hs
  · obtain ⟨fs, rfl⟩ := purgeRelatch_fails h
    exact hP s fs hs

theorem purge_triple (rand : ℕ) (trxRef : BitVec 64) (colRef : ℕ) :
    Triple (Owns cs base (DataPage.decodeColumnRef colRef).1) (cs.purge rand trxRef colRef) (fun _ => Within cs base)
      (Within cs base) := by
  unfold purge
  set r := (DataPage.decodeColumnRef colRef).1
  have hload : Faultless fun s => Owns cs base r s := owns_faultless
  refine ((load_triple hload).conseq (fun _ hs => hs) (fun _ _ hs => hs) fun _ hs => hs.1).bind fun p => ?_
  have hpage : Faultless fun s => Owns cs base r s ∧ s.pages r = some p := fun s fs hs => ⟨owns_faultless s fs hs.1, hs.2⟩
  refine ((purgeRelatch_triple hpage _).conseq (fun _ hs => hs) (fun _ _ hs => hs) fun _ hs => hs.1.1).bind fun _ => ?_
  refine Triple.bind (Q := fun res s => (Owns cs base r s ∧ s.pages r = some p) ∧
    cs.data.purge (DataPage.decodeColumnRef colRef).2 trxRef p = some res)
    (Triple.ofOption (fun res hres s hs => ⟨hs, hres⟩) fun s hs => hs.1.1) fun res => ?_
  -- the page as the purge leaves it
  refine Triple.bind (Q := fun _ => Owns cs base r) (Triple.modify fun s hs => ?_) fun _ =>
    (Triple.get.conseq (fun _ hs => hs) (fun _ _ hs => hs.2) fun _ hs => hs).bind fun s => ?_
  · obtain ⟨⟨hs, hp⟩, hres⟩ := hs
    exact hs.1.replace hs.2 hp (links_purge hres) (rootPageRef_purge hres)
  · split
    · exact (RootPage.addFreePage_triple _).conseq (fun _ hs => hs) (fun _ _ hs => hs.1) fun _ hs => hs
    · exact Triple.pure fun _ hs => hs.1

theorem rootPageRef_writeRuns {o size : ℕ} {data : List (BitVec 8)} : ∀ (runs : List (ℕ × ℕ)) (p : Page),
    (DataPage.writeRuns o size data runs p).rootPageRef = p.rootPageRef
  | [], _ => rfl
  | _ :: runs, _ => rootPageRef_writeRuns runs _

theorem update_triple (colRef : ℕ) (addr : String) (colData : Option (List (BitVec 8))) (chunkIds : List ℕ)
    (chunkSize : ℕ) : Triple (Owns cs base (DataPage.decodeColumnRef colRef).1)
      (cs.update colRef addr colData chunkIds chunkSize) (fun _ => Within cs base) (Within cs base) := by
  have hofExcept : ∀ {α : Type} {P : Store → Prop} {x : Except StorageError α},
      Triple P (ofExcept x) (fun a s => P s ∧ x = .ok a) P := fun {α P x} => by
    cases x with
    | error e => exact Triple.fail fun _ hs => hs
    | ok a => exact Triple.pure fun _ hs => ⟨hs, rfl⟩
  unfold update
  split
  · exact Triple.pure fun _ hs => hs.1
  · refine (hofExcept.conseq (fun _ hs => hs) (fun _ _ hs => hs.1) fun _ hs => hs.1).bind fun data =>
      ((load_triple owns_faultless).conseq (fun _ hs => hs) (fun _ _ hs => hs) fun _ hs => hs.1).bind fun p => ?_
    refine (hofExcept.conseq (fun _ hs => hs) (fun _ _ hs => hs) fun _ hs => hs.1.1).bind fun p' =>
      Triple.modify fun s hs => ?_
    obtain ⟨⟨hs, hp⟩, hupdate⟩ := hs
    have hroot : p'.rootPageRef = p.rootPageRef := by
      unfold DataPage.update at hupdate
      split at hupdate
      · cases hupdate
      · cases hupdate
        exact rootPageRef_writeRuns _ _
    exact (hs.1.replace hs.2 hp (links_update hupdate) hroot).1

/-- A call on a record is on a page of the store. -/
def OnOwnPage (cs : ColumnStore) (pages : ℕ → Option Page) : Call → Prop
  | .insert _ _ _ => True
  | .markDelete _ colRef _ => IsPageOf pages cs.rootPageRef (DataPage.decodeColumnRef colRef).1
  | .purge _ _ colRef => IsPageOf pages cs.rootPageRef (DataPage.decodeColumnRef colRef).1

/-- **A call of one store among others.** Whether it returns or fails, the store goes
on within its own pages, the pages of other stores stay as they are, and a record
that is inserted is on a page of the store. -/
theorem call_within {s s' : Store} {c : Call} (hs : Within cs base s) (hc : OnOwnPage cs s.pages c)
    {res : Except StorageError (Option ℕ)} (h : cs.call c s = (res, s')) :
    Within cs base s' ∧ ∀ ref, res = .ok (some ref) → IsPageOf s'.pages cs.rootPageRef (DataPage.decodeColumnRef ref).1 := by
  have hcall : ∀ {P : Store → Prop}, P s → Triple P (cs.call c) (fun res s => Within cs base s ∧
      ∀ ref, res = some ref → IsPageOf s.pages cs.rootPageRef (DataPage.decodeColumnRef ref).1) (Within cs base) →
      Within cs base s' ∧ ∀ ref, res = .ok (some ref) →
        IsPageOf s'.pages cs.rootPageRef (DataPage.decodeColumnRef ref).1 := fun hP htriple => by
    cases res with
    | ok o =>
      obtain ⟨hw, href⟩ := (htriple s hP).1 o s' h
      exact ⟨hw, fun ref hr => href ref (Except.ok.inj hr)⟩
    | error e => exact ⟨(htriple s hP).2 e s' h, fun ref hr => by cases hr⟩
  cases c with
  | insert env trxRef colData =>
    refine hcall hs (Triple.bind (Q := fun ref s => Within cs base s ∧
      IsPageOf s.pages cs.rootPageRef (DataPage.decodeColumnRef ref).1) ?_ fun ref => Triple.pure fun s hs => ⟨hs.1, ?_⟩)
    · unfold insert
      split
      · exact Triple.fail fun _ hs => hs
      · split
        · exact Triple.fail fun _ hs => hs
        · refine insertPage_triple.bind fun r => cs.data.insert_triple.conseq (fun _ hs => hs) (fun ref s hs => ?_)
            fun _ hs => hs
          obtain ⟨⟨hw, hpage⟩, hr⟩ := hs
          exact ⟨hw, hr.symm ▸ hpage⟩
    · intro ref' hr
      obtain rfl := Option.some.inj hr
      exact hs.2
  | markDelete trxRef colRef deleteMark =>
    exact hcall (P := Owns cs base (DataPage.decodeColumnRef colRef).1) ⟨hs, hc⟩
      ((markDelete_triple trxRef colRef deleteMark).bind fun _ => Triple.pure fun s hs => ⟨hs, fun ref hr => by cases hr⟩)
  | purge rand trxRef colRef =>
    exact hcall (P := Owns cs base (DataPage.decodeColumnRef colRef).1) ⟨hs, hc⟩ ((purge_triple rand trxRef colRef).bind
      fun _ => Triple.pure fun s hs => ⟨hs, fun ref hr => by cases hr⟩)

end ColumnStore

end Calls

end VsqlVector
