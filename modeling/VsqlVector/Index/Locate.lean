/-
# The store of a record

`mark_delete` and `purge` get nothing but a key reference. `IndexStore::locate`
(`src/index/hnsw/storage.cc`) recovers the store from it: the reference names a data
page, the page the root page of its store, the root page's place in the row is the
position of the store, and the position tells the level and the kind.

The row in memory and the data pages are modelled together here (`SpaceState`). The
stores share the data pages of the space; each keeps to its own. A store that has no
root page yet has no pages, so nothing is found under the reference those stores
share, and a root page stays in its place when levels are added and when the index
is loaded (`SameRoots`). So every record is found where it was inserted
(`locate_inserted`), and what happens in one store stays there (`request_apart`).

Key definitions: `IndexStore.locate`, `SpaceState`, `SpaceStep`, `Owned`.
Key theorems: `storageStep_sameRoots`, `reached_owned`, `request_apart`,
`locate_inserted`.
-/
import VsqlVector.Index.Reload
import VsqlVector.Index.GraphOps
import VsqlVector.Storage.Ownership

namespace VsqlVector

namespace MultiColumnStore

/-- `get_root_index`, over the data pages of the space. -/
def getRootIndex (stores : List StoreHandle) (dataPages : ℕ → Option Page) (colRef : ℕ) : Except StorageError ℕ :=
  match dataPages (DataPage.decodeColumnRef colRef).1 with
  | none => .error ⟨"get_root_index: failed to load data page", false⟩
  | some p =>
    match stores.findIdx? fun h => h.rootPageRef.toNat == p.rootPageRef with
    | none => .error ⟨"get_root_index: no store matches root page ref", true⟩
    | some i => .ok (i % 2 ^ 8)

end MultiColumnStore

namespace Hnsw
namespace IndexStore

/-- `get_level`. -/
def getLevel (s : IndexState) (level : ℕ) : Option ℕ :=
  if level < maxLevel ∧ s.levels level then some level else none

/-- `IndexStore::locate`: the level, if it has a store, and the kind. -/
def locate (s : IndexState) (dataPages : ℕ → Option Page) (nid : ℕ) : Except StorageError (Option ℕ × StoreKind) :=
  (MultiColumnStore.getRootIndex s.multi.stores dataPages (columnRef nid)).map fun rootIdx =>
    (getLevel s (rootIdx / 2), if rootIdx % 2 = 1 then .overflow else .neighbour)

/-- The position of a level's store of this kind. -/
def storeIndex (level : ℕ) (kind : StoreKind) : ℕ := rootIndex level (kind = .overflow)

/-! ### The index with its data pages -/

/-- A store of the row as its own calls see it. -/
def columnStore (ps : PageSize) (spaceRef : BitVec 32) (h : StoreHandle) : ColumnStore where
  spaceRef := spaceRef.toNat
  rootPageRef := h.rootPageRef.toNat
  primaryRootPageRef := h.primaryRootPageRef.toNat
  root := h.root
  data := (DataPage.init ps h.root.columnSize).getD ⟨0, 0, 0, 0⟩

/-- What is asked of a store. -/
inductive Request where
  | call (c : ColumnStore.Call)
  | update (colRef : ℕ) (addr : String) (colData : Option (List (BitVec 8))) (chunkIds : List ℕ) (chunkSize : ℕ)

/-- The outcome of a request, with the reference an insert returns. -/
def Request.run (cs : ColumnStore) : Request → StoreProg (Option ℕ)
  | .call c => cs.call c
  | .update colRef addr colData chunkIds chunkSize =>
    (fun _ => none) <$> cs.update colRef addr colData chunkIds chunkSize

/-- A record and the store it was inserted into. -/
structure Record where
  ref : ℕ
  level : ℕ
  kind : StoreKind
  deriving DecidableEq, Repr

/-- An index with the data pages of its space. The free slots and the list ends of
the root page at each position stand beside the frames that `index` has; a store
without a root page has them as `RootPage::format` will write them. `inserted` is
the records that were ever inserted, the purged ones included. -/
structure SpaceState where
  index : IndexState
  roots : ℕ → RootFrame
  pages : ℕ → Option Page
  lastSlotInfo : LastSlotInfo
  faults : List Bool
  inserted : List Record

namespace SpaceState

/-- The space as one of its stores sees it. -/
def store (s : SpaceState) (i : ℕ) : Store := ⟨s.roots i, s.pages, s.lastSlotInfo, s.faults⟩

/-- The records after a request: one more where an insert returned. -/
def noted (level : ℕ) (kind : StoreKind) (inserted : List Record) : Except StorageError (Option ℕ) → List Record
  | .ok (some ref) => ⟨ref, level, kind⟩ :: inserted
  | _ => inserted

/-- A request to a level's store, whether it is served or fails. -/
def request (ps : PageSize) (spaceRef : BitVec 32) (level : ℕ) (kind : StoreKind) (req : Request) (s : SpaceState) :
    SpaceState :=
  let i := storeIndex level kind
  let out := req.run (columnStore ps spaceRef (s.index.multi.stores.getD i default)) (s.store i)
  { s with
    roots := Function.update s.roots i out.2.root
    pages := out.2.pages
    lastSlotInfo := out.2.lastSlotInfo
    faults := out.2.faults
    inserted := noted level kind s.inserted out.1 }

/-- A store is asked to change only records that were inserted into it. -/
def Allows (s : SpaceState) (level : ℕ) (kind : StoreKind) : Request → Prop
  | .call (.insert _ _ _) => True
  | .call (.markDelete _ colRef _) => ⟨colRef, level, kind⟩ ∈ s.inserted
  | .call (.purge _ _ colRef) => ⟨colRef, level, kind⟩ ∈ s.inserted
  | .update colRef _ _ _ _ => ⟨colRef, level, kind⟩ ∈ s.inserted

/-- A new index in a space without data pages. -/
def Created (ps : PageSize) (emptyRef : ℕ) (spaceRef : BitVec 32) (M : ℕ) (s : SpaceState) : Prop :=
  IndexStore.Created ps emptyRef spaceRef M s.index ∧ s.roots = (fun _ => RootFrame.format) ∧
    s.pages = (fun _ => none) ∧ s.inserted = []

end SpaceState

/-- A step of a run: one of the index's storage, a change of the thread and of what
the page API will do, or a request to a store of a level that is there. -/
inductive SpaceStep (ps : PageSize) (emptyRef : ℕ) (spaceRef : BitVec 32) (M : ℕ) : SpaceState → SpaceState → Prop
  | storage {s : SpaceState} {index : IndexState} : StorageStep ps emptyRef M s.index index →
    SpaceStep ps emptyRef spaceRef M s { s with index := index }
  | switch {s : SpaceState} (info : LastSlotInfo) (faults : List Bool) :
    SpaceStep ps emptyRef spaceRef M s { s with lastSlotInfo := info, faults := faults }
  | request {s : SpaceState} (level : ℕ) (kind : StoreKind) (req : Request) : s.index.levels level →
    s.Allows level kind req → SpaceStep ps emptyRef spaceRef M s (s.request ps spaceRef level kind req)

/-! ### Root pages keep their places -/

/-- The root page of the store at a position. -/
def rootRef (stores : List StoreHandle) (i : ℕ) : BitVec 32 := (stores.getD i default).rootPageRef

/-- No root page is taken from its store. -/
def SameRoots (stores stores' : List StoreHandle) : Prop :=
  ∀ i, rootRef stores i ≠ noRef → rootRef stores' i = rootRef stores i

section Roots

open Prog

variable {ps : PageSize} {emptyRef : ℕ} {spaceRef : BitVec 32} {M : ℕ} {s s' : IndexState} {stores : List StoreHandle}
  {p : StoreHandle} {others : List StoreHandle} {i j level : ℕ}

/-- The root pages of a row are different. -/
theorem Whole.rootRef_inj (h : Whole ps emptyRef spaceRef M s p others) (hi : rootRef s.multi.stores i ≠ noRef)
    (hij : rootRef s.multi.stores i = rootRef s.multi.stores j) : i = j := by
  rw [h.mounted.stores] at hi hij
  have hlt : ∀ {k}, rootRef (p :: others) (k + 1) ≠ noRef → ∃ hk : k < others.length,
      rootRef (p :: others) (k + 1) = others[k].rootPageRef := fun {k} hk => by
    unfold rootRef at hk ⊢
    rw [List.getD_cons_succ] at hk ⊢
    by_cases hlt : k < others.length
    · exact ⟨hlt, by rw [List.getD_eq_getElem _ _ hlt]⟩
    · rw [List.getD_eq_default _ _ (by omega)] at hk
      exact absurd rfl hk
  -- the first root page is that of no other store
  have hfirst : ∀ {k}, rootRef (p :: others) (k + 1) = p.rootPageRef → False := fun {k} hk => by
    obtain ⟨hlt, heq⟩ := hlt (hk.symm ▸ h.mounted.valid)
    rw [heq] at hk
    have hlen : k < (restSpecs emptyRef M).length := h.mounted.rest.length_eq ▸ hlt
    have hpage := ((List.forall₂_iff_get.mp h.mounted.rest).2 k hlen hlt).page
    exact (hpage (by rw [List.get_eq_getElem, hk]; exact h.mounted.valid)).2.1 hk
  rcases i with _ | i <;> rcases j with _ | j
  · rfl
  · exact (hfirst hij.symm).elim
  · exact (hfirst hij).elim
  · obtain ⟨hi', heqi⟩ := hlt hi
    obtain ⟨hj', heqj⟩ := hlt (hij ▸ hi)
    rw [h.mounted.distinct i j hi' hj' (by rw [← heqi, ← heqj, hij]) (heqi ▸ hi)]

theorem rootRef_set_self {h : StoreHandle} (hr : h.rootPageRef = rootRef stores i) (j : ℕ) :
    rootRef (stores.set i h) j = rootRef stores j := by
  by_cases hij : i = j
  · subst hij
    by_cases hlt : i < stores.length
    · unfold rootRef
      rw [List.getD_eq_getElem _ _ (by rw [List.length_set]; exact hlt), List.getElem_set_self, hr]
      rfl
    · rw [List.set_eq_of_length_le (by omega)]
  · unfold rootRef
    rw [List.getD_eq_getElem?_getD, List.getD_eq_getElem?_getD, List.getElem?_set_ne hij]

namespace SameRoots

variable {stores' stores'' : List StoreHandle}

theorem refl (stores : List StoreHandle) : SameRoots stores stores := fun _ _ => rfl

theorem trans (h : SameRoots stores stores') (h' : SameRoots stores' stores'') : SameRoots stores stores'' :=
  fun i hi => (h' i (h i hi ▸ hi)).trans (h i hi)

/-- A store that has no root page gets one. -/
theorem set (hi : rootRef stores i = noRef) (h : StoreHandle) : SameRoots stores (stores.set i h) := by
  intro j hj
  have hij : i ≠ j := fun he => hj (he ▸ hi)
  unfold rootRef
  rw [List.getD_eq_getElem?_getD, List.getD_eq_getElem?_getD, List.getElem?_set_ne hij]

/-- The row comes back from its pages. -/
theorem reloaded (stores : List StoreHandle) : SameRoots stores (stores.map (·.reloaded)) := by
  intro i _
  unfold rootRef
  rw [List.getD_eq_getElem?_getD, List.getD_eq_getElem?_getD, List.getElem?_map]
  cases stores[i]? <;> rfl

end SameRoots

/-- The row of stores in memory. -/
def Row (stores : List StoreHandle) (m : MultiState) : Prop := m.stores = stores

theorem store_triple (i : ℕ) : Triple (Row stores) (MultiColumnStore.store i)
    (fun h m => Row stores m ∧ h = stores.getD i default) (Row stores) := by
  refine fun m hm => ⟨fun h m' hrun => ?_, fun e m' hrun => by cases (Prod.mk.inj hrun).1⟩
  obtain ⟨hh, rfl⟩ := Prod.mk.inj hrun
  rw [← Except.ok.inj hh, hm]
  exact ⟨hm, rfl⟩

theorem loadPage_triple (e : StorageError) (r : BitVec 32) : Triple (Row stores) (MultiColumnStore.loadPage e r)
    (fun _ => Row stores) (Row stores) := by
  intro m hm
  obtain ⟨fs, ⟨f, -, hrun⟩ | hrun⟩ := MultiColumnStore.loadPage_cases e r m
  all_goals
    rw [hrun]
    refine ⟨fun a m' he => ?_, fun e' m' he => ?_⟩
    all_goals
      obtain ⟨-, rfl⟩ := Prod.mk.inj he
      exact hm

theorem loadNew_triple (e : StorageError) : Triple (Row stores) (MultiColumnStore.loadNew e)
    (fun _ => Row stores) (Row stores) := by
  intro m hm
  obtain ⟨fs, ⟨r, f, rest, -, -, -, hrun⟩ | hrun⟩ := MultiColumnStore.loadNew_cases e m
  all_goals
    rw [hrun]
    refine ⟨fun a m' he => ?_, fun e' m' he => ?_⟩
    all_goals
      obtain ⟨-, rfl⟩ := Prod.mk.inj he
      exact hm

theorem initRootPage_triple (segIdx i : ℕ) : Triple (Row stores) (MultiColumnStore.initRootPage segIdx i)
    (fun _ m => ∃ h, Row (stores.set i h) m) (Row stores) := by
  unfold MultiColumnStore.initRootPage
  have hstore : ∀ i, Triple (Row stores) (MultiColumnStore.store i) (fun _ => Row stores) (Row stores) := fun i =>
    (store_triple i).conseq (fun _ hm => hm) (fun _ _ hm => hm.1) fun _ hm => hm
  refine (hstore 0).bind fun primary => (hstore i).bind fun target => (loadPage_triple _ _).bind fun primaryRoot =>
    (loadNew_triple _).bind fun new => ?_
  dsimp only
  split
  · exact Triple.fail fun _ hm => hm
  · have hwrite : ∀ {r f}, Triple (Row stores) (MultiColumnStore.writePage r f) (fun _ => Row stores) (Row stores) :=
      fun {r f} => Triple.modify fun _ hm => hm
    refine hwrite.bind fun _ => hwrite.bind fun _ => ?_
    refine Triple.bind (Q := fun _ m => ∃ h, Row (stores.set i h) m) (Triple.modify fun m hm => ?_) fun _ =>
      Triple.modify fun m hm => hm
    obtain rfl := hm
    exact ⟨_, rfl⟩

/-- New metadata for a store that keeps its root page. -/
theorem updateMetadata_triple (i : ℕ) (metadata : List (BitVec 8)) : Triple (Row stores)
    (MultiColumnStore.updateMetadata i metadata) (fun _ m => SameRoots stores m.stores) (Row stores) := by
  unfold MultiColumnStore.updateMetadata
  refine (store_triple i).bind fun h => Triple.of_prop fun hh => (loadPage_triple _ _).bind fun f => ?_
  split
  · exact Triple.fail fun _ hm => hm
  · refine Triple.bind (Q := fun _ => Row stores) (Triple.modify fun _ hm => hm) fun _ => Triple.modify fun m hm j hj => ?_
    have hm : m.stores = stores := hm
    dsimp only
    rw [hm]
    exact rootRef_set_self (by rw [hh]; rfl) j

/-- A call of the row, as one of the index. -/
theorem onStores_triple {α : Type} {P E : MultiState → Prop} {m : MultiProg α} {Q : α → MultiState → Prop}
    (hm : Triple P m Q E) : Triple (fun s : IndexState => P s.multi) (onStores m) (fun a s => Q a s.multi)
      (fun s => E s.multi) := by
  refine fun s hs => ⟨fun a s' hrun => ?_, fun e s' hrun => ?_⟩
  · obtain ⟨hres, rfl⟩ := Prod.mk.inj hrun
    exact (hm s.multi hs).1 a _ (Prod.ext hres rfl)
  · obtain ⟨hres, rfl⟩ := Prod.mk.inj hrun
    exact (hm s.multi hs).2 e _ (Prod.ext hres rfl)

/-- A half of a level is only made where it is not there. -/
theorem ensureHalf_triple (level : ℕ) (overflow : Bool) :
    Triple (fun s => SameRoots stores s.multi.stores) (ensureHalf level overflow)
      (fun _ s => SameRoots stores s.multi.stores) (fun s => SameRoots stores s.multi.stores) := by
  intro s hs
  rw [ensureHalf_apply]
  split
  · exact Triple.pure (fun _ hs => hs) s hs
  · rename_i hhalf
    have hnone : rootRef s.multi.stores (rootIndex level overflow) = noRef := by
      by_contra hne
      exact hhalf (decide_eq_true hne)
    have hinit := @initRootPage_triple s.multi.stores
    refine (onStores_triple (hinit _ _)).conseq (fun _ hs => hs) (fun _ s' hs' => ?_) (fun s' hs' => ?_) s rfl
    · obtain ⟨h, hrow⟩ := hs'
      rw [hrow]
      exact hs.trans (.set hnone h)
    · rw [hs']
      exact hs

theorem ensureLevels_sameRoots (target : ℕ) : SameRoots s.multi.stores (ensureLevels target s).2.multi.stores := by
  have hlevel : ∀ level, Triple (fun t => SameRoots s.multi.stores t.multi.stores) (ensureLevel level)
      (fun _ t => SameRoots s.multi.stores t.multi.stores) (fun t => SameRoots s.multi.stores t.multi.stores) := fun level =>
    (ensureHalf_triple level false).bind fun _ => (ensureHalf_triple level true).bind fun _ => Triple.modify fun _ hs => hs
  refine Triple.state (P := fun t : IndexState => SameRoots s.multi.stores t.multi.stores)
    (R := fun t => SameRoots s.multi.stores t.multi.stores) ?_ (.refl _)
  unfold ensureLevels
  refine (Triple.get.conseq (fun _ hs => hs) (fun _ _ hs => hs.2) fun _ hs => hs).bind fun t => ?_
  refine (Triple.forM fun level _ => hlevel level).bind fun _ =>
    (Triple.get.conseq (fun _ hs => hs) (fun _ _ hs => hs.2) fun _ hs => hs).bind fun t => Triple.pure fun _ hs => hs

/-- A new entry point changes the metadata of the first store only. -/
theorem setEntryPoint_sameRoots (node : RawNode) (level : ℕ) :
    SameRoots s.multi.stores (setEntryPoint emptyRef node level s).2.multi.stores := by
  refine Triple.state (P := fun t : IndexState => Row s.multi.stores t.multi)
    (R := fun t => SameRoots s.multi.stores t.multi.stores) ?_ rfl
  have hsame : ∀ t : IndexState, Row s.multi.stores t.multi → SameRoots s.multi.stores t.multi.stores := fun t ht => by
    rw [show t.multi.stores = s.multi.stores from ht]
    exact .refl _
  unfold setEntryPoint
  refine (Triple.get.conseq (fun _ hs => hs) (fun _ _ hs => hs.2) fun _ hs => hs).bind fun t => ?_
  split
  · exact Triple.fail hsame
  · exact ((onStores_triple (updateMetadata_triple 0 _)).conseq (fun _ hs => hs) (fun _ _ hs => hs) hsame).bind fun _ =>
      Triple.modify fun _ hs => hs

/-- **Steps of the storage** keep the levels and the root pages there are. -/
theorem storageStep_sameRoots (hempty : NoRecord emptyRef) (h : Whole ps emptyRef spaceRef M s p others)
    (hstep : StorageStep ps emptyRef M s s') :
    (∀ l, s.levels l → s'.levels l) ∧ SameRoots s.multi.stores s'.multi.stores := by
  cases hstep with
  | serve supply faults hblank => exact ⟨fun _ hl => hl, .refl _⟩
  | ensureLevels target ht => exact ⟨(ensureLevels_whole h ht).levels, ensureLevels_sameRoots target⟩
  | setEntryPoint node level hl hnid =>
    have hlt : node.nid < 2 ^ 64 := hnid.trans (by norm_num [incomingBit])
    refine ⟨fun l hl' => ?_, setEntryPoint_sameRoots node level⟩
    obtain ⟨s1, p1, hrun, -, -, hlevels, -⟩ | ⟨s1, hrun, -, -, hlevels, -⟩ := setEntryPoint_whole h hempty.lt hl hlt
      fun hne => hempty.ne node.nid hne hnid
    all_goals
      rw [hrun]
      exact hlevels ▸ hl'
  | record hrecord =>
    obtain ⟨-, hsame⟩ := record_whole h hrecord
    exact ⟨fun l hl => by rw [hsame.levels]; exact hl, by rw [hsame.stores]; exact .refl _⟩
  | load dataPages hf hrun =>
    rw [load_whole h hempty.lt rfl hf] at hrun
    cases hentry : reloadEntryPoint ps dataPages s with
    | error e =>
      rw [hentry] at hrun
      cases hrun
    | ok node =>
      rw [hentry] at hrun
      cases hrun
      exact ⟨fun _ hl => hl, .reloaded _⟩

end Roots

/-! ### Every store within its pages -/

/-- Every store of the row has its own pages: its chains and those of no other, and
the records that were inserted into it. -/
structure Owned (s : SpaceState) : Prop where
  links : LinksWithin s.pages
  heads : ∀ i r, (s.roots i).Names r →
    rootRef s.index.multi.stores i ≠ noRef ∧ IsPageOf s.pages (rootRef s.index.multi.stores i).toNat r
  inserted : ∀ x ∈ s.inserted, s.index.levels x.level ∧
    rootRef s.index.multi.stores (storeIndex x.level x.kind) ≠ noRef ∧
    IsPageOf s.pages (rootRef s.index.multi.stores (storeIndex x.level x.kind)).toNat (DataPage.decodeColumnRef x.ref).1

section Runs

variable {ps : PageSize} {emptyRef : ℕ} {spaceRef : BitVec 32} {M : ℕ} {s s' : SpaceState} {p : StoreHandle}
  {others : List StoreHandle} {level : ℕ} {kind : StoreKind}

/-- The request is for a page of the store. -/
def Request.OnOwnPage (cs : ColumnStore) (pages : ℕ → Option Page) : Request → Prop
  | .call c => ColumnStore.OnOwnPage cs pages c
  | .update colRef _ _ _ _ => IsPageOf pages cs.rootPageRef (DataPage.decodeColumnRef colRef).1

/-- A request of one store among others. -/
theorem run_within {cs : ColumnStore} {base : ℕ → Option Page} {t t' : Store} {req : Request}
    (ht : Within cs base t) (hreq : req.OnOwnPage cs t.pages) {res : Except StorageError (Option ℕ)}
    (h : req.run cs t = (res, t')) :
    Within cs base t' ∧ ∀ ref, res = .ok (some ref) → IsPageOf t'.pages cs.rootPageRef (DataPage.decodeColumnRef ref).1 := by
  cases req with
  | call c => exact ColumnStore.call_within ht hreq h
  | update colRef addr colData chunkIds chunkSize =>
    have hrun : Prog.Triple (Owns cs base (DataPage.decodeColumnRef colRef).1)
        (Request.run cs (.update colRef addr colData chunkIds chunkSize))
        (fun res s => Within cs base s ∧ res = none) (Within cs base) :=
      (ColumnStore.update_triple colRef addr colData chunkIds chunkSize).bind fun _ => Prog.Triple.pure fun _ hs => ⟨hs, rfl⟩
    cases res with
    | ok o =>
      obtain ⟨hw, rfl⟩ := (hrun t ⟨ht, hreq⟩).1 o t' h
      exact ⟨hw, fun ref hr => by cases hr⟩
    | error e => exact ⟨(hrun t ⟨ht, hreq⟩).2 e t' h, fun ref hr => by cases hr⟩

theorem created_owned (h : SpaceState.Created ps emptyRef spaceRef M s) : Owned s := by
  obtain ⟨-, hroots, hpages, hinserted⟩ := h
  refine ⟨⟨fun r p q hp => ?_, fun r p q hp => ?_, fun r hr => ?_⟩, fun i r hr => ?_, fun x hx => ?_⟩
  · rw [hpages] at hp
    cases hp
  · rw [hpages] at hp
    cases hp
  · rw [hpages] at hr
    cases hr
  · rw [hroots] at hr
    simp [RootFrame.format, RootFrame.Names] at hr
  · rw [hinserted] at hx
    cases hx

/-- Root pages that stay in their places. -/
theorem Owned.storage (h : Owned s) {index : IndexState} (hlevels : ∀ l, s.index.levels l → index.levels l)
    (hsame : SameRoots s.index.multi.stores index.multi.stores) : Owned { s with index := index } := by
  refine ⟨h.links, fun i r hr => ?_, fun x hx => ?_⟩
  · obtain ⟨hne, hpage⟩ := h.heads i r hr
    have heq := hsame i hne
    exact ⟨heq ▸ hne, heq ▸ hpage⟩
  · obtain ⟨hlevel, hne, hpage⟩ := h.inserted x hx
    have heq := hsame _ hne
    exact ⟨hlevels _ hlevel, heq ▸ hne, heq ▸ hpage⟩

/-- The store that is called, in its place in the row. -/
theorem Owned.within (h : Owned s) (hw : Whole ps emptyRef spaceRef M s.index p others) (hlevel : s.index.levels level)
    {req : Request} (hreq : s.Allows level kind req) :
    rootRef s.index.multi.stores (storeIndex level kind) ≠ noRef ∧
      Within (columnStore ps spaceRef (s.index.multi.stores.getD (storeIndex level kind) default)) s.pages
        (s.store (storeIndex level kind)) ∧
      req.OnOwnPage (columnStore ps spaceRef (s.index.multi.stores.getD (storeIndex level kind) default)) s.pages := by
  obtain ⟨x, hx, hinit⟩ := hw.getElem?_level hlevel (kind = .overflow)
  refine ⟨?_, ⟨h.links, fun r hr => (h.heads _ r hr).2, fun _ hr => hr, fun _ _ hp _ => hp⟩, ?_⟩
  · unfold rootRef
    rw [hw.mounted.stores, List.getD_eq_getElem?_getD, storeIndex, hx]
    exact hinit
  · cases req with
    | call c =>
      cases c with
      | insert env trxRef colData => trivial
      | markDelete trxRef colRef deleteMark => exact (h.inserted _ hreq).2.2
      | purge rand trxRef colRef => exact (h.inserted _ hreq).2.2
    | update colRef addr colData chunkIds chunkSize => exact (h.inserted _ hreq).2.2

/-- **A request** leaves every store with its own pages. -/
theorem Owned.request (h : Owned s) (hw : Whole ps emptyRef spaceRef M s.index p others) {req : Request}
    (hlevel : s.index.levels level) (hreq : s.Allows level kind req) :
    Owned (s.request ps spaceRef level kind req) := by
  obtain ⟨hroot, hwithin, hown⟩ := h.within hw hlevel hreq
  set stores := s.index.multi.stores with hstores
  set i := storeIndex level kind with hi
  set cs := columnStore ps spaceRef (stores.getD i default) with hcs
  have href : cs.rootPageRef = (rootRef stores i).toNat := rfl
  rcases hrun : req.run cs (s.store i) with ⟨res, t⟩
  obtain ⟨ht, hres⟩ := run_within hwithin hown hrun
  have hkept : ∀ x ∈ s.inserted, s.index.levels x.level ∧ rootRef stores (storeIndex x.level x.kind) ≠ noRef ∧
      IsPageOf t.pages (rootRef stores (storeIndex x.level x.kind)).toNat (DataPage.decodeColumnRef x.ref).1 :=
    fun x hx => ⟨(h.inserted x hx).1, (h.inserted x hx).2.1, ht.kept (h.inserted x hx).2.2⟩
  have hnoted : ∀ x ∈ SpaceState.noted level kind s.inserted res, x ∈ s.inserted ∨
      ∃ ref, res = .ok (some ref) ∧ x = ⟨ref, level, kind⟩ := fun x hx => by
    unfold SpaceState.noted at hx
    split at hx
    · rename_i ref
      exact (List.mem_cons.mp hx).symm.imp_right fun he => ⟨ref, rfl, he⟩
    · exact .inl hx
  unfold SpaceState.request
  dsimp only
  rw [← hstores, ← hi, ← hcs, hrun]
  refine ⟨ht.links, fun j r hr => ?_, fun x hx => ?_⟩
  · dsimp only at hr
    by_cases hj : j = i
    · rw [hj, Function.update_self] at hr
      rw [hj]
      exact ⟨hroot, href ▸ ht.heads r hr⟩
    · rw [Function.update_of_ne hj] at hr
      exact ⟨(h.heads j r hr).1, ht.kept (h.heads j r hr).2⟩
  · rcases hnoted x hx with hx | ⟨ref, hr, rfl⟩
    · exact hkept x hx
    · exact ⟨hlevel, hroot, href ▸ hres ref hr⟩

/-- **The invariant of all runs.** -/
theorem reached_owned (hempty : NoRecord emptyRef)
    (h : Reaches (SpaceState.Created ps emptyRef spaceRef M) (SpaceStep ps emptyRef spaceRef M) s) :
    (∃ p others, Whole ps emptyRef spaceRef M s.index p others) ∧ Owned s := by
  refine h.invariant (I := fun s => (∃ p others, Whole ps emptyRef spaceRef M s.index p others) ∧ Owned s)
    (fun s hs => ⟨reached_whole hempty (.init hs.1), created_owned hs⟩) fun s s' hI hstep => ?_
  obtain ⟨⟨p, others, hw⟩, ho⟩ := hI
  cases hstep with
  | storage hstep =>
    obtain ⟨hlevels, hsame⟩ := storageStep_sameRoots hempty hw hstep
    exact ⟨step_whole hempty hw hstep, ho.storage hlevels hsame⟩
  | switch info faults => exact ⟨⟨p, others, hw⟩, ho.links, ho.heads, ho.inserted⟩
  | request level kind req hlevel hreq => exact ⟨⟨p, others, hw⟩, ho.request hw hlevel hreq⟩

/-! ### A run -/

/-- A new index in a new space. -/
def newSpace : SpaceState := ⟨newIndex, fun _ => RootFrame.format, fun _ => none, ⟨0, none, 0, 0⟩, [], []⟩

/-- An overflow record of level 1, on page 20. -/
def overflowInsert : Request := .call (.insert ⟨0, 0, 1, 20⟩ 7 (some (List.replicate (overflowLen 2 1) 0)))

def oneOverflow : SpaceState :=
  ({ newSpace with index := twoLevels }).request .k16 1 1 .overflow overflowInsert

theorem reached_oneOverflow :
    Reaches (SpaceState.Created .k16 (2 ^ 64 - 1) 1 2) (SpaceStep .k16 (2 ^ 64 - 1) 1 2) oneOverflow :=
  ((Reaches.init ⟨created_newIndex, rfl, rfl, rfl⟩).step (.storage (.ensureLevels 1 (by decide)))).step
    (.request 1 .overflow overflowInsert (by decide +kernel) trivial)

/-! ### What a request leaves alone -/

theorem storeIndex_inj {x : Record} (h : storeIndex x.level x.kind = storeIndex level kind) :
    x.level = level ∧ x.kind = kind := by
  obtain ⟨hlevel, hkind⟩ := rootIndex_inj.mp h
  refine ⟨hlevel, ?_⟩
  cases hx : x.kind <;> cases kind <;> simp [hx] at hkind ⊢

/-- **Stores are apart.** Whether it is served or fails, a request to one store leaves
the data page of every record of the other stores as it is. -/
theorem request_apart (hempty : NoRecord emptyRef)
    (h : Reaches (SpaceState.Created ps emptyRef spaceRef M) (SpaceStep ps emptyRef spaceRef M) s) {req : Request}
    (hlevel : s.index.levels level) (hreq : s.Allows level kind req) {x : Record} (hx : x ∈ s.inserted)
    (hother : x.level ≠ level ∨ x.kind ≠ kind) :
    (s.request ps spaceRef level kind req).pages (DataPage.decodeColumnRef x.ref).1 =
      s.pages (DataPage.decodeColumnRef x.ref).1 := by
  obtain ⟨⟨p, others, hw⟩, ho⟩ := reached_owned hempty h
  obtain ⟨hroot, hwithin, hown⟩ := ho.within hw hlevel hreq
  rcases hrun : req.run (columnStore ps spaceRef (s.index.multi.stores.getD (storeIndex level kind) default))
    (s.store (storeIndex level kind)) with ⟨res, t⟩
  obtain ⟨ht, -⟩ := run_within hwithin hown hrun
  obtain ⟨-, hxroot, page, hpage, href⟩ := ho.inserted x hx
  have hne : page.rootPageRef ≠ (rootRef s.index.multi.stores (storeIndex level kind)).toNat := by
    rw [href]
    intro he
    have hindex := hw.rootRef_inj hxroot (BitVec.eq_of_toNat_eq he)
    obtain ⟨hl, hk⟩ := storeIndex_inj hindex
    rcases hother with hother | hother
    · exact hother hl
    · exact hother hk
  unfold SpaceState.request
  dsimp only
  rw [hrun, hpage]
  exact ht.others _ page hpage hne

/-- A record of level 0, on page 21. -/
def entryInsert : Request := .call (.insert ⟨0, 0, 1, 21⟩ 7 (some (List.replicate (entryLen 2 0) 0)))

theorem request_apart_overflow :
    (oneOverflow.request .k16 1 0 .neighbour entryInsert).pages 20 = oneOverflow.pages 20 := by
  have hmem : (⟨20, 1, .overflow⟩ : Record) ∈ oneOverflow.inserted := by decide +kernel
  have hreq : oneOverflow.Allows 0 .neighbour entryInsert := trivial
  exact request_apart noRecord_max reached_oneOverflow (by decide +kernel) hreq hmem (.inl (by decide))

/-! ### Locate -/

/-- The incoming flag stands above the column reference. -/
theorem columnRef_setIncoming (ref : ℕ) : columnRef (ref ||| 2 ^ incomingBit) = columnRef ref := by
  have hbit : 2 ^ incomingBit &&& (2 ^ incomingBit - 1) = 0 := by decide
  unfold columnRef
  rw [Nat.and_or_distrib_right, hbit, Nat.or_zero]

theorem decodeColumnRef_columnRef (ref : ℕ) :
    (DataPage.decodeColumnRef (columnRef ref)).1 = (DataPage.decodeColumnRef ref).1 := by
  have hmask : (2 ^ incomingBit - 1) &&& 0xFFFFFFFF = 0xFFFFFFFF := by decide
  unfold columnRef DataPage.decodeColumnRef
  dsimp only
  rw [Nat.and_assoc, hmask]

/-- A position tells the level and the kind. -/
theorem storeIndex_div (level : ℕ) (kind : StoreKind) : storeIndex level kind / 2 = level ∧
    (if storeIndex level kind % 2 = 1 then .overflow else .neighbour) = kind := by
  cases kind
  · simp [storeIndex, rootIndex]
  · simp [storeIndex, rootIndex]
    omega

/-- A page of a store is found in the store's place. -/
theorem getRootIndex_of_isPageOf (hw : Whole ps emptyRef spaceRef M s.index p others) {i ref : ℕ} (hi : i < 2 ^ 8)
    (hroot : rootRef s.index.multi.stores i ≠ noRef)
    (hpage : IsPageOf s.pages (rootRef s.index.multi.stores i).toNat (DataPage.decodeColumnRef ref).1) :
    MultiColumnStore.getRootIndex s.index.multi.stores s.pages ref = .ok i := by
  obtain ⟨p, hp, hpage⟩ := hpage
  have hfind : s.index.multi.stores.findIdx? (fun h => h.rootPageRef.toNat == p.rootPageRef) = some i := by
    rw [List.findIdx?_eq_some_iff_getElem]
    have hlt : i < s.index.multi.stores.length := by
      by_contra hge
      unfold rootRef at hroot
      rw [List.getD_eq_default _ _ (by omega)] at hroot
      exact hroot rfl
    refine ⟨hlt, ?_, fun j hj => ?_⟩
    · rw [beq_iff_eq, hpage, rootRef, List.getD_eq_getElem _ _ hlt]
    · rw [beq_iff_eq, hpage]
      intro he
      have heq : rootRef s.index.multi.stores i = rootRef s.index.multi.stores j := by
        rw [rootRef.eq_def _ j, List.getD_eq_getElem _ _ (by omega)]
        exact BitVec.eq_of_toNat_eq he.symm
      have := hw.rootRef_inj hroot heq
      omega
  unfold MultiColumnStore.getRootIndex
  rw [hp]
  dsimp only
  rw [hfind]
  dsimp only
  rw [Nat.mod_eq_of_lt hi]

/-- **Records are found where they were inserted.** -/
theorem locate_inserted (hempty : NoRecord emptyRef)
    (h : Reaches (SpaceState.Created ps emptyRef spaceRef M) (SpaceStep ps emptyRef spaceRef M) s) {x : Record}
    (hx : x ∈ s.inserted) {nid : ℕ} (hnid : nid = x.ref ∨ nid = x.ref ||| 2 ^ incomingBit) :
    locate s.index s.pages nid = .ok (some x.level, x.kind) := by
  obtain ⟨⟨p, others, hw⟩, ho⟩ := reached_owned hempty h
  obtain ⟨hlevel, hroot, hpage⟩ := ho.inserted x hx
  have hlt : x.level < 32 := hw.levels_lt hlevel
  have hindex : storeIndex x.level x.kind < 2 ^ 8 := by
    have := (storeIndex_div x.level x.kind).1
    omega
  have href : columnRef nid = columnRef x.ref := by
    rcases hnid with rfl | rfl
    · rfl
    · exact columnRef_setIncoming x.ref
  rw [← decodeColumnRef_columnRef, ← href] at hpage
  obtain ⟨hdiv, hkind⟩ := storeIndex_div x.level x.kind
  unfold locate
  rw [getRootIndex_of_isPageOf hw hindex hroot hpage]
  show Except.ok (getLevel s.index (storeIndex x.level x.kind / 2), _) = _
  rw [hdiv, hkind, getLevel, if_pos ⟨hlt, hlevel⟩]

/-- The flagged reference of the record leads to level 1. -/
theorem locate_inserted_overflow : locate oneOverflow.index oneOverflow.pages (20 ||| 2 ^ incomingBit) =
    .ok (some 1, .overflow) := by
  have hmem : (⟨20, 1, .overflow⟩ : Record) ∈ oneOverflow.inserted := by decide +kernel
  exact locate_inserted noRecord_max reached_oneOverflow hmem (.inr rfl)

end Runs

end IndexStore
end Hnsw
end VsqlVector
