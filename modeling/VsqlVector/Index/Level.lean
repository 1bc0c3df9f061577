/-
# The records of a level

Each level of the index keeps its nodes in two column stores: one holds a
`NeighbourEntry` for every node, the other the `OverflowEntry` records that are
chained off a node when its own list has no room for an incoming link
(`src/index/hnsw/hnsw.h`, `LevelStore` in `src/index/hnsw/storage.cc`).

A column reference is a number, never zero, and a store is the table of the
records in use. Where the source allows `INVALID`, the model has `none`. Which
free reference an insert takes and which calls of the storage and the server fail is up
to these: both are lists in the state, so a statement about every state is a
statement about every choice.

Key definitions: `NeighbourEntry`, `OverflowEntry`, `LevelStore`, `LevelState`.
-/
import Mathlib
import VsqlVector.Lib.Prog
import VsqlVector.Lib.Slots
import VsqlVector.Storage.ColumnStore

namespace VsqlVector
namespace Hnsw

/-! ### Ids and records -/

/-- A valid `NID`: a column reference and the incoming flag, bit 46 of the source's word. -/
structure NID where
  ref : ℕ
  incoming : Bool
  deriving DecidableEq, Repr

namespace NID

def setIncoming (n : NID) : NID := { n with incoming := true }
def clearIncoming (n : NID) : NID := { n with incoming := false }

@[simp] theorem setIncoming_ref (n : NID) : n.setIncoming.ref = n.ref := rfl
@[simp] theorem setIncoming_incoming (n : NID) : n.setIncoming.incoming = true := rfl
@[simp] theorem clearIncoming_ref (n : NID) : n.clearIncoming.ref = n.ref := rfl
@[simp] theorem clearIncoming_incoming (n : NID) : n.clearIncoming.incoming = false := rfl

/-- Without the flag an id is its reference. -/
theorem clearIncoming_eq_iff {n m : NID} (hm : m.incoming = false) :
    n.clearIncoming = m ↔ n.ref = m.ref := by
  rcases m with ⟨r, f⟩
  obtain rfl : f = false := hm
  simp [clearIncoming]

end NID

/-- A node: its record and the vector it stands for. -/
structure Node where
  nid : NID
  vid : ℕ
  deriving DecidableEq, Repr

def Node.key (n : Node) : NID := n.nid

/-- Which of a level's two stores a record is in. -/
inductive StoreKind
  | neighbour
  | overflow
  deriving DecidableEq, Repr

structure NeighbourEntry where
  owner : ℕ
  lowerLevel : Option NID
  neighbours : List (Option Node)
  overflow : Option NID
  deriving DecidableEq, Repr

structure OverflowEntry where
  incoming : List (Option NID)
  overflow : Option NID
  deriving DecidableEq, Repr

/-- A record in use, with the transaction that stamped it last and its delete mark. -/
structure Record (α : Type) where
  trxRef : ℕ
  deleteMarked : Bool
  entry : α
  deriving DecidableEq, Repr

/-! ### The stores of a level -/

/-- The records in use in a level's two stores. -/
structure LevelStore where
  nodes : AList fun _ : ℕ => Record NeighbourEntry
  overflows : AList fun _ : ℕ => Record OverflowEntry

namespace LevelStore

def empty : LevelStore := ⟨∅, ∅⟩

def maxNeighbours (level M : ℕ) : ℕ := if level = 0 then 2 * M else M

def maxOverflowLen : ℕ := 8

def overflowCapacity (M : ℕ) : ℕ := min maxOverflowLen M

end LevelStore

/-- How a storage call ends: as it should, with an error and nothing done, or
with an error after its work is done (a free list that cannot be updated). -/
inductive Outcome
  | done
  | refused (e : StorageError)
  | late (e : StorageError)
  deriving DecidableEq, Repr

/-- What the calls to come will do: their outcomes, all `done` once the list is
used up, and the references the inserts among them take. -/
structure Supply where
  outcomes : List Outcome
  refs : List ℕ
  deriving DecidableEq, Repr

/-- What an operation at one level reads and writes. -/
structure LevelState extends LevelStore, Supply

abbrev LevelProg := Prog StorageError LevelState

/-- What a level's operations are given: the level, the index's `M` and the
calling transaction. -/
structure LevelCtx where
  level : ℕ
  M : ℕ
  trxRef : ℕ

namespace LevelCtx

def maxNeighbours (c : LevelCtx) : ℕ := LevelStore.maxNeighbours c.level c.M
def overflowCapacity (c : LevelCtx) : ℕ := LevelStore.overflowCapacity c.M

end LevelCtx

namespace LevelProg

/-- A call that only reads, a page load say, which fails if its outcome is not `done`. -/
def load : LevelProg Unit := fun s =>
  match s.outcomes with
  | [] => (.ok (), s)
  | .done :: os => (.ok (), { s with outcomes := os })
  | .refused e :: os => (.error e, { s with outcomes := os })
  | .late e :: os => (.error e, { s with outcomes := os })

/-- A storage call that can also fail after its work `p` is done. -/
def storageCall {α : Type} (p : LevelProg α) : LevelProg α := fun s =>
  match s.outcomes with
  | [] => p s
  | .done :: os => p { s with outcomes := os }
  | .refused e :: os => (.error e, { s with outcomes := os })
  | .late e :: os => (.error e, (p { s with outcomes := os }).2)

/-- The error of `ColumnStore::fetch` and `ColumnStore::update` on a free record. -/
def slotIsFree (op : String) (nid : NID) : StorageError :=
  ⟨op ++ ": slot " ++ toString (DataPage.decodeColumnRef nid.ref).2 ++ " is free", true⟩

/-- `LevelStore::fetch` of a neighbour record, with every slot in place. -/
def fetch (nid : NID) : LevelProg NeighbourEntry := do
  load
  let s ← Prog.get
  Prog.ofOption (slotIsFree "fetch" nid) ((s.nodes.lookup nid.ref).map Record.entry)

/-- `LevelStore::fetch` of an overflow record. -/
def fetchOverflow (nid : NID) : LevelProg OverflowEntry := do
  load
  let s ← Prog.get
  Prog.ofOption (slotIsFree "fetch" nid) ((s.overflows.lookup nid.ref).map Record.entry)

/-- `LevelStore::update` of a neighbour record: `f` writes the fields of the mask. -/
def update (nid : NID) (f : NeighbourEntry → NeighbourEntry) : LevelProg Unit := do
  load
  let s ← Prog.get
  let r ← Prog.ofOption (slotIsFree "update" nid) (s.nodes.lookup nid.ref)
  Prog.modify fun s => { s with nodes := s.nodes.insert nid.ref { r with entry := f r.entry } }

/-- `LevelStore::update` of an overflow record. -/
def updateOverflow (nid : NID) (f : OverflowEntry → OverflowEntry) : LevelProg Unit := do
  load
  let s ← Prog.get
  let r ← Prog.ofOption (slotIsFree "update" nid) (s.overflows.lookup nid.ref)
  Prog.modify fun s =>
    { s with overflows := s.overflows.insert nid.ref { r with entry := f r.entry } }

/-- The error of an insert for which the server has no page. -/
def noPage : StorageError := ⟨"insert: failed to allocate new data page", false⟩

/-- A record for the entry at the next reference, stamped with the calling transaction. -/
def place (c : LevelCtx) (e : NeighbourEntry) : LevelProg NID := fun s =>
  match s.refs with
  | [] => (.error noPage, s)
  | r :: rs =>
    if r ≠ 0 ∧ s.nodes.lookup r = none then
      (.ok ⟨r, false⟩, { s with
        refs := rs
        nodes := s.nodes.insert r
          ⟨c.trxRef, false, { e with neighbours := padSlots c.maxNeighbours e.neighbours }⟩ })
    else (.error noPage, { s with refs := rs })

/-- An overflow record for the entry at the next reference. -/
def placeOverflow (c : LevelCtx) (e : OverflowEntry) : LevelProg NID := fun s =>
  match s.refs with
  | [] => (.error noPage, s)
  | r :: rs =>
    if r ≠ 0 ∧ s.overflows.lookup r = none then
      (.ok ⟨r, false⟩, { s with
        refs := rs
        overflows := s.overflows.insert r
          ⟨c.trxRef, false, { e with incoming := padSlots c.overflowCapacity e.incoming }⟩ })
    else (.error noPage, { s with refs := rs })

/-- `LevelStore::insert` of a neighbour record. -/
def insert (c : LevelCtx) (e : NeighbourEntry) : LevelProg NID := storageCall (place c e)

/-- `LevelStore::insert` of an overflow record. -/
def insertOverflow (c : LevelCtx) (e : OverflowEntry) : LevelProg NID :=
  storageCall (placeOverflow c e)

/-- A purge frees a record only for the transaction that stamped it last. -/
def stampedBy {α : Type} (trxRef : ℕ) (r : Option (Record α)) : Bool :=
  r.any fun r => r.trxRef == trxRef

/-- `LevelStore::remove`, which does nothing to a record it may not purge. -/
def remove (c : LevelCtx) (nid : NID) : StoreKind → LevelProg Unit
  | .neighbour => storageCall <| Prog.modify fun s =>
    if stampedBy c.trxRef (s.nodes.lookup nid.ref) then
      { s with nodes := s.nodes.erase nid.ref } else s
  | .overflow => storageCall <| Prog.modify fun s =>
    if stampedBy c.trxRef (s.overflows.lookup nid.ref) then
      { s with overflows := s.overflows.erase nid.ref } else s

/-- `LevelStore::mark_delete`, which stamps the record again. -/
def markDelete (c : LevelCtx) (nid : NID) (deleteMark : Bool) : LevelProg Unit := do
  load
  Prog.modify fun s => match s.nodes.lookup nid.ref with
    | some r => { s with
        nodes := s.nodes.insert nid.ref { r with trxRef := c.trxRef, deleteMarked := deleteMark } }
    | none => s

end LevelProg
end Hnsw
end VsqlVector
