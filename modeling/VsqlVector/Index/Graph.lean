/-
# The links of a level

`IndexGraph` (`src/index/hnsw/graph.cc`) links the nodes of a level both ways.
A node names the nodes it has links to in its own list; where a neighbour's
list has no room for the link back, the neighbour records the node in its
overflow chain, flagged incoming. `link_neighbours` lands the links back of a
new node, `replace_neighbours` gives a node a new list and `unlink_neighbours`
takes a node out of the level.

Every operation here runs at one level. A walk along an overflow chain takes at
most as many steps as there are overflow records, which is all a chain without
a cycle needs. The scratch buffers of `GraphContext` are left out: each list is
a list of its own.

Key definitions: `createNode`, `linkNeighboursLocked`, `replaceNeighbours`,
`unlinkNeighbours`, `incomingNeighbours`, `dropNode`.
-/
import VsqlVector.Index.Level

namespace VsqlVector
namespace Hnsw
namespace IndexGraph

open LevelProg

/-- A slot that records a link. -/
structure LinkSlot where
  record : NID
  kind : StoreKind
  slot : ℕ
  deriving DecidableEq, Repr

/-- The result of a walk that comes past every overflow record and does not end. -/
def endlessChain : StorageError := ⟨"overflow chain does not end", true⟩

/-- The longest an overflow chain can be. -/
def chainFuel : LevelProg ℕ := do
  let s ← Prog.get
  pure s.overflows.keys.length

/-- Rewrite the slots of a node's list that `ws` names, if it names any. -/
def updateSlots (nid : NID) (ws : List (ℕ × Option Node)) : LevelProg Unit :=
  if ws = [] then pure ()
  else update nid fun e => { e with neighbours := writeSlots ws e.neighbours }

/-- Rewrite the slots of an overflow record that `ws` names, if it names any. -/
def updateIncoming (nid : NID) (ws : List (ℕ × Option NID)) : LevelProg Unit :=
  if ws = [] then pure ()
  else updateOverflow nid fun e => { e with incoming := writeSlots ws e.incoming }

/-! ### Reading -/

/-- `neighbours`: the outgoing links of a node. -/
def neighbours (node : Node) : LevelProg (List Node) := do
  let entry ← fetch node.nid
  pure (entry.neighbours.reduceOption.filter fun n => !n.nid.incoming)

def resolveNode (nid : NID) : LevelProg Node := do
  let entry ← fetch nid
  pure ⟨nid, entry.owner⟩

/-- The part of `incoming_neighbours` that walks the overflow chain. -/
def incomingChain : ℕ → Option NID → LevelProg (List Node)
  | _, none => pure []
  | 0, some _ => Prog.fail endlessChain
  | fuel + 1, some cur => do
    let entry ← fetchOverflow cur
    let here ← entry.incoming.reduceOption.mapM fun nid => resolveNode nid.clearIncoming
    let rest ← incomingChain fuel entry.overflow
    pure (here ++ rest)

/-- `incoming_neighbours`: the nodes recorded as incoming links of `node`. -/
def incomingNeighbours (node : Node) : LevelProg (List Node) := do
  let entry ← fetch node.nid
  let own := (entry.neighbours.reduceOption.filter fun n => n.nid.incoming).map
    fun n => (⟨n.nid.clearIncoming, n.vid⟩ : Node)
  let fuel ← chainFuel
  let chained ← incomingChain fuel entry.overflow
  pure (own ++ chained)

/-- `get_next_level_node`; the reference of an invalid id is zero. -/
def getNextLevelNode (node : Node) : LevelProg Node := do
  let entry ← fetch node.nid
  pure ⟨entry.lowerLevel.getD ⟨0, false⟩, node.vid⟩

/-! ### Overflow chains -/

/-- The walk of `add_overflow_incoming`: `parent` is the record whose overflow
field a new entry goes to if every entry from `cur` on is full. -/
def addOverflowFrom (c : LevelCtx) (incoming : NID) :
    ℕ → NID → StoreKind → Option NID → LevelProg Unit
  | 0, _, _, some _ => Prog.fail endlessChain
  | fuel + 1, _, _, some cur => do
    let entry ← fetchOverflow cur
    match entry.incoming.findIdx? Option.isNone with
    | some slot => updateIncoming cur [(slot, some incoming)]
    | none => addOverflowFrom c incoming fuel cur .overflow entry.overflow
  | _, parent, kind, none => do
    let new ← insertOverflow c ⟨[some incoming], none⟩
    match kind with
    | .neighbour => update parent fun e => { e with overflow := some new }
    | .overflow => updateOverflow parent fun e => { e with overflow := some new }

/-- `add_overflow_incoming`: record `node` in the overflow chain of `neighbour`. -/
def addOverflowIncoming (c : LevelCtx) (neighbour : Node) (overflowHead : Option NID)
    (node : Node) : LevelProg Unit := do
  let fuel ← chainFuel
  addOverflowFrom c node.nid.setIncoming fuel neighbour.nid .neighbour overflowHead

/-- The walk of `find_overflow_link`. -/
def findOverflowFrom (target : NID) : ℕ → Option NID → LevelProg (Option LinkSlot)
  | _, none => pure none
  | 0, some _ => Prog.fail endlessChain
  | fuel + 1, some cur => do
    let entry ← fetchOverflow cur
    match entry.incoming.findIdx? fun o => o.any fun n => n.clearIncoming == target with
    | some slot => pure (some ⟨cur, .overflow, slot⟩)
    | none => findOverflowFrom target fuel entry.overflow

/-- `find_overflow_link`: the slot of a chain that names `target`, if there is one. -/
def findOverflowLink (head : Option NID) (target : NID) : LevelProg (Option LinkSlot) := do
  let fuel ← chainFuel
  findOverflowFrom target fuel head

def clearLink (link : LinkSlot) : LevelProg Unit :=
  match link.kind with
  | .neighbour => updateSlots link.record [(link.slot, none)]
  | .overflow => updateIncoming link.record [(link.slot, none)]

/-- Clear the link if one was found, and say whether it was. -/
def clearFound : Option LinkSlot → LevelProg Bool
  | none => pure false
  | some link => do
    clearLink link
    pure true

/-- An overflow record to drop and the record that names it. -/
structure OverflowLink where
  nid : NID
  prev : NID
  prevKind : StoreKind
  deriving DecidableEq, Repr

/-- The walk of `drop_overflow_nodes`: the chain's links, head first. -/
def overflowLinks : ℕ → NID → StoreKind → Option NID → LevelProg (List OverflowLink)
  | _, _, _, none => pure []
  | 0, _, _, some _ => Prog.fail endlessChain
  | fuel + 1, prev, kind, some cur => do
    let entry ← fetchOverflow cur
    let rest ← overflowLinks fuel cur .overflow entry.overflow
    pure (⟨cur, prev, kind⟩ :: rest)

def dropOverflowNode (c : LevelCtx) (link : OverflowLink) : LevelProg Unit := do
  match link.prevKind with
  | .neighbour => update link.prev fun e => { e with overflow := none }
  | .overflow => updateOverflow link.prev fun e => { e with overflow := none }
  remove c link.nid .overflow

/-- `drop_overflow_nodes`: free the overflow chain of `node`, tail first. -/
def dropOverflowNodes (c : LevelCtx) (node : Node) : LevelProg Unit := do
  let entry ← fetch node.nid
  let fuel ← chainFuel
  let links ← overflowLinks fuel node.nid .neighbour entry.overflow
  links.reverse.forM (dropOverflowNode c)

/-! ### Creating and linking a node -/

/-- The part of `create_node` at the node's own level: a record whose links are
all incoming, for `link_neighbours` to settle. -/
def createNode (c : LevelCtx) (owner : ℕ) (neighbours : List Node) : LevelProg Node := do
  let nid ← insert c ⟨owner, none,
    neighbours.map fun n => some ⟨n.nid.setIncoming, n.vid⟩, none⟩
  pure ⟨nid, owner⟩

/-- The free slot `link_neighbours_locked` lands a link in. -/
def freeSlot (c : LevelCtx) (e : NeighbourEntry) : Option ℕ :=
  if e.neighbours.countP Option.isSome < c.maxNeighbours then
    e.neighbours.findIdx? Option.isNone
  else none

/-- Record `node` on `neighbour`, whose entry is `e`; returns the neighbour if
its list has no room. -/
def landIn (c : LevelCtx) (node neighbour : Node) (e : NeighbourEntry) : LevelProg (List Node) :=
  match freeSlot c e with
  | some slot => do
    updateSlots neighbour.nid [(slot, some node)]
    pure []
  | none => do
    addOverflowIncoming c neighbour e.overflow node
    pure [neighbour]

/-- Land the link back from `neighbour`; a record that cannot be read is passed over. -/
def landLink (c : LevelCtx) (node neighbour : Node) : LevelProg (List Node) := do
  match ← Prog.attempt (fetch neighbour.nid) with
  | .error _ => pure []
  | .ok e => landIn c node neighbour e

/-- One slot of the walk of `link_neighbours_locked`: the neighbours without
room and the links to confirm, so far and after it. -/
def linkSlot (c : LevelCtx) (node : Node) (acc : List Node × List (ℕ × Option Node)) :
    Option Node × ℕ → LevelProg (List Node × List (ℕ × Option Node))
  | (none, _) => pure acc
  | (some current, slot) =>
    if current.nid.incoming then do
      let neighbour : Node := ⟨current.nid.clearIncoming, current.vid⟩
      let out ← landLink c node neighbour
      pure (acc.1 ++ out, acc.2 ++ [(slot, some neighbour)])
    else pure acc

/-- `link_neighbours_locked`: land a link back for every incoming link of `node`,
then confirm these links. Returns the neighbours whose list had no room. -/
def linkNeighboursLocked (c : LevelCtx) (node : Node) : LevelProg (List Node) := do
  let entry ← fetch node.nid
  let (out, links) ← entry.neighbours.zipIdx.foldlM (linkSlot c node) ([], [])
  updateSlots node.nid links
  pure out

/-! ### Replacing the links of a node -/

/-- Whether an optional slot names `nid`, the flag ignored. -/
def slotNames (nid : NID) (o : Option Node) : Bool :=
  o.any fun n => n.nid.clearIncoming == nid

/-- `drop_neighbour_link` once the neighbour's entry is read. -/
def dropFrom (node : Node) (neighbour : NID) (entry : NeighbourEntry) : LevelProg Bool :=
  match entry.neighbours.zipIdx.find? fun w => slotNames node.nid w.1 with
  | some (some n, slot) =>
    if n.nid.incoming then do
      clearLink ⟨neighbour, .neighbour, slot⟩
      pure false
    else pure true
  | _ => do
    let link ← findOverflowLink entry.overflow node.nid
    let _ ← clearFound link
    pure false

/-- `drop_neighbour_link`: take back what `neighbour` records of `node`, unless it
is an outgoing link of its own, which it keeps. -/
def dropNeighbourLink (node : Node) (neighbour : NID) : LevelProg Bool := do
  match ← Prog.attempt (fetch neighbour) with
  | .error _ => pure false
  | .ok entry => dropFrom node neighbour entry

def inUpdated (updated : List Node) (n : Node) : Bool :=
  updated.any fun u => u.nid == n.nid.clearIncoming

/-- Step A of `replace_neighbours`: the outgoing links that are dropped, flagged incoming. -/
def demoted (updated : List Node) (slots : List (Option Node)) : List (ℕ × Option Node) :=
  slots.zipIdx.filterMap fun w => match w.1 with
    | some n => if n.nid.incoming || inUpdated updated n then none
      else some (w.2, some ⟨n.nid.setIncoming, n.vid⟩)
    | none => none

/-- Step B for one slot: drop the link on the far side; a neighbour that keeps a
link of its own goes to the overflow chain of `node`. -/
def dropSlot (c : LevelCtx) (node : Node) (updated : List Node) : Option Node → LevelProg Unit
  | none => pure ()
  | some current =>
    if inUpdated updated current then pure ()
    else do
      let dropped : Node := ⟨current.nid.clearIncoming, current.vid⟩
      let keepsLink ← dropNeighbourLink node dropped.nid
      if keepsLink then do
        let head ← fetch node.nid
        addOverflowIncoming c node head.overflow dropped
      else pure ()

/-- Step C for one link of the updated list: the links to write so far and the
chain slots they leave. -/
def stageLink (slots : List (Option Node)) (overflowHead : Option NID)
    (acc : List Node × List LinkSlot) (target : Node) : LevelProg (List Node × List LinkSlot) :=
  if slots.any (slotNames target.nid) then pure acc
  else do
    match ← findOverflowLink overflowHead target.nid with
    | some link => pure (acc.1 ++ [target], acc.2 ++ [link])
    | none => pure (acc.1 ++ [⟨target.nid.setIncoming, target.vid⟩], acc.2)

/-- Step D: a kept link stays, each staged link takes the next other slot, and a
dropped link left over is cleared. -/
def fillSlots (updated : List Node) : ℕ → List (Option Node) → List Node → List (ℕ × Option Node)
  | _, [], _ => []
  | slot, some n :: rest, staged =>
    if inUpdated updated n then fillSlots updated (slot + 1) rest staged
    else match staged with
      | v :: vs => (slot, some v) :: fillSlots updated (slot + 1) rest vs
      | [] => (slot, none) :: fillSlots updated (slot + 1) rest []
  | slot, none :: rest, v :: vs => (slot, some v) :: fillSlots updated (slot + 1) rest vs
  | slot, none :: rest, [] => fillSlots updated (slot + 1) rest []

/-- `replace_neighbours`: make `updated` the links of `node`, steps A to F.
Returns the new neighbours whose list had no room for the link back. -/
def replaceNeighbours (c : LevelCtx) (node : Node) (updated : List Node) : LevelProg (List Node) := do
  let entry ← fetch node.nid
  updateSlots node.nid (demoted updated entry.neighbours)
  entry.neighbours.forM (dropSlot c node updated)
  let (staged, promoted) ← updated.foldlM (stageLink entry.neighbours entry.overflow) ([], [])
  updateSlots node.nid (fillSlots updated 0 entry.neighbours staged)
  promoted.forM clearLink
  linkNeighboursLocked c node

/-! ### Taking a node out of the level -/

/-- The scan of `unlink_neighbour`: the slot that names `node` and the number of
outgoing links to other nodes. -/
def scanLinks (node : Node) (neighbour : NID) (slots : List (Option Node)) : Option LinkSlot × ℕ :=
  slots.zipIdx.foldl (fun acc w => match w.1 with
    | none => acc
    | some n =>
      if n.nid.clearIncoming == node.nid then (some ⟨neighbour, .neighbour, w.2⟩, acc.2)
      else if n.nid.incoming then acc
      else (acc.1, acc.2 + 1)) (none, 0)

/-- The link of `neighbour` to `node`: in its own list, else in its chain. -/
def findLink (node : Node) (overflow : Option NID) : Option LinkSlot → LevelProg (Option LinkSlot)
  | some link => pure (some link)
  | none => findOverflowLink overflow node.nid

/-- `unlink_neighbour`: clear the neighbour's link to `node`. Returns the
neighbour if there was a link and whether it has no outgoing link left. -/
def unlinkNeighbour (node : Node) (neighbour : NID) : LevelProg (Option Node × Bool) := do
  match ← Prog.attempt (fetch neighbour) with
  | .error _ => pure (none, false)
  | .ok entry => do
    let (link, outgoing) := scanLinks node neighbour entry.neighbours
    let found ← findLink node entry.overflow link
    let severed ← clearFound found
    pure (if severed then (some ⟨neighbour, entry.owner⟩, outgoing == 0) else (none, false))

/-- The links of a list with their slots, flagged incoming. -/
def flaggedLinks (slots : List (Option Node)) : List (ℕ × Node) :=
  slots.zipIdx.filterMap fun w => w.1.map fun n => (w.2, ⟨n.nid.setIncoming, n.vid⟩)

/-- The links of an overflow record with their slots. -/
def incomingLinks (slots : List (Option NID)) : List (ℕ × NID) :=
  slots.zipIdx.filterMap fun w => w.1.map fun n => (w.2, n)

/-- Sever one link: the slots to free and the neighbours to report, so far and after it. -/
def unlinkLink (c : LevelCtx) (node : Node) (acc : List ℕ × List Node) (link : ℕ × NID) :
    LevelProg (List ℕ × List Node) := do
  let (neighbour, orphan) ← unlinkNeighbour node link.2.clearIncoming
  pure (if orphan then acc
    else (acc.1 ++ [link.1], match neighbour with
      | some n => if acc.2.length < c.maxNeighbours then acc.2 ++ [n] else acc.2
      | none => acc.2))

/-- The part of `unlink_neighbours` that walks the overflow chain. -/
def unlinkChain (c : LevelCtx) (node : Node) : ℕ → Option NID → List Node → LevelProg (List Node)
  | _, none, out => pure out
  | 0, some _, _ => Prog.fail endlessChain
  | fuel + 1, some cur, out => do
    let entry ← fetchOverflow cur
    let (freed, out) ← (incomingLinks entry.incoming).foldlM (unlinkLink c node) ([], out)
    updateIncoming cur (freed.map fun slot => (slot, none))
    unlinkChain c node fuel entry.overflow out

/-- `unlink_neighbours`: sever every link of `node`. Returns the neighbours that
keep a link of their own, at most `maxNeighbours` of them; `node` goes on
recording the others. -/
def unlinkNeighbours (c : LevelCtx) (node : Node) : LevelProg (List Node) := do
  let entry ← fetch node.nid
  let links := flaggedLinks entry.neighbours
  updateSlots node.nid (links.map fun l => (l.1, some l.2))
  let (freed, out) ← (links.map fun l => (l.1, l.2.nid)).foldlM (unlinkLink c node) ([], [])
  updateSlots node.nid (freed.map fun slot => (slot, none))
  let fuel ← chainFuel
  unlinkChain c node fuel entry.overflow out

/-- The part of `drop_node` at the node's own level. -/
def dropNode (c : LevelCtx) (node : Node) : LevelProg Unit :=
  remove c node.nid .neighbour

end IndexGraph
end Hnsw
end VsqlVector
