/-
# Operations on the whole index

`GraphOperations<IndexGraph>` (`src/index/hnsw/graph_ops_impl.h`) inserts a
vector as a tower of nodes, one a level from its insert level down to level 0,
removes a tower again, and searches. The model runs one operation at a time, so
the graph and level locks do nothing and an upgrade of the graph lock reads the
entry point it has just read.

The column reference, the data and the distances of the vectors come from the
server (`Index`); the level an insert draws is an argument.

Key definitions: `Index`, `GraphState`, `GraphOperations.insert`,
`GraphOperations.markDelete`, `GraphOperations.remove`, `GraphOperations.searchKnn`.
-/
import VsqlVector.Index.Graph
import VsqlVector.Index.Layer

namespace VsqlVector
namespace Hnsw

/-! ### What the server provides -/

/-- The server's index object: the column reference of a vector, the vector of a
column reference and the distance, with the queues a search keeps. No distance
is less than itself, NaN included. -/
structure Index (Data Dist : Type) where
  getKeyRef : Data → Option ℕ
  getKeyData : ℕ → Option Data
  helper : Data → Data → Dist
  lt : Dist → Dist → Bool
  lt_irrefl : ∀ d, lt d d = false
  minQueue : PriorityQueue (Candidate Node Dist) fun a b => lt b.distance a.distance
  maxQueue : PriorityQueue (Candidate Node Dist) fun a b => lt a.distance b.distance

/-- An `IndexGraph`: the index, its options and the calling transaction. -/
structure IndexGraph (Data Dist : Type) where
  index : Index Data Dist
  M : ℕ
  efConstruction : ℕ
  trxRef : ℕ

/-- The levels materialised so far, the entry point and what the storage calls
to come will do. -/
structure GraphState extends Supply where
  levels : List LevelStore
  entryPoint : Option Node
  entryLevel : ℕ

/-- `IndexStore::create`: level 0, with no records and no entry point. -/
def GraphState.create : GraphState := ⟨⟨[], []⟩, [LevelStore.empty], none, 0⟩

/-- The records of a level; a level that is not there has none. -/
def GraphState.level (g : GraphState) (l : ℕ) : LevelStore := (g.levels[l]?).getD LevelStore.empty

abbrev GraphProg := Prog StorageError GraphState

namespace GraphProg

def noLevel : StorageError := ⟨"no such level", true⟩

/-- Run a program at one level. -/
def atLevel {α : Type} (l : ℕ) (p : LevelProg α) : GraphProg α := fun g =>
  match g.levels[l]? with
  | none => (.error noLevel, g)
  | some store => match p ⟨store, g.toSupply⟩ with
    | (a, s) => (a, { g with toSupply := s.toSupply, levels := g.levels.set l s.toLevelStore })

end GraphProg

namespace IndexGraph

open GraphProg

variable {Data Dist : Type}

/-- `IndexStore::max_level`. -/
def maxLevel : ℕ := 31

def ctx (g : IndexGraph Data Dist) (level : ℕ) : LevelCtx := ⟨level, g.M, g.trxRef⟩

/-- The error the server reports for a vector it cannot resolve. -/
def serverError : StorageError := ⟨"key data not available", false⟩

/-- `resolve_node_data`, a call of the server that can fail at any time. -/
def resolveNodeData (g : IndexGraph Data Dist) (vid : ℕ) : LevelProg Data := do
  LevelProg.load
  Prog.ofOption serverError (g.index.getKeyData vid)

/-- `distance` of two nodes. -/
def distance (g : IndexGraph Data Dist) (a b : Node) : LevelProg Dist := do
  let aData ← resolveNodeData g a.vid
  let bData ← resolveNodeData g b.vid
  pure (g.index.helper aData bData)

/-- `distance` of data that is not in the graph and a node. -/
def distanceTo (g : IndexGraph Data Dist) (a : Data) (b : Node) : LevelProg Dist := do
  let bData ← resolveNodeData g b.vid
  pure (g.index.helper a bData)

/-- `visible`, which is the same for every node so far. -/
def visible (_ : Node) : LevelProg Bool := pure true

/-- The graph of one level, as the searches see it. -/
def layerGraph (g : IndexGraph Data Dist) : LayerGraph StorageError LevelState Node Data NID Dist where
  key := Node.key
  neighbours := neighbours
  distance := distance g
  distanceTo := distanceTo g
  isVisible := visible
  lt := g.index.lt
  minQueue := g.index.minQueue
  maxQueue := g.index.maxQueue
  diverged := ⟨"search does not end", true⟩

/-- `get_entry_point`; the level stays 0 if there is none. -/
def getEntryPoint : GraphProg (List Node × ℕ) := do
  let s ← Prog.get
  pure (match s.entryPoint with
    | some n => ([n], s.entryLevel)
    | none => ([], 0))

/-- `set_entry_point`, which writes the root page of level 0 first. -/
def setEntryPoint (node : Option Node) (level : ℕ) : GraphProg Unit := do
  atLevel 0 LevelProg.load
  Prog.modify fun s => { s with entryPoint := node, entryLevel := level }

/-- The root pages of a new level. -/
def initLevel : GraphProg Unit := do
  atLevel 0 LevelProg.load
  Prog.modify fun s => { s with levels := s.levels ++ [LevelStore.empty] }

/-- `ensure_levels`: materialise every level up to `target`. -/
def ensureLevels (target : ℕ) : GraphProg Unit := do
  let s ← Prog.get
  (List.range (target + 1 - s.levels.length)).forM fun _ => initLevel

/-- `get_key_ref`, a call of the server that can fail at any time. -/
def getKeyRef (g : IndexGraph Data Dist) (data : Data) : GraphProg ℕ := do
  atLevel 0 LevelProg.load
  Prog.ofOption serverError (g.index.getKeyRef data)

/-- `create_node`: a node at `level`, made the lower node of `parent`. -/
def create (g : IndexGraph Data Dist) (parent : Option Node) (level : ℕ) (data : Data)
    (neighbours : List Node) : GraphProg Node := do
  let owner ← getKeyRef g data
  match parent with
  | none => atLevel level (createNode (g.ctx level) owner neighbours)
  | some p => do
    let _ ← atLevel (level + 1) (LevelProg.fetch p.nid)
    let node ← atLevel level (createNode (g.ctx level) owner neighbours)
    atLevel (level + 1) (LevelProg.update p.nid fun e => { e with lowerLevel := some node.nid })
    pure node

/-- Clear the lower node of `parent`, if there is one. -/
def clearLower (level : ℕ) : Option Node → GraphProg Unit
  | none => pure ()
  | some p => atLevel (level + 1) (LevelProg.update p.nid fun e => { e with lowerLevel := none })

/-- `drop_node`: free the overflow chain and the record of a node. -/
def drop (g : IndexGraph Data Dist) (parent : Option Node) (level : ℕ) (node : Node) :
    GraphProg Unit := do
  atLevel level (dropOverflowNodes (g.ctx level) node)
  clearLower level parent
  atLevel level (dropNode (g.ctx level) node)

end IndexGraph

/-! ### Insert, mark, remove, search -/

namespace GraphOperations

open GraphProg IndexGraph

variable {Data Dist : Type} (g : IndexGraph Data Dist)

def greedyDescentEf : ℕ := 1

/-- A search at one level. No search expands more nodes than the level has. -/
def searchLayer (query : Query Node Data) (entryPoints : List Node) (ef : ℕ) :
    LevelProg (LayerOperations.LayerState g.layerGraph) := do
  let s ← Prog.get
  LayerOperations.search g.layerGraph query s.nodes.keys.length entryPoints ef

/-- `consume_heuristic` with the parameters every operation uses. -/
def consumeHeuristic (query : Query Node Data) (M : ℕ)
    (layer : LayerOperations.LayerState g.layerGraph) : LevelProg (List Node × List Node) :=
  LayerOperations.consumeHeuristic g.layerGraph query M .no .no layer

/-- `advance_to_next_level`. -/
def advanceToNextLevel (level : ℕ) : List Node → GraphProg (List Node)
  | [] => pure []
  | n :: ns => do
    let next ← atLevel level (getNextLevelNode n)
    let rest ← advanceToNextLevel level ns
    pure (next :: rest)

/-- A search for the one nearest node. -/
def greedySearch (query : Query Node Data) (candidates : List Node) : LevelProg (List Node) := do
  let layer ← searchLayer g query candidates greedyDescentEf
  pure (LayerOperations.consumeAll g.layerGraph layer)

/-- A search for the neighbours of a new node, with the candidates it came from. -/
def selectNeighbours (query : Query Node Data) (candidates : List Node) :
    LevelProg (List Node × List Node) := do
  let layer ← searchLayer g query candidates g.efConstruction
  consumeHeuristic g query g.M layer

/-- One neighbour of `shrink_neighbours`: select again among its links and `linkedNode`. -/
def shrinkNeighbour (level : ℕ) (linkedNode neighbour : Node) : LevelProg Unit := do
  let connections ← neighbours neighbour
  let layer ← LayerOperations.seed g.layerGraph (.node neighbour) (connections ++ [linkedNode])
  let (shrunk, _) ← consumeHeuristic g (.node neighbour) (g.ctx level).maxNeighbours layer
  let _ ← replaceNeighbours (g.ctx level) neighbour shrunk
  pure ()

def shrinkNeighbours (level : ℕ) (linkedNode : Node) (overflowed : List Node) : LevelProg Unit :=
  overflowed.forM (shrinkNeighbour g level linkedNode)

/-- The descent from the entry level to the level above the insert level. -/
def greedyDescent (data : Data) (insertLevel : ℕ) : ℕ → List Node → GraphProg (List Node)
  | 0, candidates => pure candidates
  | level + 1, candidates =>
    if insertLevel < level + 1 then do
      let found ← atLevel (level + 1) (greedySearch g (.data data) candidates)
      let next ← advanceToNextLevel (level + 1) found
      greedyDescent data insertLevel level next
    else pure candidates

/-- The neighbours of the new node at `level` and the candidates to go on with: a
level above the entry level has neither. -/
def findNeighbours (data : Data) (entryLevel level : ℕ) (candidates : List Node) :
    GraphProg (List Node × List Node) :=
  if entryLevel < level then pure ([], candidates)
  else atLevel level (selectNeighbours g (.data data) candidates)

/-- Create the nodes of the new tower, top down; returns them level 0 first. -/
def buildTower (data : Data) (entryLevel : ℕ) :
    ℕ → Option Node → List Node → GraphProg (List (Node × ℕ))
  | 0, parent, candidates => do
    let (neighbours, _) ← findNeighbours g data entryLevel 0 candidates
    let node ← create g parent 0 data neighbours
    pure [(node, 0)]
  | level + 1, parent, candidates => do
    let (neighbours, found) ← findNeighbours g data entryLevel (level + 1) candidates
    let node ← create g parent (level + 1) data neighbours
    let next ← if level + 1 ≤ entryLevel then advanceToNextLevel (level + 1) found else pure found
    let rest ← buildTower data entryLevel level (some node) next
    pure (rest ++ [(node, level + 1)])

/-- Land the links back of a new node and shrink the lists that had no room. -/
def linkNode (level : ℕ) (node : Node) : LevelProg Unit := do
  let overflowed ← linkNeighboursLocked (g.ctx level) node
  shrinkNeighbours g level node overflowed

/-- `insert`: the new vector's node at its own top level. -/
def insert (data : Data) (insertLevel : ℕ) : GraphProg Node := do
  let (entry, entryLevel) ← getEntryPoint
  let newEntryPoint := entry.isEmpty || decide (entryLevel < insertLevel)
  ensureLevels (max entryLevel insertLevel)
  let candidates ← greedyDescent g data insertLevel (max entryLevel insertLevel) entry
  let inserted ← buildTower g data entryLevel insertLevel none candidates
  inserted.forM fun w => atLevel w.2 (linkNode g w.2 w.1)
  let topNode := (inserted.getLast?.map Prod.fst).getD ⟨⟨0, false⟩, 0⟩
  if newEntryPoint then do
    setEntryPoint (some topNode) insertLevel
    pure topNode
  else pure topNode

/-- `mark_delete`: mark the nodes of a tower from its top level down. -/
def markDelete (deleteMark : Bool) : ℕ → Node → GraphProg Unit
  | 0, current => atLevel 0 (LevelProg.markDelete (g.ctx 0) current.nid deleteMark)
  | level + 1, current => do
    atLevel (level + 1) (LevelProg.markDelete (g.ctx (level + 1)) current.nid deleteMark)
    let next ← atLevel (level + 1) (getNextLevelNode current)
    markDelete deleteMark level next

/-- Repair one orphan from the nodes that are still connected, which it then joins. -/
def repairOrphan (level : ℕ) (unlinked : List Node) (orphan : Node) : LevelProg (List Node) :=
  if unlinked.isEmpty then pure [orphan]
  else do
    let layer ← searchLayer g (.node orphan) unlinked g.efConstruction
    let (newNeighbours, _) ← consumeHeuristic g (.node orphan) g.M layer
    let overflowed ← replaceNeighbours (g.ctx level) orphan newNeighbours
    shrinkNeighbours g level orphan overflowed
    pure (unlinked ++ [orphan])

/-- Sever the links of a node and repair the neighbours this leaves orphaned. -/
def severNode (level : ℕ) (current : Node) : LevelProg (List Node) := do
  let unlinked ← unlinkNeighbours (g.ctx level) current
  let orphaned ← incomingNeighbours current
  orphaned.foldlM (repairOrphan g level) unlinked

/-- Phase 1 of `remove`, top down: the nodes of the tower, level 0 first, and the
first survivor at the topmost level that has one. -/
def severTower : ℕ → Node → Option (Node × ℕ) →
    GraphProg (List (Node × ℕ) × Option (Node × ℕ))
  | 0, current, replacement => do
    let unlinked ← atLevel 0 (severNode g 0 current)
    pure ([(current, 0)], replacement.or (unlinked.head?.map fun n => (n, 0)))
  | level + 1, current, replacement => do
    let unlinked ← atLevel (level + 1) (severNode g (level + 1) current)
    let next ← atLevel (level + 1) (getNextLevelNode current)
    let (nodes, replacement) ← severTower level next
      (replacement.or (unlinked.head?.map fun n => (n, level + 1)))
    pure (nodes ++ [(current, level + 1)], replacement)

/-- Phase 2 of `remove`, bottom up. -/
def dropTower : List (Node × ℕ) → GraphProg Unit
  | [] => pure ()
  | (node, level) :: rest => do
    drop g (rest.head?.map Prod.fst) level node
    dropTower rest

/-- `remove`: the vector whose top node is `target`, at level `targetLevel`. -/
def remove (target : Node) (targetLevel : ℕ) : GraphProg Unit := do
  let (entryPoints, entryLevel) ← getEntryPoint
  let newEntryPoint := decide (targetLevel = entryLevel) &&
    (entryPoints.map Node.key == [target.key])
  let (nodes, replacement) ← severTower g targetLevel target none
  dropTower g nodes
  if newEntryPoint then setEntryPoint (replacement.map Prod.fst) ((replacement.map Prod.snd).getD 0)
  else pure ()

/-- The descent of `search_knn` to level 0. -/
def searchDescent (query : Data) : ℕ → List Node → GraphProg (List Node)
  | 0, candidates => pure candidates
  | level + 1, candidates => do
    let found ← atLevel (level + 1) (greedySearch g (.data query) candidates)
    let next ← advanceToNextLevel (level + 1) found
    searchDescent query level next

/-- `search_knn`: the `k` nearest nodes found at level 0. -/
def searchKnn (query : Data) (k efSearch : ℕ) : GraphProg (List Node) := do
  let (entry, entryLevel) ← getEntryPoint
  if entry.isEmpty then pure []
  else do
    let candidates ← searchDescent g query entryLevel entry
    let layer ← atLevel 0 (searchLayer g (.data query) candidates efSearch)
    pure (LayerOperations.consumeSimple g.layerGraph k layer)

end GraphOperations
end Hnsw
end VsqlVector
