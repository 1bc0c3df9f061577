/-
# Searching a layer

`LayerOperations` (`src/index/hnsw/layer_ops_impl.h`) searches one layer of a
graph for the nodes nearest to a query. It is generic in the graph and in the
policy that says which nodes may be returned; here the graph is a
`LayerGraph`, whose operations are programs over any state.

A search or a seeding gathers a result; `consumeAll`, `consumeSimple` or
`consumeHeuristic` then take it out. The loop of the search is given a bound
on its turns.

Key definitions: `LayerGraph`, `search`, `seed`, `consumeAll`, `consumeHeuristic`.
-/
import VsqlVector.Lib.Prog
import VsqlVector.Lib.Queue

namespace VsqlVector
namespace Hnsw

/-- A node with its distance from the query. -/
structure Candidate (N D : Type) where
  node : N
  distance : D
  deriving DecidableEq, Repr

/-- A query: a node of the graph or data that is not in it. -/
inductive Query (N Q : Type)
  | node (n : N)
  | data (q : Q)

/-- The `Graph` and `Policy` of a `LayerOperations`, with its two queues. -/
structure LayerGraph (ε σ N Q K D : Type) where
  key : N → K
  neighbours : N → Prog ε σ (List N)
  distance : N → N → Prog ε σ D
  distanceTo : Q → N → Prog ε σ D
  isVisible : N → Prog ε σ Bool
  lt : D → D → Bool
  minQueue : PriorityQueue (Candidate N D) fun a b => lt b.distance a.distance
  maxQueue : PriorityQueue (Candidate N D) fun a b => lt a.distance b.distance
  /-- The outcome of a loop that is cut short. -/
  diverged : ε

inductive ExtendCandidates
  | no
  | yes
  deriving DecidableEq, Repr

inductive KeepPrunedConnections
  | no
  | yes
  deriving DecidableEq, Repr

namespace LayerOperations

variable {ε σ N Q K D : Type} [DecidableEq K]

/-- `m_visited`, `m_candidates` and `m_results`. -/
structure LayerState (G : LayerGraph ε σ N Q K D) where
  visited : List K
  candidates : G.minQueue.Carrier
  results : G.maxQueue.Carrier

variable (G : LayerGraph ε σ N Q K D)

/-- `Candidate::operator<`. -/
def closer (a b : Candidate N D) : Bool := G.lt a.distance b.distance

/-- The nodes not visited yet, once each, and what is visited with them. -/
def visit : List K → List N → List K × List N
  | vis, [] => (vis, [])
  | vis, n :: ns =>
    if G.key n ∈ vis then visit vis ns
    else ((visit (G.key n :: vis) ns).1, n :: (visit (G.key n :: vis) ns).2)

def queryDistance (query : Query N Q) (n : N) : Prog ε σ D :=
  match query with
  | .node q => G.distance q n
  | .data q => G.distanceTo q n

def evaluateDistances (query : Query N Q) : List N → Prog ε σ (List (Candidate N D))
  | [] => pure []
  | n :: ns => do
    let d ← queryDistance G query n
    let rest ← evaluateDistances query ns
    pure (⟨n, d⟩ :: rest)

/-- An entry point becomes a candidate, and a result if it is visible. -/
def pushSeed (st : LayerState G) (c : Candidate N D) : Prog ε σ (LayerState G) := do
  let visible ← G.isVisible c.node
  pure { st with
    candidates := G.minQueue.push c st.candidates
    results := if visible then G.maxQueue.push c st.results else st.results }

/-- The keys marked visited before the search: the query's own, if it is a node. -/
def initialVisited : Query N Q → List K
  | .node n => [G.key n]
  | .data _ => []

def seedImpl (query : Query N Q) (entryPoints : List N) : Prog ε σ (LayerState G) := do
  let fresh := visit G (initialVisited G query) entryPoints
  let cs ← evaluateDistances G query fresh.2
  cs.foldlM (pushSeed G) ⟨fresh.1, G.minQueue.empty, G.maxQueue.empty⟩

/-- `m_results.size() < ef || candidate < m_results.top()`. -/
def admits (ef : ℕ) (st : LayerState G) (c : Candidate N D) : Bool :=
  G.maxQueue.size st.results < ef || (G.maxQueue.top st.results).any fun t => closer G c t

/-- Push a result and drop the furthest one if there are more than `ef`. -/
def pushResult (ef : ℕ) (results : G.maxQueue.Carrier) (c : Candidate N D) : G.maxQueue.Carrier :=
  let pushed := G.maxQueue.push c results
  if ef < G.maxQueue.size pushed then ((G.maxQueue.pop pushed).map Prod.snd).getD pushed else pushed

def pushExpanded (ef : ℕ) (st : LayerState G) (c : Candidate N D) : Prog ε σ (LayerState G) :=
  if admits G ef st c then do
    let visible ← G.isVisible c.node
    pure { st with
      candidates := G.minQueue.push c st.candidates
      results := if visible then pushResult G ef st.results c else st.results }
  else pure st

def expand (query : Query N Q) (ef : ℕ) (st : LayerState G) (node : N) : Prog ε σ (LayerState G) := do
  let ns ← G.neighbours node
  let fresh := visit G st.visited ns
  let cs ← evaluateDistances G query fresh.2
  cs.foldlM (pushExpanded G ef) { st with visited := fresh.1 }

/-- `!m_results.empty() && m_results.top() < c`. -/
def finished (st : LayerState G) (c : Candidate N D) : Bool :=
  (G.maxQueue.top st.results).any fun t => closer G t c

def searchLoop (query : Query N Q) (ef : ℕ) : ℕ → LayerState G → Prog ε σ (LayerState G)
  | fuel, st => match G.minQueue.pop st.candidates with
    | none => pure st
    | some (c, rest) =>
      if finished G { st with candidates := rest } c then pure { st with candidates := rest }
      else match fuel with
        | 0 => Prog.fail G.diverged
        | fuel + 1 => do
          let st ← expand G query ef { st with candidates := rest } c.node
          searchLoop query ef fuel st

/-- `search`: from the entry points, expand the nearest candidate until it is
further than the furthest result. -/
def search (query : Query N Q) (fuel : ℕ) (entryPoints : List N) (ef : ℕ) :
    Prog ε σ (LayerState G) := do
  let st ← seedImpl G query entryPoints
  searchLoop G query ef fuel st

/-- `seed`: the candidates themselves are the result. -/
def seed (query : Query N Q) (candidates : List N) : Prog ε σ (LayerState G) :=
  seedImpl G query candidates

/-- `consume_all`: the result, nearest first. -/
def consumeAll (st : LayerState G) : List N :=
  (G.maxQueue.drain st.results).reverse.map Candidate.node

def consumeSimple (M : ℕ) (st : LayerState G) : List N := (consumeAll G st).take M

/-- `is_dominated`: some node of `result` is closer to `e` than the query is. -/
def isDominated (e : Candidate N D) : List N → Prog ε σ Bool
  | [] => pure false
  | r :: rs => do
    let d ← G.distance e.node r
    if G.lt d e.distance then pure true else isDominated e rs

/-- The nodes `extend_with_neighbours` appends for each node of the result. -/
def unvisitedNeighbours : List K → List N → Prog ε σ (List N)
  | _, [] => pure []
  | vis, n :: ns => do
    let l ← G.neighbours n
    let fresh := visit G vis l
    let rest ← unvisitedNeighbours fresh.1 ns
    pure (fresh.2 ++ rest)

def extendWithNeighbours (query : Query N Q) (vis : List K) (w : List (Candidate N D)) :
    Prog ε σ (List (Candidate N D)) := do
  let fresh ← unvisitedNeighbours G vis (w.map Candidate.node)
  let cs ← evaluateDistances G query fresh
  pure (w ++ cs)

/-- The selecting loop of `consume_heuristic`, with the nodes selected and the
candidates discarded so far. -/
def selectLoop (M : ℕ) : ℕ → G.minQueue.Carrier → List N → List (Candidate N D) →
    Prog ε σ (List N × List (Candidate N D))
  | fuel, queue, selected, discarded =>
    if selected.length < M then
      match G.minQueue.pop queue with
      | none => pure (selected, discarded)
      | some (e, rest) => match fuel with
        | 0 => Prog.fail G.diverged
        | fuel + 1 => do
          let dominated ← isDominated G e selected
          if dominated then selectLoop M fuel rest selected (discarded ++ [e])
          else selectLoop M fuel rest (selected ++ [e.node]) discarded
    else pure (selected, discarded)

/-- Backfill from the discarded candidates, nearest first. -/
def backfill (M : ℕ) (keep : KeepPrunedConnections) (selected : List N)
    (discarded : List (Candidate N D)) : List N :=
  match keep with
  | .no => selected
  | .yes => selected ++ (discarded.map Candidate.node).take (M - selected.length)

/-- `consume_heuristic`: the selected nodes and the candidate pool. -/
def consumeHeuristic (query : Query N Q) (M : ℕ) (ext : ExtendCandidates)
    (keep : KeepPrunedConnections) (st : LayerState G) : Prog ε σ (List N × List N) := do
  let w := G.maxQueue.drain st.results
  let w' ← match ext with
    | .no => pure w
    | .yes => extendWithNeighbours G query st.visited w
  let queue := w'.foldl (fun q c => G.minQueue.push c q) G.minQueue.empty
  let (selected, discarded) ← selectLoop G M w'.length queue [] []
  pure (backfill M keep selected discarded, consumeAll G st)

end LayerOperations
end Hnsw
end VsqlVector
