/-
# The scratch buffers of the graph operations

`link_neighbours`, `replace_neighbours` and `unlink_neighbours`
(`src/index/hnsw/graph.cc`) keep their lists in the buffers of a `GraphContext`,
which every call they make shares: two for lists of nodes, two for the ids of an
overflow record, two for slots, and the bytes and chunk ids an update is written
with. A walk compacts the list it goes through in the buffer that holds it.

The programs here are these operations with the buffers in the state. What they
read from storage and write to it they read and write as `Index.Graph` does; an
update comes as the chunks it names and the bytes of the buffer. The state also
notes the indexes that are used, each with the size of its buffer, and the slot
lists that are handed to `update`.

Key definitions: `GraphContext`, `makeGraphContext`, `Buffer`,
`Scratch.linkNeighboursLocked`, `Scratch.replaceNeighbours`, `Scratch.unlinkNeighbours`.
-/
import VsqlVector.Index.Graph
import VsqlVector.Index.Serial

namespace VsqlVector
namespace Hnsw

/-! ### Words -/

/-- The word of an id. -/
def NID.word : Option NID → ℕ
  | none => invalidId
  | some n => n.ref + if n.incoming then 2 ^ incomingBit else 0

/-- The id of a word. -/
def NID.ofWord (w : ℕ) : Option NID :=
  if w = invalidId then none else some ⟨w % 2 ^ incomingBit, w.testBit incomingBit⟩

def Node.words : Option Node → RawNode
  | none => ⟨invalidId, invalidId⟩
  | some n => ⟨NID.word (some n.nid), n.vid⟩

/-- Write the word `w` to a chunk of a neighbour record. -/
def NeighbourEntry.setChunk (L : LevelLayout) (e : NeighbourEntry) (idx w : ℕ) : NeighbourEntry :=
  if idx = LevelLayout.ownerChunk then { e with owner := w }
  else if L.hasLower ∧ idx = LevelLayout.lowerLevelChunk then { e with lowerLevel := NID.ofWord w }
  else if idx = L.neighbourOverflowChunk then { e with overflow := NID.ofWord w }
  else
    let slot := (idx - L.neighboursBaseChunk) / 2
    let old := (e.neighbours[slot]?).join
    { e with neighbours := e.neighbours.set slot <|
        if (idx - L.neighboursBaseChunk) % 2 = 0 then
          (NID.ofWord w).map fun nid => ⟨nid, (old.map Node.vid).getD invalidId⟩
        else old.map fun n => { n with vid := w } }

/-- Write the word `w` to a chunk of an overflow record. -/
def OverflowEntry.setChunk (L : LevelLayout) (e : OverflowEntry) (idx w : ℕ) : OverflowEntry :=
  if idx = L.overflowChunk then { e with overflow := NID.ofWord w }
  else { e with incoming := e.incoming.set idx (NID.ofWord w) }

/-- `ColumnStore::update`: the chunks `ids` of the record come from `data`. -/
def NeighbourEntry.overwrite (L : LevelLayout) (ids : List ℕ) (data : List (BitVec 8)) (e : NeighbourEntry) :
    NeighbourEntry :=
  ids.foldl (fun e idx => e.setChunk L idx (Serial.readChunk data idx)) e

def OverflowEntry.overwrite (L : LevelLayout) (ids : List ℕ) (data : List (BitVec 8)) (e : OverflowEntry) :
    OverflowEntry :=
  ids.foldl (fun e idx => e.setChunk L idx (Serial.readChunk data idx)) e

/-- The overflow record of a column. -/
def OverflowEntry.ofData (L : LevelLayout) (data : List (BitVec 8)) : OverflowEntry where
  incoming := (List.range L.overflowCapacity).map fun i => NID.ofWord (Serial.readChunk data (LevelLayout.incomingChunk i))
  overflow := NID.ofWord (Serial.readChunk data L.overflowChunk)

def LevelCtx.layout (c : LevelCtx) : LevelLayout := ⟨c.level, c.M⟩

/-! ### Buffers -/

structure GraphContext where
  neighbourBuf : List (BitVec 8)
  overflowBuf : List (BitVec 8)
  updateSlots : List ℕ
  linkSlots : List ℕ
  chunkIds : List ℕ
  nodeBuf1 : List (Option Node)
  nodeBuf2 : List (Option Node)
  incomingBuf1 : List (Option NID)
  incomingBuf2 : List (Option NID)
  deriving DecidableEq, Repr

/-- `SlotIndex::INVALID`. -/
def invalidSlot : ℕ := 2 ^ 16 - 1

/-- `LevelStore::max_update_chunks`. -/
def maxUpdateChunks (M : ℕ) : ℕ := (⟨0, M⟩ : LevelLayout).neighbourOverflowChunk + 1

/-- `make_graph_context`: the sizes are those of level 0. -/
def makeGraphContext (M : ℕ) : GraphContext :=
  let L : LevelLayout := ⟨0, M⟩
  let maxUpdateSlots := L.maxNeighbours
  { neighbourBuf := List.replicate L.entryLen 0
    overflowBuf := List.replicate L.overflowLen 0
    updateSlots := List.replicate maxUpdateSlots invalidSlot
    linkSlots := List.replicate maxUpdateSlots invalidSlot
    chunkIds := List.replicate (maxUpdateChunks M) 0
    nodeBuf1 := List.replicate maxUpdateSlots none
    nodeBuf2 := List.replicate maxUpdateSlots none
    incomingBuf1 := List.replicate maxUpdateSlots none
    incomingBuf2 := List.replicate maxUpdateSlots none }

/-- The sizes of the buffers, which no operation changes. -/
def GraphContext.sizes (x : GraphContext) : List ℕ :=
  [x.neighbourBuf.length, x.overflowBuf.length, x.updateSlots.length, x.linkSlots.length, x.chunkIds.length,
    x.nodeBuf1.length, x.nodeBuf2.length, x.incomingBuf1.length, x.incomingBuf2.length]

/-- One of the buffers. -/
structure Buffer (α : Type) where
  get : GraphContext → List α
  set : List α → GraphContext → GraphContext
  get_set : ∀ l x, get (set l x) = l
  sizes_set : ∀ l x, l.length = (get x).length → (set l x).sizes = x.sizes

namespace Buffer

def neighbourBuf : Buffer (BitVec 8) :=
  ⟨GraphContext.neighbourBuf, fun l x => { x with neighbourBuf := l }, fun _ _ => rfl, fun _ _ h => by simp [GraphContext.sizes, h]⟩

def overflowBuf : Buffer (BitVec 8) :=
  ⟨GraphContext.overflowBuf, fun l x => { x with overflowBuf := l }, fun _ _ => rfl, fun _ _ h => by simp [GraphContext.sizes, h]⟩

def updateSlots : Buffer ℕ :=
  ⟨GraphContext.updateSlots, fun l x => { x with updateSlots := l }, fun _ _ => rfl, fun _ _ h => by simp [GraphContext.sizes, h]⟩

def linkSlots : Buffer ℕ :=
  ⟨GraphContext.linkSlots, fun l x => { x with linkSlots := l }, fun _ _ => rfl, fun _ _ h => by simp [GraphContext.sizes, h]⟩

def chunkIds : Buffer ℕ :=
  ⟨GraphContext.chunkIds, fun l x => { x with chunkIds := l }, fun _ _ => rfl, fun _ _ h => by simp [GraphContext.sizes, h]⟩

def nodeBuf1 : Buffer (Option Node) :=
  ⟨GraphContext.nodeBuf1, fun l x => { x with nodeBuf1 := l }, fun _ _ => rfl, fun _ _ h => by simp [GraphContext.sizes, h]⟩

def nodeBuf2 : Buffer (Option Node) :=
  ⟨GraphContext.nodeBuf2, fun l x => { x with nodeBuf2 := l }, fun _ _ => rfl, fun _ _ h => by simp [GraphContext.sizes, h]⟩

def incomingBuf1 : Buffer (Option NID) :=
  ⟨GraphContext.incomingBuf1, fun l x => { x with incomingBuf1 := l }, fun _ _ => rfl, fun _ _ h => by simp [GraphContext.sizes, h]⟩

def incomingBuf2 : Buffer (Option NID) :=
  ⟨GraphContext.incomingBuf2, fun l x => { x with incomingBuf2 := l }, fun _ _ => rfl, fun _ _ h => by simp [GraphContext.sizes, h]⟩

end Buffer

/-- The records of a level and the buffers, the indexes used so far with the sizes
they are used at, and the slot lists handed to `update`. -/
structure ScratchState extends LevelState where
  ctx : GraphContext
  accesses : List (ℕ × ℕ)
  slotLists : List (List ℕ)

abbrev ScratchProg := Prog StorageError ScratchState

namespace Scratch

open IndexGraph

/-- A call of the storage. -/
def lift {α : Type} (m : LevelProg α) : ScratchProg α := fun t =>
  ((m t.toLevelState).1, { t with toLevelState := (m t.toLevelState).2 })

def access (i size : ℕ) : ScratchProg Unit := Prog.modify fun t => { t with accesses := (i, size) :: t.accesses }

def read {α : Type} [Inhabited α] (b : Buffer α) (i : ℕ) : ScratchProg α := do
  let t ← Prog.get
  access i (b.get t.ctx).length
  pure ((b.get t.ctx).getD i default)

def write {α : Type} (b : Buffer α) (i : ℕ) (v : α) : ScratchProg Unit := do
  let t ← Prog.get
  access i (b.get t.ctx).length
  Prog.modify fun t => { t with ctx := b.set ((b.get t.ctx).set i v) t.ctx }

/-- Write the bytes `d` from `k` on. -/
def writeBytes (b : Buffer (BitVec 8)) (k : ℕ) (d : List (BitVec 8)) : ScratchProg Unit := do
  let t ← Prog.get
  access (k + d.length - 1) (b.get t.ctx).length
  Prog.modify fun t => { t with ctx := b.set (Bytes.splice (b.get t.ctx) k d) t.ctx }

/-- `span(n)`, whose end is an index one past the elements. -/
def first {α : Type} (b : Buffer α) (n : ℕ) : ScratchProg (List α) := do
  let t ← Prog.get
  access n ((b.get t.ctx).length + 1)
  pure ((b.get t.ctx).take n)

/-- A list handed to `update`: the first elements of a buffer, or an array of the caller's. -/
inductive Span (α : Type)
  | buffer (b : Buffer (Option α)) (n : ℕ)
  | array (xs : List (Option α))

namespace Span

variable {α : Type}

def size : Span α → ℕ
  | buffer _ n => n
  | array xs => xs.length

def read : Span α → ℕ → ScratchProg (Option α)
  | buffer b _, i => Scratch.read b i
  | array xs, i => pure (xs.getD i none)

end Span

/-- The first index among `n` from `i` on whose element has `p`. -/
def findFrom {α : Type} (b : Buffer (Option α)) (p : Option α → Bool) : ℕ → ℕ → ScratchProg (Option ℕ)
  | 0, _ => pure none
  | n + 1, i => do
    let v ← read b i
    if p v then pure (some i) else findFrom b p n (i + 1)

/-- A slot as a `SlotIndex`, of 16 bits. -/
def slotIndex (slot : ℕ) : ℕ := slot % 2 ^ 16

/-! ### The calls of the level's stores -/

section Store

variable (c : LevelCtx)

/-- `write_chunk`, the lambda of both updates; returns the number of chunks. -/
def writeChunk (b : Buffer (BitVec 8)) (numChunks idx value : ℕ) : ScratchProg ℕ := do
  writeBytes b (idx * Serial.chunkSize) (Serial.writeId48 value)
  write Buffer.chunkIds numChunks idx
  pure (numChunks + 1)

/-- The slot list of an update. -/
def handSlots (slots : Buffer ℕ) (n : ℕ) : ScratchProg Unit := do
  let l ← first slots n
  Prog.modify fun t => { t with slotLists := l :: t.slotLists }

/-- The end of `LevelStore::update` of a neighbour entry. -/
def storeEntry (nid : NID) (numChunks : ℕ) : ScratchProg Unit := do
  let data ← first Buffer.neighbourBuf ((c.layout.neighbourOverflowChunk + 1) * Serial.chunkSize)
  let ids ← first Buffer.chunkIds numChunks
  lift (LevelProg.update nid fun e => e.overwrite c.layout ids data)

/-- `LevelStore::update` of slots of a node's list. -/
def updateNeighbours (nid : NID) (neighbours : Span Node) (slots : Buffer ℕ) : ScratchProg Unit := do
  handSlots slots neighbours.size
  let numChunks ← (List.range neighbours.size).foldlM (fun num i => do
    let slot ← read slots i
    let n ← neighbours.read i
    let num ← writeChunk Buffer.neighbourBuf num (c.layout.neighbourNidChunk slot) (Node.words n).nid
    writeChunk Buffer.neighbourBuf num (c.layout.neighbourVidChunk slot) (Node.words n).vid) 0
  storeEntry c nid numChunks

/-- `LevelStore::update` of a node's overflow field. -/
def updateHead (nid : NID) (overflow : Option NID) : ScratchProg Unit := do
  let numChunks ← writeChunk Buffer.neighbourBuf 0 c.layout.neighbourOverflowChunk (NID.word overflow)
  storeEntry c nid numChunks

/-- The end of `LevelStore::update` of an overflow entry. -/
def storeOverflow (nid : NID) (numChunks : ℕ) : ScratchProg Unit := do
  let data ← first Buffer.overflowBuf ((c.layout.overflowChunk + 1) * Serial.chunkSize)
  let ids ← first Buffer.chunkIds numChunks
  lift (LevelProg.updateOverflow nid fun e => e.overwrite c.layout ids data)

/-- `LevelStore::update` of slots of an overflow record. -/
def updateIncoming (nid : NID) (incoming : Span NID) (slots : Buffer ℕ) : ScratchProg Unit := do
  handSlots slots incoming.size
  let numChunks ← (List.range incoming.size).foldlM (fun num i => do
    let slot ← read slots i
    let n ← incoming.read i
    writeChunk Buffer.overflowBuf num (LevelLayout.incomingChunk slot) (NID.word n)) 0
  storeOverflow c nid numChunks

/-- `LevelStore::update` of an overflow record's overflow field. -/
def updateNext (nid : NID) (overflow : Option NID) : ScratchProg Unit := do
  let numChunks ← writeChunk Buffer.overflowBuf 0 c.layout.overflowChunk (NID.word overflow)
  storeOverflow c nid numChunks

/-- `LevelStore::insert` of an overflow record. -/
def insertOverflow (e : OverflowEntry) : ScratchProg NID := do
  let data := Serial.formatOverflow c.layout ⟨e.incoming.map NID.word, NID.word e.overflow⟩
  writeBytes Buffer.overflowBuf 0 data
  let data ← first Buffer.overflowBuf c.layout.overflowLen
  lift (LevelProg.insertOverflow c (.ofData c.layout data))

/-- What a fetch sets beside the list it is given. -/
structure Fetched where
  owner : ℕ
  overflow : Option NID
  numValid : ℕ

/-- `LevelStore::fetch` of a neighbour entry, every slot in its place in the buffer. -/
def fetch (b : Buffer (Option Node)) (nid : NID) : ScratchProg Fetched := do
  let e ← lift (LevelProg.fetch nid)
  (List.range c.maxNeighbours).forM fun slot => write b slot (e.neighbours[slot]?).join
  pure ⟨e.owner, e.overflow, (e.neighbours.take c.maxNeighbours).countP Option.isSome⟩

/-- `LevelStore::fetch` of an overflow record, every slot in its place; returns the next one. -/
def fetchOverflow (b : Buffer (Option NID)) (nid : NID) : ScratchProg (Option NID) := do
  let e ← lift (LevelProg.fetchOverflow nid)
  (List.range c.overflowCapacity).forM fun slot => write b slot (e.incoming[slot]?).join
  pure e.overflow

end Store

/-! ### Overflow chains -/

section Chains

variable (c : LevelCtx)

/-- The walk of `add_overflow_incoming`. -/
def addOverflowFrom (incoming : NID) : ℕ → NID → StoreKind → Option NID → ScratchProg Unit
  | 0, _, _, some _ => Prog.fail endlessChain
  | fuel + 1, _, _, some cur => do
    let next ← fetchOverflow c Buffer.incomingBuf1 cur
    match ← findFrom Buffer.incomingBuf1 Option.isNone c.overflowCapacity 0 with
    | some slot => do
      write Buffer.updateSlots 0 (slotIndex slot)
      updateIncoming c cur (.array [some incoming]) Buffer.updateSlots
    | none => addOverflowFrom incoming fuel cur .overflow next
  | _, parent, kind, none => do
    let new ← insertOverflow c ⟨[some incoming], none⟩
    match kind with
    | .neighbour => updateHead c parent (some new)
    | .overflow => updateNext c parent (some new)

def addOverflowIncoming (neighbour : Node) (overflowHead : Option NID) (node : Node) : ScratchProg Unit := do
  let fuel ← lift chainFuel
  addOverflowFrom c node.nid.setIncoming fuel neighbour.nid .neighbour overflowHead

/-- The walk of `find_overflow_link`. -/
def findOverflowFrom (target : NID) : ℕ → Option NID → ScratchProg (Option LinkSlot)
  | _, none => pure none
  | 0, some _ => Prog.fail endlessChain
  | fuel + 1, some cur => do
    let next ← fetchOverflow c Buffer.incomingBuf2 cur
    match ← findFrom Buffer.incomingBuf2 (fun o => o.any fun n => n.clearIncoming == target) c.overflowCapacity 0 with
    | some slot => pure (some ⟨cur, .overflow, slotIndex slot⟩)
    | none => findOverflowFrom target fuel next

def findOverflowLink (head : Option NID) (target : NID) : ScratchProg (Option LinkSlot) := do
  let fuel ← lift chainFuel
  findOverflowFrom c target fuel head

def clearLink (link : LinkSlot) : ScratchProg Unit := do
  write Buffer.updateSlots 0 link.slot
  match link.kind with
  | .neighbour => updateNeighbours c link.record (.array [none]) Buffer.updateSlots
  | .overflow => updateIncoming c link.record (.array [none]) Buffer.updateSlots

/-- Clear the link if one was found, and say whether it was. -/
def clearFound : Option LinkSlot → ScratchProg Bool
  | none => pure false
  | some link => do
    clearLink c link
    pure true

end Chains

/-! ### `link_neighbours_locked` -/

section Link

variable (c : LevelCtx)

/-- The free slot of the list in the second node buffer. -/
def freeSlot (entry : Fetched) : ScratchProg (Option ℕ) :=
  if entry.numValid < c.maxNeighbours then findFrom Buffer.nodeBuf2 Option.isNone c.maxNeighbours 0 else pure none

/-- The reciprocal edge for one neighbour; returns the neighbour if its list has no room. -/
def landLink (node neighbour : Node) : ScratchProg (List Node) := do
  match ← Prog.attempt (fetch c Buffer.nodeBuf2 neighbour.nid) with
  | .error _ => pure []
  | .ok entry => do
    match ← freeSlot c entry with
    | some slot => do
      write Buffer.updateSlots 0 (slotIndex slot)
      updateNeighbours c neighbour.nid (.array [some node]) Buffer.updateSlots
      pure []
    | none => do
      addOverflowIncoming c neighbour entry.overflow node
      pure [neighbour]

/-- One slot: `acc.1` incoming links stand compacted in the buffer. -/
def linkSlot (node : Node) (acc : ℕ × List Node) (slot : ℕ) : ScratchProg (ℕ × List Node) := do
  match ← read Buffer.nodeBuf1 slot with
  | none => pure acc
  | some current =>
    if current.nid.incoming then do
      let neighbour : Node := ⟨current.nid.clearIncoming, current.vid⟩
      write Buffer.nodeBuf1 acc.1 (some neighbour)
      write Buffer.linkSlots acc.1 (slotIndex slot)
      let out ← landLink c node neighbour
      pure (acc.1 + 1, acc.2 ++ out)
    else pure acc

/-- The update of the node's own list, if there is anything to write. -/
def updateStaged (node : Node) (b : Buffer (Option Node)) (num : ℕ) (slots : Buffer ℕ) : ScratchProg Unit :=
  if num = 0 then pure () else updateNeighbours c node.nid (.buffer b num) slots

def linkNeighboursLocked (node : Node) : ScratchProg (List Node) := do
  let _ ← fetch c Buffer.nodeBuf1 node.nid
  let (numIncoming, out) ← (List.range c.maxNeighbours).foldlM (linkSlot c node) (0, [])
  updateStaged c node Buffer.nodeBuf1 numIncoming Buffer.linkSlots
  pure out

end Link

/-! ### `replace_neighbours` -/

section Replace

variable (c : LevelCtx)

def dropNeighbourLink (node : Node) (neighbour : NID) : ScratchProg Bool := do
  match ← Prog.attempt (fetch c Buffer.nodeBuf2 neighbour) with
  | .error _ => pure false
  | .ok entry => do
    match ← findFrom Buffer.nodeBuf2 (slotNames node.nid) c.maxNeighbours 0 with
    | some slot => do
      let nid ← read Buffer.nodeBuf2 slot
      if nid.any fun n => n.nid.incoming then do
        clearLink c ⟨neighbour, .neighbour, slotIndex slot⟩
        pure false
      else pure true
    | none => do
      let link ← findOverflowLink c entry.overflow node.nid
      let _ ← clearFound c link
      pure false

/-- Step A for one slot: `num` links are staged. -/
def demoteSlot (updated : List Node) (num slot : ℕ) : ScratchProg ℕ := do
  match ← read Buffer.nodeBuf1 slot with
  | none => pure num
  | some current =>
    if current.nid.incoming || inUpdated updated current then pure num
    else do
      write Buffer.nodeBuf2 num (some ⟨current.nid.setIncoming, current.vid⟩)
      write Buffer.updateSlots num (slotIndex slot)
      pure (num + 1)

/-- Step B for one slot. -/
def dropSlot (node : Node) (updated : List Node) (slot : ℕ) : ScratchProg Unit := do
  match ← read Buffer.nodeBuf1 slot with
  | none => pure ()
  | some current =>
    if inUpdated updated current then pure ()
    else do
      let dropped : Node := ⟨current.nid.clearIncoming, current.vid⟩
      let keepsLink ← dropNeighbourLink c node dropped.nid
      if keepsLink then do
        let head ← lift (LevelProg.fetch node.nid)
        addOverflowIncoming c node head.overflow dropped
      else pure ()

/-- Step C for one link of the updated list: how many are staged, and the chain
slots they leave. -/
def stageLink (overflowHead : Option NID) (acc : ℕ × List LinkSlot) (target : Node) :
    ScratchProg (ℕ × List LinkSlot) := do
  match ← findFrom Buffer.nodeBuf1 (slotNames target.nid) c.maxNeighbours 0 with
  | some _ => pure acc
  | none => do
    match ← findOverflowLink c overflowHead target.nid with
    | some link => do
      write Buffer.nodeBuf2 acc.1 (some target)
      pure (acc.1 + 1, acc.2 ++ [link])
    | none => do
      write Buffer.nodeBuf2 acc.1 (some ⟨target.nid.setIncoming, target.vid⟩)
      pure (acc.1 + 1, acc.2)

/-- Step D for one slot: `acc.1` writes stand compacted in the list's own buffer
and `acc.2` of the `numStaged` links have a slot. -/
def fillSlot (updated : List Node) (numStaged : ℕ) (acc : ℕ × ℕ) (slot : ℕ) : ScratchProg (ℕ × ℕ) := do
  let current ← read Buffer.nodeBuf1 slot
  if current.any (inUpdated updated) then pure acc
  else if acc.2 < numStaged then do
    let value ← read Buffer.nodeBuf2 acc.2
    write Buffer.nodeBuf1 acc.1 value
    write Buffer.updateSlots acc.1 (slotIndex slot)
    pure (acc.1 + 1, acc.2 + 1)
  else if current.isNone then pure acc
  else do
    write Buffer.nodeBuf1 acc.1 none
    write Buffer.updateSlots acc.1 (slotIndex slot)
    pure (acc.1 + 1, acc.2)

def replaceNeighbours (node : Node) (updated : List Node) : ScratchProg (List Node) := do
  let entry ← fetch c Buffer.nodeBuf1 node.nid
  let numStaged ← (List.range c.maxNeighbours).foldlM (demoteSlot updated) 0
  updateStaged c node Buffer.nodeBuf2 numStaged Buffer.updateSlots
  (List.range c.maxNeighbours).forM (dropSlot c node updated)
  let (numStaged, promoted) ← updated.foldlM (stageLink c entry.overflow) (0, [])
  let (numUpdates, _) ← (List.range c.maxNeighbours).foldlM (fillSlot updated numStaged) (0, 0)
  updateStaged c node Buffer.nodeBuf1 numUpdates Buffer.updateSlots
  promoted.forM (clearLink c)
  linkNeighboursLocked c node

end Replace

/-! ### `unlink_neighbours` -/

section Unlink

variable (c : LevelCtx)

/-- One slot of the scan of `unlink_neighbour`. -/
def scanSlot (node : Node) (neighbour : NID) (acc : Option LinkSlot × ℕ) (slot : ℕ) :
    ScratchProg (Option LinkSlot × ℕ) := do
  match ← read Buffer.nodeBuf2 slot with
  | none => pure acc
  | some n =>
    if n.nid.clearIncoming == node.nid then pure (some ⟨neighbour, .neighbour, slotIndex slot⟩, acc.2)
    else if n.nid.incoming then pure acc
    else pure (acc.1, acc.2 + 1)

/-- The link of `neighbour` to `node`: in its own list, else in its chain. -/
def findLink (node : Node) (overflow : Option NID) : Option LinkSlot → ScratchProg (Option LinkSlot)
  | some link => pure (some link)
  | none => findOverflowLink c overflow node.nid

def unlinkNeighbour (node : Node) (neighbour : NID) : ScratchProg (Option Node × Bool) := do
  match ← Prog.attempt (fetch c Buffer.nodeBuf2 neighbour) with
  | .error _ => pure (none, false)
  | .ok entry => do
    let (link, outgoing) ← (List.range c.maxNeighbours).foldlM (scanSlot node neighbour) (none, 0)
    let found ← findLink c node entry.overflow link
    let severed ← clearFound c found
    pure (if severed then (some ⟨neighbour, entry.owner⟩, outgoing == 0) else (none, false))

/-- Compact the links of a list to its front, `flag`ged, with their slots in `linkSlots`. -/
def compactSlot {α : Type} (b : Buffer (Option α)) (flag : α → α) (num slot : ℕ) : ScratchProg ℕ := do
  match ← read b slot with
  | none => pure num
  | some current => do
    write b num (some (flag current))
    write Buffer.linkSlots num (slotIndex slot)
    pure (num + 1)

/-- Sever the link at `i`: `acc.1` slots to free stand compacted, `acc.2` is reported. -/
def unlinkLink {α : Type} (b : Buffer (Option α)) (nid : α → NID) (node : Node) (acc : ℕ × List Node) (i : ℕ) :
    ScratchProg (ℕ × List Node) := do
  let link ← read b i
  let (neighbour, orphan) ← unlinkNeighbour c node ((link.map fun n => (nid n).clearIncoming).getD ⟨0, false⟩)
  if orphan then pure acc
  else do
    let slot ← read Buffer.linkSlots i
    write Buffer.linkSlots acc.1 slot
    write b acc.1 none
    pure (acc.1 + 1, match neighbour with
      | some n => if acc.2.length < c.maxNeighbours then acc.2 ++ [n] else acc.2
      | none => acc.2)

/-- The update of an overflow record, if there is a slot to free. -/
def updateFreed (cur : NID) (num : ℕ) : ScratchProg Unit :=
  if num = 0 then pure () else updateIncoming c cur (.buffer Buffer.incomingBuf1 num) Buffer.linkSlots

/-- The part of `unlink_neighbours` that walks the overflow chain. -/
def unlinkChain (node : Node) : ℕ → Option NID → List Node → ScratchProg (List Node)
  | _, none, out => pure out
  | 0, some _, _ => Prog.fail endlessChain
  | fuel + 1, some cur, out => do
    let next ← fetchOverflow c Buffer.incomingBuf1 cur
    let numIncoming ← (List.range c.overflowCapacity).foldlM (compactSlot Buffer.incomingBuf1 id) 0
    let (numFreed, out) ← (List.range numIncoming).foldlM (unlinkLink c Buffer.incomingBuf1 id node) (0, out)
    updateFreed c cur numFreed
    unlinkChain node fuel next out

def unlinkNeighbours (node : Node) : ScratchProg (List Node) := do
  let entry ← fetch c Buffer.nodeBuf1 node.nid
  let numLinks ← (List.range c.maxNeighbours).foldlM
    (compactSlot Buffer.nodeBuf1 fun n => ⟨n.nid.setIncoming, n.vid⟩) 0
  updateStaged c node Buffer.nodeBuf1 numLinks Buffer.linkSlots
  let (numFreed, out) ← (List.range numLinks).foldlM (unlinkLink c Buffer.nodeBuf1 Node.nid node) (0, [])
  updateStaged c node Buffer.nodeBuf1 numFreed Buffer.linkSlots
  let fuel ← lift chainFuel
  unlinkChain c node fuel entry.overflow out

end Unlink

end Scratch
end Hnsw
end VsqlVector
