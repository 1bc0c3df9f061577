/-
# What the records of a level say

A node's record names other nodes: those in the slots of its own list and those
in the slots of the overflow records chained off it. `links`, `chained` and
`names` read this off a `LevelStore`; `Chains` says that the overflow chains end
and keep apart.

An operation on one node's list or chain leaves everything else alone, which is
what `Touch` says. The storage calls are described here once, for storage that
does not fail (`Quiet`), and the later proofs do not unfold them.

Key definitions: `LevelStore.names`, `LevelStore.Chains`, `Touch`.
Key theorems: `touch_slots`, `touch_cells`, `touch_head`, `touch_tail`, `touch_cut_tail`.
-/
import VsqlVector.Lib.Trail
import VsqlVector.Index.Graph

namespace VsqlVector
namespace Hnsw

namespace LevelStore

variable (s : LevelStore)

def entry (a : ℕ) : Option NeighbourEntry := (s.nodes.lookup a).map Record.entry

/-- The node has a record in use. -/
def Live (a : ℕ) : Prop := (s.nodes.lookup a).isSome

instance (a : ℕ) : Decidable (s.Live a) := inferInstanceAs (Decidable (_ = true))

/-- The slots of a node's own list. -/
def slots (a : ℕ) : List (Option Node) := ((s.entry a).map NeighbourEntry.neighbours).getD []

/-- The links in a node's own list. -/
def links (a : ℕ) : List Node := (s.slots a).reduceOption

/-- The first overflow record of a node. -/
def head (a : ℕ) : Option ℕ := ((s.entry a).bind NeighbourEntry.overflow).map NID.ref

/-- The overflow record after `o`. -/
def next (o : ℕ) : Option (Option ℕ) :=
  (s.overflows.lookup o).map fun r => r.entry.overflow.map NID.ref

/-- The slots of an overflow record. -/
def cells (o : ℕ) : List (Option NID) :=
  ((s.overflows.lookup o).map fun r => r.entry.incoming).getD []

/-- The overflow chain of a node. -/
def chain (a : ℕ) : List ℕ := Trail.walk s.next s.overflows.keys.length (s.head a)

/-- The links in the overflow chain of a node. -/
def chained (a : ℕ) : List NID := (s.chain a).flatMap fun o => (s.cells o).reduceOption

/-- The nodes a node's record names, the incoming flag ignored. -/
def names (a : ℕ) : List ℕ := (s.links a).map (fun n => n.nid.ref) ++ (s.chained a).map NID.ref

/-- The overflow chains end, and no overflow record is on two of them. -/
structure Chains : Prop where
  trail : ∀ a, s.Live a → Trail s.next (s.head a) (s.chain a)
  disjoint : ∀ a b, s.Live a → s.Live b → a ≠ b → (s.chain a).Disjoint (s.chain b)

end LevelStore

/-- The part of a record that linking leaves alone. -/
structure Bone where
  trxRef : ℕ
  deleteMarked : Bool
  owner : ℕ
  lowerLevel : Option NID
  width : ℕ

def Record.bone (r : Record NeighbourEntry) : Bone :=
  ⟨r.trxRef, r.deleteMarked, r.entry.owner, r.entry.lowerLevel, r.entry.neighbours.length⟩

def LevelStore.bone (s : LevelStore) (a : ℕ) : Option Bone := (s.nodes.lookup a).map Record.bone

/-- `s'` is `s` but for the links in the record of `a`, its chain included. -/
structure Touch (a : ℕ) (s s' : LevelStore) : Prop where
  bone : ∀ b, s'.bone b = s.bone b
  slots : ∀ b, b ≠ a → s'.slots b = s.slots b
  head : ∀ b, b ≠ a → s'.head b = s.head b
  chain : ∀ b, s.Live b → b ≠ a → s'.chain b = s.chain b
  cells : ∀ b, s.Live b → b ≠ a → ∀ o ∈ s.chain b, s'.cells o = s.cells o
  chains : s'.Chains

namespace LevelStore

variable {s s' : LevelStore} {a b o : ℕ}

theorem Live.exists_record (h : s.Live a) : ∃ r, s.nodes.lookup a = some r := Option.isSome_iff_exists.mp h

theorem live_of_lookup {r : Record NeighbourEntry} (h : s.nodes.lookup a = some r) : s.Live a := by
  simp [Live, h]

theorem live_of_entry {e : NeighbourEntry} (h : s.entry a = some e) : s.Live a := by
  simp only [entry, Option.map_eq_some_iff] at h
  obtain ⟨r, hr, -⟩ := h
  exact live_of_lookup hr

theorem Live.exists_entry (h : s.Live a) : ∃ e, s.entry a = some e := by
  obtain ⟨r, hr⟩ := h.exists_record
  exact ⟨r.entry, by simp [entry, hr]⟩

theorem slots_of_entry {e : NeighbourEntry} (h : s.entry a = some e) : s.slots a = e.neighbours := by
  simp [slots, h]

theorem head_of_entry {e : NeighbourEntry} (h : s.entry a = some e) :
    s.head a = e.overflow.map NID.ref := by
  simp [head, h]

/-- A trail is no longer than there are records. -/
theorem length_trail_le {o : Option ℕ} {l : List ℕ} (h : Trail s.next o l) : l.length ≤ s.overflows.keys.length := by
  have hsub : l ⊆ s.overflows.keys := by
    intro o ho
    have := h.isSome o ho
    rw [next, Option.isSome_map, AList.lookup_isSome] at this
    exact AList.mem_keys.mp this
  exact (List.subperm_of_subset h.nodup hsub).length_le

/-- A trail from the head of a node's chain is its chain. -/
theorem chain_eq {l : List ℕ} (h : Trail s.next (s.head a) l) : s.chain a = l :=
  Trail.walk_eq h (length_trail_le h)

/-- The chain of a node depends on its head and on the records it passes. -/
theorem Chains.chain_congr (hs : s.Chains) (ha : s.Live a) (hh : s'.head a = s.head a)
    (hn : ∀ o ∈ s.chain a, s'.next o = s.next o) :
    Trail s'.next (s'.head a) (s.chain a) ∧ s'.chain a = s.chain a := by
  have h : Trail s'.next (s'.head a) (s.chain a) := by
    rw [hh]
    exact (hs.trail a ha).congr hn
  exact ⟨h, chain_eq h⟩

theorem chained_congr (hc : s'.chain a = s.chain a) (hcell : ∀ o ∈ s.chain a, s'.cells o = s.cells o) :
    s'.chained a = s.chained a := by
  rw [chained, chained, hc]
  exact List.flatMap_congr fun o ho => by rw [hcell o ho]

theorem live_iff_of_bone (h : s'.bone a = s.bone a) : s'.Live a ↔ s.Live a := by
  have := congrArg Option.isSome h
  simp only [bone, Option.isSome_map] at this
  simp [Live, this]

theorem length_slots_of_bone (h : s'.bone a = s.bone a) :
    (s'.slots a).length = (s.slots a).length := by
  simp only [bone] at h
  simp only [slots, entry]
  rcases h1 : s.nodes.lookup a with _ | r <;> rcases h2 : s'.nodes.lookup a with _ | r' <;>
    simp_all [Record.bone]

end LevelStore

open LevelStore

namespace Touch

variable {s s' s'' : LevelStore} {a b : ℕ}

theorem live_iff (h : Touch a s s') : s'.Live b ↔ s.Live b := live_iff_of_bone (h.bone b)

theorem refl (hs : s.Chains) : Touch a s s :=
  ⟨fun _ => rfl, fun _ _ => rfl, fun _ _ => rfl, fun _ _ _ => rfl, fun _ _ _ _ _ => rfl, hs⟩

theorem trans (h : Touch a s s') (h' : Touch a s' s'') : Touch a s s'' where
  bone b := (h'.bone b).trans (h.bone b)
  slots b hb := (h'.slots b hb).trans (h.slots b hb)
  head b hb := (h'.head b hb).trans (h.head b hb)
  chain b hl hb := (h'.chain b (h.live_iff.mpr hl) hb).trans (h.chain b hl hb)
  cells b hl hb o ho := (h'.cells b (h.live_iff.mpr hl) hb o (h.chain b hl hb ▸ ho)).trans
    (h.cells b hl hb o ho)
  chains := h'.chains

theorem links (h : Touch a s s') (hb : b ≠ a) : s'.links b = s.links b := by
  rw [LevelStore.links, LevelStore.links, h.slots b hb]

theorem chained (h : Touch a s s') (hl : s.Live b) (hb : b ≠ a) : s'.chained b = s.chained b :=
  chained_congr (h.chain b hl hb) (h.cells b hl hb)

theorem names (h : Touch a s s') (hl : s.Live b) (hb : b ≠ a) : s'.names b = s.names b := by
  rw [LevelStore.names, LevelStore.names, h.links hb, h.chained hl hb]

theorem length_slots (h : Touch a s s') (b : ℕ) : (s'.slots b).length = (s.slots b).length :=
  length_slots_of_bone (h.bone b)

end Touch

/-! ### Writing to a node's list -/

section Writes

variable {s : LevelStore} {a o : ℕ} {r : Record NeighbourEntry}

theorem lookup_nodes_insert (s : LevelStore) (a b : ℕ) (r : Record NeighbourEntry) :
    (s.nodes.insert a r).lookup b = if b = a then some r else s.nodes.lookup b := by
  split
  · rename_i h
    rw [h, AList.lookup_insert]
  · rename_i h
    rw [AList.lookup_insert_ne h]

theorem lookup_overflows_insert (s : LevelStore) (a b : ℕ) (r : Record OverflowEntry) :
    (s.overflows.insert a r).lookup b = if b = a then some r else s.overflows.lookup b := by
  split
  · rename_i h
    rw [h, AList.lookup_insert]
  · rename_i h
    rw [AList.lookup_insert_ne h]

/-- New slots for a node's own list. -/
theorem touch_slots (hs : s.Chains) (hr : s.nodes.lookup a = some r) {xs : List (Option Node)}
    (hlen : xs.length = r.entry.neighbours.length) :
    let s' : LevelStore := { s with
      nodes := s.nodes.insert a { r with entry := { r.entry with neighbours := xs } } }
    Touch a s s' ∧ s'.slots a = xs ∧ s'.head a = s.head a ∧ s'.chain a = s.chain a ∧
      s'.chained a = s.chained a := by
  intro s'
  have hl (b : ℕ) : s'.nodes.lookup b =
      if b = a then some { r with entry := { r.entry with neighbours := xs } }
      else s.nodes.lookup b := lookup_nodes_insert s a b _
  have hbone (b : ℕ) : s'.bone b = s.bone b := by
    rw [bone, bone, hl]
    by_cases h : b = a
    · subst h
      simp [hr, Record.bone, hlen]
    · simp [h]
  have hhead (b : ℕ) : s'.head b = s.head b := by
    simp only [head, entry, hl]
    by_cases h : b = a
    · subst h
      simp [hr]
    · simp [h]
  have hchain (b : ℕ) : s'.chain b = s.chain b := by rw [chain, chain, hhead b]; rfl
  refine ⟨⟨hbone, fun b hb => ?_, fun b _ => hhead b, fun b _ _ => hchain b,
    fun _ _ _ _ _ => rfl, ?_⟩, ?_, hhead a, hchain a, chained_congr (hchain a) fun _ _ => rfl⟩
  · simp [LevelStore.slots, entry, hl, hb]
  · refine ⟨fun b hb => ?_, fun b c hb hc hne => ?_⟩
    · rw [hhead, hchain]
      exact hs.trail b ((live_iff_of_bone (hbone b)).mp hb)
    · rw [hchain, hchain]
      exact hs.disjoint b c ((live_iff_of_bone (hbone b)).mp hb)
        ((live_iff_of_bone (hbone c)).mp hc) hne
  · simp [LevelStore.slots, entry, hl]

/-! ### Writing to an overflow chain -/

variable {q : Record OverflowEntry}

/-- A change to the overflow records leaves the nodes' records alone. -/
theorem bone_overflows (s : LevelStore) (t : AList fun _ : ℕ => Record OverflowEntry) (b : ℕ) :
    ({ s with overflows := t } : LevelStore).bone b = s.bone b := rfl

theorem next_insert (s : LevelStore) (o o' : ℕ) (q : Record OverflowEntry) :
    ({ s with overflows := s.overflows.insert o q } : LevelStore).next o' =
      if o' = o then some (q.entry.overflow.map NID.ref) else s.next o' := by
  simp only [next, lookup_overflows_insert]
  split <;> rfl

theorem cells_insert (s : LevelStore) (o o' : ℕ) (q : Record OverflowEntry) :
    ({ s with overflows := s.overflows.insert o q } : LevelStore).cells o' =
      if o' = o then q.entry.incoming else s.cells o' := by
  simp only [cells, lookup_overflows_insert]
  split <;> rfl

/-- New slots for an overflow record of the chain of `a`. -/
theorem touch_cells (hs : s.Chains) (ha : s.Live a) (ho : o ∈ s.chain a)
    (hq : s.overflows.lookup o = some q) (xs : List (Option NID)) :
    let s' : LevelStore := { s with
      overflows := s.overflows.insert o { q with entry := { q.entry with incoming := xs } } }
    Touch a s s' ∧ s'.slots a = s.slots a ∧ s'.chain a = s.chain a ∧
      (∀ o', s'.cells o' = if o' = o then xs else s.cells o') ∧
      ∃ l₁ l₂, s.chained a = l₁ ++ q.entry.incoming.reduceOption ++ l₂ ∧
        s'.chained a = l₁ ++ xs.reduceOption ++ l₂ := by
  intro s'
  have hnext (o' : ℕ) : s'.next o' = s.next o' := by
    rw [next_insert]
    split
    · rename_i h
      subst h
      simp [next, hq]
    · rfl
  have hcells (o' : ℕ) : s'.cells o' = if o' = o then xs else s.cells o' := cells_insert s o o' _
  have hchain (b : ℕ) (hb : s.Live b) :
      Trail s'.next (s'.head b) (s.chain b) ∧ s'.chain b = s.chain b :=
    hs.chain_congr hb rfl fun o' _ => hnext o'
  refine ⟨⟨fun _ => rfl, fun _ _ => rfl, fun _ _ => rfl, fun b hb _ => (hchain b hb).2,
    fun b hb hne o' ho' => ?_, ?_, ?_⟩, rfl, (hchain a ha).2, hcells, ?_⟩
  · rw [hcells, if_neg]
    rintro rfl
    exact hs.disjoint a b ha hb (Ne.symm hne) ho ho'
  · intro b hb
    rw [(hchain b hb).2]
    exact (hchain b hb).1
  · intro b c hb hc hne
    rw [(hchain b hb).2, (hchain c hc).2]
    exact hs.disjoint b c hb hc hne
  · obtain ⟨l₁, l₂, hl⟩ := List.append_of_mem ho
    have hnd : (l₁ ++ o :: l₂).Nodup := hl ▸ (hs.trail a ha).nodup
    have hl₁ : ∀ o' ∈ l₁, s'.cells o' = s.cells o' := fun o' ho' => by
      rw [hcells, if_neg]
      rintro rfl
      exact (List.nodup_append.mp hnd).2.2 o' ho' o' (by simp) rfl
    have hl₂ : ∀ o' ∈ l₂, s'.cells o' = s.cells o' := fun o' ho' => by
      rw [hcells, if_neg]
      rintro rfl
      exact (List.nodup_cons.mp (List.nodup_append.mp hnd).2.1).1 ho'
    refine ⟨l₁.flatMap fun o => (s.cells o).reduceOption, l₂.flatMap fun o => (s.cells o).reduceOption,
      ?_, ?_⟩
    · rw [chained, hl, List.flatMap_append, List.flatMap_cons, List.append_assoc]
      simp [cells, hq]
    · rw [chained, (hchain a ha).2, hl, List.flatMap_append, List.flatMap_cons, List.append_assoc,
        hcells, if_pos rfl]
      congr 1
      · exact List.flatMap_congr fun o' ho' => by rw [hl₁ o' ho']
      · congr 1
        exact List.flatMap_congr fun o' ho' => by rw [hl₂ o' ho']

/-- A new overflow record that nothing names yet. -/
theorem touch_alloc (hs : s.Chains) {n : ℕ} (hn : s.overflows.lookup n = none) :
    let s' : LevelStore := { s with overflows := s.overflows.insert n q }
    Touch a s s' ∧ s'.slots a = s.slots a ∧
      (∀ b, s.Live b → s'.chain b = s.chain b ∧ s'.chained b = s.chained b ∧ n ∉ s'.chain b) := by
  intro s'
  have hnot (b : ℕ) (hb : s.Live b) : n ∉ s.chain b := fun hmem => by
    have := (hs.trail b hb).isSome n hmem
    simp [next, hn] at this
  have hchain (b : ℕ) (hb : s.Live b) :
      Trail s'.next (s'.head b) (s.chain b) ∧ s'.chain b = s.chain b := by
    refine hs.chain_congr hb rfl fun o' ho' => ?_
    rw [next_insert, if_neg]
    rintro rfl
    exact hnot b hb ho'
  have hcells (b : ℕ) (hb : s.Live b) (o' : ℕ) (ho' : o' ∈ s.chain b) : s'.cells o' = s.cells o' := by
    rw [cells_insert, if_neg]
    rintro rfl
    exact hnot b hb ho'
  refine ⟨⟨fun _ => rfl, fun _ _ => rfl, fun _ _ => rfl, fun b hb _ => (hchain b hb).2,
    fun b hb _ => hcells b hb, ?_, ?_⟩, rfl, fun b hb => ⟨(hchain b hb).2,
      chained_congr (hchain b hb).2 (hcells b hb), (hchain b hb).2 ▸ hnot b hb⟩⟩
  · intro b hb
    rw [(hchain b hb).2]
    exact (hchain b hb).1
  · intro b c hb hc hne
    rw [(hchain b hb).2, (hchain c hc).2]
    exact hs.disjoint b c hb hc hne

/-- What another chain of `a` leaves alone. -/
theorem touch_of_chain {t : LevelStore} {l : List ℕ} (hs : s.Chains)
    (hbone : ∀ b, t.bone b = s.bone b) (hslots : ∀ b, t.slots b = s.slots b)
    (hhead : ∀ b, b ≠ a → t.head b = s.head b)
    (hcells : ∀ b, s.Live b → b ≠ a → ∀ o ∈ s.chain b, t.cells o = s.cells o)
    (hchain : ∀ b, s.Live b → b ≠ a → Trail t.next (s.head b) (s.chain b))
    (hdis : ∀ b, s.Live b → b ≠ a → l.Disjoint (s.chain b))
    (htrail : Trail t.next (t.head a) l) : Touch a s t ∧ t.chain a = l := by
  have hlive (b : ℕ) : t.Live b ↔ s.Live b := live_iff_of_bone (hbone b)
  have hother (b : ℕ) (hb : s.Live b) (hne : b ≠ a) : t.chain b = s.chain b :=
    chain_eq (hhead b hne ▸ hchain b hb hne)
  have hown : t.chain a = l := chain_eq htrail
  have hdit (b : ℕ) (hb : s.Live b) (hne : b ≠ a) : (t.chain a).Disjoint (t.chain b) := by
    rw [hown, hother b hb hne]
    exact hdis b hb hne
  refine ⟨⟨hbone, fun b _ => hslots b, hhead, hother, hcells, ?_, ?_⟩, hown⟩
  · intro b hb
    by_cases h : b = a
    · rw [h, hown]
      exact htrail
    · rw [hother b ((hlive b).mp hb) h, hhead b h]
      exact hchain b ((hlive b).mp hb) h
  · intro b c hb hc hne
    have hb := (hlive b).mp hb
    have hc := (hlive c).mp hc
    by_cases h1 : b = a
    · rw [h1]
      exact hdit c hc fun h => hne (h1.trans h.symm)
    · by_cases h2 : c = a
      · rw [h2]
        exact (hdit b hb h1).symm
      · rw [hother b hb h1, hother c hc h2]
        exact hs.disjoint b c hb hc hne

theorem chained_snoc {s' : LevelStore} {n : ℕ} (hchain : s'.chain a = s.chain a ++ [n])
    (hcells : ∀ o, s'.cells o = s.cells o) :
    s'.chained a = s.chained a ++ (s.cells n).reduceOption := by
  rw [chained, hchain, List.flatMap_append, chained]
  congr 1
  · exact List.flatMap_congr fun o _ => by rw [hcells]
  · simp [hcells]

/-- Another first overflow record, or none, for a node. -/
theorem setHead_frame (hr : s.nodes.lookup a = some r) (n : Option NID) :
    let s' : LevelStore := { s with
      nodes := s.nodes.insert a { r with entry := { r.entry with overflow := n } } }
    (∀ b, s'.bone b = s.bone b) ∧ (∀ b, s'.slots b = s.slots b) ∧
      (∀ b, b ≠ a → s'.head b = s.head b) ∧ s'.head a = n.map NID.ref := by
  intro s'
  have hl (b : ℕ) : s'.nodes.lookup b =
      if b = a then some { r with entry := { r.entry with overflow := n } }
      else s.nodes.lookup b := lookup_nodes_insert s a b _
  refine ⟨fun b => ?_, fun b => ?_, fun b hb => by simp [head, entry, hl, hb], by simp [head, entry, hl]⟩
  · rw [bone, bone, hl]
    by_cases h : b = a
    · subst h
      simp [hr, Record.bone]
    · simp [h]
  · simp only [slots, entry, hl]
    by_cases h : b = a
    · subst h
      simp [hr]
    · simp [h]

/-- Another successor, or none, for an overflow record. -/
theorem setNext_frame (hq : s.overflows.lookup o = some q) (n : Option NID) :
    let s' : LevelStore := { s with
      overflows := s.overflows.insert o { q with entry := { q.entry with overflow := n } } }
    (∀ o', s'.next o' = if o' = o then some (n.map NID.ref) else s.next o') ∧
      ∀ o', s'.cells o' = s.cells o' := by
  refine ⟨fun o' => next_insert s o o' _, fun o' => ?_⟩
  rw [cells_insert]
  split
  · rename_i h
    subst h
    simp [cells, hq]
  · rfl

/-- The first overflow record of a node. -/
theorem touch_head (hs : s.Chains) (hr : s.nodes.lookup a = some r) (hh : s.head a = none)
    {n : NID} (hn : s.next n.ref = some none) (hfree : ∀ b, s.Live b → n.ref ∉ s.chain b) :
    let s' : LevelStore := { s with
      nodes := s.nodes.insert a { r with entry := { r.entry with overflow := some n } } }
    Touch a s s' ∧ s'.slots a = s.slots a ∧ s'.chain a = s.chain a ++ [n.ref] ∧
      s'.chained a = s.chained a ++ (s.cells n.ref).reduceOption := by
  intro s'
  obtain ⟨hbone, hslots, hhead, hheada⟩ := setHead_frame hr (some n)
  have hnil : s.chain a = [] := chain_eq (s := s) (l := []) hh
  obtain ⟨ht, hc⟩ := touch_of_chain (l := [n.ref]) hs hbone hslots hhead (fun _ _ _ _ _ => rfl)
    (fun b hb _ => hs.trail b hb) (fun b hb _ => List.singleton_disjoint.mpr (hfree b hb))
    ⟨hheada, none, hn, rfl⟩
  have hchain : s'.chain a = s.chain a ++ [n.ref] := by
    rw [hc, hnil]
    rfl
  exact ⟨ht, hslots a, hchain, chained_snoc hchain fun _ => rfl⟩

/-- A new last overflow record of a chain. -/
theorem touch_tail (hs : s.Chains) (ha : s.Live a) {l : List ℕ} (hl : s.chain a = l ++ [o])
    (hq : s.overflows.lookup o = some q) {n : NID} (hn : s.next n.ref = some none)
    (hfree : ∀ b, s.Live b → n.ref ∉ s.chain b) :
    let s' : LevelStore := { s with
      overflows := s.overflows.insert o { q with entry := { q.entry with overflow := some n } } }
    Touch a s s' ∧ s'.slots a = s.slots a ∧ s'.chain a = s.chain a ++ [n.ref] ∧
      s'.chained a = s.chained a ++ (s.cells n.ref).reduceOption := by
  intro s'
  have ho : o ∈ s.chain a := by simp [hl]
  have hno : n.ref ≠ o := fun h => hfree a ha (h ▸ ho)
  obtain ⟨hnext, hcells⟩ := setNext_frame hq (some n)
  have ht : Trail s.next (s.head a) (l ++ [o]) := hl ▸ hs.trail a ha
  have hol : o ∉ l := fun hmem => (List.nodup_append.mp ht.nodup).2.2 o hmem o (by simp) rfl
  obtain ⟨ht, hc⟩ := touch_of_chain (a := a) (t := s') (l := l ++ [o, n.ref]) hs (fun _ => rfl)
    (fun _ => rfl) (fun _ _ => rfl) (fun _ _ _ o _ => hcells o)
    (fun b hb hne => (hs.trail b hb).congr fun o' ho' => by
      rw [hnext, if_neg]
      rintro rfl
      exact hs.disjoint a b ha hb (Ne.symm hne) ho ho')
    (fun b hb hne o' ho' hb' => by
      rw [show l ++ [o, n.ref] = s.chain a ++ [n.ref] by simp [hl]] at ho'
      rcases List.mem_append.mp ho' with ho' | ho'
      · exact hs.disjoint a b ha hb (Ne.symm hne) ho' hb'
      · rw [List.mem_singleton.mp ho'] at hb'
        exact hfree b hb hb')
    (Trail.snoc ht (hl ▸ hfree a ha) (fun j hj => by
      rw [hnext, if_neg]
      rintro rfl
      exact hol hj) (by rw [hnext, if_pos rfl]; rfl) (by rw [hnext, if_neg hno]; exact hn))
  have hchain : s'.chain a = s.chain a ++ [n.ref] := by
    rw [hc, hl]
    simp
  exact ⟨ht, rfl, hchain, chained_snoc hchain hcells⟩

/-! ### Cutting an overflow chain -/

/-- A node loses its overflow chain. -/
theorem touch_cut_head (hs : s.Chains) (hr : s.nodes.lookup a = some r) :
    let s' : LevelStore := { s with
      nodes := s.nodes.insert a { r with entry := { r.entry with overflow := none } } }
    Touch a s s' ∧ s'.chain a = [] := by
  intro s'
  obtain ⟨hbone, hslots, hhead, hheada⟩ := setHead_frame hr none
  exact touch_of_chain (l := []) hs hbone hslots hhead (fun _ _ _ _ _ => rfl)
    (fun b hb _ => hs.trail b hb) (fun b _ _ => List.disjoint_nil_left _) hheada

/-- A chain is cut off behind one of its records. -/
theorem touch_cut_tail (hs : s.Chains) (ha : s.Live a) {l l₂ : List ℕ} (hl : s.chain a = l ++ o :: l₂)
    (hq : s.overflows.lookup o = some q) :
    let s' : LevelStore := { s with
      overflows := s.overflows.insert o { q with entry := { q.entry with overflow := none } } }
    Touch a s s' ∧ s'.chain a = l ++ [o] := by
  intro s'
  have ho : o ∈ s.chain a := by simp [hl]
  obtain ⟨hnext, hcells⟩ := setNext_frame hq none
  have ht : Trail s.next (s.head a) (l ++ o :: l₂) := hl ▸ hs.trail a ha
  have hol : o ∉ l := fun hmem => (List.nodup_append.mp ht.nodup).2.2 o hmem o (by simp) rfl
  refine touch_of_chain hs (fun _ => rfl) (fun _ => rfl) (fun _ _ => rfl) (fun _ _ _ o _ => hcells o)
    (fun b hb hne => (hs.trail b hb).congr fun o' ho' => ?_) (fun b hb hne o' ho' hb' => ?_)
    (ht.cut (fun j hj => ?_) (by rw [hnext, if_pos rfl]; rfl))
  · rw [hnext, if_neg]
    rintro rfl
    exact hs.disjoint a b ha hb (Ne.symm hne) ho ho'
  · refine hs.disjoint a b ha hb (Ne.symm hne) ?_ hb'
    rw [hl]
    rcases List.mem_append.mp ho' with ho' | ho'
    · exact List.mem_append_left _ ho'
    · exact List.mem_append_right _ (by simp [List.mem_singleton.mp ho'])
  · rw [hnext, if_neg]
    rintro rfl
    exact hol hj

/-- An overflow record that is on no chain is freed. -/
theorem touch_free (hs : s.Chains) (ha : s.Live a) (hfree : ∀ b, s.Live b → o ∉ s.chain b) :
    let s' : LevelStore := { s with overflows := s.overflows.erase o }
    Touch a s s' ∧ s'.chain a = s.chain a := by
  intro s'
  have hlook (b : ℕ) (hb : s.Live b) (o' : ℕ) (ho' : o' ∈ s.chain b) :
      s'.overflows.lookup o' = s.overflows.lookup o' := by
    refine AList.lookup_erase_ne ?_
    rintro rfl
    exact hfree b hb ho'
  have hnext (b : ℕ) (hb : s.Live b) : Trail s'.next (s.head b) (s.chain b) :=
    (hs.trail b hb).congr fun o' ho' => by rw [next, next, hlook b hb o' ho']
  refine touch_of_chain hs (fun _ => rfl) (fun _ => rfl) (fun _ _ => rfl) (fun b hb _ o' ho' => ?_)
    (fun b hb _ => hnext b hb) (fun b hb hne => hs.disjoint a b ha hb (Ne.symm hne)) (hnext a ha)
  rw [cells, cells, hlook b hb o' ho']

end Writes

/-! ### The storage calls -/

/-- No storage call to come fails. -/
def Supply.Quiet (s : Supply) : Prop := s.outcomes = []

namespace LevelProg

variable {s s' : LevelState} {nid : NID}

theorem load_quiet (hq : s.Quiet) : load s = (.ok (), s) := by
  simp [load, show s.outcomes = [] from hq]

theorem storageCall_quiet {α : Type} (hq : s.Quiet) (p : LevelProg α) : storageCall p s = p s := by
  simp [storageCall, show s.outcomes = [] from hq]

theorem fetch_eq (hq : s.Quiet) (nid : NID) :
    fetch nid s = Prog.ofOption (slotIsFree "fetch" nid) (s.entry nid.ref) s := by
  simp only [fetch, Prog.bind_apply, load_quiet hq, Prog.get_apply]
  rfl

theorem fetch_returns (hq : s.Quiet) {e : NeighbourEntry} :
    fetch nid s = (.ok e, s') ↔ s.entry nid.ref = some e ∧ s = s' := by
  rw [fetch_eq hq, Prog.ofOption_returns, eq_comm (a := s)]

/-- A caller that goes on after a failed read knows whether there is a record. -/
theorem attempt_fetch_returns (hq : s.Quiet) {x : Except StorageError NeighbourEntry} :
    Prog.attempt (fetch nid) s = (.ok x, s') ↔
      x = (s.entry nid.ref).elim (.error (slotIsFree "fetch" nid)) .ok ∧ s = s' := by
  rw [Prog.attempt_apply, fetch_eq hq]
  rcases s.entry nid.ref with _ | e <;> simp [Prog.ofOption, eq_comm]

theorem fetchOverflow_returns (hq : s.Quiet) {e : OverflowEntry} :
    fetchOverflow nid s = (.ok e, s') ↔
      (∃ q, s.overflows.lookup nid.ref = some q ∧ q.entry = e) ∧ s = s' := by
  simp only [fetchOverflow, Prog.bind_apply, load_quiet hq, Prog.get_apply,
    Prog.ofOption_returns, Option.map_eq_some_iff, eq_comm (a := s)]

theorem update_returns (hq : s.Quiet) {f : NeighbourEntry → NeighbourEntry} :
    update nid f s = (.ok (), s') ↔ ∃ r, s.nodes.lookup nid.ref = some r ∧
      s' = { s with nodes := s.nodes.insert nid.ref { r with entry := f r.entry } } := by
  simp only [update, Prog.bind_apply, load_quiet hq, Prog.get_apply]
  rcases h : s.nodes.lookup nid.ref with _ | r <;> simp [Prog.ofOption, eq_comm]

theorem updateOverflow_returns (hq : s.Quiet) {f : OverflowEntry → OverflowEntry} :
    updateOverflow nid f s = (.ok (), s') ↔ ∃ q, s.overflows.lookup nid.ref = some q ∧
      s' = { s with overflows := s.overflows.insert nid.ref { q with entry := f q.entry } } := by
  simp only [updateOverflow, Prog.bind_apply, load_quiet hq, Prog.get_apply]
  rcases h : s.overflows.lookup nid.ref with _ | r <;> simp [Prog.ofOption, eq_comm]

theorem insert_returns (hq : s.Quiet) {c : LevelCtx} {e : NeighbourEntry}
    (h : insert c e s = (.ok nid, s')) : ∃ r rs, r ≠ 0 ∧ nid = ⟨r, false⟩ ∧
      s.nodes.lookup r = none ∧ s' = { s with
        refs := rs
        nodes := s.nodes.insert r
          ⟨c.trxRef, false, { e with neighbours := padSlots c.maxNeighbours e.neighbours }⟩ } := by
  rw [insert, storageCall_quiet hq, place] at h
  rcases hr : s.refs with _ | ⟨r, rs⟩
  · simp [hr] at h
  · by_cases hf : r ≠ 0 ∧ s.nodes.lookup r = none
    · simp only [hr, if_pos hf, Prod.mk.injEq, Except.ok.injEq] at h
      exact ⟨r, rs, hf.1, h.1.symm, hf.2, h.2.symm⟩
    · simp only [hr, if_neg hf, Prod.mk.injEq, reduceCtorEq, false_and] at h

theorem insertOverflow_returns (hq : s.Quiet) {c : LevelCtx} {e : OverflowEntry}
    (h : insertOverflow c e s = (.ok nid, s')) : ∃ r rs, r ≠ 0 ∧ nid = ⟨r, false⟩ ∧
      s.overflows.lookup r = none ∧ s' = { s with
        refs := rs
        overflows := s.overflows.insert r
          ⟨c.trxRef, false, { e with incoming := padSlots c.overflowCapacity e.incoming }⟩ } := by
  rw [insertOverflow, storageCall_quiet hq, placeOverflow] at h
  rcases hr : s.refs with _ | ⟨r, rs⟩
  · simp [hr] at h
  · by_cases hf : r ≠ 0 ∧ s.overflows.lookup r = none
    · simp only [hr, if_pos hf, Prod.mk.injEq, Except.ok.injEq] at h
      exact ⟨r, rs, hf.1, h.1.symm, hf.2, h.2.symm⟩
    · simp only [hr, if_neg hf, Prod.mk.injEq, reduceCtorEq, false_and] at h

end LevelProg

end Hnsw
end VsqlVector
