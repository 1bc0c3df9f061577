/-
# The overflow chains of a level

Every node's overflow chain ends and no record is on two of them, after any calls
of the operations that make, link, replace, unlink and drop nodes, whichever
storage calls fail in them. Where a call fails between making an overflow record
and linking it in, or between cutting one off and freeing it, the record is on no
chain; it then names no other (`Overflows`).

So the loops along a chain, which have no bound of their own in the source, end.
The model's have one, and with any larger bound they do the same (`Bounded`).

Key definitions: `Overflows`, `AddedTo`, `LevelCall`, `LevelStep`, `Bounded`, `OverflowChains`.
Key theorems: `addOverflowFrom_triple`, `levelCall_keeps`, `one_predecessor`, `overflow_chains`.
-/
import VsqlVector.Index.Outcomes
import VsqlVector.Index.Lifetime
import VsqlVector.Lib.Runs

namespace VsqlVector
namespace Hnsw

open LevelStore LevelProg Prog

/-! ### The invariant -/

/-- The chains end and are disjoint, and an overflow record that is on none of them
names no other. -/
structure LevelStore.Overflows (s : LevelStore) : Prop where
  chains : s.Chains
  stray : ∀ o, (∀ a, s.Live a → o ∉ s.chain a) → ∀ p, s.next o ≠ some (some p)

/-- What a slot of an overflow record holds. -/
def LevelStore.cell (s : LevelStore) (o i : ℕ) : Option NID := ((s.cells o)[i]?).join

variable {s t t' : LevelStore} {a o : ℕ} {c : LevelCtx} {node : Node}

namespace LevelStore.Overflows

/-- The chains depend on the overflow fields of the records only. -/
theorem congr (h : t.Overflows) (hlive : ∀ b, t'.Live b ↔ t.Live b) (hhead : ∀ b, t.Live b → t'.head b = t.head b)
    (hnext : ∀ o, t'.next o = t.next o) : t'.Overflows ∧ ∀ b, t.Live b → t'.chain b = t.chain b := by
  have hchain (b : ℕ) (hb : t.Live b) : Trail t'.next (t'.head b) (t.chain b) ∧ t'.chain b = t.chain b :=
    h.chains.chain_congr hb (hhead b hb) fun o _ => hnext o
  refine ⟨⟨⟨fun b hb => ?_, fun b d hb hd hne => ?_⟩, fun o ho p => ?_⟩, fun b hb => (hchain b hb).2⟩
  · have hb := (hlive b).mp hb
    rw [(hchain b hb).2]
    exact (hchain b hb).1
  · have hb := (hlive b).mp hb
    have hd := (hlive d).mp hd
    rw [(hchain b hb).2, (hchain d hd).2]
    exact h.chains.disjoint b d hb hd hne
  · rw [hnext]
    refine h.stray o (fun b hb => ?_) p
    have := ho b ((hlive b).mpr hb)
    rwa [(hchain b hb).2] at this

/-- Another record for a node, with the same overflow field. -/
theorem updateNode (h : t.Overflows) {r q : Record NeighbourEntry} (hr : t.nodes.lookup a = some r)
    (he : q.entry.overflow = r.entry.overflow) :
    ({ t with nodes := t.nodes.insert a q } : LevelStore).Overflows := by
  set t' : LevelStore := { t with nodes := t.nodes.insert a q }
  have hlook (b : ℕ) : (t.nodes.insert a q).lookup b = if b = a then some q else t.nodes.lookup b :=
    lookup_nodes_insert t a b q
  have hlive (b : ℕ) : t'.Live b ↔ t.Live b := by
    rw [Live, Live, hlook]
    split
    · rename_i hb
      rw [hb, hr]
      rfl
    · rfl
  have hhead (b : ℕ) : t'.head b = t.head b := by
    rw [head, head, LevelStore.entry, LevelStore.entry, hlook]
    split
    · rename_i hb
      rw [hb, hr]
      simp [he]
    · rfl
  have hsame : t'.Overflows ∧ ∀ b, t.Live b → t'.chain b = t.chain b :=
    h.congr hlive (fun b _ => hhead b) fun _ => rfl
  exact hsame.1

/-- Other slots for an overflow record. -/
theorem updateCells (h : t.Overflows) {q : Record OverflowEntry} (hq : t.overflows.lookup o = some q)
    {e : OverflowEntry} (he : e.overflow = q.entry.overflow) :
    ({ t with overflows := t.overflows.insert o { q with entry := e } } : LevelStore).Overflows := by
  set t' : LevelStore := { t with overflows := t.overflows.insert o { q with entry := e } }
  have hnext (p : ℕ) : t'.next p = t.next p := by
    rw [next_insert]
    split
    · rename_i hp
      rw [hp, next, hq]
      simp [he]
    · rfl
  have hsame : t'.Overflows ∧ ∀ b, t.Live b → t'.chain b = t.chain b :=
    h.congr (fun _ => .rfl) (fun _ _ => rfl) hnext
  exact hsame.1

/-- A change to the chain of one node alone, where whatever leaves the chain or was on
none names nothing. -/
theorem of_touch (ht : Touch a t t') (ha : t.Live a)
    (hstray : ∀ o, o ∉ t'.chain a → (∀ b, t.Live b → b ≠ a → o ∉ t.chain b) → ∀ p, t'.next o ≠ some (some p)) :
    t'.Overflows := by
  refine ⟨ht.chains, fun o ho => hstray o (ho a (ht.live_iff.mpr ha)) fun b hb hne => ?_⟩
  have := ho b (ht.live_iff.mpr hb)
  rwa [ht.chain b hb hne] at this

/-- A new overflow record that no record names. -/
theorem alloc (h : t.Overflows) {r : ℕ} (hr : t.overflows.lookup r = none) {q : Record OverflowEntry}
    (hq : q.entry.overflow = none) :
    let t' : LevelStore := { t with overflows := t.overflows.insert r q }
    t'.Overflows ∧ ∀ b, t.Live b → t'.chain b = t.chain b ∧ r ∉ t'.chain b := by
  intro t'
  obtain ⟨ht, -, hch⟩ := touch_alloc (a := 0) (q := q) h.chains hr
  refine ⟨⟨ht.chains, fun o ho p hp => ?_⟩, fun b hb => ⟨(hch b hb).1, (hch b hb).2.2⟩⟩
  rw [next_insert] at hp
  split at hp
  · rw [hq] at hp
    cases hp
  · exact h.stray o (fun b hb => (hch b hb).1 ▸ ho b (ht.live_iff.mpr hb)) p hp

/-- A record on no chain becomes the first one of a chain. -/
theorem linkHead (h : t.Overflows) {r : Record NeighbourEntry} (hr : t.nodes.lookup a = some r)
    (hhead : t.head a = none) {n : NID} (hn : t.next n.ref = some none) (hfree : ∀ b, t.Live b → n.ref ∉ t.chain b) :
    let t' : LevelStore := { t with nodes := t.nodes.insert a { r with entry := { r.entry with overflow := some n } } }
    t'.Overflows ∧ Touch a t t' ∧ t'.slots a = t.slots a ∧ t'.chain a = t.chain a ++ [n.ref] := by
  intro t'
  obtain ⟨ht, hslots, hchain, -⟩ := touch_head h.chains hr hhead hn hfree
  refine ⟨of_touch ht (live_of_lookup hr) fun o ho hother => h.stray o fun b hb => ?_, ht, hslots, hchain⟩
  by_cases hba : b = a
  · rw [hchain, List.mem_append, not_or] at ho
    exact hba ▸ ho.1
  · exact hother b hb hba

/-- A record on no chain becomes the last one of a chain. -/
theorem linkTail (h : t.Overflows) (ha : t.Live a) {l : List ℕ} (hl : t.chain a = l ++ [o])
    {q : Record OverflowEntry} (hq : t.overflows.lookup o = some q) {n : NID} (hn : t.next n.ref = some none)
    (hfree : ∀ b, t.Live b → n.ref ∉ t.chain b) :
    let t' : LevelStore := { t with
      overflows := t.overflows.insert o { q with entry := { q.entry with overflow := some n } } }
    t'.Overflows ∧ Touch a t t' ∧ t'.slots a = t.slots a ∧ t'.chain a = t.chain a ++ [n.ref] := by
  intro t'
  obtain ⟨ht, hslots, hchain, -⟩ := touch_tail h.chains ha hl hq hn hfree
  refine ⟨of_touch ht ha fun p hp hother => ?_, ht, hslots, hchain⟩
  rw [hchain, List.mem_append, not_or] at hp
  have hne : p ≠ o := by
    rintro rfl
    exact hp.1 (by simp [hl])
  rw [next_insert, if_neg hne]
  refine h.stray p fun b hb => ?_
  by_cases hba : b = a
  · exact hba ▸ hp.1
  · exact hother b hb hba

/-- The last record of a chain is cut off: whatever names it stops to. -/
theorem cut (h : t.Overflows) (ha : t.Live a) {p : List ℕ} (hp : t.chain a = p ++ [o]) (ht : Touch a t t')
    (hchain : t'.chain a = p) (hnext : ∀ x, x ∉ p → t'.next x = t.next x) :
    t'.Overflows ∧ t'.Live a ∧ t'.chain a = p ∧ ∀ b, t'.Live b → o ∉ t'.chain b := by
  refine ⟨of_touch ht ha fun x hx hother y hy => ?_, ht.live_iff.mpr ha, hchain, fun b hb hmem => ?_⟩
  · rw [hchain] at hx
    rw [hnext x hx] at hy
    by_cases hxo : x = o
    · have htrail : Trail t.next (t.head a) (p ++ [o]) := hp ▸ h.chains.trail a ha
      rw [hxo, htrail.next_last] at hy
      cases hy
    · refine h.stray x (fun b hb => ?_) y hy
      by_cases hba : b = a
      · rw [hba, hp]
        simp [hx, hxo]
      · exact hother b hb hba
  · have hb := ht.live_iff.mp hb
    by_cases hba : b = a
    · have hnd := (h.chains.trail a ha).nodup
      rw [hp, List.nodup_append] at hnd
      rw [hba, hchain] at hmem
      exact hnd.2.2 _ hmem _ (by simp) rfl
    · rw [ht.chain b hb hba] at hmem
      exact h.chains.disjoint a b ha hb (Ne.symm hba) (by simp [hp]) hmem

/-- A record on no chain is freed. -/
theorem free (h : t.Overflows) (ha : t.Live a) (hfree : ∀ b, t.Live b → o ∉ t.chain b) :
    let t' : LevelStore := { t with overflows := t.overflows.erase o }
    t'.Overflows ∧ t'.Live a ∧ t'.chain a = t.chain a := by
  intro t'
  obtain ⟨ht, hchain⟩ := touch_free h.chains ha hfree
  refine ⟨of_touch ht ha fun x hx hother y hy => ?_, ht.live_iff.mpr ha, hchain⟩
  by_cases hxo : x = o
  · rw [hxo] at hy
    simp [t', next, AList.lookup_erase] at hy
  · have hsame : t'.next x = t.next x := by rw [next, next, AList.lookup_erase_ne hxo]
    rw [hsame] at hy
    refine h.stray x (fun b hb => ?_) y hy
    by_cases hba : b = a
    · exact hba ▸ hchain ▸ hx
    · exact hother b hb hba

/-- A node's record without an overflow chain is made or freed. -/
theorem nodes (h : t.Overflows) {ns : AList fun _ : ℕ => Record NeighbourEntry}
    (hns : ∀ b, b ≠ a → ns.lookup b = t.nodes.lookup b) (hnew : ∀ r, ns.lookup a = some r → r.entry.overflow = none)
    (hold : t.Live a → t.chain a = []) : ({ t with nodes := ns } : LevelStore).Overflows := by
  set t' : LevelStore := { t with nodes := ns }
  obtain ⟨-, hhead, -⟩ := nodes_frame hns
  have hlive : ∀ b, b ≠ a → (t'.Live b ↔ t.Live b) := fun b hb => by rw [Live, Live, hns b hb]
  refine ⟨nodes_chains h.chains hns fun r hr => .inl (hnew r hr), fun x hx y hy => ?_⟩
  refine h.stray x (fun b hb hmem => ?_) y hy
  by_cases hba : b = a
  · rw [hba] at hb hmem
    rw [hold hb] at hmem
    cases hmem
  · refine hx b ((hlive b hba).mpr hb) ?_
    have hsame : t'.chain b = t.chain b := by
      rw [chain, chain, hhead b hba]
      rfl
    rwa [hsame]

end LevelStore.Overflows

/-! ### Reading -/

namespace IndexGraph

section Reading

variable {I : LevelStore → Prop} {nid target : NID}

theorem findOverflowFrom_reads : ∀ (fuel : ℕ) (cur : Option NID),
    Triple (Over I) (findOverflowFrom target fuel cur) (fun _ => Over I) (Over I)
  | 0, none => Triple.pure fun _ h => h
  | _ + 1, none => Triple.pure fun _ h => h
  | 0, some _ => Triple.fail fun _ h => h
  | fuel + 1, some cur => by
    refine (fetchOverflow_triple cur).bind fun e => ?_
    split
    · exact Triple.pure fun _ h => h.1
    · exact (findOverflowFrom_reads fuel e.overflow).conseq (fun _ h => h.1) (fun _ _ h => h) fun _ h => h

theorem chainFuel_reads : Triple (Over I) chainFuel (fun _ => Over I) (Over I) :=
  Triple.get.bind fun _ => Triple.pure fun _ h => h.2

theorem findOverflowLink_reads (head : Option NID) :
    Triple (Over I) (findOverflowLink head target) (fun _ => Over I) (Over I) :=
  chainFuel_reads.bind fun fuel => findOverflowFrom_reads fuel head

end Reading

/-! ### Writing to slots -/

section Slots

/-- The calls that keep the chains as they are, failing or not. -/
abbrev KeepsChains {α : Type} (m : LevelProg α) : Prop :=
  Triple (Over Overflows) m (fun _ => Over Overflows) (Over Overflows)

theorem updateSlots_keeps (nid : NID) (ws : List (ℕ × Option Node)) : KeepsChains (updateSlots nid ws) := by
  unfold updateSlots
  split
  · exact Triple.pure fun _ h => h
  · exact update_triple fun t r ht hr => ht.updateNode hr rfl

theorem updateIncoming_keeps (nid : NID) (ws : List (ℕ × Option NID)) : KeepsChains (updateIncoming nid ws) := by
  unfold updateIncoming
  split
  · exact Triple.pure fun _ h => h
  · exact updateOverflow_triple fun t q ht hq => ht.updateCells hq rfl

theorem clearLink_keeps (link : LinkSlot) : KeepsChains (clearLink link) := by
  unfold clearLink
  split
  · exact updateSlots_keeps _ _
  · exact updateIncoming_keeps _ _

theorem clearFound_keeps : ∀ link : Option LinkSlot, KeepsChains (clearFound link)
  | none => Triple.pure fun _ h => h
  | some link => (clearLink_keeps link).bind fun _ => Triple.pure fun _ h => h

end Slots

/-! ### Adding a link to a chain -/

/-- `t'` is `t` with one more slot taken, which names `n` and is in the chain of `a`. -/
structure AddedTo (a : ℕ) (n : NID) (t t' : LevelStore) : Prop where
  overflows : t'.Overflows
  slot : ∃ o i, o ∈ t'.chain a ∧ t.cell o i = none ∧ t'.cell o i = some n ∧
    ∀ p j, (p, j) ≠ (o, i) → t'.cell p j = t.cell p j
  slots : ∀ b, t'.slots b = t.slots b
  live : ∀ b, t'.Live b ↔ t.Live b

/-- A free slot of a record of the chain is taken. -/
theorem addedTo_fill (h : t.Overflows) (ha : t.Live a) (ho : o ∈ t.chain a) {q : Record OverflowEntry}
    (hq : t.overflows.lookup o = some q) {i : ℕ} (hi : q.entry.incoming[i]? = some none) (n : NID) :
    AddedTo a n t { t with
      overflows := t.overflows.insert o
        { q with entry := { q.entry with incoming := q.entry.incoming.set i (some n) } } } := by
  have hlt : i < q.entry.incoming.length := (List.getElem?_eq_some_iff.mp hi).1
  obtain ⟨-, -, hchain, hcells, -⟩ := touch_cells h.chains ha ho hq (q.entry.incoming.set i (some n))
  refine ⟨h.updateCells hq rfl, ⟨o, i, hchain ▸ ho, ?_, ?_, fun p j hne => ?_⟩, fun _ => rfl, fun _ => .rfl⟩
  · rw [cell, cells_of_lookup hq, hi]
    rfl
  · rw [cell, hcells, if_pos rfl, List.getElem?_set_self hlt]
    rfl
  · rw [cell, cell, hcells]
    split
    · rename_i hp
      subst hp
      have hij : i ≠ j := fun hij => hne (by rw [hij])
      rw [List.getElem?_set_ne hij, cells_of_lookup hq]
    · rfl

/-- The slots of a new record: the first one names `n`, the others are free. -/
theorem cell_alloc {r : ℕ} (hr : t.overflows.lookup r = none) {n : NID} {trx w : ℕ} (hw : 0 < w) :
    let t' : LevelStore := { t with
      overflows := t.overflows.insert r ⟨trx, false, { incoming := padSlots w [some n], overflow := none }⟩ }
    t.cell r 0 = none ∧ t'.cell r 0 = some n ∧ ∀ p j, (p, j) ≠ (r, 0) → t'.cell p j = t.cell p j := by
  intro t'
  have hempty : t.cells r = [] := by simp [cells, hr]
  have hpad : padSlots w [some n] = some n :: List.replicate (w - 1) none := by
    rw [padSlots, List.take_of_length_le (show [some n].length ≤ w from hw)]
    rfl
  refine ⟨by simp [cell, hempty], ?_, fun p j hne => ?_⟩
  · rw [cell, cells_insert, if_pos rfl, hpad]
    rfl
  · rw [cell, cell, cells_insert]
    split
    · rename_i hp
      subst hp
      obtain ⟨j, rfl⟩ : ∃ k, j = k + 1 := Nat.exists_eq_succ_of_ne_zero fun hj => hne (by rw [hj])
      rw [hpad, hempty, List.getElem?_cons_succ]
      by_cases hj : j < w - 1
      · simp [hj]
      · simp [hj]
    · rfl

/-- `add_overflow_incoming` takes one more slot of the chain, or fails and leaves
the chains as they were. -/
theorem addOverflowFrom_triple {n : NID} (hcap : 0 < c.overflowCapacity) (h : t.Overflows) (ha : t.Live a) :
    ∀ {l p : List ℕ} {fuel : ℕ} {parent : NID} {kind : StoreKind} {cur : Option NID},
      t.chain a = p ++ l → Trail t.next (cur.map NID.ref) l →
      (kind = .neighbour ∧ p = [] ∧ parent.ref = a ∨ kind = .overflow ∧ ∃ l₁, p = l₁ ++ [parent.ref]) →
      Triple (Over (· = t)) (addOverflowFrom c n fuel parent kind cur) (fun _ => Over (AddedTo a n t)) (Over Overflows)
  | [], p, fuel, parent, kind, cur, hp, hl, hpar => by
    obtain rfl : cur = none := by simpa [Trail] using hl
    rw [List.append_nil] at hp
    rw [addOverflowFrom]
    set q : Record OverflowEntry := ⟨c.trxRef, false, { incoming := padSlots c.overflowCapacity [some n], overflow := none }⟩
      with hq
    -- the new record, which no record names yet
    refine Triple.bind (insertOverflow_triple (K := fun new t₁ => ∃ r, new = ⟨r, false⟩ ∧
      t.overflows.lookup r = none ∧ t₁ = { t with overflows := t.overflows.insert r q }) ?_ ?_ ?_) fun new => ?_
    · rintro t₁ r rfl hr
      exact ⟨r, rfl, hr, rfl⟩
    · rintro t₁ rfl
      exact h
    · rintro _ _ ⟨r, -, hr, rfl⟩
      exact (h.alloc hr rfl).1
    · -- its link, from the node or from the last record of the chain
      have hlinked : ∀ {r : ℕ} {t' : LevelStore}, t.overflows.lookup r = none →
          (∀ o, t'.cells o = ({ t with overflows := t.overflows.insert r q } : LevelStore).cells o) →
          t'.Overflows ∧ Touch a { t with overflows := t.overflows.insert r q } t' ∧ t'.slots a = t.slots a ∧
            t'.chain a = t.chain a ++ [r] → AddedTo a n t t' := by
        rintro r t' hr hcells ⟨hover, htouch, hslots, hchain⟩
        obtain ⟨hfree, htaken, hother⟩ := cell_alloc hr (n := n) hcap
        have hcell (o i : ℕ) : t'.cell o i = ({ t with overflows := t.overflows.insert r q } : LevelStore).cell o i := by
          rw [cell, cell, hcells]
        refine ⟨hover, ⟨r, 0, by simp [hchain], hfree, (hcell r 0).trans htaken, fun p j hne => ?_⟩, fun b => ?_, fun b => ?_⟩
        · rw [hcell]
          exact hother p j hne
        · by_cases hb : b = a
          · rw [hb, hslots]
          · exact htouch.slots b hb
        · exact htouch.live_iff
      have hfail : ∀ {r : ℕ}, t.overflows.lookup r = none →
          ({ t with overflows := t.overflows.insert r q } : LevelStore).Overflows := fun hr => (h.alloc hr rfl).1
      rcases hpar with ⟨rfl, rfl, rfl⟩ | ⟨rfl, l₁, rfl⟩
      · refine (update_triple (J := AddedTo parent.ref n t) ?_).conseq (fun _ hs => hs) (fun _ _ hs => hs) ?_
        · rintro t₁ rec ⟨r, rfl, hr, rfl⟩ hrec
          obtain ⟨hover, hch⟩ := h.alloc hr (q := q) rfl
          have hhead : t.head parent.ref = none := by
            have := h.chains.trail parent.ref ha
            rwa [hp] at this
          have hnext : ({ t with overflows := t.overflows.insert r q } : LevelStore).next r = some none := by
            rw [next_insert, if_pos rfl]
            rfl
          have hlink := hover.linkHead hrec (n := ⟨r, false⟩) hhead hnext fun b hb => (hch b hb).2
          rw [(hch _ ha).1] at hlink
          exact hlinked hr (fun _ => rfl) hlink
        · rintro s ⟨r, -, hr, hs⟩
          exact Over.of_eq hs (hfail hr)
      · refine (updateOverflow_triple (J := AddedTo a n t) ?_).conseq (fun _ hs => hs) (fun _ _ hs => hs) ?_
        · rintro t₁ q' ⟨r, rfl, hr, rfl⟩ hq'
          obtain ⟨hover, hch⟩ := h.alloc hr (q := q) rfl
          have hnext : ({ t with overflows := t.overflows.insert r q } : LevelStore).next r = some none := by
            rw [next_insert, if_pos rfl]
            rfl
          have hlink := hover.linkTail ha ((hch _ ha).1.trans hp) hq' (n := ⟨r, false⟩) hnext fun b hb => (hch b hb).2
          rw [(hch _ ha).1] at hlink
          exact hlinked hr (setNext_frame hq' (some ⟨r, false⟩)).2 hlink
        · rintro s ⟨r, -, hr, hs⟩
          exact Over.of_eq hs (hfail hr)
  | o :: l, p, fuel, parent, kind, cur, hp, ⟨ho, nx, ht, hl⟩, hpar => by
    obtain ⟨cur, rfl, rfl⟩ := Option.map_eq_some_iff.mp ho
    cases fuel with
    | zero => exact Triple.fail fun s hs => Over.of_eq hs h
    | succ fuel =>
      rw [addOverflowFrom]
      refine Triple.bind ((fetchOverflow_triple cur).conseq (fun _ hs => hs) (fun _ _ hs => hs)
        fun s hs => Over.of_eq hs h) fun e => ?_
      have hmem : cur.ref ∈ t.chain a := by simp [hp]
      rcases hfind : e.incoming.findIdx? Option.isNone with _ | slot
      · -- full: on to the next record
        intro s hs
        obtain ⟨hs, q, hlook, rfl⟩ := hs
        have hs : s.toLevelStore = t := hs
        rw [hs] at hlook
        obtain rfl : nx = q.entry.overflow.map NID.ref := Option.some.inj (ht.symm.trans (next_of_lookup hlook))
        exact addOverflowFrom_triple hcap h ha (p := p ++ [cur.ref]) (by simp [hp]) hl (.inr ⟨rfl, p, rfl⟩) s hs
      · obtain ⟨x, hx, hnone⟩ := getElem?_of_findIdx? hfind
        obtain rfl : x = none := by simpa using hnone
        show Triple _ (updateIncoming cur [(slot, some n)]) _ _
        rw [updateIncoming, if_neg (List.cons_ne_nil _ _)]
        refine (updateOverflow_triple (J := AddedTo a n t) ?_).conseq (fun _ hs => hs) (fun _ _ hs => hs) ?_
        · rintro _ q ⟨rfl, q', hlook, rfl⟩ hlook'
          obtain rfl : q' = q := Option.some.inj (hlook.symm.trans hlook')
          exact addedTo_fill h ha hmem hlook hx n
        · rintro s ⟨hs, -⟩
          exact Over.of_eq hs h

/-- `add_overflow_incoming` for a neighbour whose overflow field is known. -/
theorem addOverflowIncoming_triple (hcap : 0 < c.overflowCapacity) (h : t.Overflows) {neighbour : Node}
    {e : NeighbourEntry} (he : t.entry neighbour.nid.ref = some e) :
    Triple (Over (· = t)) (addOverflowIncoming c neighbour e.overflow node)
      (fun _ => Over (AddedTo neighbour.nid.ref node.nid.setIncoming t)) (Over Overflows) := by
  have ha := live_of_entry he
  refine (chainFuel_reads.conseq (fun _ hs => hs) (fun _ _ hs => hs) fun s hs => Over.of_eq hs h).bind fun fuel => ?_
  exact addOverflowFrom_triple hcap h ha (p := []) rfl (head_of_entry he ▸ h.chains.trail _ ha) (.inl ⟨rfl, rfl, rfl⟩)

/-! ### Linking and replacing -/

section Links

variable (hcap : 0 < c.overflowCapacity)

include hcap in
theorem addOverflowIncoming_keeps {neighbour : Node} {e : NeighbourEntry} :
    Triple (Over fun t => t.Overflows ∧ t.entry neighbour.nid.ref = some e)
      (addOverflowIncoming c neighbour e.overflow node) (fun _ => Over Overflows) (Over Overflows) := fun s hs =>
  (addOverflowIncoming_triple hcap hs.1 hs.2).conseq (fun _ hs => hs) (fun _ _ h => h.overflows) (fun _ h => h) s rfl

include hcap in
theorem landLink_keeps (neighbour : Node) : KeepsChains (landLink c node neighbour) := by
  refine Triple.bind (Q := fun x => Over fun t => t.Overflows ∧ ∀ e, x = .ok e → t.entry neighbour.nid.ref = some e)
    ((fetch_triple neighbour.nid).attempt (fun e s hs => ⟨hs.1, ?_⟩) fun _ s hs => ⟨hs, fun e he => by cases he⟩) fun x => ?_
  · rintro _ ⟨rfl⟩
    exact hs.2
  · rcases x with _ | e
    · exact Triple.pure fun _ hs => hs.1
    · refine Triple.conseq (P := Over fun t => t.Overflows ∧ t.entry neighbour.nid.ref = some e) ?_
        (fun _ hs => ⟨hs.1, hs.2 e rfl⟩) (fun _ _ h => h) fun _ h => h
      show Triple _ (landIn c node neighbour e) _ _
      unfold landIn
      split
      · exact ((updateSlots_keeps _ _).conseq (fun _ hs => hs.1) (fun _ _ h => h) fun _ h => h).bind
          fun _ => Triple.pure fun _ h => h
      · exact (addOverflowIncoming_keeps hcap).bind fun _ => Triple.pure fun _ h => h

include hcap in
theorem linkNeighboursLocked_keeps : KeepsChains (linkNeighboursLocked c node) := by
  refine ((fetch_triple node.nid).conseq (fun _ h => h) (fun _ _ h => h.1) fun _ h => h).bind fun entry => ?_
  refine Triple.bind (Triple.foldlM (I := fun _ => Over Overflows) fun acc w _ => ?_) fun out =>
    (updateSlots_keeps _ _).bind fun _ => Triple.pure fun _ h => h
  rcases w with ⟨_ | current, slot⟩
  · exact Triple.pure fun _ h => h
  · rw [linkSlot]
    split
    · exact (landLink_keeps hcap _).bind fun _ => Triple.pure fun _ h => h
    · exact Triple.pure fun _ h => h

theorem dropNeighbourLink_keeps (neighbour : NID) : KeepsChains (dropNeighbourLink node neighbour) := by
  refine Triple.bind (Q := fun _ => Over Overflows)
    ((fetch_triple neighbour).attempt (fun _ _ hs => hs.1) fun _ _ hs => hs) fun x => ?_
  rcases x with _ | e
  · exact Triple.pure fun _ h => h
  · show KeepsChains (dropFrom node neighbour e)
    unfold dropFrom
    split
    · split
      · exact (clearLink_keeps _).bind fun _ => Triple.pure fun _ h => h
      · exact Triple.pure fun _ h => h
    · exact (findOverflowLink_reads _).bind fun _ => (clearFound_keeps _).bind fun _ => Triple.pure fun _ h => h

include hcap in
theorem dropSlot_keeps (updated : List Node) : ∀ o : Option Node, KeepsChains (dropSlot c node updated o)
  | none => Triple.pure fun _ h => h
  | some current => by
    rw [dropSlot]
    split
    · exact Triple.pure fun _ h => h
    · refine (dropNeighbourLink_keeps _).bind fun keepsLink => ?_
      split
      · exact (fetch_triple node.nid).bind fun head => addOverflowIncoming_keeps hcap
      · exact Triple.pure fun _ h => h

theorem stageLink_keeps (slots : List (Option Node)) (head : Option NID) (acc : List Node × List LinkSlot)
    (target : Node) : KeepsChains (stageLink slots head acc target) := by
  unfold stageLink
  split
  · exact Triple.pure fun _ h => h
  · refine (findOverflowLink_reads _).bind fun link => ?_
    split <;> exact Triple.pure fun _ h => h

include hcap in
theorem replaceNeighbours_keeps (updated : List Node) : KeepsChains (replaceNeighbours c node updated) := by
  refine ((fetch_triple node.nid).conseq (fun _ h => h) (fun _ _ h => h.1) fun _ h => h).bind fun entry => ?_
  refine (updateSlots_keeps _ _).bind fun _ => ?_
  refine Triple.bind (Triple.forM fun o _ => dropSlot_keeps hcap updated o) fun _ => ?_
  refine Triple.bind (Triple.foldlM (I := fun _ => Over Overflows) fun acc target _ => stageLink_keeps _ _ acc target)
    fun staged => ?_
  refine (updateSlots_keeps _ _).bind fun _ => ?_
  exact Triple.bind (Triple.forM fun link _ => clearLink_keeps link) fun _ => linkNeighboursLocked_keeps hcap

end Links

/-! ### Unlinking -/

theorem findLink_reads {I : LevelStore → Prop} (head : Option NID) : ∀ link : Option LinkSlot,
    Triple (Over I) (findLink node head link) (fun _ => Over I) (Over I)
  | some _ => Triple.pure fun _ h => h
  | none => findOverflowLink_reads head

theorem unlinkNeighbour_keeps (neighbour : NID) : KeepsChains (unlinkNeighbour node neighbour) := by
  refine Triple.bind (Q := fun _ => Over Overflows)
    ((fetch_triple neighbour).attempt (fun _ _ hs => hs.1) fun _ _ hs => hs) fun x => ?_
  rcases x with _ | e
  · exact Triple.pure fun _ h => h
  · exact (findLink_reads _ _).bind fun found => (clearFound_keeps found).bind fun _ => Triple.pure fun _ h => h

theorem unlinkLink_keeps (acc : List ℕ × List Node) (link : ℕ × NID) : KeepsChains (unlinkLink c node acc link) :=
  (unlinkNeighbour_keeps _).bind fun _ => Triple.pure fun _ h => h

theorem unlinkChain_keeps : ∀ (fuel : ℕ) (cur : Option NID) (out : List Node),
    KeepsChains (unlinkChain c node fuel cur out)
  | 0, none, _ => Triple.pure fun _ h => h
  | _ + 1, none, _ => Triple.pure fun _ h => h
  | 0, some _, _ => Triple.fail fun _ h => h
  | fuel + 1, some cur, out => by
    refine ((fetchOverflow_triple cur).conseq (fun _ h => h) (fun _ _ h => h.1) fun _ h => h).bind fun e => ?_
    refine Triple.bind (Triple.foldlM (I := fun _ => Over Overflows) fun acc link _ => unlinkLink_keeps acc link)
      fun acc => ?_
    exact (updateIncoming_keeps _ _).bind fun _ => unlinkChain_keeps fuel e.overflow acc.2

theorem unlinkNeighbours_keeps : KeepsChains (unlinkNeighbours c node) := by
  refine ((fetch_triple node.nid).conseq (fun _ h => h) (fun _ _ h => h.1) fun _ h => h).bind fun entry => ?_
  refine (updateSlots_keeps _ _).bind fun _ => ?_
  refine Triple.bind (Triple.foldlM (I := fun _ => Over Overflows) fun acc link _ => unlinkLink_keeps acc link)
    fun acc => ?_
  refine (updateSlots_keeps _ _).bind fun _ => chainFuel_reads.bind fun fuel => unlinkChain_keeps fuel _ _

/-! ### Making and dropping a node -/

theorem createNode_keeps (owner : ℕ) (ns : List Node) : KeepsChains (createNode c owner ns) := by
  refine Triple.bind (insert_triple (K := fun _ => Overflows) (fun t r ht hr => ?_) (fun _ h => h) fun _ _ h => h)
    fun _ => Triple.pure fun _ h => h
  refine ht.nodes (a := r) (fun b hb => AList.lookup_insert_ne hb) (fun r' hr' => ?_) fun hl => ?_
  · obtain rfl := Option.some.inj ((AList.lookup_insert t.nodes).symm.trans hr')
    rfl
  · simp [Live, hr] at hl

/-- The node's chain is `l`. -/
def HasChain (a : ℕ) (l : List ℕ) (t : LevelStore) : Prop := t.Overflows ∧ t.Live a ∧ t.chain a = l

theorem dropOverflowNode_triple {p : List ℕ} (link : OverflowLink)
    (hpar : link.prevKind = .neighbour ∧ p = [] ∧ link.prev.ref = a ∨
      link.prevKind = .overflow ∧ ∃ l, p = l ++ [link.prev.ref]) :
    Triple (Over (HasChain a (p ++ [link.nid.ref]))) (dropOverflowNode c link) (fun _ => Over (HasChain a p))
      (Over Overflows) := by
  -- cut off, the record is on no chain
  have hremove : Triple (Over fun t => HasChain a p t ∧ ∀ b, t.Live b → link.nid.ref ∉ t.chain b)
      (remove c link.nid .overflow) (fun _ => Over (HasChain a p)) (Over Overflows) := by
    refine removeOverflow_triple (fun _ h => h.1) (fun t ht => ?_) fun _ h => h.1
    obtain ⟨h, hfree⟩ := ht
    obtain ⟨h1, h2, h3⟩ := h.1.free h.2.1 hfree
    exact ⟨h1, h2, h3.trans h.2.2⟩
  rw [dropOverflowNode]
  rcases hpar with ⟨hk, rfl, rfl⟩ | ⟨hk, l, rfl⟩
  · simp only [hk]
    refine Triple.bind ((update_triple fun t r hchain hr => ?_).conseq (fun _ h => h) (fun _ _ h => h)
      fun _ h => h.1) fun _ => hremove
    obtain ⟨h, ha, hp⟩ := hchain
    obtain ⟨ht, hc⟩ := touch_cut_head h.chains hr
    obtain ⟨h1, h2, h3, h4⟩ := h.cut ha hp ht hc fun _ _ => rfl
    exact ⟨⟨h1, h2, h3⟩, h4⟩
  · simp only [hk]
    refine Triple.bind ((updateOverflow_triple fun t q hchain hq => ?_).conseq (fun _ h => h) (fun _ _ h => h)
      fun _ h => h.1) fun _ => hremove
    obtain ⟨h, ha, hp⟩ := hchain
    obtain ⟨ht, hc⟩ := touch_cut_tail h.chains ha (l := l) (by rw [hp, List.append_assoc]; rfl) hq
    obtain ⟨h1, h2, h3, h4⟩ := h.cut ha hp ht hc fun x hx => by
      rw [(setNext_frame hq none).1, if_neg]
      rintro rfl
      exact hx (by simp)
    exact ⟨⟨h1, h2, h3⟩, h4⟩

/-- The links of a chain behind `p`: dropped last one first, they leave `p`. -/
def Unwinds (c : LevelCtx) (a : ℕ) (p l : List ℕ) (links : List OverflowLink) : Prop :=
  Triple (Over (HasChain a (p ++ l))) (links.reverse.forM (dropOverflowNode c)) (fun _ => Over (HasChain a p))
    (Over Overflows)

theorem overflowLinks_triple (h : t.Overflows) : ∀ {l p : List ℕ} {fuel : ℕ} {prev : NID} {kind : StoreKind}
    {cur : Option NID}, Trail t.next (cur.map NID.ref) l →
    (kind = .neighbour ∧ p = [] ∧ prev.ref = a ∨ kind = .overflow ∧ ∃ l₁, p = l₁ ++ [prev.ref]) →
    Triple (Over (· = t)) (overflowLinks fuel prev kind cur)
      (fun links s => Over (· = t) s ∧ Unwinds c a p l links) (Over Overflows)
  | [], p, fuel, prev, kind, cur, hl, _ => by
    obtain rfl : cur = none := by simpa [Trail] using hl
    rw [overflowLinks]
    refine Triple.pure fun s hs => ⟨hs, ?_⟩
    rw [Unwinds, List.append_nil]
    exact Triple.pure fun _ h => h
  | o :: l, p, fuel, prev, kind, cur, ⟨ho, nx, hn, hl⟩, hpar => by
    obtain ⟨cur, rfl, rfl⟩ := Option.map_eq_some_iff.mp ho
    cases fuel with
    | zero => exact Triple.fail fun s hs => Over.of_eq hs h
    | succ fuel =>
      rw [overflowLinks]
      refine Triple.bind ((fetchOverflow_triple cur).conseq (fun _ hs => hs) (fun _ _ hs => hs)
        fun s hs => Over.of_eq hs h) fun e => ?_
      intro s hs
      obtain ⟨hs, q, hlook, rfl⟩ := hs
      have hst : s.toLevelStore = t := hs
      rw [hst] at hlook
      obtain rfl : nx = q.entry.overflow.map NID.ref := Option.some.inj (hn.symm.trans (next_of_lookup hlook))
      refine ((overflowLinks_triple h (p := p ++ [cur.ref]) hl (.inr ⟨rfl, p, rfl⟩)).bind fun rest =>
        Triple.pure fun s hs => ⟨hs.1, ?_⟩) s hs
      have hrest : Unwinds c a (p ++ [cur.ref]) l rest := hs.2
      unfold Unwinds at hrest ⊢
      rw [List.append_assoc, List.singleton_append] at hrest
      rw [List.reverse_cons]
      have hdrop : Triple (Over (HasChain a (p ++ [cur.ref]))) (dropOverflowNode c ⟨cur, prev, kind⟩)
          (fun _ => Over (HasChain a p)) (Over Overflows) :=
        dropOverflowNode_triple ⟨cur, prev, kind⟩ hpar
      exact Triple.forM_append hrest (hdrop.bind fun _ => Triple.pure fun _ h => h)

theorem dropOverflowNodes_triple : Triple (Over Overflows) (dropOverflowNodes c node)
    (fun _ => Over (HasChain node.nid.ref [])) (Over Overflows) := by
  intro s hs
  set t := s.toLevelStore with ht
  have h : t.Overflows := hs
  refine (Triple.bind ((fetch_triple (I := (· = t)) node.nid).conseq (fun _ hs => hs) (fun _ _ hs => hs)
    fun s hs => Over.of_eq hs h) fun e => ?_) s rfl
  intro s₁ hs₁
  have hst : s₁.toLevelStore = t := hs₁.1
  have he : t.entry node.nid.ref = some e := hst ▸ hs₁.2
  have ha := live_of_entry he
  refine ((chainFuel_reads (I := (· = t))).conseq (fun _ hs => hs) (fun _ _ hs => hs) fun s hs => Over.of_eq hs h).bind
    (fun fuel => ?_) s₁ hs₁.1
  refine (overflowLinks_triple (c := c) (p := []) h (head_of_entry he ▸ h.chains.trail _ ha)
    (.inl ⟨rfl, rfl, rfl⟩)).bind fun links s₂ hs₂ => ?_
  have hs' : Over (HasChain node.nid.ref ([] ++ t.chain node.nid.ref)) s₂ := Over.of_eq hs₂.1 ⟨h, ha, rfl⟩
  exact hs₂.2 s₂ hs'

theorem dropNode_triple : Triple (Over (HasChain node.nid.ref [])) (dropNode c node) (fun _ => Over Overflows)
    (Over Overflows) := by
  refine removeNode_triple (fun t ht => ht.1) (fun t ht => ?_) fun _ h => h
  refine ht.1.nodes (a := node.nid.ref) (fun b hb => AList.lookup_erase_ne hb) (fun r hr => ?_) fun _ => ht.2.2
  rw [AList.lookup_erase] at hr
  cases hr

end IndexGraph

/-! ### Runs -/

/-- A call on a level: a node is made, linked, given other links, unlinked or dropped,
it is given another lower node, or it is marked. -/
inductive LevelCall
  | create (owner : ℕ) (neighbours : List Node)
  | link (node : Node)
  | replace (node : Node) (updated : List Node)
  | unlink (node : Node)
  | drop (node : Node)
  | lower (nid : NID) (lowerLevel : Option NID)
  | mark (nid : NID) (deleteMark : Bool)

open IndexGraph

def LevelCall.run (c : LevelCtx) : LevelCall → LevelProg Unit
  | .create owner neighbours => do
    let _ ← createNode c owner neighbours
  | .link node => do
    let _ ← linkNeighboursLocked c node
  | .replace node updated => do
    let _ ← replaceNeighbours c node updated
  | .unlink node => do
    let _ ← unlinkNeighbours c node
  | .drop node => do
    dropOverflowNodes c node
    dropNode c node
  | .lower nid lowerLevel => update nid fun e => { e with lowerLevel := lowerLevel }
  | .mark nid deleteMark => markDelete c nid deleteMark

/-- A call by any transaction, with any outcomes of its storage calls. -/
def LevelStep (level M : ℕ) (t t' : LevelStore) : Prop :=
  ∃ trx supply call, t' = (LevelCall.run ⟨level, M, trx⟩ call ⟨t, supply⟩).2.toLevelStore

/-- **One step** of any run keeps the chains. -/
theorem levelCall_keeps (hcap : 0 < c.overflowCapacity) (call : LevelCall) : KeepsChains (call.run c) := by
  have hunit {α : Type} {m : LevelProg α} (h : KeepsChains m) : KeepsChains (do let _ ← m) :=
    h.bind fun _ => Triple.pure fun _ h => h
  cases call with
  | create owner neighbours => exact hunit (createNode_keeps owner neighbours)
  | link node => exact hunit (linkNeighboursLocked_keeps hcap)
  | replace node updated => exact hunit (replaceNeighbours_keeps hcap updated)
  | unlink node => exact hunit unlinkNeighbours_keeps
  | drop node => exact dropOverflowNodes_triple.bind fun _ => dropNode_triple
  | lower nid lowerLevel =>
    show KeepsChains (update nid fun e => { e with lowerLevel := lowerLevel })
    exact update_triple fun t r ht hr => ht.updateNode hr rfl
  | mark nid deleteMark =>
    refine load_triple.bind fun _ => Triple.modify fun s hs => ?_
    split
    · rename_i r hr
      exact LevelStore.Overflows.updateNode hs hr rfl
    · exact hs

theorem reaches_overflows {level M : ℕ} (hM : 0 < M) (h : Reaches (· = LevelStore.empty) (LevelStep level M) t) :
    t.Overflows := by
  refine h.invariant (I := Overflows) ?_ ?_
  · rintro _ rfl
    have hdead (a : ℕ) : ¬ LevelStore.empty.Live a := by simp [Live, LevelStore.empty]
    exact ⟨⟨fun a ha => absurd ha (hdead a), fun a _ ha => absurd ha (hdead a)⟩, fun o _ p hp => by
      simp [next, LevelStore.empty] at hp⟩
  · rintro t _ ht ⟨trx, supply, call, rfl⟩
    have hcap : 0 < (⟨level, M, trx⟩ : LevelCtx).overflowCapacity := lt_min (by decide) hM
    have hkeeps := levelCall_keeps hcap call ⟨t, supply⟩ ht
    rcases hrun : call.run ⟨level, M, trx⟩ ⟨t, supply⟩ with ⟨e | u, s'⟩
    · exact hkeeps.2 e s' hrun
    · exact hkeeps.1 u s' hrun

/-! ### The loops end -/

section Bounded

variable {l : List ℕ} {cur : Option NID} {s : LevelState}

/-- With any bound from `n` on the program does the same. -/
def Bounded {α : Type} (p : ℕ → LevelProg α) (n : ℕ) (s : LevelState) : Prop := ∀ fuel, n ≤ fuel → p fuel s = p n s

/-- A read leaves the records, and what it returns is there. -/
theorem fetchOverflow_same {nid : NID} {e : OverflowEntry} {s' : LevelState} (h : fetchOverflow nid s = (.ok e, s')) :
    s'.toLevelStore = s.toLevelStore ∧ s.next nid.ref = some (e.overflow.map NID.ref) := by
  obtain ⟨hs, q, hlook, rfl⟩ := (fetchOverflow_triple (I := (· = s.toLevelStore)) nid s rfl).1 e s' h
  have hs : s'.toLevelStore = s.toLevelStore := hs
  rw [hs] at hlook
  exact ⟨hs, next_of_lookup hlook⟩

/-- Behind a record that is read the chain goes on. -/
theorem trail_tail {nid : NID} {e : OverflowEntry} {s' : LevelState} (hl : Trail s.next (some nid.ref) (o :: l))
    (h : fetchOverflow nid s = (.ok e, s')) : Trail s'.next (e.overflow.map NID.ref) l := by
  obtain ⟨hs, hnext⟩ := fetchOverflow_same h
  obtain ⟨ho, nx, ht, hl⟩ := hl
  obtain rfl : nid.ref = o := Option.some.inj ho
  obtain rfl : nx = e.overflow.map NID.ref := Option.some.inj (ht.symm.trans hnext)
  rw [show s'.next = s.next by rw [hs]]
  exact hl

theorem findOverflowFrom_bounded {target : NID} : ∀ {l : List ℕ} {cur : Option NID} {s : LevelState},
    Trail s.next (cur.map NID.ref) l → Bounded (fun fuel => findOverflowFrom target fuel cur) l.length s
  | [], cur, s, hl, fuel, _ => by
    obtain rfl : cur = none := by simpa [Trail] using hl
    simp [findOverflowFrom]
  | o :: l, cur, s, hl, fuel, hfuel => by
    obtain ⟨cur, rfl, -⟩ := Option.map_eq_some_iff.mp hl.1
    obtain ⟨fuel, rfl⟩ : ∃ f, fuel = f + 1 := Nat.exists_eq_succ_of_ne_zero (by simp at hfuel; omega)
    rw [List.length_cons]
    dsimp only
    rw [findOverflowFrom, findOverflowFrom]
    refine bind_congr fun e s' he => ?_
    rcases hfind : e.incoming.findIdx? fun o => o.any fun n => n.clearIncoming == target with _ | slot
    · simp only [hfind]
      exact findOverflowFrom_bounded (trail_tail hl he) fuel (by simpa using hfuel)
    · simp only [hfind]

theorem addOverflowFrom_bounded {n : NID} : ∀ {l : List ℕ} {parent : NID} {kind : StoreKind} {cur : Option NID}
    {s : LevelState}, Trail s.next (cur.map NID.ref) l →
    Bounded (fun fuel => addOverflowFrom c n fuel parent kind cur) l.length s
  | [], parent, kind, cur, s, hl, fuel, _ => by
    obtain rfl : cur = none := by simpa [Trail] using hl
    dsimp only
    rw [addOverflowFrom, addOverflowFrom]
  | o :: l, parent, kind, cur, s, hl, fuel, hfuel => by
    obtain ⟨cur, rfl, -⟩ := Option.map_eq_some_iff.mp hl.1
    obtain ⟨fuel, rfl⟩ : ∃ f, fuel = f + 1 := Nat.exists_eq_succ_of_ne_zero (by simp at hfuel; omega)
    rw [List.length_cons]
    dsimp only
    rw [addOverflowFrom, addOverflowFrom]
    refine bind_congr fun e s' he => ?_
    rcases e.incoming.findIdx? Option.isNone with _ | slot
    · exact addOverflowFrom_bounded (trail_tail hl he) fuel (by simpa using hfuel)
    · rfl

theorem resolveNode_reads {I : LevelStore → Prop} (nid : NID) :
    Triple (Over I) (resolveNode nid) (fun _ => Over I) (Over I) :=
  ((fetch_triple nid).conseq (fun _ h => h) (fun _ _ h => h.1) fun _ h => h).bind fun _ => Triple.pure fun _ h => h

theorem incomingChain_bounded : ∀ {l : List ℕ} {cur : Option NID} {s : LevelState},
    Trail s.next (cur.map NID.ref) l → Bounded (fun fuel => incomingChain fuel cur) l.length s
  | [], cur, s, hl, fuel, _ => by
    obtain rfl : cur = none := by simpa [Trail] using hl
    simp [incomingChain]
  | o :: l, cur, s, hl, fuel, hfuel => by
    obtain ⟨cur, rfl, -⟩ := Option.map_eq_some_iff.mp hl.1
    obtain ⟨fuel, rfl⟩ : ∃ f, fuel = f + 1 := Nat.exists_eq_succ_of_ne_zero (by simp at hfuel; omega)
    rw [List.length_cons]
    dsimp only
    rw [incomingChain, incomingChain]
    refine bind_congr fun e s' he => bind_congr fun here s'' hhere => ?_
    have hsame : s''.toLevelStore = s'.toLevelStore := by
      have hread : Triple (Over (· = s'.toLevelStore))
          (e.incoming.reduceOption.mapM fun nid => resolveNode nid.clearIncoming)
          (fun ys s => Over (· = s'.toLevelStore) s ∧ ∀ y ∈ ys, True) (Over (· = s'.toLevelStore)) :=
        Triple.mapM fun nid _ => (resolveNode_reads _).conseq (fun _ h => h) (fun _ _ h => ⟨h, trivial⟩) fun _ h => h
      exact ((hread s' rfl).1 here s'' hhere).1
    have htail := trail_tail hl he
    rw [show s'.next = s''.next by rw [hsame]] at htail
    have hrest : incomingChain fuel e.overflow s'' = incomingChain l.length e.overflow s'' :=
      incomingChain_bounded htail fuel (by simpa using hfuel)
    rw [bind_apply, bind_apply, hrest]

theorem overflowLinks_bounded : ∀ {l : List ℕ} {prev : NID} {kind : StoreKind} {cur : Option NID} {s : LevelState},
    Trail s.next (cur.map NID.ref) l → Bounded (fun fuel => overflowLinks fuel prev kind cur) l.length s
  | [], prev, kind, cur, s, hl, fuel, _ => by
    obtain rfl : cur = none := by simpa [Trail] using hl
    simp [overflowLinks]
  | o :: l, prev, kind, cur, s, hl, fuel, hfuel => by
    obtain ⟨cur, rfl, -⟩ := Option.map_eq_some_iff.mp hl.1
    obtain ⟨fuel, rfl⟩ : ∃ f, fuel = f + 1 := Nat.exists_eq_succ_of_ne_zero (by simp at hfuel; omega)
    rw [List.length_cons]
    dsimp only
    rw [overflowLinks, overflowLinks]
    refine bind_congr fun e s' he => ?_
    have hrest : overflowLinks fuel cur .overflow e.overflow s' = overflowLinks l.length cur .overflow e.overflow s' :=
      overflowLinks_bounded (trail_tail hl he) fuel (by simpa using hfuel)
    rw [bind_apply, bind_apply, hrest]

/-- `find_overflow_link` finds a slot of the chain that names the target, or there is
none. -/
theorem findOverflowFrom_triple (h : t.Overflows) {target : NID} : ∀ {l : List ℕ} {fuel : ℕ} {cur : Option NID},
    (∀ o ∈ l, o ∈ t.chain a) → Trail t.next (cur.map NID.ref) l →
    Triple (Over (· = t)) (findOverflowFrom target fuel cur)
      (fun r _ => (∀ link, r = some link → ∃ n, FoundIn t a link n ∧ n.clearIncoming = target) ∧
        (r = none → ∀ o ∈ l, ∀ n ∈ (t.cells o).reduceOption, n.clearIncoming ≠ target)) (fun _ => True)
  | [], fuel, cur, _, hl => by
    obtain rfl : cur = none := by simpa [Trail] using hl
    rw [findOverflowFrom]
    exact Triple.pure fun _ _ => ⟨fun _ hlink => (by cases hlink), fun _ o ho => (by simp at ho)⟩
  | o :: l, fuel, cur, hsub, ⟨ho, nx, hn, hl⟩ => by
    obtain ⟨cur, rfl, rfl⟩ := Option.map_eq_some_iff.mp ho
    cases fuel with
    | zero => exact Triple.fail fun _ _ => trivial
    | succ fuel =>
      rw [findOverflowFrom]
      refine Triple.bind ((fetchOverflow_triple cur).conseq (fun _ hs => hs) (fun _ _ hs => hs) fun _ _ => trivial)
        fun e s hs => ?_
      obtain ⟨hs, q, hlook, rfl⟩ := hs
      have hst : s.toLevelStore = t := hs
      rw [hst] at hlook
      have hmem : cur.ref ∈ t.chain a := hsub _ List.mem_cons_self
      rcases hfind : q.entry.incoming.findIdx? fun o => o.any fun n => n.clearIncoming == target with _ | slot
      · simp only [hfind]
        obtain rfl : nx = q.entry.overflow.map NID.ref := Option.some.inj (hn.symm.trans (next_of_lookup hlook))
        refine (findOverflowFrom_triple h (fun o ho => hsub o (List.mem_cons_of_mem _ ho)) hl).conseq (fun _ h => h)
          (fun r s' hr => ⟨hr.1, fun hnone o ho n hn => ?_⟩) (fun _ h => h) s hs
        rcases List.mem_cons.mp ho with rfl | ho
        · rw [cells_of_lookup hlook, List.reduceOption_mem_iff] at hn
          simpa using List.findIdx?_eq_none_iff.mp hfind (some n) hn
        · exact hr.2 hnone o ho n hn
      · simp only [hfind]
        obtain ⟨x, hx, hp⟩ := getElem?_of_findIdx? hfind
        obtain ⟨n, rfl, hn⟩ := Option.any_eq_true _ _ |>.mp hp
        refine Triple.pure (P := Over (· = t)) (fun _ _ => ⟨?_, fun hnone => (by cases hnone)⟩) s hs
        rintro link ⟨rfl⟩
        exact ⟨n, ⟨rfl, hmem, by rw [cells_of_lookup hlook]; exact hx⟩, by simpa using hn⟩

end Bounded

/-! ### What holds in every run -/

/-- The record `p`, a node's or an overflow one, names the overflow record `o`. -/
def LevelStore.Precedes (t : LevelStore) : StoreKind × ℕ → ℕ → Prop
  | (.neighbour, a), o => t.head a = some o
  | (.overflow, p), o => t.next p = some (some o)

theorem live_of_head {a o : ℕ} (h : t.head a = some o) : t.Live a := by
  by_contra hl
  simp [head, LevelStore.entry, show t.nodes.lookup a = none by simpa [Live] using hl] at h

/-- What a record names is on the chain of a node, and the record right before it
there or, if it is the first, the node. -/
theorem precedes_split (h : t.Overflows) {p : StoreKind × ℕ} (hp : t.Precedes p o) :
    ∃ a l₁ l₂, t.Live a ∧ t.chain a = l₁ ++ o :: l₂ ∧ (l₁.getLast?.map fun q => (StoreKind.overflow, q)).getD
      (.neighbour, a) = p := by
  rcases p with ⟨_ | _, q⟩
  · have ha := live_of_head hp
    have htrail := h.chains.trail q ha
    rw [show t.head q = some o from hp] at htrail
    obtain ⟨l₂, hl⟩ := List.head?_eq_some_iff.mp htrail.head_eq.symm
    exact ⟨q, [], l₂, ha, hl, rfl⟩
  · have hq : ∃ a, t.Live a ∧ q ∈ t.chain a := by
      by_contra hno
      exact h.stray q (fun a ha hmem => hno ⟨a, ha, hmem⟩) o hp
    obtain ⟨a, ha, hmem⟩ := hq
    obtain ⟨l₁, l₂, hl⟩ := (h.chains.trail a ha).split_next hmem hp
    exact ⟨a, l₁ ++ [q], l₂, ha, hl, by simp⟩

/-- A record that is named is in use, and one record names it. -/
theorem one_predecessor (h : t.Overflows) (hp : ∃ p, t.Precedes p o) :
    (t.overflows.lookup o).isSome ∧ ∃! p, t.Precedes p o := by
  obtain ⟨p, hp⟩ := hp
  obtain ⟨a, l₁, l₂, ha, hl, hlast⟩ := precedes_split h hp
  have hnd : (l₁ ++ o :: l₂).Nodup := hl ▸ (h.chains.trail a ha).nodup
  have ho : o ∈ t.chain a := by simp [hl]
  refine ⟨?_, p, hp, fun q hq => ?_⟩
  · have := (h.chains.trail a ha).isSome o ho
    rwa [next, Option.isSome_map] at this
  · obtain ⟨b, k₁, k₂, hb, hk, hlast'⟩ := precedes_split h hq
    obtain rfl : a = b := by
      by_contra hne
      exact h.chains.disjoint a b ha hb hne ho (by simp [hk])
    have hnd' : (k₁ ++ o :: k₂).Nodup := hk ▸ (h.chains.trail a hb).nodup
    rw [hl] at hk
    have hout {m₁ m₂ : List ℕ} (hm : (m₁ ++ o :: m₂).Nodup) : o ∉ m₁ := fun hmem =>
      (List.nodup_append.mp hm).2.2 o hmem o List.mem_cons_self rfl
    have hlen : l₁.length = k₁.length := by
      have h1 := congrArg (List.idxOf o) hk
      rwa [List.idxOf_append_of_notMem (hout hnd), List.idxOf_append_of_notMem (hout hnd'), List.idxOf_cons_self,
        List.idxOf_cons_self] at h1
    obtain ⟨rfl, -⟩ := List.append_inj hk hlen
    rw [← hlast, ← hlast']

/-- What is promised of the overflow chains of a level. -/
structure OverflowChains (level M : ℕ) (t : LevelStore) : Prop where
  /-- The records from a node's overflow field on, to the last one, each once. -/
  chain : ∀ a, t.Live a → Trail t.next (t.head a) (t.chain a) ∧ (t.chain a).Nodup
  disjoint : ∀ a b, t.Live a → t.Live b → a ≠ b → (t.chain a).Disjoint (t.chain b)
  predecessor : ∀ o, (∃ p, t.Precedes p o) → (t.overflows.lookup o).isSome ∧ ∃! p, t.Precedes p o
  add : ∀ trx supply (neighbour node : Node) e s', t.entry neighbour.nid.ref = some e →
    addOverflowIncoming ⟨level, M, trx⟩ neighbour e.overflow node ⟨t, supply⟩ = (.ok (), s') →
    AddedTo neighbour.nid.ref node.nid.setIncoming t s'.toLevelStore
  find : ∀ supply a e target r s', t.entry a = some e →
    findOverflowLink e.overflow target ⟨t, supply⟩ = (.ok r, s') →
    (∀ link, r = some link → ∃ n, FoundIn t a link n ∧ n.clearIncoming = target) ∧
      (r = none → ∀ n ∈ t.chained a, n.clearIncoming ≠ target)
  /-- The loops end after a step for each record of the chain, which the model allows. -/
  ends : ∀ supply a e, t.entry a = some e → (t.chain a).length ≤ t.overflows.keys.length ∧
    (∀ c n parent, Bounded (fun fuel => addOverflowFrom c n fuel parent .neighbour e.overflow) (t.chain a).length
      ⟨t, supply⟩) ∧
    (∀ target, Bounded (fun fuel => findOverflowFrom target fuel e.overflow) (t.chain a).length ⟨t, supply⟩) ∧
    Bounded (fun fuel => incomingChain fuel e.overflow) (t.chain a).length ⟨t, supply⟩ ∧
    ∀ prev, Bounded (fun fuel => overflowLinks fuel prev .neighbour e.overflow) (t.chain a).length ⟨t, supply⟩

/-- **The overflow chains**, in every run of calls, whichever succeed. -/
theorem overflow_chains {level M : ℕ} (hM : 0 < M)
    (h : Reaches (· = LevelStore.empty) (LevelStep level M) t) : OverflowChains level M t := by
  have hover := reaches_overflows hM h
  have htrail (a : ℕ) (e : NeighbourEntry) (he : t.entry a = some e) :
      Trail t.next (e.overflow.map NID.ref) (t.chain a) := head_of_entry he ▸ hover.chains.trail a (live_of_entry he)
  refine ⟨fun a ha => ⟨hover.chains.trail a ha, (hover.chains.trail a ha).nodup⟩, hover.chains.disjoint,
    fun o => one_predecessor hover, fun trx supply neighbour node e s' he hrun => ?_,
    fun supply a e target r s' he hrun => ?_, fun supply a e he => ⟨length_trail_le (htrail a e he),
      fun _ _ _ => addOverflowFrom_bounded (htrail a e he), fun _ => findOverflowFrom_bounded (htrail a e he),
      incomingChain_bounded (htrail a e he), fun _ => overflowLinks_bounded (htrail a e he)⟩⟩
  · exact (addOverflowIncoming_triple (lt_min (by decide) hM) hover he ⟨t, supply⟩ rfl).1 () s' hrun
  · rw [findOverflowLink, chainFuel_bind] at hrun
    obtain ⟨hfound, hnone⟩ := (findOverflowFrom_triple hover (fun _ ho => ho) (htrail a e he) ⟨t, supply⟩ rfl).1 r s' hrun
    refine ⟨hfound, fun hr n hn => ?_⟩
    obtain ⟨o, ho, hn⟩ := List.mem_flatMap.mp hn
    exact hnone hr o ho n hn

/-- The nodes 20 and 30 are linked to the node 10, which has room for one of them. -/
def twoLinked : LevelStore :=
  [(.create 1 [], [10]), (.create 2 [⟨⟨10, false⟩, 1⟩], [20]), (.link ⟨⟨20, false⟩, 2⟩, []),
    (.create 3 [⟨⟨10, false⟩, 1⟩], [30]), (.link ⟨⟨30, false⟩, 3⟩, [11])].foldl
    (fun t (call, refs) => (LevelCall.run ⟨1, 1, 7⟩ call ⟨t, [], refs⟩).2.toLevelStore) LevelStore.empty

theorem overflow_chains_twoLinked : OverflowChains 1 1 twoLinked ∧ twoLinked.chain 10 = [11] ∧
    twoLinked.chained 10 = [⟨30, true⟩] := by
  have hstep {t : LevelStore} (call : LevelCall) (refs : List ℕ)
      (h : Reaches (· = LevelStore.empty) (LevelStep 1 1) t) : Reaches (· = LevelStore.empty) (LevelStep 1 1)
      (LevelCall.run ⟨1, 1, 7⟩ call ⟨t, [], refs⟩).2.toLevelStore := h.step ⟨7, ⟨[], refs⟩, call, rfl⟩
  exact ⟨overflow_chains (by decide) (hstep _ _ (hstep _ _ (hstep _ _ (hstep _ _ (hstep _ _ (.init rfl)))))),
    by decide +kernel, by decide +kernel⟩

end Hnsw
end VsqlVector
