/-
# Walking and changing overflow chains

What the operations on a node's list and on its overflow chain do, each as one
statement: which record they touch, and how the links in its list or chain
change. A walk along a chain is followed by induction on the trail that is left.

Key definition: `FoundIn`.
Key theorems: `updateSlots_spec`, `findOverflowLink_spec`, `clearLink_spec`,
`addOverflowIncoming_spec`.
-/
import VsqlVector.Index.Records

namespace VsqlVector
namespace Hnsw
namespace IndexGraph

open LevelProg LevelStore

variable {c : LevelCtx} {s s' : LevelState} {nid : NID} {a : ℕ}

@[simp] theorem chainFuel_bind {β : Type} (f : ℕ → LevelProg β) (s : LevelState) :
    (chainFuel >>= f) s = f s.overflows.keys.length s := rfl

/-! ### A node's own list -/

/-- The link is a slot of an overflow record of the chain of `a` and holds `n`. -/
structure FoundIn (s : LevelStore) (a : ℕ) (link : LinkSlot) (n : NID) : Prop where
  kind : link.kind = .overflow
  mem : link.record.ref ∈ s.chain a
  slot : (s.cells link.record.ref)[link.slot]? = some (some n)

/-- A slot-aligned update of a node's list. -/
theorem updateSlots_spec (hq : s.Quiet) (hs : s.Chains) {ws : List (ℕ × Option Node)}
    (h : updateSlots nid ws s = (.ok (), s')) :
    s'.Quiet ∧ Touch nid.ref s.toLevelStore s'.toLevelStore ∧
      s'.slots nid.ref = writeSlots ws (s.slots nid.ref) ∧
      s'.head nid.ref = s.head nid.ref ∧ s'.chained nid.ref = s.chained nid.ref ∧
      ∀ link n, FoundIn s.toLevelStore nid.ref link n → FoundIn s'.toLevelStore nid.ref link n := by
  rw [updateSlots] at h
  split at h
  · rename_i hws
    simp only [Prog.pure_apply, Prod.mk.injEq, true_and] at h
    subst h hws
    exact ⟨hq, Touch.refl hs, rfl, rfl, rfl, fun _ _ hf => hf⟩
  · rw [update_returns hq] at h
    obtain ⟨r, hr, rfl⟩ := h
    obtain ⟨ht, hsl, hh, hch, hc⟩ := touch_slots hs hr (length_writeSlots ws r.entry.neighbours)
    refine ⟨hq, ht, ?_, hh, hc, fun link n hf => ⟨hf.kind, hch.symm ▸ hf.mem, hf.slot⟩⟩
    rw [slots_of_entry (s := s.toLevelStore) (e := r.entry) (by simp [entry, hr])]
    exact hsl

/-! ### Finding a link in a chain -/

theorem cells_of_lookup {q : Record OverflowEntry} {o : ℕ} {s : LevelStore}
    (h : s.overflows.lookup o = some q) : s.cells o = q.entry.incoming := by
  simp [cells, h]

theorem next_of_lookup {q : Record OverflowEntry} {o : ℕ} {s : LevelStore}
    (h : s.overflows.lookup o = some q) : s.next o = some (q.entry.overflow.map NID.ref) := by
  simp [next, h]

theorem findOverflowFrom_spec (hq : s.Quiet) {target : NID} :
    ∀ {l : List ℕ} {fuel : ℕ} {cur : Option NID} {r : Option LinkSlot},
      Trail s.next (cur.map NID.ref) l →
      findOverflowFrom target fuel cur s = (.ok r, s') → s' = s ∧
        (∀ link, r = some link → link.kind = .overflow ∧ link.record.ref ∈ l ∧
          ∃ n, (s.cells link.record.ref)[link.slot]? = some (some n) ∧ n.clearIncoming = target) ∧
        (r = none → ∀ o ∈ l, ∀ n ∈ (s.cells o).reduceOption, n.clearIncoming ≠ target)
  | [], fuel, cur, r, hl, h => by
    obtain rfl : cur = none := by simpa [Trail] using hl
    simp only [findOverflowFrom, Prog.pure_apply, Prod.mk.injEq, Except.ok.injEq] at h
    obtain ⟨rfl, rfl⟩ := h
    exact ⟨rfl, by simp, by simp⟩
  | o :: l, fuel, cur, r, ⟨ho, t, ht, hl⟩, h => by
    obtain ⟨cur, rfl, rfl⟩ := Option.map_eq_some_iff.mp ho
    cases fuel with
    | zero => simp [findOverflowFrom] at h
    | succ fuel =>
      rw [findOverflowFrom, Prog.bind_returns] at h
      obtain ⟨e, s₁, he, h⟩ := h
      rw [fetchOverflow_returns hq] at he
      obtain ⟨⟨q, hlook, rfl⟩, rfl⟩ := he
      obtain rfl : t = q.entry.overflow.map NID.ref :=
        Option.some.inj (ht.symm.trans (next_of_lookup hlook))
      rcases hfind : q.entry.incoming.findIdx?
          fun o => o.any fun n => n.clearIncoming == target with _ | slot
      · simp only [hfind] at h
        obtain ⟨h1, h2, h3⟩ := findOverflowFrom_spec hq hl h
        refine ⟨h1, fun link hlink => ?_, fun hr o' ho' n hn => ?_⟩
        · obtain ⟨hk, hm, hrest⟩ := h2 link hlink
          exact ⟨hk, List.mem_cons_of_mem _ hm, hrest⟩
        · rcases List.mem_cons.mp ho' with rfl | ho'
          · rw [cells_of_lookup hlook, List.reduceOption_mem_iff] at hn
            have := List.findIdx?_eq_none_iff.mp hfind (some n) hn
            simpa using this
          · exact h3 hr o' ho' n hn
      · simp only [hfind, Prog.pure_apply, Prod.mk.injEq, Except.ok.injEq] at h
        obtain ⟨rfl, rfl⟩ := h
        obtain ⟨x, hx, hp⟩ := getElem?_of_findIdx? hfind
        obtain ⟨n, rfl, hn⟩ := Option.any_eq_true _ _ |>.mp hp
        refine ⟨rfl, ?_, by simp⟩
        rintro link ⟨rfl⟩
        exact ⟨rfl, by simp, n, by rw [cells_of_lookup hlook]; exact hx, by simpa using hn⟩

/-- `find_overflow_link` finds a slot exactly when the chain names the target. -/
theorem findOverflowLink_spec (hq : s.Quiet) (hs : s.Chains) (ha : s.Live a) {head : Option NID}
    (hh : s.head a = head.map NID.ref) {target : NID} {r : Option LinkSlot}
    (h : findOverflowLink head target s = (.ok r, s')) : s' = s ∧
      (∀ link, r = some link → ∃ n, FoundIn s.toLevelStore a link n ∧ n.clearIncoming = target) ∧
      (r = none → ∀ n ∈ s.chained a, n.clearIncoming ≠ target) := by
  rw [findOverflowLink, chainFuel_bind] at h
  have ht : Trail s.next (head.map NID.ref) (s.chain a) := hh ▸ hs.trail a ha
  obtain ⟨h1, h2, h3⟩ := findOverflowFrom_spec hq ht h
  refine ⟨h1, fun link hlink => ?_, fun hr n hn => ?_⟩
  · obtain ⟨hk, hm, n, hn, hnt⟩ := h2 link hlink
    exact ⟨n, ⟨hk, hm, hn⟩, hnt⟩
  · obtain ⟨o, ho, hn⟩ := List.mem_flatMap.mp hn
    exact h3 hr o ho n hn

/-- What a found slot holds is in the chain. -/
theorem FoundIn.mem_chained {s : LevelStore} {link : LinkSlot} {n : NID} (h : FoundIn s a link n) :
    n ∈ s.chained a := by
  refine List.mem_flatMap.mpr ⟨_, h.mem, ?_⟩
  rw [List.reduceOption_mem_iff]
  exact List.mem_of_getElem? h.slot

/-! ### Changing a chain -/

/-- New slots for a record of the chain of `a`. -/
theorem updateIncoming_spec (hq : s.Quiet) (hs : s.Chains) (ha : s.Live a)
    (ho : nid.ref ∈ s.chain a) {ws : List (ℕ × Option NID)} (hws : ws ≠ [])
    (h : updateIncoming nid ws s = (.ok (), s')) :
    s'.Quiet ∧ Touch a s.toLevelStore s'.toLevelStore ∧ s'.slots a = s.slots a ∧
      s'.chain a = s.chain a ∧
      (∀ o, s'.cells o = if o = nid.ref then writeSlots ws (s.cells nid.ref) else s.cells o) ∧
      s'.next = s.next ∧ s'.head = s.head ∧
      ∃ l₁ l₂, s.chained a = l₁ ++ (s.cells nid.ref).reduceOption ++ l₂ ∧
        s'.chained a = l₁ ++ (writeSlots ws (s.cells nid.ref)).reduceOption ++ l₂ := by
  rw [updateIncoming, if_neg hws, updateOverflow_returns hq] at h
  obtain ⟨q, hlook, rfl⟩ := h
  obtain ⟨h1, h2, h3, h4, h5⟩ := touch_cells hs ha ho hlook (writeSlots ws q.entry.incoming)
  rw [cells_of_lookup hlook]
  refine ⟨hq, h1, h2, h3, h4, ?_, rfl, h5⟩
  funext o
  refine (next_insert s.toLevelStore nid.ref o _).trans ?_
  split
  · rename_i ho
    rw [ho, next_of_lookup hlook]
  · rfl

/-- Clearing a found slot takes its link out of the chain. -/
theorem clearLink_spec (hq : s.Quiet) (hs : s.Chains) (ha : s.Live a) {link : LinkSlot} {n : NID}
    (hf : FoundIn s.toLevelStore a link n) (h : clearLink link s = (.ok (), s')) :
    s'.Quiet ∧ Touch a s.toLevelStore s'.toLevelStore ∧ s'.slots a = s.slots a ∧
      s'.chain a = s.chain a ∧
      (∀ o, s'.cells o = if o = link.record.ref then (s.cells o).set link.slot none else s.cells o) ∧
      (s.chained a).Perm (n :: s'.chained a) := by
  rw [clearLink, hf.kind] at h
  obtain ⟨h1, h2, h3, h4, h5, -, -, l₁, l₂, h6, h7⟩ :=
    updateIncoming_spec hq hs ha hf.mem (by simp) h
  refine ⟨h1, h2, h3, h4, fun o => ?_, ?_⟩
  · rw [h5]
    split
    · rename_i ho
      rw [ho]
      rfl
    · rfl
  · rw [h6, h7]
    simp only [writeSlots_cons, writeSlots_nil, List.append_assoc]
    refine (List.Perm.append_left l₁ ((reduceOption_set_none hf.slot).append_right l₂)).trans ?_
    simp only [List.cons_append]
    exact List.perm_middle

theorem addOverflowFrom_spec {node : NID} (hcap : 0 < c.overflowCapacity) :
    ∀ {l p : List ℕ} {fuel : ℕ} {parent : NID} {kind : StoreKind} {cur : Option NID}
      {s s' : LevelState}, s.Quiet → s.Chains → s.Live a → s.chain a = p ++ l →
      Trail s.next (cur.map NID.ref) l →
      (kind = .neighbour ∧ p = [] ∧ parent.ref = a ∨
        kind = .overflow ∧ ∃ l₁, p = l₁ ++ [parent.ref]) →
      addOverflowFrom c node fuel parent kind cur s = (.ok (), s') →
      s'.Quiet ∧ Touch a s.toLevelStore s'.toLevelStore ∧ s'.slots a = s.slots a ∧
        (s'.chained a).Perm (node :: s.chained a) ∧ (s.head a = none ∨ s'.head a = s.head a)
  | [], p, fuel, parent, kind, cur, s, s', hq, hs, ha, hp, hl, hpar, h => by
    obtain rfl : cur = none := by simpa [Trail] using hl
    rw [addOverflowFrom, Prog.bind_returns] at h
    obtain ⟨new, s₁, hins, h⟩ := h
    obtain ⟨r, rs, -, rfl, hfree, rfl⟩ := insertOverflow_returns hq hins
    -- the new record first stands alone, then the last one is made to name it
    set q : Record OverflowEntry :=
      ⟨c.trxRef, false, { incoming := padSlots c.overflowCapacity [some node], overflow := none }⟩
    obtain ⟨ht, hsl, hch⟩ := touch_alloc (a := a) (q := q) hs hfree
    set s₁ : LevelState := { s with refs := rs, overflows := s.overflows.insert r q } with hs₁
    have hq₁ : s₁.Quiet := hq
    have hlook : s₁.overflows.lookup r = some q := AList.lookup_insert _
    have hnext : s₁.next r = some none := next_of_lookup hlook
    have hcell : (s₁.cells r).reduceOption = [node] := by
      rw [cells_of_lookup hlook]
      exact reduceOption_padSlots (show [some node].length ≤ _ from Nat.succ_le_of_lt hcap)
    have hout (b : ℕ) (hb : s₁.Live b) : r ∉ s₁.chain b := (hch b (ht.live_iff.mp hb)).2.2
    have ha₁ : s₁.Live a := ht.live_iff.mpr ha
    rw [List.append_nil] at hp
    have hfin {s' : LevelStore} (h2 : Touch a s₁.toLevelStore s' ∧ s'.slots a = s₁.slots a ∧
        s'.chain a = s₁.chain a ++ [r] ∧ s'.chained a = s₁.chained a ++ (s₁.cells r).reduceOption) :
        Touch a s.toLevelStore s' ∧ s'.slots a = s.slots a ∧
          (s'.chained a).Perm (node :: s.chained a) := by
      refine ⟨ht.trans h2.1, h2.2.1.trans hsl, ?_⟩
      rw [h2.2.2.2, hcell, (hch a ha).2.1]
      exact List.perm_append_singleton _ _
    rcases hpar with ⟨rfl, rfl, rfl⟩ | ⟨rfl, l₁, rfl⟩
    · rw [update_returns hq₁] at h
      obtain ⟨rec, hrec, rfl⟩ := h
      have hhead : s₁.head parent.ref = none := by
        have := ht.chains.trail parent.ref ha₁
        rwa [(hch _ ha).1, hp] at this
      obtain ⟨h1, h2, h3⟩ := hfin (touch_head (n := ⟨r, false⟩) ht.chains hrec hhead hnext hout)
      exact ⟨hq, h1, h2, h3, .inl hhead⟩
    · rw [updateOverflow_returns hq₁] at h
      obtain ⟨q', hq', rfl⟩ := h
      have hchain : s₁.chain a = l₁ ++ [parent.ref] := by rw [(hch a ha).1, hp]
      obtain ⟨h1, h2, h3⟩ :=
        hfin (touch_tail (n := ⟨r, false⟩) ht.chains ha₁ hchain hq' hnext hout)
      exact ⟨hq, h1, h2, h3, .inr rfl⟩
  | o :: l, p, fuel, parent, kind, cur, s, s', hq, hs, ha, hp, ⟨ho, t, ht, hl⟩, hpar, h => by
    obtain ⟨cur, rfl, rfl⟩ := Option.map_eq_some_iff.mp ho
    cases fuel with
    | zero => simp [addOverflowFrom] at h
    | succ fuel =>
      rw [addOverflowFrom, Prog.bind_returns] at h
      obtain ⟨e, s₁, he, h⟩ := h
      rw [fetchOverflow_returns hq] at he
      obtain ⟨⟨q, hlook, rfl⟩, rfl⟩ := he
      obtain rfl : t = q.entry.overflow.map NID.ref :=
        Option.some.inj (ht.symm.trans (next_of_lookup hlook))
      have hmem : cur.ref ∈ s.chain a := by simp [hp]
      rcases hfind : q.entry.incoming.findIdx? Option.isNone with _ | slot
      · simp only [hfind] at h
        exact addOverflowFrom_spec hcap hq hs ha (p := p ++ [cur.ref]) (by simp [hp]) hl
          (.inr ⟨rfl, p, rfl⟩) h
      · simp only [hfind] at h
        obtain ⟨x, hx, hp⟩ := getElem?_of_findIdx? hfind
        obtain rfl : x = none := by simpa using hp
        obtain ⟨h1, h2, h3, -, -, -, hh, l₁, l₂, h6, h7⟩ :=
          updateIncoming_spec hq hs ha hmem (by simp) h
        refine ⟨h1, h2, h3, ?_, .inr (by rw [hh])⟩
        rw [h6, h7, cells_of_lookup hlook]
        simp only [writeSlots_cons, writeSlots_nil, List.append_assoc]
        refine (List.Perm.append_left l₁ ((reduceOption_set_some hx node).append_right l₂)).trans ?_
        simp only [List.cons_append]
        exact List.perm_middle

/-- `add_overflow_incoming` adds one link to the chain of the neighbour. -/
theorem addOverflowIncoming_spec (hcap : 0 < c.overflowCapacity) (hq : s.Quiet) (hs : s.Chains)
    {neighbour node : Node} (ha : s.Live neighbour.nid.ref) {head : Option NID}
    (hh : s.head neighbour.nid.ref = head.map NID.ref)
    (h : addOverflowIncoming c neighbour head node s = (.ok (), s')) :
    s'.Quiet ∧ Touch neighbour.nid.ref s.toLevelStore s'.toLevelStore ∧
      s'.slots neighbour.nid.ref = s.slots neighbour.nid.ref ∧
      (s'.chained neighbour.nid.ref).Perm (node.nid.setIncoming :: s.chained neighbour.nid.ref) ∧
      (s.head neighbour.nid.ref = none ∨ s'.head neighbour.nid.ref = s.head neighbour.nid.ref) := by
  rw [addOverflowIncoming, chainFuel_bind] at h
  exact addOverflowFrom_spec hcap hq hs ha (p := []) rfl (hh ▸ hs.trail _ ha)
    (.inl ⟨rfl, rfl, rfl⟩) h

end IndexGraph
end Hnsw
end VsqlVector
