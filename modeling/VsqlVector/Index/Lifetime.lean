/-
# Records come and go

An insert makes a new record, a remove frees the overflow chain of a node and
then its record, and in between a record is stamped again or given another
lower node. None of this changes what the other nodes name (`Kept`), so nodes
that name each other go on doing so.

Key definition: `Kept`.
Key theorems: `Mutual.kept`, `createNode_spec`, `dropOverflowNodes_spec`, `dropNode_spec`.
-/
import VsqlVector.Index.Unlinking

namespace VsqlVector
namespace Hnsw

open LevelStore LevelProg

/-- The records of `V` name what they named. -/
structure Kept (V : Set ℕ) (s s' : LevelStore) : Prop where
  live : ∀ a ∈ V, s.Live a → s'.Live a
  owner : ∀ a ∈ V, s'.ownerOf a = s.ownerOf a
  slots : ∀ a ∈ V, s'.slots a = s.slots a
  chained : ∀ a ∈ V, s.Live a → s'.chained a = s.chained a

variable {w x a o : ℕ} {V W : Set ℕ} {s s' s'' : LevelStore}

namespace Kept

theorem trans (h : Kept V s s') (h' : Kept V s' s'') : Kept V s s'' where
  live a ha hl := h'.live a ha (h.live a ha hl)
  owner a ha := (h'.owner a ha).trans (h.owner a ha)
  slots a ha := (h'.slots a ha).trans (h.slots a ha)
  chained a ha hl := (h'.chained a ha (h.live a ha hl)).trans (h.chained a ha hl)

theorem mono (h : Kept V s s') (hW : W ⊆ V) : Kept W s s' :=
  ⟨fun a ha => h.live a (hW ha), fun a ha => h.owner a (hW ha), fun a ha => h.slots a (hW ha),
    fun a ha => h.chained a (hW ha)⟩

theorem of_touch (ht : Touch x s s') (hx : x ∉ V) : Kept V s s' := by
  have hne : ∀ a ∈ V, a ≠ x := fun a ha he => hx (he ▸ ha)
  exact ⟨fun a _ hl => ht.live_iff.mpr hl, fun a _ => ht.ownerOf a, fun a ha => ht.slots a (hne a ha),
    fun a ha hl => ht.chained hl (hne a ha)⟩

theorem names (h : Kept V s s') (ha : a ∈ V) (hl : s.Live a) : s'.names a = s.names a := by
  rw [LevelStore.names, LevelStore.names, LevelStore.links, LevelStore.links, h.slots a ha,
    h.chained a ha hl]

end Kept

theorem Sound.kept (h : Sound w s a) (hk : Kept V s s') (ha : a ∈ V)
    (hlinks : ∀ n ∈ s.links a, n.nid.ref ∈ V) : Sound w s' a := by
  have hl : s'.links a = s.links a := by rw [links, links, hk.slots a ha]
  have hn := hk.names ha h.live
  refine ⟨hk.live a ha h.live, by rw [hk.slots a ha]; exact h.width, hl ▸ h.outgoing, fun n hn => ?_,
    hk.chained a ha h.live ▸ h.flagged, hn ▸ h.nodup, hn ▸ h.irrefl⟩
  rw [hl] at hn
  rw [hk.owner _ (hlinks n hn)]
  exact h.owner n hn

/-- Nodes that name each other go on doing so while their records are kept. -/
theorem Mutual.kept (h : Mutual w s V) (hk : Kept V s s') : Mutual w s' V := by
  have hnames : ∀ a ∈ V, s'.names a = s.names a := fun a ha => hk.names ha (h.sound a ha).live
  refine ⟨fun a ha => ?_, fun a ha b hb => ?_⟩
  · exact (h.sound a ha).kept hk ha fun n hn => (h.symm a ha _ (mem_names_of_link hn)).1
  · rw [hnames a ha] at hb
    obtain ⟨hbV, hback⟩ := h.symm a ha b hb
    exact ⟨hbV, hnames b hbV ▸ hback⟩

theorem Around.kept {X : Set ℕ} (h : Around w s V x X) (hk : Kept Set.univ s s') : Around w s' V x X := by
  have hnames : ∀ a ∈ V, s'.names a = s.names a := fun a ha => hk.names trivial (h.sound a ha).live
  refine ⟨h.out, fun a ha => (h.sound a ha).kept hk trivial fun _ _ => trivial, fun a ha b hb => ?_,
    fun a ha => ?_⟩
  · rw [hnames a ha] at hb
    rcases h.symm a ha b hb with ⟨h1, h2⟩ | h'
    · exact .inl ⟨h1, hnames b h1 ▸ h2⟩
    · exact .inr h'
  · obtain ⟨h1, h2⟩ := h.named a ha
    exact ⟨h1, hnames a h1 ▸ h2⟩

theorem Pending.kept {X : Set ℕ} (h : Pending w s V x X) (hk : Kept Set.univ s s') :
    Pending w s' V x X := by
  have hl : s'.links x = s.links x := by rw [links, links, hk.slots x trivial]
  have hc := hk.chained x trivial h.live
  refine ⟨hk.live x trivial h.live, by rw [hk.slots x trivial]; exact h.width, fun n hn => ?_,
    hc ▸ h.flagged, hk.names trivial h.live ▸ h.nodup, fun b => ?_, hl ▸ h.pending⟩
  · rw [hk.owner _ trivial]
    exact h.owner n (hl ▸ hn)
  · rw [hl, hc]
    exact h.names b

theorem IndexGraph.Backed.kept (h : IndexGraph.Backed s V) (hm : Mutual w s V) (hk : Kept V s s') :
    IndexGraph.Backed s' V := fun a ha n hn => by
  rw [hk.chained a ha (hm.sound a ha).live] at hn
  rw [links, hk.slots _ (hm.symm a ha _ (mem_names_of_chained hn)).1]
  exact h a ha n hn

theorem Good.kept {n : Node} (h : Good s V n) (hk : Kept V s s') : Good s' V n :=
  ⟨h.mem, h.outgoing, (hk.owner _ h.mem).trans h.owner⟩

/-! ### Changing one node's record -/

section Nodes

variable {t : AList fun _ : ℕ => Record NeighbourEntry}

/-- A change to the record of `a` alone leaves the others. -/
theorem nodes_frame (ht : ∀ b, b ≠ a → t.lookup b = s.nodes.lookup b) :
    let s' : LevelStore := { s with nodes := t }
    (∀ b, b ≠ a → s'.bone b = s.bone b) ∧ (∀ b, b ≠ a → s'.head b = s.head b) ∧
      Kept {b | b ≠ a} s s' := by
  intro s'
  have hentry : ∀ b, b ≠ a → s'.entry b = s.entry b := fun b hb => by rw [entry, entry, ht b hb]
  have hhead : ∀ b, b ≠ a → s'.head b = s.head b := fun b hb => by rw [head, head, hentry b hb]
  refine ⟨fun b hb => by rw [bone, bone, ht b hb], hhead, fun b hb hl => ?_, fun b hb => ?_, fun b hb => ?_,
    fun b hb _ => ?_⟩
  · rw [Live, ht b hb]
    exact hl
  · rw [LevelStore.ownerOf, LevelStore.ownerOf, bone, bone, ht b hb]
  · rw [slots, slots, hentry b hb]
  · refine chained_congr ?_ fun _ _ => rfl
    rw [chain, chain, hhead b hb]
    rfl

/-- The chains end still if that of `a` is as before or there is none. -/
theorem nodes_chains (hs : s.Chains) (ht : ∀ b, b ≠ a → t.lookup b = s.nodes.lookup b)
    (ha : ∀ r, t.lookup a = some r → r.entry.overflow = none ∨
      s.Live a ∧ r.entry.overflow.map NID.ref = s.head a) :
    ({ s with nodes := t } : LevelStore).Chains := by
  set s' : LevelStore := { s with nodes := t }
  obtain ⟨-, hhead, hk⟩ := nodes_frame ht
  have hcase (b : ℕ) (hb : s'.Live b) : s'.chain b = [] ∧ s'.head b = none ∨
      s.Live b ∧ s'.head b = s.head b ∧ s'.chain b = s.chain b := by
    have hch (h : s'.head b = s.head b) : s'.chain b = s.chain b := by rw [chain, chain, h]; rfl
    by_cases hba : b = a
    · subst hba
      obtain ⟨r, hr⟩ := hb.exists_record
      have hh : s'.head b = r.entry.overflow.map NID.ref := by
        have : t.lookup b = some r := hr
        simp [s', head, entry, this]
      rcases ha r hr with h | ⟨hl, h⟩
      · refine .inl ⟨?_, by rw [hh, h]; rfl⟩
        exact chain_eq (l := []) (by rw [hh, h]; rfl)
      · exact .inr ⟨hl, hh.trans h, hch (hh.trans h)⟩
    · refine .inr ⟨?_, hhead b hba, hch (hhead b hba)⟩
      have : t.lookup b = s.nodes.lookup b := ht b hba
      rw [Live, ← this]
      exact hb
  refine ⟨fun b hb => ?_, fun b c hb hc hne => ?_⟩
  · rcases hcase b hb with ⟨h1, h2⟩ | ⟨h1, h2, h3⟩
    · rw [h1, h2]
      rfl
    · rw [h2, h3]
      exact hs.trail b h1
  · rcases hcase b hb with ⟨h1, -⟩ | ⟨h1, -, h2⟩
    · rw [h1]
      exact List.disjoint_nil_left _
    · rcases hcase c hc with ⟨h3, -⟩ | ⟨h3, -, h4⟩
      · rw [h3]
        exact List.disjoint_nil_right _
      · rw [h2, h4]
        exact hs.disjoint b c h1 h3 hne

/-- A record with the same links and owner. -/
theorem rebone (hs : s.Chains) {r q : Record NeighbourEntry} (hr : s.nodes.lookup a = some r)
    (howner : q.entry.owner = r.entry.owner) (hn : q.entry.neighbours = r.entry.neighbours)
    (ho : q.entry.overflow = r.entry.overflow) :
    let s' : LevelStore := { s with nodes := s.nodes.insert a q }
    s'.Chains ∧ Kept Set.univ s s' ∧ s'.bone a = some q.bone ∧ ∀ b, b ≠ a → s'.bone b = s.bone b := by
  intro s'
  have ht : ∀ b, b ≠ a → (s.nodes.insert a q).lookup b = s.nodes.lookup b := fun b hb =>
    AList.lookup_insert_ne hb
  have hl : (s.nodes.insert a q).lookup a = some q := AList.lookup_insert _
  obtain ⟨hbone, hhead, hk⟩ := nodes_frame ht
  have hheada : s'.head a = s.head a := by simp [s', head, entry, hr, ho]
  refine ⟨nodes_chains hs ht fun r₂ hr₂ => .inr ⟨live_of_lookup hr, ?_⟩, ⟨fun b _ hb => ?_, fun b _ => ?_,
    fun b _ => ?_, fun b _ hb => ?_⟩, by simp [s', bone], hbone⟩
  · obtain rfl : q = r₂ := Option.some.inj (hl.symm.trans hr₂)
    simp [head, entry, hr, ho]
  · by_cases hba : b = a
    · subst hba
      exact live_of_lookup (r := q) hl
    · exact hk.live b hba hb
  · by_cases hba : b = a
    · subst hba
      simp [s', LevelStore.ownerOf, bone, hr, Record.bone, howner]
    · exact hk.owner b hba
  · by_cases hba : b = a
    · subst hba
      simp [s', slots, entry, hr, hn]
    · exact hk.slots b hba
  · by_cases hba : b = a
    · subst hba
      refine chained_congr ?_ fun _ _ => rfl
      rw [chain, chain, hheada]
      rfl
    · exact hk.chained b hba hb

/-- A new record without an overflow chain. -/
theorem fresh_record (hs : s.Chains) {r : Record NeighbourEntry} (hr : r.entry.overflow = none) :
    let s' : LevelStore := { s with nodes := s.nodes.insert a r }
    s'.Chains ∧ Kept {b | b ≠ a} s s' ∧ (∀ b, b ≠ a → s'.bone b = s.bone b) ∧
      s'.bone a = some r.bone ∧ s'.slots a = r.entry.neighbours ∧ s'.chained a = [] := by
  intro s'
  have ht : ∀ b, b ≠ a → (s.nodes.insert a r).lookup b = s.nodes.lookup b := fun b hb =>
    AList.lookup_insert_ne hb
  have hl : (s.nodes.insert a r).lookup a = some r := AList.lookup_insert _
  obtain ⟨hbone, -, hk⟩ := nodes_frame ht
  have hentry : s'.entry a = some r.entry := by simp [s', entry]
  have hchain : s'.chain a = [] := chain_eq (l := []) (by rw [head_of_entry hentry, hr]; rfl)
  refine ⟨nodes_chains hs ht fun r' hr' => .inl ?_, hk, hbone, by simp [s', bone], slots_of_entry hentry,
    by rw [chained, hchain]; rfl⟩
  obtain rfl : r = r' := Option.some.inj (hl.symm.trans hr')
  exact hr

end Nodes

namespace IndexGraph

variable {c : LevelCtx} {s s' : LevelState} {node : Node}

/-! ### Freeing an overflow chain -/

theorem removeOverflow_returns (hq : s.Quiet) {nid : NID} (h : remove c nid .overflow s = (.ok (), s')) :
    s' = s ∨ s' = { s with overflows := s.overflows.erase nid.ref } := by
  rw [remove, storageCall_quiet hq, Prog.modify_apply] at h
  simp only [Prod.mk.injEq, true_and] at h
  split at h
  · exact .inr h.symm
  · exact .inl h.symm

/-- The last record of a chain is cut off and then freed, or left unused if
another transaction has stamped it. -/
theorem dropOverflowNode_spec (hq : s.Quiet) (hs : s.Chains) (ha : s.Live a) {p : List ℕ}
    {link : OverflowLink} (hp : s.chain a = p ++ [link.nid.ref])
    (hpar : link.prevKind = .neighbour ∧ p = [] ∧ link.prev.ref = a ∨
      link.prevKind = .overflow ∧ ∃ l, p = l ++ [link.prev.ref])
    (h : dropOverflowNode c link s = (.ok (), s')) :
    s'.Quiet ∧ Touch a s.toLevelStore s'.toLevelStore ∧ s'.chain a = p := by
  have hcut : ∃ s₁ : LevelState, (s₁.Quiet ∧ Touch a s.toLevelStore s₁.toLevelStore ∧ s₁.chain a = p) ∧
      remove c link.nid .overflow s₁ = (.ok (), s') := by
    rw [dropOverflowNode] at h
    rcases hpar with ⟨hk, rfl, rfl⟩ | ⟨hk, l, rfl⟩
    · simp only [hk] at h
      obtain ⟨_, s₁, h1, h⟩ := Prog.bind_returns.mp h
      obtain ⟨r, hr, rfl⟩ := (update_returns hq).mp h1
      refine ⟨_, ?_, h⟩
      exact ⟨hq, touch_cut_head hs hr⟩
    · simp only [hk] at h
      obtain ⟨_, s₁, h1, h⟩ := Prog.bind_returns.mp h
      obtain ⟨q, hlook, rfl⟩ := (updateOverflow_returns hq).mp h1
      refine ⟨_, ?_, h⟩
      exact ⟨hq, touch_cut_tail hs ha (l := l) (by rw [hp, List.append_assoc]; rfl) hlook⟩
  obtain ⟨s₁, ⟨hq₁, ht₁, hc₁⟩, h⟩ := hcut
  have hfree : ∀ b, s₁.Live b → link.nid.ref ∉ s₁.chain b := fun b hb hmem => by
    by_cases hba : b = a
    · have hnd := (hs.trail a ha).nodup
      rw [hp, List.nodup_append] at hnd
      rw [hba, hc₁] at hmem
      exact hnd.2.2 _ hmem _ (by simp) rfl
    · rw [ht₁.chain b (ht₁.live_iff.mp hb) hba] at hmem
      exact hs.disjoint a b ha (ht₁.live_iff.mp hb) (Ne.symm hba) (by simp [hp]) hmem
  rcases removeOverflow_returns hq₁ h with rfl | rfl
  · exact ⟨hq₁, ht₁, hc₁⟩
  · obtain ⟨ht, hc⟩ := touch_free ht₁.chains (ht₁.live_iff.mpr ha) hfree
    exact ⟨hq₁, ht₁.trans ht, hc.trans hc₁⟩

/-- The links of a chain, dropped last one first, leave what was before them. -/
theorem overflowLinks_spec : ∀ {l p : List ℕ} {fuel : ℕ} {prev : NID} {kind : StoreKind}
    {cur : Option NID} {links : List OverflowLink} {s s' : LevelState}, s.Quiet →
    Trail s.next (cur.map NID.ref) l →
    (kind = .neighbour ∧ p = [] ∧ prev.ref = a ∨ kind = .overflow ∧ ∃ l₁, p = l₁ ++ [prev.ref]) →
    overflowLinks fuel prev kind cur s = (.ok links, s') → s = s' ∧
      ∀ t t' : LevelState, t.Quiet → t.Chains → t.Live a → t.chain a = p ++ l →
        links.reverse.forM (dropOverflowNode c) t = (.ok (), t') →
        t'.Quiet ∧ Touch a t.toLevelStore t'.toLevelStore ∧ t'.chain a = p
  | [], p, fuel, prev, kind, cur, links, s, s', _, hl, _, h => by
    obtain rfl : cur = none := by simpa [Trail] using hl
    simp only [overflowLinks, Prog.pure_apply, Prod.mk.injEq, Except.ok.injEq] at h
    obtain ⟨rfl, rfl⟩ := h
    refine ⟨rfl, fun t t' hq hs _ hp hrun => ?_⟩
    rw [List.reverse_nil, Prog.forM_nil_returns] at hrun
    subst hrun
    exact ⟨hq, .refl hs, by simpa using hp⟩
  | o :: l, p, fuel, prev, kind, cur, links, s, s', hq, ⟨ho, n, hn, hl⟩, hpar, h => by
    obtain ⟨cur, rfl, rfl⟩ := Option.map_eq_some_iff.mp ho
    cases fuel with
    | zero => simp [overflowLinks] at h
    | succ fuel =>
      rw [overflowLinks, Prog.bind_returns] at h
      obtain ⟨e, s₁, he, h⟩ := h
      rw [fetchOverflow_returns hq] at he
      obtain ⟨⟨q, hlook, rfl⟩, rfl⟩ := he
      obtain rfl : n = q.entry.overflow.map NID.ref :=
        Option.some.inj (hn.symm.trans (next_of_lookup hlook))
      rw [Prog.bind_returns] at h
      obtain ⟨rest, s₂, hrest, h⟩ := h
      simp only [Prog.pure_apply, Prod.mk.injEq, Except.ok.injEq] at h
      obtain ⟨rfl, rfl⟩ := h
      obtain ⟨rfl, ih⟩ := overflowLinks_spec (p := p ++ [cur.ref]) hq hl (.inr ⟨rfl, p, rfl⟩) hrest
      refine ⟨rfl, fun t t' hq' hs ha hp hrun => ?_⟩
      rw [List.reverse_cons, Prog.forM_append_returns] at hrun
      obtain ⟨t₁, h1, h2⟩ := hrun
      obtain ⟨t₂, h2, h3⟩ := Prog.forM_cons_returns.mp h2
      obtain rfl := Prog.forM_nil_returns.mp h3
      obtain ⟨hq₁, ht₁, hc₁⟩ := ih t t₁ hq' hs ha (by simp [hp]) h1
      obtain ⟨hq₂, ht₂, hc₂⟩ := dropOverflowNode_spec hq₁ ht₁.chains (ht₁.live_iff.mpr ha) hc₁ hpar h2
      exact ⟨hq₂, ht₁.trans ht₂, hc₂⟩

/-- `drop_overflow_nodes` leaves a node without a chain. -/
theorem dropOverflowNodes_spec (hq : s.Quiet) (hs : s.Chains)
    (h : dropOverflowNodes c node s = (.ok (), s')) :
    s'.Quiet ∧ Touch node.nid.ref s.toLevelStore s'.toLevelStore := by
  rw [dropOverflowNodes, Prog.bind_returns] at h
  obtain ⟨e, _, he, h⟩ := h
  rw [fetch_returns hq] at he
  obtain ⟨he, rfl⟩ := he
  rw [chainFuel_bind, Prog.bind_returns] at h
  obtain ⟨links, _, hlinks, h⟩ := h
  have hlive : s.Live node.nid.ref := live_of_entry he
  obtain ⟨rfl, hdrop⟩ := overflowLinks_spec (c := c) (p := []) (l := s.chain node.nid.ref) hq
    (head_of_entry he ▸ hs.trail _ hlive) (.inl ⟨rfl, rfl, rfl⟩) hlinks
  obtain ⟨h1, h2, -⟩ := hdrop s s' hq hs hlive rfl h
  exact ⟨h1, h2⟩

/-! ### Records -/

/-- What the calls that change one node's record leave: the other records, and
what every record but the node's own names. -/
structure Changed (a : ℕ) (s s' : LevelState) : Prop where
  quiet : s'.Quiet
  chains : s'.Chains
  bone : ∀ b, b ≠ a → s'.bone b = s.bone b
  kept : Kept {b | b ≠ a} s.toLevelStore s'.toLevelStore

/-- `drop_node` frees the record, for the transaction that stamped it last. -/
theorem dropNode_spec (hq : s.Quiet) (hs : s.Chains) (h : dropNode c node s = (.ok (), s')) :
    Changed node.nid.ref s s' ∧
      ((s.bone node.nid.ref).map Bone.trxRef = some c.trxRef → ¬ s'.Live node.nid.ref) := by
  rw [dropNode, remove, storageCall_quiet hq, Prog.modify_apply] at h
  simp only [Prod.mk.injEq, true_and] at h
  split at h
  · subst h
    have ht : ∀ b, b ≠ node.nid.ref → (s.nodes.erase node.nid.ref).lookup b = s.nodes.lookup b :=
      fun b hb => AList.lookup_erase_ne hb
    have hl : (s.nodes.erase node.nid.ref).lookup node.nid.ref = none := AList.lookup_erase _ _
    obtain ⟨hbone, -, hk⟩ := nodes_frame ht
    exact ⟨⟨hq, nodes_chains hs ht fun r hr => absurd (hl.symm.trans hr) (by simp), hbone, hk⟩,
      fun _ hlive => by simp [Live, hl] at hlive⟩
  · rename_i hno
    subst h
    refine ⟨⟨hq, hs, fun _ _ => rfl, fun _ _ h => h, fun _ _ => rfl, fun _ _ => rfl, fun _ _ _ => rfl⟩,
      fun hst => absurd ?_ hno⟩
    rcases hr : s.nodes.lookup node.nid.ref with _ | r
    · simp [LevelStore.bone, hr] at hst
    · simpa [LevelStore.bone, hr, Record.bone, stampedBy] using hst

/-- Another lower node for a record. -/
theorem setLower_spec (hq : s.Quiet) (hs : s.Chains) {nid : NID} {v : Option NID}
    (h : update nid (fun e => { e with lowerLevel := v }) s = (.ok (), s')) :
    Changed nid.ref s s' ∧ Kept Set.univ s.toLevelStore s'.toLevelStore ∧
      s'.bone nid.ref = (s.bone nid.ref).map fun b => { b with lowerLevel := v } := by
  obtain ⟨r, hr, rfl⟩ := (update_returns hq).mp h
  obtain ⟨h1, h2, h3, h4⟩ := rebone (q := { r with entry := { r.entry with lowerLevel := v } }) hs hr
    rfl rfl rfl
  refine ⟨⟨hq, h1, h4, h2.mono (Set.subset_univ _)⟩, h2, ?_⟩
  rw [h3, bone, hr]
  rfl

/-- `mark_delete` stamps the record. -/
theorem markDelete_spec (hq : s.Quiet) (hs : s.Chains) {nid : NID} {mark : Bool}
    (h : markDelete c nid mark s = (.ok (), s')) :
    Changed nid.ref s s' ∧ Kept Set.univ s.toLevelStore s'.toLevelStore ∧
      s'.bone nid.ref = (s.bone nid.ref).map fun b => { b with trxRef := c.trxRef, deleteMarked := mark } := by
  rw [markDelete, Prog.bind_apply, load_quiet hq] at h
  simp only [Prog.modify_apply, Prod.mk.injEq, true_and] at h
  subst h
  rcases hr : s.nodes.lookup nid.ref with _ | r
  · exact ⟨⟨hq, hs, fun _ _ => rfl, fun _ _ h => h, fun _ _ => rfl, fun _ _ => rfl, fun _ _ _ => rfl⟩,
      ⟨fun _ _ h => h, fun _ _ => rfl, fun _ _ => rfl, fun _ _ _ => rfl⟩, by simp [bone, hr]⟩
  · obtain ⟨h1, h2, h3, h4⟩ := rebone (q := { r with trxRef := c.trxRef, deleteMarked := mark }) hs hr
      rfl rfl rfl
    refine ⟨⟨hq, h1, h4, h2.mono (Set.subset_univ _)⟩, h2, ?_⟩
    rw [h3, bone, hr]
    rfl

/-- `create_node` makes a record that nothing names, with links to be landed. -/
theorem createNode_spec (hq : s.Quiet) (hs : s.Chains) {owner : ℕ} {neighbours : List Node}
    (hm : Mutual c.maxNeighbours s.toLevelStore V) (hV : ∀ a ∈ V, s.Live a)
    (hgood : ∀ n ∈ neighbours, Good s.toLevelStore V n)
    (hnodup : (neighbours.map fun n => n.nid.ref).Nodup) (hlen : neighbours.length ≤ c.maxNeighbours)
    (h : createNode c owner neighbours s = (.ok node, s')) :
    ∃ x, node = ⟨⟨x, false⟩, owner⟩ ∧ ¬ s.Live x ∧ Changed x s s' ∧
      s'.bone x = some ⟨c.trxRef, false, owner, none, c.maxNeighbours⟩ ∧
      Around c.maxNeighbours s'.toLevelStore V x ∅ ∧ Pending c.maxNeighbours s'.toLevelStore V x ∅ := by
  rw [createNode, Prog.bind_returns] at h
  obtain ⟨nid, s₁, h1, h⟩ := h
  obtain ⟨x, rs, -, rfl, hfree, hs₁⟩ := insert_returns hq h1
  simp only [Prog.pure_apply, Prod.mk.injEq, Except.ok.injEq] at h
  obtain ⟨rfl, rfl⟩ := h
  have hnew : ¬ s.Live x := by simp [Live, hfree]
  have hx : x ∉ V := fun h => hnew (hV x h)
  obtain ⟨hchains, hk, hbone, hbonex, hslots, hchained⟩ := fresh_record (a := x)
    (r := ⟨c.trxRef, false, ⟨owner, none, padSlots c.maxNeighbours (neighbours.map fun n => some (flag n)),
      none⟩⟩) hs rfl
  rw [show ({ s.toLevelStore with nodes := _ } : LevelStore) = s₁.toLevelStore by rw [hs₁]; rfl]
    at hchains hk hbone hbonex hslots hchained
  have hkV : Kept V s.toLevelStore s₁.toLevelStore := hk.mono fun a ha he => hx (he ▸ ha)
  have hlinks : s₁.links x = neighbours.map flag := by
    have hmap : (neighbours.map fun n => some (flag n)) = (neighbours.map flag).map some := by simp
    rw [links, hslots]
    dsimp only
    rw [reduceOption_padSlots (by simpa using hlen), hmap, List.reduceOption]
    simp
  refine ⟨x, rfl, hnew, ⟨by rw [hs₁]; exact hq, hchains, hbone, hk⟩, ?_,
    (hm.kept hkV).around_fresh hx, ?_⟩
  · rw [hbonex]
    simp [Record.bone]
  · refine ⟨?_, by simp [hslots], fun n hn => ?_, by simp [hchained], ?_, fun b => ?_, fun n hn _ => ?_⟩
    · rw [hs₁]
      simp [Live]
    · rw [hlinks] at hn
      obtain ⟨m, hm, rfl⟩ := List.mem_map.mp hn
      exact ((hgood m hm).kept hkV).owner
    · rw [names, hlinks, hchained, List.map_map, List.map_nil, List.append_nil]
      exact hnodup
    · rw [hlinks, hchained]
      simp [flag]
    · rw [hlinks] at hn
      obtain ⟨m, hm, rfl⟩ := List.mem_map.mp hn
      exact (hgood m hm).mem

end IndexGraph

end Hnsw
end VsqlVector
