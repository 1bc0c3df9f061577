/-
# Shrinking and repairing lists

The searches of a level see its links (`reads_level`), so what they return are
nodes of the level, with their owners. With that the operations at one level
that select neighbours keep the level at rest: `shrink_neighbours` after a list
had no room, the linking of a new node, and taking a node out, with the repair
of the nodes this leaves orphaned.

Key theorems: `selectNeighbours_spec`, `shrinkNeighbours_spec`, `linkNode_spec`,
`severNode_spec`.
-/
import VsqlVector.Index.Lifetime
import VsqlVector.Index.Search

namespace VsqlVector
namespace Hnsw

open LevelStore LevelProg IndexGraph

variable {Data Dist : Type} {g : IndexGraph Data Dist} {w x : ℕ} {V : Set ℕ} {s s' : LevelState}

theorem neighbours_spec (hq : s.Quiet) (hm : Mutual w s.toLevelStore V) {n : Node} (hn : n.nid.ref ∈ V)
    {ns : List Node} (h : neighbours n s = (.ok ns, s')) :
    s = s' ∧ ∀ m ∈ ns, Good s.toLevelStore V m := by
  rw [neighbours, Prog.bind_returns] at h
  obtain ⟨e, _, he, h⟩ := h
  rw [fetch_returns hq] at he
  obtain ⟨he, rfl⟩ := he
  simp only [Prog.pure_apply, Prod.mk.injEq, Except.ok.injEq] at h
  obtain ⟨rfl, rfl⟩ := h
  refine ⟨rfl, fun m hmem => ?_⟩
  have hl : m ∈ s.links n.nid.ref := by
    rw [links, slots_of_entry he]
    exact List.mem_of_mem_filter hmem
  have hs := hm.sound _ hn
  exact ⟨(hm.symm _ hn _ (mem_names_of_link hl)).1, hs.outgoing m hl, hs.owner m hl⟩

theorem resolveNodeData_returns (hq : s.Quiet) {vid : ℕ} {d : Data} (h : resolveNodeData g vid s = (.ok d, s')) :
    s = s' := by
  rw [resolveNodeData, Prog.bind_apply, load_quiet hq] at h
  exact (Prog.ofOption_returns.mp h).2.symm

/-- The graph a search sees at a level at rest. -/
theorem reads_level (hq : s.Quiet) (hm : Mutual w s.toLevelStore V) :
    LayerOperations.Reads g.layerGraph s (Good s.toLevelStore V) where
  neighbours n ns s' hn h := neighbours_spec hq hm hn.mem h
  distance a b d s' h := by
    change distance g a b s = _ at h
    rw [distance, Prog.bind_returns] at h
    obtain ⟨_, s₁, h1, h⟩ := h
    obtain rfl := resolveNodeData_returns hq h1
    obtain ⟨_, s₂, h2, h⟩ := Prog.bind_returns.mp h
    obtain rfl := resolveNodeData_returns hq h2
    simp only [Prog.pure_apply, Prod.mk.injEq] at h
    exact h.2
  distanceTo q b d s' h := by
    change distanceTo g q b s = _ at h
    rw [distanceTo, Prog.bind_returns] at h
    obtain ⟨_, s₁, h1, h⟩ := h
    obtain rfl := resolveNodeData_returns hq h1
    simp only [Prog.pure_apply, Prod.mk.injEq] at h
    exact h.2
  isVisible n v s' h := by
    change visible n s = _ at h
    simp only [visible, Prog.pure_apply, Prod.mk.injEq] at h
    exact h.2

namespace GraphOperations

/-- Nodes without the flag are told apart by their references. -/
theorem nodup_refs {ns : List Node} (hgood : ∀ n ∈ ns, n.nid.incoming = false)
    (h : (ns.map Node.key).Nodup) : (ns.map fun n => n.nid.ref).Nodup := by
  refine List.Nodup.of_map (fun r => (⟨r, false⟩ : NID)) ?_
  rw [List.map_map]
  convert h using 1
  refine List.map_congr_left fun n hn => ?_
  have := hgood n hn
  rcases n with ⟨⟨r, f⟩, v⟩
  simp only at this
  subst this
  rfl

/-- A list of nodes of the level, each once, that leaves out the query. -/
structure Picked (s : LevelStore) (V : Set ℕ) (query : Query Node Data) (ns : List Node) : Prop where
  good : ∀ n ∈ ns, Good s V n
  nodup : (ns.map fun n => n.nid.ref).Nodup
  query : ∀ q, query = .node q → q.nid.incoming = false → ∀ n ∈ ns, n.nid.ref ≠ q.nid.ref

theorem Picked.of_gathered {query : Query Node Data} {st : LayerOperations.LayerState g.layerGraph}
    (h : LayerOperations.Gathered g.layerGraph (LayerOperations.initialVisited g.layerGraph query)
      (Good s.toLevelStore V) [] st) {ns : List Node}
    (hsub : ns.Subperm ((g.layerGraph.maxQueue.toList st.results).map Candidate.node)) :
    Picked s.toLevelStore V query ns := by
  have hmem : ∀ n ∈ ns, ∃ c ∈ g.layerGraph.maxQueue.toList st.results, c.node = n := fun n hn =>
    List.mem_map.mp (hsub.subset hn)
  have hgood : ∀ n ∈ ns, Good s.toLevelStore V n := fun n hn => by
    obtain ⟨c, hc, rfl⟩ := hmem n hn
    exact (h.good c (List.mem_append_left _ hc)).1
  refine ⟨hgood, nodup_refs (fun n hn => (hgood n hn).outgoing) ?_, fun q hq hqi n hn he => ?_⟩
  · obtain ⟨l, hl, hs⟩ := hsub
    refine (hl.map Node.key).nodup_iff.mp (List.Nodup.sublist (hs.map Node.key) ?_)
    have := h.nodup
    rw [List.append_nil] at this
    rw [List.map_map]
    exact this
  · obtain ⟨c, hc, rfl⟩ := hmem n hn
    refine (h.good c (List.mem_append_left _ hc)).2.2 ?_
    subst hq
    have hci := (h.good c (List.mem_append_left _ hc)).1.outgoing
    have : c.node.nid = q.nid := by
      rcases hcn : c.node.nid with ⟨r, f⟩
      rcases hqn : q.nid with ⟨r', f'⟩
      simp_all
    exact List.mem_singleton.mpr this

theorem consumeHeuristic_returns {query : Query Node Data} {M : ℕ} (hq : s.Quiet)
    (hm : Mutual w s.toLevelStore V) {st : LayerOperations.LayerState g.layerGraph}
    (hg : LayerOperations.Gathered g.layerGraph (LayerOperations.initialVisited g.layerGraph query)
      (Good s.toLevelStore V) [] st) {r : List Node × List Node}
    (h : consumeHeuristic g query M st s = (.ok r, s')) :
    s = s' ∧ Picked s.toLevelStore V query r.1 ∧ r.1.length ≤ M ∧ ∀ n ∈ r.2, Good s.toLevelStore V n := by
  obtain ⟨rfl, hsub, hlen, hpool⟩ := LayerOperations.consumeHeuristic_spec (reads_level hq hm) h
  refine ⟨rfl, .of_gathered hg hsub, hlen, fun n hn => ?_⟩
  rw [hpool] at hn
  obtain ⟨c, hc, rfl⟩ := List.mem_map.mp ((LayerOperations.consumeAll_perm st).mem_iff.mp hn)
  exact (hg.good c (List.mem_append_left _ hc)).1

theorem searchLayer_spec {query : Query Node Data} {ef : ℕ} (hq : s.Quiet)
    (hm : Mutual w s.toLevelStore V) {ns : List Node} (hns : ∀ n ∈ ns, Good s.toLevelStore V n)
    {st : LayerOperations.LayerState g.layerGraph} (h : searchLayer g query ns ef s = (.ok st, s')) :
    s = s' ∧ LayerOperations.Gathered g.layerGraph (LayerOperations.initialVisited g.layerGraph query)
      (Good s.toLevelStore V) [] st := by
  rw [searchLayer, Prog.get_bind] at h
  exact LayerOperations.search_spec (reads_level hq hm) hns h

theorem greedySearch_spec {query : Query Node Data} (hq : s.Quiet) (hm : Mutual w s.toLevelStore V)
    {ns out : List Node} (hns : ∀ n ∈ ns, Good s.toLevelStore V n)
    (h : greedySearch g query ns s = (.ok out, s')) : s = s' ∧ ∀ n ∈ out, Good s.toLevelStore V n := by
  rw [greedySearch, Prog.bind_returns] at h
  obtain ⟨st, s₁, h1, h⟩ := h
  obtain ⟨rfl, hg⟩ := searchLayer_spec hq hm hns h1
  simp only [Prog.pure_apply, Prod.mk.injEq, Except.ok.injEq] at h
  obtain ⟨rfl, rfl⟩ := h
  refine ⟨rfl, fun n hn => ?_⟩
  obtain ⟨c, hc, rfl⟩ := List.mem_map.mp ((LayerOperations.consumeAll_perm st).mem_iff.mp hn)
  exact (hg.good c (List.mem_append_left _ hc)).1

/-- The neighbours of a new node are nodes of the level, each once. -/
theorem selectNeighbours_spec {query : Query Node Data} (hq : s.Quiet) (hm : Mutual w s.toLevelStore V)
    {ns : List Node} (hns : ∀ n ∈ ns, Good s.toLevelStore V n) {r : List Node × List Node}
    (h : selectNeighbours g query ns s = (.ok r, s')) :
    s = s' ∧ Picked s.toLevelStore V query r.1 ∧ r.1.length ≤ g.M ∧
      ∀ n ∈ r.2, Good s.toLevelStore V n := by
  rw [selectNeighbours, Prog.bind_returns] at h
  obtain ⟨st, s₁, h1, h⟩ := h
  obtain ⟨rfl, hg⟩ := searchLayer_spec hq hm hns h1
  exact consumeHeuristic_returns hq hm hg h

/-- A search from an entry point without a record does not return. -/
theorem searchLayer_stuck {data : Data} {ef : ℕ} {n : Node} (hq : s.Quiet) (hn : ¬ s.Live n.nid.ref)
    {st : LayerOperations.LayerState g.layerGraph} :
    searchLayer g (.data data) [n] ef s ≠ (.ok st, s') := by
  rw [searchLayer, Prog.get_bind]
  refine LayerOperations.search_stuck ⟨fun _ _ _ h => h.elim, ?_, ?_, ?_⟩ (by simp [LayerOperations.initialVisited])
    g.index.lt_irrefl fun ns s' h => ?_
  · exact (reads_level (w := 0) (V := ∅) hq ⟨by simp, by simp⟩).distance
  · exact (reads_level (w := 0) (V := ∅) hq ⟨by simp, by simp⟩).distanceTo
  · exact (reads_level (w := 0) (V := ∅) hq ⟨by simp, by simp⟩).isVisible
  · change neighbours n s = _ at h
    rw [neighbours, Prog.bind_returns] at h
    obtain ⟨e, _, he, -⟩ := h
    rw [fetch_returns hq] at he
    exact hn (live_of_entry he.1)

/-! ### Lists without room -/

variable {level : ℕ}

theorem ctx_overflowCapacity_pos (hM : 0 < g.M) : 0 < (g.ctx level).overflowCapacity := by
  simp only [ctx, LevelCtx.overflowCapacity, overflowCapacity, maxOverflowLen]
  omega

theorem M_le_maxNeighbours : g.M ≤ (g.ctx level).maxNeighbours := by
  show g.M ≤ if level = 0 then 2 * g.M else g.M
  split <;> omega

theorem Good.nid_eq {n : Node} (h : Good s.toLevelStore V n) : n.nid = ⟨n.nid.ref, false⟩ := by
  rw [← h.outgoing]

/-- What is picked for a node can be its list of links. -/
theorem Picked.good_sdiff {q : Node} {ns : List Node}
    (h : Picked s.toLevelStore V (.node q : Query Node Data) ns) (hq : q.nid.incoming = false) :
    ∀ n ∈ ns, Good s.toLevelStore (V \ {q.nid.ref}) n := fun n hn =>
  ⟨⟨(h.good n hn).mem, h.query q rfl hq n hn⟩, (h.good n hn).outgoing, (h.good n hn).owner⟩

/-- Nodes that have links keep one, and chains stay backed. -/
structure Tended (V : Set ℕ) (s s' : LevelState) : Prop where
  linked : ∀ a ∈ V, s.links a ≠ [] → s'.links a ≠ []
  backed : Backed s.toLevelStore V → Backed s'.toLevelStore V

theorem Tended.refl (V : Set ℕ) (s : LevelState) : Tended V s s := ⟨fun _ _ h => h, id⟩

theorem Tended.trans {s'' : LevelState} (h : Tended V s s') (h' : Tended V s' s'') : Tended V s s'' :=
  ⟨fun a ha hl => h'.linked a ha (h.linked a ha hl), fun hB => h'.backed (h.backed hB)⟩

/-- Only the node whose links are replaced can lose its last one. -/
theorem Tended.of_replaced {c : LevelCtx} {updated out : List Node} {K : List ℕ}
    (h : Replaced c w s s' V x updated out K) (hm : Mutual w s.toLevelStore V) (hxV : x ∈ V) (hne : updated ≠ []) :
    Tended V s s' := by
  refine ⟨fun a _ hl => ?_, h.backed hm hxV⟩
  by_cases hax : a = x
  · subst hax
    exact fun he => hne (List.nil_perm.mp (he ▸ h.links))
  · obtain ⟨n, hn⟩ := List.exists_mem_of_ne_nil _ hl
    exact List.ne_nil_of_mem (h.grown a hax n hn)

/-- The queries of a search in which a node counts. -/
theorem key_not_mem {n q : Node} (h : n.nid.ref ≠ q.nid.ref) :
    g.layerGraph.key n ∉ LayerOperations.initialVisited g.layerGraph (.node q : Query Node Data) := fun hmem => by
  have : n.nid = q.nid := List.mem_singleton.mp hmem
  exact h (congrArg NID.ref this)

theorem visible_layer (n : Node) (v : Bool) (t t' : LevelState) (h : g.layerGraph.isVisible n t = (.ok v, t')) :
    v = true := by
  change visible n t = _ at h
  simp only [visible, Prog.pure_apply, Prod.mk.injEq, Except.ok.injEq] at h
  exact h.1.symm

theorem shrinkNeighbour_spec (hM : 0 < g.M) (hq : s.Quiet) (hs : s.Chains)
    (hm : Mutual (g.ctx level).maxNeighbours s.toLevelStore V) {linked neighbour : Node}
    (hl : Good s.toLevelStore V linked) (hn : Good s.toLevelStore V neighbour)
    (hne : linked.nid.ref ≠ neighbour.nid.ref)
    (h : shrinkNeighbour g level linked neighbour s = (.ok (), s')) :
    Rewired s s' ∧ Mutual (g.ctx level).maxNeighbours s'.toLevelStore V ∧ Tended V s s' := by
  rw [shrinkNeighbour, Prog.bind_returns] at h
  obtain ⟨conns, s₁, h1, h⟩ := h
  obtain ⟨rfl, hconns⟩ := neighbours_spec hq hm hn.mem h1
  obtain ⟨st, s₂, h2, h⟩ := Prog.bind_returns.mp h
  have hfound := LayerOperations.seed_finds (reads_level hq hm) visible_layer (n := linked) (by simp)
    (key_not_mem hne) h2
  obtain ⟨rfl, hg⟩ := LayerOperations.seed_spec (reads_level hq hm) (fun n hmem => by
    rcases List.mem_append.mp hmem with hmem | hmem
    · exact hconns n hmem
    · rw [List.mem_singleton.mp hmem]
      exact hl) h2
  obtain ⟨⟨shrunk, pool⟩, s₃, h3, h⟩ := Prog.bind_returns.mp h
  have hshrunk : shrunk ≠ [] := LayerOperations.consumeHeuristic_finds (hM.trans_le M_le_maxNeighbours) hfound h3
  obtain ⟨rfl, hp, hlen, -⟩ := consumeHeuristic_returns hq hm hg h3
  obtain ⟨out, s₄, h4, h⟩ := Prog.bind_returns.mp h
  simp only [Prog.pure_apply, Prod.mk.injEq, true_and] at h
  subst h
  obtain ⟨K, hr⟩ := replaceNeighbours_replaced (ctx_overflowCapacity_pos hM) hq hs hm hn.mem
    (Good.nid_eq hn) hn.owner (hp.good_sdiff hn.outgoing) hp.nodup hlen h4
  exact ⟨hr.rewired, hr.atRest, .of_replaced hr hm hn.mem hshrunk⟩

/-- `shrink_neighbours` keeps a level at rest, and takes no node's last link. -/
theorem shrinkNeighbours_spec (hM : 0 < g.M) (hq : s.Quiet) (hs : s.Chains)
    (hm : Mutual (g.ctx level).maxNeighbours s.toLevelStore V) {linked : Node}
    (hl : Good s.toLevelStore V linked) {overflowed : List Node}
    (ho : ∀ n ∈ overflowed, Good s.toLevelStore V n ∧ linked.nid.ref ≠ n.nid.ref)
    (h : shrinkNeighbours g level linked overflowed s = (.ok (), s')) :
    Rewired s s' ∧ Mutual (g.ctx level).maxNeighbours s'.toLevelStore V ∧ Tended V s s' := by
  obtain ⟨h1, h2, h3, -⟩ := Prog.forM_returns
    (fun ns t => Rewired s t ∧ Mutual (g.ctx level).maxNeighbours t.toLevelStore V ∧ Tended V s t ∧
      ∀ n ∈ ns, Good s.toLevelStore V n ∧ linked.nid.ref ≠ n.nid.ref)
    (fun n ns t t' ⟨hr, hm, ht, hns⟩ hrun => by
      obtain ⟨hn, hne⟩ := hns n (by simp)
      obtain ⟨hr', hm', ht'⟩ := shrinkNeighbour_spec hM hr.quiet hr.chains hm (hl.rewired hr)
        (hn.rewired hr) hne hrun
      exact ⟨hr.trans hr', hm', ht.trans ht', fun m hmem => hns m (List.mem_cons_of_mem _ hmem)⟩)
    overflowed s s' ⟨.refl hq hs, hm, .refl V s, ho⟩ h
  exact ⟨h1, h2, h3⟩

/-- A new node with links to be landed is linked, and the level is at rest with it. -/
theorem linkNode_spec (hM : 0 < g.M) (hq : s.Quiet) (hs : s.Chains)
    (ha : Around (g.ctx level).maxNeighbours s.toLevelStore V x ∅)
    (hp : Pending (g.ctx level).maxNeighbours s.toLevelStore V x ∅) {node : Node}
    (hx : node.nid = ⟨x, false⟩) (hown : s.ownerOf x = some node.vid)
    (h : linkNode g level node s = (.ok (), s')) :
    Rewired s s' ∧ Mutual (g.ctx level).maxNeighbours s'.toLevelStore (Insert.insert x V) ∧
      (Backed s.toLevelStore V → Backed s'.toLevelStore (Insert.insert x V)) := by
  rw [linkNode, Prog.bind_returns] at h
  obtain ⟨out, s₁, h1, h⟩ := h
  obtain ⟨hl, -⟩ := linkNeighboursLocked_links (ctx_overflowCapacity_pos hM) hq hs ha hp hx hown h1
  obtain ⟨hr, hm, hout⟩ := linkNeighboursLocked_spec (ctx_overflowCapacity_pos hM) hq hs ha hp hx hown h1
  have hnode : Good s₁.toLevelStore (Insert.insert x V) node := by
    refine ⟨by simp [hx], by simp [hx], ?_⟩
    rw [hx, hr.ownerOf]
    exact hown
  have hout' : ∀ n ∈ out, Good s₁.toLevelStore (Insert.insert x V) n ∧ node.nid.ref ≠ n.nid.ref := fun n hn => by
    refine ⟨⟨.inr (hout n hn).mem, (hout n hn).outgoing, (hout n hn).owner⟩, fun he => ?_⟩
    rw [hx] at he
    exact ha.out ((show x = n.nid.ref from he) ▸ (hout n hn).mem)
  obtain ⟨hr', hm', ht⟩ := shrinkNeighbours_spec hM hr.quiet hr.chains hm hnode hout' h
  refine ⟨hr.trans hr', hm', fun hB => ht.backed ?_⟩
  -- the chain of the new node is empty
  refine hB.of_same hl.same hm (fun a hmem hne => hmem.resolve_left hne) fun _ n hn => ?_
  rw [hl.chained] at hn
  exact ((hp.names n.ref).mpr (.inr ⟨n, hn, rfl⟩)).elim

/-! ### Taking a node out -/

/-- Repairing an orphan: nothing to do for the first one of an empty pool; else its new
links are found from the pool, and whatever the pool has and links pass on, they have. -/
theorem repairOrphan_cases (hM : 0 < g.M) (hq : s.Quiet) (hs : s.Chains)
    (hm : Mutual (g.ctx level).maxNeighbours s.toLevelStore V) {unlinked out : List Node} {orphan : Node}
    (hu : ∀ n ∈ unlinked, Good s.toLevelStore V n ∧ n.nid.ref ≠ orphan.nid.ref) (ho : Good s.toLevelStore V orphan)
    (h : repairOrphan g level unlinked orphan s = (.ok out, s')) :
    out = unlinked ++ [orphan] ∧ (unlinked = [] ∧ s' = s ∨
      ∃ ns full K t, ns ≠ [] ∧ Replaced (g.ctx level) (g.ctx level).maxNeighbours s t V orphan.nid.ref ns full K ∧
        (∀ n ∈ full, Good t.toLevelStore V n ∧ orphan.nid.ref ≠ n.nid.ref) ∧
        (∀ P, LayerOperations.Reads g.layerGraph s P → (∀ n ∈ unlinked, P n) → ∀ n ∈ ns, P n) ∧
        shrinkNeighbours g level orphan full t = (.ok (), s')) := by
  rw [repairOrphan] at h
  split at h
  · rename_i he
    simp only [Prog.pure_apply, Prod.mk.injEq, Except.ok.injEq] at h
    obtain ⟨rfl, rfl⟩ := h
    rw [List.isEmpty_iff] at he
    exact ⟨by rw [he]; rfl, .inl ⟨he, rfl⟩⟩
  · rename_i hne
    obtain ⟨n, hn⟩ := List.exists_mem_of_ne_nil unlinked fun he => hne (by simp [he])
    obtain ⟨st, s₁, h1, h⟩ := Prog.bind_returns.mp h
    obtain ⟨⟨ns, pool⟩, s₂, h2, h⟩ := Prog.bind_returns.mp h
    have hns := h1
    rw [searchLayer, Prog.get_bind] at hns
    have hfound := LayerOperations.search_finds (reads_level hq hm) visible_layer hn (key_not_mem (hu n hn).2) hns
    have hne : ns ≠ [] := LayerOperations.consumeHeuristic_finds hM hfound h2
    have hpass : ∀ P, LayerOperations.Reads g.layerGraph s P → (∀ n ∈ unlinked, P n) → ∀ n ∈ ns, P n :=
      fun P hP hall n hn => by
        obtain ⟨rfl, hg⟩ := LayerOperations.search_spec hP hall hns
        obtain ⟨-, hsub, -⟩ := LayerOperations.consumeHeuristic_spec hP h2
        obtain ⟨c, hc, rfl⟩ := List.mem_map.mp (hsub.subset hn)
        exact (hg.good c (List.mem_append_left _ hc)).1
    obtain ⟨rfl, hg⟩ := searchLayer_spec hq hm (fun n hn => (hu n hn).1) h1
    obtain ⟨rfl, hp, hlen, -⟩ := consumeHeuristic_returns hq hm hg h2
    obtain ⟨full, s₃, h3, h⟩ := Prog.bind_returns.mp h
    have hgood := hp.good_sdiff ho.outgoing
    obtain ⟨K, hr⟩ := replaceNeighbours_replaced (ctx_overflowCapacity_pos hM) hq hs hm ho.mem
      (Good.nid_eq ho) ho.owner hgood hp.nodup (hlen.trans M_le_maxNeighbours) h3
    obtain ⟨_, s₄, h4, h⟩ := Prog.bind_returns.mp h
    simp only [Prog.pure_apply, Prod.mk.injEq, Except.ok.injEq] at h
    obtain ⟨rfl, rfl⟩ := h
    refine ⟨rfl, .inr ⟨ns, full, K, s₃, hne, hr, fun n hn => ?_, hpass, h4⟩⟩
    have hn := hgood n ((hr.reports n).mp hn).1
    exact ⟨⟨hn.mem.1, hn.outgoing, (hr.rewired.ownerOf _).trans hn.owner⟩, fun he => hn.mem.2 he.symm⟩

/-- Repairing one orphan keeps the level at rest and takes no node's last link; unless the
pool was empty the orphan is connected then. -/
theorem repairOrphan_spec (hM : 0 < g.M) (hq : s.Quiet) (hs : s.Chains)
    (hm : Mutual (g.ctx level).maxNeighbours s.toLevelStore V) {unlinked out : List Node} {orphan : Node}
    (hu : ∀ n ∈ unlinked, Good s.toLevelStore V n ∧ n.nid.ref ≠ orphan.nid.ref) (ho : Good s.toLevelStore V orphan)
    (h : repairOrphan g level unlinked orphan s = (.ok out, s')) :
    Rewired s s' ∧ Mutual (g.ctx level).maxNeighbours s'.toLevelStore V ∧ Tended V s s' ∧
      (unlinked ≠ [] → s'.links orphan.nid.ref ≠ []) := by
  obtain ⟨-, ⟨hnil, rfl⟩ | ⟨ns, full, K, t, hns, hr, hfull, -, hrun⟩⟩ := repairOrphan_cases hM hq hs hm hu ho h
  · exact ⟨.refl hq hs, hm, .refl V _, fun hne => absurd hnil hne⟩
  · obtain ⟨hr', hm', ht⟩ := shrinkNeighbours_spec hM hr.rewired.quiet hr.rewired.chains hr.atRest
      (ho.rewired hr.rewired) hfull hrun
    refine ⟨hr.rewired.trans hr', hm', (Tended.of_replaced hr hm ho.mem hns).trans ht, fun _ => ?_⟩
    exact ht.linked _ ho.mem fun he => hns (List.nil_perm.mp (he ▸ hr.links))

/-- The one node of a pool that has no link yet gets one from the next orphan. -/
theorem repairOrphan_seed (hM : 0 < g.M) (hq : s.Quiet) (hs : s.Chains)
    (hm : Mutual (g.ctx level).maxNeighbours s.toLevelStore V) (hB : Backed s.toLevelStore V) {out : List Node}
    {seed orphan : Node} (hseed : Good s.toLevelStore V seed) (ho : Good s.toLevelStore V orphan)
    (hne : seed.nid.ref ≠ orphan.nid.ref) (hnil : s.links seed.nid.ref = []) (hnil' : s.links orphan.nid.ref = [])
    (h : repairOrphan g level [seed] orphan s = (.ok out, s')) : s'.links seed.nid.ref ≠ [] := by
  obtain ⟨-, ⟨he, -⟩ | ⟨ns, full, K, t, hns, hr, hfull, hpass, hrun⟩⟩ := repairOrphan_cases hM hq hs hm
    (fun n hn => List.mem_singleton.mp hn ▸ ⟨hseed, hne⟩) ho h
  · exact absurd he (by simp)
  · -- a search from a node without links finds the node alone
    have hreads : LayerOperations.Reads g.layerGraph s (· = seed) := by
      refine { reads_level hq hm with neighbours := fun n ms t' hn hrun => ?_ }
      subst hn
      refine ⟨(neighbours_spec hq hm hseed.mem hrun).1, fun m hmem => ?_⟩
      change neighbours n s = _ at hrun
      rw [neighbours, Prog.bind_returns] at hrun
      obtain ⟨e, _, he, hrun⟩ := hrun
      rw [fetch_returns hq] at he
      obtain ⟨he, rfl⟩ := he
      simp only [Prog.pure_apply, Prod.mk.injEq, Except.ok.injEq] at hrun
      rw [links, slots_of_entry he] at hnil
      rw [← hrun.1, hnil] at hmem
      exact absurd hmem (by simp)
    obtain ⟨n, hn⟩ := List.exists_mem_of_ne_nil ns hns
    obtain rfl := hpass _ hreads (fun n hn => List.mem_singleton.mp hn) n hn
    have hroom : hasRoom (g.ctx level) (s.slots n.nid.ref) = true := by
      have hw := (hm.sound _ hseed.mem).width
      rw [hasRoom_iff hw]
      have hpos : 0 < (s.slots n.nid.ref).length := hw ▸ hM.trans_le M_le_maxNeighbours
      rcases ho : (s.slots n.nid.ref)[0] with _ | m
      · exact ho ▸ List.getElem_mem hpos
      · have : m ∈ s.links n.nid.ref := List.reduceOption_mem_iff.mpr (ho ▸ List.getElem_mem hpos)
        rw [hnil] at this
        exact absurd this (by simp)
    -- the chain of the orphan does not name the node, which would have a link then
    have hno : n.nid.ref ∉ s.names orphan.nid.ref := fun hmem => by
      rcases mem_names.mp hmem with ⟨m, hm', -⟩ | ⟨m, hm', hmr⟩
      · rw [hnil'] at hm'
        exact absurd hm' (by simp)
      · obtain ⟨k, hk, -⟩ := hB _ ho.mem m hm'
        rw [hmr, hnil] at hk
        exact absurd hk (by simp)
    obtain ⟨m, hm', -⟩ := hr.landed n hn hno hroom
    obtain ⟨-, -, ht⟩ := shrinkNeighbours_spec hM hr.rewired.quiet hr.rewired.chains hr.atRest
      (ho.rewired hr.rewired) hfull hrun
    exact ht.linked _ hseed.mem (List.ne_nil_of_mem hm')

/-- Repairing the orphans one after the other. -/
theorem repairOrphans_spec (hM : 0 < g.M) : ∀ {orphaned unlinked out : List Node} {s s' : LevelState}, s.Quiet →
    s.Chains → Mutual (g.ctx level).maxNeighbours s.toLevelStore V →
    (∀ n ∈ unlinked ++ orphaned, Good s.toLevelStore V n) →
    ((unlinked ++ orphaned).map fun n => n.nid.ref).Nodup →
    orphaned.foldlM (repairOrphan g level) unlinked s = (.ok out, s') →
    out = unlinked ++ orphaned ∧ Rewired s s' ∧ Mutual (g.ctx level).maxNeighbours s'.toLevelStore V ∧
      Tended V s s' ∧ (unlinked ≠ [] → ∀ n ∈ orphaned, s'.links n.nid.ref ≠ [])
  | [], unlinked, out, s, s', hq, hs, hm, _, _, h => by
    simp only [List.foldlM_nil, Prog.pure_apply, Prod.mk.injEq, Except.ok.injEq] at h
    obtain ⟨rfl, rfl⟩ := h
    exact ⟨(List.append_nil _).symm, .refl hq hs, hm, .refl V _, by simp⟩
  | o :: orphaned, unlinked, out, s, s', hq, hs, hm, hgood, hnd, h => by
    rw [List.foldlM_cons, Prog.bind_returns] at h
    obtain ⟨pool, s₁, h1, h2⟩ := h
    have ho : Good s.toLevelStore V o := hgood o (by simp)
    have hu : ∀ n ∈ unlinked, Good s.toLevelStore V n ∧ n.nid.ref ≠ o.nid.ref := fun n hn => by
      rw [List.map_append, List.nodup_append] at hnd
      exact ⟨hgood n (by simp [hn]), hnd.2.2 _ (List.mem_map_of_mem hn) _ (by simp)⟩
    obtain ⟨rfl, -⟩ := repairOrphan_cases hM hq hs hm hu ho h1
    obtain ⟨hr₁, hm₁, ht₁, hlink₁⟩ := repairOrphan_spec hM hq hs hm hu ho h1
    obtain ⟨rfl, hr, hm', ht, hlinks⟩ := repairOrphans_spec hM hr₁.quiet hr₁.chains hm₁
      (fun n hn => (hgood n (by simpa using hn)).rewired hr₁) (by simpa using hnd) h2
    refine ⟨by simp, hr₁.trans hr, hm', ht₁.trans ht, fun hne n hn => ?_⟩
    rcases List.mem_cons.mp hn with rfl | hn
    · exact ht.linked _ ho.mem (hlink₁ hne)
    · exact hlinks (by simp) n hn

/-- Afterwards every orphan has a link, unless there was one only and no other node to link it to. -/
theorem repairOrphans_linked (hM : 0 < g.M) (hq : s.Quiet) (hs : s.Chains)
    (hm : Mutual (g.ctx level).maxNeighbours s.toLevelStore V) (hB : Backed s.toLevelStore V)
    {orphaned unlinked out : List Node} (hgood : ∀ n ∈ unlinked ++ orphaned, Good s.toLevelStore V n)
    (hnd : ((unlinked ++ orphaned).map fun n => n.nid.ref).Nodup) (hnil : ∀ n ∈ orphaned, s.links n.nid.ref = [])
    (hmore : unlinked ≠ [] ∨ 1 < orphaned.length)
    (h : orphaned.foldlM (repairOrphan g level) unlinked s = (.ok out, s')) :
    ∀ n ∈ orphaned, s'.links n.nid.ref ≠ [] := by
  by_cases hu : unlinked = []
  · subst hu
    obtain ⟨o₁, o₂, rest, rfl⟩ : ∃ o₁ o₂ rest, orphaned = o₁ :: o₂ :: rest := by
      rcases orphaned with _ | ⟨o₁, _ | ⟨o₂, rest⟩⟩
      · simp at hmore
      · simp at hmore
      · exact ⟨o₁, o₂, rest, rfl⟩
    rw [List.foldlM_cons, Prog.bind_returns] at h
    obtain ⟨pool, s₁, h1, h⟩ := h
    have ho₁ := hgood o₁ (by simp)
    have ho₂ := hgood o₂ (by simp)
    obtain ⟨rfl, hsame⟩ := repairOrphan_cases hM hq hs hm (by simp) ho₁ h1
    obtain rfl : s₁ = s := by
      rw [repairOrphan] at h1
      simpa [eq_comm] using h1
    rw [List.foldlM_cons, Prog.bind_returns] at h
    obtain ⟨pool, s₂, h2, h⟩ := h
    have hne : o₁.nid.ref ≠ o₂.nid.ref := fun he => by simp [he] at hnd
    have hseed : ∀ n ∈ ([] ++ [o₁] : List Node), Good s₁.toLevelStore V n ∧ n.nid.ref ≠ o₂.nid.ref := fun n hn =>
      List.mem_singleton.mp hn ▸ ⟨ho₁, hne⟩
    obtain ⟨rfl, -⟩ := repairOrphan_cases hM hq hs hm hseed ho₂ h2
    obtain ⟨hr₂, hm₂, -, hlink₂⟩ := repairOrphan_spec hM hq hs hm hseed ho₂ h2
    have hlink₁ := repairOrphan_seed hM hq hs hm hB ho₁ ho₂ hne (hnil o₁ (by simp)) (hnil o₂ (by simp)) h2
    obtain ⟨-, -, -, ht, hlinks⟩ := repairOrphans_spec hM hr₂.quiet hr₂.chains hm₂
      (fun n hn => (hgood n (by simpa using hn)).rewired hr₂) (by simpa using hnd) h
    intro n hn
    rcases List.mem_cons.mp hn with rfl | hn
    · exact ht.linked _ ho₁.mem hlink₁
    · rcases List.mem_cons.mp hn with rfl | hn
      · exact ht.linked _ ho₂.mem (hlink₂ (by simp))
      · exact hlinks (by simp) n hn
  · exact (repairOrphans_spec hM hq hs hm hgood hnd h).2.2.2.2 hu

/-- The orphans are read back from the record of the node that was taken out. -/
theorem incomingNeighbours_unlinked {c : LevelCtx} (hm : Mutual w s.toLevelStore V) (hxV : x ∈ V) {current : Node}
    (hx : current.nid = ⟨x, false⟩) {unlinked : List Node} (hu : Unlinked c w s s' V x unlinked) :
    incomingNeighbours current s' =
      (.ok (((s.names x).filter fun b => orphaned x s.toLevelStore b).map (nodeAt s.toLevelStore)), s') := by
  have hsound := hm.sound x hxV
  rw [incomingNeighbours_eq hu.rewired.quiet hu.rewired.chains hx ((hu.rewired.live_iff x).mpr hsound.live)
    (fun n hn => ?_) fun n hn => ?_, hu.names, funext hu.same.nodeAt_eq]
  · obtain ⟨m, hm', rfl⟩ := List.mem_map.mp (List.mem_of_mem_filter (hu.links ▸ hn))
    exact ⟨rfl, (hu.rewired.ownerOf _).trans (hsound.owner m hm')⟩
  · rw [hu.chained] at hn
    have hV := (hm.symm x hxV _ (mem_names_of_chained (List.mem_of_mem_filter hn))).1
    exact (hu.rewired.live_iff _).mpr (hm.sound _ hV).live

/-- The neighbours of a node that is taken out: those reported and the orphans. -/
theorem unlinked_good {c : LevelCtx} (hm : Mutual w s.toLevelStore V) (hxV : x ∈ V) {unlinked : List Node}
    (hu : Unlinked c w s s' V x unlinked) {orphans : List Node}
    (ho : orphans = ((s.names x).filter fun b => orphaned x s.toLevelStore b).map (nodeAt s.toLevelStore)) :
    (∀ n ∈ unlinked ++ orphans, Good s'.toLevelStore (V \ {x}) n) ∧
      ((unlinked ++ orphans).map fun n => n.nid.ref).Nodup ∧ ∀ n ∈ orphans, s'.links n.nid.ref = [] := by
  have hsound := hm.sound x hxV
  have hnode (b : ℕ) (hb : b ∈ s.names x) : Good s'.toLevelStore (V \ {x}) (nodeAt s.toLevelStore b) := by
    obtain ⟨hV, -⟩ := hm.symm x hxV b hb
    obtain ⟨e, he⟩ := (hm.sound b hV).live.exists_entry
    refine ⟨⟨hV, fun he => hsound.irrefl (he ▸ hb)⟩, rfl, (hu.rewired.ownerOf _).trans ?_⟩
    simp [nodeAt, ownerOf_of_entry he]
  have hrefs (bs : List ℕ) : (bs.map (nodeAt s.toLevelStore)).map (fun n => n.nid.ref) = bs :=
    (List.map_map.trans (List.map_congr_left fun _ _ => rfl)).trans (List.map_id bs)
  have hsub := List.take_sublist c.maxNeighbours
    (((s.names x).filter fun b => !orphaned x s.toLevelStore b).map (nodeAt s.toLevelStore))
  rw [← hu.reports] at hsub
  have hrefsub := hsub.map fun n => n.nid.ref
  rw [hrefs] at hrefsub
  refine ⟨fun n hn => ?_, ?_, fun n hn => ?_⟩
  · rcases List.mem_append.mp hn with hn | hn
    · obtain ⟨b, hb, rfl⟩ := List.mem_map.mp (hsub.subset hn)
      exact hnode b (List.mem_of_mem_filter hb)
    · obtain ⟨b, hb, rfl⟩ := List.mem_map.mp (ho ▸ hn)
      exact hnode b (List.mem_of_mem_filter hb)
  · rw [List.map_append, ho, hrefs, List.nodup_append]
    refine ⟨(hsound.nodup.filter _).sublist hrefsub, hsound.nodup.filter _, fun a ha b hb hab => ?_⟩
    have h1 := (List.mem_filter.mp (hrefsub.subset ha)).2
    rw [hab, (List.mem_filter.mp hb).2] at h1
    exact absurd h1 (by simp)
  · obtain ⟨b, hb, rfl⟩ := List.mem_map.mp (ho ▸ hn)
    obtain ⟨hb, hb'⟩ := List.mem_filter.mp hb
    have hV := (hnode b hb).mem
    have hp : (s'.links b).Perm (otherLinks x s.toLevelStore b) := (hu.kept hV.1 hV.2 (hm.sound b hV.1).live).1
    rw [List.isEmpty_iff.mp hb'] at hp
    exact hp.eq_nil

/-- A node is taken out of a level: nothing names it any more, and the nodes
reported are of the level still. If it named any node, one is reported. A node that
had a link has one still, unless it was the only one to name the node taken out. -/
theorem severNode_spec (hM : 0 < g.M) (hq : s.Quiet) (hs : s.Chains)
    (hm : Mutual (g.ctx level).maxNeighbours s.toLevelStore V) (hxV : x ∈ V) {current : Node}
    (hx : current.nid = ⟨x, false⟩) {out : List Node}
    (h : severNode g level current s = (.ok out, s')) :
    Rewired s s' ∧ Mutual (g.ctx level).maxNeighbours s'.toLevelStore (V \ {x}) ∧
      (∀ n ∈ out, Good s'.toLevelStore (V \ {x}) n) ∧ (s.names x ≠ [] → out ≠ []) ∧
      (Backed s.toLevelStore V → Backed s'.toLevelStore (V \ {x}) ∧
        ∀ a ∈ V, a ≠ x → s.links a ≠ [] → s'.links a ≠ [] ∨ s.names x = [a]) := by
  rw [severNode, Prog.bind_returns] at h
  obtain ⟨unlinked, s₁, h1, h⟩ := h
  have hu := unlinkNeighbours_unlinked hq hs hm hxV hx h1
  obtain ⟨orphans, s₂, h2, h⟩ := Prog.bind_returns.mp h
  rw [incomingNeighbours_unlinked hm hxV hx hu, Prod.mk.injEq, Except.ok.injEq] at h2
  obtain ⟨ho, rfl⟩ := h2
  obtain ⟨hgood, hnd, hnil⟩ := unlinked_good hm hxV hu ho.symm
  obtain ⟨rfl, hr, hm', ht, -⟩ := repairOrphans_spec hM hu.rewired.quiet hu.rewired.chains hu.atRest hgood hnd h
  -- with room for a report, none means that every neighbour is an orphan
  have hall : unlinked = [] → orphans = (s.names x).map (nodeAt s.toLevelStore) := fun hn => by
    have h0 := (List.take_eq_nil_iff.mp (hu.reports.symm.trans hn)).resolve_left (hM.trans_le M_le_maxNeighbours).ne'
    rw [List.map_eq_nil_iff, List.filter_eq_nil_iff] at h0
    rw [← ho, List.filter_eq_self.mpr fun b hb => by simpa using h0 b hb]
  refine ⟨hu.rewired.trans hr, hm', fun n hn => (hgood n hn).rewired hr, fun hne he => ?_, fun hB => ?_⟩
  · obtain ⟨h1, h2⟩ := List.append_eq_nil_iff.mp he
    exact hne (List.map_eq_nil_iff.mp ((hall h1).symm.trans h2))
  · have hB₁ : Backed s₁.toLevelStore (V \ {x}) :=
      hB.of_same hu.same hu.atRest (fun a ha _ => ha.1) fun h' => absurd rfl h'.2
    refine ⟨ht.backed hB₁, fun a ha hax hl => ?_⟩
    have hkept := (hu.kept ha hax (hm.sound a ha).live).1
    by_cases h0 : s₁.links a = []
    · -- its links all led to `x`, so it is an orphan
      rw [h0] at hkept
      have horph : otherLinks x s.toLevelStore a = [] := hkept.nil_eq.symm
      obtain ⟨n, hn⟩ := List.exists_mem_of_ne_nil _ hl
      have hnx : n.nid.ref = x := by
        by_contra hnx
        exact List.ne_nil_of_mem (List.mem_filter.mpr ⟨hn, decide_eq_true hnx⟩) horph
      have hax' : a ∈ s.names x := (hm.symm a ha x (hnx ▸ mem_names_of_link hn)).2
      have hmem : nodeAt s.toLevelStore a ∈ orphans :=
        ho ▸ List.mem_map_of_mem (List.mem_filter.mpr ⟨hax', List.isEmpty_iff.mpr horph⟩)
      by_cases hmore : unlinked ≠ [] ∨ 1 < orphans.length
      · exact .inl (repairOrphans_linked hM hu.rewired.quiet hu.rewired.chains hu.atRest hB₁ hgood hnd hnil hmore h _ hmem)
      · rw [not_or, not_not, not_lt] at hmore
        have hlen : (s.names x).length ≤ 1 := by
          rw [← List.length_map (nodeAt s.toLevelStore), ← hall hmore.1]
          exact hmore.2
        obtain ⟨b, hb⟩ := List.length_eq_one_iff.mp (le_antisymm hlen (List.length_pos_of_mem hax'))
        rw [hb] at hax' ⊢
        rw [List.mem_singleton.mp hax']
        exact .inr rfl
    · exact .inl (ht.linked a ⟨ha, hax⟩ h0)

end GraphOperations
end Hnsw
end VsqlVector
