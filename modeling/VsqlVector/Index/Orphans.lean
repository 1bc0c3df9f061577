/-
# What a remove leaves of the other nodes' links

A remove severs the links to the vector's nodes and repairs the neighbours that
are left without a link of their own. After an orderly history no other node is
without a link afterwards that had one before, but for a node that alone named
the vector's (`remove_keeps_linked`). The code asserts that a repair always
selects a neighbour; the run that checks this is the run that does not.

Key definitions: `GraphOperations.removeChecked`, `HasLink`.
Key theorem: `remove_keeps_linked`.
-/
import VsqlVector.Index.Safety

namespace VsqlVector
namespace Hnsw

open LevelStore LevelProg IndexGraph GraphProg

variable {Data Dist : Type}

/-! ### The assertion -/

namespace GraphOperations

section Checked

variable (g : IndexGraph Data Dist)

def assertFailed : StorageError := ⟨"!new_neighbours.empty()", true⟩

/-- `repairOrphan` with its assertion. -/
def repairOrphanChecked (level : ℕ) (unlinked : List Node) (orphan : Node) : LevelProg (List Node) :=
  if unlinked.isEmpty then pure [orphan]
  else do
    let layer ← searchLayer g (.node orphan) unlinked g.efConstruction
    let (newNeighbours, _) ← consumeHeuristic g (.node orphan) g.M layer
    if newNeighbours.isEmpty then Prog.fail assertFailed
    else do
      let overflowed ← replaceNeighbours (g.ctx level) orphan newNeighbours
      shrinkNeighbours g level orphan overflowed
      pure (unlinked ++ [orphan])

def severNodeChecked (level : ℕ) (current : Node) : LevelProg (List Node) := do
  let unlinked ← unlinkNeighbours (g.ctx level) current
  let orphaned ← incomingNeighbours current
  orphaned.foldlM (repairOrphanChecked g level) unlinked

def severTowerChecked : ℕ → Node → Option (Node × ℕ) →
    GraphProg (List (Node × ℕ) × Option (Node × ℕ))
  | 0, current, replacement => do
    let unlinked ← atLevel 0 (severNodeChecked g 0 current)
    pure ([(current, 0)], replacement.or (unlinked.head?.map fun n => (n, 0)))
  | level + 1, current, replacement => do
    let unlinked ← atLevel (level + 1) (severNodeChecked g (level + 1) current)
    let next ← atLevel (level + 1) (getNextLevelNode current)
    let (nodes, replacement) ← severTowerChecked level next
      (replacement.or (unlinked.head?.map fun n => (n, level + 1)))
    pure (nodes ++ [(current, level + 1)], replacement)

/-- `remove` with its assertion. -/
def removeChecked (target : Node) (targetLevel : ℕ) : GraphProg Unit := do
  let (entryPoints, entryLevel) ← getEntryPoint
  let newEntryPoint := decide (targetLevel = entryLevel) &&
    (entryPoints.map Node.key == [target.key])
  let (nodes, replacement) ← severTowerChecked g targetLevel target none
  dropTower g nodes
  if newEntryPoint then setEntryPoint (replacement.map Prod.fst) ((replacement.map Prod.snd).getD 0)
  else pure ()

end Checked

variable {g : IndexGraph Data Dist} {level x : ℕ} {V : Set ℕ}

/-- A search from a pool without the orphan finds a node, and the nearest one is selected. -/
theorem repairOrphanChecked_eq (hM : 0 < g.M) {s : LevelState} (hq : s.Quiet)
    (hm : Mutual (g.ctx level).maxNeighbours s.toLevelStore V) {unlinked : List Node} {orphan : Node}
    (hu : ∀ n ∈ unlinked, n.nid.ref ≠ orphan.nid.ref) :
    repairOrphanChecked g level unlinked orphan s = repairOrphan g level unlinked orphan s := by
  rw [repairOrphanChecked, repairOrphan]
  split
  · rfl
  · rename_i hne
    obtain ⟨n, hn⟩ := List.exists_mem_of_ne_nil unlinked fun he => hne (by simp [he])
    refine Prog.bind_congr fun st s₁ h1 => Prog.bind_congr fun r s₂ h2 => ?_
    obtain ⟨ns, pool⟩ := r
    rw [searchLayer, Prog.get_bind] at h1
    have hfound := LayerOperations.search_finds (reads_level hq hm) visible_layer hn (key_not_mem (hu n hn)) h1
    have hns : ns ≠ [] := LayerOperations.consumeHeuristic_finds hM hfound h2
    simp [hns]

theorem severNodeChecked_eq (hM : 0 < g.M) {s : LevelState} (hq : s.Quiet) (hs : s.Chains)
    (hm : Mutual (g.ctx level).maxNeighbours s.toLevelStore V) (hxV : x ∈ V) {current : Node}
    (hx : current.nid = ⟨x, false⟩) : severNodeChecked g level current s = severNode g level current s := by
  rw [severNodeChecked, severNode]
  refine Prog.bind_congr fun unlinked s₁ h1 => Prog.bind_congr fun orphans s₂ h2 => ?_
  have hu := unlinkNeighbours_unlinked hq hs hm hxV hx h1
  rw [incomingNeighbours_unlinked hm hxV hx hu, Prod.mk.injEq, Except.ok.injEq] at h2
  obtain ⟨ho, rfl⟩ := h2
  obtain ⟨hgood, hnd, -⟩ := unlinked_good hm hxV hu ho.symm
  -- the pool and the orphans to come are different nodes all the way
  refine Prog.foldlM_congr (fun rest pool t => Rewired s₁ t ∧
    Mutual (g.ctx level).maxNeighbours t.toLevelStore (V \ {x}) ∧
      (∀ n ∈ pool ++ rest, Good s₁.toLevelStore (V \ {x}) n) ∧ ((pool ++ rest).map fun n => n.nid.ref).Nodup)
    (fun o rest pool t hinv => ?_) ⟨.refl hu.rewired.quiet hu.rewired.chains, hu.atRest, hgood, hnd⟩
  obtain ⟨hr, hm, hgood, hnd⟩ := hinv
  have hpool : ∀ n ∈ pool, Good t.toLevelStore (V \ {x}) n ∧ n.nid.ref ≠ o.nid.ref := fun n hn => by
    rw [List.map_append, List.nodup_append] at hnd
    exact ⟨(hgood n (by simp [hn])).rewired hr, hnd.2.2 _ (List.mem_map_of_mem hn) _ (by simp)⟩
  have heq := repairOrphanChecked_eq hM hr.quiet hm fun n hn => (hpool n hn).2
  refine ⟨heq, fun pool' t' hrun => ?_⟩
  rw [heq] at hrun
  have ho := (hgood o (by simp)).rewired hr
  obtain ⟨rfl, -⟩ := repairOrphan_cases hM hr.quiet hr.chains hm hpool ho hrun
  obtain ⟨hr', hm', -⟩ := repairOrphan_spec hM hr.quiet hr.chains hm hpool ho hrun
  exact ⟨hr.trans hr', hm', fun n hn => hgood n (by simpa using hn), by simpa using hnd⟩

theorem atLevel_congr {α : Type} {l : ℕ} {p q : LevelProg α} {s : GraphState} (h : p (s.view l) = q (s.view l)) :
    atLevel l p s = atLevel l q s := by
  rw [atLevel, atLevel]
  rcases hl : s.levels[l]? with _ | store
  · rfl
  · have hview : s.view l = ⟨store, s.toSupply⟩ := by simp [GraphState.view, GraphState.level, hl]
    simp only [← hview, h]

theorem severTowerChecked_eq (hM : 0 < g.M) {X : ℕ → ℕ} {vid : ℕ} : ∀ {level : ℕ} {r : Option (Node × ℕ)}
    {s : GraphState}, s.Quiet → (∀ k, (s.level k).Chains) →
    (∀ k ≤ level, Mutual (g.ctx k).maxNeighbours (s.level k) (s.live k)) → (∀ k ≤ level, X k ∈ s.live k) →
    (∀ k, 0 < k → k ≤ level → (s.bone k (X k)).bind Bone.lowerLevel = some ⟨X (k - 1), false⟩) →
    severTowerChecked g level ⟨⟨X level, false⟩, vid⟩ r s = severTower g level ⟨⟨X level, false⟩, vid⟩ r s
  | 0, r, s, hq, hc, hm, hX, _ => by
    rw [severTowerChecked, severTower, Prog.bind_apply, Prog.bind_apply,
      atLevel_congr (severNodeChecked_eq (s := s.view 0) hM hq (hc 0) (hm 0 (le_refl _)) (hX 0 (le_refl _)) rfl)]
  | level + 1, r, s, hq, hc, hm, hX, hlow => by
    rw [severTowerChecked, severTower, Prog.bind_apply, Prog.bind_apply,
      atLevel_congr (severNodeChecked_eq (s := s.view (level + 1)) hM hq (hc _) (hm _ (le_refl _))
        (hX _ (le_refl _)) rfl)]
    rcases h1 : atLevel (level + 1) (severNode g (level + 1) ⟨⟨X (level + 1), false⟩, vid⟩) s with ⟨e | out, s₁⟩
    · rfl
    · obtain ⟨hq₁, -, hsev, -, -, hother⟩ :=
        severAt_spec hM hq (hc _) (hm _ (le_refl _)) (hX _ (le_refl _)) rfl h1
      have hlev : ∀ k ≤ level, s₁.level k = s.level k := fun k hk => hother k (by omega)
      have hlive : ∀ k ≤ level, s₁.live k = s.live k := fun k hk => by
        rw [GraphState.live, GraphState.live, hlev k hk]
      refine Prog.bind_congr fun next s₂ h2 => ?_
      obtain ⟨b, hb, hbl⟩ := Option.bind_eq_some_iff.mp (hlow (level + 1) (by omega) (le_refl _))
      have hb₁ : (s₁.view (level + 1)).bone (X (level + 1)) = some b := (hsev.bone _).trans hb
      obtain ⟨rfl, hrun⟩ := atLevel_read h2 fun t ht =>
        (getNextLevelNode_spec (t := s₁.view (level + 1)) hq₁ hb₁ hbl ht).1
      obtain ⟨-, rfl⟩ := getNextLevelNode_spec (t := s₁.view (level + 1)) hq₁ hb₁ hbl hrun
      rw [Nat.add_sub_cancel, Prog.bind_apply, Prog.bind_apply]
      rw [severTowerChecked_eq hM hq₁ (fun k => ?_)
        (fun k hk => by rw [hlev k hk, hlive k hk]; exact hm k (by omega))
        (fun k hk => by rw [hlive k hk]; exact hX k (by omega))
        (fun k h0 hk => by rw [GraphState.bone, hlev k hk]; exact hlow k h0 (by omega))]
      by_cases hk : k = level + 1
      · rw [hk]
        exact hsev.chains
      · rw [hother k hk]
        exact hc k

/-- The assertion holds on every level of a tower that is taken out. -/
theorem removeChecked_eq (hM : 0 < g.M) {s : GraphState} (hs : Resting g.M s) (hq : s.Quiet) {vid trx L a : ℕ}
    (ht : IsTower s.bone vid trx L a) :
    removeChecked g ⟨⟨a, false⟩, vid⟩ L s = remove g ⟨⟨a, false⟩, vid⟩ L s := by
  rw [removeChecked, remove]
  refine Prog.bind_congr fun r s₁ h1 => ?_
  obtain ⟨entry, E⟩ := r
  simp only [getEntryPoint, Prog.get_bind, Prog.pure_apply, Prod.mk.injEq] at h1
  obtain ⟨-, rfl⟩ := h1
  have heq : severTowerChecked g L ⟨⟨tower s.bone L a L, false⟩, vid⟩ none s =
      severTower g L ⟨⟨tower s.bone L a L, false⟩, vid⟩ none s :=
    severTowerChecked_eq hM hq hs.chains (fun k _ => hs.names k) (fun k hk => by
      obtain ⟨b, hb, -⟩ := ht k hk
      rw [GraphState.mem_live_iff, hb]
      rfl) fun k h0 hk => ht.lower h0 hk
  rw [tower_top] at heq
  dsimp only
  rw [Prog.bind_apply, Prog.bind_apply, heq]

end GraphOperations

/-! ### Links -/

open GraphOperations

/-- A node has an outgoing link to a record. -/
def HasLink (s : LevelStore) (a : ℕ) : Prop := ∃ n ∈ s.links a, n.nid.incoming = false ∧ s.Live n.nid.ref

variable {ix : Index Data Dist} {M efc : ℕ} {S : System} {h : Handle}

/-- **A remove takes no node's last link**, but for a node that alone named the vector's
node at a level: the repair connects the others. Its assertion never fails. -/
theorem remove_keeps_linked (hM : 0 < M) (hS : Reaches System.Fresh (System.Step ix M efc Orderly) S)
    (hh : h ∈ S.handles) {supply : Supply} (hq : supply.outcomes = []) :
    removeChecked ⟨ix, M, efc, h.stamp⟩ h.node h.level { S.graph with toSupply := supply } =
        remove ⟨ix, M, efc, h.stamp⟩ h.node h.level { S.graph with toSupply := supply } ∧
      ∀ g', remove ⟨ix, M, efc, h.stamp⟩ h.node h.level { S.graph with toSupply := supply } = (.ok (), g') →
        ∀ k ≤ h.level, ∀ a, (g'.level k).Live a → (∃ n ∈ (S.graph.level k).links a, n.nid.incoming = false) →
          HasLink (g'.level k) a ∨ ∀ b, h.refAt S.graph k ∈ (S.graph.level k).names b ↔ b = a := by
  have hu := (reaches_upright hM (fun _ _ _ h => h) hS).graph_supply supply
  have hst := hu.standing h hh
  have hnode : h.node = ⟨⟨h.node.nid.ref, false⟩, h.node.vid⟩ := by rw [← hst.1]
  refine ⟨?_, fun g' hrun k hk a ha ⟨n, hn, _⟩ => ?_⟩
  · rw [hnode]
    exact removeChecked_eq (s := { S.graph with toSupply := supply }) hM hu.resting hq hst.2
  · obtain ⟨hu', hsh, -⟩ := hu.remove hM hq hh hrun
    obtain ⟨halive, hax⟩ := (hsh.live k a).mp ha
    rcases hsh.linked hu.backed k hk a halive (hax hk) (List.ne_nil_of_mem hn) with hl | hone
    · obtain ⟨m, hm⟩ := List.exists_mem_of_ne_nil _ hl
      exact .inl ⟨m, hm, ((hu'.names k).sound a ha).outgoing m hm,
        ((hu'.names k).symm a ha _ (mem_names_of_link hm)).1⟩
    · refine .inr fun b => ?_
      have hback : h.refAt S.graph k ∈ (S.graph.level k).names b ↔ b ∈ (S.graph.level k).names (h.refAt S.graph k) :=
        (hu.names k).wellLinked.symm b _
      have hone' : (S.graph.level k).names (h.refAt S.graph k) = [a] := hone
      rw [hback, hone', List.mem_singleton]

/-- Three vectors on a line: the outer ones are linked to the middle one only. -/
def inLine : List (Call ℕ × Supply) := [addAt 0 0 [10], addAt 1 0 [20], addAt 2 0 [30]]

def inLinePoints : List (ℤ × ℤ) := [(0, 0), (1, 0), (2, 0)]

/-- The handle of the middle vector. -/
def middle : Handle := ⟨⟨⟨20, false⟩, 1⟩, 0, 1⟩

theorem reaches_inLine {S : System}
    (h : System.play (pointIndex inLinePoints) 2 2 ⟨GraphState.create, []⟩ inLine = some S) :
    Reaches System.Fresh (System.Step (pointIndex inLinePoints) 2 2 Orderly) S :=
  System.reaches_play (by
    simp only [inLine, addAt, List.mem_cons, List.not_mem_nil, or_false, forall_eq_or_imp, forall_eq]
    simp [Orderly]) (.init rfl) h

theorem remove_keeps_linked_inLine : ∃ S g', Reaches System.Fresh
    (System.Step (pointIndex inLinePoints) 2 2 Orderly) S ∧
    remove ⟨pointIndex inLinePoints, 2, 2, 1⟩ middle.node 0 { S.graph with toSupply := ⟨[], []⟩ } = (.ok (), g') ∧
    HasLink (g'.level 0) 10 := by
  have hplay : (System.play (pointIndex inLinePoints) 2 2 ⟨GraphState.create, []⟩ inLine).any (fun S =>
      decide (middle ∈ S.handles) && decide (∃ n ∈ (S.graph.level 0).links 10, n.nid.incoming = false) &&
        decide (middle.refAt S.graph 0 ∈ (S.graph.level 0).names 30) &&
        match remove ⟨pointIndex inLinePoints, 2, 2, 1⟩ middle.node 0 { S.graph with toSupply := ⟨[], []⟩ } with
        | (.ok _, g') => decide ((g'.level 0).Live 10)
        | (.error _, _) => false) = true := by decide +kernel
  obtain ⟨S, hS, hp⟩ := Option.any_eq_true _ _ |>.mp hplay
  simp only [Bool.and_eq_true, decide_eq_true_eq] at hp
  obtain ⟨⟨⟨hh, hlink⟩, hnames⟩, hp⟩ := hp
  split at hp
  · rename_i g' hrun
    have hr := reaches_inLine hS
    have hq : (⟨[], []⟩ : Supply).outcomes = [] := rfl
    obtain ⟨-, hrest⟩ := remove_keeps_linked (h := middle) (by decide) hr hh hq
    refine ⟨S, g', hr, hrun, (hrest g' hrun 0 (le_refl _) 10 (of_decide_eq_true hp) hlink).resolve_right fun hone => ?_⟩
    exact absurd ((hone 30).mp hnames) (by decide)
  · exact absurd hp (by simp)

/-- If the record of one of the outer vectors cannot be read, neither has a link to a
record after the remove of the middle one, which returns. -/
theorem remove_leaves_unlinked : ∃ S g', Reaches System.Fresh
    (System.Step (pointIndex inLinePoints) 2 2 Orderly) S ∧ middle ∈ S.handles ∧
    remove ⟨pointIndex inLinePoints, 2, 2, 1⟩ middle.node 0 { S.graph with toSupply := thirdUnread } = (.ok (), g') ∧
    ∀ a ∈ [10, 30], (g'.level 0).Live a ∧ (∃ n ∈ (S.graph.level 0).links a, n.nid.incoming = false) ∧
      middle.refAt S.graph 0 ∈ (S.graph.level 0).names a ∧ ¬ HasLink (g'.level 0) a := by
  have hplay : (System.play (pointIndex inLinePoints) 2 2 ⟨GraphState.create, []⟩ inLine).any (fun S =>
      decide (middle ∈ S.handles) &&
        match remove ⟨pointIndex inLinePoints, 2, 2, 1⟩ middle.node 0 { S.graph with toSupply := thirdUnread } with
        | (.ok _, g') => decide (∀ a ∈ [10, 30], (g'.level 0).Live a ∧
            (∃ n ∈ (S.graph.level 0).links a, n.nid.incoming = false) ∧
            middle.refAt S.graph 0 ∈ (S.graph.level 0).names a ∧
            ∀ n ∈ (g'.level 0).links a, ¬ (n.nid.incoming = false ∧ (g'.level 0).Live n.nid.ref))
        | (.error _, _) => false) = true := by decide +kernel
  obtain ⟨S, hS, hp⟩ := Option.any_eq_true _ _ |>.mp hplay
  simp only [Bool.and_eq_true, decide_eq_true_eq] at hp
  obtain ⟨hh, hp⟩ := hp
  split at hp
  · rename_i g' hrun
    refine ⟨S, g', reaches_inLine hS, hh, hrun, fun a ha => ?_⟩
    obtain ⟨h1, h2, h3, h4⟩ := of_decide_eq_true hp a ha
    exact ⟨h1, h2, h3, fun ⟨n, hn, hno⟩ => h4 n hn hno⟩
  · exact absurd hp (by simp)

end Hnsw
end VsqlVector
