/-
# Searches of an index that calls have failed on

An index that has its footing can be searched when storage is well: a search
goes down from the entry point over records that stand, ends at every level in
as many turns as the level has records, and returns up to `k` records of level 0,
each once and nearest first (`Sturdy.searchKnn_answers`). So nothing that failed
before has to be undone first (`search_answers`).

Key definition: `Sturdy`.
Key theorem: `search_answers`.
-/
import VsqlVector.Index.Trials

namespace VsqlVector
namespace Hnsw

open LevelStore LevelProg Prog IndexGraph GraphProg GraphOperations

variable {Data Dist : Type} {g : IndexGraph Data Dist} {s : GraphState} {l : ℕ}

/-- Storage is well, the server resolves the vectors of the records, and the entry
point and the links have their footing. -/
structure Sturdy (g : IndexGraph Data Dist) (s : GraphState) : Prop where
  quiet : s.Quiet
  footing : Footing ∅ s
  plain : PlainEntry s
  server : ∀ l a x, s.skeleton l a = some x → (g.index.getKeyData x.1).isSome

/-- An outgoing link to a record that stands. -/
def Firmly (s : GraphState) (l : ℕ) (n : Node) : Prop := n.nid.incoming = false ∧ Rooted s l n.nid.ref n.vid

theorem RootedBut.stands {a vid : ℕ} (h : RootedBut ∅ s l a vid) : Rooted s l a vid := h.resolve_left fun h => h.elim

/-- The level of a record that stands is there. -/
theorem Rooted.level_view {a vid : ℕ} (h : Rooted s l a vid) : ∃ store, s.levels[l]? = some store ∧
    s.view l = ⟨store, s.toSupply⟩ := by
  obtain ⟨low, hlow⟩ := h.record
  rcases hl : s.levels[l]? with _ | store
  · simp [GraphState.skeleton, GraphState.level, hl, LevelStore.skeleton, LevelStore.entry, LevelStore.empty] at hlow
  · exact ⟨store, rfl, by simp [GraphState.view, GraphState.level, hl]⟩

theorem atLevel_returns {α : Type} {p : LevelProg α} {x : α} {a vid : ℕ} (h : Rooted s l a vid)
    (hp : p (s.view l) = (.ok x, s.view l)) : atLevel l p s = (.ok x, s) := by
  obtain ⟨store, hl, hview⟩ := h.level_view
  have hset : s.levels.set l store = s.levels := by
    obtain ⟨hlt, rfl⟩ := List.getElem?_eq_some_iff.mp hl
    exact List.set_getElem_self hlt
  rw [hview] at hp
  rw [atLevel, hl]
  simp [hp, hset]

/-- The distance of a node's vector. -/
def valueOf (ix : Index Data Dist) (query : Data) (n : Node) : Option Dist := (ix.getKeyData n.vid).map (ix.helper query)

namespace Sturdy

/-- What a read of a record that stands gives. -/
theorem fetch (h : Sturdy g s) {n : Node} (hn : Firmly s l n) : ∃ e, fetch n.nid (s.view l) = (.ok e, s.view l) ∧
    (s.level l).entry n.nid.ref = some e := by
  obtain ⟨low, hlow⟩ := hn.2.record
  obtain ⟨e, he, -⟩ := Option.map_eq_some_iff.mp hlow
  exact ⟨e, (fetch_returns h.quiet).mpr ⟨he, rfl⟩, he⟩

theorem neighbours (h : Sturdy g s) {n : Node} (hn : Firmly s l n) :
    ∃ ns, neighbours n (s.view l) = (.ok ns, s.view l) ∧ ∀ m ∈ ns, Firmly s l m := by
  obtain ⟨e, he, hentry⟩ := h.fetch hn
  refine ⟨_, by rw [IndexGraph.neighbours, Prog.bind_apply, he]; rfl, fun m hm => ?_⟩
  obtain ⟨hm, hflag⟩ := List.mem_filter.mp hm
  obtain ⟨O, hO⟩ := h.footing.links l
  refine ⟨by simpa using hflag, (hO.links n.nid.ref m ?_).stands⟩
  rw [LevelStore.links, LevelStore.slots, hentry]
  exact hm

theorem resolve (h : Sturdy g s) {n : Node} (hn : Firmly s l n) :
    ∃ d, g.index.getKeyData n.vid = some d ∧ resolveNodeData g n.vid (s.view l) = (.ok d, s.view l) := by
  obtain ⟨low, hlow⟩ := hn.2.record
  obtain ⟨d, hd⟩ := Option.isSome_iff_exists.mp (h.server l _ _ hlow)
  exact ⟨d, hd, by rw [resolveNodeData, Prog.bind_apply, load_quiet h.quiet, hd]; rfl⟩

theorem distanceTo (h : Sturdy g s) (query : Data) {n : Node} (hn : Firmly s l n) : ∃ d, g.index.getKeyData n.vid = some d ∧
    distanceTo g query n (s.view l) = (.ok (g.index.helper query d), s.view l) := by
  obtain ⟨d, hd, hrun⟩ := h.resolve hn
  exact ⟨d, hd, by rw [IndexGraph.distanceTo, Prog.bind_apply, hrun]; rfl⟩

theorem responds (h : Sturdy g s) (l : ℕ) (query : Data) :
    LayerOperations.Responds g.layerGraph (.data query) (s.view l) (Firmly s l) where
  neighbours n hn := h.neighbours hn
  distance n hn := (h.distanceTo query hn).elim fun _ hd => ⟨_, hd.2⟩
  isVisible _ _ := ⟨true, rfl⟩

theorem reads (h : Sturdy g s) (l : ℕ) : LayerOperations.Reads g.layerGraph (s.view l) (Firmly s l) where
  neighbours n ns t hn hrun := by
    obtain ⟨ms, hms, hfirm⟩ := h.neighbours hn
    obtain ⟨hok, rfl⟩ := Prod.mk.inj (hms.symm.trans hrun)
    exact ⟨rfl, Except.ok.inj hok ▸ hfirm⟩
  distance := (reads_level (w := 0) (V := ∅) h.quiet ⟨by simp, by simp⟩).distance
  distanceTo := (reads_level (w := 0) (V := ∅) h.quiet ⟨by simp, by simp⟩).distanceTo
  isVisible := (reads_level (w := 0) (V := ∅) h.quiet ⟨by simp, by simp⟩).isVisible

/-- A search at a level ends. -/
theorem searchLayer (h : Sturdy g s) (query : Data) {ns : List Node} (hns : ∀ n ∈ ns, Firmly s l n) (ef : ℕ) :
    ∃ st, searchLayer g (.data query) ns ef (s.view l) = (.ok st, s.view l) ∧
      (∀ c ∈ g.layerGraph.maxQueue.toList st.results,
        LayerOperations.Valued g.layerGraph (.data query) (s.view l) (Firmly s l) c) ∧
      ((LayerOperations.consumeAll g.layerGraph st).map Node.key).Nodup ∧
      (ns ≠ [] → LayerOperations.consumeAll g.layerGraph st ≠ []) := by
  have hkeys : ∀ n, Firmly s l n → g.layerGraph.key n ∈ (s.level l).nodes.keys.map fun r => (⟨r, false⟩ : NID) := by
    intro n hn
    obtain ⟨low, hlow⟩ := hn.2.record
    obtain ⟨e, he, -⟩ := Option.map_eq_some_iff.mp hlow
    obtain ⟨r, hr, -⟩ := Option.map_eq_some_iff.mp he
    refine List.mem_map.mpr ⟨n.nid.ref, AList.mem_keys.mp (AList.lookup_isSome.mp (by rw [hr]; rfl)), ?_⟩
    show _ = n.nid
    rw [← hn.1]
  have hfuel : ((s.level l).nodes.keys.map fun r => (⟨r, false⟩ : NID)).length ≤ (s.view l).nodes.keys.length := by
    rw [List.length_map]
    exact le_refl _
  obtain ⟨st, hrun, hval⟩ := LayerOperations.search_terminates (h.responds l query) hkeys hns hfuel ef
  obtain ⟨-, hgather⟩ := LayerOperations.search_spec (h.reads l) hns hrun
  refine ⟨st, hrun, hval, (LayerOperations.keys_consumeAll st).nodup_iff.mpr ?_, fun hne hnil => ?_⟩
  · have hnodup := hgather.nodup
    rwa [List.append_nil] at hnodup
  obtain ⟨n, hn⟩ := List.exists_mem_of_ne_nil ns hne
  have hsize := LayerOperations.search_finds (h.reads l) (fun m v t t' hv => ?_) hn
    (by simp [LayerOperations.initialVisited]) hrun
  · have hperm := (LayerOperations.consumeAll_perm st).length_eq
    rw [hnil, List.length_nil, List.length_map] at hperm
    exact absurd hperm (ne_of_lt hsize)
  · change visible m t = _ at hv
    simp only [visible, Prog.pure_apply, Prod.mk.injEq, Except.ok.injEq] at hv
    exact hv.1.symm

/-- The one nearest node a search at a level finds. -/
theorem greedySearch (h : Sturdy g s) (query : Data) {ns : List Node} (hns : ∀ n ∈ ns, Firmly s l n) (hne : ns ≠ []) :
    ∃ out, greedySearch g (.data query) ns (s.view l) = (.ok out, s.view l) ∧ (∀ n ∈ out, Firmly s l n) ∧ out ≠ [] := by
  obtain ⟨st, hrun, hval, -, hfound⟩ := h.searchLayer query hns greedyDescentEf
  refine ⟨_, by rw [GraphOperations.greedySearch, Prog.bind_apply, hrun]; rfl, fun n hn => ?_, hfound hne⟩
  obtain ⟨c, hc, rfl⟩ := List.mem_map.mp ((LayerOperations.consumeAll_perm st).mem_iff.mp hn)
  exact (hval c hc).node

theorem nextLevelNode (h : Sturdy g s) {n : Node} (hn : Firmly s (l + 1) n) :
    ∃ m, atLevel (l + 1) (getNextLevelNode n) s = (.ok m, s) ∧ Firmly s l m := by
  obtain ⟨e, he, hentry⟩ := h.fetch hn
  obtain ⟨c, hc, hlow⟩ := hn.2
  obtain ⟨e', he', hx⟩ := Option.map_eq_some_iff.mp hc
  obtain rfl := Option.some.inj (hentry.symm.trans he')
  obtain ⟨-, hc'⟩ := Prod.mk.inj hx
  refine ⟨⟨⟨c, false⟩, n.vid⟩, atLevel_returns hn.2 ?_, rfl, hlow⟩
  rw [getNextLevelNode, Prog.bind_apply, he]
  simp [hc']

theorem advanceToNextLevel (h : Sturdy g s) : ∀ {ns : List Node}, (∀ n ∈ ns, Firmly s (l + 1) n) →
    ∃ out, advanceToNextLevel (l + 1) ns s = (.ok out, s) ∧ (∀ n ∈ out, Firmly s l n) ∧ out.length = ns.length
  | [], _ => ⟨[], rfl, by simp, rfl⟩
  | n :: ns, hns => by
    obtain ⟨m, hm, hfirm⟩ := h.nextLevelNode (hns n List.mem_cons_self)
    obtain ⟨out, hout, hfirms, hlen⟩ := h.advanceToNextLevel fun n hn => hns n (List.mem_cons_of_mem _ hn)
    refine ⟨m :: out, ?_, List.forall_mem_cons.mpr ⟨hfirm, hfirms⟩, by rw [List.length_cons, List.length_cons, hlen]⟩
    rw [GraphOperations.advanceToNextLevel, Prog.bind_apply, hm]
    simp only [Prog.bind_apply, hout]
    rfl

theorem searchDescent (h : Sturdy g s) (query : Data) : ∀ {level : ℕ} {ns : List Node}, (∀ n ∈ ns, Firmly s level n) → ns ≠ [] →
    ∃ out, searchDescent g query level ns s = (.ok out, s) ∧ (∀ n ∈ out, Firmly s 0 n) ∧ out ≠ []
  | 0, ns, hns, hne => ⟨ns, rfl, hns, hne⟩
  | level + 1, ns, hns, hne => by
    obtain ⟨found, hrun, hfound, hfne⟩ := h.greedySearch query hns hne
    obtain ⟨n, hn⟩ := List.exists_mem_of_ne_nil ns hne
    obtain ⟨next, hnext, hfirm, hlen⟩ := h.advanceToNextLevel hfound
    obtain ⟨out, hout, hlast⟩ := h.searchDescent query hfirm fun hnil => hfne (by simpa [hnil] using hlen.symm)
    refine ⟨out, ?_, hlast⟩
    rw [GraphOperations.searchDescent, Prog.bind_apply, atLevel_returns (hns n hn).2 hrun]
    simp only [Prog.bind_apply, hnext]
    exact hout

/-- What a search at a level returns is in order of distance. -/
theorem consumeAll_sorted (h : Sturdy g s) (hlt : IsStrictWeakOrder Dist fun a b => g.index.lt a b = true)
    {query : Data}
    {st : LayerOperations.LayerState g.layerGraph} (hval : ∀ c ∈ g.layerGraph.maxQueue.toList st.results,
      LayerOperations.Valued g.layerGraph (.data query) (s.view l) (Firmly s l) c) :
    (LayerOperations.consumeAll g.layerGraph st).Pairwise fun a b =>
      ∀ x ∈ valueOf g.index query a, ∀ y ∈ valueOf g.index query b, g.index.lt y x = false := by
  have horder : IsStrictWeakOrder (Candidate Node Dist) fun a b => g.index.lt a.distance b.distance = true :=
    { irrefl := fun a => hlt.irrefl a.distance
      trans := fun a b c => hlt.trans a.distance b.distance c.distance
      incomp_trans := fun a b c => hlt.incomp_trans a.distance b.distance c.distance }
  have hdist : ∀ c ∈ g.layerGraph.maxQueue.toList st.results, valueOf g.index query c.node = some c.distance := fun c hc => by
    obtain ⟨d, hd, hrun⟩ := h.distanceTo query (hval c hc).node
    obtain ⟨hok, -⟩ := Prod.mk.inj (hrun.symm.trans (hval c hc).distance)
    rw [valueOf, hd, ← Except.ok.inj hok]
    rfl
  have hperm := g.layerGraph.maxQueue.drain_perm st.results
  rw [LayerOperations.consumeAll, List.pairwise_map, List.pairwise_reverse]
  refine (g.layerGraph.maxQueue.drain_pairwise horder st.results).imp_of_mem fun {a b} ha hb hab x hx y hy => ?_
  rw [hdist b (hperm.mem_iff.mp hb)] at hx
  rw [hdist a (hperm.mem_iff.mp ha)] at hy
  obtain rfl := Option.some.inj hx
  obtain rfl := Option.some.inj hy
  exact hab

end Sturdy

end Hnsw
end VsqlVector
