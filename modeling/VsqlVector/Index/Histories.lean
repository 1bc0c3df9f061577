/-
# Histories of an index

A history is a sequence of calls: inserts, which hand out a handle (the new
vector's top node and its level), marks and removes, which are given one. The
invariant `Upright` holds after every history whose removes are made by the
transaction that stamped the vector's records last and whose storage calls do
not fail (`Orderly`): every level is at rest, and its records are those of the
towers of the vectors that are in the index.

Key definitions: `System`, `System.call`, `Orderly`, `Upright`.
Key theorem: `reaches_upright`.
-/
import VsqlVector.Lib.Runs
import VsqlVector.Index.Remove

namespace VsqlVector
namespace Hnsw

open LevelStore LevelProg IndexGraph GraphProg GraphOperations

variable {Data Dist : Type}

/-! ### Calls -/

/-- A vector in the index: what its insert returned, and the transaction that
inserted or marked it last. -/
structure Handle where
  node : Node
  level : ℕ
  stamp : ℕ
  deriving DecidableEq, Repr

/-- An index with the vectors that are in it. -/
structure System where
  graph : GraphState
  handles : List Handle

inductive Call (Data : Type)
  | insert (trxRef : ℕ) (data : Data) (level : ℕ)
  | markDelete (trxRef : ℕ) (handle : Handle) (deleteMark : Bool)
  | remove (trxRef : ℕ) (handle : Handle)

/-- What a call makes of the system, unless it fails. -/
def System.call (ix : Index Data Dist) (M efc : ℕ) (S : System) (supply : Supply) : Call Data → Option System
  | .insert trx data level =>
    match insert ⟨ix, M, efc, trx⟩ data level { S.graph with toSupply := supply } with
    | (.ok node, g) => some ⟨g, ⟨node, level, trx⟩ :: S.handles⟩
    | (.error _, _) => none
  | .markDelete trx h mark =>
    if h ∈ S.handles then
      match markDelete ⟨ix, M, efc, trx⟩ mark h.level h.node { S.graph with toSupply := supply } with
      | (.ok (), g) => some ⟨g, { h with stamp := trx } :: S.handles.erase h⟩
      | (.error _, _) => none
    else none
  | .remove trx h =>
    if h ∈ S.handles then
      match remove ⟨ix, M, efc, trx⟩ h.node h.level { S.graph with toSupply := supply } with
      | (.ok (), g) => some ⟨g, S.handles.erase h⟩
      | (.error _, _) => none
    else none

/-- An index that has just been created. -/
def System.Fresh (S : System) : Prop := S = ⟨GraphState.create, []⟩

/-- A call that returns, with storage that does what `supply` says; `allow` says
which calls are made. -/
def System.Step (ix : Index Data Dist) (M efc : ℕ) (allow : System → Call Data → Supply → Prop)
    (S S' : System) : Prop :=
  ∃ c supply, allow S c supply ∧ S.call ix M efc supply c = some S'

/-- The storage calls do not fail, and a remove is made by the transaction that
stamped the vector last. -/
def Orderly (_ : System) (c : Call Data) (supply : Supply) : Prop :=
  supply.outcomes = [] ∧ ∀ trx h, c = .remove trx h → trx = h.stamp

/-! ### The invariant -/

/-- The record of a vector at level `k`. -/
def Handle.refAt (h : Handle) (g : GraphState) (k : ℕ) : ℕ := tower g.bone h.level h.node.nid.ref k

/-- The handle's node is the top of a complete tower. -/
def Handle.Standing (h : Handle) (g : GraphState) : Prop :=
  h.node.nid.incoming = false ∧ IsTower g.bone h.node.vid h.stamp h.level h.node.nid.ref

/-- Two vectors have no record in common. -/
def Apart (g : GraphState) (h h' : Handle) : Prop :=
  ∀ k, k ≤ h.level → k ≤ h'.level → h.refAt g k ≠ h'.refAt g k

/-- Every level is at rest, and its records are those of the vectors' towers. -/
structure Upright (M : ℕ) (S : System) : Prop where
  chains : ∀ l, (S.graph.level l).Chains
  names : ∀ l, Mutual (LevelStore.maxNeighbours l M) (S.graph.level l) (S.graph.live l)
  backed : ∀ l, Backed (S.graph.level l) (S.graph.live l)
  standing : ∀ h ∈ S.handles, h.Standing S.graph
  covered : ∀ l, ∀ a ∈ S.graph.live l, ∃ h ∈ S.handles, l ≤ h.level ∧ h.refAt S.graph l = a
  apart : S.handles.Pairwise (Apart S.graph)
  entry : EntryNamed S.graph

instance (g : GraphState) : Std.Symm (Apart g) := ⟨fun _ _ ha k h1 h2 he => ha k h2 h1 he.symm⟩

variable {ix : Index Data Dist} {M efc : ℕ} {S S' : System} {g g' : GraphState} {h : Handle}

theorem Handle.Standing.mem_live (hs : h.Standing g) {k : ℕ} (hk : k ≤ h.level) : h.refAt g k ∈ g.live k := by
  obtain ⟨b, hb, -⟩ := hs.2 k hk
  rw [GraphState.mem_live_iff, Handle.refAt, hb]
  rfl

/-- A tower stays while its own records do. -/
theorem Handle.Standing.congr (hs : h.Standing g)
    (hB : ∀ k ≤ h.level, g'.bone k (h.refAt g k) = g.bone k (h.refAt g k)) :
    h.Standing g' ∧ ∀ k ≤ h.level, h.refAt g' k = h.refAt g k :=
  ⟨⟨hs.1, hs.2.congr hB⟩, hs.2.tower_congr fun k hk => congrArg (Option.bind · Bone.lowerLevel) (hB k hk)⟩

namespace Upright

theorem resting (hu : Upright M S) : Resting M S.graph := by
  refine ⟨hu.chains, hu.names, fun l a b hb => ?_⟩
  obtain ⟨h, hh, hle, rfl⟩ := hu.covered (l + 1) a (by rw [GraphState.mem_live_iff, hb]; rfl)
  have ht := (hu.standing h hh).2
  obtain ⟨b₁, hb₁, ho₁, -, hlow⟩ := ht (l + 1) hle
  obtain ⟨b₀, hb₀, ho₀, -⟩ := ht l (by omega)
  obtain rfl : b = b₁ := Option.some.inj (hb.symm.trans hb₁)
  exact ⟨_, b₀, hlow (by omega), hb₀, ho₀.trans ho₁.symm⟩

/-- The supply is not part of the invariant. -/
theorem graph_supply (hu : Upright M S) (supply : Supply) :
    Upright M ⟨{ S.graph with toSupply := supply }, S.handles⟩ :=
  ⟨hu.chains, hu.names, hu.backed, hu.standing, hu.covered, hu.apart, hu.entry⟩

/-- Handles of one tower are one. -/
theorem eq_of_refAt (hu : Upright M S) {h h' : Handle} (hh : h ∈ S.handles) (hh' : h' ∈ S.handles) {k : ℕ}
    (hk : k ≤ h.level) (hk' : k ≤ h'.level) (he : h.refAt S.graph k = h'.refAt S.graph k) : h = h' := by
  by_contra hne
  exact hu.apart.forall hh hh' hne k hk hk' he

end Upright

theorem upright_create : Upright M ⟨GraphState.create, []⟩ := by
  have hlev : ∀ l, GraphState.create.level l = LevelStore.empty := fun l => by
    rcases l with _ | l <;> rfl
  have hdead : ∀ l a, a ∉ GraphState.create.live l := fun l a ha => by
    rw [GraphState.live, hlev l] at ha
    exact absurd ha (by simp [LevelStore.Live, LevelStore.empty])
  have hno : ∀ l a, ¬ (GraphState.create.level l).Live a := hdead
  refine ⟨fun l => ⟨fun a ha => absurd ha (hno l a), fun a _ ha => absurd ha (hno l a)⟩,
    fun l => ⟨fun a ha => absurd ha (hdead l a), fun a ha => absurd ha (hdead l a)⟩,
    fun l a ha => absurd ha (hdead l a), by simp, fun l a ha => absurd ha (hdead l a), .nil, fun n hn => ?_⟩
  exact absurd hn (by simp [GraphState.create])

/-! ### One call -/

/-- The entry point still names a record with its owner. -/
theorem GraphOperations.EntryNamed.of_sameEntry (he : EntryNamed g) (hs : SameEntry g g')
    (hB : ∀ k a b, g'.bone k a = some b → ∃ b', g.bone k a = some b' ∧ b'.owner = b.owner) :
    EntryNamed g' := fun n hn => by
  rw [hs.1] at hn
  refine ⟨(he n hn).1, fun hlive => ?_⟩
  rw [hs.2] at hlive ⊢
  obtain ⟨b, hb⟩ := Option.isSome_iff_exists.mp (GraphState.mem_live_iff.mp hlive)
  obtain ⟨b', hb', ho⟩ := hB _ _ b hb
  have := (he n hn).2 (GraphState.mem_live_iff.mpr (by rw [hb']; rfl))
  rw [ownerOf_eq_bone, hb', Option.map_some, ho] at this
  rw [ownerOf_eq_bone, hb]
  exact this

/-- An insert adds a vector. -/
theorem Upright.insert (hM : 0 < M) (hu : Upright M S) (hq : S.graph.Quiet) {trx L : ℕ} {data : Data}
    {node : Node} (h : insert ⟨ix, M, efc, trx⟩ data L S.graph = (.ok node, g')) :
    Upright M ⟨g', ⟨node, L, trx⟩ :: S.handles⟩ ∧ (∀ k, S.graph.live k ⊆ g'.live k) ∧
      (g'.entryPoint = some node ∧ g'.entryLevel = L ∨ SameEntry S.graph g' ∧ S.graph.entryPoint.isSome) := by
  obtain ⟨owner, X, -, rfl, hg, hlive, hent⟩ := insert_spec hM hu.resting hq hu.entry h
  refine ⟨?_, fun k a ha => (hg.live k a).mpr (.inl ha), hent⟩
  -- the towers that were there stand as before
  have hold : ∀ h ∈ S.handles, h.Standing g' ∧ ∀ k ≤ h.level, h.refAt g' k = h.refAt S.graph k := fun h hh => by
    have hs := hu.standing h hh
    refine hs.congr fun k hk => hg.other k _ fun hkL he => hg.fresh k hkL ?_
    rw [← he]
    exact hs.mem_live hk
  obtain ⟨hnew, href⟩ : IsTower g'.bone owner trx L (X L) ∧ ∀ k ≤ L, tower g'.bone L (X L) k = X k :=
    isTower_of_refs rfl fun k hk =>
      ⟨_, hg.bone k hk, rfl, rfl, fun h0 => by rw [lowOf, if_neg (by omega)]⟩
  refine ⟨hg.chains, hg.names, hg.backed hu.backed, fun h hh => ?_, fun l a ha => ?_, List.pairwise_cons.mpr ⟨fun h hh => ?_, ?_⟩, ?_⟩
  · rcases List.mem_cons.mp hh with rfl | hh
    · exact ⟨rfl, hnew⟩
    · exact (hold h hh).1
  · rcases (hg.live l a).mp ha with ha | ⟨hl, rfl⟩
    · obtain ⟨h, hh, hle, rfl⟩ := hu.covered l a ha
      exact ⟨h, List.mem_cons_of_mem _ hh, hle, (hold h hh).2 l hle⟩
    · exact ⟨_, List.mem_cons_self, hl, href l hl⟩
  · intro k h1 h2 he
    rw [Handle.refAt, href k h1, (hold h hh).2 k h2] at he
    exact hg.fresh k h1 (he ▸ (hu.standing h hh).mem_live h2)
  · refine hu.apart.imp_of_mem fun {h h'} hh hh' ha k h1 h2 => ?_
    rw [(hold h hh).2 k h1, (hold h' hh').2 k h2]
    exact ha k h1 h2
  · rcases hent with ⟨h1, h2⟩ | ⟨hsame, -⟩
    · intro n hn
      obtain rfl := Option.some.inj (h1.symm.trans hn)
      refine ⟨rfl, fun _ => ?_⟩
      rw [h2, ownerOf_eq_bone, hg.bone L (le_refl _)]
      rfl
    · intro n hn
      rw [hsame.1] at hn
      have hl := hlive n hn
      refine ⟨(hu.entry n hn).1, fun _ => ?_⟩
      rw [hsame.2, ownerOf_eq_bone, hg.other _ _ fun hk he => hg.fresh _ hk (he ▸ hl)]
      exact (hu.entry n hn).2 hl

/-- A remove takes a vector away. -/
theorem Upright.remove (hM : 0 < M) (hu : Upright M S) (hq : S.graph.Quiet) (hh : h ∈ S.handles)
    (hrun : remove ⟨ix, M, efc, h.stamp⟩ h.node h.level S.graph = (.ok (), g')) :
    Upright M ⟨g', S.handles.erase h⟩ ∧
      Shrunk ⟨ix, M, efc, h.stamp⟩ h.level (h.refAt S.graph) S.graph g' ∧
      (IsEntry S.graph h.node h.level → Succeeded h.level (h.refAt S.graph) S.graph g') ∧
      (¬ IsEntry S.graph h.node h.level → SameEntry S.graph g') := by
  have hs := hu.standing h hh
  have hnode : h.node = ⟨⟨h.node.nid.ref, false⟩, h.node.vid⟩ := by rw [← hs.1]
  rw [hnode] at hrun ⊢
  obtain ⟨hsh, hyes, hno⟩ := remove_spec hM hu.resting hq hs.2 hrun
  refine ⟨?_, hsh, hyes, hno⟩
  -- the other towers have no record of this one
  have hperm := List.perm_cons_erase hh
  obtain ⟨hap, hrest⟩ := List.pairwise_cons.mp (hu.apart.perm hperm fun ha => Std.Symm.symm _ _ ha)
  have hold : ∀ h' ∈ S.handles.erase h, h'.Standing g' ∧
      ∀ k ≤ h'.level, h'.refAt g' k = h'.refAt S.graph k := fun h' hh' => by
    have hs' := hu.standing h' (List.mem_of_mem_erase hh')
    exact hs'.congr fun k hk => hsh.other k _ fun hkL he => hap h' hh' k hkL hk he.symm
  have hent : EntryNamed g' := by
    by_cases he : IsEntry S.graph ⟨⟨h.node.nid.ref, false⟩, h.node.vid⟩ h.level
    · exact fun n hn => ⟨((hyes he).survivor n hn).outgoing, fun _ => ((hyes he).survivor n hn).owner⟩
    · refine hu.entry.of_sameEntry (hno he) fun k a b hb => ?_
      have hl := (hsh.live k a).mp (GraphState.mem_live_iff.mpr (by rw [hb]; rfl))
      exact ⟨b, (hsh.other k a hl.2).symm.trans hb, rfl⟩
  refine ⟨hsh.chains, hsh.names, hsh.backed hu.backed, fun h' hh' => (hold h' hh').1, fun l a ha => ?_, ?_, hent⟩
  · obtain ⟨ha, hne⟩ := (hsh.live l a).mp ha
    obtain ⟨h', hh', hle, rfl⟩ := hu.covered l a ha
    rcases List.mem_cons.mp (hperm.mem_iff.mp hh') with rfl | hh'
    · exact absurd rfl (hne hle)
    · exact ⟨h', hh', hle, (hold h' hh').2 l hle⟩
  · refine hrest.imp_of_mem fun {h₁ h₂} hh₁ hh₂ ha k h1 h2 => ?_
    rw [(hold h₁ hh₁).2 k h1, (hold h₂ hh₂).2 k h2]
    exact ha k h1 h2

/-- The stamp of a mark. -/
def restamp (trx : ℕ) (mark : Bool) (b : Bone) : Bone := { b with trxRef := trx, deleteMarked := mark }

theorem markAt_spec {l : ℕ} {ig : IndexGraph Data Dist} (hq : g.Quiet) (hc : (g.level l).Chains) {nid : NID}
    {mark : Bool} (h : atLevel l (LevelProg.markDelete (ig.ctx l) nid mark) g = (.ok (), g')) :
    g'.Quiet ∧ SameEntry g g' ∧ Reboned nid.ref (restamp ig.trxRef mark) (g.level l) (g'.level l) ∧
      ∀ k, k ≠ l → g'.level k = g.level k := by
  obtain ⟨t, hrun, hat⟩ := atLevel_spec h
  obtain ⟨hch, hk, hb⟩ := markDelete_spec (s := g.view l) hq hc hrun
  refine ⟨by rw [hat.supply]; exact hch.quiet, hat.sameEntry, ?_, hat.other⟩
  rw [hat.here]
  exact ⟨hch.chains, hk, hb, hch.bone⟩

/-- A mark goes down the tower and stamps its records. -/
theorem markTower_spec {ig : IndexGraph Data Dist} {X : ℕ → ℕ} {vid : ℕ} {mark : Bool} :
    ∀ {level : ℕ} {g g' : GraphState}, g.Quiet → (∀ k, (g.level k).Chains) →
    (∀ k, 0 < k → k ≤ level → (g.bone k (X k)).bind Bone.lowerLevel = some ⟨X (k - 1), false⟩) →
    markDelete ig mark level ⟨⟨X level, false⟩, vid⟩ g = (.ok (), g') →
    SameEntry g g' ∧ (∀ k ≤ level, Reboned (X k) (restamp ig.trxRef mark) (g.level k) (g'.level k)) ∧
      ∀ k, level < k → g'.level k = g.level k
  | 0, g, g', hq, hc, _, h => by
    obtain ⟨-, he, hr, hother⟩ := markAt_spec hq (hc 0) h
    refine ⟨he, fun k hk => ?_, fun k hk => hother k (by omega)⟩
    obtain rfl : k = 0 := by omega
    exact hr
  | level + 1, g, g', hq, hc, hlow, h => by
    rw [GraphOperations.markDelete, Prog.bind_returns] at h
    obtain ⟨_, g₁, h1, h⟩ := h
    obtain ⟨hq₁, he₁, hr₁, hother₁⟩ := markAt_spec hq (hc _) h1
    obtain ⟨next, g₂, h2, h⟩ := Prog.bind_returns.mp h
    obtain ⟨b, hb, hbl⟩ := Option.bind_eq_some_iff.mp (hlow (level + 1) (by omega) (le_refl _))
    have hb₁ : (g₁.view (level + 1)).bone (X (level + 1)) = some (restamp ig.trxRef mark b) := by
      show (g₁.level (level + 1)).bone _ = _
      rw [hr₁.bone, show (g.level (level + 1)).bone _ = _ from hb]
      rfl
    have hbl₁ : (restamp ig.trxRef mark b).lowerLevel = some ⟨X (level + 1 - 1), false⟩ := hbl
    obtain ⟨rfl, hrun⟩ := atLevel_read h2 fun t ht =>
      (getNextLevelNode_spec (t := g₁.view (level + 1)) hq₁ hb₁ hbl₁ ht).1
    obtain ⟨-, rfl⟩ := getNextLevelNode_spec (t := g₁.view (level + 1)) hq₁ hb₁ hbl₁ hrun
    rw [Nat.add_sub_cancel] at h
    have hc₁ : ∀ k, (g₁.level k).Chains := fun k => by
      by_cases hk : k = level + 1
      · rw [hk]
        exact hr₁.chains
      · rw [hother₁ k hk]
        exact hc k
    obtain ⟨he, hr, hother⟩ := markTower_spec hq₁ hc₁
      (fun k h0 hk => by rw [GraphState.bone, hother₁ k (by omega)]; exact hlow k h0 (by omega)) h
    refine ⟨he₁.trans he, fun k hk => ?_, fun k hk => (hother k (by omega)).trans (hother₁ k (by omega))⟩
    by_cases hk' : k = level + 1
    · subst hk'
      rw [hother _ (by omega)]
      exact hr₁
    · rw [← hother₁ k hk']
      exact hr k (by omega)

/-- A mark stamps a vector again. -/
theorem Upright.markDelete (hu : Upright M S) (hq : S.graph.Quiet) (hh : h ∈ S.handles) {trx : ℕ} {mark : Bool}
    (hrun : markDelete ⟨ix, M, efc, trx⟩ mark h.level h.node S.graph = (.ok (), g')) :
    Upright M ⟨g', { h with stamp := trx } :: S.handles.erase h⟩ ∧ SameEntry S.graph g' ∧
      ∀ k, g'.live k = S.graph.live k := by
  have hs := hu.standing h hh
  have htop : h.refAt S.graph h.level = h.node.nid.ref := tower_top _ _ _
  have hnode : h.node = ⟨⟨h.refAt S.graph h.level, false⟩, h.node.vid⟩ := by rw [htop, ← hs.1]
  rw [hnode] at hrun
  obtain ⟨hent, hr, hother⟩ := markTower_spec hq hu.chains (fun k h0 hk => hs.2.lower h0 hk) hrun
  -- every record is there with its owner and its lower record
  have hbone : ∀ k a, g'.bone k a = (S.graph.bone k a).map fun b =>
      if k ≤ h.level ∧ a = h.refAt S.graph k then restamp trx mark b else b := fun k a => by
    by_cases hk : k ≤ h.level
    · by_cases ha : a = h.refAt S.graph k
      · subst ha
        simp only [hk, and_self, if_true]
        exact (hr k hk).bone
      · simp only [ha, and_false, if_false, Option.map_id']
        exact (hr k hk).other a ha
    · rw [GraphState.bone, hother k (by omega)]
      simp [hk, GraphState.bone]
  have hkept : ∀ k, Kept Set.univ (S.graph.level k) (g'.level k) ∧ (g'.level k).Chains := fun k => by
    by_cases hk : k ≤ h.level
    · exact ⟨(hr k hk).kept, (hr k hk).chains⟩
    · rw [hother k (by omega)]
      exact ⟨⟨fun _ _ h => h, fun _ _ => rfl, fun _ _ => rfl, fun _ _ _ => rfl⟩, hu.chains k⟩
  have hlive : ∀ k, g'.live k = S.graph.live k := fun k => by
    ext a
    rw [GraphState.mem_live_iff, GraphState.mem_live_iff, hbone, Option.isSome_map]
  have hlow : ∀ k a, (g'.bone k a).bind Bone.lowerLevel = (S.graph.bone k a).bind Bone.lowerLevel := fun k a => by
    rw [hbone]
    rcases S.graph.bone k a with _ | b
    · rfl
    · simp only [Option.map_some, Option.bind_some]
      split <;> rfl
  have href : ∀ h' ∈ S.handles, ∀ k ≤ h'.level, h'.refAt g' k = h'.refAt S.graph k := fun h' hh' =>
    (hu.standing h' hh').2.tower_congr fun k _ => hlow k _
  have hperm := List.perm_cons_erase hh
  obtain ⟨hap, hrest⟩ := List.pairwise_cons.mp (hu.apart.perm hperm fun ha => Std.Symm.symm _ _ ha)
  refine ⟨⟨fun k => (hkept k).2, fun k => ?_, fun k => ?_, fun h' hh' => ?_, fun l a ha => ?_,
    List.pairwise_cons.mpr ⟨fun h' hh' => ?_, ?_⟩, ?_⟩, hent, hlive⟩
  · rw [hlive]
    exact (hu.names k).kept ((hkept k).1.mono (Set.subset_univ _))
  · rw [hlive]
    exact (hu.backed k).kept (hu.names k) ((hkept k).1.mono (Set.subset_univ _))
  · rcases List.mem_cons.mp hh' with rfl | hh'
    · refine ⟨hs.1, (isTower_of_refs (X := h.refAt S.graph) htop fun k hk => ?_).1⟩
      obtain ⟨b, hb, ho, -, hl⟩ := hs.2 k hk
      refine ⟨restamp trx mark b, ?_, ho, rfl, hl⟩
      rw [hbone, show S.graph.bone k (h.refAt S.graph k) = _ from hb]
      simp [hk]
    · have hs' := hu.standing h' (List.mem_of_mem_erase hh')
      exact (hs'.congr fun k hk => by
        rw [hbone]
        rcases S.graph.bone k (h'.refAt S.graph k) with _ | b
        · rfl
        · rw [Option.map_some, if_neg fun hc => hap h' hh' k hc.1 hk hc.2.symm]).1
  · rw [hlive] at ha
    obtain ⟨h', hh', hle, rfl⟩ := hu.covered l a ha
    rcases List.mem_cons.mp (hperm.mem_iff.mp hh') with rfl | hmem
    · exact ⟨_, List.mem_cons_self, hle, href h' hh' l hle⟩
    · exact ⟨h', List.mem_cons_of_mem _ hmem, hle, href h' hh' l hle⟩
  · intro k h1 h2
    rw [href h' (List.mem_of_mem_erase hh') k h2]
    exact (href h hh k h1).trans_ne (hap h' hh' k h1 h2)
  · refine hrest.imp_of_mem fun {h₁ h₂} hh₁ hh₂ ha k h1 h2 => ?_
    rw [href h₁ (List.mem_of_mem_erase hh₁) k h1, href h₂ (List.mem_of_mem_erase hh₂) k h2]
    exact ha k h1 h2
  · refine hu.entry.of_sameEntry hent fun k a b hb => ?_
    rw [hbone] at hb
    obtain ⟨b', hb', rfl⟩ := Option.map_eq_some_iff.mp hb
    refine ⟨b', hb', ?_⟩
    split <;> rfl

/-! ### Whole histories -/

/-- The outcomes of a call that returns. -/
theorem System.call_cases {supply : Supply} {c : Call Data} (hc : S.call ix M efc supply c = some S') :
    (∃ trx data level node, c = .insert trx data level ∧
      GraphOperations.insert ⟨ix, M, efc, trx⟩ data level { S.graph with toSupply := supply } =
        (.ok node, S'.graph) ∧ S'.handles = ⟨node, level, trx⟩ :: S.handles) ∨
    (∃ trx h mark, c = .markDelete trx h mark ∧ h ∈ S.handles ∧
      GraphOperations.markDelete ⟨ix, M, efc, trx⟩ mark h.level h.node { S.graph with toSupply := supply } =
        (.ok (), S'.graph) ∧ S'.handles = { h with stamp := trx } :: S.handles.erase h) ∨
    (∃ trx h, c = .remove trx h ∧ h ∈ S.handles ∧
      GraphOperations.remove ⟨ix, M, efc, trx⟩ h.node h.level { S.graph with toSupply := supply } =
        (.ok (), S'.graph) ∧ S'.handles = S.handles.erase h) := by
  cases c with
  | insert trx data level =>
    simp only [System.call] at hc
    split at hc
    · rename_i node g hrun
      simp only [Option.some.injEq] at hc
      subst hc
      exact .inl ⟨trx, data, level, node, rfl, hrun, rfl⟩
    · exact absurd hc (by simp)
  | markDelete trx h mark =>
    simp only [System.call] at hc
    split at hc
    · rename_i hh
      split at hc
      · rename_i g hrun
        simp only [Option.some.injEq] at hc
        subst hc
        exact .inr (.inl ⟨trx, h, mark, rfl, hh, hrun, rfl⟩)
      · exact absurd hc (by simp)
    · exact absurd hc (by simp)
  | remove trx h =>
    simp only [System.call] at hc
    split at hc
    · rename_i hh
      split at hc
      · rename_i g hrun
        simp only [Option.some.injEq] at hc
        subst hc
        exact .inr (.inr ⟨trx, h, rfl, hh, hrun, rfl⟩)
      · exact absurd hc (by simp)
    · exact absurd hc (by simp)

theorem Upright.step (hM : 0 < M) (hu : Upright M S) (hst : S.Step ix M efc Orderly S') : Upright M S' := by
  obtain ⟨c, supply, ⟨hq, htrx⟩, hc⟩ := hst
  have hu' := hu.graph_supply supply
  rcases System.call_cases hc with ⟨trx, data, level, node, rfl, hrun, hh⟩ |
    ⟨trx, h, mark, rfl, hmem, hrun, hh⟩ | ⟨trx, h, rfl, hmem, hrun, hh⟩
  · rw [show S' = ⟨S'.graph, _⟩ from congrArg (System.mk S'.graph) hh]
    exact (hu'.insert hM hq hrun).1
  · rw [show S' = ⟨S'.graph, _⟩ from congrArg (System.mk S'.graph) hh]
    exact (hu'.markDelete hq hmem hrun).1
  · obtain rfl := htrx trx h rfl
    rw [show S' = ⟨S'.graph, _⟩ from congrArg (System.mk S'.graph) hh]
    exact (hu'.remove hM hq hmem hrun).1

/-- The invariant holds after every orderly history. -/
theorem reaches_upright (hM : 0 < M) {allow : System → Call Data → Supply → Prop}
    (hallow : ∀ S c supply, allow S c supply → Orderly S c supply)
    (h : Reaches System.Fresh (System.Step ix M efc allow) S) : Upright M S := by
  refine h.invariant (fun S hS => ?_) fun S S' hu ⟨c, supply, hok, hc⟩ =>
    hu.step hM ⟨c, supply, hallow S c supply hok, hc⟩
  rw [show S = _ from hS]
  exact upright_create

end Hnsw
end VsqlVector
