/-
# Inserting a vector

`GraphOperations::insert` searches its way down to the insert level, makes the
records of the new tower top down, each with links that are still to be landed
(`Built`), and then links them bottom up. Afterwards every level is at rest
again, with one record more (`insert_spec`).

Key definitions: `Resting`, `Built`.
Key theorems: `buildTower_spec`, `insert_spec`.
-/
import VsqlVector.Index.Towers

namespace VsqlVector
namespace Hnsw

open LevelStore LevelProg IndexGraph GraphProg

/-- Every level is at rest and every record above level 0 has a record below it. -/
structure Resting (M : ℕ) (s : GraphState) : Prop where
  chains : ∀ l, (s.level l).Chains
  names : ∀ l, Mutual (LevelStore.maxNeighbours l M) (s.level l) (s.live l)
  lower : ∀ l a b, s.bone (l + 1) a = some b → ∃ c b', b.lowerLevel = some ⟨c, false⟩ ∧
    s.bone l c = some b' ∧ b'.owner = b.owner

variable {Data Dist : Type} {g : IndexGraph Data Dist} {s s' : GraphState} {l : ℕ}

theorem ownerOf_eq_bone (s : GraphState) (l a : ℕ) :
    (s.level l).ownerOf a = (s.bone l a).map Bone.owner := rfl

/-- The record below a node of the level. -/
theorem Resting.good_lower (h : Resting g.M s) {n : Node} (hn : Good (s.level (l + 1)) (s.live (l + 1)) n) :
    ∃ b c, s.bone (l + 1) n.nid.ref = some b ∧ b.lowerLevel = some ⟨c, false⟩ ∧
      Good (s.level l) (s.live l) ⟨⟨c, false⟩, n.vid⟩ := by
  obtain ⟨b, hb⟩ := Option.isSome_iff_exists.mp (GraphState.mem_live_iff.mp hn.mem)
  obtain ⟨c, b', hc, hb', ho⟩ := h.lower l _ b hb
  refine ⟨b, c, hb, hc, GraphState.mem_live_iff.mpr (by simp [hb']), rfl, ?_⟩
  have := hn.owner
  rw [ownerOf_eq_bone, hb] at this
  rw [ownerOf_eq_bone, hb']
  simpa [ho] using this

namespace GraphOperations

/-! ### Going down -/

theorem getNextLevelNode_spec {t t' : LevelState} (hq : t.Quiet) {n m : Node} {b : Bone} {c : NID}
    (hb : t.bone n.nid.ref = some b) (hc : b.lowerLevel = some c)
    (h : getNextLevelNode n t = (.ok m, t')) : t = t' ∧ m = ⟨c, n.vid⟩ := by
  rw [getNextLevelNode, Prog.bind_returns] at h
  obtain ⟨e, _, he, h⟩ := h
  rw [fetch_returns hq] at he
  obtain ⟨he, rfl⟩ := he
  simp only [Prog.pure_apply, Prod.mk.injEq, Except.ok.injEq] at h
  obtain ⟨rfl, rfl⟩ := h
  obtain ⟨r, hr, rfl⟩ := Option.map_eq_some_iff.mp he
  have : r.entry.lowerLevel = some c := by
    simp only [LevelStore.bone, hr, Option.map_some, Option.some.injEq] at hb
    rw [← hb] at hc
    exact hc
  exact ⟨rfl, by rw [this]; rfl⟩

/-- `advance_to_next_level` reads the records below. -/
theorem advanceToNextLevel_spec (hq : s.Quiet) {P : Node → Prop} : ∀ {ns out : List Node} {s' : GraphState},
    (∀ n ∈ ns, ∃ b c, s.bone l n.nid.ref = some b ∧ b.lowerLevel = some c ∧ P ⟨c, n.vid⟩) →
    advanceToNextLevel l ns s = (.ok out, s') → s = s' ∧ ∀ m ∈ out, P m
  | [], out, s', _, h => by
    simp only [advanceToNextLevel, Prog.pure_apply, Prod.mk.injEq, Except.ok.injEq] at h
    obtain ⟨rfl, rfl⟩ := h
    exact ⟨rfl, by simp⟩
  | n :: ns, out, s', hlow, h => by
    obtain ⟨b, c, hb, hc, hP⟩ := hlow n (by simp)
    rw [advanceToNextLevel, Prog.bind_returns] at h
    obtain ⟨m, s₁, h1, h⟩ := h
    obtain ⟨rfl, hrun⟩ := atLevel_read h1 fun t ht =>
      (getNextLevelNode_spec (t := s.view l) hq hb hc ht).1
    obtain ⟨-, rfl⟩ := getNextLevelNode_spec (t := s.view l) hq hb hc hrun
    obtain ⟨rest, s₂, h2, h⟩ := Prog.bind_returns.mp h
    obtain ⟨rfl, hrest⟩ := advanceToNextLevel_spec hq (fun n hn => hlow n (List.mem_cons_of_mem _ hn)) h2
    simp only [Prog.pure_apply, Prod.mk.injEq, Except.ok.injEq] at h
    obtain ⟨rfl, rfl⟩ := h
    refine ⟨rfl, fun m hm => ?_⟩
    rcases List.mem_cons.mp hm with rfl | hm
    · exact hP
    · exact hrest m hm

/-- The descent to the insert level only reads, and ends with nodes of that level. -/
theorem greedyDescent_spec (hs : Resting g.M s) (hq : s.Quiet) {data : Data} {L : ℕ} :
    ∀ {level : ℕ} {cands out : List Node} {s' : GraphState}, L ≤ level →
      (∀ n ∈ cands, Good (s.level level) (s.live level) n) →
      greedyDescent g data L level cands s = (.ok out, s') →
      s = s' ∧ ∀ n ∈ out, Good (s.level L) (s.live L) n
  | 0, cands, out, s', hL, hc, h => by
    obtain rfl : L = 0 := by omega
    simp only [greedyDescent, Prog.pure_apply, Prod.mk.injEq, Except.ok.injEq] at h
    obtain ⟨rfl, rfl⟩ := h
    exact ⟨rfl, hc⟩
  | level + 1, cands, out, s', hL, hc, h => by
    rw [greedyDescent] at h
    split at h
    · obtain ⟨found, s₁, h1, h⟩ := Prog.bind_returns.mp h
      obtain ⟨rfl, hrun⟩ := atLevel_read h1 fun t ht =>
        (greedySearch_spec (s := s.view (level + 1)) hq (hs.names _) hc ht).1
      obtain ⟨-, hfound⟩ := greedySearch_spec (s := s.view (level + 1)) hq (hs.names _) hc hrun
      obtain ⟨next, s₂, h2, h⟩ := Prog.bind_returns.mp h
      obtain ⟨rfl, hnext⟩ := advanceToNextLevel_spec (P := Good (s.level level) (s.live level)) hq
        (fun n hn => by
          obtain ⟨b, c, hb, hc, hgood⟩ := hs.good_lower (hfound n hn)
          exact ⟨b, ⟨c, false⟩, hb, hc, hgood⟩) h2
      exact greedyDescent_spec hs hq (by omega) hnext h
    · rename_i hno
      obtain rfl : L = level + 1 := by omega
      simp only [Prog.pure_apply, Prod.mk.injEq, Except.ok.injEq] at h
      obtain ⟨rfl, rfl⟩ := h
      exact ⟨rfl, hc⟩

/-! ### Building the tower -/

/-- `t'` is `t` with another bone for the record `a`. -/
structure Reboned (a : ℕ) (f : Bone → Bone) (t t' : LevelStore) : Prop where
  chains : t'.Chains
  kept : Kept Set.univ t t'
  bone : t'.bone a = (t.bone a).map f
  other : ∀ b, b ≠ a → t'.bone b = t.bone b

/-- `t'` is `t` with another lower node for the record `a`. -/
abbrev Relowered (a : ℕ) (v : Option NID) : LevelStore → LevelStore → Prop :=
  Reboned a fun b => { b with lowerLevel := v }

/-- The new record `x` of level `k`: nothing names it, and its links are to be landed. -/
structure Built (g : IndexGraph Data Dist) (owner : ℕ) (low : Option NID) (k x : ℕ) (t t' : LevelStore) :
    Prop where
  fresh : ¬ t.Live x
  chains : t'.Chains
  around : Around (g.ctx k).maxNeighbours t' {a | t.Live a} x ∅
  pending : Pending (g.ctx k).maxNeighbours t' {a | t.Live a} x ∅
  bone : t'.bone x = some ⟨g.trxRef, false, owner, low, (g.ctx k).maxNeighbours⟩
  other : ∀ b, b ≠ x → t'.bone b = t.bone b
  backed : Backed t {a | t.Live a} → Backed t' {a | t.Live a}

/-- The record is given its lower node. -/
theorem Built.relower {owner k x : ℕ} {low v : Option NID} {t₀ t t' : LevelStore}
    (h : Built g owner low k x t₀ t) (hr : Relowered x v t t') : Built g owner v k x t₀ t' where
  fresh := h.fresh
  chains := hr.chains
  around := h.around.kept hr.kept
  pending := h.pending.kept hr.kept
  bone := by rw [hr.bone, h.bone]; rfl
  other b hb := (hr.other b hb).trans (h.other b hb)
  backed hB := (h.backed hB).kept h.around.toMutual (hr.kept.mono (Set.subset_univ _))

/-- The record of a new node at one level. -/
theorem createAt_spec (hq : s.Quiet) (hc : (s.level l).Chains)
    (hm : Mutual (g.ctx l).maxNeighbours (s.level l) (s.live l)) {owner : ℕ} {ns : List Node}
    (hgood : ∀ n ∈ ns, Good (s.level l) (s.live l) n) (hnd : (ns.map fun n => n.nid.ref).Nodup)
    (hlen : ns.length ≤ g.M) {node : Node}
    (h : atLevel l (createNode (g.ctx l) owner ns) s = (.ok node, s')) :
    ∃ x, node = ⟨⟨x, false⟩, owner⟩ ∧ Built g owner none l x (s.level l) (s'.level l) ∧ s'.Quiet ∧
      SameEntry s s' ∧ ∀ k, k ≠ l → s'.level k = s.level k := by
  obtain ⟨t, hrun, hat⟩ := atLevel_spec h
  obtain ⟨x, rfl, hfresh, hch, hbone, ha, hp⟩ := createNode_spec (s := s.view l) (V := s.live l) hq hc hm
    (fun a ha => ha) hgood hnd (hlen.trans M_le_maxNeighbours) hrun
  refine ⟨x, rfl, ?_, by rw [hat.supply]; exact hch.quiet, hat.sameEntry, hat.other⟩
  rw [hat.here]
  exact ⟨hfresh, hch.chains, ha, hp, hbone, hch.bone,
    fun hB => hB.kept hm (hch.kept.mono fun a ha he => hfresh (he ▸ ha))⟩

theorem setLowerAt_spec (hq : s.Quiet) (hc : (s.level l).Chains) {p : NID} {v : Option NID}
    (h : atLevel l (update p fun e => { e with lowerLevel := v }) s = (.ok (), s')) :
    Relowered p.ref v (s.level l) (s'.level l) ∧ s'.Quiet ∧ SameEntry s s' ∧
      ∀ k, k ≠ l → s'.level k = s.level k := by
  obtain ⟨t, hrun, hat⟩ := atLevel_spec h
  obtain ⟨hch, hk, hb⟩ := setLower_spec (s := s.view l) hq hc hrun
  refine ⟨?_, by rw [hat.supply]; exact hch.quiet, hat.sameEntry, hat.other⟩
  rw [hat.here]
  exact ⟨hch.chains, hk, hb, hch.bone⟩

/-- What happens at the level above: nothing, or the parent is given another lower node. -/
def ParentOf (parent : Option Node) (v : Option NID) (t t' : LevelStore) : Prop :=
  match parent with
  | none => t' = t
  | some p => Relowered p.nid.ref v t t'

theorem getKeyRef_returns (hq : s.Quiet) {data : Data} {owner : ℕ} (h : getKeyRef g data s = (.ok owner, s')) :
    g.index.getKeyRef data = some owner ∧ s' = s := by
  obtain ⟨_, s₁, hcall, h⟩ := Prog.bind_returns.mp h
  obtain ⟨rfl, -⟩ := atLevel_read hcall fun t ht => by
    rw [load_quiet (s := s.view 0) hq] at ht
    exact (Prod.mk.inj ht).2
  exact Prog.ofOption_returns.mp h

theorem create_spec (hq : s.Quiet) (hc : (s.level l).Chains)
    (hm : Mutual (g.ctx l).maxNeighbours (s.level l) (s.live l)) {parent : Option Node}
    (hpar : parent.isSome → (s.level (l + 1)).Chains) {data : Data} {ns : List Node}
    (hgood : ∀ n ∈ ns, Good (s.level l) (s.live l) n) (hnd : (ns.map fun n => n.nid.ref).Nodup)
    (hlen : ns.length ≤ g.M) {node : Node} (h : create g parent l data ns s = (.ok node, s')) :
    ∃ owner x, g.index.getKeyRef data = some owner ∧ node = ⟨⟨x, false⟩, owner⟩ ∧
      Built g owner none l x (s.level l) (s'.level l) ∧ s'.Quiet ∧ SameEntry s s' ∧
      ParentOf parent (some ⟨x, false⟩) (s.level (l + 1)) (s'.level (l + 1)) ∧
      ∀ k, k ≠ l → k ≠ l + 1 → s'.level k = s.level k := by
  rw [create, Prog.bind_returns] at h
  obtain ⟨owner, s₁, ho, h⟩ := h
  obtain ⟨hown, rfl⟩ := getKeyRef_returns hq ho
  rcases parent with _ | p
  · obtain ⟨x, hx, hb, hq', he, hother⟩ := createAt_spec hq hc hm hgood hnd hlen h
    exact ⟨owner, x, hown, hx, hb, hq', he, hother _ (by omega), fun k h1 _ => hother k h1⟩
  · obtain ⟨e, s₂, hf, h⟩ := Prog.bind_returns.mp h
    obtain ⟨rfl, -⟩ := atLevel_read hf fun t ht => ((fetch_returns (s := s₁.view (l + 1)) hq).mp ht).2
    obtain ⟨m, s₃, h1, h⟩ := Prog.bind_returns.mp h
    obtain ⟨x, rfl, hb, hq₃, he₃, hother₃⟩ := createAt_spec hq hc hm hgood hnd hlen h1
    obtain ⟨_, s₄, h2, h⟩ := Prog.bind_returns.mp h
    simp only [Prog.pure_apply, Prod.mk.injEq, Except.ok.injEq] at h
    obtain ⟨rfl, rfl⟩ := h
    obtain ⟨hr, hq₄, he₄, hother₄⟩ := setLowerAt_spec hq₃ (by rw [hother₃ _ (by omega)]; exact hpar rfl) h2
    rw [hother₃ (l + 1) (by omega)] at hr
    refine ⟨owner, x, hown, rfl, by rw [hother₄ l (by omega)]; exact hb, hq₄, he₃.trans he₄, hr,
      fun k h1 h2 => (hother₄ k h2).trans (hother₃ k h1)⟩

/-- The neighbours of the new node at a level. -/
theorem findNeighbours_spec (hq : s.Quiet) {data : Data} {E : ℕ}
    (hm : Mutual (g.ctx l).maxNeighbours (s.level l) (s.live l)) {cands : List Node}
    (hc : ∀ n ∈ cands, Good (s.level (min l E)) (s.live (min l E)) n) {r : List Node × List Node}
    (h : findNeighbours g data E l cands s = (.ok r, s')) :
    s = s' ∧ (∀ n ∈ r.1, Good (s.level l) (s.live l) n) ∧ (r.1.map fun n => n.nid.ref).Nodup ∧
      r.1.length ≤ g.M ∧ ∀ n ∈ r.2, Good (s.level (min l E)) (s.live (min l E)) n := by
  rw [findNeighbours] at h
  split at h
  · simp only [Prog.pure_apply, Prod.mk.injEq, Except.ok.injEq] at h
    obtain ⟨rfl, rfl⟩ := h
    exact ⟨rfl, by simp, by simp, by simp, hc⟩
  · rw [min_eq_left (by omega)] at hc ⊢
    obtain ⟨rfl, hrun⟩ := atLevel_read h fun t ht => (selectNeighbours_spec (s := s.view l) hq hm hc ht).1
    obtain ⟨-, hp, hlen, hpool⟩ := selectNeighbours_spec (s := s.view l) hq hm hc hrun
    exact ⟨rfl, hp.good, hp.nodup, hlen, hpool⟩

/-- The lower node of the record at level `k`, when the tower has the records `X`. -/
def lowOf (X : ℕ → ℕ) (k : ℕ) : Option NID := if k = 0 then none else some ⟨X (k - 1), false⟩

/-- The new tower, with all its links to be landed; the levels above are not
touched but for the parent of its top record. -/
theorem buildTower_spec {data : Data} {E : ℕ} : ∀ {level : ℕ} {parent : Option Node} {cands : List Node}
    {ws : List (Node × ℕ)} {s s' : GraphState}, s.Quiet → (∀ k, (s.level k).Chains) →
    (∀ k ≤ level, Mutual (g.ctx k).maxNeighbours (s.level k) (s.live k)) →
    (∀ k < level, ∀ n, Good (s.level (k + 1)) (s.live (k + 1)) n → ∃ b c,
      s.bone (k + 1) n.nid.ref = some b ∧ b.lowerLevel = some c ∧
      Good (s.level k) (s.live k) ⟨c, n.vid⟩) →
    (∀ n ∈ cands, Good (s.level (min level E)) (s.live (min level E)) n) →
    buildTower g data E level parent cands s = (.ok ws, s') →
    ∃ owner X, g.index.getKeyRef data = some owner ∧
      ws = (List.range (level + 1)).map (fun k => (⟨⟨X k, false⟩, owner⟩, k)) ∧
      s'.Quiet ∧ SameEntry s s' ∧
      (∀ k ≤ level, Built g owner (lowOf X k) k (X k) (s.level k) (s'.level k)) ∧
      ParentOf parent (some ⟨X level, false⟩) (s.level (level + 1)) (s'.level (level + 1)) ∧
      ∀ k, level + 1 < k → s'.level k = s.level k
  | 0, parent, cands, ws, s, s', hq, hch, hm, _, hc, h => by
    rw [buildTower, Prog.bind_returns] at h
    obtain ⟨⟨ns, pool⟩, s₁, h1, h⟩ := h
    obtain ⟨rfl, hgood, hnd, hlen, -⟩ := findNeighbours_spec hq (hm 0 (le_refl _)) hc h1
    obtain ⟨node, s₂, h2, h⟩ := Prog.bind_returns.mp h
    obtain ⟨owner, x, hown, rfl, hb, hq₂, he, hpar, hother⟩ :=
      create_spec hq (hch 0) (hm 0 (le_refl _)) (fun _ => hch 1) hgood hnd hlen h2
    simp only [Prog.pure_apply, Prod.mk.injEq, Except.ok.injEq] at h
    obtain ⟨rfl, rfl⟩ := h
    refine ⟨owner, fun _ => x, hown, rfl, hq₂, he, fun k hk => ?_, hpar,
      fun k hk => hother k (by omega) (by omega)⟩
    obtain rfl : k = 0 := by omega
    exact hb
  | level + 1, parent, cands, ws, s, s', hq, hch, hm, hlow, hc, h => by
    rw [buildTower, Prog.bind_returns] at h
    obtain ⟨⟨ns, found⟩, s₁, h1, h⟩ := h
    obtain ⟨rfl, hgood, hnd, hlen, hfound⟩ := findNeighbours_spec hq (hm _ (le_refl _)) hc h1
    obtain ⟨node, s₁, h2, h⟩ := Prog.bind_returns.mp h
    obtain ⟨owner, x, hown, rfl, hb, hq₁, he₁, hpar₁, hother₁⟩ :=
      create_spec hq (hch _) (hm _ (le_refl _)) (fun _ => hch _) hgood hnd hlen h2
    have hlev : ∀ k ≤ level, s₁.level k = s.level k := fun k hk => hother₁ k (by omega) (by omega)
    have hlive : ∀ k ≤ level, s₁.live k = s.live k := fun k hk => by
      rw [GraphState.live, GraphState.live, hlev k hk]
    -- the candidates go down with the tower once it is below the entry level
    have hnext : ∃ next, (∀ n ∈ next, Good (s.level (min level E)) (s.live (min level E)) n) ∧
        (buildTower g data E level (some ⟨⟨x, false⟩, owner⟩) next >>= fun rest =>
          pure (rest ++ [(⟨⟨x, false⟩, owner⟩, level + 1)])) s₁ = (.ok ws, s') := by
      split at h
      · rename_i hE
        rw [min_eq_left hE] at hfound
        rw [min_eq_left (by omega)]
        obtain ⟨next, s₂, h3, h⟩ := Prog.bind_returns.mp h
        obtain ⟨rfl, hn⟩ := advanceToNextLevel_spec (P := Good (s.level level) (s.live level)) hq₁
          (fun n hn => by
            obtain ⟨b, c, hb', hc', hg⟩ := hlow level (by omega) n (hfound n hn)
            refine ⟨b, c, ?_, hc', hg⟩
            have hne : n.nid.ref ≠ x := fun he => hb.fresh (he ▸ (hfound n hn).mem)
            exact (hb.other _ hne).trans hb') h3
        exact ⟨next, hn, h⟩
      · rename_i hE
        rw [min_eq_right (by omega)] at hfound ⊢
        exact ⟨found, hfound, h⟩
    obtain ⟨next, hnext, h⟩ := hnext
    obtain ⟨rest, s₃, h4, h⟩ := Prog.bind_returns.mp h
    simp only [Prog.pure_apply, Prod.mk.injEq, Except.ok.injEq] at h
    obtain ⟨rfl, rfl⟩ := h
    have hch₁ : ∀ k, (s₁.level k).Chains := fun k => by
      by_cases hk : k = level + 1
      · rw [hk]
        exact hb.chains
      · by_cases hk' : k = level + 1 + 1
        · rw [hk']
          rcases parent with _ | p
          · rw [show s₁.level _ = _ from hpar₁]
            exact hch _
          · exact hpar₁.chains
        · rw [hother₁ k hk hk']
          exact hch k
    obtain ⟨owner', X, hown', rfl, hq₃, he₃, hbuilt, hpar₃, hother₃⟩ := buildTower_spec
      hq₁ hch₁
      (fun k hk => by rw [hlev k hk, hlive k hk]; exact hm k (by omega))
      (fun k hk n hn => by
        rw [hlev k (by omega), hlive k (by omega)]
        rw [hlev (k + 1) (by omega), hlive (k + 1) (by omega)] at hn
        rw [GraphState.bone, hlev (k + 1) (by omega)]
        exact hlow k (by omega) n hn)
      (fun n hn => by
        rw [hlev _ (min_le_left _ _), hlive _ (min_le_left _ _)]
        exact hnext n hn) h4
    obtain rfl : owner = owner' := Option.some.inj (hown.symm.trans hown')
    have hX : ∀ k ≤ level, Function.update X (level + 1) x k = X k := fun k hk =>
      Function.update_of_ne (by omega) _ _
    refine ⟨owner, Function.update X (level + 1) x, hown, ?_, hq₃, he₁.trans he₃, fun k hk => ?_, ?_,
      fun k hk => (hother₃ k (by omega)).trans (hother₁ k (by omega) (by omega))⟩
    · rw [List.range_succ (n := level + 1), List.map_append]
      congr 1
      · refine List.map_congr_left fun k hk => ?_
        rw [hX k (by have := List.mem_range.mp hk; omega)]
      · simp
    · by_cases hk' : k = level + 1
      · subst hk'
        rw [lowOf, if_neg (by omega), Nat.add_sub_cancel, hX level (le_refl _), Function.update_self]
        exact hb.relower hpar₃
      · have hle : k ≤ level := by omega
        have hlow' : lowOf (Function.update X (level + 1) x) k = lowOf X k := by
          rw [lowOf, lowOf]
          split
          · rfl
          · rw [hX (k - 1) (by omega)]
        rw [hX k hle, hlow', ← hlev k hle]
        exact hbuilt k hle
    · rw [Function.update_self, hother₃ _ (by omega)]
      exact hpar₁

/-! ### An entry point without a record -/

theorem create_frame (hq : s.Quiet) {parent : Option Node} {data : Data} {ns : List Node} {node : Node}
    (h : create g parent l data ns s = (.ok node, s')) :
    s'.Quiet ∧ ∀ k, k ≠ l → k ≠ l + 1 → s'.level k = s.level k := by
  have hnew {owner : ℕ} {s s' : GraphState} {m : Node} (hq : s.Quiet)
      (h : atLevel l (createNode (g.ctx l) owner ns) s = (.ok m, s')) :
      s'.Quiet ∧ ∀ k, k ≠ l → s'.level k = s.level k := by
    obtain ⟨t, hrun, hat⟩ := atLevel_spec h
    rw [createNode, Prog.bind_returns] at hrun
    obtain ⟨nid, t₁, h1, h2⟩ := hrun
    obtain ⟨x, rs, -, -, -, rfl⟩ := insert_returns (s := s.view l) hq h1
    simp only [Prog.pure_apply, Prod.mk.injEq] at h2
    rw [← h2.2] at hat
    exact ⟨by rw [hat.supply]; exact hq, hat.other⟩
  rw [create, Prog.bind_returns] at h
  obtain ⟨owner, s₁, ho, h⟩ := h
  obtain ⟨-, rfl⟩ := getKeyRef_returns hq ho
  rcases parent with _ | p
  · obtain ⟨h1, h2⟩ := hnew hq h
    exact ⟨h1, fun k hk _ => h2 k hk⟩
  · obtain ⟨e, s₂, hf, h⟩ := Prog.bind_returns.mp h
    obtain ⟨rfl, -⟩ := atLevel_read hf fun t ht => ((fetch_returns (s := s₁.view (l + 1)) hq).mp ht).2
    obtain ⟨m, s₃, h1, h⟩ := Prog.bind_returns.mp h
    obtain ⟨hq₃, hother₃⟩ := hnew hq h1
    obtain ⟨_, s₄, h2, h⟩ := Prog.bind_returns.mp h
    simp only [Prog.pure_apply, Prod.mk.injEq] at h
    rw [← h.2]
    obtain ⟨t, hrun, hat⟩ := atLevel_spec h2
    obtain ⟨r, -, rfl⟩ := (update_returns (s := s₃.view (l + 1)) hq₃).mp hrun
    exact ⟨by rw [hat.supply]; exact hq₃, fun k h1 h2 => (hat.other k h2).trans (hother₃ k h1)⟩

theorem selectNeighbours_stuck {data : Data} {n : Node} (hq : s.Quiet) (hn : n.nid.ref ∉ s.live l)
    {r : List Node × List Node} : atLevel l (selectNeighbours g (.data data) [n]) s ≠ (.ok r, s') := by
  intro h
  obtain ⟨t, hrun, -⟩ := atLevel_spec h
  rw [selectNeighbours, Prog.bind_returns] at hrun
  obtain ⟨st, t₁, h1, -⟩ := hrun
  exact searchLayer_stuck (s := s.view l) hq hn h1

/-- A tower is not built from an entry point without a record. -/
theorem buildTower_stuck {data : Data} {E : ℕ} {n : Node} : ∀ {level : ℕ} {parent : Option Node}
    {ws : List (Node × ℕ)} {s s' : GraphState}, E ≤ level → s.Quiet → n.nid.ref ∉ s.live E →
    buildTower g data E level parent [n] s ≠ (.ok ws, s')
  | 0, parent, ws, s, s', hE, hq, hn, h => by
    obtain rfl : E = 0 := by omega
    rw [buildTower, Prog.bind_returns] at h
    obtain ⟨r, s₁, h1, -⟩ := h
    rw [findNeighbours, if_neg (by omega)] at h1
    exact selectNeighbours_stuck hq hn h1
  | level + 1, parent, ws, s, s', hE, hq, hn, h => by
    rw [buildTower, Prog.bind_returns] at h
    obtain ⟨⟨ns, found⟩, s₁, h1, h⟩ := h
    rw [findNeighbours] at h1
    split at h1
    · rename_i hlt
      simp only [Prog.pure_apply, Prod.mk.injEq, Except.ok.injEq] at h1
      obtain ⟨⟨rfl, rfl⟩, rfl⟩ := h1
      obtain ⟨node, s₂, h2, h⟩ := Prog.bind_returns.mp h
      obtain ⟨hq₂, hother⟩ := create_frame hq h2
      rw [if_neg (by omega), Prog.pure_bind] at h
      obtain ⟨rest, s₃, h3, -⟩ := Prog.bind_returns.mp h
      refine buildTower_stuck (by omega) hq₂ ?_ h3
      rwa [GraphState.live, hother E (by omega) (by omega)]
    · obtain rfl : E = level + 1 := by omega
      exact selectNeighbours_stuck hq hn h1

theorem greedyDescent_stuck {data : Data} {L level : ℕ} {n : Node} (hL : L < level) (hq : s.Quiet)
    (hn : n.nid.ref ∉ s.live level) {out : List Node} :
    greedyDescent g data L level [n] s ≠ (.ok out, s') := by
  intro h
  obtain ⟨level, rfl⟩ : ∃ k, level = k + 1 := ⟨level - 1, by omega⟩
  rw [greedyDescent, if_pos hL, Prog.bind_returns] at h
  obtain ⟨found, s₁, h1, -⟩ := h
  obtain ⟨t, hrun, -⟩ := atLevel_spec h1
  rw [greedySearch, Prog.bind_returns] at hrun
  obtain ⟨st, t₁, h2, -⟩ := hrun
  exact searchLayer_stuck (s := s.view (level + 1)) hq hn h2

/-! ### The whole operation -/

/-- Level `k` with its new record linked. -/
structure Linked (g : IndexGraph Data Dist) (k x : ℕ) (V : Set ℕ) (t t' : LevelStore) : Prop where
  chains : t'.Chains
  names : Mutual (g.ctx k).maxNeighbours t' (Insert.insert x V)
  bone : ∀ a, t'.bone a = t.bone a
  backed : Backed t V → Backed t' (Insert.insert x V)

/-- The nodes of the new tower are linked level by level. -/
theorem linkTower_spec (hM : 0 < g.M) {owner L : ℕ} {X : ℕ → ℕ} {s₀ s₁ : GraphState}
    (hbuilt : ∀ k ≤ L, Built g owner (lowOf X k) k (X k) (s₀.level k) (s₁.level k)) (hq : s₁.Quiet)
    (h : ((List.range (L + 1)).map fun k => ((⟨⟨X k, false⟩, owner⟩ : Node), k)).forM
      (fun w => atLevel w.2 (linkNode g w.2 w.1)) s₁ = (.ok (), s')) :
    s'.Quiet ∧ SameEntry s₁ s' ∧ (∀ k ≤ L, Linked g k (X k) (s₀.live k) (s₁.level k) (s'.level k)) ∧
      ∀ k, L < k → s'.level k = s₁.level k := by
  obtain ⟨h1, h2, -, -, h3, h4⟩ := Prog.forM_returns
    (fun (rest : List (Node × ℕ)) t => t.Quiet ∧ SameEntry s₁ t ∧ (rest.map Prod.snd).Nodup ∧
      (∀ w ∈ rest, w.2 ≤ L ∧ w.1 = ⟨⟨X w.2, false⟩, owner⟩) ∧
      (∀ k, k ∈ rest.map Prod.snd ∨ L < k → t.level k = s₁.level k) ∧
      ∀ k ≤ L, k ∉ rest.map Prod.snd → Linked g k (X k) (s₀.live k) (s₁.level k) (t.level k))
    (fun w rest t t' ⟨hq, he, hnd, hws, hsame, hdone⟩ hrun => by
      obtain ⟨hle, hw⟩ := hws w (by simp)
      obtain ⟨u, hrun, hat⟩ := atLevel_spec hrun
      have hlev := hsame w.2 (.inl (by simp))
      have hb := hbuilt w.2 hle
      rw [← hlev] at hb
      obtain ⟨hr, hm, hB⟩ := linkNode_spec (s := t.view w.2) hM hq hb.chains hb.around hb.pending
        (by rw [hw]) (by
          show ((t.level w.2).bone (X w.2)).map Bone.owner = _
          rw [hb.bone, hw]
          rfl) hrun
      rw [List.map_cons, List.nodup_cons] at hnd
      refine ⟨by rw [hat.supply]; exact hr.quiet, he.trans hat.sameEntry, hnd.2,
        fun v hv => hws v (List.mem_cons_of_mem _ hv), fun k hk => ?_, fun k hk hno => ?_⟩
      · have hne : k ≠ w.2 := by
          rintro rfl
          rcases hk with hk | hk
          · exact hnd.1 hk
          · omega
        rw [hat.other k hne]
        exact hsame k (hk.imp (fun h => by simp [h]) id)
      · by_cases hkw : k = w.2
        · subst hkw
          rw [hat.here]
          rw [← hlev]
          exact ⟨hr.chains, hm, hr.bone, hB⟩
        · rw [hat.other k hkw]
          exact hdone k hk (by simp [hkw, hno]))
    _ s₁ s' ⟨hq, ⟨rfl, rfl⟩, by simpa [Function.comp_def] using List.nodup_range,
      fun w hw => by
        obtain ⟨k, hk, rfl⟩ := List.mem_map.mp hw
        have := List.mem_range.mp hk
        exact ⟨by omega, rfl⟩,
      fun k _ => rfl, fun k hk hno => absurd (by simpa [Function.comp_def] using by omega) hno⟩ h
  exact ⟨h1, h2, fun k hk => h4 k hk (by simp), fun k hk => h3 k (.inr hk)⟩

theorem ensureLevels_spec (hq : s.Quiet) {target : ℕ} (h : ensureLevels target s = (.ok (), s')) :
    s'.Quiet ∧ SameEntry s s' ∧ ∀ k, s'.level k = s.level k := by
  rw [ensureLevels, Prog.get_bind] at h
  refine Prog.forM_returns (fun _ t => t.Quiet ∧ SameEntry s t ∧ ∀ k, t.level k = s.level k)
    (fun _ _ t t' ⟨hq, he, hl⟩ hrun => ?_) _ s s' ⟨hq, ⟨rfl, rfl⟩, fun _ => rfl⟩ h
  rw [initLevel, Prog.bind_returns] at hrun
  obtain ⟨_, t₁, h1, h2⟩ := hrun
  obtain ⟨rfl, -⟩ := atLevel_read h1 fun u hu => by
    rw [load_quiet (s := t.view 0) hq, Prod.mk.injEq] at hu
    exact hu.2
  simp only [Prog.modify_apply, Prod.mk.injEq, true_and] at h2
  subst h2
  refine ⟨hq, he, fun k => ?_⟩
  rw [← hl k]
  -- a level that is not there reads as an empty one
  simp only [GraphState.level, List.getElem?_append]
  split
  · rfl
  · rename_i hk
    rw [List.getElem?_eq_none (by omega : t.levels.length ≤ k)]
    rcases hd : k - t.levels.length with _ | _ <;> simp

/-- What an insert adds: a record at every level up to `L`. -/
structure Grown (g : IndexGraph Data Dist) (owner L : ℕ) (X : ℕ → ℕ) (s s' : GraphState) : Prop where
  chains : ∀ l, (s'.level l).Chains
  names : ∀ l, Mutual (LevelStore.maxNeighbours l g.M) (s'.level l) (s'.live l)
  fresh : ∀ k ≤ L, X k ∉ s.live k
  bone : ∀ k ≤ L, s'.bone k (X k) = some ⟨g.trxRef, false, owner, lowOf X k, (g.ctx k).maxNeighbours⟩
  other : ∀ k a, (k ≤ L → a ≠ X k) → s'.bone k a = s.bone k a
  backed : (∀ l, Backed (s.level l) (s.live l)) → ∀ l, Backed (s'.level l) (s'.live l)

theorem Grown.live {owner L : ℕ} {X : ℕ → ℕ} (h : Grown g owner L X s s') (k a : ℕ) :
    a ∈ s'.live k ↔ a ∈ s.live k ∨ k ≤ L ∧ a = X k := by
  by_cases ha : k ≤ L ∧ a = X k
  · obtain ⟨hk, rfl⟩ := ha
    simp [GraphState.mem_live_iff, h.bone k hk, hk]
  · rw [GraphState.mem_live_iff, GraphState.mem_live_iff, h.other k a fun hk hax => ha ⟨hk, hax⟩]
    simp [ha]

/-- The entry point names a record with its owner, if it names a record at all. -/
def EntryNamed (s : GraphState) : Prop := ∀ n, s.entryPoint = some n → n.nid.incoming = false ∧
  (n.nid.ref ∈ s.live s.entryLevel → (s.level s.entryLevel).ownerOf n.nid.ref = some n.vid)

/-- **Insert.** It adds a tower that is linked at every level, and makes it the
entry point if it is higher or the first. It does not return if the entry point
has no record. -/
theorem insert_spec (hM : 0 < g.M) (hs : Resting g.M s) (hq : s.Quiet) (hentry : EntryNamed s)
    {data : Data} {L : ℕ} {node : Node} (h : insert g data L s = (.ok node, s')) :
    ∃ owner X, g.index.getKeyRef data = some owner ∧ node = ⟨⟨X L, false⟩, owner⟩ ∧
      Grown g owner L X s s' ∧ (∀ n, s.entryPoint = some n → n.nid.ref ∈ s.live s.entryLevel) ∧
      (s'.entryPoint = some node ∧ s'.entryLevel = L ∨ SameEntry s s' ∧ s.entryPoint.isSome) := by
  rw [insert, getEntryPoint, Prog.bind_returns] at h
  obtain ⟨⟨entry, E⟩, s₁, h1, h⟩ := h
  simp only [Prog.get_bind, Prog.pure_apply, Prod.mk.injEq, Except.ok.injEq] at h1
  obtain ⟨hE, rfl⟩ := h1
  obtain ⟨_, s₂, h2, h⟩ := Prog.bind_returns.mp h
  obtain ⟨hq₂, he₂, hlev₂⟩ := ensureLevels_spec hq h2
  have hlive₂ : ∀ k, s₂.live k = s.live k := fun k => by rw [GraphState.live, GraphState.live, hlev₂ k]
  have hs₂ : Resting g.M s₂ := by
    refine ⟨fun l => by rw [hlev₂]; exact hs.chains l, fun l => by rw [hlev₂, hlive₂]; exact hs.names l, ?_⟩
    intro l a b hb
    simp only [GraphState.bone, hlev₂] at hb ⊢
    exact hs.lower l a b hb
  obtain ⟨cands, s₃, h3, h⟩ := Prog.bind_returns.mp h
  obtain ⟨ws, s₄, h4, h⟩ := Prog.bind_returns.mp h
  -- the entry point has a record, or the search from it would not return
  have hlive : ∀ n, s.entryPoint = some n → n.nid.ref ∈ s.live s.entryLevel := fun n hn => by
    by_contra hdead
    rw [hn] at hE
    simp only [Prod.mk.injEq] at hE
    obtain ⟨rfl, rfl⟩ := hE
    rw [← hlive₂] at hdead
    by_cases hlt : L < s.entryLevel
    · rw [max_eq_left (by omega)] at h3
      exact greedyDescent_stuck hlt hq₂ hdead h3
    · rw [max_eq_right (by omega)] at h3
      obtain ⟨rfl, rfl⟩ : cands = [n] ∧ s₃ = s₂ := by
        cases L with
        | zero => simpa [greedyDescent, eq_comm] using h3
        | succ L => simpa [greedyDescent, eq_comm] using h3
      exact buildTower_stuck (by omega) hq₂ hdead h4
  have hgood : ∀ n ∈ entry, Good (s₂.level E) (s₂.live E) n := fun n hn => by
    rcases hn' : s.entryPoint with _ | m
    · rw [hn'] at hE
      simp only [Prod.mk.injEq] at hE
      rw [← hE.1] at hn
      simp at hn
    · rw [hn'] at hE
      simp only [Prod.mk.injEq] at hE
      obtain ⟨rfl, rfl⟩ := hE
      rw [List.mem_singleton.mp hn, hlev₂, hlive₂]
      exact ⟨hlive m hn', (hentry m hn').1, (hentry m hn').2 (hlive m hn')⟩
  have hcands : s₂ = s₃ ∧ ∀ n ∈ cands, Good (s₂.level (min L E)) (s₂.live (min L E)) n := by
    by_cases hlt : L < E
    · rw [max_eq_left (by omega)] at h3
      rw [min_eq_left (by omega)]
      exact greedyDescent_spec hs₂ hq₂ (by omega) hgood h3
    · rw [max_eq_right (by omega)] at h3
      rw [min_eq_right (by omega)]
      obtain ⟨rfl, rfl⟩ : cands = entry ∧ s₃ = s₂ := by
        cases L with
        | zero => simpa [greedyDescent, eq_comm] using h3
        | succ L => simpa [greedyDescent, eq_comm] using h3
      exact ⟨rfl, hgood⟩
  obtain ⟨rfl, hcands⟩ := hcands
  obtain ⟨owner, X, hown, rfl, hq₄, he₄, hbuilt, hpar, hother⟩ := buildTower_spec hq₂ hs₂.chains
    (fun k _ => hs₂.names k) (fun k _ n hn => by
      obtain ⟨b, c, hb, hc, hg⟩ := hs₂.good_lower hn
      exact ⟨b, ⟨c, false⟩, hb, hc, hg⟩) hcands h4
  obtain ⟨_, s₅, h5, h⟩ := Prog.bind_returns.mp h
  obtain ⟨hq₅, he₅, hlinked, hother₅⟩ := linkTower_spec hM hbuilt hq₄ h5
  have htop : ((((List.range (L + 1)).map fun k => ((⟨⟨X k, false⟩, owner⟩ : Node), k)).getLast?.map
      Prod.fst).getD ⟨⟨0, false⟩, 0⟩) = ⟨⟨X L, false⟩, owner⟩ := by
    rw [List.range_succ, List.map_append]
    simp
  have hgrown : Grown g owner L X s s₅ := by
    have habove : ∀ k, L < k → s₅.level k = s.level k := fun k hk => by
      rw [hother₅ k hk]
      by_cases hk' : k = L + 1
      · rw [hk', show s₄.level (L + 1) = _ from hpar, hlev₂]
      · rw [hother k (by omega), hlev₂]
    have hbone : ∀ k ≤ L, ∀ a, s₅.bone k a = s₄.bone k a := fun k hk a => (hlinked k hk).bone a
    have hbx : ∀ k ≤ L, s₅.bone k (X k) = some ⟨g.trxRef, false, owner, lowOf X k,
        (g.ctx k).maxNeighbours⟩ := fun k hk => (hbone k hk _).trans (hbuilt k hk).bone
    have hbo : ∀ k a, (k ≤ L → a ≠ X k) → s₅.bone k a = s.bone k a := fun k a ha => by
      by_cases hk : k ≤ L
      · rw [hbone k hk, GraphState.bone, (hbuilt k hk).other a (ha hk), hlev₂]
        rfl
      · rw [GraphState.bone, habove k (by omega)]
        rfl
    have hset : ∀ k ≤ L, s₅.live k = Insert.insert (X k) (s₂.live k) := fun k hk => by
      ext a
      rw [Set.mem_insert_iff, hlive₂]
      by_cases ha : a = X k
      · subst ha
        simp [GraphState.mem_live_iff, hbx k hk]
      · rw [GraphState.mem_live_iff, GraphState.mem_live_iff, hbo k a fun _ => ha]
        simp [ha]
    refine ⟨fun k => ?_, fun k => ?_, fun k hk => ?_, hbx, hbo, fun hB k => ?_⟩
    · by_cases hk : k ≤ L
      · exact (hlinked k hk).chains
      · rw [habove k (by omega)]
        exact hs.chains k
    · by_cases hk : k ≤ L
      · rw [hset k hk]
        exact (hlinked k hk).names
      · rw [GraphState.live, habove k (by omega)]
        exact hs.names k
    · rw [← hlive₂]
      exact (hbuilt k hk).fresh
    · by_cases hk : k ≤ L
      · rw [hset k hk]
        refine (hlinked k hk).backed ((hbuilt k hk).backed ?_)
        rw [hlev₂]
        exact hB k
      · rw [GraphState.live, habove k (by omega)]
        exact hB k
  rw [htop] at h
  refine ⟨owner, X, hown, ?_⟩
  have hsame : SameEntry s s₅ := (he₂.trans he₄).trans he₅
  split at h
  · obtain ⟨_, s₆, h6, h⟩ := Prog.bind_returns.mp h
    simp only [Prog.pure_apply, Prod.mk.injEq, Except.ok.injEq] at h
    obtain ⟨rfl, rfl⟩ := h
    rw [setEntryPoint, Prog.bind_returns] at h6
    obtain ⟨_, s₇, h7, h6⟩ := h6
    obtain ⟨rfl, -⟩ := atLevel_read h7 fun u hu => by
      rw [load_quiet (s := s₅.view 0) hq₅, Prod.mk.injEq] at hu
      exact hu.2
    simp only [Prog.modify_apply, Prod.mk.injEq, true_and] at h6
    subst h6
    exact ⟨rfl, ⟨hgrown.chains, hgrown.names, hgrown.fresh, hgrown.bone, hgrown.other, hgrown.backed⟩, hlive,
      .inl ⟨rfl, rfl⟩⟩
  · rename_i hnew
    simp only [Prog.pure_apply, Prod.mk.injEq, Except.ok.injEq] at h
    obtain ⟨rfl, rfl⟩ := h
    refine ⟨rfl, hgrown, hlive, .inr ⟨hsame, ?_⟩⟩
    rcases hn : s.entryPoint with _ | n
    · rw [hn] at hE
      simp only [Prod.mk.injEq] at hE
      rw [← hE.1] at hnew
      simp at hnew
    · rfl

end GraphOperations
end Hnsw
end VsqlVector
