/-
# Removing a vector

`GraphOperations::remove` first goes down the tower of the vector and takes it
out of every level, then frees its records from level 0 up. Afterwards every
level is at rest again, without the tower's record (`remove_spec`), provided the
removing transaction is the one that stamped the records last. If the tower's
top record is the entry point, the first node it was linked to at the topmost
level with such a node takes its place.

Key definitions: `Shed`, `Shrunk`.
Key theorems: `severTower_spec`, `dropTower_spec`, `remove_spec`.
-/
import VsqlVector.Index.Insert

namespace VsqlVector
namespace Hnsw

open LevelStore LevelProg IndexGraph GraphProg

variable {Data Dist : Type} {g : IndexGraph Data Dist} {s s' : GraphState} {l : ℕ}

namespace GraphOperations

/-! ### Out of every level -/

/-- What phase 1 leaves of level `k`: the records, with nothing that names `x`. -/
structure Severed (g : IndexGraph Data Dist) (k x : ℕ) (V : Set ℕ) (t t' : LevelStore) : Prop where
  chains : t'.Chains
  names : Mutual (g.ctx k).maxNeighbours t' (V \ {x})
  bone : ∀ a, t'.bone a = t.bone a
  backed : Backed t V → Backed t' (V \ {x})
  linked : Backed t V → ∀ a ∈ V, a ≠ x → t.links a ≠ [] → t'.links a ≠ [] ∨ t.names x = [a]

theorem severAt_spec (hM : 0 < g.M) (hq : s.Quiet) (hc : (s.level l).Chains)
    (hm : Mutual (g.ctx l).maxNeighbours (s.level l) (s.live l)) {x : ℕ} (hx : x ∈ s.live l) {n : Node}
    (hn : n.nid = ⟨x, false⟩) {out : List Node}
    (h : atLevel l (severNode g l n) s = (.ok out, s')) :
    s'.Quiet ∧ SameEntry s s' ∧ Severed g l x (s.live l) (s.level l) (s'.level l) ∧
      (∀ m ∈ out, Good (s'.level l) (s.live l \ {x}) m) ∧ ((s.level l).names x ≠ [] → out ≠ []) ∧
      ∀ k, k ≠ l → s'.level k = s.level k := by
  obtain ⟨t, hrun, hat⟩ := atLevel_spec h
  obtain ⟨hr, hm', hgood, hne, hB⟩ := severNode_spec (s := s.view l) hM hq hc hm hx hn hrun
  refine ⟨by rw [hat.supply]; exact hr.quiet, hat.sameEntry, ?_, ?_, hne, hat.other⟩
  · rw [hat.here]
    exact ⟨hr.chains, hm', hr.bone, fun h => (hB h).1, fun h => (hB h).2⟩
  · rw [hat.here]
    exact hgood

/-- The replacement chosen so far: `r`, or a node of one of the levels done. -/
def Replaces (X : ℕ → ℕ) (V : ℕ → Set ℕ) (level : ℕ) (r r' : Option (Node × ℕ)) (s' : GraphState) : Prop :=
  ∀ n k, r' = some (n, k) → r = some (n, k) ∨ k ≤ level ∧ Good (s'.level k) (V k \ {X k}) n

/-- Phase 1: the tower is taken out of all its levels. -/
theorem severTower_spec (hM : 0 < g.M) {X : ℕ → ℕ} {vid : ℕ} : ∀ {level : ℕ} {r r' : Option (Node × ℕ)}
    {nodes : List (Node × ℕ)} {s s' : GraphState}, s.Quiet → (∀ k, (s.level k).Chains) →
    (∀ k ≤ level, Mutual (g.ctx k).maxNeighbours (s.level k) (s.live k)) →
    (∀ k ≤ level, X k ∈ s.live k) →
    (∀ k, 0 < k → k ≤ level → (s.bone k (X k)).bind Bone.lowerLevel = some ⟨X (k - 1), false⟩) →
    severTower g level ⟨⟨X level, false⟩, vid⟩ r s = (.ok (nodes, r'), s') →
    nodes = (List.range (level + 1)).map (fun k => (⟨⟨X k, false⟩, vid⟩, k)) ∧ s'.Quiet ∧ SameEntry s s' ∧
      (∀ k ≤ level, Severed g k (X k) (s.live k) (s.level k) (s'.level k)) ∧
      (∀ k, level < k → s'.level k = s.level k) ∧ Replaces X s.live level r r' s' ∧
      (r' = none → r = none ∧ ∀ k ≤ level, (s.level k).names (X k) = [])
  | 0, r, r', nodes, s, s', hq, hc, hm, hX, _, h => by
    rw [severTower, Prog.bind_returns] at h
    obtain ⟨out, s₁, h1, h⟩ := h
    obtain ⟨hq₁, he₁, hsev, hgood, hne, hother⟩ :=
      severAt_spec hM hq (hc 0) (hm 0 (le_refl _)) (hX 0 (le_refl _)) rfl h1
    simp only [Prog.pure_apply, Prod.mk.injEq, Except.ok.injEq] at h
    obtain ⟨⟨rfl, rfl⟩, rfl⟩ := h
    refine ⟨rfl, hq₁, he₁, fun k hk => ?_, fun k hk => hother k (by omega), fun n k hr => ?_, fun hr => ?_⟩
    · obtain rfl : k = 0 := by omega
      exact hsev
    · rcases r with _ | w
      · right
        obtain ⟨hm', rfl⟩ : out.head? = some n ∧ 0 = k := by simpa using hr
        exact ⟨le_refl _, hgood n (List.mem_of_mem_head? hm')⟩
      · exact .inl (by simpa using hr)
    · simp only [Option.or_eq_none_iff, Option.map_eq_none_iff, List.head?_eq_none_iff] at hr
      refine ⟨hr.1, fun k hk => ?_⟩
      obtain rfl : k = 0 := by omega
      exact not_not.mp fun hno => hne hno hr.2
  | level + 1, r, r', nodes, s, s', hq, hc, hm, hX, hlow, h => by
    rw [severTower, Prog.bind_returns] at h
    obtain ⟨out, s₁, h1, h⟩ := h
    obtain ⟨hq₁, he₁, hsev, hgood, hne, hother⟩ :=
      severAt_spec hM hq (hc _) (hm _ (le_refl _)) (hX _ (le_refl _)) rfl h1
    have hlev : ∀ k ≤ level, s₁.level k = s.level k := fun k hk => hother k (by omega)
    have hlive : ∀ k ≤ level, s₁.live k = s.live k := fun k hk => by
      rw [GraphState.live, GraphState.live, hlev k hk]
    obtain ⟨next, s₂, h2, h⟩ := Prog.bind_returns.mp h
    -- the record still names the one below
    obtain ⟨b, hb, hbl⟩ := Option.bind_eq_some_iff.mp (hlow (level + 1) (by omega) (le_refl _))
    have hb₁ : (s₁.view (level + 1)).bone (X (level + 1)) = some b := (hsev.bone _).trans hb
    obtain ⟨rfl, hrun⟩ := atLevel_read h2 fun t ht =>
      (getNextLevelNode_spec (t := s₁.view (level + 1)) hq₁ hb₁ hbl ht).1
    obtain ⟨-, rfl⟩ := getNextLevelNode_spec (t := s₁.view (level + 1)) hq₁ hb₁ hbl hrun
    rw [Nat.add_sub_cancel] at h
    obtain ⟨⟨nodes₂, r₂⟩, s₃, h3, h⟩ := Prog.bind_returns.mp h
    simp only [Prog.pure_apply, Prod.mk.injEq, Except.ok.injEq] at h
    obtain ⟨⟨rfl, rfl⟩, rfl⟩ := h
    have hc₁ : ∀ k, (s₁.level k).Chains := fun k => by
      by_cases hk : k = level + 1
      · rw [hk]
        exact hsev.chains
      · rw [hother k hk]
        exact hc k
    obtain ⟨rfl, hq₃, he₃, hsev₃, hother₃, hrep, hnone⟩ := severTower_spec hM hq₁ hc₁
      (fun k hk => by rw [hlev k hk, hlive k hk]; exact hm k (by omega))
      (fun k hk => by rw [hlive k hk]; exact hX k (by omega))
      (fun k h0 hk => by rw [GraphState.bone, hlev k hk]; exact hlow k h0 (by omega)) h3
    have htop : s₃.level (level + 1) = s₁.level (level + 1) := hother₃ _ (by omega)
    refine ⟨by rw [List.range_succ (n := level + 1), List.map_append]; rfl, hq₃, he₁.trans he₃, fun k hk => ?_,
      fun k hk => (hother₃ k (by omega)).trans (hother k (by omega)), fun n k hr => ?_, fun hr => ?_⟩
    · by_cases hk' : k = level + 1
      · subst hk'
        rw [htop]
        exact hsev
      · rw [← hlev k (by omega), ← hlive k (by omega)]
        exact hsev₃ k (by omega)
    · rcases hrep n k hr with hr | ⟨hk, hg⟩
      · rcases r with _ | w
        · right
          obtain ⟨hm', rfl⟩ : out.head? = some n ∧ level + 1 = k := by simpa using hr
          refine ⟨le_refl _, ?_⟩
          rw [htop]
          exact hgood n (List.mem_of_mem_head? hm')
        · exact .inl (by simpa using hr)
      · exact .inr ⟨by omega, by rw [← hlive k hk]; exact hg⟩
    · obtain ⟨h1, h2⟩ := hnone hr
      simp only [Option.or_eq_none_iff, Option.map_eq_none_iff, List.head?_eq_none_iff] at h1
      refine ⟨h1.1, fun k hk => ?_⟩
      by_cases hk' : k = level + 1
      · subst hk'
        exact not_not.mp fun hno => hne hno h1.2
      · rw [← hlev k (by omega)]
        exact h2 k (by omega)

/-! ### Freeing the records -/

/-- From `t` to `t'` only the record of `x` changed, its chain included. -/
structure Shed (x : ℕ) (t t' : LevelStore) : Prop where
  chains : t'.Chains
  kept : Kept {a | a ≠ x} t t'
  bone : ∀ b, b ≠ x → t'.bone b = t.bone b

namespace Shed

variable {x : ℕ} {t t' t'' : LevelStore}

theorem refl (h : t.Chains) : Shed x t t :=
  ⟨h, ⟨fun _ _ h => h, fun _ _ => rfl, fun _ _ => rfl, fun _ _ _ => rfl⟩, fun _ _ => rfl⟩

theorem trans (h : Shed x t t') (h' : Shed x t' t'') : Shed x t t'' :=
  ⟨h'.chains, h.kept.trans h'.kept, fun b hb => (h'.bone b hb).trans (h.bone b hb)⟩

theorem of_touch (h : Touch x t t') : Shed x t t' :=
  ⟨h.chains, Kept.of_touch h fun h => h rfl, fun b _ => h.bone b⟩

theorem of_relowered {v : Option NID} (h : Relowered x v t t') : Shed x t t' :=
  ⟨h.chains, h.kept.mono (Set.subset_univ _), h.other⟩

theorem of_changed {u u' : LevelState} (h : Changed x u u') : Shed x u.toLevelStore u'.toLevelStore :=
  ⟨h.chains, h.kept, h.bone⟩

end Shed

/-- The transaction that stamped a record last. -/
def stampOf (t : LevelStore) (a : ℕ) : Option ℕ := (t.bone a).map Bone.trxRef

theorem clearLower_spec (hq : s.Quiet) (hc : (s.level (l + 1)).Chains) {parent : Option Node}
    (h : clearLower l parent s = (.ok (), s')) :
    s'.Quiet ∧ SameEntry s s' ∧ (∀ k, k ≠ l + 1 → s'.level k = s.level k) ∧
      ParentOf parent none (s.level (l + 1)) (s'.level (l + 1)) := by
  rcases parent with _ | p
  · simp only [clearLower, Prog.pure_apply, Prod.mk.injEq, true_and] at h
    subst h
    exact ⟨hq, ⟨rfl, rfl⟩, fun _ _ => rfl, rfl⟩
  · obtain ⟨h1, h2, h3, h4⟩ := setLowerAt_spec hq hc h
    exact ⟨h2, h3, h4, h1⟩

/-- `drop_node` frees a record that its transaction has stamped. -/
theorem drop_spec (hq : s.Quiet) (hc : ∀ k, (s.level k).Chains) {parent : Option Node} {node : Node}
    (h : drop g parent l node s = (.ok (), s')) :
    s'.Quiet ∧ SameEntry s s' ∧ Shed node.nid.ref (s.level l) (s'.level l) ∧
      (stampOf (s.level l) node.nid.ref = some g.trxRef → ¬ (s'.level l).Live node.nid.ref) ∧
      (∀ k, k ≠ l → k ≠ l + 1 → s'.level k = s.level k) ∧
      ParentOf parent none (s.level (l + 1)) (s'.level (l + 1)) := by
  rw [drop, Prog.bind_returns] at h
  obtain ⟨_, s₁, h1, h⟩ := h
  obtain ⟨t₁, hrun₁, hat₁⟩ := atLevel_spec h1
  obtain ⟨hqt₁, ht₁⟩ := dropOverflowNodes_spec (s := s.view l) hq (hc l) hrun₁
  obtain ⟨_, s₂, h2, h⟩ := Prog.bind_returns.mp h
  have hq₁ : s₁.Quiet := by
    rw [hat₁.supply]
    exact hqt₁
  have hl₁ : s₁.level (l + 1) = s.level (l + 1) := hat₁.other _ (by omega)
  obtain ⟨hq₂, he₂, hother₂, hpar⟩ := clearLower_spec hq₁ (by rw [hl₁]; exact hc _) h2
  obtain ⟨t₃, hrun₃, hat₃⟩ := atLevel_spec h
  have hl₂ : s₂.level l = t₁.toLevelStore := (hother₂ l (by omega)).trans hat₁.here
  obtain ⟨hch, hdead⟩ := dropNode_spec (s := s₂.view l) hq₂ (by rw [GraphState.view, hl₂]; exact ht₁.chains) hrun₃
  refine ⟨by rw [hat₃.supply]; exact hch.quiet, (hat₁.sameEntry.trans he₂).trans hat₃.sameEntry, ?_, ?_,
    fun k h1 h2 => (hat₃.other k h1).trans ((hother₂ k h2).trans (hat₁.other k h1)), ?_⟩
  · rw [hat₃.here]
    refine (Shed.of_touch ht₁).trans ?_
    have := Shed.of_changed hch
    rwa [GraphState.view, hl₂] at this
  · rw [hat₃.here]
    intro hst
    refine hdead ?_
    rw [GraphState.view, hl₂, ht₁.bone]
    exact hst
  · rw [hat₃.other (l + 1) (by omega)]
    rw [hl₁] at hpar
    exact hpar

/-- Phase 2: the records of a tower are freed from the level `i` up. -/
theorem dropTower_spec {X : ℕ → ℕ} {vid : ℕ} : ∀ {n i : ℕ} {s s' : GraphState}, s.Quiet →
    (∀ k, (s.level k).Chains) →
    dropTower g ((List.range' i n).map fun k => ((⟨⟨X k, false⟩, vid⟩ : Node), k)) s = (.ok (), s') →
    s'.Quiet ∧ SameEntry s s' ∧
      (∀ k, i ≤ k → k < i + n → Shed (X k) (s.level k) (s'.level k) ∧
        (stampOf (s.level k) (X k) = some g.trxRef → ¬ (s'.level k).Live (X k))) ∧
      ∀ k, k < i ∨ i + n ≤ k → s'.level k = s.level k
  | 0, i, s, s', hq, hc, h => by
    simp only [List.range'_zero, List.map_nil, dropTower, Prog.pure_apply, Prod.mk.injEq, true_and] at h
    subst h
    exact ⟨hq, ⟨rfl, rfl⟩, fun k h1 h2 => absurd h2 (by omega), fun _ _ => rfl⟩
  | n + 1, i, s, s', hq, hc, h => by
    rw [List.range'_succ, List.map_cons, dropTower, Prog.bind_returns] at h
    obtain ⟨_, s₁, h1, h⟩ := h
    obtain ⟨hq₁, he₁, hshed, hdead, hother, hpar⟩ := drop_spec hq hc h1
    -- the record above is still there, stamped as it was
    have habove : 0 < n → Shed (X (i + 1)) (s.level (i + 1)) (s₁.level (i + 1)) ∧
        stampOf (s₁.level (i + 1)) (X (i + 1)) = stampOf (s.level (i + 1)) (X (i + 1)) := fun hn => by
      obtain ⟨m, rfl⟩ : ∃ m, n = m + 1 := ⟨n - 1, by omega⟩
      rw [List.range'_succ] at hpar
      have hpar : Relowered (X (i + 1)) none (s.level (i + 1)) (s₁.level (i + 1)) := hpar
      refine ⟨.of_relowered hpar, ?_⟩
      rw [stampOf, hpar.bone, Option.map_map]
      rfl
    have hnone : n = 0 → s₁.level (i + 1) = s.level (i + 1) := fun hn => by
      subst hn
      exact hpar
    have hc₁ : ∀ k, (s₁.level k).Chains := fun k => by
      by_cases h0 : k = i
      · rw [h0]
        exact hshed.chains
      · by_cases h1 : k = i + 1
        · rw [h1]
          rcases Nat.eq_zero_or_pos n with hn | hn
          · rw [hnone hn]
            exact hc _
          · exact (habove hn).1.chains
        · rw [hother k h0 h1]
          exact hc k
    obtain ⟨hq', he', hrest, hout⟩ := dropTower_spec hq₁ hc₁ h
    refine ⟨hq', he₁.trans he', fun k h1 h2 => ?_, fun k hk => ?_⟩
    · by_cases h0 : k = i
      · subst h0
        rw [hout k (.inl (by omega))]
        exact ⟨hshed, hdead⟩
      · obtain ⟨hs, hd⟩ := hrest k (by omega) (by omega)
        by_cases h1 : k = i + 1
        · subst h1
          obtain ⟨hs₁, hst⟩ := habove (by omega)
          exact ⟨hs₁.trans hs, fun hst' => hd (hst.trans hst')⟩
        · rw [← hother k h0 h1]
          exact ⟨hs, hd⟩
    · rw [hout k (by omega)]
      by_cases h1 : k = i + 1
      · subst h1
        exact hnone (by omega)
      · exact hother k (by omega) h1

/-! ### The whole operation -/

/-- What a remove takes away: the records `X` of the levels up to `L`. -/
structure Shrunk (g : IndexGraph Data Dist) (L : ℕ) (X : ℕ → ℕ) (s s' : GraphState) : Prop where
  chains : ∀ l, (s'.level l).Chains
  names : ∀ l, Mutual (LevelStore.maxNeighbours l g.M) (s'.level l) (s'.live l)
  freed : ∀ k ≤ L, X k ∉ s'.live k
  other : ∀ k a, (k ≤ L → a ≠ X k) → s'.bone k a = s.bone k a
  backed : (∀ l, Backed (s.level l) (s.live l)) → ∀ l, Backed (s'.level l) (s'.live l)
  linked : (∀ l, Backed (s.level l) (s.live l)) → ∀ k ≤ L, ∀ a ∈ s.live k, a ≠ X k → (s.level k).links a ≠ [] →
    (s'.level k).links a ≠ [] ∨ (s.level k).names (X k) = [a]

theorem Shrunk.live {L : ℕ} {X : ℕ → ℕ} (h : Shrunk g L X s s') (k a : ℕ) :
    a ∈ s'.live k ↔ a ∈ s.live k ∧ (k ≤ L → a ≠ X k) := by
  by_cases ha : k ≤ L → a ≠ X k
  · rw [GraphState.mem_live_iff, GraphState.mem_live_iff, h.other k a ha]
    exact (and_iff_left ha).symm
  · have : k ≤ L ∧ a = X k := by simpa using ha
    obtain ⟨hk, rfl⟩ := this
    simp [h.freed k hk, hk]

/-- The target is recognised as the entry point. -/
def IsEntry (s : GraphState) (target : Node) (L : ℕ) : Prop :=
  ∃ n, s.entryPoint = some n ∧ n.key = target.key ∧ s.entryLevel = L

/-- The entry point after a remove: a survivor with its level, or none if the
tower had no link at any level. -/
structure Succeeded (L : ℕ) (X : ℕ → ℕ) (s s' : GraphState) : Prop where
  survivor : ∀ n, s'.entryPoint = some n → Good (s'.level s'.entryLevel) (s'.live s'.entryLevel) n
  alone : s'.entryPoint = none → ∀ k ≤ L, (s.level k).names (X k) = []

/-- **Remove.** By the transaction that stamped its records, it takes away a tower
and leaves every level at rest. If the tower's top record is the entry point, a
survivor takes its place. -/
theorem remove_spec (hM : 0 < g.M) (hs : Resting g.M s) (hq : s.Quiet) {vid L a : ℕ}
    (ht : IsTower s.bone vid g.trxRef L a) (h : remove g ⟨⟨a, false⟩, vid⟩ L s = (.ok (), s')) :
    Shrunk g L (tower s.bone L a) s s' ∧
      (IsEntry s ⟨⟨a, false⟩, vid⟩ L → Succeeded L (tower s.bone L a) s s') ∧
      (¬ IsEntry s ⟨⟨a, false⟩, vid⟩ L → SameEntry s s') := by
  set X := tower s.bone L a with hX
  have hXL : X L = a := tower_top _ _ _
  have hlive : ∀ k ≤ L, X k ∈ s.live k := fun k hk => by
    obtain ⟨b, hb, -⟩ := ht k hk
    rw [GraphState.mem_live_iff, hX, hb]
    rfl
  rw [remove, getEntryPoint, Prog.bind_returns] at h
  obtain ⟨⟨entry, E⟩, s₁, h1, h⟩ := h
  simp only [Prog.get_bind, Prog.pure_apply, Prod.mk.injEq, Except.ok.injEq] at h1
  obtain ⟨hE, rfl⟩ := h1
  obtain ⟨⟨nodes, r⟩, s₁, h1, h⟩ := Prog.bind_returns.mp h
  nth_rewrite 1 [← hXL] at h1
  obtain ⟨rfl, hq₁, he₁, hsev, hother₁, hrep, hnone⟩ := severTower_spec hM hq hs.chains
    (fun k _ => hs.names k) hlive (fun k h0 hk => ht.lower h0 hk) h1
  obtain ⟨_, s₂, h2, h⟩ := Prog.bind_returns.mp h
  rw [List.range_eq_range'] at h2
  have hc₁ : ∀ k, (s₁.level k).Chains := fun k => by
    by_cases hk : k ≤ L
    · exact (hsev k hk).chains
    · rw [hother₁ k (by omega)]
      exact hs.chains k
  obtain ⟨hq₂, he₂, hshed, hother₂⟩ := dropTower_spec hq₁ hc₁ h2
  have habove : ∀ k, L < k → s₂.level k = s.level k := fun k hk =>
    (hother₂ k (.inr (by omega))).trans (hother₁ k hk)
  have hbone : ∀ k b, (k ≤ L → b ≠ X k) → s₂.bone k b = s.bone k b := fun k b hb => by
    by_cases hk : k ≤ L
    · exact ((hshed k (by omega) (by omega)).1.bone b (hb hk)).trans ((hsev k hk).bone b)
    · rw [GraphState.bone, habove k (by omega)]
      rfl
  have hfreed : ∀ k ≤ L, X k ∉ s₂.live k := fun k hk => by
    refine (hshed k (by omega) (by omega)).2 ?_
    obtain ⟨b, hb, -, htrx, -⟩ := ht k hk
    rw [stampOf, (hsev k hk).bone]
    show (s.bone k (X k)).map Bone.trxRef = _
    rw [hX, hb, Option.map_some, htrx]
  have hset : ∀ k ≤ L, s₂.live k = s.live k \ {X k} := fun k hk => by
    ext b
    rw [Set.mem_sdiff, Set.mem_singleton_iff]
    by_cases hb : b = X k
    · subst hb
      simp [hfreed k hk]
    · rw [GraphState.mem_live_iff, GraphState.mem_live_iff, hbone k b fun _ => hb]
      simp [hb]
  have hkept : ∀ k ≤ L, Kept (s.live k \ {X k}) (s₁.level k) (s₂.level k) := fun k hk =>
    (hshed k (by omega) (by omega)).1.kept.mono fun b hb => hb.2
  have hshrunk : Shrunk g L X s s₂ := by
    refine ⟨fun k => ?_, fun k => ?_, hfreed, hbone, fun hB k => ?_, fun hB k hk a ha hax hl => ?_⟩
    · by_cases hk : k ≤ L
      · exact (hshed k (by omega) (by omega)).1.chains
      · rw [habove k (by omega)]
        exact hs.chains k
    · by_cases hk : k ≤ L
      · rw [hset k hk]
        exact (hsev k hk).names.kept (hkept k hk)
      · rw [GraphState.live, habove k (by omega)]
        exact hs.names k
    · by_cases hk : k ≤ L
      · rw [hset k hk]
        exact ((hsev k hk).backed (hB k)).kept (hsev k hk).names (hkept k hk)
      · rw [GraphState.live, habove k (by omega)]
        exact hB k
    · rw [LevelStore.links, (hkept k hk).slots a ⟨ha, hax⟩]
      exact (hsev k hk).linked (hB k) a ha hax hl
  -- the entry point is recognised by its level and its key
  have hiff : (decide (L = E) && (entry.map Node.key == [(⟨⟨a, false⟩, vid⟩ : Node).key])) = true ↔
      IsEntry s ⟨⟨a, false⟩, vid⟩ L := by
    rcases hn : s.entryPoint with _ | n
    · rw [hn] at hE
      simp only [Prod.mk.injEq] at hE
      simp [IsEntry, hn, ← hE.1]
    · rw [hn] at hE
      simp only [Prod.mk.injEq] at hE
      obtain ⟨rfl, rfl⟩ := hE
      simp only [IsEntry, hn, Bool.and_eq_true, decide_eq_true_eq, List.map_cons, List.map_nil,
        beq_iff_eq, List.cons.injEq, and_true, Option.some.injEq, exists_eq_left']
      constructor
      · rintro ⟨h1, h2⟩
        exact ⟨h2, h1.symm⟩
      · rintro ⟨h1, h2⟩
        exact ⟨h2.symm, h1⟩
  split at h
  · rename_i hnew
    rw [setEntryPoint, Prog.bind_returns] at h
    obtain ⟨_, s₃, h3, h⟩ := h
    obtain ⟨rfl, -⟩ := atLevel_read h3 fun u hu => by
      rw [load_quiet (s := s₂.view 0) hq₂, Prod.mk.injEq] at hu
      exact hu.2
    simp only [Prog.modify_apply, Prod.mk.injEq, true_and] at h
    subst h
    refine ⟨⟨hshrunk.chains, hshrunk.names, hshrunk.freed, hshrunk.other, hshrunk.backed, hshrunk.linked⟩, fun _ => ⟨fun n hn => ?_, fun hn => ?_⟩,
      fun hno => absurd (hiff.mp hnew) hno⟩
    · obtain ⟨⟨m, k⟩, hr, rfl⟩ := Option.map_eq_some_iff.mp (show r.map Prod.fst = some n from hn)
      rcases hrep m k hr with hr' | ⟨hk, hg⟩
      · exact absurd hr' (by simp)
      · rw [hr]
        show Good (s₂.level k) (s₂.live k) m
        rw [hset k hk]
        exact hg.kept (hkept k hk)
    · have : r = none := by simpa using hn
      exact (hnone this).2
  · rename_i hno
    simp only [Prog.pure_apply, Prod.mk.injEq, true_and] at h
    subst h
    exact ⟨hshrunk, fun hyes => absurd (hiff.mpr hyes) hno, fun _ => he₁.trans he₂⟩

end GraphOperations
end Hnsw
end VsqlVector
