/-
# Rows behind invisible nodes

`layer_ops.h` promises that nodes which may not be returned "are still traversed
so the search can reach eligible nodes beyond them". The loop of a search stops
when its nearest candidate is further than its furthest result, whether or not
there are `ef` results; the paper's rule is only this one when every candidate is
a result. With an invisible candidate further away the search ends early, and the
rows behind it are missing from a result that has room for them.

When this happens is a property of what the search is given: it does where a
nearest-first traversal comes to a barrier (`search_complete_iff`). Which of two
equally near candidates a queue hands back is open, so the statement is about every
queue of candidates.

Key definitions: `Complete`, `withCandidates`, `following`.
Key theorem: `search_complete_iff`.
-/
import VsqlVector.Index.Nearest

namespace VsqlVector
namespace Hnsw
namespace LayerOperations

variable {ε σ N Q K D : Type}

/-- A search that ends with fewer than `ef` results has every visible node there is
to reach. -/
def Complete [DecidableEq K] (G : LayerGraph ε σ N Q K D) (query : Query N Q) (s : σ) (L : Landscape K D)
    (entryPoints : List N) (ef : ℕ) : Prop :=
  ∀ fuel st s', search G query fuel entryPoints ef s = (.ok st, s') → (consumeAll G st).length < ef →
    ∀ k ∈ Reached G query L entryPoints, L.visible k = true → k ∈ (consumeAll G st).map G.key

/-- The graph searched with another queue of candidates. -/
def withCandidates (G : LayerGraph ε σ N Q K D)
    (q : PriorityQueue (Candidate N D) fun a b => G.lt b.distance a.distance) : LayerGraph ε σ N Q K D :=
  { G with minQueue := q }

variable [LinearOrder D] {G : LayerGraph ε σ N Q K D} {query : Query N Q} {s : σ} {L : Landscape K D}
  {entryPoints : List N} {ef : ℕ}

theorem Sees.withCandidates (hs : Sees G query s L)
    (q : PriorityQueue (Candidate N D) fun a b => G.lt b.distance a.distance) :
    Sees (withCandidates G q) query s L := ⟨hs.lt, hs.neighbours, hs.distance, hs.isVisible⟩

omit [LinearOrder D] in
theorem Answers.withCandidates (ha : Answers G query s L entryPoints)
    (q : PriorityQueue (Candidate N D) fun a b => G.lt b.distance a.distance) :
    Answers (withCandidates G q) query s L entryPoints := ⟨ha.neighbours, ha.distance, ha.isVisible⟩

/-- Away from barriers a search is complete. -/
theorem complete_of_no_barrier [DecidableEq K] (hs : Sees G query s L)
    (hno : ¬ ∃ X, L.Barrier (initialVisited G query) (entryPoints.map G.key) ef X) :
    Complete G query s L entryPoints ef := by
  intro fuel st s' h hlt k hk hv
  obtain ⟨-, X, st₁, ht, hres, -, hstop⟩ := search_stops hs h
  have hkeys := keys_consumeAll st
  rw [← hres] at hkeys hstop
  refine hkeys.mem_iff.mpr (ht.sound.complete hstop ?_ (fun hX => hno ⟨X, hX⟩) hk hv)
  rwa [← hkeys.length_eq, List.length_map]

/-! ### A queue that leads to a barrier -/

section Following

variable [DecidableEq K]

/-- Nearer first, and among equally near candidates in the order of `X`. -/
def following (G : LayerGraph ε σ N Q K D) (X : List K) (a b : Candidate N D) : Bool :=
  decide (toLex (b.distance, X.idxOf (G.key b.node)) < toLex (a.distance, X.idxOf (G.key a.node)))

theorem following_order (G : LayerGraph ε σ N Q K D) (X : List K) :
    IsStrictWeakOrder (Candidate N D) fun a b => following G X a b = true :=
  PriorityQueue.strictWeakOrder
    (f := fun c => OrderDual.toDual (toLex (c.distance, X.idxOf (G.key c.node)))) fun a b => by
      simp [following]

theorem following_of_lt (hs : Sees G query s L) (X : List K) (a b : Candidate N D)
    (h : G.lt b.distance a.distance = true) : following G X a b = true := by
  rw [following, decide_eq_true_iff, Prod.Lex.lt_iff]
  exact .inl ((hs.lt _ _).mp h)

open Classical in
/-- A queue that hands equally near candidates back in the order of `X`. -/
noncomputable def followingQueue (hs : Sees G query s L) (X : List K) :
    PriorityQueue (Candidate N D) fun a b => G.lt b.distance a.distance :=
  PriorityQueue.refine (PriorityQueue.ofList (following G X)) (following_order G X) (following_of_lt hs X)

open Classical in
theorem followingQueue_top (hs : Sees G query s L) {X : List K} {q rest : (followingQueue hs X).Carrier}
    {c : Candidate N D} (h : (followingQueue hs X).pop q = some (c, rest)) :
    ∀ b ∈ (followingQueue hs X).toList rest, following G X c b = false :=
  (PriorityQueue.ofList (following G X)).pop_top (following_order G X) q c rest h

section Run

variable {X Y Z : List K}

/-- With that queue a search that has expanded a part `Y` of `X` expands the next
node of `X`, and does not go past the barrier. -/
theorem pop_follows (hs : Sees G query s L)
    (hX : L.Barrier (initialVisited G query) (entryPoints.map G.key) ef X) (hYZ : X = Y ++ Z)
    {st : LayerState (withCandidates G (followingQueue hs X))}
    (ht : Tracks (withCandidates G (followingQueue hs X)) query L entryPoints ef Y [] st)
    {c : Candidate N D} {rest : (followingQueue hs X).Carrier}
    (hp : (followingQueue hs X).pop st.candidates = some (c, rest))
    (hf : finished (withCandidates G (followingQueue hs X)) { st with candidates := rest } c = false) :
    ∃ Z', Z = G.key c.node :: Z' := by
  have hsub : Y ⊆ X := hYZ ▸ List.subset_append_left Y Z
  have hlt := hX.few_results hsub ht.sound
  have hpop := (followingQueue hs X).toList_pop _ c rest hp
  have hcmem : c ∈ (followingQueue hs X).toList st.candidates := hpop.mem_iff.mpr (by simp)
  have hcC : G.key c.node ∈ keys G ((followingQueue hs X).toList st.candidates) := List.mem_map_of_mem hcmem
  have hcY : G.key c.node ∉ Y := fun hmem =>
    (List.nodup_append.mp (List.nodup_append.mp ht.sound.nodup).1).2.2 _ hmem _ hcC rfl
  have hcd := ht.sound.known (G.key c.node) (List.mem_append_left _ (List.mem_append_right _ hcC))
  have hdist : ∀ b ∈ (followingQueue hs X).toList st.candidates, b.distance = L.dist (G.key b.node) :=
    fun b hb => ht.distances b (List.mem_append_left _ (List.mem_append_left _ hb))
  rcases Z with _ | ⟨z, Z'⟩
  · -- at the barrier: a visible node is a result, and `c` is further
    exfalso
    rw [List.append_nil] at hYZ
    subst hYZ
    obtain ⟨v, hv, hvis⟩ := hX.found
    have hvR := (ht.sound.kept v (by
      simpa [keys] using (ht.sound.account v hv).resolve_right (Landscape.Sound.not_passed hlt)) hvis).resolve_right
        (Landscape.Sound.not_passed hlt)
    rcases htop : G.maxQueue.top st.results with _ | t
    · have := G.maxQueue.top_none htop
      simp [keys, withCandidates, this] at hvR
    · obtain ⟨htmem, -⟩ := top_results hs htop
      have htR : G.key t.node ∈ keys G (G.maxQueue.toList st.results) := List.mem_map_of_mem htmem
      obtain ⟨htvis, htmem'⟩ := ht.sound.results _ htR
      have hfar := hX.further (G.key t.node) (G.key c.node)
        (ht.sound.known _ (List.mem_append_left _ htmem')) htvis hcd hcY
      have hdt : t.distance = L.dist (G.key t.node) :=
        ht.distances t (List.mem_append_left _ (List.mem_append_right _ htmem))
      have hno : G.lt t.distance c.distance = false := by
        have : (G.maxQueue.top st.results).any (fun t => closer G t c) = false := hf
        simpa [htop, closer] using this
      rw [lt_eq_false hs, hdt, hdist c hcmem] at hno
      exact absurd hno (not_le.mpr hfar)
  · -- on the way: `z` is pending and a nearest one, and no other comes before it
    obtain ⟨hzd, hzY, hznear⟩ := hX.order.nearest hYZ
    have hzC : z ∈ keys G ((followingQueue hs X).toList st.candidates) := by
      have := (ht.sound.account z hzd).resolve_right (Landscape.Sound.not_passed hlt)
      rcases List.mem_append.mp this with h | h
      · exact (List.mem_append.mp h).resolve_left hzY
      · exact absurd h (by simp [keys])
    obtain ⟨b, hb, rfl⟩ := List.mem_map.mp hzC
    have hrank : X.idxOf (G.key b.node) = Y.length := by
      rw [hYZ, List.idxOf_append_of_notMem hzY, List.idxOf_cons_self, Nat.add_zero]
    rcases List.mem_cons.mp (hpop.mem_iff.mp hb) with rfl | hbr
    · exact ⟨Z', rfl⟩
    · have htop := followingQueue_top hs hp b hbr
      rw [following, decide_eq_false_iff_not, Prod.Lex.lt_iff, not_or, hdist b hb, hdist c hcmem] at htop
      obtain ⟨hle, hrk⟩ := htop
      have heq : L.dist (G.key b.node) = L.dist (G.key c.node) :=
        le_antisymm (hznear _ hcd hcY) (not_lt.mp hle)
      have hrk' : X.idxOf (G.key c.node) ≤ Y.length := by
        have := not_lt.mp fun h => hrk ⟨heq, h⟩
        rwa [hrank] at this
      rw [hYZ, List.idxOf_append_of_notMem hcY] at hrk'
      refine ⟨Z', ?_⟩
      by_contra hne
      rw [List.idxOf_cons_ne _ fun h => hne (by rw [h])] at hrk'
      omega

/-- So what it finds is known at the barrier. -/
theorem searchLoop_follows (hs : Sees G query s L)
    (hX : L.Barrier (initialVisited G query) (entryPoints.map G.key) ef X) {fuel : ℕ} {s' : σ} :
    ∀ {Y Z : List K} {st st' : LayerState (withCandidates G (followingQueue hs X))}, X = Y ++ Z →
      Tracks (withCandidates G (followingQueue hs X)) query L entryPoints ef Y [] st →
      searchLoop (withCandidates G (followingQueue hs X)) query ef fuel st s = (.ok st', s') →
      ∃ Y' st₁, Y' ⊆ X ∧ Tracks (withCandidates G (followingQueue hs X)) query L entryPoints ef Y' [] st₁ ∧
        st₁.results = st'.results := by
  induction fuel with
  | zero =>
    intro Y Z st st' hYZ ht h
    have hsub : Y ⊆ X := hYZ ▸ List.subset_append_left Y Z
    rcases searchLoop_cases h with ⟨-, rfl, -⟩ | ⟨c, rest, -, -, rfl, -⟩ | ⟨_, _, _, _, _, -, hf, -⟩
    · exact ⟨Y, st', hsub, ht, rfl⟩
    · exact ⟨Y, st, hsub, ht, rfl⟩
    · exact absurd hf (by simp)
  | succ fuel ih =>
    intro Y Z st st' hYZ ht h
    have hsub : Y ⊆ X := hYZ ▸ List.subset_append_left Y Z
    rcases searchLoop_cases h with ⟨-, rfl, -⟩ | ⟨c, rest, -, -, rfl, -⟩ |
      ⟨c, rest, fuel', st₁, s₁, hp, hfuel, hf, h1, h2⟩
    · exact ⟨Y, st', hsub, ht, rfl⟩
    · exact ⟨Y, st, hsub, ht, rfl⟩
    · obtain rfl : fuel = fuel' := by omega
      obtain ⟨Z', rfl⟩ := pop_follows hs hX hYZ ht hp hf
      obtain ⟨rfl, ht₁⟩ := expand_tracks (hs.withCandidates _) ht hp h1
      exact ih (Z := Z') (by rw [List.append_assoc]; exact hYZ) ht₁ h2

/-- **A search is complete if and only if there is no barrier**, whatever queue its
candidates are in. -/
theorem search_complete_iff (hs : Sees G query s L) (ha : Answers G query s L entryPoints)
    (hfin : (Reached G query L entryPoints).Finite) (ef : ℕ) :
    (∀ q, Complete (withCandidates G q) query s L entryPoints ef) ↔
      ¬ ∃ X, L.Barrier (initialVisited G query) (entryPoints.map G.key) ef X := by
  constructor
  · rintro hc ⟨X, hX⟩
    have hs' := hs.withCandidates (followingQueue hs X)
    obtain ⟨st, hst⟩ := search_ends hs' (ha.withCandidates _) hfin ef
    have hrun := hst _ le_rfl
    rw [search, Prog.bind_returns] at hrun
    obtain ⟨st₀, s₀, h1, h2⟩ := hrun
    obtain ⟨rfl, ht⟩ := seed_tracks hs' h1
    obtain ⟨Y, st₁, hsub, ht₁, hres⟩ := searchLoop_follows (Y := []) (Z := X) hs hX rfl (ht ef) h2
    have hkeys := keys_consumeAll st
    rw [← hres] at hkeys
    have hlen : (consumeAll (withCandidates G (followingQueue hs X)) st).length < ef := by
      have := hX.few_results hsub ht₁.sound
      rwa [← hkeys.length_eq, List.length_map] at this
    obtain ⟨v, hv, hvis, hnot⟩ := hX.beyond
    have hmem := hc _ _ st s (hst _ le_rfl) hlen v hv hvis
    have hR := ht₁.sound.results v (hkeys.mem_iff.mp hmem)
    exact hnot ((ht₁.sound.known v (List.mem_append_left _ hR.2)).mono hsub)
  · exact fun hno q => complete_of_no_barrier (hs.withCandidates q) hno

end Run

end Following

theorem search_complete_iff_line :
    (∀ q, Complete (withCandidates (lineGraph 3 [1]) q) (.data 0) () (lineFrom 3 [1] 0) [0] 2) ↔
      ¬ ∃ X, (lineFrom 3 [1] 0).Barrier [] [0] 2 X :=
  search_complete_iff (lineGraph_sees 3 [1] 0) (lineGraph_answers 3 [1] 0 [0]) (lineGraph_finite (by decide)) 2

/-- Three nodes in a row, the one in the middle invisible: from the first, the last
one is not found. -/
theorem line_incomplete : ¬ Complete (lineGraph 3 [1]) (.data 0) () (lineFrom 3 [1] 0) [0] 2 := by
  intro h
  have h0 : (lineFrom 3 [1] 0).Reach [] [0] 0 := .entry (by decide) (by decide)
  have h1 : (lineFrom 3 [1] 0).Reach [] [0] 1 := .step h0 (by decide) (by decide)
  have h2 : (lineFrom 3 [1] 0).Reach [] [0] 2 := .step h1 (by decide) (by decide)
  have hfound := h 3 ⟨[1, 0], [], [(⟨0, 0⟩ : Candidate ℕ ℕ)]⟩ () rfl (by decide) 2 h2 rfl
  revert hfound
  decide

end LayerOperations
end Hnsw
end VsqlVector
