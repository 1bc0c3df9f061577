/-
# The nearest nodes of a layer

What a search finds, when the graph has an order of distances and its operations
read. The graph is then a `Landscape` seen from the query (`Sees`), and the
search keeps the account of a bounded best-first search (`Tracks`): its queues
hold the pending nodes and the results, and what it marks visited is what it has
discovered.

Every search of a finite graph ends (`search_ends`), with its results in order
(`search_result`), and no visible node next to a result is missing unless `ef`
results are no further (`search_locally_optimal`).

Key definitions: `Sees`, `Answers`, `Tracks`.
Key theorems: `expand_tracks`, `search_stops`, `search_result`, `search_locally_optimal`.
-/
import VsqlVector.Lib.BestFirst
import VsqlVector.Index.Search

namespace VsqlVector
namespace Hnsw
namespace LayerOperations

variable {ε σ N Q K D : Type}

/-- The keys of a list of candidates. -/
def keys (G : LayerGraph ε σ N Q K D) (l : List (Candidate N D)) : List K := l.map fun c => G.key c.node

theorem keys_perm {G : LayerGraph ε σ N Q K D} {l l' : List (Candidate N D)} (h : l.Perm l') :
    (keys G l).Perm (keys G l') := h.map _

theorem keys_consumeAll {G : LayerGraph ε σ N Q K D} (st : LayerState G) :
    ((consumeAll G st).map G.key).Perm (keys G (G.maxQueue.toList st.results)) := by
  have h := (consumeAll_perm st).map G.key
  rwa [List.map_map] at h

/-- The keys a search comes to. -/
def Reached (G : LayerGraph ε σ N Q K D) (query : Query N Q) (L : Landscape K D) (entryPoints : List N) : Set K :=
  {k | L.Reach (initialVisited G query) (entryPoints.map G.key) k}

/-- The operations return on every node a search can come to. -/
structure Answers (G : LayerGraph ε σ N Q K D) (query : Query N Q) (s : σ) (L : Landscape K D)
    (entryPoints : List N) : Prop where
  neighbours : ∀ n, G.key n ∈ Reached G query L entryPoints → ∃ ns, G.neighbours n s = (.ok ns, s)
  distance : ∀ n, G.key n ∈ Reached G query L entryPoints → ∃ d, queryDistance G query n s = (.ok d, s)
  isVisible : ∀ n, G.key n ∈ Reached G query L entryPoints → ∃ v, G.isVisible n s = (.ok v, s)

section Returns

variable {G : LayerGraph ε σ N Q K D} {query : Query N Q} {s : σ} {L : Landscape K D}
  {entryPoints : List N} {ef : ℕ}

theorem evaluateDistances_returns :
    ∀ {ns : List N}, (∀ n ∈ ns, ∃ d, queryDistance G query n s = (.ok d, s)) →
      ∃ cs, evaluateDistances G query ns s = (.ok cs, s)
  | [], _ => ⟨[], rfl⟩
  | n :: ns, h => by
    obtain ⟨d, hd⟩ := h n (by simp)
    obtain ⟨cs, hcs⟩ : ∃ cs, evaluateDistances G query ns s = (.ok cs, s) :=
      evaluateDistances_returns fun m hm => h m (List.mem_cons_of_mem _ hm)
    refine ⟨⟨n, d⟩ :: cs, ?_⟩
    rw [evaluateDistances, Prog.bind_apply, hd]
    simp only [Prog.bind_apply, hcs, Prog.pure_apply]

theorem foldlM_returns_of {f : LayerState G → Candidate N D → Prog ε σ (LayerState G)} {P : Candidate N D → Prop}
    (hf : ∀ c st, P c → ∃ st', f st c s = (.ok st', s)) :
    ∀ {cs : List (Candidate N D)} (st : LayerState G), (∀ c ∈ cs, P c) → ∃ st', cs.foldlM f st s = (.ok st', s)
  | [], st, _ => ⟨st, rfl⟩
  | c :: cs, st, h => by
    obtain ⟨st₁, h1⟩ := hf c st (h c (by simp))
    obtain ⟨st₂, h2⟩ := foldlM_returns_of hf st₁ fun b hb => h b (List.mem_cons_of_mem _ hb)
    refine ⟨st₂, ?_⟩
    rw [List.foldlM_cons, Prog.bind_apply, h1]
    exact h2

theorem pushSeed_returns (ha : Answers G query s L entryPoints) (c : Candidate N D) (st : LayerState G)
    (hc : G.key c.node ∈ Reached G query L entryPoints) : ∃ st', pushSeed G st c s = (.ok st', s) := by
  obtain ⟨v, hv⟩ := ha.isVisible c.node hc
  rw [pushSeed, Prog.bind_apply, hv]
  exact ⟨_, rfl⟩

theorem pushExpanded_returns (ha : Answers G query s L entryPoints) (c : Candidate N D) (st : LayerState G)
    (hc : G.key c.node ∈ Reached G query L entryPoints) : ∃ st', pushExpanded G ef st c s = (.ok st', s) := by
  rw [pushExpanded]
  split
  · obtain ⟨v, hv⟩ := ha.isVisible c.node hc
    rw [Prog.bind_apply, hv]
    exact ⟨_, rfl⟩
  · exact ⟨st, rfl⟩

end Returns

variable [LinearOrder D]

/-- The operations of the graph, where they return, read the landscape `L`: a node
is known by its key. -/
structure Sees (G : LayerGraph ε σ N Q K D) (query : Query N Q) (s : σ) (L : Landscape K D) : Prop where
  lt : ∀ a b, G.lt a b = true ↔ a < b
  neighbours : ∀ n ns s', G.neighbours n s = (.ok ns, s') → s = s' ∧ ns.map G.key = L.adj (G.key n)
  distance : ∀ n d s', queryDistance G query n s = (.ok d, s') → s = s' ∧ d = L.dist (G.key n)
  isVisible : ∀ n v s', G.isVisible n s = (.ok v, s') → s = s' ∧ v = L.visible (G.key n)

section Queues

variable {G : LayerGraph ε σ N Q K D} {query : Query N Q} {s : σ} {L : Landscape K D}

theorem closer_order (hs : Sees G query s L) :
    IsStrictWeakOrder (Candidate N D) fun a b => G.lt a.distance b.distance = true :=
  PriorityQueue.strictWeakOrder (f := Candidate.distance) fun _ _ => hs.lt _ _

theorem further_order (hs : Sees G query s L) :
    IsStrictWeakOrder (Candidate N D) fun a b => G.lt b.distance a.distance = true :=
  PriorityQueue.strictWeakOrder (f := fun c => OrderDual.toDual c.distance) fun _ _ => hs.lt _ _

theorem lt_eq_false (hs : Sees G query s L) {a b : D} : G.lt a b = false ↔ b ≤ a := by
  rw [← not_lt, ← hs.lt, Bool.not_eq_true]

/-- The furthest result. -/
theorem top_results (hs : Sees G query s L) {r : G.maxQueue.Carrier} {t : Candidate N D}
    (h : G.maxQueue.top r = some t) :
    t ∈ G.maxQueue.toList r ∧ ∀ c ∈ G.maxQueue.toList r, c.distance ≤ t.distance := by
  obtain ⟨h1, h2⟩ := G.maxQueue.top_spec (closer_order hs) h
  exact ⟨h1, fun c hc => (lt_eq_false hs).mp (h2 c hc)⟩

theorem pop_results (hs : Sees G query s L) {r r' : G.maxQueue.Carrier} {t : Candidate N D}
    (h : G.maxQueue.pop r = some (t, r')) : ∀ c ∈ G.maxQueue.toList r', c.distance ≤ t.distance :=
  fun c hc => (lt_eq_false hs).mp (G.maxQueue.pop_top (closer_order hs) r t r' h c hc)

theorem pop_candidates (hs : Sees G query s L) {q q' : G.minQueue.Carrier} {c : Candidate N D}
    (h : G.minQueue.pop q = some (c, q')) : ∀ b ∈ G.minQueue.toList q', c.distance ≤ b.distance :=
  fun b hb => (lt_eq_false hs).mp (G.minQueue.pop_top (further_order hs) q c q' h b hb)

end Queues

section Account

variable {G : LayerGraph ε σ N Q K D} {query : Query N Q} {s s' : σ} {L : Landscape K D}
  {entryPoints : List N} {ef : ℕ}

/-- The account of a search in its queues: `X` is expanded, and the candidates `xs`
have just been discovered. -/
structure Tracks (G : LayerGraph ε σ N Q K D) (query : Query N Q) (L : Landscape K D) (entryPoints : List N)
    (ef : ℕ) (X : List K) (xs : List (Candidate N D)) (st : LayerState G) : Prop where
  visited : ∀ k, k ∈ st.visited ↔ k ∈ initialVisited G query ∨
    L.Discovered (initialVisited G query) (entryPoints.map G.key) X k
  distances : ∀ c ∈ G.minQueue.toList st.candidates ++ G.maxQueue.toList st.results ++ xs,
    c.distance = L.dist (G.key c.node)
  sound : L.Sound (initialVisited G query) (entryPoints.map G.key) ef X
    (keys G (G.minQueue.toList st.candidates)) (keys G (G.maxQueue.toList st.results)) (keys G xs)

variable {X : List K} {xs : List (Candidate N D)} {c : Candidate N D} {st st' : LayerState G}

/-- What is admitted is no further than some result, or there is room. -/
theorem admits_iff (hs : Sees G query s L) (ht : Tracks G query L entryPoints ef X (c :: xs) st) :
    if admits G ef st c = true then
      (keys G (G.maxQueue.toList st.results)).length < ef ∨
        ∃ t ∈ keys G (G.maxQueue.toList st.results), L.dist (G.key c.node) ≤ L.dist t
    else L.Passed ef (keys G (G.maxQueue.toList st.results)) (G.key c.node) := by
  have hc : c.distance = L.dist (G.key c.node) := ht.distances c (by simp)
  have hr : ∀ b ∈ G.maxQueue.toList st.results, b.distance = L.dist (G.key b.node) := fun b hb =>
    ht.distances b (List.mem_append_left _ (List.mem_append_right _ hb))
  have hlen : (keys G (G.maxQueue.toList st.results)).length = G.maxQueue.size st.results := List.length_map _
  rw [admits, hlen]
  by_cases hsize : G.maxQueue.size st.results < ef
  · simp [hsize]
  · rcases htop : G.maxQueue.top st.results with _ | t
    · have hnil := G.maxQueue.top_none htop
      simp only [hsize, decide_false, Option.any_none, Bool.or_self, Bool.false_eq_true, if_false]
      exact ⟨by rw [hlen]; omega, fun r h => by simp [keys, hnil] at h⟩
    · obtain ⟨hmem, hmax⟩ := top_results hs htop
      simp only [hsize, decide_false, Option.any_some, Bool.false_or, closer, hs.lt, false_or]
      split
      · rename_i hlt
        exact ⟨_, List.mem_map_of_mem hmem, by rw [← hc, ← hr t hmem]; exact hlt.le⟩
      · rename_i hlt
        refine ⟨by rw [hlen]; omega, fun r h => ?_⟩
        obtain ⟨b, hb, rfl⟩ := List.mem_map.mp h
        rw [← hr b hb, ← hc]
        exact (hmax b hb).trans (not_lt.mp hlt)

/-- A candidate that is admitted is pending, and a result if it is visible. -/
theorem push_tracks (hs : Sees G query s L) (ht : Tracks G query L entryPoints ef X (c :: xs) st)
    (ha : (keys G (G.maxQueue.toList st.results)).length < ef ∨
      ∃ t ∈ keys G (G.maxQueue.toList st.results), L.dist (G.key c.node) ≤ L.dist t) :
    Tracks G query L entryPoints ef X xs { st with
      candidates := G.minQueue.push c st.candidates
      results := if L.visible (G.key c.node) = true then pushResult G ef st.results c else st.results } := by
  have hcand := G.minQueue.toList_push c st.candidates
  have hres := G.maxQueue.toList_push c st.results
  have hall : ∀ b ∈ c :: G.maxQueue.toList st.results, b.distance = L.dist (G.key b.node) := fun b hb =>
    ht.distances b (by rcases List.mem_cons.mp hb with rfl | hb <;> simp [*])
  have hdist {r : G.maxQueue.Carrier} (hr : ∀ b ∈ G.maxQueue.toList r, b ∈ c :: G.maxQueue.toList st.results) :
      ∀ b ∈ G.minQueue.toList (G.minQueue.push c st.candidates) ++ G.maxQueue.toList r ++ xs,
        b.distance = L.dist (G.key b.node) := fun b hb => by
    rcases List.mem_append.mp hb with hb | hb
    · rcases List.mem_append.mp hb with hb | hb
      · rcases List.mem_cons.mp (hcand.mem_iff.mp hb) with rfl | hb
        · exact hall b (by simp)
        · exact ht.distances b (by simp [hb])
      · exact hall b (hr b hb)
    · exact ht.distances b (by simp [hb])
  have hsound := (ht.sound.take ha).perm (keys_perm hcand.symm) (List.Perm.refl _)
  by_cases hv : L.visible (G.key c.node) = true
  · rw [if_pos hv] at hsound ⊢
    have hsound := hsound.perm (List.Perm.refl _) (keys_perm hres.symm)
    rw [pushResult]
    split
    · rename_i hlen
      rcases hp : G.maxQueue.pop (G.maxQueue.push c st.results) with _ | ⟨a, r⟩
      · rw [PriorityQueue.size, G.maxQueue.toList_pop_none _ hp] at hlen
        simp at hlen
      · have hpop := G.maxQueue.toList_pop _ a r hp
        have hmem : ∀ b ∈ a :: G.maxQueue.toList r, b ∈ c :: G.maxQueue.toList st.results := fun b hb =>
          hres.mem_iff.mp (hpop.mem_iff.mpr hb)
        refine ⟨ht.visited, hdist fun b hb => hmem b (List.mem_cons_of_mem _ hb), ?_⟩
        refine (hsound.perm (List.Perm.refl _) (keys_perm hpop)).evict ?_ fun r' hr' => ?_
        · have := hpop.length_eq
          rw [PriorityQueue.size] at hlen
          simp only [List.length_cons] at this
          show ef ≤ (keys G (G.maxQueue.toList r)).length
          rw [keys, List.length_map]
          omega
        · obtain ⟨b, hb, rfl⟩ := List.mem_map.mp hr'
          rw [← hall b (hmem b (List.mem_cons_of_mem _ hb)), ← hall a (hmem a (by simp))]
          exact pop_results hs hp b hb
    · exact ⟨ht.visited, hdist fun b hb => hres.mem_iff.mp hb, hsound⟩
  · rw [if_neg hv] at hsound ⊢
    exact ⟨ht.visited, hdist fun b hb => List.mem_cons_of_mem _ hb, hsound⟩

/-- A candidate that was discovered is pushed or passed over. -/
theorem pushExpanded_tracks (hs : Sees G query s L) (ht : Tracks G query L entryPoints ef X (c :: xs) st)
    (h : pushExpanded G ef st c s = (.ok st', s')) :
    s = s' ∧ Tracks G query L entryPoints ef X xs st' := by
  have hadmit := admits_iff hs ht
  rw [pushExpanded] at h
  split at h
  · rename_i ha
    rw [if_pos ha] at hadmit
    obtain ⟨v, s₁, hv, h⟩ := Prog.bind_returns.mp h
    obtain ⟨rfl, rfl⟩ := hs.isVisible _ _ _ hv
    simp only [Prog.pure_apply, Prod.mk.injEq, Except.ok.injEq] at h
    obtain ⟨rfl, rfl⟩ := h
    exact ⟨rfl, push_tracks hs ht hadmit⟩
  · rename_i ha
    rw [if_neg ha] at hadmit
    simp only [Prog.pure_apply, Prod.mk.injEq, Except.ok.injEq] at h
    obtain ⟨rfl, rfl⟩ := h
    refine ⟨rfl, ht.visited, fun b hb => ht.distances b ?_, ht.sound.skip hadmit⟩
    exact (List.sublist_cons_self c xs).append_left _ |>.subset hb

/-- An entry point is pushed. With more room than there are entry points none is
dropped. -/
theorem pushSeed_tracks (hs : Sees G query s L) (ht : Tracks G query L entryPoints ef X (c :: xs) st)
    (hlen : G.maxQueue.size st.results + (c :: xs).length < ef) (h : pushSeed G st c s = (.ok st', s')) :
    s = s' ∧ Tracks G query L entryPoints ef X xs st' ∧ G.maxQueue.size st'.results + xs.length < ef := by
  rw [pushSeed] at h
  obtain ⟨v, s₁, hv, h⟩ := Prog.bind_returns.mp h
  obtain ⟨rfl, rfl⟩ := hs.isVisible _ _ _ hv
  simp only [Prog.pure_apply, Prod.mk.injEq, Except.ok.injEq] at h
  obtain ⟨rfl, rfl⟩ := h
  have hsize : G.maxQueue.size (G.maxQueue.push c st.results) = G.maxQueue.size st.results + 1 := by
    simpa [PriorityQueue.size] using (G.maxQueue.toList_push c st.results).length_eq
  have hpush : pushResult G ef st.results c = G.maxQueue.push c st.results := by
    rw [pushResult, hsize, if_neg (by simp at hlen; omega)]
  have hroom : (keys G (G.maxQueue.toList st.results)).length < ef := by
    rw [keys, List.length_map]
    exact (Nat.le_add_right _ _).trans_lt hlen
  refine ⟨rfl, ?_, ?_⟩
  · simpa only [hpush] using push_tracks hs ht (.inl hroom)
  · simp only [List.length_cons] at hlen
    show G.maxQueue.size (if _ then _ else _) + _ < _
    split
    · rw [hsize]
      omega
    · omega

theorem evaluateDistances_sees (hs : Sees G query s L) :
    ∀ {ns : List N} {cs : List (Candidate N D)} {s' : σ},
      evaluateDistances G query ns s = (.ok cs, s') →
      s = s' ∧ cs.map Candidate.node = ns ∧ ∀ c ∈ cs, c.distance = L.dist (G.key c.node)
  | [], cs, s', h => by
    simp only [evaluateDistances, Prog.pure_apply, Prod.mk.injEq, Except.ok.injEq] at h
    obtain ⟨rfl, rfl⟩ := h
    simp
  | n :: ns, cs, s', h => by
    rw [evaluateDistances, Prog.bind_returns] at h
    obtain ⟨d, s₁, h1, h⟩ := h
    obtain ⟨rfl, rfl⟩ := hs.distance n d s₁ h1
    rw [Prog.bind_returns] at h
    obtain ⟨rest, s₂, h2, h⟩ := h
    obtain ⟨rfl, hrest, hdist⟩ := evaluateDistances_sees hs h2
    simp only [Prog.pure_apply, Prod.mk.injEq, Except.ok.injEq] at h
    obtain ⟨rfl, rfl⟩ := h
    exact ⟨rfl, by rw [List.map_cons, hrest], List.forall_mem_cons.mpr ⟨rfl, hdist⟩⟩

/-- The entry points become the candidates and, where visible, the results. -/
theorem seed_tracks [DecidableEq K] (hs : Sees G query s L) (h : seed G query entryPoints s = (.ok st, s')) :
    s = s' ∧ (∀ ef, Tracks G query L entryPoints ef [] [] st) := by
  rw [seed, seedImpl, Prog.bind_returns] at h
  obtain ⟨cs, s₁, h1, h⟩ := h
  obtain ⟨rfl, hcs, hdist⟩ := evaluateDistances_sees hs h1
  obtain ⟨-, hnd, -, hmem⟩ := visit_spec (G := G) entryPoints (initialVisited G query)
  have hkeys : keys G cs = (visit G (initialVisited G query) entryPoints).2.map G.key := by
    rw [← hcs, List.map_map]
    rfl
  have hsound : ∀ ef, (L.Sound (initialVisited G query) (entryPoints.map G.key) ef [] [] [] (keys G cs)) := fun ef =>
    .start (hkeys ▸ hnd) fun k => by rw [hkeys, mem_visit]
  have hstart : Tracks G query L entryPoints (cs.length + 1) [] cs
      (⟨(visit G (initialVisited G query) entryPoints).1, G.minQueue.empty, G.maxQueue.empty⟩ : LayerState G) := by
    refine ⟨fun k => ?_, ?_, ?_⟩
    · rw [hmem, mem_visit]
      constructor
      · exact fun h => h.imp_right fun h => ⟨h.2, .inl h.1⟩
      · rintro (h | ⟨h1, h2 | ⟨x, hx, -⟩⟩)
        · exact .inl h
        · exact .inr ⟨h2, h1⟩
        · exact absurd hx (by simp)
    · simpa [G.minQueue.toList_empty, G.maxQueue.toList_empty] using hdist
    · simpa [G.minQueue.toList_empty, G.maxQueue.toList_empty, keys] using hsound (cs.length + 1)
  obtain ⟨hs', ht, hlen⟩ := Prog.foldlM_returns
    (fun xs st t => s = t ∧ Tracks G query L entryPoints (cs.length + 1) [] xs st ∧
      G.maxQueue.size st.results + xs.length < cs.length + 1)
    (fun c xs st t st' t' hinv hrun => by
      obtain ⟨rfl, hI, hlen⟩ := hinv
      exact pushSeed_tracks hs hI hlen hrun) cs _ s st s'
    ⟨rfl, hstart, by simp [PriorityQueue.size, G.maxQueue.toList_empty]⟩ h
  refine ⟨hs', fun ef => ⟨ht.visited, ht.distances, ht.sound.of_short ?_ .nil⟩⟩
  rw [keys, List.length_map]
  simpa [PriorityQueue.size] using hlen

/-- Expanding a nearest candidate. -/
theorem expand_tracks [DecidableEq K] (hs : Sees G query s L) (ht : Tracks G query L entryPoints ef X [] st)
    {rest : G.minQueue.Carrier} (hp : G.minQueue.pop st.candidates = some (c, rest))
    (h : expand G query ef { st with candidates := rest } c.node s = (.ok st', s')) :
    s = s' ∧ Tracks G query L entryPoints ef (X ++ [G.key c.node]) [] st' := by
  have hpop := G.minQueue.toList_pop _ c rest hp
  have hnear := pop_candidates hs hp
  rw [expand, Prog.bind_returns] at h
  obtain ⟨ns, s₁, h1, h⟩ := h
  obtain ⟨rfl, hns⟩ := hs.neighbours _ _ _ h1
  obtain ⟨cs, s₂, h2, h⟩ := Prog.bind_returns.mp h
  obtain ⟨rfl, hcs, hdist⟩ := evaluateDistances_sees hs h2
  obtain ⟨-, hnd, -, hmem⟩ := visit_spec (G := G) ns st.visited
  have hkeys : keys G cs = (visit G st.visited ns).2.map G.key := by
    rw [← hcs, List.map_map]
    rfl
  have hcand : ∀ b ∈ c :: G.minQueue.toList rest, b.distance = L.dist (G.key b.node) := fun b hb =>
    ht.distances b (List.mem_append_left _ (List.mem_append_left _ (hpop.mem_iff.mpr hb)))
  have hsound : L.Sound (initialVisited G query) (entryPoints.map G.key) ef (X ++ [G.key c.node])
      (keys G (G.minQueue.toList rest)) (keys G (G.maxQueue.toList st.results)) (keys G cs) :=
    (ht.sound.perm (keys_perm hpop) (List.Perm.refl _)).expand (fun k hk => by
      obtain ⟨b, hb, rfl⟩ := List.mem_map.mp hk
      rw [← hcand c (by simp), ← hcand b (List.mem_cons_of_mem _ hb)]
      exact hnear b hb) (hkeys ▸ hnd) (fun k => by
      rw [hkeys, mem_visit, hns, ht.visited, not_or])
  have hstart : Tracks G query L entryPoints ef (X ++ [G.key c.node]) cs
      { st with candidates := rest, visited := (visit G st.visited ns).1 } := by
    refine ⟨fun k => ?_, fun b hb => ?_, hsound⟩
    · rw [hmem, mem_visit, hns, ht.visited]
      constructor
      · rintro ((h | h) | ⟨h1, h2⟩)
        · exact .inl h
        · exact .inr (h.mono (by simp))
        · exact .inr ⟨fun hb => h2 (.inl hb), .inr ⟨_, by simp, h1⟩⟩
      · rintro (h | ⟨hb, he | ⟨x, hx, hk⟩⟩)
        · exact .inl (.inl h)
        · exact .inl (.inr ⟨hb, .inl he⟩)
        · rcases List.mem_append.mp hx with hx | hx
          · exact .inl (.inr ⟨hb, .inr ⟨x, hx, hk⟩⟩)
          · obtain rfl := List.mem_singleton.mp hx
            by_cases hv : k ∈ initialVisited G query ∨
                L.Discovered (initialVisited G query) (entryPoints.map G.key) X k
            · exact .inl hv
            · exact .inr ⟨hk, hv⟩
    · rcases List.mem_append.mp hb with hb | hb
      · rcases List.mem_append.mp hb with hb | hb
        · exact hcand b (List.mem_cons_of_mem _ hb)
        · exact ht.distances b (by simp [hb])
      · exact hdist b hb
  exact Prog.foldlM_returns (fun xs st t => s = t ∧ Tracks G query L entryPoints ef (X ++ [G.key c.node]) xs st)
    (fun c xs st t st' t' hinv hrun => by
      obtain ⟨rfl, hI⟩ := hinv
      exact pushExpanded_tracks hs hI hrun) cs _ s st' s' ⟨rfl, hstart⟩ h

/-- The stop test fires when every candidate is further than every result. -/
theorem stopped_of_finished (hs : Sees G query s L) (ht : Tracks G query L entryPoints ef X [] st)
    {rest : G.minQueue.Carrier} (hp : G.minQueue.pop st.candidates = some (c, rest))
    (hf : finished G { st with candidates := rest } c = true) :
    Landscape.Sound.Stopped (L := L) (keys G (G.minQueue.toList st.candidates))
      (keys G (G.maxQueue.toList st.results)) := by
  obtain ⟨t, htop, hlt⟩ := (Option.any_eq_true _ _).mp hf
  obtain ⟨hmem, hmax⟩ := top_results hs htop
  rw [closer, hs.lt] at hlt
  intro k hk
  obtain ⟨b, hb, rfl⟩ := List.mem_map.mp hk
  refine ⟨List.ne_nil_of_mem (List.mem_map_of_mem hmem), fun r hr => ?_⟩
  obtain ⟨d, hd, rfl⟩ := List.mem_map.mp hr
  rw [← ht.distances b (by simp [hb]), ← ht.distances d (by simp [hd])]
  refine (hmax d hd).trans_lt (hlt.trans_le ?_)
  rcases List.mem_cons.mp ((G.minQueue.toList_pop _ c rest hp).mem_iff.mp hb) with rfl | hb
  · exact le_rfl
  · exact pop_candidates hs hp b hb

/-- A search that returns has stopped: its candidates, with the one it took last,
are all further than its results. -/
theorem searchLoop_stops [DecidableEq K] (hs : Sees G query s L) :
    ∀ {fuel : ℕ} {X : List K} {st st' : LayerState G} {s' : σ}, Tracks G query L entryPoints ef X [] st →
      searchLoop G query ef fuel st s = (.ok st', s') →
      s = s' ∧ ∃ X' st₁, Tracks G query L entryPoints ef X' [] st₁ ∧ st₁.results = st'.results ∧
        st₁.visited = st'.visited ∧
        Landscape.Sound.Stopped (L := L) (keys G (G.minQueue.toList st₁.candidates))
          (keys G (G.maxQueue.toList st'.results)) := by
  intro fuel
  induction fuel with
  | zero =>
    intro X st st' s' ht h
    rcases searchLoop_cases h with ⟨hp, rfl, rfl⟩ | ⟨c, rest, hp, hf, rfl, rfl⟩ | ⟨_, _, _, _, _, -, hf, -⟩
    · exact ⟨rfl, X, st', ht, rfl, rfl, by simp [Landscape.Sound.Stopped, G.minQueue.toList_pop_none _ hp, keys]⟩
    · exact ⟨rfl, X, st, ht, rfl, rfl, stopped_of_finished hs ht hp hf⟩
    · exact absurd hf (by simp)
  | succ fuel ih =>
    intro X st st' s' ht h
    rcases searchLoop_cases h with ⟨hp, rfl, rfl⟩ | ⟨c, rest, hp, hf, rfl, rfl⟩ |
      ⟨c, rest, fuel', st₁, s₁, hp, hfuel, -, h1, h2⟩
    · exact ⟨rfl, X, st', ht, rfl, rfl, by simp [Landscape.Sound.Stopped, G.minQueue.toList_pop_none _ hp, keys]⟩
    · exact ⟨rfl, X, st, ht, rfl, rfl, stopped_of_finished hs ht hp hf⟩
    · obtain rfl : fuel = fuel' := by omega
      obtain ⟨rfl, ht₁⟩ := expand_tracks hs ht hp h1
      exact ih ht₁ h2

theorem search_stops [DecidableEq K] (hs : Sees G query s L) {fuel : ℕ}
    (h : search G query fuel entryPoints ef s = (.ok st, s')) :
    s = s' ∧ ∃ X' st₁, Tracks G query L entryPoints ef X' [] st₁ ∧ st₁.results = st.results ∧
      st₁.visited = st.visited ∧
      Landscape.Sound.Stopped (L := L) (keys G (G.minQueue.toList st₁.candidates))
        (keys G (G.maxQueue.toList st.results)) := by
  rw [search, Prog.bind_returns] at h
  obtain ⟨st₁, s₁, h1, h2⟩ := h
  obtain ⟨rfl, ht⟩ := seed_tracks hs h1
  exact searchLoop_stops hs (ht ef) h2

end Account

/-! ### The search ends -/

section Ends

variable {G : LayerGraph ε σ N Q K D} {query : Query N Q} {s : σ} {L : Landscape K D}
  {entryPoints : List N} {ef : ℕ}

variable [DecidableEq K]

theorem seed_returns (hs : Sees G query s L) (ha : Answers G query s L entryPoints) :
    ∃ st, seed G query entryPoints s = (.ok st, s) := by
  have hreach : ∀ n ∈ (visit G (initialVisited G query) entryPoints).2, G.key n ∈ Reached G query L entryPoints :=
    fun n hn => by
      obtain ⟨h1, h2⟩ := mem_visit.mp (List.mem_map_of_mem hn)
      exact Landscape.Reach.entry h1 h2
  obtain ⟨cs, hcs⟩ := evaluateDistances_returns fun n hn => ha.distance n (hreach n hn)
  obtain ⟨-, hnode, -⟩ := evaluateDistances_sees hs hcs
  obtain ⟨st, hst⟩ : ∃ st, cs.foldlM (pushSeed G)
      ⟨(visit G (initialVisited G query) entryPoints).1, G.minQueue.empty, G.maxQueue.empty⟩ s = (.ok st, s) :=
    foldlM_returns_of (fun c st => pushSeed_returns ha c st) _
      fun c hc => hreach c.node (hnode ▸ List.mem_map_of_mem hc)
  refine ⟨st, ?_⟩
  rw [seed, seedImpl, Prog.bind_apply, hcs]
  exact hst

theorem expand_returns (hs : Sees G query s L) (ha : Answers G query s L entryPoints) {st : LayerState G} {n : N}
    (hn : G.key n ∈ Reached G query L entryPoints) (hb : ∀ k ∈ initialVisited G query, k ∈ st.visited) :
    ∃ st', expand G query ef st n s = (.ok st', s) := by
  obtain ⟨ns, hns⟩ := ha.neighbours n hn
  obtain ⟨-, hadj⟩ := hs.neighbours _ _ _ hns
  have hreach : ∀ m ∈ (visit G st.visited ns).2, G.key m ∈ Reached G query L entryPoints := fun m hm => by
    obtain ⟨h1, h2⟩ := mem_visit.mp (List.mem_map_of_mem hm)
    exact Landscape.Reach.step hn (hadj ▸ h1) fun h => h2 (hb _ h)
  obtain ⟨cs, hcs⟩ := evaluateDistances_returns fun n hn => ha.distance n (hreach n hn)
  obtain ⟨-, hnode, -⟩ := evaluateDistances_sees hs hcs
  obtain ⟨st', hst⟩ : ∃ st', cs.foldlM (pushExpanded G ef)
      { st with visited := (visit G st.visited ns).1 } s = (.ok st', s) :=
    foldlM_returns_of (fun c st => pushExpanded_returns ha c st) _
      fun c hc => hreach c.node (hnode ▸ List.mem_map_of_mem hc)
  refine ⟨st', ?_⟩
  rw [expand, Prog.bind_apply, hns]
  simp only [Prog.bind_apply, hcs]
  exact hst

/-- Every turn expands a node not expanded before, so as many turns as there are
nodes to reach suffice, and further ones change nothing. -/
theorem searchLoop_ends (hs : Sees G query s L) (ha : Answers G query s L entryPoints)
    (hfin : (Reached G query L entryPoints).Finite) :
    ∀ (m : ℕ) {X : List K} {st : LayerState G}, Tracks G query L entryPoints ef X [] st →
      (Reached G query L entryPoints).ncard ≤ m + X.length →
      ∃ st', ∀ fuel, m ≤ fuel → searchLoop G query ef fuel st s = (.ok st', s) := by
  intro m
  induction m with
  | zero =>
    intro X st ht hm
    rcases hp : G.minQueue.pop st.candidates with _ | ⟨c, rest⟩
    · refine ⟨st, fun fuel _ => ?_⟩
      rw [searchLoop, hp]
      rfl
    · have := (ht.sound.perm (keys_perm (G.minQueue.toList_pop _ c rest hp)) (List.Perm.refl _)).length_expanded_le hfin
      rw [Reached] at hm
      omega
  | succ m ih =>
    intro X st ht hm
    rcases hp : G.minQueue.pop st.candidates with _ | ⟨c, rest⟩
    · refine ⟨st, fun fuel _ => ?_⟩
      rw [searchLoop, hp]
      rfl
    rcases hf : finished G { st with candidates := rest } c with _ | _
    · have hc : G.key c.node ∈ Reached G query L entryPoints := by
        have hmem : c ∈ G.minQueue.toList st.candidates :=
          (G.minQueue.toList_pop _ c rest hp).mem_iff.mpr (by simp)
        refine ht.sound.known_reach ?_
        simp [show G.key c.node ∈ keys G (G.minQueue.toList st.candidates) from List.mem_map_of_mem hmem]
      obtain ⟨st₁, h1⟩ : ∃ st₁, expand G query ef { st with candidates := rest } c.node s = (.ok st₁, s) :=
        expand_returns hs ha hc fun k hk => (ht.visited k).mpr (.inl hk)
      obtain ⟨-, ht₁⟩ := expand_tracks hs ht hp h1
      obtain ⟨st', h2⟩ := ih ht₁ (by rw [List.length_append]; simp; omega)
      refine ⟨st', fun fuel hfuel => ?_⟩
      obtain ⟨fuel, rfl⟩ : ∃ f, fuel = f + 1 := ⟨fuel - 1, by omega⟩
      rw [searchLoop, hp]
      simp only [hf, Bool.false_eq_true, if_false]
      rw [Prog.bind_apply, h1]
      exact h2 fuel (by omega)
    · refine ⟨{ st with candidates := rest }, fun fuel _ => ?_⟩
      rw [searchLoop, hp]
      simp only [hf, if_true]
      rfl

theorem search_ends (hs : Sees G query s L) (ha : Answers G query s L entryPoints)
    (hfin : (Reached G query L entryPoints).Finite) (ef : ℕ) :
    ∃ st, ∀ fuel, (Reached G query L entryPoints).ncard ≤ fuel →
      search G query fuel entryPoints ef s = (.ok st, s) := by
  obtain ⟨st₁, h1⟩ := seed_returns hs ha
  obtain ⟨-, ht⟩ := seed_tracks hs h1
  obtain ⟨st, h2⟩ := searchLoop_ends hs ha hfin (Reached G query L entryPoints).ncard (ht ef) (by simp)
  refine ⟨st, fun fuel hfuel => ?_⟩
  rw [seed] at h1
  rw [search, Prog.bind_apply, h1]
  exact h2 fuel hfuel

end Ends

/-! ### What is found -/

section Found

variable {G : LayerGraph ε σ N Q K D} {query : Query N Q} {s s' : σ} {L : Landscape K D}
  {entryPoints : List N} {ef fuel : ℕ} {st : LayerState G}

/-- The result is in order of distance. -/
theorem consumeAll_sorted (hs : Sees G query s L)
    (hd : ∀ c ∈ G.maxQueue.toList st.results, c.distance = L.dist (G.key c.node)) :
    (consumeAll G st).Pairwise fun a b => L.dist (G.key a) ≤ L.dist (G.key b) := by
  have hperm := G.maxQueue.drain_perm st.results
  rw [consumeAll, List.pairwise_map, List.pairwise_reverse]
  refine ((G.maxQueue.drain_pairwise (closer_order hs) st.results).imp_of_mem ?_)
  intro a b ha hb h
  rw [← hd a (hperm.mem_iff.mp ha), ← hd b (hperm.mem_iff.mp hb)]
  exact (lt_eq_false hs).mp h

variable [DecidableEq K]

/-- The visible entry points, each once. -/
def visibleEntryPoints (G : LayerGraph ε σ N Q K D) (L : Landscape K D) (entryPoints : List N) : List K :=
  (entryPoints.map G.key).dedup.filter fun k => L.visible k

theorem search_size (hs : Sees G query s L) (h : search G query fuel entryPoints ef s = (.ok st, s')) :
    (consumeAll G st).length ≤ max ef (visibleEntryPoints G L entryPoints).length := by
  rw [search, Prog.bind_returns] at h
  obtain ⟨st₁, s₁, h1, h2⟩ := h
  obtain ⟨rfl, ht⟩ := seed_tracks hs h1
  rw [(consumeAll_perm st).length_eq, List.length_map]
  refine searchLoop_size (le_max_left _ _) (le_trans ?_ (le_max_right _ _)) h2
  have hsub : keys G (G.maxQueue.toList st₁.results) ⊆ visibleEntryPoints G L entryPoints := fun k hk => by
    obtain ⟨hv, hmem⟩ := (ht ef).sound.results k hk
    obtain ⟨-, he | ⟨x, hx, -⟩⟩ := (ht ef).sound.known k (List.mem_append_left _ hmem)
    · simpa [visibleEntryPoints, hv] using he
    · exact absurd hx (by simp)
  simpa [keys, PriorityQueue.size] using ((ht ef).sound.results_nodup.subperm hsub).length_le

/-- **What a search returns.** A search of a finite graph whose operations return
ends. Its result is in order of distance, without duplicates; it has only visible
nodes that can be reached, never the query itself, and at most `ef` of them or as
many as there are visible entry points. `consume_simple` returns the first of them. -/
theorem search_result (hs : Sees G query s L) (ha : Answers G query s L entryPoints)
    (hfin : (Reached G query L entryPoints).Finite) (ef : ℕ) :
    ∃ st, (∀ fuel, (Reached G query L entryPoints).ncard ≤ fuel →
        search G query fuel entryPoints ef s = (.ok st, s)) ∧
      (consumeAll G st).Pairwise (fun a b => L.dist (G.key a) ≤ L.dist (G.key b)) ∧
      ((consumeAll G st).map G.key).Nodup ∧
      (∀ n ∈ consumeAll G st, L.visible (G.key n) = true ∧ G.key n ∈ Reached G query L entryPoints) ∧
      (∀ q, query = .node q → G.key q ∉ (consumeAll G st).map G.key) ∧
      (consumeAll G st).length ≤ max ef (visibleEntryPoints G L entryPoints).length ∧
      ∀ M, consumeSimple G M st = (consumeAll G st).take (min M (consumeAll G st).length) := by
  obtain ⟨st, hst⟩ := search_ends hs ha hfin ef
  have hrun := hst _ le_rfl
  obtain ⟨-, X, st₁, ht, hres, -, -⟩ := search_stops hs hrun
  have hkeys := keys_consumeAll st
  rw [← hres] at hkeys
  have hmem : ∀ k ∈ (consumeAll G st).map G.key,
      L.visible k = true ∧ L.Discovered (initialVisited G query) (entryPoints.map G.key) X k := fun k hk => by
    obtain ⟨h1, h2⟩ := ht.sound.results k (hkeys.mem_iff.mp hk)
    exact ⟨h1, ht.sound.known k (List.mem_append_left _ h2)⟩
  refine ⟨st, hst, consumeAll_sorted hs fun c hc => ht.distances c ?_, hkeys.nodup_iff.mpr ht.sound.results_nodup,
    fun n hn => ?_, ?_, search_size hs hrun, fun M => ?_⟩
  · rw [← hres] at hc
    simp [hc]
  · obtain ⟨h1, h2⟩ := hmem _ (List.mem_map_of_mem hn)
    exact ⟨h1, h2.reach ht.sound.reach⟩
  · rintro q rfl hq
    exact (hmem _ hq).2.1 (by simp [initialVisited])
  · rw [consumeSimple, List.take_eq_take_iff]
    omega

/-- **The result is locally optimal.** A visible node that a node of the result
leads to, and that is not the query, is in the result, or the result has `ef` nodes
and none of them is further. -/
theorem search_locally_optimal (hs : Sees G query s L)
    (h : search G query fuel entryPoints ef s = (.ok st, s')) {r n : K}
    (hr : r ∈ (consumeAll G st).map G.key) (hn : n ∈ L.adj r) (hv : L.visible n = true)
    (hq : n ∉ initialVisited G query) :
    n ∈ (consumeAll G st).map G.key ∨
      ef ≤ (consumeAll G st).length ∧ ∀ x ∈ (consumeAll G st).map G.key, L.dist x ≤ L.dist n := by
  obtain ⟨-, X, st₁, ht, hres, -, hstop⟩ := search_stops hs h
  have hkeys := keys_consumeAll st
  rw [← hres] at hkeys hstop
  rcases ht.sound.locally_optimal hstop (hkeys.mem_iff.mp hr) hn hq hv with hmem | ⟨h1, h2⟩
  · exact .inl (hkeys.mem_iff.mpr hmem)
  · refine .inr ⟨?_, fun x hx => h2 x (hkeys.mem_iff.mp hx)⟩
    have := hkeys.length_eq
    rw [List.length_map] at this
    omega

end Found

/-! ### Nodes on a line

The graph of the tests: the nodes `0..n-1` in a row, each linked to those beside it. -/

section Line

def besides (n v : ℕ) : List ℕ := (if 1 ≤ v then [v - 1] else []) ++ if v + 1 < n then [v + 1] else []

def gap (a b : ℕ) : ℕ := max a b - min a b

def lineGraph (n : ℕ) (invisible : List ℕ) : LayerGraph Unit Unit ℕ ℕ ℕ ℕ where
  key := id
  neighbours v := pure (besides n v)
  distance a b := pure (gap a b)
  distanceTo a b := pure (gap a b)
  isVisible v := pure (decide (v ∉ invisible))
  lt a b := decide (a < b)
  minQueue := .ofList _
  maxQueue := .ofList _
  diverged := ()

/-- The line as it looks from the place `q`. -/
def lineFrom (n : ℕ) (invisible : List ℕ) (q : ℕ) : Landscape ℕ ℕ where
  adj := besides n
  dist := gap q
  visible v := decide (v ∉ invisible)

theorem lineGraph_sees (n : ℕ) (invisible : List ℕ) (q : ℕ) :
    Sees (lineGraph n invisible) (.data q) () (lineFrom n invisible q) where
  lt a b := decide_eq_true_iff
  neighbours v ns s' h := by
    obtain ⟨h, -⟩ := Prod.mk.inj h
    exact ⟨rfl, by simp [lineGraph, lineFrom, ← Except.ok.inj h]⟩
  distance v d s' h := ⟨rfl, (Except.ok.inj (Prod.mk.inj h).1).symm⟩
  isVisible v b s' h := ⟨rfl, (Except.ok.inj (Prod.mk.inj h).1).symm⟩

theorem lineGraph_answers (n : ℕ) (invisible : List ℕ) (q : ℕ) (entryPoints : List ℕ) :
    Answers (lineGraph n invisible) (.data q) () (lineFrom n invisible q) entryPoints where
  neighbours _ _ := ⟨_, rfl⟩
  distance _ _ := ⟨_, rfl⟩
  isVisible _ _ := ⟨_, rfl⟩

theorem lineGraph_finite {n : ℕ} {invisible : List ℕ} {q : ℕ} {entryPoints : List ℕ} (h : ∀ v ∈ entryPoints, v < n) :
    (Reached (lineGraph n invisible) (.data q) (lineFrom n invisible q) entryPoints).Finite := by
  refine Set.Finite.subset (Set.finite_Iio n) fun k hk => ?_
  induction hk with
  | entry he _ => exact h _ (by simpa [lineGraph] using he)
  | @step k m _ hm _ ih =>
    simp only [lineFrom, besides, List.mem_append] at hm
    rw [Set.mem_Iio] at ih ⊢
    split at hm <;> split at hm <;> simp at hm <;> omega

theorem search_result_line : ∃ fuel st, search (lineGraph 20 [15]) (.data 15) fuel [0] 6 () = (.ok st, ()) ∧
    ((consumeAll (lineGraph 20 [15]) st).map (lineGraph 20 [15]).key).Nodup := by
  obtain ⟨st, h1, -, h2, -⟩ := search_result (lineGraph_sees 20 [15] 15) (lineGraph_answers 20 [15] 15 [0])
    (lineGraph_finite (by decide)) 6
  exact ⟨_, st, h1 _ le_rfl, h2⟩

theorem search_locally_optimal_line :
    ∃ st, search (lineGraph 3 []) (.data 0) 3 [2] 2 () = (.ok st, ()) ∧
      (1 ∈ (consumeAll (lineGraph 3 []) st).map id ∨ 2 ≤ (consumeAll (lineGraph 3 []) st).length ∧
        ∀ x ∈ (consumeAll (lineGraph 3 []) st).map id, gap 0 x ≤ gap 0 1) :=
  have hrun : search (lineGraph 3 []) (.data 0) 3 [2] 2 () =
      (.ok ⟨[0, 1, 2], [], [(⟨0, 0⟩ : Candidate ℕ ℕ), ⟨1, 1⟩]⟩, ()) := rfl
  ⟨_, hrun, search_locally_optimal (lineGraph_sees 3 [] 0) (r := 0) (n := 1) hrun
    (by decide) (by decide) rfl (by decide)⟩

end Line

end LayerOperations
end Hnsw
end VsqlVector
