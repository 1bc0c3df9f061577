/-
# What a search returns

A search of a layer only reads, and what it gathers are nodes it came to from
its entry points, each once and never the query itself (`search_spec`). So a
property that the entry points have and that links pass on is a property of the
result. What `consume_all` and `consume_heuristic` take out is part of the
result (`consumeAll_perm`, `consumeHeuristic_spec`).

Key definitions: `Reads`, `Gathered`.
Key theorems: `search_spec`, `seed_spec`, `consumeHeuristic_spec`, `search_stuck`, `search_finds`,
`consumeHeuristic_finds`.
-/
import VsqlVector.Index.GraphOps

namespace VsqlVector
namespace Hnsw
namespace LayerOperations

variable {ε σ N Q K D : Type} {G : LayerGraph ε σ N Q K D} {s s' : σ}
  {P : N → Prop} {query : Query N Q}

/-- The operations of the graph only read the state `s`, and links pass `P` on. -/
structure Reads (G : LayerGraph ε σ N Q K D) (s : σ) (P : N → Prop) : Prop where
  neighbours : ∀ n ns s', P n → G.neighbours n s = (.ok ns, s') → s = s' ∧ ∀ m ∈ ns, P m
  distance : ∀ a b d s', G.distance a b s = (.ok d, s') → s = s'
  distanceTo : ∀ q b d s', G.distanceTo q b s = (.ok d, s') → s = s'
  isVisible : ∀ n v s', G.isVisible n s = (.ok v, s') → s = s'

/-- What is gathered: candidates and results with the property `P`, each result
once, visited and not one of `init`; the candidates `xs` may still become results. -/
structure Gathered (G : LayerGraph ε σ N Q K D) (init : List K) (P : N → Prop)
    (xs : List (Candidate N D)) (st : LayerState G) : Prop where
  initial : init ⊆ st.visited
  candidates : ∀ c ∈ G.minQueue.toList st.candidates, P c.node
  good : ∀ c ∈ G.maxQueue.toList st.results ++ xs,
    P c.node ∧ G.key c.node ∈ st.visited ∧ G.key c.node ∉ init
  nodup : ((G.maxQueue.toList st.results ++ xs).map fun c => G.key c.node).Nodup

/-! ### Marking nodes visited -/

theorem visit_spec [DecidableEq K] : ∀ (ns : List N) (vis : List K),
    (visit G vis ns).2.Sublist ns ∧ ((visit G vis ns).2.map G.key).Nodup ∧
      (∀ n ∈ (visit G vis ns).2, G.key n ∉ vis) ∧
      ∀ k, k ∈ (visit G vis ns).1 ↔ k ∈ vis ∨ k ∈ (visit G vis ns).2.map G.key
  | [], vis => by simp [visit]
  | n :: ns, vis => by
    by_cases hn : G.key n ∈ vis
    · obtain ⟨h1, h2, h3, h4⟩ := visit_spec ns vis
      rw [visit, if_pos hn]
      exact ⟨h1.cons n, h2, h3, h4⟩
    · obtain ⟨h1, h2, h3, h4⟩ := visit_spec ns (G.key n :: vis)
      rw [visit, if_neg hn]
      refine ⟨h1.cons_cons n, ?_, ?_, fun k => ?_⟩
      · rw [List.map_cons, List.nodup_cons]
        refine ⟨fun hmem => ?_, h2⟩
        obtain ⟨m, hm, he⟩ := List.mem_map.mp hmem
        exact h3 m hm (by simp [he])
      · intro m hm
        rcases List.mem_cons.mp hm with rfl | hm
        · exact hn
        · exact fun h => h3 m hm (List.mem_cons_of_mem _ h)
      · rw [h4, List.mem_cons, List.map_cons, List.mem_cons]
        tauto

theorem visit_covers [DecidableEq K] : ∀ {ns : List N} {vis : List K} {n : N}, n ∈ ns →
    G.key n ∈ (visit G vis ns).1
  | m :: ns, vis, n, h => by
    rw [visit]
    rcases List.mem_cons.mp h with rfl | h
    · split
      · rename_i hn
        exact (visit_spec ns vis).2.2.2 _ |>.mpr (.inl hn)
      · exact (visit_spec ns _).2.2.2 _ |>.mpr (.inl (by simp))
    · split
      · exact visit_covers h
      · exact visit_covers h

/-- The nodes marked visited are those of the list that were not. -/
theorem mem_visit [DecidableEq K] {ns : List N} {vis : List K} {k : K} :
    k ∈ (visit G vis ns).2.map G.key ↔ k ∈ ns.map G.key ∧ k ∉ vis := by
  obtain ⟨hsub, -, hnew, hmem⟩ := visit_spec (G := G) ns vis
  constructor
  · intro hk
    obtain ⟨n, hn, rfl⟩ := List.mem_map.mp hk
    exact ⟨List.mem_map_of_mem (hsub.subset hn), hnew n hn⟩
  · rintro ⟨hk, hnot⟩
    obtain ⟨n, hn, rfl⟩ := List.mem_map.mp hk
    exact ((hmem _).mp (visit_covers hn)).resolve_left hnot

theorem queryDistance_reads (hr : Reads G s P) {n : N} {d : D}
    (h : queryDistance G query n s = (.ok d, s')) : s = s' := by
  cases query with
  | node q => exact hr.distance q n d s' h
  | data q => exact hr.distanceTo q n d s' h

theorem evaluateDistances_spec (hr : Reads G s P) : ∀ {ns : List N} {cs : List (Candidate N D)} {s' : σ},
    evaluateDistances G query ns s = (.ok cs, s') → s = s' ∧ cs.map Candidate.node = ns
  | [], cs, s', h => by
    simp only [evaluateDistances, Prog.pure_apply, Prod.mk.injEq, Except.ok.injEq] at h
    obtain ⟨rfl, rfl⟩ := h
    exact ⟨rfl, rfl⟩
  | n :: ns, cs, s', h => by
    rw [evaluateDistances, Prog.bind_returns] at h
    obtain ⟨d, s₁, h1, h⟩ := h
    obtain rfl := queryDistance_reads hr h1
    rw [Prog.bind_returns] at h
    obtain ⟨rest, s₂, h2, h⟩ := h
    obtain ⟨rfl, hrest⟩ := evaluateDistances_spec hr h2
    simp only [Prog.pure_apply, Prod.mk.injEq, Except.ok.injEq] at h
    obtain ⟨rfl, rfl⟩ := h
    exact ⟨rfl, by rw [List.map_cons, hrest]⟩

/-! ### Gathering -/

namespace Gathered

variable {init : List K} {xs ys : List (Candidate N D)} {st st' : LayerState G} {c : Candidate N D}

/-- Fewer results and fewer to come. -/
theorem of_subperm (h : Gathered G init P xs st) (hv : st'.visited = st.visited)
    (hc : ∀ c ∈ G.minQueue.toList st'.candidates, P c.node)
    (hsub : (G.maxQueue.toList st'.results ++ ys).Subperm (G.maxQueue.toList st.results ++ xs)) :
    Gathered G init P ys st' := by
  refine ⟨hv ▸ h.initial, hc, fun c hc => hv ▸ h.good c (hsub.subset hc), ?_⟩
  obtain ⟨l, hl, hs⟩ := hsub
  exact (hl.map fun c => G.key c.node).nodup_iff.mp (h.nodup.sublist (hs.map fun c => G.key c.node))

theorem candidates_push (h : Gathered G init P (c :: xs) st) :
    ∀ c' ∈ G.minQueue.toList (G.minQueue.push c st.candidates), P c'.node := fun c' hc' => by
  rcases List.mem_cons.mp ((G.minQueue.toList_push c st.candidates).mem_iff.mp hc') with rfl | hc'
  · exact (h.good c' (by simp)).1
  · exact h.candidates c' hc'

/-- The next candidate is passed over. -/
theorem skip (h : Gathered G init P (c :: xs) st) : Gathered G init P xs st :=
  h.of_subperm rfl h.candidates ((List.sublist_cons_self c xs).append_left _).subperm

theorem push_subperm (r : G.maxQueue.Carrier) (c : Candidate N D) (xs : List (Candidate N D)) :
    (G.maxQueue.toList (G.maxQueue.push c r) ++ xs).Subperm (G.maxQueue.toList r ++ c :: xs) := by
  refine List.Perm.subperm (((G.maxQueue.toList_push c r).append_right xs).trans ?_)
  rw [List.cons_append]
  exact List.perm_middle.symm

theorem pushResult_subperm (ef : ℕ) (r : G.maxQueue.Carrier) (c : Candidate N D)
    (xs : List (Candidate N D)) :
    (G.maxQueue.toList (pushResult G ef r c) ++ xs).Subperm (G.maxQueue.toList r ++ c :: xs) := by
  rw [pushResult]
  split
  · rcases hp : G.maxQueue.pop (G.maxQueue.push c r) with _ | ⟨a, r'⟩
    · exact push_subperm r c xs
    · refine List.Subperm.trans ?_ (push_subperm r c xs)
      refine (List.Sublist.subperm (List.sublist_cons_self a _)).trans (List.Perm.subperm ?_)
      exact ((G.maxQueue.toList_pop _ a r' hp).append_right xs).symm
  · exact push_subperm r c xs

/-- New nodes to gather. -/
theorem extend [DecidableEq K] (h : Gathered G init P [] st) {ns : List N} (hns : ∀ n ∈ ns, P n)
    {cs : List (Candidate N D)} (hcs : cs.map Candidate.node = (visit G st.visited ns).2) :
    Gathered G init P cs { st with visited := (visit G st.visited ns).1 } := by
  obtain ⟨hsub, hnd, hnew, hmem⟩ := visit_spec (G := G) ns st.visited
  have hkeys : cs.map (fun c => G.key c.node) = (visit G st.visited ns).2.map G.key := by
    rw [← hcs, List.map_map]
    rfl
  have hnode : ∀ c ∈ cs, c.node ∈ (visit G st.visited ns).2 := fun c hc =>
    hcs ▸ List.mem_map_of_mem hc
  refine ⟨fun k hk => (hmem k).mpr (.inl (h.initial hk)), h.candidates, fun c hc => ?_, ?_⟩
  · rcases List.mem_append.mp hc with hc | hc
    · obtain ⟨h1, h2, h3⟩ := h.good c (List.mem_append_left _ hc)
      exact ⟨h1, (hmem _).mpr (.inl h2), h3⟩
    · refine ⟨hns _ (hsub.subset (hnode c hc)), (hmem _).mpr (.inr (List.mem_map_of_mem (hnode c hc))),
        fun hk => hnew _ (hnode c hc) (h.initial hk)⟩
  · rw [List.map_append, hkeys, List.nodup_append]
    refine ⟨by simpa using h.nodup, hnd, fun k hk k' hk' he => ?_⟩
    subst he
    obtain ⟨c, hc, rfl⟩ := List.mem_map.mp hk
    obtain ⟨n, hn, he⟩ := List.mem_map.mp hk'
    exact hnew n hn (he ▸ (h.good c (List.mem_append_left _ hc)).2.1)

end Gathered

variable {init : List K}

theorem pushSeed_spec (hr : Reads G s P) {c : Candidate N D} {xs : List (Candidate N D)}
    {st st' : LayerState G} (hg : Gathered G init P (c :: xs) st)
    (h : pushSeed G st c s = (.ok st', s')) : s = s' ∧ Gathered G init P xs st' := by
  rw [pushSeed, Prog.bind_returns] at h
  obtain ⟨v, s₁, hv, h⟩ := h
  obtain rfl := hr.isVisible c.node v s₁ hv
  simp only [Prog.pure_apply, Prod.mk.injEq, Except.ok.injEq] at h
  obtain ⟨rfl, rfl⟩ := h
  refine ⟨rfl, hg.of_subperm rfl hg.candidates_push ?_⟩
  cases v with
  | false => exact ((List.sublist_cons_self c xs).append_left _).subperm
  | true => exact Gathered.push_subperm st.results c xs

theorem pushExpanded_spec (hr : Reads G s P) {ef : ℕ} {c : Candidate N D}
    {xs : List (Candidate N D)} {st st' : LayerState G} (hg : Gathered G init P (c :: xs) st)
    (h : pushExpanded G ef st c s = (.ok st', s')) : s = s' ∧ Gathered G init P xs st' := by
  rw [pushExpanded] at h
  by_cases ha : admits G ef st c = true
  · rw [if_pos ha, Prog.bind_returns] at h
    obtain ⟨v, s₁, hv, h⟩ := h
    obtain rfl := hr.isVisible c.node v s₁ hv
    simp only [Prog.pure_apply, Prod.mk.injEq, Except.ok.injEq] at h
    obtain ⟨rfl, rfl⟩ := h
    refine ⟨rfl, hg.of_subperm rfl hg.candidates_push ?_⟩
    cases v with
    | false => exact ((List.sublist_cons_self c xs).append_left _).subperm
    | true => exact Gathered.pushResult_subperm ef st.results c xs
  · rw [if_neg ha] at h
    simp only [Prog.pure_apply, Prod.mk.injEq, Except.ok.injEq] at h
    obtain ⟨rfl, rfl⟩ := h
    exact ⟨rfl, hg.skip⟩

/-- A loop whose turns gather one candidate each gathers all of them. -/
theorem gather_all {f : LayerState G → Candidate N D → Prog ε σ (LayerState G)}
    (hf : ∀ c xs st st' s', Gathered G init P (c :: xs) st → f st c s = (.ok st', s') →
      s = s' ∧ Gathered G init P xs st') {cs : List (Candidate N D)} {st st' : LayerState G}
    (hg : Gathered G init P cs st) (h : cs.foldlM f st s = (.ok st', s')) :
    s = s' ∧ Gathered G init P [] st' :=
  Prog.foldlM_returns (fun xs st t => s = t ∧ Gathered G init P xs st)
    (fun c xs st t st' t' ⟨ht, hI⟩ hrun => by
      subst ht
      exact hf c xs st st' t' hI hrun) cs st s st' s' ⟨rfl, hg⟩ h

/-- `seed` gathers candidates of the given list, none of them the query. -/
theorem seed_spec [DecidableEq K] (hr : Reads G s P) {ns : List N} (hns : ∀ n ∈ ns, P n) {st : LayerState G}
    (h : seed G query ns s = (.ok st, s')) :
    s = s' ∧ Gathered G (initialVisited G query) P [] st := by
  rw [seed, seedImpl, Prog.bind_returns] at h
  obtain ⟨cs, s₁, h1, h⟩ := h
  obtain ⟨rfl, hcs⟩ := evaluateDistances_spec hr h1
  have hempty : Gathered G (initialVisited G query) P []
      ⟨initialVisited G query, G.minQueue.empty, G.maxQueue.empty⟩ := by
    refine ⟨fun k hk => hk, ?_, ?_, ?_⟩ <;> simp [G.minQueue.toList_empty, G.maxQueue.toList_empty]
  exact gather_all (fun c xs st st' s' => pushSeed_spec hr) (hempty.extend hns hcs) h

theorem expand_spec [DecidableEq K] (hr : Reads G s P) {ef : ℕ} {st st' : LayerState G} {n : N} (hn : P n)
    (hg : Gathered G init P [] st) (h : expand G query ef st n s = (.ok st', s')) :
    s = s' ∧ Gathered G init P [] st' := by
  rw [expand, Prog.bind_returns] at h
  obtain ⟨ns, s₁, h1, h⟩ := h
  obtain ⟨rfl, hns⟩ := hr.neighbours n ns s₁ hn h1
  rw [Prog.bind_returns] at h
  obtain ⟨cs, s₂, h2, h⟩ := h
  obtain ⟨rfl, hcs⟩ := evaluateDistances_spec hr h2
  exact gather_all (fun c xs st st' s' => pushExpanded_spec hr) (hg.extend hns hcs) h

/-- Taking the nearest candidate out. -/
theorem Gathered.pop {st : LayerState G} (hg : Gathered G init P [] st) {c : Candidate N D}
    {rest : G.minQueue.Carrier} (h : G.minQueue.pop st.candidates = some (c, rest)) :
    P c.node ∧ Gathered G init P [] { st with candidates := rest } := by
  have hp := G.minQueue.toList_pop _ c rest h
  refine ⟨hg.candidates c (hp.mem_iff.mpr (by simp)), hg.initial, fun c' hc' => ?_, hg.good, hg.nodup⟩
  exact hg.candidates c' (hp.mem_iff.mpr (List.mem_cons_of_mem _ hc'))

/-- How a search ends or goes on: no candidate is left, the nearest one is
further than every result, or it is expanded. -/
theorem searchLoop_cases [DecidableEq K] {ef fuel : ℕ} {st st' : LayerState G}
    (h : searchLoop G query ef fuel st s = (.ok st', s')) :
    (G.minQueue.pop st.candidates = none ∧ st' = st ∧ s = s') ∨
    (∃ c rest, G.minQueue.pop st.candidates = some (c, rest) ∧
      finished G { st with candidates := rest } c = true ∧ st' = { st with candidates := rest } ∧ s = s') ∨
    (∃ c rest fuel' st₁ s₁, G.minQueue.pop st.candidates = some (c, rest) ∧ fuel = fuel' + 1 ∧
      finished G { st with candidates := rest } c = false ∧
      expand G query ef { st with candidates := rest } c.node s = (.ok st₁, s₁) ∧
      searchLoop G query ef fuel' st₁ s₁ = (.ok st', s')) := by
  rw [searchLoop] at h
  rcases hp : G.minQueue.pop st.candidates with _ | ⟨c, rest⟩
  · simp only [hp, Prog.pure_apply, Prod.mk.injEq, Except.ok.injEq] at h
    exact .inl ⟨rfl, h.1.symm, h.2⟩
  · simp only [hp] at h
    rcases hf : finished G { st with candidates := rest } c with _ | _
    · simp only [hf, Bool.false_eq_true, if_false] at h
      cases fuel with
      | zero => simp at h
      | succ fuel =>
        obtain ⟨st₁, s₁, h1, h2⟩ := Prog.bind_returns.mp h
        exact .inr (.inr ⟨c, rest, fuel, st₁, s₁, rfl, rfl, hf, h1, h2⟩)
    · simp only [hf, if_true, Prog.pure_apply, Prod.mk.injEq, Except.ok.injEq] at h
      exact .inr (.inl ⟨c, rest, rfl, hf, h.1.symm, h.2⟩)

theorem searchLoop_spec [DecidableEq K] (hr : Reads G s P) {ef fuel : ℕ} {st st' : LayerState G}
    (hg : Gathered G init P [] st) (h : searchLoop G query ef fuel st s = (.ok st', s')) :
    s = s' ∧ Gathered G init P [] st' := by
  induction fuel generalizing st with
  | zero =>
    rcases searchLoop_cases h with ⟨-, rfl, rfl⟩ | ⟨c, rest, hp, -, rfl, rfl⟩ | ⟨_, _, _, _, _, -, hf, -⟩
    · exact ⟨rfl, hg⟩
    · exact ⟨rfl, (hg.pop hp).2⟩
    · exact absurd hf (by simp)
  | succ fuel ih =>
    rcases searchLoop_cases h with ⟨-, rfl, rfl⟩ | ⟨c, rest, hp, -, rfl, rfl⟩ |
      ⟨c, rest, fuel', st₁, s₁, hp, hf, -, h1, h2⟩
    · exact ⟨rfl, hg⟩
    · exact ⟨rfl, (hg.pop hp).2⟩
    · obtain rfl : fuel = fuel' := by omega
      obtain ⟨rfl, hg₁⟩ := expand_spec hr (hg.pop hp).1 (hg.pop hp).2 h1
      exact ih hg₁ h2

/-- `search` gathers nodes it came to from the entry points, none of them the query. -/
theorem search_spec [DecidableEq K] (hr : Reads G s P) {fuel ef : ℕ} {ns : List N} (hns : ∀ n ∈ ns, P n)
    {st : LayerState G} (h : search G query fuel ns ef s = (.ok st, s')) :
    s = s' ∧ Gathered G (initialVisited G query) P [] st := by
  rw [search, Prog.bind_returns] at h
  obtain ⟨st₁, s₁, h1, h2⟩ := h
  obtain ⟨rfl, hg⟩ := seed_spec hr hns h1
  exact searchLoop_spec hr hg h2

/-- Once there are as many results as the bound, or as the entry points gave,
no more are kept. -/
theorem pushExpanded_size {ef : ℕ} {s' : σ} {c : Candidate N D} {st st' : LayerState G} {b : ℕ} (hb : ef ≤ b)
    (hlen : G.maxQueue.size st.results ≤ b) (h : pushExpanded G ef st c s = (.ok st', s')) :
    G.maxQueue.size st'.results ≤ b := by
  rw [pushExpanded] at h
  split at h
  · obtain ⟨v, s₁, hv, h⟩ := Prog.bind_returns.mp h
    simp only [Prog.pure_apply, Prod.mk.injEq, Except.ok.injEq] at h
    obtain ⟨rfl, -⟩ := h
    have hpush := (G.maxQueue.toList_push c st.results).length_eq
    simp only [List.length_cons] at hpush
    cases v with
    | false => exact hlen
    | true =>
      simp only [if_true, pushResult]
      split
      · rcases hp : G.maxQueue.pop (G.maxQueue.push c st.results) with _ | ⟨a, r⟩
        · have := G.maxQueue.toList_pop_none _ hp
          simp [this] at hpush
        · have hpop := (G.maxQueue.toList_pop _ a r hp).length_eq
          simp only [List.length_cons] at hpop
          simp only [Option.map_some, Option.getD_some, PriorityQueue.size] at hlen ⊢
          omega
      · rename_i hle
        omega
  · simp only [Prog.pure_apply, Prod.mk.injEq, Except.ok.injEq] at h
    exact h.1 ▸ hlen

theorem searchLoop_size [DecidableEq K] {ef b : ℕ} (hb : ef ≤ b) : ∀ {fuel : ℕ} {st st' : LayerState G} {s s' : σ},
    G.maxQueue.size st.results ≤ b → searchLoop G query ef fuel st s = (.ok st', s') →
    G.maxQueue.size st'.results ≤ b := by
  intro fuel
  induction fuel with
  | zero =>
    intro st st' s s' hlen h
    rcases searchLoop_cases h with ⟨-, rfl, -⟩ | ⟨c, rest, -, -, rfl, -⟩ | ⟨_, _, _, _, _, -, hf, -⟩
    · exact hlen
    · exact hlen
    · exact absurd hf (by simp)
  | succ fuel ih =>
    intro st st' s s' hlen h
    rcases searchLoop_cases h with ⟨-, rfl, -⟩ | ⟨c, rest, -, -, rfl, -⟩ |
      ⟨c, rest, fuel', st₁, s₁, hp, hfuel, -, h1, h2⟩
    · exact hlen
    · exact hlen
    · obtain rfl : fuel = fuel' := by omega
      refine ih ?_ h2
      rw [expand, Prog.bind_returns] at h1
      obtain ⟨ns, s₂, -, h1⟩ := h1
      obtain ⟨cs, s₃, -, h1⟩ := Prog.bind_returns.mp h1
      exact Prog.foldlM_returns (fun _ st _ => G.maxQueue.size st.results ≤ b)
        (fun c xs st t st' t' hI hrun => pushExpanded_size hb hI hrun) cs _ s₃ st₁ s₁ hlen h1

/-- A search from one entry point that cannot be expanded does not return. -/
theorem search_stuck [DecidableEq K] (hr : Reads G s fun _ => False) {n : N} (hn : G.key n ∉ initialVisited G query)
    (hirr : ∀ d, G.lt d d = false) (hfail : ∀ ns s', G.neighbours n s ≠ (.ok ns, s'))
    {fuel ef : ℕ} {st : LayerState G} : search G query fuel [n] ef s ≠ (.ok st, s') := by
  intro h
  rw [search, Prog.bind_returns] at h
  obtain ⟨st₁, s₁, h1, h2⟩ := h
  rw [seedImpl, Prog.bind_returns] at h1
  obtain ⟨cs, s₂, he, h1⟩ := h1
  obtain ⟨rfl, hcs⟩ := evaluateDistances_spec hr he
  rw [visit, if_neg hn, visit] at hcs h1
  obtain ⟨c, rfl, rfl⟩ : ∃ c, cs = [c] ∧ c.node = n := by simpa [List.map_eq_singleton_iff] using hcs
  rw [List.foldlM_cons, Prog.bind_returns] at h1
  obtain ⟨st₂, s₃, hpush, h1⟩ := h1
  simp only [List.foldlM_nil, Prog.pure_apply, Prod.mk.injEq, Except.ok.injEq] at h1
  obtain ⟨rfl, rfl⟩ := h1
  rw [pushSeed, Prog.bind_returns] at hpush
  obtain ⟨v, s₄, hv, hpush⟩ := hpush
  obtain rfl := hr.isVisible c.node v s₄ hv
  simp only [Prog.pure_apply, Prod.mk.injEq, Except.ok.injEq] at hpush
  obtain ⟨rfl, rfl⟩ := hpush
  have hone {lt : Candidate N D → Candidate N D → Bool} (q : PriorityQueue (Candidate N D) lt)
      {c' : Candidate N D} {r : q.Carrier} (hp : q.pop (q.push c q.empty) = some (c', r)) : c' = c := by
    have := (q.toList_pop _ c' r hp).symm.trans (q.toList_push c q.empty)
    rw [q.toList_empty] at this
    exact List.mem_singleton.mp (this.mem_iff.mp (by simp))
  rcases searchLoop_cases h2 with ⟨hp, -⟩ | ⟨c', rest, hp, hf, -⟩ | ⟨c', rest, _, _, _, hp, -, -, hx, -⟩
  · have := (G.minQueue.toList_push c G.minQueue.empty).length_eq
    rw [G.minQueue.toList_pop_none _ hp] at this
    simp at this
  · -- the only result is the candidate itself, which is not further than itself
    obtain rfl := hone _ hp
    obtain ⟨t, ht, hlt⟩ := (Option.any_eq_true _ _).mp hf
    obtain ⟨⟨t', r⟩, hpop, rfl⟩ := Option.map_eq_some_iff.mp ht
    cases v with
    | false =>
      have := G.maxQueue.toList_pop _ t' r hpop
      simp [G.maxQueue.toList_empty] at this
    | true =>
      obtain rfl := hone _ hpop
      rw [closer, hirr] at hlt
      exact absurd hlt (by simp)
  · obtain rfl := hone _ hp
    rw [expand, Prog.bind_returns] at hx
    obtain ⟨ns, s₅, hns, -⟩ := hx
    exact hfail ns s₅ hns

/-! ### Taking the result out -/

theorem consumeAll_perm (st : LayerState G) :
    (consumeAll G st).Perm ((G.maxQueue.toList st.results).map Candidate.node) := by
  rw [consumeAll]
  exact ((List.reverse_perm _).trans (G.maxQueue.drain_perm st.results)).map _

theorem isDominated_reads (hr : Reads G s P) {e : Candidate N D} : ∀ {ns : List N} {v : Bool} {s' : σ},
    isDominated G e ns s = (.ok v, s') → s = s'
  | [], v, s', h => by
    simp only [isDominated, Prog.pure_apply, Prod.mk.injEq] at h
    exact h.2
  | n :: ns, v, s', h => by
    rw [isDominated, Prog.bind_returns] at h
    obtain ⟨d, s₁, h1, h⟩ := h
    obtain rfl := hr.distance _ _ _ _ h1
    split at h
    · simp only [Prog.pure_apply, Prod.mk.injEq] at h
      exact h.2
    · exact isDominated_reads hr h

/-- The selecting loop takes nodes of its queue, no more than there is room for. -/
theorem selectLoop_spec (hr : Reads G s P) {M : ℕ} : ∀ {fuel : ℕ} {q : G.minQueue.Carrier}
    {sel : List N} {dis : List (Candidate N D)} {r : List N × List (Candidate N D)} {s' : σ},
    sel.length ≤ M → selectLoop G M fuel q sel dis s = (.ok r, s') →
    s = s' ∧ r.1.Subperm (sel ++ (G.minQueue.toList q).map Candidate.node) ∧ r.1.length ≤ M := by
  intro fuel
  induction fuel with
  | zero =>
    intro q sel dis r s' hlen h
    rw [selectLoop] at h
    split at h
    · rcases hp : G.minQueue.pop q with _ | ⟨e, rest⟩
      · simp only [hp, Prog.pure_apply, Prod.mk.injEq, Except.ok.injEq] at h
        obtain ⟨rfl, rfl⟩ := h
        exact ⟨rfl, (List.sublist_append_left sel _).subperm, hlen⟩
      · simp [hp] at h
    · simp only [Prog.pure_apply, Prod.mk.injEq, Except.ok.injEq] at h
      obtain ⟨rfl, rfl⟩ := h
      exact ⟨rfl, (List.sublist_append_left sel _).subperm, hlen⟩
  | succ fuel ih =>
    intro q sel dis r s' hlen h
    rw [selectLoop] at h
    split at h
    · rename_i hlt
      rcases hp : G.minQueue.pop q with _ | ⟨e, rest⟩
      · simp only [hp, Prog.pure_apply, Prod.mk.injEq, Except.ok.injEq] at h
        obtain ⟨rfl, rfl⟩ := h
        exact ⟨rfl, (List.sublist_append_left sel _).subperm, hlen⟩
      · simp only [hp] at h
        obtain ⟨v, s₁, h1, h⟩ := Prog.bind_returns.mp h
        obtain rfl := isDominated_reads hr h1
        have hperm := (G.minQueue.toList_pop q e rest hp).map Candidate.node
        cases v with
        | true =>
          obtain ⟨rfl, hsub, hle⟩ := ih hlen h
          refine ⟨rfl, hsub.trans ?_, hle⟩
          refine (List.Sublist.subperm ?_).trans (hperm.symm.append_left sel).subperm
          exact (List.sublist_cons_self _ _).append_left sel
        | false =>
          obtain ⟨rfl, hsub, hle⟩ := ih (by simpa using hlt) h
          refine ⟨rfl, hsub.trans (List.Perm.subperm ?_), hle⟩
          rw [List.append_assoc]
          exact hperm.symm.append_left sel
    · simp only [Prog.pure_apply, Prod.mk.injEq, Except.ok.injEq] at h
      obtain ⟨rfl, rfl⟩ := h
      exact ⟨rfl, (List.sublist_append_left sel _).subperm, hlen⟩

theorem toList_pushAll : ∀ (w : List (Candidate N D)) (q : G.minQueue.Carrier),
    (G.minQueue.toList (w.foldl (fun q c => G.minQueue.push c q) q)).Perm (w ++ G.minQueue.toList q)
  | [], q => List.Perm.refl _
  | c :: w, q => by
    rw [List.foldl_cons]
    refine (toList_pushAll w _).trans (((G.minQueue.toList_push c q).append_left w).trans ?_)
    exact List.perm_middle

/-- What `consume_heuristic` selects is part of the result, at most `M` nodes;
the pool is the whole of it. -/
theorem consumeHeuristic_spec [DecidableEq K] (hr : Reads G s P) {M : ℕ} {st : LayerState G} {r : List N × List N}
    (h : consumeHeuristic G query M .no .no st s = (.ok r, s')) :
    s = s' ∧ r.1.Subperm ((G.maxQueue.toList st.results).map Candidate.node) ∧ r.1.length ≤ M ∧
      r.2 = consumeAll G st := by
  rw [consumeHeuristic] at h
  simp only [Prog.pure_bind] at h
  obtain ⟨⟨sel, dis⟩, s₁, h1, h⟩ := Prog.bind_returns.mp h
  simp only [Prog.pure_apply, Prod.mk.injEq, Except.ok.injEq] at h
  obtain ⟨rfl, rfl⟩ := h
  obtain ⟨rfl, hsub, hlen⟩ := selectLoop_spec hr (by simp) h1
  refine ⟨rfl, hsub.trans (List.Perm.subperm ?_), hlen, rfl⟩
  rw [List.nil_append]
  refine ((toList_pushAll _ _).map _).trans ?_
  rw [G.minQueue.toList_empty, List.append_nil]
  exact (G.maxQueue.drain_perm st.results).map _

/-! ### What is found

Where every node may be returned, a search from an entry point that is not the
query finds something, and `consume_heuristic` selects some of it. -/

theorem size_push (c : Candidate N D) (r : G.maxQueue.Carrier) :
    G.maxQueue.size (G.maxQueue.push c r) = G.maxQueue.size r + 1 := (G.maxQueue.toList_push c r).length_eq

/-- A result that is pushed drops at most one. -/
theorem size_le_pushResult (ef : ℕ) (r : G.maxQueue.Carrier) (c : Candidate N D) :
    G.maxQueue.size r ≤ G.maxQueue.size (pushResult G ef r c) := by
  have hpush := size_push c r
  rw [pushResult]
  split
  · rcases hp : G.maxQueue.pop (G.maxQueue.push c r) with _ | ⟨a, r'⟩
    · exact hpush ▸ Nat.le_succ _
    · have hpop : G.maxQueue.size (G.maxQueue.push c r) = G.maxQueue.size r' + 1 :=
        (G.maxQueue.toList_pop _ a r' hp).length_eq
      simp only [Option.map_some, Option.getD_some]
      omega
  · exact hpush ▸ Nat.le_succ _

theorem pushExpanded_size_le {ef : ℕ} {c : Candidate N D} {st st' : LayerState G}
    (h : pushExpanded G ef st c s = (.ok st', s')) : G.maxQueue.size st.results ≤ G.maxQueue.size st'.results := by
  rw [pushExpanded] at h
  split at h
  · obtain ⟨v, s₁, -, h⟩ := Prog.bind_returns.mp h
    simp only [Prog.pure_apply, Prod.mk.injEq, Except.ok.injEq] at h
    obtain ⟨rfl, -⟩ := h
    cases v with
    | false => exact le_refl _
    | true => exact size_le_pushResult ef st.results c
  · simp only [Prog.pure_apply, Prod.mk.injEq, Except.ok.injEq] at h
    rw [h.1]

/-- A search does not lose results. -/
theorem searchLoop_size_le [DecidableEq K] {ef : ℕ} : ∀ {fuel : ℕ} {st st' : LayerState G} {s s' : σ},
    searchLoop G query ef fuel st s = (.ok st', s') → G.maxQueue.size st.results ≤ G.maxQueue.size st'.results := by
  intro fuel
  induction fuel with
  | zero =>
    intro st st' s s' h
    rcases searchLoop_cases h with ⟨-, rfl, -⟩ | ⟨c, rest, -, -, rfl, -⟩ | ⟨_, _, _, _, _, -, hf, -⟩
    · exact le_refl _
    · exact le_refl _
    · exact absurd hf (by simp)
  | succ fuel ih =>
    intro st st' s s' h
    rcases searchLoop_cases h with ⟨-, rfl, -⟩ | ⟨c, rest, -, -, rfl, -⟩ |
      ⟨c, rest, fuel', st₁, s₁, hp, hfuel, -, h1, h2⟩
    · exact le_refl _
    · exact le_refl _
    · obtain rfl : fuel = fuel' := by omega
      refine le_trans ?_ (ih h2)
      rw [expand, Prog.bind_returns] at h1
      obtain ⟨ns, s₂, -, h1⟩ := h1
      obtain ⟨cs, s₃, -, h1⟩ := Prog.bind_returns.mp h1
      exact Prog.foldlM_returns (fun _ st' _ => G.maxQueue.size st.results ≤ G.maxQueue.size st'.results)
        (fun c xs st t st' t' hI hrun => hI.trans (pushExpanded_size_le hrun)) cs _ s₃ st₁ s₁ (le_refl _) h1

/-- A candidate that is not the query is a result of its own. -/
theorem seed_finds [DecidableEq K] (hr : Reads G s P) (hv : ∀ n v t t', G.isVisible n t = (.ok v, t') → v = true)
    {ns : List N} {n : N} (hn : n ∈ ns) (hnew : G.key n ∉ initialVisited G query) {st : LayerState G}
    (h : seed G query ns s = (.ok st, s')) : 0 < G.maxQueue.size st.results := by
  rw [seed, seedImpl, Prog.bind_returns] at h
  obtain ⟨cs, s₁, h1, h⟩ := h
  obtain ⟨rfl, hcs⟩ := evaluateDistances_spec hr h1
  have hne : cs ≠ [] := fun he => by
    have := mem_visit.mpr ⟨List.mem_map_of_mem (f := G.key) hn, hnew⟩
    rw [← hcs, he] at this
    exact absurd this (by simp)
  refine (Prog.foldlM_returns (fun xs st _ => 0 < G.maxQueue.size st.results ∨ xs ≠ [])
    (fun c xs st t st' t' _ hrun => .inl ?_) cs _ s st s' (.inr hne) h).resolve_right (by simp)
  obtain ⟨v, t₁, hvis, hrun⟩ := Prog.bind_returns.mp hrun
  obtain rfl := hv c.node v t t₁ hvis
  simp only [Prog.pure_apply, Prod.mk.injEq, Except.ok.injEq] at hrun
  obtain ⟨rfl, -⟩ := hrun
  show 0 < G.maxQueue.size (G.maxQueue.push c st.results)
  rw [size_push]
  exact Nat.succ_pos _

theorem search_finds [DecidableEq K] (hr : Reads G s P) (hv : ∀ n v t t', G.isVisible n t = (.ok v, t') → v = true)
    {fuel ef : ℕ} {ns : List N} {n : N} (hn : n ∈ ns) (hnew : G.key n ∉ initialVisited G query) {st : LayerState G}
    (h : search G query fuel ns ef s = (.ok st, s')) : 0 < G.maxQueue.size st.results := by
  rw [search, Prog.bind_returns] at h
  obtain ⟨st₁, s₁, h1, h2⟩ := h
  exact (seed_finds hr hv hn hnew h1).trans_le (searchLoop_size_le h2)

/-- What is selected stays selected. -/
theorem selectLoop_keeps {M : ℕ} : ∀ {fuel : ℕ} {q : G.minQueue.Carrier} {sel : List N} {dis : List (Candidate N D)}
    {r : List N × List (Candidate N D)} {s s' : σ}, sel ≠ [] → selectLoop G M fuel q sel dis s = (.ok r, s') →
    r.1 ≠ [] := by
  intro fuel
  induction fuel with
  | zero =>
    intro q sel dis r s s' hsel h
    rw [selectLoop] at h
    split at h
    · rcases hp : G.minQueue.pop q with _ | ⟨e, rest⟩
      · simp only [hp, Prog.pure_apply, Prod.mk.injEq, Except.ok.injEq] at h
        exact h.1 ▸ hsel
      · simp [hp] at h
    · simp only [Prog.pure_apply, Prod.mk.injEq, Except.ok.injEq] at h
      exact h.1 ▸ hsel
  | succ fuel ih =>
    intro q sel dis r s s' hsel h
    rw [selectLoop] at h
    split at h
    · rcases hp : G.minQueue.pop q with _ | ⟨e, rest⟩
      · simp only [hp, Prog.pure_apply, Prod.mk.injEq, Except.ok.injEq] at h
        exact h.1 ▸ hsel
      · simp only [hp] at h
        obtain ⟨v, s₁, -, h⟩ := Prog.bind_returns.mp h
        cases v with
        | true => exact ih hsel h
        | false => exact ih (by simp) h
    · simp only [Prog.pure_apply, Prod.mk.injEq, Except.ok.injEq] at h
      exact h.1 ▸ hsel

/-- The nearest result is never dominated, so something is selected. -/
theorem consumeHeuristic_finds [DecidableEq K] {M : ℕ} (hM : 0 < M) {st : LayerState G} {r : List N × List N}
    (hst : 0 < G.maxQueue.size st.results) (h : consumeHeuristic G query M .no .no st s = (.ok r, s')) :
    r.1 ≠ [] := by
  rw [consumeHeuristic] at h
  simp only [Prog.pure_bind] at h
  obtain ⟨⟨sel, dis⟩, s₁, h1, h⟩ := Prog.bind_returns.mp h
  simp only [Prog.pure_apply, Prod.mk.injEq, Except.ok.injEq] at h
  obtain ⟨rfl, -⟩ := h
  show sel ≠ []
  have hdrain := (G.maxQueue.drain_perm st.results).length_eq
  set w := G.maxQueue.drain st.results
  have hqueue := (toList_pushAll w G.minQueue.empty).length_eq
  rw [G.minQueue.toList_empty, List.append_nil, hdrain] at hqueue
  obtain ⟨fuel, hfuel⟩ : ∃ fuel, w.length = fuel + 1 := ⟨w.length - 1, by
    have : w.length = G.maxQueue.size st.results := hdrain
    omega⟩
  rw [hfuel, selectLoop, if_pos (by simpa using hM)] at h1
  rcases hp : G.minQueue.pop (w.foldl (fun q c => G.minQueue.push c q) G.minQueue.empty) with _ | ⟨e, rest⟩
  · rw [G.minQueue.toList_pop_none _ hp] at hqueue
    exact absurd hqueue.symm hst.ne'
  · simp only [hp, isDominated, Prog.pure_bind, Bool.false_eq_true, if_false] at h1
    have hsel : ([] ++ [e.node] : List N) ≠ [] := by simp
    exact selectLoop_keeps hsel h1

end LayerOperations
end Hnsw
end VsqlVector
