/-
# Selecting neighbours

`consume_heuristic` takes a result apart by the heuristic of the paper: nearest
first, an element is kept if none kept before is closer to it than the query is.
Optionally the result is first extended by the neighbours of its elements, as far as
the step before has not visited them, and the selection filled up from what was
rejected (`consumeHeuristic_selects`).

The method works in three buffers of its object, each used twice, and moves the
selection into `out` at the end (`HeuristicCall`); it computes what
`consumeHeuristic` says, and where a graph operation fails `out` is as it was
(`consumeInto_computes`).

Key definitions: `Measures`, `Considered`, `HeuristicCall`, `consumeInto`.
Key theorems: `selectLoop_selection`, `consumeHeuristic_selects`, `consumeInto_computes`.
-/
import VsqlVector.Lib.Diverse
import VsqlVector.Lib.Simulation
import VsqlVector.Index.Nearest

namespace VsqlVector
namespace Hnsw
namespace LayerOperations

variable {ε σ N Q K D : Type}

/-- The distance of two nodes, where it is returned, is that of their keys. -/
def Measures (G : LayerGraph ε σ N Q K D) (s : σ) (between : K → K → D) : Prop :=
  ∀ a b d s', G.distance a b s = (.ok d, s') → s = s' ∧ d = between (G.key a) (G.key b)

section Select

variable [LinearOrder D] {G : LayerGraph ε σ N Q K D} {query : Query N Q} {s s' : σ} {L : Landscape K D} {between : K → K → D}

/-- An element is dominated if a kept one is closer to it than the query. -/
theorem isDominated_spec (hs : Sees G query s L) (hm : Measures G s between) {e : Candidate N D} :
    ∀ {ns : List N} {v : Bool} {s' : σ}, isDominated G e ns s = (.ok v, s') →
      s = s' ∧ (v = true ↔ ∃ r ∈ ns.map G.key, between (G.key e.node) r < e.distance)
  | [], v, s', h => by
    simp only [isDominated, Prog.pure_apply, Prod.mk.injEq, Except.ok.injEq] at h
    obtain ⟨rfl, rfl⟩ := h
    simp
  | n :: ns, v, s', h => by
    rw [isDominated, Prog.bind_returns] at h
    obtain ⟨d, s₁, h1, h⟩ := h
    obtain ⟨rfl, rfl⟩ := hm _ _ _ _ h1
    split at h
    · rename_i hlt
      simp only [Prog.pure_apply, Prod.mk.injEq, Except.ok.injEq] at h
      obtain ⟨rfl, rfl⟩ := h
      exact ⟨rfl, iff_of_true rfl ⟨G.key n, by simp, (hs.lt _ _).mp hlt⟩⟩
    · rename_i hlt
      obtain ⟨rfl, hv⟩ := isDominated_spec hs hm h
      refine ⟨rfl, hv.trans ?_⟩
      have hno : ¬ between (G.key e.node) (G.key n) < e.distance := fun h => hlt ((hs.lt _ _).mpr h)
      simp [hno]

/-- **The selecting loop.** What is left in the queue at the end has not been met: there
is nothing, or `M` elements are kept. -/
theorem selectLoop_selection (hs : Sees G query s L) (hm : Measures G s between) {M : ℕ} :
    ∀ {fuel : ℕ} {q : G.minQueue.Carrier} {sel : List N} {dis : List (Candidate N D)}
      {r : List N × List (Candidate N D)} {s' : σ},
      Selection L.dist between (sel.map G.key) (keys G dis) (keys G (G.minQueue.toList q)) →
      (∀ c ∈ G.minQueue.toList q, c.distance = L.dist (G.key c.node)) → sel.length ≤ M →
      selectLoop G M fuel q sel dis s = (.ok r, s') →
      s = s' ∧ r.1.length ≤ M ∧ ∃ left, Selection L.dist between (r.1.map G.key) (keys G r.2) left ∧
        (r.1.map G.key ++ keys G r.2 ++ left).Perm (sel.map G.key ++ keys G dis ++ keys G (G.minQueue.toList q)) ∧
        (left ≠ [] → r.1.length = M) := by
  have hstop {q : G.minQueue.Carrier} {sel : List N} {dis : List (Candidate N D)}
      {r : List N × List (Candidate N D)} {s' : σ}
      (hsel : Selection L.dist between (sel.map G.key) (keys G dis) (keys G (G.minQueue.toList q)))
      (hlen : sel.length ≤ M) (hend : G.minQueue.pop q = none ∨ ¬ sel.length < M)
      (h : (pure (sel, dis) : Prog ε σ _) s = (.ok r, s')) :
      s = s' ∧ r.1.length ≤ M ∧ ∃ left, Selection L.dist between (r.1.map G.key) (keys G r.2) left ∧
        (r.1.map G.key ++ keys G r.2 ++ left).Perm (sel.map G.key ++ keys G dis ++ keys G (G.minQueue.toList q)) ∧
        (left ≠ [] → r.1.length = M) := by
    simp only [Prog.pure_apply, Prod.mk.injEq, Except.ok.injEq] at h
    obtain ⟨rfl, rfl⟩ := h
    refine ⟨rfl, hlen, _, hsel, List.Perm.refl _, fun hne => ?_⟩
    rcases hend with hp | hfull
    · exact absurd (by simp [keys, G.minQueue.toList_pop_none _ hp]) hne
    · exact le_antisymm hlen (not_lt.mp hfull)
  intro fuel
  induction fuel with
  | zero =>
    intro q sel dis r s' hsel hdist hlen h
    rw [selectLoop] at h
    split at h
    · rcases hp : G.minQueue.pop q with _ | ⟨e, rest⟩
      · rw [hp] at h
        exact hstop hsel hlen (.inl hp) h
      · simp [hp] at h
    · rename_i hfull
      exact hstop hsel hlen (.inr hfull) h
  | succ fuel ih =>
    intro q sel dis r s' hsel hdist hlen h
    rw [selectLoop] at h
    split at h
    · rename_i hlt
      rcases hp : G.minQueue.pop q with _ | ⟨e, rest⟩
      · rw [hp] at h
        exact hstop hsel hlen (.inl hp) h
      · simp only [hp] at h
        have hpop := G.minQueue.toList_pop q e rest hp
        have hdist' : ∀ c ∈ e :: G.minQueue.toList rest, c.distance = L.dist (G.key c.node) :=
          fun c hc => hdist c (hpop.mem_iff.mpr hc)
        have hnear : ∀ b ∈ keys G (G.minQueue.toList rest), L.dist (G.key e.node) ≤ L.dist b := by
          intro b hb
          obtain ⟨c, hc, rfl⟩ := List.mem_map.mp hb
          rw [← hdist' e (by simp), ← hdist' c (List.mem_cons_of_mem _ hc)]
          exact pop_candidates hs hp c hc
        have hsel' : Selection L.dist between (sel.map G.key) (keys G dis)
            (G.key e.node :: keys G (G.minQueue.toList rest)) := hsel.perm (keys_perm hpop)
        obtain ⟨v, s₁, h1, h⟩ := Prog.bind_returns.mp h
        obtain ⟨rfl, hv⟩ := isDominated_spec hs hm h1
        rw [hdist' e (by simp)] at hv
        cases v with
        | true =>
          have hnext : Selection L.dist between (sel.map G.key) (keys G (dis ++ [e])) (keys G (G.minQueue.toList rest)) := by
            simpa [keys] using hsel'.reject hnear (hv.mp rfl)
          obtain ⟨h1, h2, left, h3, h4, h5⟩ :=
            ih hnext (fun c hc => hdist' c (List.mem_cons_of_mem _ hc)) hlen h
          refine ⟨h1, h2, left, h3, h4.trans ?_, h5⟩
          refine List.Perm.trans ?_ ((keys_perm hpop).symm.append_left _)
          simp [keys]
        | false =>
          have hdiv : ∀ r ∈ sel.map G.key, L.dist (G.key e.node) ≤ between (G.key e.node) r := fun r hr =>
            not_lt.mp fun hlt' => Bool.false_ne_true (hv.mpr ⟨r, hr, hlt'⟩)
          have hnext : Selection L.dist between ((sel ++ [e.node]).map G.key) (keys G dis)
              (keys G (G.minQueue.toList rest)) := by
            simpa using hsel'.keep hnear hdiv
          obtain ⟨h1, h2, left, h3, h4, h5⟩ :=
            ih hnext (fun c hc => hdist' c (List.mem_cons_of_mem _ hc)) (by simpa using hlt) h
          refine ⟨h1, h2, left, h3, h4.trans ?_, h5⟩
          refine List.Perm.trans ?_ ((keys_perm hpop).symm.append_left _)
          simp only [keys, List.map_append, List.map_cons, List.map_nil, List.append_assoc, List.singleton_append]
          exact (List.perm_middle.symm).append_left _
    · rename_i hfull
      exact hstop hsel hlen (.inr hfull) h

end Select

/-! ### What there is to select from -/

section Considered

variable [LinearOrder D] {G : LayerGraph ε σ N Q K D} {query : Query N Q} {s s' : σ} {L : Landscape K D}

/-- The keys of `W`: the result `C` and, if asked for, every neighbour of one of its
elements that is not `visited`. -/
def Considered (L : Landscape K D) (ext : ExtendCandidates) (visited C : List K) (k : K) : Prop :=
  k ∈ C ∨ ext = .yes ∧ k ∉ visited ∧ ∃ c ∈ C, k ∈ L.adj c

variable [DecidableEq K]

theorem unvisitedNeighbours_spec (hs : Sees G query s L) :
    ∀ {ns : List N} {vis : List K} {fresh : List N} {s' : σ}, unvisitedNeighbours G vis ns s = (.ok fresh, s') →
      s = s' ∧ (fresh.map G.key).Nodup ∧
        ∀ k, k ∈ fresh.map G.key ↔ k ∉ vis ∧ ∃ c ∈ ns.map G.key, k ∈ L.adj c
  | [], vis, fresh, s', h => by
    simp only [unvisitedNeighbours, Prog.pure_apply, Prod.mk.injEq, Except.ok.injEq] at h
    obtain ⟨rfl, rfl⟩ := h
    simp
  | n :: ns, vis, fresh, s', h => by
    rw [unvisitedNeighbours, Prog.bind_returns] at h
    obtain ⟨l, s₁, h1, h⟩ := h
    obtain ⟨rfl, hl⟩ := hs.neighbours _ _ _ h1
    obtain ⟨rest, s₂, h2, h⟩ := Prog.bind_returns.mp h
    obtain ⟨rfl, hnd, hrest⟩ := unvisitedNeighbours_spec hs h2
    simp only [Prog.pure_apply, Prod.mk.injEq, Except.ok.injEq] at h
    obtain ⟨rfl, rfl⟩ := h
    obtain ⟨-, hvnd, -, hvis⟩ := visit_spec (G := G) l vis
    refine ⟨rfl, ?_, fun k => ?_⟩
    · rw [List.map_append, List.nodup_append]
      exact ⟨hvnd, hnd, fun a ha b hb he => ((hrest b).mp hb).1 ((hvis b).mpr (.inr (he ▸ ha)))⟩
    · rw [List.map_append, List.mem_append, hrest, hvis, not_or, mem_visit, hl, List.map_cons]
      simp only [List.exists_mem_cons_iff]
      tauto

/-- The step before has left its result with the distances and marked visited. -/
structure Gathers (G : LayerGraph ε σ N Q K D) (L : Landscape K D) (st : LayerState G) : Prop where
  distances : ∀ c ∈ G.maxQueue.toList st.results, c.distance = L.dist (G.key c.node)
  nodup : (keys G (G.maxQueue.toList st.results)).Nodup
  visited : ∀ k ∈ keys G (G.maxQueue.toList st.results), k ∈ st.visited

omit [DecidableEq K] in
theorem Tracks.gathers {entryPoints : List N} {ef : ℕ} {X : List K} {st st' : LayerState G}
    (ht : Tracks G query L entryPoints ef X [] st) (hr : st.results = st'.results) (hv : st.visited = st'.visited) :
    Gathers G L st' := by
  rw [show st' = ⟨st.visited, st'.candidates, st.results⟩ by rw [hr, hv]]
  refine ⟨fun c hc => ht.distances c (by simp [hc]), ht.sound.results_nodup, fun k hk => ?_⟩
  exact (ht.visited k).mpr (.inr (ht.sound.known k (List.mem_append_left _ (ht.sound.results k hk).2)))

/-- `st` is what a `search` or a `seed` left. -/
def Gathering (G : LayerGraph ε σ N Q K D) (query : Query N Q) (s : σ) (st : LayerState G) : Prop :=
  ∃ entryPoints, (∃ fuel ef, search G query fuel entryPoints ef s = (.ok st, s)) ∨
    seed G query entryPoints s = (.ok st, s)

theorem Gathering.gathers (hs : Sees G query s L) {st : LayerState G} (h : Gathering G query s st) :
    Gathers G L st := by
  obtain ⟨entryPoints, ⟨fuel, ef, h⟩ | h⟩ := h
  · obtain ⟨-, X, st₁, ht, hr, hv, -⟩ := search_stops hs h
    exact ht.gathers hr hv
  · exact ((seed_tracks hs h).2 0).gathers rfl rfl

/-- `W` with the distances from the query. -/
def considered (G : LayerGraph ε σ N Q K D) (query : Query N Q) (ext : ExtendCandidates) (st : LayerState G) :
    Prog ε σ (List (Candidate N D)) :=
  match ext with
  | .no => pure (G.maxQueue.drain st.results)
  | .yes => extendWithNeighbours G query st.visited (G.maxQueue.drain st.results)

omit [LinearOrder D] in
theorem consumeHeuristic_considered (st : LayerState G) (M : ℕ) (ext : ExtendCandidates)
    (keep : KeepPrunedConnections) :
    consumeHeuristic G query M ext keep st = (do
      let w ← considered G query ext st
      let r ← selectLoop G M w.length (w.foldl (fun q c => G.minQueue.push c q) G.minQueue.empty) [] []
      pure (backfill M keep r.1 r.2, consumeAll G st)) := by
  cases ext <;> rfl

theorem considered_spec (hs : Sees G query s L) {st : LayerState G} (hg : Gathers G L st) {ext : ExtendCandidates}
    {w : List (Candidate N D)} (h : considered G query ext st s = (.ok w, s')) :
    s = s' ∧ (keys G w).Nodup ∧ (∀ c ∈ w, c.distance = L.dist (G.key c.node)) ∧
      ∀ k, k ∈ keys G w ↔ Considered L ext st.visited ((consumeAll G st).map G.key) k := by
  have hdrain := G.maxQueue.drain_perm st.results
  have hkeys := keys_perm (G := G) hdrain
  have hdist : ∀ c ∈ G.maxQueue.drain st.results, c.distance = L.dist (G.key c.node) := fun c hc =>
    hg.distances c (hdrain.mem_iff.mp hc)
  have hall (k : K) : k ∈ (consumeAll G st).map G.key ↔ k ∈ keys G (G.maxQueue.drain st.results) :=
    (keys_consumeAll st).mem_iff.trans hkeys.mem_iff.symm
  cases ext with
  | no =>
    simp only [considered, Prog.pure_apply, Prod.mk.injEq, Except.ok.injEq] at h
    obtain ⟨rfl, rfl⟩ := h
    exact ⟨rfl, hkeys.nodup_iff.mpr hg.nodup, hdist, fun k => by simp [Considered, ← hall k]⟩
  | yes =>
    rw [considered, extendWithNeighbours, Prog.bind_returns] at h
    obtain ⟨fresh, s₁, h1, h⟩ := h
    obtain ⟨rfl, hnd, hfresh⟩ := unvisitedNeighbours_spec hs h1
    obtain ⟨cs, s₂, h2, h⟩ := Prog.bind_returns.mp h
    obtain ⟨rfl, hcs, hcd⟩ := evaluateDistances_sees hs h2
    simp only [Prog.pure_apply, Prod.mk.injEq, Except.ok.injEq] at h
    obtain ⟨rfl, rfl⟩ := h
    have hck : keys G cs = fresh.map G.key := by
      rw [← hcs, List.map_map]
      rfl
    have hnode : (List.map Candidate.node (G.maxQueue.drain st.results)).map G.key =
        keys G (G.maxQueue.drain st.results) := List.map_map
    have hsplit : keys G (G.maxQueue.drain st.results ++ cs) =
        keys G (G.maxQueue.drain st.results) ++ fresh.map G.key := by
      rw [← hck]
      exact List.map_append
    refine ⟨rfl, ?_, fun c hc => ?_, fun k => ?_⟩
    · rw [hsplit, List.nodup_append]
      refine ⟨hkeys.nodup_iff.mpr hg.nodup, hnd, fun a ha b hb he => ?_⟩
      exact ((hfresh b).mp hb).1 (he ▸ hg.visited a (hkeys.mem_iff.mp ha))
    · rcases List.mem_append.mp hc with hc | hc
      · exact hdist c hc
      · exact hcd c hc
    · rw [hsplit, List.mem_append, hfresh, hnode]
      simp [Considered, hall]

end Considered

/-! ### What is selected -/

section Selected

variable [LinearOrder D] {G : LayerGraph ε σ N Q K D} {query : Query N Q} {s s' : σ} {L : Landscape K D} {between : K → K → D}
  [DecidableEq K]

/-- **What the heuristic selects.** A diverse part of `W`; filled up, it is as long as it can be. -/
theorem consumeHeuristic_selects (hs : Sees G query s L) (hm : Measures G s between) {st : LayerState G}
    (hg : Gathers G L st) {M : ℕ} {ext : ExtendCandidates} {keep : KeepPrunedConnections} {r : List N × List N}
    (h : consumeHeuristic G query M ext keep st s = (.ok r, s')) :
    s = s' ∧ r.2 = consumeAll G st ∧ ∃ W sel fill : List K, W.Nodup ∧
      (∀ k, k ∈ W ↔ Considered L ext st.visited ((consumeAll G st).map G.key) k) ∧
      r.1.map G.key = sel ++ fill ∧ Diverse L.dist between M W sel fill ∧
      (keep = .no → fill = []) ∧ (keep = .yes → r.1.length = min M W.length) := by
  rw [consumeHeuristic_considered] at h
  obtain ⟨w, s₁, h1, h⟩ := Prog.bind_returns.mp h
  obtain ⟨rfl, hnd, hdist, hW⟩ := considered_spec hs hg h1
  obtain ⟨⟨sel, dis⟩, s₂, h2, h⟩ := Prog.bind_returns.mp h
  simp only [Prog.pure_apply, Prod.mk.injEq, Except.ok.injEq] at h
  obtain ⟨rfl, rfl⟩ := h
  have hqueue : (G.minQueue.toList (w.foldl (fun q c => G.minQueue.push c q) G.minQueue.empty)).Perm w := by
    refine (toList_pushAll w _).trans ?_
    rw [G.minQueue.toList_empty, List.append_nil]
  obtain ⟨rfl, hlen, left, hsel, hperm, hfull⟩ := selectLoop_selection hs hm (.start _)
    (fun c hc => hdist c (hqueue.mem_iff.mp hc)) (Nat.zero_le M) h2
  have hlen : (sel.map G.key).length ≤ M := by simpa using hlen
  have hfull : left ≠ [] → (sel.map G.key).length = M := by simpa using hfull
  have hperm : (sel.map G.key ++ keys G dis ++ left).Perm (keys G w) := hperm.trans (keys_perm hqueue)
  refine ⟨rfl, rfl, keys G w, sel.map G.key, ?_⟩
  cases keep with
  | no =>
    refine ⟨[], hnd, hW, by simp [backfill], ?_, fun _ => rfl, by simp⟩
    simpa using hsel.diverse_fill hperm hlen hfull (Nat.zero_le _)
  | yes =>
    have hmap : (backfill M .yes sel dis).map G.key =
        sel.map G.key ++ (keys G dis).take (M - (sel.map G.key).length) := by
      rw [backfill, List.map_append, List.map_take, List.map_map, List.length_map]
      rfl
    refine ⟨_, hnd, hW, hmap, hsel.diverse_fill hperm hlen hfull le_rfl, by simp, fun _ => ?_⟩
    rw [← List.length_map (f := G.key), hmap]
    exact Selection.length_fill hperm hlen hfull

end Selected

/-! ### The buffers -/

/-- The buffers of the object and those handed to it, with the state of the graph. -/
structure HeuristicCall (G : LayerGraph ε σ N Q K D) where
  visited : List K
  candidates : G.minQueue.Carrier
  results : G.maxQueue.Carrier
  expandBuf : List (Candidate N D)
  neighbourBuf : List N
  out : List N
  candidatePool : Option (List N)
  graph : σ

section Buffers

variable (G : LayerGraph ε σ N Q K D)

/-- What the step before left. -/
def HeuristicCall.state {G : LayerGraph ε σ N Q K D} (b : HeuristicCall G) : LayerState G :=
  ⟨b.visited, b.candidates, b.results⟩

/-- An operation of the graph. -/
def onGraph {α : Type} (m : Prog ε σ α) : Prog ε (HeuristicCall G) α :=
  fun b => ((m b.graph).1, { b with graph := (m b.graph).2 })

/-- A turn of the loop of `evaluate_distances`. -/
def evaluateAt (query : Query N Q) (i : ℕ) : Prog ε (HeuristicCall G) Unit := do
  let b ← Prog.get
  match b.expandBuf[i]? with
  | none => pure ()
  | some c => do
    let d ← onGraph G (queryDistance G query c.node)
    Prog.modify fun b => { b with expandBuf := b.expandBuf.set i { c with distance := d } }

/-- `evaluate_distances(m_expand_buf, start)`. -/
def evaluateFrom (query : Query N Q) (start : ℕ) : Prog ε (HeuristicCall G) Unit := do
  let b ← Prog.get
  (List.range' start (b.expandBuf.length - start)).forM (evaluateAt G query)

variable [DecidableEq K] [Inhabited D]

/-- A turn of the loop of `extend_with_neighbours`. A new candidate has the default
distance until it is evaluated. -/
def extendAt (i : ℕ) : Prog ε (HeuristicCall G) Unit := do
  let b ← Prog.get
  match b.expandBuf[i]? with
  | none => pure ()
  | some c => do
    let ns ← onGraph G (G.neighbours c.node)
    Prog.modify fun b => { b with
      neighbourBuf := ns
      visited := (visit G b.visited ns).1
      expandBuf := b.expandBuf ++ (visit G b.visited ns).2.map fun n => ⟨n, default⟩ }

/-- `extend_with_neighbours`: only what is there at the start is walked. -/
def extendInto (query : Query N Q) : Prog ε (HeuristicCall G) Unit := do
  let b ← Prog.get
  (List.range' 0 b.expandBuf.length).forM (extendAt G)
  evaluateFrom G query b.expandBuf.length

/-- `extend_candidates == ExtendCandidates::Yes && extend_with_neighbours()`. -/
def extendIf (query : Query N Q) : ExtendCandidates → Prog ε (HeuristicCall G) Unit
  | .no => pure ()
  | .yes => extendInto G query

/-- The selecting loop: `m_candidates` is the queue, `m_neighbour_buf` has what is
selected and `m_expand_buf` what is discarded. -/
def selectInto (M : ℕ) : ℕ → Prog ε (HeuristicCall G) Unit
  | 0 => do
    let b ← Prog.get
    if b.neighbourBuf.length < M then
      match G.minQueue.pop b.candidates with
      | none => pure ()
      | some _ => Prog.fail G.diverged
    else pure ()
  | fuel + 1 => do
    let b ← Prog.get
    if b.neighbourBuf.length < M then
      match G.minQueue.pop b.candidates with
      | none => pure ()
      | some (e, rest) => do
        Prog.modify fun b => { b with candidates := rest }
        let dominated ← onGraph G (isDominated G e b.neighbourBuf)
        Prog.modify fun b =>
          if dominated then { b with expandBuf := b.expandBuf ++ [e] }
          else { b with neighbourBuf := b.neighbourBuf ++ [e.node] }
        selectInto M fuel
    else pure ()

/-- `consume_heuristic` on its buffers. -/
def consumeInto (query : Query N Q) (M : ℕ) (ext : ExtendCandidates) (keep : KeepPrunedConnections) :
    Prog ε (HeuristicCall G) Unit := do
  Prog.modify fun b => { b with expandBuf := G.maxQueue.drain b.results, results := G.maxQueue.empty }
  Prog.modify fun b => { b with candidatePool := b.candidatePool.map fun _ => b.expandBuf.reverse.map Candidate.node }
  extendIf G query ext
  -- the frontier of the search is still in `m_candidates`
  Prog.modify fun b => { b with candidates := b.expandBuf.foldl (fun q c => G.minQueue.push c q) G.minQueue.empty }
  let b ← Prog.get
  Prog.modify fun b => { b with neighbourBuf := [], expandBuf := [] }
  selectInto G M b.expandBuf.length
  Prog.modify fun b => { b with neighbourBuf := backfill M keep b.neighbourBuf b.expandBuf }
  Prog.modify fun b => { b with out := b.neighbourBuf }

end Buffers

section Simulation

variable {G : LayerGraph ε σ N Q K D} {query : Query N Q} {M : ℕ}

/-- The call has not touched `out` and has filled the pool. -/
def Untouched (out : List N) (pool : Option (List N)) (s : σ) (b : HeuristicCall G) : Prop :=
  b.graph = s ∧ b.out = out ∧ b.candidatePool = pool

variable {out : List N} {pool : Option (List N)}

theorem onGraph_computes {α : Type} {m : Prog ε σ α} {s : σ} {b : HeuristicCall G} (h : Untouched out pool s b) :
    Prog.Computes (Untouched (G := G) out pool) (fun a a' s' b' => a = a' ∧ b' = { b with graph := s' })
      m (onGraph G m) s b := by
  obtain ⟨rfl, h1, h2⟩ := h
  rw [Prog.Computes, onGraph]
  rcases hm : m b.graph with ⟨e | a, s'⟩
  · exact ⟨rfl, rfl, h1, h2⟩
  · exact ⟨rfl, rfl⟩

/-- A turn of the evaluating loop fills in one distance. -/
theorem evaluateAt_computes {n : N} {d₀ : D} {i : ℕ} {s : σ} {b : HeuristicCall G} (h : Untouched out pool s b)
    (hget : b.expandBuf[i]? = some ⟨n, d₀⟩) :
    Prog.Computes (Untouched (G := G) out pool)
      (fun d _ s' b' => b' = { b with graph := s', expandBuf := b.expandBuf.set i ⟨n, d⟩ })
      (queryDistance G query n) (evaluateAt G query i) s b := by
  rw [Prog.Computes, evaluateAt, Prog.get_bind, hget, ← bind_pure (queryDistance G query n)]
  refine (onGraph_computes h).bind fun d d' s' b' hrun => ?_
  obtain ⟨rfl, rfl⟩ := hrun
  exact rfl

theorem evaluate_computes {d₀ : D} : ∀ (ns : List N) (cs : List (Candidate N D)) {s : σ} {b : HeuristicCall G},
    Untouched out pool s b → b.expandBuf = cs ++ ns.map (fun n => ⟨n, d₀⟩) →
    Prog.Computes (Untouched (G := G) out pool)
      (fun cs' _ s' b' => Untouched out pool s' b' ∧ b'.expandBuf = cs ++ cs')
      (evaluateDistances G query ns) ((List.range' cs.length ns.length).forM (evaluateAt G query)) s b
  | [], cs, s, b, h, hb => .pure ⟨h, by simpa using hb⟩
  | n :: ns, cs, s, b, h, hb => by
    have hget : b.expandBuf[cs.length]? = some ⟨n, d₀⟩ := by simp [hb]
    refine (evaluateAt_computes h hget).bind fun d _ s₁ b₁ hb₁ => ?_
    have hset : b₁.expandBuf = (cs ++ [⟨n, d⟩]) ++ ns.map (fun n => ⟨n, d₀⟩) := by simp [hb₁, hb]
    have hrest := evaluate_computes ns (cs ++ [⟨n, d⟩]) (s := s₁) ⟨by rw [hb₁], by rw [hb₁]; exact h.2⟩ hset
    rw [List.length_append, List.length_singleton] at hrest
    rw [← bind_pure ((List.range' (cs.length + 1) ns.length).forM (evaluateAt G query))]
    exact hrest.bind fun cs' _ s₂ b₂ ⟨h2, hb₂⟩ => .pure ⟨h2, by simp [hb₂]⟩

section Extend

variable [DecidableEq K] [Inhabited D]

/-- A turn of the extending loop appends the neighbours not visited yet. -/
theorem extendAt_computes {c : Candidate N D} {i : ℕ} {s : σ} {b : HeuristicCall G} (h : Untouched out pool s b)
    (hget : b.expandBuf[i]? = some c) :
    Prog.Computes (Untouched (G := G) out pool)
      (fun l _ s' b' => b' = { b with
        graph := s'
        neighbourBuf := l
        visited := (visit G b.visited l).1
        expandBuf := b.expandBuf ++ (visit G b.visited l).2.map fun n => ⟨n, default⟩ })
      (G.neighbours c.node) (extendAt G i) s b := by
  rw [Prog.Computes, extendAt, Prog.get_bind, hget, ← bind_pure (G.neighbours c.node)]
  refine (onGraph_computes h).bind fun l l' s' b' hrun => ?_
  obtain ⟨rfl, rfl⟩ := hrun
  exact rfl

theorem neighbours_computes : ∀ (ws pre new : List (Candidate N D)) {s : σ} {b : HeuristicCall G},
    Untouched out pool s b → b.expandBuf = pre ++ ws ++ new →
    Prog.Computes (Untouched (G := G) out pool)
      (fun fresh _ s' b' => Untouched out pool s' b' ∧
        b'.expandBuf = pre ++ ws ++ new ++ fresh.map fun n => ⟨n, default⟩)
      (unvisitedNeighbours G b.visited (ws.map Candidate.node))
      ((List.range' pre.length ws.length).forM (extendAt G)) s b
  | [], pre, new, s, b, h, hb => .pure ⟨h, by simpa using hb⟩
  | c :: ws, pre, new, s, b, h, hb => by
    refine (extendAt_computes h (c := c) (by simp [hb])).bind fun l _ s₁ b₁ hb₁ => ?_
    have hbuf : b₁.expandBuf = (pre ++ [c]) ++ ws ++ (new ++ (visit G b.visited l).2.map fun n => ⟨n, default⟩) := by
      simp [hb₁, hb]
    have hrest := neighbours_computes ws (pre ++ [c]) _ (s := s₁) ⟨by rw [hb₁], by rw [hb₁]; exact h.2⟩ hbuf
    rw [List.length_append, List.length_singleton, show b₁.visited = (visit G b.visited l).1 by rw [hb₁]] at hrest
    rw [← bind_pure ((List.range' (pre.length + 1) ws.length).forM (extendAt G))]
    exact hrest.bind fun fresh _ s₂ b₂ ⟨h2, hb₂⟩ => .pure ⟨h2, by simp [hb₂]⟩

theorem extend_computes {s : σ} {b : HeuristicCall G} (h : Untouched out pool s b) :
    Prog.Computes (Untouched (G := G) out pool)
      (fun w _ s' b' => Untouched out pool s' b' ∧ b'.expandBuf = w)
      (extendWithNeighbours G query b.visited b.expandBuf) (extendInto G query) s b := by
  refine (neighbours_computes b.expandBuf [] [] h (by simp)).bind fun fresh _ s₁ b₁ ⟨h1, hb₁⟩ => ?_
  have hb₁ : b₁.expandBuf = b.expandBuf ++ fresh.map fun n => ⟨n, default⟩ := by simpa using hb₁
  have heval : Prog.Computes (Untouched (G := G) out pool)
      (fun cs _ s' b' => Untouched out pool s' b' ∧ b'.expandBuf = b.expandBuf ++ cs)
      (evaluateDistances G query fresh) (evaluateFrom G query b.expandBuf.length) s₁ b₁ :=
    (evaluate_computes fresh b.expandBuf h1 hb₁).of_eq rfl (by rw [evaluateFrom, Prog.get_bind, hb₁]; simp)
  rw [← bind_pure (evaluateFrom G query b.expandBuf.length)]
  exact heval.bind fun cs _ s₂ b₂ ⟨h2, hb₂⟩ => .pure ⟨h2, hb₂⟩

end Extend

theorem select_computes : ∀ (fuel : ℕ) {s : σ} {b : HeuristicCall G}, Untouched out pool s b →
    Prog.Computes (Untouched (G := G) out pool)
      (fun r _ s' b' => Untouched out pool s' b' ∧ b'.neighbourBuf = r.1 ∧ b'.expandBuf = r.2)
      (selectLoop G M fuel b.candidates b.neighbourBuf b.expandBuf) (selectInto G M fuel) s b
  | 0, s, b, h => by
    refine Prog.Computes.of_eq (m := if b.neighbourBuf.length < M then
      (match G.minQueue.pop b.candidates with
        | none => pure ()
        | some _ => Prog.fail G.diverged) else pure ()) ?_ rfl rfl
    rw [selectLoop]
    split
    · rcases G.minQueue.pop b.candidates with _ | ⟨e, rest⟩
      · exact .pure ⟨h, rfl, rfl⟩
      · exact .fail h
    · exact .pure ⟨h, rfl, rfl⟩
  | fuel + 1, s, b, h => by
    refine Prog.Computes.of_eq (m := if b.neighbourBuf.length < M then
      (match G.minQueue.pop b.candidates with
        | none => pure ()
        | some (e, rest) => do
          Prog.modify fun b => { b with candidates := rest }
          let dominated ← onGraph G (isDominated G e b.neighbourBuf)
          Prog.modify fun b =>
            if dominated then { b with expandBuf := b.expandBuf ++ [e] }
            else { b with neighbourBuf := b.neighbourBuf ++ [e.node] }
          selectInto G M fuel) else pure ()) ?_ rfl rfl
    rw [selectLoop]
    split
    · rcases G.minQueue.pop b.candidates with _ | ⟨e, rest⟩
      · exact .pure ⟨h, rfl, rfl⟩
      · refine .step ((onGraph_computes (b := { b with candidates := rest }) h).bind fun v v' s' b' hrun => ?_)
        obtain ⟨rfl, rfl⟩ := hrun
        cases v with
        | true =>
          exact .step (select_computes fuel (b := { b with
            candidates := rest, graph := s', expandBuf := b.expandBuf ++ [e] }) ⟨rfl, h.2⟩)
        | false =>
          exact .step (select_computes fuel (b := { b with
            candidates := rest, graph := s', neighbourBuf := b.neighbourBuf ++ [e.node] }) ⟨rfl, h.2⟩)
    · exact .pure ⟨h, rfl, rfl⟩

variable [DecidableEq K] [Inhabited D]

/-- **The buffers.** On them `consume_heuristic` computes what `consumeHeuristic` says; until it
returns it has not touched `out`. -/
theorem consumeInto_computes (M : ℕ) (ext : ExtendCandidates) (keep : KeepPrunedConnections) (b : HeuristicCall G) :
    Prog.Computes (Untouched (G := G) b.out (b.candidatePool.map fun _ => consumeAll G b.state))
      (fun r _ s' b' => Untouched r.1 (b.candidatePool.map fun _ => consumeAll G b.state) s' b')
      (consumeHeuristic G query M ext keep b.state) (consumeInto G query M ext keep) b.graph b := by
  rw [consumeHeuristic_considered]
  refine .step (.step ?_)
  have hW : Prog.Computes (Untouched (G := G) b.out (b.candidatePool.map fun _ => consumeAll G b.state))
      (fun w _ s' b' => Untouched b.out (b.candidatePool.map fun _ => consumeAll G b.state) s' b' ∧ b'.expandBuf = w)
      (considered G query ext b.state) (extendIf G query ext) b.graph
      { b with
        expandBuf := G.maxQueue.drain b.results
        results := G.maxQueue.empty
        candidatePool := b.candidatePool.map fun _ => consumeAll G b.state } := by
    cases ext with
    | no => exact .pure ⟨⟨rfl, rfl, rfl⟩, rfl⟩
    | yes =>
      exact extend_computes (b := { b with
        expandBuf := G.maxQueue.drain b.results
        results := G.maxQueue.empty
        candidatePool := b.candidatePool.map fun _ => consumeAll G b.state }) ⟨rfl, rfl, rfl⟩
  refine hW.bind fun w _ s₁ b₁ ⟨h1, hb₁⟩ => ?_
  subst hb₁
  refine .step (.look (.step ?_))
  refine (select_computes b₁.expandBuf.length (b := { b₁ with
      candidates := b₁.expandBuf.foldl (fun q c => G.minQueue.push c q) G.minQueue.empty
      neighbourBuf := []
      expandBuf := [] }) h1).bind fun r _ s₂ b₂ ⟨h2, hsel, hdis⟩ => ?_
  refine .step ⟨h2.1, ?_, h2.2.2⟩
  show backfill M keep b₂.neighbourBuf b₂.expandBuf = _
  rw [hsel, hdis]

end Simulation

/-! ### The outcome -/

section Returns

variable {G : LayerGraph ε σ N Q K D} {s : σ}

/-- With a queue of `fuel` elements at most the selecting loop ends. -/
theorem selectLoop_returns {M : ℕ} {W : List N} (hd : ∀ a ∈ W, ∀ b ∈ W, ∃ d, G.distance a b s = (.ok d, s)) :
    ∀ {fuel : ℕ} {q : G.minQueue.Carrier} {sel : List N} {dis : List (Candidate N D)},
      G.minQueue.size q ≤ fuel → (∀ c ∈ G.minQueue.toList q, c.node ∈ W) → sel ⊆ W →
      ∃ r, selectLoop G M fuel q sel dis s = (.ok r, s) := by
  have hdom (e : Candidate N D) (he : e.node ∈ W) :
      ∀ {ns : List N}, ns ⊆ W → ∃ v, isDominated G e ns s = (.ok v, s) := by
    intro ns
    induction ns with
    | nil => exact fun _ => ⟨false, rfl⟩
    | cons n ns ih =>
      intro hns
      obtain ⟨d, hd⟩ := hd e.node he n (hns (by simp))
      obtain ⟨v, hv⟩ := ih fun m h => hns (List.mem_cons_of_mem _ h)
      rw [isDominated, Prog.bind_apply, hd]
      by_cases hlt : G.lt d e.distance = true
      · exact ⟨true, by simp [hlt]⟩
      · exact ⟨v, by simpa [hlt] using hv⟩
  intro fuel
  induction fuel with
  | zero =>
    intro q sel dis hsize _ _
    rw [selectLoop]
    split
    · rcases hp : G.minQueue.pop q with _ | ⟨e, rest⟩
      · exact ⟨_, rfl⟩
      · have := (G.minQueue.toList_pop q e rest hp).length_eq
        rw [PriorityQueue.size] at hsize
        simp only [List.length_cons] at this
        omega
    · exact ⟨_, rfl⟩
  | succ fuel ih =>
    intro q sel dis hsize hq hsel
    rw [selectLoop]
    split
    · rcases hp : G.minQueue.pop q with _ | ⟨e, rest⟩
      · exact ⟨_, rfl⟩
      · have hpop := G.minQueue.toList_pop q e rest hp
        have hrest : G.minQueue.size rest ≤ fuel := by
          have := hpop.length_eq
          rw [PriorityQueue.size] at hsize ⊢
          simp only [List.length_cons] at this
          omega
        have hin : ∀ c ∈ e :: G.minQueue.toList rest, c.node ∈ W := fun c hc => hq c (hpop.mem_iff.mpr hc)
        obtain ⟨v, hv⟩ := hdom e (hin e (by simp)) hsel
        simp only
        rw [Prog.bind_apply, hv]
        cases v with
        | true => exact ih hrest (fun c hc => hin c (List.mem_cons_of_mem _ hc)) hsel
        | false =>
          refine ih hrest (fun c hc => hin c (List.mem_cons_of_mem _ hc)) (List.append_subset.mpr ⟨hsel, ?_⟩)
          simpa using hin e (by simp)
    · exact ⟨_, rfl⟩

theorem unvisitedNeighbours_returns [DecidableEq K] : ∀ {ns : List N} {vis : List K},
    (∀ n ∈ ns, ∃ l, G.neighbours n s = (.ok l, s)) → ∃ fresh, unvisitedNeighbours G vis ns s = (.ok fresh, s)
  | [], _, _ => ⟨[], rfl⟩
  | n :: ns, vis, h => by
    obtain ⟨l, hl⟩ := h n (by simp)
    obtain ⟨rest, hrest⟩ : ∃ rest, unvisitedNeighbours G (visit G vis l).1 ns s = (.ok rest, s) :=
      unvisitedNeighbours_returns fun m hm => h m (List.mem_cons_of_mem _ hm)
    refine ⟨(visit G vis l).2 ++ rest, ?_⟩
    rw [unvisitedNeighbours, Prog.bind_apply, hl]
    simp only [Prog.bind_apply, hrest, Prog.pure_apply]

end Returns

section Outcome

variable [LinearOrder D] [DecidableEq K] {G : LayerGraph ε σ N Q K D} {query : Query N Q} {s : σ} {L : Landscape K D}
  {between : K → K → D} {st : LayerState G}

/-- The operations return on all there is to select from. -/
structure AnswersFor (G : LayerGraph ε σ N Q K D) (query : Query N Q) (s : σ) (W : K → Prop) : Prop where
  neighbours : ∀ n, W (G.key n) → ∃ ns, G.neighbours n s = (.ok ns, s)
  queryDistance : ∀ n, W (G.key n) → ∃ d, queryDistance G query n s = (.ok d, s)
  distance : ∀ a b, W (G.key a) → W (G.key b) → ∃ d, G.distance a b s = (.ok d, s)

theorem considered_returns (hs : Sees G query s L) {ext : ExtendCandidates}
    (ha : AnswersFor G query s (Considered L ext st.visited ((consumeAll G st).map G.key))) :
    ∃ w, considered G query ext st s = (.ok w, s) := by
  have hnode : ∀ n ∈ (G.maxQueue.drain st.results).map Candidate.node, G.key n ∈ (consumeAll G st).map G.key :=
    fun n hn => List.mem_map_of_mem (by rw [consumeAll, List.map_reverse]; simpa using hn)
  cases ext with
  | no => exact ⟨_, rfl⟩
  | yes =>
    obtain ⟨fresh, hfresh⟩ : ∃ fresh, unvisitedNeighbours G st.visited
        ((G.maxQueue.drain st.results).map Candidate.node) s = (.ok fresh, s) :=
      unvisitedNeighbours_returns fun n hn => ha.neighbours n (.inl (hnode n hn))
    obtain ⟨-, -, hmem⟩ := unvisitedNeighbours_spec hs hfresh
    obtain ⟨cs, hcs⟩ : ∃ cs, evaluateDistances G query fresh s = (.ok cs, s) :=
      evaluateDistances_returns fun n hn => by
        obtain ⟨hnot, c, hc, hk⟩ := (hmem _).mp (List.mem_map_of_mem hn)
        obtain ⟨m, hm, rfl⟩ := List.mem_map.mp hc
        exact ha.queryDistance n (.inr ⟨rfl, hnot, _, hnode m hm, hk⟩)
    refine ⟨G.maxQueue.drain st.results ++ cs, ?_⟩
    rw [considered, extendWithNeighbours, Prog.bind_apply, hfresh]
    simp only [Prog.bind_apply, hcs, Prog.pure_apply]

/-- The heuristic selects, unless an operation fails. -/
theorem consumeHeuristic_returns (hs : Sees G query s L) (hg : Gathers G L st) {M : ℕ} {ext : ExtendCandidates}
    {keep : KeepPrunedConnections}
    (ha : AnswersFor G query s (Considered L ext st.visited ((consumeAll G st).map G.key))) :
    ∃ r, consumeHeuristic G query M ext keep st s = (.ok r, s) := by
  obtain ⟨w, hw⟩ := considered_returns hs ha
  obtain ⟨-, -, -, hW⟩ := considered_spec hs hg hw
  have hqueue : (G.minQueue.toList (w.foldl (fun q c => G.minQueue.push c q) G.minQueue.empty)).Perm w := by
    refine (toList_pushAll w _).trans ?_
    rw [G.minQueue.toList_empty, List.append_nil]
  have hin : ∀ n ∈ w.map Candidate.node,
      Considered L ext st.visited ((consumeAll G st).map G.key) (G.key n) := fun n hn => by
    obtain ⟨c, hc, rfl⟩ := List.mem_map.mp hn
    exact (hW _).mp (List.mem_map_of_mem hc)
  obtain ⟨r, hr⟩ : ∃ r, selectLoop G M w.length (w.foldl (fun q c => G.minQueue.push c q) G.minQueue.empty) [] [] s =
      (.ok r, s) :=
    selectLoop_returns (fun a ha' b hb' => ha.distance a b (hin a ha') (hin b hb')) hqueue.length_eq.le
      (fun c hc => List.mem_map_of_mem (hqueue.mem_iff.mp hc)) (by simp)
  refine ⟨(backfill M keep r.1 r.2, consumeAll G st), ?_⟩
  rw [consumeHeuristic_considered, Prog.bind_apply, hw]
  simp only [Prog.bind_apply, hr, Prog.pure_apply]

variable [Inhabited D]

/-- **What `consume_heuristic` does.** A failed call leaves `out` as it was. After a search or a seed it
fills the pool with the result and hands out a diverse selection of `W`, filled up if asked for; it returns if the
operations do. -/
theorem heuristic_selects (hs : Sees G query s L) (hm : Measures G s between) (M : ℕ) (ext : ExtendCandidates)
    (keep : KeepPrunedConnections) :
    (∀ (b b' : HeuristicCall G) e, consumeInto G query M ext keep b = (.error e, b') → b'.out = b.out) ∧
    ∀ b : HeuristicCall G, b.graph = s → Gathering G query s b.state →
      (∀ b', consumeInto G query M ext keep b = (.ok (), b') →
        b'.candidatePool = b.candidatePool.map (fun _ => consumeAll G b.state) ∧
        ∃ W sel fill : List K, W.Nodup ∧
          (∀ k, k ∈ W ↔ Considered L ext b.visited ((consumeAll G b.state).map G.key) k) ∧
          b'.out.map G.key = sel ++ fill ∧ Diverse L.dist between M W sel fill ∧
          (keep = .no → fill = []) ∧ (keep = .yes → b'.out.length = min M W.length)) ∧
      (AnswersFor G query s (Considered L ext b.visited ((consumeAll G b.state).map G.key)) →
        ∃ b', consumeInto G query M ext keep b = (.ok (), b')) := by
  refine ⟨fun b b' e h => ?_, fun b hb hfound => ⟨fun b' h => ?_, fun ha => ?_⟩⟩
  · obtain ⟨s', -, -, hout, -⟩ := (consumeInto_computes M ext keep b).fails h
    exact hout
  · obtain ⟨r, s', hr, hpost⟩ := (consumeInto_computes M ext keep b).returns h
    obtain ⟨-, hout, hpool⟩ := hpost
    subst hb
    obtain ⟨-, -, hsel⟩ := consumeHeuristic_selects hs hm (hfound.gathers hs) hr
    rw [← hout] at hsel
    exact ⟨hpool, hsel⟩
  · subst hb
    obtain ⟨r, hr⟩ : ∃ r, consumeHeuristic G query M ext keep b.state b.graph = (.ok r, b.graph) :=
      consumeHeuristic_returns hs (hfound.gathers hs) ha
    obtain ⟨⟨⟩, b', h, -⟩ := (consumeInto_computes M ext keep b).returns_of hr
    exact ⟨b', h⟩

end Outcome

theorem lineGraph_measures (n : ℕ) (invisible : List ℕ) : Measures (lineGraph n invisible) () gap :=
  fun _ _ _ _ h => ⟨rfl, (Except.ok.inj (Prod.mk.inj h).1).symm⟩

theorem heuristic_selects_line :
    ∃ b b' : HeuristicCall (lineGraph 5 []),
      consumeInto (lineGraph 5 []) (.data 2) 2 .yes .yes b = (.ok (), b') ∧
        ∃ W sel fill : List ℕ, W.Nodup ∧ b'.out.map id = sel ++ fill ∧
          Diverse (gap 2) gap 2 W sel fill ∧ b'.out.length = min 2 W.length := by
  have hrun : seed (lineGraph 5 []) (.data 2) [2, 3] () =
      (.ok ⟨[3, 2], [(⟨3, 1⟩ : Candidate ℕ ℕ), ⟨2, 0⟩], [(⟨3, 1⟩ : Candidate ℕ ℕ), ⟨2, 0⟩]⟩, ()) := rfl
  obtain ⟨-, h⟩ := heuristic_selects (lineGraph_sees 5 [] 2) (lineGraph_measures 5 []) 2 .yes .yes
  obtain ⟨h1, h2⟩ := h ⟨[3, 2], [(⟨3, 1⟩ : Candidate ℕ ℕ), ⟨2, 0⟩], [(⟨3, 1⟩ : Candidate ℕ ℕ), ⟨2, 0⟩], [], [], [], none, ()⟩
    rfl ⟨[2, 3], .inr hrun⟩
  obtain ⟨b', hb'⟩ := h2 ⟨fun _ _ => ⟨_, rfl⟩, fun _ _ => ⟨_, rfl⟩, fun _ _ _ _ => ⟨_, rfl⟩⟩
  obtain ⟨-, W, sel, fill, hnd, -, hout, hdiv, -, hlen⟩ := h1 b' hb'
  exact ⟨_, b', hb', W, sel, fill, hnd, hout, hdiv, hlen rfl⟩

end LayerOperations
end Hnsw
end VsqlVector
