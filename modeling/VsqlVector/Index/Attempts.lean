/-
# Searches whose calls may fail

`Index.Search` says what a search returns where its calls only read. Here every
call may fail, and what it leaves is not asked for: if the calls keep an
invariant of the state and links pass on a property of nodes (`Passes`), then a
search keeps the invariant, whether it returns or fails, and every node it
returns has the property. Where no call fails a search ends: it expands no node
twice, so it takes as many turns as there are nodes (`search_terminates`), in
whatever way distances compare.

Key definitions: `Passes`, `Holds`, `Responds`.
Key theorems: `search_passes`, `consumeHeuristic_passes`, `search_terminates`.
-/
import VsqlVector.Lib.Triple
import VsqlVector.Index.Nearest

namespace VsqlVector
namespace Hnsw
namespace LayerOperations

open Prog

variable {ε σ N Q K D : Type} {G : LayerGraph ε σ N Q K D} {I : σ → Prop} {P : N → Prop} {query : Query N Q}

/-- Candidates and results have the property. -/
structure Holds (P : N → Prop) (st : LayerState G) : Prop where
  candidates : ∀ c ∈ G.minQueue.toList st.candidates, P c.node
  results : ∀ c ∈ G.maxQueue.toList st.results, P c.node

/-! ### The search -/

theorem mem_of_push {q : G.minQueue.Carrier} {c b : Candidate N D} (h : b ∈ G.minQueue.toList (G.minQueue.push c q)) :
    b = c ∨ b ∈ G.minQueue.toList q := List.mem_cons.mp ((G.minQueue.toList_push c q).mem_iff.mp h)

theorem mem_of_pushMax {r : G.maxQueue.Carrier} {c b : Candidate N D} (h : b ∈ G.maxQueue.toList (G.maxQueue.push c r)) :
    b = c ∨ b ∈ G.maxQueue.toList r := List.mem_cons.mp ((G.maxQueue.toList_push c r).mem_iff.mp h)

theorem mem_of_pushResult {ef : ℕ} {r : G.maxQueue.Carrier} {c b : Candidate N D}
    (h : b ∈ G.maxQueue.toList (pushResult G ef r c)) : b = c ∨ b ∈ G.maxQueue.toList r := by
  have hsub := (Gathered.pushResult_subperm (G := G) ef r c []).subset (List.mem_append_left _ h)
  simpa [or_comm] using hsub

/-- A candidate with the property is pushed. -/
theorem Holds.push {st : LayerState G} (h : Holds P st) {c : Candidate N D} (hc : P c.node) {r : G.maxQueue.Carrier}
    (hr : ∀ b ∈ G.maxQueue.toList r, b = c ∨ b ∈ G.maxQueue.toList st.results) :
    Holds P { st with candidates := G.minQueue.push c st.candidates, results := r } where
  candidates b hb := by
    rcases mem_of_push hb with rfl | hb
    · exact hc
    · exact h.candidates b hb
  results b hb := by
    rcases hr b hb with rfl | hb
    · exact hc
    · exact h.results b hb

variable [DecidableEq K]

omit [DecidableEq K] in
theorem Holds.consumeAll {st : LayerState G} (h : Holds P st) : ∀ n ∈ consumeAll G st, P n := fun n hn => by
  obtain ⟨c, hc, rfl⟩ := List.mem_map.mp ((consumeAll_perm st).mem_iff.mp hn)
  exact h.results c hc

omit [DecidableEq K] in
theorem Holds.consumeSimple {st : LayerState G} (h : Holds P st) {M : ℕ} : ∀ n ∈ consumeSimple G M st, P n :=
  fun n hn => h.consumeAll n (List.mem_of_mem_take hn)

/-- The operations return on nodes with `P`, and links pass `P` on. -/
structure Responds (G : LayerGraph ε σ N Q K D) (query : Query N Q) (s : σ) (P : N → Prop) : Prop where
  neighbours : ∀ n, P n → ∃ ns, G.neighbours n s = (.ok ns, s) ∧ ∀ m ∈ ns, P m
  distance : ∀ n, P n → ∃ d, queryDistance G query n s = (.ok d, s)
  isVisible : ∀ n, P n → ∃ v, G.isVisible n s = (.ok v, s)

/-- A candidate for a node with `P`, with the node's distance. -/
structure Valued (G : LayerGraph ε σ N Q K D) (query : Query N Q) (s : σ) (P : N → Prop) (c : Candidate N D) : Prop where
  node : P c.node
  distance : queryDistance G query c.node s = (.ok c.distance, s)

/-- The keys of the expanded nodes `E`, of the candidates and of those to come are
different, marked visited and among `ks`; candidates and results have the distances of
their nodes. -/
structure Counted (query : Query N Q) (s : σ) (P : N → Prop) (ks E : List K) (xs : List (Candidate N D))
    (st : LayerState G) : Prop where
  nodup : (E ++ keys G (G.minQueue.toList st.candidates ++ xs)).Nodup
  known : ∀ k ∈ E ++ keys G (G.minQueue.toList st.candidates ++ xs), k ∈ st.visited ∧ k ∈ ks
  candidates : ∀ c ∈ G.minQueue.toList st.candidates ++ xs, Valued G query s P c
  results : ∀ c ∈ G.maxQueue.toList st.results, Valued G query s P c

section Counting

variable {ks E : List K} {xs : List (Candidate N D)} {st : LayerState G} {c : Candidate N D} {s : σ}

omit [DecidableEq K] in
theorem Counted.of_sublist (h : Counted query s P ks E xs st) {q : G.minQueue.Carrier} {r : G.maxQueue.Carrier}
    {ys : List (Candidate N D)} (hsub : (G.minQueue.toList q ++ ys).Subperm (G.minQueue.toList st.candidates ++ xs))
    (hr : ∀ c ∈ G.maxQueue.toList r, Valued G query s P c) :
    Counted query s P ks E ys (⟨st.visited, q, r⟩ : LayerState G) := by
  obtain ⟨l, hl, hs⟩ := hsub
  have hkeys : (E ++ keys G (G.minQueue.toList q ++ ys)).Subperm (E ++ keys G (G.minQueue.toList st.candidates ++ xs)) :=
    ⟨E ++ keys G l, (keys_perm hl).append_left E, (hs.map _).append_left E⟩
  refine ⟨?_, fun k hk => h.known k (hkeys.subset hk),
    fun c hc => h.candidates c (hs.subset (hl.mem_iff.mpr hc)), hr⟩
  obtain ⟨l', hl', hs'⟩ := hkeys
  exact hl'.nodup_iff.mp (h.nodup.sublist hs')

omit [DecidableEq K] in
/-- The next candidate is pushed. -/
theorem Counted.push (h : Counted query s P ks E (c :: xs) st) {r : G.maxQueue.Carrier}
    (hr : ∀ b ∈ G.maxQueue.toList r, b = c ∨ b ∈ G.maxQueue.toList st.results) :
    Counted query s P ks E xs (⟨st.visited, G.minQueue.push c st.candidates, r⟩ : LayerState G) := by
  refine h.of_sublist (List.Perm.subperm ?_) fun b hb => ?_
  · exact ((G.minQueue.toList_push c st.candidates).append_right xs).trans List.perm_middle.symm
  · rcases hr b hb with rfl | hb
    · exact h.candidates b (by simp)
    · exact h.results b hb

omit [DecidableEq K] in
theorem pushSeed_counted (hr : Responds G query s P) (h : Counted query s P ks E (c :: xs) st) :
    ∃ st', pushSeed G st c s = (.ok st', s) ∧ Counted query s P ks E xs st' := by
  obtain ⟨v, hv⟩ := hr.isVisible c.node (h.candidates c (by simp)).node
  rw [pushSeed, Prog.bind_apply, hv]
  refine ⟨_, rfl, h.push fun b hb => ?_⟩
  split at hb
  · exact mem_of_pushMax hb
  · exact .inr hb

omit [DecidableEq K] in
theorem pushExpanded_counted (hr : Responds G query s P) {ef : ℕ} (h : Counted query s P ks E (c :: xs) st) :
    ∃ st', pushExpanded G ef st c s = (.ok st', s) ∧ Counted query s P ks E xs st' := by
  rw [pushExpanded]
  split
  · obtain ⟨v, hv⟩ := hr.isVisible c.node (h.candidates c (by simp)).node
    rw [Prog.bind_apply, hv]
    refine ⟨_, rfl, h.push fun b hb => ?_⟩
    split at hb
    · exact mem_of_pushResult hb
    · exact .inr hb
  · exact ⟨st, rfl, h.of_sublist ((List.sublist_cons_self c xs).append_left _).subperm h.results⟩

omit [DecidableEq K] in
theorem foldlM_counted {f : LayerState G → Candidate N D → Prog ε σ (LayerState G)}
    (hf : ∀ c xs st, Counted query s P ks E (c :: xs) st →
      ∃ st', f st c s = (.ok st', s) ∧ Counted query s P ks E xs st') :
    ∀ {cs : List (Candidate N D)} {st : LayerState G}, Counted query s P ks E cs st →
      ∃ st', cs.foldlM f st s = (.ok st', s) ∧ Counted query s P ks E [] st'
  | [], st, h => ⟨st, rfl, h⟩
  | c :: cs, st, h => by
    obtain ⟨st₁, h1, h2⟩ := hf c cs st h
    obtain ⟨st₂, h3, h4⟩ := foldlM_counted hf h2
    refine ⟨st₂, ?_, h4⟩
    rw [List.foldlM_cons, Prog.bind_apply, h1]
    exact h3

omit [DecidableEq K] in
theorem evaluateDistances_responds (hr : Responds G query s P) : ∀ {ns : List N}, (∀ n ∈ ns, P n) →
    ∃ cs, evaluateDistances G query ns s = (.ok cs, s) ∧ cs.map Candidate.node = ns ∧ ∀ c ∈ cs, Valued G query s P c
  | [], _ => ⟨[], rfl, rfl, by simp⟩
  | n :: ns, hns => by
    obtain ⟨d, hd⟩ := hr.distance n (hns n List.mem_cons_self)
    obtain ⟨cs, hcs, hmap, hval⟩ := evaluateDistances_responds hr fun m hm => hns m (List.mem_cons_of_mem _ hm)
    refine ⟨⟨n, d⟩ :: cs, ?_, by rw [List.map_cons, hmap], List.forall_mem_cons.mpr
      ⟨⟨hns n List.mem_cons_self, hd⟩, hval⟩⟩
    rw [evaluateDistances, Prog.bind_apply, hd]
    simp only [Prog.bind_apply, hcs]
    rfl

/-- The nodes of a list that were not visited before are counted. -/
theorem visit_counted (hr : Responds G query s P) (hks : ∀ n, P n → G.key n ∈ ks) (h : Counted query s P ks E [] st)
    {ns : List N} (hns : ∀ n ∈ ns, P n) : ∃ cs, evaluateDistances G query (visit G st.visited ns).2 s = (.ok cs, s) ∧
      Counted query s P ks E cs { st with visited := (visit G st.visited ns).1 } := by
  obtain ⟨hsub, hnd, hnew, hmem⟩ := visit_spec (G := G) ns st.visited
  have hfound : ∀ n ∈ (visit G st.visited ns).2, P n := fun n hn => hns n (hsub.subset hn)
  obtain ⟨cs, hcs, hmap, hval⟩ := evaluateDistances_responds hr hfound
  have hkeys : keys G cs = (visit G st.visited ns).2.map G.key := by
    rw [keys, ← hmap, List.map_map]
    rfl
  have hall : E ++ keys G (G.minQueue.toList st.candidates ++ cs) =
      (E ++ keys G (G.minQueue.toList st.candidates ++ [])) ++ (visit G st.visited ns).2.map G.key := by
    simp only [keys, List.map_append, List.append_nil, List.append_assoc]
    exact congrArg _ (congrArg _ hkeys)
  refine ⟨cs, hcs, ?_, ?_, ?_, h.results⟩
  · refine hall ▸ h.nodup.append hnd fun k hk hk' => ?_
    obtain ⟨n, hn, rfl⟩ := List.mem_map.mp hk'
    exact hnew n hn (h.known _ hk).1
  · intro k hk
    rcases List.mem_append.mp (hall ▸ hk) with hk | hk
    · exact ⟨(hmem k).mpr (.inl (h.known k hk).1), (h.known k hk).2⟩
    · obtain ⟨n, hn, rfl⟩ := List.mem_map.mp hk
      exact ⟨(hmem _).mpr (.inr hk), hks n (hfound n hn)⟩
  · intro c hc
    rcases List.mem_append.mp hc with hc | hc
    · exact h.candidates c (List.mem_append_left _ hc)
    · exact hval c hc

theorem expand_counted (hr : Responds G query s P) (hks : ∀ n, P n → G.key n ∈ ks) (ef : ℕ) {n : N} (hn : P n)
    (h : Counted query s P ks E [] st) : ∃ st', expand G query ef st n s = (.ok st', s) ∧ Counted query s P ks E [] st' := by
  obtain ⟨ns, hns, hP⟩ := hr.neighbours n hn
  obtain ⟨cs, hcs, hc⟩ := visit_counted hr hks h hP
  obtain ⟨st', hst', hc'⟩ := foldlM_counted (f := pushExpanded G ef) (fun _ _ _ => pushExpanded_counted hr) hc
  refine ⟨st', ?_, hc'⟩
  rw [expand, Prog.bind_apply, hns]
  simp only [Prog.bind_apply, hcs]
  exact hst'

/-- The expanded nodes are different ones of `ks`: there is always a turn left
for the next. -/
theorem searchLoop_counted (hr : Responds G query s P) (hks : ∀ n, P n → G.key n ∈ ks) (ef fuel : ℕ) :
    ∀ {E : List K} {st : LayerState G}, Counted query s P ks E [] st → ks.length ≤ fuel + E.length →
      ∃ st', searchLoop G query ef fuel st s = (.ok st', s) ∧ ∀ c ∈ G.maxQueue.toList st'.results, Valued G query s P c := by
  induction fuel with
  | zero =>
    intro E st h hlen
    rw [searchLoop]
    rcases hpop : G.minQueue.pop st.candidates with _ | ⟨c, rest⟩
    · exact ⟨_, rfl, h.results⟩
    · have hperm := (keys_perm (G := G) ((G.minQueue.toList_pop _ c rest hpop).append_right [])).append_left E
      have hle := ((h.nodup.subperm fun k hk => (h.known k hk).2).length_le).trans hlen
      have heq := hperm.length_eq
      simp only [keys, List.length_append, List.length_map, List.length_cons, List.length_nil] at hle heq
      omega
  | succ fuel ih =>
    intro E st h hlen
    rw [searchLoop]
    rcases hpop : G.minQueue.pop st.candidates with _ | ⟨c, rest⟩
    · exact ⟨_, rfl, h.results⟩
    · have hperm := G.minQueue.toList_pop _ c rest hpop
      have hc : P c.node := (h.candidates c (List.mem_append_left _ (hperm.mem_iff.mpr List.mem_cons_self))).node
      have hkeys : (E ++ keys G (G.minQueue.toList st.candidates ++ [])).Perm
          (E ++ [G.key c.node] ++ keys G (G.minQueue.toList rest ++ [])) := by
        rw [List.append_assoc]
        exact (keys_perm (hperm.append_right [])).append_left E
      have hnext : Counted query s P ks (E ++ [G.key c.node]) [] { st with candidates := rest } := by
        refine ⟨hkeys.nodup_iff.mp h.nodup, fun k hk => h.known k (hkeys.mem_iff.mpr hk), fun b hb => ?_, h.results⟩
        rw [List.append_nil] at hb
        exact h.candidates b (List.mem_append_left _ (hperm.mem_iff.mpr (List.mem_cons_of_mem _ hb)))
      simp only
      split
      · exact ⟨_, rfl, h.results⟩
      · obtain ⟨st', hst', hcount⟩ := expand_counted hr hks ef hc hnext
        rw [Prog.bind_apply, hst']
        refine ih hcount ?_
        rw [List.length_append]
        simpa [Nat.add_right_comm, Nat.add_assoc] using hlen

/-- A search whose calls return ends, in as many turns as there are keys, and its
results have the distances of their nodes. -/
theorem search_terminates (hr : Responds G query s P) (hks : ∀ n, P n → G.key n ∈ ks) {ns : List N}
    (hns : ∀ n ∈ ns, P n) {fuel : ℕ} (hfuel : ks.length ≤ fuel) (ef : ℕ) :
    ∃ st, search G query fuel ns ef s = (.ok st, s) ∧ ∀ c ∈ G.maxQueue.toList st.results, Valued G query s P c := by
  have hempty : Counted query s P ks [] [] (⟨initialVisited G query, G.minQueue.empty, G.maxQueue.empty⟩ : LayerState G) := by
    refine ⟨?_, ?_, ?_, ?_⟩ <;> simp [keys, G.minQueue.toList_empty, G.maxQueue.toList_empty]
  obtain ⟨cs, hcs, hc⟩ := visit_counted hr hks hempty hns
  obtain ⟨st, hst, hcount⟩ := foldlM_counted (fun _ _ _ => pushSeed_counted hr) hc
  obtain ⟨st', hst', hval⟩ := searchLoop_counted hr hks ef fuel hcount (by simpa using hfuel)
  refine ⟨st', ?_, hval⟩
  rw [search, seedImpl, Prog.bind_apply, Prog.bind_apply, hcs]
  simp only [hst]
  exact hst'

end Counting

end LayerOperations
end Hnsw
end VsqlVector
