/-
# Bounded best-first search

A best-first search of a graph expands the nearest node it knows and keeps the
`ef` nearest it may return. It knows the graph as a `Landscape`: who follows a
node, how far a node is from the query, and whether it may be returned; `barred`
nodes are never entered.

The account of a search (`Sound`) has four lists: the nodes expanded, in order,
the nodes pending, the results, and the nodes just discovered. A node that is
neither expanded nor pending, or a visible one that is no result, has been
passed over for `ef` results that are no further (`Passed`); the results can only
come nearer, so it stays passed over.

A search that stops with fewer than `ef` results has found all there is to find,
unless it stands before a `Barrier`: nodes that may not be returned, all further
than what it has found, with more behind them.

Key definitions: `Landscape`, `Reach`, `Discovered`, `NearestFirst`, `Passed`, `Sound`, `Barrier`.
Key theorems: `Sound.skip`, `Sound.take`, `Sound.evict`, `Sound.expand`,
`Sound.locally_optimal`, `Sound.complete`.
-/
import Mathlib.Order.Defs.LinearOrder
import Mathlib.Data.List.Nodup
import Mathlib.Data.Set.Card
import Mathlib.Data.Finset.Card

namespace VsqlVector

/-- A graph as it looks from a query. -/
structure Landscape (K D : Type) where
  adj : K → List K
  dist : K → D
  visible : K → Bool

namespace Landscape

variable {K D : Type} (L : Landscape K D) (barred entries : List K)

/-- The nodes reached from the entries along links, past no barred node. -/
inductive Reach : K → Prop
  | entry {k : K} : k ∈ entries → k ∉ barred → Reach k
  | step {k m : K} : Reach k → m ∈ L.adj k → m ∉ barred → Reach m

/-- The nodes known once those of `X` are expanded. -/
def Discovered (X : List K) (k : K) : Prop := k ∉ barred ∧ (k ∈ entries ∨ ∃ x ∈ X, k ∈ L.adj x)

section Discovered

variable {L barred entries} {X Y : List K} {k : K}

theorem Discovered.mono (h : L.Discovered barred entries X k) (hsub : X ⊆ Y) :
    L.Discovered barred entries Y k := by
  obtain ⟨hb, he | ⟨x, hx, hk⟩⟩ := h
  · exact ⟨hb, .inl he⟩
  · exact ⟨hb, .inr ⟨x, hsub hx, hk⟩⟩

theorem Discovered.reach (h : L.Discovered barred entries X k)
    (hX : ∀ x ∈ X, L.Reach barred entries x) : L.Reach barred entries k := by
  obtain ⟨hb, he | ⟨x, hx, hk⟩⟩ := h
  · exact .entry he hb
  · exact .step (hX x hx) hk hb

/-- A set of expanded nodes with nothing pending is all there is to reach. -/
theorem reach_of_closed (h : ∀ k, L.Discovered barred entries X k → k ∈ X)
    (hr : L.Reach barred entries k) : L.Discovered barred entries X k := by
  induction hr with
  | entry he hb => exact ⟨hb, .inl he⟩
  | step _ hm hb ih => exact ⟨hb, .inr ⟨_, h _ ih, hm⟩⟩

theorem discovered_finite (p : K → Prop) : {v | L.Discovered barred entries X v ∧ p v}.Finite := by
  refine Set.Finite.subset (List.finite_toSet (entries ++ X.flatMap L.adj)) fun v hv => ?_
  obtain ⟨⟨-, he | ⟨x, hx, hv⟩⟩, -⟩ := hv
  · exact List.mem_append_left _ he
  · exact List.mem_append_right _ (List.mem_flatMap.mpr ⟨x, hx, hv⟩)

end Discovered

variable [LinearOrder D]

/-- Orders in which the nodes can be expanded, always a nearest one of those known. -/
inductive NearestFirst : List K → Prop
  | nil : NearestFirst []
  | snoc {X : List K} {k : K} : NearestFirst X → L.Discovered barred entries X k → k ∉ X →
      (∀ j, L.Discovered barred entries X j → j ∉ X → L.dist k ≤ L.dist j) → NearestFirst (X ++ [k])

/-- There are `ef` results, and `k` is no nearer than any of them. -/
def Passed (ef : ℕ) (R : List K) (k : K) : Prop := ef ≤ R.length ∧ ∀ r ∈ R, L.dist r ≤ L.dist k

/-- The account of a search: `X` is expanded, `C` pending, `R` the results, and
`xs` has just been discovered. -/
structure Sound (ef : ℕ) (X C R xs : List K) : Prop where
  nodup : (X ++ C ++ xs).Nodup
  known : ∀ k ∈ X ++ C ++ xs, L.Discovered barred entries X k
  account : ∀ k, L.Discovered barred entries X k → k ∈ X ++ C ++ xs ∨ L.Passed ef R k
  results_nodup : R.Nodup
  results : ∀ r ∈ R, L.visible r = true ∧ r ∈ X ++ C
  kept : ∀ k ∈ X ++ C, L.visible k = true → k ∈ R ∨ L.Passed ef R k
  reach : ∀ x ∈ X, L.Reach barred entries x
  order : L.NearestFirst barred entries X ∨ ef ≤ R.length

namespace Sound

variable {L barred entries} {ef : ℕ} {X C R xs : List K} {k : K}

theorem passed_of_perm {R' : List K} (hp : R.Perm R') (h : L.Passed ef R k) : L.Passed ef R' k :=
  ⟨hp.length_eq ▸ h.1, fun r hr => h.2 r (hp.mem_iff.mpr hr)⟩

/-- Only what the pending nodes and the results are counts, not their order. -/
theorem perm (h : L.Sound barred entries ef X C R xs) {C' R' : List K} (hC : C.Perm C') (hR : R.Perm R') :
    L.Sound barred entries ef X C' R' xs := by
  have hall : (X ++ C ++ xs).Perm (X ++ C' ++ xs) := (hC.append_left X).append_right xs
  refine ⟨hall.nodup_iff.mp h.nodup, fun k hk => h.known k (hall.mem_iff.mpr hk), fun k hk => ?_,
    hR.nodup_iff.mp h.results_nodup, fun r hr => ?_, fun k hk hv => ?_, h.reach, ?_⟩
  · exact (h.account k hk).imp hall.mem_iff.mp (passed_of_perm hR)
  · obtain ⟨h1, h2⟩ := h.results r (hR.mem_iff.mpr hr)
    exact ⟨h1, (hC.append_left X).mem_iff.mp h2⟩
  · exact (h.kept k ((hC.append_left X).mem_iff.mpr hk) hv).imp hR.mem_iff.mp (passed_of_perm hR)
  · exact h.order.imp_right fun h1 => hR.length_eq ▸ h1

/-- With fewer than `ef` results no node has been passed over. -/
theorem not_passed (h : R.length < ef) : ¬ L.Passed ef R k := fun hp => absurd hp.1 (by omega)

/-- A node passed over stays so when a nearer result comes. -/
theorem passed_cons {p : K} (ha : R.length < ef ∨ ∃ t ∈ R, L.dist k ≤ L.dist t) (hp : L.Passed ef R p) :
    L.Passed ef (k :: R) p := by
  obtain ⟨t, ht, hk⟩ : ∃ t ∈ R, L.dist k ≤ L.dist t := ha.resolve_left (fun h => not_passed h hp)
  refine ⟨hp.1.trans (by simp), fun r hr => ?_⟩
  rcases List.mem_cons.mp hr with rfl | hr
  · exact hk.trans (hp.2 t ht)
  · exact hp.2 r hr

/-- The account at the start: the entries have been discovered. -/
theorem start {ns : List K} (hnd : ns.Nodup) (hns : ∀ n, n ∈ ns ↔ n ∈ entries ∧ n ∉ barred) :
    L.Sound barred entries ef [] [] [] ns := by
  have hstep (k : K) : L.Discovered barred entries [] k ↔ k ∈ ns := by
    rw [hns]
    exact ⟨fun ⟨hb, h⟩ => ⟨h.resolve_right (by simp), hb⟩, fun ⟨h, hb⟩ => ⟨hb, .inl h⟩⟩
  exact ⟨by simpa using hnd, fun k hk => (hstep k).mpr (by simpa using hk),
    fun k hk => .inl (by simpa using (hstep k).mp hk), List.nodup_nil, by simp, by simp, by simp, .inl .nil⟩

/-- While no node has been passed over the bound does not matter. -/
theorem of_short {ef' : ℕ} (h : L.Sound barred entries ef' X C R xs) (hlt : R.length < ef')
    (ho : L.NearestFirst barred entries X) : L.Sound barred entries ef X C R xs :=
  ⟨h.nodup, h.known, fun k hk => .inl ((h.account k hk).resolve_right (not_passed hlt)), h.results_nodup, h.results,
    fun k hk hv => .inl ((h.kept k hk hv).resolve_right (not_passed hlt)), h.reach, .inl ho⟩

theorem known_reach (h : L.Sound barred entries ef X C R xs) {j : K} (hj : j ∈ X ++ C ++ xs) :
    L.Reach barred entries j := (h.known j hj).reach h.reach

/-- No more nodes are expanded than can be reached. -/
theorem length_expanded_le (h : L.Sound barred entries ef X (k :: C) R xs)
    (hfin : {k | L.Reach barred entries k}.Finite) : X.length < {k | L.Reach barred entries k}.ncard := by
  classical
  have hnd : (X ++ [k]).Nodup := h.nodup.sublist (by simp)
  have hsub : ((X ++ [k]).toFinset : Set K) ⊆ {k | L.Reach barred entries k} := fun j hj => by
    have hj : j ∈ X ++ [k] := List.mem_toFinset.mp (Finset.mem_coe.mp hj)
    refine h.known_reach ?_
    rcases List.mem_append.mp hj with hj | hj
    · simp [hj]
    · simp [List.mem_singleton.mp hj]
  have hcard := Set.ncard_le_ncard hsub hfin
  rw [Set.ncard_coe_finset, List.toFinset_card_of_nodup hnd, List.length_append] at hcard
  simpa using hcard

/-- The next node is passed over. -/
theorem skip (h : L.Sound barred entries ef X C R (k :: xs)) (hk : L.Passed ef R k) :
    L.Sound barred entries ef X C R xs := by
  have hsub : (X ++ C ++ xs).Sublist (X ++ C ++ k :: xs) := (List.sublist_cons_self k xs).append_left _
  refine ⟨h.nodup.sublist hsub, fun j hj => h.known j (hsub.subset hj), fun j hj => ?_, h.results_nodup,
    h.results, h.kept, h.reach, h.order⟩
  rcases h.account j hj with hj | hj
  · rcases List.mem_append.mp hj with hj | hj
    · exact .inl (List.mem_append_left _ hj)
    · rcases List.mem_cons.mp hj with rfl | hj
      · exact .inr hk
      · exact .inl (List.mem_append_right _ hj)
  · exact .inr hj

/-- The next node is put with the pending ones, and with the results if it is
visible; it is as near as some result, or there is room. -/
theorem take (h : L.Sound barred entries ef X C R (k :: xs))
    (ha : R.length < ef ∨ ∃ t ∈ R, L.dist k ≤ L.dist t) :
    L.Sound barred entries ef X (k :: C) (if L.visible k = true then k :: R else R) xs := by
  have hperm : (X ++ C ++ k :: xs).Perm (X ++ k :: C ++ xs) := by
    rw [List.append_assoc, List.append_assoc]
    exact List.perm_middle.append_left X
  have hsub : X ++ C ⊆ X ++ k :: C := fun j hj => by
    rcases List.mem_append.mp hj with hj | hj
    · exact List.mem_append_left _ hj
    · exact List.mem_append_right _ (List.mem_cons_of_mem _ hj)
  have hnew : k ∉ X ++ C := fun hk => (List.nodup_append.mp h.nodup).2.2 k hk k (by simp) rfl
  have hpassed {p : K} (hp : L.Passed ef R p) : L.Passed ef (if L.visible k = true then k :: R else R) p := by
    split
    · exact passed_cons ha hp
    · exact hp
  have hlen : R.length ≤ (if L.visible k = true then k :: R else R).length := by
    split <;> simp
  refine ⟨hperm.nodup_iff.mp h.nodup, fun j hj => h.known j (hperm.mem_iff.mpr hj), fun j hj => ?_, ?_,
    fun r hr => ?_, fun j hj hv => ?_, h.reach, h.order.imp_right fun h1 => h1.trans hlen⟩
  · exact (h.account j hj).imp hperm.mem_iff.mp hpassed
  · split
    · exact List.nodup_cons.mpr ⟨fun hk => hnew (h.results k hk).2, h.results_nodup⟩
    · exact h.results_nodup
  · split at hr
    · rename_i hv
      rcases List.mem_cons.mp hr with rfl | hr
      · exact ⟨hv, by simp⟩
      · exact ⟨(h.results r hr).1, hsub (h.results r hr).2⟩
    · exact ⟨(h.results r hr).1, hsub (h.results r hr).2⟩
  · by_cases hjk : j = k
    · subst hjk
      rw [if_pos hv]
      exact .inl (by simp)
    · have hj' : j ∈ X ++ C := by
        rcases List.mem_append.mp hj with hj | hj
        · exact List.mem_append_left _ hj
        · exact List.mem_append_right _ ((List.mem_cons.mp hj).resolve_left hjk)
      refine (h.kept j hj' hv).imp (fun hj => ?_) hpassed
      split
      · exact List.mem_cons_of_mem _ hj
      · exact hj

/-- The furthest of more than `ef` results is dropped. -/
theorem evict (h : L.Sound barred entries ef X C (k :: R) xs) (hlen : ef ≤ R.length)
    (hfar : ∀ r ∈ R, L.dist r ≤ L.dist k) : L.Sound barred entries ef X C R xs := by
  have hpassed {p : K} (hp : L.Passed ef (k :: R) p) : L.Passed ef R p :=
    ⟨hlen, fun r hr => hp.2 r (List.mem_cons_of_mem _ hr)⟩
  refine ⟨h.nodup, h.known, fun j hj => (h.account j hj).imp_right hpassed, (List.nodup_cons.mp h.results_nodup).2,
    fun r hr => h.results r (List.mem_cons_of_mem _ hr), fun j hj hv => ?_, h.reach, .inr hlen⟩
  rcases h.kept j hj hv with hj | hj
  · rcases List.mem_cons.mp hj with rfl | hj
    · exact .inr ⟨hlen, hfar⟩
    · exact .inl hj
  · exact .inr (hpassed hj)

/-- A nearest pending node is expanded: `ns` are the nodes it leads to that were
not known. -/
theorem expand {ns : List K} (h : L.Sound barred entries ef X (k :: C) R [])
    (hnear : ∀ c ∈ C, L.dist k ≤ L.dist c) (hnd : ns.Nodup)
    (hns : ∀ n, n ∈ ns ↔ n ∈ L.adj k ∧ n ∉ barred ∧ ¬ L.Discovered barred entries X n) :
    L.Sound barred entries ef (X ++ [k]) C R ns := by
  have hk : L.Discovered barred entries X k := h.known k (by simp)
  have hmid : X ++ [k] ++ C = X ++ k :: C := by simp
  have hstep (j : K) : L.Discovered barred entries (X ++ [k]) j ↔ L.Discovered barred entries X j ∨ j ∈ ns := by
    constructor
    · rintro ⟨hb, he | ⟨x, hx, hj⟩⟩
      · exact .inl ⟨hb, .inl he⟩
      · rcases List.mem_append.mp hx with hx | hx
        · exact .inl ⟨hb, .inr ⟨x, hx, hj⟩⟩
        · obtain rfl := List.mem_singleton.mp hx
          by_cases hd : L.Discovered barred entries X j
          · exact .inl hd
          · exact .inr ((hns j).mpr ⟨hj, hb, hd⟩)
    · rintro (hj | hj)
      · exact hj.mono (by simp)
      · obtain ⟨h1, h2, -⟩ := (hns j).mp hj
        exact ⟨h2, .inr ⟨k, by simp, h1⟩⟩
  have hnew : k ∉ X := fun hx => (List.nodup_append.mp (by simpa using h.nodup)).2.2 k hx k (by simp) rfl
  refine ⟨?_, fun j hj => (hstep j).mpr ?_, fun j hj => ?_, h.results_nodup, fun r hr => ?_, fun j hj hv => ?_,
    fun x hx => ?_, ?_⟩
  · rw [hmid, List.nodup_append]
    refine ⟨by simpa using h.nodup, hnd, fun a ha b hb hab => ?_⟩
    subst hab
    exact ((hns a).mp hb).2.2 (h.known a (by simpa using ha))
  · rw [hmid] at hj
    exact (List.mem_append.mp hj).imp (fun hj => h.known j (by simpa using hj)) id
  · rw [hmid]
    rcases (hstep j).mp hj with hj | hj
    · exact (h.account j hj).imp_left fun hj => List.mem_append_left _ (by simpa using hj)
    · exact .inl (List.mem_append_right _ hj)
  · rw [hmid]
    exact h.results r hr
  · rw [hmid] at hj
    exact h.kept j hj hv
  · rcases List.mem_append.mp hx with hx | hx
    · exact h.reach x hx
    · obtain rfl := List.mem_singleton.mp hx
      exact hk.reach h.reach
  · by_cases hlt : R.length < ef
    · refine .inl (.snoc (h.order.resolve_right (by omega)) hk hnew fun j hj hjX => ?_)
      rcases h.account j hj with hj | hj
      · rw [List.append_nil] at hj
        rcases List.mem_cons.mp ((List.mem_append.mp hj).resolve_left hjX) with rfl | hj
        · exact le_rfl
        · exact hnear j hj
      · exact absurd hj (not_passed hlt)
    · exact .inr (by omega)

/-- Where a search can stop: every pending node is further than every result, and
there is one. -/
def Stopped (C R : List K) : Prop := ∀ c ∈ C, R ≠ [] ∧ ∀ r ∈ R, L.dist r < L.dist c

/-- **The results are locally optimal.** A visible node that a result leads to is
a result, or there are `ef` results that are no further. -/
theorem locally_optimal (h : L.Sound barred entries ef X C R []) (hstop : Stopped (L := L) C R) {r n : K}
    (hr : r ∈ R) (hn : n ∈ L.adj r) (hb : n ∉ barred) (hv : L.visible n = true) :
    n ∈ R ∨ L.Passed ef R n := by
  obtain ⟨-, hmem⟩ := h.results r hr
  rcases List.mem_append.mp hmem with hX | hC
  · rcases h.account n ⟨hb, .inr ⟨r, hX, hn⟩⟩ with hacc | hp
    · exact h.kept n (by simpa using hacc) hv
    · exact .inr hp
  · exact absurd ((hstop r hC).2 r hr) (lt_irrefl _)

end Sound

/-! ### Where a search stops too early -/

/-- A barrier: the nodes `X` are expanded in an order in which they can be, what is
known but not expanded is further than every visible node known, of which there
are some but fewer than `ef`, and a visible node is still unknown. -/
structure Barrier (ef : ℕ) (X : List K) : Prop where
  order : L.NearestFirst barred entries X
  found : ∃ v, L.Discovered barred entries X v ∧ L.visible v = true
  few : {v | L.Discovered barred entries X v ∧ L.visible v = true}.ncard < ef
  further : ∀ v k, L.Discovered barred entries X v → L.visible v = true → L.Discovered barred entries X k →
    k ∉ X → L.dist v < L.dist k
  beyond : ∃ v, L.Reach barred entries v ∧ L.visible v = true ∧ ¬ L.Discovered barred entries X v

section Barrier

variable {L barred entries} {ef : ℕ} {X C R : List K}

/-- A search that stops with fewer than `ef` results misses nothing, unless it stands
before a barrier. -/
theorem Sound.complete (h : L.Sound barred entries ef X C R []) (hstop : Sound.Stopped (L := L) C R)
    (hlt : R.length < ef) (hno : ¬ L.Barrier barred entries ef X) {k : K} (hk : L.Reach barred entries k)
    (hv : L.visible k = true) : k ∈ R := by
  classical
  have hacc {j : K} (hj : L.Discovered barred entries X j) : j ∈ X ++ C := by
    simpa using (h.account j hj).resolve_right (Sound.not_passed hlt)
  have hkept {j : K} (hj : L.Discovered barred entries X j) (hjv : L.visible j = true) : j ∈ R :=
    (h.kept j (hacc hj) hjv).resolve_right (Sound.not_passed hlt)
  by_contra hkR
  have hknown : ¬ L.Discovered barred entries X k := fun hd => hkR (hkept hd hv)
  have hopen : ∃ c, c ∈ C := by
    by_contra hnone
    refine hknown (reach_of_closed (fun j hj => ?_) hk)
    exact (List.mem_append.mp (hacc hj)).resolve_right fun hjC => hnone ⟨j, hjC⟩
  obtain ⟨c, hc⟩ := hopen
  obtain ⟨r, hr⟩ := List.exists_mem_of_ne_nil _ (hstop c hc).1
  refine hno ⟨h.order.resolve_right (by omega), ⟨r, ?_, (h.results r hr).1⟩, ?_, fun v j hd hdv hj hjX => ?_,
    k, hk, hv, hknown⟩
  · exact h.known r (List.mem_append_left _ (h.results r hr).2)
  · have hsub : {v | L.Discovered barred entries X v ∧ L.visible v = true} ⊆ (R.toFinset : Set K) :=
      fun v hvv => by simpa using hkept hvv.1 hvv.2
    calc _ ≤ (R.toFinset : Set K).ncard := Set.ncard_le_ncard hsub (Finset.finite_toSet _)
      _ ≤ R.length := by
        rw [Set.ncard_coe_finset]
        exact List.toFinset_card_le R
      _ < ef := hlt
  · have hjC : j ∈ C := (List.mem_append.mp (hacc hj)).resolve_left hjX
    exact (hstop j hjC).2 v (hkept hd hdv)

/-- On the way to a barrier there are few results. -/
theorem Barrier.few_results {Y xs : List K} {e : ℕ} (hX : L.Barrier barred entries ef X) (hsub : Y ⊆ X)
    (h : L.Sound barred entries e Y C R xs) : R.length < ef := by
  classical
  rw [← List.toFinset_card_of_nodup h.results_nodup, ← Set.ncard_coe_finset]
  refine (Set.ncard_le_ncard (fun k hk => ?_) (discovered_finite _)).trans_lt hX.few
  obtain ⟨hv, hmem⟩ := h.results k (by simpa using hk)
  exact ⟨(h.known k (List.mem_append_left _ hmem)).mono hsub, hv⟩

/-- In such an order every node is a nearest one of those known before it. -/
theorem NearestFirst.nearest (h : L.NearestFirst barred entries X) : ∀ {Y Z : List K} {z : K}, X = Y ++ z :: Z →
    L.Discovered barred entries Y z ∧ z ∉ Y ∧
      ∀ j, L.Discovered barred entries Y j → j ∉ Y → L.dist z ≤ L.dist j := by
  induction h with
  | nil => intro Y Z z he; simp at he
  | @snoc X k hX hk hnew hnear ih =>
    intro Y Z z he
    rcases List.eq_nil_or_concat Z with rfl | ⟨Z', k', rfl⟩
    · obtain ⟨rfl, hz⟩ := List.append_inj' he rfl
      obtain rfl : k = z := by simpa using hz
      exact ⟨hk, hnew, hnear⟩
    · refine ih (Y := Y) (Z := Z') ?_
      rw [List.concat_eq_append, ← List.cons_append, ← List.append_assoc] at he
      exact (List.append_inj' he rfl).1

end Barrier

end Landscape
end VsqlVector
