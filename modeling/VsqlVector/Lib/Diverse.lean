/-
# Diverse selection

A selection that takes elements nearest first and keeps one only if no element kept
before is closer to it than the query is: what is kept lies in different
directions. `Selection` is the account of one under way, with what is kept, what is
rejected, each in the order it was met, and what is still to come. `Diverse` says
what has been selected at the end, filled up from what was rejected.

Key definitions: `Selection`, `Diverse`.
Key theorems: `Selection.keep`, `Selection.reject`, `Selection.diverse_fill`, `Selection.length_fill`.
-/
import Mathlib.Order.Lattice
import Mathlib.Data.List.Nodup
import Mathlib.Data.List.Perm.Subperm

namespace VsqlVector

/-- `kept` and `rejected` have been met, nearest first, and `queue` is to come:
`dist` is the distance from the query and `between` that of two elements. -/
structure Selection {K D : Type} [LinearOrder D] (dist : K → D) (between : K → K → D) (kept rejected queue : List K) :
    Prop where
  sorted : kept.Pairwise fun a b => dist a ≤ dist b
  diverse : kept.Pairwise fun a b => dist b ≤ between b a
  covered : ∀ e ∈ rejected, ∃ r ∈ kept, between e r < dist e
  rejected_sorted : rejected.Pairwise fun a b => dist a ≤ dist b
  ahead : ∀ a ∈ kept ++ rejected, ∀ b ∈ queue, dist a ≤ dist b

namespace Selection

variable {K D : Type} [LinearOrder D] {dist : K → D} {between : K → K → D} {kept rejected queue : List K} {e : K}

theorem start (queue : List K) : Selection dist between [] [] queue :=
  ⟨.nil, .nil, by simp, .nil, by simp⟩

theorem perm (h : Selection dist between kept rejected queue) {queue' : List K} (hp : queue.Perm queue') :
    Selection dist between kept rejected queue' :=
  ⟨h.sorted, h.diverse, h.covered, h.rejected_sorted, fun a ha b hb => h.ahead a ha b (hp.mem_iff.mpr hb)⟩

/-- The nearest element to come is kept if nothing kept is closer to it than the query. -/
theorem keep (h : Selection dist between kept rejected (e :: queue)) (hnear : ∀ b ∈ queue, dist e ≤ dist b)
    (hdiv : ∀ r ∈ kept, dist e ≤ between e r) : Selection dist between (kept ++ [e]) rejected queue := by
  have hbefore : ∀ a ∈ kept ++ rejected, dist a ≤ dist e := fun a ha => h.ahead a ha e (by simp)
  refine ⟨?_, ?_, fun x hx => ?_, h.rejected_sorted, fun a ha b hb => ?_⟩
  · exact List.pairwise_append.mpr ⟨h.sorted, List.pairwise_singleton _ _, fun a ha b hb => by
      rw [List.mem_singleton.mp hb]
      exact hbefore a (List.mem_append_left _ ha)⟩
  · exact List.pairwise_append.mpr ⟨h.diverse, List.pairwise_singleton _ _, fun a ha b hb => by
      rw [List.mem_singleton.mp hb]
      exact hdiv a ha⟩
  · obtain ⟨r, hr, hlt⟩ := h.covered x hx
    exact ⟨r, List.mem_append_left _ hr, hlt⟩
  · rcases List.mem_append.mp ha with ha | ha
    · rcases List.mem_append.mp ha with ha | ha
      · exact h.ahead a (List.mem_append_left _ ha) b (List.mem_cons_of_mem _ hb)
      · rw [List.mem_singleton.mp ha]
        exact hnear b hb
    · exact h.ahead a (List.mem_append_right _ ha) b (List.mem_cons_of_mem _ hb)

/-- Otherwise it is rejected. -/
theorem reject (h : Selection dist between kept rejected (e :: queue)) (hnear : ∀ b ∈ queue, dist e ≤ dist b)
    (hcov : ∃ r ∈ kept, between e r < dist e) : Selection dist between kept (rejected ++ [e]) queue := by
  refine ⟨h.sorted, h.diverse, fun x hx => ?_, ?_, fun a ha b hb => ?_⟩
  · rcases List.mem_append.mp hx with hx | hx
    · exact h.covered x hx
    · rw [List.mem_singleton.mp hx]
      exact hcov
  · exact List.pairwise_append.mpr ⟨h.rejected_sorted, List.pairwise_singleton _ _, fun a ha b hb => by
      rw [List.mem_singleton.mp hb]
      exact h.ahead a (List.mem_append_right _ ha) e (by simp)⟩
  · rw [← List.append_assoc] at ha
    rcases List.mem_append.mp ha with ha | ha
    · exact h.ahead a ha b (List.mem_cons_of_mem _ hb)
    · rw [List.mem_singleton.mp ha]
      exact hnear b hb

end Selection

/-- The outcome of a selection of at most `M` elements of `W`: `kept`, and `fill` from
what was rejected. -/
structure Diverse {K D : Type} [LinearOrder D] (dist : K → D) (between : K → K → D) (M : ℕ) (W kept fill : List K) :
    Prop where
  subperm : (kept ++ fill).Subperm W
  length_le : (kept ++ fill).length ≤ M
  sorted : kept.Pairwise fun a b => dist a ≤ dist b
  apart : kept.Pairwise fun a b => dist b ≤ between b a
  left_out : ∀ e ∈ W, e ∉ kept → (kept.length = M ∧ ∀ r ∈ kept, dist r ≤ dist e) ∨ ∃ r ∈ kept, between e r < dist e
  fill_rejected : ∀ e ∈ fill, ∃ r ∈ kept, between e r < dist e
  fill_sorted : fill.Pairwise fun a b => dist a ≤ dist b
  fill_nearest : ∀ b ∈ fill, ∀ e ∈ W, e ∉ kept ++ fill → dist b ≤ dist e

namespace Selection

variable {K D : Type} [LinearOrder D] {dist : K → D} {between : K → K → D} {kept rejected left W : List K} {M n : ℕ}

/-- A selection that ends with nothing to come, or with `M` elements kept, is diverse,
whatever is filled up from the first rejected elements. -/
theorem diverse_fill (h : Selection dist between kept rejected left) (hW : (kept ++ rejected ++ left).Perm W)
    (hlen : kept.length ≤ M) (hfull : left ≠ [] → kept.length = M) (hn : n ≤ M - kept.length) :
    Diverse dist between M W kept (rejected.take n) := by
  have hs := h.rejected_sorted
  rw [← List.take_append_drop n rejected] at hs
  have hcases : ∀ e ∈ W, e ∈ kept ∨ e ∈ rejected ∨ e ∈ left := fun e he => by
    simpa [or_assoc] using hW.mem_iff.mpr he
  refine ⟨?_, ?_, h.sorted, h.diverse, fun e he hnot => ?_, fun e he => h.covered e (List.mem_of_mem_take he),
    (List.pairwise_append.mp hs).1, fun b hb e he hnot => ?_⟩
  · refine List.Subperm.trans (List.Sublist.subperm ?_) hW.subperm
    exact ((List.take_sublist n rejected).append_left kept).trans (List.sublist_append_left _ _)
  · rw [List.length_append, List.length_take]
    omega
  · rcases hcases e he with hk | hr | hl
    · exact absurd hk hnot
    · exact .inr (h.covered e hr)
    · exact .inl ⟨hfull (List.ne_nil_of_mem hl), fun r hr => h.ahead r (List.mem_append_left _ hr) e hl⟩
  · rw [List.mem_append, not_or] at hnot
    rcases hcases e he with hk | hr | hl
    · exact absurd hk hnot.1
    · rw [← List.take_append_drop n rejected] at hr
      exact (List.pairwise_append.mp hs).2.2 b hb e ((List.mem_append.mp hr).resolve_left hnot.2)
    · exact h.ahead b (List.mem_append_right _ (List.mem_of_mem_take hb)) e hl

/-- Filled up, a selection is as long as it can be. -/
theorem length_fill (hW : (kept ++ rejected ++ left).Perm W) (hlen : kept.length ≤ M)
    (hfull : left ≠ [] → kept.length = M) :
    (kept ++ rejected.take (M - kept.length)).length = min M W.length := by
  have h := hW.length_eq
  simp only [List.length_append, List.length_take] at h ⊢
  rcases left with _ | ⟨a, l⟩
  · simp only [List.length_nil] at h
    omega
  · have := hfull (by simp)
    omega

end Selection
end VsqlVector
