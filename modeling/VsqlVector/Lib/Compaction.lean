/-
# Lists kept in arrays

An array holds a list as its first elements, `xs <+: buf`, and other things behind
it. A walk may compact the list it goes through in the array itself: what it keeps
is written to the front, never past the element it reads (`Compacted`). The indexes
it comes past are in order (`Below`).

Key definitions: `Compacted`, `Below`.
Key theorems: `Compacted.get`, `Compacted.push`, `prefix_set`.
-/
import Mathlib.Data.List.Infix
import Mathlib.Data.List.Range
import Mathlib.Data.List.Perm.Subperm
import Mathlib.Data.List.Nodup

namespace VsqlVector

variable {α : Type} {xs front buf : List α} {i : ℕ} {v x : α}

/-- An element written behind the list an array holds. -/
theorem prefix_set (h : front <+: buf) (hlt : front.length < buf.length) : front ++ [v] <+: buf.set front.length v := by
  obtain ⟨rest, rfl⟩ := h
  rw [List.set_append_right _ _ le_rfl, Nat.sub_self]
  cases rest with
  | nil => simp at hlt
  | cons y rest => exact ⟨rest, by simp⟩

theorem prefix_getElem? (h : xs <+: buf) (hx : xs[i]? = some x) : buf[i]? = some x := by
  obtain ⟨rest, rfl⟩ := h
  have hi : i < xs.length := (List.getElem?_eq_some_iff.mp hx).1
  rwa [List.getElem?_append_left hi]

/-- Before turn `i` of a walk through `xs` in `buf`: `front` is what it has kept. -/
structure Compacted (xs : List α) (i : ℕ) (front buf : List α) : Prop where
  kept : front <+: buf
  length_le : front.length ≤ i
  rest : ∀ j, i ≤ j → j < xs.length → buf[j]? = xs[j]?

namespace Compacted

theorem start (h : xs <+: buf) : Compacted xs 0 [] buf :=
  ⟨List.nil_prefix, le_rfl, fun _ _ hj => (prefix_getElem? h (List.getElem?_eq_getElem hj)).trans
    (List.getElem?_eq_getElem hj).symm⟩

/-- The walk reads its own list. -/
theorem get (h : Compacted xs i front buf) (hx : xs[i]? = some x) : buf[i]? = some x :=
  (h.rest i le_rfl (List.getElem?_eq_some_iff.mp hx).1).trans hx

theorem length_lt (h : Compacted xs i front buf) (hi : i < xs.length) : front.length < buf.length := by
  have hlt := (List.getElem?_eq_some_iff.mp (h.get (List.getElem?_eq_getElem hi))).1
  exact h.length_le.trans_lt hlt

theorem skip (h : Compacted xs i front buf) : Compacted xs (i + 1) front buf :=
  ⟨h.kept, h.length_le.trans (Nat.le_succ i), fun j hj => h.rest j (Nat.le_of_succ_le hj)⟩

theorem push (h : Compacted xs i front buf) (hi : i < xs.length) :
    Compacted xs (i + 1) (front ++ [v]) (buf.set front.length v) := by
  refine ⟨prefix_set h.kept (h.length_lt hi), by simpa using h.length_le, fun j hj hlt => ?_⟩
  have hle := h.length_le
  rw [List.getElem?_set_ne (by omega)]
  exact h.rest j (by omega) hlt

end Compacted

/-- Indexes in order, all below `i`. -/
def Below (i : ℕ) (l : List ℕ) : Prop := l.Pairwise (· < ·) ∧ ∀ j ∈ l, j < i

namespace Below

variable {l l' : List ℕ}

theorem nil : Below i [] := ⟨.nil, by simp⟩

theorem skip (h : Below i l) : Below (i + 1) l := ⟨h.1, fun j hj => (h.2 j hj).trans (Nat.lt_succ_self i)⟩

theorem push (h : Below i l) : Below (i + 1) (l ++ [i]) := by
  refine ⟨List.pairwise_append.mpr ⟨h.1, List.pairwise_singleton _ _, fun a ha b hb => ?_⟩, fun j hj => ?_⟩
  · rw [List.mem_singleton.mp hb]
    exact h.2 a ha
  · rcases List.mem_append.mp hj with hj | hj
    · exact (h.2 j hj).trans (Nat.lt_succ_self i)
    · rw [List.mem_singleton.mp hj]
      exact Nat.lt_succ_self i

theorem length_le (h : Below i l) : l.length ≤ i := by
  have hnodup : l.Nodup := h.1.imp fun hlt => Nat.ne_of_lt hlt
  have hsub := List.subperm_of_subset hnodup fun j hj => List.mem_range.mpr (h.2 j hj)
  simpa using List.Subperm.length_le hsub

theorem sublist (h : Below i l) (hsub : l'.Sublist l) : Below i l' :=
  ⟨h.1.sublist hsub, fun j hj => h.2 j (hsub.subset hj)⟩

end Below
end VsqlVector
