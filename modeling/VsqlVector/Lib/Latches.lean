/-
# Memos of latches, and progress

A thread notes in a memo which latches it took and in which mode, and drops a note
when it releases the latch. It can take a latch again that it has; what counts for
the others is the strongest note (`Memo.mode`).

Threads that wait for latches may wait for each other. They do not when every thread
in the way of another is ahead of it: the one furthest ahead can go on
(`Threads.progress`), and where every step brings a thread nearer to its end no run goes
on for ever (`Threads.run_le`).

Key definition: `Memo.mode`.
Key theorems: `Memo.apart`, `Memo.blocked`, `Threads.progress`, `Threads.run_le`.
-/
import VsqlVector.Lib.Threads
import Mathlib.Algebra.Order.BigOperators.Group.Finset

namespace VsqlVector

/-- The latches a thread has, each with the mode it was taken in. -/
abbrev Memo (R : Type) := List (R × Latch)

namespace Memo

variable {R : Type} [DecidableEq R] {m m' : Memo R} {q r : R} {k : Latch}

/-- The mode in which `r` is held. -/
def mode (m : Memo R) (r : R) : Option Latch :=
  if (r, .exclusive) ∈ m then some .exclusive else if (r, .shared) ∈ m then some .shared else none

@[simp] theorem mode_nil : mode [] r = none := by simp [mode]

theorem mode_exclusive : mode m r = some .exclusive ↔ (r, .exclusive) ∈ m := by
  unfold mode
  split_ifs <;> simp_all

theorem mode_eq_none : mode m r = none ↔ ∀ k, (r, k) ∉ m := by
  unfold mode
  constructor
  · intro h k hk
    cases k <;> split_ifs at h
  · intro h
    rw [if_neg (h _), if_neg (h _)]

theorem mode_cons_of_ne (h : q ≠ r) : mode ((r, k) :: m) q = mode m q := by simp [mode, h]

/-- What one thread holds exclusively another does not hold. -/
theorem apart (h : Latch.Goes (mode m r) (mode m' r)) (hx : (r, .exclusive) ∈ m) : ∀ k, (r, k) ∉ m' := by
  rw [mode_exclusive.mpr hx, Latch.goes_exclusive] at h
  exact mode_eq_none.mp h

/-- A thread that cannot take one more latch waits for one that holds it. -/
theorem blocked (h : ∀ q, Latch.Goes (mode m q) (mode m' q)) (hb : ¬ Latch.Goes (mode ((r, k) :: m) q) (mode m' q)) :
    ∃ k', (r, k') ∈ m' := by
  have hq : q = r := by
    by_contra hne
    rw [mode_cons_of_ne hne] at hb
    exact hb (h q)
  subst hq
  by_contra hnone
  push Not at hnone
  rw [mode_eq_none.mpr hnone] at hb
  exact hb Latch.goes_none_right

/-- Who takes no latch waits for none. -/
theorem goes_of_subset (h : Latch.Goes (mode m r) (mode m' r)) {n : Memo R} (hsub : ∀ x ∈ n, x ∈ m) :
    Latch.Goes (mode n r) (mode m' r) := by
  by_cases hx : (r, .exclusive) ∈ m
  · rw [mode_eq_none.mpr (apart h hx)]
    exact Latch.goes_none_right
  · have hn : (r, .exclusive) ∉ n := fun hn => hx (hsub _ hn)
    by_cases hs : (r, .shared) ∈ n
    · have hm : mode m r = some .shared := by rw [mode, if_neg hx, if_pos (hsub _ hs)]
      rw [show mode n r = some .shared by rw [mode, if_neg hn, if_pos hs], ← hm]
      exact h
    · rw [show mode n r = none by rw [mode, if_neg hn, if_neg hs]]
      exact Latch.goes_none_left

end Memo

namespace Threads

variable {T σ Λ R : Type} [DecidableEq T] {S : Threads T σ Λ R}

omit [DecidableEq T] in
/-- **The thread furthest ahead goes on.** Each busy thread has a step, and whoever is in
the way of it is busy and of a higher rank. -/
theorem progress {busy : Λ → Prop} {rank : Λ → ℕ} {bound : ℕ} (hbound : ∀ l, rank l ≤ bound) {s : σ} {ls : T → Λ}
    (hnext : ∀ t, busy (ls t) → ∃ s' l, S.step t s (ls t) s' l ∧ ∀ u, u ≠ t → ∀ r,
      ¬ Latch.Goes (S.held l r) (S.held (ls u) r) → busy (ls u) ∧ rank (ls t) < rank (ls u))
    {t : T} (ht : busy (ls t)) : ∃ u s' l, busy (ls u) ∧ S.step u s (ls u) s' l ∧ S.Granted ls u l := by
  -- by induction on what the rank of the thread leaves to the bound
  induction hn : bound - rank (ls t) using Nat.strong_induction_on generalizing t with
  | _ n ih =>
    obtain ⟨s', l, hstep, hways⟩ := hnext t ht
    by_cases hgranted : S.Granted ls t l
    · exact ⟨t, s', l, ht, hstep, hgranted⟩
    · unfold Granted at hgranted
      push Not at hgranted
      obtain ⟨u, hu, r, hr⟩ := hgranted
      obtain ⟨hbusy, hrank⟩ := hways u hu r hr
      have hle := hbound (ls u)
      exact ih (bound - rank (ls u)) (by omega) hbusy rfl

/-- A step of a thread that gets nearer to its end brings all threads together nearer. -/
theorem Step.sum_lt [Fintype T] {left : Λ → ℕ} (hleft : ∀ t s l s' l', S.step t s l s' l' → left l' < left l)
    {x y : σ × (T → Λ)} (h : S.Step x y) : ∑ t, left (y.2 t) < ∑ t, left (x.2 t) := by
  cases h with
  | @intro s s' ls l t hstep _ =>
    have hlt : left l < left (ls t) := hleft t s (ls t) s' l hstep
    show ∑ u, left (Function.update ls t l u) < ∑ u, left (ls u)
    refine Finset.sum_lt_sum (fun u _ => ?_) ⟨t, Finset.mem_univ t, by rw [Function.update_self]; exact hlt⟩
    rcases eq_or_ne u t with rfl | hu
    · rw [Function.update_self]
      exact hlt.le
    · rw [Function.update_of_ne hu]

/-- **No run goes on for ever.** It has no more steps than the threads have left. -/
theorem run_le [Fintype T] {left : Λ → ℕ} (hleft : ∀ t s l s' l', S.step t s l s' l' → left l' < left l)
    {f : ℕ → σ × (T → Λ)} {n : ℕ} (h : ∀ k, k < n → S.Step (f k) (f (k + 1))) : n ≤ ∑ t, left ((f 0).2 t) := by
  have hall : ∀ k, k ≤ n → k + ∑ t, left ((f k).2 t) ≤ ∑ t, left ((f 0).2 t) := by
    intro k
    induction k with
    | zero => exact fun _ => (Nat.zero_add _).le
    | succ k ih =>
      intro hk
      have hless := (h k hk).sum_lt hleft
      have hle := ih (Nat.le_of_succ_le hk)
      omega
  exact (Nat.le_add_right _ _).trans (hall n le_rfl)

end Threads
end VsqlVector
