/-
# Threads and latches

Threads run the same code over a shared state, each at a place of its own; a
step moves one of them. Which latches a thread holds, and in which mode, is
read off the place it is at, so a step that takes a latch leads to a place
that holds it. It is granted when no other thread stands in its way: a shared
latch goes with shared ones, an exclusive latch with none.

What holds of the shared state, and of each thread at its place, holds in
every state of every run when every step keeps it, for the thread that moves
and for the others (`Threads.invariant`). A step of another thread is one whose
latches, before and after, go with those the thread holds.

Key definitions: `Latch.Goes`, `Threads`, `Threads.Step`.
Key theorems: `Threads.exclusive`, `Threads.invariant`.
-/
import VsqlVector.Lib.Runs
import Mathlib.Logic.Function.Basic

namespace VsqlVector

/-- The mode of a latch. -/
inductive Latch where
  | shared
  | exclusive
  deriving DecidableEq, Repr

namespace Latch

/-- Two threads can hold a latch in these modes; `none` is not to hold it. -/
def Goes : Option Latch → Option Latch → Prop
  | none, _ => True
  | _, none => True
  | some shared, some shared => True
  | _, _ => False

variable {a b : Option Latch}

@[simp] theorem goes_none_left : Goes none b := trivial

@[simp] theorem goes_none_right : Goes a none := by cases a <;> trivial

@[simp] theorem goes_shared : Goes (some shared) (some shared) := trivial

theorem Goes.symm (h : Goes a b) : Goes b a := by
  rcases a with _ | _ | _ <;> rcases b with _ | _ | _ <;> trivial

/-- An exclusive latch goes with none. -/
theorem goes_exclusive : Goes (some exclusive) b ↔ b = none := by
  rcases b with _ | _ | _ <;> simp [Goes]

end Latch

/-- Threads `T` with the shared state `σ`, the places `Λ` and the latches `R`. -/
structure Threads (T σ Λ R : Type) where
  /-- What a thread does at its place. -/
  step : T → σ → Λ → σ → Λ → Prop
  /-- What a place holds. -/
  held : Λ → R → Option Latch

namespace Threads

variable {T σ Λ R : Type} [DecidableEq T] (S : Threads T σ Λ R)

/-- A thread at `l` is in no other thread's way. -/
def Granted (ls : T → Λ) (t : T) (l : Λ) : Prop :=
  ∀ u, u ≠ t → ∀ r, Latch.Goes (S.held l r) (S.held (ls u) r)

/-- A thread moves. -/
inductive Step : σ × (T → Λ) → σ × (T → Λ) → Prop
  | intro {s s' : σ} {ls : T → Λ} {l : Λ} (t : T) : S.step t s (ls t) s' l → S.Granted ls t l →
    Step (s, ls) (s', Function.update ls t l)

/-- No two threads are in each other's way. -/
def Exclusive (ls : T → Λ) : Prop := ∀ t u, t ≠ u → ∀ r, Latch.Goes (S.held (ls t) r) (S.held (ls u) r)

variable {S}

theorem Exclusive.move {ls : T → Λ} (h : S.Exclusive ls) {t : T} {l : Λ} (hl : S.Granted ls t l) :
    S.Exclusive (Function.update ls t l) := by
  intro u v huv r
  by_cases hu : u = t
  · subst hu
    rw [Function.update_self, Function.update_of_ne (Ne.symm huv)]
    exact hl v (Ne.symm huv) r
  · rw [Function.update_of_ne hu]
    by_cases hv : v = t
    · subst hv
      rw [Function.update_self]
      exact (hl u hu r).symm
    · rw [Function.update_of_ne hv]
      exact h u v huv r

variable {init : σ × (T → Λ) → Prop} {x : σ × (T → Λ)}

/-- Latches exclude each other in every run. -/
theorem exclusive (h0 : ∀ x, init x → S.Exclusive x.2) (h : Reaches init S.Step x) : S.Exclusive x.2 := by
  refine h.invariant (I := fun x => S.Exclusive x.2) h0 fun x y hI hstep => ?_
  cases hstep with
  | intro t hmove hgranted => exact hI.move hgranted

/-- **The rule for threads.** `G` holds of the shared state, and `L t l` of it while
the thread `t` is at `l`. -/
theorem invariant {G : σ → Prop} {L : T → Λ → σ → Prop} (hlatch : ∀ x, init x → S.Exclusive x.2)
    (h0 : ∀ x, init x → G x.1 ∧ ∀ t, L t (x.2 t) x.1)
    (own : ∀ t s l s' l', G s → L t l s → S.step t s l s' l' → G s' ∧ L t l' s')
    (other : ∀ t u s l s' l' m, t ≠ u → G s → L t l s → L u m s → S.step t s l s' l' →
      (∀ r, Latch.Goes (S.held l r) (S.held m r)) → (∀ r, Latch.Goes (S.held l' r) (S.held m r)) → L u m s')
    (h : Reaches init S.Step x) : S.Exclusive x.2 ∧ G x.1 ∧ ∀ t, L t (x.2 t) x.1 := by
  refine h.invariant (I := fun x => S.Exclusive x.2 ∧ G x.1 ∧ ∀ t, L t (x.2 t) x.1)
    (fun x hx => ⟨hlatch x hx, h0 x hx⟩) fun x y hI hstep => ?_
  obtain ⟨hex, hG, hL⟩ := hI
  cases hstep with
  | @intro s s' ls l t hmove hgranted =>
    obtain ⟨hG', hLt⟩ := own t s (ls t) s' l hG (hL t) hmove
    refine ⟨hex.move hgranted, hG', fun u => ?_⟩
    dsimp only
    by_cases hu : u = t
    · subst hu
      rw [Function.update_self]
      exact hLt
    · rw [Function.update_of_ne hu]
      exact other t u s (ls t) s' l (ls u) (Ne.symm hu) hG (hL t) (hL u) hmove
        (hex t u (Ne.symm hu)) (hgranted u hu)

end Threads
end VsqlVector
