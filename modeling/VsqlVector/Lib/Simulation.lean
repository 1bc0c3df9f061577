/-
# One program computing another

A program with its own working storage does what one without it says: run side by
side they return together, or fail with the same error. `Computes` relates two such
runs by what they return and the states they leave, and composes along sequences
and steps that only one of the two takes.

Key definition: `Prog.Computes`.
Key theorems: `Prog.Computes.bind`, `Prog.Computes.step`, `Prog.Computes.right`, `Prog.Computes.foldlM_range`,
`Prog.Computes.returns`, `Prog.Computes.fails`.
-/
import VsqlVector.Lib.Triple

namespace VsqlVector
namespace Prog

variable {ε σ τ α β α' β' : Type}

/-- From `s` and `t` the programs `p` and `m` return together, with `post` of their
values and states, or fail with the same error, with `broken` of their states. -/
def Computes (broken : σ → τ → Prop) (post : α → β → σ → τ → Prop) (p : Prog ε σ α) (m : Prog ε τ β) (s : σ) (t : τ) :
    Prop :=
  match p s, m t with
  | (.ok a, s'), (.ok b, t') => post a b s' t'
  | (.error e, s'), (.error e', t') => e = e' ∧ broken s' t'
  | _, _ => False

namespace Computes

variable {broken : σ → τ → Prop} {post : α → β → σ → τ → Prop} {post' : α' → β' → σ → τ → Prop}
  {p : Prog ε σ α} {m : Prog ε τ β} {s : σ} {t : τ}

theorem pure {a : α} {b : β} (h : post a b s t) :
    Computes broken post (Pure.pure a : Prog ε σ α) (Pure.pure b) s t := h

theorem fail {e : ε} (h : broken s t) : Computes broken post (Prog.fail e) (Prog.fail e) s t := ⟨rfl, h⟩

theorem bind {f : α → Prog ε σ α'} {g : β → Prog ε τ β'} (h : Computes broken post p m s t)
    (hnext : ∀ a b s' t', post a b s' t' → Computes broken post' (f a) (g b) s' t') :
    Computes broken post' (p >>= f) (m >>= g) s t := by
  rw [Computes, bind_apply, bind_apply]
  rw [Computes] at h
  rcases hp : p s with ⟨e | a, s'⟩ <;> rcases hm : m t with ⟨e' | b, t'⟩ <;> rw [hp, hm] at h
  · exact h
  · exact h.elim
  · exact h.elim
  · exact hnext a b s' t' h

/-- A step that changes only the working storage. -/
theorem step {f : τ → τ} {g : Unit → Prog ε τ β} (h : Computes broken post p (g ()) s (f t)) :
    Computes broken post p (modify f >>= g) s t := h

/-- A look at the working storage. -/
theorem look {g : τ → Prog ε τ β} (h : Computes broken post p (g t) s t) :
    Computes broken post p (get >>= g) s t := h

/-- Only the runs from the two states count. -/
theorem of_eq {p' : Prog ε σ α} {m' : Prog ε τ β} (h : Computes broken post p m s t) (hp : p' s = p s)
    (hm : m' t = m t) : Computes broken post p' m' s t := by
  rw [Computes, hp, hm]
  exact h

theorem conseq {broken' : σ → τ → Prop} {post'' : α → β → σ → τ → Prop} (h : Computes broken post p m s t)
    (hbroken : ∀ s t, broken s t → broken' s t) (hpost : ∀ a b s t, post a b s t → post'' a b s t) :
    Computes broken' post'' p m s t := by
  rw [Computes] at h ⊢
  rcases hp : p s with ⟨e | a, s'⟩ <;> rcases hm : m t with ⟨e' | b, t'⟩ <;> rw [hp, hm] at h
  · exact ⟨h.1, hbroken s' t' h.2⟩
  · exact h
  · exact h
  · exact hpost a b s' t' h

/-- A part of the right program alone, which does not fail. -/
theorem right {γ : Type} {n : Prog ε τ γ} {g : γ → Prog ε τ β} {I : τ → Prop} {Q : γ → τ → Prop}
    (hn : Triple I n Q fun _ => False) (hI : I t)
    (h : ∀ c t', Q c t' → Computes broken post p (g c) s t') : Computes broken post p (n >>= g) s t := by
  rw [Computes, bind_apply]
  rcases hrun : n t with ⟨e | c, t'⟩
  · exact ((hn t hI).2 e t' hrun).elim
  · exact h c t' ((hn t hI).1 c t' hrun)

/-- A loop over a list against one over its indexes; `I i` relates them before turn `i`. -/
theorem foldlM_range {γ : Type} {xs : List γ} {f : α → γ → Prog ε σ α} {g : β → ℕ → Prog ε τ β}
    {I : ℕ → α → β → σ → τ → Prop} (h : ∀ i x, xs[i]? = some x → ∀ a b s t, I i a b s t →
      Computes broken (I (i + 1)) (f a x) (g b i) s t) {a : α} {b : β} (h0 : I 0 a b s t) :
    Computes broken (I xs.length) (xs.foldlM f a) ((List.range xs.length).foldlM g b) s t := by
  have hrest : ∀ (ys : List γ) (k : ℕ) (a : α) (b : β) (s : σ) (t : τ), (∀ j, ys[j]? = xs[k + j]?) →
      k + ys.length = xs.length → I k a b s t →
      Computes broken (I xs.length) (ys.foldlM f a) ((List.range' k ys.length).foldlM g b) s t := by
    intro ys
    induction ys with
    | nil =>
      intro k a b s t _ hk hI
      rw [List.length_nil, Nat.add_zero] at hk
      exact pure (hk ▸ hI)
    | cons y ys ih =>
      intro k a b s t hys hk hI
      rw [List.length_cons] at hk
      rw [List.length_cons, List.range'_succ, List.foldlM_cons, List.foldlM_cons]
      refine bind (h k y (hys 0).symm a b s t hI) fun a' b' s' t' hI' => ?_
      refine ih (k + 1) a' b' s' t' (fun j => ?_) (by omega) hI'
      rw [Nat.add_assoc, Nat.add_comm 1, ← hys (j + 1), List.getElem?_cons_succ]
  rw [List.range_eq_range']
  exact hrest xs 0 a b s t (fun j => by rw [Nat.zero_add]) (Nat.zero_add _) h0

theorem forM_range {γ : Type} {xs : List γ} {f : γ → Prog ε σ Unit} {g : ℕ → Prog ε τ Unit} {I : ℕ → σ → τ → Prop}
    (h : ∀ i x, xs[i]? = some x → ∀ s t, I i s t → Computes broken (fun _ _ => I (i + 1)) (f x) (g i) s t)
    (h0 : I 0 s t) : Computes broken (fun _ _ => I xs.length) (xs.forM f) ((List.range xs.length).forM g) s t := by
  rw [Triple.forM_eq_foldlM, Triple.forM_eq_foldlM]
  exact foldlM_range (I := fun i _ _ => I i) (fun i x hx _ _ s t => h i x hx s t) h0

theorem returns {b : β} {t' : τ} (h : Computes broken post p m s t) (hm : m t = (.ok b, t')) :
    ∃ a s', p s = (.ok a, s') ∧ post a b s' t' := by
  rw [Computes, hm] at h
  rcases hp : p s with ⟨e | a, s'⟩ <;> rw [hp] at h
  · exact h.elim
  · exact ⟨a, s', rfl, h⟩

theorem fails {e : ε} {t' : τ} (h : Computes broken post p m s t) (hm : m t = (.error e, t')) :
    ∃ s', p s = (.error e, s') ∧ broken s' t' := by
  rw [Computes, hm] at h
  rcases hp : p s with ⟨e' | a, s'⟩ <;> rw [hp] at h
  · exact ⟨s', by rw [h.1], h.2⟩
  · exact h.elim

theorem returns_of {a : α} {s' : σ} (h : Computes broken post p m s t) (hp : p s = (.ok a, s')) :
    ∃ b t', m t = (.ok b, t') ∧ post a b s' t' := by
  rw [Computes, hp] at h
  rcases hm : m t with ⟨e | b, t'⟩ <;> rw [hm] at h
  · exact h.elim
  · exact ⟨b, t', rfl, h⟩

end Computes
end Prog
end VsqlVector
