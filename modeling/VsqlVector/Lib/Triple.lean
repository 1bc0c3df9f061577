/-
# Programs that may fail, with what they leave

`Triple P m Q E`: from a state with `P` the program `m` returns a value and a
state with `Q` or fails in a state with `E`. A program that goes step by step and
never undoes a step is described by what holds after a failure as much as by what
holds after a success; where the two are one invariant it is `Keeps`.

Key definitions: `Prog.Triple`, `Prog.Keeps`.
Key theorems: `Triple.bind`, `Triple.foldlM`, `Triple.forM`, `Triple.mapM`, `Keeps.bind`, `Keeps.foldlM`.
-/
import VsqlVector.Lib.Prog

namespace VsqlVector
namespace Prog

variable {ε σ α β γ : Type} {P P' : σ → Prop} {Q Q' : α → σ → Prop} {R : β → σ → Prop} {E E' : σ → Prop}

/-- From `P` the program returns into `Q` or fails into `E`. -/
def Triple (P : σ → Prop) (m : Prog ε σ α) (Q : α → σ → Prop) (E : σ → Prop) : Prop :=
  ∀ s, P s → (∀ a s', m s = (.ok a, s') → Q a s') ∧ ∀ e s', m s = (.error e, s') → E s'

/-- Whether it returns or fails, the program keeps `I`, and what it returns has `Q`. -/
abbrev Keeps (I : σ → Prop) (m : Prog ε σ α) (Q : α → Prop) : Prop := Triple I m (fun a s => I s ∧ Q a) I

namespace Triple

theorem pure {a : α} (h : ∀ s, P s → Q a s) : Triple P (Pure.pure a : Prog ε σ α) Q E := by
  refine fun s hs => ⟨fun b s' hrun => ?_, fun e s' hrun => by cases (Prod.mk.inj hrun).1⟩
  obtain ⟨hb, rfl⟩ := Prod.mk.inj hrun
  cases hb
  exact h s hs

theorem fail {e : ε} (h : ∀ s, P s → E s) : Triple P (fail e : Prog ε σ α) Q E := by
  refine fun s hs => ⟨fun a s' hrun => ?_, fun e' s' hrun => ?_⟩
  · cases (Prod.mk.inj hrun).1
  · obtain ⟨-, rfl⟩ := Prod.mk.inj hrun
    exact h s hs

theorem get : Triple P (Prog.get : Prog ε σ σ) (fun a s => a = s ∧ P s) E := by
  refine fun s hs => ⟨fun a s' hrun => ?_, fun e s' hrun => by cases (Prod.mk.inj hrun).1⟩
  obtain ⟨ha, rfl⟩ := Prod.mk.inj hrun
  cases ha
  exact ⟨rfl, hs⟩

theorem modify {f : σ → σ} {Q : Unit → σ → Prop} (h : ∀ s, P s → Q () (f s)) :
    Triple P (Prog.modify f : Prog ε σ Unit) Q E := by
  refine fun s hs => ⟨fun a s' hrun => ?_, fun e s' hrun => by cases (Prod.mk.inj hrun).1⟩
  obtain ⟨-, rfl⟩ := Prod.mk.inj hrun
  exact h s hs

theorem ofOption {e : ε} {o : Option α} (h : ∀ a, o = some a → ∀ s, P s → Q a s) (hE : ∀ s, P s → E s) :
    Triple P (Prog.ofOption e o) Q E := by
  cases o with
  | none => exact fail hE
  | some a => exact pure (h a rfl)

theorem bind {m : Prog ε σ α} {f : α → Prog ε σ β} (hm : Triple P m Q E) (hf : ∀ a, Triple (Q a) (f a) R E) :
    Triple P (m >>= f) R E := by
  refine fun s hs => ⟨fun b s' hrun => ?_, fun e s' hrun => ?_⟩
  · obtain ⟨a, s₁, h1, h2⟩ := bind_returns.mp hrun
    exact (hf a s₁ ((hm s hs).1 a s₁ h1)).1 b s' h2
  · rcases bind_fails.mp hrun with h1 | ⟨a, s₁, h1, h2⟩
    · exact (hm s hs).2 e s' h1
    · exact (hf a s₁ ((hm s hs).1 a s₁ h1)).2 e s' h2

theorem conseq {m : Prog ε σ α} (hm : Triple P m Q E) (hP : ∀ s, P' s → P s) (hQ : ∀ a s, Q a s → Q' a s)
    (hE : ∀ s, E s → E' s) : Triple P' m Q' E' := fun s hs =>
  ⟨fun a s' hrun => hQ a s' ((hm s (hP s hs)).1 a s' hrun), fun e s' hrun => hE s' ((hm s (hP s hs)).2 e s' hrun)⟩

/-- The state a program leaves, where both outcomes have `R`. -/
theorem state {R : σ → Prop} {m : Prog ε σ α} (hm : Triple P m (fun _ => R) R) {s : σ} (hs : P s) : R (m s).2 := by
  rcases hrun : m s with ⟨e | a, s'⟩
  · exact (hm s hs).2 e s' hrun
  · exact (hm s hs).1 a s' hrun

/-- The outcome is handed on; a failure is one of them. -/
theorem attempt {m : Prog ε σ α} (hm : Triple P m Q E) {S : Except ε α → σ → Prop}
    (hok : ∀ a s, Q a s → S (.ok a) s) (herr : ∀ e s, E s → S (.error e) s) : Triple P (Prog.attempt m) S E' := by
  refine fun s hs => ⟨fun x s' hrun => ?_, fun e s' hrun => by cases (Prod.mk.inj hrun).1⟩
  obtain ⟨hx, rfl⟩ := Prod.mk.inj hrun
  cases hx
  rcases hrun' : m s with ⟨e | a, s'⟩
  · exact herr e s' ((hm s hs).2 e s' hrun')
  · exact hok a s' ((hm s hs).1 a s' hrun')

/-- A program about the states with some `t`. -/
theorem exists_pre {P : γ → σ → Prop} {m : Prog ε σ α} (h : ∀ t, Triple (P t) m Q E) :
    Triple (fun s => ∃ t, P t s) m Q E := fun s ⟨t, hs⟩ => h t s hs

/-- What is known of no state. -/
theorem of_prop {φ : Prop} {m : Prog ε σ α} (h : φ → Triple P m Q E) : Triple (fun s => P s ∧ φ) m Q E :=
  fun s ⟨hs, hφ⟩ => h hφ s hs

/-- The rule for a loop: `I b` is the invariant with the accumulator `b`. -/
theorem foldlM {I : β → σ → Prop} {f : β → γ → Prog ε σ β} :
    ∀ {xs : List γ} {b : β}, (∀ b, ∀ x ∈ xs, Triple (I b) (f b x) I E) → Triple (I b) (xs.foldlM f b) I E
  | [], b, _ => pure fun _ hs => hs
  | x :: xs, b, h => by
    rw [List.foldlM_cons]
    exact bind (h b x List.mem_cons_self) fun b' => foldlM fun b y hy => h b y (List.mem_cons_of_mem _ hy)

/-- A loop over the indexes below `n`; `I i b` is the invariant before turn `i`. -/
theorem foldlM_range {I : ℕ → β → σ → Prop} {f : β → ℕ → Prog ε σ β} {n : ℕ}
    (h : ∀ i < n, ∀ b, Triple (I i b) (f b i) (I (i + 1)) E) (b : β) :
    Triple (I 0 b) ((List.range n).foldlM f b) (I n) E := by
  have hrest : ∀ (m k : ℕ) (b : β), k + m = n → Triple (I k b) ((List.range' k m).foldlM f b) (I n) E := by
    intro m
    induction m with
    | zero =>
      rintro k b rfl
      exact pure fun _ hs => hs
    | succ m ih =>
      intro k b hk
      rw [List.range'_succ, List.foldlM_cons]
      exact bind (h k (by omega) b) fun b' => ih (k + 1) b' (by omega)
  rw [List.range_eq_range']
  exact hrest n 0 b (Nat.zero_add n)

theorem forM {I : σ → Prop} {f : γ → Prog ε σ Unit} :
    ∀ {xs : List γ}, (∀ x ∈ xs, Triple I (f x) (fun _ => I) E) → Triple I (xs.forM f) (fun _ => I) E
  | [], _ => pure fun _ hs => hs
  | x :: _, h => bind (h x List.mem_cons_self) fun _ => forM fun y hy => h y (List.mem_cons_of_mem _ hy)

theorem forM_eq_foldlM {f : γ → Prog ε σ Unit} : ∀ xs : List γ, xs.forM f = xs.foldlM (fun _ x => f x) ()
  | [] => rfl
  | x :: xs => by
    rw [List.foldlM_cons]
    show (f x >>= fun _ => xs.forM f) = _
    rw [forM_eq_foldlM xs]

theorem forM_range {I : ℕ → σ → Prop} {f : ℕ → Prog ε σ Unit} {n : ℕ}
    (h : ∀ i < n, Triple (I i) (f i) (fun _ => I (i + 1)) E) : Triple (I 0) ((List.range n).forM f) (fun _ => I n) E := by
  rw [forM_eq_foldlM]
  exact foldlM_range (I := fun i _ => I i) (fun i hi _ => h i hi) ()

theorem forM_append {f : γ → Prog ε σ Unit} {xs ys : List γ} {Q R : Unit → σ → Prop}
    (hxs : Triple P (xs.forM f) Q E) (hys : Triple (Q ()) (ys.forM f) R E) : Triple P ((xs ++ ys).forM f) R E := by
  have hsplit : (xs ++ ys).forM f = xs.forM f >>= fun _ => ys.forM f := List.forM_append
  rw [hsplit]
  exact hxs.bind fun _ => hys

theorem mapM {I : σ → Prop} {T : β → Prop} {f : γ → Prog ε σ β} :
    ∀ {xs : List γ}, (∀ x ∈ xs, Triple I (f x) (fun y s => I s ∧ T y) E) →
      Triple I (xs.mapM f) (fun ys s => I s ∧ ∀ y ∈ ys, T y) E
  | [], _ => pure fun _ hs => ⟨hs, by simp⟩
  | x :: _, h => by
    rw [List.mapM_cons]
    refine bind (h x List.mem_cons_self) fun y => of_prop fun hy => ?_
    refine bind (mapM fun z hz => h z (List.mem_cons_of_mem _ hz)) fun ys => of_prop fun hys => ?_
    exact pure fun s hs => ⟨hs, List.forall_mem_cons.mpr ⟨hy, hys⟩⟩

end Triple

/-! ### Programs that keep an invariant -/

namespace Keeps

variable {I : σ → Prop} {A : α → Prop} {B : β → Prop}

theorem pure {a : α} (h : A a) : Keeps I (Pure.pure a : Prog ε σ α) A := Triple.pure fun _ hs => ⟨hs, h⟩

theorem fail {e : ε} : Keeps I (fail e : Prog ε σ α) A := Triple.fail fun _ hs => hs

theorem bind {m : Prog ε σ α} {f : α → Prog ε σ β} (hm : Keeps I m A) (hf : ∀ a, A a → Keeps I (f a) B) :
    Keeps I (m >>= f) B :=
  Triple.bind hm fun a => Triple.of_prop (hf a)

theorem mono {A' : α → Prop} {m : Prog ε σ α} (hm : Keeps I m A) (h : ∀ a, A a → A' a) : Keeps I m A' :=
  Triple.conseq hm (fun _ hs => hs) (fun a _ hs => ⟨hs.1, h a hs.2⟩) fun _ hs => hs

theorem attempt {m : Prog ε σ α} (hm : Keeps I m A) : Keeps I (Prog.attempt m) fun x => ∀ a, x = .ok a → A a :=
  Triple.attempt hm (fun _ _ hs => ⟨hs.1, fun _ he => Except.ok.inj he ▸ hs.2⟩) fun _ _ hs => ⟨hs, fun _ he => by cases he⟩

/-- The rule for a loop. -/
theorem foldlM {f : β → γ → Prog ε σ β} :
    ∀ {xs : List γ} {b : β}, (∀ b, ∀ x ∈ xs, B b → Keeps I (f b x) B) → B b → Keeps I (xs.foldlM f b) B
  | [], _, _, hb => pure hb
  | x :: xs, b, h, hb => by
    rw [List.foldlM_cons]
    exact bind (h b x List.mem_cons_self hb) fun b' hb' => foldlM (fun b y hy => h b y (List.mem_cons_of_mem _ hy)) hb'

theorem forM {f : γ → Prog ε σ Unit} {xs : List γ} (h : ∀ x ∈ xs, Keeps I (f x) fun _ => True) :
    Keeps I (xs.forM f) fun _ => True :=
  (Triple.forM fun x hx => (h x hx).conseq (fun _ hs => hs) (fun _ _ hs => hs.1) fun _ hs => hs).conseq
    (fun _ hs => hs) (fun _ _ hs => ⟨hs, trivial⟩) fun _ hs => hs

end Keeps

end Prog
end VsqlVector
