/-
# Programs that pass a state and can fail

A `Prog ε σ α` reads and changes a state `σ` and returns an `α` or fails with
an `ε`. What it did before a failure stays done, as with a storage engine
whose steps are committed one by one and never undone. `attempt` runs a
program and hands its outcome back, for a caller that goes on after a failure.

A run that returns is taken apart with `bind_returns` and put together with
the `simp` lemmas for the primitives; `foldlM_returns`, `forM_returns`,
`forM_cases` and `mapM_returns` are the rules for loops.

Key definitions: `Prog`, `Prog.attempt`, `Prog.ofOption`.
Key theorems: `Prog.bind_returns`, `Prog.foldlM_returns`, `Prog.forM_returns`.
-/
import Mathlib.Data.List.Forall2

namespace VsqlVector

/-- A program over the state `σ`. -/
def Prog (ε σ α : Type) : Type := σ → Except ε α × σ

namespace Prog

variable {ε σ α β : Type}

instance : Monad (Prog ε σ) where
  pure a := fun s => (.ok a, s)
  bind m f := fun s =>
    match m s with
    | (.ok a, s') => f a s'
    | (.error e, s') => (.error e, s')

/-- Stop here. -/
def fail (e : ε) : Prog ε σ α := fun s => (.error e, s)

/-- The current state. -/
def get : Prog ε σ σ := fun s => (.ok s, s)

/-- Change the state. -/
def modify (f : σ → σ) : Prog ε σ Unit := fun s => (.ok (), f s)

/-- Return the value, or stop with `e` if there is none. -/
def ofOption (e : ε) : Option α → Prog ε σ α
  | some a => Pure.pure a
  | none => fail e

/-- Run `m` and return its outcome; a failure of `m` does not stop the caller. -/
def attempt (m : Prog ε σ α) : Prog ε σ (Except ε α) := fun s => (.ok (m s).1, (m s).2)

@[simp] theorem pure_apply (a : α) (s : σ) : (Pure.pure a : Prog ε σ α) s = (.ok a, s) := rfl

@[simp] theorem fail_apply (e : ε) (s : σ) : (fail e : Prog ε σ α) s = (.error e, s) := rfl

@[simp] theorem get_apply (s : σ) : (get : Prog ε σ σ) s = (.ok s, s) := rfl

@[simp] theorem modify_apply (f : σ → σ) (s : σ) :
    (modify f : Prog ε σ Unit) s = (.ok (), f s) := rfl

@[simp] theorem attempt_apply (m : Prog ε σ α) (s : σ) : attempt m s = (.ok (m s).1, (m s).2) := rfl

theorem bind_apply (m : Prog ε σ α) (f : α → Prog ε σ β) (s : σ) :
    (m >>= f) s = match m s with
      | (.ok a, s') => f a s'
      | (.error e, s') => (.error e, s') := rfl

@[simp] theorem pure_bind (a : α) (f : α → Prog ε σ β) (s : σ) : (Pure.pure a >>= f) s = f a s := rfl

@[simp] theorem get_bind (f : σ → Prog ε σ β) (s : σ) : (get >>= f) s = f s s := rfl

@[simp] theorem modify_bind (g : σ → σ) (f : Unit → Prog ε σ β) (s : σ) :
    (modify g >>= f) s = f () (g s) := rfl

/-- A sequence returns when both its parts do. -/
theorem bind_returns {m : Prog ε σ α} {f : α → Prog ε σ β} {s s'' : σ} {b : β} :
    (m >>= f) s = (.ok b, s'') ↔ ∃ a s', m s = (.ok a, s') ∧ f a s' = (.ok b, s'') := by
  rw [bind_apply]
  rcases hm : m s with ⟨e | a, s'⟩
  · simp
  · constructor
    · exact fun h => ⟨a, s', rfl, h⟩
    · rintro ⟨a', s1, h1, h2⟩
      simp only [Prod.mk.injEq, Except.ok.injEq] at h1
      obtain ⟨rfl, rfl⟩ := h1
      exact h2

/-- A sequence fails in its first part or, after that has returned, in its second. -/
theorem bind_fails {m : Prog ε σ α} {f : α → Prog ε σ β} {s s'' : σ} {e : ε} :
    (m >>= f) s = (.error e, s'') ↔
      m s = (.error e, s'') ∨ ∃ a s', m s = (.ok a, s') ∧ f a s' = (.error e, s'') := by
  rw [bind_apply]
  rcases hm : m s with ⟨e' | a, s'⟩
  · simp
  · constructor
    · exact fun h => Or.inr ⟨a, s', rfl, h⟩
    · rintro (h | ⟨a', s1, h1, h2⟩)
      · cases (Prod.mk.inj h).1
      · obtain ⟨ha, rfl⟩ := Prod.mk.inj h1
        cases ha
        exact h2

instance : LawfulMonad (Prog ε σ) := LawfulMonad.mk' _
  (fun m => by
    funext s
    show (m >>= fun a => Pure.pure (id a)) s = m s
    rw [bind_apply]
    rcases m s with ⟨_ | _, _⟩ <;> rfl)
  (fun _ _ => rfl)
  (fun m f g => by
    funext s
    simp only [bind_apply]
    rcases m s with ⟨_ | _, _⟩ <;> rfl)

/-- A run is known by its outcome and the state it leaves. -/
theorem returns_of_fst {m : Prog ε σ α} {s : σ} {a : α} (h : (m s).1 = .ok a) :
    m s = (.ok a, (m s).2) := Prod.ext h rfl

theorem map_returns {m : Prog ε σ α} {f : α → β} {s s' : σ} {b : β} :
    (f <$> m) s = (.ok b, s') ↔ ∃ a, m s = (.ok a, s') ∧ f a = b := by
  show (m >>= fun a => Pure.pure (f a)) s = _ ↔ _
  rw [bind_returns]
  constructor
  · rintro ⟨a, s1, h1, h2⟩
    simp only [pure_apply, Prod.mk.injEq, Except.ok.injEq] at h2
    exact ⟨a, h2.2 ▸ h1, h2.1⟩
  · rintro ⟨a, h1, rfl⟩
    exact ⟨a, s', h1, rfl⟩

@[simp] theorem ofOption_returns {e : ε} {o : Option α} {s s' : σ} {a : α} :
    (ofOption e o : Prog ε σ α) s = (.ok a, s') ↔ o = some a ∧ s' = s := by
  cases o with
  | none => simp [ofOption]
  | some b => simp [ofOption, eq_comm]

/-- **The loop rule.** What every turn of a loop keeps, the loop keeps: `I xs b s`
is the invariant with the elements `xs` still to come. -/
theorem foldlM_returns {γ : Type} {f : β → γ → Prog ε σ β} (I : List γ → β → σ → Prop)
    (hstep : ∀ x xs b s b' s', I (x :: xs) b s → f b x s = (.ok b', s') → I xs b' s') :
    ∀ (xs : List γ) (b : β) (s : σ) (b' : β) (s' : σ), I xs b s →
      xs.foldlM f b s = (.ok b', s') → I [] b' s'
  | [], b, s, b', s', hI, h => by
    simp only [List.foldlM_nil, pure_apply, Prod.mk.injEq, Except.ok.injEq] at h
    obtain ⟨rfl, rfl⟩ := h
    exact hI
  | x :: xs, b, s, b', s', hI, h => by
    rw [List.foldlM_cons, bind_returns] at h
    obtain ⟨b1, s1, h1, h2⟩ := h
    exact foldlM_returns I hstep xs b1 s1 b' s' (hstep x xs b s b1 s1 hI h1) h2

@[simp] theorem forM_nil_returns {γ : Type} {f : γ → Prog ε σ Unit} {s s' : σ} :
    ([] : List γ).forM f s = (.ok (), s') ↔ s' = s := by
  show (Pure.pure () : Prog ε σ Unit) s = _ ↔ _
  simp [eq_comm]

theorem forM_cons_returns {γ : Type} {f : γ → Prog ε σ Unit} {x : γ} {xs : List γ} {s s' : σ} :
    (x :: xs).forM f s = (.ok (), s') ↔ ∃ s₁, f x s = (.ok (), s₁) ∧ xs.forM f s₁ = (.ok (), s') := by
  show (f x >>= fun _ => xs.forM f) s = _ ↔ _
  rw [bind_returns]
  exact ⟨fun ⟨_, s₁, h⟩ => ⟨s₁, h⟩, fun ⟨s₁, h⟩ => ⟨(), s₁, h⟩⟩

theorem forM_append_returns {γ : Type} {f : γ → Prog ε σ Unit} : ∀ {xs ys : List γ} {s s' : σ},
    (xs ++ ys).forM f s = (.ok (), s') ↔ ∃ s₁, xs.forM f s = (.ok (), s₁) ∧ ys.forM f s₁ = (.ok (), s')
  | [], ys, s, s' => by simp
  | x :: xs, ys, s, s' => by
    simp only [List.cons_append, forM_cons_returns, forM_append_returns]
    exact ⟨fun ⟨s₁, h1, s₂, h2, h3⟩ => ⟨s₂, ⟨s₁, h1, h2⟩, h3⟩,
      fun ⟨s₂, ⟨s₁, h1, h2⟩, h3⟩ => ⟨s₁, h1, s₂, h2, h3⟩⟩

/-- The loop rule for a loop that hands nothing on. -/
theorem forM_returns {γ : Type} {f : γ → Prog ε σ Unit} (I : List γ → σ → Prop)
    (hstep : ∀ x xs s s', I (x :: xs) s → f x s = (.ok (), s') → I xs s') :
    ∀ (xs : List γ) (s s' : σ), I xs s → xs.forM f s = (.ok (), s') → I [] s'
  | [], s, s', hI, h => by rwa [forM_nil_returns.mp h]
  | x :: xs, s, s', hI, h => by
    obtain ⟨s₁, h1, h2⟩ := forM_cons_returns.mp h
    exact forM_returns I hstep xs s₁ s' (hstep x xs s s₁ hI h1) h2

/-- The loop rule for a loop that a failing turn ends: `I` is the invariant of the
turns and `E` what a failing one leaves. -/
theorem forM_cases {γ : Type} {f : γ → Prog ε σ Unit} (I : List γ → σ → Prop) (E : ε → σ → Prop)
    (hstep : ∀ x xs s, I (x :: xs) s →
      (∃ s', f x s = (.ok (), s') ∧ I xs s') ∨ ∃ e s', f x s = (.error e, s') ∧ E e s') :
    ∀ (xs : List γ) (s : σ), I xs s →
      (∃ s', xs.forM f s = (.ok (), s') ∧ I [] s') ∨ ∃ e s', xs.forM f s = (.error e, s') ∧ E e s'
  | [], s, hI => Or.inl ⟨s, forM_nil_returns.mpr rfl, hI⟩
  | x :: xs, s, hI => by
    obtain ⟨s', h, hI'⟩ | ⟨e, s', h, hE⟩ := hstep x xs s hI
    · have hrun : (x :: xs).forM f s = xs.forM f s' := by
        show (f x >>= fun _ => xs.forM f) s = _
        rw [bind_apply, h]
      rw [hrun]
      exact forM_cases I E hstep xs s' hI'
    · refine Or.inr ⟨e, s', ?_, hE⟩
      show (f x >>= fun _ => xs.forM f) s = _
      rw [bind_apply, h]

/-- The rule for a list of calls that only read. -/
theorem mapM_returns {f : α → Prog ε σ β} {s : σ} (P : α → β → Prop) :
    ∀ {xs : List α} {ys : List β} {s' : σ},
      (∀ x ∈ xs, ∀ y s', f x s = (.ok y, s') → s = s' ∧ P x y) →
      xs.mapM f s = (.ok ys, s') → s = s' ∧ List.Forall₂ P xs ys
  | [], ys, s', _, h => by
    simp only [List.mapM_nil, pure_apply, Prod.mk.injEq, Except.ok.injEq] at h
    obtain ⟨rfl, rfl⟩ := h
    exact ⟨rfl, .nil⟩
  | x :: xs, ys, s', hf, h => by
    rw [List.mapM_cons, bind_returns] at h
    obtain ⟨y, s₁, hy, h⟩ := h
    rw [bind_returns] at h
    obtain ⟨ys', s₂, hys, h⟩ := h
    simp only [pure_apply, Prod.mk.injEq, Except.ok.injEq] at h
    obtain ⟨rfl, rfl⟩ := h
    obtain ⟨rfl, hP⟩ := hf x (by simp) y s₁ hy
    obtain ⟨rfl, hPs⟩ := mapM_returns P (fun x' hx' => hf x' (List.mem_cons_of_mem _ hx')) hys
    exact ⟨rfl, .cons hP hPs⟩

/-- A list of calls that only read, each of them known. -/
theorem mapM_run {f : α → Prog ε σ β} {g : α → β} {s : σ} : ∀ {xs : List α},
    (∀ x ∈ xs, f x s = (.ok (g x), s)) → xs.mapM f s = (.ok (xs.map g), s)
  | [], _ => rfl
  | x :: xs, hf => by
    rw [List.mapM_cons, bind_apply, hf x (by simp)]
    show (xs.mapM f >>= fun ys => Pure.pure (g x :: ys)) s = _
    rw [bind_apply, mapM_run fun y hy => hf y (List.mem_cons_of_mem _ hy)]
    rfl

/-- A continuation counts only where the program before it returns. -/
theorem bind_congr {m : Prog ε σ α} {f g : α → Prog ε σ β} {s : σ}
    (h : ∀ a s', m s = (.ok a, s') → f a s' = g a s') : (m >>= f) s = (m >>= g) s := by
  rw [bind_apply, bind_apply]
  rcases hm : m s with ⟨e | a, s'⟩
  · rfl
  · exact h a s' hm

/-- Two loops whose turns agree agree: `I` is the invariant of the turns. -/
theorem foldlM_congr {γ : Type} {f g : β → γ → Prog ε σ β} (I : List γ → β → σ → Prop)
    (hstep : ∀ x xs b s, I (x :: xs) b s →
      f b x s = g b x s ∧ ∀ b' s', f b x s = (.ok b', s') → I xs b' s') :
    ∀ {xs : List γ} {b : β} {s : σ}, I xs b s → xs.foldlM f b s = xs.foldlM g b s
  | [], _, _, _ => rfl
  | x :: xs, b, s, hI => by
    obtain ⟨heq, hnext⟩ := hstep x xs b s hI
    rw [List.foldlM_cons, List.foldlM_cons, bind_apply, bind_apply, ← heq]
    rcases hrun : f b x s with ⟨e | b', s'⟩
    · rfl
    · exact foldlM_congr I hstep (hnext b' s' hrun)

end Prog
end VsqlVector
