/-
# Comparing lists from the front

A comparison with a result like `memcmp`'s goes through two lists until at one
position one element is less than the other (`lexSign`). It is a total preorder
(`TotalPreorder`) where at every position the elements are ordered like keys
from a linear order, which may be other keys at every position.

Key definitions: `lexSign`, `TotalPreorder`.
Key theorem: `lexSign_preorder`.
-/
import Mathlib.Data.List.Lex
import Mathlib.Order.Compare
import Mathlib.Tactic.Linarith

namespace VsqlVector

/-- The comparison of two lists by their first elements of which one is less. -/
def lexSign {α : Type} (lt : α → α → Bool) : List α → List α → ℤ
  | a :: as, b :: bs => if lt a b then -1 else if lt b a then 1 else lexSign lt as bs
  | _, _ => 0

/-- The comparison `cmp` orders what is in `S`: its results for the two orders of a
pair are opposite, what is not greater than what is not greater is not greater,
and equal elements compare alike with every other. -/
structure TotalPreorder {α : Type} (cmp : α → α → ℤ) (S : Set α) : Prop where
  opposite : ∀ a ∈ S, ∀ b ∈ S, (cmp b a).sign = -(cmp a b).sign
  trans : ∀ a ∈ S, ∀ b ∈ S, ∀ c ∈ S, cmp a b ≤ 0 → cmp b c ≤ 0 → cmp a c ≤ 0
  congr : ∀ a ∈ S, ∀ b ∈ S, ∀ c ∈ S, cmp a b = 0 → cmp a c = cmp b c

/-! ### Keys -/

section Keys

variable {α κ : Type} [LinearOrder κ]

/-- The comparison of two elements of a linear order. -/
def cmpSign (x y : κ) : ℤ := if x < y then -1 else if y < x then 1 else 0

theorem cmpSign_nonpos {x y : κ} : cmpSign x y ≤ 0 ↔ x ≤ y := by
  unfold cmpSign
  split
  · rename_i h
    simpa using h.le
  · split
    · rename_i h
      simpa using h
    · rename_i h
      simpa using h

theorem cmpSign_eq_zero {x y : κ} : cmpSign x y = 0 ↔ x = y := by
  unfold cmpSign
  split
  · rename_i h
    simpa using h.ne
  · split
    · rename_i h
      simpa using h.ne'
    · rename_i h1 h2
      simpa using le_antisymm (not_lt.mp h2) (not_lt.mp h1)

theorem cmpSign_comm (x y : κ) : cmpSign y x = -cmpSign x y := by
  unfold cmpSign
  rcases lt_trichotomy x y with h | rfl | h
  · rw [if_neg h.asymm, if_pos h, if_pos h]
    rfl
  · simp
  · rw [if_pos h, if_neg h.asymm, if_pos h]

/-- What compares like keys is ordered. -/
theorem TotalPreorder.of_key {cmp : α → α → ℤ} {S : Set α} (key : α → κ)
    (h : ∀ a ∈ S, ∀ b ∈ S, cmp a b = cmpSign (key a) (key b)) : TotalPreorder cmp S where
  opposite a ha b hb := by rw [h a ha b hb, h b hb a ha, cmpSign_comm, Int.sign_neg]
  trans a ha b hb c hc h1 h2 := by
    rw [h a ha b hb, cmpSign_nonpos] at h1
    rw [h b hb c hc, cmpSign_nonpos] at h2
    rw [h a ha c hc, cmpSign_nonpos]
    exact h1.trans h2
  congr a ha b hb c hc h1 := by
    rw [h a ha b hb, cmpSign_eq_zero] at h1
    rw [h a ha c hc, h b hb c hc, h1]

/-- The order of the values that a function gives is one of its arguments. -/
theorem TotalPreorder.image_iff {β : Type} {f : β → α} {cmp : α → α → ℤ} {cmp' : β → β → ℤ} {T : Set β}
    (h : ∀ a ∈ T, ∀ b ∈ T, cmp (f a) (f b) = cmp' a b) : TotalPreorder cmp (f '' T) ↔ TotalPreorder cmp' T := by
  constructor
  · intro hp
    refine ⟨fun a ha b hb => ?_, fun a ha b hb c hc h1 h2 => ?_, fun a ha b hb c hc h1 => ?_⟩
    · rw [← h a ha b hb, ← h b hb a ha]
      exact hp.opposite _ ⟨a, ha, rfl⟩ _ ⟨b, hb, rfl⟩
    · rw [← h a ha b hb] at h1
      rw [← h b hb c hc] at h2
      rw [← h a ha c hc]
      exact hp.trans _ ⟨a, ha, rfl⟩ _ ⟨b, hb, rfl⟩ _ ⟨c, hc, rfl⟩ h1 h2
    · rw [← h a ha b hb] at h1
      rw [← h a ha c hc, ← h b hb c hc]
      exact hp.congr _ ⟨a, ha, rfl⟩ _ ⟨b, hb, rfl⟩ _ ⟨c, hc, rfl⟩ h1
  · intro hp
    refine ⟨?_, ?_, ?_⟩
    · rintro _ ⟨a, ha, rfl⟩ _ ⟨b, hb, rfl⟩
      rw [h a ha b hb, h b hb a ha]
      exact hp.opposite a ha b hb
    · rintro _ ⟨a, ha, rfl⟩ _ ⟨b, hb, rfl⟩ _ ⟨c, hc, rfl⟩ h1 h2
      rw [h a ha b hb] at h1
      rw [h b hb c hc] at h2
      rw [h a ha c hc]
      exact hp.trans a ha b hb c hc h1 h2
    · rintro _ ⟨a, ha, rfl⟩ _ ⟨b, hb, rfl⟩ _ ⟨c, hc, rfl⟩ h1
      rw [h a ha b hb] at h1
      rw [h a ha c hc, h b hb c hc]
      exact hp.congr a ha b hb c hc h1

/-- The keys of a list, position by position. -/
def keys (key : ℕ → α → κ) : List α → List κ
  | [] => []
  | a :: as => key 0 a :: keys (fun i => key (i + 1)) as

theorem cmpSign_cons (x y : κ) (xs ys : List κ) :
    cmpSign (x :: xs) (y :: ys) = if x < y then -1 else if y < x then 1 else cmpSign xs ys := by
  unfold cmpSign
  rcases lt_trichotomy x y with h | rfl | h
  · simp [List.cons_lt_cons_iff, h]
  · simp only [List.cons_lt_cons_iff, lt_irrefl, false_or, true_and, if_false]
    congr
  · simp [List.cons_lt_cons_iff, h, h.asymm, h.ne']

variable {lt : α → α → Bool}

/-- Lists whose elements compare like their keys compare like the lists of keys. -/
theorem lexSign_eq_cmpSign : ∀ {key : ℕ → α → κ} {as bs : List α}, as.length = bs.length →
    (∀ i (ha : i < as.length) (hb : i < bs.length),
      (lt as[i] bs[i] = true ↔ key i as[i] < key i bs[i]) ∧ (lt bs[i] as[i] = true ↔ key i bs[i] < key i as[i])) →
    lexSign lt as bs = cmpSign (keys key as) (keys key bs)
  | _, [], [], _, _ => by simp [lexSign, keys, cmpSign]
  | key, a :: as, b :: bs, hlen, h => by
    have hrest : lexSign lt as bs = cmpSign (keys (fun i => key (i + 1)) as) (keys (fun i => key (i + 1)) bs) :=
      lexSign_eq_cmpSign (by simpa using hlen) fun i ha hb => h (i + 1) (by simpa using ha) (by simpa using hb)
    obtain ⟨h1, h2⟩ := h 0 (by simp) (by simp)
    simp only [List.getElem_cons_zero] at h1 h2
    rw [lexSign, keys, keys, cmpSign_cons, hrest]
    simp only [h1, h2]

/-- **Lists are ordered** where the elements at each position compare like keys. -/
theorem lexSign_preorder {V : ℕ → Set α} {n : ℕ} {key : ℕ → α → κ}
    (h : ∀ i < n, ∀ a ∈ V i, ∀ b ∈ V i, lt a b = true ↔ key i a < key i b) :
    TotalPreorder (lexSign lt) {as | as.length = n ∧ ∀ i (hi : i < as.length), as[i] ∈ V i} := by
  refine .of_key (keys key) fun as ha bs hb => lexSign_eq_cmpSign (ha.1.trans hb.1.symm) fun i hi hi' => ?_
  have hin : i < n := ha.1 ▸ hi
  exact ⟨h i hin _ (ha.2 i hi) _ (hb.2 i hi'), h i hin _ (hb.2 i hi') _ (ha.2 i hi)⟩

end Keys

/-! ### Replacing one element -/

/-- Lists that differ at one position compare like their elements there. -/
theorem lexSign_set {α : Type} {lt : α → α → Bool} (hirrefl : ∀ a, lt a a = false) :
    ∀ {as : List α} {i : ℕ} {x y : α}, i < as.length →
      lexSign lt (as.set i x) (as.set i y) = if lt x y then -1 else if lt y x then 1 else 0
  | a :: as, 0, x, y, _ => by
    have hself : ∀ bs : List α, lexSign lt bs bs = 0 := by
      intro bs
      induction bs with
      | nil => rfl
      | cons b bs ih => simp [lexSign, hirrefl, ih]
    simp [lexSign, hself]
  | a :: as, i + 1, x, y, hi => by
    simp only [List.set_cons_succ, lexSign, hirrefl, Bool.false_eq_true, if_false]
    exact lexSign_set hirrefl (by simpa using hi)

end VsqlVector
