/-
# Priority queues

A priority queue hands back an element no other one in it comes after. Which of
several it hands back, and how it keeps them, is left open: a `PriorityQueue`
is any implementation with these laws, and what is proved with the laws holds
for all of them. The order law asks for a strict weak order, as the standard
library's heaps do; with another comparison a queue still neither loses nor
invents elements.

Key definitions: `PriorityQueue`, `PriorityQueue.drain`, `PriorityQueue.ofList`.
Key theorems: `PriorityQueue.drain_perm`, `PriorityQueue.drain_pairwise`.
-/
import Mathlib.Data.List.Perm.Basic
import Mathlib.Order.Defs.Unbundled
import Mathlib.Order.Lattice

namespace VsqlVector

/-- A priority queue of `α`: `lt a b` says that `b` leaves the queue before `a`. -/
structure PriorityQueue (α : Type) (lt : α → α → Bool) where
  Carrier : Type
  empty : Carrier
  toList : Carrier → List α
  push : α → Carrier → Carrier
  pop : Carrier → Option (α × Carrier)
  toList_empty : toList empty = []
  toList_push : ∀ a q, (toList (push a q)).Perm (a :: toList q)
  toList_pop_none : ∀ q, pop q = none → toList q = []
  toList_pop : ∀ q a r, pop q = some (a, r) → (toList q).Perm (a :: toList r)
  pop_top : IsStrictWeakOrder α (fun a b => lt a b = true) →
    ∀ q a r, pop q = some (a, r) → ∀ b ∈ toList r, lt a b = false

namespace PriorityQueue

variable {α : Type} {lt : α → α → Bool}

/-- The element that leaves next. -/
def top (Q : PriorityQueue α lt) (q : Q.Carrier) : Option α := (Q.pop q).map Prod.fst

def size (Q : PriorityQueue α lt) (q : Q.Carrier) : ℕ := (Q.toList q).length

def drainN (Q : PriorityQueue α lt) : ℕ → Q.Carrier → List α
  | 0, _ => []
  | n + 1, q => match Q.pop q with
    | none => []
    | some (a, r) => a :: drainN Q n r

/-- The elements in the order in which they leave. -/
def drain (Q : PriorityQueue α lt) (q : Q.Carrier) : List α := Q.drainN (Q.size q) q

theorem drainN_perm (Q : PriorityQueue α lt) :
    ∀ (n : ℕ) (q : Q.Carrier), Q.size q = n → (Q.drainN n q).Perm (Q.toList q)
  | 0, q, h => by
    have : Q.toList q = [] := List.eq_nil_of_length_eq_zero h
    simp [drainN, this]
  | n + 1, q, h => by
    rcases hp : Q.pop q with _ | ⟨a, r⟩
    · simp [size, Q.toList_pop_none q hp] at h
    · have hperm := Q.toList_pop q a r hp
      have hr : Q.size r = n := by
        have := hperm.length_eq
        simp only [size, List.length_cons] at h this ⊢
        omega
      rw [drainN, hp]
      exact ((drainN_perm Q n r hr).cons a).trans hperm.symm

/-- Draining a queue gives back what was in it. -/
theorem drain_perm (Q : PriorityQueue α lt) (q : Q.Carrier) : (Q.drain q).Perm (Q.toList q) :=
  drainN_perm Q _ q rfl

/-- A comparison by values in a linear order is a strict weak order. -/
theorem strictWeakOrder {β : Type} [LinearOrder β] {f : α → β} (h : ∀ a b, lt a b = true ↔ f a < f b) :
    IsStrictWeakOrder α fun a b => lt a b = true where
  irrefl a ha := lt_irrefl _ ((h a a).mp ha)
  trans a b c h1 h2 := (h a c).mpr (((h a b).mp h1).trans ((h b c).mp h2))
  incomp_trans a b c h1 h2 := by
    simp only [h, not_lt] at h1 h2 ⊢
    exact ⟨h2.1.trans h1.1, h1.2.trans h2.2⟩

/-- A queue for a finer order is one for the coarser order too. -/
def refine {fine : α → α → Bool} (Q : PriorityQueue α fine)
    (hfine : IsStrictWeakOrder α fun a b => fine a b = true) (h : ∀ a b, lt a b = true → fine a b = true) :
    PriorityQueue α lt where
  Carrier := Q.Carrier
  empty := Q.empty
  toList := Q.toList
  push := Q.push
  pop := Q.pop
  toList_empty := Q.toList_empty
  toList_push := Q.toList_push
  toList_pop_none := Q.toList_pop_none
  toList_pop := Q.toList_pop
  pop_top _ q a r hp b hb := by
    have := Q.pop_top hfine q a r hp b hb
    by_contra hne
    rw [h a b (by simpa using hne)] at this
    exact absurd this (by simp)

section Order

variable (Q : PriorityQueue α lt) (hlt : IsStrictWeakOrder α fun a b => lt a b = true)

include hlt

theorem drainN_pairwise : ∀ (n : ℕ) (q : Q.Carrier), Q.size q = n →
    (Q.drainN n q).Pairwise fun a b => lt a b = false
  | 0, _, _ => List.Pairwise.nil
  | n + 1, q, h => by
    rcases hp : Q.pop q with _ | ⟨a, r⟩
    · simp [size, Q.toList_pop_none q hp] at h
    · have hr : Q.size r = n := by
        have := (Q.toList_pop q a r hp).length_eq
        simp only [size, List.length_cons] at h this ⊢
        omega
      rw [drainN, hp]
      exact List.pairwise_cons.mpr ⟨fun b hb => Q.pop_top hlt q a r hp b ((Q.drainN_perm n r hr).mem_iff.mp hb),
        drainN_pairwise n r hr⟩

/-- A queue is drained in order. -/
theorem drain_pairwise (q : Q.Carrier) : (Q.drain q).Pairwise fun a b => lt a b = false :=
  Q.drainN_pairwise hlt _ q rfl

/-- The top of a queue is in it, and comes after nothing. -/
theorem top_spec {q : Q.Carrier} {t : α} (h : Q.top q = some t) :
    t ∈ Q.toList q ∧ ∀ b ∈ Q.toList q, lt t b = false := by
  obtain ⟨⟨t, r⟩, hp, rfl⟩ := Option.map_eq_some_iff.mp h
  have hperm := Q.toList_pop q t r hp
  refine ⟨hperm.mem_iff.mpr (by simp), fun b hb => ?_⟩
  rcases List.mem_cons.mp (hperm.mem_iff.mp hb) with rfl | hb
  · simpa using hlt.irrefl b
  · exact Q.pop_top hlt q t r hp b hb

end Order

theorem top_none (Q : PriorityQueue α lt) {q : Q.Carrier} (h : Q.top q = none) : Q.toList q = [] :=
  Q.toList_pop_none q (Option.map_eq_none_iff.mp h)

/-! ### A queue kept as a list -/

/-- The first element of `a :: l` that none of those after it comes before. -/
def best (lt : α → α → Bool) (a : α) (l : List α) : α :=
  l.foldl (fun m b => if lt m b then b else m) a

theorem best_mem (lt : α → α → Bool) : ∀ (l : List α) (a : α), best lt a l ∈ a :: l
  | [], a => by simp [best]
  | b :: l, a => by
    have h := best_mem lt l (if lt a b then b else a)
    simp only [best, List.foldl_cons] at h ⊢
    rcases List.mem_cons.mp h with h | h
    · rw [h]
      split <;> simp
    · simp [h]

/-- Nothing comes after the best element. -/
theorem best_top (hlt : IsStrictWeakOrder α (fun a b => lt a b = true)) :
    ∀ (l : List α) (a : α), ∀ b ∈ a :: l, lt (best lt a l) b = false
  | [], a => by
    intro b hb
    rw [List.mem_singleton.mp hb]
    simpa [best] using hlt.irrefl a
  | c :: l, a => by
    have ih := best_top hlt l (if lt a c then c else a)
    have hm : lt (best lt a (c :: l)) (if lt a c then c else a) = false := ih _ (by simp)
    intro b hb
    rcases List.mem_cons.mp hb with rfl | hb
    · by_cases hbc : lt b c = true
      · by_contra hne
        rw [if_pos hbc] at hm
        have := hlt.trans _ _ _ (by simpa using hne) hbc
        rw [this] at hm
        exact absurd hm (by simp)
      · simpa [hbc] using hm
    · rcases List.mem_cons.mp hb with rfl | hb
      · by_cases hab : lt a b = true
        · simpa [hab] using hm
        · -- `a` is kept although `b` is there: neither comes before the other.
          by_contra hne
          rw [if_neg hab] at hm
          by_cases hba : lt b a = true
          · have := hlt.trans _ _ _ (by simpa using hne) hba
            rw [this] at hm
            exact absurd hm (by simp)
          · have htop : ¬ lt (best lt a (b :: l)) a = true := by simp [hm]
            by_cases hat : lt a (best lt a (b :: l)) = true
            · have := hlt.trans _ _ _ hat (by simpa using hne)
              exact hab this
            · have := (hlt.incomp_trans _ _ _ ⟨htop, hat⟩ ⟨hab, hba⟩).1
              exact this (by simpa using hne)
      · exact ih b (by simp [hb])

variable [DecidableEq α]

def popList (lt : α → α → Bool) : List α → Option (α × List α)
  | [] => none
  | a :: l => some (best lt a l, (a :: l).erase (best lt a l))

/-- A priority queue kept as a plain list. -/
def ofList (lt : α → α → Bool) : PriorityQueue α lt where
  Carrier := List α
  empty := []
  toList := id
  push := List.cons
  pop := popList lt
  toList_empty := rfl
  toList_push _ _ := List.Perm.refl _
  toList_pop_none q h := by cases q with
    | nil => rfl
    | cons a l => simp [popList] at h
  toList_pop q a r h := by
    cases q with
    | nil => simp [popList] at h
    | cons b l =>
      simp only [popList, Option.some.injEq, Prod.mk.injEq] at h
      obtain ⟨rfl, rfl⟩ := h
      exact List.perm_cons_erase (best_mem lt l b)
  pop_top hlt q a r h := by
    cases q with
    | nil => simp [popList] at h
    | cons b l =>
      simp only [popList, Option.some.injEq, Prod.mk.injEq] at h
      obtain ⟨rfl, rfl⟩ := h
      exact fun c hc => best_top hlt l b c (List.mem_of_mem_erase hc)

end PriorityQueue
end VsqlVector
