/-
# Doubly linked lists

Cells of any type are linked through two partial functions, `prev` and
`next`. `Linked prev next p h l` says that the list entered at `h` runs
through the cells `l` and ends, that each cell's `prev` is the cell before
it, and that the first cell's is `p`. Such a list cannot run in a circle
(`Linked.nodup`). The rules say what a list becomes when a cell is put in
front or taken out, and that it does not change where its own cells do not.

Key definition: `Linked`.
Key theorems: `Linked.nodup`, `Linked.congr`, `Linked.push`, `Linked.remove`.
-/
import Mathlib.Data.List.Nodup
import Mathlib.Data.List.Basic
import Mathlib.Logic.Relation

namespace VsqlVector

/-- The list entered at the head `h` runs through the cells of the last
argument; the cell before it is `p`. -/
def Linked {κ : Type} (prev next : κ → Option κ) : Option κ → Option κ → List κ → Prop
  | _, h, [] => h = none
  | p, h, a :: l => h = some a ∧ prev a = p ∧ Linked prev next (some a) (next a) l

namespace Linked

variable {κ : Type} {prev next prev' next' : κ → Option κ}

theorem head_eq : ∀ {p h : Option κ} {l : List κ}, Linked prev next p h l → h = l.head?
  | _, _, [], hl => hl
  | _, _, _ :: _, hl => hl.1

/-- The head decides the cells. -/
theorem unique : ∀ {p p' h : Option κ} {l l' : List κ},
    Linked prev next p h l → Linked prev next p' h l' → l = l'
  | _, _, _, [], [], _, _ => rfl
  | _, _, _, [], _ :: _, h1, h2 => by simp [show _ = none from h1] at h2; exact absurd h2.1 (by simp)
  | _, _, _, _ :: _, [], h1, h2 => by rw [show _ = none from h2] at h1; exact absurd h1.1 (by simp)
  | _, _, _, a :: l, b :: l', h1, h2 => by
    obtain rfl : a = b := by have := h1.1.symm.trans h2.1; simpa using this
    rw [unique h1.2.2 h2.2.2]

/-- From every cell on the rest is linked. -/
theorem suffix : ∀ {p h : Option κ} {l₁ l₂ : List κ} {a : κ},
    Linked prev next p h (l₁ ++ a :: l₂) → ∃ q, Linked prev next q (some a) (a :: l₂)
  | p, h, [], l₂, a, hl => ⟨p, by rw [List.nil_append] at hl; rw [← hl.1]; exact hl⟩
  | _, _, _ :: _, _, _, hl => suffix hl.2.2

/-- A cell points on to the next one. -/
theorem next_eq : ∀ {p h : Option κ} {l₁ l₂ : List κ} {a : κ},
    Linked prev next p h (l₁ ++ a :: l₂) → next a = l₂.head?
  | _, _, [], _, _, hl => head_eq hl.2.2
  | _, _, _ :: _, _, _, hl => next_eq hl.2.2

/-- A cell points back to the one before it, the first one to `p`. -/
theorem prev_eq : ∀ {p h : Option κ} {l₁ l₂ : List κ} {a : κ},
    Linked prev next p h (l₁ ++ a :: l₂) → prev a = l₁.getLast?.or p
  | _, _, [], _, _, hl => by simpa using hl.2.1
  | _, _, b :: l₁, _, _, hl => by
    have ih := prev_eq hl.2.2
    rw [ih]
    cases l₁ with
    | nil => simp
    | cons c l₁ => rw [List.getLast?_cons_cons]; simp [List.getLast?_cons]

/-- The cells are those reached from the head through `next`. -/
theorem mem_iff : ∀ {p : Option κ} {a : κ} {l : List κ} {b : κ}, Linked prev next p (some a) l →
    (b ∈ l ↔ Relation.ReflTransGen (fun c d => next c = some d) a b)
  | _, _, [], _, hl => absurd hl (by simp [Linked])
  | _, a, c :: l, b, hl => by
    obtain rfl : a = c := by simpa using hl.1
    have htail := hl.2.2
    rcases hn : next a with _ | d
    · obtain rfl : l = [] := by
        have := head_eq htail
        rw [hn] at this
        exact List.head?_eq_none_iff.mp this.symm
      simp only [List.mem_singleton]
      constructor
      · rintro rfl; exact .refl
      · intro h
        rcases Relation.ReflTransGen.cases_head h with h | ⟨d, hd, -⟩
        · exact h.symm
        · exact absurd (hn.symm.trans hd) (by simp)
    · rw [hn] at htail
      rw [List.mem_cons, mem_iff htail]
      constructor
      · rintro (rfl | h)
        · exact .refl
        · exact .head hn h
      · intro h
        rcases Relation.ReflTransGen.cases_head h with h | ⟨e, he, h⟩
        · exact Or.inl h.symm
        · obtain rfl : d = e := by simpa using hn.symm.trans he
          exact Or.inr h

/-- A linked list does not run in a circle. -/
theorem nodup : ∀ {p h : Option κ} {l : List κ}, Linked prev next p h l → l.Nodup
  | _, _, [], _ => List.nodup_nil
  | _, _, a :: l, hl => by
    refine List.nodup_cons.mpr ⟨fun ha => ?_, nodup hl.2.2⟩
    -- a second `a` would start the same list again, one shorter
    obtain ⟨l₁, l₂, rfl⟩ := List.append_of_mem ha
    obtain ⟨q, hq⟩ := suffix hl.2.2
    have := unique hq.2.2 hl.2.2
    have hlen := congrArg List.length this
    simp only [List.length_append, List.length_cons] at hlen
    omega

/-- A list whose own cells keep their links is unchanged. -/
theorem congr : ∀ {p h : Option κ} {l : List κ}, (∀ a ∈ l, prev' a = prev a) →
    (∀ a ∈ l, next' a = next a) → Linked prev next p h l → Linked prev' next' p h l
  | _, _, [], _, _, hl => hl
  | _, _, a :: l, hp, hn, hl => by
    refine ⟨hl.1, (hp a List.mem_cons_self).trans hl.2.1, ?_⟩
    rw [hn a List.mem_cons_self]
    exact congr (fun b hb => hp b (List.mem_cons_of_mem _ hb))
      (fun b hb => hn b (List.mem_cons_of_mem _ hb)) hl.2.2

/-- The list after the cell before it changes: only the first `prev` differs. -/
theorem reenter {p q h : Option κ} : ∀ {l : List κ}, (∀ a ∈ l.head?, prev' a = q) →
    (∀ a ∈ l.tail, prev' a = prev a) → (∀ a ∈ l, next' a = next a) →
    Linked prev next p h l → Linked prev' next' q h l
  | [], _, _, _, hl => hl
  | a :: l, hq, hp, hn, hl => by
    refine ⟨hl.1, hq a (by simp), ?_⟩
    rw [hn a List.mem_cons_self]
    exact congr hp (fun b hb => hn b (List.mem_cons_of_mem _ hb)) hl.2.2

/-- A cell put in front: it takes over the entry, and the old head points
back to it. -/
theorem push {p h : Option κ} {l : List κ} {a : κ} (hl : Linked prev next p h l)
    (hpa : prev' a = p) (hna : next' a = h) (hhead : ∀ b ∈ l.head?, prev' b = some a)
    (hprev : ∀ b ∈ l.tail, prev' b = prev b) (hnext : ∀ b ∈ l, next' b = next b) :
    Linked prev' next' p (some a) (a :: l) := by
  refine ⟨rfl, hpa, ?_⟩
  rw [hna]
  exact reenter hhead hprev hnext hl

/-- A cell taken out, wherever it stands: its successor points back to its
predecessor, and its predecessor (or the entry) on to its successor. -/
theorem remove {a : κ} : ∀ {p h h' : Option κ} {l₁ l₂ : List κ},
    Linked prev next p h (l₁ ++ a :: l₂) →
    (l₁ = [] → h' = next a) → (l₁ ≠ [] → h' = h) →
    (∀ b ∈ l₁.getLast?, next' b = next a) → (∀ b ∈ l₁.dropLast, next' b = next b) →
    (∀ b ∈ l₁, prev' b = prev b) → (∀ b ∈ l₂, next' b = next b) →
    (∀ b ∈ l₂.head?, prev' b = prev a) → (∀ b ∈ l₂.tail, prev' b = prev b) →
    Linked prev' next' p h' (l₁ ++ l₂)
  | p, h, h', [], l₂, hl, h0, _, _, _, _, hn2, hh2, ht2 => by
    rw [List.nil_append] at hl ⊢
    rw [h0 rfl]
    exact reenter (fun b hb => (hh2 b hb).trans hl.2.1) ht2 hn2 hl.2.2
  | p, h, h', b :: l₁, l₂, hl, _, h1, hlast, hn1, hp1, hn2, hh2, ht2 => by
    rw [List.cons_append] at hl ⊢
    refine ⟨(h1 (by simp)).trans hl.1, (hp1 b List.mem_cons_self).trans hl.2.1, ?_⟩
    cases l₁ with
    | nil =>
      have hb : next' b = next a := hlast b (by simp)
      rw [List.nil_append] at hl ⊢
      rw [hb]
      exact reenter (fun c hc => (hh2 c hc).trans hl.2.2.2.1) ht2 hn2 hl.2.2.2.2
    | cons c l₁ =>
      have hb : next' b = next b := hn1 b (by simp)
      exact remove hl.2.2 (by simp) (fun _ => hb) (fun d hd => hlast d (by simpa using hd))
        (fun d hd => hn1 d (by simp only [List.dropLast_cons_cons, List.mem_cons]; exact Or.inr hd))
        (fun d hd => hp1 d (List.mem_cons_of_mem _ hd)) hn2 hh2 ht2

end Linked
end VsqlVector
