/-
# Towers of records

A vector has one record a level from its top level down to level 0, each naming
the one below. What a tower is depends on the records' `Bone`s only, so linking
does not change it. A program that runs at one level leaves the others alone
(`AtLevel`).

Key definitions: `GraphState.bone`, `tower`, `IsTower`, `AtLevel`.
Key theorems: `atLevel_spec`, `tower_eq`, `IsTower.congr`.
-/
import VsqlVector.Index.Repair

namespace VsqlVector
namespace Hnsw

open LevelStore LevelProg

/-! ### Running at one level -/

namespace GraphState

/-- What a program at level `l` reads and writes. -/
def view (g : GraphState) (l : ℕ) : LevelState := ⟨g.level l, g.toSupply⟩

/-- The records in use at a level. -/
def live (g : GraphState) (l : ℕ) : Set ℕ := {a | (g.level l).Live a}

def bone (g : GraphState) (l a : ℕ) : Option Bone := (g.level l).bone a

theorem mem_live_iff {g : GraphState} {l a : ℕ} : a ∈ g.live l ↔ (g.bone l a).isSome := by
  simp [live, bone, Live, LevelStore.bone]

end GraphState

/-- `g'` is `g` with the records `s'` at level `l`. -/
structure AtLevel (l : ℕ) (g g' : GraphState) (s' : LevelState) : Prop where
  here : g'.level l = s'.toLevelStore
  other : ∀ k, k ≠ l → g'.level k = g.level k
  supply : g'.toSupply = s'.toSupply
  entryPoint : g'.entryPoint = g.entryPoint
  entryLevel : g'.entryLevel = g.entryLevel

/-- The two entry fields are as they were. -/
def SameEntry (s s' : GraphState) : Prop :=
  s'.entryPoint = s.entryPoint ∧ s'.entryLevel = s.entryLevel

theorem SameEntry.trans {s s' s'' : GraphState} (h : SameEntry s s') (h' : SameEntry s' s'') : SameEntry s s'' :=
  ⟨h'.1.trans h.1, h'.2.trans h.2⟩

theorem AtLevel.sameEntry {l : ℕ} {s s' : GraphState} {t : LevelState} (h : AtLevel l s s' t) : SameEntry s s' :=
  ⟨h.entryPoint, h.entryLevel⟩

namespace GraphProg

variable {α : Type} {l : ℕ} {p : LevelProg α} {g g' : GraphState} {a : α}

theorem atLevel_spec (h : atLevel l p g = (.ok a, g')) :
    ∃ s', p (g.view l) = (.ok a, s') ∧ AtLevel l g g' s' := by
  rw [atLevel] at h
  rcases hs : g.levels[l]? with _ | store
  · simp [hs] at h
  · have hview : g.view l = ⟨store, g.toSupply⟩ := by simp [GraphState.view, GraphState.level, hs]
    rw [hview]
    rcases hp : p ⟨store, g.toSupply⟩ with ⟨r, s'⟩
    simp only [hs, hp, Prod.mk.injEq] at h
    obtain ⟨rfl, rfl⟩ := h
    have hlt : l < g.levels.length := (List.getElem?_eq_some_iff.mp hs).1
    refine ⟨s', rfl, ?_, fun k hk => ?_, rfl, rfl, rfl⟩
    · simp [GraphState.level, hlt]
    · simp [GraphState.level, Ne.symm hk]

/-- A program that only reads leaves the graph. -/
theorem atLevel_read (h : atLevel l p g = (.ok a, g'))
    (hread : ∀ s', p (g.view l) = (.ok a, s') → g.view l = s') :
    g = g' ∧ p (g.view l) = (.ok a, g.view l) := by
  rw [atLevel] at h
  rcases hs : g.levels[l]? with _ | store
  · simp [hs] at h
  · have hview : g.view l = ⟨store, g.toSupply⟩ := by simp [GraphState.view, GraphState.level, hs]
    rw [hview] at hread ⊢
    rcases hp : p ⟨store, g.toSupply⟩ with ⟨r, s'⟩
    simp only [hs, hp, Prod.mk.injEq] at h
    obtain ⟨rfl, rfl⟩ := h
    obtain rfl := hread s' hp
    refine ⟨?_, rfl⟩
    have : g.levels.set l store = g.levels := by
      obtain ⟨hlt, rfl⟩ := List.getElem?_eq_some_iff.mp hs
      exact List.set_getElem_self hlt
    simp [this]

end GraphProg

/-! ### Towers -/

variable {B B' : ℕ → ℕ → Option Bone} {vid trx L a : ℕ}

/-- The record at level `k` of the tower with the record `a` at level `l`. -/
def tower (B : ℕ → ℕ → Option Bone) : ℕ → ℕ → ℕ → ℕ
  | 0, a, _ => a
  | l + 1, a, k =>
    if k = l + 1 then a
    else tower B l ((((B (l + 1) a).bind Bone.lowerLevel).map NID.ref).getD 0) k

@[simp] theorem tower_top (B : ℕ → ℕ → Option Bone) (L a : ℕ) : tower B L a L = a := by
  cases L <;> simp [tower]

/-- The record `a` at level `L` is the top of a tower of the vector `vid`, whose
records were last stamped by `trx`. -/
def IsTower (B : ℕ → ℕ → Option Bone) (vid trx L a : ℕ) : Prop :=
  ∀ k ≤ L, ∃ b, B k (tower B L a k) = some b ∧ b.owner = vid ∧ b.trxRef = trx ∧
    (0 < k → b.lowerLevel = some ⟨tower B L a (k - 1), false⟩)

/-- A tower is found by going down. -/
theorem tower_eq : ∀ {L a : ℕ} {X : ℕ → ℕ}, X L = a →
    (∀ k, 0 < k → k ≤ L → (B k (X k)).bind Bone.lowerLevel = some ⟨X (k - 1), false⟩) →
    ∀ k ≤ L, tower B L a k = X k
  | 0, a, X, hX, _, k, hk => by
    obtain rfl : k = 0 := by omega
    rw [tower, hX]
  | L + 1, a, X, hX, hlow, k, hk => by
    rw [tower]
    split
    · rename_i h
      rw [h, hX]
    · have h1 := hlow (L + 1) (by omega) (le_refl _)
      rw [hX] at h1
      rw [h1]
      exact tower_eq (X := X) rfl (fun k h1 h2 => hlow k h1 (by omega)) k (by omega)

theorem IsTower.lower (h : IsTower B vid trx L a) {k : ℕ} (h0 : 0 < k) (hk : k ≤ L) :
    (B k (tower B L a k)).bind Bone.lowerLevel = some ⟨tower B L a (k - 1), false⟩ := by
  obtain ⟨b, hb, -, -, hlow⟩ := h k hk
  rw [hb]
  exact hlow h0

/-- A tower depends on its own records only. -/
theorem IsTower.tower_congr (h : IsTower B vid trx L a)
    (hB : ∀ k ≤ L, (B' k (tower B L a k)).bind Bone.lowerLevel =
      (B k (tower B L a k)).bind Bone.lowerLevel) :
    ∀ k ≤ L, tower B' L a k = tower B L a k :=
  tower_eq (tower_top B L a) fun k h0 hk => (hB k hk).trans (h.lower h0 hk)

theorem IsTower.congr (h : IsTower B vid trx L a)
    (hB : ∀ k ≤ L, B' k (tower B L a k) = B k (tower B L a k)) : IsTower B' vid trx L a := by
  have ht : ∀ k ≤ L, tower B' L a k = tower B L a k := h.tower_congr fun k hk => by rw [hB k hk]
  intro k hk
  rw [ht k hk, hB k hk]
  obtain ⟨b, hb, h1, h2, h3⟩ := h k hk
  refine ⟨b, hb, h1, h2, fun h0 => ?_⟩
  rw [ht (k - 1) (by omega)]
  exact h3 h0

/-- A tower given level by level. -/
theorem isTower_of_refs {X : ℕ → ℕ} (hX : X L = a)
    (hB : ∀ k ≤ L, ∃ b, B k (X k) = some b ∧ b.owner = vid ∧ b.trxRef = trx ∧
      (0 < k → b.lowerLevel = some ⟨X (k - 1), false⟩)) :
    IsTower B vid trx L a ∧ ∀ k ≤ L, tower B L a k = X k := by
  have ht : ∀ k ≤ L, tower B L a k = X k := tower_eq hX fun k h0 hk => by
    obtain ⟨b, hb, -, -, hlow⟩ := hB k hk
    rw [hb]
    exact hlow h0
  refine ⟨fun k hk => ?_, ht⟩
  rw [ht k hk]
  obtain ⟨b, hb, h1, h2, h3⟩ := hB k hk
  exact ⟨b, hb, h1, h2, fun h0 => by rw [ht (k - 1) (by omega)]; exact h3 h0⟩

end Hnsw
end VsqlVector
