/-
# Arrays of slots

A record keeps its entries in a fixed number of slots, each empty or taken. A
write names the slots it changes. What counts is what the taken slots hold
(`List.reduceOption`) and how often, not where.

Key definitions: `writeSlots`, `padSlots`.
Key theorems: `reduceOption_set_some`, `reduceOption_set_none`, `writeSlots_collect`.
-/
import Mathlib.Data.List.ReduceOption
import Mathlib.Data.List.Perm.Basic

namespace VsqlVector

variable {α : Type}

/-- Write each value to its slot. -/
def writeSlots (ws : List (ℕ × Option α)) (xs : List (Option α)) : List (Option α) :=
  ws.foldl (fun acc w => acc.set w.1 w.2) xs

/-- The slots of a new record: the given ones, then empty slots up to `n`. -/
def padSlots (n : ℕ) (xs : List (Option α)) : List (Option α) :=
  xs.take n ++ List.replicate (n - xs.length) none

@[simp] theorem writeSlots_nil (xs : List (Option α)) : writeSlots [] xs = xs := rfl

@[simp] theorem writeSlots_cons (w : ℕ × Option α) (ws : List (ℕ × Option α))
    (xs : List (Option α)) : writeSlots (w :: ws) xs = writeSlots ws (xs.set w.1 w.2) := rfl

@[simp] theorem length_writeSlots : ∀ (ws : List (ℕ × Option α)) (xs : List (Option α)),
    (writeSlots ws xs).length = xs.length
  | [], _ => rfl
  | w :: ws, xs => by rw [writeSlots_cons, length_writeSlots ws, List.length_set]

@[simp] theorem length_padSlots (n : ℕ) (xs : List (Option α)) : (padSlots n xs).length = n := by
  simp only [padSlots, List.length_append, List.length_take, List.length_replicate]
  omega

theorem mem_writeSlots {o : Option α} : ∀ {ws : List (ℕ × Option α)} {xs : List (Option α)},
    o ∈ writeSlots ws xs → o ∈ xs ∨ ∃ w ∈ ws, w.2 = o
  | [], _, h => .inl h
  | w :: ws, xs, h => by
    rw [writeSlots_cons] at h
    rcases mem_writeSlots h with h | ⟨y, hy, rfl⟩
    · rcases List.mem_or_eq_of_mem_set h with h | rfl
      · exact .inl h
      · exact .inr ⟨w, List.mem_cons_self, rfl⟩
    · exact .inr ⟨y, List.mem_cons_of_mem _ hy, rfl⟩

theorem reduceOption_replicate_none (n : ℕ) :
    (List.replicate n (none : Option α)).reduceOption = [] := by
  induction n with
  | zero => rfl
  | succ n ih => rw [List.replicate_succ, List.reduceOption_cons_of_none, ih]

/-- Padding adds nothing. -/
theorem reduceOption_padSlots {n : ℕ} {xs : List (Option α)} (h : xs.length ≤ n) :
    (padSlots n xs).reduceOption = xs.reduceOption := by
  rw [padSlots, List.reduceOption_append, reduceOption_replicate_none, List.append_nil,
    List.take_of_length_le h]

theorem reduceOption_map_some (xs : List α) : (xs.map some).reduceOption = xs := by
  simp [List.reduceOption, List.filterMap_map]

/-- A slot that holds `o`, and what stands before and after it. -/
theorem exists_split {xs : List (Option α)} {i : ℕ} {o : Option α} (h : xs[i]? = some o) :
    ∃ l₁ l₂, xs = l₁ ++ o :: l₂ ∧ l₁.length = i ∧ ∀ v, xs.set i v = l₁ ++ v :: l₂ := by
  obtain ⟨hi, ho⟩ := List.getElem?_eq_some_iff.mp h
  refine ⟨xs.take i, xs.drop (i + 1), ?_, by simp; omega, fun v => ?_⟩
  · rw [← ho, List.getElem_cons_drop hi, List.take_append_drop]
  · rw [List.set_eq_take_append_cons_drop, if_pos hi]

/-- A value written to an empty slot is added. -/
theorem reduceOption_set_some {xs : List (Option α)} {i : ℕ} (h : xs[i]? = some none) (v : α) :
    (xs.set i (some v)).reduceOption.Perm (v :: xs.reduceOption) := by
  obtain ⟨l₁, l₂, hxs, -, hset⟩ := exists_split h
  rw [hset, hxs]
  simp only [List.reduceOption_append, List.reduceOption_cons_of_some,
    List.reduceOption_cons_of_none]
  exact List.perm_middle

/-- A taken slot that is cleared loses its value. -/
theorem reduceOption_set_none {xs : List (Option α)} {i : ℕ} {v : α} (h : xs[i]? = some (some v)) :
    xs.reduceOption.Perm (v :: (xs.set i none).reduceOption) := by
  obtain ⟨l₁, l₂, hxs, -, hset⟩ := exists_split h
  rw [hset]
  conv_lhs => rw [hxs]
  simp only [List.reduceOption_append, List.reduceOption_cons_of_some,
    List.reduceOption_cons_of_none]
  exact List.perm_middle

/-- The slots a walk over an array finds empty, taken or with some property are
slots of the array. -/
theorem getElem?_of_findIdx? {xs : List (Option α)} {p : Option α → Bool} {i : ℕ}
    (h : xs.findIdx? p = some i) : ∃ o, xs[i]? = some o ∧ p o = true := by
  obtain ⟨hi, hp, -⟩ := List.findIdx?_eq_some_iff_getElem.mp h
  exact ⟨xs[i], List.getElem?_eq_getElem hi, hp⟩

theorem writeSlots_collect_aux (f : Option α → Option (Option α)) :
    ∀ (xs pre : List (Option α)),
      writeSlots ((xs.zipIdx pre.length).filterMap fun w => (f w.1).map fun v => (w.2, v))
        (pre ++ xs) = pre ++ xs.map fun o => (f o).getD o
  | [], pre => by simp
  | o :: xs, pre => by
    have hlen : pre.length + 1 = (pre ++ [(f o).getD o]).length := by simp
    have ih := writeSlots_collect_aux f xs (pre ++ [(f o).getD o])
    rw [← hlen, List.append_assoc, List.singleton_append] at ih
    rw [List.zipIdx_cons, List.filterMap_cons]
    rcases hf : f o with _ | v
    · simpa [hf] using ih
    · simp only [Option.map_some, writeSlots_cons, List.map_cons, hf, Option.getD_some] at ih ⊢
      rw [List.set_append_right _ _ (Nat.le_refl _)]
      simpa using ih

/-- Writing back, slot by slot, what `f` gives for the slots it changes. -/
theorem writeSlots_collect (f : Option α → Option (Option α)) (xs : List (Option α)) :
    writeSlots (xs.zipIdx.filterMap fun w => (f w.1).map fun v => (w.2, v)) xs =
      xs.map fun o => (f o).getD o := by
  simpa using writeSlots_collect_aux f xs []

/-- The values a walk over the taken slots collects. -/
theorem collect_snd {β : Type} (g : α → β) : ∀ (xs : List (Option α)) (k : ℕ),
    ((xs.zipIdx k).filterMap fun w => w.1.map fun n => (w.2, g n)).map Prod.snd =
      xs.reduceOption.map g
  | [], _ => rfl
  | none :: xs, k => by
    rw [List.zipIdx_cons, List.filterMap_cons, List.reduceOption_cons_of_none]
    exact collect_snd g xs (k + 1)
  | some a :: xs, k => by
    rw [List.zipIdx_cons, List.filterMap_cons, List.reduceOption_cons_of_some]
    simp [collect_snd g xs (k + 1)]

/-- The taken slots and what they hold. -/
def takenSlots (xs : List (Option α)) : List (ℕ × α) :=
  xs.zipIdx.filterMap fun w => w.1.map fun n => (w.2, n)

theorem takenSlots_snd (xs : List (Option α)) : (takenSlots xs).map Prod.snd = xs.reduceOption :=
  (collect_snd id xs 0).trans (List.map_id _)

/-- Clearing the taken slots with a property leaves what does not have it. -/
theorem reduceOption_clear (p : α → Bool) (xs : List (Option α)) :
    (writeSlots (((takenSlots xs).filter fun l => p l.2).map fun l => (l.1, none)) xs).reduceOption =
      xs.reduceOption.filter fun n => !p n := by
  have hws : ((takenSlots xs).filter fun l => p l.2).map (fun l => (l.1, (none : Option α))) =
      xs.zipIdx.filterMap fun w =>
        (w.1.bind fun n => if p n then some none else none).map fun v => (w.2, v) := by
    rw [takenSlots, List.filter_filterMap, List.map_filterMap]
    refine List.filterMap_congr fun w _ => ?_
    rcases w with ⟨_ | n, i⟩
    · rfl
    · rcases h : p n with _ | _ <;> simp [h]
  rw [hws, writeSlots_collect fun o => o.bind fun n => if p n then some none else none]
  unfold List.reduceOption
  rw [List.filterMap_map, List.filter_filterMap]
  refine List.filterMap_congr fun o _ => ?_
  rcases o with _ | n
  · rfl
  · rcases h : p n with _ | _ <;> simp [h, Option.filter]

end VsqlVector
