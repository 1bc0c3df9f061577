/-
# Singly linked chains

`next i` is what the record `i` says of its successor: `none` if there is no
such record, `some none` if it is the last one. A `Trail` is the list of the
records from a head to the end; there is at most one, and it does not come back
to a record it has passed. `walk` computes it.

Key definitions: `Trail`, `Trail.walk`.
Key theorems: `Trail.nodup`, `Trail.walk_eq`, `Trail.congr`, `Trail.snoc`, `Trail.cut`.
-/
import Mathlib.Data.List.Nodup
import Mathlib.Data.Option.Basic

namespace VsqlVector

variable {ι : Type}

/-- The records from the head to the end of a chain. -/
def Trail (next : ι → Option (Option ι)) : Option ι → List ι → Prop
  | h, [] => h = none
  | h, i :: l => h = some i ∧ ∃ t, next i = some t ∧ Trail next t l

namespace Trail

variable {next next' : ι → Option (Option ι)} {h : Option ι} {i n : ι} {l l' : List ι}

/-- The records met in at most `fuel` steps from a head. -/
def walk (next : ι → Option (Option ι)) : ℕ → Option ι → List ι
  | 0, _ => []
  | _ + 1, none => []
  | fuel + 1, some i => i :: walk next fuel (next i).join

theorem unique : ∀ {h : Option ι} {l l' : List ι}, Trail next h l → Trail next h l' → l = l'
  | h, [], [], _, _ => rfl
  | h, [], i :: l', hl, hl' => by
    obtain ⟨h1, -⟩ := hl'
    rw [hl] at h1
    exact absurd h1 (by simp)
  | h, i :: l, [], hl, hl' => by
    obtain ⟨h1, -⟩ := hl
    rw [hl'] at h1
    exact absurd h1 (by simp)
  | h, i :: l, j :: l', ⟨h1, t, ht, hl⟩, ⟨h2, t', ht', hl'⟩ => by
    obtain rfl : i = j := Option.some.inj (h1.symm.trans h2)
    obtain rfl : t = t' := Option.some.inj (ht.symm.trans ht')
    rw [unique hl hl']

theorem head_eq : ∀ {h : Option ι} {l : List ι}, Trail next h l → h = l.head?
  | _, [], hl => hl
  | _, _ :: _, hl => hl.1

/-- Every record on the way is there. -/
theorem isSome : ∀ {h : Option ι} {l : List ι}, Trail next h l → ∀ i ∈ l, (next i).isSome
  | _, [], _, i, hi => by simp at hi
  | _, j :: l, ⟨_, t, ht, hl⟩, i, hi => by
    rcases List.mem_cons.mp hi with rfl | hi
    · simp [ht]
    · exact isSome hl i hi

/-- From any of its records on, a trail is a trail. -/
theorem suffix : ∀ {h : Option ι} (l₁ : List ι) {i : ι} {l₂ : List ι},
    Trail next h (l₁ ++ i :: l₂) → Trail next (some i) (i :: l₂)
  | _, [], _, _, hl => ⟨rfl, hl.2⟩
  | _, _ :: l₁, _, _, ⟨_, _, _, hl⟩ => suffix l₁ hl

/-- A trail does not come back. -/
theorem nodup : ∀ {h : Option ι} {l : List ι}, Trail next h l → l.Nodup
  | _, [], _ => List.nodup_nil
  | h, i :: l, hl => by
    refine List.nodup_cons.mpr ⟨fun hi => ?_, nodup hl.2.choose_spec.2⟩
    obtain ⟨l₁, l₂, rfl⟩ := List.append_of_mem hi
    have h1 : Trail next (some i) (i :: l₂) := suffix (i :: l₁) hl
    have h2 : Trail next (some i) (i :: (l₁ ++ i :: l₂)) := suffix [] hl
    have hlen := congrArg List.length (unique h1 h2)
    simp at hlen
    omega

/-- The last record of a trail has no successor. -/
theorem next_last : ∀ {h : Option ι} {l : List ι}, Trail next h (l ++ [i]) → next i = some none
  | _, [], ⟨_, _, ht, hl⟩ => by
    obtain rfl := hl
    exact ht
  | _, _ :: _, ⟨_, _, _, hl⟩ => next_last hl

/-- A record on a trail is followed there by its successor. -/
theorem split_next : ∀ {h : Option ι} {l : List ι}, Trail next h l → i ∈ l → next i = some (some n) →
    ∃ l₁ l₂, l = (l₁ ++ [i]) ++ n :: l₂
  | _, [], _, hi, _ => by simp at hi
  | _, j :: l, ⟨_, t, ht, hl⟩, hi, hn => by
    rcases List.mem_cons.mp hi with rfl | hi
    · obtain rfl : t = some n := Option.some.inj (ht.symm.trans hn)
      obtain ⟨l₂, rfl⟩ := List.head?_eq_some_iff.mp hl.head_eq.symm
      exact ⟨[], l₂, rfl⟩
    · obtain ⟨l₁, l₂, rfl⟩ := split_next hl hi hn
      exact ⟨j :: l₁, l₂, rfl⟩

/-- A trail depends on the records it passes only. -/
theorem congr : ∀ {h : Option ι} {l : List ι}, (∀ i ∈ l, next' i = next i) →
    Trail next h l → Trail next' h l
  | _, [], _, hl => hl
  | _, i :: l, heq, ⟨h1, t, ht, hl⟩ =>
    ⟨h1, t, (heq i (by simp)).trans ht, congr (fun j hj => heq j (by simp [hj])) hl⟩

/-- A new record linked in behind the last one. -/
theorem snoc : ∀ {h : Option ι} {l : List ι} {i : ι}, Trail next h (l ++ [i]) → n ∉ l ++ [i] →
    (∀ j ∈ l, next' j = next j) → next' i = some (some n) → next' n = some none →
    Trail next' h (l ++ [i, n])
  | _, [], i, ⟨h1, _⟩, _, _, hi, hn => ⟨h1, _, hi, rfl, _, hn, rfl⟩
  | _, j :: l, i, ⟨h1, t, ht, hl⟩, hnl, heq, hi, hn =>
    ⟨h1, t, (heq j (by simp)).trans ht,
      snoc hl (fun h' => hnl (by simpa using Or.inr (by simpa using h')))
        (fun k hk => heq k (by simp [hk])) hi hn⟩

/-- A trail cut off behind one of its records. -/
theorem cut : ∀ {h : Option ι} {l : List ι} {i : ι} {l₂ : List ι}, Trail next h (l ++ i :: l₂) →
    (∀ j ∈ l, next' j = next j) → next' i = some none → Trail next' h (l ++ [i])
  | _, [], _, _, ⟨h1, _⟩, _, hi => ⟨h1, _, hi, rfl⟩
  | _, j :: _, _, _, ⟨h1, t, ht, hl⟩, heq, hi =>
    ⟨h1, t, (heq j (by simp)).trans ht, cut hl (fun k hk => heq k (by simp [hk])) hi⟩

/-- The walk finds the trail. -/
theorem walk_eq : ∀ {h : Option ι} {l : List ι} {fuel : ℕ}, Trail next h l → l.length ≤ fuel →
    walk next fuel h = l
  | _, [], 0, _, _ => rfl
  | _, [], _ + 1, hl, _ => by
    obtain rfl := hl
    rfl
  | _, i :: l, fuel + 1, ⟨h1, t, ht, hl⟩, hlen => by
    obtain rfl := h1
    rw [walk, ht]
    show i :: walk next fuel t = i :: l
    rw [walk_eq hl (by simpa using hlen)]

end Trail
end VsqlVector
