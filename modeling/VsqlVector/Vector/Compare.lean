/-
# Comparing vectors

`svector_compare` (`src/vector.cc`) is what sorting, grouping and `DISTINCT` on a
vector column go by. It goes through two vectors until an element of one is less
than the other's. A NaN is neither less nor greater than a number, so the loop
passes over it as if the two were equal: between two numbers that differ, the
comparison is then no order any more.

Text can be read as a NaN. For which vectors the comparison is a total preorder
depends on what occurs at each position: no position may have a NaN together with
two numbers that differ (`svector_compare_preorder_iff`).

Key definitions: `Binary32.less`, `svectorCompare`, `Produced`.
Key theorem: `svector_compare_preorder_iff`.
-/
import VsqlVector.Vector.Text
import VsqlVector.Lib.Lexicographic

namespace VsqlVector

open Bytes

/-! ### Floats of 32 bits -/

namespace Binary32

def exponent (b : BitVec 32) : ℕ := b.toNat / 2 ^ 23 % 2 ^ 8

def significand (b : BitVec 32) : ℕ := b.toNat % 2 ^ 23

def isNaN (b : BitVec 32) : Bool := exponent b = 255 ∧ significand b ≠ 0

/-- The absolute value in multiples of the least positive float; an infinity is
greater than every number. -/
def magnitude (b : BitVec 32) : ℕ :=
  if exponent b = 0 then significand b else (2 ^ 23 + significand b) * 2 ^ (exponent b - 1)

def value (b : BitVec 32) : ℤ := if b.msb then -(magnitude b : ℤ) else magnitude b

/-- `<`, which is false where one side is a NaN. -/
def less (a b : BitVec 32) : Bool := !isNaN a && !isNaN b && decide (value a < value b)

theorem less_irrefl (a : BitVec 32) : less a a = false := by simp [less]

theorem less_iff {a b : BitVec 32} (ha : isNaN a = false) (hb : isNaN b = false) :
    less a b = true ↔ value a < value b := by simp [less, ha, hb]

theorem less_nan_left {a b : BitVec 32} (ha : isNaN a = true) : less a b = false := by simp [less, ha]

theorem less_nan_right {a b : BitVec 32} (hb : isNaN b = true) : less a b = false := by simp [less, hb]

end Binary32

open Binary32

/-! ### `svector_compare` -/

/-- The loop over the components. -/
def compareFloats : ℕ → Text → Text → ℤ
  | 0, _, _ => 0
  | n + 1, l, r =>
    if less (float4get l) (float4get r) then -1
    else if less (float4get r) (float4get l) then 1
    else compareFloats n (l.drop 4) (r.drop 4)

/-- `svector_compare`; values that are too short are equal. -/
def svectorCompare (dimension : ℕ) (va vb : Text) : ℤ :=
  let expected := storageRefSize + dimension * 4
  if va.length < expected ∨ vb.length < expected then 0
  else compareFloats dimension (va.drop storageRefSize) (vb.drop storageRefSize)

/-! ### The values there are -/

/-- Some string is a float in range with the bits `v`. -/
def FloatSyntax.Reads (F : FloatSyntax) (v : BitVec 32) : Prop := ∃ t, F.read t = some (v, false)

/-- A value `svector_from_string` makes of a text: the buffer up to the length it sets. -/
def Produced (F : FloatSyntax) (d : ℕ) (x : Text) : Prop :=
  ∃ source s s', svectorFromString F source s = (.ok (), s') ∧ s'.dimension = some (d : ℤ) ∧
    s'.length = some x.length ∧ x = s'.buffer.take x.length

/-- Component `i` of a value. -/
def component (x : Text) (i : ℕ) : BitVec 32 := float4get (chunk 4 x (2 + i))

/-- The value with the elements `vs`. -/
def vectorValue (vs : List (BitVec 32)) : Text := List.replicate storageRefSize 0 ++ vs.flatMap float4store

section Values

variable {F : FloatSyntax} {d : ℕ} {x : Text} {us vs : List (BitVec 32)}

theorem storedVector_nil (vs : List (BitVec 32)) : storedVector vs [] = vectorValue vs := by
  simp [storedVector, vectorValue]

theorem length_vectorValue (vs : List (BitVec 32)) : (vectorValue vs).length = storageRefSize + 4 * vs.length := by
  rw [vectorValue, List.length_append, List.length_replicate, length_floats]

/-- A stored vector begins with its value. -/
theorem take_storedVector (vs : List (BitVec 32)) (buffer : Text) :
    (storedVector vs buffer).take (storageRefSize + 4 * vs.length) = vectorValue vs := by
  rw [storedVector, ← length_vectorValue vs]
  exact List.take_left

theorem component_vectorValue {i : ℕ} (hi : i < vs.length) : component (vectorValue vs) i = vs[i] := by
  rw [component, ← storedVector_nil, float4get_storedVector hi]

theorem Elements.reads {text : Text} (h : Elements F text vs) : ∀ v ∈ vs, F.Reads v := by
  induction h with
  | one he =>
    obtain ⟨-, t, -, -, -, -, ht⟩ := he
    simpa using ⟨t, ht⟩
  | cons he _ ih =>
    obtain ⟨-, t, -, -, -, -, ht⟩ := he
    exact List.forall_mem_cons.mpr ⟨⟨t, ht⟩, ih⟩

/-- Floats that can be read can be written one after the other. -/
theorem exists_elements : ∀ {vs : List (BitVec 32)}, vs ≠ [] → (∀ v ∈ vs, F.Reads v) → ∃ text, Elements F text vs
  | [], hne, _ => absurd rfl hne
  | v :: vs, _, h => by
    obtain ⟨⟨t, ht⟩, hvs⟩ := List.forall_mem_cons.mp h
    have helem : IsElement F t v :=
      ⟨[], t, [], by simp, fun _ h => absurd h List.not_mem_nil, fun _ h => absurd h List.not_mem_nil, ht⟩
    cases vs with
    | nil => exact ⟨t, .one helem⟩
    | cons w ws =>
      obtain ⟨rest, hrest⟩ := exists_elements (List.cons_ne_nil w ws) hvs
      exact ⟨_, .cons helem hrest⟩

/-- The values of dimension `d` are those with `d` floats that can be read. -/
theorem produced_iff (h1 : 1 ≤ d) (hmax : d ≤ maxVectorDimension) :
    Produced F d x ↔ ∃ vs, vs.length = d ∧ (∀ v ∈ vs, F.Reads v) ∧ vectorValue vs = x := by
  constructor
  · rintro ⟨⟨text, behind⟩, s, s', hrun, hdim, hlen, hx⟩
    obtain ⟨vs, hvs, -, hok⟩ | ⟨-, e, buffer, hfail⟩ := svectorFromString_cases F text behind s
    · obtain ⟨_, _, _, _, _, _, helems⟩ := hvs
      rw [hok, Prod.mk.injEq] at hrun
      obtain ⟨-, rfl⟩ := hrun
      simp only [Option.some.injEq, Nat.cast_inj] at hdim hlen
      refine ⟨vs, hdim, helems.reads, ?_⟩
      rw [hx, ← hlen]
      exact (take_storedVector vs s.buffer).symm
    · rw [hfail] at hrun
      cases (Prod.mk.inj hrun).1
  · rintro ⟨vs, rfl, hread, rfl⟩
    obtain ⟨inner, helems⟩ := exists_elements (List.length_pos_iff.mp h1) hread
    have hvs : IsVector F (openBracket :: inner ++ [closeBracket]) vs :=
      ⟨[], inner, [], by simp, fun _ h => absurd h List.not_mem_nil, fun _ h => absurd h List.not_mem_nil, helems⟩
    set s : VectorOut := ⟨List.replicate (storageRefSize + 4 * vs.length) 0, none, none⟩ with hs
    have hfits : Fits s vs.length := by
      refine ⟨?_, fun _ hd => by cases hd⟩
      rw [maxSupportable, hs, List.length_replicate]
      omega
    obtain ⟨us, hus, -, hok⟩ | ⟨hno, -⟩ :=
      svectorFromString_cases F (openBracket :: inner ++ [closeBracket]) [] s
    · rw [hus.unique hvs] at hok
      refine ⟨_, s, _, hok, rfl, ?_, ?_⟩
      · rw [length_vectorValue]
      · rw [length_vectorValue, take_storedVector]
    · exact absurd hfits (hno vs hvs)

/-- The loop goes through the components. -/
theorem compareFloats_floats : ∀ {us vs : List (BitVec 32)}, us.length = vs.length →
    compareFloats us.length (us.flatMap float4store) (vs.flatMap float4store) = lexSign less us vs
  | [], [], _ => rfl
  | u :: us, v :: vs, h => by
    have hget (w : BitVec 32) (rest : Text) : float4get (float4store w ++ rest) = w := float4get_float4store w
    have hdrop (w : BitVec 32) (rest : Text) : (float4store w ++ rest).drop 4 = rest := rfl
    rw [List.length_cons, compareFloats, lexSign, List.flatMap_cons, List.flatMap_cons, hget, hget, hdrop, hdrop,
      compareFloats_floats (Nat.succ.inj h)]

theorem svectorCompare_vectorValue (hu : us.length = d) (hv : vs.length = d) :
    svectorCompare d (vectorValue us) (vectorValue vs) = lexSign less us vs := by
  have hdrop (ws : List (BitVec 32)) : (vectorValue ws).drop storageRefSize = ws.flatMap float4store := rfl
  have hlong : ¬ ((vectorValue us).length < storageRefSize + d * 4 ∨ (vectorValue vs).length < storageRefSize + d * 4) := by
    rw [length_vectorValue, length_vectorValue]
    omega
  rw [svectorCompare, if_neg hlong, hdrop, hdrop, ← hu, compareFloats_floats (hu.trans hv.symm)]

end Values

/-! ### Where the comparison is an order -/

section Order

variable {F : FloatSyntax} {d : ℕ} {V : ℕ → Set (BitVec 32)}

/-- A NaN together with two numbers that differ. -/
def Mixed (V : Set (BitVec 32)) : Prop := ∃ u ∈ V, ∃ v ∈ V, ∃ w ∈ V, isNaN u = true ∧ less v w = true

/-- The values whose components come from the sets `V`. -/
def ValuesOf (F : FloatSyntax) (d : ℕ) (V : ℕ → Set (BitVec 32)) : Set Text :=
  {x | Produced F d x ∧ ∀ i < d, component x i ∈ V i}

theorem valuesOf_eq (h1 : 1 ≤ d) (hmax : d ≤ maxVectorDimension) (hV : ∀ i < d, ∀ v ∈ V i, F.Reads v) :
    ValuesOf F d V = vectorValue '' {vs | vs.length = d ∧ ∀ i (hi : i < vs.length), vs[i] ∈ V i} := by
  ext x
  constructor
  · rintro ⟨hx, hcomp⟩
    obtain ⟨vs, rfl, -, rfl⟩ := (produced_iff h1 hmax).mp hx
    exact ⟨vs, ⟨rfl, fun i hi => component_vectorValue hi ▸ hcomp i hi⟩, rfl⟩
  · rintro ⟨vs, ⟨rfl, hvs⟩, rfl⟩
    refine ⟨(produced_iff h1 hmax).mpr ⟨vs, rfl, fun v hv => ?_, rfl⟩, fun i hi => ?_⟩
    · obtain ⟨i, hi, rfl⟩ := List.mem_iff_getElem.mp hv
      exact hV i hi _ (hvs i hi)
    · rw [component_vectorValue hi]
      exact hvs i hi

open Classical in
/-- Where nothing is mixed the elements are ordered like keys: all alike where there
is a NaN, else like the numbers they are. -/
theorem exists_key {V : Set (BitVec 32)} (h : ¬ Mixed V) :
    ∃ key : BitVec 32 → ℤ, ∀ a ∈ V, ∀ b ∈ V, less a b = true ↔ key a < key b := by
  by_cases hnan : ∃ u ∈ V, isNaN u = true
  · obtain ⟨u, hu, hn⟩ := hnan
    refine ⟨fun _ => 0, fun a ha b hb => ?_⟩
    have hno : less a b ≠ true := fun hl => h ⟨u, hu, a, ha, b, hb, hn, hl⟩
    simp [hno]
  · have hnum : ∀ a ∈ V, isNaN a = false := fun a ha => by
      by_contra hn
      exact hnan ⟨a, ha, by simpa using hn⟩
    exact ⟨value, fun a ha b hb => less_iff (hnum a ha) (hnum b hb)⟩

/-- Two numbers that differ are each equal to a NaN. -/
theorem lexSign_mixed {n i : ℕ} (hne : ∀ j < n, (V j).Nonempty) (hi : i < n) (hm : Mixed (V i)) :
    ¬ TotalPreorder (lexSign less) {vs | vs.length = n ∧ ∀ i (hi : i < vs.length), vs[i] ∈ V i} := by
  obtain ⟨u, hu, v, hv, w, hw, hn, hl⟩ := hm
  -- vectors that have these three at position `i` and are otherwise the same
  set base := List.ofFn fun j : Fin n => (hne j j.2).some with hbase
  have hlen : base.length = n := List.length_ofFn
  have hin : ∀ z ∈ V i, base.set i z ∈ {vs : List (BitVec 32) | vs.length = n ∧ ∀ i (hi : i < vs.length), vs[i] ∈ V i} := by
    refine fun z hz => ⟨by rw [List.length_set, hlen], fun j hj => ?_⟩
    rw [List.getElem_set]
    split
    · rename_i hij
      exact hij ▸ hz
    · have hjn : j < n := hlen ▸ List.length_set ▸ hj
      have hjb : j < base.length := hlen.symm ▸ hjn
      have hget : base[j] = (hne j hjn).some := List.getElem_ofFn _
      rw [hget]
      exact (hne j hjn).some_mem
  have hcmp : ∀ x y, lexSign less (base.set i x) (base.set i y) = if less x y then -1 else if less y x then 1 else 0 :=
    fun x y => lexSign_set less_irrefl (hlen.symm ▸ hi)
  intro hp
  have hequal : lexSign less (base.set i v) (base.set i u) = 0 := by
    rw [hcmp, less_nan_left hn, less_nan_right hn]
    rfl
  have halike := hp.congr _ (hin v hv) _ (hin u hu) _ (hin w hw) hequal
  rw [hcmp, hcmp, if_pos hl, less_nan_left hn, less_nan_right hn] at halike
  exact absurd halike (by decide)

/-- **When `svector_compare` orders vectors.** For any choice of floats that can be
read for each component, the comparison of the values with such components is a
total preorder if and only if no component has a NaN together with two numbers
that differ. -/
theorem svector_compare_preorder_iff (F : FloatSyntax) (h1 : 1 ≤ d) (hmax : d ≤ maxVectorDimension)
    (hV : ∀ i < d, (V i).Nonempty ∧ ∀ v ∈ V i, F.Reads v) :
    TotalPreorder (svectorCompare d) (ValuesOf F d V) ↔ ∀ i < d, ¬ Mixed (V i) := by
  rw [valuesOf_eq h1 hmax fun i hi => (hV i hi).2,
    TotalPreorder.image_iff fun us hu vs hv => svectorCompare_vectorValue hu.1 hv.1]
  constructor
  · intro hp i hi hm
    exact lexSign_mixed (fun j hj => (hV j hj).1) hi hm hp
  · intro h
    choose! key hkey using fun i (hi : i < d) => exists_key (h i hi)
    exact lexSign_preorder hkey

/-- The floats `0`, `1`, `2` and `nan`, and no others. -/
def fewFloats : FloatSyntax where
  read t :=
    if t = [0x30] then some (0, false)
    else if t = [0x31] then some (0x3F800000, false)
    else if t = [0x32] then some (0x40000000, false)
    else if t = [0x6E, 0x61, 0x6E] then some (0x7FC00000, false)
    else none
  read_nil := by decide
  clean := by
    intro t ht
    by_cases hmem : t = [0x30] ∨ t = [0x31] ∨ t = [0x32] ∨ t = [0x6E, 0x61, 0x6E]
    · rcases hmem with rfl | rfl | rfl | rfl <;> decide
    · simp only [not_or] at hmem
      obtain ⟨h0, h1, h2, hn⟩ := hmem
      rw [if_neg h0, if_neg h1, if_neg h2, if_neg hn] at ht
      cases ht
  read_zero := by decide

/-- Vectors of two components, the first `0` or a NaN, the second `0`, `1` or `2`. -/
theorem svector_compare_preorder_two : TotalPreorder (svectorCompare 2)
    (ValuesOf fewFloats 2 fun i => if i = 0 then {0, 0x7FC00000} else {0, 0x3F800000, 0x40000000}) := by
  have hnan : fewFloats.Reads 0x7FC00000 := ⟨[0x6E, 0x61, 0x6E], by decide⟩
  have hzero : fewFloats.Reads 0 := ⟨[0x30], by decide⟩
  have hone : fewFloats.Reads 0x3F800000 := ⟨[0x31], by decide⟩
  have htwo : fewFloats.Reads 0x40000000 := ⟨[0x32], by decide⟩
  refine (svector_compare_preorder_iff fewFloats (by decide) (by decide) fun i _ => ?_).mpr fun i _ => ?_
  · by_cases h : i = 0
    · rw [if_pos h]
      exact ⟨Set.insert_nonempty _ _, by rintro v (rfl | rfl) <;> assumption⟩
    · rw [if_neg h]
      exact ⟨Set.insert_nonempty _ _, by rintro v (rfl | rfl | rfl) <;> assumption⟩
  · rintro ⟨u, hu, v, hv, w, hw, hn, hl⟩
    by_cases h : i = 0
    · simp only [h, if_true, Set.mem_insert_iff, Set.mem_singleton_iff] at hv hw
      rcases hv with rfl | rfl <;> rcases hw with rfl | rfl <;> exact absurd hl (by decide)
    · simp only [h, if_false, Set.mem_insert_iff, Set.mem_singleton_iff] at hu
      rcases hu with rfl | rfl | rfl <;> exact absurd hn (by decide)

/-- The texts `[2]`, `[nan]` and `[1]`: each is not greater than the next, but the
first is greater than the last, and the second is equal to both. -/
theorem nan_between : ∃ a b c : Text,
    svectorFromString fewFloats ⟨[0x5B, 0x32, 0x5D], []⟩ ⟨List.replicate 12 0, none, some 1⟩ =
      (.ok (), ⟨a, some 12, some 1⟩) ∧
    svectorFromString fewFloats ⟨[0x5B, 0x6E, 0x61, 0x6E, 0x5D], []⟩ ⟨List.replicate 12 0, none, some 1⟩ =
      (.ok (), ⟨b, some 12, some 1⟩) ∧
    svectorFromString fewFloats ⟨[0x5B, 0x31, 0x5D], []⟩ ⟨List.replicate 12 0, none, some 1⟩ =
      (.ok (), ⟨c, some 12, some 1⟩) ∧
    svectorCompare 1 a b = 0 ∧ svectorCompare 1 b c = 0 ∧ svectorCompare 1 a c = 1 :=
  ⟨[0, 0, 0, 0, 0, 0, 0, 0, 0, 0, 0, 0x40], [0, 0, 0, 0, 0, 0, 0, 0, 0, 0, 0xC0, 0x7F],
    [0, 0, 0, 0, 0, 0, 0, 0, 0, 0, 0x80, 0x3F], by decide +kernel, by decide +kernel, by decide +kernel, by decide +kernel,
    by decide +kernel, by decide +kernel⟩

end Order

end VsqlVector
