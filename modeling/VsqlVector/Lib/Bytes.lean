/-
# Bytes at offsets

A frame is a block of bytes read and written by offset. `slice` reads a run
of bytes, `store` overwrites one, and `At f o l` says that the bytes `l`
stand at `o`. Numbers are kept big endian: `encode n v` are the low `n`
bytes of `v`, `decode` reads them back.

A layout is a conjunction of `At` facts, one for each field. `at_append`
takes it apart, `at_store_self` is the field that was written and
`at_store_of_disjoint` every other one; `at_flatMap_set` writes one element of
an array.

Key definitions: `Bytes.slice`, `Bytes.store`, `Bytes.At`, `Bytes.encode`,
`Bytes.decode`.
Key theorems: `Bytes.at_append`, `Bytes.at_store_of_disjoint`,
`Bytes.decode_encode`, `Bytes.at_flatMap_set`.
-/
import Mathlib.Data.List.Basic
import Mathlib.Data.BitVec
import Mathlib.Tactic.Ring

namespace VsqlVector

/-- A block of bytes, by offset. -/
abbrev Frame : Type := ℕ → BitVec 8

namespace Bytes

variable {f : Frame} {o o' n : ℕ} {l d : List (BitVec 8)}

/-! ### Reading and writing -/

/-- The `n` bytes from `o` on. -/
def slice (f : Frame) (o n : ℕ) : List (BitVec 8) := (List.range n).map fun i => f (o + i)

/-- The frame with the bytes `d` written at `o`. -/
def store (f : Frame) (o : ℕ) (d : List (BitVec 8)) : Frame := fun i =>
  if o ≤ i then (d[i - o]?).getD (f i) else f i

/-- The bytes `l` stand at `o`. -/
def At (f : Frame) (o : ℕ) (l : List (BitVec 8)) : Prop := slice f o l.length = l

@[simp] theorem length_slice : (slice f o n).length = n := by simp [slice]

theorem getElem_slice {i : ℕ} (h : i < (slice f o n).length) : (slice f o n)[i] = f (o + i) := by
  simp [slice]

theorem slice_congr {g : Frame} (h : ∀ i, i < n → f (o + i) = g (o + i)) :
    slice f o n = slice g o n := by
  apply List.map_congr_left
  intro i hi
  exact h i (List.mem_range.mp hi)

theorem slice_add (f : Frame) (o m n : ℕ) : slice f o (m + n) = slice f o m ++ slice f (o + m) n := by
  simp [slice, List.range_add, Nat.add_assoc]

theorem store_of_lt {i : ℕ} (h : i < o) : store f o d i = f i := if_neg (by omega)

theorem store_of_ge {i : ℕ} (h : o + d.length ≤ i) : store f o d i = f i := by
  unfold store
  rw [List.getElem?_eq_none (by omega)]
  exact ite_self _

theorem store_mid {i : ℕ} (h : i < d.length) : store f o d (o + i) = d[i] := by
  unfold store
  rw [if_pos (Nat.le_add_right _ _), Nat.add_sub_cancel_left, List.getElem?_eq_getElem h]
  rfl

@[simp] theorem store_nil : store f o [] = f := by
  funext i
  unfold store
  simp

theorem slice_store_self : slice (store f o d) o d.length = d := by
  apply List.ext_getElem (by simp)
  intro i _ hi
  rw [getElem_slice, store_mid hi]

theorem slice_store_of_disjoint (h : o' + n ≤ o ∨ o + d.length ≤ o') :
    slice (store f o d) o' n = slice f o' n := by
  apply slice_congr
  intro i hi
  rcases h with h | h
  · exact store_of_lt (by omega)
  · exact store_of_ge (by omega)

/-- Writing two runs one after the other is writing them at once. -/
theorem store_append (f : Frame) (o : ℕ) (a b : List (BitVec 8)) :
    store f o (a ++ b) = store (store f o a) (o + a.length) b := by
  funext i
  rcases Nat.lt_or_ge i (o + a.length) with h | h
  · rw [store_of_lt h]
    unfold store
    split
    · rw [List.getElem?_append_left (by omega)]
    · rfl
  · unfold store
    rw [if_pos (by omega), if_pos h, if_pos (by omega), List.getElem?_append_right (by omega),
      List.getElem?_eq_none (l := a) (by omega), Nat.sub_sub]
    rfl

/-- The list `l` with `d` in place of what stands from `k` on. -/
def splice (l : List (BitVec 8)) (k : ℕ) (d : List (BitVec 8)) : List (BitVec 8) :=
  l.take k ++ d ++ l.drop (k + d.length)

theorem length_splice {k : ℕ} (h : k + d.length ≤ l.length) : (splice l k d).length = l.length := by
  simp only [splice, List.length_append, List.length_take, List.length_drop]
  omega

theorem take_slice {k : ℕ} (h : k ≤ n) : (slice f o n).take k = slice f o k := by
  obtain ⟨m, rfl⟩ := Nat.exists_eq_add_of_le h
  rw [slice_add]
  exact List.take_left' length_slice

theorem drop_slice {k : ℕ} (h : k ≤ n) : (slice f o n).drop k = slice f (o + k) (n - k) := by
  obtain ⟨m, rfl⟩ := Nat.exists_eq_add_of_le h
  rw [slice_add, Nat.add_sub_cancel_left]
  exact List.drop_left' length_slice

/-- A write inside a run changes that part of it. -/
theorem slice_store_inside {k : ℕ} (h : k + d.length ≤ n) :
    slice (store f (o + k) d) o n = splice (slice f o n) k d := by
  have hn : n = k + (d.length + (n - (k + d.length))) := by omega
  rw [splice, take_slice (by omega), drop_slice h]
  conv_lhs => rw [hn]
  rw [slice_add, slice_add, slice_store_self, slice_store_of_disjoint (by omega),
    slice_store_of_disjoint (by omega), List.append_assoc, Nat.add_assoc]

/-! ### What stands at an offset -/

theorem at_iff : At f o l ↔ ∀ i, (h : i < l.length) → f (o + i) = l[i] := by
  constructor
  · intro h i hi
    have := getElem_slice (f := f) (o := o) (n := l.length) (i := i) (by simpa using hi)
    rw [← this]
    exact List.getElem_of_eq h _
  · intro h
    apply List.ext_getElem (by simp)
    intro i _ hi
    rw [getElem_slice, h i hi]

@[simp] theorem at_nil : At f o [] := rfl

theorem at_append {a b : List (BitVec 8)} :
    At f o (a ++ b) ↔ At f o a ∧ At f (o + a.length) b := by
  unfold At
  rw [List.length_append, slice_add]
  constructor
  · intro h
    exact List.append_inj h (by simp)
  · rintro ⟨h1, h2⟩
    rw [h1, h2]

theorem at_store_self : At (store f o d) o d := slice_store_self

theorem at_store_of_disjoint (h : o' + l.length ≤ o ∨ o + d.length ≤ o') :
    At (store f o d) o' l ↔ At f o' l := by
  unfold At
  rw [slice_store_of_disjoint h]

theorem at_congr {g : Frame} (h : ∀ i, i < l.length → f (o + i) = g (o + i)) :
    At f o l ↔ At g o l := by
  unfold At
  rw [slice_congr h]

/-! ### Numbers -/

/-- The low `n` bytes of `v`, the most significant first. -/
def encode : ℕ → ℕ → List (BitVec 8)
  | 0, _ => []
  | n + 1, v => BitVec.ofNat 8 (v / 256 ^ n) :: encode n v

/-- The number the bytes are, the most significant first. -/
def decode (l : List (BitVec 8)) : ℕ := l.foldl (fun acc b => acc * 256 + b.toNat) 0

@[simp] theorem length_encode : ∀ n v : ℕ, (encode n v).length = n
  | 0, _ => rfl
  | n + 1, v => by simp [encode, length_encode n v]

theorem foldl_encode : ∀ n v acc : ℕ,
    (encode n v).foldl (fun acc b => acc * 256 + b.toNat) acc = acc * 256 ^ n + v % 256 ^ n
  | 0, v, acc => by simp [encode, Nat.mod_one]
  | n + 1, v, acc => by
    rw [encode, List.foldl_cons, foldl_encode n v, BitVec.toNat_ofNat, Nat.mod_pow_succ (b := 256)]
    ring

theorem decode_encode (n v : ℕ) : decode (encode n v) = v % 256 ^ n := by
  rw [decode, foldl_encode]
  simp

theorem decode_encode_of_lt {n v : ℕ} (h : v < 256 ^ n) : decode (encode n v) = v := by
  rw [decode_encode, Nat.mod_eq_of_lt h]

/-- Only the low bytes of a number are written. -/
theorem encode_congr : ∀ {n v w : ℕ}, v % 256 ^ n = w % 256 ^ n → encode n v = encode n w
  | 0, _, _, _ => rfl
  | n + 1, v, w, h => by
    have hlow : v % 256 ^ n = w % 256 ^ n := by
      have hdvd : 256 ^ n ∣ 256 ^ (n + 1) := pow_dvd_pow _ (Nat.le_succ n)
      rw [← Nat.mod_mod_of_dvd v hdvd, h, Nat.mod_mod_of_dvd w hdvd]
    have hhigh : v / 256 ^ n % 256 = w / 256 ^ n % 256 := by
      rw [← Nat.mod_mul_right_div_self, ← Nat.mod_mul_right_div_self, ← pow_succ, h]
    rw [encode, encode, encode_congr hlow]
    congr 1
    exact BitVec.eq_of_toNat_eq (by simpa using hhigh)

theorem decode_lt (l : List (BitVec 8)) : decode l < 256 ^ l.length := by
  have hfold : ∀ (l : List (BitVec 8)) (acc : ℕ),
      l.foldl (fun acc b => acc * 256 + b.toNat) acc < (acc + 1) * 256 ^ l.length := by
    intro l
    induction l with
    | nil => simp
    | cons b l ih =>
      intro acc
      have hb : b.toNat < 256 := b.isLt
      calc (b :: l).foldl (fun acc b => acc * 256 + b.toNat) acc
          < (acc * 256 + b.toNat + 1) * 256 ^ l.length := ih _
        _ ≤ ((acc + 1) * 256) * 256 ^ l.length := Nat.mul_le_mul_right _ (by omega)
        _ = (acc + 1) * 256 ^ (b :: l).length := by rw [List.length_cons]; ring
  simpa [decode] using hfold l 0

/-- The number in the `n` bytes at `o`. -/
def readNat (f : Frame) (o n : ℕ) : ℕ := decode (slice f o n)

theorem readNat_lt (f : Frame) (o n : ℕ) : readNat f o n < 256 ^ n := by
  simpa [readNat] using decode_lt (slice f o n)

theorem readNat_of_at {v : ℕ} (h : At f o (encode n v)) : readNat f o n = v % 256 ^ n := by
  unfold At at h
  rw [length_encode] at h
  rw [readNat, h, decode_encode]

/-! ### Arrays -/

section Arrays

variable {α : Type} {enc : α → List (BitVec 8)} {w : ℕ}

theorem length_flatMap_const (hw : ∀ a, (enc a).length = w) :
    ∀ xs : List α, (xs.flatMap enc).length = w * xs.length
  | [] => rfl
  | x :: xs => by
    rw [List.flatMap_cons, List.length_append, hw, length_flatMap_const hw xs, List.length_cons]
    ring

/-- An array stands where its elements do. -/
theorem at_flatMap_iff (hw : ∀ a, (enc a).length = w) :
    ∀ {xs : List α} {o : ℕ}, At f o (xs.flatMap enc) ↔
      ∀ i, (h : i < xs.length) → At f (o + w * i) (enc xs[i])
  | [], o => by simp
  | x :: xs, o => by
    rw [List.flatMap_cons, at_append, hw, at_flatMap_iff hw]
    constructor
    · rintro ⟨h0, hs⟩ i hi
      cases i with
      | zero => simpa using h0
      | succ i =>
        have := hs i (by simpa using hi)
        rwa [Nat.add_assoc, show w + w * i = w * (i + 1) by ring] at this
    · intro h
      refine ⟨h 0 (Nat.succ_pos _), fun i hi => ?_⟩
      have := h (i + 1) (by simpa using hi)
      rwa [show o + w + w * i = o + w * (i + 1) by ring]

/-- A write to one element of an array. -/
theorem at_flatMap_set (hw : ∀ a, (enc a).length = w) {xs : List α} {i : ℕ} {a : α}
    (h : At f o (xs.flatMap enc)) : At (store f (o + w * i) (enc a)) o ((xs.set i a).flatMap enc) := by
  rw [at_flatMap_iff hw] at h ⊢
  intro j hj
  rw [List.length_set] at hj
  by_cases hij : i = j
  · subst hij
    rw [List.getElem_set_self]
    exact at_store_self
  · rw [List.getElem_set_ne hij, at_store_of_disjoint]
    · exact h j hj
    · rw [hw, hw]
      rcases Nat.lt_or_gt_of_ne hij with hlt | hlt
      · right
        calc o + w * i + w = o + w * (i + 1) := by ring
          _ ≤ o + w * j := Nat.add_le_add_left (Nat.mul_le_mul_left _ hlt) _
      · left
        calc o + w * j + w = o + w * (j + 1) := by ring
          _ ≤ o + w * i := Nat.add_le_add_left (Nat.mul_le_mul_left _ hlt) _

/-- Writing the elements of an array one by one is writing it at once. -/
theorem foldl_store_array (hw : ∀ a, (enc a).length = w) (a : α) : ∀ (n k : ℕ) (f : Frame),
    (List.range' k n).foldl (fun f i => store f (o + w * i) (enc a)) f =
      store f (o + w * k) ((List.replicate n a).flatMap enc)
  | 0, k, f => by simp
  | n + 1, k, f => by
    rw [List.range'_succ, List.foldl_cons, foldl_store_array hw a n (k + 1), List.replicate_succ,
      List.flatMap_cons, store_append, hw, show o + w * k + w = o + w * (k + 1) by ring]

/-- Splicing an element into an array. -/
theorem splice_flatMap (hw : ∀ a, (enc a).length = w) {xs : List α} {i : ℕ} (hi : i < xs.length) (a : α) :
    splice (xs.flatMap enc) (w * i) (enc a) = (xs.set i a).flatMap enc := by
  have hlen := length_flatMap_const hw xs
  have hin : w * i + w ≤ w * xs.length := by
    calc w * i + w = w * (i + 1) := by ring
      _ ≤ w * xs.length := Nat.mul_le_mul_left _ hi
  -- put the array in a frame at 0 and write the element there
  have hat : At (store (fun _ => 0) 0 (xs.flatMap enc)) 0 (xs.flatMap enc) := at_store_self
  have hset := at_flatMap_set hw (i := i) (a := a) hat
  have hslice : slice (store (store (fun _ => 0) 0 (xs.flatMap enc)) (0 + w * i) (enc a)) 0 (w * xs.length) =
      splice (xs.flatMap enc) (w * i) (enc a) := by
    rw [slice_store_inside (by rw [hw]; exact hin)]
    congr 1
    rw [← hlen]
    exact hat
  rw [← hslice]
  unfold At at hset
  rwa [length_flatMap_const hw, List.length_set] at hset

end Arrays

/-! ### Chunks

Bytes seen as chunks of one size. -/

section Chunks

variable {size k j : ℕ}

/-- Chunk `k` of the bytes. -/
def chunk (size : ℕ) (l : List (BitVec 8)) (k : ℕ) : List (BitVec 8) := (l.drop (k * size)).take size

theorem length_chunk (h : k * size + size ≤ l.length) : (chunk size l k).length = size := by
  simp only [chunk, List.length_take, List.length_drop]
  omega

theorem getElem?_splice (h : k + d.length ≤ l.length) (i : ℕ) :
    (splice l k d)[i]? = if i < k then l[i]? else if i < k + d.length then d[i - k]? else l[i]? := by
  have hlen : (l.take k).length = k := by
    rw [List.length_take]
    omega
  unfold splice
  rw [List.append_assoc]
  split
  · rw [List.getElem?_append_left (by omega), List.getElem?_take_of_lt (by omega)]
  · rw [List.getElem?_append_right (by omega), hlen]
    split
    · rw [List.getElem?_append_left (by omega)]
    · rw [List.getElem?_append_right (by omega), List.getElem?_drop]
      congr 1
      omega

theorem getElem?_chunk (i : ℕ) : (chunk size l k)[i]? = if i < size then l[k * size + i]? else none := by
  unfold chunk
  rw [List.getElem?_take]
  split
  · rw [List.getElem?_drop]
  · rfl

/-- Splicing one chunk leaves the others. -/
theorem chunk_splice (hd : d.length = size) (h : k * size + size ≤ l.length) :
    chunk size (splice l (k * size) d) j = if j = k then d else chunk size l j := by
  apply List.ext_getElem?
  intro i
  rw [getElem?_chunk, getElem?_splice (by omega), hd]
  by_cases hi : i < size
  · rw [if_pos hi]
    by_cases hjk : j = k
    · subst hjk
      rw [if_neg (by omega), if_pos (by omega), if_pos rfl, Nat.add_sub_cancel_left]
    · rw [if_neg hjk, getElem?_chunk, if_pos hi]
      rcases Nat.lt_or_gt_of_ne hjk with hlt | hlt
      · have : (j + 1) * size ≤ k * size := Nat.mul_le_mul_right _ hlt
        rw [Nat.succ_mul] at this
        rw [if_pos (by omega)]
      · have : (k + 1) * size ≤ j * size := Nat.mul_le_mul_right _ hlt
        rw [Nat.succ_mul] at this
        rw [if_neg (by omega), if_neg (by omega)]
  · rw [if_neg hi]
    split
    · rw [List.getElem?_eq_none (by omega)]
    · rw [getElem?_chunk, if_neg hi]

theorem chunk_append_left {a b : List (BitVec 8)} (h : k * size + size ≤ a.length) :
    chunk size (a ++ b) k = chunk size a k := by
  unfold chunk
  rw [List.drop_append_of_le_length (by omega), List.take_append_of_le_length (by
    rw [List.length_drop]
    omega)]

theorem chunk_append_right {m : ℕ} {a b : List (BitVec 8)} (h : a.length = m * size) :
    chunk size (a ++ b) (m + k) = chunk size b k := by
  unfold chunk
  rw [Nat.add_mul, ← h, ← List.drop_drop, List.drop_left]

theorem chunk_self (h : d.length = size) : chunk size d 0 = d := by
  unfold chunk
  rw [Nat.zero_mul, List.drop_zero, ← h, List.take_length]

theorem chunk_take {n : ℕ} (h : k * size + size ≤ n) : chunk size (l.take n) k = chunk size l k := by
  apply List.ext_getElem?
  intro i
  rw [getElem?_chunk, getElem?_chunk]
  split
  · rw [List.getElem?_take_of_lt (by omega)]
  · rfl

/-- Chunk `j` of element `i`, where an element has `w` chunks. -/
theorem chunk_flatMap {α : Type} {enc : α → List (BitVec 8)} {w : ℕ} (hw : ∀ a, (enc a).length = w * size)
    (hj : j < w) : ∀ {xs : List α} {i : ℕ}, (hi : i < xs.length) →
    chunk size (xs.flatMap enc) (w * i + j) = chunk size (enc xs[i]) j
  | x :: xs, 0, _ => by
    rw [Nat.mul_zero, Nat.zero_add, List.flatMap_cons, chunk_append_left]
    · rfl
    · rw [hw]
      calc j * size + size = (j + 1) * size := by ring
        _ ≤ w * size := Nat.mul_le_mul_right _ hj
  | x :: xs, i + 1, hi => by
    rw [show w * (i + 1) + j = w + (w * i + j) by ring, List.flatMap_cons, chunk_append_right (hw x),
      chunk_flatMap hw hj (by simpa using hi)]
    rfl

end Chunks

/-! ### Fields

A record is a list of fields that stand one behind the other. -/

section Fields

variable {fs : List (List (BitVec 8))} {k : ℕ}

theorem length_flatten_take (fs : List (List (BitVec 8))) (k : ℕ) :
    (fs.take k).flatten.length = ((fs.map List.length).take k).sum := by
  rw [List.length_flatten, List.map_take]

theorem splice_full (h : d.length = l.length) : splice l 0 d = d := by
  simp [splice, h]

/-- A field stands behind the ones before it. -/
theorem at_of_fields (h : At f o fs.flatten) (hk : k < fs.length) :
    At f (o + ((fs.map List.length).take k).sum) fs[k] := by
  rw [← List.take_append_drop k fs, List.flatten_append, at_append, List.drop_eq_getElem_cons hk,
    List.flatten_cons, at_append, length_flatten_take] at h
  exact h.2.1

/-- A write inside one field changes that field. -/
theorem at_store_field (h : At f o fs.flatten) (hk : k < fs.length) {j : ℕ}
    (hj : j + d.length ≤ fs[k].length) :
    At (store f (o + ((fs.map List.length).take k).sum + j) d) o (fs.set k (splice fs[k] j d)).flatten := by
  have hsplit : fs.flatten = (fs.take k).flatten ++ (fs[k] ++ (fs.drop (k + 1)).flatten) := by
    conv_lhs => rw [← List.take_append_drop k fs, List.flatten_append, List.drop_eq_getElem_cons hk,
      List.flatten_cons]
  have hset : (fs.set k (splice fs[k] j d)).flatten =
      (fs.take k).flatten ++ (splice fs[k] j d ++ (fs.drop (k + 1)).flatten) := by
    rw [List.set_eq_take_append_cons_drop, if_pos hk, List.flatten_append, List.flatten_cons]
  rw [hsplit, at_append, at_append, length_flatten_take] at h
  obtain ⟨hpre, hfield, hpost⟩ := h
  rw [hset, at_append, at_append, length_flatten_take, length_splice hj]
  refine ⟨?_, ?_, ?_⟩
  · rw [at_store_of_disjoint]
    · exact hpre
    · left
      rw [length_flatten_take]
      omega
  · unfold At
    rw [length_splice hj, slice_store_inside hj]
    unfold At at hfield
    rw [hfield]
  · rw [at_store_of_disjoint]
    · exact hpost
    · right
      omega

end Fields

end Bytes
end VsqlVector
