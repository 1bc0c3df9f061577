/-
# Metadata read by the index and by the dump tool

The dump tool (`src/storage/tools`) does not link against the index: it reads the
pages with decoders of its own, which are kept in step with the index's by hand.
The metadata of a root page is read by `StorageMeta::decode` in the index and by
`parse_hnsw_index_metadata` in the tool, both with a pointer and a count of what is
left; the two check in different places.

On every string both come to the same end (`read_run`, `parse_run`), and neither
looks past the end of it.

The rest of `hnsw_layout.cc` works out the sizes of the columns, which the index
goes from the degree to the bytes and the tool the other way round.

Key definitions: `StorageMeta.read`, `parseHnswIndexMetadata`,
`hnswMaxNeighbours`, `hnswNeighbourColumnSize`.
Key theorems: `metadata_decoders_agree`, `hnswMaxNeighbours_entryLen`.
-/
import VsqlVector.Lib.Cursor
import VsqlVector.Index.IndexStore

namespace VsqlVector
namespace Hnsw

namespace StorageMeta

/-- `read1` of `StorageMeta::decode`. -/
def readByte : Reader Unit ℕ := do
  Reader.need 1 ()
  let v ← Reader.next
  Reader.spend 1
  pure v

/-- `StorageMeta::decode`, with its pointer and its count. -/
def read : Reader Unit StorageMeta := do
  let v ← readByte
  if v ≠ version then Prog.fail (.malformed ())
  else do
    let nameLen ← readByte
    Reader.need nameLen ()
    let name ← Reader.bytes nameLen
    Reader.advance nameLen
    Reader.spend nameLen
    let level ← readByte
    let entryLevel ← readByte
    let numEps ← readByte
    Reader.need (numEps * entryPointLen) ()
    let entryPoints ← Reader.times (do
      let ref ← Reader.peekNumber entryPointLen
      Reader.advance entryPointLen
      Reader.spend entryPointLen
      pure ref) numEps
    pure ⟨name, level, entryLevel, entryPoints⟩

end StorageMeta

namespace Tools

/-- `parse_hnsw_index_metadata` of the dump tool. -/
def parseHnswIndexMetadata : Reader String StorageMeta := do
  Reader.need 1 "empty metadata"
  let version ← Reader.next
  Reader.spend 1
  if version ≠ StorageMeta.version then
    Prog.fail (.malformed ("unexpected StorageMeta version " ++ toString version))
  else do
    Reader.need 1 "truncated metadata: missing name length"
    let nameLen ← Reader.next
    Reader.spend 1
    Reader.need nameLen "truncated metadata: name"
    let name ← Reader.bytes nameLen
    Reader.advance nameLen
    Reader.spend nameLen
    Reader.need 2 "truncated metadata: level/entry_level"
    let level ← Reader.next
    let entryLevel ← Reader.next
    Reader.spend 2
    Reader.need 1 "truncated metadata: entry point count"
    let numEps ← Reader.next
    Reader.spend 1
    Reader.need (numEps * StorageMeta.entryPointLen) "truncated metadata: entry points"
    let entryPoints ← Reader.times (Reader.number 8 0) numEps
    Reader.spend (numEps * StorageMeta.entryPointLen)
    pure ⟨name, level, entryLevel, entryPoints⟩

end Tools

/-! ### Both read what `decode` accepts -/

namespace StorageMeta

theorem entries_eq {c : Cursor} {rest : List (BitVec 8)} (h : Stands c rest) {n : ℕ}
    (hn : n * entryPointLen ≤ rest.length) {ε : Type} {r : Reader ε ℕ}
    (hr : ∀ d : Cursor, d.p + entryPointLen ≤ d.data.length →
      ∃ rem, r d = (.ok (Bytes.decode ((d.data.drop d.p).take entryPointLen)), ⟨d.data, d.p + entryPointLen, rem⟩)) :
    ∃ d, Reader.times r n c =
      (.ok ((List.range n).map fun i => Bytes.decode (Bytes.chunk entryPointLen rest i)), d) := by
  have h1 := h.len
  have h2 := h.rem
  obtain ⟨d, hd⟩ := Stands.times hr n c (by omega)
  rw [h.drop] at hd
  exact ⟨d, hd⟩

/-- **The index's decoder.** On every string it ends as `decode` says, and it
never looks past the end. -/
theorem read_run (data : List (BitVec 8)) : Reader.run read data =
    match decode data with
    | some m => .ok m
    | none => .error (.malformed ()) := by
  have hentry (d : Cursor) (hd : d.p + entryPointLen ≤ d.data.length) :
      ∃ rem, (do
        let ref ← Reader.peekNumber entryPointLen
        Reader.advance entryPointLen
        Reader.spend entryPointLen
        pure ref : Reader Unit ℕ) d =
        (.ok (Bytes.decode ((d.data.drop d.p).take entryPointLen)), ⟨d.data, d.p + entryPointLen, rem⟩) := by
    refine ⟨d.rem - entryPointLen, ?_⟩
    rw [Prog.bind_apply, Stands.peekNumber hd]
    rfl
  have h0 := Stands.start data
  rw [Reader.run, read, decode]
  simp only [readByte, bind_assoc, pure_bind]
  -- the version
  rcases data with _ | ⟨v, data⟩
  · rw [h0.stop (by simp)]
    rfl
  rw [h0.byte]
  have h1 := h0.move (n := 1) (by simp)
  simp only [read1, Option.bind_eq_bind, Option.bind_some, List.drop_succ_cons, List.drop_zero] at h1 ⊢
  by_cases hv : v.toNat ≠ version
  · rw [if_pos hv, if_pos hv]
    rfl
  rw [if_neg hv, if_neg hv]
  -- the name
  rcases data with _ | ⟨nameLen, data⟩
  · rw [h1.stop (by simp)]
    rfl
  rw [h1.byte]
  have h2 := h1.move (n := 1) (by simp)
  simp only [Option.bind_some, List.drop_succ_cons, List.drop_zero] at h2 ⊢
  by_cases hn : data.length < nameLen.toNat
  · rw [if_pos hn, h2.stop hn]
  rw [if_neg hn, h2.block (Nat.le_of_not_lt hn)]
  have h3 := h2.move (Nat.le_of_not_lt hn)
  -- the two levels and the number of entry points
  rcases hrest : data.drop nameLen.toNat with _ | ⟨level, rest⟩ <;> rw [hrest] at h3
  · rw [h3.stop (by simp)]
    rfl
  rw [h3.byte]
  have h4 := h3.move (n := 1) (by simp)
  simp only [Option.bind_some, List.drop_succ_cons, List.drop_zero] at h4 ⊢
  rcases rest with _ | ⟨entryLevel, rest⟩
  · rw [h4.stop (by simp)]
    rfl
  rw [h4.byte]
  have h5 := h4.move (n := 1) (by simp)
  simp only [Option.bind_some, List.drop_succ_cons, List.drop_zero] at h5 ⊢
  rcases rest with _ | ⟨numEps, rest⟩
  · rw [h5.stop (by simp)]
    rfl
  rw [h5.byte]
  have h6 := h5.move (n := 1) (by simp)
  simp only [Option.bind_some, List.drop_succ_cons, List.drop_zero] at h6 ⊢
  -- the entry points
  by_cases he : rest.length < numEps.toNat * entryPointLen
  · rw [if_pos he, h6.stop he]
  rw [if_neg he, Prog.bind_apply, h6.need_ok (Nat.le_of_not_lt he)]
  obtain ⟨d, hd⟩ := entries_eq h6 (Nat.le_of_not_lt he) hentry
  simp only [Prog.bind_apply] at hd ⊢
  rw [hd]
  rfl

end StorageMeta

namespace Tools

open StorageMeta

/-- **The tool's decoder.** It ends the same way, with a text where it refuses. -/
theorem parse_run (data : List (BitVec 8)) :
    match decode data with
    | some m => Reader.run parseHnswIndexMetadata data = .ok m
    | none => ∃ text, Reader.run parseHnswIndexMetadata data = .error (.malformed text) := by
  have hentry (d : Cursor) (hd : d.p + entryPointLen ≤ d.data.length) :
      ∃ rem, (Reader.number 8 0 : Reader String ℕ) d =
        (.ok (Bytes.decode ((d.data.drop d.p).take entryPointLen)), ⟨d.data, d.p + entryPointLen, rem⟩) :=
    ⟨d.rem, Stands.number hd⟩
  have h0 := Stands.start data
  simp only [Reader.run, parseHnswIndexMetadata, decode]
  -- the version
  rcases data with _ | ⟨v, data⟩
  · exact ⟨_, by rw [h0.stop (by simp)]⟩
  rw [h0.byte]
  have h1 := h0.move (n := 1) (by simp)
  simp only [read1, Option.bind_eq_bind, Option.bind_some, List.drop_succ_cons, List.drop_zero] at h1 ⊢
  by_cases hv : v.toNat ≠ version
  · rw [if_pos hv, if_pos hv]
    exact ⟨_, rfl⟩
  rw [if_neg hv, if_neg hv]
  -- the name
  rcases data with _ | ⟨nameLen, data⟩
  · exact ⟨_, by rw [h1.stop (by simp)]⟩
  rw [h1.byte]
  have h2 := h1.move (n := 1) (by simp)
  simp only [Option.bind_some, List.drop_succ_cons, List.drop_zero] at h2 ⊢
  by_cases hn : data.length < nameLen.toNat
  · rw [if_pos hn]
    exact ⟨_, by rw [h2.stop hn]⟩
  rw [if_neg hn, h2.block (Nat.le_of_not_lt hn)]
  have h3 := h2.move (Nat.le_of_not_lt hn)
  -- the two levels, which are checked together, and the number of entry points
  rcases hrest : data.drop nameLen.toNat with _ | ⟨level, rest⟩ <;> rw [hrest] at h3
  · exact ⟨_, by rw [h3.stop (by simp)]⟩
  rcases rest with _ | ⟨entryLevel, rest⟩
  · exact ⟨_, by rw [h3.stop (by simp)]⟩
  have h4 := h3.move (n := 2) (by simp)
  rw [Prog.bind_apply, h3.need_ok (by simp)]
  simp only [Option.bind_some, List.drop_succ_cons, List.drop_zero] at h4 ⊢
  have hlevel := h3.getElem? 0
  have hentryLevel := h3.getElem? 1
  rw [Prog.bind_apply, Stands.next hlevel]
  simp only
  rw [Prog.bind_apply, Stands.next hentryLevel]
  simp only [Reader.spend_bind]
  rcases rest with _ | ⟨numEps, rest⟩
  · exact ⟨_, by rw [h4.stop (by simp)]⟩
  rw [h4.byte]
  have h5 := h4.move (n := 1) (by simp)
  simp only [Option.bind_some, List.drop_succ_cons, List.drop_zero] at h5 ⊢
  -- the entry points
  by_cases he : rest.length < numEps.toNat * entryPointLen
  · rw [if_pos he]
    exact ⟨_, by rw [h5.stop he]⟩
  rw [if_neg he, Prog.bind_apply, h5.need_ok (Nat.le_of_not_lt he)]
  obtain ⟨d, hd⟩ := entries_eq h5 (Nat.le_of_not_lt he) hentry
  simp only
  rw [Prog.bind_apply, hd]
  rfl

/-- **Two decoders of one layout.** The index reads back what it wrote; and on
every string, whether it was written or not, the index and the dump tool accept
or refuse alike, read the same fields and never look past the end. -/
theorem metadata_decoders_agree :
    (∀ m : StorageMeta, m.Fits → Reader.run read m.encode = .ok m) ∧
    ∀ data : List (BitVec 8),
      (∀ m, Reader.run read data = .ok m ↔ Reader.run parseHnswIndexMetadata data = .ok m) ∧
      Reader.run read data ≠ .error .pastEnd ∧ Reader.run parseHnswIndexMetadata data ≠ .error .pastEnd := by
  refine ⟨fun m hm => by rw [read_run, decode_encode hm], fun data => ?_⟩
  have h1 := read_run data
  have h2 := parse_run data
  rcases hd : decode data with _ | m
  · rw [hd] at h1 h2
    obtain ⟨text, h2⟩ := h2
    simp [h1, h2]
  · rw [hd] at h1 h2
    simp [h1, h2]

theorem metadata_decoders_agree_entry :
    Reader.run read (encode ⟨[72#8], 0, 2, [7]⟩) = .ok ⟨[72#8], 0, 2, [7]⟩ :=
  metadata_decoders_agree.1 ⟨[72#8], 0, 2, [7]⟩ ⟨by decide, by decide, by decide, by decide, by decide⟩

end Tools

namespace Tools

/-! ### Sizes and references -/

def hnswIdSize : ℕ := 6

/-- `hnsw_max_neighbours`. -/
def hnswMaxNeighbours (columnSize : ℕ) (hasLowerLevel : Bool) : ℕ :=
  let fixed := hnswIdSize * (if hasLowerLevel then 3 else 2)
  if columnSize < fixed then 0 else (columnSize - fixed) / (2 * hnswIdSize)

/-- `hnsw_overflow_capacity`. -/
def hnswOverflowCapacity (columnSize : ℕ) : ℕ :=
  if columnSize < hnswIdSize then 0 else columnSize / hnswIdSize - 1

/-- `hnsw_neighbour_column_size`, which has 16 bits. -/
def hnswNeighbourColumnSize (maxNeighbours : ℕ) (hasLowerLevel : Bool) : ℕ :=
  (hnswIdSize * (if hasLowerLevel then 3 else 2) + maxNeighbours * (2 * hnswIdSize)) % 2 ^ 16

structure HnswColumnRef where
  pageRef : ℕ
  slotIndex : ℕ
  deriving DecidableEq, Repr

/-- `hnsw_decode_ref`. -/
def hnswDecodeRef (value : ℕ) : HnswColumnRef :=
  ⟨value &&& 0xFFFFFFFF, (value >>> 32) &&& (2 ^ 14 - 1)⟩

section Sizes

variable (L : LevelLayout)

theorem hnswMaxNeighbours_entryLen : hnswMaxNeighbours L.entryLen L.hasLower = L.maxNeighbours := by
  unfold hnswMaxNeighbours hnswIdSize LevelLayout.entryLen
  cases L.hasLower <;> simp

theorem hnswOverflowCapacity_overflowLen : hnswOverflowCapacity L.overflowLen = L.overflowCapacity := by
  unfold hnswOverflowCapacity hnswIdSize LevelLayout.overflowLen
  simp

theorem entryLen_lt {L : LevelLayout} (hM : L.M ≤ 128) : L.entryLen < 2 ^ 16 := by
  have := LevelLayout.maxNeighbours_le hM
  unfold LevelLayout.entryLen
  split <;> omega

theorem hnswNeighbourColumnSize_maxNeighbours {L : LevelLayout} (hM : L.M ≤ 128) :
    hnswNeighbourColumnSize L.maxNeighbours L.hasLower = L.entryLen := by
  refine Eq.trans (Nat.mod_eq_of_lt ?_) ?_
  · have := entryLen_lt hM
    unfold LevelLayout.entryLen at this
    unfold hnswIdSize
    cases h : L.hasLower <;> simp only [h, if_true, if_false, Bool.false_eq_true] at this ⊢ <;> omega
  · unfold hnswIdSize LevelLayout.entryLen
    cases L.hasLower <;> simp <;> omega

/-- The tool splits a reference as the store does. -/
theorem hnswDecodeRef_eq (v : ℕ) : hnswDecodeRef v = ⟨(DataPage.decodeColumnRef v).1, (DataPage.decodeColumnRef v).2⟩ :=
  rfl

end Sizes

end Tools

end Hnsw
end VsqlVector
