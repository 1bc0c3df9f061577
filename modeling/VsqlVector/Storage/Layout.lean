/-
# The record layout of a data page

`DataPage::init` (`src/storage/data_page.cc`) sizes a data page: it guesses
how many records fit, sizes the status bitmap for that guess, and guesses
again with the space the bitmap leaves, at most ten times. The bitmap it
keeps is the one of the guess before the last, so the layout is the one the
readers assume exactly when the guesses settle.

They settle unless the space for bitmap and records is
`(4k + 1) * rec_size + k` for some `k`: then `4k` records leave room for
`4k + 1`, and `4k + 1` records need one more byte of bitmap and leave room
for `4k` only. The guesses alternate, the tenth is `4k + 1`, and the bitmap
kept is one byte short of it (`init_layout_iff`).

Key definitions: `DataPage.init`, `DataPage.LayoutOK`, `refineCapacity`.
Key theorems: `refineCapacity_eq_iterate`, `capacityStep_settles`,
`init_layout_iff`.
-/
import Mathlib

namespace VsqlVector

/-! ### Pages -/

/-- `Page::HEADER_SIZE` of the server's page API. -/
def pageHeaderSize : ℕ := 38

/-- `Page::TRAILER_SIZE` of the server's page API. -/
def pageTrailerSize : ℕ := 8

/-- The page sizes an InnoDB tablespace can have. -/
inductive PageSize where
  | k4
  | k8
  | k16
  | k32
  | k64
  deriving DecidableEq, Repr

/-- `Page::get_size`. -/
def PageSize.bytes : PageSize → ℕ
  | k4 => 4096
  | k8 => 8192
  | k16 => 16384
  | k32 => 32768
  | k64 => 65536

/-! ### The fields of a data page -/

namespace DataPage

def trxRefSize : ℕ := 8
def bitsPerRecord : ℕ := 2
def versionOff : ℕ := pageHeaderSize
def pageTypeOff : ℕ := versionOff + 1
def freeSlotNumberOff : ℕ := pageTypeOff + 1
def rootPageRefOff : ℕ := freeSlotNumberOff + 2
def prevFreePageOff : ℕ := rootPageRefOff + 4
def nextFreePageOff : ℕ := prevFreePageOff + 4
def maxNumRecsOff : ℕ := nextFreePageOff + 4
def numFreeRecsOff : ℕ := maxNumRecsOff + 2
def freeBitmapOff : ℕ := numFreeRecsOff + 2

/-- The largest slot a column reference can carry: 14 bits of it. -/
def maxSlotIndex : ℕ := 2 ^ 14 - 1

end DataPage

/-- What `DataPage::init` fixes for every data page of a store. The fields are
16-bit page offsets. -/
structure DataPage where
  recSize : ℕ
  freeBitmapSize : ℕ
  maxNumRecs : ℕ
  firstRecOffset : ℕ
  deriving DecidableEq, Repr

namespace DataPage

/-- `bits_to_bytes_ceil`. -/
def bitsToBytesCeil (bits : ℕ) : ℕ := (bits + 7) / 8

/-- `get_record_offset`. -/
def getRecordOffset (d : DataPage) (recIndex : ℕ) : ℕ := d.firstRecOffset + recIndex * d.recSize

/-- `has_capacity`. -/
def hasCapacity (d : DataPage) : Bool := 0 < d.maxNumRecs

/-- The space a page has for the bitmap and the records. -/
def availableSpace (ps : PageSize) : ℕ := ps.bytes - freeBitmapOff - pageTrailerSize

/-- The refinement loop of `init`, with the iterations left, the estimate, the
one before it and the bitmap size kept so far. Every result is cast to 16
bits. -/
def refineCapacity (space recSize : ℕ) : ℕ → ℕ → ℕ → ℕ → ℕ × ℕ
  | 0, estimated, _, bitmap => (estimated, bitmap)
  | n + 1, estimated, prev, bitmap =>
    if estimated = prev then (estimated, bitmap)
    else
      let bitmap' := bitsToBytesCeil (estimated * bitsPerRecord) % 2 ^ 16
      refineCapacity space recSize n ((space - bitmap') / recSize % 2 ^ 16) estimated bitmap'

/-- `DataPage::init`. The record size is a 16-bit offset too; where it wraps
to 0 the division traps (`none`). -/
def init (ps : PageSize) (colLen : ℕ) : Option DataPage :=
  let recSize := (trxRefSize + colLen) % 2 ^ 16
  let space := availableSpace ps
  if space < recSize then some ⟨recSize, 0, 0, freeBitmapOff⟩
  else if recSize = 0 then none
  else
    let (estimated, bitmap) := refineCapacity space recSize 10 (space / recSize % 2 ^ 16) 0 0
    if estimated > maxSlotIndex + 1 then
      let capped := maxSlotIndex + 1
      let bitmap := bitsToBytesCeil (capped * bitsPerRecord) % 2 ^ 16
      some ⟨recSize, bitmap, capped, (freeBitmapOff + bitmap) % 2 ^ 16⟩
    else some ⟨recSize, bitmap, estimated, (freeBitmapOff + bitmap) % 2 ^ 16⟩

/-- The layout a data page has to have: the bitmap ends before the first
record, the records before the trailer, and the first record is where the
readers (`get_record_status`, the dump tool's `parse`) look for it. -/
def LayoutOK (ps : PageSize) (colLen : ℕ) (d : DataPage) : Prop :=
  freeBitmapOff + bitsToBytesCeil (bitsPerRecord * d.maxNumRecs) ≤ d.firstRecOffset ∧
  d.firstRecOffset + d.maxNumRecs * (trxRefSize + colLen) + pageTrailerSize ≤ ps.bytes ∧
  d.firstRecOffset = freeBitmapOff + bitsToBytesCeil (bitsPerRecord * d.maxNumRecs)

instance (ps : PageSize) (colLen : ℕ) (d : DataPage) : Decidable (LayoutOK ps colLen d) :=
  inferInstanceAs (Decidable (_ ∧ _ ∧ _))

/-! ### The estimate as an iteration

Without the casts one turn of the loop takes the estimate `n` to
`capacityStep space r n`, and the bitmap kept is that of the estimate before
the last. -/

/-- The bytes of bitmap that `n` records need: four records a byte. -/
def bitmapBytes (n : ℕ) : ℕ := (n + 3) / 4

/-- The records that fit beside the bitmap of `n`. -/
def capacityStep (space r n : ℕ) : ℕ := (space - bitmapBytes n) / r

theorem bitsToBytesCeil_two (n : ℕ) : bitsToBytesCeil (n * bitsPerRecord) = bitmapBytes n := by
  unfold bitsToBytesCeil bitsPerRecord bitmapBytes
  omega

section Iteration

variable {space r : ℕ}

theorem capacityStep_le (n : ℕ) : capacityStep space r n ≤ space / r :=
  Nat.div_le_div_right (Nat.sub_le _ _)

theorem capacityStep_antitone {m n : ℕ} (h : m ≤ n) :
    capacityStep space r n ≤ capacityStep space r m := by
  unfold capacityStep bitmapBytes
  apply Nat.div_le_div_right
  omega

/-- The loop computes the iterates of `capacityStep`: stopping at a repeated
estimate is the same as going on. -/
theorem refineCapacity_eq_iterate (hs : space / r < 2 ^ 16) : ∀ n prev : ℕ, prev < 2 ^ 16 →
    refineCapacity space r n (capacityStep space r prev) prev (bitmapBytes prev) =
      ((capacityStep space r)^[n] (capacityStep space r prev),
        bitmapBytes ((capacityStep space r)^[n] prev))
  | 0, prev, _ => rfl
  | n + 1, prev, hp => by
    set est := capacityStep space r prev with hest
    have hlt : est < 2 ^ 16 := (capacityStep_le prev).trans_lt hs
    unfold refineCapacity
    split
    · rename_i heq
      -- a fixed point: every further iterate is `prev`
      have hfix : capacityStep space r prev = prev := hest ▸ heq
      rw [heq, Function.iterate_fixed hfix]
    · have hb : bitsToBytesCeil (est * bitsPerRecord) % 2 ^ 16 = bitmapBytes est := by
        rw [bitsToBytesCeil_two, Nat.mod_eq_of_lt]
        unfold bitmapBytes; omega
      have hstep : (space - bitmapBytes est) / r % 2 ^ 16 = capacityStep space r est :=
        Nat.mod_eq_of_lt ((capacityStep_le est).trans_lt hs)
      simp only [hb, hstep]
      rw [refineCapacity_eq_iterate hs n est hlt, Function.iterate_succ_apply,
        Function.iterate_succ_apply, ← hest]

/-! ### When the iteration settles -/

/-- `n` is a fixed point: exactly `n` records fit beside the bitmap of `n`. -/
theorem capacityStep_eq_self_iff (hr : 0 < r) {n : ℕ} (hn : bitmapBytes n ≤ space) :
    capacityStep space r n = n ↔ n * r + bitmapBytes n ≤ space ∧ space < (n + 1) * r + bitmapBytes n := by
  unfold capacityStep
  rw [Nat.div_eq_iff hr]
  have hmul : (n + 1) * r = n * r + r := by ring
  constructor
  · rintro ⟨h1, h2⟩
    constructor <;> omega
  · rintro ⟨h1, h2⟩
    constructor <;> omega

/-- No number of records is a fixed point when the space is `(4k + 1) r + k`. -/
theorem capacityStep_ne_self {k n : ℕ} (hr : 0 < r) (hs : space = (4 * k + 1) * r + k) :
    capacityStep space r n ≠ n := by
  have hlow : capacityStep space r (4 * k) = 4 * k + 1 := by
    unfold capacityStep bitmapBytes
    rw [hs, show (4 * k + 3) / 4 = k by omega, Nat.add_sub_cancel, Nat.mul_div_cancel _ hr]
  have hhigh : capacityStep space r (4 * k + 1) = 4 * k := by
    unfold capacityStep bitmapBytes
    rw [hs, show (4 * k + 1 + 3) / 4 = k + 1 by omega, Nat.div_eq_iff hr]
    have : (4 * k + 1) * r = 4 * k * r + r := by ring
    constructor <;> omega
  intro hfix
  rcases Nat.lt_or_ge (4 * k) n with h | h
  · have : capacityStep space r n ≤ capacityStep space r (4 * k + 1) := capacityStep_antitone h
    omega
  · have : capacityStep space r (4 * k) ≤ capacityStep space r n := capacityStep_antitone h
    omega

/-- Otherwise the most records that fit beside their own bitmap are one. -/
theorem exists_fixed_capacity (hr : 0 < r) (hs : ∀ k, space ≠ (4 * k + 1) * r + k) :
    ∃ n, bitmapBytes n ≤ space ∧ capacityStep space r n = n := by
  let P : ℕ → Prop := fun n => n * r + bitmapBytes n ≤ space
  have hP0 : P 0 := by simp [P, bitmapBytes]
  have hfit : P (Nat.findGreatest P space) := Nat.findGreatest_spec (Nat.zero_le _) hP0
  set n := Nat.findGreatest P space with hn
  have hnext : ¬ P (n + 1) := by
    intro h
    have hle : n + 1 ≤ space := by
      have h1 : n + 1 ≤ (n + 1) * r := Nat.le_mul_of_pos_right _ hr
      have h2 : (n + 1) * r + bitmapBytes (n + 1) ≤ space := h
      omega
    have := Nat.le_findGreatest hle h
    omega
  have h1 : n * r + bitmapBytes n ≤ space := hfit
  have h2 : space < (n + 1) * r + bitmapBytes (n + 1) := Nat.lt_of_not_le hnext
  refine ⟨n, by omega, (capacityStep_eq_self_iff hr (by omega)).mpr ⟨h1, ?_⟩⟩
  by_contra hge
  -- the bitmap of `n + 1` is one byte longer, so `n = 4 (n / 4)`
  have hb : bitmapBytes n = n / 4 ∧ bitmapBytes (n + 1) = n / 4 + 1 ∧ n = 4 * (n / 4) := by
    unfold bitmapBytes at h2 hge ⊢
    omega
  apply hs (n / 4)
  rw [← hb.2.2]
  omega

/-- One turn brings an estimate within `d` of the fixed point to within `e`:
records of at least nine bytes absorb the change of the bitmap. -/
theorem capacityStep_near {n d e a : ℕ} (hr : 9 ≤ r) (hn : bitmapBytes n ≤ space)
    (hfix : capacityStep space r n = n) (hd : (d + 3) / 4 ≤ 9 * e) (h1 : a ≤ n + d) (h2 : n ≤ a + d) :
    capacityStep space r a ≤ n + e ∧ n ≤ capacityStep space r a + e := by
  obtain ⟨hlo, hhi⟩ := (capacityStep_eq_self_iff (by omega) hn).mp hfix
  have he : 9 * e ≤ e * r := by rw [Nat.mul_comm]; exact Nat.mul_le_mul_left _ hr
  have hb1 : bitmapBytes a ≤ bitmapBytes n + (d + 3) / 4 := by unfold bitmapBytes; omega
  have hb2 : bitmapBytes n ≤ bitmapBytes a + (d + 3) / 4 := by unfold bitmapBytes; omega
  constructor
  · unfold capacityStep
    rw [← Nat.lt_succ_iff, Nat.div_lt_iff_lt_mul (by omega)]
    have : (n + e).succ * r = (n + 1) * r + e * r := by rw [Nat.succ_eq_add_one]; ring
    omega
  · rcases Nat.lt_or_ge n e with h | h
    · omega
    · obtain ⟨m, rfl⟩ := Nat.exists_eq_add_of_le' h
      have hm : m ≤ (space - bitmapBytes a) / r := by
        rw [Nat.le_div_iff_mul_le (by omega)]
        have : (m + e) * r = m * r + e * r := by ring
        omega
      unfold capacityStep
      omega

/-- Next to the fixed point two more turns reach it: the two neighbours are
not both on the other side of a byte boundary of the bitmap. -/
theorem capacityStep_twice {n a : ℕ} (hr : 9 ≤ r) (hn : bitmapBytes n ≤ space)
    (hfix : capacityStep space r n = n) (h1 : a ≤ n + 1) (h2 : n ≤ a + 1) :
    capacityStep space r (capacityStep space r a) = n := by
  have hsame : ∀ x, bitmapBytes x = bitmapBytes n → capacityStep space r x = n := by
    intro x hx
    rw [← hfix]
    unfold capacityStep
    rw [hx, show (space - bitmapBytes n) / r = n from hfix]
  by_cases ha : bitmapBytes a = bitmapBytes n
  · rw [hsame a ha, hfix]
  · obtain ⟨h3, h4⟩ := capacityStep_near (e := 1) hr hn hfix (by norm_num) h1 h2
    apply hsame
    have hside : (a < n ∧ n ≤ capacityStep space r a) ∨ (n < a ∧ capacityStep space r a ≤ n) := by
      rcases Nat.lt_or_ge a n with h | h
      · left
        exact ⟨h, hfix.symm.le.trans (capacityStep_antitone h.le)⟩
      · right
        refine ⟨lt_of_le_of_ne h fun e => ha (by rw [e]), ?_⟩
        exact (capacityStep_antitone h).trans hfix.le
    unfold bitmapBytes at ha ⊢
    omega

/-- **The estimates settle.** From the estimate without a bitmap, nine turns
reach the fixed point if there is one. -/
theorem capacityStep_settles {n : ℕ} (hr : 9 ≤ r) (hspace : space ≤ 65470) (hn : bitmapBytes n ≤ space)
    (hfix : capacityStep space r n = n) :
    (capacityStep space r)^[9] (capacityStep space r 0) = n := by
  obtain ⟨hlo, -⟩ := (capacityStep_eq_self_iff (by omega) hn).mp hfix
  have hsmall : n ≤ 7274 := by
    have : n * 9 ≤ n * r := Nat.mul_le_mul_left _ hr
    omega
  -- the distance to `n`: 7274, 203, 6, 1, and then none
  obtain ⟨a1, a2⟩ := capacityStep_near (d := 7274) (e := 203) (a := 0) hr hn hfix (by norm_num)
    (by omega) (by omega)
  obtain ⟨b1, b2⟩ := capacityStep_near (e := 6) hr hn hfix (by norm_num) a1 a2
  obtain ⟨c1, c2⟩ := capacityStep_near (e := 1) hr hn hfix (by norm_num) b1 b2
  have hreach := capacityStep_twice hr hn hfix c1 c2
  have h4 : (capacityStep space r)^[4] (capacityStep space r 0) = n := hreach
  rw [show 9 = 5 + 4 from rfl, Function.iterate_add_apply, h4, Function.iterate_fixed hfix]

/-- Without a fixed point the estimates come to alternate between `4k` and `4k + 1`. -/
theorem capacityStep_alternates {k : ℕ} (hr : 9 ≤ r) (hspace : space ≤ 65470)
    (hs : space = (4 * k + 1) * r + k) :
    (capacityStep space r)^[9] (capacityStep space r 0) = 4 * k := by
  have hk : 4 * k + 1 ≤ 7274 := by
    have : (4 * k + 1) * 9 ≤ (4 * k + 1) * r := Nat.mul_le_mul_left _ hr
    omega
  -- from below the next estimate is `4k + 1` or a little more
  have hup {a d e : ℕ} (ha : a ≤ 4 * k) (hd : 4 * k ≤ a + d) (he : (d + 3) / 4 < 9 * (e + 1)) :
      4 * k + 1 ≤ capacityStep space r a ∧ capacityStep space r a ≤ 4 * k + 1 + e := by
    unfold capacityStep bitmapBytes
    constructor
    · rw [Nat.le_div_iff_mul_le (by omega)]
      omega
    · rw [← Nat.lt_succ_iff, Nat.div_lt_iff_lt_mul (by omega)]
      have h1 : (4 * k + 1 + e).succ * r = (4 * k + 1) * r + (e + 1) * r := by rw [Nat.succ_eq_add_one]; ring
      have h2 : (e + 1) * 9 ≤ (e + 1) * r := Nat.mul_le_mul_left _ hr
      omega
  -- from above it is `4k` or a little less
  have hdown {a d e : ℕ} (ha : 4 * k + 1 ≤ a) (hd : a ≤ 4 * k + 1 + d) (he : (d + 3) / 4 ≤ 9 * (e + 1) - 1) :
      capacityStep space r a ≤ 4 * k ∧ 4 * k ≤ capacityStep space r a + e := by
    unfold capacityStep bitmapBytes
    constructor
    · rw [← Nat.lt_succ_iff, Nat.div_lt_iff_lt_mul (by omega)]
      rw [Nat.succ_eq_add_one]
      have h1 : 0 < (4 * k + 1) * r := Nat.mul_pos (by omega) (by omega)
      omega
    · rcases Nat.lt_or_ge (4 * k) e with h | h
      · exact h.le.trans (Nat.le_add_left _ _)
      · obtain ⟨m, hm⟩ := Nat.exists_eq_add_of_le' h
        have hle : m ≤ (space - (a + 3) / 4) / r := by
          rw [Nat.le_div_iff_mul_le (by omega)]
          have h1 : (4 * k + 1) * r = m * r + (e + 1) * r := by rw [hm]; ring
          have h2 : (e + 1) * 9 ≤ (e + 1) * r := Nat.mul_le_mul_left _ hr
          omega
        omega
  obtain ⟨a1, a2⟩ := hup (a := 0) (d := 7274) (e := 202) (by omega) (by omega) (by norm_num)
  obtain ⟨b1, b2⟩ := hdown (e := 5) a1 a2 (by norm_num)
  obtain ⟨c1, c2⟩ := hup (e := 0) b1 b2 (by norm_num)
  have h3 : (capacityStep space r)^[3] 0 = 4 * k + 1 := le_antisymm c2 c1
  have hlow : capacityStep space r (4 * k) = 4 * k + 1 := by
    obtain ⟨h1, h2⟩ := hup (a := 4 * k) (d := 0) (e := 0) le_rfl (by omega) (by norm_num)
    exact le_antisymm h2 h1
  have hhigh : capacityStep space r (4 * k + 1) = 4 * k := by
    obtain ⟨h1, h2⟩ := hdown (a := 4 * k + 1) (d := 0) (e := 0) le_rfl (by omega) (by norm_num)
    exact le_antisymm h1 h2
  have h7 : (capacityStep space r)^[7] (4 * k + 1) = 4 * k := by
    simp only [Function.iterate_succ_apply, Function.iterate_zero, id, hlow, hhigh]
  rw [← Function.iterate_succ_apply, show Nat.succ 9 = 7 + 3 from rfl, Function.iterate_add_apply, h3, h7]

end Iteration

/-! ### The layout -/

theorem availableSpace_le (ps : PageSize) : availableSpace ps ≤ 65470 := by cases ps <;> decide

theorem availableSpace_add (ps : PageSize) :
    availableSpace ps + freeBitmapOff + pageTrailerSize = ps.bytes := by cases ps <;> decide

/-- Where the record size does not wrap and a record fits, `init` keeps the
tenth estimate and the bitmap of the ninth. -/
theorem init_eq {ps : PageSize} {colLen : ℕ} (h1 : 1 ≤ colLen) (h2 : colLen ≤ 65527)
    (hfit : trxRefSize + colLen ≤ availableSpace ps) :
    let e := (capacityStep (availableSpace ps) (trxRefSize + colLen))^[9]
      (capacityStep (availableSpace ps) (trxRefSize + colLen) 0)
    init ps colLen = some ⟨trxRefSize + colLen, bitmapBytes e,
      capacityStep (availableSpace ps) (trxRefSize + colLen) e, freeBitmapOff + bitmapBytes e⟩ := by
  intro e
  set r := trxRefSize + colLen with hr
  set space := availableSpace ps with hspace
  have h8 : trxRefSize = 8 := rfl
  have hr9 : 9 ≤ r := by omega
  have hr16 : r % 2 ^ 16 = r := Nat.mod_eq_of_lt (by omega)
  have hle : space ≤ 65470 := availableSpace_le ps
  have hest : space / r ≤ 7274 :=
    (Nat.div_le_div_left hr9 (by norm_num)).trans (Nat.div_le_div_right (c := 9) hle)
  have hpos : 0 < space / r := Nat.div_pos hfit (by omega)
  have h0 : capacityStep space r 0 = space / r := by simp [capacityStep, bitmapBytes]
  have hloop : refineCapacity space r 10 (space / r % 2 ^ 16) 0 0 = (capacityStep space r e, bitmapBytes e) := by
    rw [Nat.mod_eq_of_lt (by omega), ← h0]
    have hs : space / r < 2 ^ 16 := by omega
    have := refineCapacity_eq_iterate hs 10 0 (by norm_num)
    rw [show bitmapBytes 0 = 0 from rfl, Function.iterate_succ_apply' _ 9,
      Function.iterate_succ_apply _ 9] at this
    exact this
  have hcap : ¬ capacityStep space r e > maxSlotIndex + 1 := by
    have : capacityStep space r e ≤ space / r := capacityStep_le e
    have : maxSlotIndex = 16383 := rfl
    omega
  have he : e ≤ 7274 := by
    have : e = capacityStep space r ((capacityStep space r)^[8] (capacityStep space r 0)) :=
      Function.iterate_succ_apply' _ 8 _
    rw [this]
    exact (capacityStep_le _).trans hest
  have hoff : (freeBitmapOff + bitmapBytes e) % 2 ^ 16 = freeBitmapOff + bitmapBytes e := by
    have h58 : freeBitmapOff = 58 := rfl
    apply Nat.mod_eq_of_lt
    unfold bitmapBytes; omega
  unfold init
  simp only [← hr, hr16, ← hspace]
  rw [if_neg (by omega), if_neg (by omega), hloop]
  simp only [hcap, if_false, hoff]

/-- **The layouts there are.** Where the record size does not wrap and a page has a
record, the layout is the one the readers assume, or there are `4k + 1` records and
the last byte of their bitmap is the first byte of the first record. -/
theorem init_cases {ps : PageSize} {colLen : ℕ} {d : DataPage} (h1 : 1 ≤ colLen) (h2 : colLen ≤ 65527)
    (hinit : init ps colLen = some d) (hm : 1 ≤ d.maxNumRecs) :
    d.recSize = trxRefSize + colLen ∧ d.firstRecOffset + d.maxNumRecs * d.recSize + pageTrailerSize ≤ ps.bytes ∧
      (d.firstRecOffset = freeBitmapOff + bitmapBytes d.maxNumRecs ∨
        ∃ k, d.maxNumRecs = 4 * k + 1 ∧ d.firstRecOffset = freeBitmapOff + k) := by
  have h8 : trxRefSize = 8 := rfl
  have hps := availableSpace_add ps
  rcases Nat.lt_or_ge (availableSpace ps) (trxRefSize + colLen) with hfit | hfit
  · unfold init at hinit
    rw [Nat.mod_eq_of_lt (show trxRefSize + colLen < 2 ^ 16 by omega)] at hinit
    simp only [if_pos hfit, Option.some.injEq] at hinit
    subst hinit
    exact absurd hm (by simp)
  rw [init_eq h1 h2 hfit, Option.some.injEq] at hinit
  set r := trxRefSize + colLen with hr
  set space := availableSpace ps with hspace
  set e := (capacityStep space r)^[9] (capacityStep space r 0) with he
  subst hinit
  by_cases hbad : ∃ k, space = (4 * k + 1) * r + k
  · obtain ⟨k, hk⟩ := hbad
    have hek : e = 4 * k := capacityStep_alternates (by omega) (availableSpace_le ps) hk
    have hmk : capacityStep space r e = 4 * k + 1 := by
      unfold capacityStep bitmapBytes
      rw [hek, hk, show (4 * k + 3) / 4 = k by omega, Nat.add_sub_cancel, Nat.mul_div_cancel _ (by omega)]
    have hb : bitmapBytes e = k := by
      rw [hek]
      unfold bitmapBytes
      omega
    refine ⟨rfl, ?_, .inr ⟨k, hmk, by simp only [hb]⟩⟩
    simp only [hmk, hb]
    omega
  · obtain ⟨n, hn, hfix⟩ : ∃ n, bitmapBytes n ≤ space ∧ capacityStep space r n = n :=
      exists_fixed_capacity (by omega) (not_exists.mp hbad)
    have hen : e = n := capacityStep_settles (by omega) (availableSpace_le ps) hn hfix
    obtain ⟨hlo, -⟩ := (capacityStep_eq_self_iff (by omega) hn).mp hfix
    simp only [hen, hfix]
    refine ⟨trivial, ?_, .inl trivial⟩
    omega

/-- Where the record size does not wrap, `init` does not trap. -/
theorem exists_init (ps : PageSize) {colLen : ℕ} (h1 : 1 ≤ colLen) (h2 : colLen ≤ 65527) :
    ∃ d, init ps colLen = some d := by
  have h8 : trxRefSize = 8 := rfl
  rcases Nat.lt_or_ge (availableSpace ps) (trxRefSize + colLen) with hfit | hfit
  · unfold init
    rw [Nat.mod_eq_of_lt (show trxRefSize + colLen < 2 ^ 16 by omega)]
    exact ⟨_, if_pos hfit⟩
  · exact ⟨_, init_eq h1 h2 hfit⟩

/-- A page has a record if one fits beside no bitmap at all. -/
theorem init_capacity_iff {ps : PageSize} {colLen : ℕ} {d : DataPage} (h1 : 1 ≤ colLen) (h2 : colLen ≤ 65527)
    (hinit : init ps colLen = some d) : 1 ≤ d.maxNumRecs ↔ trxRefSize + colLen ≤ availableSpace ps := by
  have h8 : trxRefSize = 8 := rfl
  rcases Nat.lt_or_ge (availableSpace ps) (trxRefSize + colLen) with hfit | hfit
  · unfold init at hinit
    rw [Nat.mod_eq_of_lt (show trxRefSize + colLen < 2 ^ 16 by omega)] at hinit
    simp only [if_pos hfit, Option.some.injEq] at hinit
    subst hinit
    dsimp only
    omega
  · rw [init_eq h1 h2 hfit, Option.some.injEq] at hinit
    subst hinit
    simp only [hfit, iff_true]
    set r := trxRefSize + colLen with hr
    set space := availableSpace ps with hspace
    by_cases hbad : ∃ k, space = (4 * k + 1) * r + k
    · obtain ⟨k, hk⟩ := hbad
      rw [capacityStep_alternates (by omega) (availableSpace_le ps) hk]
      unfold capacityStep bitmapBytes
      rw [hk, show (4 * k + 3) / 4 = k by omega, Nat.add_sub_cancel, Nat.mul_div_cancel _ (by omega)]
      omega
    · obtain ⟨n, hn, hfix⟩ := exists_fixed_capacity (by omega) (not_exists.mp hbad)
      rw [capacityStep_settles (by omega) (availableSpace_le ps) hn hfix, hfix]
      by_contra hzero
      obtain rfl : n = 0 := by omega
      -- no record is a fixed point only where none fits
      have := ((capacityStep_eq_self_iff (by omega) hn).mp hfix).2
      rw [show bitmapBytes 0 = 0 from rfl] at this
      omega

/-- Where the record size wraps, `init` traps or overruns the page. -/
theorem init_wrapped (ps : PageSize) {colLen : ℕ} (h1 : 65527 < colLen) (h2 : colLen < 2 ^ 16) :
    ¬ ∃ d, init ps colLen = some d ∧ LayoutOK ps colLen d := by
  have hcases : colLen = 65528 ∨ colLen = 65529 ∨ colLen = 65530 ∨ colLen = 65531 ∨
      colLen = 65532 ∨ colLen = 65533 ∨ colLen = 65534 ∨ colLen = 65535 := by omega
  rintro ⟨d, hd, hok⟩
  rcases hcases with h | h | h | h | h | h | h | h <;> subst h <;> cases ps <;>
    simp [init, refineCapacity, bitsToBytesCeil, trxRefSize, availableSpace, PageSize.bytes,
      freeBitmapOff, numFreeRecsOff, maxNumRecsOff, nextFreePageOff, prevFreePageOff, rootPageRefOff,
      freeSlotNumberOff, pageTypeOff, versionOff, pageHeaderSize, pageTrailerSize, bitsPerRecord,
      maxSlotIndex] at hd <;>
    subst hd <;> revert hok <;> decide

/-- Where the record size does not wrap and the estimates settle, `init` yields the
layout the readers assume. -/
theorem layoutOK_of_settles {ps : PageSize} {colLen : ℕ} (h1 : 1 ≤ colLen) (hw : colLen ≤ 65527)
    (hs : ∀ k, availableSpace ps ≠ (4 * k + 1) * (trxRefSize + colLen) + k) :
    ∃ d, init ps colLen = some d ∧ LayoutOK ps colLen d := by
  have h8 : trxRefSize = 8 := rfl
  have hps := availableSpace_add ps
  rcases Nat.lt_or_ge (availableSpace ps) (trxRefSize + colLen) with hfit | hfit
  · -- no record fits: the layout is empty
    have hinit : init ps colLen = some ⟨trxRefSize + colLen, 0, 0, freeBitmapOff⟩ := by
      unfold init
      simp only [Nat.mod_eq_of_lt (show trxRefSize + colLen < 2 ^ 16 by omega)]
      rw [if_pos hfit]
    have hz : bitsToBytesCeil (bitsPerRecord * 0) = 0 := rfl
    refine ⟨_, hinit, ?_⟩
    simp only [LayoutOK, hz]
    omega
  · obtain ⟨n, hn, hfix⟩ := exists_fixed_capacity (by omega) hs
    have hsettle := capacityStep_settles (by omega) (availableSpace_le ps) hn hfix
    obtain ⟨hlo, -⟩ := (capacityStep_eq_self_iff (by omega) hn).mp hfix
    have hinit := init_eq h1 hw hfit
    dsimp only at hinit
    rw [hsettle, hfix] at hinit
    refine ⟨_, hinit, ?_⟩
    simp only [LayoutOK, Nat.mul_comm bitsPerRecord, bitsToBytesCeil_two]
    refine ⟨le_rfl, ?_, trivial⟩
    omega

/-- **The layout of a data page.** `init` yields the layout the readers assume
exactly when the record size fits in 16 bits and the space for bitmap and
records is not `(4k + 1) * rec_size + k`. -/
theorem init_layout_iff (ps : PageSize) (colLen : ℕ) (h1 : 1 ≤ colLen) (h2 : colLen < 2 ^ 16) :
    (∃ d, init ps colLen = some d ∧ LayoutOK ps colLen d) ↔
      colLen ≤ 65527 ∧
        ∀ k, availableSpace ps ≠ (4 * k + 1) * (trxRefSize + colLen) + k := by
  rcases Nat.lt_or_ge 65527 colLen with hw | hw
  · simp only [init_wrapped ps hw h2, false_iff]
    omega
  refine ⟨?_, fun h => layoutOK_of_settles h1 hw h.2⟩
  rintro ⟨d, hd, -, -, hsame⟩
  refine ⟨hw, fun k hk => ?_⟩
  have h8 : trxRefSize = 8 := rfl
  rcases Nat.lt_or_ge (availableSpace ps) (trxRefSize + colLen) with hfit | hfit
  · -- no record fits: the space is too short for the bad form
    have : trxRefSize + colLen ≤ (4 * k + 1) * (trxRefSize + colLen) := Nat.le_mul_of_pos_left _ (by omega)
    omega
  · have hinit := init_eq h1 hw hfit
    dsimp only at hinit
    rw [hd, Option.some.injEq] at hinit
    set e := (capacityStep (availableSpace ps) (trxRefSize + colLen))^[9]
      (capacityStep (availableSpace ps) (trxRefSize + colLen) 0)
    subst hinit
    simp only [Nat.mul_comm bitsPerRecord, bitsToBytesCeil_two] at hsame
    -- the two estimates share a bitmap, so the last one is a fixed point
    apply capacityStep_ne_self (n := capacityStep (availableSpace ps) (trxRefSize + colLen) e) (by omega) hk
    have hb : bitmapBytes (capacityStep (availableSpace ps) (trxRefSize + colLen) e) = bitmapBytes e := by omega
    unfold capacityStep at hb ⊢
    rw [hb]

/-- A 100-byte column on 16K pages. -/
theorem init_layout_hundred : (∃ d, init .k16 100 = some d ∧ LayoutOK .k16 100 d) := by
  refine (init_layout_iff .k16 100 (by norm_num) (by norm_num)).mpr ⟨by norm_num, fun k hk => ?_⟩
  rw [show availableSpace .k16 = 16318 from rfl, show trxRefSize = 8 from rfl] at hk
  omega

/-- A vector of one dimension (four bytes) on 4K pages: `k = 82`, and the 329
records the page is given need 83 bytes of bitmap. -/
theorem init_layout_one_dimension : ¬ ∃ d, init .k4 4 = some d ∧ LayoutOK .k4 4 d := by
  rintro ⟨d, hd, hok⟩
  rw [show init .k4 4 = some ⟨12, 82, 329, 140⟩ by decide, Option.some.injEq] at hd
  subst hd
  revert hok
  decide

end DataPage
end VsqlVector
