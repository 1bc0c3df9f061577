/-
# Readers of a string of bytes

A parser in the style of C holds a pointer into a string and counts the bytes it
believes are left. Nothing but its own checks keeps the two together, so here a
read is of whatever stands at the pointer, and a read with nothing there is an
outcome of its own, `pastEnd`.

`Stands` says that pointer and count agree on what is left; a reader that checks
the count before it reads keeps it, and never comes to `pastEnd`.

Key definitions: `Cursor`, `Reader`, `Stands`.
Key theorems: `Stands.next`, `Stands.bytes`, `Stands.number`.
-/
import VsqlVector.Lib.Prog
import VsqlVector.Lib.Bytes

namespace VsqlVector

/-- Why a reader stops: it refuses the string, or it looked past its end. -/
inductive Fault (ε : Type)
  | malformed (e : ε)
  | pastEnd
  deriving DecidableEq, Repr

/-! ### Where a reader stops -/

theorem ok_bind {ε α β : Type} (a : α) (f : α → Except ε β) : (Except.ok a >>= f) = f a := rfl

theorem bind_eq_ok {ε α β : Type} {x : Except ε α} {f : α → Except ε β} {b : β} :
    x >>= f = .ok b ↔ ∃ a, x = .ok a ∧ f a = .ok b := by
  cases x with
  | error e => exact ⟨fun h => (by cases h), fun ⟨_, h, _⟩ => (by cases h)⟩
  | ok a => exact ⟨fun h => ⟨a, rfl, h⟩, fun ⟨_, h, hf⟩ => (by cases h; exact hf)⟩

/-- The reader has an outcome if `P` holds, and stops at `e` if not. -/
structure StopsUnless {ε α : Type} (e : ε) (P : Prop) (x : Except ε α) : Prop where
  reads : P → ∃ a, x = .ok a
  stops : ¬ P → x = .error e

namespace StopsUnless

variable {ε α β : Type} {e : ε} {P Q : Prop} {x : Except ε α}

theorem ne_iff (h : StopsUnless e P x) : x ≠ .error e ↔ P := by
  constructor
  · intro hx
    by_contra hP
    exact hx (h.stops hP)
  · rintro hP rfl
    obtain ⟨a, ha⟩ := h.reads hP
    cases ha

theorem congr (h : StopsUnless e P x) (hPQ : P ↔ Q) : StopsUnless e Q x :=
  ⟨fun hQ => h.reads (hPQ.mpr hQ), fun hQ => h.stops fun hP => hQ (hPQ.mp hP)⟩

theorem pure (a : α) : StopsUnless e True (Pure.pure a : Except ε α) := ⟨fun _ => ⟨a, rfl⟩, fun h => absurd trivial h⟩

/-- One after the other. -/
theorem bind {f : α → Except ε β} (h : StopsUnless e P x) (hf : ∀ a, x = .ok a → StopsUnless e Q (f a)) :
    StopsUnless e (P ∧ Q) (x >>= f) := by
  constructor
  · rintro ⟨hP, hQ⟩
    obtain ⟨a, ha⟩ := h.reads hP
    obtain ⟨b, hb⟩ := (hf a ha).reads hQ
    exact ⟨b, by rw [ha]; exact hb⟩
  · intro hPQ
    by_cases hP : P
    · obtain ⟨a, ha⟩ := h.reads hP
      rw [ha]
      exact (hf a ha).stops fun hQ => hPQ ⟨hP, hQ⟩
    · rw [h.stops hP]
      rfl

/-- A last step that reads nothing. -/
theorem bind_pure (h : StopsUnless e P x) (f : α → β) : StopsUnless e P (x >>= fun a => Pure.pure (f a)) :=
  (h.bind fun a _ => pure (f a)).congr (and_iff_left trivial)

theorem map (h : StopsUnless e P x) (f : α → β) : StopsUnless e P (x.map f) := by
  constructor
  · intro hP
    obtain ⟨a, rfl⟩ := h.reads hP
    exact ⟨f a, rfl⟩
  · intro hP
    rw [h.stops hP]
    rfl

/-- A loop. -/
theorem mapM {f : α → Except ε β} {P : α → Prop} : ∀ {l : List α}, (∀ a ∈ l, StopsUnless e (P a) (f a)) →
    StopsUnless e (∀ a ∈ l, P a) (l.mapM f)
  | [], _ => ⟨fun _ => ⟨[], rfl⟩, fun h => absurd (by simp) h⟩
  | a :: l, h => by
    rw [List.mapM_cons]
    have hrest := mapM fun b hb => h b (List.mem_cons_of_mem a hb)
    exact ((h a List.mem_cons_self).bind fun b _ => hrest.bind_pure fun bs => b :: bs).congr List.forall_mem_cons.symm

end StopsUnless

/-- A string with a pointer `p` into it and the number of bytes believed left. -/
structure Cursor where
  data : List (BitVec 8)
  p : ℕ
  rem : ℕ

abbrev Reader (ε α : Type) := Prog (Fault ε) Cursor α

namespace Reader

variable {ε α : Type}

/-- `p[i]`. -/
def peek (i : ℕ) : Reader ε ℕ := fun c =>
  match c.data[c.p + i]? with
  | some b => (.ok b.toNat, c)
  | none => (.error .pastEnd, c)

/-- `p += n`. -/
def advance (n : ℕ) : Reader ε Unit := Prog.modify fun c => { c with p := c.p + n }

/-- `rem -= n`. -/
def spend (n : ℕ) : Reader ε Unit := Prog.modify fun c => { c with rem := c.rem - n }

/-- `*p++`. -/
def next : Reader ε ℕ := do
  let b ← peek 0
  advance 1
  pure b

/-- Copy `n` bytes from the pointer on. -/
def bytes (n : ℕ) : Reader ε (List (BitVec 8)) := fun c =>
  if c.p + n ≤ c.data.length then (.ok ((c.data.drop c.p).take n), c) else (.error .pastEnd, c)

/-- Stop unless `n` bytes are left. -/
def need (n : ℕ) (e : ε) : Reader ε Unit := fun c =>
  if c.rem < n then (.error (.malformed e), c) else (.ok (), c)

/-- A big-endian number, by `*p++`, that goes on from `v`. -/
def number : ℕ → ℕ → Reader ε ℕ
  | 0, v => pure v
  | n + 1, v => do
    let b ← next
    number n (v * 256 + b)

/-- A big-endian number of `n` bytes, by `p[i]`. -/
def peekNumber (n : ℕ) : Reader ε ℕ :=
  (List.range n).foldlM (fun v i => do
    let b ← peek i
    pure (v * 256 + b)) 0

/-- The results of `n` turns of a loop. -/
def times (r : Reader ε α) : ℕ → Reader ε (List α)
  | 0 => pure []
  | n + 1 => do
    let a ← r
    let rest ← times r n
    pure (a :: rest)

/-- The outcome on a whole string. -/
def run (r : Reader ε α) (data : List (BitVec 8)) : Except (Fault ε) α := (r ⟨data, 0, data.length⟩).1

theorem spend_bind {β : Type} (n : ℕ) (k : Unit → Reader ε β) (c : Cursor) :
    (spend n >>= k) c = k () { c with rem := c.rem - n } := rfl

end Reader

/-- Pointer and count both stand before `rest`. -/
structure Stands (c : Cursor) (rest : List (BitVec 8)) : Prop where
  len : c.p + c.rem = c.data.length
  drop : c.data.drop c.p = rest

namespace Stands

variable {ε : Type} {c : Cursor} {rest : List (BitVec 8)}

theorem start (data : List (BitVec 8)) : Stands ⟨data, 0, data.length⟩ data := ⟨by simp, rfl⟩

theorem rem (h : Stands c rest) : c.rem = rest.length := by
  have h1 := h.len
  have h2 := congrArg List.length h.drop
  rw [List.length_drop] at h2
  omega

theorem getElem? (h : Stands c rest) (i : ℕ) : c.data[c.p + i]? = rest[i]? := by
  rw [← h.drop, List.getElem?_drop]

/-- Pointer and count move on together. -/
theorem move (h : Stands c rest) {n : ℕ} (hn : n ≤ rest.length) :
    Stands { c with p := c.p + n, rem := c.rem - n } (rest.drop n) := by
  have h1 := h.len
  have h2 := h.rem
  refine ⟨?_, ?_⟩
  · show c.p + n + (c.rem - n) = c.data.length
    omega
  · show c.data.drop (c.p + n) = _
    rw [← h.drop, List.drop_drop]

theorem need_ok (h : Stands c rest) {n : ℕ} {e : ε} (hn : n ≤ rest.length) :
    Reader.need n e c = (.ok (), c) := by
  rw [Reader.need, h.rem, if_neg (by omega)]

theorem need_fail (h : Stands c rest) {n : ℕ} {e : ε} (hn : rest.length < n) :
    Reader.need n e c = (.error (.malformed e), c) := by
  rw [Reader.need, h.rem, if_pos hn]

/-- What stands within the string can be read. -/
theorem peek {d : Cursor} {i : ℕ} {b : BitVec 8} (h : d.data[d.p + i]? = some b) :
    (Reader.peek i : Reader ε ℕ) d = (.ok b.toNat, d) := by
  rw [Reader.peek, h]

theorem bytes (h : Stands c rest) {n : ℕ} (hn : n ≤ rest.length) :
    (Reader.bytes n : Reader ε (List (BitVec 8))) c = (.ok (rest.take n), c) := by
  have h1 := h.len
  have h2 := h.rem
  rw [Reader.bytes, if_pos (by omega), h.drop]

theorem next {d : Cursor} {b : BitVec 8} (h : d.data[d.p]? = some b) :
    (Reader.next : Reader ε ℕ) d = (.ok b.toNat, { d with p := d.p + 1 }) := by
  rw [Reader.next, Prog.bind_apply, peek (i := 0) h]
  rfl

/-- Reading a number by `*p++` takes the bytes from the pointer on. -/
theorem number : ∀ {n v : ℕ} {d : Cursor}, d.p + n ≤ d.data.length →
    (Reader.number n v : Reader ε ℕ) d =
      (.ok (((d.data.drop d.p).take n).foldl (fun v b => v * 256 + b.toNat) v), { d with p := d.p + n })
  | 0, v, d, _ => by simp [Reader.number]
  | n + 1, v, d, h => by
    have hp : d.p < d.data.length := by omega
    rw [Reader.number, Prog.bind_apply, next (List.getElem?_eq_getElem hp)]
    show (Reader.number n _ : Reader ε ℕ) { d with p := d.p + 1 } = _
    rw [number (show d.p + 1 + n ≤ d.data.length by omega), List.drop_eq_getElem_cons hp,
      List.take_succ_cons, List.foldl_cons, Nat.add_assoc, Nat.add_comm 1 n]

/-- Reading a number by `p[i]` takes the same bytes and stays where it is. -/
theorem peekNumber {n : ℕ} {d : Cursor} (h : d.p + n ≤ d.data.length) :
    (Reader.peekNumber n : Reader ε ℕ) d = (.ok (Bytes.decode ((d.data.drop d.p).take n)), d) := by
  induction n with
  | zero => rfl
  | succ n ih =>
    have hp : d.p + n < d.data.length := by omega
    have hn : n < (d.data.drop d.p).length := by
      rw [List.length_drop]
      omega
    have hstep := ih (by omega)
    rw [Reader.peekNumber] at hstep ⊢
    rw [List.range_succ, List.foldlM_append, Prog.bind_apply, hstep, List.take_succ_eq_append_getElem hn,
      List.getElem_drop]
    simp only [List.foldlM_cons, List.foldlM_nil, Prog.bind_apply,
      peek (List.getElem?_eq_getElem hp), Prog.pure_apply, Bytes.decode, List.foldl_append, List.foldl_cons,
      List.foldl_nil]

/-- A loop whose turns each read a number of `w` bytes reads the array of them. -/
theorem times {r : Reader ε ℕ} {w : ℕ} (hr : ∀ d : Cursor, d.p + w ≤ d.data.length →
    ∃ rem, r d = (.ok (Bytes.decode ((d.data.drop d.p).take w)), ⟨d.data, d.p + w, rem⟩)) :
    ∀ (n : ℕ) (d : Cursor), d.p + n * w ≤ d.data.length →
      ∃ d', Reader.times r n d =
        (.ok ((List.range n).map fun i => Bytes.decode (Bytes.chunk w (d.data.drop d.p) i)), d')
  | 0, d, _ => ⟨d, rfl⟩
  | n + 1, d, h => by
    rw [Nat.add_mul, Nat.one_mul] at h
    obtain ⟨rem, h1⟩ := hr d (by omega)
    obtain ⟨d', h2⟩ := times hr n ⟨d.data, d.p + w, rem⟩ (by show d.p + w + n * w ≤ d.data.length; omega)
    refine ⟨d', ?_⟩
    rw [Reader.times, Prog.bind_apply, h1]
    simp only [Prog.bind_apply, h2, Prog.pure_apply]
    rw [List.range_succ_eq_map, List.map_cons, List.map_map]
    have hchunk (i : ℕ) : Bytes.chunk w (d.data.drop (d.p + w)) i = Bytes.chunk w (d.data.drop d.p) (i + 1) := by
      rw [Bytes.chunk, Bytes.chunk, List.drop_drop, List.drop_drop, Nat.add_mul, Nat.one_mul]
      congr 2
      omega
    simp only [Function.comp_def, hchunk]
    simp [Bytes.chunk]

/-- A byte read after its check. -/
theorem byte {α : Type} {b : BitVec 8} {e : ε} (h : Stands c (b :: rest)) (k : ℕ → Reader ε α) :
    (Reader.need 1 e >>= fun _ => Reader.next >>= fun v => Reader.spend 1 >>= fun _ => k v) c =
      k b.toNat ⟨c.data, c.p + 1, c.rem - 1⟩ := by
  have hb : c.data[c.p]? = some b := by simpa using h.getElem? 0
  rw [Prog.bind_apply, h.need_ok (by simp)]
  show (Reader.next >>= fun v => Reader.spend 1 >>= fun _ => k v) c = _
  rw [Prog.bind_apply, next hb]
  rfl

/-- A block read after its check. -/
theorem block {α : Type} {n : ℕ} {e : ε} (h : Stands c rest) (hn : n ≤ rest.length)
    (k : List (BitVec 8) → Reader ε α) :
    (Reader.need n e >>= fun _ => Reader.bytes n >>= fun l => Reader.advance n >>= fun _ =>
        Reader.spend n >>= fun _ => k l) c =
      k (rest.take n) ⟨c.data, c.p + n, c.rem - n⟩ := by
  rw [Prog.bind_apply, h.need_ok hn]
  show (Reader.bytes n >>= fun l => Reader.advance n >>= fun _ => Reader.spend n >>= fun _ => k l) c = _
  rw [Prog.bind_apply, h.bytes hn]
  rfl

/-- A check that fails ends the reader. -/
theorem stop {α : Type} {n : ℕ} {e : ε} (h : Stands c rest) (hn : rest.length < n) (k : Unit → Reader ε α) :
    (Reader.need n e >>= k) c = (.error (.malformed e), c) := by
  rw [Prog.bind_apply, h.need_fail hn]

end Stands
end VsqlVector
