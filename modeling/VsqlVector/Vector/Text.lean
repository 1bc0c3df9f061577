/-
# Vectors as text

`svector_from_string` (`src/vector.cc`) reads a vector from a text in brackets. The
text is a string view, and `strtof`, which reads the elements, is handed its
pointer only: it would read on behind the view, were it not for the closing
bracket, which is still there in memory and stops it.

Which strings are floats, with which bits and when out of range, is up to the C
library (`FloatSyntax`); what is asked of it is that a float has none of the
characters that end an element, and that `0` is zero.

The texts that are accepted are those of the grammar (`IsVector`), and what is
stored is what the grammar says (`readElements_cases`).

Key definitions: `svectorFromString`, `svectorDefault`, `strtof`, `IsVector`.
Key theorem: `svector_from_string_accepts`.
-/
import VsqlVector.Lib.Cursor
import VsqlVector.Lib.Scan

namespace VsqlVector

open Bytes

abbrev Text := List (BitVec 8)

/-! ### Characters -/

def openBracket : BitVec 8 := 0x5B
def closeBracket : BitVec 8 := 0x5D
def comma : BitVec 8 := 0x2C
def digitZero : BitVec 8 := 0x30

/-- `isspace`: the blank, and tab to carriage return. -/
def isSpace (b : BitVec 8) : Bool := b = 0x20 ∨ (0x09 ≤ b.toNat ∧ b.toNat ≤ 0x0D)

/-- What no float has. -/
def stops (b : BitVec 8) : Bool := b = closeBracket ∨ b = comma ∨ isSpace b

/-! ### Floats -/

/-- The strings that are floats to the C library: the bits of each, and whether it
is out of range. -/
structure FloatSyntax where
  read : Text → Option (BitVec 32 × Bool)
  read_nil : read [] = none
  clean : ∀ t, (read t).isSome → ∀ b ∈ t, stops b = false
  read_zero : read [digitZero] = some (0, false)

/-- What `strtof` returns, how far behind its argument `next` is, and whether
`errno` is `ERANGE`. -/
structure StrtofResult where
  value : BitVec 32
  consumed : ℕ
  rangeError : Bool
  deriving DecidableEq, Repr

/-- The longest float a word begins with. -/
def FloatSyntax.scan (F : FloatSyntax) (word : Text) : StrtofResult :=
  let n := longest (fun t => (F.read t).isSome) word
  match F.read (word.take n) with
  | none => ⟨0, 0, false⟩
  | some (value, rangeError) => ⟨value, n, rangeError⟩

/-- `strtof` on what can be read from a pointer on: it skips white space and reads
the longest float there is. Where nothing stops the word it would read past the
end. -/
def strtof (F : FloatSyntax) (s : Text) : Option StrtofResult :=
  let rest := s.dropWhile isSpace
  let word := rest.takeWhile fun b => !stops b
  if word.length = rest.length then none
  else
    let r := F.scan word
    some (if r.consumed = 0 then r else { r with consumed := s.length - rest.length + r.consumed })

/-- `float4store`: the least significant byte first. -/
def float4store (value : BitVec 32) : Text :=
  [value.setWidth 8, (value >>> 8).setWidth 8, (value >>> 16).setWidth 8, (value >>> 24).setWidth 8]

/-- `float4get`. -/
def float4get (buffer : Text) : BitVec 32 :=
  (buffer.getD 0 0).setWidth 32 ||| (buffer.getD 1 0).setWidth 32 <<< 8 |||
    (buffer.getD 2 0).setWidth 32 <<< 16 ||| (buffer.getD 3 0).setWidth 32 <<< 24

/-! ### `svector_from_string` -/

/-- `MAX_VECTOR_DIMENSION`. -/
def maxVectorDimension : ℕ := 3072

/-- `sizeof(vef_storage_ref_t)`. -/
def storageRefSize : ℕ := 8

/-- What the function writes: the output buffer, the length of the result and the
dimension of the type, where one is known. -/
structure VectorOut where
  buffer : Text
  length : Option ℕ
  dimension : Option ℤ
  deriving DecidableEq, Repr

abbrev TextProg := Prog (Fault String) VectorOut

namespace TextProg

/-- `out.warning`, with which the function ends. -/
def warning {α : Type} (text : String) : TextProg α := Prog.fail (.malformed text)

/-- A write into the output buffer. -/
def write (off : ℕ) (bytes : Text) : TextProg Unit := fun s =>
  if off + bytes.length ≤ s.buffer.length then (.ok (), { s with buffer := splice s.buffer off bytes })
  else (.error .pastEnd, s)

end TextProg

open TextProg

/-- What is left of the view behind an element and the white space that follows. -/
def dropElement (n : ℕ) (parse : StringView (BitVec 8)) : Option (StringView (BitVec 8)) :=
  (parse.removePrefix n).map (StringView.skipWhile isSpace)

/-- The loop over the elements; `room` is what is missing to the expected number,
so the loop ends. It returns the number of elements. -/
def readElements (F : FloatSyntax) (isKnown : Bool) : ℕ → StringView (BitVec 8) → ℕ → TextProg ℕ
  | 0, parse, _ =>
    if (parse.skipWhile isSpace).chars = [] then warning "svector_from_string: missing value"
    else warning (if isKnown then "svector_from_string: too many elements"
      else "svector_from_string: buffer too small")
  | room + 1, parse, count =>
    let parse := parse.skipWhile isSpace
    if parse.chars = [] then warning "svector_from_string: missing value"
    else
      match strtof F parse.data with
      | none => Prog.fail .pastEnd
      | some r =>
        if r.consumed = 0 ∨ r.rangeError then warning "svector_from_string: parse error"
        else do
          write (storageRefSize + 4 * count) (float4store r.value)
          match dropElement r.consumed parse with
          | none => Prog.fail .pastEnd
          | some parse =>
            match parse.chars with
            | [] => pure (count + 1)
            | b :: rest =>
              if b ≠ comma then warning "svector_from_string: expected ','"
              else readElements F isKnown room ⟨rest, parse.behind⟩ (count + 1)

/-- The elements the buffer has room for. -/
def maxSupportable (size : ℕ) : ℕ := min ((size - storageRefSize) / 4) maxVectorDimension

/-- The number of elements expected: the dimension where it is known, else what the
buffer has room for. -/
def expectedElements (size : ℕ) : Option ℤ → TextProg ℕ
  | some d =>
    if d ≤ 0 ∨ d > maxVectorDimension then warning "svector_from_string: invalid dimension"
    else if maxSupportable size < d.toNat then warning "svector_from_string: buffer too small"
    else pure d.toNat
  | none => pure (maxSupportable size)

/-- `svector_from_string` of a trimmed view. -/
def readVector (F : FloatSyntax) (sv : StringView (BitVec 8)) : TextProg Unit := do
  if sv.chars.length < 2 ∨ sv.chars.head? ≠ some openBracket ∨ sv.chars.getLast? ≠ some closeBracket then
    warning "svector_from_string: missing '[' or ']'"
  else
    let inner := sv.substr 1 (sv.chars.length - 2)
    let s ← Prog.get
    if s.buffer.length < storageRefSize then warning "svector_from_string: buffer too small"
    else
      let expected ← expectedElements s.buffer.length s.dimension
      write 0 (List.replicate storageRefSize 0)
      let count ← readElements F s.dimension.isSome expected inner 0
      if s.dimension.isSome then
        if count ≠ expected then warning "svector_from_string: dimension mismatch"
        else Prog.modify fun s => { s with length := some (storageRefSize + count * 4) }
      else if count = 0 ∨ count > maxVectorDimension then warning "svector_from_string: invalid dimension"
      else Prog.modify fun s =>
        { s with dimension := some (count : ℤ), length := some (storageRefSize + count * 4) }

/-- `trim`. -/
def trim (v : StringView (BitVec 8)) : StringView (BitVec 8) := (v.skipWhile isSpace).skipBack isSpace

/-- `svector_from_string`. -/
def svectorFromString (F : FloatSyntax) (source : StringView (BitVec 8)) : TextProg Unit := readVector F (trim source)

/-- `svector_validate_dimension`, with its message. -/
def svectorValidateDimension (dimension : ℤ) : Except String Unit :=
  if dimension ≤ 0 then .error ("VECTOR: Dimension must be positive, got " ++ toString dimension)
  else if dimension > maxVectorDimension then
    .error ("VECTOR: Dimension " ++ toString dimension ++ " exceeds maximum allowed (" ++
      toString maxVectorDimension ++ ")")
  else .ok ()

/-- `svector_default`: the characters as they are written, with the message if there is one. -/
def svectorDefault (dimension : ℤ) : Text × Option String :=
  match svectorValidateDimension dimension with
  | .error e => ([openBracket, closeBracket], some e)
  | .ok () =>
    ([openBracket, digitZero] ++ (List.range' 1 (dimension.toNat - 1)).flatMap (fun _ => [comma, digitZero]) ++
      [closeBracket], none)

/-! ### The grammar -/

def Blank (text : Text) : Prop := ∀ b ∈ text, isSpace b = true

section Grammar

variable (F : FloatSyntax)

/-- An element: a float in range, with white space around it. -/
def IsElement (text : Text) (v : BitVec 32) : Prop :=
  ∃ l t r, text = l ++ (t ++ r) ∧ Blank l ∧ Blank r ∧ F.read t = some (v, false)

/-- One or more elements, with single commas between them. -/
inductive Elements : Text → List (BitVec 32) → Prop
  | one {text : Text} {v : BitVec 32} : IsElement F text v → Elements text [v]
  | cons {text rest : Text} {v : BitVec 32} {vs : List (BitVec 32)} : IsElement F text v → Elements rest vs →
    Elements (text ++ comma :: rest) (v :: vs)

/-- A vector: its elements in brackets, with white space around it. -/
def IsVector (text : Text) (vs : List (BitVec 32)) : Prop :=
  ∃ l inner r, text = l ++ (openBracket :: inner ++ [closeBracket]) ++ r ∧ Blank l ∧ Blank r ∧ Elements F inner vs

end Grammar

/-- What the output buffer holds of a vector: a zeroed reference, the floats, and
behind them what was there before. -/
def storedVector (vs : List (BitVec 32)) (buffer : Text) : Text :=
  List.replicate storageRefSize 0 ++ vs.flatMap float4store ++ buffer.drop (storageRefSize + 4 * vs.length)

/-! ### Characters of the text -/

theorem isSpace_stops {b : BitVec 8} (h : isSpace b = true) : stops b = true := by
  unfold stops
  simp [h]

theorem stops_comma : stops comma = true := by decide

theorem stops_closeBracket : stops closeBracket = true := by decide

theorem Blank.dropWhile {text rest : Text} (h : Blank text) : (text ++ rest).dropWhile isSpace = rest.dropWhile isSpace :=
  List.dropWhile_append_of_pos h

theorem blank_takeWhile (text : Text) : Blank (text.takeWhile isSpace) := fun _ hb => List.mem_takeWhile_imp hb

section Floats

variable {F : FloatSyntax} {t rest : Text} {v : BitVec 32}

theorem FloatSyntax.ne_nil (h : F.read t = some (v, false)) : t ≠ [] := by
  rintro rfl
  rw [F.read_nil] at h
  cases h

theorem FloatSyntax.no_stop (h : F.read t = some (v, false)) : ∀ b ∈ t, stops b = false :=
  F.clean t (by rw [h]; rfl)

/-- No white space is skipped in front of a float. -/
theorem FloatSyntax.dropWhile (h : F.read t = some (v, false)) (rest : Text) :
    (t ++ rest).dropWhile isSpace = t ++ rest := by
  cases t with
  | nil => exact absurd rfl (F.ne_nil h)
  | cons b bs =>
    have hb : isSpace b = false := by
      have := F.no_stop h b List.mem_cons_self
      by_contra hs
      rw [isSpace_stops (by simpa using hs)] at this
      cases this
    rw [List.cons_append, List.dropWhile_cons_of_neg (by simp [hb])]

/-- A word that is a float is read as it is. -/
theorem FloatSyntax.scan_float (h : F.read t = some (v, false)) : F.scan t = ⟨v, t.length, false⟩ := by
  unfold FloatSyntax.scan
  have hlen : longest (fun t => (F.read t).isSome) t = t.length := longest_self (by rw [h]; rfl)
  dsimp only
  rw [hlen, List.take_length, h]

/-- What `strtof` reads is a float. -/
theorem FloatSyntax.scan_consumed {word : Text} (h : ¬ ((F.scan word).consumed = 0 ∨ (F.scan word).rangeError = true)) :
    (F.scan word).consumed ≤ word.length ∧
      F.read (word.take (F.scan word).consumed) = some ((F.scan word).value, false) := by
  rcases hr : F.read (word.take (longest (fun t => (F.read t).isSome) word)) with _ | ⟨w, range⟩
  · have hscan : F.scan word = ⟨0, 0, false⟩ := by
      unfold FloatSyntax.scan
      dsimp only
      rw [hr]
    rw [hscan] at h
    simp at h
  · have hscan : F.scan word = ⟨w, longest (fun t => (F.read t).isSome) word, range⟩ := by
      unfold FloatSyntax.scan
      dsimp only
      rw [hr]
    rw [hscan] at h ⊢
    dsimp only at h ⊢
    simp only [not_or, Bool.not_eq_true] at h
    exact ⟨longest_le _ _, by rw [hr, ← h.2]⟩

end Floats

section Words

variable {F : FloatSyntax} {w behind : Text}

/-- The word at the front of a text. -/
def frontWord (w : Text) : Text := w.takeWhile fun b => !stops b

theorem frontWord_float {t rest : Text} {v : BitVec 32} (h : F.read t = some (v, false)) (hrest : Stopped stops rest) :
    frontWord (t ++ rest) = t :=
  takeWhile_append_stopped (F.no_stop h) hrest

/-- `strtof` on a view that does not begin with white space reads the word at its
front, whatever stands behind the view as long as it stops the word. -/
theorem strtof_view (hw : w.dropWhile isSpace = w) (hne : w ≠ []) (hstop : Stopped stops behind) (hb : behind ≠ []) :
    strtof F (w ++ behind) = some (F.scan (frontWord w)) := by
  have hdrop : (w ++ behind).dropWhile isSpace = w ++ behind := by
    cases w with
    | nil => exact absurd rfl hne
    | cons b bs =>
      have hspace : isSpace b = false := by
        by_contra hs
        have hlen := congrArg List.length hw
        rw [List.dropWhile_cons_of_pos (by simpa using hs), List.length_cons] at hlen
        have := (List.dropWhile_suffix (l := bs) isSpace).length_le
        omega
      rw [List.cons_append, List.dropWhile_cons_of_neg (by simp [hspace])]
  have hword : (w ++ behind).takeWhile (fun b => !stops b) = frontWord w := takeWhile_append_behind hstop
  have hlen : (frontWord w).length ≠ (w ++ behind).length := by
    have h1 : (frontWord w).length ≤ w.length := (List.takeWhile_prefix _).length_le
    have h2 := List.length_pos_iff.mpr hb
    rw [List.length_append]
    omega
  unfold strtof
  simp only [hdrop, hword, hlen, if_false, Nat.sub_self, Nat.zero_add]
  split <;> rfl

end Words

section Head

variable {F : FloatSyntax}

theorem Blank.stopped {r : Text} (h : Blank r) : Stopped stops r := fun b hb =>
  isSpace_stops (h b (List.mem_of_mem_head? hb))

theorem Blank.stopped_comma {r : Text} (h : Blank r) (rest : Text) : Stopped stops (r ++ comma :: rest) := by
  intro b hb
  cases r with
  | nil =>
    obtain rfl : comma = b := Option.some.inj hb
    exact stops_comma
  | cons c cs =>
    obtain rfl : c = b := Option.some.inj hb
    exact isSpace_stops (h c List.mem_cons_self)

/-- The front of a list of elements: a float, and behind it and white space the end
or a comma and the rest. -/
theorem Elements.front {text : Text} {us : List (BitVec 32)} (h : Elements F text us) :
    ∃ v vs t r, us = v :: vs ∧ F.read t = some (v, false) ∧ Blank r ∧
      ((vs = [] ∧ text.dropWhile isSpace = t ++ r) ∨
        ∃ rest, Elements F rest vs ∧ text.dropWhile isSpace = t ++ (r ++ comma :: rest)) := by
  cases h with
  | @one _ v he =>
    obtain ⟨l, t, r, rfl, hl, hr, ht⟩ := he
    exact ⟨v, [], t, r, rfl, ht, hr, .inl ⟨rfl, by rw [hl.dropWhile, F.dropWhile ht]⟩⟩
  | @cons _ rest v vs he hvs =>
    obtain ⟨l, t, r, rfl, hl, hr, ht⟩ := he
    refine ⟨v, vs, t, r, rfl, ht, hr, .inr ⟨rest, hvs, ?_⟩⟩
    rw [List.append_assoc, List.append_assoc, hl.dropWhile, F.dropWhile ht]

/-- The front again, as the parser sees it: the word in front is the float, and what
it leaves is the end or a comma. -/
theorem Elements.scan {text : Text} {us : List (BitVec 32)} (h : Elements F text us) :
    ∃ v vs t, us = v :: vs ∧ F.read t = some (v, false) ∧ frontWord (text.dropWhile isSpace) = t ∧
      ((vs = [] ∧ ((text.dropWhile isSpace).drop t.length).dropWhile isSpace = []) ∨
        ∃ rest, Elements F rest vs ∧ ((text.dropWhile isSpace).drop t.length).dropWhile isSpace = comma :: rest) := by
  obtain ⟨v, vs, t, r, rfl, ht, hr, ⟨rfl, htext⟩ | ⟨rest, hvs, htext⟩⟩ := h.front
  · refine ⟨v, [], t, rfl, ht, by rw [htext, frontWord_float ht hr.stopped], .inl ⟨rfl, ?_⟩⟩
    rw [htext, List.drop_left]
    exact List.dropWhile_eq_nil_iff.mpr hr
  · refine ⟨v, vs, t, rfl, ht, by rw [htext, frontWord_float ht (hr.stopped_comma rest)], .inr ⟨rest, hvs, ?_⟩⟩
    rw [htext, List.drop_left, hr.dropWhile]
    rfl

theorem Elements.ne_nil {text : Text} {us : List (BitVec 32)} (h : Elements F text us) :
    text.dropWhile isSpace ≠ [] ∧ us ≠ [] := by
  obtain ⟨v, vs, t, rfl, ht, hword, -⟩ := h.scan
  refine ⟨fun hnil => ?_, List.cons_ne_nil _ _⟩
  rw [hnil] at hword
  exact F.ne_nil ht hword.symm

/-- A text is at most one list of elements. -/
theorem Elements.unique : ∀ {us vs : List (BitVec 32)} {text : Text}, Elements F text us → Elements F text vs → us = vs
  | [], _, _, hu, _ => absurd rfl hu.ne_nil.2
  | u :: us, vs, text, hu, hv => by
    obtain ⟨u', us', t, heq, ht, hword, hrest⟩ := hu.scan
    obtain ⟨v', vs', t', rfl, ht', hword', hrest'⟩ := hv.scan
    obtain ⟨rfl, rfl⟩ := List.cons.inj heq
    obtain rfl : t = t' := hword.symm.trans hword'
    rw [ht, Option.some.injEq, Prod.mk.injEq] at ht'
    obtain ⟨rfl, -⟩ := ht'
    rcases hrest with ⟨rfl, hnil⟩ | ⟨rest, hus, hcons⟩ <;> rcases hrest' with ⟨rfl, hnil'⟩ | ⟨rest', hvs, hcons'⟩
    · rfl
    · rw [hnil] at hcons'
      cases hcons'
    · rw [hnil'] at hcons
      cases hcons
    · rw [hcons] at hcons'
      cases hcons'
      rw [hus.unique hvs]

end Head

/-! ### The loop -/

theorem length_float4store (v : BitVec 32) : (float4store v).length = 4 := rfl

theorem length_floats (vs : List (BitVec 32)) : (vs.flatMap float4store).length = 4 * vs.length :=
  length_flatMap_const length_float4store vs

theorem splice_splice {l a b : Text} {k : ℕ} (h : k + (a.length + b.length) ≤ l.length) :
    splice (splice l k a) (k + a.length) b = splice l k (a ++ b) := by
  have hk : (l.take k ++ a).length = k + a.length := by
    rw [List.length_append, List.length_take]
    omega
  unfold splice
  rw [← hk, List.take_left, List.drop_append, List.drop_eq_nil_of_le (Nat.le_add_right _ _), hk,
    Nat.add_sub_cancel_left, List.drop_drop, List.length_append, List.nil_append, List.append_assoc (l.take k),
    Nat.add_assoc]

section Loop

variable {F : FloatSyntax} {behind : Text}

/-- The word in front is part of the text. -/
theorem take_frontWord {w : Text} {n : ℕ} (h : n ≤ (frontWord w).length) : (frontWord w).take n = w.take n ∧ n ≤ w.length := by
  have hpre : frontWord w <+: w := List.takeWhile_prefix _
  exact ⟨List.prefix_iff_eq_take.mp hpre ▸ by rw [List.take_take, Nat.min_eq_left h], h.trans hpre.length_le⟩

theorem readElements_cases (isKnown : Bool) (hstop : Stopped stops behind) (hb : behind ≠ []) :
    ∀ (room : ℕ) (w : Text) (count : ℕ) (s : VectorOut), storageRefSize + 4 * (count + room) ≤ s.buffer.length →
    (∃ vs, Elements F w vs ∧ vs.length ≤ room ∧ readElements F isKnown room ⟨w, behind⟩ count s =
      (.ok (count + vs.length),
        { s with buffer := splice s.buffer (storageRefSize + 4 * count) (vs.flatMap float4store) })) ∨
    ((∀ vs, Elements F w vs → room < vs.length) ∧ ∃ text buffer,
      readElements F isKnown room ⟨w, behind⟩ count s = (.error (.malformed text), { s with buffer := buffer }) ∧
        buffer.length = s.buffer.length)
  | 0, w, count, s, _ => by
    refine .inr ⟨fun vs hvs => List.length_pos_iff.mpr hvs.ne_nil.2, ?_⟩
    unfold readElements
    split
    · exact ⟨_, s.buffer, rfl, rfl⟩
    · exact ⟨_, s.buffer, rfl, rfl⟩
  | room + 1, w, count, s, hroom => by
    have hskip : StringView.skipWhile isSpace ⟨w, behind⟩ = ⟨w.dropWhile isSpace, behind⟩ := rfl
    unfold readElements
    rw [hskip]
    dsimp only
    by_cases hnil : w.dropWhile isSpace = []
    · rw [if_pos hnil]
      exact .inr ⟨fun vs hvs => absurd hnil hvs.ne_nil.1, _, s.buffer, rfl, rfl⟩
    have hstrtof : strtof F (StringView.data ⟨w.dropWhile isSpace, behind⟩) =
        some (F.scan (frontWord (w.dropWhile isSpace))) :=
      strtof_view (List.dropWhile_idempotent _ _) hnil hstop hb
    rw [if_neg hnil, hstrtof]
    dsimp only
    by_cases hbad : (F.scan (frontWord (w.dropWhile isSpace))).consumed = 0 ∨
        (F.scan (frontWord (w.dropWhile isSpace))).rangeError = true
    · rw [if_pos hbad]
      refine .inr ⟨fun vs hvs => ?_, _, s.buffer, rfl, rfl⟩
      obtain ⟨v, _, t, _, ht, hword, -⟩ := hvs.scan
      rw [hword, F.scan_float ht] at hbad
      exact absurd (List.length_eq_zero_iff.mp (hbad.resolve_right (by simp))) (F.ne_nil ht)
    rw [if_neg hbad]
    obtain ⟨hle, hread⟩ := F.scan_consumed hbad
    obtain ⟨htake, hlen⟩ := take_frontWord hle
    rw [htake] at hread
    set n := (F.scan (frontWord (w.dropWhile isSpace))).consumed with hn
    set v := (F.scan (frontWord (w.dropWhile isSpace))).value with hv
    set s₁ : VectorOut := { s with buffer := splice s.buffer (storageRefSize + 4 * count) (float4store v) } with hs₁
    have hwrite : write (storageRefSize + 4 * count) (float4store v) s = (.ok (), s₁) :=
      if_pos (by rw [length_float4store]; omega)
    have hdrop : dropElement n ⟨w.dropWhile isSpace, behind⟩ =
        some ⟨((w.dropWhile isSpace).drop n).dropWhile isSpace, behind⟩ := by
      unfold dropElement StringView.removePrefix
      rw [if_pos hlen]
      rfl
    rw [Prog.bind_apply, hwrite, hdrop]
    dsimp only
    have hsplit : w = w.takeWhile isSpace ++ ((w.dropWhile isSpace).take n ++ (w.dropWhile isSpace).drop n) := by
      rw [List.take_append_drop, List.takeWhile_append_dropWhile]
    have hlen₁ : s₁.buffer.length = s.buffer.length := length_splice (by rw [length_float4store]; omega)
    -- a list of elements begins with the float that was read
    have hfront : ∀ us, Elements F w us → ∃ vs, us = v :: vs ∧
        ((vs = [] ∧ ((w.dropWhile isSpace).drop n).dropWhile isSpace = []) ∨
          ∃ rest, Elements F rest vs ∧ ((w.dropWhile isSpace).drop n).dropWhile isSpace = comma :: rest) := by
      intro us hus
      obtain ⟨u, vs, t, rfl, ht, hword, hrest⟩ := hus.scan
      have hscan := F.scan_float ht
      rw [← hword] at hscan
      have hn' : n = t.length := by rw [hn, hscan, hword]
      have hv' : v = u := by rw [hv, hscan]
      rw [hn', hv']
      exact ⟨vs, rfl, hrest⟩
    rcases hrest : ((w.dropWhile isSpace).drop n).dropWhile isSpace with _ | ⟨b, rest⟩
    · refine .inl ⟨[v], .one ⟨_, _, _, hsplit, blank_takeWhile w, ?_, hread⟩, by simp, ?_⟩
      · exact List.dropWhile_eq_nil_iff.mp hrest
      · simp [hs₁]
    dsimp only
    by_cases hcomma : b = comma
    · subst hcomma
      rw [if_neg (fun h => h rfl)]
      have hr : (w.dropWhile isSpace).drop n = ((w.dropWhile isSpace).drop n).takeWhile isSpace ++ comma :: rest := by
        rw [← hrest, List.takeWhile_append_dropWhile]
      obtain ⟨vs, hvs, hcount, hrun⟩ | ⟨hno, text, buffer, hrun, hbuf⟩ :=
        readElements_cases isKnown hstop hb room rest (count + 1) s₁ (by rw [hlen₁]; omega)
      · refine .inl ⟨v :: vs, ?_, by simpa using hcount, ?_⟩
        · rw [hsplit, hr, ← List.append_assoc, ← List.append_assoc]
          refine .cons ⟨_, _, _, List.append_assoc _ _ _, blank_takeWhile w, blank_takeWhile _, hread⟩ hvs
        · have hfloats := length_floats vs
          have hput : splice s₁.buffer (storageRefSize + 4 * (count + 1)) (vs.flatMap float4store) =
              splice s.buffer (storageRefSize + 4 * count) ((v :: vs).flatMap float4store) := by
            rw [List.flatMap_cons, ← splice_splice (by rw [length_float4store]; omega), length_float4store]
            rfl
          rw [hrun, hput, List.length_cons, Nat.add_right_comm]
          rfl
      · refine .inr ⟨fun us hus => ?_, text, buffer, by rw [hrun], hbuf.trans hlen₁⟩
        obtain ⟨vs, rfl, ⟨-, h⟩ | ⟨rest', hvs, h⟩⟩ := hfront us hus
        · rw [hrest] at h
          cases h
        · rw [hrest] at h
          cases h
          simpa using hno vs hvs
    · rw [if_pos hcomma]
      refine .inr ⟨fun us hus => ?_, _, s₁.buffer, rfl, hlen₁⟩
      obtain ⟨vs, rfl, ⟨-, h⟩ | ⟨rest', hvs, h⟩⟩ := hfront us hus
      · rw [hrest] at h
        cases h
      · rw [hrest] at h
        exact absurd (List.cons.inj h).1 hcomma

/-- What stands behind the view does not matter, as long as it stops the last word. -/
theorem readElements_behind {behind' : Text} (isKnown : Bool) (hstop : Stopped stops behind) (hb : behind ≠ [])
    (hstop' : Stopped stops behind') (hb' : behind' ≠ []) : ∀ (room : ℕ) (w : Text) (count : ℕ) (s : VectorOut),
    readElements F isKnown room ⟨w, behind⟩ count s = readElements F isKnown room ⟨w, behind'⟩ count s
  | 0, _, _, _ => rfl
  | room + 1, w, count, s => by
    unfold readElements
    by_cases hnil : w.dropWhile isSpace = []
    · simp only [StringView.skipWhile, hnil, if_true]
    have hstrtof {more : Text} (h1 : Stopped stops more) (h2 : more ≠ []) :
        strtof F (StringView.data ⟨w.dropWhile isSpace, more⟩) = some (F.scan (frontWord (w.dropWhile isSpace))) :=
      strtof_view (List.dropWhile_idempotent _ _) hnil h1 h2
    simp only [StringView.skipWhile, hnil, if_false, hstrtof hstop hb, hstrtof hstop' hb']
    split
    · rfl
    · refine Prog.bind_congr fun _ s₁ _ => ?_
      unfold dropElement StringView.removePrefix
      split
      · simp only [Option.map_some, StringView.skipWhile]
        rcases ((w.dropWhile isSpace).drop (F.scan (frontWord (w.dropWhile isSpace))).consumed).dropWhile isSpace with
          _ | ⟨b, rest⟩
        · rfl
        · by_cases hcomma : b = comma
          · simp only [hcomma, ne_eq, not_true_eq_false, if_false]
            exact readElements_behind isKnown hstop hb hstop' hb' room rest _ _
          · simp only [hcomma, ne_eq, not_false_eq_true, if_true]
      · rfl

end Loop

/-! ### The brackets -/

section Brackets

variable {F : FloatSyntax} {chars behind inner : Text} {s : VectorOut}

theorem brackets_iff : ¬ (chars.length < 2 ∨ chars.head? ≠ some openBracket ∨ chars.getLast? ≠ some closeBracket) ↔
    ∃ inner, chars = openBracket :: (inner ++ [closeBracket]) := by
  constructor
  · intro h
    simp only [not_or, ne_eq, not_not] at h
    obtain ⟨hlen, hhead, hlast⟩ := h
    obtain ⟨rest, rfl⟩ := List.head?_eq_some_iff.mp hhead
    rcases List.eq_nil_or_concat rest with rfl | ⟨inner, b, rfl⟩
    · simp at hlen
    · rw [List.concat_eq_append, ← List.cons_append, List.getLast?_append] at hlast
      simp only [List.getLast?_singleton, Option.some_or, Option.some.injEq] at hlast
      exact ⟨inner, by rw [hlast, List.concat_eq_append]⟩
  · rintro ⟨inner, rfl⟩
    rw [← List.cons_append, List.getLast?_append]
    simp

/-- Between the brackets, with the closing one behind. -/
theorem substr_brackets : StringView.substr 1 ((openBracket :: (inner ++ [closeBracket])).length - 2)
    ⟨openBracket :: (inner ++ [closeBracket]), behind⟩ = ⟨inner, closeBracket :: behind⟩ := by
  have hlen : (openBracket :: (inner ++ [closeBracket])).length - 2 = inner.length := by simp
  unfold StringView.substr
  rw [hlen]
  simp

theorem stopped_closeBracket : Stopped stops (closeBracket :: behind) := by
  intro b hb
  obtain rfl : closeBracket = b := Option.some.inj hb
  exact stops_closeBracket

/-- The number of elements is one the type and the buffer have room for. -/
def Fits (s : VectorOut) (n : ℕ) : Prop :=
  n ≤ maxSupportable s.buffer.length ∧ ∀ d, s.dimension = some d → (n : ℤ) = d

theorem storedVector_eq {vs : List (BitVec 32)} {buffer : Text} (h : storageRefSize + 4 * vs.length ≤ buffer.length) :
    splice (splice buffer 0 (List.replicate storageRefSize 0)) storageRefSize (vs.flatMap float4store) =
      storedVector vs buffer := by
  have hfloats := length_floats vs
  have hzeros : (List.replicate storageRefSize (0 : BitVec 8)).length = storageRefSize := List.length_replicate
  have hput := splice_splice (l := buffer) (a := List.replicate storageRefSize 0) (b := vs.flatMap float4store) (k := 0)
    (by rw [hzeros, hfloats]; omega)
  rw [Nat.zero_add, hzeros] at hput
  rw [hput, splice, storedVector, List.length_append, hzeros, hfloats, Nat.zero_add]
  rfl

/-- The number of elements to read, where the dimension and the buffer allow any. -/
theorem expectedElements_cases (s : VectorOut) :
    (∃ expected, expectedElements s.buffer.length s.dimension s = (.ok expected, s) ∧
      expected ≤ maxSupportable s.buffer.length ∧
      ∀ n, Fits s n ↔ n ≤ expected ∧ (s.dimension.isSome → n = expected)) ∨
    ((∀ n, 1 ≤ n → ¬ Fits s n) ∧ ∃ text, expectedElements s.buffer.length s.dimension s =
      (.error (.malformed text), s)) := by
  unfold expectedElements Fits
  rcases hd : s.dimension with _ | d
  · exact .inl ⟨_, rfl, le_rfl, fun n => by simp⟩
  · dsimp only
    by_cases hrange : d ≤ 0 ∨ d > (maxVectorDimension : ℤ)
    · rw [if_pos hrange]
      refine .inr ⟨fun n hn hfits => ?_, _, rfl⟩
      have h1 := hfits.2 d rfl
      have h2 : maxSupportable s.buffer.length ≤ maxVectorDimension := Nat.min_le_right _ _
      have h3 := hfits.1
      omega
    · rw [if_neg hrange]
      by_cases hcap : maxSupportable s.buffer.length < d.toNat
      · rw [if_pos hcap]
        refine .inr ⟨fun n hn hfits => ?_, _, rfl⟩
        have h1 := hfits.2 d rfl
        have h3 := hfits.1
        omega
      · rw [if_neg hcap]
        refine .inl ⟨_, rfl, Nat.le_of_not_lt hcap, fun n => ⟨fun hn => ?_, fun hn => ⟨?_, fun e he => ?_⟩⟩⟩
        · have h1 := hn.2 d rfl
          have h4 : n = d.toNat := by omega
          exact ⟨h4.le, fun _ => h4⟩
        · omega
        · obtain rfl : d = e := Option.some.inj he
          have h4 := hn.2 rfl
          omega

/-- What `readVector` does between the brackets. -/
theorem readVector_brackets (F : FloatSyntax) (inner behind : Text) (s : VectorOut) :
    (∃ vs, Elements F inner vs ∧ Fits s vs.length ∧
      readVector F ⟨openBracket :: (inner ++ [closeBracket]), behind⟩ s =
        (.ok (), ⟨storedVector vs s.buffer, some (storageRefSize + 4 * vs.length), some (vs.length : ℤ)⟩)) ∨
    ((∀ vs, Elements F inner vs → ¬ Fits s vs.length) ∧ ∃ text buffer,
      readVector F ⟨openBracket :: (inner ++ [closeBracket]), behind⟩ s =
        (.error (.malformed text), { s with buffer := buffer }) ∧ buffer.length = s.buffer.length) := by
  unfold readVector
  rw [if_neg (brackets_iff.mpr ⟨inner, rfl⟩), substr_brackets, Prog.get_bind]
  by_cases hsmall : s.buffer.length < storageRefSize
  · rw [if_pos hsmall]
    refine .inr ⟨fun vs hvs hfits => ?_, _, s.buffer, rfl, rfl⟩
    have hcap : maxSupportable s.buffer.length = 0 := by
      unfold maxSupportable
      omega
    have hpos := List.length_pos_iff.mpr hvs.ne_nil.2
    have := hfits.1
    omega
  rw [if_neg hsmall, Prog.bind_apply]
  obtain ⟨expected, hexpected, hcap, hfit⟩ | ⟨hno, text, hexpected⟩ := expectedElements_cases s
  · rw [hexpected]
    dsimp only
    set s₁ : VectorOut := { s with buffer := splice s.buffer 0 (List.replicate storageRefSize 0) } with hs₁
    have hwrite : write 0 (List.replicate storageRefSize 0) s = (.ok (), s₁) :=
      if_pos (by rw [List.length_replicate]; omega)
    have hlen₁ : s₁.buffer.length = s.buffer.length := length_splice (by rw [List.length_replicate]; omega)
    have hroom : storageRefSize + 4 * expected ≤ s.buffer.length := by
      unfold maxSupportable at hcap
      omega
    rw [Prog.bind_apply, hwrite]
    dsimp only
    rw [Prog.bind_apply]
    obtain ⟨vs, hvs, hcount, hrun⟩ | ⟨hno, text, buffer, hrun, hbuf⟩ := readElements_cases (F := F) s.dimension.isSome
      (show Stopped stops (closeBracket :: behind) from stopped_closeBracket) (List.cons_ne_nil _ _) expected inner 0 s₁
      (by rw [hlen₁, Nat.zero_add]; exact hroom)
    · have hstored : splice s₁.buffer (storageRefSize + 4 * 0) (vs.flatMap float4store) = storedVector vs s.buffer :=
        storedVector_eq (by omega)
      have hpos := List.length_pos_iff.mpr hvs.ne_nil.2
      have hmax : maxSupportable s.buffer.length ≤ maxVectorDimension := Nat.min_le_right _ _
      have hbuf : (storedVector vs s.buffer).length = s.buffer.length := by
        rw [← hstored, length_splice (by rw [length_floats]; omega), hlen₁]
      rw [hrun, hstored, Nat.zero_add]
      dsimp only
      by_cases hknown : s.dimension.isSome = true
      · rw [if_pos hknown]
        by_cases hne : vs.length ≠ expected
        · rw [if_pos hne]
          refine .inr ⟨fun us hus hfits => hne ?_, _, _, rfl, hbuf⟩
          rw [hvs.unique hus]
          exact ((hfit _).mp hfits).2 hknown
        · rw [if_neg hne]
          have hfits : Fits s vs.length := (hfit _).mpr ⟨hcount, fun _ => not_not.mp hne⟩
          obtain ⟨d, hd⟩ := Option.isSome_iff_exists.mp hknown
          refine .inl ⟨vs, hvs, hfits, ?_⟩
          rw [hfits.2 d hd, ← hd, Nat.mul_comm 4]
          rfl
      · rw [if_neg hknown, if_neg (by omega)]
        refine .inl ⟨vs, hvs, (hfit _).mpr ⟨hcount, fun h => absurd h hknown⟩, ?_⟩
        rw [Nat.mul_comm 4]
        rfl
    · rw [hrun]
      refine .inr ⟨fun us hus hfits => ?_, text, buffer, rfl, hbuf.trans hlen₁⟩
      have h1 := hno us hus
      have h2 := ((hfit _).mp hfits).1
      omega
  · rw [hexpected]
    exact .inr ⟨fun vs hvs => hno _ (List.length_pos_iff.mpr hvs.ne_nil.2), text, s.buffer, rfl, rfl⟩

end Brackets

/-! ### The white space around the vector -/

theorem isSpace_openBracket : isSpace openBracket = false := by decide

theorem isSpace_closeBracket : isSpace closeBracket = false := by decide

section Trim

variable {text inner : Text}

/-- Trimming leaves a vector's brackets and what is between them. -/
theorem trim_eq_brackets : (text.dropWhile isSpace).rdropWhile isSpace = openBracket :: (inner ++ [closeBracket]) ↔
    ∃ l r, text = l ++ (openBracket :: inner ++ [closeBracket]) ++ r ∧ Blank l ∧ Blank r := by
  constructor
  · intro h
    refine ⟨text.takeWhile isSpace, (text.dropWhile isSpace).rtakeWhile isSpace, ?_, blank_takeWhile text,
      fun _ hb => List.mem_rtakeWhile_imp hb⟩
    rw [List.cons_append, ← h, List.append_assoc, List.rdropWhile_append_rtakeWhile, List.takeWhile_append_dropWhile]
  · rintro ⟨l, r, rfl, hl, hr⟩
    have hfront : (l ++ (openBracket :: inner ++ [closeBracket]) ++ r).dropWhile isSpace =
        openBracket :: inner ++ [closeBracket] ++ r := by
      rw [List.append_assoc, hl.dropWhile, List.cons_append, List.cons_append,
        List.dropWhile_cons_of_neg (by simp [isSpace_openBracket])]
    have hback : ∀ b ∈ r.reverse, isSpace b = true := fun b hb => hr b (List.mem_reverse.mp hb)
    rw [hfront, List.rdropWhile, List.reverse_append, List.dropWhile_append_of_pos hback, List.reverse_append,
      List.reverse_singleton, List.singleton_append, List.dropWhile_cons_of_neg (by simp [isSpace_closeBracket])]
    simp

end Trim

theorem isVector_iff {F : FloatSyntax} {text : Text} {vs : List (BitVec 32)} : IsVector F text vs ↔
    ∃ inner, (text.dropWhile isSpace).rdropWhile isSpace = openBracket :: (inner ++ [closeBracket]) ∧
      Elements F inner vs := by
  constructor
  · rintro ⟨l, inner, r, htext, hl, hr, hvs⟩
    exact ⟨inner, trim_eq_brackets.mpr ⟨l, r, htext, hl, hr⟩, hvs⟩
  · rintro ⟨inner, htrim, hvs⟩
    obtain ⟨l, r, htext, hl, hr⟩ := trim_eq_brackets.mp htrim
    exact ⟨l, inner, r, htext, hl, hr, hvs⟩

theorem IsVector.unique {F : FloatSyntax} {text : Text} {us vs : List (BitVec 32)} (hu : IsVector F text us)
    (hv : IsVector F text vs) : us = vs := by
  obtain ⟨inner, htrim, hus⟩ := isVector_iff.mp hu
  obtain ⟨inner', htrim', hvs⟩ := isVector_iff.mp hv
  rw [htrim, List.cons.injEq, List.append_cancel_right_eq] at htrim'
  exact hus.unique (htrim'.2 ▸ hvs)

/-- What the function does with a text: it reads a vector that fits, or it refuses
the text and leaves length and dimension as they were. -/
theorem svectorFromString_cases (F : FloatSyntax) (text behind : Text) (s : VectorOut) :
    (∃ vs, IsVector F text vs ∧ Fits s vs.length ∧ svectorFromString F ⟨text, behind⟩ s =
      (.ok (), ⟨storedVector vs s.buffer, some (storageRefSize + 4 * vs.length), some (vs.length : ℤ)⟩)) ∨
    ((∀ vs, IsVector F text vs → ¬ Fits s vs.length) ∧ ∃ e buffer, svectorFromString F ⟨text, behind⟩ s =
      (.error (.malformed e), { s with buffer := buffer })) := by
  set more := (text.dropWhile isSpace).rtakeWhile isSpace ++ behind with hmore
  have htrim : svectorFromString F ⟨text, behind⟩ =
      readVector F ⟨(text.dropWhile isSpace).rdropWhile isSpace, more⟩ := rfl
  rw [htrim]
  by_cases hbrackets : ∃ inner, (text.dropWhile isSpace).rdropWhile isSpace = openBracket :: (inner ++ [closeBracket])
  · obtain ⟨inner, hinner⟩ := hbrackets
    rw [hinner]
    obtain ⟨vs, hvs, hfits, hrun⟩ | ⟨hno, e, buffer, hrun, -⟩ := readVector_brackets F inner more s
    · exact .inl ⟨vs, isVector_iff.mpr ⟨inner, hinner, hvs⟩, hfits, hrun⟩
    · refine .inr ⟨fun vs hvs => ?_, e, buffer, hrun⟩
      obtain ⟨inner', hinner', hvs'⟩ := isVector_iff.mp hvs
      rw [hinner, List.cons.injEq, List.append_cancel_right_eq] at hinner'
      exact hno vs (hinner'.2 ▸ hvs')
  · refine .inr ⟨fun vs hvs => ?_, "svector_from_string: missing '[' or ']'", s.buffer, ?_⟩
    · obtain ⟨inner, hinner, -⟩ := isVector_iff.mp hvs
      exact absurd ⟨inner, hinner⟩ hbrackets
    · unfold readVector
      rw [if_pos (not_not.mp (mt brackets_iff.mp hbrackets))]
      rfl

/-- Nothing behind a trimmed view matters, not even whether there is anything. -/
theorem readVector_behind (F : FloatSyntax) (chars behind : Text) (s : VectorOut) :
    readVector F ⟨chars, behind⟩ s = readVector F ⟨chars, []⟩ s := by
  unfold readVector
  dsimp only
  by_cases hbad : chars.length < 2 ∨ chars.head? ≠ some openBracket ∨ chars.getLast? ≠ some closeBracket
  · rw [if_pos hbad, if_pos hbad]
  · obtain ⟨inner, rfl⟩ := brackets_iff.mp hbad
    rw [if_neg hbad, if_neg hbad, substr_brackets, substr_brackets, Prog.get_bind, Prog.get_bind]
    split
    · rfl
    · refine Prog.bind_congr fun expected s₁ _ => Prog.bind_congr fun _ s₂ _ => ?_
      rw [Prog.bind_apply, Prog.bind_apply, readElements_behind _ stopped_closeBracket (List.cons_ne_nil _ _)
        stopped_closeBracket (List.cons_ne_nil _ []) expected inner 0 s₂]

/-! ### The floats that are stored -/

theorem float4get_float4store (v : BitVec 32) : float4get (float4store v) = v := by
  unfold float4get float4store
  simp only [List.getD_cons_zero, List.getD_cons_succ]
  ext i hi
  simp only [BitVec.getElem_or, BitVec.getElem_setWidth, BitVec.getElem_shiftLeft, BitVec.getLsbD_setWidth,
    BitVec.getLsbD_ushiftRight]
  rw [← BitVec.getLsbD_eq_getElem]
  -- the byte the bit is in
  rcases (show i < 8 ∨ (8 ≤ i ∧ i < 16) ∨ (16 ≤ i ∧ i < 24) ∨ (24 ≤ i ∧ i < 32) by omega) with h | h | h | h
  · grind
  · grind
  · grind
  · grind

/-- Float `i` of a stored vector. -/
theorem float4get_storedVector {vs : List (BitVec 32)} {buffer : Text} {i : ℕ} (hi : i < vs.length) :
    float4get (chunk 4 (storedVector vs buffer) (2 + i)) = vs[i] := by
  have hfloats := length_floats vs
  have hhead : (List.replicate storageRefSize (0 : BitVec 8)).length = 2 * 4 := List.length_replicate
  have hread : chunk 4 (storedVector vs buffer) (2 + i) = float4store vs[i] := by
    rw [storedVector, List.append_assoc, chunk_append_right hhead, chunk_append_left (by rw [hfloats]; omega)]
    have hfloat : ∀ v, (float4store v).length = 1 * 4 := fun _ => rfl
    have hchunk := chunk_flatMap hfloat Nat.zero_lt_one hi
    rw [Nat.one_mul, Nat.add_zero] at hchunk
    rw [hchunk]
    exact chunk_self rfl
  rw [hread, float4get_float4store]

/-! ### The default -/

section Default

variable {F : FloatSyntax}

theorem isElement_digitZero : IsElement F [digitZero] 0 :=
  ⟨[], [digitZero], [], rfl, fun _ h => absurd h List.not_mem_nil, fun _ h => absurd h List.not_mem_nil, F.read_zero⟩

theorem elements_zeros (a : ℕ) : ∀ k : ℕ,
    Elements F (digitZero :: (List.range' a k).flatMap fun _ => [comma, digitZero]) (List.replicate (k + 1) 0)
  | 0 => .one isElement_digitZero
  | k + 1 => .cons (isElement_digitZero (F := F)) (elements_zeros (a + 1) k)

theorem svectorDefault_of_valid {n : ℕ} (h1 : 1 ≤ n) (h2 : n ≤ maxVectorDimension) :
    (svectorDefault n).2 = none ∧ IsVector F (svectorDefault n).1 (List.replicate n 0) := by
  have hvalid : svectorValidateDimension n = .ok () := by
    unfold svectorValidateDimension
    rw [if_neg (by omega), if_neg (by omega)]
  unfold svectorDefault
  rw [hvalid]
  refine ⟨rfl, [], digitZero :: (List.range' 1 (n - 1)).flatMap (fun _ => [comma, digitZero]), [], ?_, ?_, ?_, ?_⟩
  · simp
  · exact fun _ h => absurd h List.not_mem_nil
  · exact fun _ h => absurd h List.not_mem_nil
  · have := elements_zeros (F := F) 1 (n - 1)
    rwa [Nat.sub_add_cancel h1] at this

end Default

/-- `svector_from_string` accepts a text if and only if it is a vector that fits: it
then has stored its floats, and otherwise length and dimension are as they were. It
reads nothing behind the closing bracket, and it accepts every default. -/
theorem svector_from_string_accepts (F : FloatSyntax) (text behind : Text) (s : VectorOut) :
    (∀ s', svectorFromString F ⟨text, behind⟩ s = (.ok (), s') ↔ ∃ vs, IsVector F text vs ∧ Fits s vs.length ∧
      s' = ⟨storedVector vs s.buffer, some (storageRefSize + 4 * vs.length), some (vs.length : ℤ)⟩) ∧
    (∀ e s', svectorFromString F ⟨text, behind⟩ s = (.error e, s') →
      s'.length = s.length ∧ s'.dimension = s.dimension ∧ e ≠ .pastEnd) ∧
    svectorFromString F ⟨text, behind⟩ s = readVector F ⟨(trim ⟨text, behind⟩).chars, []⟩ s ∧
    (∀ (vs : List (BitVec 32)) (i : ℕ) (hi : i < vs.length),
      float4get (chunk 4 (storedVector vs s.buffer) (2 + i)) = vs[i]) ∧
    ∀ n : ℕ, 1 ≤ n → Fits s n → (svectorDefault n).2 = none ∧
      svectorFromString F ⟨(svectorDefault n).1, behind⟩ s =
        (.ok (), ⟨storedVector (List.replicate n 0) s.buffer, some (storageRefSize + 4 * n), some (n : ℤ)⟩) := by
  have haccepts : ∀ (text : Text) s', svectorFromString F ⟨text, behind⟩ s = (.ok (), s') ↔
      ∃ vs, IsVector F text vs ∧ Fits s vs.length ∧
        s' = ⟨storedVector vs s.buffer, some (storageRefSize + 4 * vs.length), some (vs.length : ℤ)⟩ := by
    intro text s'
    obtain ⟨vs, hvs, hfits, hrun⟩ | ⟨hno, e, buffer, hrun⟩ := svectorFromString_cases F text behind s
    · rw [hrun]
      constructor
      · intro h
        exact ⟨vs, hvs, hfits, (Prod.mk.inj h).2.symm⟩
      · rintro ⟨us, hus, -, rfl⟩
        rw [hvs.unique hus]
    · rw [hrun]
      constructor
      · intro h
        cases (Prod.mk.inj h).1
      · rintro ⟨us, hus, hfits, -⟩
        exact absurd hfits (hno us hus)
  refine ⟨haccepts text, fun e s' hrun => ?_, readVector_behind F _ _ s, fun vs i hi => float4get_storedVector hi,
    fun n hn hfits => ?_⟩
  · obtain ⟨vs, -, -, hok⟩ | ⟨-, text, buffer, hfail⟩ := svectorFromString_cases F text behind s
    · rw [hok] at hrun
      cases (Prod.mk.inj hrun).1
    · rw [hfail, Prod.mk.injEq] at hrun
      obtain ⟨he, rfl⟩ := hrun
      cases he
      exact ⟨rfl, rfl, fun h => by cases h⟩
  · have hmax : n ≤ maxVectorDimension := hfits.1.trans (Nat.min_le_right _ _)
    obtain ⟨hvalid, hvs⟩ := svectorDefault_of_valid (F := F) hn hmax
    refine ⟨hvalid, (haccepts _ _).mpr ⟨List.replicate n 0, hvs, ?_, ?_⟩⟩
    · rwa [List.length_replicate]
    · rw [List.length_replicate]

/-- The floats `0` and `1`, and no others. -/
def zeroAndOne : FloatSyntax where
  read t := if t = [0x30] then some (0, false) else if t = [0x31] then some (0x3F800000, false) else none
  read_nil := by decide
  clean := by
    intro t ht
    by_cases h0 : t = [0x30]
    · subst h0
      decide
    · by_cases h1 : t = [0x31]
      · subst h1
        decide
      · rw [if_neg h0, if_neg h1] at ht
        cases ht
  read_zero := by decide

/-- The text ` [0, 1]`, and the default of dimension 2, with room for two floats. -/
theorem svector_from_string_accepts_zero_one :
    svectorFromString zeroAndOne ⟨[0x20, 0x5B, 0x30, 0x2C, 0x20, 0x31, 0x5D], [0]⟩
        ⟨List.replicate 16 7, none, none⟩ =
      (.ok (), ⟨[0, 0, 0, 0, 0, 0, 0, 0, 0, 0, 0, 0, 0, 0, 0x80, 0x3F], some 16, some 2⟩) ∧
    svectorFromString zeroAndOne ⟨(svectorDefault 2).1, [0]⟩ ⟨List.replicate 16 7, none, none⟩ =
      (.ok (), ⟨List.replicate 16 0, some 16, some 2⟩) := by
  have hroom : Fits ⟨List.replicate 16 7, none, none⟩ 2 := ⟨by decide, fun d h => by cases h⟩
  have helem {v : BitVec 32} {t : Text} (h : zeroAndOne.read t = some (v, false)) : IsElement zeroAndOne t v :=
    ⟨[], t, [], by simp, fun _ h => absurd h List.not_mem_nil, fun _ h => absurd h List.not_mem_nil, h⟩
  have hone : IsElement zeroAndOne [0x20, 0x31] 0x3F800000 :=
    ⟨[0x20], [0x31], [], rfl, by unfold Blank; decide, fun _ h => absurd h List.not_mem_nil, rfl⟩
  have hzero : IsElement zeroAndOne [0x30] 0 := helem rfl
  have helems : Elements zeroAndOne [0x30, 0x2C, 0x20, 0x31] [0, 0x3F800000] :=
    .cons hzero (.one hone)
  obtain ⟨haccepts, -, -, -, hdefault⟩ := svector_from_string_accepts zeroAndOne
    [0x20, 0x5B, 0x30, 0x2C, 0x20, 0x31, 0x5D] [0] ⟨List.replicate 16 7, none, none⟩
  refine ⟨(haccepts _).mpr ⟨[0, 0x3F800000], ?_, hroom, rfl⟩, ?_⟩
  · exact ⟨[0x20], [0x30, 0x2C, 0x20, 0x31], [], rfl, by unfold Blank; decide,
      fun _ h => absurd h List.not_mem_nil, helems⟩
  · exact (hdefault 2 (by decide) hroom).2

end VsqlVector
