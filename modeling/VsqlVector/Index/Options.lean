/-
# The options of an index

`Options::parse` (`src/index/hnsw/storage.cc`) reads what stands in `WITH (...)` of a
`CREATE INDEX`: `m` and `ef_construction`, each at most once, in any order. A value goes
through `strtoul`, so it can have white space and a sign before its digits; a minus sign
is refused only where the value begins with it, and behind white space it counts down from
`2^64`. What is left out has its default, and the defaults are checked with the rest: a small
`m` alone is refused because the default `ef_construction` is too large for it.

The lists accepted are those of the grammar (`options_parse_iff`), and whatever is accepted
every column store of the index fits on a page of any size (`accepted_options_fit`).

Key definitions: `strtoul`, `parseU32`, `Options.parse`, `IsU32`.
Key theorems: `parseU32_iff`, `options_parse_iff`, `accepted_options_fit`.
-/
import VsqlVector.Index.IndexStore
import VsqlVector.Vector.Text

namespace VsqlVector
namespace Hnsw

/-! ### Numbers -/

/-- A text of the source, one byte a character. -/
def ascii (s : String) : Text := s.toList.map fun c => BitVec.ofNat 8 c.toNat

def plus : BitVec 8 := 0x2B
def minus : BitVec 8 := 0x2D

/-- `isdigit`. -/
def isDigit (b : BitVec 8) : Bool := 0x30 ≤ b.toNat ∧ b.toNat ≤ 0x39

/-- The number that digits are, to base 10. -/
def decimal (t : Text) : ℕ := t.foldl (fun n b => 10 * n + (b.toNat - 0x30)) 0

/-- What `strtoul` returns, how far behind its argument `end` is, and whether `errno` is
`ERANGE`. -/
structure StrtoulResult where
  value : ℕ
  consumed : ℕ
  rangeError : Bool
  deriving DecidableEq, Repr

/-- Whether a text begins with a sign. -/
def signed (t : Text) : Bool := t.head? = some plus ∨ t.head? = some minus

/-- `strtoul` to base 10: white space, a sign, digits. Without digits nothing is consumed; a
minus sign negates what the digits give, to `unsigned long`. -/
def strtoul (s : Text) : StrtoulResult :=
  let rest := s.dropWhile isSpace
  let body := if signed rest then rest.tail else rest
  let word := body.takeWhile isDigit
  if word = [] then ⟨0, 0, false⟩
  else
    let consumed := s.length - (body.length - word.length)
    if 2 ^ 64 ≤ decimal word then ⟨2 ^ 64 - 1, consumed, true⟩
    else ⟨if rest.head? = some minus then (2 ^ 64 - decimal word) % 2 ^ 64 else decimal word, consumed, false⟩

/-- `parse_u32` of a C string; `none` is a null pointer. -/
def parseU32 : Option Text → Option ℕ
  | none => none
  | some str =>
    if str = [] ∨ str.head? = some minus then none
    else
      let r := strtoul str
      if r.consumed = 0 ∨ r.consumed ≠ str.length ∨ r.rangeError ∨ 2 ^ 32 ≤ r.value then none else some r.value

/-! ### Options -/

structure Options where
  M : ℕ
  efConstruction : ℕ
  deriving DecidableEq, Repr

namespace Options

def defaultM : ℕ := 16
def defaultEfConstruction : ℕ := 200
def maxM : ℕ := 128
def maxEfConstructionFactor : ℕ := 32

/-- `Options::validate`. -/
def validate (o : Options) : Except Text Unit :=
  if o.M < 2 then .error (ascii ("M must be at least 2, got " ++ toString o.M))
  else if o.M > maxM then .error (ascii ("M must not exceed " ++ toString maxM))
  else if o.efConstruction < o.M then
    .error (ascii ("ef_construction (" ++ toString o.efConstruction ++ ") must be >= M (" ++ toString o.M ++ ")"))
  else if o.efConstruction > o.M * maxEfConstructionFactor then
    .error (ascii ("ef_construction (" ++ toString o.efConstruction ++ ") exceeds maximum allowed value (" ++
      toString (o.M * maxEfConstructionFactor) ++ ") for M=" ++ toString o.M))
  else .ok ()

/-- The keys. -/
def keyM : Text := ascii "m"
def keyEf : Text := ascii "ef_construction"

/-- A value as `%s` prints it. -/
def shown (val : Option Text) : Text := val.getD (ascii "(null)")

/-- The loop of `Options::parse`. -/
def parseFrom : List (Text × Option Text) → Options → Bool → Bool → Except Text Options
  | [], o, _, _ => .ok o
  | (key, val) :: params, o, seenM, seenEf =>
    if key = keyM then
      if seenM then .error (ascii "duplicate option 'M'")
      else
        match parseU32 val with
        | none => .error (ascii "M must be a positive integer, got '" ++ shown val ++ ascii "'")
        | some n => parseFrom params { o with M := n } true seenEf
    else if key = keyEf then
      if seenEf then .error (ascii "duplicate option 'ef_construction'")
      else
        match parseU32 val with
        | none => .error (ascii "ef_construction must be a positive integer, got '" ++ shown val ++ ascii "'")
        | some n => parseFrom params { o with efConstruction := n } seenM true
    else .error (ascii "unknown option '" ++ key ++ ascii "'")

/-- `Options::parse`. -/
def parse (params : List (Text × Option Text)) : Except Text Options := do
  let o ← parseFrom params ⟨defaultM, defaultEfConstruction⟩ false false
  o.validate
  pure o

end Options

/-! ### The grammar of a value -/

section Numbers

variable {t blanks sign word : Text} {b : BitVec 8} {n : ℕ}

/-- White space, a sign or none, and digits. -/
structure IsNumeral (t blanks sign word : Text) : Prop where
  eq : t = blanks ++ (sign ++ word)
  blank : ∀ b ∈ blanks, isSpace b = true
  sign : sign = [] ∨ sign = [plus] ∨ sign = [minus]
  ne_nil : word ≠ []
  digits : ∀ b ∈ word, isDigit b = true

/-- The texts that are numbers to the options, with the numbers they are. -/
def IsU32 (t : Text) (n : ℕ) : Prop :=
  ∃ blanks sign word, IsNumeral t blanks sign word ∧ decimal word < 2 ^ 64 ∧ n < 2 ^ 32 ∧
    if sign = [minus] then blanks ≠ [] ∧ n = (2 ^ 64 - decimal word) % 2 ^ 64 else n = decimal word

theorem isSpace_of_isDigit (h : isDigit b = true) : isSpace b = false := by
  simp only [isDigit, decide_eq_true_eq] at h
  simp only [isSpace, decide_eq_false_iff_not, not_or]
  refine ⟨fun hb => ?_, fun hb => by omega⟩
  rw [hb] at h
  exact absurd h (by decide)

theorem ne_sign_of_isDigit (h : isDigit b = true) : b ≠ plus ∧ b ≠ minus := by
  constructor
  all_goals
    rintro rfl
    exact absurd h (by decide)

namespace IsNumeral

/-- Behind the white space the sign or a digit stands. -/
theorem dropWhile (h : IsNumeral t blanks sign word) : t.dropWhile isSpace = sign ++ word := by
  rw [h.eq, List.dropWhile_append_of_pos h.blank]
  obtain ⟨d, ds, hword⟩ := List.exists_cons_of_ne_nil h.ne_nil
  have hd : isSpace d = false := isSpace_of_isDigit (h.digits d (hword ▸ List.mem_cons_self))
  rcases h.sign with rfl | rfl | rfl
  · rw [List.nil_append, hword, List.dropWhile_cons_of_neg (by simp [hd])]
  · exact List.dropWhile_cons_of_neg (by decide)
  · exact List.dropWhile_cons_of_neg (by decide)

theorem head_word (h : IsNumeral t blanks sign word) : word.head? ≠ some plus ∧ word.head? ≠ some minus := by
  obtain ⟨d, ds, hword⟩ := List.exists_cons_of_ne_nil h.ne_nil
  obtain ⟨hplus, hminus⟩ := ne_sign_of_isDigit (h.digits d (hword ▸ List.mem_cons_self))
  rw [hword]
  exact ⟨fun hd => hplus (Option.some.inj hd), fun hd => hminus (Option.some.inj hd)⟩

theorem takeWhile (h : IsNumeral t blanks sign word) : word.takeWhile isDigit = word :=
  List.takeWhile_eq_self_iff.mpr h.digits

theorem body (h : IsNumeral t blanks sign word) :
    (if signed (sign ++ word) then (sign ++ word).tail else sign ++ word) = word := by
  obtain ⟨hplus, hminus⟩ := h.head_word
  rcases h.sign with rfl | rfl | rfl
  · rw [List.nil_append, show signed word = false by simp [signed, hplus, hminus]]
    rfl
  · rfl
  · rfl

theorem head_sign (h : IsNumeral t blanks sign word) : (sign ++ word).head? = some minus ↔ sign = [minus] := by
  rcases h.sign with rfl | rfl | rfl
  · simp [h.head_word.2]
  · exact ⟨fun hhead => absurd (Option.some.inj hhead) (by decide), fun hsign => absurd hsign (by decide)⟩
  · exact iff_of_true rfl rfl

/-- **What `strtoul` makes of a numeral**: it reads to its end. -/
theorem strtoul (h : IsNumeral t blanks sign word) : strtoul t =
    if 2 ^ 64 ≤ decimal word then ⟨2 ^ 64 - 1, t.length, true⟩
    else ⟨if sign = [minus] then (2 ^ 64 - decimal word) % 2 ^ 64 else decimal word, t.length, false⟩ := by
  unfold Hnsw.strtoul
  dsimp only
  rw [h.dropWhile, h.body, h.takeWhile, if_neg h.ne_nil, Nat.sub_self, Nat.sub_zero]
  simp only [h.head_sign]

/-- A numeral begins with a minus sign where no white space stands before it. -/
theorem head_minus (h : IsNumeral t blanks sign word) : t.head? = some minus ↔ blanks = [] ∧ sign = [minus] := by
  rw [h.eq]
  cases hblanks : blanks with
  | nil =>
    rw [List.nil_append, h.head_sign]
    exact (and_iff_right rfl).symm
  | cons b bs =>
    have hb : isSpace b = true := h.blank b (hblanks ▸ List.mem_cons_self)
    constructor
    · intro hhead
      rw [Option.some.inj hhead] at hb
      exact absurd hb (by decide)
    · exact fun hnil => absurd hnil.1 (List.cons_ne_nil b bs)

theorem ne_empty (h : IsNumeral t blanks sign word) : t ≠ [] := by
  rw [h.eq]
  exact List.append_ne_nil_of_right_ne_nil _ (List.append_ne_nil_of_right_ne_nil _ h.ne_nil)

end IsNumeral

/-- Only numerals are read to their end. -/
theorem exists_numeral (hsome : (strtoul t).consumed ≠ 0) (hall : (strtoul t).consumed = t.length) :
    ∃ blanks sign word, IsNumeral t blanks sign word := by
  obtain ⟨rest, hrest⟩ : ∃ rest, rest = t.dropWhile isSpace := ⟨_, rfl⟩
  obtain ⟨body, hbody⟩ : ∃ body, body = if signed rest then rest.tail else rest := ⟨_, rfl⟩
  have hconsumed : (strtoul t).consumed =
      if body.takeWhile isDigit = [] then 0 else t.length - (body.length - (body.takeWhile isDigit).length) := by
    unfold strtoul
    dsimp only
    rw [← hrest, ← hbody]
    split_ifs <;> rfl
  have hne : body.takeWhile isDigit ≠ [] := by
    intro hnil
    rw [hconsumed, if_pos hnil] at hsome
    exact hsome rfl
  rw [hconsumed, if_neg hne] at hall hsome
  -- nothing is left behind the digits
  have hword : body.takeWhile isDigit = body :=
    (List.takeWhile_prefix isDigit).eq_of_length_le (by omega)
  rw [hword] at hne
  refine ⟨t.takeWhile isSpace, if signed rest then rest.take 1 else [], body, ?_, ?_, ?_, hne, ?_⟩
  · have hsplit : (if signed rest then rest.take 1 else []) ++ body = rest := by
      rw [hbody]
      split_ifs
      · rw [← List.drop_one, List.take_append_drop]
      · rfl
    rw [hsplit, hrest, List.takeWhile_append_dropWhile]
  · exact fun b hb => List.mem_takeWhile_imp hb
  · split_ifs with hs
    · simp only [signed, decide_eq_true_eq] at hs
      right
      cases hr : rest with
      | nil =>
        rw [hr] at hs
        simp at hs
      | cons d ds =>
        rw [hr] at hs
        simpa using hs
    · exact .inl rfl
  · exact fun b hb => List.mem_takeWhile_imp (hword.symm ▸ hb)

/-- A numeral as a value: it is read unless it is too large or begins with a minus sign. -/
theorem IsNumeral.parseU32 (h : IsNumeral t blanks sign word) : parseU32 (some t) = some n ↔
    decimal word < 2 ^ 64 ∧ n < 2 ^ 32 ∧
      if sign = [minus] then blanks ≠ [] ∧ n = (2 ^ 64 - decimal word) % 2 ^ 64 else n = decimal word := by
  have hlen : t.length ≠ 0 := fun hzero => h.ne_empty (List.length_eq_zero_iff.mp hzero)
  have hfirst : (t = [] ∨ t.head? = some minus) ↔ blanks = [] ∧ sign = [minus] := by
    rw [h.head_minus, or_iff_right h.ne_empty]
  unfold Hnsw.parseU32
  dsimp only
  by_cases hrefused : blanks = [] ∧ sign = [minus]
  · rw [if_pos (hfirst.mpr hrefused), if_pos hrefused.2]
    exact ⟨fun hnone => absurd hnone (Option.some_ne_none n).symm, fun hvalue => absurd hrefused.1 hvalue.2.2.1⟩
  · rw [if_neg (mt hfirst.mp hrefused), h.strtoul]
    by_cases hbig : 2 ^ 64 ≤ decimal word
    · rw [if_pos hbig, if_pos (.inr (.inr (.inl rfl)))]
      exact ⟨fun hnone => absurd hnone (Option.some_ne_none n).symm, fun hvalue => absurd hvalue.1 (Nat.not_lt.mpr hbig)⟩
    · rw [if_neg hbig]
      obtain ⟨v, hv⟩ : ∃ v, v = if sign = [minus] then (2 ^ 64 - decimal word) % 2 ^ 64 else decimal word := ⟨_, rfl⟩
      have hvalue : (if sign = [minus] then blanks ≠ [] ∧ n = (2 ^ 64 - decimal word) % 2 ^ 64 else n = decimal word) ↔
          n = v := by
        rw [hv]
        split_ifs with hminus
        · exact and_iff_right fun hnil => hrefused ⟨hnil, hminus⟩
        · rfl
      rw [hvalue, ← hv]
      by_cases hlarge : 2 ^ 32 ≤ v
      · rw [if_pos (.inr (.inr (.inr hlarge)))]
        exact ⟨fun hnone => absurd hnone (Option.some_ne_none n).symm, fun hn => absurd hn.2.1 (by omega)⟩
      · have hread : ¬ (t.length = 0 ∨ t.length ≠ t.length ∨ false = true ∨ 2 ^ 32 ≤ v) := by
          simp only [hlen, hlarge, ne_eq, not_true_eq_false, Bool.false_eq_true, or_self, not_false_eq_true]
        rw [if_neg hread, Option.some_inj]
        constructor
        · intro hn
          exact ⟨Nat.lt_of_not_le hbig, hn ▸ Nat.lt_of_not_le hlarge, hn.symm⟩
        · exact fun hn => hn.2.2.symm

/-- **The values that are read.** -/
theorem parseU32_iff : parseU32 (some t) = some n ↔ IsU32 t n := by
  constructor
  · intro h
    have hall : (strtoul t).consumed ≠ 0 ∧ (strtoul t).consumed = t.length := by
      unfold parseU32 at h
      dsimp only at h
      split_ifs at h with hfirst hrest
      push Not at hrest
      exact ⟨hrest.1, hrest.2.1⟩
    obtain ⟨blanks, sign, word, hnum⟩ := exists_numeral hall.1 hall.2
    exact ⟨blanks, sign, word, hnum, hnum.parseU32.mp h⟩
  · intro h
    obtain ⟨blanks, sign, word, hnum, hvalue⟩ := h
    exact hnum.parseU32.mpr hvalue

end Numbers

/-! ### The lists of options -/

namespace Options

section Lists

variable {params : List (Text × Option Text)} {key key' : Text} {val : Option Text} {d d' n n' : ℕ}
  {o o' : Options} {seen seen' seenM seenEf : Bool}

/-- The list gives `key` the value `n`, or says nothing of it and `n` is the default `d`. -/
def Given (params : List (Text × Option Text)) (key : Text) (d n : ℕ) : Prop :=
  (∃ t, (key, some t) ∈ params ∧ IsU32 t n) ∨ (key ∉ params.map Prod.fst ∧ n = d)

theorem given_absent (h : key ∉ params.map Prod.fst) : Given params key d n ↔ n = d := by
  constructor
  · intro hgiven
    rcases hgiven with ⟨t, ht, -⟩ | ⟨-, hn⟩
    · exact absurd (List.mem_map_of_mem ht) h
    · exact hn
  · exact fun hn => .inr ⟨h, hn⟩

theorem given_cons_of_ne (h : key' ≠ key) : Given ((key', val) :: params) key d n ↔ Given params key d n := by
  have hne : ∀ t, (key, some t) ≠ (key', val) := fun t ht => h (congrArg Prod.fst ht).symm
  simp only [Given, List.mem_cons, List.map_cons, hne, false_or, Ne.symm h]

theorem given_cons_self (h : key ∉ params.map Prod.fst) : Given ((key, val) :: params) key d n ↔ parseU32 val = some n := by
  have hrest : ∀ t, (key, some t) ∉ params := fun t ht => h (List.mem_map_of_mem ht)
  cases val with
  | none => simp [Given, hrest, parseU32]
  | some t =>
    rw [parseU32_iff]
    simp [Given, hrest]

theorem keyM_ne_keyEf : keyM ≠ keyEf := by decide

theorem parseFrom_keyM : parseFrom ((keyM, val) :: params) o seenM seenEf = .ok o' ↔
    seenM = false ∧ ∃ m, parseU32 val = some m ∧ parseFrom params { o with M := m } true seenEf = .ok o' := by
  rw [parseFrom, if_pos rfl]
  cases seenM with
  | true => simp
  | false => rcases parseU32 val with _ | m <;> simp

theorem parseFrom_keyEf : parseFrom ((keyEf, val) :: params) o seenM seenEf = .ok o' ↔
    seenEf = false ∧ ∃ m, parseU32 val = some m ∧ parseFrom params { o with efConstruction := m } seenM true = .ok o' := by
  rw [parseFrom, if_neg (Ne.symm keyM_ne_keyEf), if_pos rfl]
  cases seenEf with
  | true => simp
  | false => rcases parseU32 val with _ | m <;> simp

theorem parseFrom_unknown (hM : key ≠ keyM) (hEf : key ≠ keyEf) :
    parseFrom ((key, val) :: params) o seenM seenEf ≠ .ok o' := by
  rw [parseFrom, if_neg hM, if_neg hEf]
  exact fun h => by cases h

/-- What the loop accepts of two keys, where those seen do not come again: every key is one of
the two, none comes twice, and `n` and `n'` are their values, or else `d` and `d'`. -/
structure Accepts (key key' : Text) (seen seen' : Bool) (params : List (Text × Option Text)) (d d' n n' : ℕ) : Prop where
  nodup : (params.map Prod.fst).Nodup
  known : ∀ p ∈ params, p.1 = key ∨ p.1 = key'
  fresh : seen = true → key ∉ params.map Prod.fst
  fresh' : seen' = true → key' ∉ params.map Prod.fst
  given : Given params key d n
  given' : Given params key' d' n'

theorem Accepts.swap (h : Accepts key key' seen seen' params d d' n n') : Accepts key' key seen' seen params d' d n' n :=
  ⟨h.nodup, fun p hp => (h.known p hp).symm, h.fresh', h.fresh, h.given', h.given⟩

/-- One more option. -/
theorem accepts_cons (hne : key ≠ key') : Accepts key key' seen seen' ((key, val) :: params) d d' n n' ↔
    seen = false ∧ ∃ m, parseU32 val = some m ∧ Accepts key key' true seen' params m d' n n' := by
  constructor
  · intro h
    obtain ⟨hout, hnodup⟩ := List.nodup_cons.mp h.nodup
    exact ⟨Bool.eq_false_of_not_eq_true fun hs => h.fresh hs List.mem_cons_self, n, (given_cons_self hout).mp h.given,
      hnodup, fun p hp => h.known p (List.mem_cons_of_mem _ hp), fun _ => hout,
      fun hs hmem => h.fresh' hs (List.mem_cons_of_mem _ hmem), (given_absent hout).mpr rfl,
      (given_cons_of_ne hne).mp h.given'⟩
  · intro h
    obtain ⟨hseen, m, hval, hrest⟩ := h
    have hout := hrest.fresh rfl
    have hm : n = m := (given_absent hout).mp hrest.given
    exact ⟨List.nodup_cons.mpr ⟨hout, hrest.nodup⟩, List.forall_mem_cons.mpr ⟨.inl rfl, hrest.known⟩,
      fun hs => absurd (hseen.symm.trans hs) Bool.false_ne_true,
      fun hs hmem => (List.mem_cons.mp hmem).elim (Ne.symm hne) (hrest.fresh' hs),
      (given_cons_self hout).mpr (hm ▸ hval), (given_cons_of_ne hne).mpr hrest.given'⟩

theorem parseFrom_iff : parseFrom params o seenM seenEf = .ok o' ↔
    Accepts keyM keyEf seenM seenEf params o.M o.efConstruction o'.M o'.efConstruction := by
  induction params generalizing o seenM seenEf with
  | nil =>
    have hsame : o = o' ↔ o'.M = o.M ∧ o'.efConstruction = o.efConstruction := by
      cases o
      cases o'
      simp [eq_comm]
    constructor
    · intro h
      obtain ⟨hM, hEf⟩ := hsame.mp (Except.ok.inj h)
      exact ⟨List.nodup_nil, by simp, by simp, by simp, (given_absent (by simp)).mpr hM, (given_absent (by simp)).mpr hEf⟩
    · intro h
      exact congrArg Except.ok (hsame.mpr ⟨(given_absent (by simp)).mp h.given, (given_absent (by simp)).mp h.given'⟩)
  | cons p params ih =>
    obtain ⟨key, val⟩ := p
    by_cases hM : key = keyM
    · subst hM
      rw [parseFrom_keyM, accepts_cons keyM_ne_keyEf]
      simp only [ih]
    · by_cases hEf : key = keyEf
      · subst hEf
        have hcons : Accepts keyM keyEf seenM seenEf ((keyEf, val) :: params) o.M o.efConstruction o'.M o'.efConstruction ↔
            Accepts keyEf keyM seenEf seenM ((keyEf, val) :: params) o.efConstruction o.M o'.efConstruction o'.M :=
          ⟨Accepts.swap, Accepts.swap⟩
        rw [parseFrom_keyEf, hcons, accepts_cons (Ne.symm keyM_ne_keyEf)]
        simp only [ih]
        exact and_congr_right fun _ => exists_congr fun m => and_congr_right fun _ => ⟨Accepts.swap, Accepts.swap⟩
      · exact iff_of_false (parseFrom_unknown hM hEf) fun h => (h.known (key, val) List.mem_cons_self).elim hM hEf

theorem validate_iff : o.validate = .ok () ↔
    2 ≤ o.M ∧ o.M ≤ 128 ∧ o.M ≤ o.efConstruction ∧ o.efConstruction ≤ 32 * o.M := by
  unfold validate maxM maxEfConstructionFactor
  split_ifs
  case neg => exact iff_of_true rfl ⟨by omega, by omega, by omega, by omega⟩
  all_goals exact iff_of_false (fun h => by cases h) (by omega)

/-- What the loop returns is checked. -/
theorem parse_returns : parse params = .ok o ↔
    parseFrom params ⟨16, 200⟩ false false = .ok o ∧ o.validate = .ok () := by
  unfold parse defaultM defaultEfConstruction
  rcases parseFrom params ⟨16, 200⟩ false false with e | o₁
  · exact iff_of_false (fun h => by cases h) fun h => by cases h.1
  · show (o₁.validate >>= fun _ => pure o₁) = .ok o ↔ _
    rcases hv : o₁.validate with e | u
    · refine iff_of_false (fun h => by cases h) fun h => ?_
      obtain rfl := Except.ok.inj h.1
      rw [hv] at h
      cases h.2
    · constructor
      · intro h
        obtain rfl := Except.ok.inj h
        exact ⟨rfl, hv⟩
      · exact fun h => h.1

/-- **The options that are accepted**: each key is known and stands once, in any order, each
value is a number, and the numbers, with the defaults for what is left out, are in bounds. -/
theorem options_parse_iff (params : List (Text × Option Text)) (o : Options) : parse params = .ok o ↔
    (params.map Prod.fst).Nodup ∧ (∀ p ∈ params, p.1 = keyM ∨ p.1 = keyEf) ∧
      Given params keyM 16 o.M ∧ Given params keyEf 200 o.efConstruction ∧
      2 ≤ o.M ∧ o.M ≤ 128 ∧ o.M ≤ o.efConstruction ∧ o.efConstruction ≤ 32 * o.M := by
  rw [← validate_iff, parse_returns, parseFrom_iff]
  constructor
  · intro h
    obtain ⟨haccepts, hvalid⟩ := h
    exact ⟨haccepts.nodup, haccepts.known, haccepts.given, haccepts.given', hvalid⟩
  · intro h
    obtain ⟨hnodup, hknown, hM, hEf, hvalid⟩ := h
    exact ⟨⟨hnodup, hknown, fun hs => absurd hs Bool.false_ne_true, fun hs => absurd hs Bool.false_ne_true, hM, hEf⟩, hvalid⟩

/-- A small `m` alone is refused. -/
example : parse [(keyM, some (ascii "4"))] =
    .error (ascii "ef_construction (200) exceeds maximum allowed value (128) for M=4") := by decide +kernel

end Lists

/-! ### What the options are for -/

/-- A record length that fits gives a page with records, laid out as its readers assume. -/
theorem exists_layout {ps : PageSize} {len : ℕ} (hpos : 1 ≤ len) (hfit : LevelLayout.Fits ps len) :
    ∃ d, DataPage.init ps len = some d ∧ DataPage.LayoutOK ps len d ∧ d.Apart len ∧ 0 < d.maxNumRecs := by
  have hps : DataPage.availableSpace ps < 65528 := by cases ps <;> decide
  have h8 : DataPage.trxRefSize = 8 := rfl
  have hle := hfit.2
  have hlen : len ≤ 65527 := by omega
  obtain ⟨d, hd⟩ := DataPage.exists_init ps hpos hlen
  exact ⟨d, hd, layout_of_fits hpos hfit hd, apart_of_fits hpos hfit hd, (DataPage.init_capacity_iff hpos hlen hd).mpr hle⟩

/-- **Whatever is accepted fits.** On pages of any size, every column store of the index gets
pages with records whose layout is the one their readers assume, and no record length is cut
to sixteen bits. -/
theorem accepted_options_fit {params : List (Text × Option Text)} {o : Options} (h : parse params = .ok o) (ps : PageSize)
    (emptyRef entryNid entryLevel : ℕ) :
    (∀ level, IndexStore.entryLen o.M level = (LevelLayout.mk level o.M).entryLen ∧
      IndexStore.overflowLen o.M level = (LevelLayout.mk level o.M).overflowLen) ∧
    ∀ spec ∈ IndexStore.buildStorageSpecs emptyRef o.M entryNid entryLevel, ∃ d, DataPage.init ps spec.colLen = some d ∧
      DataPage.LayoutOK ps spec.colLen d ∧ d.Apart spec.colLen ∧ 0 < d.maxNumRecs := by
  obtain ⟨htwo, hmax, -, -⟩ := validate_iff.mp (parse_returns.mp h).2
  have hfits : ∀ level, LevelLayout.Fits ps (LevelLayout.mk level o.M).entryLen ∧
      LevelLayout.Fits ps (LevelLayout.mk level o.M).overflowLen := fun level => LevelLayout.fits ps htwo hmax
  have hps : DataPage.availableSpace ps < 2 ^ 16 := by cases ps <;> decide
  have hentry : ∀ level, IndexStore.entryLen o.M level = (LevelLayout.mk level o.M).entryLen := fun level => by
    have hle := (hfits level).1.2
    exact Nat.mod_eq_of_lt (by omega)
  have hoverflow : ∀ level, IndexStore.overflowLen o.M level = (LevelLayout.mk level o.M).overflowLen := fun level => by
    have hle := (hfits level).2.2
    exact Nat.mod_eq_of_lt (by omega)
  refine ⟨fun level => ⟨hentry level, hoverflow level⟩, fun spec hspec => ?_⟩
  obtain ⟨level, -, hmem⟩ := List.mem_flatMap.mp hspec
  rcases List.mem_cons.mp hmem with rfl | hmem
  · show ∃ d, DataPage.init ps (IndexStore.entryLen o.M level) = some d ∧ _
    rw [hentry]
    exact exists_layout (by unfold LevelLayout.entryLen; omega) (hfits level).1
  · obtain rfl := List.mem_singleton.mp hmem
    show ∃ d, DataPage.init ps (IndexStore.overflowLen o.M level) = some d ∧ _
    rw [hoverflow]
    exact exists_layout (by unfold LevelLayout.overflowLen; omega) (hfits level).2

/-- The largest `m`, behind a blank, with an `ef_construction` before it. -/
theorem accepted_options_fit_largest :
    parse [(keyEf, some (ascii "400")), (keyM, some (ascii " 128"))] = .ok ⟨128, 400⟩ ∧
      ∀ spec ∈ IndexStore.buildStorageSpecs 0 128 invalidId 0, ∃ d, DataPage.init .k4 spec.colLen = some d ∧
        DataPage.LayoutOK .k4 spec.colLen d ∧ d.Apart spec.colLen ∧ 0 < d.maxNumRecs := by
  have haccepted : parse [(keyEf, some (ascii "400")), (keyM, some (ascii " 128"))] = .ok ⟨128, 400⟩ := by decide
  exact ⟨haccepted, (accepted_options_fit haccepted .k4 0 invalidId 0).2⟩

end Options

end Hnsw
end VsqlVector
