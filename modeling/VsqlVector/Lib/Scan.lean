/-
# Scanners in the style of C

A string view is a pointer and a length, and the memory goes on behind it. A
function that is handed the pointer alone reads on until the characters stop it,
whatever the length of the view was. So a view here has both, what it shows and
what is readable behind it, and such a function says when it would run out of
memory.

A scanner of that kind takes the longest prefix of a word that is in its
language; where the word ends is decided by the characters that stop it.

Key definitions: `StringView`, `longest`, `Stopped`.
Key theorems: `longest_self`, `takeWhile_append_stopped`.
-/
import Mathlib.Data.List.DropRight
import Mathlib.Data.Nat.Find

namespace VsqlVector

/-- A view of memory: its characters and what can be read behind them. -/
structure StringView (α : Type) where
  chars : List α
  behind : List α
  deriving DecidableEq, Repr

namespace StringView

variable {α : Type}

/-- What `data()` points to. -/
def data (v : StringView α) : List α := v.chars ++ v.behind

/-- `while (!s.empty() && p(s.front())) s.remove_prefix(1)`. -/
def skipWhile (p : α → Bool) (v : StringView α) : StringView α := ⟨v.chars.dropWhile p, v.behind⟩

/-- `while (!s.empty() && p(s.back())) s.remove_suffix(1)`. -/
def skipBack (p : α → Bool) (v : StringView α) : StringView α :=
  ⟨v.chars.rdropWhile p, v.chars.rtakeWhile p ++ v.behind⟩

/-- `remove_prefix`, which has no meaning past the end of the view. -/
def removePrefix (n : ℕ) (v : StringView α) : Option (StringView α) :=
  if n ≤ v.chars.length then some ⟨v.chars.drop n, v.behind⟩ else none

/-- `substr`. -/
def substr (pos n : ℕ) (v : StringView α) : StringView α :=
  ⟨(v.chars.drop pos).take n, (v.chars.drop pos).drop n ++ v.behind⟩

end StringView

section Longest

variable {α : Type} {p : List α → Bool} {l : List α}

/-- The length of the longest prefix in the language `p`, 0 if there is none. -/
def longest (p : List α → Bool) (l : List α) : ℕ := Nat.findGreatest (fun k => p (l.take k) = true) l.length

theorem longest_le (p : List α → Bool) (l : List α) : longest p l ≤ l.length := Nat.findGreatest_le _

/-- A word of the language is its own longest prefix. -/
theorem longest_self (h : p l = true) : longest p l = l.length :=
  Nat.findGreatest_eq (by rwa [List.take_length])

theorem longest_mem (h : longest p l ≠ 0) : p (l.take (longest p l)) = true :=
  Nat.findGreatest_of_ne_zero (P := fun k => p (l.take k) = true) rfl h

end Longest

section Stopped

variable {α : Type} {stops : α → Bool} {t rest : List α}

/-- What follows a word: the end, or a character that stops it. -/
def Stopped (stops : α → Bool) (rest : List α) : Prop := ∀ b, rest.head? = some b → stops b = true

/-- A word without stops ends where it is stopped. -/
theorem takeWhile_append_stopped (ht : ∀ b ∈ t, stops b = false) (hrest : Stopped stops rest) :
    (t ++ rest).takeWhile (fun b => !stops b) = t := by
  have hnil : rest.takeWhile (fun b => !stops b) = [] := by
    cases rest with
    | nil => rfl
    | cons b bs => rw [List.takeWhile_cons_of_neg (by simp [hrest b rfl])]
  rw [List.takeWhile_append_of_pos (fun b hb => by simp [ht b hb]), hnil, List.append_nil]

/-- Behind a stop nothing counts. -/
theorem takeWhile_append_behind {behind : List α} (h : Stopped stops behind) :
    (t ++ behind).takeWhile (fun b => !stops b) = t.takeWhile (fun b => !stops b) := by
  induction t with
  | nil =>
    have := takeWhile_append_stopped (t := []) (by simp) h
    simpa using this
  | cons b bs ih =>
    by_cases hb : stops b = true
    · simp [hb]
    · simp [hb, ih]

end Stopped

end VsqlVector
