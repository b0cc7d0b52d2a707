import Mathlib.Algebra.Ring.Nat
import Mathlib.Data.List.DropRight
import Mathlib.Data.List.Basic

/-!
# Text

The string functions of the standard library, over the characters of a text: trimming,
splitting at the first occurrence of a pattern, and reading an unsigned number.
-/

namespace CrdtSync.Lib

abbrev Text := List Char

namespace Text

/-- Unicode's `White_Space`. -/
def isWhitespace (c : Char) : Bool :=
  let n := c.toNat
  9 ≤ n && n ≤ 13 || n = 32 || n = 0x85 || n = 0xA0 || n = 0x1680 || 0x2000 ≤ n && n ≤ 0x200A ||
    n = 0x2028 || n = 0x2029 || n = 0x202F || n = 0x205F || n = 0x3000

def trim (s : Text) : Text := (s.dropWhile isWhitespace).rdropWhile isWhitespace

def trimEndMatches (c : Char) (s : Text) : Text := s.rdropWhile (· == c)

def stripSuffix (c : Char) (s : Text) : Text := if s.getLast? = some c then s.dropLast else s

def toAsciiLowercase (s : Text) : Text := s.map Char.toLower

/-- What stands before and after the first occurrence of a pattern. -/
def splitOnce (pattern : Text) : Text → Option (Text × Text)
  | [] => if pattern.isEmpty then some ([], []) else none
  | c :: s =>
    if pattern.isPrefixOf (c :: s) then some ([], (c :: s).drop pattern.length)
    else (splitOnce pattern s).map fun parts => (c :: parts.1, parts.2)

/-- A plus sign is no part of a number's digits. -/
def stripPlus : Text → Text
  | '+' :: digits => digits
  | digits => digits

/-- Decimal digits, after a plus sign or not, of a number below the bound. -/
def parseUnsigned (bound : Nat) (s : Text) : Option Nat :=
  let digits := stripPlus s
  if digits.isEmpty || !digits.all Char.isDigit then none
  else
    let n := Nat.ofDigitChars 10 digits 0
    if n < bound then some n else none

section Splitting

theorem splitOnce_singleton (c : Char) (s : Text) :
    splitOnce [c] s =
      if c ∈ s then some (s.takeWhile (· ≠ c), (s.dropWhile (· ≠ c)).tail) else none := by
  induction s with
  | nil => rfl
  | cons d s ih =>
    rw [splitOnce]
    by_cases hChar : d = c
    · subst hChar
      simp
    · have hNot : [c].isPrefixOf (d :: s) = false := by
        simp [List.isPrefixOf, Ne.symm hChar]
      rw [hNot, if_neg (by decide), ih]
      by_cases hIn : c ∈ s
      · simp [hIn, hChar]
      · simp [hIn, Ne.symm hChar]

/-- A pattern whose first character stands nowhere before it splits there. -/
theorem splitOnce_append {first : Char} {pattern front : Text} (hFront : first ∉ front)
    (rest : Text) :
    splitOnce (first :: pattern) (front ++ (first :: pattern ++ rest)) = some (front, rest) := by
  induction front with
  | nil =>
    rw [List.nil_append, List.cons_append, splitOnce, if_pos (by simp)]
    simp
  | cons c front ih =>
    rw [List.mem_cons, not_or] at hFront
    obtain ⟨hHead, hTail⟩ := hFront
    have hNot : (first :: pattern).isPrefixOf (c :: (front ++ (first :: pattern ++ rest))) =
        false := by simp [List.isPrefixOf, hHead]
    rw [List.cons_append, splitOnce, hNot, if_neg (by decide), ih hTail]
    rfl

theorem splitOnce_eq_none {pattern s : Text} {c : Char} (hPattern : c ∈ pattern) (hs : c ∉ s) :
    splitOnce pattern s = none := by
  induction s with
  | nil =>
    cases pattern with
    | nil => cases hPattern
    | cons d pattern => rfl
  | cons d s ih =>
    have hNot : pattern.isPrefixOf (d :: s) = false := by
      rw [Bool.eq_false_iff, Ne, List.isPrefixOf_iff_prefix]
      exact fun hPrefix => hs (hPrefix.subset hPattern)
    rw [splitOnce, hNot, if_neg (by decide), ih fun hIn => hs (List.mem_cons_of_mem d hIn)]
    rfl

theorem head_splitOn (c : Char) (s : Text) : (s.splitOn c).head? = some (s.takeWhile (· ≠ c)) := by
  induction s with
  | nil => rfl
  | cons d s ih =>
    rw [List.splitOn_cons_eq_if_modifyHead]
    by_cases hChar : d = c
    · subst hChar
      simp
    · simp only [beq_iff_eq, hChar, if_false]
      rw [List.head?_modifyHead, ih]
      simp [hChar]

theorem splitOn_map {c : Char} {f : Char → Char} (hf : ∀ d, f d = c ↔ d = c) (s : Text) :
    (s.map f).splitOn c = (s.splitOn c).map (List.map f) := by
  induction s with
  | nil => rfl
  | cons d s ih =>
    rw [List.map_cons, List.splitOn_cons_eq_if_modifyHead, List.splitOn_cons_eq_if_modifyHead, ih]
    by_cases hChar : d = c
    · simp [hChar, (hf c).mpr rfl]
    · have hMapped : f d ≠ c := fun hEq => hChar ((hf d).mp hEq)
      simp only [beq_iff_eq, hChar, hMapped, if_false]
      cases s.splitOn c <;> rfl

/-- A text without an empty part has characters, and the separator is not the last. -/
theorem getLast_of_splitOn {c : Char} {s : Text} (h : [] ∉ s.splitOn c) :
    s ≠ [] ∧ s.getLast? ≠ some c := by
  constructor
  · rintro rfl
    exact h (by simp)
  · intro hLast
    obtain ⟨front, rfl⟩ := List.getLast?_eq_some_iff.mp hLast
    rw [List.splitOn_append_cons_self] at h
    exact h (by simp)

end Splitting

section Trimming

theorem trim_eq_self {s : Text} (h : ∀ c ∈ s, isWhitespace c = false) : trim s = s := by
  have hDrop : s.dropWhile isWhitespace = s := by
    cases s with
    | nil => rfl
    | cons c s => rw [List.dropWhile_cons_of_neg (by simp [h c List.mem_cons_self])]
  rw [trim, hDrop, List.rdropWhile_eq_self_iff]
  intro hNonempty
  simp [h _ (List.getLast_mem hNonempty)]

theorem trimEndMatches_eq_self {c : Char} {s : Text} (h : s.getLast? ≠ some c) :
    trimEndMatches c s = s := by
  rw [trimEndMatches, List.rdropWhile_eq_self_iff]
  intro hNonempty hLast
  exact h (by rw [List.getLast?_eq_some_getLast hNonempty]; simpa using hLast)

theorem mem_of_mem_trimEndMatches {c d : Char} {s : Text} (h : d ∈ trimEndMatches c s) : d ∈ s :=
  (List.rdropWhile_prefix _ s).subset h

theorem head_of_head_trimEndMatches {c d : Char} {s : Text}
    (h : (trimEndMatches c s).head? = some d) : s.head? = some d := by
  obtain ⟨rest, hRest⟩ := List.rdropWhile_prefix (· == c) s
  rw [← trimEndMatches] at hRest
  rw [← hRest, List.head?_append_of_ne_nil]
  · exact h
  · intro hNil
    rw [hNil] at h
    cases h

theorem trimEndMatches_map {c : Char} {f : Char → Char} (hf : ∀ d, f d = c ↔ d = c) (s : Text) :
    trimEndMatches c (s.map f) = (trimEndMatches c s).map f := by
  have hSame : (· == c) ∘ f = (· == c) := by
    funext d
    simp [hf d]
  rw [trimEndMatches, trimEndMatches, List.rdropWhile, List.rdropWhile, ← List.map_reverse,
    List.dropWhile_map, hSame, List.map_reverse]

theorem stripSuffix_eq_self {c : Char} {s : Text} (h : s.getLast? ≠ some c) : stripSuffix c s = s :=
  if_neg h

end Trimming

section Numbers

theorem parseUnsigned_toDigits {bound n : Nat} (hn : n < bound) :
    parseUnsigned bound (Nat.toDigits 10 n) = some n := by
  have hDigits : ∀ c ∈ Nat.toDigits 10 n, c.isDigit = true := fun c hc =>
    Nat.isDigit_of_mem_toDigits (by decide) (by decide) hc
  have hNonempty : Nat.toDigits 10 n ≠ [] := Nat.toDigits_ne_nil
  have hSign : stripPlus (Nat.toDigits 10 n) = Nat.toDigits 10 n := by
    unfold stripPlus
    split
    · next digits hEq =>
      have hPlus := hDigits '+' (by rw [hEq]; exact List.mem_cons_self)
      cases hPlus
    · rfl
  have hAll : (Nat.toDigits 10 n).all Char.isDigit = true := List.all_eq_true.mpr hDigits
  unfold parseUnsigned
  rw [hSign]
  dsimp only
  rw [if_neg (by simp [hNonempty, hAll]), Nat.ofDigitChars_ten_toDigits, if_pos hn]

theorem lt_of_parseUnsigned {bound n : Nat} {s : Text} (h : parseUnsigned bound s = some n) :
    n < bound := by
  unfold parseUnsigned at h
  dsimp only at h
  split at h
  · cases h
  · split at h
    · next hLt =>
      obtain rfl := Option.some.inj h
      exact hLt
    · cases h

end Numbers

end Text

end CrdtSync.Lib
