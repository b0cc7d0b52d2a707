import CrdtSync.Lib.Text

/-!
# IP literals

Addresses of either version, read from text and printed the way the standard library
does: a version 6 address with its longest run of zero groups elided, and one that maps a
version 4 address in mixed notation. Reading what is printed gives the address back.
-/

namespace CrdtSync.Lib.Ip

structure Ipv4Addr where
  a : Fin 256
  b : Fin 256
  c : Fin 256
  d : Fin 256
deriving DecidableEq

structure Ipv6Addr where
  groups : List (Fin 65536)
  length_groups : groups.length = 8
deriving DecidableEq

inductive IpAddr
  | v4 (addr : Ipv4Addr)
  | v6 (addr : Ipv6Addr)
deriving DecidableEq

/-! ### Reading

A reader answers what it takes off the front of a text and the rest of it.
-/

/-- A decimal digit, or a letter of either case for what is past nine. -/
def alphanumeric (c : Char) : Option Nat :=
  if '0' ≤ c ∧ c ≤ '9' then some (c.toNat - '0'.toNat)
  else if 'a' ≤ c ∧ c ≤ 'z' then some (c.toNat - 'a'.toNat + 10)
  else if 'A' ≤ c ∧ c ≤ 'Z' then some (c.toNat - 'A'.toNat + 10)
  else none

def toDigit (radix : Nat) (c : Char) : Option Nat := (alphanumeric c).filter (· < radix)

def isDigitIn (radix : Nat) (c : Char) : Bool := (toDigit radix c).isSome

def valueInRadix (radix : Nat) (digits : Text) : Nat :=
  digits.foldl (fun n c => n * radix + (toDigit radix c).getD 0) 0

/-- All the digits there are, if they are not too many and the number is in range. -/
def readNumber (radix maxDigits : Nat) (allowZeroPrefix : Bool) (bound : Nat) (s : Text) :
    Option (Fin bound × Text) :=
  let digits := s.takeWhile (isDigitIn radix)
  if digits.length > maxDigits ∨ digits.length = 0 then none
  else if ¬allowZeroPrefix ∧ digits.head? = some '0' ∧ digits.length > 1 then none
  else if h : valueInRadix radix digits < bound then
    some (⟨valueInRadix radix digits, h⟩, s.dropWhile (isDigitIn radix))
  else none

def readGivenChar (target : Char) : Text → Option Text
  | c :: s => if c = target then some s else none
  | [] => none

/-- The separator stands before every item but the first. -/
def readSeparator {α : Type} (sep : Char) (index : Nat) (inner : Text → Option (α × Text))
    (s : Text) : Option (α × Text) :=
  if index > 0 then (readGivenChar sep s).bind inner else inner s

def readOctet : Text → Option (Fin 256 × Text) := readNumber 10 3 false 256

def readIpv4Addr (s : Text) : Option (Ipv4Addr × Text) := do
  let (a, s) ← readSeparator '.' 0 readOctet s
  let (b, s) ← readSeparator '.' 1 readOctet s
  let (c, s) ← readSeparator '.' 2 readOctet s
  let (d, s) ← readSeparator '.' 3 readOctet s
  some (⟨a, b, c, d⟩, s)

def readGroup : Text → Option (Fin 65536 × Text) := readNumber 16 4 true 65536

/-- Two octets as one group. -/
def pairOctets (hi lo : Fin 256) : Fin 65536 := ⟨hi.val * 256 + lo.val, by omega⟩

/-- Groups up to a limit of `left`, with whether an embedded version 4 address ended them.
One takes two groups, and is tried first. -/
def readGroups : Nat → Nat → Text → List (Fin 65536) × Bool × Text
  | 0, _, s => ([], false, s)
  | left + 1, i, s =>
    match if left ≥ 1 then readSeparator ':' i readIpv4Addr s else none with
    | some (v4, s) => ([pairOctets v4.a v4.b, pairOctets v4.c v4.d], true, s)
    | none =>
      match readSeparator ':' i readGroup s with
      | some (group, s) =>
        let (groups, v4, s) := readGroups left (i + 1) s
        (group :: groups, v4, s)
      | none => ([], false, s)

def ofGroups (groups : List (Fin 65536)) : Option Ipv6Addr :=
  if h : groups.length = 8 then some ⟨groups, h⟩ else none

/-- All eight groups, or what stands before a `::` and after it. -/
def readIpv6Addr (s : Text) : Option (Ipv6Addr × Text) := do
  let (head, headV4, s) := readGroups 8 0 s
  if head.length = 8 then
    let addr ← ofGroups head
    some (addr, s)
  else if headV4 then none
  else
    let s ← readGivenChar ':' s
    let s ← readGivenChar ':' s
    let (tail, _, s) := readGroups (8 - (head.length + 1)) 0 s
    let addr ← ofGroups (head ++ List.replicate (8 - head.length - tail.length) 0 ++ tail)
    some (addr, s)

def readIpAddr (s : Text) : Option (IpAddr × Text) :=
  match readIpv4Addr s with
  | some (addr, s) => some (.v4 addr, s)
  | none => (readIpv6Addr s).map fun r => (.v6 r.1, r.2)

def parseWith {α : Type} (read : Text → Option (α × Text)) (s : Text) : Option α :=
  match read s with
  | some (a, []) => some a
  | _ => none

def parseIpv6Addr : Text → Option Ipv6Addr := parseWith readIpv6Addr

def parseIpAddr : Text → Option IpAddr := parseWith readIpAddr

/-! ### Printing -/

def printIpv4Addr (addr : Ipv4Addr) : Text :=
  Nat.toDigits 10 addr.a ++ '.' :: (Nat.toDigits 10 addr.b ++ '.' :: (Nat.toDigits 10 addr.c ++
    '.' :: Nat.toDigits 10 addr.d))

/-- The version 4 address a version 6 one maps. -/
def toIpv4Mapped (addr : Ipv6Addr) : Option Ipv4Addr :=
  match addr.groups with
  | [0, 0, 0, 0, 0, 65535, ab, cd] =>
    some ⟨Fin.ofNat 256 (ab.val / 256), Fin.ofNat 256 ab, Fin.ofNat 256 (cd.val / 256),
      Fin.ofNat 256 cd⟩
  | _ => none

structure Span where
  start : Nat
  len : Nat

/-- The longest run of zeros so far, and the one that is growing. -/
def zerosStep (runs : Span × Span) (segment : Fin 65536 × Nat) : Span × Span :=
  if segment.1 = 0 then
    let current : Span := ⟨if runs.2.len = 0 then segment.2 else runs.2.start, runs.2.len + 1⟩
    (if current.len > runs.1.len then current else runs.1, current)
  else (runs.1, ⟨0, 0⟩)

def longestZeros (groups : List (Fin 65536)) : Span :=
  (groups.zipIdx.foldl zerosStep (⟨0, 0⟩, ⟨0, 0⟩)).1

/-- Groups in hexadecimal, with colons between them. -/
def fmtSubslice : List (Fin 65536) → Text
  | [] => []
  | first :: tail => Nat.toDigits 16 first ++ tail.flatMap fun group => ':' :: Nat.toDigits 16 group

def printIpv6Addr (addr : Ipv6Addr) : Text :=
  match toIpv4Mapped addr with
  | some v4 => [':', ':', 'f', 'f', 'f', 'f', ':'] ++ printIpv4Addr v4
  | none =>
    let zeroes := longestZeros addr.groups
    if zeroes.len > 1 then
      fmtSubslice (addr.groups.take zeroes.start) ++ ':' :: ':' ::
        fmtSubslice (addr.groups.drop (zeroes.start + zeroes.len))
    else fmtSubslice addr.groups

def printIpAddr : IpAddr → Text
  | .v4 addr => printIpv4Addr addr
  | .v6 addr => printIpv6Addr addr

/-! ### Numbers -/

section Numbers

variable {radix : Nat}

theorem toDigit_digitChar (hRadix : radix ≤ 16) {d : Nat} (hd : d < radix) :
    toDigit radix (Nat.digitChar d) = some d := by
  have hAll : ∀ d < 16, toDigit 16 (Nat.digitChar d) = some d := by decide
  have hSixteen := hAll d (hd.trans_le hRadix)
  unfold toDigit at hSixteen ⊢
  rw [Option.filter_eq_some_iff] at hSixteen ⊢
  exact ⟨hSixteen.1, by simpa using hd⟩

theorem mem_toDigits (hRadix : 1 < radix) (n : Nat) :
    ∀ c ∈ Nat.toDigits radix n, ∃ d < radix, c = Nat.digitChar d := by
  induction n using Nat.base_induction radix hRadix with
  | single m hm =>
    intro c hc
    rw [Nat.toDigits_of_lt_base hm, List.mem_singleton] at hc
    exact ⟨m, hm, hc⟩
  | digit m k hk hm ih =>
    intro c hc
    rw [← Nat.toDigits_append_toDigits hRadix hm hk, List.mem_append,
      Nat.toDigits_of_lt_base hk, List.mem_singleton] at hc
    obtain hc | hc := hc
    · exact ih c hc
    · exact ⟨k, hk, hc⟩

theorem isDigitIn_toDigits (hRadix : 1 < radix) (hMost : radix ≤ 16) (n : Nat) :
    ∀ c ∈ Nat.toDigits radix n, isDigitIn radix c = true := by
  intro c hc
  obtain ⟨d, hd, rfl⟩ := mem_toDigits hRadix n c hc
  rw [isDigitIn, toDigit_digitChar hMost hd]
  rfl

theorem valueInRadix_toDigits (hRadix : 1 < radix) (hMost : radix ≤ 16) (n : Nat) :
    valueInRadix radix (Nat.toDigits radix n) = n := by
  induction n using Nat.base_induction radix hRadix with
  | single m hm =>
    rw [Nat.toDigits_of_lt_base hm, valueInRadix]
    simp [toDigit_digitChar hMost hm]
  | digit m k hk hm ih =>
    rw [← Nat.toDigits_append_toDigits hRadix hm hk, valueInRadix, List.foldl_append, ← valueInRadix,
      ih, Nat.toDigits_of_lt_base hk]
    simp [toDigit_digitChar hMost hk, Nat.mul_comm]

theorem head_toDigits_ne_zero (hRadix : 1 < radix) (hMost : radix ≤ 16) {n : Nat} (hn : 0 < n) :
    (Nat.toDigits radix n).head? ≠ some '0' := by
  induction n using Nat.base_induction radix hRadix with
  | single m hm =>
    have hAll : ∀ d < 16, 0 < d → Nat.digitChar d ≠ '0' := by decide
    rw [Nat.toDigits_of_lt_base hm]
    simpa using hAll m (hm.trans_le hMost) hn
  | digit m k hk hm ih =>
    rw [← Nat.toDigits_append_toDigits hRadix hm hk, List.head?_append_of_ne_nil _ Nat.toDigits_ne_nil]
    exact ih hm

/-- A text whose first character is no digit. -/
def NoDigit (radix : Nat) (s : Text) : Prop := ∀ c, s.head? = some c → isDigitIn radix c = false

theorem takeWhile_digits {digits rest : Text}
    (hDigits : ∀ c ∈ digits, isDigitIn radix c = true) (hRest : NoDigit radix rest) :
    (digits ++ rest).takeWhile (isDigitIn radix) = digits ∧
      (digits ++ rest).dropWhile (isDigitIn radix) = rest := by
  rw [List.takeWhile_append_of_pos hDigits, List.dropWhile_append_of_pos hDigits]
  cases rest with
  | nil => simp
  | cons c rest => simp [hRest c rfl]

theorem readNumber_toDigits {maxDigits bound : Nat} {allowZeroPrefix : Bool} (hRadix : 1 < radix)
    (hMost : radix ≤ 16) (hDigits : 0 < maxDigits) (n : Fin bound) (hn : n < radix ^ maxDigits)
    {rest : Text} (hRest : NoDigit radix rest) :
    readNumber radix maxDigits allowZeroPrefix bound (Nat.toDigits radix n ++ rest) =
      some (n, rest) := by
  obtain ⟨hTake, hDrop⟩ := takeWhile_digits (isDigitIn_toDigits hRadix hMost n) hRest
  have hLength : (Nat.toDigits radix n).length ≤ maxDigits :=
    (Nat.length_toDigits_le_iff hRadix hDigits).mpr hn
  have hPos : 0 < (Nat.toDigits radix n).length := Nat.length_toDigits_pos
  have hZero : ¬(¬allowZeroPrefix ∧ (Nat.toDigits radix n).head? = some '0' ∧
      (Nat.toDigits radix n).length > 1) := by
    rintro ⟨-, hHead, hLong⟩
    obtain hn | hn := Nat.eq_zero_or_pos n
    · rw [hn, Nat.toDigits_zero] at hLong
      simp at hLong
    · exact head_toDigits_ne_zero hRadix hMost hn hHead
  unfold readNumber
  rw [hTake, hDrop]
  dsimp only
  rw [if_neg (by omega), if_neg hZero, dif_pos (by rw [valueInRadix_toDigits hRadix hMost]; exact n.2)]
  simp only [valueInRadix_toDigits hRadix hMost]

end Numbers

/-! ### What is printed is read back -/

section RoundTrip

theorem noDigit_nil (radix : Nat) : NoDigit radix [] := fun _ h => by cases h

theorem noDigit_cons {radix : Nat} {c : Char} (h : isDigitIn radix c = false) (s : Text) :
    NoDigit radix (c :: s) := by
  rintro _ ⟨⟩
  exact h

theorem readGivenChar_cons (c : Char) (s : Text) : readGivenChar c (c :: s) = some s := if_pos rfl

theorem readOctet_toDigits (n : Fin 256) {rest : Text} (hRest : NoDigit 10 rest) :
    readOctet (Nat.toDigits 10 n ++ rest) = some (n, rest) :=
  readNumber_toDigits (by decide) (by decide) (by decide) n (by omega) hRest

theorem readGroup_toDigits (n : Fin 65536) {rest : Text} (hRest : NoDigit 16 rest) :
    readGroup (Nat.toDigits 16 n ++ rest) = some (n, rest) :=
  readNumber_toDigits (by decide) (by decide) (by decide) n (by omega) hRest

theorem readSeparator_zero {α : Type} (sep : Char) (inner : Text → Option (α × Text))
    (s : Text) : readSeparator sep 0 inner s = inner s := if_neg (by decide)

theorem readSeparator_cons {α : Type} {sep : Char} {index : Nat} (hIndex : 0 < index)
    (inner : Text → Option (α × Text)) (s : Text) :
    readSeparator sep index inner (sep :: s) = inner s := by
  rw [readSeparator, if_pos hIndex, readGivenChar_cons]
  rfl

theorem readIpv4Addr_printIpv4Addr (addr : Ipv4Addr) {rest : Text} (hRest : NoDigit 10 rest) :
    readIpv4Addr (printIpv4Addr addr ++ rest) = some (addr, rest) := by
  have hDot : ∀ s, NoDigit 10 ('.' :: s) := noDigit_cons (by decide)
  have hText : printIpv4Addr addr ++ rest = Nat.toDigits 10 addr.a ++ '.' ::
      (Nat.toDigits 10 addr.b ++ '.' :: (Nat.toDigits 10 addr.c ++ '.' ::
        (Nat.toDigits 10 addr.d ++ rest))) := by simp [printIpv4Addr]
  rw [hText, readIpv4Addr, readSeparator, if_neg (by decide), readOctet_toDigits _ (hDot _)]
  simp only [Option.bind_eq_bind, Option.bind_some]
  rw [readSeparator_cons (by decide), readOctet_toDigits _ (hDot _), Option.bind_some,
    readSeparator_cons (by decide), readOctet_toDigits _ (hDot _), Option.bind_some,
    readSeparator_cons (by decide), readOctet_toDigits _ hRest, Option.bind_some]

/-- A version 4 address has dots in it. -/
theorem readIpv4Addr_eq_none {s : Text} (hDot : '.' ∉ s) : readIpv4Addr s = none := by
  rw [readIpv4Addr, readSeparator, if_neg (by decide)]
  cases hFirst : readOctet s with
  | none => rfl
  | some r =>
    have hRest : '.' ∉ r.2 := by
      unfold readOctet readNumber at hFirst
      dsimp only at hFirst
      split at hFirst
      · cases hFirst
      · split at hFirst
        · cases hFirst
        · split at hFirst
          · cases hFirst
            exact fun hIn => hDot ((List.dropWhile_sublist _).mem hIn)
          · cases hFirst
    have hNone : readGivenChar '.' r.2 = none := by
      cases hr : r.2 with
      | nil => rfl
      | cons c rest =>
        rw [readGivenChar, if_neg]
        rintro rfl
        exact hRest (by rw [hr]; exact List.mem_cons_self)
    simp only [Option.bind_eq_bind, Option.bind_some]
    rw [readSeparator, if_pos (by decide), hNone]
    rfl

/-- Groups read from an index on, each but the first behind a colon. -/
def groupsText (i : Nat) : List (Fin 65536) → Text
  | [] => []
  | group :: groups =>
    (if i > 0 then [':'] else []) ++ Nat.toDigits 16 group ++ groupsText (i + 1) groups

theorem groupsText_of_pos {i : Nat} (hi : 0 < i) (groups : List (Fin 65536)) :
    groupsText i groups = groups.flatMap fun group => ':' :: Nat.toDigits 16 group := by
  induction groups generalizing i with
  | nil => rfl
  | cons group groups ih =>
    rw [groupsText, if_pos hi, ih (Nat.succ_pos i)]
    rfl

theorem fmtSubslice_eq (groups : List (Fin 65536)) : fmtSubslice groups = groupsText 0 groups := by
  cases groups with
  | nil => rfl
  | cons group groups =>
    rw [groupsText, groupsText_of_pos (Nat.succ_pos 0)]
    rfl

theorem colon_notDigit : isDigitIn 16 ':' = false := by decide

/-- Where groups stop: the text ends, or its elided part begins. -/
def Stops (s : Text) : Prop := s = [] ∨ ∃ rest, s = ':' :: ':' :: rest

theorem Stops.noDigit {s : Text} (h : Stops s) : NoDigit 16 s := by
  obtain rfl | ⟨rest, rfl⟩ := h
  · exact noDigit_nil 16
  · exact noDigit_cons colon_notDigit _

theorem readNumber_eq_none {radix maxDigits bound : Nat} {allowZeroPrefix : Bool} {s : Text}
    (h : NoDigit radix s) : readNumber radix maxDigits allowZeroPrefix bound s = none := by
  have hTake : s.takeWhile (isDigitIn radix) = [] := by
    cases s with
    | nil => rfl
    | cons c s => rw [List.takeWhile_cons, h c rfl]; rfl
  unfold readNumber
  rw [hTake]
  rfl

theorem Stops.readGroup_eq_none {s : Text} (h : Stops s) (i : Nat) :
    readSeparator ':' i readGroup s = none := by
  have hSelf : readGroup s = none := readNumber_eq_none h.noDigit
  obtain rfl | ⟨rest, rfl⟩ := h
  · unfold readSeparator
    split
    · rfl
    · exact hSelf
  · unfold readSeparator
    split
    · have hNext : readGroup (':' :: rest) = none :=
        readNumber_eq_none (noDigit_cons colon_notDigit rest)
      rw [readGivenChar_cons]
      exact hNext
    · exact hSelf

theorem dot_notMem_groupsText (i : Nat) (groups : List (Fin 65536)) : '.' ∉ groupsText i groups := by
  induction groups generalizing i with
  | nil => exact List.not_mem_nil
  | cons group groups ih =>
    rw [groupsText, List.mem_append, List.mem_append]
    rintro ((hColon | hDigit) | hRest)
    · split at hColon
      · simp at hColon
      · cases hColon
    · have hIs := isDigitIn_toDigits (by decide) (by decide) _ _ hDigit
      exact absurd hIs (by decide)
    · exact ih (i + 1) hRest

theorem embedded_eq_none {s : Text} (hDot : '.' ∉ s) (left i : Nat) :
    (if left ≥ 1 then readSeparator ':' i readIpv4Addr s else none) = none := by
  split
  · unfold readSeparator
    split
    · cases s with
      | nil => rfl
      | cons c s =>
        rw [readGivenChar]
        split
        · exact readIpv4Addr_eq_none fun hIn => hDot (List.mem_cons_of_mem c hIn)
        · rfl
    · exact readIpv4Addr_eq_none hDot
  · rfl

theorem readGroups_groupsText {rest : Text} (hStops : Stops rest) (hDot : '.' ∉ rest)
    (groups : List (Fin 65536)) (left i : Nat) (hLength : groups.length ≤ left) :
    readGroups left i (groupsText i groups ++ rest) = (groups, false, rest) := by
  induction groups generalizing left i with
  | nil =>
    cases left with
    | zero => rfl
    | succ left =>
      rw [groupsText, List.nil_append, readGroups, embedded_eq_none hDot, hStops.readGroup_eq_none]
  | cons group groups ih =>
    obtain _ | left := left
    · simp at hLength
    · have hNone : '.' ∉ groupsText i (group :: groups) ++ rest := by
        rw [List.mem_append, not_or]
        exact ⟨dot_notMem_groupsText i _, hDot⟩
      have hNext : NoDigit 16 (groupsText (i + 1) groups ++ rest) := by
        cases groups with
        | nil => exact hStops.noDigit
        | cons next groups =>
          rw [groupsText, if_pos (Nat.succ_pos i)]
          exact noDigit_cons colon_notDigit _
      have hRead : readSeparator ':' i readGroup (groupsText i (group :: groups) ++ rest) =
          some (group, groupsText (i + 1) groups ++ rest) := by
        rw [groupsText, List.append_assoc, List.append_assoc]
        by_cases hi : i > 0
        · rw [if_pos hi, List.singleton_append, readSeparator_cons hi]
          exact readGroup_toDigits group hNext
        · rw [if_neg hi, List.nil_append, readSeparator, if_neg hi]
          exact readGroup_toDigits group hNext
      rw [readGroups, embedded_eq_none hNone, hRead]
      dsimp only
      rw [ih left (i + 1) (by simpa using hLength)]

def Span.Covers (run : Span) (groups : List (Fin 65536)) : Prop :=
  run.len = 0 ∨ ∃ head tail, groups = head ++ List.replicate run.len 0 ++ tail ∧
    head.length = run.start

def Span.Ends (run : Span) (groups : List (Fin 65536)) : Prop :=
  run.len = 0 ∨ ∃ head, groups = head ++ List.replicate run.len 0 ∧ head.length = run.start

theorem Span.Covers.snoc {run : Span} {groups : List (Fin 65536)} (h : run.Covers groups)
    (group : Fin 65536) : run.Covers (groups ++ [group]) := by
  obtain hNone | ⟨head, tail, rfl, hStart⟩ := h
  · exact .inl hNone
  · exact .inr ⟨head, tail ++ [group], by simp, hStart⟩

theorem Span.Ends.covers {run : Span} {groups : List (Fin 65536)} (h : run.Ends groups) :
    run.Covers groups := by
  obtain hNone | ⟨head, hGroups, hStart⟩ := h
  · exact .inl hNone
  · exact .inr ⟨head, [], by simpa using hGroups, hStart⟩

theorem covers_foldl_zerosStep (groups : List (Fin 65536)) :
    (groups.zipIdx.foldl zerosStep (⟨0, 0⟩, ⟨0, 0⟩)).1.Covers groups ∧
      (groups.zipIdx.foldl zerosStep (⟨0, 0⟩, ⟨0, 0⟩)).2.Ends groups := by
  induction groups using List.reverseRecOn with
  | nil => exact ⟨.inl rfl, .inl rfl⟩
  | append_singleton groups group ih =>
    rw [List.zipIdx_append, List.foldl_append]
    generalize groups.zipIdx.foldl zerosStep (⟨0, 0⟩, ⟨0, 0⟩) = runs at ih ⊢
    obtain ⟨hLongest, hCurrent⟩ := ih
    simp only [List.zipIdx_cons, List.zipIdx_nil, List.foldl_cons, List.foldl_nil, zerosStep]
    by_cases hZero : group = 0
    · subst hZero
      rw [if_pos rfl]
      have hGrown : (⟨if runs.2.len = 0 then 0 + groups.length else runs.2.start,
          runs.2.len + 1⟩ : Span).Ends (groups ++ [0]) := by
        refine .inr ?_
        obtain hNone | ⟨head, rfl, hStart⟩ := hCurrent
        · exact ⟨groups, by simp [hNone], by simp [hNone]⟩
        · by_cases hNone : runs.2.len = 0
          · exact ⟨head, by simp [hNone], by simp [hNone]⟩
          · refine ⟨head, ?_, by simp [hNone, hStart]⟩
            rw [List.replicate_succ', List.append_assoc]
      refine ⟨?_, hGrown⟩
      split
      · exact hGrown.covers
      · exact hLongest.snoc 0
    · rw [if_neg hZero]
      exact ⟨hLongest.snoc group, .inl rfl⟩

theorem readIpv4Addr_of_noDigit {s : Text} (h : NoDigit 10 s) : readIpv4Addr s = none := by
  have hFirst : readOctet s = none := readNumber_eq_none h
  rw [readIpv4Addr, readSeparator, if_neg (by decide), hFirst]
  rfl

theorem groups_of_toIpv4Mapped {addr : Ipv6Addr} {v4 : Ipv4Addr} (h : toIpv4Mapped addr = some v4) :
    addr.groups =
      [0, 0, 0, 0, 0, 65535, pairOctets v4.a v4.b, pairOctets v4.c v4.d] := by
  have hPair : ∀ g : Fin 65536, pairOctets (Fin.ofNat 256 (g.val / 256)) (Fin.ofNat 256 g) = g := by
    intro g
    apply Fin.ext
    simp only [pairOctets, Fin.ofNat]
    omega
  unfold toIpv4Mapped at h
  split at h
  · next ab cd hGroups =>
    obtain rfl := Option.some.inj h
    rw [hGroups, hPair, hPair]
  · cases h

theorem readGroups_mapped (v4 : Ipv4Addr) :
    readGroups 7 0 (['f', 'f', 'f', 'f', ':'] ++ printIpv4Addr v4) =
      ([65535, pairOctets v4.a v4.b, pairOctets v4.c v4.d], true, []) := by
  have hText : ['f', 'f', 'f', 'f', ':'] ++ printIpv4Addr v4 =
      Nat.toDigits 16 (65535 : Fin 65536) ++ ':' :: printIpv4Addr v4 := rfl
  have hNone : readSeparator ':' 0 readIpv4Addr (['f', 'f', 'f', 'f', ':'] ++ printIpv4Addr v4) =
      none := readIpv4Addr_of_noDigit (noDigit_cons (by decide) _)
  have hGroup : readSeparator ':' 0 readGroup (['f', 'f', 'f', 'f', ':'] ++ printIpv4Addr v4) =
      some (65535, ':' :: printIpv4Addr v4) := by
    rw [hText, readSeparator_zero]
    exact readGroup_toDigits _ (noDigit_cons colon_notDigit _)
  have hV4 : readSeparator ':' 1 readIpv4Addr (':' :: printIpv4Addr v4) = some (v4, []) := by
    rw [readSeparator_cons (by decide), ← List.append_nil (printIpv4Addr v4)]
    exact readIpv4Addr_printIpv4Addr v4 (noDigit_nil 10)
  rw [readGroups, if_pos (by decide), hNone, hGroup]
  dsimp only
  rw [readGroups, if_pos (by decide), hV4]

theorem ofGroups_groups (addr : Ipv6Addr) : ofGroups addr.groups = some addr := dif_pos addr.2

/-- Groups before a `::` and after it, with zeros between them. -/
theorem readIpv6Addr_elided {addr : Ipv6Addr} {s rest : Text} {head tail : List (Fin 65536)}
    {v4 : Bool} (hHead : readGroups 8 0 s = (head, false, ':' :: ':' :: rest))
    (hTail : readGroups (8 - (head.length + 1)) 0 rest = (tail, v4, []))
    (hShort : head.length ≠ 8)
    (hGroups : addr.groups = head ++ List.replicate (8 - head.length - tail.length) 0 ++ tail) :
    readIpv6Addr s = some (addr, []) := by
  unfold readIpv6Addr
  rw [hHead]
  dsimp only
  rw [if_neg hShort, if_neg (by decide), readGivenChar_cons]
  simp only [Option.bind_eq_bind, Option.bind_some, readGivenChar_cons]
  rw [hTail]
  dsimp only
  rw [← hGroups, ofGroups_groups]
  rfl

theorem readIpv6Addr_printIpv6Addr (addr : Ipv6Addr) :
    readIpv6Addr (printIpv6Addr addr) = some (addr, []) := by
  unfold printIpv6Addr
  cases hMapped : toIpv4Mapped addr with
  | some v4 =>
    have hHead : readGroups 8 0 ([':', ':', 'f', 'f', 'f', 'f', ':'] ++ printIpv4Addr v4) =
        ([], false, ':' :: ':' :: (['f', 'f', 'f', 'f', ':'] ++ printIpv4Addr v4)) := by
      have hNone : readSeparator ':' 0 readIpv4Addr ([':', ':', 'f', 'f', 'f', 'f', ':'] ++
          printIpv4Addr v4) = none := readIpv4Addr_of_noDigit (noDigit_cons (by decide) _)
      have hStops : readSeparator ':' 0 readGroup ([':', ':', 'f', 'f', 'f', 'f', ':'] ++
          printIpv4Addr v4) = none := Stops.readGroup_eq_none (.inr ⟨_, rfl⟩) 0
      rw [readGroups, if_pos (by decide), hNone, hStops]
      rfl
    exact readIpv6Addr_elided hHead (readGroups_mapped v4) (by decide) (groups_of_toIpv4Mapped hMapped)
  | none =>
    dsimp only
    split
    · next hLong =>
      -- the groups beside the longest run of zeros
      obtain hNone | ⟨head, tail, hGroups, hStart⟩ := (covers_foldl_zerosStep addr.groups).1
      · change (longestZeros addr.groups).len = 0 at hNone
        omega
      · change addr.groups = head ++ List.replicate (longestZeros addr.groups).len 0 ++ tail at hGroups
        change head.length = (longestZeros addr.groups).start at hStart
        generalize longestZeros addr.groups = zeroes at hLong hGroups hStart ⊢
        have hLength := addr.length_groups
        rw [hGroups] at hLength
        simp only [List.length_append, List.length_replicate] at hLength
        have hTake : addr.groups.take zeroes.start = head := by
          rw [hGroups, ← hStart, List.append_assoc, List.take_left]
        have hDrop : addr.groups.drop (zeroes.start + zeroes.len) = tail := by
          have hSplit : (head ++ List.replicate zeroes.len 0).length = zeroes.start + zeroes.len := by
            simp [hStart]
          rw [hGroups, ← hSplit, List.drop_left]
        rw [hTake, hDrop, fmtSubslice_eq, fmtSubslice_eq]
        have hDot : '.' ∉ ':' :: ':' :: groupsText 0 tail := by
          simp [dot_notMem_groupsText]
        have hHead := readGroups_groupsText (.inr ⟨groupsText 0 tail, rfl⟩) hDot head 8 0 (by omega)
        have hTail := readGroups_groupsText (.inl rfl) List.not_mem_nil tail
          (8 - (head.length + 1)) 0 (by omega)
        rw [List.append_nil] at hTail
        refine readIpv6Addr_elided hHead hTail (by omega) ?_
        rw [hGroups, show 8 - head.length - tail.length = zeroes.len by omega]
    · have hHead := readGroups_groupsText (.inl rfl) List.not_mem_nil addr.groups 8 0
        addr.length_groups.le
      rw [List.append_nil, ← fmtSubslice_eq] at hHead
      rw [readIpv6Addr, hHead]
      dsimp only
      rw [if_pos addr.length_groups, ofGroups_groups]
      rfl

theorem parseIpv6Addr_printIpv6Addr (addr : Ipv6Addr) :
    parseIpv6Addr (printIpv6Addr addr) = some addr := by
  rw [parseIpv6Addr, parseWith, readIpv6Addr_printIpv6Addr]

end RoundTrip

/-! ### Spellings -/

section Spellings

/-- A text that reads as a version 6 address does not begin with a version 4 one. -/
theorem readIpAddr_of_readIpv6Addr {s rest : Text} {addr : Ipv6Addr}
    (h : readIpv6Addr s = some (addr, rest)) : readIpAddr s = some (.v6 addr, rest) := by
  cases hFirst : readIpv4Addr s with
  | none =>
    rw [readIpAddr, hFirst, h]
    rfl
  | some r =>
    have hGroups : readGroups 8 0 s =
        ([pairOctets r.1.a r.1.b, pairOctets r.1.c r.1.d], true, r.2) := by
      rw [readGroups, if_pos (by decide), readSeparator_zero, hFirst]
    rw [readIpv6Addr, hGroups] at h
    cases h

theorem parseIpAddr_of_parseIpv6Addr {s : Text} {addr : Ipv6Addr}
    (h : parseIpv6Addr s = some addr) : parseIpAddr s = some (.v6 addr) := by
  unfold parseIpv6Addr parseWith at h
  split at h
  · next a hRead =>
    obtain rfl := Option.some.inj h
    rw [parseIpAddr, parseWith, readIpAddr_of_readIpv6Addr hRead]
  · cases h

theorem parseIpAddr_printIpAddr (addr : IpAddr) : parseIpAddr (printIpAddr addr) = some addr := by
  cases addr with
  | v4 addr =>
    have hRead := readIpv4Addr_printIpv4Addr addr (noDigit_nil 10)
    rw [List.append_nil] at hRead
    rw [parseIpAddr, parseWith, readIpAddr, printIpAddr, hRead]
  | v6 addr => exact parseIpAddr_of_parseIpv6Addr (parseIpv6Addr_printIpv6Addr addr)

/-- What a reader took off a text ends in a character other than a dot. -/
def Takes (rest s : Text) : Prop := ∃ front c, s = front ++ c :: rest ∧ c ≠ '.'

theorem Takes.cons {rest s : Text} (h : Takes rest s) (c : Char) : Takes rest (c :: s) := by
  obtain ⟨front, d, rfl, hDot⟩ := h
  exact ⟨c :: front, d, rfl, hDot⟩

theorem Takes.trans {rest mid s : Text} (h : Takes mid s) (h' : Takes rest mid) :
    Takes rest s := by
  obtain ⟨front, c, rfl, -⟩ := h
  obtain ⟨front', c', rfl, hDot⟩ := h'
  exact ⟨front ++ c :: front', c', by simp, hDot⟩

theorem takes_readNumber {radix maxDigits bound : Nat} {allowZeroPrefix : Bool} {s rest : Text}
    {n : Fin bound} (h : readNumber radix maxDigits allowZeroPrefix bound s = some (n, rest)) : Takes rest s := by
  unfold readNumber at h
  dsimp only at h
  split at h
  · cases h
  · next hCount =>
    split at h
    · cases h
    · split at h
      · cases h
        have hNonempty : s.takeWhile (isDigitIn radix) ≠ [] := by
          intro hNil
          rw [hNil] at hCount
          simp at hCount
        refine ⟨(s.takeWhile (isDigitIn radix)).dropLast,
          (s.takeWhile (isDigitIn radix)).getLast hNonempty, ?_, ?_⟩
        · rw [← List.singleton_append, ← List.append_assoc, List.dropLast_append_getLast,
            List.takeWhile_append_dropWhile]
        · intro hDot
          have hDigit := List.mem_takeWhile_imp (List.getLast_mem hNonempty)
          rw [hDot] at hDigit
          have hNot : isDigitIn radix '.' = false := rfl
          rw [hNot] at hDigit
          cases hDigit
      · cases h

theorem takes_readSeparator {α : Type} {sep : Char} {index : Nat}
    {inner : Text → Option (α × Text)}
    (hInner : ∀ {s rest a}, inner s = some (a, rest) → Takes rest s) {s rest : Text} {a : α}
    (h : readSeparator sep index inner s = some (a, rest)) : Takes rest s := by
  unfold readSeparator at h
  split at h
  · cases s with
    | nil => cases h
    | cons c s =>
      rw [readGivenChar] at h
      split at h
      · exact (hInner h).cons c
      · cases h
  · exact hInner h

theorem takes_readIpv4Addr {s rest : Text} {addr : Ipv4Addr}
    (h : readIpv4Addr s = some (addr, rest)) : Takes rest s := by
  have hOctet : ∀ {s rest a}, readOctet s = some (a, rest) → Takes rest s :=
    takes_readNumber
  simp only [readIpv4Addr, Option.bind_eq_bind, Option.bind_eq_some_iff] at h
  obtain ⟨⟨a, s₁⟩, h₁, ⟨b, s₂⟩, h₂, ⟨c, s₃⟩, h₃, ⟨d, s₄⟩, h₄, hEq⟩ := h
  obtain ⟨-, rfl⟩ := Prod.mk.inj (Option.some.inj hEq)
  exact (((takes_readSeparator hOctet h₁).trans (takes_readSeparator hOctet h₂)).trans
    (takes_readSeparator hOctet h₃)).trans (takes_readSeparator hOctet h₄)

theorem takes_readGroups (left i : Nat) (s : Text) :
    (readGroups left i s).2.2 = s ∨ Takes (readGroups left i s).2.2 s := by
  induction left generalizing i s with
  | zero => exact .inl rfl
  | succ left ih =>
    rw [readGroups]
    split
    · next v4 rest hV4 =>
      split at hV4
      · exact .inr (takes_readSeparator takes_readIpv4Addr hV4)
      · cases hV4
    · split
      · next group rest hGroup =>
        have hTakes : Takes rest s := takes_readSeparator (takes_readNumber) hGroup
        obtain hSame | hMore := ih (i + 1) rest
        · exact .inr (by rwa [hSame])
        · exact .inr (hTakes.trans hMore)
      · exact .inl rfl

theorem takes_readGivenChar {target : Char} (hTarget : target ≠ '.') {s rest : Text}
    (h : readGivenChar target s = some rest) : Takes rest s := by
  cases s with
  | nil => cases h
  | cons c s =>
    rw [readGivenChar] at h
    split at h
    · next hChar =>
      cases h
      exact ⟨[], c, rfl, by rwa [hChar]⟩
    · cases h

theorem takes_readIpv6Addr {s rest : Text} {addr : Ipv6Addr}
    (h : readIpv6Addr s = some (addr, rest)) : rest = s ∨ Takes rest s := by
  unfold readIpv6Addr at h
  have hHead := takes_readGroups 8 0 s
  generalize readGroups 8 0 s = groups at h hHead
  obtain ⟨head, headV4, mid⟩ := groups
  dsimp only at h hHead
  split at h
  · obtain ⟨a, -, hEq⟩ := Option.bind_eq_some_iff.mp h
    obtain ⟨-, rfl⟩ := Prod.mk.inj (Option.some.inj hEq)
    exact hHead
  · split at h
    · cases h
    · simp only [Option.bind_eq_bind, Option.bind_eq_some_iff] at h
      obtain ⟨s₁, h₁, s₂, h₂, a, -, hEq⟩ := h
      obtain ⟨-, rfl⟩ := Prod.mk.inj (Option.some.inj hEq)
      have hColons : Takes s₂ mid :=
        (takes_readGivenChar (by decide) h₁).trans (takes_readGivenChar (by decide) h₂)
      have hReached : Takes s₂ s := by
        obtain rfl | hTakes := hHead
        · exact hColons
        · exact hTakes.trans hColons
      obtain hSame | hTail := takes_readGroups (8 - (head.length + 1)) 0 s₂
      · exact .inr (by rwa [hSame])
      · exact .inr (hReached.trans hTail)

/-- A version 6 address does not end in a dot. -/
theorem getLast_of_parseIpv6Addr {s : Text} {addr : Ipv6Addr}
    (h : parseIpv6Addr s = some addr) : s.getLast? ≠ some '.' := by
  unfold parseIpv6Addr parseWith at h
  split at h
  · next a hRead =>
    obtain rfl | ⟨front, c, rfl, hDot⟩ := takes_readIpv6Addr hRead
    · simp
    · simpa using hDot
  · cases h

theorem parseIpv6Addr_cons_eq_none {c : Char} (hDecimal : isDigitIn 10 c = false)
    (hDigit : isDigitIn 16 c = false) (hColon : c ≠ ':') (s : Text) :
    parseIpv6Addr (c :: s) = none := by
  have hV4 : readIpv4Addr (c :: s) = none := readIpv4Addr_of_noDigit (noDigit_cons hDecimal s)
  have hGroup : readGroup (c :: s) = none := readNumber_eq_none (noDigit_cons hDigit s)
  have hGroups : readGroups 8 0 (c :: s) = ([], false, c :: s) := by
    rw [readGroups, if_pos (by decide), readSeparator_zero, hV4, readSeparator_zero, hGroup]
  rw [parseIpv6Addr, parseWith, readIpv6Addr, hGroups]
  dsimp only
  rw [if_neg (by decide), if_neg (by decide), readGivenChar, if_neg hColon]
  rfl

/-! Case does not matter. -/

/-- A reader that takes the same off a text in lower case. -/
def Caseless {α : Type} (read : Text → Option (α × Text)) : Prop :=
  ∀ s, read (s.map Char.toLower) = (read s).map fun r => (r.1, r.2.map Char.toLower)

theorem toLower_of_upper {c : Char} (h : 'A' ≤ c ∧ c ≤ 'Z') : ∃ n < 26, c = Char.ofNat (65 + n) := by
  have hLow : 65 ≤ c.toNat := h.1
  have hHigh : c.toNat ≤ 90 := h.2
  refine ⟨c.toNat - 65, by omega, ?_⟩
  rw [show 65 + (c.toNat - 65) = c.toNat by omega, Char.ofNat_toNat]

theorem toLower_of_notUpper {c : Char} (h : ¬('A' ≤ c ∧ c ≤ 'Z')) : c.toLower = c := by
  unfold Char.toLower
  exact dif_neg h

theorem toDigit_toLower (radix : Nat) (c : Char) : toDigit radix c.toLower = toDigit radix c := by
  by_cases hUpper : 'A' ≤ c ∧ c ≤ 'Z'
  · obtain ⟨n, hn, rfl⟩ := toLower_of_upper hUpper
    have hAll : ∀ n < 26,
        alphanumeric (Char.ofNat (65 + n)).toLower = alphanumeric (Char.ofNat (65 + n)) := by decide
    rw [toDigit, hAll n hn, toDigit]
  · rw [toLower_of_notUpper hUpper]

/-- A character that is no letter. -/
theorem toLower_eq_iff {c target : Char} (hTarget : ∀ n < 26, target ≠ Char.ofNat (65 + n) ∧
    target ≠ (Char.ofNat (65 + n)).toLower) : c.toLower = target ↔ c = target := by
  by_cases hUpper : 'A' ≤ c ∧ c ≤ 'Z'
  · obtain ⟨n, hn, rfl⟩ := toLower_of_upper hUpper
    exact iff_of_false (hTarget n hn).2.symm (hTarget n hn).1.symm
  · rw [toLower_of_notUpper hUpper]

theorem caseless_readNumber (radix maxDigits bound : Nat) (allowZeroPrefix : Bool) :
    Caseless (readNumber radix maxDigits allowZeroPrefix bound) := by
  intro s
  have hDigit : isDigitIn radix ∘ Char.toLower = isDigitIn radix := by
    funext c
    simp [isDigitIn, toDigit_toLower]
  have hTake : (s.map Char.toLower).takeWhile (isDigitIn radix) =
      (s.takeWhile (isDigitIn radix)).map Char.toLower := by rw [List.takeWhile_map, hDigit]
  have hDrop : (s.map Char.toLower).dropWhile (isDigitIn radix) =
      (s.dropWhile (isDigitIn radix)).map Char.toLower := by rw [List.dropWhile_map, hDigit]
  have hValue : ∀ digits : Text,
      valueInRadix radix (digits.map Char.toLower) = valueInRadix radix digits := by
    intro digits
    rw [valueInRadix, List.foldl_map]
    simp [toDigit_toLower, valueInRadix]
  have hHead : ∀ digits : Text,
      (digits.map Char.toLower).head? = some '0' ↔ digits.head? = some '0' := by
    intro digits
    cases digits with
    | nil => simp
    | cons c digits => simpa using toLower_eq_iff (by decide)
  unfold readNumber
  rw [hTake, hDrop]
  simp only [List.length_map, hValue, hHead]
  split
  · rfl
  · split
    · rfl
    · split <;> rfl

theorem readGivenChar_toLower {target : Char} (hTarget : ∀ n < 26, target ≠ Char.ofNat (65 + n) ∧
    target ≠ (Char.ofNat (65 + n)).toLower) (s : Text) :
    readGivenChar target (s.map Char.toLower) =
      (readGivenChar target s).map fun rest => rest.map Char.toLower := by
  cases s with
  | nil => rfl
  | cons c s =>
    rw [List.map_cons, readGivenChar, readGivenChar]
    simp only [toLower_eq_iff hTarget]
    split <;> rfl

theorem Caseless.readSeparator {α : Type} {inner : Text → Option (α × Text)}
    (h : Caseless inner) {sep : Char} (hSep : ∀ n < 26, sep ≠ Char.ofNat (65 + n) ∧
      sep ≠ (Char.ofNat (65 + n)).toLower) (index : Nat) :
    Caseless (Ip.readSeparator sep index inner) := by
  intro s
  unfold Ip.readSeparator
  split
  · rw [readGivenChar_toLower hSep]
    cases readGivenChar sep s with
    | none => rfl
    | some rest => exact h rest
  · exact h s

theorem caseless_readIpv4Addr : Caseless readIpv4Addr := by
  intro s
  have hOctet : ∀ index, Caseless (readSeparator '.' index readOctet) := fun index =>
    (caseless_readNumber 10 3 256 false).readSeparator (by decide) index
  unfold readIpv4Addr
  simp only [Option.bind_eq_bind]
  rw [hOctet 0]
  cases readSeparator '.' 0 readOctet s with
  | none => rfl
  | some r₁ =>
    simp only [Option.map_some, Option.bind_some]
    rw [hOctet 1]
    cases readSeparator '.' 1 readOctet r₁.2 with
    | none => rfl
    | some r₂ =>
      simp only [Option.map_some, Option.bind_some]
      rw [hOctet 2]
      cases readSeparator '.' 2 readOctet r₂.2 with
      | none => rfl
      | some r₃ =>
        simp only [Option.map_some, Option.bind_some]
        rw [hOctet 3]
        cases readSeparator '.' 3 readOctet r₃.2 with
        | none => rfl
        | some r₄ => rfl

theorem readGroups_toLower (left i : Nat) (s : Text) :
    readGroups left i (s.map Char.toLower) = ((readGroups left i s).1, (readGroups left i s).2.1,
      (readGroups left i s).2.2.map Char.toLower) := by
  induction left generalizing i s with
  | zero => rfl
  | succ left ih =>
    have hV4 : (if left ≥ 1 then readSeparator ':' i readIpv4Addr (s.map Char.toLower) else none) =
        (if left ≥ 1 then readSeparator ':' i readIpv4Addr s else none).map
          fun r => (r.1, r.2.map Char.toLower) := by
      split
      · exact caseless_readIpv4Addr.readSeparator (by decide) i s
      · rfl
    have hGroup : Caseless (readSeparator ':' i readGroup) :=
      (caseless_readNumber 16 4 65536 true).readSeparator (by decide) i
    rw [readGroups, readGroups, hV4, hGroup s]
    cases (if left ≥ 1 then readSeparator ':' i readIpv4Addr s else none) with
    | some r => rfl
    | none =>
      cases readSeparator ':' i readGroup s with
      | none => rfl
      | some r =>
        dsimp only [Option.map_none, Option.map_some]
        rw [ih]

theorem caseless_readIpv6Addr : Caseless readIpv6Addr := by
  intro s
  unfold readIpv6Addr
  rw [readGroups_toLower]
  obtain ⟨head, headV4, rest⟩ := readGroups 8 0 s
  dsimp only
  split
  · cases ofGroups head <;> rfl
  · split
    · rfl
    · simp only [Option.bind_eq_bind]
      rw [readGivenChar_toLower (by decide)]
      cases readGivenChar ':' rest with
      | none => rfl
      | some rest =>
        simp only [Option.map_some, Option.bind_some]
        rw [readGivenChar_toLower (by decide)]
        cases readGivenChar ':' rest with
        | none => rfl
        | some rest =>
          simp only [Option.map_some, Option.bind_some]
          rw [readGroups_toLower]
          dsimp only
          cases ofGroups _ <;> rfl

theorem parseIpv6Addr_toLower (s : Text) :
    parseIpv6Addr (s.map Char.toLower) = parseIpv6Addr s := by
  rw [parseIpv6Addr, parseWith, parseWith, caseless_readIpv6Addr]
  cases readIpv6Addr s with
  | none => rfl
  | some r =>
    obtain ⟨addr, rest⟩ := r
    cases rest <;> rfl

/-! What a printed address is made of. -/

/-- A digit of a hexadecimal number as it is printed. -/
def IsPrinted (c : Char) : Prop := ∃ d < 16, c = Nat.digitChar d

theorem mem_toDigits_printed {radix : Nat} (hRadix : 1 < radix) (hMost : radix ≤ 16) {n : Nat}
    {c : Char} (hc : c ∈ Nat.toDigits radix n) : IsPrinted c := by
  obtain ⟨d, hd, hEq⟩ := mem_toDigits hRadix n c hc
  exact ⟨d, hd.trans_le hMost, hEq⟩

theorem IsPrinted.ne {c other : Char} (h : IsPrinted c) (hOther : ∀ d < 16, other ≠ Nat.digitChar d) :
    c ≠ other := by
  obtain ⟨d, hd, rfl⟩ := h
  exact (hOther d hd).symm

theorem mem_printIpv4Addr {addr : Ipv4Addr} {c : Char} (hc : c ∈ printIpv4Addr addr) :
    c = '.' ∨ IsPrinted c := by
  have hDigit : ∀ n : Fin 256, c ∈ Nat.toDigits 10 n → IsPrinted c := fun n =>
    mem_toDigits_printed (by decide) (by decide)
  simp only [printIpv4Addr, List.mem_append, List.mem_cons] at hc
  obtain hc | hc | hc | hc | hc | hc | hc := hc
  · exact .inr (hDigit _ hc)
  · exact .inl hc
  · exact .inr (hDigit _ hc)
  · exact .inl hc
  · exact .inr (hDigit _ hc)
  · exact .inl hc
  · exact .inr (hDigit _ hc)

theorem mem_groupsText {i : Nat} {groups : List (Fin 65536)} {c : Char}
    (hc : c ∈ groupsText i groups) : c = ':' ∨ IsPrinted c := by
  induction groups generalizing i with
  | nil => cases hc
  | cons group groups ih =>
    rw [groupsText, List.mem_append, List.mem_append] at hc
    obtain (hc | hc) | hc := hc
    · split at hc
      · exact .inl (List.mem_singleton.mp hc)
      · cases hc
    · exact .inr (mem_toDigits_printed (by decide) (by decide) hc)
    · exact ih hc

theorem mem_printIpv6Addr {addr : Ipv6Addr} {c : Char} (hc : c ∈ printIpv6Addr addr) :
    c = '.' ∨ c = ':' ∨ IsPrinted c := by
  unfold printIpv6Addr at hc
  cases hMapped : toIpv4Mapped addr with
  | some v4 =>
    rw [hMapped] at hc
    obtain hc | hc := List.mem_append.mp hc
    · have hFront : ∀ c ∈ [':', ':', 'f', 'f', 'f', 'f', ':'], c = ':' ∨ c = Nat.digitChar 15 := by
        simp [Nat.digitChar]
      exact .inr ((hFront c hc).imp_right fun hEq => ⟨15, by decide, hEq⟩)
    · exact (mem_printIpv4Addr hc).imp_right .inr
  | none =>
    rw [hMapped] at hc
    dsimp only at hc
    split at hc
    · simp only [fmtSubslice_eq, List.mem_append, List.mem_cons] at hc
      obtain hc | hc | hc | hc := hc
      · exact .inr (mem_groupsText hc)
      · exact .inr (.inl hc)
      · exact .inr (.inl hc)
      · exact .inr (mem_groupsText hc)
    · rw [fmtSubslice_eq] at hc
      exact .inr (mem_groupsText hc)

theorem mem_printIpAddr {addr : IpAddr} {c : Char} (hc : c ∈ printIpAddr addr) :
    c = '.' ∨ c = ':' ∨ IsPrinted c := by
  cases addr with
  | v4 addr => exact (mem_printIpv4Addr hc).imp_right .inr
  | v6 addr => exact mem_printIpv6Addr hc

theorem toLower_printIpAddr (addr : IpAddr) :
    (printIpAddr addr).map Char.toLower = printIpAddr addr := by
  refine (List.map_congr_left fun c hc => ?_).trans (List.map_id _)
  obtain rfl | rfl | ⟨d, hd, rfl⟩ := mem_printIpAddr hc
  · rfl
  · rfl
  · have hAll : ∀ d < 16, (Nat.digitChar d).toLower = Nat.digitChar d := by decide
    exact hAll d hd

theorem splitOn_printIpv4Addr {front : Text} (hFront : '.' ∉ front) (addr : Ipv4Addr) :
    (front ++ printIpv4Addr addr).splitOn '.' = [front ++ Nat.toDigits 10 addr.a,
      Nat.toDigits 10 addr.b, Nat.toDigits 10 addr.c, Nat.toDigits 10 addr.d] := by
  have hDigits : ∀ n : Fin 256, '.' ∉ Nat.toDigits 10 n := fun n hIn =>
    (mem_toDigits_printed (by decide) (by decide) hIn).ne (by decide) rfl
  have hFirst : '.' ∉ front ++ Nat.toDigits 10 addr.a := by
    rw [List.mem_append, not_or]
    exact ⟨hFront, hDigits _⟩
  rw [printIpv4Addr, ← List.append_assoc, List.splitOn_append_cons_self_of_not_mem hFirst,
    List.splitOn_append_cons_self_of_not_mem (hDigits _),
    List.splitOn_append_cons_self_of_not_mem (hDigits _), List.splitOn_eq_singleton (hDigits _)]

theorem fmtSubslice_ne_nil {groups : List (Fin 65536)} (h : groups ≠ []) : fmtSubslice groups ≠ [] := by
  cases groups with
  | nil => exact absurd rfl h
  | cons group groups => simp [fmtSubslice, Nat.toDigits_ne_nil]

/-- No part of a printed address between its dots is empty. -/
theorem labels_printIpAddr (addr : IpAddr) : [] ∉ (printIpAddr addr).splitOn '.' := by
  have hMixed : ∀ front : Text, '.' ∉ front → ∀ v4, [] ∉ (front ++ printIpv4Addr v4).splitOn '.' := by
    intro front hFront v4
    rw [splitOn_printIpv4Addr hFront]
    intro hIn
    simp only [List.mem_cons, List.not_mem_nil, or_false] at hIn
    obtain hEmpty | hEmpty | hEmpty | hEmpty := hIn
    · exact Nat.toDigits_ne_nil (List.append_eq_nil_iff.mp hEmpty.symm).2
    · exact Nat.toDigits_ne_nil hEmpty.symm
    · exact Nat.toDigits_ne_nil hEmpty.symm
    · exact Nat.toDigits_ne_nil hEmpty.symm
  have hPlain : ∀ s : Text, '.' ∉ s → s ≠ [] → [] ∉ s.splitOn '.' := by
    intro s hDot hNonempty
    rw [List.splitOn_eq_singleton hDot, List.mem_singleton]
    exact hNonempty.symm
  cases addr with
  | v4 addr => exact hMixed [] List.not_mem_nil addr
  | v6 addr =>
    rw [printIpAddr, printIpv6Addr]
    cases toIpv4Mapped addr with
    | some v4 => exact hMixed _ (by decide) v4
    | none =>
      have hGroups : addr.groups ≠ [] := by
        intro hNil
        have hLength := addr.length_groups
        rw [hNil] at hLength
        cases hLength
      dsimp only
      split
      · refine hPlain _ ?_ (by simp)
        simp [fmtSubslice_eq, dot_notMem_groupsText]
      · refine hPlain _ ?_ (fmtSubslice_ne_nil hGroups)
        rw [fmtSubslice_eq]
        exact dot_notMem_groupsText 0 _

end Spellings

end CrdtSync.Lib.Ip
