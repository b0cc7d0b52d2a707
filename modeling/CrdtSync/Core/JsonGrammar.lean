import CrdtSync.Core.Json

/-!
# The JSON grammar

The productions of RFC 8259, each as what it takes off the front of a text and what it
leaves, with the syntax tree it spells; and what a tree denotes. The grammar bounds no
nesting, lets an object repeat a key and lets an escaped surrogate stand alone, so these
three are conditions on the tree.
-/

namespace CrdtSync

namespace Json

/-- `ws = *( %x20 / %x09 / %x0A / %x0D )` -/
inductive Ws : List Char → List Char → Prop
  | nil (rest : List Char) : Ws rest rest
  | cons {c : Char} {cs rest : List Char} (hSpace : c = ' ' ∨ c = '\t' ∨ c = '\n' ∨ c = '\r') :
      Ws cs rest → Ws (c :: cs) rest

/-! ### Numbers -/

def IsDigits (ds : List Char) : Prop := ds ≠ [] ∧ ∀ d ∈ ds, d.isDigit = true

/-- `number = [ minus ] int [ frac ] [ exp ]` -/
structure Number where
  minus : Bool
  int : List Char
  frac : Option (List Char)
  exp : Option (Char × Option Char × List Char)
  /-- `int = zero / ( digit1-9 *DIGIT )` -/
  int_wf : IsDigits int ∧ (int.head? = some '0' → int = ['0'])
  /-- `frac = decimal-point 1*DIGIT` -/
  frac_wf : ∀ ds ∈ frac, IsDigits ds
  /-- `exp = e [ minus / plus ] 1*DIGIT` -/
  exp_wf : ∀ e ∈ exp, (e.1 = 'e' ∨ e.1 = 'E') ∧ (∀ sign ∈ e.2.1, sign = '-' ∨ sign = '+') ∧
    IsDigits e.2.2

namespace Number

def fracText (n : Number) : List Char := n.frac.elim [] fun ds => '.' :: ds

def expText (n : Number) : List Char := n.exp.elim [] fun e => e.1 :: (e.2.1.toList ++ e.2.2)

def text (n : Number) : List Char :=
  (if n.minus then ['-'] else []) ++ (n.int ++ (n.fracText ++ n.expText))

/-- The integer a number with neither a fraction nor an exponent is. -/
def integer (n : Number) : Int :=
  if n.minus then -(digitsValue n.int : Int) else digitsValue n.int

/-- The power of ten of an exponent part. -/
def power (n : Number) : Int :=
  match n.exp with
  | none => 0
  | some (_, sign, ds) => if sign = some '-' then -(digitsValue ds : Int) else digitsValue ds

/-- What is kept of a number: an integer of 64 bits as it is, and any other number as the double
nearest to it. -/
def denote (n : Number) : Json :=
  if n.frac.isNone ∧ n.exp.isNone ∧ -2 ^ 63 ≤ n.integer ∧ n.integer < 2 ^ 63 then .int n.integer
  else .float (.ofDecimal n.minus (digitsValue (n.int ++ n.frac.getD []))
    (n.power - (n.frac.getD []).length))

end Number

/-! ### Strings -/

/-- A character, or a code unit of UTF-16 that was escaped. -/
inductive Piece
  | char (c : Char)
  | unit (n : Nat)

def hexValue (d : Char) : Option Nat :=
  if '0' ≤ d ∧ d ≤ '9' then some (d.toNat - '0'.toNat)
  else if 'a' ≤ d ∧ d ≤ 'f' then some (d.toNat - 'a'.toNat + 10)
  else if 'A' ≤ d ∧ d ≤ 'F' then some (d.toNat - 'A'.toNat + 10)
  else none

/-- The letters of the short escapes, and the characters they stand for. -/
def shortEscapes : List (Char × Char) :=
  [('"', '"'), ('\\', '\\'), ('/', '/'), ('b', '\x08'), ('f', '\x0c'), ('n', '\n'), ('r', '\r'),
    ('t', '\t')]

/-- `char = unescaped / escape ( %x22 / %x5C / %x2F / %x62 / %x66 / %x6E / %x72 / %x74 /
%x75 4HEXDIG )` -/
inductive Piece.Spells : Piece → List Char → List Char → Prop
  /-- `unescaped = %x20-21 / %x23-5B / %x5D-10FFFF` -/
  | plain {c : Char} {rest : List Char} (hQuote : c ≠ '"') (hEscape : c ≠ '\\')
      (hControl : 0x20 ≤ c.toNat) : Spells (.char c) (c :: rest) rest
  | short {letter c : Char} {rest : List Char} (hShort : (letter, c) ∈ shortEscapes) :
      Spells (.char c) ('\\' :: letter :: rest) rest
  | unicode {d₁ d₂ d₃ d₄ : Char} {n₁ n₂ n₃ n₄ : Nat} {rest : List Char}
      (h₁ : hexValue d₁ = some n₁) (h₂ : hexValue d₂ = some n₂) (h₃ : hexValue d₃ = some n₃)
      (h₄ : hexValue d₄ = some n₄) :
      Spells (.unit (((n₁ * 16 + n₂) * 16 + n₃) * 16 + n₄))
        ('\\' :: 'u' :: d₁ :: d₂ :: d₃ :: d₄ :: rest) rest

/-- `*char quotation-mark` -/
inductive StringBody : List Piece → List Char → List Char → Prop
  | close (rest : List Char) : StringBody [] ('"' :: rest) rest
  | cons {p : Piece} {ps : List Piece} {cs mid rest : List Char} :
      p.Spells cs mid → StringBody ps mid rest → StringBody (p :: ps) cs rest

def isHigh (n : Nat) : Prop := 0xD800 ≤ n ∧ n ≤ 0xDBFF

def isLow (n : Nat) : Prop := 0xDC00 ≤ n ∧ n ≤ 0xDFFF

instance (n : Nat) : Decidable (isHigh n) := inferInstanceAs (Decidable (_ ∧ _))

instance (n : Nat) : Decidable (isLow n) := inferInstanceAs (Decidable (_ ∧ _))

/-- Every escaped high surrogate is followed by an escaped low one, and none is alone. -/
inductive PairedUnits : List Piece → Prop
  | nil : PairedUnits []
  | char (c : Char) {ps : List Piece} : PairedUnits ps → PairedUnits (.char c :: ps)
  | unit {n : Nat} {ps : List Piece} (hHigh : ¬isHigh n) (hLow : ¬isLow n) :
      PairedUnits ps → PairedUnits (.unit n :: ps)
  | pair {n m : Nat} {ps : List Piece} (hHigh : isHigh n) (hLow : isLow m) :
      PairedUnits ps → PairedUnits (.unit n :: .unit m :: ps)

/-- The characters of a string whose units are paired. -/
def decodeUnits : List Piece → Option (List Char)
  | [] => some []
  | .char c :: ps => (decodeUnits ps).map (c :: ·)
  | .unit n :: .unit m :: ps =>
    if isHigh n then
      if isLow m then
        (decodeUnits ps).map (Char.ofNat (0x10000 + (n - 0xD800) * 0x400 + (m - 0xDC00)) :: ·)
      else none
    else if isLow n then none
    else (decodeUnits (.unit m :: ps)).map (Char.ofNat n :: ·)
  | .unit n :: ps =>
    if isHigh n ∨ isLow n then none else (decodeUnits ps).map (Char.ofNat n :: ·)

def decodeString (ps : List Piece) : Option String := (decodeUnits ps).map String.ofList

/-! ### Values -/

inductive Syntax
  | null
  | bool (b : Bool)
  | number (n : Number)
  | string (ps : List Piece)
  | array (items : List Syntax)
  | object (members : List (List Piece × Syntax))

mutual

/-- `value = false / null / true / object / array / number / string` -/
inductive Value : Syntax → List Char → List Char → Prop
  | null (rest : List Char) : Value .null ('n' :: 'u' :: 'l' :: 'l' :: rest) rest
  | true (rest : List Char) : Value (.bool true) ('t' :: 'r' :: 'u' :: 'e' :: rest) rest
  | false (rest : List Char) : Value (.bool false) ('f' :: 'a' :: 'l' :: 's' :: 'e' :: rest) rest
  | number (n : Number) (rest : List Char) : Value (.number n) (n.text ++ rest) rest
  | string {ps : List Piece} {cs rest : List Char} :
      StringBody ps cs rest → Value (.string ps) ('"' :: cs) rest
  | emptyArray {cs rest : List Char} : Ws cs (']' :: rest) → Value (.array []) ('[' :: cs) rest
  | array {items : List Syntax} {cs rest : List Char} :
      Elements items cs rest → Value (.array items) ('[' :: cs) rest
  | emptyObject {cs rest : List Char} : Ws cs ('}' :: rest) → Value (.object []) ('{' :: cs) rest
  | object {members : List (List Piece × Syntax)} {cs rest : List Char} :
      Members members cs rest → Value (.object members) ('{' :: cs) rest

/-- `value *( value-separator value ) end-array` -/
inductive Elements : List Syntax → List Char → List Char → Prop
  | last {t : Syntax} {cs front back rest : List Char} : Ws cs front → Value t front back →
      Ws back (']' :: rest) → Elements [t] cs rest
  | cons {t : Syntax} {ts : List Syntax} {cs front back next rest : List Char} : Ws cs front →
      Value t front back → Ws back (',' :: next) → Elements ts next rest → Elements (t :: ts) cs rest

/-- `member *( value-separator member ) end-object`, with `member = string name-separator value` -/
inductive Members : List (List Piece × Syntax) → List Char → List Char → Prop
  | last {key : List Piece} {t : Syntax} {cs quoted named colon front back rest : List Char} :
      Ws cs ('"' :: quoted) → StringBody key quoted named → Ws named (':' :: colon) →
      Ws colon front → Value t front back → Ws back ('}' :: rest) → Members [(key, t)] cs rest
  | cons {key : List Piece} {t : Syntax} {ms : List (List Piece × Syntax)}
      {cs quoted named colon front back next rest : List Char} :
      Ws cs ('"' :: quoted) → StringBody key quoted named → Ws named (':' :: colon) →
      Ws colon front → Value t front back → Ws back (',' :: next) → Members ms next rest →
      Members ((key, t) :: ms) cs rest

end

namespace Syntax

/-- `JSON-text = ws value ws` -/
def IsText (t : Syntax) (cs : List Char) : Prop :=
  ∃ front back, Ws cs front ∧ Value t front back ∧ Ws back []

mutual

/-- How deep arrays and objects nest. -/
def nesting : Syntax → Nat
  | null => 0
  | bool _ => 0
  | number _ => 0
  | string _ => 0
  | array items => nestingItems items + 1
  | object members => nestingMembers members + 1

def nestingItems : List Syntax → Nat
  | [] => 0
  | t :: ts => max t.nesting (nestingItems ts)

def nestingMembers : List (List Piece × Syntax) → Nat
  | [] => 0
  | (_, t) :: ms => max t.nesting (nestingMembers ms)

end

mutual

/-- Every escaped surrogate is paired. -/
def Paired : Syntax → Prop
  | null => True
  | bool _ => True
  | number _ => True
  | string ps => PairedUnits ps
  | array items => PairedItems items
  | object members => PairedMembers members

def PairedItems : List Syntax → Prop
  | [] => True
  | t :: ts => t.Paired ∧ PairedItems ts

def PairedMembers : List (List Piece × Syntax) → Prop
  | [] => True
  | (key, t) :: ms => PairedUnits key ∧ t.Paired ∧ PairedMembers ms

end

mutual

/-- No object repeats a key, however the two are spelled. -/
def UniqueKeys : Syntax → Prop
  | null => True
  | bool _ => True
  | number _ => True
  | string _ => True
  | array items => UniqueKeysItems items
  | object members => (members.map fun m => decodeString m.1).Nodup ∧ UniqueKeysMembers members

def UniqueKeysItems : List Syntax → Prop
  | [] => True
  | t :: ts => t.UniqueKeys ∧ UniqueKeysItems ts

def UniqueKeysMembers : List (List Piece × Syntax) → Prop
  | [] => True
  | (_, t) :: ms => t.UniqueKeys ∧ UniqueKeysMembers ms

end

mutual

/-- The value a tree is, where its surrogates are paired. -/
def denote : Syntax → Option Json
  | null => some .null
  | bool b => some (.bool b)
  | number n => some n.denote
  | string ps => (decodeString ps).map .str
  | array items => (denoteItems items).map .array
  | object members => (denoteMembers members).map .object

def denoteItems : List Syntax → Option (List Json)
  | [] => some []
  | t :: ts => t.denote.bind fun v => (denoteItems ts).map (v :: ·)

def denoteMembers : List (List Piece × Syntax) → Option (List (String × Json))
  | [] => some []
  | (key, t) :: ms => (decodeString key).bind fun k => t.denote.bind fun v =>
      (denoteMembers ms).map ((k, v) :: ·)

end

end Syntax

end Json

end CrdtSync
