import Mathlib.Algebra.Ring.Int.Defs
import Mathlib.Algebra.Ring.Nat
import Mathlib.Data.List.Basic
import Mathlib.Data.Int.Basic

/-!
# A minimal JSON value parser

A parser over the bytes of a string. It bounds the nesting, so its recursion is bounded too,
and what it keeps of a number is the integer where that is one of 64 bits and the nearest
double otherwise.
-/

namespace CrdtSync

structure F64 where
  bits : BitVec 64
deriving DecidableEq

namespace F64

def reaches (num den : Nat) (e : Int) : Bool :=
  decide (den * 2 ^ e.toNat ≤ num * 2 ^ (-e).toNat)

/-- The exponent of the highest power of two that is at most `num / den`. -/
def octave (num den : Nat) : Int :=
  let e : Int := num.log2 - den.log2
  if reaches num den e then e else e - 1

def roundHalfEven (num den : Nat) : Nat :=
  let quotient := num / den
  let twice := 2 * (num % den)
  if twice > den ∨ (twice = den ∧ quotient % 2 = 1) then quotient + 1 else quotient

/-- The double nearest to `digits * 10 ^ exponent`, of two the one with the even significand, and
the infinity past the largest. -/
def ofDecimal (negative : Bool) (digits : Nat) (exponent : Int) : F64 :=
  let num := digits * 10 ^ exponent.toNat
  let den := 10 ^ (-exponent).toNat
  let magnitude :=
    if digits = 0 then 0
    else
      -- A significand that rounds up to the next octave carries into the exponent field.
      let place := max (-1074) (octave num den - 52)
      let significand := roundHalfEven (num * 2 ^ (-place).toNat) (den * 2 ^ place.toNat)
      min ((place + 1074).toNat * 2 ^ 52 + significand) (2047 * 2 ^ 52)
  ⟨BitVec.ofNat 64 ((if negative then 2 ^ 63 else 0) + magnitude)⟩

end F64

/-! ### Strings and numbers of the standard library -/

def encodeUtf8 (cs : List Char) : List UInt8 := cs.flatMap String.utf8EncodeChar

def asBytes (s : String) : List UInt8 := encodeUtf8 s.toList

def fromUtf8 (bytes : List UInt8) : Option String := String.fromUTF8? bytes.toByteArray

def fromU32 (n : Nat) : Option Char := if h : n.isValidChar then some (Char.ofNatAux n h) else none

def takeSign : List Char → Bool × List Char
  | '-' :: cs => (true, cs)
  | '+' :: cs => (false, cs)
  | cs => (false, cs)

def digitsValue (digits : List Char) : Nat :=
  digits.foldl (fun n d => 10 * n + (d.toNat - '0'.toNat)) 0

/-- A signed run of digits, and of nothing else. -/
def parseSigned (cs : List Char) : Option Int :=
  let (negative, digits) := takeSign cs
  if digits.isEmpty || !digits.all Char.isDigit then none
  else some (if negative then -(digitsValue digits : Int) else digitsValue digits)

def parseI64 (text : String) : Option Int :=
  (parseSigned text.toList).filter fun n => decide (-2 ^ 63 ≤ n) && decide (n < 2 ^ 63)

def parseExponent : List Char → Option Int
  | [] => some 0
  | e :: cs => if e = 'e' ∨ e = 'E' then parseSigned cs else none

/-- The nearest double to a decimal. The named values are not read: no letter but an exponent's
reaches a number's text. -/
def parseF64 (text : String) : Option F64 :=
  let (negative, cs) := takeSign text.toList
  let (int, cs) := cs.span Char.isDigit
  let (frac, cs) :=
    match cs with
    | '.' :: cs => cs.span Char.isDigit
    | cs => ([], cs)
  if int.isEmpty && frac.isEmpty then none
  else (parseExponent cs).map fun exponent =>
    .ofDecimal negative (digitsValue (int ++ frac)) (exponent - frac.length)

/-- A parsed JSON value. Objects keep declaration order. -/
inductive Json
  | null
  | bool (b : Bool)
  | int (n : Int)
  | float (x : F64)
  | str (s : String)
  | array (items : List Json)
  | object (pairs : List (String × Json))

inductive JsonErrorKind
  | unexpectedEof
  | unexpected
  | badEscape
  | badNumber
  | badUnicode
  | duplicateKey
  | trailingBytes
  | depthLimit
deriving DecidableEq

/-- A parse failure, at the byte it occurred at. -/
structure JsonError where
  pos : Nat
  kind : JsonErrorKind
deriving DecidableEq

/-- Why nothing was parsed: an error, an index out of bounds, or a loop that outran its bound. -/
inductive Fault
  | error (e : JsonError)
  | panic
  | spent
deriving DecidableEq

namespace Json

def MAX_DEPTH : Nat := 128

structure Parser where
  bytes : List UInt8
  pos : Nat

/-- `b'0'..=b'9'` -/
def isDigit (b : UInt8) : Bool := decide ('0'.toUInt8 ≤ b) && decide (b ≤ '9'.toUInt8)

def isSpace (b : UInt8) : Bool :=
  b = ' '.toUInt8 || b = '\t'.toUInt8 || b = '\n'.toUInt8 || b = '\r'.toUInt8

/-- The length in bytes of the UTF-8 scalar that starts with `b`. -/
def utf8Len (b : UInt8) : Nat :=
  if b ≤ 0x7F then 1
  else if 0xC0 ≤ b ∧ b ≤ 0xDF then 2
  else if 0xE0 ≤ b ∧ b ≤ 0xEF then 3
  else 4

namespace Parser

def err (p : Parser) (kind : JsonErrorKind) : Fault := .error ⟨p.pos, kind⟩

def peek (p : Parser) : Option UInt8 := p.bytes[p.pos]?

def advance (p : Parser) (n : Nat) : Parser := { p with pos := p.pos + n }

/-- `bytes[start..at]`, where that is in bounds. -/
def slice (p : Parser) (start : Nat) : Option (List UInt8) :=
  if start ≤ p.pos ∧ p.pos ≤ p.bytes.length then
    some ((p.bytes.drop start).take (p.pos - start))
  else none

def skipWs (p : Parser) : Parser := p.advance ((p.bytes.drop p.pos).takeWhile isSpace).length

/-- The error where a separator or a key was expected. -/
def unexpected (p : Parser) : Fault :=
  p.err (match p.peek with
    | none => .unexpectedEof
    | some _ => .unexpected)

/-- Consume `lit` if it is next. The slice of what is left is the one index that could be out of
bounds. -/
def literal (p : Parser) (lit : List UInt8) (value : Json) : Except Fault (Json × Parser) :=
  if p.bytes.length < p.pos then .error .panic
  else if lit.isPrefixOf (p.bytes.drop p.pos) then .ok (value, p.advance lit.length)
  else .error (p.err .unexpected)

section Numbers

def digits (p : Parser) : Except Fault Parser :=
  let count := ((p.bytes.drop p.pos).takeWhile isDigit).length
  if count = 0 then .error (p.err .badNumber) else .ok (p.advance count)

/-- `0` alone, or a digit that is not zero and then any digits. -/
def intPart (p : Parser) : Except Fault Parser :=
  match p.peek with
  | none => .error (p.err .badNumber)
  | some b =>
    if b = '0'.toUInt8 then .ok (p.advance 1)
    else if isDigit b then p.digits
    else .error (p.err .badNumber)

/-- Whether there is a fraction, which is consumed. -/
def fraction (p : Parser) : Except Fault (Bool × Parser) :=
  if p.peek = some '.'.toUInt8 then do
    let p ← (p.advance 1).digits
    .ok (true, p)
  else .ok (false, p)

/-- Whether there is an exponent, which is consumed. -/
def exponent (p : Parser) : Except Fault (Bool × Parser) :=
  if p.peek = some 'e'.toUInt8 ∨ p.peek = some 'E'.toUInt8 then
    let p := p.advance 1
    let p := if p.peek = some '+'.toUInt8 ∨ p.peek = some '-'.toUInt8 then p.advance 1 else p
    do
      let p ← p.digits
      .ok (true, p)
  else .ok (false, p)

/-- An integer past 64 bits degrades to a float. -/
def readNumber (start : Nat) (isFloat : Bool) (text : String) : Except Fault Json :=
  match if isFloat then none else parseI64 text with
  | some n => .ok (.int n)
  | none =>
    match parseF64 text with
    | some x => .ok (.float x)
    | none => .error (.error ⟨start, .badNumber⟩)

def number (p : Parser) : Except Fault (Json × Parser) :=
  let start := p.pos
  let p := if p.peek = some '-'.toUInt8 then p.advance 1 else p
  do
    let p ← p.intPart
    -- A leading zero is not a JSON number.
    if p.peek.any isDigit then .error (.error ⟨start, .badNumber⟩)
    else
      let (fractional, p) ← p.fraction
      let (exponential, p) ← p.exponent
      match p.slice start with
      | none => .error .panic
      | some bytes =>
        match fromUtf8 bytes with
        | none => .error (.error ⟨start, .badNumber⟩)
        | some text =>
          let value ← readNumber start (fractional || exponential) text
          .ok (value, p)

end Numbers

section Strings

def nibble (d : UInt8) : Option Nat :=
  if '0'.toUInt8 ≤ d ∧ d ≤ '9'.toUInt8 then some (d.toNat - '0'.toNat)
  else if 'a'.toUInt8 ≤ d ∧ d ≤ 'f'.toUInt8 then some (d.toNat - 'a'.toNat + 10)
  else if 'A'.toUInt8 ≤ d ∧ d ≤ 'F'.toUInt8 then some (d.toNat - 'A'.toNat + 10)
  else none

/-- Read some hex digits into a value of 16 bits. -/
def hexLoop : Nat → Nat → Parser → Except Fault (Nat × Parser)
  | 0, value, p => .ok (value, p)
  | count + 1, value, p =>
    match p.peek with
    | none => .error (p.err .unexpectedEof)
    | some d =>
      match nibble d with
      | none => .error (p.err .badUnicode)
      | some n => hexLoop count ((value <<< 4) % 2 ^ 16 ||| n) (p.advance 1)

def hex4 (p : Parser) : Except Fault (Nat × Parser) := hexLoop 4 0 p

/-- The scalar a high surrogate and the low one after it stand for. -/
def surrogatePair (first low : Nat) : Nat := 0x10000 + ((first - 0xD800) <<< 10) + (low - 0xDC00)

/-- `c.ok_or(e)`, at the position the parser is left at. -/
def okOr (c : Option Char) (e : Fault) (p : Parser) : Except Fault (Char × Parser) :=
  match c with
  | some c => .ok (c, p)
  | none => .error e

/-- The character of a `\u` escape, whose `\u` is consumed. A high surrogate takes the low one that
follows it. -/
def unicodeEscape (p : Parser) : Except Fault (Char × Parser) := do
  let (first, p) ← p.hex4
  if 0xD800 ≤ first ∧ first ≤ 0xDBFF then
    let at_ := p.pos
    if p.peek ≠ some '\\'.toUInt8 ∨ p.bytes[p.pos + 1]? ≠ some 'u'.toUInt8 then
      .error (.error ⟨at_, .badUnicode⟩)
    else
      let (low, p) ← (p.advance 2).hex4
      if 0xDC00 ≤ low ∧ low ≤ 0xDFFF then
        okOr (fromU32 (surrogatePair first low)) (.error ⟨at_, .badUnicode⟩) p
      else .error (.error ⟨at_, .badUnicode⟩)
  else okOr (fromU32 first) (p.err .badUnicode) p

/-- The character of an escape of one letter. -/
def simpleEscape (b : UInt8) : Option Char :=
  if b = '"'.toUInt8 then some '"'
  else if b = '\\'.toUInt8 then some '\\'
  else if b = '/'.toUInt8 then some '/'
  else if b = 'b'.toUInt8 then some '\x08'
  else if b = 'f'.toUInt8 then some '\x0c'
  else if b = 'n'.toUInt8 then some '\n'
  else if b = 'r'.toUInt8 then some '\r'
  else if b = 't'.toUInt8 then some '\t'
  else none

/-- One escape, whose backslash is consumed. -/
def escape (p : Parser) (out : String) : Except Fault (String × Parser) :=
  match p.peek with
  | none => .error (p.err .unexpectedEof)
  | some b =>
    match simpleEscape b with
    | some c => .ok (out.push c, p.advance 1)
    | none =>
      if b = 'u'.toUInt8 then do
        let (c, p) ← (p.advance 1).unicodeEscape
        .ok (out.push c, p)
      else .error (p.err .badEscape)

def stringLoop : Nat → String → Parser → Except Fault (String × Parser)
  | 0, _, _ => .error .spent
  | fuel + 1, out, p =>
    match p.peek with
    | none => .error (p.err .unexpectedEof)
    | some b =>
      if b = '"'.toUInt8 then .ok (out, p.advance 1)
      else if b = '\\'.toUInt8 then do
        let (out, p) ← (p.advance 1).escape out
        stringLoop fuel out p
      -- A control byte must be escaped.
      else if b ≤ 0x1F then .error (p.err .unexpected)
      else
        let start := p.pos
        let p := p.advance (utf8Len b)
        match p.slice start with
        | none => .error (p.err .unexpectedEof)
        | some bytes =>
          match fromUtf8 bytes with
          | none => .error (.error ⟨start, .unexpected⟩)
          | some scalar => stringLoop fuel (out ++ scalar) p

/-- A string literal, the opening quote next. Every turn of the loop consumes a byte. -/
def string (p : Parser) : Except Fault (String × Parser) := stringLoop (p.bytes.length + 1) "" (p.advance 1)

end Strings

mutual

def value : Nat → Nat → Parser → Except Fault (Json × Parser)
  | 0, _, _ => .error .spent
  | fuel + 1, depth, p =>
    match p.peek with
    | none => .error (p.err .unexpectedEof)
    | some b =>
      if b = 'n'.toUInt8 then p.literal (asBytes "null") .null
      else if b = 't'.toUInt8 then p.literal (asBytes "true") (.bool true)
      else if b = 'f'.toUInt8 then p.literal (asBytes "false") (.bool false)
      else if b = '"'.toUInt8 then do
        let (s, p) ← p.string
        .ok (.str s, p)
      else if b = '['.toUInt8 then
        if depth + 1 > MAX_DEPTH then .error (p.err .depthLimit)
        else
          let p := (p.advance 1).skipWs
          if p.peek = some ']'.toUInt8 then .ok (.array [], p.advance 1)
          else arrayLoop fuel depth [] p
      else if b = '{'.toUInt8 then
        if depth + 1 > MAX_DEPTH then .error (p.err .depthLimit)
        else
          let p := (p.advance 1).skipWs
          if p.peek = some '}'.toUInt8 then .ok (.object [], p.advance 1)
          else objectLoop fuel depth [] p
      else if b = '-'.toUInt8 ∨ isDigit b then p.number
      else .error (p.err .unexpected)

def arrayLoop : Nat → Nat → List Json → Parser → Except Fault (Json × Parser)
  | 0, _, _, _ => .error .spent
  | fuel + 1, depth, items, p => do
    let (item, p) ← value fuel (depth + 1) p.skipWs
    let p := p.skipWs
    if p.peek = some ','.toUInt8 then arrayLoop fuel depth (items ++ [item]) (p.advance 1)
    else if p.peek = some ']'.toUInt8 then .ok (.array (items ++ [item]), p.advance 1)
    else .error p.unexpected

def objectLoop : Nat → Nat → List (String × Json) → Parser → Except Fault (Json × Parser)
  | 0, _, _, _ => .error .spent
  | fuel + 1, depth, pairs, p =>
    let p := p.skipWs
    if p.peek ≠ some '"'.toUInt8 then .error p.unexpected
    else do
      let start := p.pos
      let (key, p) ← p.string
      -- The keys seen are those of the pairs.
      if key ∈ pairs.map Prod.fst then .error (.error ⟨start, .duplicateKey⟩)
      else
        let p := p.skipWs
        if p.peek ≠ some ':'.toUInt8 then .error p.unexpected
        else
          let (item, p) ← value fuel (depth + 1) (p.advance 1).skipWs
          let p := p.skipWs
          if p.peek = some ','.toUInt8 then objectLoop fuel depth (pairs ++ [(key, item)]) (p.advance 1)
          else if p.peek = some '}'.toUInt8 then
            .ok (.object (pairs ++ [(key, item)]), p.advance 1)
          else .error p.unexpected

end

end Parser

/-- Parse one JSON value, and nothing after it but whitespace. A call of the recursion consumes a
byte before it makes two more. -/
def parse (input : String) : Except Fault Json := do
  let p : Parser := (Parser.mk (asBytes input) 0).skipWs
  let (value, p) ← p.value (2 * p.bytes.length + 2) 0
  let p := p.skipWs
  if p.pos ≠ p.bytes.length then .error (p.err .trailingBytes)
  else .ok value

end Json

end CrdtSync
