import CrdtSync.Core.JsonText
import CrdtSync.Lib.Triples
import Mathlib.Data.List.TakeDrop
import Mathlib.Data.List.TakeWhile

/-!
# Numbers of a JSON text

The parser takes a number's parts off the text one after the other, then hands the bytes it
passed to the readers of the standard library. What it passed is a number of the grammar,
what the readers make of it is what the number denotes, and a number that nothing continues
is taken to its end.
-/

namespace CrdtSync

namespace Json

/-- An error the parser reports. -/
def Reported (f : Fault) : Prop := ∃ e, f = .error e

theorem Parser.reported_err (p : Parser) (kind : JsonErrorKind) : Reported (p.err kind) := ⟨_, rfl⟩

/-! ### Reading a number's text -/

theorem IsDigits.all {ds : List Char} (h : IsDigits ds) : ds.all Char.isDigit = true :=
  List.all_eq_true.mpr h.2

theorem IsDigits.isEmpty {ds : List Char} (h : IsDigits ds) : ds.isEmpty = false := by
  cases ds with
  | nil => exact absurd rfl h.1
  | cons d ds => rfl

theorem not_isDigit_minus {d : Char} (h : d.isDigit = true) : d ≠ '-' ∧ d ≠ '+' := by
  constructor <;> rintro rfl <;> exact absurd h (by decide)

theorem takeSign_digits {ds : List Char} (h : IsDigits ds) (rest : List Char) :
    takeSign (ds ++ rest) = (false, ds ++ rest) := by
  cases ds with
  | nil => exact absurd rfl h.1
  | cons d ds =>
    obtain ⟨hMinus, hPlus⟩ := not_isDigit_minus (h.2 d List.mem_cons_self)
    rw [List.cons_append]
    unfold takeSign
    split
    next hEq => exact absurd (List.cons.inj hEq).1 hMinus
    next hEq => exact absurd (List.cons.inj hEq).1 hPlus
    next => rfl

theorem takeSign_minus (minus : Bool) {ds : List Char} (h : IsDigits ds) (rest : List Char) :
    takeSign ((if minus then ['-'] else []) ++ (ds ++ rest)) = (minus, ds ++ rest) := by
  cases minus with
  | true => rfl
  | false => exact takeSign_digits h rest

theorem parseSigned_minus (minus : Bool) {ds : List Char} (h : IsDigits ds) :
    parseSigned ((if minus then ['-'] else []) ++ ds) =
      some (if minus then -(digitsValue ds : Int) else digitsValue ds) := by
  have hSign := takeSign_minus minus h []
  rw [List.append_nil] at hSign
  simp [parseSigned, hSign, h.all, h.isEmpty]

/-- Where a run of digits ends. -/
def Halts (rest : List Char) : Prop := ∀ c ∈ rest.head?, c.isDigit = false

theorem Halts.run {ds rest : List Char} (hHalts : Halts rest) (h : ∀ d ∈ ds, d.isDigit = true) :
    (ds ++ rest).takeWhile Char.isDigit = ds ∧ (ds ++ rest).dropWhile Char.isDigit = rest := by
  have hRest : rest.takeWhile Char.isDigit = [] ∧ rest.dropWhile Char.isDigit = rest := by
    cases rest with
    | nil => exact ⟨rfl, rfl⟩
    | cons c cs =>
      have hc := hHalts c rfl
      simp [hc]
  rw [List.takeWhile_append_of_pos h, List.dropWhile_append_of_pos h, hRest.1, hRest.2,
    List.append_nil]
  exact ⟨rfl, rfl⟩

namespace Number

variable (n : Number)

theorem halts_expText : Halts n.expText := by
  intro c hc
  unfold expText at hc
  cases hExp : n.exp with
  | none =>
    rw [hExp] at hc
    cases hc
  | some e =>
    rw [hExp] at hc
    obtain rfl := Option.some_inj.mp hc
    obtain hLetter | hLetter := (n.exp_wf e hExp).1 <;> rw [hLetter] <;> decide

theorem halts_tail : Halts (n.fracText ++ n.expText) := by
  intro c hc
  cases hFrac : n.frac with
  | none =>
    rw [fracText, hFrac] at hc
    exact n.halts_expText c hc
  | some ds =>
    rw [fracText, hFrac] at hc
    obtain rfl := Option.some_inj.mp hc
    decide

theorem parseExponent_expText : parseExponent n.expText = some n.power := by
  cases hExp : n.exp with
  | none => rw [expText, power, hExp]; rfl
  | some e =>
    obtain ⟨letter, sign, ds⟩ := e
    obtain ⟨hLetter, hSign, hDigits⟩ := n.exp_wf _ hExp
    rw [expText, power, hExp]
    change (if letter = 'e' ∨ letter = 'E' then parseSigned (sign.toList ++ ds) else none) = _
    rw [if_pos hLetter]
    cases sign with
    | none =>
      have hText := parseSigned_minus false hDigits
      simpa using hText
    | some s =>
      obtain rfl | rfl := hSign s rfl
      · have hText := parseSigned_minus true hDigits
        simpa using hText
      · simp [parseSigned, takeSign, hDigits.all, hDigits.isEmpty]

/-- The text of a number is read as the nearest double. -/
theorem parseF64_text : parseF64 (String.ofList n.text) =
    some (.ofDecimal n.minus (digitsValue (n.int ++ n.frac.getD []))
      (n.power - (n.frac.getD []).length)) := by
  have hInt := n.int_wf.1
  have hSpan := n.halts_tail.run hInt.2
  have hExpSpan := fun ds hds => n.halts_expText.run (n.frac_wf ds hds).2
  unfold parseF64
  rw [String.toList_ofList, text, takeSign_minus _ hInt]
  dsimp only
  rw [List.span_eq_takeWhile_dropWhile, hSpan.1, hSpan.2]
  cases hFrac : n.frac with
  | none =>
    have hDot : ∀ cs, n.expText ≠ '.' :: cs := by
      intro cs hText
      unfold expText at hText
      cases hExp : n.exp with
      | none =>
        rw [hExp] at hText
        cases hText
      | some e =>
        rw [hExp] at hText
        have hHead := (List.cons.inj hText).1
        obtain hLetter | hLetter := (n.exp_wf e hExp).1 <;> rw [hLetter] at hHead <;>
          exact absurd hHead (by decide)
    have hTail : n.fracText ++ n.expText = n.expText := by
      rw [fracText, hFrac]
      rfl
    rw [hTail]
    split
    next cs hText => exact absurd hText (hDot cs)
    next =>
      simp [hInt.isEmpty, parseExponent_expText]
  | some ds =>
    have hTail : n.fracText ++ n.expText = '.' :: (ds ++ n.expText) := by
      rw [fracText, hFrac]
      rfl
    rw [hTail]
    split
    next cs hText =>
      obtain rfl := (List.cons.inj hText).2
      rw [List.span_eq_takeWhile_dropWhile, (hExpSpan ds hFrac).1, (hExpSpan ds hFrac).2]
      simp [hInt.isEmpty, parseExponent_expText]
    next hText => exact absurd rfl (hText _)

theorem readNumber_text (start : Nat) :
    Parser.readNumber start (n.frac.isSome || n.exp.isSome) (String.ofList n.text) = .ok n.denote := by
  unfold Parser.readNumber denote
  rw [parseF64_text]
  cases hFrac : n.frac with
  | some ds => simp
  | none =>
    cases hExp : n.exp with
    | some e => simp
    | none =>
      have hText : n.text = (if n.minus then ['-'] else []) ++ n.int := by
        rw [text, fracText, expText, hFrac, hExp]
        simp
      have hInteger : parseI64 (String.ofList n.text) =
          if -2 ^ 63 ≤ n.integer ∧ n.integer < 2 ^ 63 then some n.integer else none := by
        rw [parseI64, String.toList_ofList, hText, parseSigned_minus _ n.int_wf.1]
        change (some n.integer).filter _ = _
        simp [Option.filter]
      rw [if_neg (by simp), hInteger]
      by_cases hRange : -2 ^ 63 ≤ n.integer ∧ n.integer < 2 ^ 63
      · rw [if_pos hRange, if_pos ⟨rfl, rfl, hRange⟩]
      · rw [if_neg hRange, if_neg fun h => hRange h.2.2]

end Number

/-! ### The parts of a number -/

namespace Parser

/-- The parser stands further on in the same bytes, with `rest` left. -/
structure Passes (p : Parser) (rest : List Char) (p' : Parser) : Prop where
  bytes : p'.bytes = p.bytes
  left : p'.Left rest

variable {p p' : Parser} {c : Char} {cs ds rest : List Char}

theorem Passes.trans {p₁ p₂ : Parser} {mid : List Char} (h₁ : p.Passes mid p₁)
    (h₂ : p₁.Passes rest p₂) : p.Passes rest p₂ :=
  ⟨h₂.bytes.trans h₁.bytes, h₂.left⟩

theorem Left.passes (h : p.Left (c :: cs)) (hAscii : c.toNat ≤ 0x7F) : p.Passes cs (p.advance 1) :=
  ⟨rfl, h.advance hAscii⟩

theorem Left.refl (h : p.Left cs) : p.Passes cs p := ⟨rfl, h⟩

theorem digits_sound (h : p.Left cs) : Meets Reported (fun p' => ∃ ds rest, cs = ds ++ rest ∧
    IsDigits ds ∧ p.Passes rest p') p.digits := by
  rw [h.digits]
  split
  next => exact p.reported_err _
  next hSome =>
    exact ⟨_, _, List.takeWhile_append_dropWhile.symm,
      ⟨hSome, fun d hd => List.mem_takeWhile_imp hd⟩, rfl, h.after_digits⟩

theorem digits_complete (h : p.Left (ds ++ rest)) (hDigits : IsDigits ds) (hHalts : Halts rest) :
    ∃ p', p.digits = .ok p' ∧ p.Passes rest p' := by
  obtain ⟨hTake, hDrop⟩ := hHalts.run hDigits.2
  have hAfter := h.after_digits
  rw [hDrop] at hAfter
  rw [h.digits, hTake, if_neg hDigits.1]
  exact ⟨_, rfl, rfl, hAfter⟩

/-- `int = zero / ( digit1-9 *DIGIT )` -/
theorem intPart_sound (h : p.Left cs) : Meets Reported (fun p' => ∃ ds rest, cs = ds ++ rest ∧
    (IsDigits ds ∧ (ds.head? = some '0' → ds = ['0'])) ∧ p.Passes rest p') p.intPart := by
  cases cs with
  | nil =>
    rw [intPart, h.peek_nil]
    exact p.reported_err _
  | cons c cs =>
    rw [intPart, h.peek_cons]
    dsimp only
    rw [isDigit_lead]
    split
    next hZero =>
      obtain rfl := (lead_eq_iff (by decide)).mp hZero
      exact ⟨['0'], cs, rfl, ⟨⟨by simp, by simp⟩, fun _ => rfl⟩, h.passes (by decide)⟩
    next hNonzero =>
      split
      next hDigit =>
        refine (digits_sound h).mono fun p' hp' => ?_
        obtain ⟨ds, rest, hEq, hDigits, hPasses⟩ := hp'
        refine ⟨ds, rest, hEq, ⟨hDigits, fun hHead => absurd ?_ hNonzero⟩, hPasses⟩
        cases ds with
        | nil => exact absurd rfl hDigits.1
        | cons d ds =>
          obtain rfl := (List.cons.inj hEq).1
          exact (lead_eq_iff (by decide)).mpr (Option.some_inj.mp hHead)
      next => exact p.reported_err _

theorem intPart_complete (h : p.Left (ds ++ rest)) (hDigits : IsDigits ds)
    (hZero : ds.head? = some '0' → ds = ['0']) (hHalts : Halts rest) :
    ∃ p', p.intPart = .ok p' ∧ p.Passes rest p' := by
  cases ds with
  | nil => exact absurd rfl hDigits.1
  | cons d ds =>
    rw [intPart, h.peek_cons]
    dsimp only
    rw [isDigit_lead, hDigits.2 d List.mem_cons_self, if_pos rfl]
    split
    next hLead =>
      obtain rfl := (lead_eq_iff (by decide)).mp hLead
      obtain rfl := (List.cons.inj (hZero rfl)).2
      exact ⟨_, rfl, h.passes (by decide)⟩
    next => exact digits_complete h hDigits hHalts

/-- `frac = decimal-point 1*DIGIT` -/
theorem fraction_sound (h : p.Left cs) : Meets Reported (fun r => ∃ (frac : Option (List Char))
    (rest : List Char), cs = frac.elim [] ('.' :: ·) ++ rest ∧ (∀ ds ∈ frac, IsDigits ds) ∧
      r.1 = frac.isSome ∧ p.Passes rest r.2) p.fraction := by
  unfold fraction
  split
  next hDot =>
    obtain ⟨cs, rfl⟩ := (h.peek_eq_iff (by decide)).mp hDot
    have hAfter := h.passes (by decide)
    refine (digits_sound hAfter.left).bind fun p' hp' => ?_
    obtain ⟨ds, rest, rfl, hDigits, hPasses⟩ := hp'
    refine ⟨some ds, rest, rfl, fun d hd => ?_, rfl, hAfter.trans hPasses⟩
    obtain rfl := Option.some_inj.mp hd
    exact hDigits
  next => exact ⟨none, cs, rfl, by simp, rfl, h.refl⟩

/-- The fraction is taken where there is one. -/
theorem fraction_complete {frac : Option (List Char)} (h : p.Left (frac.elim [] ('.' :: ·) ++ rest))
    (hDigits : ∀ ds ∈ frac, IsDigits ds) (hHalts : Halts rest) (hDot : rest.head? ≠ some '.') :
    ∃ p', p.fraction = .ok (frac.isSome, p') ∧ p.Passes rest p' := by
  unfold fraction
  cases frac with
  | none =>
    have hPeek : p.peek ≠ some '.'.toUInt8 := by
      intro hPeek
      obtain ⟨cs, hEq⟩ := (h.peek_eq_iff (by decide)).mp hPeek
      exact hDot (by rw [show rest = '.' :: cs from hEq]; rfl)
    rw [if_neg hPeek]
    exact ⟨_, rfl, h.refl⟩
  | some ds =>
    have hPeek : p.peek = some '.'.toUInt8 := (h.peek_eq_iff (by decide)).mpr ⟨_, rfl⟩
    have hAfter := Left.passes h (by decide)
    obtain ⟨p', hOk, hPasses⟩ := digits_complete hAfter.left (hDigits ds rfl) hHalts
    rw [if_pos hPeek, hOk]
    exact ⟨p', rfl, hAfter.trans hPasses⟩

theorem sign_sound (h : p.Left cs) : ∃ (sign : Option Char) (rest : List Char),
    cs = sign.toList ++ rest ∧ (∀ s ∈ sign, s = '-' ∨ s = '+') ∧ p.Passes rest
      (if p.peek = some '+'.toUInt8 ∨ p.peek = some '-'.toUInt8 then p.advance 1 else p) := by
  split
  next hSign =>
    obtain hPlus | hMinus := hSign
    · obtain ⟨cs, rfl⟩ := (h.peek_eq_iff (by decide)).mp hPlus
      exact ⟨some '+', cs, rfl, by simp, h.passes (by decide)⟩
    · obtain ⟨cs, rfl⟩ := (h.peek_eq_iff (by decide)).mp hMinus
      exact ⟨some '-', cs, rfl, by simp, h.passes (by decide)⟩
  next => exact ⟨none, cs, rfl, by simp, h.refl⟩

theorem sign_complete {sign : Option Char} (h : p.Left (sign.toList ++ (ds ++ rest)))
    (hSign : ∀ s ∈ sign, s = '-' ∨ s = '+') (hDigits : IsDigits ds) : p.Passes (ds ++ rest)
      (if p.peek = some '+'.toUInt8 ∨ p.peek = some '-'.toUInt8 then p.advance 1 else p) := by
  cases sign with
  | none =>
    rw [if_neg]
    · exact h.refl
    · rw [h.peek_eq_iff (by decide), h.peek_eq_iff (by decide)]
      cases ds with
      | nil => exact absurd rfl hDigits.1
      | cons d ds =>
        obtain ⟨hMinus, hPlus⟩ := not_isDigit_minus (hDigits.2 d List.mem_cons_self)
        simp [hMinus, hPlus]
  | some s =>
    obtain rfl | rfl := hSign s rfl
    · rw [if_pos (.inr ((h.peek_eq_iff (by decide)).mpr ⟨_, rfl⟩))]
      exact Left.passes h (by decide)
    · rw [if_pos (.inl ((h.peek_eq_iff (by decide)).mpr ⟨_, rfl⟩))]
      exact Left.passes h (by decide)

/-- `exp = e [ minus / plus ] 1*DIGIT` -/
theorem exponent_sound (h : p.Left cs) : Meets Reported (fun r =>
    ∃ (exp : Option (Char × Option Char × List Char)) (rest : List Char),
      cs = exp.elim [] (fun e => e.1 :: (e.2.1.toList ++ e.2.2)) ++ rest ∧
        (∀ e ∈ exp, (e.1 = 'e' ∨ e.1 = 'E') ∧ (∀ s ∈ e.2.1, s = '-' ∨ s = '+') ∧ IsDigits e.2.2) ∧
          r.1 = exp.isSome ∧ p.Passes rest r.2) p.exponent := by
  unfold exponent
  split
  next hLetter =>
    have hHead : ∃ letter cs', cs = letter :: cs' ∧ (letter = 'e' ∨ letter = 'E') := by
      rw [h.peek_eq_iff (by decide), h.peek_eq_iff (by decide)] at hLetter
      obtain ⟨cs', hEq⟩ | ⟨cs', hEq⟩ := hLetter
      · exact ⟨'e', cs', hEq, .inl rfl⟩
      · exact ⟨'E', cs', hEq, .inr rfl⟩
    obtain ⟨letter, cs', rfl, hLetter⟩ := hHead
    have hAscii : letter.toNat ≤ 0x7F := by obtain rfl | rfl := hLetter <;> decide
    have hAfter := h.passes hAscii
    obtain ⟨sign, signed, rfl, hSign, hSigned⟩ := sign_sound hAfter.left
    refine (digits_sound hSigned.left).bind fun p' hp' => ?_
    obtain ⟨ds, rest, rfl, hDigits, hPasses⟩ := hp'
    refine ⟨some (letter, sign, ds), rest, by simp, fun e he => ?_, rfl,
      hAfter.trans (hSigned.trans hPasses)⟩
    obtain rfl := Option.some_inj.mp he
    exact ⟨hLetter, hSign, hDigits⟩
  next => exact ⟨none, cs, rfl, by simp, rfl, h.refl⟩

theorem exponent_complete {exp : Option (Char × Option Char × List Char)}
    (h : p.Left (exp.elim [] (fun e => e.1 :: (e.2.1.toList ++ e.2.2)) ++ rest))
    (hExp : ∀ e ∈ exp, (e.1 = 'e' ∨ e.1 = 'E') ∧ (∀ s ∈ e.2.1, s = '-' ∨ s = '+') ∧ IsDigits e.2.2)
    (hHalts : Halts rest) (hLetter : rest.head? ≠ some 'e' ∧ rest.head? ≠ some 'E') :
    ∃ p', p.exponent = .ok (exp.isSome, p') ∧ p.Passes rest p' := by
  unfold exponent
  cases exp with
  | none =>
    rw [if_neg]
    · exact ⟨_, rfl, h.refl⟩
    · have hRest := h.peek_eq_iff (a := 'e') (by decide)
      have hRest' := h.peek_eq_iff (a := 'E') (by decide)
      rw [hRest, hRest']
      rintro (⟨cs, hEq⟩ | ⟨cs, hEq⟩)
      · exact hLetter.1 (by rw [show rest = 'e' :: cs from hEq]; rfl)
      · exact hLetter.2 (by rw [show rest = 'E' :: cs from hEq]; rfl)
  | some e =>
    obtain ⟨letter, sign, ds⟩ := e
    obtain ⟨hE, hSign, hDigits⟩ := hExp _ rfl
    have hText : p.Left (letter :: (sign.toList ++ (ds ++ rest))) := by
      rw [← List.append_assoc]
      exact h
    have hAscii : letter.toNat ≤ 0x7F := by
      obtain rfl | rfl := hE <;> decide
    have hPeek : p.peek = some 'e'.toUInt8 ∨ p.peek = some 'E'.toUInt8 := by
      rw [hText.peek_eq_iff (by decide), hText.peek_eq_iff (by decide)]
      obtain rfl | rfl := hE
      · exact .inl ⟨_, rfl⟩
      · exact .inr ⟨_, rfl⟩
    have hAfter := hText.passes hAscii
    have hSigned := sign_complete hAfter.left hSign hDigits
    obtain ⟨p', hOk, hPasses⟩ := digits_complete hSigned.left hDigits hHalts
    rw [if_pos hPeek]
    dsimp only
    rw [hOk]
    exact ⟨p', rfl, hAfter.trans (hSigned.trans hPasses)⟩

/-! ### A number -/

theorem minus_sound (h : p.Left cs) : ∃ (minus : Bool) (rest : List Char),
    cs = (if minus then ['-'] else []) ++ rest ∧ p.Passes rest
      (if p.peek = some '-'.toUInt8 then p.advance 1 else p) := by
  split
  next hMinus =>
    obtain ⟨cs, rfl⟩ := (h.peek_eq_iff (by decide)).mp hMinus
    exact ⟨true, cs, rfl, h.passes (by decide)⟩
  next => exact ⟨false, cs, rfl, h.refl⟩

theorem minus_complete {minus : Bool} (h : p.Left ((if minus then ['-'] else []) ++ (ds ++ rest)))
    (hDigits : IsDigits ds) : p.Passes (ds ++ rest)
      (if p.peek = some '-'.toUInt8 then p.advance 1 else p) := by
  cases minus with
  | true =>
    rw [if_pos ((h.peek_eq_iff (by decide)).mpr ⟨_, rfl⟩)]
    exact Left.passes h (by decide)
  | false =>
    rw [if_neg]
    · exact h.refl
    · rw [h.peek_eq_iff (by decide)]
      cases ds with
      | nil => exact absurd rfl hDigits.1
      | cons d ds =>
        obtain ⟨hMinus, -⟩ := not_isDigit_minus (hDigits.2 d List.mem_cons_self)
        simp [hMinus]

theorem number_sound (h : p.Left cs) : Meets Reported (fun r => ∃ (n : Number) (rest : List Char),
    cs = n.text ++ rest ∧ r.1 = n.denote ∧ r.2.Left rest) p.number := by
  unfold number
  dsimp only
  obtain ⟨minus, cs₁, rfl, hMinus⟩ := minus_sound h
  refine (intPart_sound hMinus.left).bind fun p₂ hp₂ => ?_
  obtain ⟨int, cs₂, rfl, hInt, hIntPasses⟩ := hp₂
  cases hDigit : p₂.peek.any isDigit with
  | true => exact ⟨_, rfl⟩
  | false =>
    refine (fraction_sound hIntPasses.left).bind fun r₃ hr₃ => ?_
    obtain ⟨fractional, p₃⟩ := r₃
    obtain ⟨frac, cs₃, rfl, hFrac, hFractional, hFracPasses⟩ := hr₃
    refine (exponent_sound hFracPasses.left).bind fun r₄ hr₄ => ?_
    obtain ⟨exponential, p₄⟩ := r₄
    obtain ⟨exp, rest, rfl, hExp, hExponential, hExpPasses⟩ := hr₄
    obtain rfl : fractional = frac.isSome := hFractional
    obtain rfl : exponential = exp.isSome := hExponential
    let n : Number := ⟨minus, int, frac, exp, hInt, hFrac, hExp⟩
    have hText : p.Left (n.text ++ rest) := by
      simpa [n, Number.text, Number.fracText, Number.expText] using h
    have hPasses : p.Passes rest p₄ :=
      hMinus.trans (hIntPasses.trans (hFracPasses.trans hExpPasses))
    dsimp only
    rw [hText.slice hPasses.left hPasses.bytes]
    dsimp only
    rw [fromUtf8_encodeUtf8]
    dsimp only
    rw [n.readNumber_text]
    exact ⟨n, rest, by simp [n, Number.text, Number.fracText, Number.expText], rfl, hPasses.left⟩

/-- What may follow a number: nothing that could be read as more of it. -/
def Stops (rest : List Char) : Prop :=
  ∀ c ∈ rest.head?, c.isDigit = false ∧ c ≠ '.' ∧ c ≠ 'e' ∧ c ≠ 'E'

/-- A number is taken to its end. -/
theorem number_complete {n : Number} (h : p.Left (n.text ++ rest)) (hStops : Stops rest) :
    ∃ p', p.number = .ok (n.denote, p') ∧ p'.Left rest := by
  have hHalts : Halts rest := fun c hc => (hStops c hc).1
  have hExpHalts : Halts (n.expText ++ rest) := by
    intro c hc
    cases hExp : n.expText with
    | nil =>
      rw [hExp] at hc
      exact hHalts c hc
    | cons e es =>
      rw [hExp] at hc
      exact n.halts_expText c (by rw [hExp]; exact hc)
  have hFracHalts : Halts (n.fracText ++ (n.expText ++ rest)) := by
    intro c hc
    cases hFrac : n.fracText ++ n.expText with
    | nil =>
      rw [← List.append_assoc, hFrac] at hc
      exact hHalts c hc
    | cons e es =>
      rw [← List.append_assoc, hFrac] at hc
      exact n.halts_tail c (by rw [hFrac]; exact hc)
  have hExpDot : (n.expText ++ rest).head? ≠ some '.' := by
    intro hDot
    cases hExp : n.exp with
    | none =>
      rw [Number.expText, hExp] at hDot
      exact (hStops '.' hDot).2.1 rfl
    | some e =>
      rw [Number.expText, hExp] at hDot
      have hHead : e.1 = '.' := Option.some_inj.mp hDot
      obtain hLetter | hLetter := (n.exp_wf e hExp).1 <;> rw [hLetter] at hHead <;>
        exact absurd hHead (by decide)
  have hText : p.Left ((if n.minus then ['-'] else []) ++
      (n.int ++ (n.fracText ++ (n.expText ++ rest)))) := by
    simpa [Number.text] using h
  have hMinus := minus_complete hText n.int_wf.1
  obtain ⟨p₂, hInt, hIntPasses⟩ := intPart_complete hMinus.left n.int_wf.1 n.int_wf.2 hFracHalts
  have hNoDigit : p₂.peek.any isDigit = false := by
    cases hRest : n.fracText ++ (n.expText ++ rest) with
    | nil =>
      rw [hRest] at hIntPasses
      rw [hIntPasses.left.peek_nil]
      rfl
    | cons c cs =>
      rw [hRest] at hIntPasses hFracHalts
      rw [hIntPasses.left.peek_cons, Option.any_some, isDigit_lead]
      exact hFracHalts c rfl
  obtain ⟨p₃, hFrac, hFracPasses⟩ := fraction_complete hIntPasses.left n.frac_wf hExpHalts hExpDot
  obtain ⟨p₄, hExp, hExpPasses⟩ := exponent_complete hFracPasses.left n.exp_wf hHalts
    ⟨fun hE => (hStops 'e' hE).2.2.1 rfl, fun hE => (hStops 'E' hE).2.2.2 rfl⟩
  have hPasses : p.Passes rest p₄ :=
    hMinus.trans (hIntPasses.trans (hFracPasses.trans hExpPasses))
  refine ⟨p₄, ?_, hPasses.left⟩
  unfold number
  dsimp only
  rw [hInt]
  dsimp only [Bind.bind, Except.bind]
  rw [hNoDigit, hFrac]
  dsimp only
  rw [hExp]
  dsimp only [Bool.false_eq_true, if_false]
  rw [h.slice hPasses.left hPasses.bytes]
  dsimp only
  rw [fromUtf8_encodeUtf8]
  dsimp only
  rw [n.readNumber_text]
  rfl

end Parser

end Json

end CrdtSync
