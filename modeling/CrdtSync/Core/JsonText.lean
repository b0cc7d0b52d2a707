import CrdtSync.Core.JsonGrammar

/-!
# The parser's position in a text

The parser walks bytes and the grammar characters. What is left at a position is the UTF-8
of some characters, the byte there is a delimiter of the grammar where the first of them is,
and a scalar taken whole leaves the rest of them.
-/

namespace CrdtSync

namespace Json

/-! ### UTF-8 -/

theorem encodeUtf8_cons (c : Char) (cs : List Char) :
    encodeUtf8 (c :: cs) = String.utf8EncodeChar c ++ encodeUtf8 cs := List.flatMap_cons

theorem encodeUtf8_append (cs ds : List Char) :
    encodeUtf8 (cs ++ ds) = encodeUtf8 cs ++ encodeUtf8 ds := List.flatMap_append

/-- The lead byte of a character tells its length, and is the character itself where it is ASCII. -/
theorem lead_utf8EncodeChar (c : Char) : ∃ b bs, String.utf8EncodeChar c = b :: bs ∧
    utf8Len b = bs.length + 1 ∧
      (c.toNat ≤ 0x7F ∧ b.toNat = c.toNat ∧ bs = [] ∨ 0x7F < c.toNat ∧ 0x7F < b.toNat) := by
  have hBound : c.toNat < 0x110000 := by
    have hValid := c.valid
    simp only [UInt32.isValidChar, Nat.isValidChar] at hValid
    change c.val.toNat < _
    omega
  have hLen : ∀ n : Nat, n < 256 → utf8Len (UInt8.ofNat n) =
      if n ≤ 0x7F then 1 else if 0xC0 ≤ n ∧ n ≤ 0xDF then 2 else if 0xE0 ≤ n ∧ n ≤ 0xEF then 3 else 4 := by
    decide +kernel
  unfold String.utf8EncodeChar
  change c.val.toNat < _ at hBound
  dsimp only
  change ∃ b bs, _ ∧ _ ∧ (c.val.toNat ≤ _ ∧ _ = c.val.toNat ∧ _ ∨ _ < c.val.toNat ∧ _)
  split
  next hOne =>
    refine ⟨_, _, rfl, ?_, .inl ⟨hOne, ?_, rfl⟩⟩
    · rw [hLen _ (by omega), if_pos hOne]
      rfl
    · rw [UInt8.toNat_ofNat']
      omega
  split
  next hOne hTwo =>
    refine ⟨_, _, rfl, ?_, .inr ⟨by omega, ?_⟩⟩
    · rw [hLen _ (by omega), if_neg (by omega), if_pos (by omega)]
      rfl
    · rw [UInt8.toNat_ofNat']
      omega
  split
  next hOne hTwo hThree =>
    refine ⟨_, _, rfl, ?_, .inr ⟨by omega, ?_⟩⟩
    · rw [hLen _ (by omega), if_neg (by omega), if_neg (by omega), if_pos (by omega)]
      rfl
    · rw [UInt8.toNat_ofNat']
      omega
  next hOne hTwo hThree =>
    refine ⟨_, _, rfl, ?_, .inr ⟨by omega, ?_⟩⟩
    · rw [hLen _ (by omega), if_neg (by omega), if_neg (by omega), if_neg (by omega)]
      rfl
    · rw [UInt8.toNat_ofNat']
      omega

theorem fromUtf8_encodeUtf8 (cs : List Char) : fromUtf8 (encodeUtf8 cs) = some (String.ofList cs) := by
  have hValid : (encodeUtf8 cs).toByteArray = cs.utf8Encode := rfl
  unfold fromUtf8 String.fromUTF8?
  rw [hValid]
  rw [dif_pos ByteArray.isValidUTF8_utf8Encode]
  rfl

/-- The first byte of a character. -/
def lead (c : Char) : UInt8 := (String.utf8EncodeChar c).head String.utf8EncodeChar_ne_nil

theorem utf8EncodeChar_eq (c : Char) : ∃ bs, String.utf8EncodeChar c = lead c :: bs ∧
    utf8Len (lead c) = bs.length + 1 ∧
      (c.toNat ≤ 0x7F ∧ (lead c).toNat = c.toNat ∧ bs = [] ∨ 0x7F < c.toNat ∧ 0x7F < (lead c).toNat) := by
  obtain ⟨b, bs, hEq, hLen, hCases⟩ := lead_utf8EncodeChar c
  have hLead : lead c = b := by
    unfold lead
    simp [hEq]
  rw [hLead]
  exact ⟨bs, hEq, hLen, hCases⟩

theorem toNat_toUInt8 {a : Char} (hAscii : a.toNat ≤ 0x7F) : a.toUInt8.toNat = a.toNat := by
  change (UInt8.ofNat a.toNat).toNat = a.toNat
  rw [UInt8.toNat_ofNat']
  omega

/-- The grammar's delimiters are told apart by their bytes. -/
theorem lead_eq_iff {a c : Char} (hAscii : a.toNat ≤ 0x7F) : lead c = a.toUInt8 ↔ c = a := by
  obtain ⟨bs, -, -, hCases⟩ := utf8EncodeChar_eq c
  constructor
  · intro hLead
    have hNat := congrArg UInt8.toNat hLead
    rw [toNat_toUInt8 hAscii] at hNat
    obtain ⟨-, hSame, -⟩ | ⟨-, hHigh⟩ := hCases
    · exact Char.toNat_inj.mp (hSame.symm.trans hNat)
    · omega
  · rintro rfl
    obtain ⟨-, hSame, -⟩ | ⟨hHigh, -⟩ := hCases
    · exact UInt8.toNat_inj.mp (hSame.trans (toNat_toUInt8 hAscii).symm)
    · omega

/-- A test of a range of ASCII bytes is the test of the characters. -/
theorem lead_between_iff {a b c : Char} (ha : a.toNat ≤ 0x7F) (hb : b.toNat ≤ 0x7F) :
    a.toUInt8 ≤ lead c ∧ lead c ≤ b.toUInt8 ↔ a ≤ c ∧ c ≤ b := by
  obtain ⟨bs, -, -, hCases⟩ := utf8EncodeChar_eq c
  rw [UInt8.le_iff_toNat_le, UInt8.le_iff_toNat_le, toNat_toUInt8 ha, toNat_toUInt8 hb, Char.le_def,
    Char.le_def, UInt32.le_iff_toNat_le, UInt32.le_iff_toNat_le]
  change _ ↔ a.toNat ≤ c.toNat ∧ c.toNat ≤ b.toNat
  obtain ⟨-, hSame, -⟩ | ⟨hHigh, hLead⟩ := hCases
  · rw [hSame]
  · omega

theorem isDigit_lead (c : Char) : isDigit (lead c) = c.isDigit := by
  have hRange := lead_between_iff (a := '0') (b := '9') (c := c) (by decide) (by decide)
  rw [Bool.eq_iff_iff, isDigit, Bool.and_eq_true, decide_eq_true_eq, decide_eq_true_eq, hRange,
    Char.isDigit, Bool.and_eq_true, decide_eq_true_eq, decide_eq_true_eq]
  rfl

/-- `%x20 / %x09 / %x0A / %x0D` -/
def isWs (c : Char) : Bool := c = ' ' || c = '\t' || c = '\n' || c = '\r'

theorem isSpace_lead (c : Char) : isSpace (lead c) = isWs c := by
  have h := fun a ha => lead_eq_iff (a := a) (c := c) ha
  simp only [isSpace, isWs, h ' ' (by decide), h '\t' (by decide), h '\n' (by decide),
    h '\r' (by decide)]

namespace Parser

/-- What is left of the text at a position. -/
structure Left (p : Parser) (cs : List Char) : Prop where
  bound : p.pos ≤ p.bytes.length
  drop : p.bytes.drop p.pos = encodeUtf8 cs

variable {p p' : Parser} {c : Char} {cs ds rest : List Char}

theorem peek_eq_head? (p : Parser) : p.peek = (p.bytes.drop p.pos).head? := by
  rw [List.head?_drop]
  rfl

namespace Left

theorem peek_nil (h : p.Left []) : p.peek = none := by
  rw [peek_eq_head?, h.drop]
  rfl

theorem peek_cons (h : p.Left (c :: cs)) : p.peek = some (lead c) := by
  obtain ⟨bs, hEq, -⟩ := utf8EncodeChar_eq c
  rw [peek_eq_head?, h.drop, encodeUtf8_cons, hEq]
  rfl

theorem peek_eq_iff {a : Char} (h : p.Left cs) (hAscii : a.toNat ≤ 0x7F) :
    p.peek = some a.toUInt8 ↔ ∃ rest, cs = a :: rest := by
  cases cs with
  | nil =>
    rw [h.peek_nil]
    simp
  | cons c cs =>
    rw [h.peek_cons, Option.some_inj, lead_eq_iff hAscii]
    simp

/-- Some characters taken whole. -/
theorem advance_append (h : p.Left (ds ++ rest)) : (p.advance (encodeUtf8 ds).length).Left rest := by
  have hDrop := h.drop
  rw [encodeUtf8_append] at hDrop
  have hLength := congrArg List.length hDrop
  rw [List.length_drop, List.length_append] at hLength
  have hBound := h.bound
  refine ⟨?_, ?_⟩
  · change p.pos + (encodeUtf8 ds).length ≤ p.bytes.length
    omega
  · change p.bytes.drop (p.pos + (encodeUtf8 ds).length) = _
    rw [← List.drop_drop, hDrop, List.drop_left]

theorem advance_scalar (h : p.Left (c :: cs)) : (p.advance (utf8Len (lead c))).Left cs := by
  obtain ⟨bs, hEq, hLen, -⟩ := utf8EncodeChar_eq c
  have hHead : p.Left ([c] ++ cs) := h
  have hScalar := hHead.advance_append
  rwa [encodeUtf8_cons, hEq, show encodeUtf8 [] = [] from rfl, List.append_nil, List.length_cons,
    ← hLen] at hScalar

theorem advance (h : p.Left (c :: cs)) (hAscii : c.toNat ≤ 0x7F) : (p.advance 1).Left cs := by
  have hScalar := h.advance_scalar
  obtain ⟨bs, -, hLen, ⟨-, -, rfl⟩ | ⟨hHigh, -⟩⟩ := utf8EncodeChar_eq c
  · rwa [hLen] at hScalar
  · omega

/-- The bytes between two positions. -/
theorem slice (h : p.Left (ds ++ rest)) (h' : p'.Left rest) (hBytes : p'.bytes = p.bytes) :
    p'.slice p.pos = some (encodeUtf8 ds) := by
  have hDrop := h.drop
  rw [encodeUtf8_append] at hDrop
  have hLength := congrArg List.length hDrop
  have hLength' := congrArg List.length h'.drop
  rw [List.length_drop, List.length_append] at hLength
  rw [List.length_drop, hBytes] at hLength'
  have hBound := h.bound
  have hBound' := h'.bound
  rw [hBytes] at hBound'
  have hCount : p'.pos - p.pos = (encodeUtf8 ds).length := by omega
  unfold Parser.slice
  rw [if_pos ⟨by omega, by rwa [hBytes]⟩, hBytes, hDrop, hCount, List.take_left' rfl]

end Left

/-! ### Whitespace and digits -/

/-- A run of ASCII characters is a run of bytes. -/
theorem takeWhile_encodeUtf8 {q : UInt8 → Bool} {f : Char → Bool} (hLead : ∀ c, q (lead c) = f c)
    (hAscii : ∀ c, f c = true → c.toNat ≤ 0x7F) (cs : List Char) :
    (encodeUtf8 cs).takeWhile q = encodeUtf8 (cs.takeWhile f) := by
  induction cs with
  | nil => rfl
  | cons c cs ih =>
    obtain ⟨bs, hEq, -, hCases⟩ := utf8EncodeChar_eq c
    rw [encodeUtf8_cons, hEq, List.cons_append, List.takeWhile_cons, List.takeWhile_cons, hLead]
    cases hf : f c with
    | false => rfl
    | true =>
      obtain ⟨-, -, rfl⟩ | ⟨hHigh, -⟩ := hCases
      · rw [if_pos rfl, if_pos rfl, List.nil_append, ih, encodeUtf8_cons, hEq]
        rfl
      · have hLow := hAscii c hf
        omega

theorem Left.advance_while {q : UInt8 → Bool} {f : Char → Bool} (hLead : ∀ c, q (lead c) = f c)
    (hAscii : ∀ c, f c = true → c.toNat ≤ 0x7F) (h : p.Left cs) :
    (p.advance ((p.bytes.drop p.pos).takeWhile q).length).Left (cs.dropWhile f) := by
  rw [h.drop, takeWhile_encodeUtf8 hLead hAscii]
  rw [← List.takeWhile_append_dropWhile (p := f) (l := cs)] at h
  exact h.advance_append

theorem Left.skipWs (h : p.Left cs) : p.skipWs.Left (cs.dropWhile isWs) := by
  refine h.advance_while isSpace_lead fun c hc => ?_
  simp only [isWs, Bool.or_eq_true, decide_eq_true_eq] at hc
  obtain ((rfl | rfl) | rfl) | rfl := hc <;> decide

theorem isDigit_ascii {c : Char} (hc : c.isDigit = true) : c.toNat ≤ 0x7F := by
  rw [Char.isDigit, Bool.and_eq_true, decide_eq_true_eq, decide_eq_true_eq] at hc
  have hHigh := UInt32.le_iff_toNat_le.mp hc.2
  change c.toNat ≤ 57 at hHigh
  omega

/-- A run of digits is consumed to its end, and is not empty. -/
theorem Left.digits (h : p.Left cs) : p.digits =
    if cs.takeWhile Char.isDigit = [] then .error (p.err .badNumber)
    else .ok (p.advance ((p.bytes.drop p.pos).takeWhile isDigit).length) := by
  have hEmpty : ((p.bytes.drop p.pos).takeWhile isDigit).length = 0 ↔
      cs.takeWhile Char.isDigit = [] := by
    rw [h.drop, takeWhile_encodeUtf8 isDigit_lead fun c => isDigit_ascii, List.length_eq_zero_iff]
    constructor
    · intro hNil
      cases hRun : cs.takeWhile Char.isDigit with
      | nil => rfl
      | cons d ds =>
        rw [hRun, encodeUtf8_cons] at hNil
        exact absurd (List.append_eq_nil_iff.mp hNil).1 String.utf8EncodeChar_ne_nil
    · rintro hNil
      rw [hNil]
      rfl
  unfold Parser.digits
  dsimp only
  simp only [hEmpty]

theorem Left.after_digits (h : p.Left cs) :
    (p.advance ((p.bytes.drop p.pos).takeWhile isDigit).length).Left (cs.dropWhile Char.isDigit) :=
  h.advance_while isDigit_lead fun _ => isDigit_ascii

end Parser

end Json

end CrdtSync
