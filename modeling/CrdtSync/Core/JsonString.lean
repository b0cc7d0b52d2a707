import CrdtSync.Core.JsonNumber

/-!
# Strings of a JSON text

One turn of the parser's loop takes a character or an escape off the text, and the escape of
a high surrogate takes the low one after it in the same turn. So a turn is one character of
what the string denotes, and one or two pieces of how it is spelled.
-/

namespace CrdtSync

namespace Json

/-! ### Hex digits -/

/-- A test of a range of ASCII bytes and the offset into it. -/
theorem toNat_lead {a b c : Char} (hb : b.toNat ≤ 0x7F) (hRange : a ≤ c ∧ c ≤ b) :
    (lead c).toNat = c.toNat ∧ c.toNat ≤ b.toNat ∧ a.toNat ≤ c.toNat := by
  have hHigh : c.toNat ≤ b.toNat := hRange.2
  obtain ⟨bs, -, -, ⟨-, hSame, -⟩ | ⟨hLarge, -⟩⟩ := utf8EncodeChar_eq c
  · exact ⟨hSame, hHigh, hRange.1⟩
  · omega

theorem nibble_lead (d : Char) : Parser.nibble (lead d) = hexValue d := by
  have hDigit := lead_between_iff (a := '0') (b := '9') (c := d) (by decide) (by decide)
  have hLower := lead_between_iff (a := 'a') (b := 'f') (c := d) (by decide) (by decide)
  have hUpper := lead_between_iff (a := 'A') (b := 'F') (c := d) (by decide) (by decide)
  unfold Parser.nibble hexValue
  simp only [hDigit, hLower, hUpper]
  split
  next hRange => rw [(toNat_lead (by decide) hRange).1]
  split
  next hRange => rw [(toNat_lead (by decide) hRange).1]
  split
  next hRange => rw [(toNat_lead (by decide) hRange).1]
  next => rfl

theorem hexValue_some {d : Char} {n : Nat} (h : hexValue d = some n) : d.toNat ≤ 0x7F ∧ n < 16 := by
  unfold hexValue at h
  split at h
  next hRange =>
    obtain ⟨-, hHigh, hLow⟩ := toNat_lead (by decide) hRange
    obtain rfl := Option.some_inj.mp h
    change d.toNat ≤ 57 at hHigh
    change _ ∧ d.toNat - 48 < 16
    omega
  split at h
  next hRange =>
    obtain ⟨-, hHigh, hLow⟩ := toNat_lead (by decide) hRange
    obtain rfl := Option.some_inj.mp h
    change d.toNat ≤ 102 at hHigh
    change _ ∧ d.toNat - 97 + 10 < 16
    omega
  split at h
  next hRange =>
    obtain ⟨-, hHigh, hLow⟩ := toNat_lead (by decide) hRange
    obtain rfl := Option.some_inj.mp h
    change d.toNat ≤ 70 at hHigh
    change _ ∧ d.toNat - 65 + 10 < 16
    omega
  next => cases h

/-- `4HEXDIG`, and the code unit they are. -/
def HexDigits (n : Nat) (cs rest : List Char) : Prop :=
  ∃ d₁ d₂ d₃ d₄ n₁ n₂ n₃ n₄, cs = d₁ :: d₂ :: d₃ :: d₄ :: rest ∧ hexValue d₁ = some n₁ ∧
    hexValue d₂ = some n₂ ∧ hexValue d₃ = some n₃ ∧ hexValue d₄ = some n₄ ∧
      n = ((n₁ * 16 + n₂) * 16 + n₃) * 16 + n₄

namespace HexDigits

variable {n : Nat} {cs rest : List Char}

theorem spells (h : HexDigits n cs rest) : Piece.Spells (.unit n) ('\\' :: 'u' :: cs) rest := by
  obtain ⟨d₁, d₂, d₃, d₄, n₁, n₂, n₃, n₄, rfl, h₁, h₂, h₃, h₄, rfl⟩ := h
  exact .unicode h₁ h₂ h₃ h₄

theorem of_spells (h : Piece.Spells (.unit n) cs rest) :
    ∃ ds, cs = '\\' :: 'u' :: ds ∧ HexDigits n ds rest := by
  cases h with
  | unicode h₁ h₂ h₃ h₄ => exact ⟨_, rfl, _, _, _, _, _, _, _, _, rfl, h₁, h₂, h₃, h₄, rfl⟩

theorem length (h : HexDigits n cs rest) : rest.length < cs.length := by
  obtain ⟨d₁, d₂, d₃, d₄, n₁, n₂, n₃, n₄, rfl, -⟩ := h
  simp only [List.length_cons]
  omega

theorem lt (h : HexDigits n cs rest) : n < 2 ^ 16 := by
  obtain ⟨d₁, d₂, d₃, d₄, n₁, n₂, n₃, n₄, -, h₁, h₂, h₃, h₄, rfl⟩ := h
  have hn₁ := (hexValue_some h₁).2
  have hn₂ := (hexValue_some h₂).2
  have hn₃ := (hexValue_some h₃).2
  have hn₄ := (hexValue_some h₄).2
  omega

end HexDigits

namespace Parser

variable {p p' : Parser} {c d : Char} {n : Nat} {cs rest : List Char}

theorem hexLoop_cons {count value : Nat} (h : p.Left (d :: cs)) (hDigit : hexValue d = some n)
    (hValue : value < 2 ^ 12) :
    hexLoop (count + 1) value p = hexLoop count (value * 16 + n) (p.advance 1) := by
  have hn := (hexValue_some hDigit).2
  have hShift : value <<< 4 < 2 ^ 16 := by
    rw [Nat.shiftLeft_eq]
    omega
  have hOr : (value <<< 4) % 2 ^ 16 ||| n = value * 16 + n := by
    rw [Nat.mod_eq_of_lt hShift, ← Nat.shiftLeft_add_eq_or_of_lt (i := 4) hn, Nat.shiftLeft_eq]
  rw [hexLoop, h.peek_cons]
  dsimp only
  rw [nibble_lead, hDigit]
  dsimp only
  rw [hOr]

theorem hexLoop_sound {count value : Nat} {Q : Nat × Parser → Prop} (h : p.Left cs)
    (hValue : value < 2 ^ 12) (hNext : ∀ d n rest, cs = d :: rest → hexValue d = some n →
      (p.advance 1).Left rest → Meets Reported Q (hexLoop count (value * 16 + n) (p.advance 1))) :
    Meets Reported Q (hexLoop (count + 1) value p) := by
  cases cs with
  | nil =>
    rw [hexLoop, h.peek_nil]
    exact p.reported_err _
  | cons d cs =>
    cases hDigit : hexValue d with
    | none =>
      rw [hexLoop, h.peek_cons]
      dsimp only
      rw [nibble_lead, hDigit]
      exact p.reported_err _
    | some n =>
      rw [hexLoop_cons h hDigit hValue]
      exact hNext d n cs rfl hDigit (h.advance (hexValue_some hDigit).1)

theorem hex4_sound (h : p.Left cs) :
    Meets Reported (fun r => ∃ rest, HexDigits r.1 cs rest ∧ r.2.Left rest) p.hex4 := by
  refine hexLoop_sound h (by omega) fun d₁ n₁ cs₁ hEq₁ h₁ hLeft₁ => ?_
  have hn₁ := (hexValue_some h₁).2
  refine hexLoop_sound hLeft₁ (by omega) fun d₂ n₂ cs₂ hEq₂ h₂ hLeft₂ => ?_
  have hn₂ := (hexValue_some h₂).2
  refine hexLoop_sound hLeft₂ (by omega) fun d₃ n₃ cs₃ hEq₃ h₃ hLeft₃ => ?_
  have hn₃ := (hexValue_some h₃).2
  refine hexLoop_sound hLeft₃ (by omega) fun d₄ n₄ cs₄ hEq₄ h₄ hLeft₄ => ?_
  subst hEq₁ hEq₂ hEq₃ hEq₄
  refine ⟨cs₄, ⟨d₁, d₂, d₃, d₄, n₁, n₂, n₃, n₄, rfl, h₁, h₂, h₃, h₄, ?_⟩, hLeft₄⟩
  change ((((0 * 16 + n₁) * 16 + n₂) * 16 + n₃) * 16 + n₄) = _
  rw [Nat.zero_mul, Nat.zero_add]

theorem hex4_complete (h : p.Left cs) (hHex : HexDigits n cs rest) :
    ∃ p', p.hex4 = .ok (n, p') ∧ p'.Left rest := by
  obtain ⟨d₁, d₂, d₃, d₄, n₁, n₂, n₃, n₄, rfl, h₁, h₂, h₃, h₄, rfl⟩ := hHex
  obtain ⟨ha₁, hn₁⟩ := hexValue_some h₁
  obtain ⟨ha₂, hn₂⟩ := hexValue_some h₂
  obtain ⟨ha₃, hn₃⟩ := hexValue_some h₃
  obtain ⟨ha₄, hn₄⟩ := hexValue_some h₄
  have hLeft₁ := h.advance ha₁
  have hLeft₂ := hLeft₁.advance ha₂
  have hLeft₃ := hLeft₂.advance ha₃
  refine ⟨_, ?_, hLeft₃.advance ha₄⟩
  rw [hex4, hexLoop_cons h h₁ (by omega), hexLoop_cons hLeft₁ h₂ (by omega),
    hexLoop_cons hLeft₂ h₃ (by omega), hexLoop_cons hLeft₃ h₄ (by omega), Nat.zero_mul, Nat.zero_add]
  rfl

end Parser

/-! ### Surrogates -/

theorem decodeUnits_unit {n : Nat} (hHigh : ¬isHigh n) (hLow : ¬isLow n) (ps : List Piece) :
    decodeUnits (.unit n :: ps) = (decodeUnits ps).map (Char.ofNat n :: ·) := by
  cases ps with
  | nil => simp [decodeUnits, hHigh, hLow]
  | cons p ps =>
    cases p with
    | char c => simp [decodeUnits, hHigh, hLow]
    | unit m => simp [decodeUnits, hHigh, hLow]

theorem decodeUnits_pair {n m : Nat} (hHigh : isHigh n) (hLow : isLow m) (ps : List Piece) :
    decodeUnits (.unit n :: .unit m :: ps) =
      (decodeUnits ps).map (Char.ofNat (0x10000 + (n - 0xD800) * 0x400 + (m - 0xDC00)) :: ·) := by
  simp [decodeUnits, hHigh, hLow]

/-- The pieces that denote characters are those whose surrogates are paired. -/
theorem decodeUnits_isSome_iff (ps : List Piece) : (decodeUnits ps).isSome ↔ PairedUnits ps := by
  constructor
  · fun_induction decodeUnits ps with
    | case1 => exact fun _ => .nil
    | case2 c ps ih => exact fun h => .char c (ih (by rwa [Option.isSome_map] at h))
    | case3 n m ps hHigh hLow ih =>
      exact fun h => .pair hHigh hLow (ih (by rwa [Option.isSome_map] at h))
    | case4 => exact fun h => absurd h (by simp)
    | case5 => exact fun h => absurd h (by simp)
    | case6 n m ps hHigh hLow ih =>
      exact fun h => .unit hHigh hLow (ih (by rwa [Option.isSome_map] at h))
    | case7 => exact fun h => absurd h (by simp)
    | case8 n ps _ hNeither ih =>
      exact fun h => .unit (fun hHigh => hNeither (.inl hHigh)) (fun hLow => hNeither (.inr hLow))
        (ih (by rwa [Option.isSome_map] at h))
  · intro h
    induction h with
    | nil => rfl
    | char c _ ih => rwa [decodeUnits, Option.isSome_map]
    | unit hHigh hLow _ ih => rwa [decodeUnits_unit hHigh hLow, Option.isSome_map]
    | pair hHigh hLow _ ih => rwa [decodeUnits_pair hHigh hLow, Option.isSome_map]

theorem fromU32_eq (n : Nat) : fromU32 n = if n.isValidChar then some (Char.ofNat n) else none := by
  by_cases hValid : n.isValidChar
  · rw [fromU32, dif_pos hValid, if_pos hValid, Char.ofNat, dif_pos hValid]
  · rw [fromU32, dif_neg hValid, if_neg hValid]

theorem fromU32_unit {n : Nat} (hBound : n < 2 ^ 16) :
    fromU32 n = if isHigh n ∨ isLow n then none else some (Char.ofNat n) := by
  rw [fromU32_eq]
  unfold Nat.isValidChar isHigh isLow
  split
  next hValid => rw [if_neg (by omega)]
  next hInvalid => rw [if_pos (by omega)]

theorem surrogatePair_eq (n m : Nat) :
    Parser.surrogatePair n m = 0x10000 + (n - 0xD800) * 0x400 + (m - 0xDC00) := by
  unfold Parser.surrogatePair
  omega

theorem fromU32_pair {n m : Nat} (hHigh : isHigh n) (hLow : isLow m) : ∃ c,
    fromU32 (Parser.surrogatePair n m) = some c ∧
      ∀ ps, decodeUnits (.unit n :: .unit m :: ps) = (decodeUnits ps).map (c :: ·) := by
  have hDecode := decodeUnits_pair hHigh hLow
  have hEq := surrogatePair_eq n m
  rw [← hEq] at hDecode
  have hValid : 0xDFFF < Parser.surrogatePair n m ∧ Parser.surrogatePair n m < 0x110000 := by
    unfold isHigh at hHigh
    unfold isLow at hLow
    omega
  generalize Parser.surrogatePair n m = scalar at hDecode hValid
  exact ⟨Char.ofNat scalar, by rw [fromU32_eq, if_pos (.inr hValid)], hDecode⟩

/-! ### Escapes -/

/-- Some pieces that denote one character are how a text starts. -/
structure Spelled (ps : List Piece) (c : Char) (cs rest : List Char) : Prop where
  body : ∀ {qs : List Piece} {fin : List Char}, StringBody qs rest fin → StringBody (ps ++ qs) cs fin
  decodes : ∀ qs, decodeUnits (ps ++ qs) = (decodeUnits qs).map (c :: ·)
  shorter : rest.length < cs.length

theorem Spelled.char {c : Char} {cs rest : List Char} (h : Piece.Spells (.char c) cs rest)
    (hShorter : rest.length < cs.length) : Spelled [.char c] c cs rest :=
  ⟨fun hBody => .cons h hBody, fun _ => rfl, hShorter⟩

namespace Parser

variable {p p' : Parser} {c letter : Char} {n m : Nat} {out : String} {cs mid rest : List Char}

/-- The character of an escape that is no surrogate. -/
theorem unicodeEscape_unit (h : p.Left cs) (hHex : HexDigits n cs rest) (hHigh : ¬isHigh n)
    (hLow : ¬isLow n) : ∃ p', p.unicodeEscape = .ok (Char.ofNat n, p') ∧ p'.Left rest := by
  obtain ⟨p', hOk, hLeft⟩ := hex4_complete h hHex
  refine ⟨p', ?_, hLeft⟩
  unfold unicodeEscape
  rw [hOk]
  change (if isHigh n then _ else _) = _
  rw [if_neg hHigh, fromU32_unit hHex.lt, if_neg (not_or.mpr ⟨hHigh, hLow⟩)]
  rfl

theorem unicodeEscape_pair (h : p.Left cs) (hFirst : HexDigits n cs ('\\' :: 'u' :: mid))
    (hSecond : HexDigits m mid rest) (hHigh : isHigh n) (hLow : isLow m) :
    ∃ c p', p.unicodeEscape = .ok (c, p') ∧
      (∀ ps, decodeUnits (.unit n :: .unit m :: ps) = (decodeUnits ps).map (c :: ·)) ∧
        p'.Left rest := by
  obtain ⟨p₁, hOk₁, hLeft₁⟩ := hex4_complete h hFirst
  have hLetter := hLeft₁.advance (by decide)
  obtain ⟨p₂, hOk₂, hLeft₂⟩ := hex4_complete (hLetter.advance (by decide)) hSecond
  obtain ⟨c, hc, hDecode⟩ := fromU32_pair hHigh hLow
  refine ⟨c, p₂, ?_, hDecode, hLeft₂⟩
  have hBackslash : p₁.peek = some '\\'.toUInt8 := (hLeft₁.peek_eq_iff (by decide)).mpr ⟨_, rfl⟩
  have hU : p₁.bytes[p₁.pos + 1]? = some 'u'.toUInt8 :=
    (hLetter.peek_eq_iff (by decide)).mpr ⟨_, rfl⟩
  unfold unicodeEscape
  rw [hOk₁]
  change (if isHigh n then _ else _) = _
  rw [if_pos hHigh, if_neg (by simp [hBackslash, hU]),
    show p₁.advance 2 = (p₁.advance 1).advance 1 from rfl, hOk₂]
  change (if isLow m then _ else _) = _
  rw [if_pos hLow, hc]
  rfl

theorem unicodeEscape_sound (h : p.Left cs) : Meets Reported (fun r => ∃ ps rest,
    Spelled ps r.1 ('\\' :: 'u' :: cs) rest ∧ r.2.Left rest) p.unicodeEscape := by
  refine (hex4_sound h).bind fun r₁ hr₁ => ?_
  obtain ⟨n, p₁⟩ := r₁
  obtain ⟨mid, hHex, hLeft⟩ := hr₁
  replace hHex : HexDigits n cs mid := hHex
  have hSpells := hHex.spells
  dsimp only
  split
  next hHigh =>
    split
    next => exact ⟨_, rfl⟩
    next hEscape =>
      have hBoth : ∃ mid', mid = '\\' :: 'u' :: mid' := by
        simp only [not_or, not_not] at hEscape
        obtain ⟨tail, rfl⟩ := (hLeft.peek_eq_iff (by decide)).mp hEscape.1
        obtain ⟨mid', rfl⟩ := ((hLeft.advance (by decide)).peek_eq_iff (by decide)).mp hEscape.2
        exact ⟨mid', rfl⟩
      obtain ⟨mid', rfl⟩ := hBoth
      refine (hex4_sound ((hLeft.advance (by decide)).advance (by decide))).bind fun r₂ hr₂ => ?_
      obtain ⟨m, p₂⟩ := r₂
      obtain ⟨rest, hSecond, hRest⟩ := hr₂
      replace hSecond : HexDigits m mid' rest := hSecond
      dsimp only
      split
      next hLow =>
        have hPair := fromU32_pair hHigh hLow
        -- The constants of the pair's scalar are kept from being unfolded.
        generalize surrogatePair n m = scalar at hPair ⊢
        obtain ⟨c, hc, hDecode⟩ := hPair
        rw [hc]
        refine ⟨[.unit n, .unit m], rest, ⟨fun hBody => .cons hSpells (.cons hSecond.spells hBody),
          hDecode, ?_⟩, hRest⟩
        have hFirst := hHex.length
        have hLength := hSecond.length
        simp only [List.length_cons] at hFirst ⊢
        omega
      next => exact ⟨_, rfl⟩
  next hHigh =>
    replace hHigh : ¬isHigh n := hHigh
    rw [fromU32_unit hHex.lt]
    by_cases hLow : isLow n
    · rw [if_pos (.inr hLow)]
      exact p₁.reported_err _
    · rw [if_neg (not_or.mpr ⟨hHigh, hLow⟩)]
      refine ⟨[.unit n], mid, ⟨fun hBody => .cons hSpells hBody,
        fun qs => decodeUnits_unit hHigh hLow qs, ?_⟩, hLeft⟩
      have hLength := hHex.length
      simp only [List.length_cons]
      omega

theorem simpleEscape_lead : simpleEscape (lead letter) = some c ↔ (letter, c) ∈ shortEscapes := by
  have h := fun a ha => lead_eq_iff (a := a) (c := letter) ha
  unfold simpleEscape shortEscapes
  simp only [h '"' (by decide), h '\\' (by decide), h '/' (by decide), h 'b' (by decide),
    h 'f' (by decide), h 'n' (by decide), h 'r' (by decide), h 't' (by decide), List.mem_cons,
    Prod.mk.injEq, List.not_mem_nil, or_false]
  grind

theorem shortEscapes_ascii (h : (letter, c) ∈ shortEscapes) : letter.toNat ≤ 0x7F := by
  have hAll : ∀ e ∈ shortEscapes, e.1.toNat ≤ 0x7F := by decide
  exact hAll _ h

/-- What one escape adds to the string. -/
theorem escape_sound (h : p.Left cs) : Meets Reported (fun r => ∃ ps c rest,
    Spelled ps c ('\\' :: cs) rest ∧ r.1 = out.push c ∧ r.2.Left rest) (p.escape out) := by
  unfold escape
  cases cs with
  | nil =>
    rw [h.peek_nil]
    exact p.reported_err _
  | cons letter cs =>
    rw [h.peek_cons]
    dsimp only
    cases hShort : simpleEscape (lead letter) with
    | some c =>
      have hMem := simpleEscape_lead.mp hShort
      have hAscii : letter.toNat ≤ 0x7F := shortEscapes_ascii hMem
      exact ⟨[.char c], c, cs, .char (.short hMem) (by simp only [List.length_cons]; omega), rfl, h.advance hAscii⟩
    | none =>
      dsimp only
      split
      next hU =>
        obtain rfl := (lead_eq_iff (by decide)).mp hU
        refine (unicodeEscape_sound (h.advance (by decide))).bind fun r hr => ?_
        obtain ⟨ps, rest, hSpelled, hLeft⟩ := hr
        exact ⟨ps, r.1, rest, hSpelled, rfl, hLeft⟩
      next => exact p.reported_err _

theorem escape_short (out : String) (h : p.Left (letter :: rest)) (hShort : (letter, c) ∈ shortEscapes) :
    ∃ p', p.escape out = .ok (out.push c, p') ∧ p'.Left rest := by
  unfold escape
  rw [h.peek_cons]
  dsimp only
  rw [simpleEscape_lead.mpr hShort]
  exact ⟨_, rfl, h.advance (shortEscapes_ascii hShort)⟩

theorem escape_unicode (h : p.Left ('u' :: cs))
    (hOk : (p.advance 1).unicodeEscape = .ok (c, p')) : p.escape out = .ok (out.push c, p') := by
  have hShort : simpleEscape (lead 'u') = none := by decide
  unfold escape
  rw [h.peek_cons]
  dsimp only
  rw [hShort]
  dsimp only
  rw [if_pos (by decide), hOk]
  rfl

/-! ### The loop -/

theorem stringLoop_quote {fuel : Nat} (h : p.Left ('"' :: rest)) :
    stringLoop (fuel + 1) out p = .ok (out, p.advance 1) := by
  rw [stringLoop, h.peek_cons]
  rfl

theorem stringLoop_escape {fuel : Nat} (h : p.Left ('\\' :: cs)) :
    stringLoop (fuel + 1) out p =
      ((p.advance 1).escape out >>= fun r => stringLoop fuel r.1 r.2) := by
  rw [stringLoop, h.peek_cons]
  rfl

theorem lead_control : lead c ≤ 0x1F ↔ c.toNat < 0x20 := by
  obtain ⟨bs, -, -, hCases⟩ := utf8EncodeChar_eq c
  rw [UInt8.le_iff_toNat_le, show (0x1F : UInt8).toNat = 31 from rfl]
  omega

theorem stringLoop_plain {fuel : Nat} (h : p.Left (c :: cs)) (hQuote : c ≠ '"')
    (hEscape : c ≠ '\\') (hControl : 0x20 ≤ c.toNat) :
    stringLoop (fuel + 1) out p =
      stringLoop fuel (out ++ String.ofList [c]) (p.advance (utf8Len (lead c))) := by
  have hScalar := h.advance_scalar
  have hHead : p.Left ([c] ++ cs) := h
  have hSlice := hHead.slice hScalar rfl
  rw [stringLoop, h.peek_cons]
  dsimp only
  rw [if_neg (mt (lead_eq_iff (by decide)).mp hQuote), if_neg (mt (lead_eq_iff (by decide)).mp hEscape),
    if_neg (by rw [lead_control]; omega), hSlice]
  dsimp only
  rw [fromUtf8_encodeUtf8]

theorem stringLoop_sound (fuel : Nat) (hLeft : p.Left cs) (hFuel : cs.length < fuel) :
    Meets Reported (fun r => ∃ ps s rest, StringBody ps cs rest ∧ decodeUnits ps = some s ∧
      r.1 = out ++ String.ofList s ∧ r.2.Left rest ∧ rest.length < cs.length)
      (stringLoop fuel out p) := by
  induction fuel generalizing out p cs with
  | zero => exact absurd hFuel (Nat.not_lt_zero _)
  | succ fuel ih =>
    cases cs with
    | nil =>
      rw [stringLoop, hLeft.peek_nil]
      exact p.reported_err _
    | cons c cs =>
      rw [List.length_cons] at hFuel
      by_cases hQuote : c = '"'
      · subst hQuote
        rw [stringLoop_quote hLeft]
        exact ⟨[], [], cs, .close cs, rfl, by simp, hLeft.advance (by decide), by simp⟩
      by_cases hEscape : c = '\\'
      · subst hEscape
        rw [stringLoop_escape hLeft]
        refine (escape_sound (hLeft.advance (by decide))).bind fun r hr => ?_
        obtain ⟨ps, c, mid, hSpelled, hOut, hMid⟩ := hr
        have hShorter := hSpelled.shorter
        rw [List.length_cons] at hShorter
        refine (ih hMid (by omega)).mono fun r' hr' => ?_
        obtain ⟨qs, s, rest, hBody, hDecode, hOut', hRest, hLength⟩ := hr'
        refine ⟨ps ++ qs, c :: s, rest, hSpelled.body hBody, ?_, ?_, hRest, ?_⟩
        · rw [hSpelled.decodes, hDecode]
          rfl
        · rw [hOut', hOut, ← String.toList_inj]
          simp
        · rw [List.length_cons]
          omega
      by_cases hControl : c.toNat < 0x20
      · rw [stringLoop, hLeft.peek_cons]
        dsimp only
        rw [if_neg (mt (lead_eq_iff (by decide)).mp hQuote),
          if_neg (mt (lead_eq_iff (by decide)).mp hEscape), if_pos (lead_control.mpr hControl)]
        exact p.reported_err _
      · rw [stringLoop_plain hLeft hQuote hEscape (by omega)]
        refine (ih hLeft.advance_scalar (by omega)).mono fun r hr => ?_
        obtain ⟨ps, s, rest, hBody, hDecode, hOut, hRest, hLength⟩ := hr
        refine ⟨.char c :: ps, c :: s, rest, .cons (.plain hQuote hEscape (by omega)) hBody, ?_, ?_,
          hRest, ?_⟩
        · rw [decodeUnits, hDecode]
          rfl
        · rw [hOut, ← String.toList_inj]
          simp
        · rw [List.length_cons]
          omega

/-- A fault that is not the parser's verdict on the text: a loop outran its bound. -/
def Outran (f : Fault) : Prop := f = .spent

theorem stringLoop_turn {s : List Char} (fuel : Nat) (h : p.Left ('\\' :: cs))
    (hEscape : (p.advance 1).escape out = .ok (out.push c, p'))
    (hRest : ∀ fuel, Meets Outran (fun r => r.1 = out.push c ++ String.ofList s ∧ r.2.Left rest)
      (stringLoop fuel (out.push c) p')) :
    Meets Outran (fun r => r.1 = out ++ String.ofList (c :: s) ∧ r.2.Left rest)
      (stringLoop fuel out p) := by
  cases fuel with
  | zero => exact .error rfl
  | succ fuel =>
    rw [stringLoop_escape h, hEscape]
    refine (hRest fuel).mono fun r hr => ⟨?_, hr.2⟩
    rw [hr.1, ← String.toList_inj]
    simp

/-- A string whose surrogates are paired is taken up to its closing quote. -/
theorem stringLoop_complete {ps : List Piece} {s : List Char} (fuel : Nat)
    (hBody : StringBody ps cs rest) (hDecode : decodeUnits ps = some s) (hLeft : p.Left cs) :
    Meets Outran (fun r => r.1 = out ++ String.ofList s ∧ r.2.Left rest)
      (stringLoop fuel out p) := by
  have hPaired : PairedUnits ps := (decodeUnits_isSome_iff ps).mp (by rw [hDecode]; rfl)
  induction hPaired generalizing cs s out p fuel with
  | nil =>
    cases hBody with
    | close =>
      obtain rfl := Option.some_inj.mp hDecode
      cases fuel with
      | zero => exact .error rfl
      | succ fuel =>
        rw [stringLoop_quote hLeft]
        exact ⟨by simp, hLeft.advance (by decide)⟩
  | @char c ps hPaired ih =>
    obtain ⟨s, hRest, rfl⟩ := Option.map_eq_some_iff.mp hDecode
    cases hBody with
    | cons hSpells hBody =>
      cases hSpells with
      | plain hQuote hEscape hControl =>
        cases fuel with
        | zero => exact .error rfl
        | succ fuel =>
          rw [stringLoop_plain hLeft hQuote hEscape hControl]
          refine (ih fuel hBody hRest hLeft.advance_scalar).mono fun r hr => ⟨?_, hr.2⟩
          rw [hr.1, ← String.toList_inj]
          simp
      | short hShort =>
        obtain ⟨p', hOk, hLeft'⟩ := escape_short out (hLeft.advance (by decide)) hShort
        exact stringLoop_turn fuel hLeft hOk fun fuel => ih fuel hBody hRest hLeft'
  | @unit n ps hHigh hLow hPaired ih =>
    rw [decodeUnits_unit hHigh hLow] at hDecode
    obtain ⟨s, hRest, rfl⟩ := Option.map_eq_some_iff.mp hDecode
    cases hBody with
    | cons hSpells hBody =>
      obtain ⟨ds, rfl, hHex⟩ := HexDigits.of_spells hSpells
      have hU := hLeft.advance (by decide)
      obtain ⟨p', hOk, hLeft'⟩ := unicodeEscape_unit (hU.advance (by decide)) hHex hHigh hLow
      exact stringLoop_turn fuel hLeft (escape_unicode hU hOk) fun fuel => ih fuel hBody hRest hLeft'
  | @pair n m ps hHigh hLow hPaired ih =>
    cases hBody with
    | cons hFirst hBody =>
      cases hBody with
      | cons hSecond hBody =>
        obtain ⟨ds, rfl, hHex⟩ := HexDigits.of_spells hFirst
        obtain ⟨ds', rfl, hHex'⟩ := HexDigits.of_spells hSecond
        have hU := hLeft.advance (by decide)
        obtain ⟨c, p', hOk, hPair, hLeft'⟩ :=
          unicodeEscape_pair (hU.advance (by decide)) hHex hHex' hHigh hLow
        rw [hPair] at hDecode
        obtain ⟨s, hRest, rfl⟩ := Option.map_eq_some_iff.mp hDecode
        exact stringLoop_turn fuel hLeft (escape_unicode hU hOk) fun fuel =>
          ih fuel hBody hRest hLeft'

/-! ### A string -/

theorem Left.length_le (h : p.Left cs) : cs.length ≤ p.bytes.length := by
  have hBytes : ∀ cs : List Char, cs.length ≤ (encodeUtf8 cs).length := by
    intro cs
    induction cs with
    | nil => exact Nat.le_refl _
    | cons c cs ih =>
      obtain ⟨bs, hEq, -⟩ := utf8EncodeChar_eq c
      rw [encodeUtf8_cons, hEq, List.length_append, List.length_cons, List.length_cons]
      omega
  have hLength := congrArg List.length h.drop
  have hText := hBytes cs
  rw [List.length_drop] at hLength
  omega

theorem string_sound (h : p.Left ('"' :: cs)) : Meets Reported (fun r => ∃ ps rest,
    StringBody ps cs rest ∧ decodeString ps = some r.1 ∧ r.2.Left rest ∧ rest.length < cs.length)
      p.string := by
  have hLength := h.length_le
  rw [List.length_cons] at hLength
  refine (stringLoop_sound _ (h.advance (by decide)) (by omega)).mono fun r hr => ?_
  obtain ⟨ps, s, rest, hBody, hDecode, hOut, hLeft, hShorter⟩ := hr
  refine ⟨ps, rest, hBody, ?_, hLeft, hShorter⟩
  rw [decodeString, hDecode, hOut]
  simp

theorem string_complete {ps : List Piece} {s : String} (h : p.Left ('"' :: cs))
    (hBody : StringBody ps cs rest) (hDecode : decodeString ps = some s) :
    Meets Outran (fun r => r.1 = s ∧ r.2.Left rest) p.string := by
  obtain ⟨s, hUnits, rfl⟩ := Option.map_eq_some_iff.mp hDecode
  refine (stringLoop_complete _ hBody hUnits (h.advance (by decide))).mono fun r hr => ⟨?_, hr.2⟩
  rw [hr.1]
  simp

end Parser

end Json

end CrdtSync
