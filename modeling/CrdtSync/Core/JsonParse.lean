import CrdtSync.Core.JsonString
import Mathlib.Data.List.Nodup
import Mathlib.Data.Option.Basic

/-!
# The parser reads the grammar

What the parser accepts is a text of the grammar whose tree nests no deeper than the bound,
repeats no key and pairs its surrogates, and it answers what the tree denotes; every such
text is accepted. The recursion is bounded by a count, so the first half is proved where the
count covers what is left of the text, and the second for any count, where the one other end
of a run is that the count was spent.
-/

namespace CrdtSync

namespace Json

open CrdtSync.Json.Parser

/-! ### Whitespace -/

theorem isWs_iff {c : Char} : isWs c = true ↔ c = ' ' ∨ c = '\t' ∨ c = '\n' ∨ c = '\r' := by
  simp [isWs, or_assoc]

/-- A text that starts with no whitespace. -/
def Firm (cs : List Char) : Prop := ∀ c ∈ cs.head?, isWs c = false

theorem Firm.dropWhile {cs : List Char} (h : Firm cs) : cs.dropWhile isWs = cs := by
  cases cs with
  | nil => rfl
  | cons c cs => simp [h c rfl]

theorem ws_dropWhile (cs : List Char) : Ws cs (cs.dropWhile isWs) := by
  induction cs with
  | nil => exact .nil []
  | cons c cs ih =>
    rw [List.dropWhile_cons]
    split
    next hc => exact .cons (isWs_iff.mp hc) ih
    next => exact .nil _

namespace Ws

variable {cs mid rest : List Char}

theorem dropWhile_eq (h : Ws cs rest) : cs.dropWhile isWs = rest.dropWhile isWs := by
  induction h with
  | nil => rfl
  | cons hSpace _ ih => rw [List.dropWhile_cons, if_pos (isWs_iff.mpr hSpace), ih]

theorem trans (h : Ws cs mid) (h' : Ws mid rest) : Ws cs rest := by
  induction h with
  | nil => exact h'
  | cons hSpace _ ih => exact .cons hSpace (ih h')

theorem length_le (h : Ws cs rest) : rest.length ≤ cs.length := by
  induction h with
  | nil => exact Nat.le_refl _
  | cons _ _ ih => exact Nat.le_succ_of_le ih

/-- Whitespace is not part of a number. -/
theorem stops (h : Ws cs rest) (hStops : Stops rest) : Stops cs := by
  cases h with
  | nil => exact hStops
  | cons hSpace =>
    intro c hc
    obtain rfl := Option.some_inj.mp hc
    obtain rfl | rfl | rfl | rfl := hSpace <;> decide

end Ws

theorem stops_closing {d : Char} {cs : List Char} (h : d ∈ [',', ']', '}']) : Stops (d :: cs) := by
  intro c hc
  obtain rfl := Option.some_inj.mp hc
  have hAll : ∀ d ∈ [',', ']', '}'], d.isDigit = false ∧ d ≠ '.' ∧ d ≠ 'e' ∧ d ≠ 'E' := by simp
  exact hAll _ h

/-- The parser past whitespace stands at what the whitespace leaves. -/
theorem Parser.Left.past_ws {p : Parser} {cs rest : List Char} (h : p.Left cs) (hWs : Ws cs rest)
    (hFirm : Firm rest) : p.skipWs.Left rest := by
  have hSkip := h.skipWs
  rwa [hWs.dropWhile_eq, hFirm.dropWhile] at hSkip

/-! ### The front of a value -/

theorem Number.text_cons (n : Number) : ∃ c cs, n.text = c :: cs ∧ (c = '-' ∨ c.isDigit = true) := by
  obtain ⟨⟨hNonempty, hDigits⟩, -⟩ := n.int_wf
  cases hMinus : n.minus with
  | true => exact ⟨'-', _, by rw [text, hMinus]; rfl, .inl rfl⟩
  | false =>
    cases hInt : n.int with
    | nil => exact absurd hInt hNonempty
    | cons d ds =>
      refine ⟨d, _, by rw [text, hMinus, hInt]; rfl, .inr (hDigits d ?_)⟩
      rw [hInt]
      exact List.mem_cons_self

/-- The characters a value starts with. -/
def opens (c : Char) : Bool :=
  c = 'n' || c = 't' || c = 'f' || c = '"' || c = '[' || c = '{' || c = '-' || c.isDigit

theorem opens_firm {c : Char} (h : opens c = true) : isWs c = false ∧ c ≠ ']' ∧ c ≠ '}' := by
  cases hDigit : c.isDigit with
  | false =>
    simp only [opens, hDigit, Bool.or_false, Bool.or_eq_true, decide_eq_true_eq] at h
    obtain ((((((rfl | rfl) | rfl) | rfl) | rfl) | rfl) | rfl) := h <;> decide
  | true =>
    refine ⟨?_, ?_, ?_⟩
    · cases hWs : isWs c with
      | false => rfl
      | true =>
        obtain rfl | rfl | rfl | rfl := isWs_iff.mp hWs <;> exact absurd hDigit (by decide)
    · rintro rfl
      exact absurd hDigit (by decide)
    · rintro rfl
      exact absurd hDigit (by decide)

theorem value_opens {t : Syntax} {cs rest : List Char} (h : Value t cs rest) :
    ∃ c tail, cs = c :: tail ∧ opens c = true := by
  cases h with
  | number n =>
    obtain ⟨c, tail, hText, hHead⟩ := n.text_cons
    refine ⟨c, tail ++ rest, by rw [hText]; rfl, ?_⟩
    obtain rfl | hDigit := hHead
    · decide
    · simp [opens, hDigit]
  | _ => exact ⟨_, _, rfl, by decide⟩

theorem value_firm {t : Syntax} {cs rest : List Char} (h : Value t cs rest) : Firm cs := by
  obtain ⟨c, tail, rfl, hOpens⟩ := value_opens h
  intro d hd
  obtain rfl := Option.some_inj.mp hd
  exact (opens_firm hOpens).1

/-! ### Literals -/

theorem isPrefixOf_encodeUtf8 {ds : List Char} (hAscii : ∀ d ∈ ds, d.toNat ≤ 0x7F) (cs : List Char) :
    (encodeUtf8 ds).isPrefixOf (encodeUtf8 cs) = ds.isPrefixOf cs := by
  induction ds generalizing cs with
  | nil => simp [encodeUtf8]
  | cons d ds ih =>
    obtain ⟨bs, hEq, -, hCases⟩ := utf8EncodeChar_eq d
    have hd := hAscii d List.mem_cons_self
    obtain ⟨-, -, rfl⟩ | ⟨hHigh, -⟩ := hCases
    · cases cs with
      | nil =>
        rw [encodeUtf8_cons, hEq]
        rfl
      | cons c cs =>
        obtain ⟨bs', hEq', -, hCases'⟩ := utf8EncodeChar_eq c
        have hLead : (lead d == lead c) = (d == c) := by
          rw [Bool.eq_iff_iff, beq_iff_eq, beq_iff_eq]
          have hSame := lead_eq_iff (c := c) hd
          have hSelf := (lead_eq_iff (c := d) hd).mpr rfl
          rw [hSelf, eq_comm, hSame, eq_comm]
        rw [encodeUtf8_cons, encodeUtf8_cons, hEq, hEq']
        change (lead d == lead c && (encodeUtf8 ds).isPrefixOf (bs' ++ encodeUtf8 cs)) = _
        rw [hLead, List.isPrefixOf_cons_cons]
        cases hSame : d == c with
        | false => rfl
        | true =>
          obtain rfl := beq_iff_eq.mp hSame
          obtain ⟨-, -, rfl⟩ | ⟨hHigh, -⟩ := hCases'
          · rw [Bool.true_and, Bool.true_and, List.nil_append]
            exact ih (fun e he => hAscii e (List.mem_cons_of_mem _ he)) cs
          · omega
    · omega

theorem Parser.Left.literal {p : Parser} {cs : List Char} (h : p.Left cs) (ds : List Char)
    (hAscii : ∀ d ∈ ds, d.toNat ≤ 0x7F) (value : Json) :
    p.literal (encodeUtf8 ds) value =
      if ds.isPrefixOf cs then .ok (value, p.advance (encodeUtf8 ds).length)
      else .error (p.err .unexpected) := by
  have hBound := h.bound
  unfold Parser.literal
  rw [if_neg (by omega), h.drop, isPrefixOf_encodeUtf8 hAscii]

theorem literal_sound {p : Parser} {cs : List Char} {Q : Json × Parser → Prop} (h : p.Left cs)
    (ds : List Char) (hAscii : ∀ d ∈ ds, d.toNat ≤ 0x7F) (value : Json)
    (hQ : ∀ rest p', cs = ds ++ rest → p'.Left rest → Q (value, p')) :
    Meets Reported Q (p.literal (encodeUtf8 ds) value) := by
  rw [h.literal ds hAscii]
  split
  next hPrefix =>
    obtain ⟨rest, rfl⟩ := List.isPrefixOf_iff_prefix.mp hPrefix
    exact hQ rest _ rfl h.advance_append
  next => exact p.reported_err _

theorem literal_complete {p : Parser} {ds rest : List Char} (h : p.Left (ds ++ rest))
    (hAscii : ∀ d ∈ ds, d.toNat ≤ 0x7F) (value : Json) :
    ∃ p', p.literal (encodeUtf8 ds) value = .ok (value, p') ∧ p'.Left rest := by
  rw [h.literal ds hAscii, if_pos (List.isPrefixOf_iff_prefix.mpr ⟨rest, rfl⟩)]
  exact ⟨_, rfl, h.advance_append⟩

/-! ### What a tree is read as -/

/-- A tree at a depth that the parser accepts, and what it answers. -/
structure Reads (t : Syntax) (depth : Nat) (v : Json) : Prop where
  shallow : depth + t.nesting ≤ MAX_DEPTH
  unique : t.UniqueKeys
  denotes : t.denote = some v

structure ReadsItems (ts : List Syntax) (depth : Nat) (vs : List Json) : Prop where
  shallow : depth + Syntax.nestingItems ts ≤ MAX_DEPTH
  unique : Syntax.UniqueKeysItems ts
  denotes : Syntax.denoteItems ts = some vs

structure ReadsMembers (ms : List (List Piece × Syntax)) (depth : Nat)
    (kvs : List (String × Json)) : Prop where
  shallow : depth + Syntax.nestingMembers ms ≤ MAX_DEPTH
  unique : Syntax.UniqueKeysMembers ms
  denotes : Syntax.denoteMembers ms = some kvs

theorem ReadsItems.nil {depth : Nat} (h : depth ≤ MAX_DEPTH) : ReadsItems [] depth [] :=
  ⟨h, True.intro, rfl⟩

theorem readsItems_cons {t : Syntax} {ts : List Syntax} {depth : Nat} {vs : List Json} :
    ReadsItems (t :: ts) depth vs ↔
      ∃ v vs', vs = v :: vs' ∧ Reads t depth v ∧ ReadsItems ts depth vs' := by
  constructor
  · rintro ⟨hShallow, ⟨hUnique, hUniques⟩, hDenotes⟩
    rw [Syntax.denoteItems] at hDenotes
    obtain ⟨v, hv, hRest⟩ := Option.bind_eq_some_iff.mp hDenotes
    obtain ⟨vs', hvs, rfl⟩ := Option.map_eq_some_iff.mp hRest
    rw [Syntax.nestingItems] at hShallow
    exact ⟨v, vs', rfl, ⟨by omega, hUnique, hv⟩, ⟨by omega, hUniques, hvs⟩⟩
  · rintro ⟨v, vs', rfl, hReads, hItems⟩
    refine ⟨?_, ⟨hReads.unique, hItems.unique⟩, ?_⟩
    · have hHead := hReads.shallow
      have hTail := hItems.shallow
      rw [Syntax.nestingItems]
      omega
    · rw [Syntax.denoteItems, hReads.denotes, hItems.denotes]
      rfl

theorem ReadsMembers.nil {depth : Nat} (h : depth ≤ MAX_DEPTH) : ReadsMembers [] depth [] :=
  ⟨h, True.intro, rfl⟩

theorem readsMembers_cons {key : List Piece} {t : Syntax} {ms : List (List Piece × Syntax)}
    {depth : Nat} {kvs : List (String × Json)} :
    ReadsMembers ((key, t) :: ms) depth kvs ↔ ∃ k v kvs', kvs = (k, v) :: kvs' ∧
      decodeString key = some k ∧ Reads t depth v ∧ ReadsMembers ms depth kvs' := by
  constructor
  · rintro ⟨hShallow, ⟨hUnique, hUniques⟩, hDenotes⟩
    rw [Syntax.denoteMembers] at hDenotes
    obtain ⟨k, hk, hRest⟩ := Option.bind_eq_some_iff.mp hDenotes
    obtain ⟨v, hv, hRest⟩ := Option.bind_eq_some_iff.mp hRest
    obtain ⟨kvs', hkvs, rfl⟩ := Option.map_eq_some_iff.mp hRest
    rw [Syntax.nestingMembers] at hShallow
    exact ⟨k, v, kvs', rfl, hk, ⟨by omega, hUnique, hv⟩, ⟨by omega, hUniques, hkvs⟩⟩
  · rintro ⟨k, v, kvs', rfl, hk, hReads, hMembers⟩
    refine ⟨?_, ⟨hReads.unique, hMembers.unique⟩, ?_⟩
    · have hHead := hReads.shallow
      have hTail := hMembers.shallow
      rw [Syntax.nestingMembers]
      omega
    · rw [Syntax.denoteMembers, hk, hReads.denotes, hMembers.denotes]
      rfl

/-- The keys of an object are those of what it denotes. -/
theorem ReadsMembers.keys {ms : List (List Piece × Syntax)} {depth : Nat}
    {kvs : List (String × Json)} (h : ReadsMembers ms depth kvs) :
    ms.map (fun m => decodeString m.1) = (kvs.map Prod.fst).map some := by
  induction ms generalizing kvs with
  | nil =>
    obtain rfl : kvs = [] := (Option.some_inj.mp h.denotes).symm
    rfl
  | cons m ms ih =>
    obtain ⟨key, t⟩ := m
    obtain ⟨k, v, kvs', rfl, hk, -, hRest⟩ := readsMembers_cons.mp h
    rw [List.map_cons, List.map_cons, List.map_cons, ih hRest, hk]

theorem reads_array {ts : List Syntax} {depth : Nat} {v : Json} :
    Reads (.array ts) depth v ↔ ∃ vs, v = .array vs ∧ ReadsItems ts (depth + 1) vs := by
  constructor
  · rintro ⟨hShallow, hUnique, hDenotes⟩
    rw [Syntax.denote] at hDenotes
    obtain ⟨vs, hvs, rfl⟩ := Option.map_eq_some_iff.mp hDenotes
    rw [Syntax.nesting] at hShallow
    exact ⟨vs, rfl, by omega, hUnique, hvs⟩
  · rintro ⟨vs, rfl, hShallow, hUnique, hDenotes⟩
    refine ⟨?_, hUnique, ?_⟩
    · rw [Syntax.nesting]
      omega
    · rw [Syntax.denote, hDenotes]
      rfl

theorem reads_object {ms : List (List Piece × Syntax)} {depth : Nat} {v : Json} :
    Reads (.object ms) depth v ↔ ∃ kvs, v = .object kvs ∧ ReadsMembers ms (depth + 1) kvs ∧
      (kvs.map Prod.fst).Nodup := by
  constructor
  · rintro ⟨hShallow, ⟨hNodup, hUnique⟩, hDenotes⟩
    rw [Syntax.denote] at hDenotes
    obtain ⟨kvs, hkvs, rfl⟩ := Option.map_eq_some_iff.mp hDenotes
    rw [Syntax.nesting] at hShallow
    have hMembers : ReadsMembers ms (depth + 1) kvs := ⟨by omega, hUnique, hkvs⟩
    rw [hMembers.keys] at hNodup
    exact ⟨kvs, rfl, hMembers, List.Nodup.of_map some hNodup⟩
  · rintro ⟨kvs, rfl, hMembers, hNodup⟩
    refine ⟨?_, ⟨?_, hMembers.unique⟩, ?_⟩
    · have hShallow := hMembers.shallow
      rw [Syntax.nesting]
      omega
    · rw [hMembers.keys]
      exact hNodup.map (Option.some_injective _)
    · rw [Syntax.denote, hMembers.denotes]
      rfl

/-! ### What is accepted is in the grammar -/

/-- The parser's first byte is one of the grammar's characters. -/
theorem value_cons {fuel depth : Nat} {p : Parser} {c : Char} {cs : List Char}
    (h : p.Left (c :: cs)) : value (fuel + 1) depth p =
      if c = 'n' then p.literal (encodeUtf8 ['n', 'u', 'l', 'l']) .null
      else if c = 't' then p.literal (encodeUtf8 ['t', 'r', 'u', 'e']) (.bool true)
      else if c = 'f' then p.literal (encodeUtf8 ['f', 'a', 'l', 's', 'e']) (.bool false)
      else if c = '"' then p.string >>= fun r => .ok (.str r.1, r.2)
      else if c = '[' then
        if depth + 1 > MAX_DEPTH then .error (p.err .depthLimit)
        else if (p.advance 1).skipWs.peek = some ']'.toUInt8 then
          .ok (.array [], (p.advance 1).skipWs.advance 1)
        else arrayLoop fuel depth [] (p.advance 1).skipWs
      else if c = '{' then
        if depth + 1 > MAX_DEPTH then .error (p.err .depthLimit)
        else if (p.advance 1).skipWs.peek = some '}'.toUInt8 then
          .ok (.object [], (p.advance 1).skipWs.advance 1)
        else objectLoop fuel depth [] (p.advance 1).skipWs
      else if c = '-' ∨ c.isDigit then p.number
      else .error (p.err .unexpected) := by
  have hLead := fun a ha => lead_eq_iff (a := a) (c := c) ha
  rw [value, h.peek_cons]
  dsimp only
  simp only [hLead 'n' (by decide), hLead 't' (by decide), hLead 'f' (by decide),
    hLead '"' (by decide), hLead '[' (by decide), hLead '{' (by decide), hLead '-' (by decide),
    isDigit_lead]
  rfl

/-- Whitespace before the first element or member, or before the first closing bracket. -/
theorem elements_dropWhile {ts : List Syntax} {cs rest : List Char}
    (h : Elements ts (cs.dropWhile isWs) rest) : Elements ts cs rest := by
  cases h with
  | last hWs hValue hBack => exact .last ((ws_dropWhile cs).trans hWs) hValue hBack
  | cons hWs hValue hBack hRest => exact .cons ((ws_dropWhile cs).trans hWs) hValue hBack hRest

theorem members_dropWhile {ms : List (List Piece × Syntax)} {cs rest : List Char}
    (h : Members ms (cs.dropWhile isWs) rest) : Members ms cs rest := by
  cases h with
  | last hWs hKey hColon hFront hValue hBack =>
    exact .last ((ws_dropWhile cs).trans hWs) hKey hColon hFront hValue hBack
  | cons hWs hKey hColon hFront hValue hBack hRest =>
    exact .cons ((ws_dropWhile cs).trans hWs) hKey hColon hFront hValue hBack hRest

theorem length_dropWhile_le (cs : List Char) : (cs.dropWhile isWs).length ≤ cs.length :=
  (ws_dropWhile cs).length_le

/-- With this much fuel, what a value's text is read as is in the grammar. -/
def ValueSound (fuel : Nat) : Prop :=
  ∀ {depth : Nat} {p : Parser} {cs : List Char}, p.Left cs → depth ≤ MAX_DEPTH →
    2 * cs.length + 1 ≤ fuel → Meets Reported (fun r => ∃ t rest, Value t cs rest ∧
      Reads t depth r.1 ∧ r.2.Left rest ∧ rest.length < cs.length) (value fuel depth p)

def ItemsSound (fuel : Nat) : Prop :=
  ∀ {depth : Nat} {p : Parser} {cs : List Char} {items : List Json}, p.Left cs →
    depth + 1 ≤ MAX_DEPTH → 2 * cs.length + 2 ≤ fuel → Meets Reported (fun r => ∃ ts vs rest,
      Elements ts cs rest ∧ ReadsItems ts (depth + 1) vs ∧ r.1 = .array (items ++ vs) ∧
        r.2.Left rest ∧ rest.length < cs.length) (arrayLoop fuel depth items p)

def MembersSound (fuel : Nat) : Prop :=
  ∀ {depth : Nat} {p : Parser} {cs : List Char} {pairs : List (String × Json)}, p.Left cs →
    depth + 1 ≤ MAX_DEPTH → (pairs.map Prod.fst).Nodup → 2 * cs.length + 2 ≤ fuel →
      Meets Reported (fun r => ∃ ms kvs rest, Members ms cs rest ∧ ReadsMembers ms (depth + 1) kvs ∧
        ((pairs ++ kvs).map Prod.fst).Nodup ∧ r.1 = .object (pairs ++ kvs) ∧ r.2.Left rest ∧
          rest.length < cs.length) (objectLoop fuel depth pairs p)

theorem literal_value {depth : Nat} {p : Parser} {cs ds : List Char} {t : Syntax} {v : Json}
    (h : p.Left cs) (hAscii : ∀ d ∈ ds, d.toNat ≤ 0x7F) (hNonempty : ds ≠ [])
    (hValue : ∀ rest, Value t (ds ++ rest) rest) (hReads : Reads t depth v) :
    Meets Reported (fun r => ∃ t rest, Value t cs rest ∧ Reads t depth r.1 ∧ r.2.Left rest ∧
      rest.length < cs.length) (p.literal (encodeUtf8 ds) v) := by
  refine literal_sound h ds hAscii v fun rest p' hText hLeft => ?_
  subst hText
  refine ⟨t, rest, hValue rest, hReads, hLeft, ?_⟩
  have hLength := List.length_pos_iff.mpr hNonempty
  rw [List.length_append]
  omega

theorem valueSound_succ {fuel : Nat} (hItems : ItemsSound fuel) (hMembers : MembersSound fuel) :
    ValueSound (fuel + 1) := by
  intro depth p cs h hDepth hFuel
  cases cs with
  | nil =>
    rw [value, h.peek_nil]
    exact p.reported_err _
  | cons c cs =>
    rw [List.length_cons] at hFuel
    have hShorter := length_dropWhile_le cs
    rw [value_cons h]
    split
    next => exact literal_value h (by simp) (by decide) .null ⟨hDepth, True.intro, rfl⟩
    split
    next => exact literal_value h (by simp) (by decide) .true ⟨hDepth, True.intro, rfl⟩
    split
    next => exact literal_value h (by simp) (by decide) .false ⟨hDepth, True.intro, rfl⟩
    split
    next hQuote =>
      subst hQuote
      refine (string_sound h).bind fun r hr => ?_
      obtain ⟨ps, rest, hBody, hDecode, hLeft, hLength⟩ := hr
      refine ⟨.string ps, rest, .string hBody, ⟨hDepth, True.intro, ?_⟩, hLeft, ?_⟩
      · rw [Syntax.denote, hDecode]
        rfl
      · rw [List.length_cons]
        omega
    split
    next hBracket =>
      subst hBracket
      have hInside := (h.advance (by decide)).skipWs
      split
      next => exact p.reported_err _
      next hShallow =>
        split
        next hClose =>
          obtain ⟨rest, hEq⟩ := (hInside.peek_eq_iff (by decide)).mp hClose
          rw [hEq] at hInside
          have hWs : Ws cs (']' :: rest) := hEq ▸ ws_dropWhile cs
          refine ⟨.array [], rest, .emptyArray hWs, reads_array.mpr ⟨[], rfl, .nil (by omega)⟩,
            hInside.advance (by decide), ?_⟩
          have hLength := hWs.length_le
          simp only [List.length_cons] at hLength ⊢
          omega
        next =>
          refine (hItems hInside (by omega) (by omega)).mono fun r hr => ?_
          obtain ⟨ts, vs, rest, hElements, hReads, hValue, hLeft, hLength⟩ := hr
          refine ⟨.array ts, rest, .array (elements_dropWhile hElements),
            reads_array.mpr ⟨vs, hValue, hReads⟩, hLeft, ?_⟩
          rw [List.length_cons]
          omega
    split
    next hBrace =>
      subst hBrace
      have hInside := (h.advance (by decide)).skipWs
      split
      next => exact p.reported_err _
      next hShallow =>
        split
        next hClose =>
          obtain ⟨rest, hEq⟩ := (hInside.peek_eq_iff (by decide)).mp hClose
          rw [hEq] at hInside
          have hWs : Ws cs ('}' :: rest) := hEq ▸ ws_dropWhile cs
          refine ⟨.object [], rest, .emptyObject hWs,
            reads_object.mpr ⟨[], rfl, .nil (by omega), List.nodup_nil⟩,
            hInside.advance (by decide), ?_⟩
          have hLength := hWs.length_le
          simp only [List.length_cons] at hLength ⊢
          omega
        next =>
          have hLoop := @hMembers depth _ _ [] hInside (by omega) List.nodup_nil (by omega)
          refine hLoop.mono fun r hr => ?_
          obtain ⟨ms, kvs, rest, hMembers, hReads, hNodup, hValue, hLeft, hLength⟩ := hr
          refine ⟨.object ms, rest, .object (members_dropWhile hMembers),
            reads_object.mpr ⟨kvs, hValue, hReads, hNodup⟩, hLeft, ?_⟩
          rw [List.length_cons]
          omega
    split
    next =>
      refine (number_sound h).mono fun r hr => ?_
      obtain ⟨n, rest, hText, hValue, hLeft⟩ := hr
      refine ⟨.number n, rest, by rw [hText]; exact .number n rest,
        ⟨hDepth, True.intro, by rw [hValue]; rfl⟩, hLeft, ?_⟩
      obtain ⟨d, ds, hFront, -⟩ := n.text_cons
      rw [hText, hFront]
      simp only [List.length_append, List.length_cons]
      omega
    next => exact p.reported_err _

theorem itemsSound_succ {fuel : Nat} (hValue : ValueSound fuel) (hItems : ItemsSound fuel) :
    ItemsSound (fuel + 1) := by
  intro depth p cs items h hDepth hFuel
  rw [arrayLoop]
  have hShorter := length_dropWhile_le cs
  refine (hValue h.skipWs hDepth (by omega)).bind fun r hr => ?_
  obtain ⟨v, p₁⟩ := r
  obtain ⟨t, back, hFront, hReads, hLeft, hLength⟩ := hr
  have hAfter := Left.skipWs hLeft
  have hBack := ws_dropWhile back
  have hBackLength := hBack.length_le
  dsimp only
  split
  next hComma =>
    obtain ⟨next, hEq⟩ := (hAfter.peek_eq_iff (by decide)).mp hComma
    rw [hEq] at hAfter hBack hBackLength
    rw [List.length_cons] at hBackLength
    refine (hItems (hAfter.advance (by decide)) hDepth (by omega)).mono fun r hr => ?_
    obtain ⟨ts, vs, rest, hElements, hReadsItems, hAnswer, hLeft', hLength'⟩ := hr
    refine ⟨t :: ts, v :: vs, rest, .cons (ws_dropWhile cs) hFront hBack hElements,
      readsItems_cons.mpr ⟨v, vs, rfl, hReads, hReadsItems⟩, ?_, hLeft', by omega⟩
    rw [hAnswer, List.append_assoc]
    rfl
  split
  next hClose =>
    obtain ⟨rest, hEq⟩ := (hAfter.peek_eq_iff (by decide)).mp hClose
    rw [hEq] at hAfter hBack hBackLength
    rw [List.length_cons] at hBackLength
    exact ⟨[t], [v], rest, .last (ws_dropWhile cs) hFront hBack,
      readsItems_cons.mpr ⟨v, [], rfl, hReads, .nil hDepth⟩, rfl, hAfter.advance (by decide),
      by omega⟩
  next => exact reported_err _ _

theorem membersSound_succ {fuel : Nat} (hValue : ValueSound fuel) (hMembers : MembersSound fuel) :
    MembersSound (fuel + 1) := by
  intro depth p cs pairs h hDepth hNodup hFuel
  rw [objectLoop]
  have hSkipped := h.skipWs
  have hBefore := ws_dropWhile cs
  have hShorter := hBefore.length_le
  dsimp only
  split
  next => exact reported_err _ _
  next hQuote =>
    obtain ⟨quoted, hEq⟩ := (hSkipped.peek_eq_iff (by decide)).mp (not_not.mp hQuote)
    rw [hEq] at hSkipped hBefore hShorter
    rw [List.length_cons] at hShorter
    refine (string_sound hSkipped).bind fun r hr => ?_
    obtain ⟨key, p₁⟩ := r
    obtain ⟨ps, named, hBody, hDecode, hNamed, hLength⟩ := hr
    dsimp only
    split
    next => exact ⟨_, rfl⟩
    next hFresh =>
      have hAfterKey := Left.skipWs hNamed
      have hColonWs := ws_dropWhile named
      have hColonLength := hColonWs.length_le
      split
      next => exact reported_err _ _
      next hColon =>
        obtain ⟨colon, hEq⟩ := (hAfterKey.peek_eq_iff (by decide)).mp (not_not.mp hColon)
        rw [hEq] at hAfterKey hColonWs hColonLength
        rw [List.length_cons] at hColonLength
        have hFrontLength := length_dropWhile_le colon
        refine (hValue (hAfterKey.advance (by decide)).skipWs hDepth (by omega)).bind fun r hr => ?_
        obtain ⟨v, p₂⟩ := r
        obtain ⟨t, back, hFront, hReads, hLeft, hLength'⟩ := hr
        have hAfter := Left.skipWs hLeft
        have hBack := ws_dropWhile back
        have hBackLength := hBack.length_le
        have hKeys : ((pairs ++ [(key, v)]).map Prod.fst).Nodup := by
          rw [List.map_append]
          exact List.nodup_append'.mpr ⟨hNodup, List.nodup_singleton _,
            List.disjoint_singleton.mpr hFresh⟩
        dsimp only
        split
        next hComma =>
          obtain ⟨next, hEq⟩ := (hAfter.peek_eq_iff (by decide)).mp hComma
          rw [hEq] at hAfter hBack hBackLength
          rw [List.length_cons] at hBackLength
          refine (hMembers (hAfter.advance (by decide)) hDepth hKeys (by omega)).mono fun r hr => ?_
          obtain ⟨ms, kvs, rest, hRest, hReadsMembers, hAll, hAnswer, hLeft', hLength''⟩ := hr
          refine ⟨(ps, t) :: ms, (key, v) :: kvs, rest,
            .cons hBefore hBody hColonWs (ws_dropWhile colon) hFront hBack hRest,
            readsMembers_cons.mpr ⟨key, v, kvs, rfl, hDecode, hReads, hReadsMembers⟩, ?_, ?_, hLeft',
            by omega⟩
          · rwa [List.append_assoc] at hAll
          · rw [hAnswer, List.append_assoc]
            rfl
        split
        next hClose =>
          obtain ⟨rest, hEq⟩ := (hAfter.peek_eq_iff (by decide)).mp hClose
          rw [hEq] at hAfter hBack hBackLength
          rw [List.length_cons] at hBackLength
          exact ⟨[(ps, t)], [(key, v)], rest,
            .last hBefore hBody hColonWs (ws_dropWhile colon) hFront hBack,
            readsMembers_cons.mpr ⟨key, v, [], rfl, hDecode, hReads, .nil hDepth⟩, hKeys, rfl,
            hAfter.advance (by decide), by omega⟩
        next => exact reported_err _ _

/-- Whatever the fuel covers is read as the grammar reads it. -/
theorem sound (fuel : Nat) : ValueSound fuel ∧ ItemsSound fuel ∧ MembersSound fuel := by
  induction fuel with
  | zero =>
    refine ⟨fun _ _ hFuel => ?_, fun _ _ hFuel => ?_, fun _ _ _ hFuel => ?_⟩
    · exact absurd hFuel (by omega)
    · exact absurd hFuel (by omega)
    · exact absurd hFuel (by omega)
  | succ fuel ih =>
    obtain ⟨hValue, hItems, hMembers⟩ := ih
    exact ⟨valueSound_succ hItems hMembers, itemsSound_succ hValue hItems,
      membersSound_succ hValue hMembers⟩

/-! ### What is in the grammar is accepted -/

theorem firm_cons {d : Char} {cs : List Char} (h : isWs d = false) : Firm (d :: cs) := by
  intro c hc
  obtain rfl := Option.some_inj.mp hc
  exact h

theorem elements_inside {ts : List Syntax} {cs rest : List Char} (h : Elements ts cs rest) :
    Elements ts (cs.dropWhile isWs) rest ∧ (cs.dropWhile isWs).head? ≠ some ']' := by
  cases h with
  | last hWs hValue hBack =>
    obtain ⟨c, tail, rfl, hOpens⟩ := value_opens hValue
    rw [hWs.dropWhile_eq, (value_firm hValue).dropWhile]
    exact ⟨.last (.nil _) hValue hBack, fun h => (opens_firm hOpens).2.1 (Option.some_inj.mp h)⟩
  | cons hWs hValue hBack hRest =>
    obtain ⟨c, tail, rfl, hOpens⟩ := value_opens hValue
    rw [hWs.dropWhile_eq, (value_firm hValue).dropWhile]
    exact ⟨.cons (.nil _) hValue hBack hRest,
      fun h => (opens_firm hOpens).2.1 (Option.some_inj.mp h)⟩

theorem members_inside {ms : List (List Piece × Syntax)} {cs rest : List Char}
    (h : Members ms cs rest) :
    Members ms (cs.dropWhile isWs) rest ∧ (cs.dropWhile isWs).head? ≠ some '}' := by
  cases h with
  | last hWs hKey hColon hFront hValue hBack =>
    rw [hWs.dropWhile_eq, (firm_cons (by decide)).dropWhile]
    exact ⟨.last (.nil _) hKey hColon hFront hValue hBack, by simp⟩
  | cons hWs hKey hColon hFront hValue hBack hRest =>
    rw [hWs.dropWhile_eq, (firm_cons (by decide)).dropWhile]
    exact ⟨.cons (.nil _) hKey hColon hFront hValue hBack hRest, by simp⟩

theorem Parser.Left.peek_ne {p : Parser} {cs : List Char} {a : Char} (h : p.Left cs)
    (hAscii : a.toNat ≤ 0x7F) (hHead : cs.head? ≠ some a) : p.peek ≠ some a.toUInt8 := by
  intro hPeek
  obtain ⟨rest, rfl⟩ := (h.peek_eq_iff hAscii).mp hPeek
  exact hHead rfl

theorem Parser.Left.peek_eq {p : Parser} {cs : List Char} {a : Char} (h : p.Left (a :: cs))
    (hAscii : a.toNat ≤ 0x7F) : p.peek = some a.toUInt8 :=
  (h.peek_eq_iff hAscii).mpr ⟨cs, rfl⟩

/-- However much fuel there is, a value of the grammar is read, or the fuel is spent. -/
def ValueComplete (fuel : Nat) : Prop :=
  ∀ {depth : Nat} {t : Syntax} {v : Json} {p : Parser} {cs rest : List Char}, Value t cs rest →
    Reads t depth v → Stops rest → p.Left cs →
      Meets Outran (fun r => r.1 = v ∧ r.2.Left rest) (value fuel depth p)

def ItemsComplete (fuel : Nat) : Prop :=
  ∀ {depth : Nat} {ts : List Syntax} {vs items : List Json} {p : Parser} {cs rest : List Char},
    Elements ts cs rest → ReadsItems ts (depth + 1) vs → p.Left cs →
      Meets Outran (fun r => r.1 = .array (items ++ vs) ∧ r.2.Left rest)
        (arrayLoop fuel depth items p)

def MembersComplete (fuel : Nat) : Prop :=
  ∀ {depth : Nat} {ms : List (List Piece × Syntax)} {kvs pairs : List (String × Json)} {p : Parser}
    {cs rest : List Char}, Members ms cs rest → ReadsMembers ms (depth + 1) kvs →
      ((pairs ++ kvs).map Prod.fst).Nodup → p.Left cs →
        Meets Outran (fun r => r.1 = .object (pairs ++ kvs) ∧ r.2.Left rest)
          (objectLoop fuel depth pairs p)

theorem valueComplete_succ {fuel : Nat} (hItems : ItemsComplete fuel)
    (hMembers : MembersComplete fuel) : ValueComplete (fuel + 1) := by
  intro depth t v p cs rest hValue hReads hStops h
  cases hValue with
  | null =>
    obtain rfl := Option.some_inj.mp hReads.denotes
    have hText : p.Left (['n', 'u', 'l', 'l'] ++ rest) := h
    obtain ⟨p', hOk, hLeft⟩ := literal_complete hText (by simp) .null
    rw [value_cons h, if_pos rfl, hOk]
    exact ⟨rfl, hLeft⟩
  | true =>
    obtain rfl := Option.some_inj.mp hReads.denotes
    have hText : p.Left (['t', 'r', 'u', 'e'] ++ rest) := h
    obtain ⟨p', hOk, hLeft⟩ := literal_complete hText (by simp) (.bool true)
    rw [value_cons h, if_neg (by decide), if_pos rfl, hOk]
    exact ⟨rfl, hLeft⟩
  | false =>
    obtain rfl := Option.some_inj.mp hReads.denotes
    have hText : p.Left (['f', 'a', 'l', 's', 'e'] ++ rest) := h
    obtain ⟨p', hOk, hLeft⟩ := literal_complete hText (by simp) (.bool false)
    rw [value_cons h, if_neg (by decide), if_neg (by decide), if_pos rfl, hOk]
    exact ⟨rfl, hLeft⟩
  | number n =>
    obtain rfl := Option.some_inj.mp hReads.denotes
    obtain ⟨p', hOk, hLeft⟩ := number_complete h hStops
    obtain ⟨c, tail, hText, hHead⟩ := n.text_cons
    have hOther : ∀ d ∈ ['n', 't', 'f', '"', '[', '{'], c ≠ d := by
      rintro d hd rfl
      obtain rfl | hDigit := hHead
      · exact absurd hd (by decide)
      · have hAll : ∀ d ∈ ['n', 't', 'f', '"', '[', '{'], d.isDigit = false := by simp
        rw [hAll _ hd] at hDigit
        cases hDigit
    rw [hText] at h
    rw [value_cons h, if_neg (hOther 'n' (by decide)), if_neg (hOther 't' (by decide)),
      if_neg (hOther 'f' (by decide)), if_neg (hOther '"' (by decide)),
      if_neg (hOther '[' (by decide)), if_neg (hOther '{' (by decide)), if_pos hHead, hOk]
    exact ⟨rfl, hLeft⟩
  | @string ps cs _ hBody =>
    obtain ⟨s, hDecode, rfl⟩ := Option.map_eq_some_iff.mp hReads.denotes
    rw [value_cons h, if_neg (by decide), if_neg (by decide), if_neg (by decide), if_pos rfl]
    refine (string_complete h hBody hDecode).bind fun r hr => ?_
    exact ⟨by rw [hr.1], hr.2⟩
  | emptyArray hWs =>
    obtain ⟨vs, rfl, hRead⟩ := reads_array.mp hReads
    obtain rfl := Option.some_inj.mp hRead.denotes
    have hDepth := hRead.shallow
    have hInside := (h.advance (by decide)).past_ws hWs (firm_cons (by decide))
    rw [value_cons h, if_neg (by decide), if_neg (by decide), if_neg (by decide),
      if_neg (by decide), if_pos rfl, if_neg (by omega), if_pos (hInside.peek_eq (by decide))]
    exact ⟨rfl, hInside.advance (by decide)⟩
  | array hElements =>
    obtain ⟨vs, rfl, hRead⟩ := reads_array.mp hReads
    have hDepth := hRead.shallow
    obtain ⟨hInside, hHead⟩ := elements_inside hElements
    have hLeft := (h.advance (by decide)).skipWs
    rw [value_cons h, if_neg (by decide), if_neg (by decide), if_neg (by decide),
      if_neg (by decide), if_pos rfl, if_neg (by omega),
      if_neg (hLeft.peek_ne (by decide) hHead)]
    exact hItems hInside hRead hLeft
  | emptyObject hWs =>
    obtain ⟨kvs, rfl, hRead, -⟩ := reads_object.mp hReads
    obtain rfl := Option.some_inj.mp hRead.denotes
    have hDepth := hRead.shallow
    have hInside := (h.advance (by decide)).past_ws hWs (firm_cons (by decide))
    rw [value_cons h, if_neg (by decide), if_neg (by decide), if_neg (by decide),
      if_neg (by decide), if_neg (by decide), if_pos rfl, if_neg (by omega),
      if_pos (hInside.peek_eq (by decide))]
    exact ⟨rfl, hInside.advance (by decide)⟩
  | object hText =>
    obtain ⟨kvs, rfl, hRead, hNodup⟩ := reads_object.mp hReads
    have hDepth := hRead.shallow
    obtain ⟨hInside, hHead⟩ := members_inside hText
    have hLeft := (h.advance (by decide)).skipWs
    rw [value_cons h, if_neg (by decide), if_neg (by decide), if_neg (by decide),
      if_neg (by decide), if_neg (by decide), if_pos rfl, if_neg (by omega),
      if_neg (hLeft.peek_ne (by decide) hHead)]
    exact hMembers hInside hRead hNodup hLeft

theorem itemsComplete_succ {fuel : Nat} (hValue : ValueComplete fuel)
    (hItems : ItemsComplete fuel) : ItemsComplete (fuel + 1) := by
  intro depth ts vs items p cs rest hElements hReads h
  rw [arrayLoop]
  cases hElements with
  | last hWs hFront hBack =>
    obtain ⟨v, vs', rfl, hRead, hRest⟩ := readsItems_cons.mp hReads
    obtain rfl := Option.some_inj.mp hRest.denotes
    refine (hValue hFront hRead (hBack.stops (stops_closing (by decide)))
      (h.past_ws hWs (value_firm hFront))).bind fun r hr => ?_
    obtain ⟨v', p₁⟩ := r
    obtain ⟨rfl, hLeft⟩ := hr
    have hAfter := Left.past_ws hLeft hBack (firm_cons (by decide))
    dsimp only
    rw [if_neg (hAfter.peek_ne (by decide) (by simp)), if_pos (hAfter.peek_eq (by decide))]
    exact ⟨rfl, hAfter.advance (by decide)⟩
  | cons hWs hFront hBack hRest =>
    obtain ⟨v, vs', rfl, hRead, hReadsRest⟩ := readsItems_cons.mp hReads
    refine (hValue hFront hRead (hBack.stops (stops_closing (by decide)))
      (h.past_ws hWs (value_firm hFront))).bind fun r hr => ?_
    obtain ⟨v', p₁⟩ := r
    obtain ⟨rfl, hLeft⟩ := hr
    have hAfter := Left.past_ws hLeft hBack (firm_cons (by decide))
    dsimp only
    rw [if_pos (hAfter.peek_eq (by decide))]
    refine (hItems hRest hReadsRest (hAfter.advance (by decide))).mono fun r hr => ?_
    refine ⟨?_, hr.2⟩
    rw [hr.1, List.append_assoc]
    rfl

theorem member_complete {fuel depth : Nat} {key : List Piece} {t : Syntax} {k : String} {v : Json}
    {p : Parser} {cs quoted named colon front back : List Char} {pairs : List (String × Json)}
    {Q : Json × Parser → Prop} (hValue : ValueComplete fuel) (h : p.Left cs)
    (hWs : Ws cs ('"' :: quoted)) (hBody : StringBody key quoted named)
    (hColon : Ws named (':' :: colon)) (hFrontWs : Ws colon front) (hFront : Value t front back)
    (hStops : Stops back) (hDecode : decodeString key = some k) (hFresh : k ∉ pairs.map Prod.fst)
    (hRead : Reads t (depth + 1) v)
    (hNext : ∀ p' : Parser, p'.Left back → Meets Outran Q
      (if p'.skipWs.peek = some ','.toUInt8 then
        objectLoop fuel depth (pairs ++ [(k, v)]) (p'.skipWs.advance 1)
      else if p'.skipWs.peek = some '}'.toUInt8 then
        .ok (.object (pairs ++ [(k, v)]), p'.skipWs.advance 1)
      else .error p'.skipWs.unexpected)) :
    Meets Outran Q (objectLoop (fuel + 1) depth pairs p) := by
  rw [objectLoop]
  have hSkipped := h.past_ws hWs (firm_cons (by decide))
  dsimp only
  rw [if_neg (not_not.mpr (hSkipped.peek_eq (by decide)))]
  refine (string_complete hSkipped hBody hDecode).bind fun r hr => ?_
  obtain ⟨k', p₁⟩ := r
  obtain ⟨rfl, hNamed⟩ := hr
  have hAfterKey := Left.past_ws hNamed hColon (firm_cons (by decide))
  dsimp only
  rw [if_neg hFresh, if_neg (not_not.mpr (hAfterKey.peek_eq (by decide)))]
  refine (hValue hFront hRead hStops ((hAfterKey.advance (by decide)).past_ws hFrontWs
    (value_firm hFront))).bind fun r hr => ?_
  obtain ⟨v', p₂⟩ := r
  obtain ⟨rfl, hLeft⟩ := hr
  exact hNext p₂ hLeft

theorem membersComplete_succ {fuel : Nat} (hValue : ValueComplete fuel)
    (hMembers : MembersComplete fuel) : MembersComplete (fuel + 1) := by
  intro depth ms kvs pairs p cs rest hText hReads hNodup h
  have hFresh : ∀ {k v kvs'}, kvs = (k, v) :: kvs' → k ∉ pairs.map Prod.fst := by
    rintro k v kvs' rfl hMem
    rw [List.map_append, List.map_cons] at hNodup
    exact List.disjoint_of_nodup_append hNodup hMem List.mem_cons_self
  cases hText with
  | last hWs hBody hColon hFrontWs hFront hBack =>
    obtain ⟨k, v, kvs', rfl, hDecode, hRead, hRest⟩ := readsMembers_cons.mp hReads
    obtain rfl := Option.some_inj.mp hRest.denotes
    refine member_complete hValue h hWs hBody hColon hFrontWs hFront
      (hBack.stops (stops_closing (by decide))) hDecode (hFresh rfl) hRead fun p' hLeft => ?_
    have hAfter := hLeft.past_ws hBack (firm_cons (by decide))
    rw [if_neg (hAfter.peek_ne (by decide) (by simp)), if_pos (hAfter.peek_eq (by decide))]
    exact ⟨rfl, hAfter.advance (by decide)⟩
  | cons hWs hBody hColon hFrontWs hFront hBack hRestText =>
    obtain ⟨k, v, kvs', rfl, hDecode, hRead, hRest⟩ := readsMembers_cons.mp hReads
    refine member_complete hValue h hWs hBody hColon hFrontWs hFront
      (hBack.stops (stops_closing (by decide))) hDecode (hFresh rfl) hRead fun p' hLeft => ?_
    have hAfter := hLeft.past_ws hBack (firm_cons (by decide))
    rw [if_pos (hAfter.peek_eq (by decide))]
    have hKeys : ((pairs ++ [(k, v)] ++ kvs').map Prod.fst).Nodup := by
      rwa [List.append_assoc]
    refine (hMembers hRestText hRest hKeys (hAfter.advance (by decide))).mono fun r hr => ?_
    refine ⟨?_, hr.2⟩
    rw [hr.1, List.append_assoc]
    rfl

theorem complete (fuel : Nat) :
    ValueComplete fuel ∧ ItemsComplete fuel ∧ MembersComplete fuel := by
  induction fuel with
  | zero =>
    refine ⟨fun _ _ _ _ => ?_, fun _ _ _ => ?_, fun _ _ _ _ => ?_⟩
    · exact .error rfl
    · exact .error rfl
    · exact .error rfl
  | succ fuel ih =>
    obtain ⟨hValue, hItems, hMembers⟩ := ih
    exact ⟨valueComplete_succ hItems hMembers, itemsComplete_succ hValue hItems,
      membersComplete_succ hValue hMembers⟩

/-! ### A whole text -/

theorem decodeString_isSome_iff (ps : List Piece) : (decodeString ps).isSome ↔ PairedUnits ps := by
  rw [decodeString, Option.isSome_map]
  exact decodeUnits_isSome_iff ps

mutual

/-- The trees that denote a value are those whose surrogates are paired. -/
theorem denote_isSome_iff : ∀ t : Syntax, t.denote.isSome ↔ t.Paired
  | .null => by simp [Syntax.denote, Syntax.Paired]
  | .bool _ => by simp [Syntax.denote, Syntax.Paired]
  | .number _ => by simp [Syntax.denote, Syntax.Paired]
  | .string ps => by
    rw [Syntax.denote, Option.isSome_map]
    exact decodeString_isSome_iff ps
  | .array items => by
    rw [Syntax.denote, Option.isSome_map]
    exact denoteItems_isSome_iff items
  | .object members => by
    rw [Syntax.denote, Option.isSome_map]
    exact denoteMembers_isSome_iff members

theorem denoteItems_isSome_iff : ∀ ts : List Syntax,
    (Syntax.denoteItems ts).isSome ↔ Syntax.PairedItems ts
  | [] => by simp [Syntax.denoteItems, Syntax.PairedItems]
  | t :: ts => by
    rw [Syntax.PairedItems, ← denote_isSome_iff t, ← denoteItems_isSome_iff ts, Syntax.denoteItems]
    cases t.denote <;> simp

theorem denoteMembers_isSome_iff : ∀ ms : List (List Piece × Syntax),
    (Syntax.denoteMembers ms).isSome ↔ Syntax.PairedMembers ms
  | [] => by simp [Syntax.denoteMembers, Syntax.PairedMembers]
  | (key, t) :: ms => by
    rw [Syntax.PairedMembers, ← decodeString_isSome_iff key, ← denote_isSome_iff t,
      ← denoteMembers_isSome_iff ms, Syntax.denoteMembers]
    cases decodeString key <;> cases t.denote <;> simp

end

theorem Parser.Left.start (input : String) : (Parser.mk (asBytes input) 0).Left input.toList :=
  ⟨Nat.zero_le _, rfl⟩

theorem Parser.Left.at_end {p : Parser} {cs : List Char} (h : p.Left cs) :
    p.pos = p.bytes.length ↔ cs = [] := by
  have hLength := congrArg List.length h.drop
  have hBound := h.bound
  rw [List.length_drop] at hLength
  constructor
  · intro hEnd
    cases cs with
    | nil => rfl
    | cons c cs =>
      obtain ⟨bs, hEq, -⟩ := utf8EncodeChar_eq c
      rw [encodeUtf8_cons, hEq, List.length_append, List.length_cons] at hLength
      omega
  · rintro rfl
    change _ = 0 at hLength
    omega

/-- The parser accepts exactly the texts of the grammar that nest no deeper than the bound, whose
surrogates are paired and whose objects repeat no key, each as what it denotes, and answers every
other text with an error. -/
theorem parse_exact (input : String) :
    (∀ v, parse input = .ok v ↔ ∃ t : Syntax, t.IsText input.toList ∧ t.nesting ≤ MAX_DEPTH ∧
      t.Paired ∧ t.UniqueKeys ∧ t.denote = some v) ∧
      ((∃ v, parse input = .ok v) ∨ ∃ e, parse input = .error (.error e)) := by
  have hStart := (Left.start input).skipWs
  have hFuel := hStart.length_le
  have hSound : Meets Reported (fun v => ∃ t : Syntax, t.IsText input.toList ∧ Reads t 0 v)
      (parse input) := by
    refine ((sound _).1 hStart (Nat.zero_le _) (by omega)).bind fun r hr => ?_
    obtain ⟨v, p⟩ := r
    obtain ⟨t, back, hText, hReads, hLeft, -⟩ := hr
    have hAfter := Left.skipWs hLeft
    dsimp only
    split
    next => exact reported_err _ _
    next hEnd =>
      have hBack := ws_dropWhile back
      rw [hAfter.at_end.mp (not_not.mp hEnd)] at hBack
      exact ⟨t, ⟨_, back, ws_dropWhile _, hText, hBack⟩, hReads⟩
  have hComplete : ∀ {t : Syntax} {v : Json}, t.IsText input.toList → Reads t 0 v →
      Meets Outran (fun v' => v' = v) (parse input) := by
    rintro t v ⟨front, back, hFront, hText, hBack⟩ hReads
    have hLeft := (Left.start input).past_ws hFront (value_firm hText)
    have hStops : Stops back := hBack.stops (by simp [Stops])
    refine ((complete _).1 hText hReads hStops hLeft).bind fun r hr => ?_
    obtain ⟨v', p⟩ := r
    obtain ⟨rfl, hRest⟩ := hr
    have hAfter := Left.past_ws hRest hBack (by simp [Firm])
    dsimp only
    rw [if_neg (not_not.mpr (hAfter.at_end.mpr rfl))]
    exact rfl
  refine ⟨fun v => ⟨fun hOk => ?_, ?_⟩, ?_⟩
  · obtain ⟨t, hText, hReads⟩ := hSound.of_ok hOk
    have hShallow := hReads.shallow
    exact ⟨t, hText, by omega, (denote_isSome_iff t).mp (by rw [hReads.denotes]; rfl), hReads.unique,
      hReads.denotes⟩
  · rintro ⟨t, hText, hShallow, -, hUnique, hDenotes⟩
    have hRun := hComplete hText ⟨by omega, hUnique, hDenotes⟩
    cases hResult : parse input with
    | ok v' => rw [hRun.of_ok hResult]
    | error f =>
      obtain ⟨e, rfl⟩ := hSound.of_error hResult
      exact absurd (hRun.of_error hResult) (by simp [Outran])
  · cases hResult : parse input with
    | ok v => exact .inl ⟨v, rfl⟩
    | error f =>
      obtain ⟨e, rfl⟩ := hSound.of_error hResult
      exact .inr ⟨e, rfl⟩

/-- An array of nothing. -/
theorem parse_exact_emptyArray : parse " [ ]" = .ok (.array []) := by
  have hText : (Syntax.array []).IsText " [ ]".toList := by
    exact ⟨"[ ]".toList, [], .cons (.inl rfl) (.nil _), .emptyArray (.cons (.inl rfl) (.nil _)),
      .nil _⟩
  exact ((parse_exact " [ ]").1 _).mpr ⟨.array [], hText, by decide, trivial, trivial, rfl⟩

end Json

end CrdtSync
