import Mathlib.Data.List.Basic

/-!
# Readers over bytes

A reader consumes a byte string from the front. It reads some bytes as a value when
it gives that value and leaves exactly what follows them, whatever that is; so what
a writer puts one after another a reader takes one after another. The other way
round, a reader spells a relation when what it consumed is related to what it gave.
-/

namespace CrdtSync

namespace Lib

/-- A reader over the bytes not yet consumed. -/
abbrev Cursor (ε : Type) := StateT (List UInt8) (Except ε)

namespace Cursor

variable {ε α β γ : Type}

/-- Exactly `n` bytes, or `eof` where the input ends first. -/
def take (eof : ε) (n : Nat) : Cursor ε (List UInt8) := fun bytes =>
  if bytes.length < n then .error eof else .ok (bytes.take n, bytes.drop n)

/-- The same reader `n` times. -/
def times (p : Cursor ε α) : Nat → Cursor ε (List α)
  | 0 => pure []
  | n + 1 => do
    let a ← p
    let as ← times p n
    pure (a :: as)

def Reads (p : Cursor ε α) (bytes : List UInt8) (a : α) : Prop :=
  ∀ rest, p.run (bytes ++ rest) = .ok (a, rest)

variable {p : Cursor ε α} {f : α → Cursor ε β} {bytes rest : List UInt8} {a : α} {b : β}

theorem Reads.pure (a : α) : Reads (pure a : Cursor ε α) [] a := fun _ => rfl

theorem Reads.bind (h : Reads p bytes a) (h' : Reads (f a) rest b) :
    Reads (p >>= f) (bytes ++ rest) b := by
  intro tail
  rw [StateT.run_bind, List.append_assoc, h]
  exact h' tail

/-- A reader that ends in a value the rest of it only repackages. -/
theorem Reads.bind_pure (h : Reads p bytes a) {g : α → β} :
    Reads (p >>= fun a => Pure.pure (g a)) bytes (g a) := by
  have hBind := h.bind (f := fun a => Pure.pure (g a)) (Reads.pure (g a))
  rwa [List.append_nil] at hBind

theorem Reads.map (h : Reads p bytes a) (g : α → β) : Reads (g <$> p) bytes (g a) := by
  rw [map_eq_pure_bind]
  exact h.bind_pure

theorem reads_take (eof : ε) (bytes : List UInt8) : Reads (take eof bytes.length) bytes bytes := by
  intro rest
  have hLength : ¬(bytes ++ rest).length < bytes.length := by simp
  change take eof bytes.length (bytes ++ rest) = _
  simp [take]

theorem Reads.times {l : List γ} {write : γ → List UInt8} {value : γ → α}
    (h : ∀ c ∈ l, Reads p (write c) (value c)) :
    Reads (p.times l.length) (l.flatMap write) (l.map value) := by
  induction l with
  | nil => exact Reads.pure []
  | cons c l ih =>
    have hTail := ih fun c hc => h c (List.mem_cons_of_mem _ hc)
    exact (h c List.mem_cons_self).bind hTail.bind_pure

/-- What `p` consumed and what it gave for it are related by `R`. -/
def Spells (p : Cursor ε α) (R : α → List UInt8 → Prop) : Prop :=
  ∀ bytes a rest, p.run bytes = .ok (a, rest) → ∃ w, bytes = w ++ rest ∧ R a w

variable {R : α → List UInt8 → Prop} {Q : β → List UInt8 → Prop}

theorem Spells.mono {R' : α → List UInt8 → Prop} (h : Spells p R) (hR : ∀ a w, R a w → R' a w) :
    Spells p R' := by
  intro bytes a rest hRun
  obtain ⟨w, hBytes, hw⟩ := h bytes a rest hRun
  exact ⟨w, hBytes, hR a w hw⟩

theorem Spells.pure {a : α} (h : R a []) : Spells (pure a : Cursor ε α) R := by
  intro bytes a' rest hRun
  obtain ⟨rfl, rfl⟩ := Prod.mk.inj (Except.ok.inj hRun)
  exact ⟨[], rfl, h⟩

theorem Spells.throw (e : ε) : Spells (throw e : Cursor ε α) R := by
  intro bytes a rest hRun
  cases hRun

theorem run_bind_eq_ok {tail : List UInt8} (h : (p >>= f).run bytes = .ok (b, tail)) :
    ∃ a mid, p.run bytes = .ok (a, mid) ∧ (f a).run mid = .ok (b, tail) := by
  rw [StateT.run_bind] at h
  match hRun : p.run bytes, h with
  | .ok (a, mid), h => exact ⟨a, mid, rfl, h⟩

/-- What follows a read is spelled by what the whole is to be, after the bytes read. -/
theorem Spells.bind (h : Spells p R) (hf : ∀ a w, R a w → Spells (f a) fun b w' => Q b (w ++ w')) :
    Spells (p >>= f) Q := by
  intro bytes b rest hRun
  obtain ⟨a, mid, hFirst, hThen⟩ := run_bind_eq_ok hRun
  obtain ⟨w, rfl, hw⟩ := h bytes a mid hFirst
  obtain ⟨w', rfl, hQ⟩ := hf a w hw mid b rest hThen
  exact ⟨w ++ w', (List.append_assoc ..).symm, hQ⟩

theorem Spells.map {g : α → β} (h : Spells p fun a w => Q (g a) w) : Spells (g <$> p) Q := by
  rw [map_eq_pure_bind]
  refine h.bind fun a w hw => Spells.pure ?_
  rwa [List.append_nil]

theorem spells_take (eof : ε) (n : Nat) : Spells (take eof n) fun a w => w = a ∧ a.length = n := by
  intro bytes a rest hRun
  change take eof n bytes = _ at hRun
  unfold take at hRun
  split at hRun
  · cases hRun
  next hLength =>
    obtain ⟨rfl, rfl⟩ := Prod.mk.inj (Except.ok.inj hRun)
    refine ⟨bytes.take n, (List.take_append_drop n bytes).symm, rfl, ?_⟩
    rw [List.length_take]
    omega

/-- A list read item by item is spelled item by item. -/
theorem Spells.times (h : Spells p R) (n : Nat) :
    Spells (p.times n) fun as w => as.length = n ∧
      ∃ ws : List (List UInt8), List.Forall₂ R as ws ∧ w = ws.flatten := by
  induction n with
  | zero => exact Spells.pure ⟨rfl, [], .nil, rfl⟩
  | succ n ih =>
    refine h.bind fun a w hw => ih.bind ?_
    rintro as w' ⟨rfl, ws, hws, rfl⟩
    refine Spells.pure ⟨rfl, w :: ws, .cons hw hws, ?_⟩
    rw [List.append_nil]
    rfl

/-- What holds of each item read holds of every item of the list. -/
theorem Spells.forall_of_times {P : α → Prop} (h : Spells p fun a _ => P a) {n : Nat} {as : List α}
    (hRun : (p.times n).run bytes = .ok (as, rest)) : ∀ a ∈ as, P a := by
  obtain ⟨-, -, -, ws, hAll, -⟩ := h.times n bytes as rest hRun
  clear hRun
  induction hAll with
  | nil => exact fun _ ha => nomatch ha
  | cons hFirst _ ih => exact List.forall_mem_cons.mpr ⟨hFirst, ih⟩

/-- A read goes on after what it consumed. -/
theorem Reads.run_bind (h : Reads p bytes a) (tail : List UInt8) :
    (p >>= f).run (bytes ++ tail) = (f a).run tail := by
  rw [StateT.run_bind, h tail]
  rfl

section Codes

variable {strict : Prop} {put : α → List UInt8} {good : α → Prop}
variable {q : Cursor ε β} {put' : β → List UInt8} {good' : β → Prop}

/-- What is read is good and as long as it would be written; where `strict` holds it is
what would be written. -/
def SpellsIf (strict : Prop) (p : Cursor ε α) (put : α → List UInt8) (good : α → Prop) : Prop :=
  Spells p fun a w => good a ∧ w.length = (put a).length ∧ (strict → w = put a)

/-- Reader and writer of one field: the good values are read back, and what is read is good. -/
structure Codes (strict : Prop) (p : Cursor ε α) (put : α → List UInt8) (good : α → Prop) : Prop where
  reads : ∀ a, good a → Reads p (put a) a
  spells : SpellsIf strict p put good

theorem SpellsIf.of_eq (h : Spells p fun a w => w = put a ∧ good a) : SpellsIf strict p put good := by
  refine h.mono ?_
  rintro a w ⟨rfl, ha⟩
  exact ⟨ha, rfl, fun _ => rfl⟩

/-- A field after another. -/
def both (p : Cursor ε α) (q : Cursor ε β) : Cursor ε (α × β) := do
  let a ← p
  let b ← q
  pure (a, b)

theorem SpellsIf.both (h : SpellsIf strict p put good) (h' : SpellsIf strict q put' good') :
    SpellsIf strict (both p q) (fun x => put x.1 ++ put' x.2) fun x => good x.1 ∧ good' x.2 := by
  refine Spells.bind h ?_
  rintro a w ⟨ha, hLength, hw⟩
  refine Spells.bind h' ?_
  rintro b w' ⟨hb, hLength', hw'⟩
  refine Spells.pure ⟨⟨ha, hb⟩, ?_, fun hStrict => ?_⟩
  · rw [List.append_nil, List.length_append, List.length_append, hLength, hLength']
  · rw [List.append_nil, hw hStrict, hw' hStrict]

theorem Reads.both (h : Reads p bytes a) {b : β} (h' : Reads q rest b) :
    Reads (both p q) (bytes ++ rest) (a, b) :=
  h.bind h'.bind_pure

theorem Codes.both (h : Codes strict p put good) (h' : Codes strict q put' good') :
    Codes strict (both p q) (fun x => put x.1 ++ put' x.2) fun x => good x.1 ∧ good' x.2 where
  reads x hx := (h.reads x.1 hx.1).both (h'.reads x.2 hx.2)
  spells := h.spells.both h'.spells

/-- A field repackaged. -/
theorem Codes.map (h : Codes strict p put good) {g : α → β} (hPut : ∀ a, put' (g a) = put a)
    (hGood : ∀ a, good a → good' (g a)) (hBack : ∀ b, good' b → ∃ a, good a ∧ g a = b) :
    Codes strict (g <$> p) put' good' where
  reads b hb := by
    obtain ⟨a, ha, rfl⟩ := hBack b hb
    rw [hPut]
    exact (h.reads a ha).map g
  spells := by
    refine Spells.map (Spells.mono h.spells ?_)
    rintro a w ⟨ha, hLength, hw⟩
    refine ⟨hGood a ha, ?_, fun hStrict => ?_⟩
    · rw [hPut, hLength]
    · rw [hPut, hw hStrict]

theorem Codes.times (h : Codes strict p put good) (n : Nat) :
    SpellsIf strict (p.times n) (fun as => as.flatMap put) fun as =>
      as.length = n ∧ ∀ a ∈ as, good a := by
  induction n with
  | zero => exact Spells.pure ⟨⟨rfl, fun _ ha => nomatch ha⟩, rfl, fun _ => rfl⟩
  | succ n ih =>
    refine Spells.bind h.spells ?_
    rintro a w ⟨ha, hLength, hw⟩
    refine Spells.bind ih ?_
    rintro as w' ⟨⟨rfl, has⟩, hLength', hw'⟩
    refine Spells.pure ⟨⟨rfl, List.forall_mem_cons.mpr ⟨ha, has⟩⟩, ?_, fun hStrict => ?_⟩
    · dsimp only
      rw [List.append_nil, List.flatMap_cons, List.length_append, List.length_append, hLength,
        hLength']
    · dsimp only
      rw [List.append_nil, List.flatMap_cons, hw hStrict, hw' hStrict]

end Codes

end Cursor

end Lib

end CrdtSync
