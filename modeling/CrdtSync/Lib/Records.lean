import CrdtSync.Lib.Cursor

/-!
# Records that cannot be cut short

A reader takes some bytes whole when it reads them and fails on every shorter front of them.
Readers that do, one after another, do so again; and a file of such records, read until it
ends, is cut short either between two records or noticeably.
-/

namespace CrdtSync

namespace Lib

namespace Cursor

variable {ε α β γ : Type} {p : Cursor ε α} {f : α → Cursor ε β} {bytes rest : List UInt8} {a : α}
  {b : β}

/-- `p` reads `bytes` as `a`, and fails on every shorter front of them. -/
structure Whole (p : Cursor ε α) (bytes : List UInt8) (a : α) : Prop where
  reads : Reads p bytes a
  refuses : ∀ front, front <+: bytes → front ≠ bytes → ∃ e, p.run front = .error e

theorem Whole.run (h : Whole p bytes a) : p.run bytes = .ok (a, []) := by
  have hRun := h.reads []
  rwa [List.append_nil] at hRun

theorem Whole.pure (a : α) : Whole (pure a : Cursor ε α) [] a where
  reads := Reads.pure a
  refuses _ hFront hShort := absurd (List.prefix_nil.mp hFront) hShort

theorem Whole.bind (h : Whole p bytes a) (h' : Whole (f a) rest b) :
    Whole (p >>= f) (bytes ++ rest) b where
  reads := h.reads.bind h'.reads
  refuses front hFront hShort := by
    obtain hWithin | ⟨tail, rfl⟩ : front <+: bytes ∨ bytes <+: front := by
      exact List.prefix_or_prefix_of_prefix hFront (List.prefix_append bytes rest)
    · by_cases hEq : front = bytes
      · subst hEq
        have hCut : [] ≠ rest := by
          rintro rfl
          exact hShort (List.append_nil _).symm
        obtain ⟨e, hFail⟩ := h'.refuses [] List.nil_prefix hCut
        refine ⟨e, ?_⟩
        have hRun := h.reads.run_bind (f := f) []
        rw [List.append_nil] at hRun
        rw [hRun, hFail]
      · obtain ⟨e, hFail⟩ := h.refuses front hWithin hEq
        exact ⟨e, by rw [StateT.run_bind, hFail]; rfl⟩
    · have hTail : tail <+: rest := (List.prefix_append_right_inj bytes).mp hFront
      have hCut : tail ≠ rest := by
        rintro rfl
        exact hShort rfl
      obtain ⟨e, hFail⟩ := h'.refuses tail hTail hCut
      exact ⟨e, by rw [h.reads.run_bind, hFail]⟩

/-- A reader that ends in a value the rest of it only repackages. -/
theorem Whole.bind_pure (h : Whole p bytes a) {g : α → β} :
    Whole (p >>= fun a => Pure.pure (g a)) bytes (g a) := by
  have hBind := h.bind (f := fun a => Pure.pure (g a)) (Whole.pure (g a))
  rwa [List.append_nil] at hBind

theorem Whole.map (h : Whole p bytes a) (g : α → β) : Whole (g <$> p) bytes (g a) := by
  rw [map_eq_pure_bind]
  exact h.bind_pure

theorem whole_take (eof : ε) (bytes : List UInt8) : Whole (take eof bytes.length) bytes bytes where
  reads := reads_take eof bytes
  refuses front hFront hShort := by
    have hLength : front.length < bytes.length := by
      refine Nat.lt_of_le_of_ne hFront.length_le fun hEq => hShort ?_
      exact hFront.eq_of_length hEq
    exact ⟨eof, if_pos hLength⟩

theorem Whole.times {l : List γ} {write : γ → List UInt8} (value : γ → α)
    (h : ∀ c ∈ l, Whole p (write c) (value c)) :
    Whole (p.times l.length) (l.flatMap write) (l.map value) := by
  induction l with
  | nil => exact Whole.pure []
  | cons c l ih =>
    have hTail := ih fun c hc => h c (List.mem_cons_of_mem _ hc)
    exact (h c List.mem_cons_self).bind hTail.bind_pure

/-! ### A file of records -/

def allLoop (p : Cursor ε α) : Nat → List UInt8 → Except ε (List α)
  | 0, _ => .ok []
  | fuel + 1, bytes =>
    if bytes.isEmpty then .ok []
    else do
      let (a, rest) ← p.run bytes
      let as ← allLoop p fuel rest
      .ok (a :: as)

/-- Records read until the bytes end, each of at least one byte. -/
def all (p : Cursor ε α) (bytes : List UInt8) : Except ε (List α) := allLoop p bytes.length bytes

theorem allLoop_nil (fuel : Nat) : allLoop p fuel [] = .ok [] := by
  cases fuel with
  | zero => rfl
  | succ fuel => rfl

theorem allLoop_cons (h : Whole p bytes a) (hNonempty : bytes ≠ []) (fuel : Nat)
    (rest : List UInt8) :
    allLoop p (fuel + 1) (bytes ++ rest) = (allLoop p fuel rest).map (a :: ·) := by
  have hRest : (bytes ++ rest).isEmpty = false := by
    cases bytes with
    | nil => exact absurd rfl hNonempty
    | cons => rfl
  rw [allLoop, hRest, if_neg (by simp), h.reads rest]
  change (allLoop p fuel rest >>= fun as => .ok (a :: as)) = _
  cases allLoop p fuel rest with
  | ok as => rfl
  | error e => rfl

/-- A file of whole records is read back, and a front of it is some of the records or refused. -/
theorem allLoop_front {l : List γ} {write : γ → List UInt8} {value : γ → α}
    (h : ∀ c ∈ l, Whole p (write c) (value c) ∧ write c ≠ []) {front : List UInt8}
    (hFront : front <+: l.flatMap write) {fuel : Nat} (hFuel : front.length ≤ fuel) :
    (∃ k, front = (l.take k).flatMap write ∧ allLoop p fuel front = .ok ((l.take k).map value)) ∨
      ∃ e, allLoop p fuel front = .error e := by
  induction l generalizing front fuel with
  | nil =>
    obtain rfl := List.prefix_nil.mp hFront
    exact .inl ⟨0, rfl, allLoop_nil fuel⟩
  | cons c l ih =>
    obtain ⟨hWhole, hNonempty⟩ := h c List.mem_cons_self
    have hRest := fun c hc => h c (List.mem_cons_of_mem _ hc)
    cases front with
    | nil => exact .inl ⟨0, rfl, allLoop_nil fuel⟩
    | cons byte front =>
      obtain ⟨fuel, rfl⟩ : ∃ n, fuel = n + 1 := by
        cases fuel with
        | zero => exact absurd hFuel (by simp)
        | succ n => exact ⟨n, rfl⟩
      rw [List.flatMap_cons] at hFront
      obtain hWithin | ⟨tail, hTail⟩ :=
        List.prefix_or_prefix_of_prefix hFront (List.prefix_append (write c) _)
      · by_cases hEq : byte :: front = write c
        · have hRun := allLoop_cons hWhole hNonempty fuel []
          rw [List.append_nil, allLoop_nil, ← hEq] at hRun
          refine .inl ⟨1, ?_, hRun⟩
          rw [hEq]
          simp
        · obtain ⟨e, hFail⟩ := hWhole.refuses _ hWithin hEq
          refine .inr ⟨e, ?_⟩
          rw [allLoop, hFail]
          rfl
      · rw [← hTail] at hFront hFuel ⊢
        have hSuffix := (List.prefix_append_right_inj (write c)).mp hFront
        have hShorter := List.length_pos_iff.mpr hNonempty
        rw [List.length_append] at hFuel
        rw [allLoop_cons hWhole hNonempty]
        have hLeft : tail.length ≤ fuel := by omega
        obtain ⟨k, rfl, hRun⟩ | ⟨e, hFail⟩ := ih hRest hSuffix hLeft
        · exact .inl ⟨k + 1, rfl, by rw [hRun]; rfl⟩
        · exact .inr ⟨e, by rw [hFail]; rfl⟩

theorem all_front {l : List γ} {write : γ → List UInt8} (value : γ → α)
    (h : ∀ c ∈ l, Whole p (write c) (value c) ∧ write c ≠ []) {front : List UInt8}
    (hFront : front <+: l.flatMap write) :
    (∃ k, front = (l.take k).flatMap write ∧ all p front = .ok ((l.take k).map value)) ∨
      ∃ e, all p front = .error e :=
  allLoop_front h hFront (Nat.le_refl _)

theorem allLoop_flatMap {l : List γ} {write : γ → List UInt8} {value : γ → α}
    (h : ∀ c ∈ l, Whole p (write c) (value c) ∧ write c ≠ []) {fuel : Nat}
    (hFuel : (l.flatMap write).length ≤ fuel) :
    allLoop p fuel (l.flatMap write) = .ok (l.map value) := by
  induction l generalizing fuel with
  | nil => exact allLoop_nil fuel
  | cons c l ih =>
    obtain ⟨hWhole, hNonempty⟩ := h c List.mem_cons_self
    have hShorter := List.length_pos_iff.mpr hNonempty
    rw [List.flatMap_cons, List.length_append] at hFuel
    obtain ⟨fuel, rfl⟩ : ∃ n, fuel = n + 1 := ⟨fuel - 1, by omega⟩
    rw [List.flatMap_cons, allLoop_cons hWhole hNonempty,
      ih (fun c hc => h c (List.mem_cons_of_mem _ hc)) (by omega)]
    rfl

theorem all_flatMap {l : List γ} {write : γ → List UInt8} (value : γ → α)
    (h : ∀ c ∈ l, Whole p (write c) (value c) ∧ write c ≠ []) :
    all p (l.flatMap write) = .ok (l.map value) :=
  allLoop_flatMap h (Nat.le_refl _)

end Cursor

end Lib

end CrdtSync
