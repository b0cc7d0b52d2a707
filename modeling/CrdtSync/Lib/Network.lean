import Mathlib.Data.Set.Finite.Basic
import Mathlib.SetTheory.Cardinal.NatCard
import Mathlib.Order.Monotone.Basic
import Mathlib.Data.Set.Card
import CrdtSync.Lib.Grounding

/-!
# Networks of support and objection

A vertex stands while something supports it and nothing that stands objects to
it. All vertices are decided again at once, in rounds that start from nobody
standing, so along cycles a standing can depend on the round it is read at.
`Judged` derives the standings that do not: those the network itself decides.
-/

namespace CrdtSync.Lib

open Relation

structure Network (α : Type*) where
  /-- Supported without anybody's standing. -/
  seed : α → Prop
  /-- Objected to without anybody's standing. -/
  barred : α → Prop
  supports : α → α → Prop
  objects : α → α → Prop

namespace Network

section Rounds

variable {α : Type*} (N : Network α)

def Supported (s : α → Prop) (a : α) : Prop := N.seed a ∨ ∃ k, N.supports k a ∧ s k

def Opposed (s : α → Prop) (a : α) : Prop := N.barred a ∨ ∃ k, N.objects k a ∧ s k

def Stands : Nat → α → Prop
  | 0, _ => False
  | m + 1, a => N.Supported (Stands m) a ∧ ¬N.Opposed (Stands m) a

/-- A chain of at most `m` vertices, none of them barred, supports the vertex. -/
def Within : Nat → α → Prop
  | 0, _ => False
  | m + 1, a => N.Supported (Within m) a ∧ ¬N.barred a

/-- The network decides that from round `m` on the vertex stands, or that it does not. -/
inductive Judged : Nat → α → Bool → Prop
  | seeded {m : Nat} {a : α} (hSeed : N.seed a) (hFree : ¬N.barred a)
      (hOpposed : ∀ k, N.objects k a → Judged m k false) : Judged (m + 1) a true
  | supported {m : Nat} {k a : α} (hSupports : N.supports k a) (hk : Judged m k true)
      (hFree : ¬N.barred a) (hOpposed : ∀ k, N.objects k a → Judged m k false) :
      Judged (m + 1) a true
  | barred {a : α} (hBarred : N.barred a) : Judged 0 a false
  | opposed {m : Nat} {k a : α} (hObjects : N.objects k a) (hk : Judged m k true) :
      Judged (m + 1) a false
  /-- The objection stands before any support can arrive. -/
  | early {m : Nat} {k a : α} (hObjects : N.objects k a) (hk : Judged m k true)
      (hFar : ¬N.Within m a) : Judged 0 a false
  | unsupported {m : Nat} {a : α} (hSeed : ¬N.seed a)
      (hNone : ∀ k, N.supports k a → Judged m k false) : Judged (m + 1) a false
  /-- Vertices that nobody but themselves could support never come to stand. -/
  | unfounded {U : Set α} {a : α} (ha : a ∈ U) (hSeed : ∀ b ∈ U, ¬N.seed b)
      (hNone : ∀ b ∈ U, ∀ k, N.supports k b → k ∉ U → Judged 0 k false) : Judged 0 a false
  | later {m n : Nat} {a : α} {b : Bool} (h : Judged m a b) (hLater : m ≤ n) : Judged n a b

def Determined : Prop := ∀ a, ∃ m b, N.Judged m a b

/-- Barred, or objected to by a vertex the network makes stand. -/
def Struck (a : α) : Prop := N.Opposed (fun k => ∃ m, N.Judged m k true) a

/-- Support by a vertex that may come to stand. -/
def Feeds (a b : α) : Prop := N.supports a b ∧ ¬N.Judged 0 a false

/-- It may come to stand and may come to be opposed, and the network does not make it stand. -/
def Wavers (a : α) : Prop :=
  ¬N.Judged 0 a false ∧ (∀ m, ¬N.Judged m a true) ∧ ∃ k, N.objects k a ∧ ¬N.Judged 0 k false

/-- No wavering vertex feeds a cycle the network leaves open. -/
def NoWaveringCycle : Prop :=
  ∀ a b, N.Wavers a → ReflTransGen N.Feeds a b → TransGen N.Feeds b b → ∃ m c, N.Judged m b c

/-- No two rounds on end from round `f` oppose it. -/
def Kept (f : Nat) (a : α) : Prop :=
  ¬(N.Opposed (N.Stands f) a ∧ N.Opposed (N.Stands (f + 1)) a)

/-- Support carried on after round `f` with the objections fixed as they are there. -/
structure Passes (f : Nat) (live : Nat → α → Prop) : Prop where
  start : ∀ a, live 0 a → N.Supported (N.Stands f) a
  step : ∀ m a, live (m + 1) a → N.Supported (live m) a
  kept : ∀ m a, live m a → N.Kept f a

/-- Standings that each follow from the others. -/
def Model (s : α → Prop) : Prop := ∀ a, s a ↔ N.Supported s a ∧ ¬N.Opposed s a

end Rounds

section Judging

variable {α : Type*} {N : Network α} {m n : Nat} {a : α} {b b' : Bool}

theorem Supported.mono {s s' : α → Prop} (h : ∀ k, s k → s' k) (ha : N.Supported s a) :
    N.Supported s' a :=
  ha.imp_right fun ⟨k, hSupports, hk⟩ => ⟨k, hSupports, h k hk⟩

theorem Within.mono (h : N.Within m a) (hmn : m ≤ n) : N.Within n a := by
  induction n generalizing m a with
  | zero =>
    obtain rfl : m = 0 := Nat.le_zero.mp hmn
    exact h
  | succ n ih =>
    cases m with
    | zero => exact h.elim
    | succ m => exact ⟨h.1.mono fun _ hk => ih hk (Nat.le_of_succ_le_succ hmn), h.2⟩

theorem Stands.within (h : N.Stands m a) : N.Within m a := by
  induction m generalizing a with
  | zero => exact h
  | succ m ih => exact ⟨h.1.mono fun k hk => ih hk, fun hBarred => h.2 (.inl hBarred)⟩

/-- What the network decides is how the rounds come out, from the round it names on. -/
theorem Judged.stands_iff (h : N.Judged m a b) (hmn : m ≤ n) : N.Stands n a ↔ b = true := by
  induction h generalizing n with
  | @seeded m a hSeed hFree _ ih =>
    obtain ⟨n, rfl⟩ := Nat.exists_eq_add_of_le' (Nat.le_trans (Nat.le_add_left 1 m) hmn)
    refine iff_of_true ⟨.inl hSeed, ?_⟩ rfl
    rintro (hBarred | ⟨k, hObjects, hk⟩)
    · exact hFree hBarred
    · exact absurd ((ih k hObjects (Nat.le_of_succ_le_succ hmn)).mp hk) Bool.false_ne_true
  | @supported m k a hSupports _ hFree _ ihk ih =>
    obtain ⟨n, rfl⟩ := Nat.exists_eq_add_of_le' (Nat.le_trans (Nat.le_add_left 1 m) hmn)
    have hLe := Nat.le_of_succ_le_succ hmn
    refine iff_of_true ⟨.inr ⟨k, hSupports, (ihk hLe).mpr rfl⟩, ?_⟩ rfl
    rintro (hBarred | ⟨k', hObjects, hk'⟩)
    · exact hFree hBarred
    · exact absurd ((ih k' hObjects hLe).mp hk') Bool.false_ne_true
  | barred hBarred =>
    refine iff_of_false ?_ Bool.false_ne_true
    cases n with
    | zero => exact id
    | succ n => exact fun hStands => hStands.2 (.inl hBarred)
  | @opposed m k a hObjects _ ih =>
    obtain ⟨n, rfl⟩ := Nat.exists_eq_add_of_le' (Nat.le_trans (Nat.le_add_left 1 m) hmn)
    have hk := (ih (Nat.le_of_succ_le_succ hmn)).mpr rfl
    exact iff_of_false (fun hStands => hStands.2 (.inr ⟨k, hObjects, hk⟩)) Bool.false_ne_true
  | @early m k a hObjects _ hFar ih =>
    refine iff_of_false (fun hStands => ?_) Bool.false_ne_true
    -- Up to round `m` no support has arrived, and from then on the objection stands.
    rcases Nat.lt_or_ge m n with hAfter | hBefore
    · obtain ⟨n, rfl⟩ := Nat.exists_eq_add_of_le' (Nat.le_trans (Nat.le_add_left 1 m) hAfter)
      exact hStands.2 (.inr ⟨k, hObjects, (ih (Nat.le_of_lt_succ hAfter)).mpr rfl⟩)
    · exact hFar (hStands.within.mono hBefore)
  | @unsupported m a hSeed _ ih =>
    obtain ⟨n, rfl⟩ := Nat.exists_eq_add_of_le' (Nat.le_trans (Nat.le_add_left 1 m) hmn)
    refine iff_of_false ?_ Bool.false_ne_true
    rintro ⟨hSeeded | ⟨k, hSupports, hk⟩, -⟩
    · exact hSeed hSeeded
    · exact absurd ((ih k hSupports (Nat.le_of_succ_le_succ hmn)).mp hk) Bool.false_ne_true
  | @unfounded U a ha hSeed _ ih =>
    have hNever : ∀ b ∈ U, ¬N.Stands n b := by
      clear hmn
      induction n with
      | zero => exact fun b _ hStands => hStands
      | succ n ihn =>
        rintro b hb ⟨hSeeded | ⟨k, hSupports, hk⟩, -⟩
        · exact hSeed b hb hSeeded
        · by_cases hkU : k ∈ U
          · exact ihn k hkU hk
          · exact absurd ((ih b hb k hSupports hkU n.zero_le).mp hk) Bool.false_ne_true
    exact iff_of_false (hNever a ha) Bool.false_ne_true
  | later _ hLater ih => exact ih (hLater.trans hmn)

theorem Judged.unique (h : N.Judged m a b) (h' : N.Judged n a b') : b = b' := by
  have hStands := h.stands_iff (le_max_left m n)
  have hStands' := h'.stands_iff (le_max_right m n)
  exact Bool.eq_iff_iff.mpr (hStands.symm.trans hStands')

/-- Once a round decides nothing that the one before left open, none after it does. -/
theorem Judged.stable (hSame : ∀ a b, N.Judged (m + 1) a b → N.Judged m a b) (h : N.Judged n a b) :
    N.Judged m a b := by
  induction h with
  | seeded hSeed hFree _ ih => exact hSame _ _ (.seeded hSeed hFree ih)
  | supported hSupports _ hFree _ ihk ih => exact hSame _ _ (.supported hSupports ihk hFree ih)
  | barred hBarred => exact .later (.barred hBarred) m.zero_le
  | opposed hObjects _ ih => exact hSame _ _ (.opposed hObjects ih)
  | early hObjects hk hFar _ => exact .later (.early hObjects hk hFar) m.zero_le
  | unsupported hSeed _ ih => exact hSame _ _ (.unsupported hSeed ih)
  | unfounded ha hSeed hNone _ => exact .later (.unfounded ha hSeed hNone) m.zero_le
  | later _ _ ih => exact ih

/-- Standings that follow from each other agree with what the network decides, when
no support runs in a cycle. -/
theorem Judged.model_iff [Finite α] (hAcyclic : ∀ a, ¬TransGen N.supports a a) {s : α → Prop}
    (hModel : N.Model s) (h : N.Judged m a b) : s a ↔ b = true := by
  induction h with
  | seeded hSeed hFree _ ih =>
    refine iff_of_true ((hModel _).mpr ⟨.inl hSeed, ?_⟩) rfl
    rintro (hBarred | ⟨k, hObjects, hk⟩)
    · exact hFree hBarred
    · exact absurd ((ih k hObjects).mp hk) Bool.false_ne_true
  | supported hSupports _ hFree _ ihk ih =>
    refine iff_of_true ((hModel _).mpr ⟨.inr ⟨_, hSupports, ihk.mpr rfl⟩, ?_⟩) rfl
    rintro (hBarred | ⟨k, hObjects, hk⟩)
    · exact hFree hBarred
    · exact absurd ((ih k hObjects).mp hk) Bool.false_ne_true
  | barred hBarred =>
    exact iff_of_false (fun ha => ((hModel _).mp ha).2 (.inl hBarred)) Bool.false_ne_true
  | opposed hObjects _ ih =>
    refine iff_of_false (fun ha => ?_) Bool.false_ne_true
    exact ((hModel _).mp ha).2 (.inr ⟨_, hObjects, ih.mpr rfl⟩)
  | early hObjects _ _ ih =>
    refine iff_of_false (fun ha => ?_) Bool.false_ne_true
    exact ((hModel _).mp ha).2 (.inr ⟨_, hObjects, ih.mpr rfl⟩)
  | unsupported hSeed _ ih =>
    refine iff_of_false (fun ha => ?_) Bool.false_ne_true
    rcases ((hModel _).mp ha).1 with hSeeded | ⟨k, hSupports, hk⟩
    · exact hSeed hSeeded
    · exact absurd ((ih k hSupports).mp hk) Bool.false_ne_true
  | @unfounded U a ha hSeed _ ih =>
    have hWell : WellFounded (TransGen N.supports) :=
      haveI : Std.Irrefl (TransGen N.supports) := ⟨hAcyclic⟩
      Finite.wellFounded_of_trans_of_irrefl _
    have hNever : ∀ b, b ∈ U → ¬s b := by
      intro b
      induction b using hWell.induction with
      | _ b ihb =>
        intro hb hs
        rcases ((hModel b).mp hs).1 with hSeeded | ⟨k, hSupports, hk⟩
        · exact hSeed b hb hSeeded
        · by_cases hkU : k ∈ U
          · exact ihb k (.single hSupports) hkU hk
          · exact absurd ((ih b hb k hSupports hkU).mp hk) Bool.false_ne_true
    exact iff_of_false (hNever a ha) Bool.false_ne_true
  | later _ _ ih => exact ih

end Judging

section Finite

variable {α : Type*} [Finite α] {N : Network α} {m n : Nat} {a : α} {b : Bool}

/-- One round for each vertex decides whatever the network decides. -/
theorem Judged.by_card (h : N.Judged m a b) : N.Judged (Nat.card α) a b := by
  let decided : Nat → Set α := fun m => {a | ∃ b, N.Judged m a b}
  have hMono : Monotone decided := fun m n hmn a ⟨b, hb⟩ => ⟨b, hb.later hmn⟩
  have hSame : ∀ m, (decided m).ncard = (decided (m + 1)).ncard →
      ∀ a b, N.Judged (m + 1) a b → N.Judged m a b := by
    intro m hCard a b hb
    have hEq : decided m = decided (m + 1) :=
      Set.eq_of_subset_of_ncard_le (hMono m.le_succ) hCard.ge (Set.toFinite _)
    obtain ⟨b', hb'⟩ : a ∈ decided m := hEq ▸ ⟨b, hb⟩
    exact hb'.unique hb ▸ hb'
  have hStop : (decided (max m (Nat.card α))).ncard = (decided (Nat.card α)).ncard := by
    refine Nat.stabilises_of_monotone (f := fun m => (decided m).ncard) ?_ ?_ ?_ (le_max_right _ _)
    · exact fun m n hmn => Set.ncard_le_ncard (hMono hmn) (Set.toFinite _)
    · exact fun m => Set.ncard_le_card _
    · intro m hCard
      refine congrArg Set.ncard (Set.Subset.antisymm (hMono (m + 1).le_succ) ?_)
      exact fun a ⟨b, hb⟩ => ⟨b, (hb.stable (hSame m hCard)).later m.le_succ⟩
  have hEq : decided (Nat.card α) = decided (max m (Nat.card α)) :=
    Set.eq_of_subset_of_ncard_le (hMono (le_max_right _ _)) hStop.le (Set.toFinite _)
  obtain ⟨b', hb'⟩ : a ∈ decided (Nat.card α) := hEq ▸ ⟨b, h.later (le_max_left _ _)⟩
  exact hb'.unique h ▸ hb'

theorem Determined.stands_iff (h : N.Determined) (hm : Nat.card α ≤ m) :
    N.Stands m a ↔ N.Stands (Nat.card α) a := by
  obtain ⟨_, b, hb⟩ := h a
  exact (hb.by_card.stands_iff hm).trans (hb.by_card.stands_iff le_rfl).symm

/-- Off the cycles of support and objection every standing is decided. -/
theorem determined_of_acyclic
    (hAcyclic : ∀ a, ¬TransGen (fun k a => N.supports k a ∨ N.objects k a) a a) : N.Determined := by
  have hWell : WellFounded (TransGen fun k a => N.supports k a ∨ N.objects k a) :=
    haveI : Std.Irrefl (TransGen fun k a => N.supports k a ∨ N.objects k a) := ⟨hAcyclic⟩
    Finite.wellFounded_of_trans_of_irrefl _
  intro a
  induction a using hWell.induction with
  | _ a ih =>
    have hBefore : ∀ k, N.supports k a ∨ N.objects k a → ∃ b, N.Judged (Nat.card α) k b := by
      intro k hk
      obtain ⟨m, b, hb⟩ := ih k (.single hk)
      exact ⟨b, hb.by_card⟩
    by_cases hBarred : N.barred a
    · exact ⟨_, _, .barred hBarred⟩
    by_cases hOpposed : ∃ k, N.objects k a ∧ N.Judged (Nat.card α) k true
    · obtain ⟨k, hObjects, hk⟩ := hOpposed
      exact ⟨_, _, .opposed hObjects hk⟩
    have hFree : ∀ k, N.objects k a → N.Judged (Nat.card α) k false := by
      intro k hObjects
      obtain ⟨b, hb⟩ := hBefore k (.inr hObjects)
      cases b with
      | false => exact hb
      | true => exact absurd ⟨k, hObjects, hb⟩ hOpposed
    by_cases hSeed : N.seed a
    · exact ⟨_, _, .seeded hSeed hBarred hFree⟩
    by_cases hSupported : ∃ k, N.supports k a ∧ N.Judged (Nat.card α) k true
    · obtain ⟨k, hSupports, hk⟩ := hSupported
      exact ⟨_, _, .supported hSupports hk hBarred hFree⟩
    refine ⟨Nat.card α + 1, false, .unsupported hSeed fun k hSupports => ?_⟩
    obtain ⟨b, hb⟩ := hBefore k (.inl hSupports)
    cases b with
    | false => exact hb
    | true => exact absurd ⟨k, hSupports, hb⟩ hSupported

end Finite

section Passes

variable {α : Type*} [Finite α] {N : Network α} {f m : Nat} {a b : α} {live : Nat → α → Prop}

theorem Kept.not_struck (hCard : Nat.card α ≤ f) (h : N.Kept f a) : ¬N.Struck a := by
  have hOpposed : ∀ n, Nat.card α ≤ n → N.Struck a → N.Opposed (N.Stands n) a := by
    rintro n hn (hBarred | ⟨k, hObjects, m, hk⟩)
    · exact .inl hBarred
    · exact .inr ⟨k, hObjects, (hk.by_card.stands_iff hn).mpr rfl⟩
  exact fun hStruck => h ⟨hOpposed f hCard hStruck, hOpposed (f + 1) (by omega) hStruck⟩

theorem Judged.kept (hCard : Nat.card α ≤ f) (h : N.Judged m a true) : N.Kept f a := by
  have hStands : N.Stands (f + 1) a := (h.by_card.stands_iff (by omega)).mpr rfl
  exact fun hOpposed => hStands.2 hOpposed.1

/-- What may come to stand and does not waver is never struck from the passes. -/
theorem kept_of_not_wavers (hCard : Nat.card α ≤ f) (hOpen : ¬N.Judged 0 a false)
    (hCalm : ¬N.Wavers a) : N.Kept f a := by
  by_cases hTrue : ∃ m, N.Judged m a true
  · obtain ⟨m, hm⟩ := hTrue
    exact hm.kept hCard
  · rintro ⟨hBarred | ⟨k, hObjects, hk⟩, -⟩
    · exact hOpen (.barred hBarred)
    · refine hCalm ⟨hOpen, not_exists.mp hTrue, k, hObjects, fun hNever => ?_⟩
      exact absurd ((hNever.stands_iff f.zero_le).mp hk) Bool.false_ne_true

/-- What the network makes stand rests on seeds, along vertices the passes keep. -/
theorem Judged.grounded (hCard : Nat.card α ≤ f) (h : N.Judged m a true) :
    Grounded N.seed (fun k a => N.supports k a ∧ N.Kept f k) a := by
  generalize hb : true = b at h
  induction h with
  | seeded hSeed _ _ _ => exact .seed hSeed
  | supported hSupports hk _ _ ihk _ => exact .step ⟨hSupports, hk.kept hCard⟩ (ihk rfl)
  | barred => cases hb
  | opposed => cases hb
  | early => cases hb
  | unsupported => cases hb
  | unfounded => cases hb
  | later _ _ ih => exact ih hb

/-- The passes root nothing that the network decides against. -/
theorem Passes.not_live (h : N.Passes f live) (hCard : Nat.card α ≤ f) (ha : N.Judged n a false) :
    ¬live m a := by
  generalize hb : false = b at ha
  induction ha generalizing m with
  | seeded => cases hb
  | supported => cases hb
  | barred hBarred => exact fun hLive => (h.kept m _ hLive).not_struck hCard (.inl hBarred)
  | opposed hObjects hk _ =>
    exact fun hLive => (h.kept m _ hLive).not_struck hCard (.inr ⟨_, hObjects, _, hk⟩)
  | early hObjects hk _ _ =>
    exact fun hLive => (h.kept m _ hLive).not_struck hCard (.inr ⟨_, hObjects, _, hk⟩)
  | unsupported hSeed hNone ih =>
    intro hLive
    cases m with
    | zero =>
      rcases h.start _ hLive with hSeeded | ⟨k, hSupports, hk⟩
      · exact hSeed hSeeded
      · have hStands := ((hNone k hSupports).by_card.stands_iff hCard).mp hk
        exact absurd hStands Bool.false_ne_true
    | succ m =>
      rcases h.step m _ hLive with hSeeded | ⟨k, hSupports, hk⟩
      · exact hSeed hSeeded
      · exact ih k hSupports rfl hk
  | @unfounded U a ha hSeed hNone ih =>
    have hNever : ∀ b ∈ U, ¬live m b := by
      induction m with
      | zero =>
        intro b hb hLive
        rcases h.start b hLive with hSeeded | ⟨k, hSupports, hk⟩
        · exact hSeed b hb hSeeded
        · have hJudged : N.Judged 0 k false := by
            by_cases hkU : k ∈ U
            · exact .unfounded hkU hSeed hNone
            · exact hNone b hb k hSupports hkU
          exact absurd ((hJudged.stands_iff f.zero_le).mp hk) Bool.false_ne_true
      | succ m ihm =>
        intro b hb hLive
        rcases h.step m b hLive with hSeeded | ⟨k, hSupports, hk⟩
        · exact hSeed b hb hSeeded
        · by_cases hkU : k ∈ U
          · exact ihm k hkU hk
          · exact ih b hb k hSupports hkU rfl hk
    exact hNever a ha
  | later _ _ ih => exact ih hb

section Calm

variable {j : α} (hCalm : ∀ k, ReflTransGen N.Feeds k j → ¬N.Wavers k)
include hCalm

/-- Behind no wavering vertex the rounds support nothing but along kept vertices from a seed. -/
theorem grounded_of_supported (hCard : Nat.card α ≤ f) (hFeeds : ReflTransGen N.Feeds a j)
    (h : N.Supported (N.Stands m) a) :
    Grounded N.seed (fun k a => N.supports k a ∧ N.Kept f k) a := by
  induction m generalizing a with
  | zero =>
    rcases h with hSeed | ⟨k, -, hk⟩
    · exact .seed hSeed
    · exact hk.elim
  | succ m ih =>
    rcases h with hSeed | ⟨k, hSupports, hk⟩
    · exact .seed hSeed
    · have hOpen : ¬N.Judged 0 k false := by
        intro hNever
        exact absurd ((hNever.stands_iff (m + 1).zero_le).mp hk) Bool.false_ne_true
      have hBehind : ReflTransGen N.Feeds k j := .head ⟨hSupports, hOpen⟩ hFeeds
      exact .step ⟨hSupports, kept_of_not_wavers hCard hOpen (hCalm k hBehind)⟩ (ih hBehind hk.1)

theorem Passes.grounded_of_calm (h : N.Passes f live) (hCard : Nat.card α ≤ f)
    (hFeeds : ReflTransGen N.Feeds a j) (hLive : live m a) :
    Grounded N.seed (fun k a => N.supports k a ∧ N.Kept f k) a := by
  induction m generalizing a with
  | zero => exact grounded_of_supported hCalm hCard hFeeds (h.start a hLive)
  | succ m ih =>
    rcases h.step m a hLive with hSeed | ⟨k, hSupports, hk⟩
    · exact .seed hSeed
    · have hOpen : ¬N.Judged 0 k false := fun hNever => h.not_live hCard hNever hk
      exact .step ⟨hSupports, h.kept m k hk⟩ (ih (.head ⟨hSupports, hOpen⟩ hFeeds) hk)

end Calm

/-- With no wavering vertex behind an open cycle, more passes than there are vertices
leave live only what rests on seeds along kept vertices. -/
theorem Passes.grounded (h : N.Passes f live) (hCard : Nat.card α ≤ f)
    (hCycles : N.NoWaveringCycle) (hm : Nat.card α ≤ m) (hLive : live m a) :
    Grounded N.seed (fun k a => N.supports k a ∧ N.Kept f k) a := by
  have := Fintype.ofFinite α
  let rests : α → Prop := Grounded N.seed fun k a => N.supports k a ∧ N.Kept f k
  have hRounds : Grounded rests (fun k a => N.Feeds k a ∧ N.Kept f k) a := by
    refine grounded_of_rounds live ?_ ?_ (Nat.card_eq_fintype_card (α := α) ▸ hm) hLive
    · intro m a hNext
      rcases h.step m a hNext with hSeed | ⟨k, hSupports, hk⟩
      · exact .inl (.seed hSeed)
      · exact .inr ⟨k, ⟨⟨hSupports, fun hNever => h.not_live hCard hNever hk⟩, h.kept m k hk⟩, hk⟩
    · intro m a hLive hLoop
      refine .seed ?_
      have hFeeds : TransGen N.Feeds a a := TransGen.mono (fun _ _ hLink => hLink.1) a a hLoop
      by_cases hOpen : ∃ n c, N.Judged n a c
      · obtain ⟨n, c, hn⟩ := hOpen
        cases c with
        | true => exact hn.grounded hCard
        | false => exact absurd hLive (h.not_live hCard hn)
      · -- Nobody behind an open cycle wavers, so nothing struck ever fed it.
        refine h.grounded_of_calm (j := a) ?_ hCard .refl hLive
        exact fun k hBehind hWavers => hOpen (hCycles k a hWavers hBehind hFeeds)
  clear hLive
  induction hRounds with
  | seed hRests => exact hRests
  | step hLink _ ih => exact .step ⟨hLink.1.1, hLink.2⟩ ih

end Passes

end Network

end CrdtSync.Lib
