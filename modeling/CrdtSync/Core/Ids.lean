import Mathlib.Algebra.Ring.Nat
import Mathlib.Data.List.Lex
import Mathlib.Order.Fin.Basic
import Mathlib.Order.Lattice.Nat

/-!
# Identities

Replica and element identities. An `ElementId` is the hash of the derivations
that led to it; UUIDv5 is taken to be injective, so a derived id is the
derivation itself and no derived id is one of the well-known ones.
-/

namespace CrdtSync

/-- Raw key, payload and path bytes. -/
abbrev Bytes := List UInt8

instance Bytes.order : LinearOrder UInt8 where
  le_refl := UInt8.le_refl
  le_trans _ _ _ := UInt8.le_trans
  le_antisymm _ _ := UInt8.le_antisymm
  le_total := UInt8.le_total
  lt_iff_le_not_ge a b := by
    simp only [UInt8.lt_iff_toNat_lt, UInt8.le_iff_toNat_le]
    omega
  toDecidableLE := inferInstance

/-- The `width` low bytes of a number, least significant first. -/
def leBytes : Nat → Nat → Bytes
  | 0, _ => []
  | width + 1, n => UInt8.ofNat n :: leBytes width (n / 256)

theorem leBytes_length (width n : Nat) : (leBytes width n).length = width := by
  induction width generalizing n with
  | zero => rfl
  | succ width ih => simp [leBytes, ih]

theorem leBytes_inj {width m n : Nat} (hm : m < 256 ^ width) (hn : n < 256 ^ width)
    (h : leBytes width m = leBytes width n) : m = n := by
  induction width generalizing m n with
  | zero => omega
  | succ width ih =>
    simp only [leBytes, List.cons.injEq] at h
    have hLow : m % 256 = n % 256 := by
      simpa [UInt8.toNat_ofNat'] using congrArg UInt8.toNat h.1
    rw [Nat.pow_succ] at hm hn
    have hHigh := ih (by omega) (by omega) h.2
    omega

instance Bytes.lawfulBEq : LawfulBEq Bytes := inferInstance

/-- Sixteen bytes spell at least one number. -/
instance sixteenBytes_neZero : NeZero (2 ^ 128) := ⟨by decide⟩

/-- A replica identity: sixteen bytes, compared as the number they spell. -/
structure ClientId where
  bytes : Fin (2 ^ 128)

namespace ClientId

theorem bytes_injective : Function.Injective bytes := by
  intro a b h
  cases a
  cases b
  exact congrArg ClientId.mk h

instance : LinearOrder ClientId := LinearOrder.lift' bytes bytes_injective

instance transCmp : Std.TransCmp (compare : ClientId → ClientId → Ordering) := inferInstance

instance lawfulEqCmp : Std.LawfulEqCmp (compare : ClientId → ClientId → Ordering) := inferInstance

end ClientId

inductive ElementKind
  | scalar
  | register
  | counter
  | map
  | list
  | text
  | xmlElement
  | xmlFragment
deriving DecidableEq

namespace ElementKind

/-- The discriminant the enum's `as u8` cast reads. -/
def tag : ElementKind → Nat
  | scalar => 0
  | register => 1
  | counter => 2
  | map => 3
  | list => 4
  | text => 5
  | xmlElement => 6
  | xmlFragment => 7

theorem tag_injective : Function.Injective tag := by
  intro a b h
  cases a <;> cases b <;> first | rfl | cases h

def isContainer : ElementKind → Bool
  | map | list | text | xmlElement | xmlFragment => true
  | scalar | register | counter => false

end ElementKind

/-- An element id: sixteen raw bytes, or the UUIDv5 of `(parent, key, kind)`. -/
inductive ElementId
  | fromBytes (bytes : Fin (2 ^ 128))
  | derive (parent : ElementId) (key : Bytes) (kind : ElementKind)

namespace ElementId

/-- The derivation spelled as a word, outermost step first. It only serves to
order the keys of a finite map; the byte order of the hashes is `IdBytes`. -/
def spell : ElementId → List Nat
  | fromBytes bytes => [0, bytes]
  | derive parent key kind =>
    1 :: kind.tag :: key.length :: (key.map UInt8.toNat ++ spell parent)

theorem spell_injective : Function.Injective spell := by
  intro a
  induction a with
  | fromBytes a =>
    intro b h
    cases b with
    | fromBytes b => simpa [spell, Fin.val_inj] using h
    | derive => simp [spell] at h
  | derive parent key kind ih =>
    intro b h
    cases b with
    | fromBytes => simp [spell] at h
    | derive parent' key' kind' =>
      simp only [spell, List.cons.injEq, true_and] at h
      obtain ⟨hKind, hLength, hRest⟩ := h
      obtain ⟨hKey, hParent⟩ := List.append_inj hRest (by simpa using hLength)
      have hKey' : key = key' := List.map_injective_iff.mpr (fun _ _ => UInt8.toNat_inj.mp) hKey
      rw [ih hParent, hKey', ElementKind.tag_injective hKind]

instance : LinearOrder ElementId := LinearOrder.lift' spell spell_injective

instance transCmp : Std.TransCmp (compare : ElementId → ElementId → Ordering) := inferInstance

instance lawfulEqCmp : Std.LawfulEqCmp (compare : ElementId → ElementId → Ordering) := inferInstance

instance lawfulBEq : LawfulBEq ElementId := inferInstance

end ElementId

/-- The bytes of every id. The hash that gives them is outside the repository; all
the code uses of it is that two ids differ. -/
class IdBytes where
  asBytes : ElementId → Bytes
  injective : Function.Injective asBytes

namespace IdBytes

def frame (key : Bytes) : Bytes := key.flatMap fun b => [1, b]

theorem frame_inj {a b x y : Bytes} (h : frame a ++ 0 :: x = frame b ++ 0 :: y) :
    a = b ∧ x = y := by
  induction a generalizing b with
  | nil =>
    cases b with
    | nil => exact ⟨rfl, List.tail_eq_of_cons_eq h⟩
    | cons => simp [frame] at h
  | cons c a ih =>
    cases b with
    | nil => simp [frame] at h
    | cons d b =>
      simp only [frame, List.flatMap_cons, List.cons_append, List.nil_append, List.cons.injEq,
        true_and] at h
      obtain ⟨hKey, hRest⟩ := ih h.2
      exact ⟨congrArg₂ List.cons h.1 hKey, hRest⟩

def spellBytes : ElementId → Bytes
  | .fromBytes bytes => 0 :: leBytes 16 bytes
  | .derive parent key kind => 1 :: UInt8.ofNat kind.tag :: (frame key ++ 0 :: spellBytes parent)

theorem spellBytes_injective : Function.Injective spellBytes := by
  have hWidth : (2 : Nat) ^ 128 = 256 ^ 16 := by decide
  intro a
  induction a with
  | fromBytes a =>
    intro b h
    cases b with
    | fromBytes b =>
      have hBytes := leBytes_inj (a.isLt.trans_eq hWidth) (b.isLt.trans_eq hWidth)
        (List.tail_eq_of_cons_eq h)
      exact congrArg ElementId.fromBytes (Fin.ext hBytes)
    | derive => simp [spellBytes] at h
  | derive parent key kind ih =>
    intro b h
    cases b with
    | fromBytes => simp [spellBytes] at h
    | derive parent' key' kind' =>
      simp only [spellBytes, List.cons.injEq, true_and] at h
      obtain ⟨hKind, hRest⟩ := h
      obtain ⟨hKey, hParent⟩ := frame_inj hRest
      have hTag : kind = kind' := by
        revert hKind
        cases kind <;> cases kind' <;> decide
      rw [ih hParent, hKey, hTag]

/-- Ids that are their own derivations: no two share their bytes. -/
@[reducible] def spelled : IdBytes := ⟨spellBytes, spellBytes_injective⟩

end IdBytes

end CrdtSync
