import CrdtSync.Core.Codec
import CrdtSync.Lib.Framed

/-!
# Key paths

A path is the frames of its keys, each a length and the key, so bytes that spell a
path spell one sequence of keys, and one path's bytes begin another's just when its
keys do. Bytes that spell none always begin some path's.
-/

namespace CrdtSync.KeyPath

open Lib Codec

/-- `none` where a key is longer than its length field holds, on which the source panics. -/
def encodePath : List Bytes → Option Bytes
  | [] => some []
  | key :: keys =>
    if key.length < 2 ^ 32 then (encodePath keys).map (putU32 key.length ++ key ++ ·) else none

def parseLoop : Nat → Bytes → Option (List Bytes)
  | 0, _ => none
  | fuel + 1, bytes =>
    if bytes.isEmpty then some []
    else if bytes.length < 4 then none
    else
      let klen := ofLeBytes (bytes.take 4)
      let rest := bytes.drop 4
      if rest.length < klen then none
      else (parseLoop fuel (rest.drop klen)).map (rest.take klen :: ·)

/-- The keys, or `none` if a length header runs past the end. -/
def parsePath (bytes : Bytes) : Option (List Bytes) := parseLoop (bytes.length + 1) bytes

/-- The four-byte length a key is framed with. -/
def header : LengthHeader where
  width := 4
  limit := 2 ^ 32
  put := putU32
  get := ofLeBytes
  width_pos := putU32_width_pos
  length_put := length_putU32
  get_put := ofLeBytes_putU32
  put_get := putU32_ofLeBytes
  get_lt := ofLeBytes_lt_of_length

theorem encodePath_eq_some_iff {keys : List Bytes} {b : Bytes} :
    encodePath keys = some b ↔
      (∀ key ∈ keys, key.length < header.limit) ∧ b = keys.flatMap header.frame := by
  induction keys generalizing b with
  | nil => simp [encodePath, eq_comm]
  | cons key keys ih =>
    rw [encodePath, List.forall_mem_cons, List.flatMap_cons]
    split
    next hKey =>
      rw [Option.map_eq_some_iff]
      constructor
      · rintro ⟨tail, hTail, rfl⟩
        obtain ⟨hFits, rfl⟩ := ih.mp hTail
        exact ⟨⟨hKey, hFits⟩, rfl⟩
      · rintro ⟨⟨-, hFits⟩, rfl⟩
        exact ⟨keys.flatMap header.frame, ih.mpr ⟨hFits, rfl⟩, rfl⟩
    next hKey =>
      constructor
      · intro h
        cases h
      · rintro ⟨⟨hFits, -⟩, -⟩
        exact absurd hFits hKey

theorem parseLoop_succ (fuel : Nat) (bytes : Bytes) : parseLoop (fuel + 1) bytes =
    if bytes.isEmpty then some []
    else (header.next bytes).bind fun (key, rest) => (parseLoop fuel rest).map (key :: ·) := by
  rw [parseLoop, LengthHeader.next]
  change (if bytes.isEmpty = true then _ else if bytes.length < header.width then _ else _) = _
  split
  next => rfl
  next =>
    split
    next => rfl
    next =>
      dsimp only
      change (if (bytes.drop header.width).length < header.get (bytes.take header.width) then _
        else _) = _
      split
      next => rfl
      next => rfl

theorem parseLoop_frames {keys : List Bytes} (hFits : ∀ key ∈ keys, key.length < header.limit)
    {fuel : Nat} (hFuel : keys.length < fuel) :
    parseLoop fuel (keys.flatMap header.frame) = some keys := by
  induction keys generalizing fuel with
  | nil =>
    obtain _ | fuel := fuel
    · omega
    rfl
  | cons key keys ih =>
    obtain _ | fuel := fuel
    · omega
    rw [List.length_cons] at hFuel
    have hShort : keys.length < fuel := by omega
    have hTail := ih (fun other hOther => hFits other (List.mem_cons_of_mem key hOther)) hShort
    have hFrame : (header.frame key ++ keys.flatMap header.frame).isEmpty = false := by
      rw [List.isEmpty_eq_false_iff, LengthHeader.frame]
      exact List.append_ne_nil_of_left_ne_nil
        (List.append_ne_nil_of_left_ne_nil (List.cons_ne_nil _ _) _) _
    rw [parseLoop_succ, List.flatMap_cons, hFrame, if_neg Bool.false_ne_true,
      LengthHeader.next_frame (hFits key List.mem_cons_self), Option.bind_some]
    dsimp only
    rw [hTail]
    rfl

theorem frames_of_parseLoop {fuel : Nat} {bytes : Bytes} {keys : List Bytes}
    (h : parseLoop fuel bytes = some keys) :
    (∀ key ∈ keys, key.length < header.limit) ∧ bytes = keys.flatMap header.frame := by
  induction fuel generalizing bytes keys with
  | zero => cases h
  | succ fuel ih =>
    rw [parseLoop_succ] at h
    split at h
    next hEmpty =>
      cases h
      exact ⟨by simp, List.isEmpty_iff.mp hEmpty⟩
    next =>
      obtain ⟨⟨key, rest⟩, hNext, hMap⟩ := Option.bind_eq_some_iff.mp h
      obtain ⟨tail, hTail, rfl⟩ := Option.map_eq_some_iff.mp hMap
      obtain ⟨rfl, hKey⟩ := LengthHeader.next_eq_some_iff.mp hNext
      obtain ⟨hFits, rfl⟩ := ih hTail
      exact ⟨List.forall_mem_cons.mpr ⟨hKey, hFits⟩, rfl⟩

theorem parsePath_eq_some_iff {bytes : Bytes} {keys : List Bytes} :
    parsePath bytes = some keys ↔ encodePath keys = some bytes := by
  rw [encodePath_eq_some_iff]
  constructor
  · exact frames_of_parseLoop
  · rintro ⟨hFits, rfl⟩
    have hLength := LengthHeader.length_le_frames (H := header) keys
    exact parseLoop_frames hFits (by omega)

theorem encodePath_prefix_iff {p q : List Bytes} {b c : Bytes} (hp : encodePath p = some b)
    (hq : encodePath q = some c) : b <+: c ↔ p <+: q := by
  obtain ⟨hFits, rfl⟩ := encodePath_eq_some_iff.mp hp
  obtain ⟨hFits', rfl⟩ := encodePath_eq_some_iff.mp hq
  clear hp hq
  induction p generalizing q with
  | nil => exact iff_of_true List.nil_prefix List.nil_prefix
  | cons key p ih =>
    rw [List.forall_mem_cons] at hFits
    cases q with
    | nil =>
      have hPos := header.width_pos
      have hFrame : ¬(key :: p).flatMap header.frame <+: [] := by
        intro h
        have hLength := h.length_le
        rw [List.flatMap_cons, List.length_append, LengthHeader.length_frame, List.length_nil]
          at hLength
        omega
      exact iff_of_false hFrame (by simp)
    | cons key' q =>
      rw [List.forall_mem_cons] at hFits'
      rw [List.flatMap_cons, List.flatMap_cons,
        LengthHeader.frame_prefix_frame hFits.1 hFits'.1, ih hFits.2 hFits'.2,
        List.cons_prefix_cons]

theorem exists_path_of_parsePath_eq_none {bytes : Bytes} (h : parsePath bytes = none) :
    ∃ keys b, encodePath keys = some b ∧ bytes <+: b := by
  unfold parsePath at h
  generalize hFuel : bytes.length + 1 = fuel at h
  replace hFuel : bytes.length < fuel := by omega
  induction fuel generalizing bytes with
  | zero => omega
  | succ fuel ih =>
    rw [parseLoop_succ] at h
    split at h
    next => cases h
    next =>
      obtain hNext | ⟨⟨key, rest⟩, hNext⟩ := Option.eq_none_or_eq_some (header.next bytes)
      · obtain ⟨key, hKey, hFrame⟩ := LengthHeader.exists_frame_of_next_eq_none hNext
        refine ⟨[key], header.frame key, ?_, hFrame⟩
        rw [encodePath_eq_some_iff]
        simp [hKey]
      · rw [hNext, Option.bind_some, Option.map_eq_none_iff] at h
        obtain ⟨rfl, hKey⟩ := LengthHeader.next_eq_some_iff.mp hNext
        have hShorter : rest.length < fuel := by
          have hPos := header.width_pos
          rw [List.length_append, LengthHeader.length_frame] at hFuel
          omega
        obtain ⟨keys, b, hKeys, hBegins⟩ := ih h hShorter
        obtain ⟨hFits, rfl⟩ := encodePath_eq_some_iff.mp hKeys
        refine ⟨key :: keys, (key :: keys).flatMap header.frame, ?_, ?_⟩
        · exact encodePath_eq_some_iff.mpr ⟨List.forall_mem_cons.mpr ⟨hKey, hFits⟩, rfl⟩
        · rw [List.flatMap_cons]
          exact (List.prefix_append_right_inj _).mpr hBegins

end CrdtSync.KeyPath
