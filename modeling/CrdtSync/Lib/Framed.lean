import Mathlib.Data.List.Basic

/-!
# Length-framed logs

A log is a byte string of frames, each the length of a body and the body. It splits
in one way into whole frames and a tail too short to be one, and what is appended to
a log without a tail is read after what was there.
-/

namespace CrdtSync.Lib

/-- A fixed-width spelling of the lengths below a limit. -/
structure LengthHeader where
  width : Nat
  limit : Nat
  put : Nat → List UInt8
  get : List UInt8 → Nat
  width_pos : 0 < width
  length_put : ∀ n, (put n).length = width
  get_put : ∀ n, n < limit → get (put n) = n
  put_get : ∀ bytes, bytes.length = width → put (get bytes) = bytes
  get_lt : ∀ bytes, bytes.length = width → get bytes < limit

namespace LengthHeader

variable (H : LengthHeader)

def frame (body : List UInt8) : List UInt8 := H.put body.length ++ body

/-- The first body and what follows its frame, unless the bytes end first. -/
def next (bytes : List UInt8) : Option (List UInt8 × List UInt8) :=
  if bytes.length < H.width then none
  else
    let rest := bytes.drop H.width
    let len := H.get (bytes.take H.width)
    if rest.length < len then none else some (rest.take len, rest.drop len)

def splitLoop : Nat → List UInt8 → List (List UInt8) × List UInt8
  | 0, bytes => ([], bytes)
  | fuel + 1, bytes =>
    match H.next bytes with
    | none => ([], bytes)
    | some (body, rest) =>
      let (bodies, tail) := splitLoop fuel rest
      (body :: bodies, tail)

/-- The bodies of the whole frames, and the tail. -/
def split (bytes : List UInt8) : List (List UInt8) × List UInt8 := H.splitLoop bytes.length bytes

variable {H}

theorem length_frame (body : List UInt8) : (H.frame body).length = H.width + body.length := by
  rw [frame, List.length_append, H.length_put]

theorem next_frame {body : List UInt8} (h : body.length < H.limit) (rest : List UInt8) :
    H.next (H.frame body ++ rest) = some (body, rest) := by
  have hPut := H.length_put body.length
  have hWhole : ¬(H.frame body ++ rest).length < H.width := by
    rw [List.length_append, length_frame]
    omega
  have hAll : H.frame body ++ rest = H.put body.length ++ (body ++ rest) := by
    rw [frame, List.append_assoc]
  have hTake : (H.frame body ++ rest).take H.width = H.put body.length := by
    rw [hAll, ← hPut, List.take_left]
  have hDrop : (H.frame body ++ rest).drop H.width = body ++ rest := by
    rw [hAll, ← hPut, List.drop_left]
  have hLength : ¬(body ++ rest).length < body.length := by simp
  rw [next, if_neg hWhole]
  dsimp only
  rw [hTake, hDrop, H.get_put _ h, if_neg hLength, List.take_left, List.drop_left]

theorem next_eq_some_iff {bytes body rest : List UInt8} :
    H.next bytes = some (body, rest) ↔ bytes = H.frame body ++ rest ∧ body.length < H.limit := by
  constructor
  · intro h
    unfold next at h
    split at h
    · cases h
    next hWidth =>
      dsimp only at h
      split at h
      · cases h
      next hLength =>
        obtain ⟨rfl, rfl⟩ := Prod.mk.inj (Option.some.inj h)
        have hHeader : (bytes.take H.width).length = H.width := by
          rw [List.length_take]
          omega
        have hBody : ((bytes.drop H.width).take (H.get (bytes.take H.width))).length =
            H.get (bytes.take H.width) := by
          rw [List.length_take]
          omega
        refine ⟨?_, by rw [hBody]; exact H.get_lt _ hHeader⟩
        rw [frame, hBody, H.put_get _ hHeader, List.append_assoc, List.take_append_drop,
          List.take_append_drop]
  · rintro ⟨rfl, hBody⟩
    exact next_frame hBody rest

/-- What is too short to be a frame is the start of one. -/
theorem exists_frame_of_next_eq_none {t : List UInt8} (h : H.next t = none) :
    ∃ body, body.length < H.limit ∧ t <+: H.frame body := by
  unfold next at h
  split at h
  next hWidth =>
    -- The header itself is cut: fill it up, and the body it then announces.
    have hHeader : (t ++ List.replicate (H.width - t.length) 0).length = H.width := by
      rw [List.length_append, List.length_replicate]
      omega
    refine ⟨List.replicate (H.get (t ++ List.replicate (H.width - t.length) 0)) 0, ?_, ?_⟩
    · rw [List.length_replicate]
      exact H.get_lt _ hHeader
    · rw [frame, List.length_replicate, H.put_get _ hHeader, List.append_assoc]
      exact List.prefix_append ..
  next hWidth =>
    dsimp only at h
    split at h
    next hBody =>
      have hHeader : (t.take H.width).length = H.width := by
        rw [List.length_take]
        omega
      let missing := H.get (t.take H.width) - (t.drop H.width).length
      have hLength : (t.drop H.width ++ List.replicate missing 0).length =
          H.get (t.take H.width) := by
        rw [List.length_append, List.length_replicate]
        omega
      refine ⟨t.drop H.width ++ List.replicate missing 0, ?_, ?_⟩
      · rw [hLength]
        exact H.get_lt _ hHeader
      · rw [frame, hLength, H.put_get _ hHeader, ← List.append_assoc, List.take_append_drop]
        exact List.prefix_append ..
    next => cases h

theorem frame_prefix_frame {body body' : List UInt8} (hBody : body.length < H.limit)
    (hBody' : body'.length < H.limit) {rest rest' : List UInt8} :
    H.frame body ++ rest <+: H.frame body' ++ rest' ↔ body = body' ∧ rest <+: rest' := by
  constructor
  · rintro ⟨more, hMore⟩
    have hRead := next_frame hBody (rest ++ more)
    rw [← List.append_assoc, hMore, next_frame hBody'] at hRead
    obtain ⟨rfl, rfl⟩ := Prod.mk.inj (Option.some.inj hRead)
    exact ⟨rfl, List.prefix_append ..⟩
  · rintro ⟨rfl, hRest⟩
    exact (List.prefix_append_right_inj _).mpr hRest

theorem splitLoop_frames {bodies : List (List UInt8)} (hFits : ∀ body ∈ bodies, body.length < H.limit)
    {t : List UInt8} (ht : H.next t = none) {fuel : Nat} (hFuel : bodies.length ≤ fuel) :
    H.splitLoop fuel (bodies.flatMap H.frame ++ t) = (bodies, t) := by
  induction bodies generalizing fuel with
  | nil =>
    cases fuel with
    | zero => rfl
    | succ fuel => rw [List.flatMap_nil, List.nil_append, splitLoop, ht]
  | cons body bodies ih =>
    obtain _ | fuel := fuel
    · simp at hFuel
    have hRest := ih (fun other hOther => hFits other (List.mem_cons_of_mem body hOther))
      (Nat.le_of_succ_le_succ hFuel)
    rw [List.flatMap_cons, List.append_assoc, splitLoop, next_frame (hFits body List.mem_cons_self)]
    dsimp only
    rw [hRest]

theorem length_le_frames (bodies : List (List UInt8)) :
    bodies.length ≤ (bodies.flatMap H.frame).length := by
  induction bodies with
  | nil => exact Nat.le_refl _
  | cons body bodies ih =>
    have hPos := H.width_pos
    rw [List.flatMap_cons, List.length_append, List.length_cons, length_frame]
    omega

theorem split_frames {bodies : List (List UInt8)} (hFits : ∀ body ∈ bodies, body.length < H.limit)
    {t : List UInt8} (ht : H.next t = none) : H.split (bodies.flatMap H.frame ++ t) = (bodies, t) := by
  refine splitLoop_frames hFits ht ?_
  have hLength := length_le_frames (H := H) bodies
  rw [List.length_append]
  omega

theorem next_nil : H.next [] = none := by
  rw [next, if_pos]
  exact H.width_pos

end LengthHeader

end CrdtSync.Lib
