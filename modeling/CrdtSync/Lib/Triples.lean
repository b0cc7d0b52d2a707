/-!
# Postconditions of a result

What holds of a computation that may fail: one predicate for the values it returns and one
for the errors it raises.
-/

namespace CrdtSync

variable {ε α β : Type} {E : ε → Prop} {Q Q' : α → Prop}

def Meets (E : ε → Prop) (Q : α → Prop) : Except ε α → Prop
  | .ok a => Q a
  | .error e => E e

namespace Meets

theorem error {e : ε} (h : E e) : Meets E Q (.error e : Except ε α) := h

theorem mono {x : Except ε α} (h : Meets E Q x) (hQ : ∀ a, Q a → Q' a) : Meets E Q' x := by
  cases x with
  | ok a => exact hQ a h
  | error e => exact h

/-- The rule of sequencing. -/
theorem bind {R : β → Prop} {x : Except ε α} {f : α → Except ε β} (h : Meets E Q x)
    (hf : ∀ a, Q a → Meets E R (f a)) : Meets E R (x >>= f) := by
  cases x with
  | ok a => exact hf a h
  | error e => exact h

theorem of_ok {x : Except ε α} {a : α} (h : Meets E Q x) (hOk : x = .ok a) : Q a := by
  subst hOk
  exact h

theorem of_error {x : Except ε α} {e : ε} (h : Meets E Q x) (hError : x = .error e) : E e := by
  subst hError
  exact h

end Meets

end CrdtSync
