/-!
# Computations that may fail, one after the other

What a `do` block over `Except` comes to when its first step is known to have succeeded, and what
the first step of a block that has succeeded was. Nothing here mentions an error in particular.
-/

namespace Except

variable {ε α β γ : Type}

theorem ok_bind (a : α) (f : α → Except ε β) : (Except.ok a >>= f) = f a := rfl

theorem of_bind_ok {x : Except ε α} {g : α → Except ε β} {r : β} (h : (x >>= g) = .ok r) :
    ∃ a, x = .ok a ∧ g a = .ok r := by
  cases x with
  | error e => cases h
  | ok a => exact ⟨a, rfl, h⟩

theorem map_bind (x : Except ε α) (g : α → Except ε β) (f : β → γ) :
    (x >>= g).map f = x >>= fun a => (g a).map f := by
  cases x with
  | error e => rfl
  | ok a => rfl

end Except
