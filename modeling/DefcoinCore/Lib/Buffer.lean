import Mathlib.Tactic

/-!
# Buffers

A vector that is filled from the front: `memcpy` overwrites it from a position on and `resize` gives
it another length. What stands before a position is not touched by a copy to that position
(`take_memcpy`), so a buffer together with a fill position holds the data copied into it so far,
however it was cut into pieces and however far ahead the buffer was allocated.
-/

namespace DefcoinCore

open List

namespace Buffer

variable {A : Type}

/-- The buffer with `data` copied to the position `pos`. -/
def memcpy (buf : List A) (pos : Nat) (data : List A) : List A :=
  buf.take pos ++ (data ++ buf.drop (pos + data.length))

/-- The buffer with `n` elements, new ones being `x`. -/
def resize (buf : List A) (n : Nat) (x : A) : List A :=
  buf.take n ++ List.replicate (n - buf.length) x

variable {buf data : List A} {pos : Nat}

/-- A copy that fits keeps the length. -/
theorem length_memcpy (h : pos + data.length ≤ buf.length) :
    (memcpy buf pos data).length = buf.length := by
  rw [memcpy, length_append, length_append, length_take, length_drop]
  omega

/-- Up to the end of a copy the buffer holds what was before it, and the data. -/
theorem take_memcpy (h : pos ≤ buf.length) :
    (memcpy buf pos data).take (pos + data.length) = buf.take pos ++ data := by
  have hlen : (buf.take pos ++ data).length = pos + data.length := by
    rw [length_append, length_take_of_le h]
  rw [memcpy, ← append_assoc]
  exact take_left' hlen

@[simp]
theorem length_resize (buf : List A) (n : Nat) (x : A) : (resize buf n x).length = n := by
  rw [resize, length_append, length_take, length_replicate]
  omega

/-- What fits stays. -/
theorem take_resize {n k : Nat} (x : A) (hn : k ≤ n) (hk : k ≤ buf.length) :
    (resize buf n x).take k = buf.take k := by
  rw [resize, take_append_of_le_length (by rw [length_take]; omega), take_take, Nat.min_eq_left hn]

end Buffer

end DefcoinCore
