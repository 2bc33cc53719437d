import Mathlib.Tactic

/-!
# Postconditions of partial computations

`Ensures x Q E` says what a computation `x : Except ε α` can end with: a result that satisfies `Q`,
or an error that satisfies `E`. The rules follow the way computations are put together: `pure` and
`throw`, sequencing (`bind`) and weakening (`mono`). A function gets one `Ensures` lemma, and the
lemma of a caller is put together from those of its callees without unfolding them.

A check is a computation without a result: it passes, or it raises its error (`reject`). Checks in a
row pass if and only if each one does.
-/

namespace DefcoinCore

open List

variable {ε α β : Type}

/-- The result satisfies `Q`, or the error satisfies `E`. -/
def Ensures (x : Except ε α) (Q : α → Prop) (E : ε → Prop) : Prop :=
  match x with
  | .ok a => Q a
  | .error e => E e

/-- The computation returns, and the result satisfies `Q`. -/
abbrev Returns (x : Except ε α) (Q : α → Prop) : Prop := Ensures x Q fun _ => False

/-- If the computation returns, the result satisfies `Q`. -/
abbrev IfReturns (x : Except ε α) (Q : α → Prop) : Prop := Ensures x Q fun _ => True

/-- A sequence that returned: its first part returned, and the rest did from there. -/
theorem bind_eq_ok_iff {x : Except ε α} {f : α → Except ε β} {b : β} :
    x >>= f = .ok b ↔ ∃ a, x = .ok a ∧ f a = .ok b := by
  rcases x with e | a
  · exact ⟨fun h => absurd h (by simp [bind, Except.bind]), fun ⟨_, h, _⟩ => absurd h (by simp)⟩
  · exact ⟨fun h => ⟨a, rfl, h⟩, fun ⟨_, h, hf⟩ => by rw [Except.ok.inj h]; exact hf⟩

/-- A sequence whose first part returned. -/
theorem ok_bind (a : α) (f : α → Except ε β) : (Except.ok a >>= f) = f a := rfl

namespace Ensures

variable {x : Except ε α} {f : α → Except ε β} {Q Q' : α → Prop} {E E' : ε → Prop} {R : β → Prop}

/-- A run on a fixed input is tested by computing it. -/
instance [DecidablePred Q] [DecidablePred E] : Decidable (Ensures x Q E) :=
  match x with
  | .ok a => inferInstanceAs (Decidable (Q a))
  | .error e => inferInstanceAs (Decidable (E e))

/-- Sequencing: the rest runs from a result of the first part. -/
theorem bind (hx : Ensures x Q E) (hf : ∀ a, Q a → Ensures (f a) R E) : Ensures (x >>= f) R E := by
  rcases x with e | a
  · exact hx
  · exact hf a hx

/-- A branch: either side, from what was tested. -/
theorem ite {c : Prop} [Decidable c] {y : Except ε α} (hx : c → Ensures x Q E)
    (hy : ¬ c → Ensures y Q E) : Ensures (if c then x else y) Q E := by
  split_ifs with hc
  · exact hx hc
  · exact hy hc

/-- An error is given another form. -/
theorem mapError {ε' : Type} {g : ε → ε'} {F : ε' → Prop} (hx : Ensures x Q fun e => F (g e)) :
    Ensures (x.mapError g) Q F := by
  rcases x with e | a
  · exact hx
  · exact hx

/-- A computation that ensures more ensures less. -/
theorem mono (hx : Ensures x Q E) (hQ : ∀ a, Q a → Q' a) (hE : ∀ e, E e → E' e) :
    Ensures x Q' E' := by
  rcases x with e | a
  · exact hE e hx
  · exact hQ a hx

/-- A weaker postcondition. -/
theorem imp (hx : Ensures x Q E) (hQ : ∀ a, Q a → Q' a) : Ensures x Q' E :=
    hx.mono hQ fun _ he => he

/-- What returns may be allowed any error. -/
theorem or_error (hx : Returns x Q) : Ensures x Q E := hx.mono (fun _ h => h) fun _ he => he.elim

/-- Only the error matters. -/
theorem forget (hx : Ensures x Q E) : Ensures x (fun _ => True) E := hx.imp fun _ _ => trivial

/-- A loop over a list: `P` holds of the part that was run through and the state after it. -/
theorem foldlM {f : β → α → Except ε β} {P : List α → β → Prop} {b : β} (l : List α)
    (hstep : ∀ done b a, a ∈ l → P done b → Ensures (f b a) (P (done ++ [a])) E) (h : P [] b) :
    Ensures (l.foldlM f b) (P l) E := by
  -- The induction is on the part to run through, for every part that was run through before.
  have hrun : ∀ (todo done : List α) (b : β), (∀ a ∈ todo, a ∈ l) → P done b →
      Ensures (todo.foldlM f b) (P (done ++ todo)) E := by
    intro todo
    induction todo with
    | nil =>
      intro done b _ hb
      rw [append_nil]
      exact hb
    | cons a todo ih =>
      intro done b hmem hb
      refine (hstep done b a (hmem a mem_cons_self) hb).bind fun b' hb' => ?_
      have h' := ih (done ++ [a]) b' (fun x hx => hmem x (mem_cons_of_mem a hx)) hb'
      rwa [append_assoc, singleton_append] at h'
  exact hrun l [] b (fun _ h => h) h

/-- A computation that raises no error returns. -/
theorem exists_ok (hx : Returns x Q) : ∃ a, x = .ok a ∧ Q a := by
  rcases x with e | a
  · exact hx.elim
  · exact ⟨a, rfl, hx⟩

/-- A computation that does not return raises an error. -/
theorem exists_error (hx : Ensures x (fun _ => False) E) : ∃ e, x = .error e ∧ E e := by
  rcases x with e | a
  · exact ⟨e, rfl, hx⟩
  · exact hx.elim

/-- What holds of the result that was returned. -/
theorem of_ok (hx : Ensures x Q E) {a : α} (h : x = .ok a) : Q a := by
  rw [h] at hx
  exact hx

/-- What holds of the error that was raised. -/
theorem of_error (hx : Ensures x Q E) {e : ε} (h : x = .error e) : E e := by
  rw [h] at hx
  exact hx

/-- A loop that returned: what every round keeps holds at its end. -/
theorem foldlM_ok {f : β → α → Except ε β} {P : List α → β → Prop} {b b' : β} {l : List α}
    (hrun : l.foldlM f b = .ok b') (h : P [] b)
    (hstep : ∀ done b a b', a ∈ l → P done b → f b a = .ok b' → P (done ++ [a]) b') : P l b' := by
  refine (Ensures.foldlM (E := fun _ => True) l (fun done b a ha hb => ?_) h).of_ok hrun
  rcases hf : f b a with e | b'
  · trivial
  · exact hstep done b a b' ha hb hf

end Ensures

/-! ## Checks -/

/-- A check that fails on a condition. -/
def reject (cond : Bool) (e : ε) : Except ε Unit := if cond then .error e else .ok ()

theorem reject_eq_ok_iff {cond : Bool} {e : ε} {u : Unit} : reject cond e = .ok u ↔
    cond = false := by
  cases cond
  · exact ⟨fun _ => rfl, fun _ => rfl⟩
  · exact ⟨nofun, nofun⟩

/-- Checks in a row. -/
theorem seq_eq_ok_iff {x : Except ε Unit} {y : Except ε β} {b : β} :
    (x >>= fun _ => y) = .ok b ↔ x = .ok () ∧ y = .ok b := by
  rw [bind_eq_ok_iff]
  exact ⟨fun ⟨_, hx, hy⟩ => ⟨hx, hy⟩, fun ⟨hx, hy⟩ => ⟨(), hx, hy⟩⟩

/-- A check of all items of a list. -/
theorem forM_eq_ok_iff {f : α → Except ε Unit} {l : List α} :
    l.forM f = .ok () ↔ ∀ a ∈ l, f a = .ok () := by
  induction l with
  | nil => exact ⟨fun _ _ h => absurd h not_mem_nil, fun _ => rfl⟩
  | cons a l ih =>
    show (f a >>= fun _ => l.forM f) = .ok () ↔ _
    rw [seq_eq_ok_iff, ih, forall_mem_cons]

/-- A check whose error is allowed. -/
theorem Ensures.reject {cond : Bool} {e : ε} {E : ε → Prop} (h : cond → E e) :
    Ensures (DefcoinCore.reject cond e) (fun _ => cond = false) E := by
  cases cond
  · exact rfl
  · exact h rfl

end DefcoinCore
