import DefcoinCore.Lib.Ensures

/-!
# Refinement of partial computations

`Refines R E x y` relates two computations that may fail: both return, with results related by `R`,
or both fail, with errors related by `E`. A computation on a detailed state refines the one on the
state it stands for if the two are related in this way. The rules follow how computations are put
together, as those of `Ensures` do.

`runAll` is a loop that changes a state and may fail in the middle. The rounds before the failure
are not taken back.
-/

namespace DefcoinCore

variable {ε ε' α α' β β' σ : Type}

/-- Both computations return, with related results, or both fail, with related errors. -/
def Refines (R : α → β → Prop) (E : ε → ε' → Prop) (x : Except ε α) (y : Except ε' β) : Prop :=
  match x, y with
  | .ok a, .ok b => R a b
  | .error e, .error e' => E e e'
  | _, _ => False

namespace Refines

variable {R : α → β → Prop} {S : α' → β' → Prop} {E : ε → ε' → Prop} {E' : ε' → ε → Prop}
  {x : Except ε α} {y : Except ε' β} {f : α → Except ε α'} {g : β → Except ε' β'}

/-- Sequencing: the rest runs from related results. -/
theorem bind (hxy : Refines R E x y) (hfg : ∀ a b, R a b → Refines S E (f a) (g b)) :
    Refines S E (x >>= f) (y >>= g) := by
  match x, y, hxy with
  | .error _, .error _, he => exact he
  | .ok a, .ok b, hab => exact hfg a b hab

/-- A loop over the same items, from related states. -/
theorem foldlM {ι : Type} {step : α → ι → Except ε α} {step' : β → ι → Except ε' β}
    (hstep : ∀ a b i, R a b → Refines R E (step a i) (step' b i)) (l : List ι) {a : α} {b : β}
    (h : R a b) : Refines R E (l.foldlM step a) (l.foldlM step' b) := by
  induction l generalizing a b with
  | nil => exact h
  | cons i l ih =>
    exact (hstep a b i h).bind fun a' b' h' => ih h'

section

variable (hxy : Refines R E x y)

include hxy

/-- A result of the refined computation comes from one of the refining computation. -/
theorem ok_of_ok {b : β} (hy : y = .ok b) : ∃ a, x = .ok a ∧ R a b := by
  subst hy
  rcases x with e | a
  · exact hxy.elim
  · exact ⟨a, rfl, hxy⟩

/-- What the refining computation does stands for what the refined computation does. -/
theorem ensures : Ensures x (fun a => ∃ b, y = .ok b ∧ R a b)
    fun e => ∃ e', y = .error e' ∧ E e e' := by
  match x, y, hxy with
  | .error _, .error e', he => exact ⟨e', rfl, he⟩
  | .ok _, .ok b, hab => exact ⟨b, rfl, hab⟩

/-- Results in another form. -/
theorem map (F : α → α') (G : β → β') (h : ∀ a b, R a b → S (F a) (G b)) :
    Refines S E (x.map F) (y.map G) := by
  match x, y, hxy with
  | .error _, .error _, he => exact he
  | .ok a, .ok b, hab => exact h a b hab

/-- What holds of the results of the refined computation. -/
theorem and_right {Q : β → Prop} (h : ∀ b, y = .ok b → Q b) :
    Refines (fun a b => R a b ∧ Q b) E x y := by
  match x, y, hxy with
  | .error _, .error _, he => exact he
  | .ok a, .ok b, hab => exact ⟨hab, h b rfl⟩

end

/-- The same computation, with its errors in another form. -/
theorem mapError {F : ε → ε'} (z : Except ε α) (hE : ∀ e, E' (F e) e) :
    Refines (fun a b => a = b) E' (z.mapError F) z := by
  rcases z with e | a
  · exact hE e
  · exact rfl

/-- A check of the same condition. -/
theorem reject {cond : Bool} {e : ε} {e' : ε'} (h : E e e') :
    Refines (fun _ _ => True) E (reject cond e) (DefcoinCore.reject cond e') := by
  rcases cond with _ | _
  · exact trivial
  · exact h

end Refines

/-- A loop that keeps the state of the rounds before one that fails. -/
def runAll {ι : Type} (step : σ → ι → Except ε σ) : List ι → σ → σ × Except ε Unit
  | [], s => (s, .ok ())
  | i :: l, s =>
    match step s i with
    | .ok s' => runAll step l s'
    | .error e => (s, .error e)

/-- What every round keeps holds at the end of the loop and wherever it stops, and an error is one
of a round. -/
theorem runAll_spec {ι : Type} {step : σ → ι → Except ε σ} {P : σ → Prop} {bad : ε}
    (hstep : ∀ s i, P s → Ensures (step s i) P fun e => e ≠ bad) (l : List ι) {s : σ} (h : P s) :
    P (runAll step l s).1 ∧ (runAll step l s).2 ≠ .error bad := by
  induction l generalizing s with
  | nil => exact ⟨h, nofun⟩
  | cons i l ih =>
    unfold runAll
    rcases hs : step s i with e | s'
    · exact ⟨h, fun heq => (hstep s i h).of_error hs (Except.error.inj heq)⟩
    · exact ih ((hstep s i h).of_ok hs)

end DefcoinCore
