import DefcoinCore.Lib.Ensures

/-!
# Runs of a partial machine

A machine is a step function `σ → ι → Except ε (σ × ω)`: from a state and an input it either stops
with an error or gives the next state and an output. A run is any sequence of inputs whose steps do
not stop; `Reachable guard step s0 s` says that a run from `s0` ends in `s` where every step meets
the side condition `guard` in the state it is taken from.

`Reachable.invariant` is the induction rule: what holds at the start and is kept by every guarded
step holds in every state that is reached.

A `Spec` is a machine on a simpler state: which inputs it allows, what it may answer, and how it
moves on. A machine whose every step is matched by the specification from related states never stops
on inputs that the specification allows, answers as it says, and ends in a related state
(`trace_refines`).
-/

namespace DefcoinCore.Machine

variable {σ ι ε ω : Type}

/-- The states that runs from `s0` reach, with every step taken under `guard`. -/
inductive Reachable (guard : σ → ι → Prop) (step : σ → ι → Except ε (σ × ω)) (s0 : σ) : σ → Prop
  | init : Reachable guard step s0 s0
  | step {s s' : σ} {i : ι} {o : ω} : Reachable guard step s0 s → guard s i →
      step s i = .ok (s', o) → Reachable guard step s0 s'

variable {guard guard' : σ → ι → Prop} {step : σ → ι → Except ε (σ × ω)} {s0 s s' : σ}

/-- What holds at the start and is kept by every guarded step holds throughout. -/
theorem Reachable.invariant {P : σ → Prop} (h : Reachable guard step s0 s) (hinit : P s0)
    (hstep : ∀ s i s' o, P s → guard s i → step s i = .ok (s', o) → P s') : P s := by
  induction h with
  | init => exact hinit
  | step _ hg hs ih => exact hstep _ _ _ _ ih hg hs

/-- A weaker side condition reaches at least as much. -/
theorem Reachable.mono (h : Reachable guard step s0 s) (hg : ∀ s i, guard s i → guard' s i) :
    Reachable guard' step s0 s := by
  induction h with
  | init => exact .init
  | step _ hgi hs ih => exact .step ih (hg _ _ hgi) hs

/-- The run of a list of inputs. -/
def run (step : σ → ι → Except ε (σ × ω)) (s : σ) (l : List ι) : Except ε σ :=
  l.foldlM (fun s i => (step s i).map Prod.fst) s

/-- A run that does not stop, of inputs that meet the side condition in every state, reaches its
end. -/
theorem Reachable.of_run {l : List ι} (hg : ∀ i ∈ l, ∀ s, guard s i) (h : run step s0 l = .ok s) :
    Reachable guard step s0 s := by
  refine (Ensures.foldlM (P := fun _ s => Reachable guard step s0 s) (E := fun _ => True) l
    (fun _ s1 i hi h1 => ?_) .init).of_ok h
  rcases hstep : step s1 i with e | ⟨s2, o⟩
  · trivial
  · exact .step h1 (hg i hi s1) hstep

/-! ## Refinement -/

/-- An abstract machine: the inputs it allows, the answers it may give and its next state. -/
structure Spec (α ι ω : Type) where
  legal : α → ι → Prop
  answer : α → ι → ω → Prop
  next : α → ι → α

namespace Spec

variable {α : Type} (S : Spec α ι ω)

/-- Every input of a run is allowed where it is given. -/
def Legal : α → List ι → Prop
  | _, [] => True
  | a, i :: l => S.legal a i ∧ Legal (S.next a i) l

/-- The answers of a run, each as the specification allows where its input is given. -/
def Answers : α → List ι → List ω → Prop
  | _, [], [] => True
  | a, i :: l, o :: os => S.answer a i o ∧ Answers (S.next a i) l os
  | _, _, _ => False

/-- The state after a run. -/
def final (a : α) (l : List ι) : α := l.foldl S.next a

end Spec

/-- The run of a list of inputs, with its outputs. -/
def trace (step : σ → ι → Except ε (σ × ω)) : σ → List ι → Except ε (σ × List ω)
  | s, [] => .ok (s, [])
  | s, i :: l => do
    let (s, o) ← step s i
    let (s, os) ← trace step s l
    pure (s, o :: os)

/-- Steps that are matched from related states make runs that are. -/
theorem trace_refines {α : Type} {S : Spec α ι ω} {R : σ → α → Prop}
    (hstep : ∀ s a i, R s a → S.legal a i →
      ∃ s' o, step s i = .ok (s', o) ∧ S.answer a i o ∧ R s' (S.next a i))
    (l : List ι) (s : σ) (a : α) (hR : R s a) (hl : S.Legal a l) :
    ∃ s' os, trace step s l = .ok (s', os) ∧ S.Answers a l os ∧ R s' (S.final a l) := by
  induction l generalizing s a with
  | nil => exact ⟨s, [], rfl, trivial, hR⟩
  | cons i l ih =>
    obtain ⟨s1, o, hs, ho, hR1⟩ := hstep s a i hR hl.1
    obtain ⟨s', os, htrace, hos, hR'⟩ := ih s1 (S.next a i) hR1 hl.2
    refine ⟨s', o :: os, ?_, ⟨ho, hos⟩, hR'⟩
    rw [trace, hs]
    show (trace step s1 l >>= fun r => pure (r.1, o :: r.2)) = _
    rw [htrace]
    rfl

/-- The same for a machine without outputs. -/
theorem foldlM_refines {α : Type} {S : Spec α ι ω} {R : σ → α → Prop} {step : σ → ι → Except ε σ}
    (hstep : ∀ s a i, R s a → S.legal a i → ∃ s', step s i = .ok s' ∧ R s' (S.next a i))
    (l : List ι) (s : σ) (a : α) (hR : R s a) (hl : S.Legal a l) :
    ∃ s', l.foldlM step s = .ok s' ∧ R s' (S.final a l) := by
  induction l generalizing s a with
  | nil => exact ⟨s, rfl, hR⟩
  | cons i l ih =>
    obtain ⟨s1, hs, hR1⟩ := hstep s a i hR hl.1
    obtain ⟨s', hrun, hR'⟩ := ih s1 (S.next a i) hR1 hl.2
    refine ⟨s', ?_, hR'⟩
    rw [List.foldlM_cons, hs]
    exact hrun

end DefcoinCore.Machine
