import DefcoinCore.Lib.Ensures
import DefcoinCore.Lib.OrderedSet

/-!
# Reachability in a finite graph

A worklist finds what can be reached from the nodes of a set: it takes the first node off the list,
notes it, and puts its successors on the list unless they are noted (`closure`). What holds of the
nodes on the list and is kept by edges holds of all that is noted (`closure_induction`).

A loop that changes a state on the way is a `walk`. Each node that can be reached is visited once
(`walk_spec`), so what a visit does may be described in terms of the state before the loop.
-/

namespace DefcoinCore.Reach

open StdSet

variable {K : Type} [Ord K] [Std.TransOrd K] [Std.LawfulEqOrd K]

/-- The worklist: `stage` is to be looked at, `done` is noted. -/
def closure (next : K → StdSet K) : Nat → StdSet K → StdSet K → StdSet K
  | 0, _, done => done
  | fuel + 1, stage, done =>
    match StdSet.first? stage with
    | none => done
    | some a =>
      closure next fuel
        ((next a).toList.foldl (fun stage b => if b ∈ done.insert a then stage else stage.insert b)
          (stage.erase a))
        (done.insert a)

/-- What holds of the list and of the noted nodes, and is kept by edges, holds of the result. -/
theorem closure_induction {next : K → StdSet K} {P : K → Prop}
    (hnext : ∀ a, P a → ∀ b ∈ next a, P b)
    {fuel : Nat} {stage done : StdSet K} (hstage : ∀ a ∈ stage, P a)
    (hdone : ∀ a ∈ done, P a) {x : K} (h : x ∈ closure next fuel stage done) : P x := by
  induction fuel generalizing stage done with
  | zero => exact hdone x h
  | succ fuel ih =>
    rw [closure] at h
    cases hfirst : first? stage with
    | none =>
      rw [hfirst] at h
      exact hdone x h
    | some a =>
      rw [hfirst] at h
      have ha : P a := hstage a (first?_mem hfirst)
      refine ih (fun b hb => ?_) (fun b hb => ?_) h
      · rcases mem_foldl_insert_unless.mp hb with ⟨hb, -⟩ | hb
        · exact hnext a ha b (Std.ExtTreeSet.mem_toList.mp hb)
        · exact hstage b ((mem_erase_iff ..).mp hb).2
      · rcases (mem_insert_iff ..).mp hb with rfl | hb
        · exact ha
        · exact hdone b hb

/-! ## Loops with a state -/

variable {σ ε : Type}

/-- The worklist of a loop with a state; a visit gives the successors of a node. -/
def walk (visit : σ → K → Except ε (List K × σ)) : Nat → StdSet K → StdSet K → σ → Except ε σ
  | 0, _, _, s => .ok s
  | fuel + 1, stage, done, s =>
    match StdSet.first? stage with
    | none => .ok s
    | some a => do
      let (next, s) ← visit s a
      walk visit fuel
        (next.foldl (fun stage b => if b ∈ done.insert a then stage else stage.insert b)
          (stage.erase a))
        (done.insert a) s

open Relation

/-- What holds of the list and of the noted nodes: they can be reached from `t`, and the successors
of a noted node are on the list or noted. -/
structure Frontier (R : K → K → Prop) (t : K) (stage done : StdSet K) : Prop where
  root : t ∈ done ∨ t ∈ stage
  reached : ∀ a, a ∈ done ∨ a ∈ stage → ReflTransGen R t a
  fresh : ∀ a ∈ stage, a ∉ done
  closed : ∀ a ∈ done, ∀ b, R a b → b ∈ done ∨ b ∈ stage

variable {R : K → K → Prop} {t : K} {stage done : StdSet K}

omit [Std.LawfulEqOrd K] in
/-- When the list is empty, all that can be reached is noted. -/
theorem Frontier.mem_done_iff (h : Frontier R t stage done) (hempty : ∀ a, a ∉ stage) (a : K) :
    a ∈ done ↔ ReflTransGen R t a := by
  refine ⟨fun ha => h.reached a (.inl ha), fun ha => ?_⟩
  induction ha with
  | refl => exact h.root.resolve_right (hempty t)
  | tail _ hedge ih => exact (h.closed _ ih _ hedge).resolve_right (hempty _)

/-- One round of the loop. -/
theorem Frontier.visit (h : Frontier R t stage done) {a : K} (ha : a ∈ stage) {next : List K}
    (hnext : ∀ b, b ∈ next ↔ R a b) :
    Frontier R t (next.foldl (fun stage b => if b ∈ done.insert a then stage else stage.insert b)
      (stage.erase a)) (done.insert a) := by
  have hreach := h.reached a (.inr ha)
  refine ⟨?_, fun b hb => ?_, fun b hb => ?_, fun b hb c hedge => ?_⟩
  · have hroot := h.root
    rw [mem_foldl_insert_unless, mem_insert_iff, mem_erase_iff]
    tauto
  · rw [mem_foldl_insert_unless, mem_insert_iff, mem_erase_iff, hnext] at hb
    rcases hb with (rfl | hb) | ⟨hedge, -⟩ | ⟨-, hb⟩
    · exact hreach
    · exact h.reached b (.inl hb)
    · exact hreach.tail hedge
    · exact h.reached b (.inr hb)
  · rw [mem_foldl_insert_unless, mem_erase_iff] at hb
    rw [mem_insert_iff, not_or]
    rcases hb with ⟨-, hb⟩ | ⟨hne, hb⟩
    · rwa [mem_insert_iff, not_or] at hb
    · exact ⟨hne, h.fresh b hb⟩
  · rw [mem_foldl_insert_unless, mem_insert_iff, mem_erase_iff, hnext]
    rcases (mem_insert_iff ..).mp hb with rfl | hb
    · tauto
    · have hc := h.closed b hb c hedge
      tauto

/-- The loop visits the nodes that can be reached from `t`, each once, if there are not more of them
than rounds. -/
theorem walk_spec {visit : σ → K → Except ε (List K × σ)} {P : StdSet K → σ → Prop}
    (hvisit : ∀ done s a, P done s → a ∉ done → ReflTransGen R t a →
      Returns (visit s a) fun r => P (done.insert a) r.2 ∧ ∀ b, b ∈ r.1 ↔ R a b)
    {U : Finset K} (hU : ∀ a, ReflTransGen R t a → a ∈ U) {fuel : Nat} (hfuel : U.card ≤ fuel)
    {s : σ} (hs : P ∅ s) :
    Returns (walk visit fuel ((∅ : StdSet K).insert t) ∅ s) fun s' =>
      ∃ done, P done s' ∧ ∀ a, a ∈ done ↔ ReflTransGen R t a := by
  classical
  -- The noted nodes are counted by a finite set: they are not more than `U` has.
  have hrun : ∀ (fuel : Nat) (stage done : StdSet K) (s : σ) (D : Finset K), P done s →
      Frontier R t stage done → (∀ a, a ∈ D ↔ a ∈ done) → U.card ≤ D.card + fuel →
      Returns (walk visit fuel stage done s) fun s' =>
        ∃ done, P done s' ∧ ∀ a, a ∈ done ↔ ReflTransGen R t a := by
    intro fuel
    induction fuel with
    | zero =>
      intro stage done s D hs h hD hcard
      refine ⟨done, hs, h.mem_done_iff fun a ha => h.fresh a ha ((hD a).mp ?_)⟩
      have hsub : D ⊆ U := fun b hb => hU b (h.reached b (.inl ((hD b).mp hb)))
      rw [Finset.eq_of_subset_of_card_le hsub hcard]
      exact hU a (h.reached a (.inr ha))
    | succ fuel ih =>
      intro stage done s D hs h hD hcard
      rw [walk]
      rcases hfirst : first? stage with _ | a
      · exact ⟨done, hs, h.mem_done_iff (not_mem_of_first? hfirst)⟩
      have ha := first?_mem hfirst
      refine (hvisit done s a hs (h.fresh a ha) (h.reached a (.inr ha))).bind ?_
      rintro ⟨next, s'⟩ ⟨hs', hnext⟩
      refine ih _ _ s' (insert a D) hs' (h.visit ha hnext) (fun b => ?_) ?_
      · rw [Finset.mem_insert, mem_insert_iff, hD]
      · rw [Finset.card_insert_of_notMem fun hmem => h.fresh a ha ((hD a).mp hmem)]
        omega
  refine hrun fuel _ ∅ s ∅ hs ⟨.inr ?_, fun a ha => ?_, ?_, ?_⟩ ?_ ?_
  all_goals simp_all [ReflTransGen.refl]

end DefcoinCore.Reach
