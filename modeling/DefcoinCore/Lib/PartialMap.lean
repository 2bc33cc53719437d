import Mathlib.Tactic

/-!
# Bulk updates of partial maps

Partial maps as functions into `Option`, with lists of keys removed and lists of entries put in.
What is found afterwards depends only on membership in the list, as long as the keys that are put in
differ.
-/

namespace DefcoinCore

open Function List

variable {α β : Type} [DecidableEq α]

/-- A partial map without some keys. -/
def eraseAll (m : α → Option β) (l : List α) : α → Option β :=
  l.foldl (fun m a => Function.update m a none) m

/-- A partial map with some entries put in, the later ones over the earlier ones. -/
def insertAll (m : α → Option β) (l : List (α × β)) : α → Option β :=
  l.foldl (fun m p => Function.update m p.1 (some p.2)) m

variable {l : List (α × β)} {a : α}

section

variable (m : α → Option β)

theorem eraseAll_cons (a : α) (l : List α) :
    eraseAll m (a :: l) = eraseAll (update m a none) l := rfl

theorem insertAll_cons (p : α × β) (l : List (α × β)) :
    insertAll m (p :: l) = insertAll (update m p.1 (some p.2)) l := rfl

theorem eraseAll_apply (l : List α) (a : α) : eraseAll m l a = if a ∈ l then none else m a := by
  induction l generalizing m with
  | nil => rw [if_neg not_mem_nil]; rfl
  | cons b l ih =>
    rw [eraseAll_cons, ih]
    by_cases hl : a ∈ l
    · rw [if_pos hl, if_pos (mem_cons_of_mem b hl)]
    · rw [if_neg hl]
      by_cases hab : a = b
      · rw [hab, update_self, if_pos mem_cons_self]
      · rw [update_of_ne hab, if_neg (not_mem_cons_of_ne_of_not_mem hab hl)]

theorem insertAll_of_notMem (h : a ∉ l.map Prod.fst) : insertAll m l a = m a := by
  induction l generalizing m with
  | nil => rfl
  | cons p l ih =>
    rw [map_cons, mem_cons, not_or] at h
    rw [insertAll_cons, ih _ h.2, update_of_ne h.1]

/-- A key that is put in is found with one of its entries. -/
theorem exists_insertAll_of_mem (h : a ∈ l.map Prod.fst) :
    ∃ b, (a, b) ∈ l ∧ insertAll m l a = some b := by
  induction l generalizing m with
  | nil => exact absurd h not_mem_nil
  | cons p l ih =>
    rw [insertAll_cons]
    by_cases hl : a ∈ l.map Prod.fst
    · obtain ⟨b, hb, hfound⟩ := ih (update m p.1 (some p.2)) hl
      exact ⟨b, mem_cons_of_mem p hb, hfound⟩
    · rw [map_cons, mem_cons] at h
      have hap : a = p.1 := h.resolve_right hl
      refine ⟨p.2, ?_, ?_⟩
      · rw [hap]
        exact mem_cons_self
      · rw [insertAll_of_notMem _ hl, hap, update_self]

theorem insertAll_of_mem (hl : (l.map Prod.fst).Nodup) {p : α × β} (hp : p ∈ l) :
    insertAll m l p.1 = some p.2 := by
  obtain ⟨b, hb, hfound⟩ := exists_insertAll_of_mem m (mem_map_of_mem hp)
  rw [hfound, ← inj_on_of_nodup_map hl hb hp rfl]

end

/-- Entries that are found after a bulk update were there before or were put in. -/
theorem insertAll_eq_some {m : α → Option β} {b : β} (h : insertAll m l a = some b) :
    m a = some b ∨ (a, b) ∈ l := by
  by_cases hl : a ∈ l.map Prod.fst
  · obtain ⟨b', hb', hfound⟩ := exists_insertAll_of_mem m hl
    rw [hfound, Option.some.injEq] at h
    exact .inr (h ▸ hb')
  · rw [insertAll_of_notMem m hl] at h
    exact .inl h

end DefcoinCore
