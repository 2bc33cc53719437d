import DefcoinCore.Lib.PartialMap
import Mathlib.Algebra.BigOperators.Finprod

/-!
# Totals of partial maps

A weight on the values of a partial map with finitely many entries gives the map a total. Removing
different keys takes exactly their weights away. Entries that are put in add at most their weights:
less, where one takes the place of another.

A log of the keys that were put in and taken out tells whether anything was taken out that was not
there (`Log.Sound`).
-/

namespace DefcoinCore

open List Function

variable {α β : Type} {m : α → Option β} {w : β → Int}

/-! ## Keys -/

/-- The keys that have an entry. -/
def keySet (m : α → Option β) : Set α := {a | (m a).isSome}

theorem finite_update [DecidableEq α] (h : (keySet m).Finite) (a : α) (v : Option β) :
    (keySet (update m a v)).Finite := by
  refine (h.insert a).subset fun b hb => ?_
  by_cases hba : b = a
  · exact .inl hba
  · have hsome : (update m a v b).isSome := hb
    rw [update_of_ne hba] at hsome
    exact .inr hsome

theorem finite_eraseAll [DecidableEq α] (h : (keySet m).Finite) (l : List α) :
    (keySet (eraseAll m l)).Finite := by
  induction l generalizing m with
  | nil => exact h
  | cons a l ih => exact ih (finite_update h a none)

theorem finite_insertAll [DecidableEq α] (h : (keySet m).Finite) (l : List (α × β)) :
    (keySet (insertAll m l)).Finite := by
  induction l generalizing m with
  | nil => exact h
  | cons p l ih => exact ih (finite_update h p.1 (some p.2))

/-! ## Totals -/

/-- The weight at a key: nothing where there is no entry. -/
def weightAt (w : β → Int) (v : Option β) : Int := v.elim 0 w

/-- The weights of all entries together. -/
noncomputable def total (w : β → Int) (m : α → Option β) : Int := ∑ᶠ a, weightAt w (m a)

theorem total_empty : total w (fun _ : α => none) = 0 := finsum_zero

/-- The total over any finite set that holds all keys. -/
theorem total_eq_sum {S : Finset α} (hS : keySet m ⊆ S) : total w m = ∑ a ∈ S,
    weightAt w (m a) := by
  refine finsum_eq_sum_of_support_subset _ fun a ha => hS ?_
  by_contra hnone
  have hm : m a = none := by simpa [keySet] using hnone
  exact ha (by show weightAt w (m a) = 0; rw [hm]; rfl)

/-- Changing one entry changes the total by the difference of the weights. -/
theorem total_update [DecidableEq α] (h : (keySet m).Finite) (a : α) (v : Option β) :
    total w (update m a v) = total w m - weightAt w (m a) + weightAt w v := by
  obtain ⟨S, hS⟩ : ∃ S : Finset α, keySet m ⊆ S ∧ a ∈ S :=
    ⟨insert a h.toFinset, fun b hb => by simp [hb], by simp⟩
  have hS' : keySet (update m a v) ⊆ S := by
    intro b hb
    by_cases hba : b = a
    · exact hba ▸ hS.2
    · have hsome : (update m a v b).isSome := hb
      rw [update_of_ne hba] at hsome
      exact hS.1 hsome
  rw [total_eq_sum hS', total_eq_sum hS.1]
  have hrest : ∑ b ∈ S.erase a, weightAt w (update m a v b) = ∑ b ∈ S.erase a, weightAt w (m b) :=
    Finset.sum_congr rfl fun b hb => by rw [update_of_ne (Finset.ne_of_mem_erase hb)]
  have hnew := Finset.add_sum_erase S (fun b => weightAt w (update m a v b)) hS.2
  have hold := Finset.add_sum_erase S (fun b => weightAt w (m b)) hS.2
  rw [update_self, hrest] at hnew
  omega

/-- Removing different keys takes their weights away. -/
theorem total_eraseAll [DecidableEq α] (h : (keySet m).Finite) {l : List α} (hl : l.Nodup) :
    total w (eraseAll m l) = total w m - (l.map fun a => weightAt w (m a)).sum := by
  induction l generalizing m with
  | nil => simp [eraseAll]
  | cons a l ih =>
    rw [nodup_cons] at hl
    -- The keys that are still to be removed have the entries they had.
    have hother : l.map (fun b => weightAt w (update m a none b)) =
        l.map fun b => weightAt w (m b) :=
      map_congr_left fun b hb => by
        rw [update_of_ne (ne_of_mem_of_not_mem hb hl.1)]
    rw [eraseAll_cons, ih (finite_update h a none) hl.2, hother, total_update h, map_cons, sum_cons]
    show total w m - weightAt w (m a) + 0 - _ = _
    omega

/-- All entries have weights that are not negative. -/
def Nonneg (w : β → Int) (m : α → Option β) : Prop := ∀ a b, m a = some b → 0 ≤ w b

theorem Nonneg.update [DecidableEq α] (h : Nonneg w m) {v : Option β}
    (hv : ∀ b, v = some b → 0 ≤ w b) (a : α) :
    Nonneg w (update m a v) := by
  intro b c hb
  by_cases hba : b = a
  · rw [hba, update_self] at hb
    exact hv c hb
  · rw [update_of_ne hba] at hb
    exact h b c hb

theorem Nonneg.weightAt (h : Nonneg w m) (a : α) : 0 ≤ weightAt w (m a) := by
  cases hm : m a with
  | none => exact le_refl 0
  | some b => exact h a b hm

/-- Entries that are put in add at most their weights. -/
theorem total_insertAll_le [DecidableEq α] (h : (keySet m).Finite) (hm : Nonneg w m)
    {l : List (α × β)} (hl : ∀ p ∈ l, 0 ≤ w p.2) :
    total w (insertAll m l) ≤ total w m + (l.map fun p => w p.2).sum := by
  induction l generalizing m with
  | nil => simp [insertAll]
  | cons p l ih =>
    have hp := hl p mem_cons_self
    have hrest := ih (finite_update h p.1 (some p.2))
      (hm.update (fun b hb => Option.some.inj hb ▸ hp) p.1) fun q hq => hl q (mem_cons_of_mem p hq)
    rw [total_update h] at hrest
    have hold := hm.weightAt p.1
    rw [insertAll_cons, map_cons, sum_cons]
    have hnew : DefcoinCore.weightAt w (some p.2) = w p.2 := rfl
    omega

/-! ## Logs -/

/-- A key is put in or taken out. -/
inductive LogEvent (α : Type) where
  | create (a : α)
  | spend (a : α)
  deriving DecidableEq

/-- The key was put in, and has not been taken out since. -/
def Log.Open (log : List (LogEvent α)) (a : α) : Prop :=
  ∃ before after, log = before ++ .create a :: after ∧ .spend a ∉ after

/-- Whatever was taken out was there: it had been put in, and not been taken out since. -/
def Log.Sound (log : List (LogEvent α)) : Prop :=
  ∀ before a after, log = before ++ .spend a :: after → Log.Open before a

/-- A log tells the history of a partial map: it is sound, and the keys of the map are open. -/
structure Log.Tells (log : List (LogEvent α)) (m : α → Option β) : Prop where
  sound : Log.Sound log
  isOpen : ∀ a, (m a).isSome → Log.Open log a

theorem Log.tells_empty : Log.Tells [] (fun _ : α => (none : Option β)) where
  sound before a after h := by simp at h
  isOpen a h := by cases h

variable {log : List (LogEvent α)}

/-- A key stays open if other events follow. -/
theorem Log.Open.append {a : α} (h : Log.Open log a) {e : LogEvent α} (he : e ≠ .spend a) :
    Log.Open (log ++ [e]) a := by
  obtain ⟨before, after, rfl, hafter⟩ := h
  refine ⟨before, after ++ [e], by simp, ?_⟩
  rw [mem_append, mem_singleton, not_or]
  exact ⟨hafter, he.symm⟩

/-- A log stays sound if a key that is taken out next is open. -/
theorem Log.Sound.append (h : Log.Sound log) {e : LogEvent α}
    (he : ∀ a, e = .spend a → Log.Open log a) :
    Log.Sound (log ++ [e]) := by
  intro before a after heq
  rcases eq_nil_or_concat' after with rfl | ⟨after', e', rfl⟩
  · obtain ⟨rfl, hlast⟩ := append_inj' heq rfl
    exact he a (singleton_inj.mp hlast)
  · rw [← cons_append, ← append_assoc] at heq
    exact h before a after' (append_inj' heq rfl).1

/-- Taking out a key that is there. -/
theorem Log.Tells.spend [DecidableEq α] (h : Log.Tells log m) {a : α} (ha : (m a).isSome) :
    Log.Tells (log ++ [.spend a]) (update m a none) where
  sound := h.sound.append fun b hb => LogEvent.spend.inj hb ▸ h.isOpen a ha
  isOpen b hb := by
    by_cases hba : b = a
    · rw [hba, update_self] at hb
      cases hb
    · rw [update_of_ne hba] at hb
      exact (h.isOpen b hb).append fun heq => hba (LogEvent.spend.inj heq).symm

/-- Putting in an entry. -/
theorem Log.Tells.create [DecidableEq α] (h : Log.Tells log m) (a : α) (b : β) :
    Log.Tells (log ++ [.create a]) (update m a (some b)) where
  sound := h.sound.append nofun
  isOpen c hc := by
    by_cases hca : c = a
    · exact ⟨log, [], by rw [hca], not_mem_nil⟩
    · rw [update_of_ne hca] at hc
      exact (h.isOpen c hc).append nofun

/-- Taking out different keys that are there. -/
theorem Log.Tells.spendAll [DecidableEq α] (h : Log.Tells log m) {l : List α} (hl : l.Nodup)
    (hsome : ∀ a ∈ l, (m a).isSome) : Log.Tells (log ++ l.map .spend) (eraseAll m l) := by
  induction l generalizing log m with
  | nil =>
    rw [map_nil, append_nil]
    exact h
  | cons a l ih =>
    rw [nodup_cons] at hl
    have hrest := ih (h.spend (hsome a mem_cons_self)) hl.2 fun b hb => by
      rw [update_of_ne (ne_of_mem_of_not_mem hb hl.1)]
      exact hsome b (mem_cons_of_mem a hb)
    rw [append_assoc] at hrest
    exact hrest

/-- Putting in entries. -/
theorem Log.Tells.createAll [DecidableEq α] (h : Log.Tells log m) (l : List (α × β)) :
    Log.Tells (log ++ l.map fun p => .create p.1) (insertAll m l) := by
  induction l generalizing log m with
  | nil =>
    rw [map_nil, append_nil]
    exact h
  | cons p l ih =>
    have hrest := ih (h.create p.1 p.2)
    rw [append_assoc] at hrest
    exact hrest

end DefcoinCore
