import Mathlib.Data.Fintype.Card
import Mathlib.Data.Fintype.Prod
import Mathlib.Tactic

/-!
# Tables of references

A table is a function from a finite type of slots to the identifiers it holds. `refs t x` counts
the slots that hold `x`. A program that keeps a reference count beside a table keeps this number:
writing one slot moves it by the old and the new content of that slot (`refs_update`).
-/

namespace DefcoinCore

open Finset

namespace Table

variable {I A : Type} [Fintype I] [DecidableEq A]

/-- The number of slots that hold `x`. -/
def refs (t : I → A) (x : A) : Nat := (Finset.univ.filter fun i => t i = x).card

/-- Writing one slot takes the reference to its old content and adds one to the new content. -/
theorem refs_update [DecidableEq I] (t : I → A) (i : I) (y x : A) :
    refs (Function.update t i y) x + (if t i = x then 1 else 0) =
      refs t x + (if y = x then 1 else 0) := by
  -- Away from the written slot, both tables hold `x` in the same slots.
  have hsplit : ∀ t' : I → A, refs t' x =
      ((univ.erase i).filter fun j => t' j = x).card + (if t' i = x then 1 else 0) := by
    intro t'
    unfold refs
    rw [← insert_erase (mem_univ i), filter_insert, erase_insert_eq_erase]
    split_ifs with h
    · rw [card_insert_of_notMem (by simp)]
      simp
    · simp
  have hrest : ((univ.erase i).filter fun j => Function.update t i y j = x) =
      ((univ.erase i).filter fun j => t j = x) := by
    apply filter_congr
    intro j hj
    rw [Function.update_of_ne (ne_of_mem_erase hj)]
  rw [hsplit (Function.update t i y), hsplit t, hrest, Function.update_self]
  omega

/-- Tables that hold `x` in the same slots have as many references to it. -/
theorem refs_congr {t t' : I → A} {x : A} (h : ∀ i, t i = x ↔ t' i = x) : refs t x = refs t' x := by
  unfold refs
  rw [filter_congr fun i _ => h i]

/-- There are no references to `x` exactly when no slot holds it. -/
theorem refs_eq_zero_iff (t : I → A) (x : A) : refs t x = 0 ↔ ∀ i, t i ≠ x := by
  rw [refs, card_eq_zero, filter_eq_empty_iff]
  exact ⟨fun h i => h (mem_univ i), fun h i _ => h i⟩

/-- A slot that holds `x` is a reference to it. -/
theorem refs_pos (t : I → A) {x : A} {i : I} (h : t i = x) : 0 < refs t x := by
  rw [Nat.pos_iff_ne_zero]
  intro h0
  exact (refs_eq_zero_iff t x).mp h0 i h

/-- What has references is held by a slot. -/
theorem exists_of_refs_ne_zero {t : I → A} {x : A} (h : refs t x ≠ 0) : ∃ i, t i = x := by
  by_contra hnone
  exact h ((refs_eq_zero_iff t x).mpr fun i hi => hnone ⟨i, hi⟩)

/-- A table holds no more distinct identifiers than it has slots. -/
theorem length_le_card (t : I → A) {l : List A} (hnodup : l.Nodup)
    (hheld : ∀ x ∈ l, ∃ i, t i = x) : l.length ≤ Fintype.card I := by
  have hsubset : l.toFinset ⊆ univ.image t := by
    intro x hx
    obtain ⟨i, hi⟩ := hheld x (List.mem_toFinset.mp hx)
    exact mem_image.mpr ⟨i, mem_univ i, hi⟩
  calc l.length = l.toFinset.card := (List.toFinset_card_of_nodup hnodup).symm
    _ ≤ (univ.image t).card := card_le_card hsubset
    _ ≤ Fintype.card I := card_image_le

end Table

end DefcoinCore
