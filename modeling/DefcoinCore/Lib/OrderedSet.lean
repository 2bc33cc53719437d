import DefcoinCore.Lib.Containers

/-!
# Ordered sets

`std::set` as a tree set, in the order of its keys, with membership after insertions and deletions.
A loop that takes elements off the front of a set (`*s.begin()`) takes its least element (`first?`).

A set of pointers with a comparison of its own is the list of its elements in iteration order. What
they are compared by may change while they are in the set, and the standard says nothing about a set
whose elements are out of order. So its operations are any that meet a contract (`SetContract`).
-/

namespace DefcoinCore

open Std List

/-- `std::set<K>`. -/
abbrev StdSet (K : Type) [Ord K] := ExtTreeSet K (compare : K → K → Ordering)

namespace StdSet

variable {K : Type} [Ord K] [TransOrd K] [LawfulEqOrd K]

@[simp]
theorem mem_insert_iff (s : StdSet K) (k a : K) : a ∈ s.insert k ↔ a = k ∨ a ∈ s := by
  rw [ExtTreeSet.mem_insert, Std.compare_eq_iff_eq, eq_comm]

@[simp]
theorem mem_erase_iff (s : StdSet K) (k a : K) : a ∈ s.erase k ↔ a ≠ k ∧ a ∈ s := by
  rw [ExtTreeSet.mem_erase, ne_eq, Std.compare_eq_iff_eq, ne_eq, eq_comm]

/-- The element at the front of a set, `*s.begin()`. -/
def first? (s : StdSet K) : Option K := s.toList.head?

theorem first?_mem {s : StdSet K} {a : K} (h : first? s = some a) : a ∈ s :=
  ExtTreeSet.mem_toList.mp (mem_of_mem_head? h)

theorem not_mem_of_first? {s : StdSet K} (h : first? s = none) (a : K) : a ∉ s := by
  rw [← ExtTreeSet.mem_toList, head?_eq_none_iff.mp h]
  exact not_mem_nil

/-- The elements that a loop inserts. -/
@[simp]
theorem mem_foldl_insert (l : List K) (s : StdSet K) (a : K) :
    a ∈ l.foldl (fun s k => s.insert k) s ↔ a ∈ l ∨ a ∈ s := by
  induction l generalizing s with
  | nil => simp
  | cons k l ih =>
    rw [foldl_cons, ih, mem_insert_iff, mem_cons]
    tauto

/-- The elements that a loop inserts which may skip some. -/
theorem mem_foldl_insert_unless {skip : K → Prop} [DecidablePred skip] {l : List K} {s : StdSet K}
    {a : K} : a ∈ l.foldl (fun s k => if skip k then s else s.insert k) s ↔ a ∈ l ∧ ¬ skip a ∨
      a ∈ s := by
  induction l generalizing s with
  | nil => simp
  | cons k l ih =>
    rw [foldl_cons, ih, mem_cons]
    by_cases hk : skip k
    · rw [if_pos hk]
      grind
    · rw [if_neg hk, mem_insert_iff]
      grind

end StdSet

/-! ## Sets with a comparison of their own -/

section SetContract

variable {K : Type} {lt : K → K → Bool} {l : List K}

/-- A comparison that orders all keys strictly. -/
structure StrictOrder (lt : K → K → Bool) : Prop where
  irrefl : ∀ a, lt a a = false
  trans : ∀ {a b c}, lt a b → lt b c → lt a c
  total : ∀ {a b}, a ≠ b → lt a b ∨ lt b a

/-- The elements of a list are in strict order. -/
abbrev InOrder (lt : K → K → Bool) (l : List K) : Prop := l.Pairwise fun a b => lt a b

/-- `insert` and `erase` of a `std::set`, as the standard describes them: only for a set that is in
order. -/
structure SetContract (K : Type) [DecidableEq K] where
  insert : (K → K → Bool) → List K → K → List K
  erase : (K → K → Bool) → List K → K → List K
  insert_inOrder : ∀ {lt l}, StrictOrder lt → InOrder lt l → ∀ k, InOrder lt (insert lt l k)
  mem_insert : ∀ {lt l}, StrictOrder lt → InOrder lt l → ∀ k a, a ∈ insert lt l k ↔ a = k ∨ a ∈ l
  erase_eq : ∀ {lt l}, StrictOrder lt → InOrder lt l → ∀ k, erase lt l k = l.filter (· ≠ k)

namespace StrictOrder

variable (hlt : StrictOrder lt)

include hlt

/-- Of two keys in order, the second is not before the first. -/
theorem asymm {a b : K} (h : lt a b) : lt b a = false := by
  by_contra hba
  have haa := hlt.trans h (Bool.not_eq_false _ ▸ hba)
  rw [hlt.irrefl] at haa
  cases haa

/-- A key is put behind those before it and in front of those after it. -/
theorem inOrder_insert (h : InOrder lt l) (k : K) :
    InOrder lt (l.filter (lt · k) ++ k :: l.filter (lt k ·)) := by
  rw [InOrder, pairwise_append, pairwise_cons]
  refine ⟨h.filter _, ⟨fun b hb => (mem_filter.mp hb).2, h.filter _⟩, fun a ha b hb => ?_⟩
  have hak := (mem_filter.mp ha).2
  rcases mem_cons.mp hb with rfl | hb
  · exact hak
  · exact hlt.trans hak (mem_filter.mp hb).2

/-- Every other key is before it or after it. -/
theorem mem_insert (k a : K) : a ∈ l.filter (lt · k) ++ k :: l.filter (lt k ·) ↔ a = k ∨ a ∈ l := by
  by_cases hak : a = k
  · simp [hak]
  · simp [hak, ← and_or_left, hlt.total hak]

end StrictOrder

/-- Two comparisons for which a list is in order agree on its elements. -/
theorem InOrder.eq_of_mem {lt' : K → K → Bool} (hlt : StrictOrder lt) (hlt' : StrictOrder lt')
    (h : InOrder lt l) (h' : InOrder lt' l) : ∀ a ∈ l, ∀ b ∈ l, lt a b = lt' a b :=
  List.Pairwise.forall_of_forall_of_flip (fun a _ => (hlt.irrefl a).trans (hlt'.irrefl a).symm)
    ((h.and h').imp fun h => h.1.trans h.2.symm)
    ((h.and h').imp fun h => (hlt.asymm h.1).trans (hlt'.asymm h.2).symm)

/-- Operations that leave a set alone from which they cannot erase. -/
def SetContract.careful (K : Type) [DecidableEq K] : SetContract K where
  insert lt l k := l.filter (lt · k) ++ k :: l.filter (lt k ·)
  erase lt l k := if InOrder lt l then l.filter (· ≠ k) else l
  insert_inOrder hlt h k := hlt.inOrder_insert h k
  mem_insert hlt _ k a := hlt.mem_insert k a
  erase_eq _ h _ := if_pos h

end SetContract

end DefcoinCore
