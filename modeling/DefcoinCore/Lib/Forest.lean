import Mathlib.Logic.Relation
import Mathlib.Tactic

/-!
# Forests given by parent pointers

A forest is a function that gives the parent of a node, or none for a root. The ancestors of a node,
itself included, form a chain. Facts about all ancestors of a node are proved along the pointer to
the parent (`allAnc_iff`). The number of steps to the root is a height; it bounds every walk up the
pointers.
-/

namespace DefcoinCore.Forest

open List Option

variable {κ : Type} {parent : κ → Option κ} {a b c p : κ} {P Q : κ → Prop}

/-- `a` is `b` or an ancestor of `b`. -/
def Anc (parent : κ → Option κ) (a b : κ) : Prop :=
  Relation.ReflTransGen (fun p c => parent c = some p) a b

@[refl, simp]
theorem Anc.refl (a : κ) : Anc parent a a := Relation.ReflTransGen.refl

theorem Anc.trans (hab : Anc parent a b) (hbc : Anc parent b c) : Anc parent a c :=
  Relation.ReflTransGen.trans hab hbc

theorem Anc.of_parent (hp : parent b = some p) (h : Anc parent a p) : Anc parent a b := h.tail hp

/-- An ancestor is the node or an ancestor of its parent. -/
theorem Anc.eq_or_parent (h : Anc parent a b) : a = b ∨ ∃ p, parent b = some p ∧
    Anc parent a p := by
  rcases Relation.ReflTransGen.cases_tail h with h | ⟨p, hp, hb⟩
  · exact .inl h.symm
  · exact .inr ⟨p, hb, hp⟩

theorem Anc.of_ne (h : Anc parent a b) (hne : a ≠ b) (hp : parent b = some p) : Anc parent a p := by
  rcases h.eq_or_parent with heq | ⟨q, hq, ha⟩
  · exact absurd heq hne
  · rw [hp, some.injEq] at hq
    rw [hq]
    exact ha

/-- On the way from an ancestor there is a child of it. -/
theorem Anc.exists_child (h : Anc parent a b) (hne : a ≠ b) :
    ∃ c, parent c = some a ∧ Anc parent c b := by
  rcases Relation.ReflTransGen.cases_head h with heq | ⟨c, hc, hcb⟩
  · exact absurd heq hne
  · exact ⟨c, hc, hcb⟩

/-- The ancestors of a node form a chain. -/
theorem Anc.total (ha : Anc parent a c) (hb : Anc parent b c) : Anc parent a b ∨
    Anc parent b a := by
  induction ha with
  | refl => exact .inr hb
  | @tail p c _ hp ih =>
    rcases hb.eq_or_parent with rfl | ⟨q, hq, hbq⟩
    · exact .inl (Anc.of_parent hp (by assumption))
    · rw [hp, some.injEq] at hq
      exact ih (hq ▸ hbq)

/-- All ancestors of a node, itself included, satisfy `P`. -/
def AllAnc (parent : κ → Option κ) (P : κ → Prop) (b : κ) : Prop := ∀ a, Anc parent a b → P a

theorem allAnc_iff : AllAnc parent P b ↔ P b ∧ ∀ p, parent b = some p → AllAnc parent P p := by
  constructor
  · intro h
    exact ⟨h b (.refl b), fun p hp a ha => h a (ha.of_parent hp)⟩
  · rintro ⟨hb, hp⟩ a ha
    rcases ha.eq_or_parent with rfl | ⟨p, hbp, hap⟩
    · exact hb
    · exact hp p hbp a hap

theorem AllAnc.self (h : AllAnc parent P b) : P b := h b (.refl b)

theorem AllAnc.of_anc (h : AllAnc parent P b) (ha : Anc parent a b) : AllAnc parent P a :=
  fun x hx => h x (hx.trans ha)

theorem AllAnc.mono (h : AllAnc parent P b) (hPQ : ∀ a, Anc parent a b → P a → Q a) :
    AllAnc parent Q b := fun a ha => hPQ a ha (h a ha)

/-! ## Walks -/

/-- The node a number of steps up, or none when the root is nearer. -/
def up (parent : κ → Option κ) : Nat → κ → Option κ
  | 0, b => some b
  | n + 1, b => (parent b).bind (up parent n)

theorem up_succ_of_parent (hp : parent b = some p) (n : Nat) :
    up parent (n + 1) b = up parent n p := by
  rw [up, hp]
  rfl

/-- Steps add up. -/
theorem up_add (m n : Nat) (b : κ) : up parent (m + n) b = (up parent m b).bind (up parent n) := by
  induction m generalizing b with
  | zero => rw [Nat.zero_add]; rfl
  | succ m ih =>
    rw [Nat.succ_add, up, up, bind_assoc]
    congr 1
    funext p
    exact ih p

/-- Steps to below a height lead over the node at that height. -/
theorem up_sub {n i j : Nat} (h : up parent (n - i) b = some a) (hj : j ≤ i) (hi : i ≤ n) :
    up parent (n - j) b = up parent (i - j) a := by
  rw [show n - j = n - i + (i - j) by omega, up_add, h]
  rfl

/-- What is reached by steps up is an ancestor. -/
theorem Anc.of_up {n : Nat} (h : up parent n b = some a) : Anc parent a b := by
  induction n generalizing b with
  | zero =>
    rw [up, some.injEq] at h
    rw [h]
  | succ n ih =>
    rw [up, bind_eq_some_iff] at h
    obtain ⟨p, hp, hn⟩ := h
    exact (ih hn).of_parent hp

/-- An ancestor is reached by steps up. -/
theorem Anc.exists_up (h : Anc parent a b) : ∃ n, up parent n b = some a := by
  induction h with
  | refl => exact ⟨0, rfl⟩
  | @tail p c _ hc ih =>
    obtain ⟨n, hn⟩ := ih
    exact ⟨n + 1, by rw [up_succ_of_parent hc, hn]⟩

/-- Steps within a set that is closed under parents depend on the pointers in the set only. -/
theorem up_congr {parent' : κ → Option κ} {S : Set κ}
    (hclosed : ∀ b ∈ S, ∀ p, parent b = some p → p ∈ S) (hagree : ∀ b ∈ S, parent' b = parent b)
    (n : Nat) (hb : b ∈ S) : up parent' n b = up parent n b := by
  induction n generalizing b with
  | zero => rfl
  | succ n ih =>
    rw [up, up, hagree b hb]
    rcases hp : parent b with _ | p
    · rfl
    · exact ih (hclosed b hb p hp)

/-- The nodes from the root to a node, or the last of them, by a number of steps up. -/
def pathTo (parent : κ → Option κ) : Nat → κ → List κ
  | 0, _ => []
  | n + 1, b =>
    match parent b with
    | some p => pathTo parent n p ++ [b]
    | none => [b]

/-! ## Heights -/

/-- On a set that is closed under parents, a node is one higher than its parent. -/
structure Graded (parent : κ → Option κ) (height : κ → Nat) (S : Set κ) : Prop where
  closed : ∀ b ∈ S, ∀ p, parent b = some p → p ∈ S
  height : ∀ b ∈ S, ∀ p, parent b = some p → height b = height p + 1

namespace Graded

variable {height : κ → Nat} {S : Set κ} (hg : Graded parent height S)

include hg

/-- Every step up is one down in height. -/
theorem height_up {n : Nat} (hb : b ∈ S) (h : up parent n b = some a) : a ∈ S ∧
    height a + n = height b := by
  induction n generalizing b with
  | zero =>
    rw [up, some.injEq] at h
    rw [← h]
    exact ⟨hb, rfl⟩
  | succ n ih =>
    rw [up, bind_eq_some_iff] at h
    obtain ⟨p, hp, hn⟩ := h
    have hstep := hg.height b hb p hp
    obtain ⟨ha, hsum⟩ := ih (hg.closed b hb p hp) hn
    exact ⟨ha, by omega⟩

/-- There are as many steps up as the height says. -/
theorem exists_up (hroot : ∀ b ∈ S, parent b = none → height b = 0) {n : Nat} (hb : b ∈ S)
    (hn : n ≤ height b) : ∃ a, up parent n b = some a := by
  induction n generalizing b with
  | zero => exact ⟨b, rfl⟩
  | succ n ih =>
    rcases hp : parent b with _ | p
    · have hzero := hroot b hb hp
      omega
    · have hstep := hg.height b hb p hp
      rw [up_succ_of_parent hp]
      exact ih (hg.closed b hb p hp) (by omega)

section

variable (hb : b ∈ S) (h : Anc parent a b)

include hb h

theorem mem : a ∈ S := by
  obtain ⟨n, hn⟩ := h.exists_up
  exact (hg.height_up hb hn).1

/-- An ancestor is as many steps up as its height is lower. -/
theorem up_sub_height : up parent (height b - height a) b = some a := by
  obtain ⟨n, hn⟩ := h.exists_up
  have hsum := (hg.height_up hb hn).2
  rwa [show height b - height a = n by omega]

theorem height_le : height a ≤ height b := by
  have hsum := (hg.height_up hb (hg.up_sub_height hb h)).2
  omega

theorem eq_of_height (heq : height b ≤ height a) : a = b := by
  have hup := hg.up_sub_height hb h
  rw [Nat.sub_eq_zero_of_le heq, up, some.injEq] at hup
  exact hup.symm

end

/-- The path to a node has its ancestors, each in the place of its height. -/
theorem pathTo_spec (hroot : ∀ b ∈ S, parent b = none → height b = 0) (n : Nat) (hb : b ∈ S)
    (hn : height b + 1 = n) : (pathTo parent n b).length = n ∧
      ∀ i c, (pathTo parent n b)[i]? = some c ↔ Anc parent c b ∧ height c = i := by
  induction n generalizing b with
  | zero => omega
  | succ n ih =>
    have hself : ∀ {i j} c, i = height b + j →
        ([b][j]? = some c ↔ Anc parent c b ∧ height c = i) := by
      intro i j c hij
      rw [getElem?_singleton]
      constructor
      · intro h
        split_ifs at h with hj
        rw [← some.inj h]
        exact ⟨.refl b, by omega⟩
      · rintro ⟨h, hi⟩
        have hle := hg.height_le hb h
        rw [if_pos (by omega), hg.eq_of_height hb h (by omega)]
    unfold pathTo
    cases hp : parent b with
    | none =>
      have h0 := hroot b hb hp
      exact ⟨by rw [length_singleton]; omega, fun i c => hself c (by omega)⟩
    | some p =>
      have hpb := hg.height b hb p hp
      obtain ⟨hlen, hpath⟩ := ih (hg.closed b hb p hp) (by omega)
      refine ⟨by rw [length_append, hlen, length_singleton], fun i c => ?_⟩
      -- Below the height of `b` the path is the parent's; at its height stands `b`.
      rcases Nat.lt_or_ge i n with hlt | hge
      · rw [getElem?_append_left (by omega), hpath]
        refine and_congr_left fun hi => ⟨fun h => h.of_parent hp, fun h => h.of_ne ?_ hp⟩
        rintro rfl
        omega
      · rw [getElem?_append_right (by omega), hlen]
        exact hself c (by omega)

end Graded

end DefcoinCore.Forest
