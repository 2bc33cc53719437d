import Mathlib.Tactic

/-!
# Containers of the C++ standard library

`std::map` as Lean's extensional tree map: a finite map whose keys are ordered, with the lookup,
insertion and erasure of the standard library. Two maps with the same lookups are equal
(`Std.ExtTreeMap.ext_getElem?`), so a program's containers can be compared as values. The lemmas
read lookups with the key equality instead of the comparison, and count the entries whose value
satisfies a test (`countP`): the counters that a program keeps beside a container are such counts,
and each update of the container moves the count by one entry.

`std::list` as the list of its nodes, each with the identity that an iterator holds. While the
identities are distinct, an iterator finds its own node (`lookup_eq_some_iff_mem`) and erasing
through it removes that node and no other (`mem_erase`).
-/

namespace DefcoinCore

open Std List ExtTreeMap Prod

/-! ## Ordered maps -/

/-- An ordered map with the order of its key type. -/
abbrev StdMap (K : Type) (V : Type) [Ord K] := ExtTreeMap K V (compare : K → K → Ordering)

namespace StdMap

variable {K V : Type} [Ord K] [TransOrd K] [LawfulEqOrd K] {m : StdMap K V} {k : K}

/-- The lookup after an insertion. -/
@[simp]
theorem getElem?_insert [DecidableEq K] (m : StdMap K V) (k a : K) (v : V) :
    (m.insert k v)[a]? = if k = a then some v else m[a]? := by
  rw [ExtTreeMap.getElem?_insert]
  simp only [Std.compare_eq_iff_eq]

/-- The lookup after an erasure. -/
@[simp]
theorem getElem?_erase [DecidableEq K] (m : StdMap K V) (k a : K) :
    (m.erase k)[a]? = if k = a then none else m[a]? := by
  rw [ExtTreeMap.getElem?_erase]
  simp only [Std.compare_eq_iff_eq]

/-- What is found after an insertion is the new value, or an old one at another key. -/
theorem insert_eq_some_iff [DecidableEq K] {a : K} {v w : V} :
    (m.insert k v)[a]? = some w ↔ (a = k ∧ v = w) ∨ (a ≠ k ∧ m[a]? = some w) := by
  rw [getElem?_insert]
  split_ifs with h
  · simp [h.symm]
  · simp [Ne.symm h]

/-- All entries after an insertion are the new one and the old ones at other keys. -/
theorem forall_insert [DecidableEq K] {v : V} {P : K → V → Prop} (hnew : P k v)
    (hold : ∀ a w, a ≠ k → m[a]? = some w → P a w) : ∀ a w, (m.insert k v)[a]? = some w →
      P a w := by
  intro a w h
  obtain ⟨rfl, rfl⟩ | ⟨hne, hw⟩ := insert_eq_some_iff.mp h
  · exact hnew
  · exact hold a w hne hw

/-- What is found after an erasure is at another key. -/
theorem erase_eq_some_iff [DecidableEq K] {a : K} {w : V} :
    (m.erase k)[a]? = some w ↔ a ≠ k ∧ m[a]? = some w := by
  rw [getElem?_erase]
  split_ifs with h
  · simp [h.symm]
  · simp [Ne.symm h]

/-- Of two insertions at a key the second one stays. -/
theorem insert_insert [DecidableEq K] (m : StdMap K V) (k : K) (v w : V) :
    (m.insert k v).insert k w = m.insert k w := by
  apply ExtTreeMap.ext_getElem?
  intro a
  simp only [getElem?_insert]
  split_ifs <;> rfl

/-- An insertion overwrites what was at its key. -/
theorem erase_insert [DecidableEq K] (m : StdMap K V) (k : K) (v : V) :
    (m.erase k).insert k v = m.insert k v := by
  apply ExtTreeMap.ext_getElem?
  intro a
  simp only [getElem?_insert, getElem?_erase]
  split_ifs <;> rfl

/-- Inserting the value that is there changes nothing. -/
theorem insert_of_some [DecidableEq K] {v : V} (h : m[k]? = some v) : m.insert k v = m := by
  apply ExtTreeMap.ext_getElem?
  intro a
  rw [getElem?_insert]
  split_ifs with ha
  · rw [← ha, h]
  · rfl

/-- `operator[]`: a missing key is inserted with the default value. -/
def subscript [Inhabited V] (m : StdMap K V) (k : K) : V × StdMap K V :=
  match m[k]? with
  | some v => (v, m)
  | none => (default, m.insert k default)

omit [LawfulEqOrd K] in
/-- On a present key, `operator[]` is the lookup. -/
theorem subscript_of_some [Inhabited V] {v : V} (h : m[k]? = some v) : m.subscript k = (v, m) := by
  rw [subscript, h]

/-- What is the same of an entry and of one that replaces it does not change. -/
theorem map_getElem?_insert_of_some [DecidableEq K] {W : Type} {f : V → W} {v w : V}
    (h : m[k]? = some v) (hf : f w = f v) (a : K) : ((m.insert k w)[a]?).map f = (m[a]?).map f := by
  rw [getElem?_insert]
  split_ifs with ha
  · rw [← ha, h, Option.map_some, Option.map_some, hf]
  · rfl

/-- The lookup after erasing a list of keys one by one. -/
theorem getElem?_foldl_erase [DecidableEq K] {A : Type} (f : A → K) (l : List A)
    (m : StdMap K V) (a : K) :
    (l.foldl (fun m e => m.erase (f e)) m)[a]? = if a ∈ l.map f then none else m[a]? := by
  induction l generalizing m with
  | nil => simp
  | cons e l ih =>
    rw [foldl_cons, ih, getElem?_erase]
    by_cases ha : a = f e
    · simp [ha]
    · simp [ha, Ne.symm ha]

omit [LawfulEqOrd K] in
/-- The keys of the list of entries are distinct. -/
theorem nodup_map_fst_toList [LawfulEqOrd K] (m : StdMap K V) : (m.toList.map fst).Nodup := by
  rw [map_fst_toList_eq_keys]
  exact nodup_keys

/-- A loop over the entries of a map. Each round changes the target at the key of its entry only, if
the entry is valid for what is there; then the loop does so at every key of the map. -/
theorem foldlM_toList [DecidableEq K] {σ W ε : Type} {f : σ → K × V → Except ε σ} (view : σ → K → W)
    (inv : σ → Prop) (valid : W → V → Prop) (upd : W → V → W)
    (hstep : ∀ s e, inv s → valid (view s e.1) e.2 → ∃ s', f s e = .ok s' ∧ inv s' ∧
      view s' = Function.update (view s) e.1 (upd (view s e.1) e.2))
    (m : StdMap K V) {s : σ} (hs : inv s) (hvalid : ∀ k v, m[k]? = some v → valid (view s k) v) :
    ∃ s', m.toList.foldlM f s = .ok s' ∧ inv s' ∧
      ∀ k, view s' k = m[k]?.elim (view s k) (upd (view s k)) := by
  -- The loop over a list of entries with distinct keys.
  have hrun : ∀ (l : List (K × V)) (s : σ), (l.map fst).Nodup → inv s →
      (∀ e ∈ l, valid (view s e.1) e.2) → ∃ s', l.foldlM f s = .ok s' ∧ inv s' ∧
        (∀ e ∈ l, view s' e.1 = upd (view s e.1) e.2) ∧
        ∀ k, k ∉ l.map fst → view s' k = view s k := by
    intro l
    induction l with
    | nil => exact fun s _ hs _ => ⟨s, rfl, hs, fun _ h => absurd h not_mem_nil, fun _ _ => rfl⟩
    | cons e l ih =>
      intro s hl hs hvalid
      rw [map_cons, nodup_cons] at hl
      obtain ⟨s1, hf, hs1, hview1⟩ := hstep s e hs (hvalid e mem_cons_self)
      have hsame : ∀ k ∈ l.map fst, view s1 k = view s k := by
        intro k hk
        have hne : k ≠ e.1 := fun heq => hl.1 (heq ▸ hk)
        rw [hview1, Function.update_of_ne hne]
      obtain ⟨s', hfold, hs', hin, hout⟩ := ih s1 hl.2 hs1 fun e' he' => by
        rw [hsame _ (mem_map_of_mem he')]
        exact hvalid e' (mem_cons_of_mem e he')
      refine ⟨s', ?_, hs', ?_, ?_⟩
      · rw [foldlM_cons, hf]
        exact hfold
      · intro e' he'
        rcases mem_cons.mp he' with rfl | hmem
        · rw [hout _ hl.1, hview1, Function.update_self]
        · rw [hin e' hmem, hsame _ (mem_map_of_mem hmem)]
      · intro k hk
        rw [map_cons, mem_cons, not_or] at hk
        rw [hout k hk.2, hview1, Function.update_of_ne hk.1]
  obtain ⟨s', hfold, hs', hin, hout⟩ := hrun m.toList s (nodup_map_fst_toList m) hs fun e he =>
    hvalid e.1 e.2 (mem_toList_iff_getElem?_eq_some.mp he)
  refine ⟨s', hfold, hs', fun k => ?_⟩
  rcases hk : m[k]? with _ | v
  · refine hout k fun hmem => ?_
    obtain ⟨e, he, rfl⟩ := mem_map.mp hmem
    have hfound : m[e.1]? = some e.2 := mem_toList_iff_getElem?_eq_some.mp he
    rw [hk] at hfound
    cases hfound
  · exact hin (k, v) (mem_toList_iff_getElem?_eq_some.mpr hk)

/-- A loop over the entries that cannot fail and changes the target at the key of each. -/
theorem foldl_toList [DecidableEq K] {σ W : Type} {f : σ → K × V → σ} (view : σ → K → W)
    (upd : W → V → W)
    (hstep : ∀ s e, view (f s e) = Function.update (view s) e.1 (upd (view s e.1) e.2))
    (m : StdMap K V) (s : σ) (k : K) :
    view (m.toList.foldl f s) k = m[k]?.elim (view s k) (upd (view s k)) := by
  obtain ⟨s', hfold, -, hview⟩ := foldlM_toList (f := fun s e => (pure (f s e) : Except Unit σ))
    view (fun _ => True) (fun _ _ => True) upd (fun s e _ _ => ⟨_, rfl, trivial, hstep s e⟩) m trivial
    fun _ _ _ => trivial
  rw [foldlM_pure] at hfold
  cases hfold
  exact hview k

/-- A map is empty when no key is found. -/
theorem eq_empty_of_getElem? (m : StdMap K V) (h : ∀ a : K, m[a]? = none) : m = ∅ := by
  apply ExtTreeMap.ext_getElem?
  intro a
  rw [h a, getElem?_empty]

variable (f : V → Bool)

/-- The number of entries whose value satisfies `f`. -/
def countP (m : StdMap K V) : Nat := (m.filter fun _ v => f v).size

omit [LawfulEqOrd K] in
/-- The count is the number of entries that the filter of the list of entries keeps. -/
theorem length_filter_toList (m : StdMap K V) :
    (m.toList.filter fun e => f e.2).length = countP f m := by
  rw [countP, ← length_toList, toList_filter]

@[simp]
theorem countP_empty : countP f (∅ : StdMap K V) = 0 := by
  have h : (∅ : StdMap K V).filter (fun _ v => f v) = ∅ := by
    apply ExtTreeMap.ext_getElem?
    intro a
    simp
  rfl

/-- An insertion at a fresh key adds its entry to the list of entries. -/
theorem toList_insert_perm [DecidableEq K] (h : m[k]? = none) (v : V) :
    (m.insert k v).toList.Perm ((k, v) :: m.toList) := by
  have hnodup : ∀ m : StdMap K V, m.toList.Nodup := fun m => .of_map _ (nodup_map_fst_toList m)
  have hfresh : (k, v) ∉ m.toList := by
    rw [mem_toList_iff_getElem?_eq_some, h]
    exact nofun
  rw [perm_ext_iff_of_nodup (hnodup _) (nodup_cons.mpr ⟨hfresh, hnodup m⟩)]
  rintro ⟨a, w⟩
  rw [mem_cons, mem_toList_iff_getElem?_eq_some, mem_toList_iff_getElem?_eq_some,
    insert_eq_some_iff, Prod.mk.injEq, eq_comm (a := v)]
  by_cases ha : a = k <;> simp [ha, h]

/-- Inserting at a fresh key counts the new value. -/
theorem countP_insert_of_none [DecidableEq K] (f : V → Bool) (m : StdMap K V) (k : K) (v : V)
    (h : m[k]? = none) :
    countP f (m.insert k v) = countP f m + (f v).toNat := by
  have hperm := ((toList_insert_perm h v).filter fun e => f e.2).length_eq
  rw [← length_filter_toList, hperm, ← length_filter_toList, filter_cons]
  cases f v <;> rfl

/-- Overwriting a present key moves the count from its old value to its new one. -/
theorem countP_insert_of_some [DecidableEq K] (f : V → Bool) (m : StdMap K V) (k : K)
    (v w : V) (h : m[k]? = some v) :
    countP f (m.insert k w) + (f v).toNat = countP f m + (f w).toNat := by
  have hk : (m.erase k)[k]? = none := by simp
  have hw := countP_insert_of_none f _ k w hk
  have hv := countP_insert_of_none f _ k v hk
  rw [erase_insert] at hw hv
  rw [insert_of_some h] at hv
  omega

/-- Erasing a present key uncounts its value. -/
theorem countP_erase_of_some [DecidableEq K] (f : V → Bool) (m : StdMap K V) (k : K) (v : V)
    (h : m[k]? = some v) :
    countP f (m.erase k) + (f v).toNat = countP f m := by
  rw [← countP_insert_of_none f _ k v (by simp), erase_insert, insert_of_some h]

end StdMap

/-! ## Lists with iterators -/

namespace StdList

variable {V : Type}

/-- `std::list::erase(it)`: the node with the identity `it` goes. -/
def erase (l : List (Nat × V)) (it : Nat) : List (Nat × V) := l.eraseP fun e => e.1 == it

variable {l : List (Nat × V)} {it : Nat} {v : V}

section

variable (hl : (l.map fst).Nodup)

include hl

/-- Two nodes with one identity are the same node. -/
theorem eq_of_mem_of_mem {w : V} (hv : (it, v) ∈ l) (hw : (it, w) ∈ l) : v = w := by
  have := inj_on_of_nodup_map hl hv hw rfl
  rw [Prod.mk.injEq] at this
  exact this.2

/-- An iterator finds a node exactly when the node is in the list. -/
theorem lookup_eq_some_iff_mem (it : Nat) (v : V) : l.lookup it = some v ↔ (it, v) ∈ l := by
  rw [lookup_eq_some_iff]
  constructor
  · rintro ⟨l1, l2, rfl, -⟩
    simp
  · intro h
    obtain ⟨l1, l2, rfl⟩ := append_of_mem h
    refine ⟨l1, l2, rfl, ?_⟩
    intro p hp
    rw [map_append, map_cons, nodup_append] at hl
    have := hl.2.2 p.1 (mem_map_of_mem hp) it (by simp)
    rw [bne_iff_ne]
    exact fun heq => this heq.symm

/-- Erasing takes one node out. -/
theorem erase_perm (h : (it, v) ∈ l) : l.Perm ((it, v) :: erase l it) := by
  obtain ⟨⟨i, w⟩, l1, l2, -, hi, hl', he⟩ :=
    exists_of_eraseP (p := fun e : Nat × V => e.1 == it) h (by simp)
  simp only [beq_iff_eq] at hi
  subst hi
  have hw : (i, w) ∈ l := by rw [hl']; simp
  rw [erase, he, hl', eq_of_mem_of_mem hl h hw]
  exact perm_middle

/-- Erasing through an iterator removes its node and no other. -/
theorem mem_erase (h : (it, v) ∈ l) (i : Nat) (w : V) :
    (i, w) ∈ erase l it ↔ (i, w) ∈ l ∧ i ≠ it := by
  have hnodup := ((erase_perm hl h).map fst).nodup_iff.mp hl
  rw [map_cons, nodup_cons] at hnodup
  by_cases hi : i = it
  · subst hi
    exact iff_of_false (fun hm => hnodup.1 (mem_map.mpr ⟨_, hm, rfl⟩)) fun hm => hm.2 rfl
  · rw [erase, mem_eraseP_of_neg (by simpa using hi)]
    exact (and_iff_left hi).symm

/-- Erasing a node uncounts it. -/
theorem countP_erase (h : (it, v) ∈ l) (f : Nat × V → Bool) :
    (erase l it).countP f + (f (it, v)).toNat = l.countP f := by
  rw [(erase_perm hl h).countP_eq, countP_cons]
  cases f (it, v) <;> rfl

/-- Erasing a node shortens the list by one. -/
theorem length_erase (h : (it, v) ∈ l) : (erase l it).length + 1 = l.length := by
  have := countP_erase hl h fun _ => true
  simpa using this

end

/-- Erasing keeps the order of the other nodes. -/
theorem erase_sublist (l : List (Nat × V)) (it : Nat) : (erase l it).Sublist l :=
  eraseP_sublist

end StdList

end DefcoinCore
