import Mathlib.Tactic

/-!
# Byte streams

A reader takes bytes from the front of a stream and fails at the end of the data (`Get`).
`Reads x bytes a` says that the reader `x` takes exactly `bytes`, whatever follows, and returns `a`:
this is how a writer and its reader agree. The rules follow the way readers are put together: a
sequence of readers reads the bytes one after the other (`Reads.bind`), and a counted loop reads the
bytes of a list (`Reads.readMany`). Integers are written with the low byte first.

`Canonical x write valid` says the converse: whatever the reader accepts is what the writer writes
for the result, followed by the rest. Then no two byte strings are read as the same value.
-/

namespace DefcoinCore

open List

/-- A reader of a byte stream. -/
abbrev Get (α : Type) := StateT (List UInt8) (Except String) α

/-- The reader takes exactly these bytes, whatever follows, and returns `a`. -/
def Reads {α : Type} (x : Get α) (bytes : List UInt8) (a : α) : Prop :=
  ∀ rest, x (bytes ++ rest) = .ok (a, rest)

/-! ## Little-endian integers -/

/-- The low `n` bytes of a number, low byte first. -/
def writeLE : Nat → Nat → List UInt8
  | 0, _ => []
  | n + 1, x => UInt8.ofNat x :: writeLE n (x / 256)

/-- The number of a list of bytes, low byte first. -/
def ofLE : List UInt8 → Nat
  | [] => 0
  | b :: bs => b.toNat + 256 * ofLE bs

@[simp]
theorem length_writeLE (n x : Nat) : (writeLE n x).length = n := by
  induction n generalizing x with
  | zero => rfl
  | succ n ih => rw [writeLE, length_cons, ih]

/-- Reading back the low `n` bytes. -/
theorem ofLE_writeLE (n x : Nat) : ofLE (writeLE n x) = x % 256 ^ n := by
  induction n generalizing x with
  | zero => rw [writeLE, ofLE, pow_zero, Nat.mod_one]
  | succ n ih =>
    rw [writeLE, ofLE, ih, pow_succ', Nat.mod_mul, UInt8.toNat_ofNat']

theorem ofLE_lt (bs : List UInt8) : ofLE bs < 256 ^ bs.length := by
  induction bs with
  | nil => exact Nat.one_pos
  | cons b bs ih =>
    have hb := b.toNat_lt
    rw [ofLE, length_cons, pow_succ']
    omega

/-- Bytes are written back as they were read. -/
theorem writeLE_ofLE (bs : List UInt8) : writeLE bs.length (ofLE bs) = bs := by
  induction bs with
  | nil => rfl
  | cons b bs ih =>
    have hb := b.toNat_lt
    rw [length_cons, writeLE, ofLE]
    have hdiv : (b.toNat + 256 * ofLE bs) / 256 = ofLE bs := by omega
    have hmod : UInt8.ofNat (b.toNat + 256 * ofLE bs) = b := by
      apply UInt8.toNat_inj.mp
      rw [UInt8.toNat_ofNat']
      omega
    rw [hdiv, hmod, ih]

/-! ## Readers -/

/-- The next `n` bytes. -/
def readBytes (n : Nat) : Get (List UInt8) := fun s =>
  if s.length < n then .error "end of data" else .ok (s.take n, s.drop n)

/-- An unsigned integer of `n` bytes. -/
def readLE (n : Nat) : Get Nat := do
  let bytes ← readBytes n
  pure (ofLE bytes)

/-- A signed integer of 32 bits, as it is written. -/
def writeInt32 (x : Int) : List UInt8 := writeLE 4 (x % 2 ^ 32).toNat

/-- A signed integer of 32 bits. -/
def readInt32 : Get Int := do
  let n ← readLE 4
  pure (if n < 2 ^ 31 then n else n - 2 ^ 32)

/-- An array of `n` bytes. -/
abbrev Bytes (n : Nat) := { l : List UInt8 // l.length = n }

/-- The array that is set to null. -/
def Bytes.zero (n : Nat) : Bytes n := ⟨List.replicate n 0, List.length_replicate⟩

/-- An array of `n` bytes, read as it is. -/
def readArray (n : Nat) : Get (Bytes n) := fun s =>
  if h : n ≤ s.length then .ok (⟨s.take n, List.length_take_of_le h⟩, s.drop n)
  else .error "end of data"

/-- What a reader returns `n` times. -/
def readMany {α : Type} (x : Get α) : Nat → Get (List α)
  | 0 => pure []
  | n + 1 => do
    let a ← x
    let l ← readMany x n
    pure (a :: l)

namespace Reads

variable {α β : Type} {x : Get α} {f : α → Get β} {b b' : List UInt8} {a : α} {c : β}

theorem pure (a : α) : Reads (Pure.pure a : Get α) [] a := fun _ => rfl

/-- A sequence of readers. -/
theorem bind (hx : Reads x b a) (hf : Reads (f a) b' c) : Reads (x >>= f) (b ++ b') c := by
  intro rest
  have hx' := hx (b' ++ rest)
  rw [← append_assoc] at hx'
  show (x (b ++ b' ++ rest) >>= fun p => f p.1 p.2) = .ok (c, rest)
  rw [hx']
  exact hf rest

/-- A reader whose result is worked on without reading. -/
theorem bind_pure (hx : Reads x b a) (g : α → β) :
    Reads (x >>= fun a => Pure.pure (g a)) b (g a) := by
  have h := hx.bind (f := fun a => Pure.pure (g a)) (.pure (g a))
  rwa [append_nil] at h

theorem readBytes (b : List UInt8) : Reads (DefcoinCore.readBytes b.length) b b := by
  intro rest
  unfold DefcoinCore.readBytes
  simp

theorem readArray {n : Nat} (b : Bytes n) : Reads (DefcoinCore.readArray n) b.val b := by
  intro rest
  have hlen := b.property
  unfold DefcoinCore.readArray
  rw [dif_pos (by rw [length_append]; omega)]
  have htake : (b.val ++ rest).take n = b.val := take_left' hlen
  have hdrop : (b.val ++ rest).drop n = rest := drop_left' hlen
  rw [hdrop]
  exact congrArg (fun a => Except.ok (a, rest)) (Subtype.ext htake)

/-- An unsigned integer that fits. -/
theorem readLE {n v : Nat} (hv : v < 256 ^ n) : Reads (DefcoinCore.readLE n) (writeLE n v) v := by
  have h := (readBytes (writeLE n v)).bind_pure ofLE
  rw [length_writeLE, ofLE_writeLE, Nat.mod_eq_of_lt hv] at h
  exact h

/-- A signed integer in the range of 32 bits. -/
theorem readInt32 {v : Int} (hlow : -2 ^ 31 ≤ v) (hhigh : v < 2 ^ 31) :
    Reads DefcoinCore.readInt32 (writeInt32 v) v := by
  have hfit : (v % 2 ^ 32).toNat < 256 ^ 4 := by omega
  have h := (readLE hfit).bind_pure fun n : Nat => if n < 2 ^ 31 then (n : Int) else n - 2 ^ 32
  have hval : (if (v % 2 ^ 32).toNat < 2 ^ 31 then ((v % 2 ^ 32).toNat : Int)
      else ((v % 2 ^ 32).toNat : Int) - 2 ^ 32) = v := by
    split_ifs <;> omega
  rw [hval] at h
  exact h

/-- A counted loop reads a list item by item; what is read may differ from what was written. -/
theorem readMany_map {γ : Type} {write : γ → List UInt8} {f : γ → α} (l : List γ)
    (h : ∀ a ∈ l, Reads x (write a) (f a)) :
    Reads (DefcoinCore.readMany x l.length) (l.flatMap write) (l.map f) := by
  induction l with
  | nil => exact .pure []
  | cons a l ih =>
    refine (h a mem_cons_self).bind ?_
    exact (ih fun b hb => h b (mem_cons_of_mem a hb)).bind_pure (f a :: ·)

/-- A counted loop reads the items of a list. -/
theorem readMany {write : α → List UInt8} (l : List α) (h : ∀ a ∈ l, Reads x (write a) a) :
    Reads (DefcoinCore.readMany x l.length) (l.flatMap write) l := by
  have hmap := readMany_map (f := id) l h
  rwa [map_id] at hmap

end Reads

/-! ## Canonical readers -/

/-- Every stream that the reader accepts starts with what is written for the result, and the result
is valid. -/
def Canonical {α : Type} (x : Get α) (write : α → List UInt8) (valid : α → Prop) : Prop :=
  ∀ s a rest, x s = .ok (a, rest) → s = write a ++ rest ∧ valid a

/-- A sequence of readers that returned. -/
theorem Get.bind_eq_ok_iff {α β : Type} {x : Get α} {f : α → Get β} {s rest : List UInt8} {b : β} :
    (x >>= f) s = .ok (b, rest) ↔ ∃ a s', x s = .ok (a, s') ∧ f a s' = .ok (b, rest) := by
  show (x s >>= fun p => f p.1 p.2) = .ok (b, rest) ↔ _
  rcases x s with e | ⟨a, s'⟩
  · exact ⟨nofun, nofun⟩
  · constructor
    · intro h
      exact ⟨a, s', rfl, h⟩
    · rintro ⟨a', s'', h, hf⟩
      cases h
      exact hf

theorem Get.pure_eq_ok_iff {α : Type} {s rest : List UInt8} {a b : α} :
    (Pure.pure a : Get α) s = .ok (b, rest) ↔ a = b ∧ s = rest := by
  show Except.ok (a, s) = .ok (b, rest) ↔ _
  rw [Except.ok.injEq, Prod.mk.injEq]

namespace Canonical

variable {α : Type} {x : Get α} {write : α → List UInt8} {valid : α → Prop} {s rest : List UInt8}

/-- What a canonical reader accepts, if it reads back everything that is valid. -/
theorem eq_ok_iff (hx : Canonical x write valid) (hreads : ∀ a, valid a → Reads x (write a) a)
    {a : α} :
    x s = .ok (a, rest) ↔ s = write a ++ rest ∧ valid a :=
  ⟨hx s a rest, fun h => h.1 ▸ hreads a h.2 rest⟩

theorem readArray (n : Nat) : Canonical (DefcoinCore.readArray n) (·.val) fun _ => True := by
  intro s a rest h
  unfold DefcoinCore.readArray at h
  split_ifs at h with hlen
  cases h
  exact ⟨(take_append_drop n s).symm, trivial⟩

theorem readBytes (n : Nat) :
    Canonical (DefcoinCore.readBytes n) (fun b => b) fun b => b.length = n := by
  intro s a rest h
  unfold DefcoinCore.readBytes at h
  split_ifs at h with hlen
  cases h
  refine ⟨(take_append_drop n s).symm, ?_⟩
  show (s.take n).length = n
  rw [length_take]
  omega

theorem readLE (n : Nat) : Canonical (DefcoinCore.readLE n) (writeLE n) fun v => v < 256 ^ n := by
  intro s v rest h
  obtain ⟨b, s', hb, hv⟩ := Get.bind_eq_ok_iff.mp h
  obtain ⟨rfl, rfl⟩ := Get.pure_eq_ok_iff.mp hv
  obtain ⟨hs, hlen⟩ := readBytes n s b s' hb
  refine ⟨?_, ?_⟩
  · rw [hs, ← hlen, writeLE_ofLE]
  · rw [← hlen]
    exact ofLE_lt b

/-- A counted loop of a canonical reader. -/
theorem readMany (hx : Canonical x write valid) (n : Nat) :
    Canonical (DefcoinCore.readMany x n) (flatMap write)
      fun l => l.length = n ∧ ∀ a ∈ l, valid a := by
  induction n with
  | zero =>
    intro s l rest h
    obtain ⟨rfl, rfl⟩ := Get.pure_eq_ok_iff.mp h
    exact ⟨rfl, rfl, fun a ha => absurd ha not_mem_nil⟩
  | succ n ih =>
    intro s l rest h
    obtain ⟨a, s', ha, h⟩ := Get.bind_eq_ok_iff.mp h
    obtain ⟨l', s'', hl', h⟩ := Get.bind_eq_ok_iff.mp h
    obtain ⟨rfl, rfl⟩ := Get.pure_eq_ok_iff.mp h
    obtain ⟨hs, hvalid⟩ := hx s a s' ha
    obtain ⟨hs', hlen, hall⟩ := ih s' l' s'' hl'
    refine ⟨?_, by rw [length_cons, hlen], ?_⟩
    · rw [hs, hs', flatMap_cons, append_assoc]
    · rw [forall_mem_cons]
      exact ⟨hvalid, hall⟩

end Canonical

end DefcoinCore
