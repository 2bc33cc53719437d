import DefcoinCore.Mweb.CoinsViewCache

/-!
# Reading inside a database transaction

`DBTransaction` collects writes in a batch, and lets them be read before the batch is committed: the
values that were put are kept by key in an `OrderedMultimap`. A deletion takes the last value of its
key out of the multimap and leaves no record of its own, so the value before it, or the one in the
database, is read again. What is read is what a commit would leave exactly as long as no key that
was deleted last has such a value (`get_eq_commit_iff`). `CoinsViewDB::WriteBatch` reads in this way
before it spends.
-/

namespace DefcoinCore.Mweb

open List Function

variable {K V : Type} [DecidableEq K]

/-- The values of a key after an operation on it, the last one first. -/
def pend (values : List V) : Option V → List V
  | some value => value :: values
  | none => values.tail

/-- `DBTransaction`: the `OrderedMultimap` of the values that were added, the last one first, and
the batch. -/
structure DBTransaction (K V : Type) where
  added : K → List V := fun _ => []
  batch : List (K × Option V) := []

namespace DBTransaction

/-- A round of the loop of `DBTransaction::Put`, or with no value `DBTransaction::Delete`. -/
def write (tx : DBTransaction K V) (op : K × Option V) : DBTransaction K V :=
  ⟨update tx.added op.1 (pend (tx.added op.1) op.2), tx.batch ++ [op]⟩

/-- A new transaction after some operations. -/
def run (ops : List (K × Option V)) : DBTransaction K V := ops.foldl write {}

/-- `DBTransaction::Get`, on a database. -/
def get (tx : DBTransaction K V) (db : K → Option V) (key : K) : Option V :=
  (tx.added key).head?.or (db key)

/-- The database after the commit of the batch. -/
def commit (tx : DBTransaction K V) (db : K → Option V) : K → Option V :=
  tx.batch.foldl (fun db op => update db op.1 op.2) db

end DBTransaction

open DBTransaction

/-- The operations on a key. -/
def opsOn (ops : List (K × Option V)) (key : K) : List (Option V) :=
  (ops.filter (·.1 = key)).map (·.2)

/-- Every value that was put has a deletion of its own after it: no end of the operations has more
puts than deletions. -/
def Cleared (ops : List (Option V)) : Prop :=
  ∀ rest ∈ ops.tails, rest.countP Option.isSome ≤ rest.countP Option.isNone

theorem foldl_pend_eq_nil_iff (ops : List (Option V)) (values : List V) :
    ops.foldl pend values = [] ↔
      values.length + ops.countP Option.isSome ≤ ops.countP Option.isNone ∧ Cleared ops := by
  induction ops generalizing values with
  | nil => simp [Cleared]
  | cons op ops ih =>
    have hcons : Cleared (op :: ops) ↔
        (op :: ops).countP Option.isSome ≤ (op :: ops).countP Option.isNone ∧ Cleared ops := by
      rw [Cleared, tails_cons, forall_mem_cons]
      rfl
    rw [foldl_cons, ih, hcons]
    by_cases h : Cleared ops
    · -- A deletion from no values is lost, but then the rest alone has enough of them.
      have hself := h ops ((mem_tails ..).mpr (suffix_refl _))
      rcases op with _ | value <;> simp [pend, h] <;> omega
    · simp [h]

theorem pend_eq_nil_iff {ops : List (Option V)} : ops.foldl pend [] = [] ↔ Cleared ops := by
  rw [foldl_pend_eq_nil_iff, length_nil, Nat.zero_add]
  exact and_iff_right_of_imp fun h => h ops ((mem_tails ..).mpr (suffix_refl _))

theorem run_concat {ops : List (K × Option V)} {op : K × Option V} :
    run (ops ++ [op]) = (run ops).write op :=
  foldl_append ..

/-- What a transaction knows of a key, and what a commit leaves there. -/
theorem run_spec (ops : List (K × Option V)) (db : K → Option V) (key : K) :
    (run ops).added key = (opsOn ops key).foldl pend [] ∧
      (run ops).commit db key = (opsOn ops key).getLast?.getD (db key) := by
  induction ops using reverseRecOn with
  | nil => exact ⟨rfl, rfl⟩
  | append_singleton ops op ih =>
    have hops : opsOn (ops ++ [op]) key = opsOn ops key ++ if op.1 = key then [op.2] else [] := by
      by_cases h : op.1 = key <;> simp [h, opsOn]
    have hcommit : ((run ops).write op).commit db = update ((run ops).commit db) op.1 op.2 :=
      foldl_append ..
    rw [run_concat, hcommit, hops]
    by_cases hkey : op.1 = key
    · subst hkey
      rw [if_pos rfl, foldl_append, ← ih.1, getLast?_concat, update_self]
      exact ⟨update_self .., rfl⟩
    · rw [if_neg hkey, append_nil, update_of_ne (Ne.symm hkey), ← ih.1]
      exact ⟨update_of_ne (Ne.symm hkey) .., ih.2⟩

/-- A read inside a transaction finds what a commit would leave exactly if a key that was deleted
last has nothing in the database, and a deletion for every value that was put. -/
theorem get_eq_commit_iff (ops : List (K × Option V)) (db : K → Option V) (key : K) :
    (run ops).get db key = (run ops).commit db key ↔
      ((opsOn ops key).getLast? = some none → db key = none ∧ Cleared (opsOn ops key)) := by
  obtain ⟨hadded, hcommit⟩ := run_spec ops db key
  rw [hcommit, DBTransaction.get, hadded, ← pend_eq_nil_iff]
  rcases (opsOn ops key).eq_nil_or_concat with hops | ⟨done, _ | value, hops⟩ <;>
    rw [hops]
  · exact iff_of_true rfl nofun
  · rw [concat_eq_append, foldl_append, getLast?_concat, foldl_cons, foldl_nil]
    cases pend (done.foldl pend []) none <;> simp
  · rw [concat_eq_append, foldl_append, getLast?_concat]
    exact iff_of_true rfl nofun

/-! ## Writing the actions of a cache -/

/-- The actions of a cache, in the order of the loops of `CoinsViewDB::WriteBatch`. -/
def CoinsViewUpdates.ops (updates : CoinsViewUpdates) : List (Hash × Option UTXO) :=
  updates.toList.flatMap fun output => output.2.map (Prod.mk output.1)

/-- The exception of `SpendUTXO`. -/
def utxoMissing : Fault := .exception (throwValidation "SpendUTXO" .utxoMissing)

/-- An action of `CoinsViewDB::WriteBatch`: `AddUTXO`, or `SpendUTXO`, which reads first. -/
def writeAction (utxos : Hash → Option UTXO) (tx : DBTransaction Hash UTXO)
    (op : Hash × Option UTXO) : Except Fault (DBTransaction Hash UTXO) :=
  if op.2.isNone ∧ (tx.get utxos op.1).isNone then .error utxoMissing else .ok (tx.write op)

/-- The loops of `CoinsViewDB::WriteBatch`. -/
def writeBatch (utxos : Hash → Option UTXO) (updates : CoinsViewUpdates) :
    Except Fault (DBTransaction Hash UTXO) :=
  updates.ops.foldlM (writeAction utxos) {}

/-- An output is not there after actions on it. -/
def Absent (stored : Option UTXO) (done : List (Option UTXO)) : Prop :=
  lastAction stored done = none

/-- An output is not read after actions on it: the database has none, and all that were put were
deleted. -/
def Unread (stored : Option UTXO) (done : List (Option UTXO)) : Prop := stored = none ∧ Cleared done

/-- One of the outputs of a batch is spent after actions of a kind. -/
def BatchSpends (P : Option UTXO → List (Option UTXO) → Prop) (utxos : Hash → Option UTXO)
    (ops : List (Hash × Option UTXO)) : Prop :=
  ∃ done output_id, done ++ [(output_id, none)] <+: ops ∧ P (utxos output_id) (opsOn done output_id)

/-- The actions on an output are those of the cache. -/
theorem opsOn_ops (updates : CoinsViewUpdates) (output_id : Hash) :
    opsOn updates.ops output_id = updates.getActions output_id := by
  rw [CoinsViewUpdates.ops, flatMap_eq_foldl,
    StdMap.foldl_toList opsOn (· ++ ·) (fun ops output => ?_)]
  · unfold CoinsViewUpdates.getActions
    cases updates[output_id]? <;> rfl
  · funext key
    by_cases h : key = output.1
    · simp [h, opsOn, filter_map, comp_def]
    · simp [h, Ne.symm h, opsOn, filter_map, comp_def]

theorem batchSpends_concat {P : Option UTXO → List (Option UTXO) → Prop}
    {utxos : Hash → Option UTXO} {ops : List (Hash × Option UTXO)} {op : Hash × Option UTXO} :
    BatchSpends P utxos (ops ++ [op]) ↔
      op.2 = none ∧ P (utxos op.1) (opsOn ops op.1) ∨ BatchSpends P utxos ops := by
  simp only [BatchSpends, prefix_concat_iff, or_and_right, exists_or]
  refine or_congr_left ⟨?_, ?_⟩
  · rintro ⟨done, output_id, heq, h⟩
    obtain ⟨rfl, hlast⟩ := append_inj' heq rfl
    cases hlast
    exact ⟨rfl, h⟩
  · obtain ⟨output_id, action⟩ := op
    rintro ⟨rfl, h⟩
    exact ⟨ops, output_id, rfl, h⟩

/-- The actions are written one after the other, and throw at the spend of one that is not read. -/
theorem foldlM_writeAction_spec (utxos : Hash → Option UTXO) (ops : List (Hash × Option UTXO)) :
    Ensures (ops.foldlM (writeAction utxos) {})
      (fun tx => tx = run ops ∧ ¬ BatchSpends Unread utxos ops)
      fun e => e = utxoMissing ∧ BatchSpends Unread utxos ops := by
  induction ops using reverseRecOn with
  | nil => exact ⟨rfl, by simp [BatchSpends]⟩
  | append_singleton ops op ih =>
    rw [foldlM_append, batchSpends_concat]
    rcases hfold : ops.foldlM (writeAction utxos) {} with e | tx <;> rw [hfold] at ih
    · exact ⟨ih.1, .inr ih.2⟩
    obtain ⟨rfl, hnot⟩ := ih
    have hunread : Unread (utxos op.1) (opsOn ops op.1) ↔ ((run ops).get utxos op.1).isNone := by
      simp [DBTransaction.get, (run_spec ops utxos op.1).1, Unread, ← pend_eq_nil_iff, and_comm]
    rw [ok_bind, foldlM_cons, writeAction, hunread, ← Option.isNone_iff_eq_none]
    split_ifs with h
    · exact ⟨rfl, .inl h⟩
    · exact ⟨run_concat.symm, not_or.mpr ⟨h, hnot⟩⟩

/-- What is not read is not there, since the last of the actions was no addition. -/
theorem Unread.absent {stored : Option UTXO} {done : List (Option UTXO)} (h : Unread stored done) :
    Absent stored done := by
  rcases done.eq_nil_or_concat with rfl | ⟨front, _ | utxo, rfl⟩
  · exact h.1
  · rw [Absent, concat_eq_append, lastAction_append]
    rfl
  · have hnil := pend_eq_nil_iff.mpr h.2
    rw [concat_eq_append, foldl_append] at hnil
    cases hnil

/-- A commit leaves what the last operation on a key says. A transaction reads its own writes
exactly if a key that was deleted last has nothing in the database, and a deletion for every value
that was put. `WriteBatch` throws for the spends of outputs that are not there exactly if, where
there are some, one of them is not read. -/
theorem transaction_reads_iff (db : K → Option V) (ops : List (K × Option V)) (key : K)
    (utxos : Hash → Option UTXO) (updates : CoinsViewUpdates) :
    (run ops).commit db key = (opsOn ops key).getLast?.getD (db key) ∧
    ((run ops).get db key = (run ops).commit db key ↔
      ((opsOn ops key).getLast? = some none → db key = none ∧ Cleared (opsOn ops key))) ∧
    ((writeBatch utxos updates = .error utxoMissing ↔
        BatchSpends Absent utxos updates.ops) ↔
      (BatchSpends Absent utxos updates.ops → BatchSpends Unread utxos updates.ops)) := by
  refine ⟨(run_spec ops db key).2, get_eq_commit_iff ops db key, ?_⟩
  have hspec := foldlM_writeAction_spec utxos updates.ops
  have hthrows : writeBatch utxos updates = .error utxoMissing ↔
      BatchSpends Unread utxos updates.ops := by
    rcases hrun : writeBatch utxos updates with e | tx
    · exact iff_of_true (congrArg _ (hspec.of_error hrun).1) (hspec.of_error hrun).2
    · exact iff_of_false nofun (hspec.of_ok hrun).2
  rw [hthrows]
  refine ⟨Iff.mpr, fun h => ⟨?_, h⟩⟩
  rintro ⟨done, output_id, hdone, hunread⟩
  exact ⟨done, output_id, hdone, hunread.absent⟩

/-- Two spends of an output. -/
def doubleSpend : CoinsViewUpdates := CoinsViewUpdates.spendUTXO (CoinsViewUpdates.spendUTXO ∅ 7) 7

/-- After a deletion the value of the database is read, and an output is spent twice. -/
theorem transaction_reads_deleted :
    ((run [(0, none)]).get (fun _ => some 5) 0 = some 5 ∧
      (run [(0, none)]).commit (fun _ => some 5) 0 = (none : Option Nat)) ∧
    Returns (writeBatch (fun _ => some ⟨0, 0, plainOutput 7⟩) doubleSpend) (fun _ => True) ∧
    BatchSpends Absent (fun _ => some ⟨0, 0, plainOutput 7⟩) doubleSpend.ops := by
  have hops : doubleSpend.ops = [(7, none), (7, none)] := by decide +kernel
  exact ⟨⟨rfl, rfl⟩, trivial, [(7, none)], 7, hops ▸ prefix_refl _, rfl⟩

end DefcoinCore.Mweb
