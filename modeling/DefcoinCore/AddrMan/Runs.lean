import DefcoinCore.AddrMan.Operations
import DefcoinCore.Lib.Machine

/-!
# Runs of the address manager

An address manager is a machine whose inputs are the calls of its public functions (`AddrOp`), with
every draw of the random generator and every reading of the clock as an argument. The runs of
interest start from an empty address manager with any key and any map of autonomous systems.

- `addrMan_consistent`: in every state that a run reaches, the indexes, the tables and the counters
  agree, and no further call can raise a fault.
- `selectTriedCollision_frame_iff`: `SelectTriedCollision` leaves the tables alone exactly when the
  slot of the drawn collision is taken.
-/

namespace DefcoinCore.AddrMan

open DefcoinCore List Option

/-- The calls of the public functions. -/
inductive AddrOp where
  | add (addr : CAddress) (source : CNetAddr) (nTimePenalty now : Int) (rnd : Nat)
  | addAll (vAddr : List CAddress) (source : CNetAddr) (nTimePenalty now : Int) (rnd : Nat → Nat)
  | addReplacingSameIP (addr : CAddress) (source : CNetAddr) (nTimePenalty now : Int) (rnd : Nat)
  | addAndMarkGood (addr : CAddress) (now : Int) (rnd : Nat)
  | addAndMarkGoodReplacingSameIP (addr : CAddress) (now : Int) (rnd : Nat)
  | good (addr : CService) (test_before_evict : Bool) (nTime : Int) (rnd : Nat)
  | attempt (addr : CService) (fCountFailure : Bool) (nTime : Int)
  | connected (addr : CService) (nTime : Int)
  | setServices (addr : CService) (nServices : UInt64)
  | resolveCollisions (now : Int) (rnd : Int → Nat)
  | getAddr (max_addresses max_pct : Nat) (now : Int) (rnd : Nat → Nat)
  | selectTriedCollision (rnd : Nat)
  | clear (nKey : Uint256)

/-- What a call returns. -/
structure AddrOut where
  /-- The result of the functions that add addresses. -/
  added : Bool := false
  /-- The addresses of `GetAddr`. -/
  vAddr : List CAddress := []
  /-- The entry of `SelectTriedCollision`. -/
  selected : Option CAddrInfo := none

namespace CAddrMan

variable (env : AddrEnv)

/-- `Add` of a list of addresses, with a random draw for each of them. -/
def addAll (m : CAddrMan) (vAddr : List CAddress) (source : CNetAddr) (nTimePenalty now : Int)
    (rnd : Nat → Nat) : Except Fault (Bool × CAddrMan) :=
  vAddr.zipIdx.foldlM (fun r (addr, i) => do
    let (added, m) ← r.2.add_ env addr source nTimePenalty now (rnd i)
    pure (r.1 || added, m)) (false, m)

/-- One call. -/
def step (m : CAddrMan) : AddrOp → Except Fault (CAddrMan × AddrOut)
  | .add addr source nTimePenalty now rnd => do
    let (added, m) ← m.add_ env addr source nTimePenalty now rnd
    pure (m, { added })
  | .addAll vAddr source nTimePenalty now rnd => do
    let (added, m) ← m.addAll env vAddr source nTimePenalty now rnd
    pure (m, { added })
  | .addReplacingSameIP addr source nTimePenalty now rnd => do
    let (added, m) ← m.addReplacingSameIP env addr source nTimePenalty now rnd
    pure (m, { added })
  | .addAndMarkGood addr now rnd => do
    let (added, m) ← m.addAndMarkGood_ env addr now rnd
    pure (m, { added })
  | .addAndMarkGoodReplacingSameIP addr now rnd => do
    let (added, m) ← m.addAndMarkGoodReplacingSameIP env addr now rnd
    pure (m, { added })
  | .good addr test_before_evict nTime rnd => do
    let m ← m.good_ env addr test_before_evict nTime rnd
    pure (m, {})
  | .attempt addr fCountFailure nTime => .ok (m.attempt_ addr fCountFailure nTime, {})
  | .connected addr nTime => .ok (m.connected_ addr nTime, {})
  | .setServices addr nServices => .ok (m.setServices_ addr nServices, {})
  | .resolveCollisions now rnd => do
    let m ← m.resolveCollisions_ env now rnd
    pure (m, {})
  | .getAddr max_addresses max_pct now rnd => do
    let (vAddr, m) ← m.getAddr_ max_addresses max_pct now rnd
    pure (m, { vAddr })
  | .selectTriedCollision rnd =>
    let (info, m) := m.selectTriedCollision_ env rnd
    .ok (m, { selected := some info })
  | .clear nKey => .ok (m.clear nKey, {})

end CAddrMan

/-- The times that are recorded as a success are not zero. -/
def AddrOp.Timed : AddrOp → Prop
  | .addAndMarkGood _ now _ | .addAndMarkGoodReplacingSameIP _ now _ | .resolveCollisions now _ =>
    now ≠ 0
  | .good _ _ nTime _ => nTime ≠ 0
  | _ => True

instance (op : AddrOp) : Decidable op.Timed := by
  unfold AddrOp.Timed
  cases op <;> infer_instance

namespace CAddrMan

variable {env : AddrEnv} {m m' : CAddrMan}

/-! ## What one call does -/

/-- The collision that `SelectTriedCollision` draws is stale, or its slot of the tried table is
taken. -/
def CollisionStands (env : AddrEnv) (m : CAddrMan) (rnd : Nat) : Prop :=
  ∀ id_new, m.m_tried_collisions.toList[rnd % m.m_tried_collisions.size]? = some id_new →
    ∀ info, m.mapInfo[id_new]? = some info → m.vvTried (m.triedSlot env info.toCService) ≠ -1

/-- Nothing changes but that a stale collision may be erased. -/
def OnlyErasesStale (m m' : CAddrMan) : Prop :=
  m' = m ∨ ∃ id : Int, m.mapInfo[id]? = none ∧
    m' = { m with m_tried_collisions := m.m_tried_collisions.erase id }

/-- The entry is the default one, or one that is in the tried table. -/
def DefaultOrTried (m : CAddrMan) (info : CAddrInfo) : Prop :=
  info = {} ∨ info.fInTried ∧
    ∃ slot, m.vvTried slot ≠ -1 ∧ m.mapInfo[m.vvTried slot]? = some info

/-- When the drawn collision stands, `SelectTriedCollision` has no other effect than to erase a
stale collision. -/
theorem selectTriedCollision_of_stands (hc : m.Consistent env) {rnd : Nat}
    (h : m.CollisionStands env rnd) :
    OnlyErasesStale m (m.selectTriedCollision_ env rnd).2 ∧
      DefaultOrTried m (m.selectTriedCollision_ env rnd).1 := by
  unfold selectTriedCollision_
  split_ifs with hsize
  · exact ⟨.inl rfl, .inl rfl⟩
  rcases hdraw : m.m_tried_collisions.toList[rnd % m.m_tried_collisions.size]? with _ | id_new
  · exact ⟨.inl rfl, .inl rfl⟩
  simp only
  rcases hid : m.mapInfo[id_new]? with _ | info
  · exact ⟨.inr ⟨id_new, hid, rfl⟩, .inl rfl⟩
  · have htaken := h id_new hdraw info hid
    obtain ⟨info_old, hold, htrue, -⟩ := hc.tabled.triedHeld _ htaken
    simp only [StdMap.subscript_of_some hold]
    exact ⟨.inl rfl, .inr ⟨htrue, _, htaken, hold⟩⟩

/-- When the slot of the drawn collision is empty, `SelectTriedCollision` inserts an entry under the
identifier of an empty slot. -/
theorem selectTriedCollision_of_not_stands (hc : m.Consistent env) {rnd : Nat}
    (h : ¬ m.CollisionStands env rnd) :
    (m.selectTriedCollision_ env rnd).2.mapInfo ≠ m.mapInfo := by
  unfold CollisionStands at h
  push Not at h
  obtain ⟨id_new, hdraw, info, hid, hempty⟩ := h
  have hsize : m.m_tried_collisions.size ≠ 0 := by
    have hlt := (List.getElem?_eq_some_iff.mp hdraw).1
    rw [Std.ExtTreeSet.length_toList] at hlt
    omega
  unfold selectTriedCollision_
  rw [if_neg hsize, hdraw]
  simp only [hid, hempty, StdMap.subscript, hc.tabled.noEmpty]
  intro heq
  have hlook := congrArg (fun map : StdMap Int CAddrInfo => map[(-1 : Int)]?) heq
  simp only [StdMap.getElem?_insert, if_true, hc.tabled.noEmpty] at hlook
  exact absurd hlook (by simp)

/-- A call whose times are not zero, and that does not resolve a collision whose slot is empty,
keeps the invariant and raises no fault. -/
theorem step_keeps (hc : m.Consistent env) (op : AddrOp) (htimed : op.Timed)
    (hstands : ∀ rnd, op = .selectTriedCollision rnd → m.CollisionStands env rnd) :
    Returns (m.step env op) fun r => r.1.Consistent env := by
  cases op with
  | add addr source nTimePenalty now rnd =>
    exact (add_spec hc addr source nTimePenalty now rnd).bind fun _ h => h.1.consistent
  | addAll vAddr source nTimePenalty now rnd =>
    refine (Ensures.foldlM (P := fun _ (r : Bool × CAddrMan) => r.2.Consistent env)
      vAddr.zipIdx ?_ (b := (false, m)) hc).bind fun _ h => h
    rintro done r ⟨addr, i⟩ - hr
    exact (add_spec hr addr source nTimePenalty now (rnd i)).bind fun _ h => h.1.consistent
  | addReplacingSameIP addr source nTimePenalty now rnd =>
    exact (addReplacingSameIP_spec hc addr source nTimePenalty now rnd).bind fun _ h => h.1
  | addAndMarkGood addr now rnd =>
    exact (addAndMarkGood_spec hc addr htimed rnd).bind fun _ h => h
  | addAndMarkGoodReplacingSameIP addr now rnd =>
    exact (addAndMarkGoodReplacingSameIP_spec hc addr htimed rnd).bind fun _ h => h
  | good addr test_before_evict nTime rnd =>
    exact (good_spec hc addr test_before_evict htimed rnd).bind fun _ h => h
  | attempt addr fCountFailure nTime => exact attempt_spec hc addr fCountFailure nTime
  | connected addr nTime => exact connected_spec hc addr nTime
  | setServices addr nServices => exact setServices_spec hc addr nServices
  | resolveCollisions now rnd =>
    exact (resolveCollisions_spec hc htimed rnd).bind fun _ h => h
  | getAddr max_addresses max_pct now rnd =>
    exact (getAddr_spec hc max_addresses max_pct now rnd).bind fun _ h => h
  | selectTriedCollision rnd =>
    rcases (selectTriedCollision_of_stands hc (hstands rnd rfl)).1 with h | ⟨id, -, h⟩
    · show (m.selectTriedCollision_ env rnd).2.Consistent env
      rw [h]
      exact hc
    · show (m.selectTriedCollision_ env rnd).2.Consistent env
      rw [h]
      exact ⟨hc.indexed, hc.tabled⟩
  | clear nKey => exact consistent_empty nKey m.m_asmap m.m_tried_collisions

/-! ## Runs -/

/-- A call with times other than zero that does not ask for a collision to test. -/
def Plain (_ : CAddrMan) (op : AddrOp) : Prop :=
  op.Timed ∧ ∀ rnd, op ≠ .selectTriedCollision rnd

/-- A call with times other than zero that asks for a collision to test only while the drawn one
stands. -/
def Standing (env : AddrEnv) (m : CAddrMan) (op : AddrOp) : Prop :=
  op.Timed ∧ ∀ rnd, op = .selectTriedCollision rnd → m.CollisionStands env rnd

/-- The states that runs of calls under `guard` reach from an empty address manager. -/
def Reaches (env : AddrEnv) (guard : CAddrMan → AddrOp → Prop) (m : CAddrMan) : Prop :=
  ∃ nKey asmap, Machine.Reachable guard (fun m op => m.step env op)
    { nKey := nKey, m_asmap := asmap } m

/-- Every state that a standing run reaches is consistent. -/
theorem Reaches.consistent (h : Reaches env (Standing env) m) : m.Consistent env := by
  obtain ⟨nKey, asmap, h⟩ := h
  refine h.invariant (P := fun m => m.Consistent env) (consistent_empty nKey asmap ∅) ?_
  intro m op m' o hm hg hstep
  exact (step_keeps hm op hg.1 hg.2).of_ok hstep

/-- A plain run is a standing run. -/
theorem Reaches.of_plain (h : Reaches env Plain m) : Reaches env (Standing env) m := by
  obtain ⟨nKey, asmap, h⟩ := h
  exact ⟨nKey, asmap, h.mono fun m op hg => ⟨hg.1, fun rnd heq => absurd heq (hg.2 rnd)⟩⟩

/-! ## Consistency -/

/-- The list of identifiers in random order has every identifier in use once. -/
theorem vRandom_perm (hi : m.IsIndexed) : m.vRandom.Perm m.mapInfo.keys := by
  have hnodup : m.vRandom.Nodup := by
    rw [nodup_iff_getElem?_ne_getElem?]
    intro i j hij hj heq
    obtain ⟨id, hid⟩ : ∃ id, m.vRandom[j]? = some id := ⟨_, getElem?_eq_getElem hj⟩
    obtain ⟨info, hinfo, hposj⟩ := (hi.random j id).mp hid
    obtain ⟨info', hinfo', hposi⟩ := (hi.random i id).mp (heq.trans hid)
    rw [hinfo, some.injEq] at hinfo'
    rw [← hinfo'] at hposi
    omega
  refine (perm_ext_iff_of_nodup hnodup Std.ExtTreeMap.nodup_keys).mpr fun id => ?_
  rw [Std.ExtTreeMap.mem_keys, Std.ExtTreeMap.mem_iff_isSome_getElem?, isSome_iff_exists,
    mem_iff_getElem?]
  constructor
  · rintro ⟨n, hn⟩
    obtain ⟨info, hinfo, -⟩ := (hi.random n id).mp hn
    exact ⟨info, hinfo⟩
  · rintro ⟨info, hinfo⟩
    exact ⟨_, hi.getElem?_vRandom hinfo⟩

/-- In every state that a run reaches: `vRandom` is a permutation of the identifiers with
`nRandomPos` its inverse; `mapAddr` has each entry under its address; the counters count; a tried
entry is in exactly its slot of the tried table; a new entry is in one to eight slots of the new
table, at its position of each bucket; the reference counts count; no slot holds an identifier that
is not in use. No further call fails. -/
theorem addrMan_consistent (env : AddrEnv) (m : CAddrMan) (h : Reaches env Plain m) :
    (m.vRandom.Perm m.mapInfo.keys ∧ ∀ (id : Int) (info : CAddrInfo), m.mapInfo[id]? = some info →
      0 ≤ info.nRandomPos ∧ m.vRandom[info.nRandomPos.toNat]? = some id) ∧
    (∀ (a : CNetAddr) (id : Int), m.mapAddr[a]? = some id ↔
      ∃ info : CAddrInfo, m.mapInfo[id]? = some info ∧ info.toCNetAddr = a) ∧
    m.nTried = m.mapInfo.countP (·.fInTried) ∧
    m.nNew = m.mapInfo.countP (fun info => !info.fInTried) ∧
    (∀ (id : Int) (info : CAddrInfo), m.mapInfo[id]? = some info → info.fInTried →
      (∀ slot, m.vvTried slot = id ↔ slot = m.triedSlot env info.toCService) ∧
      info.nRefCount = 0 ∧ info.nLastSuccess ≠ 0) ∧
    (∀ (id : Int) (info : CAddrInfo), m.mapInfo[id]? = some info → info.fInTried = false →
      1 ≤ info.nRefCount ∧ info.nRefCount ≤ 8 ∧ ∀ bucket pos, m.vvNew (bucket, pos) = id →
        pos = getBucketPosition env m.nKey info.toCService true bucket.val) ∧
    (∀ (id : Int) (info : CAddrInfo), m.mapInfo[id]? = some info →
      info.nRefCount = (Finset.univ.filter fun slot => m.vvNew slot = id).card) ∧
    (∀ slot, m.vvNew slot ≠ -1 →
      ∃ info : CAddrInfo, m.mapInfo[m.vvNew slot]? = some info ∧ info.fInTried = false) ∧
    (∀ slot, m.vvTried slot ≠ -1 →
      ∃ info : CAddrInfo, m.mapInfo[m.vvTried slot]? = some info ∧ info.fInTried) ∧
    (∀ op : AddrOp, Plain m op → ∃ m' o, m.step env op = .ok (m', o)) := by
  have hc := h.of_plain.consistent
  refine ⟨⟨vRandom_perm hc.indexed, ?_⟩, hc.indexed.addr, hc.tabled.nTried, ?_, ?_, ?_,
    hc.tabled.refs, ?_, ?_, ?_⟩
  · intro id info hid
    exact ⟨hc.indexed.position id info hid, hc.indexed.getElem?_vRandom hid⟩
  · have hnew := hc.tabled.nNew
    rwa [add_zero] at hnew
  · intro id info hid htrue
    obtain ⟨hat, hsucc⟩ := hc.tabled.tried id info hid htrue
    refine ⟨fun slot => ⟨fun heq => ?_, fun heq => heq ▸ hat⟩,
      hc.tabled.refs_tried hid htrue, hsucc⟩
    exact (hc.tabled.slot_of_triedHeld hid heq).2.symm
  · intro id info hid hfalse
    have hlive := hc.tabled.live id info hid hfalse (by simp)
    have hrefs := hc.tabled.refs id info hid
    refine ⟨by omega, hc.tabled.few id info hid, fun bucket pos heq => ?_⟩
    exact (Prod.mk.inj (hc.tabled.slot_of_held hid heq).2).2.symm
  · intro slot hslot
    obtain ⟨info, hid, hfalse, -⟩ := hc.tabled.held slot hslot
    exact ⟨info, hid, hfalse⟩
  · intro slot hslot
    obtain ⟨info, hid, htrue, -⟩ := hc.tabled.triedHeld slot hslot
    exact ⟨info, hid, htrue⟩
  · intro op hop
    obtain ⟨⟨m', o⟩, hstep, -⟩ := (step_keeps hc op hop.1 fun rnd heq =>
      absurd heq (hop.2 rnd)).exists_ok
    exact ⟨m', o, hstep⟩

/-- An environment in which all hashes are zero, so that all addresses share their slots. -/
def flatEnv : AddrEnv where
  getCheapHash _ := 0
  getAddrBytes a := a.m_addr
  getGroup _ _ := []
  isRoutable _ := true
  isValid _ := true

/-- The address of a host with a port. -/
def host (n : UInt8) (port : UInt16) : CAddress :=
  { m_net := .ipv4, m_addr := [10, 0, 0, n], port := port }

/-- Two hosts collide in the tried table. -/
def collisionRun : List AddrOp :=
  [.add (host 1 1337) {} 0 100000001 0, .good (host 1 1337).toCService true 100000001 0,
    .add (host 2 1337) {} 0 100000001 0, .good (host 2 1337).toCService true 100000001 0]

/-- Then the first host comes back with another port, which removes its tried entry. -/
def removalRun : List AddrOp :=
  collisionRun ++ [.addReplacingSameIP (host 1 1338) {} 0 100000001 0]

/-- Every call of these runs is plain. -/
theorem removalRun_plain : ∀ op ∈ removalRun, ∀ m, Plain m op := by
  intro op hop m
  simp only [removalRun, collisionRun, cons_append, nil_append, mem_cons,
    not_mem_nil, or_false] at hop
  rcases hop with rfl | rfl | rfl | rfl | rfl
  all_goals exact ⟨by decide, by simp⟩

/-- What holds at the end of such a run holds in a state that is reached. -/
theorem reaches_of_run {l : List AddrOp} {P : CAddrMan → Prop} (hl : ∀ op ∈ l, op ∈ removalRun)
    (h : Returns (Machine.run (fun (m : CAddrMan) op => m.step flatEnv op) { nKey := 1 } l) P) :
    ∃ m, Reaches flatEnv Plain m ∧ P m := by
  obtain ⟨m, hrun, hP⟩ := h.exists_ok
  exact ⟨m, ⟨1, [], Machine.Reachable.of_run (fun op hop => removalRun_plain op (hl op hop)) hrun⟩,
    hP⟩

/-- After the collision, one entry is tried and one is new. -/
theorem addrMan_consistent_collision : ∃ m, Reaches flatEnv Plain m ∧
    m.nTried = 1 ∧ m.nTried = m.mapInfo.countP (·.fInTried) ∧
    m.nNew = 1 ∧ m.nNew = m.mapInfo.countP fun info => !info.fInTried := by
  obtain ⟨m, hm, htried, hnew⟩ := reaches_of_run (l := collisionRun)
    (P := fun m => m.nTried = 1 ∧ m.nNew = 1) (fun _ => mem_append_left _) (by decide +kernel)
  obtain ⟨-, -, hcountTried, hcountNew, -⟩ := addrMan_consistent flatEnv m hm
  exact ⟨m, hm, htried, hcountTried, hnew, hcountNew⟩

/-- The call of `SelectTriedCollision`. -/
theorem step_selectTriedCollision (rnd : Nat) : m.step env (.selectTriedCollision rnd) =
    .ok ((m.selectTriedCollision_ env rnd).2,
      { selected := some (m.selectTriedCollision_ env rnd).1 }) := rfl

/-- `SelectTriedCollision`, in every state that a standing run reaches: it only erases a stale
collision and returns the default or a tried entry, exactly when the drawn collision stands. -/
theorem selectTriedCollision_frame_iff (env : AddrEnv) (m m' : CAddrMan) (rnd : Nat)
    (info : CAddrInfo) (o : AddrOut) (h : Reaches env (Standing env) m)
    (hstep : m.step env (.selectTriedCollision rnd) = .ok (m', o)) (ho : o.selected = some info) :
    (OnlyErasesStale m m' ∧ DefaultOrTried m info) ↔ m.CollisionStands env rnd := by
  have hc := h.consistent
  rw [step_selectTriedCollision, Except.ok.injEq, Prod.mk.injEq] at hstep
  obtain ⟨hm', hout⟩ := hstep
  rw [← hout, some.injEq] at ho
  rw [← hm', ← ho]
  refine ⟨fun hframe => ?_, selectTriedCollision_of_stands hc⟩
  by_contra hnot
  refine selectTriedCollision_of_not_stands hc hnot ?_
  rcases hframe.1 with heq | ⟨id, -, heq⟩
  · rw [heq]
  · rw [heq]

/-- After the removal, the collision is still recorded but its slot is empty: asking for it inserts
a default entry under the identifier `-1`. -/
theorem selectTriedCollision_inserts_entry : ∃ m m' o, Reaches flatEnv Plain m ∧
    m.step flatEnv (.selectTriedCollision 0) = .ok (m', o) ∧
    m.mapInfo[(-1 : Int)]? = none ∧ m'.mapInfo[(-1 : Int)]? = some {} ∧ ¬ OnlyErasesStale m m' := by
  obtain ⟨m, hm, hnone, hsome⟩ := reaches_of_run (l := removalRun)
    (P := fun m => m.mapInfo[(-1 : Int)]? = none ∧
      (m.selectTriedCollision_ flatEnv 0).2.mapInfo[(-1 : Int)]? = some {})
    (fun _ => id) (by decide +kernel)
  refine ⟨m, _, _, hm, step_selectTriedCollision 0, hnone, hsome, ?_⟩
  rintro (heq | ⟨id, -, heq⟩)
  · simp [heq, hnone] at hsome
  · rw [heq] at hsome
    exact absurd (hnone.symm.trans hsome) (by simp)

/-- While the collision stands, asking for it changes nothing. -/
theorem selectTriedCollision_frame_collision : ∃ m m' o info,
    Reaches flatEnv (Standing flatEnv) m ∧
    m.step flatEnv (.selectTriedCollision 0) = .ok (m', o) ∧ o.selected = some info ∧
    OnlyErasesStale m m' ∧ DefaultOrTried m info := by
  obtain ⟨m, hm, hdraw, hslot⟩ := reaches_of_run (l := collisionRun)
    (P := fun m => m.m_tried_collisions.toList[0 % m.m_tried_collisions.size]? = some 1 ∧
      (m.mapInfo[(1 : Int)]?.map fun info => m.vvTried (m.triedSlot flatEnv info.toCService)) =
        some 0)
    (fun _ => mem_append_left _) (by decide +kernel)
  refine ⟨m, _, _, _, hm.of_plain, step_selectTriedCollision 0, rfl,
    (selectTriedCollision_frame_iff flatEnv m _ 0 _ _ hm.of_plain (step_selectTriedCollision 0)
      rfl).mpr ?_⟩
  intro id_new hid_new info hid
  rw [hdraw, some.injEq] at hid_new
  subst hid_new
  rw [hid, map_some, some.injEq] at hslot
  rw [hslot]
  decide

end CAddrMan

end DefcoinCore.AddrMan
