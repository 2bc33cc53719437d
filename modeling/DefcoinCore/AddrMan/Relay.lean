import DefcoinCore.AddrMan.Runs

/-!
# Relayed addresses

`CConnman::AddNewAddresses` of `net.cpp`, which takes the addresses that a peer relays. On the main
network each address on a preferred port replaces an entry with the same IP and another port, tried
or not, so a peer that relays the other preferred port of a tried entry removes that entry
(`addNewAddresses_evicts`); `addNewAddresses_keepsTried_iff` says that nothing else does. The
address that replaces it may find its slot of the new table occupied, and then the IP is lost
(`addReplacingSameIP_keepsIP_iff`).
-/

namespace DefcoinCore.AddrMan

open DefcoinCore List

/-- `GetDefaultPort` of the main network. -/
def defaultPort : UInt16 := 1337

/-- `DEFCOIN_ALT_PORT`. -/
def defcoinAltPort : UInt16 := 10332

/-- `IsDefcoinPreferredPort` on the main network. -/
def isDefcoinPreferredPort (port : UInt16) : Bool := port = defaultPort || port = defcoinAltPort

namespace CAddrMan

variable {env : AddrEnv} {m : CAddrMan}

/-- `AddNewAddresses`; the clock and the random draw for an address may depend on its position. -/
def addNewAddresses (env : AddrEnv) (m : CAddrMan) (isDefcoinMainnet : Bool) (vAddr : List CAddress)
    (addrFrom : CAddress) (nTimePenalty : Int) (now : Nat → Int) (rnd : Nat → Nat) :
    Except Fault (Bool × CAddrMan) :=
  if isDefcoinMainnet then
    vAddr.zipIdx.foldlM (fun r (addr, i) =>
      if isDefcoinPreferredPort addr.port then do
        let (added, m) ←
          r.2.addReplacingSameIP env addr addrFrom.toCNetAddr nTimePenalty (now i) (rnd i)
        pure (r.1 || added, m)
      else pure r) (false, m)
  else
    m.addAll env vAddr addrFrom.toCNetAddr nTimePenalty (now 0) rnd

/-- `AddNewAddresses` on the main network: the tried table loses the entries that an address on a
preferred port replaces. -/
theorem addNewAddresses_spec (hc : m.Consistent env) (vAddr : List CAddress) (addrFrom : CAddress)
    (nTimePenalty : Int) (now : Nat → Int) (rnd : Nat → Nat) :
    Returns (m.addNewAddresses env true vAddr addrFrom nTimePenalty now rnd) fun r =>
      r.2.Consistent env ∧ ∀ id t, r.2.tried? id = some t ↔ m.tried? id = some t ∧
        ∀ addr ∈ vAddr, isDefcoinPreferredPort addr.port → ¬ Replaces addr.toCService t.1 := by
  refine (Ensures.foldlM (P := fun (done : List (CAddress × Nat)) (r : Bool × CAddrMan) =>
      r.2.Consistent env ∧ ∀ id t, r.2.tried? id = some t ↔ m.tried? id = some t ∧
        ∀ a ∈ done, isDefcoinPreferredPort a.1.port → ¬ Replaces a.1.toCService t.1)
    (b := (false, m)) vAddr.zipIdx ?_ ⟨hc, by simp⟩).imp ?_
  · rintro done r ⟨addr, i⟩ - ⟨hcr, htried⟩
    refine .ite (fun hport => ?_) fun hport => ⟨hcr, fun id t => ?_⟩
    · refine (addReplacingSameIP_spec hcr addr _ nTimePenalty (now i) (rnd i)).bind ?_
      rintro r' ⟨hc', htried'⟩
      refine ⟨hc', fun id t => ?_⟩
      rw [htried', htried, forall_mem_append, forall_mem_singleton, and_assoc]
      simp only [hport, true_imp_iff]
    · rw [htried, forall_mem_append, forall_mem_singleton]
      simp only [hport, Bool.false_eq_true, false_imp_iff, and_true]
  · refine fun r ⟨hcr, htried⟩ => ⟨hcr, fun id t => ?_⟩
    have hmap := forall_mem_map (f := Prod.fst) (l := vAddr.zipIdx)
      (P := fun addr => isDefcoinPreferredPort addr.port → ¬ Replaces addr.toCService t.1)
    rw [zipIdx_map_fst] at hmap
    rw [htried, hmap]

/-- On the main network every tried entry on a preferred port stays tried, with its service and its
statistics, exactly when no address on a preferred port has the IP of such an entry and another
port. -/
theorem addNewAddresses_keepsTried_iff (env : AddrEnv) (m : CAddrMan) (hc : m.Consistent env)
    (vAddr : List CAddress) (addrFrom : CAddress) (nTimePenalty : Int) (now : Nat → Int)
    (rnd : Nat → Nat) :
    ∃ added m', m.addNewAddresses env true vAddr addrFrom nTimePenalty now rnd = .ok (added, m') ∧
      m'.Consistent env ∧
      ((∀ id t, m.tried? id = some t → isDefcoinPreferredPort t.1.port → m'.tried? id = some t) ↔
        ∀ addr ∈ vAddr, isDefcoinPreferredPort addr.port → ∀ id t, m.tried? id = some t →
          isDefcoinPreferredPort t.1.port → t.1.toCNetAddr = addr.toCNetAddr →
            t.1.port = addr.port) := by
  obtain ⟨⟨added, m'⟩, hok, hc', htried⟩ :=
    (addNewAddresses_spec hc vAddr addrFrom nTimePenalty now rnd).exists_ok
  refine ⟨added, m', hok, hc', fun h addr haddr hport id t ht hpref hip => ?_, ?_⟩
  · by_contra hne
    exact ((htried id t).mp (h id t ht hpref)).2 addr haddr hport ⟨hip, hne⟩
  · intro h id t ht hpref
    refine (htried id t).mpr ⟨ht, fun addr haddr hport hrep => hrep.2 ?_⟩
    exact h addr haddr hport id t ht hpref hrep.1

/-- A run with one host, to which a connection was made. -/
def triedRun : List AddrOp := removalRun.take 2

/-- A peer relays the IP of a tried entry with the other preferred port: the entry is gone. -/
theorem addNewAddresses_evicts : ∃ m added m', Reaches flatEnv Plain m ∧
    m.addNewAddresses flatEnv true [host 1 10332] (host 2 1337) 0 (fun _ => 100000001)
      (fun _ => 0) = .ok (added, m') ∧
    m.tried? 0 = some ((host 1 1337).toCService, 100000001, 0) ∧
    isDefcoinPreferredPort (host 1 1337).port ∧ m'.tried? 0 = none := by
  obtain ⟨m, hm, hcall⟩ := reaches_of_run (l := triedRun) (P := fun m =>
      Returns (m.addNewAddresses flatEnv true [host 1 10332] (host 2 1337) 0 (fun _ => 100000001)
        (fun _ => 0)) fun r => m.tried? 0 = some ((host 1 1337).toCService, 100000001, 0) ∧
          r.2.tried? 0 = none)
    (fun _ => mem_of_mem_take) (by decide +kernel)
  obtain ⟨⟨added, m'⟩, hok, hbefore, hafter⟩ := hcall.exists_ok
  exact ⟨m, added, m', hm, hok, hbefore, by decide, hafter⟩

/-- An address on another port leaves the entry alone. -/
theorem addNewAddresses_keepsTried_otherPort : ∃ m added m', Reaches flatEnv Plain m ∧
    m.addNewAddresses flatEnv true [host 1 1338] (host 2 1337) 0 (fun _ => 100000001) (fun _ => 0) =
      .ok (added, m') ∧ m'.tried? 0 = some ((host 1 1337).toCService, 100000001, 0) := by
  obtain ⟨m, hm, htried⟩ := reaches_of_run (l := triedRun)
    (P := fun m => m.tried? 0 = some ((host 1 1337).toCService, 100000001, 0))
    (fun _ => mem_of_mem_take) (by decide +kernel)
  obtain ⟨added, m', hok, -, hiff⟩ := addNewAddresses_keepsTried_iff flatEnv m
    hm.of_plain.consistent [host 1 1338] (host 2 1337) 0 (fun _ => 100000001) (fun _ => 0)
  refine ⟨m, added, m', hm, hok, hiff.mpr ?_ 0 _ htried (by decide)⟩
  intro addr haddr hport
  rw [mem_singleton.mp haddr] at hport
  exact absurd hport (by decide)

/-! ## The IP of a replaced entry -/

/-- Once an entry is removed, the slots that other entries occupied are occupied. -/
theorem Removed.occupied_iff {m' : CAddrMan} {id : Int} (h : Removed m m' id)
    (hc : m.Consistent env) (hc' : m'.Consistent env) (slot : NewSlot) (now : Int) :
    m'.occupied slot now ↔ m.vvNew slot ≠ id ∧ m.occupied slot now := by
  unfold occupied
  rcases h.vvNew slot with heq | ⟨hold, hnew⟩
  · rw [heq]
    by_cases hk : m.vvNew slot = id
    · simp [hk, h.gone]
    · have hdata := congrArg (Option.any fun i => !i.isTerrible now && i.nRefCount ≤ 1)
        (h.data _ hk)
      rw [Option.any_map, Option.any_map] at hdata
      rw [and_iff_right hk]
      exact Bool.eq_iff_iff.mp hdata
  · rcases hold with hold | hold <;> rcases hnew with hnew | hnew <;>
      simp [hold, hnew, h.gone, hc.tabled.noEmpty, hc'.tabled.noEmpty]

/-- `AddReplacingSameIP` keeps a known IP, with the port of the address when it returns true,
exactly when an entry with another port leaves the slot of the address to it: the slot is not
occupied, or only by that entry. -/
theorem addReplacingSameIP_keepsIP_iff (env : AddrEnv) (m : CAddrMan) (hc : m.Consistent env)
    (addr : CAddress) (hroutable : env.isRoutable addr.toCNetAddr) (source : CNetAddr)
    (nTimePenalty now : Int) (rnd : Nat) :
    ∃ added m', m.addReplacingSameIP env addr source nTimePenalty now rnd = .ok (added, m') ∧
      ((m.known addr.toCNetAddr ≠ none → m'.known addr.toCNetAddr ≠ none ∧
          (added → m'.known addr.toCNetAddr = some addr.toCService)) ↔
        ∀ id info, m.find addr.toCNetAddr = some (id, info) → info.port ≠ addr.port →
          m.vvNew (m.newSlot env addr.toCService source) ≠ id →
            m.occupied (m.newSlot env addr.toCService source) now = false) := by
  by_cases hother : ∃ id info, m.find addr.toCNetAddr = some (id, info) ∧ info.port ≠ addr.port
  · obtain ⟨id, info, hfind, hport⟩ := hother
    obtain ⟨hid, hip⟩ := (find_eq_some_iff hc.indexed _).mp hfind
    have hcall : Returns (m.addReplacingSameIP env addr source nTimePenalty now rnd) fun r =>
        r.2.known addr.toCNetAddr = if m.vvNew (m.newSlot env addr.toCService source) ≠ id ∧
          m.occupied (m.newSlot env addr.toCService source) now then none
        else some addr.toCService := by
      rw [addReplacingSameIP, removeOtherPort, hfind]
      simp only [if_pos hport, bind_assoc, pure_bind]
      refine (remove_spec hc hid).bind ?_
      rintro ⟨b, m1⟩ ⟨-, hc1, hremoved⟩
      refine (add_spec hc1 addr source nTimePenalty now rnd).imp fun r h => ?_
      have hgone := known_of_gone hc.indexed hid hc1.indexed hremoved.gone hremoved.data
      have hkey : m1.nKey = m.nKey := congrArg (·.1) hremoved.fixed
      have hasmap : m1.m_asmap = m.m_asmap := congrArg (·.2.2.1) hremoved.fixed
      have hslot : m1.newSlot env addr.toCService source = m.newSlot env addr.toCService
          source := by
        rw [newSlot, newSlot, newSlotIn_congr hkey, hkey, hasmap]
      rw [(h.2 hroutable).2, ← hip, hgone, Option.none_or, hslot]
      simp only [hremoved.occupied_iff hc hc1]
    obtain ⟨⟨added, m'⟩, hok, hknown⟩ := hcall.exists_ok
    have hbefore : m.known addr.toCNetAddr ≠ none := by
      rw [known, hfind]
      exact Option.some_ne_none _
    refine ⟨added, m', hok, fun h id' info' hfind' _ hne => ?_, fun h _ => ?_⟩
    · cases hfind.symm.trans hfind'
      by_contra hocc
      refine (h hbefore).1 (hknown.trans (if_pos ⟨hne, Bool.eq_true_of_not_eq_false hocc⟩))
    · rw [if_neg fun hocc => by cases (h id info hfind hport hocc.1).symm.trans hocc.2] at hknown
      exact ⟨hknown ▸ Option.some_ne_none _, fun _ => hknown⟩
  · have hsame : m.removeOtherPort env addr = .ok m := by
      unfold removeOtherPort
      rcases hfind : m.find addr.toCNetAddr with _ | ⟨id, info⟩
      · rfl
      · exact if_neg fun hport => hother ⟨id, info, hfind, hport⟩
    obtain ⟨⟨added, m'⟩, hok, h⟩ := (add_spec hc addr source nTimePenalty now rnd).exists_ok
    obtain ⟨hadded, hknown⟩ := h.2 hroutable
    rw [addReplacingSameIP, hsame]
    refine ⟨added, m', hok, fun _ id info hfind hport => (hother ⟨id, info, hfind, hport⟩).elim,
      fun _ hbefore => ?_⟩
    obtain ⟨service, hservice⟩ := Option.ne_none_iff_exists'.mp hbefore
    rw [hservice] at hadded hknown
    exact ⟨by simp [hknown], fun h => by cases hadded.symm.trans h⟩

/-- The other host of the collision keeps its slot, so the first host is gone with its old port and
the call still returns true. -/
theorem addReplacingSameIP_loses : ∃ m m', Reaches flatEnv Plain m ∧
    m.addReplacingSameIP flatEnv (host 1 1338) {} 0 100000001 0 = .ok (true, m') ∧
    m.known (host 1 1338).toCNetAddr = some (host 1 1337).toCService ∧
    m'.known (host 1 1338).toCNetAddr = none := by
  obtain ⟨m, hm, hcall⟩ := reaches_of_run (l := collisionRun) (P := fun m =>
      Returns (m.addReplacingSameIP flatEnv (host 1 1338) {} 0 100000001 0) fun r => r.1 ∧
        m.known (host 1 1338).toCNetAddr = some (host 1 1337).toCService ∧
        r.2.known (host 1 1338).toCNetAddr = none)
    (fun _ => mem_append_left _) (by decide +kernel)
  obtain ⟨⟨_, m'⟩, hok, rfl, hbefore, hafter⟩ := hcall.exists_ok
  exact ⟨m, m', hm, hok, hbefore, hafter⟩

/-- Without the other host its IP is kept. -/
theorem addReplacingSameIP_keepsIP_alone : ∃ m added m', Reaches flatEnv Plain m ∧
    m.addReplacingSameIP flatEnv (host 1 1338) {} 0 100000001 0 = .ok (added, m') ∧
    m'.known (host 1 1338).toCNetAddr ≠ none := by
  obtain ⟨m, hm, hknown, hfree⟩ := reaches_of_run (l := triedRun)
    (P := fun m => m.known (host 1 1338).toCNetAddr ≠ none ∧
      m.occupied (m.newSlot flatEnv (host 1 1338).toCService {}) 100000001 = false)
    (fun _ => mem_of_mem_take) (by decide +kernel)
  obtain ⟨added, m', hok, hiff⟩ := addReplacingSameIP_keepsIP_iff flatEnv m hm.of_plain.consistent
    (host 1 1338) rfl {} 0 100000001 0
  exact ⟨m, added, m', hm, hok, (hiff.mpr (fun _ _ _ _ _ => hfree) hknown).1⟩

end CAddrMan

end DefcoinCore.AddrMan
