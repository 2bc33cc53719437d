import Mathlib.Tactic

/-!
# Network addresses

The address types of `netaddress.h` and `protocol.h`: a network address (`CNetAddr`), an address
with a port (`CService`) and an address as it is gossiped, with its services and the time it was
last seen (`CAddress`). Two addresses are equal when their network and bytes are; the scope of a
link-local address takes no part in comparisons and is left out.
-/

namespace DefcoinCore

open Std

/-- `enum Network`. -/
inductive Network where
  | unroutable
  | ipv4
  | ipv6
  | onion
  | i2p
  | cjdns
  | internal
  deriving DecidableEq

/-- The numbers of the networks are distinct. -/
theorem Network.ctorIdx_inj {a b : Network} (h : a.ctorIdx = b.ctorIdx) : a = b := by
  revert h
  cases a <;> cases b <;> decide

/-- A network address: its network and its raw bytes. -/
structure CNetAddr where
  m_net : Network := .ipv6
  m_addr : List UInt8 := List.replicate 16 0
  deriving DecidableEq

/-- `operator<` of `CNetAddr`: by network, then by the bytes. -/
instance : Ord CNetAddr :=
  ⟨compareLex (compareOn (·.m_net.ctorIdx)) (compareOn (·.m_addr))⟩

instance : TransOrd CNetAddr :=
  inferInstanceAs (TransCmp (compareLex (compareOn fun a : CNetAddr => a.m_net.ctorIdx)
    (compareOn fun a : CNetAddr => a.m_addr)))

instance : LawfulEqOrd CNetAddr where
  eq_of_compare {a b} h := by
    have hlex : (compare a.m_net.ctorIdx b.m_net.ctorIdx).then (compare a.m_addr b.m_addr) = .eq :=
      h
    rw [Ordering.then_eq_eq, Std.compare_eq_iff_eq, Std.compare_eq_iff_eq] at hlex
    obtain ⟨hnet, haddr⟩ := hlex
    cases a
    cases b
    rw [CNetAddr.mk.injEq]
    exact ⟨Network.ctorIdx_inj hnet, haddr⟩

/-- An address with a port. -/
structure CService extends CNetAddr where
  port : UInt16 := 0
  deriving DecidableEq

/-- `TIME_INIT`, the time of an address that has none. -/
def timeInit : UInt32 := 100000000

/-- An address with the time it was last seen and the services of its node. -/
structure CAddress extends CService where
  nTime : UInt32 := timeInit
  nServices : UInt64 := 0
  deriving DecidableEq

end DefcoinCore
