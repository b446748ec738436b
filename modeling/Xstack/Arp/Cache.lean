import Xstack.Config
import Xstack.Tree.Find

/-! # The ARP cache

A fixed array of slots and a red-black tree over them, as in `arp.c`. The `age` of a slot says what
it holds: `ARP_CACHE_FREE`, `ARP_CACHE_STATIC`, or the seconds since a dynamic entry was inserted.

* `scan`: the loop of `arp_cache_insert` that chooses a slot.
* `arpCacheInsert`, `arpCacheRemove`, `arpCacheUpdate`: the three operations that change the cache.
* `arpCacheGetEntry`: the search.

An operation that gives a null pointer to `RB_REMOVE`, or whose `int` arithmetic overflows, has no
result. `rbLog` is a history variable: the calls of `RB_REMOVE` and `RB_INSERT` so far, each with
the tree it was given. -/

namespace Xstack.Arp.Cache

open Xstack.Config Xstack.Tree.Macros

/-- `enum arp_cache_entry_type`. -/
inductive ArpCacheEntryType
  | free
  | static
  | dyn
  deriving DecidableEq

/-- The values of the enumeration. -/
def ArpCacheEntryType.toInt : ArpCacheEntryType → ℤ
  | .free => -2
  | .static => -1
  | .dyn => 0

def arpCacheFree : ℤ := ArpCacheEntryType.free.toInt

/-- `ARP_CACHE_AGE_MAX`. -/
def arpCacheAgeMax : ℤ := 20 * 60 * 60

/-- A slot of `arp_cache`, by its index. -/
abbrev Slot := Fin xstackArpCacheSize

/-- `struct arp_cache_entry`, without the link fields. -/
structure ArpCacheEntry where
  ipAddr : InAddr
  haddr : MacAddr
  age : ℤ

/-- A call of a tree macro on `arp_cache_head`. -/
inductive RbCall
  | remove (h : Rb Slot) (elm : Slot)
  /-- `RB_INSERT` of a slot whose address was `old` and is now `new`. -/
  | insert (h : Rb Slot) (elm : Slot) (old new : InAddr)

/-- `arp_cache` and `arp_cache_head`. -/
structure ArpCache where
  slot : Slot → ArpCacheEntry
  head : Rb Slot
  rbLog : List RbCall

namespace ArpCache

/-- Static memory at start-up. -/
def init : ArpCache := ⟨fun _ => ⟨0, fun _ => 0, 0⟩, Rb.init, []⟩

/-- More steps than a walk down a tree of slots can take. -/
def fuel : ℕ := xstackArpCacheSize + 1

/-- `arp_cache_cmp` of an entry for `ip_addr` with a slot. -/
def arpCacheCmp (c : ArpCache) (ipAddr : InAddr) (i : Slot) : ℤ :=
  addrCmp ipAddr (c.slot i).ipAddr

/-- One step of the loop of `arp_cache_insert`: `it` as a candidate after `entry`. -/
def better (c : ArpCache) (entry : Option Slot) (it : Slot) : Option Slot :=
  if (c.slot it).age = arpCacheFree then some it
  else
    match entry with
    | some e => if (c.slot e).age > (c.slot it).age then some it else some e
    | none => if (c.slot it).age ≥ 0 then some it else none

/-- The loop of `arp_cache_insert` over the slots that are left; it stops at the address itself. -/
def scan (c : ArpCache) (ipAddr : InAddr) : List Slot → Option Slot → Option Slot
  | [], entry => entry
  | it :: rest, entry =>
    if (c.slot it).ipAddr = ipAddr then some it else scan c ipAddr rest (c.better entry it)

/-- `RB_REMOVE` on the tree of the cache. -/
def remove (c : ArpCache) (elm : Slot) : Option ArpCache := do
  let head ← c.head.rbRemove fuel elm
  return { c with head := head, rbLog := c.rbLog ++ [.remove c.head elm] }

/-- `if (entry->age >= 0) RB_REMOVE(..., entry)`. -/
def removeDyn (c : ArpCache) (entry : Slot) : Option ArpCache :=
  if (c.slot entry).age ≥ 0 then c.remove entry else some c

/-- The assignments to the chosen slot in `arp_cache_insert`. -/
def fill (c : ArpCache) (elm : Slot) (ipAddr : InAddr) (haddr : MacAddr)
    (type : ArpCacheEntryType) : ArpCache :=
  { c with slot := Function.update c.slot elm ⟨ipAddr, haddr, type.toInt⟩ }

/-- The end of `arp_cache_insert`: the slot is filled and given to `RB_INSERT`. -/
def place (c : ArpCache) (elm : Slot) (ipAddr : InAddr) (haddr : MacAddr)
    (type : ArpCacheEntryType) : Option ArpCache := do
  let call := RbCall.insert c.head elm (c.slot elm).ipAddr ipAddr
  let c := c.fill elm ipAddr haddr type
  let (head, _) ← c.head.rbInsert fuel (c.arpCacheCmp ipAddr) elm
  return { c with head := head, rbLog := c.rbLog ++ [call] }

/-- `arp_cache_insert`: the return value and the new cache. -/
def arpCacheInsert (c : ArpCache) (ipAddr : InAddr) (haddr : MacAddr)
    (type : ArpCacheEntryType) : Option (ℤ × ArpCache) :=
  if ipAddr = 0 then some (0, c)
  else
    match c.scan ipAddr (List.finRange xstackArpCacheSize) none with
    | none => some (-1, c)
    | some entry => do
      let c ← c.removeDyn entry
      let c ← c.place entry ipAddr haddr type
      return (0, c)

/-- `arp_cache_get_entry`. -/
def arpCacheGetEntry (c : ArpCache) (ipAddr : InAddr) : Option (Option Slot) :=
  c.head.rbFind fuel (c.arpCacheCmp ipAddr)

/-- `arp_cache_remove`. -/
def arpCacheRemove (c : ArpCache) (ipAddr : InAddr) : Option ArpCache := do
  let entry ← c.arpCacheGetEntry ipAddr
  let entry ← entry
  let c ← c.remove entry
  return { c with
    slot := Function.update c.slot entry { c.slot entry with age := arpCacheFree } }

/-- The body of the loop of `arp_cache_update`. -/
def ageSlot (deltaTime : ℤ) (e : ArpCacheEntry) : ArpCacheEntry :=
  if e.age > arpCacheAgeMax then { e with age := arpCacheFree }
  else if e.age ≥ 0 then { e with age := e.age + deltaTime }
  else e

/-- `arp_cache_update`. -/
def arpCacheUpdate (c : ArpCache) (deltaTime : ℤ) : Option ArpCache :=
  if ∀ i, -intMax - 1 ≤ (ageSlot deltaTime (c.slot i)).age ∧
      (ageSlot deltaTime (c.slot i)).age ≤ intMax then
    some { c with slot := fun i => ageSlot deltaTime (c.slot i) }
  else none

end ArpCache

/-! ### Runs -/

/-- A call from outside. -/
inductive ArpOp
  | insert (ipAddr : InAddr) (haddr : MacAddr) (type : ArpCacheEntryType)
  | remove (ipAddr : InAddr)
  | update (deltaTime : ℤ)

def ArpCache.step (c : ArpCache) : ArpOp → Option ArpCache
  | .insert ipAddr haddr type => (c.arpCacheInsert ipAddr haddr type).map Prod.snd
  | .remove ipAddr => c.arpCacheRemove ipAddr
  | .update deltaTime => c.arpCacheUpdate deltaTime

/-- The cache after a sequence of calls. -/
def ArpCache.run (c : ArpCache) : List ArpOp → Option ArpCache
  | [] => some c
  | op :: ops => (c.step op).bind fun c => c.run ops

end Xstack.Arp.Cache
