import Xstack.Config
import Xstack.Tree.Find

/-! # The routing table

`ip_route.c`: a fixed array of routes, linked in a tree by network and in a tree by interface
address, and a free list. Operations have no result where the program would follow a null pointer.
Where the program sets `errno` and returns -1, they return `none` inside. -/

namespace Xstack.Ip.Route

open Xstack.Config Xstack.Tree.Macros

/-- `struct ip_route`. -/
structure IpRoute where
  rNetwork : InAddr
  rNetmask : InAddr
  rGw : InAddr
  rIface : InAddr
  rIfaceHandle : ℤ
  deriving DecidableEq

/-- An entry of `rib`, by its index. -/
abbrev RibIdx := Fin xstackIpRibSize

/-- `rib` and the three structures over it. -/
structure Rib where
  route : RibIdx → IpRoute
  routetree : Rb RibIdx
  sourcetree : Rb RibIdx
  freelist : List RibIdx

namespace Rib

/-- The state that `ip_route_init` leaves. -/
def init : Rib where
  route := fun _ => ⟨0, 0, 0, 0, 0⟩
  routetree := Rb.init
  sourcetree := Rb.init
  freelist := (List.finRange xstackIpRibSize).reverse

/-- More steps than a walk over the entries can take. -/
def fuel : ℕ := 2 * xstackIpRibSize + 2

/-- `route_network_cmp` with an entry. -/
def routeNetworkCmp (r : Rib) (network : InAddr) (i : RibIdx) : ℤ :=
  addrCmp network (r.route i).rNetwork

/-- `route_iface_cmp` with an entry. -/
def routeIfaceCmp (r : Rib) (iface : InAddr) (i : RibIdx) : ℤ := addrCmp iface (r.route i).rIface

/-- `RB_FIND` in the network tree. -/
def findNetwork (r : Rib) (network : InAddr) : Option (Option RibIdx) :=
  r.routetree.rbFind fuel (r.routeNetworkCmp network)

/-- `ip_route_find_by_iface`. -/
def ipRouteFindByIface (r : Rib) (addr : InAddr) : Option (Option IpRoute) := do
  let entry ← r.sourcetree.rbFind fuel (r.routeIfaceCmp addr)
  return entry.map r.route

/-- `ip_route_find_by_network`: the exact network, the first route whose masked network fits, the
network zero. -/
def ipRouteFindByNetwork (r : Rib) (addr : InAddr) : Option (Option IpRoute) := do
  match ← r.findNetwork addr with
  | some entry => return some (r.route entry)
  | none =>
    match ← r.routetree.rbForeach fuel fun i =>
        (r.route i).rNetwork == (addr &&& (r.route i).rNetmask) with
    | some entry => return some (r.route entry)
    | none => return (← r.findNetwork 0).map r.route

/-- `ip_route_tree_insert`. -/
def ipRouteTreeInsert (r : Rib) (entry : RibIdx) : Option Rib := do
  let (routetree, _) ←
    r.routetree.rbInsert fuel (r.routeNetworkCmp (r.route entry).rNetwork) entry
  let (sourcetree, _) ← r.sourcetree.rbInsert fuel (r.routeIfaceCmp (r.route entry).rIface) entry
  return { r with routetree := routetree, sourcetree := sourcetree }

/-- `ip_route_tree_remove`. -/
def ipRouteTreeRemove (r : Rib) (entry : RibIdx) : Option Rib := do
  let routetree ← r.routetree.rbRemove fuel entry
  let sourcetree ← r.sourcetree.rbRemove fuel entry
  return { r with routetree := routetree, sourcetree := sourcetree }

/-- `entry->route = *route`, and the entry goes into both trees. -/
def place (r : Rib) (entry : RibIdx) (route : IpRoute) : Option Rib :=
  { r with route := Function.update r.route entry route }.ipRouteTreeInsert entry

/-- `ip_route_add`. With an empty free list `SLIST_REMOVE_HEAD` reads through a null pointer. -/
def ipRouteAdd (r : Rib) (route : IpRoute) : Option Rib :=
  match r.freelist with
  | [] => none
  | entry :: rest => { r with freelist := rest }.place entry route

/-- `ip_route_update`, which returns 0 whenever it returns. -/
def ipRouteUpdate (r : Rib) (route : IpRoute) : Option Rib := do
  match ← r.findNetwork route.rNetwork with
  | some entry => (← r.ipRouteTreeRemove entry).place entry route
  | none => r.ipRouteAdd route

/-- `ip_route_remove`; `none` inside is -1 with `ENOENT`. The entry is cleared with its links. -/
def ipRouteRemove (r : Rib) (route : IpRoute) : Option (Option Rib) := do
  match ← r.findNetwork route.rNetwork with
  | none => return none
  | some entry =>
    let r ← r.ipRouteTreeRemove entry
    return some
      { route := Function.update r.route entry ⟨0, 0, 0, 0, 0⟩
        routetree := r.routetree.setEntry entry .zero
        sourcetree := r.sourcetree.setEntry entry .zero
        freelist := entry :: r.freelist }

end Rib

end Xstack.Ip.Route
