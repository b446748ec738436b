import Xstack.Ip.Rib

/-! # The full routing table

`ip_route_entry_alloc` takes the first entry off the free list without a look whether there is one:
`SLIST_REMOVE_HEAD` reads the link of a null entry, before `ip_route_add` can compare it with null.

* `Partition`: an entry is linked or free. Every run whose calls are safe keeps this.
* `FailsCleanly`: what an update of a full table should do.
* `fails_cleanly_iff`: it does so iff the table is not full. -/

namespace Xstack.Ip.Full

open Xstack.Config Xstack.Ip.Route Xstack.Ip.Rib Xstack.Tree.Macros

/-- **The free list and the entries linked in the network tree are the table.** -/
structure Partition (r : Rib) : Prop where
  cover : ∀ i, r.routetree.Reach i ∨ i ∈ r.freelist
  disjoint : ∀ i, r.routetree.Reach i → i ∉ r.freelist
  nodup : r.freelist.Nodup

/-- **With an empty free list,** the update of a network that is not in the table returns -1, and changes
nothing. -/
def FailsCleanly (r : Rib) : Prop := r.freelist = [] → ∀ route : IpRoute,
  (∀ i, r.routetree.Reach i → (r.route i).rNetwork ≠ route.rNetwork) →
    call r (.update route) = some (-1, r)

variable {r : Rib} {live : List IpRoute} {l ls : List RibIdx} {route : IpRoute}

theorem partition_of_inv (h : Inv r live l ls) : Partition r := by
  have hnodup : (l ++ r.freelist).Nodup := h.free.symm.nodup (List.nodup_finRange _)
  have hreach := h.net.valid.reach
  refine ⟨fun i => ?_, fun i hi hfree => ?_, hnodup.of_append_right⟩
  · have hmem : i ∈ l ++ r.freelist := h.free.mem_iff.mpr (List.mem_finRange i)
    rw [hreach]
    exact List.mem_append.mp hmem
  · exact List.disjoint_of_nodup_append hnodup ((hreach i).mp hi) hfree

/-- The free list has what the live routes leave. -/
theorem length_freelist (h : Inv r live l ls) :
    live.length + r.freelist.length = xstackIpRibSize := by
  have hlen := h.free.length_eq
  have hlive := h.routes.length_eq
  rw [List.length_append, List.length_finRange] at hlen
  rw [List.length_map] at hlive
  omega

/-- The update of a new network reads through a null pointer. -/
theorem update_full (h : Inv r live l ls) (hhalf : Half (live.map IpRoute.rNetwork))
    (hfull : r.freelist = []) (hnew : ¬ Live live route.rNetwork) : call r (.update route) = none := by
  have hfind := h.findNetwork_absent hhalf hnew
  have hadd : r.ipRouteAdd route = none := by
    unfold Rib.ipRouteAdd
    rw [hfull]
  have hupdate : r.ipRouteUpdate route = none := by
    unfold Rib.ipRouteUpdate
    rw [hfind]
    exact hadd
  show (r.ipRouteUpdate route).map _ = none
  rw [hupdate]
  rfl

/-- There are more networks than entries. -/
theorem exists_new (hlive : live.length = xstackIpRibSize) : ∃ n : InAddr, ¬ Live live n := by
  have hcard : (live.map IpRoute.rNetwork).toFinset.card < ({0, 1, 2, 3, 4, 5} : Finset InAddr).card := by
    have hle := List.toFinset_card_le (live.map IpRoute.rNetwork)
    rw [List.length_map, hlive] at hle
    exact hle.trans_lt (by decide)
  obtain ⟨n, -, hn⟩ := Finset.exists_mem_notMem_of_card_lt_card hcard
  refine ⟨n, ?_⟩
  rintro ⟨x, hx, rfl⟩
  exact hn (List.mem_toFinset.mpr (List.mem_map_of_mem hx))

/-- A table fails cleanly iff it never has to. -/
theorem failsCleanly_of_inv (h : Inv r live l ls) (hhalf : Half (live.map IpRoute.rNetwork)) :
    FailsCleanly r ↔ live.length < xstackIpRibSize := by
  have hlen := length_freelist h
  constructor
  · intro hclean
    by_contra hfull
    have hnil : r.freelist = [] := List.eq_nil_of_length_eq_zero (by omega)
    obtain ⟨n, hn⟩ := exists_new (show live.length = xstackIpRibSize by omega)
    have habsent : ∀ i, r.routetree.Reach i → (r.route i).rNetwork ≠ n := fun i hi heq =>
      hn ((h.live_iff n).mpr ⟨i, (h.net.valid.reach i).mp hi, heq⟩)
    have hcall := hclean hnil (network n 0) habsent
    rw [update_full h hhalf hnil hn] at hcall
    cases hcall
  · intro hlt hnil
    rw [hnil, List.length_nil] at hlen
    omega

/-- **In every run whose calls are safe** the table is partitioned, and an update that finds it full fails
cleanly iff the table is not full. -/
theorem fails_cleanly_iff (ops : List Op) (h : Meets Safe Rib.init [] ops) :
    ∃ r, run Rib.init ops = some r ∧ Partition r ∧
      (FailsCleanly r ↔ (liveAfter ops).length < xstackIpRibSize) := by
  obtain ⟨r, l, ls, hrun, hI, hhalf⟩ := run_inv ops inv_init ⟨0, by simp⟩ h
  exact ⟨r, hrun, partition_of_inv hI, failsCleanly_of_inv hI hhalf⟩

theorem fails_cleanly_two : ∃ r,
    run Rib.init [.update (network 10 1), .update (network 20 2), .remove (network 10 1)] = some r ∧
      Partition r ∧ FailsCleanly r := by
  obtain ⟨r, hrun, hpart, hclean⟩ := fails_cleanly_iff _ meets_two
  exact ⟨r, hrun, hpart, hclean.mpr (by decide)⟩

/-- Five networks fill the table, and the update with a sixth one does not return. -/
theorem sixth_network_lost : ∃ r, run Rib.init [.update (network 1 1), .update (network 2 2),
      .update (network 3 3), .update (network 4 4), .update (network 5 5)] = some r ∧
    r.freelist = [] ∧ call r (.update (network 6 6)) = none ∧ ¬ FailsCleanly r := by
  have hrun : (run Rib.init [.update (network 1 1), .update (network 2 2), .update (network 3 3),
      .update (network 4 4), .update (network 5 5)]).map (fun r => (r.freelist,
        (call r (.update (network 6 6))).isNone, decide (∀ i, (r.route i).rNetwork ≠ 6))) =
      some ([], true, true) := by decide +kernel
  obtain ⟨r, hr, hres⟩ := Option.map_eq_some_iff.mp hrun
  simp only [Prod.mk.injEq, decide_eq_true_eq, Option.isNone_iff_eq_none] at hres
  obtain ⟨hfree, hcall, hnew⟩ := hres
  refine ⟨r, hr, hfree, hcall, fun hclean => ?_⟩
  have hfails := hclean hfree (network 6 6) fun i _ => hnew i
  rw [hcall] at hfails
  cases hfails

end Xstack.Ip.Full
