import Xstack.Ip.Route
import Xstack.Tree.Map

/-! # The routing table as a map

Runs of `ip_route_update` and `ip_route_remove`, next to the list of live routes that a map keyed by
network would have (`after`).

* `compares_half`: the comparison subtracts 32-bit words, which is an order on every range of 2^31
  addresses, and on no larger set.
* `Inv`: the network tree holds the live routes, and the rest is on the free list. Nothing is said
  about the interface tree but that its links are those of a tree with some of the entries.
* `step_inv`: a call keeps this, if the live networks stay in a range and the entry it takes off the
  interface tree is linked there.
* `table_is_map`: whole runs. -/

namespace Xstack.Ip.Rib

open Xstack.Config Xstack.Ip.Route Xstack.Tree.Macros Xstack.Tree.Find Xstack.Tree.Map

/-! ### Runs -/

/-- Calls on the routing table. -/
inductive Op
  | update (route : IpRoute)
  | remove (route : IpRoute)

def Op.route : Op → IpRoute
  | .update route => route
  | .remove route => route

/-- The result of a call and the table after it; no result where the call does not return. -/
def call (r : Rib) : Op → Option (ℤ × Rib)
  | .update route => (r.ipRouteUpdate route).map fun r => (0, r)
  | .remove route => (r.ipRouteRemove route).map fun
    | some r => (0, r)
    | none => (-1, r)

def run (r : Rib) : List Op → Option Rib
  | [] => some r
  | op :: ops => (call r op).bind fun x => run x.2 ops

/-- The live routes without that of network `n`. -/
def without (n : InAddr) (live : List IpRoute) : List IpRoute :=
  live.filter fun x => x.rNetwork ≠ n

/-- The live routes after a call. -/
def after (live : List IpRoute) : Op → List IpRoute
  | .update route => route :: without route.rNetwork live
  | .remove route => without route.rNetwork live

/-- The live routes after a run. -/
def liveAfter (ops : List Op) : List IpRoute := ops.foldl after []

/-- Network `n` is live. -/
def Live (live : List IpRoute) (n : InAddr) : Prop := ∃ x ∈ live, x.rNetwork = n

/-- Every call of a run meets a condition on the table and the live routes before it. -/
def Meets (ok : Rib → List IpRoute → Op → Prop) (r : Rib) (live : List IpRoute) : List Op → Prop
  | [] => True
  | op :: ops => ok r live op ∧ ∀ x, call r op = some x → Meets ok x.2 (after live op) ops

/-! ### The property -/

/-- **The table is the map with the live routes.** -/
structure IsMap (r : Rib) (live : List IpRoute) : Prop where
  /-- There is one entry for each live network. -/
  entries : ∃ l : List RibIdx, l.Nodup ∧ (∀ i, r.routetree.Reach i ↔ i ∈ l) ∧
    (l.map r.route).Perm live
  find : ∀ x ∈ live, r.ipRouteFindByNetwork x.rNetwork = some (some x)

/-- **The call returns what it should:** 0, or -1 from the removal of a network that is not live. -/
def Returns (r : Rib) (live : List IpRoute) (op : Op) : Prop :=
  ∃ r', match op with
    | .update _ => call r op = some (0, r')
    | .remove route => (Live live route.rNetwork → call r op = some (0, r')) ∧
      (¬ Live live route.rNetwork → call r op = some (-1, r))

/-! ### The condition -/

/-- The addresses from `base` on, half the circle. -/
def halfFrom (base : InAddr) : Set InAddr := { n | (n - base).toNat < 2 ^ 31 }

instance (base : InAddr) : DecidablePred (· ∈ halfFrom base) := fun n =>
  inferInstanceAs (Decidable ((n - base).toNat < 2 ^ 31))

/-- The addresses are in a range of 2^31. -/
def Half (ns : List InAddr) : Prop := ∃ base, ∀ n ∈ ns, n ∈ halfFrom base

/-- **The condition on a call:** the live networks stay in a range of 2^31 addresses, and if the call
takes an entry off the trees, the entry is linked in the interface tree too. The live routes fit in the
table. -/
structure Safe (r : Rib) (live : List IpRoute) (op : Op) : Prop where
  size : (after live op).length ≤ xstackIpRibSize
  half : Half ((after live op).map IpRoute.rNetwork)
  linked : ∀ entry, r.findNetwork op.route.rNetwork = some (some entry) →
    r.sourcetree.Reach entry

/-! ### Differences of addresses -/

theorem addrCmp_of_half {base a b : InAddr} (ha : a ∈ halfFrom base) (hb : b ∈ halfFrom base) :
    addrCmp a b = (a - base).toNat - (b - base).toNat := by
  have ha : (a - base).toNat < 2 ^ 31 := ha
  have hb : (b - base).toNat < 2 ^ 31 := hb
  have h1 := a.toNat_lt
  have h2 := b.toNat_lt
  have h3 := base.toNat_lt
  unfold addrCmp
  rw [BitVec.toInt_eq_toNat_cond]
  simp only [UInt32.toNat_toBitVec, UInt32.toNat_sub] at *
  split_ifs <;> omega

/-- **In a range of 2^31 addresses the difference is the order.** -/
theorem compares_half (base : InAddr) : Compares addrCmp (halfFrom base) where
  eq_zero a _ b _ := addrCmp_eq_zero
  swap a ha b hb := by
    rw [addrCmp_of_half ha hb, addrCmp_of_half hb ha]
    omega
  trans a ha b hb c hc := by
    rw [addrCmp_of_half ha hb, addrCmp_of_half hb hc, addrCmp_of_half ha hc]
    omega

theorem addrCmp_eq_zero' (a b : InAddr) : addrCmp a b = 0 ↔ b = a := addrCmp_eq_zero.trans eq_comm

/-! ### The invariant -/

/-- The entries `l` are in the network tree, with the live routes, and some of them, `ls`, in the
interface tree. -/
structure Inv (r : Rib) (live : List IpRoute) (l ls : List RibIdx) : Prop where
  net : Holds addrCmp Set.univ (fun i => (r.route i).rNetwork) r.routetree l
  src : Valid r.sourcetree ls
  sub : ∀ i ∈ ls, i ∈ l
  routes : (l.map r.route).Perm live
  free : (l ++ r.freelist).Perm (List.finRange xstackIpRibSize)

variable {r r' : Rib} {live : List IpRoute} {l ls : List RibIdx} {n : InAddr} {e : RibIdx}
  {x route : IpRoute}

theorem inv_init : Inv Rib.init [] [] [] where
  net := holds_init
  src := valid_init
  sub := by simp
  routes := .nil
  free := List.reverse_perm _

theorem half_of_all {ns : List InAddr} (base : InAddr)
    (h : (ns.all fun n => decide (n ∈ halfFrom base)) = true) : Half ns :=
  ⟨base, fun n hn => of_decide_eq_true (List.all_eq_true.mp h n hn)⟩

theorem mem_without {n : InAddr} : x ∈ without n live ↔ x ∈ live ∧ x.rNetwork ≠ n := by
  simp [without]

theorem Inv.length_le (h : Inv r live l ls) : l.length ≤ xstackIpRibSize := by
  have := h.free.length_eq
  rw [List.length_append, List.length_finRange] at this
  omega

theorem Inv.length_lt_fuel (h : Inv r live l ls) : l.length < Rib.fuel := by
  have := h.length_le
  have : Rib.fuel = 12 := rfl
  have : xstackIpRibSize = 5 := rfl
  omega

theorem Inv.src_length (h : Inv r live l ls) : ls.length ≤ l.length :=
  (h.src.nodup.subperm h.sub).length_le

/-- The networks of the entries are those of the live routes. -/
theorem Inv.live_iff (h : Inv r live l ls) (n : InAddr) :
    Live live n ↔ ∃ i ∈ l, (r.route i).rNetwork = n := by
  constructor
  · rintro ⟨x, hx, hn⟩
    obtain ⟨i, hi, rfl⟩ := List.mem_map.mp (h.routes.mem_iff.mpr hx)
    exact ⟨i, hi, hn⟩
  · rintro ⟨i, hi, hn⟩
    exact ⟨r.route i, h.routes.mem_iff.mp (List.mem_map_of_mem hi), hn⟩

theorem Inv.holds (h : Inv r live l ls) {base : InAddr}
    (hb : ∀ n ∈ live.map IpRoute.rNetwork, n ∈ halfFrom base) :
    Holds addrCmp (halfFrom base) (fun i => (r.route i).rNetwork) r.routetree l := by
  refine h.net.rebase fun i hi => hb _ (List.mem_map_of_mem ?_)
  exact h.routes.mem_iff.mp (List.mem_map_of_mem hi)

/-- **`RB_FIND` in the network tree.** -/
theorem Inv.findNetwork (h : Inv r live l ls) (hhalf : Half (live.map IpRoute.rNetwork))
    (n : InAddr) : ∃ o, r.findNetwork n = some o ∧
      ∀ i, o = some i ↔ i ∈ l ∧ (r.route i).rNetwork = n := by
  obtain ⟨base, hb⟩ := hhalf
  exact (h.holds hb).find_key (compares_half base) h.length_lt_fuel (addrCmp_eq_zero' n)

/-- A network that is not live is not found. -/
theorem Inv.findNetwork_absent (h : Inv r live l ls) (hhalf : Half (live.map IpRoute.rNetwork))
    (hn : ¬ Live live n) : r.findNetwork n = some none := by
  obtain ⟨o, hfind, ho⟩ := h.findNetwork hhalf n
  have hnone : o = none := by
    by_contra hne
    obtain ⟨i, hi⟩ := Option.ne_none_iff_exists'.mp hne
    obtain ⟨hi, hnet⟩ := (ho i).mp hi
    exact hn ((h.live_iff _).mpr ⟨i, hi, hnet⟩)
  rw [hfind, hnone]

/-- The network of an entry is only its own. -/
theorem Inv.network_inj (h : Inv r live l ls) (hhalf : Half (live.map IpRoute.rNetwork)) {i j : RibIdx}
    (hi : i ∈ l) (hj : j ∈ l) (hij : (r.route i).rNetwork = (r.route j).rNetwork) : i = j := by
  obtain ⟨base, hb⟩ := hhalf
  exact (h.holds hb).inj (compares_half base) hi hj hij

/-- The routes of the other entries are the other live routes. -/
theorem Inv.routes_erase (h : Inv r live l ls) (hhalf : Half (live.map IpRoute.rNetwork))
    (he : e ∈ l) :
    ((l.erase e).map r.route).Perm (without (r.route e).rNetwork live) := by
  have hnodup := h.net.valid.nodup
  have hperm : (r.route e :: (l.erase e).map r.route).Perm live :=
    ((List.perm_cons_erase he).map r.route).symm.trans h.routes
  have hother : ∀ x ∈ (l.erase e).map r.route, x.rNetwork ≠ (r.route e).rNetwork := by
    intro x hx heq
    obtain ⟨i, hi, rfl⟩ := List.mem_map.mp hx
    obtain ⟨hne, hi⟩ := (List.Nodup.mem_erase_iff hnodup).mp hi
    exact hne (h.network_inj hhalf hi he heq)
  have hfilter := hperm.filter fun x => decide (x.rNetwork ≠ (r.route e).rNetwork)
  rw [List.filter_cons_of_neg (by simp), List.filter_eq_self.mpr (by simpa using hother)] at hfilter
  exact hfilter

theorem without_of_not_live (h : ¬ Live live n) : without n live = live := by
  refine List.filter_eq_self.mpr fun x hx => ?_
  simpa using fun hn => h ⟨x, hx, hn⟩

/-! ### The calls -/

/-- `ip_route_tree_remove` of an entry that is in both trees. -/
theorem Inv.treeRemove (h : Inv r live l ls) (he : e ∈ l) (hes : e ∈ ls) :
    ∃ t u, r.ipRouteTreeRemove e = some { r with routetree := t, sourcetree := u } ∧
      r.sourcetree.rbRemove Rib.fuel e = some u ∧
      Holds addrCmp Set.univ (fun i => (r.route i).rNetwork) t (l.erase e) ∧
      Valid u (ls.erase e) := by
  have hfuel := h.length_lt_fuel
  have hsrc : ls.length ≤ Rib.fuel := h.src_length.trans hfuel.le
  obtain ⟨t, ht, hnet⟩ := h.net.remove hfuel.le he
  obtain ⟨u, hu, hv, -⟩ := valid_remove h.src hsrc hes
  refine ⟨t, u, ?_, hu, hnet, hv⟩
  unfold Rib.ipRouteTreeRemove
  rw [ht, hu]
  rfl

/-- `ip_route_tree_insert` of an entry with a new network. -/
theorem treeInsert (hnet : Holds addrCmp Set.univ (fun i => (r.route i).rNetwork) r.routetree l)
    (hsrc : Valid r.sourcetree ls) (hl : l.length < Rib.fuel) (hls : ls.length < Rib.fuel)
    (he : e ∉ l) (hes : e ∉ ls) (hhalf : Half ((e :: l).map fun i => (r.route i).rNetwork))
    (hne : ∀ i ∈ l, (r.route i).rNetwork ≠ (r.route e).rNetwork) :
    ∃ t u y l' ls', r.ipRouteTreeInsert e = some { r with routetree := t, sourcetree := u } ∧
      r.sourcetree.rbInsert Rib.fuel (r.routeIfaceCmp (r.route e).rIface) e = some (u, y) ∧
      Holds addrCmp Set.univ (fun i => (r.route i).rNetwork) t l' ∧ l'.Perm (e :: l) ∧
      Valid u ls' ∧ ∀ i ∈ ls', i = e ∨ i ∈ ls := by
  obtain ⟨base, hb⟩ := hhalf
  have hin : ∀ i ∈ e :: l, (r.route i).rNetwork ∈ halfFrom base := fun i hi =>
    hb _ (List.mem_map_of_mem hi)
  have hh := hnet.rebase fun i hi => hin i (List.mem_cons_of_mem _ hi)
  obtain ⟨t, l', ht, hnet', hperm⟩ := hh.insert (compares_half base) hl he (hin e (by simp)) hne
  obtain ⟨u, y, hu, hcase⟩ :=
    valid_insert_any (r.routeIfaceCmp (r.route e).rIface) hsrc hls hes
  have hrun : r.ipRouteTreeInsert e = some { r with routetree := t, sourcetree := u } := by
    have ht : r.routetree.rbInsert Rib.fuel (r.routeNetworkCmp (r.route e).rNetwork) e =
        some (t, none) := ht
    unfold Rib.ipRouteTreeInsert
    rw [ht, hu]
    rfl
  have hnet' : Holds addrCmp Set.univ (fun i => (r.route i).rNetwork) t l' :=
    hnet'.rebase fun i _ => Set.mem_univ _
  rcases hcase with rfl | ⟨ls', hv, hperm'⟩
  · exact ⟨t, _, y, l', ls, hrun, hu, hnet', hperm, hsrc, fun i hi => Or.inr hi⟩
  · refine ⟨t, u, y, l', ls', hrun, hu, hnet', hperm, hv, fun i hi => ?_⟩
    exact List.mem_cons.mp (hperm'.mem_iff.mp hi)

/-! A route is stored in `e`, which is in none of the trees. -/

section

variable (he : e ∉ l)
include he

theorem update_of_mem {i : RibIdx} (hi : i ∈ l) (f : RibIdx → IpRoute) (route : IpRoute) :
    Function.update f e route i = f i := by
  rw [Function.update_of_ne]
  rintro rfl
  exact he hi

theorem map_update (f : RibIdx → IpRoute) (route : IpRoute) :
    l.map (Function.update f e route) = l.map f :=
  List.map_congr_left fun _ hi => update_of_mem he hi f route

theorem holds_update {t : Rb RibIdx} {f : RibIdx → IpRoute} (route : IpRoute)
    (hnet : Holds addrCmp Set.univ (fun i => (f i).rNetwork) t l) :
    Holds addrCmp Set.univ (fun i => (Function.update f e route i).rNetwork) t l :=
  hnet.congr fun _ hi => by rw [update_of_mem he hi]

variable (hroutes : (l.map r.route).Perm (without route.rNetwork live))
include hroutes

theorem routes_update : ((e :: l).map (Function.update r.route e route)).Perm
    (route :: without route.rNetwork live) := by
  rw [List.map_cons, Function.update_self, map_update he]
  exact hroutes.cons route

theorem half_update (hhalf : Half ((route :: without route.rNetwork live).map IpRoute.rNetwork)) :
    Half ((e :: l).map fun i => (Function.update r.route e route i).rNetwork) := by
  obtain ⟨base, hb⟩ := hhalf
  refine ⟨base, fun n hn => hb n ?_⟩
  obtain ⟨i, hi, rfl⟩ := List.mem_map.mp hn
  exact List.mem_map_of_mem ((routes_update he hroutes).mem_iff.mp (List.mem_map_of_mem hi))

theorem network_update_ne {i : RibIdx} (hi : i ∈ l) :
    (Function.update r.route e route i).rNetwork ≠ route.rNetwork := by
  rw [update_of_mem he hi]
  exact (mem_without.mp (hroutes.mem_iff.mp (List.mem_map_of_mem hi))).2

end

/-- **`place`**: the entry `e`, in none of the trees, gets a route and goes into both. -/
theorem place_spec (hnet : Holds addrCmp Set.univ (fun i => (r.route i).rNetwork) r.routetree l)
    (hsrc : Valid r.sourcetree ls) (hsub : ∀ i ∈ ls, i ∈ l) (he : e ∉ l)
    (hroutes : (l.map r.route).Perm (without route.rNetwork live))
    (hhalf : Half ((route :: without route.rNetwork live).map IpRoute.rNetwork))
    (hfree : (e :: l ++ r.freelist).Perm (List.finRange xstackIpRibSize)) :
    ∃ r' y l' ls', r.place e route = some r' ∧ r'.route = Function.update r.route e route ∧
      r.sourcetree.rbInsert Rib.fuel (fun i =>
        addrCmp route.rIface (Function.update r.route e route i).rIface) e = some (r'.sourcetree, y) ∧
      Inv r' (route :: without route.rNetwork live) l' ls' := by
  have hfuel : l.length < Rib.fuel := by
    have hlen := hfree.length_eq
    rw [List.length_append, List.length_cons, List.length_finRange] at hlen
    have hsize : xstackIpRibSize = 5 := rfl
    have hfuel : Rib.fuel = 12 := rfl
    omega
  have hls : ls.length < Rib.fuel := (hsrc.nodup.subperm hsub).length_le.trans_lt hfuel
  let r₁ : Rib := { r with route := Function.update r.route e route }
  have hself : r₁.route e = route := Function.update_self ..
  obtain ⟨t, u, y, l', ls', hrun, hu, hh, hperm, hv, hmem⟩ :=
    treeInsert (r := r₁) (holds_update he route hnet) hsrc hfuel hls he (fun h => he (hsub e h))
      (half_update he hroutes hhalf) fun i hi => by
        rw [hself]
        exact network_update_ne he hroutes hi
  have hins : r.sourcetree.rbInsert Rib.fuel (fun i =>
      addrCmp route.rIface (Function.update r.route e route i).rIface) e = some (u, y) := by
    rw [hself] at hu
    exact hu
  refine ⟨{ r₁ with routetree := t, sourcetree := u }, y, l', ls', hrun, rfl, hins, hh, hv,
    fun i hi => ?_, ?_, ?_⟩
  · refine hperm.mem_iff.mpr ?_
    rcases hmem i hi with rfl | hi
    · exact List.mem_cons_self
    · exact List.mem_cons_of_mem _ (hsub i hi)
  · exact (hperm.map r₁.route).trans (routes_update he hroutes)
  · exact (hperm.append_right _).trans hfree

section

variable (h : Inv r live l ls) (hhalf : Half (live.map IpRoute.rNetwork))
include h hhalf

/-- `ip_route_update` of a live network, whose entry is in both trees. -/
theorem update_found (he : e ∈ l) (hes : e ∈ ls) (hn : (r.route e).rNetwork = route.rNetwork)
    (hhalf' : Half ((route :: without route.rNetwork live).map IpRoute.rNetwork)) :
    ∃ r' u y l' ls', r.ipRouteUpdate route = some r' ∧
      r'.route = Function.update r.route e route ∧
      r.sourcetree.rbRemove Rib.fuel e = some u ∧
      u.rbInsert Rib.fuel (fun i =>
        addrCmp route.rIface (Function.update r.route e route i).rIface) e = some (r'.sourcetree, y) ∧
      Inv r' (route :: without route.rNetwork live) l' ls' := by
  have hnodup := h.net.valid.nodup
  obtain ⟨o, hfind, ho⟩ := h.findNetwork hhalf route.rNetwork
  obtain rfl := (ho e).mpr ⟨he, hn⟩
  obtain ⟨t, u, hrem, hu, hnet, hv⟩ := h.treeRemove he hes
  have hroutes := h.routes_erase hhalf he
  rw [hn] at hroutes
  have hsub : ∀ i ∈ ls.erase e, i ∈ l.erase e := by
    intro i hi
    obtain ⟨hne, hi⟩ := (List.Nodup.mem_erase_iff h.src.nodup).mp hi
    exact (List.Nodup.mem_erase_iff hnodup).mpr ⟨hne, h.sub i hi⟩
  have hfree : (e :: l.erase e ++ r.freelist).Perm (List.finRange xstackIpRibSize) :=
    ((List.perm_cons_erase he).symm.append_right _).trans h.free
  obtain ⟨r', y, l', ls', hplace, hroute, hins, hI⟩ := place_spec
    (r := { r with routetree := t, sourcetree := u }) hnet hv hsub hnodup.not_mem_erase hroutes
    hhalf' hfree
  refine ⟨r', u, y, l', ls', ?_, hroute, hu, hins, hI⟩
  unfold Rib.ipRouteUpdate
  rw [hfind]
  show (r.ipRouteTreeRemove e).bind _ = _
  rw [hrem]
  exact hplace

/-- `ip_route_update` of a new network. -/
theorem update_new (hn : ¬ Live live route.rNetwork)
    (hsize : (route :: without route.rNetwork live).length ≤ xstackIpRibSize)
    (hhalf' : Half ((route :: without route.rNetwork live).map IpRoute.rNetwork)) :
    ∃ e r' y l' ls', e ∉ l ∧ r.ipRouteUpdate route = some r' ∧
      r'.route = Function.update r.route e route ∧
      r.sourcetree.rbInsert Rib.fuel (fun i =>
        addrCmp route.rIface (Function.update r.route e route i).rIface) e = some (r'.sourcetree, y) ∧
      Inv r' (route :: without route.rNetwork live) l' ls' := by
  have hfind := h.findNetwork_absent hhalf hn
  have hlen : l.length + r.freelist.length = xstackIpRibSize := by
    have := h.free.length_eq
    rwa [List.length_append, List.length_finRange] at this
  have hroutes := h.routes
  have hll : l.length = live.length := by
    rw [← h.routes.length_eq, List.length_map]
  rw [List.length_cons, without_of_not_live hn] at hsize
  obtain ⟨e, rest, hfl⟩ : ∃ e rest, r.freelist = e :: rest := by
    refine List.exists_cons_of_ne_nil fun hnil => ?_
    rw [hnil, List.length_nil] at hlen
    omega
  have hfree : (e :: l ++ rest).Perm (List.finRange xstackIpRibSize) := by
    have := h.free
    rw [hfl] at this
    exact (List.perm_middle.symm).trans this
  have he : e ∉ l := by
    have hnodup := hfree.symm.nodup (List.nodup_finRange _)
    rw [List.cons_append, List.nodup_cons] at hnodup
    exact fun hmem => hnodup.1 (List.mem_append_left _ hmem)
  rw [← without_of_not_live hn] at hroutes
  obtain ⟨r', y, l', ls', hplace, hroute, hins, hI⟩ := place_spec
    (r := { r with freelist := rest }) h.net h.src h.sub he hroutes hhalf' hfree
  refine ⟨e, r', y, l', ls', he, ?_, hroute, hins, hI⟩
  unfold Rib.ipRouteUpdate
  rw [hfind]
  show r.ipRouteAdd route = _
  unfold Rib.ipRouteAdd
  rw [hfl]
  exact hplace

/-- `ip_route_remove` of a live network, whose entry is in both trees. -/
theorem remove_found (he : e ∈ l) (hes : e ∈ ls) (hn : (r.route e).rNetwork = route.rNetwork) :
    ∃ r' u, r.ipRouteRemove route = some (some r') ∧
      r'.route = Function.update r.route e ⟨0, 0, 0, 0, 0⟩ ∧
      r.sourcetree.rbRemove Rib.fuel e = some u ∧ r'.sourcetree = u.setEntry e .zero ∧
      Inv r' (without route.rNetwork live) (l.erase e) (ls.erase e) := by
  have hnodup := h.net.valid.nodup
  have hnot : e ∉ l.erase e := hnodup.not_mem_erase
  have hnots : e ∉ ls.erase e := h.src.nodup.not_mem_erase
  obtain ⟨o, hfind, ho⟩ := h.findNetwork hhalf route.rNetwork
  obtain rfl := (ho e).mpr ⟨he, hn⟩
  obtain ⟨t, u, hrem, hu, hnet, hv⟩ := h.treeRemove he hes
  refine ⟨⟨Function.update r.route e ⟨0, 0, 0, 0, 0⟩, t.setEntry e .zero, u.setEntry e .zero,
    e :: r.freelist⟩, u, ?_, rfl, hu, rfl, ?_, valid_setEntry hv hnots _, fun i hi => ?_, ?_, ?_⟩
  · unfold Rib.ipRouteRemove
    rw [hfind]
    show (r.ipRouteTreeRemove e).bind _ = _
    rw [hrem]
    rfl
  · exact holds_update hnot _ (hnet.setEntry hnot _)
  · obtain ⟨hne, hi⟩ := (List.Nodup.mem_erase_iff h.src.nodup).mp hi
    exact (List.Nodup.mem_erase_iff hnodup).mpr ⟨hne, h.sub i hi⟩
  · show ((l.erase e).map (Function.update r.route e _)).Perm _
    rw [map_update hnot, ← hn]
    exact h.routes_erase hhalf he
  · refine List.perm_middle.trans ?_
    exact ((List.perm_cons_erase he).symm.append_right _).trans h.free

/-- `ip_route_remove` of another network. -/
theorem remove_absent (hn : ¬ Live live route.rNetwork) : r.ipRouteRemove route = some none := by
  have hfind := h.findNetwork_absent hhalf hn
  unfold Rib.ipRouteRemove
  rw [hfind]
  rfl

/-- The entry of a live network. -/
theorem entry_of_live {op : Op} (hs : Safe r live op) (hn : Live live op.route.rNetwork) :
    ∃ e ∈ l, e ∈ ls ∧ (r.route e).rNetwork = op.route.rNetwork := by
  obtain ⟨e, he, hn⟩ := (h.live_iff _).mp hn
  obtain ⟨o, hfind, ho⟩ := h.findNetwork hhalf op.route.rNetwork
  obtain rfl := (ho e).mpr ⟨he, hn⟩
  exact ⟨e, he, (h.src.reach e).mp (hs.linked e hfind), hn⟩

/-- **What a call does.** -/
theorem step_inv {op : Op} (hs : Safe r live op) : Returns r live op ∧
    ∃ ret r' l' ls', call r op = some (ret, r') ∧ Inv r' (after live op) l' ls' := by
  cases op with
  | update route =>
    by_cases hn : Live live route.rNetwork
    · obtain ⟨e, he, hes, hn⟩ : ∃ e ∈ l, e ∈ ls ∧ (r.route e).rNetwork = route.rNetwork :=
        entry_of_live h hhalf hs hn
      obtain ⟨r', u, y, l', ls', hrun, -, -, -, hI⟩ := update_found h hhalf he hes hn hs.half
      have hcall : call r (.update route) = some (0, r') := by simp [call, hrun]
      exact ⟨⟨r', hcall⟩, 0, r', l', ls', hcall, hI⟩
    · obtain ⟨e, r', y, l', ls', -, hrun, -, -, hI⟩ := update_new h hhalf hn hs.size hs.half
      have hcall : call r (.update route) = some (0, r') := by simp [call, hrun]
      exact ⟨⟨r', hcall⟩, 0, r', l', ls', hcall, hI⟩
  | remove route =>
    by_cases hn : Live live route.rNetwork
    · obtain ⟨e, he, hes, hn'⟩ : ∃ e ∈ l, e ∈ ls ∧ (r.route e).rNetwork = route.rNetwork :=
        entry_of_live h hhalf hs hn
      obtain ⟨r', u, hrun, -, -, -, hI⟩ := remove_found h hhalf he hes hn'
      have hcall : call r (.remove route) = some (0, r') := by simp [call, hrun]
      exact ⟨⟨r', fun _ => hcall, fun hnot => absurd hn hnot⟩, 0, r', _, _, hcall, hI⟩
    · have hcall : call r (.remove route) = some (-1, r) := by
        simp [call, remove_absent h hhalf hn]
      refine ⟨⟨r, fun hlive => absurd hlive hn, fun _ => hcall⟩, -1, r, l, ls, hcall, ?_⟩
      show Inv r (without route.rNetwork live) l ls
      rw [without_of_not_live hn]
      exact h

/-- The table is the map. -/
theorem isMap_of_inv : IsMap r live where
  entries := ⟨l, h.net.valid.nodup, h.net.valid.reach, h.routes⟩
  find x hx := by
    obtain ⟨i, hi, rfl⟩ := List.mem_map.mp (h.routes.mem_iff.mpr hx)
    obtain ⟨o, hfind, ho⟩ := h.findNetwork hhalf (r.route i).rNetwork
    obtain rfl := (ho i).mpr ⟨hi, rfl⟩
    unfold Rib.ipRouteFindByNetwork
    rw [hfind]
    rfl

end

/-! ### Whole runs -/

theorem run_inv : ∀ (ops : List Op) {r : Rib} {live : List IpRoute} {l ls : List RibIdx},
    Inv r live l ls → Half (live.map IpRoute.rNetwork) → Meets Safe r live ops →
      ∃ r' l' ls', run r ops = some r' ∧ Inv r' (ops.foldl after live) l' ls' ∧
        Half ((ops.foldl after live).map IpRoute.rNetwork)
  | [], r, _, l, ls, h, hhalf, _ => ⟨r, l, ls, rfl, h, hhalf⟩
  | op :: ops, r, live, l, ls, h, hhalf, ⟨hs, hrest⟩ => by
    obtain ⟨-, ret, r₁, l₁, ls₁, hcall, h₁⟩ := step_inv h hhalf hs
    obtain ⟨r', l', ls', hrun, h'⟩ := run_inv ops h₁ hs.half (hrest _ hcall)
    refine ⟨r', l', ls', ?_, h'⟩
    unfold run
    rw [hcall]
    exact hrun

/-- **The routing table is a map** in every run whose calls are safe, and every further call that is
safe returns what it should. -/
theorem table_is_map (ops : List Op) (h : Meets Safe Rib.init [] ops) :
    ∃ r, run Rib.init ops = some r ∧ IsMap r (liveAfter ops) ∧
      ∀ op, Safe r (liveAfter ops) op → Returns r (liveAfter ops) op := by
  obtain ⟨r, l, ls, hrun, hI, hhalf⟩ := run_inv ops inv_init ⟨0, by simp⟩ h
  exact ⟨r, hrun, isMap_of_inv hI hhalf, fun op hs => (step_inv hI hhalf hs).1⟩

/-- The network `n` with the interface `iface`. -/
def network (n iface : InAddr) : IpRoute := ⟨n, 0xff000000, 0, iface, 0⟩

theorem findNetwork_init (n : InAddr) : Rib.init.findNetwork n = some none := rfl

theorem findNetwork_second {x : ℤ × Rib} (hx : call Rib.init (.update (network 10 1)) = some x) :
    x.2.findNetwork 20 = some none := by
  have hnone : (call Rib.init (.update (network 10 1))).map (fun x => x.2.findNetwork 20) =
      some (some none) := by decide +kernel
  rw [hx] at hnone
  exact Option.some.inj hnone

/-- Two networks are added, and the first one goes again. -/
theorem meets_two : Meets Safe Rib.init []
    [.update (network 10 1), .update (network 20 2), .remove (network 10 1)] := by
  refine ⟨⟨by decide, half_of_all 0 (by decide +kernel), ?_⟩, fun x hx =>
    ⟨⟨by decide, half_of_all 0 (by decide +kernel), ?_⟩, fun y hy =>
      ⟨⟨by decide, half_of_all 0 (by decide +kernel), ?_⟩, fun _ _ => trivial⟩⟩⟩
  · intro e he
    exact absurd (he.symm.trans (findNetwork_init 10)) (by simp)
  · intro e he
    exact absurd (he.symm.trans (findNetwork_second hx)) (by simp)
  · intro e he
    have hroot : ((call Rib.init (.update (network 10 1))).bind fun x =>
        call x.2 (.update (network 20 2))).map (fun x => (x.2.findNetwork 10, x.2.sourcetree.root)) =
        some (some (some 4), some 4) := by decide +kernel
    rw [hx] at hroot
    obtain ⟨h1, h2⟩ : y.2.findNetwork 10 = some (some 4) ∧ y.2.sourcetree.root = some 4 := by
      simpa [hy] using hroot
    obtain rfl : e = 4 := by simpa using he.symm.trans h1
    exact .root h2

theorem table_is_map_two : ∃ r,
    run Rib.init [.update (network 10 1), .update (network 20 2), .remove (network 10 1)] = some r ∧
      IsMap r [network 20 2] ∧
      ∀ op, Safe r [network 20 2] op → Returns r [network 20 2] op := table_is_map _ meets_two

/-- The network 208.0.0.0 is live, but it is said not to be. -/
theorem live_not_removed : ∃ r, run Rib.init [.update (network 0x10000000 1),
      .update (network 0x70000000 2), .update (network 0xd0000000 3),
      .remove (network 0x10000000 1)] = some r ∧
    ¬ Returns r [network 0xd0000000 3, network 0x70000000 2] (.remove (network 0xd0000000 3)) := by
  have hrun : (run Rib.init [.update (network 0x10000000 1), .update (network 0x70000000 2),
      .update (network 0xd0000000 3), .remove (network 0x10000000 1)]).map (fun r =>
        (call r (.remove (network 0xd0000000 3))).map Prod.fst) = some (some (-1)) := by
    decide +kernel
  obtain ⟨r, hr, hret⟩ := Option.map_eq_some_iff.mp hrun
  refine ⟨r, hr, ?_⟩
  rintro ⟨r', h, -⟩
  rw [h ⟨_, List.mem_cons_self, rfl⟩] at hret
  cases hret

end Xstack.Ip.Rib
