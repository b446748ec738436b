import Xstack.Ip.Rib

/-! # The index of the routing table by interface

The second tree over the routes. Its keys, the interface addresses, need not be different: a route
with the address of a linked one is not linked (`Index`), and then the removal of either of them does
damage. `index_agrees`: the index finds the live routes in every run that does neither. -/

namespace Xstack.Ip.IfaceIndex

open Xstack.Config Xstack.Ip.Route Xstack.Ip.Rib Xstack.Tree.Macros Xstack.Tree.Find Xstack.Tree.Map

/-- **The index finds the addresses of the live routes,** and a live route for each of them. -/
def Agrees (r : Rib) (live : List IpRoute) : Prop :=
  ∀ a, ∃ o, r.ipRouteFindByIface a = some o ∧ (o ≠ none ↔ ∃ x ∈ live, x.rIface = a) ∧
    ∀ x, o = some x → x ∈ live ∧ x.rIface = a

/-- **The condition on a call:** the interface addresses stay in a range of 2^31 too, and a route that
is removed or replaced is the only one with its interface address, or replaced by one with the same. -/
structure Keeps (r : Rib) (live : List IpRoute) (op : Op) : Prop where
  safe : Safe r live op
  half : Half ((after live op).map IpRoute.rIface)
  kept : ∀ x ∈ live, x.rNetwork = op.route.rNetwork →
    (∀ y ∈ live, y.rIface = x.rIface → y = x) ∨
      ∃ route, op = .update route ∧ route.rIface = x.rIface

/-! ### The invariant -/

/-- The linked entries `ls` have live routes, and there is one for the interface of each live route. -/
structure Index (f : RibIdx → IpRoute) (h : Rb RibIdx) (live : List IpRoute)
    (ls : List RibIdx) : Prop where
  src : Holds addrCmp Set.univ (fun i => (f i).rIface) h ls
  sub : ∀ i ∈ ls, f i ∈ live
  cover : ∀ x ∈ live, ∃ i ∈ ls, (f i).rIface = x.rIface

variable {r r' : Rib} {live : List IpRoute} {l ls ls' : List RibIdx} {e : RibIdx}
  {route : IpRoute} {f : RibIdx → IpRoute} {h h' : Rb RibIdx}

theorem index_init : Index Rib.init.route Rb.init [] [] := ⟨holds_init, by simp, by simp⟩

theorem holds_half (hsrc : Holds addrCmp Set.univ (fun i => (f i).rIface) h ls)
    (hsub : ∀ i ∈ ls, f i ∈ live) {base : InAddr}
    (hb : ∀ a ∈ live.map IpRoute.rIface, a ∈ halfFrom base) :
    Holds addrCmp (halfFrom base) (fun i => (f i).rIface) h ls :=
  hsrc.rebase fun i hi => hb _ (List.mem_map_of_mem (hsub i hi))

/-- **The index finds what is live.** -/
theorem Index.agrees (hx : Index r.route r.sourcetree live ls) (hf : ls.length < Rib.fuel)
    (hhalf : Half (live.map IpRoute.rIface)) : Agrees r live := by
  obtain ⟨base, hb⟩ := hhalf
  intro a
  obtain ⟨o, hfind, ho⟩ := (holds_half hx.src hx.sub hb).find_key (compares_half base) hf
    (addrCmp_eq_zero' a)
  have hrun : r.ipRouteFindByIface a = some (o.map r.route) := by
    have hfind : r.sourcetree.rbFind Rib.fuel (r.routeIfaceCmp a) = some o := hfind
    unfold Rib.ipRouteFindByIface
    rw [hfind]
    rfl
  refine ⟨o.map r.route, hrun, ⟨fun hne => ?_, ?_⟩, fun x hx' => ?_⟩
  · obtain _ | i := o
    · exact absurd rfl hne
    · obtain ⟨hi, ha⟩ := (ho i).mp rfl
      exact ⟨r.route i, hx.sub i hi, ha⟩
  · rintro ⟨x, hmem, rfl⟩
    obtain ⟨i, hi, ha⟩ := hx.cover x hmem
    rw [(ho i).mpr ⟨hi, ha⟩]
    simp
  · obtain ⟨i, rfl, rfl⟩ := Option.map_eq_some_iff.mp hx'
    obtain ⟨hi, ha⟩ := (ho i).mp rfl
    exact ⟨hx.sub i hi, ha⟩

section

variable (he : e ∉ ls) (hsrc : Holds addrCmp Set.univ (fun i => (f i).rIface) h ls)
  (hsub : ∀ i ∈ ls, f i ∈ live)
include he hsrc hsub

theorem holds_stored {base : InAddr}
    (hb : ∀ a ∈ (route :: live).map IpRoute.rIface, a ∈ halfFrom base) :
    Holds addrCmp (halfFrom base) (fun i => (Function.update f e route i).rIface) h ls := by
  refine (holds_half hsrc hsub fun a ha => hb a (List.mem_cons_of_mem _ ha)).congr fun i hi => ?_
  rw [update_of_mem he hi]

variable (hf : ls.length < Rib.fuel)
  (hcover : ∀ x ∈ live, x.rIface = route.rIface ∨ ∃ i ∈ ls, (f i).rIface = x.rIface)
include hf hcover

/-- `RB_INSERT` finds a linked entry with the interface address of the route. -/
theorem index_insert_found {i : RibIdx} {y : Option RibIdx} (hi : i ∈ ls)
    (hkey : (f i).rIface = route.rIface) (hhalf : Half ((route :: live).map IpRoute.rIface))
    (hins : h.rbInsert Rib.fuel (fun i => addrCmp route.rIface (Function.update f e route i).rIface) e =
      some (h', y)) : Index (Function.update f e route) h' (route :: live) ls := by
  obtain ⟨base, hb⟩ := hhalf
  have hholds := holds_stored he hsrc hsub hb
  have hfound := hholds.insert_found (x := e) (compares_half base) hf hi
    (show _ = route.rIface by rw [update_of_mem he hi, hkey])
  rw [hfound] at hins
  obtain ⟨rfl, -⟩ := Prod.mk.inj (Option.some.inj hins)
  refine ⟨hholds.rebase fun _ _ => Set.mem_univ _, fun j hj => ?_, fun x hx => ?_⟩
  · rw [update_of_mem he hj]
    exact List.mem_cons_of_mem _ (hsub j hj)
  · have hother : ∃ j ∈ ls, (f j).rIface = x.rIface := by
      rcases List.mem_cons.mp hx with rfl | hx
      · exact ⟨i, hi, hkey⟩
      · rcases hcover x hx with hx | hx
        · exact ⟨i, hi, hkey.trans hx.symm⟩
        · exact hx
    obtain ⟨j, hj, hjx⟩ := hother
    exact ⟨j, hj, by rw [update_of_mem he hj, hjx]⟩

/-- No linked entry has the interface address of the route. -/
theorem index_insert_new {y : Option RibIdx} (hnew : ∀ i ∈ ls, (f i).rIface ≠ route.rIface)
    (hhalf : Half ((route :: live).map IpRoute.rIface))
    (hins : h.rbInsert Rib.fuel (fun i => addrCmp route.rIface (Function.update f e route i).rIface) e =
      some (h', y)) : ∃ ls', Index (Function.update f e route) h' (route :: live) ls' := by
  obtain ⟨base, hb⟩ := hhalf
  have hholds := holds_stored he hsrc hsub hb
  have hself : (Function.update f e route e).rIface = route.rIface := by rw [Function.update_self]
  have hne : ∀ i ∈ ls, (Function.update f e route i).rIface ≠ (Function.update f e route e).rIface := by
    intro i hi
    rw [update_of_mem he hi, hself]
    exact hnew i hi
  have hin : (Function.update f e route e).rIface ∈ halfFrom base := by
    rw [hself]
    exact hb _ List.mem_cons_self
  obtain ⟨h'', ls', hrun, hholds', hperm⟩ := hholds.insert (compares_half base) hf he hin hne
  rw [hself, hins] at hrun
  obtain ⟨rfl, -⟩ := Prod.mk.inj (Option.some.inj hrun)
  refine ⟨ls', hholds'.rebase fun _ _ => Set.mem_univ _, fun j hj => ?_, fun x hx => ?_⟩
  · rcases List.mem_cons.mp (hperm.mem_iff.mp hj) with rfl | hj
    · rw [Function.update_self]
      exact List.mem_cons_self
    · rw [update_of_mem he hj]
      exact List.mem_cons_of_mem _ (hsub j hj)
  · have hx : x.rIface = route.rIface ∨ ∃ i ∈ ls, (f i).rIface = x.rIface := by
      rcases List.mem_cons.mp hx with rfl | hx
      · exact Or.inl rfl
      · exact hcover x hx
    rcases hx with hx | ⟨j, hj, hjx⟩
    · exact ⟨e, hperm.mem_iff.mpr List.mem_cons_self, by rw [hself, hx]⟩
    · exact ⟨j, hperm.mem_iff.mpr (List.mem_cons_of_mem _ hj), by rw [update_of_mem he hj, hjx]⟩

/-- The entry `e`, not linked, gets a route, and `RB_INSERT` links it if no linked entry has its
interface address. -/
theorem index_insert {y : Option RibIdx} (hhalf : Half ((route :: live).map IpRoute.rIface))
    (hins : h.rbInsert Rib.fuel (fun i => addrCmp route.rIface (Function.update f e route i).rIface) e =
      some (h', y)) : ∃ ls', Index (Function.update f e route) h' (route :: live) ls' := by
  by_cases hdup : ∃ i ∈ ls, (f i).rIface = route.rIface
  · obtain ⟨i, hi, hkey⟩ := hdup
    exact ⟨ls, index_insert_found he hsrc hsub hf hcover hi hkey hhalf hins⟩
  · push Not at hdup
    exact index_insert_new he hsrc hsub hf hcover hdup hhalf hins

end

/-! ### The calls -/

/-- No other route has the interface address of `x`. -/
theorem alone {x y : IpRoute} (honly : ∀ y ∈ live, y.rIface = x.rIface → y = x)
    (hy : y ∈ without x.rNetwork live) : y.rIface ≠ x.rIface := by
  obtain ⟨hlive, hn⟩ := mem_without.mp hy
  exact fun h => hn (congrArg IpRoute.rNetwork (honly y hlive h))

section

variable (hI : Inv r live l ls') (hx : Index r.route r.sourcetree live ls)
include hI hx

theorem mem_linked_iff (i : RibIdx) : i ∈ ls' ↔ i ∈ ls :=
  (hI.src.reach i).symm.trans (hx.src.valid.reach i)

theorem linked_length : ls.length < Rib.fuel := by
  have hsub : ∀ i ∈ ls, i ∈ l := fun i hi => hI.sub i ((mem_linked_iff hI hx i).mpr hi)
  exact (hx.src.valid.nodup.subperm hsub).length_le.trans_lt hI.length_lt_fuel

variable (hhalf : Half (live.map IpRoute.rNetwork))
include hhalf

/-- The linked entries without `e`: they cover all interfaces but that of `e`. -/
theorem index_erase {u : Rb RibIdx} (he : e ∈ l) (hes : e ∈ ls)
    (hrem : r.sourcetree.rbRemove Rib.fuel e = some u) :
    Holds addrCmp Set.univ (fun i => (r.route i).rIface) u (ls.erase e) ∧
      (∀ i ∈ ls.erase e, r.route i ∈ without (r.route e).rNetwork live) ∧
      ∀ x ∈ without (r.route e).rNetwork live, x.rIface = (r.route e).rIface ∨
        ∃ i ∈ ls.erase e, (r.route i).rIface = x.rIface := by
  have hmem : ∀ {i}, i ∈ ls.erase e ↔ i ≠ e ∧ i ∈ ls :=
    List.Nodup.mem_erase_iff hx.src.valid.nodup
  obtain ⟨u', hrem', hsrc⟩ := hx.src.remove (linked_length hI hx).le hes
  obtain rfl := Option.some.inj (hrem.symm.trans hrem')
  refine ⟨hsrc, fun i hi => ?_, fun x hother => ?_⟩
  · obtain ⟨hne, hi⟩ := hmem.mp hi
    refine mem_without.mpr ⟨hx.sub i hi, fun hn => hne ?_⟩
    exact hI.network_inj hhalf (hI.sub i ((mem_linked_iff hI hx i).mpr hi)) he hn
  · obtain ⟨i, hi, hix⟩ := hx.cover x (mem_without.mp hother).1
    by_cases hie : i = e
    · subst hie
      exact Or.inl hix.symm
    · exact Or.inr ⟨i, hmem.mpr ⟨hie, hi⟩, hix⟩

/-- The route of a live network is replaced. -/
theorem index_update_found (hk : Keeps r live (.update route)) (hn : Live live route.rNetwork)
    (hcall : r.ipRouteUpdate route = some r') :
    ∃ ls₁, Index r'.route r'.sourcetree (route :: without route.rNetwork live) ls₁ := by
  obtain ⟨e, he, hes, hn⟩ : ∃ e ∈ l, e ∈ ls' ∧ (r.route e).rNetwork = route.rNetwork :=
    entry_of_live hI hhalf hk.safe hn
  obtain ⟨r₁, u, y, -, -, hrun, hroute, hrem, hins, -⟩ :=
    update_found hI hhalf he hes hn hk.safe.half
  obtain rfl := Option.some.inj (hrun.symm.trans hcall)
  have hes := (mem_linked_iff hI hx e).mp hes
  obtain ⟨hsrc, hsub, hcover⟩ := index_erase hI hx hhalf he hes hrem
  have hcover : ∀ x ∈ without (r.route e).rNetwork live, x.rIface = route.rIface ∨
      ∃ i ∈ ls.erase e, (r.route i).rIface = x.rIface := by
    intro x hother
    refine (hcover x hother).imp_left fun hsame => ?_
    rcases hk.kept _ (hx.sub e hes) hn with honly | ⟨route', heq, hroute'⟩
    · exact absurd hsame (alone honly hother)
    · cases heq
      exact hsame.trans hroute'.symm
  rw [hn] at hsub hcover
  rw [hroute]
  refine index_insert hx.src.valid.nodup.not_mem_erase hsrc hsub ?_ hcover hk.half hins
  exact List.length_erase_le.trans_lt (linked_length hI hx)

/-- A route for a new network. -/
theorem index_update_new (hk : Keeps r live (.update route)) (hn : ¬ Live live route.rNetwork)
    (hcall : r.ipRouteUpdate route = some r') :
    ∃ ls₁, Index r'.route r'.sourcetree (route :: without route.rNetwork live) ls₁ := by
  obtain ⟨e, r₁, y, -, -, he, hrun, hroute, hins, -⟩ :=
    update_new hI hhalf hn hk.safe.size hk.safe.half
  obtain rfl := Option.some.inj (hrun.symm.trans hcall)
  have hes : e ∉ ls := fun h => he (hI.sub e ((mem_linked_iff hI hx e).mpr h))
  have hhalf' := hk.half
  rw [after, without_of_not_live hn] at hhalf'
  rw [hroute, without_of_not_live hn]
  exact index_insert hes hx.src hx.sub (linked_length hI hx) (fun x hx' => Or.inr (hx.cover x hx'))
    hhalf' hins

/-- The route of a live network is removed. -/
theorem index_remove_found (hk : Keeps r live (.remove route)) (hn : Live live route.rNetwork)
    (hcall : r.ipRouteRemove route = some (some r')) :
    ∃ ls₁, Index r'.route r'.sourcetree (without route.rNetwork live) ls₁ := by
  obtain ⟨e, he, hes, hn⟩ : ∃ e ∈ l, e ∈ ls' ∧ (r.route e).rNetwork = route.rNetwork :=
    entry_of_live hI hhalf hk.safe hn
  obtain ⟨r₁, u, hrun, hroute, hrem, htree, -⟩ := remove_found hI hhalf he hes hn
  obtain rfl := Option.some.inj (Option.some.inj (hrun.symm.trans hcall))
  have hes := (mem_linked_iff hI hx e).mp hes
  have honly : ∀ y ∈ live, y.rIface = (r.route e).rIface → y = r.route e := by
    rcases hk.kept _ (hx.sub e hes) hn with honly | ⟨route', heq, -⟩
    · exact honly
    · cases heq
  have hnot : e ∉ ls.erase e := hx.src.valid.nodup.not_mem_erase
  obtain ⟨hsrc, hsub, hcover⟩ := index_erase hI hx hhalf he hes hrem
  refine ⟨ls.erase e, ?_, fun i hi => ?_, fun x hlive => ?_⟩
  · rw [hroute, htree]
    exact (hsrc.setEntry hnot _).congr fun i hi => by rw [update_of_mem hnot hi]
  · rw [hroute, update_of_mem hnot hi, ← hn]
    exact hsub i hi
  · rw [← hn] at hlive
    obtain ⟨i, hi, hix⟩ := (hcover x hlive).resolve_left (alone honly hlive)
    exact ⟨i, hi, by rw [hroute, update_of_mem hnot hi, hix]⟩

/-- **What a call does to the index.** -/
theorem step_index {op : Op} (hk : Keeps r live op) {ret : ℤ} (hcall : call r op = some (ret, r')) :
    ∃ ls₁, Index r'.route r'.sourcetree (after live op) ls₁ := by
  cases op with
  | update route =>
    have hcall : r.ipRouteUpdate route = some r' := by
      obtain ⟨_, hrun, heq⟩ := Option.map_eq_some_iff.mp hcall
      rw [hrun, (Prod.mk.inj heq).2]
    by_cases hn : Live live route.rNetwork
    · exact index_update_found hI hx hhalf hk hn hcall
    · exact index_update_new hI hx hhalf hk hn hcall
  | remove route =>
    by_cases hn : Live live route.rNetwork
    · obtain ⟨e, he, hes, hne⟩ : ∃ e ∈ l, e ∈ ls' ∧ (r.route e).rNetwork = route.rNetwork :=
        entry_of_live hI hhalf hk.safe hn
      obtain ⟨r₁, u, hrun, -⟩ := remove_found hI hhalf he hes hne
      obtain rfl : r₁ = r' := by simpa [call, hrun] using congrArg (Option.map Prod.snd) hcall
      exact index_remove_found hI hx hhalf hk hn hrun
    · have hrun : call r (.remove route) = some (-1, r) := by
        simp [call, remove_absent hI hhalf hn]
      obtain ⟨-, rfl⟩ := Prod.mk.inj (Option.some.inj (hrun.symm.trans hcall))
      show ∃ ls₁, Index r.route r.sourcetree (without route.rNetwork live) ls₁
      rw [without_of_not_live hn]
      exact ⟨ls, hx⟩

end

/-! ### Whole runs -/

theorem run_index : ∀ (ops : List Op) {r : Rib} {live : List IpRoute} {l ls' ls : List RibIdx},
    Inv r live l ls' → Half (live.map IpRoute.rNetwork) → Index r.route r.sourcetree live ls →
      Half (live.map IpRoute.rIface) → Meets Keeps r live ops →
        ∃ r', run r ops = some r' ∧ Agrees r' (ops.foldl after live)
  | [], r, live, l, ls', ls, hI, _, hx, hhalf, _ => ⟨r, rfl, hx.agrees (linked_length hI hx) hhalf⟩
  | op :: ops, r, live, l, ls', ls, hI, hnet, hx, _, ⟨hk, hrest⟩ => by
    obtain ⟨-, ret, r₁, l₁, ls₁, hcall, hI₁⟩ := step_inv hI hnet hk.safe
    obtain ⟨ls₂, hx₁⟩ := step_index hI hx hnet hk hcall
    obtain ⟨r', hrun, h'⟩ := run_index ops hI₁ hk.safe.half hx₁ hk.half (hrest _ hcall)
    refine ⟨r', ?_, h'⟩
    unfold run
    rw [hcall]
    exact hrun

/-- **The index agrees with the routes** in every run that never takes away the linked one of several
routes over an interface. -/
theorem index_agrees (ops : List Op) (h : Meets Keeps Rib.init [] ops) :
    ∃ r, run Rib.init ops = some r ∧ Agrees r (liveAfter ops) :=
  run_index ops inv_init ⟨0, by simp⟩ index_init ⟨0, by simp⟩ h

/-- Two networks over one interface. -/
theorem index_agrees_shared : ∃ r,
    run Rib.init [.update (network 10 1), .update (network 20 1)] = some r ∧
      Agrees r [network 20 1, network 10 1] := by
  refine index_agrees _ ⟨⟨⟨by decide, half_of_all 0 (by decide +kernel), ?_⟩,
    half_of_all 0 (by decide +kernel), by simp⟩, fun x hx =>
      ⟨⟨⟨by decide, half_of_all 0 (by decide +kernel), ?_⟩,
        half_of_all 0 (by decide +kernel), ?_⟩, fun _ _ => trivial⟩⟩
  · intro e he
    exact absurd (he.symm.trans (findNetwork_init 10)) (by simp)
  · intro e he
    exact absurd (he.symm.trans (findNetwork_second hx)) (by simp)
  · intro y hy hn
    obtain rfl : y = network 10 1 := List.mem_singleton.mp hy
    exact absurd hn (by decide)

/-- The first of them goes, and the interface is not found any more. -/
theorem iface_lost : ∃ r,
    run Rib.init [.update (network 10 1), .update (network 20 1), .remove (network 10 1)] = some r ∧
      ¬ Agrees r [network 20 1] := by
  have hrun : (run Rib.init [.update (network 10 1), .update (network 20 1),
      .remove (network 10 1)]).map (fun r => r.ipRouteFindByIface 1) = some (some none) := by
    decide +kernel
  obtain ⟨r, hr, hfind⟩ := Option.map_eq_some_iff.mp hrun
  refine ⟨r, hr, fun h => ?_⟩
  obtain ⟨o, ho, hlive, -⟩ := h 1
  obtain rfl := Option.some.inj (ho.symm.trans hfind)
  exact hlive.mpr ⟨network 20 1, List.mem_cons_self, rfl⟩ rfl

end Xstack.Ip.IfaceIndex
