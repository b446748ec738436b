import Xstack.Ip.Rib
import Xstack.Tree.Walk

/-! # The most specific route

`ip_route_find_by_network` takes an entry with the very address as its network, else the first entry
of the network tree that covers the address, else one with the network 0. The tree is in the order of
the networks, so of two prefixes of an address it has the shorter one first, unless the difference of
their networks is negative as an `int`.

* `Covers`, `Longest`: the entries that cover an address, and those of them with the longest netmask.
* `MostSpecific`: what the search should do. `Served`, `LongestFirst`: conditions on the entries.
* `mostSpecific_iff`: `Served` is enough in every table, and in a table whose tree is in order the search
  does what it should iff `LongestFirst` holds. -/

namespace Xstack.Ip.Lookup

open Xstack.Config Xstack.Ip.Route Xstack.Ip.Rib Xstack.Tree.Macros Xstack.Tree.Find Xstack.Tree.Map
open Xstack.Tree.Insert Xstack.Tree.Walk

/-- `entry->route.r_network == (addr & entry->route.r_netmask)`. -/
def Covers (addr : InAddr) (x : IpRoute) : Prop := x.rNetwork = (addr &&& x.rNetmask)

instance (addr : InAddr) (x : IpRoute) : Decidable (Covers addr x) :=
  inferInstanceAs (Decidable (_ = _))

/-- Ones and then `k` zeros. -/
def Contiguous (m : InAddr) : Prop := ∃ k ≤ 32, m.toNat = 2 ^ 32 - 2 ^ k

/-- A routing table with the entries `l` in the order of the network tree. -/
structure Table (r : Rib) (l : List RibIdx) : Prop where
  valid : Valid r.routetree l
  contiguous : ∀ i ∈ l, Contiguous (r.route i).rNetmask
  masked : ∀ i ∈ l, (r.route i).rNetwork = ((r.route i).rNetwork &&& (r.route i).rNetmask)

/-- The entry covers the address, and none with a longer netmask does. -/
structure Longest (r : Rib) (l : List RibIdx) (addr : InAddr) (e : RibIdx) : Prop where
  mem : e ∈ l
  covers : Covers addr (r.route e)
  longest : ∀ i ∈ l, Covers addr (r.route i) → (r.route i).rNetmask ≤ (r.route e).rNetmask

/-- **The search picks the most specific route.** -/
structure MostSpecific (r : Rib) (l : List RibIdx) (addr : InAddr) : Prop where
  longest : (∃ i ∈ l, Covers addr (r.route i)) →
    ∃ e, r.ipRouteFindByNetwork addr = some (some (r.route e)) ∧ Longest r l addr e
  enoent : r.ipRouteFindByNetwork addr = some none ↔
    (∀ i ∈ l, ¬ Covers addr (r.route i)) ∧ ∀ i ∈ l, (r.route i).rNetwork ≠ 0

/-- Seen from the network `n`, the tree is in order. -/
def OrderedFor (r : Rib) (l : List RibIdx) (n : InAddr) : Prop := Mono (r.routeNetworkCmp n) l

/-- **The condition on the entries of any tree:** no two have one network; one has the address as its
network and the tree is in order for it, or the one with the longest netmask comes before all others that
cover the address; and when nothing covers the address, a network 0 is there only in a tree that is in
order for it. -/
structure Served (r : Rib) (l : List RibIdx) (addr : InAddr) : Prop where
  distinct : ∀ i ∈ l, ∀ j ∈ l, (r.route i).rNetwork = (r.route j).rNetwork → i = j
  covered : (∃ i ∈ l, Covers addr (r.route i)) →
    (OrderedFor r l addr ∧ ∃ i ∈ l, (r.route i).rNetwork = addr) ∨
      ∃ x, Longest r l addr x ∧ ∀ y ∈ l, Covers addr (r.route y) → y ≠ x → [x, y].Sublist l
  zero : (∀ i ∈ l, ¬ Covers addr (r.route i)) → (∃ i ∈ l, (r.route i).rNetwork = 0) → OrderedFor r l 0

/-- The tree is in order: `route_network_cmp` is an order on the networks, and the entries are in it. -/
structure InOrder (r : Rib) (l : List RibIdx) : Prop where
  sorted : l.Pairwise fun i j => r.routeNetworkCmp (r.route i).rNetwork j < 0
  half : Half (l.map fun i => (r.route i).rNetwork)

/-- **The condition on the entries of a tree in order:** one has the address as its network, or the one
with the longest netmask sorts before all others that cover the address. -/
def LongestFirst (r : Rib) (l : List RibIdx) (addr : InAddr) : Prop :=
  (∃ i ∈ l, Covers addr (r.route i)) → (∃ i ∈ l, (r.route i).rNetwork = addr) ∨
    ∃ x, Longest r l addr x ∧ ∀ y ∈ l, Covers addr (r.route y) → y ≠ x →
      r.routeNetworkCmp (r.route x).rNetwork y < 0

variable {r : Rib} {l : List RibIdx} {addr : InAddr} {e : RibIdx}

/-! ### Netmasks -/

theorem testBit_contiguous {k i : ℕ} (hk : k ≤ 32) :
    (2 ^ 32 - 2 ^ k).testBit i = (decide (i < 32) && !decide (i < k)) := by
  have hpos := Nat.two_pow_pos k
  have hle : 2 ^ k ≤ 2 ^ 32 := Nat.pow_le_pow_right (by omega) hk
  have hsucc : 2 ^ k = (2 ^ k - 1) + 1 := by omega
  rw [hsucc, Nat.testBit_two_pow_sub_succ (by omega), Nat.testBit_two_pow_sub_one]

/-- A longer netmask has all bits of a shorter one. -/
theorem Contiguous.and_eq {m m' : InAddr} (h : Contiguous m) (h' : Contiguous m') (hle : m ≤ m') :
    m &&& m' = m := by
  obtain ⟨k, hk, hm⟩ := h
  obtain ⟨k', hk', hm'⟩ := h'
  have hkk : k' ≤ k := by
    by_contra hlt
    have hnat : m.toNat ≤ m'.toNat := UInt32.le_iff_toNat_le.mp hle
    have hpow : 2 ^ k < 2 ^ k' := Nat.pow_lt_pow_right (by omega) (not_le.mp hlt)
    have hmax : 2 ^ k' ≤ 2 ^ 32 := Nat.pow_le_pow_right (by omega) hk'
    omega
  apply UInt32.toNat_inj.mp
  rw [UInt32.toNat_and, hm, hm']
  refine Nat.eq_of_testBit_eq fun i => ?_
  rw [Nat.testBit_and, testBit_contiguous hk, testBit_contiguous hk']
  by_cases h1 : i < k
  · simp [h1]
  · have h2 : ¬ i < k' := by omega
    simp [h1, h2]

/-! ### The search -/

section

variable (hT : Table r l)
include hT

theorem Table.length_lt : 2 * l.length < Rib.fuel := by
  have hle := hT.valid.nodup.length_le_card
  rw [Fintype.card_fin] at hle
  unfold Rib.fuel
  omega

/-- `RB_FIND` ends, and what it finds has the network. -/
theorem Table.findNetwork (n : InAddr) : ∃ o, r.findNetwork n = some o ∧
    ∀ i, o = some i → i ∈ l ∧ (r.route i).rNetwork = n := by
  have hlen : l.length < Rib.fuel := by
    have hlt := hT.length_lt
    omega
  obtain ⟨o, h1, h2, -⟩ := valid_find (r.routeNetworkCmp n) hT.valid hlen
  refine ⟨o, h1, fun i hi => ⟨(h2 i hi).1, ?_⟩⟩
  exact (addrCmp_eq_zero.mp (h2 i hi).2).symm

/-- `RB_FIND` finds a network that the tree is in order for. -/
theorem Table.found {n : InAddr} (ho : OrderedFor r l n) (hn : ∃ i ∈ l, (r.route i).rNetwork = n) :
    r.findNetwork n ≠ some none := by
  have hlen : l.length < Rib.fuel := by
    have hlt := hT.length_lt
    omega
  obtain ⟨o, h1, -, h3⟩ := valid_find (r.routeNetworkCmp n) hT.valid hlen
  obtain ⟨i, hi, rfl⟩ := hn
  have hne := h3 ho ⟨i, hi, addrCmp_eq_zero.mpr rfl⟩
  intro h
  exact hne (Option.some.inj (h1.symm.trans h))

theorem Table.foreach (p : RibIdx → Bool) : r.routetree.rbForeach Rib.fuel p = some (l.find? p) :=
  valid_foreach p hT.valid hT.length_lt

/-- An entry with the address as its network covers it. -/
theorem Table.covers_network {i : RibIdx} (hi : i ∈ l) (hn : (r.route i).rNetwork = addr) :
    Covers addr (r.route i) := by
  have hm := hT.masked i hi
  unfold Covers
  rw [hn] at hm ⊢
  exact hm

omit hT in
theorem lookup_exact (h : r.findNetwork addr = some (some e)) :
    r.ipRouteFindByNetwork addr = some (some (r.route e)) := by
  simp [Rib.ipRouteFindByNetwork, h]

/-- The search when there is no entry with the address as its network. -/
theorem lookup_walk (h : r.findNetwork addr = some none) : r.ipRouteFindByNetwork addr =
    match l.find? fun i => Covers addr (r.route i) with
    | some e => some (some (r.route e))
    | none => (r.findNetwork 0).map (Option.map r.route) := by
  have hfor : r.routetree.rbForeach Rib.fuel
      (fun i => (r.route i).rNetwork == (addr &&& (r.route i).rNetmask)) =
      some (l.find? fun i => Covers addr (r.route i)) := hT.foreach _
  unfold Rib.ipRouteFindByNetwork
  simp only [h, hfor, Option.bind_eq_bind, Option.bind_some]
  cases l.find? fun i => Covers addr (r.route i) with
  | some e => rfl
  | none => cases r.findNetwork 0 <;> rfl

theorem lookup_first (h : r.findNetwork addr = some none)
    (he : l.find? (fun i => Covers addr (r.route i)) = some e) :
    r.ipRouteFindByNetwork addr = some (some (r.route e)) := by
  rw [lookup_walk hT h, he]

theorem lookup_zero (h : r.findNetwork addr = some none)
    (hno : ∀ i ∈ l, ¬ Covers addr (r.route i)) :
    r.ipRouteFindByNetwork addr = (r.findNetwork 0).map (Option.map r.route) := by
  have hnone : l.find? (fun i => Covers addr (r.route i)) = none := by
    simpa [List.find?_eq_none] using hno
  rw [lookup_walk hT h, hnone]

/-! ### Tables in any order -/

/-- What the search needs of `RB_FIND` and of the walk. -/
structure Serves (r : Rib) (l : List RibIdx) (addr : InAddr) : Prop where
  exact : ∀ e, r.findNetwork addr = some (some e) → Longest r l addr e
  first : r.findNetwork addr = some none →
    ∀ e, l.find? (fun i => Covers addr (r.route i)) = some e → Longest r l addr e
  zero : (∀ i ∈ l, ¬ Covers addr (r.route i)) → (∃ i ∈ l, (r.route i).rNetwork = 0) →
    r.findNetwork 0 ≠ some none

/-- Only an entry that covers the address is found for it. -/
theorem Table.not_found (hno : ∀ i ∈ l, ¬ Covers addr (r.route i)) :
    r.findNetwork addr = some none := by
  obtain ⟨_ | e, ho, hspec⟩ := hT.findNetwork addr
  · exact ho
  · obtain ⟨he, hn⟩ := hspec e rfl
    exact absurd (hT.covers_network he hn) (hno e he)

theorem Serves.mostSpecific (h : Serves r l addr) : MostSpecific r l addr := by
  by_cases hcov : ∃ i ∈ l, Covers addr (r.route i)
  · have hfound : ∃ e, r.ipRouteFindByNetwork addr = some (some (r.route e)) ∧ Longest r l addr e := by
      obtain ⟨_ | e, ho, -⟩ := hT.findNetwork addr
      · obtain ⟨e, he⟩ : ∃ e, l.find? (fun i => Covers addr (r.route i)) = some e :=
          Option.isSome_iff_exists.mp (by simpa [List.find?_isSome] using hcov)
        exact ⟨e, lookup_first hT ho he, h.first ho e he⟩
      · exact ⟨e, lookup_exact ho, h.exact e ho⟩
    obtain ⟨e, he, hlong⟩ := hfound
    refine ⟨fun _ => ⟨e, he, hlong⟩, iff_of_false ?_ fun hno => ?_⟩
    · rw [he]
      simp
    · exact hno.1 e hlong.mem hlong.covers
  · push Not at hcov
    have hexact := hT.not_found hcov
    refine ⟨fun ⟨i, hi, hci⟩ => absurd hci (hcov i hi), ?_⟩
    rw [lookup_zero hT hexact hcov]
    obtain ⟨_ | e, hz, hspec⟩ := hT.findNetwork 0
    · rw [hz]
      refine iff_of_true rfl ⟨hcov, fun i hi h0 => h.zero hcov ⟨i, hi, h0⟩ hz⟩
    · obtain ⟨he, h0⟩ := hspec e rfl
      rw [hz]
      exact iff_of_false (by simp) fun hno => hno.2 e he h0

omit hT in
/-- Whether an entry has the longest netmask is a matter of its route. -/
theorem Longest.of_route {e' : RibIdx} (h : Longest r l addr e') (he : e ∈ l)
    (hr : r.route e = r.route e') : Longest r l addr e where
  mem := he
  covers := by rw [hr]; exact h.covers
  longest := by rw [hr]; exact h.longest

theorem MostSpecific.serves (h : MostSpecific r l addr) : Serves r l addr where
  exact e he := by
    obtain ⟨o, ho, hspec⟩ := hT.findNetwork addr
    obtain ⟨hmem, hn⟩ := hspec e (Option.some.inj (ho.symm.trans he))
    obtain ⟨e', he', hlong⟩ := h.longest ⟨e, hmem, hT.covers_network hmem hn⟩
    rw [lookup_exact he] at he'
    exact hlong.of_route hmem (Option.some.inj (Option.some.inj he'))
  first hnone e he := by
    have hmem := List.mem_of_find?_eq_some he
    have hcov : Covers addr (r.route e) := by simpa using List.find?_some he
    obtain ⟨e', he', hlong⟩ := h.longest ⟨e, hmem, hcov⟩
    rw [lookup_first hT hnone he] at he'
    exact hlong.of_route hmem (Option.some.inj (Option.some.inj he'))
  zero hno := by
    rintro ⟨i, hi, h0⟩ hz
    have hres := lookup_zero hT (hT.not_found hno) hno
    rw [hz] at hres
    exact (h.enoent.mp hres).2 i hi h0

/-- An entry with the address as its network has the longest netmask: a longer prefix of the address
would be the address too. -/
theorem Table.longest_exact
    (hinj : ∀ i ∈ l, ∀ j ∈ l, (r.route i).rNetwork = (r.route j).rNetwork → i = j) (he : e ∈ l)
    (hn : (r.route e).rNetwork = addr) : Longest r l addr e := by
  have hcov := hT.covers_network he hn
  refine ⟨he, hcov, fun i hi hci => ?_⟩
  by_contra hlt
  have hbits := (hT.contiguous e he).and_eq (hT.contiguous i hi) (UInt32.le_of_lt (UInt32.not_le.mp hlt))
  have hself : addr = (addr &&& (r.route e).rNetmask) := hn.symm.trans hcov
  have hin : (r.route i).rNetwork = addr := by
    calc (r.route i).rNetwork = addr &&& (r.route i).rNetmask := hci
      _ = addr &&& (r.route e).rNetmask &&& (r.route i).rNetmask := by rw [← hself]
      _ = addr &&& (r.route e).rNetmask := by rw [UInt32.and_assoc, hbits]
      _ = addr := hself.symm
  have hie : i = e := hinj i hi e he (hin.trans hn.symm)
  rw [hie] at hlt
  exact hlt (UInt32.le_refl _)

/-- The walk stops at the entry that comes before all others that cover the address. -/
theorem Table.first_eq {x : RibIdx} (hx : Covers addr (r.route x))
    (hbefore : ∀ y ∈ l, Covers addr (r.route y) → y ≠ x → [x, y].Sublist l)
    (he : l.find? (fun i => Covers addr (r.route i)) = some e) : e = x := by
  by_contra hne
  have hcov : Covers addr (r.route e) := by simpa using List.find?_some he
  have hsub := hbefore e (List.mem_of_find?_eq_some he) hcov hne
  have hnodup := hT.valid.nodup
  obtain ⟨-, p, q, rfl, hp⟩ := List.find?_eq_some_iff_append.mp he
  have hxp : x ∉ p := fun hmem => by simpa [hx] using hp x hmem
  have hlast : e ∈ q := by
    obtain ⟨l₁, l₂, hl, h₁, h₂⟩ := List.sublist_append_iff.mp hsub
    cases l₁ with
    | cons y l₁ =>
      obtain rfl : x = y := (List.cons.inj hl).1
      exact absurd (h₁.subset List.mem_cons_self) hxp
    | nil =>
      rw [List.nil_append] at hl
      rw [← hl] at h₂
      exact (List.Sublist.of_cons_of_ne (Ne.symm hne) h₂).subset
        (List.mem_cons_of_mem x List.mem_cons_self)
  exact (List.nodup_cons.mp (List.nodup_append.mp hnodup).2.1).1 hlast

theorem Served.serves (h : Served r l addr) : Serves r l addr where
  exact e he := by
    obtain ⟨o, ho, hspec⟩ := hT.findNetwork addr
    obtain ⟨hmem, hn⟩ := hspec e (Option.some.inj (ho.symm.trans he))
    exact hT.longest_exact h.distinct hmem hn
  first hnone e he := by
    have hmem := List.mem_of_find?_eq_some he
    have hcov : Covers addr (r.route e) := by simpa using List.find?_some he
    rcases h.covered ⟨e, hmem, hcov⟩ with ⟨hord, hex⟩ | ⟨x, hlong, hbefore⟩
    · exact absurd hnone (hT.found hord hex)
    · obtain rfl := hT.first_eq hlong.covers hbefore he
      exact hlong
  zero hno hex := hT.found (h.zero hno hex) hex

/-! ### Tables in order -/

variable (hO : InOrder r l)
include hO

theorem InOrder.holds : ∃ base,
    Holds addrCmp (halfFrom base) (fun i => (r.route i).rNetwork) r.routetree l := by
  obtain ⟨base, hbase⟩ := hO.half
  exact ⟨base, hT.valid, fun i hi => hbase _ (List.mem_map_of_mem hi), hO.sorted⟩

/-- In a tree in order `RB_FIND` finds what is there. -/
theorem InOrder.findNetwork (n : InAddr) : ∃ o, r.findNetwork n = some o ∧
    ∀ i, o = some i ↔ i ∈ l ∧ (r.route i).rNetwork = n := by
  obtain ⟨base, hh⟩ := hO.holds hT
  have hlen : l.length < Rib.fuel := by
    have hlt := hT.length_lt
    omega
  exact hh.find_key (compares_half base) hlen (addrCmp_eq_zero' n)

theorem InOrder.not_found {n : InAddr} (h : r.findNetwork n = some none) :
    ∀ i ∈ l, (r.route i).rNetwork ≠ n := by
  obtain ⟨o, ho, hspec⟩ := hO.findNetwork hT n
  intro i hi hn
  have hsome : r.findNetwork n = some (some i) := by
    rw [ho, (hspec i).mpr ⟨hi, hn⟩]
  rw [h] at hsome
  cases hsome

omit hT in
/-- The first covering entry sorts before the others. -/
theorem InOrder.first_lt (he : l.find? (fun i => Covers addr (r.route i)) = some e) {y : RibIdx}
    (hy : y ∈ l) (hcov : Covers addr (r.route y)) (hne : y ≠ e) :
    r.routeNetworkCmp (r.route e).rNetwork y < 0 := by
  obtain ⟨-, p, q, rfl, hp⟩ := List.find?_eq_some_iff_append.mp he
  have hsorted := (List.pairwise_append.mp hO.sorted).2.1
  rcases List.mem_append.mp hy with hy | hy
  · have hno := hp y hy
    simp [hcov] at hno
  · exact (List.pairwise_cons.mp hsorted).1 y ((List.mem_cons.mp hy).resolve_left hne)

/-- In a tree in order the first covering entry is to have the longest netmask. -/
theorem Serves.longestFirst (h : Serves r l addr) : LongestFirst r l addr := by
  intro hcov
  by_cases hex : ∃ i ∈ l, (r.route i).rNetwork = addr
  · exact Or.inl hex
  · push Not at hex
    have hnone : r.findNetwork addr = some none := by
      obtain ⟨_ | e, ho, hspec⟩ := hT.findNetwork addr
      · exact ho
      · exact absurd (hspec e rfl).2 (hex e (hspec e rfl).1)
    obtain ⟨e, he⟩ : ∃ e, l.find? (fun i => Covers addr (r.route i)) = some e :=
      Option.isSome_iff_exists.mp (by simpa [List.find?_isSome] using hcov)
    exact Or.inr ⟨e, h.first hnone e he, fun y hy hcy hne => hO.first_lt he hy hcy hne⟩

/-- A tree in order is in order for the networks in it. -/
theorem InOrder.orderedFor {n : InAddr} (hn : ∃ i ∈ l, (r.route i).rNetwork = n) :
    OrderedFor r l n := by
  obtain ⟨base, hh⟩ := hO.holds hT
  obtain ⟨i, hi, rfl⟩ := hn
  exact hh.mono (compares_half base) (hh.keys i hi)

/-- In a tree in order the entry that sorts before another comes before it. -/
theorem LongestFirst.served (h : LongestFirst r l addr) : Served r l addr := by
  obtain ⟨base, hh⟩ := hO.holds hT
  refine ⟨fun i hi j hj hij => hh.inj (compares_half base) hi hj hij, fun hcov => ?_,
    fun _ hex => hO.orderedFor hT hex⟩
  rcases h hcov with hex | ⟨x, hlong, hfirst⟩
  · exact Or.inl ⟨hO.orderedFor hT hex, hex⟩
  · refine Or.inr ⟨x, hlong, fun y hy hcy hne => ?_⟩
    obtain ⟨p, q, hsplit⟩ := List.append_of_mem hlong.mem
    have hmem := hy
    have hsorted := hO.sorted
    rw [hsplit] at hy hsorted ⊢
    rcases List.mem_append.mp hy with hy | hy
    · -- each of the two would sort before the other
      have h1 : r.routeNetworkCmp (r.route y).rNetwork x < 0 :=
        (List.pairwise_append.mp hsorted).2.2 y hy x List.mem_cons_self
      have h2 := hfirst y hmem hcy hne
      have h3 := ((compares_half base).swap _ (hh.keys x hlong.mem) _ (hh.keys y hmem)).mp h2
      exact absurd h1 (not_lt.mpr h3.le)
    · have hyq : y ∈ q := (List.mem_cons.mp hy).resolve_left hne
      exact ((List.singleton_sublist.mpr hyq).cons_cons x).trans (List.sublist_append_right p _)

end

/-- **When the search picks the most specific route:** in every table in which the entries serve the
address, and in a table whose tree is in order iff an entry has the address as its network or the covering
entry with the longest netmask sorts first, which is a case of the former. -/
theorem mostSpecific_iff (r : Rib) (l : List RibIdx) (addr : InAddr) (hT : Table r l) :
    (Served r l addr → MostSpecific r l addr) ∧
      (InOrder r l → (MostSpecific r l addr ↔ LongestFirst r l addr) ∧
        (LongestFirst r l addr → Served r l addr)) := by
  have hserved : Served r l addr → MostSpecific r l addr := fun h => (h.serves hT).mostSpecific hT
  refine ⟨hserved, fun hO => ⟨⟨fun h => ?_, fun h => ?_⟩, LongestFirst.served hT hO⟩⟩
  · exact (h.serves hT).longestFirst hT hO
  · exact hserved (h.served hT hO)

/-! ### Two routes -/

/-- The table after two routes have been added, with its tree in order. -/
theorem run_two {x y : IpRoute} (hne : x.rNetwork ≠ y.rNetwork) (hhalf : Half [y.rNetwork, x.rNetwork])
    (hx : Contiguous x.rNetmask ∧ x.rNetwork = (x.rNetwork &&& x.rNetmask))
    (hy : Contiguous y.rNetmask ∧ y.rNetwork = (y.rNetwork &&& y.rNetmask)) :
    ∃ r l, run Rib.init [.update x, .update y] = some r ∧ (l.map r.route).Perm [y, x] ∧ Table r l ∧
      InOrder r l := by
  obtain ⟨base, hbase⟩ := hhalf
  have hhalf₁ : Half ((after [] (.update x)).map IpRoute.rNetwork) :=
    ⟨base, fun n hn => hbase n (List.mem_cons_of_mem _ hn)⟩
  have hwithout : without y.rNetwork [x] = [x] := by simp [without, hne]
  have hafter : after (after [] (.update x)) (.update y) = [y, x] := by
    show y :: without y.rNetwork [x] = [y, x]
    rw [hwithout]
  have hsafe₁ : Safe Rib.init [] (.update x) := by
    have hsize : 1 ≤ xstackIpRibSize := by decide
    refine ⟨hsize, hhalf₁, fun e he => ?_⟩
    have hnone : Rib.init.findNetwork x.rNetwork = some none := rfl
    exact absurd (he.symm.trans hnone) (by simp)
  obtain ⟨-, ret, r₁, l₁, ls₁, hcall, hI₁⟩ := step_inv inv_init ⟨base, by simp⟩ hsafe₁
  have hsafe₂ : Safe r₁ (after [] (.update x)) (.update y) := by
    have hsize : 2 ≤ xstackIpRibSize := by decide
    refine ⟨by rw [hafter]; exact hsize, by rw [hafter]; exact ⟨base, hbase⟩, fun e he => ?_⟩
    obtain ⟨o, ho, hspec⟩ := hI₁.findNetwork hhalf₁ y.rNetwork
    obtain ⟨hmem, hn⟩ := (hspec e).mp (Option.some.inj (ho.symm.trans he))
    obtain ⟨z, hz, hzn⟩ := (hI₁.live_iff y.rNetwork).mpr ⟨e, hmem, hn⟩
    rw [List.mem_singleton.mp hz] at hzn
    exact absurd hzn hne
  obtain ⟨-, ret₂, r, l, ls, hcall₂, hI⟩ := step_inv hI₁ hhalf₁ hsafe₂
  rw [hafter] at hI
  have hroute : ∀ i ∈ l, r.route i = y ∨ r.route i = x := by
    intro i hi
    simpa using hI.routes.mem_iff.mp (List.mem_map_of_mem hi)
  refine ⟨r, l, by simp [run, hcall, hcall₂], hI.routes, ⟨hI.net.valid, fun i hi => ?_, fun i hi => ?_⟩,
    hI.net.sorted, base, fun n hn => ?_⟩
  · rcases hroute i hi with h | h <;> rw [h]
    · exact hy.1
    · exact hx.1
  · rcases hroute i hi with h | h <;> rw [h]
    · exact hy.2
    · exact hx.2
  · obtain ⟨i, hi, rfl⟩ := List.mem_map.mp hn
    refine hbase _ ?_
    rcases hroute i hi with h | h <;> simp [h]

/-- The default route. -/
def defaultRoute : IpRoute := ⟨0, 0, 1, 2, 0⟩

/-- 10.0.0.0/8 and 192.168.0.0/16. -/
def net10 : IpRoute := ⟨0x0a000000, 0xff000000, 0, 3, 0⟩

def net192 : IpRoute := ⟨0xc0a80000, 0xffff0000, 0, 3, 0⟩

theorem route_default : Contiguous defaultRoute.rNetmask ∧
    defaultRoute.rNetwork = (defaultRoute.rNetwork &&& defaultRoute.rNetmask) :=
  ⟨⟨32, by decide, by decide⟩, by decide⟩

/-- Next to a default route, 192.168.0.0/16 has the smaller network as an `int`. The default route alone
covers 8.8.8.8. -/
theorem mostSpecific_iff_private : ∃ r l,
    run Rib.init [.update defaultRoute, .update net192] = some r ∧ Table r l ∧
      MostSpecific r l 0xc0a80001 ∧ MostSpecific r l 0x08080808 := by
  obtain ⟨r, l, hrun, hperm, hT, hO⟩ := run_two (x := defaultRoute) (y := net192) (by decide)
    (half_of_all 0xc0a80000 (by decide +kernel)) route_default ⟨⟨16, by decide, by decide⟩, by decide⟩
  have hroute : ∀ i ∈ l, r.route i = net192 ∨ r.route i = defaultRoute := by
    intro i hi
    simpa using hperm.mem_iff.mp (List.mem_map_of_mem hi)
  obtain ⟨base, hh⟩ := hO.holds hT
  obtain ⟨e, he, hre⟩ := List.mem_map.mp (hperm.mem_iff.mpr List.mem_cons_self)
  obtain ⟨d, hd, hrd⟩ := List.mem_map.mp
    (hperm.mem_iff.mpr (List.mem_cons_of_mem _ List.mem_cons_self))
  refine ⟨r, l, hrun, hT, ((mostSpecific_iff r l 0xc0a80001 hT).2 hO).1.mpr fun _ => Or.inr ?_,
    (mostSpecific_iff r l 0x08080808 hT).1 ⟨?_, fun _ => Or.inr ?_, ?_⟩⟩
  · refine ⟨e, ⟨he, by rw [hre]; decide, fun i hi _ => ?_⟩, fun i hi _ hne => ?_⟩
    · rw [hre]
      rcases hroute i hi with h | h <;> rw [h] <;> decide
    · have hri : r.route i = defaultRoute := by
        refine (hroute i hi).resolve_left fun h => hne ?_
        have hsame : (r.route i).rNetwork = (r.route e).rNetwork := by rw [h, hre]
        exact hh.inj (compares_half base) hi he hsame
      unfold Rib.routeNetworkCmp
      rw [hre, hri]
      decide
  · exact fun i hi j hj hij => hh.inj (compares_half base) hi hj hij
  · refine ⟨d, ⟨hd, by rw [hrd]; decide, fun i hi hci => ?_⟩, fun y hy hcy hne => ?_⟩
    · rcases hroute i hi with h | h <;> rw [h] at hci ⊢
      · exact absurd hci (by decide)
      · rw [hrd]
        exact UInt32.le_refl _
    · rcases hroute y hy with h | h <;> rw [h] at hcy
      · exact absurd hcy (by decide)
      · exact absurd (hh.inj (compares_half base) hy hd (by rw [h, hrd])) hne
  · exact fun hno => absurd (by rw [hrd]; decide) (hno d hd)

/-- Next to a default route, 10.0.0.0/8 is not found. -/
theorem default_taken : ∃ r l, run Rib.init [.update defaultRoute, .update net10] = some r ∧
    Table r l ∧ ¬ MostSpecific r l 0x0a000001 := by
  obtain ⟨r, l, hrun, hperm, hT, hO⟩ := run_two (x := defaultRoute) (y := net10) (by decide)
    (half_of_all 0 (by decide +kernel)) route_default ⟨⟨24, by decide, by decide⟩, by decide⟩
  refine ⟨r, l, hrun, hT, fun h => ?_⟩
  have hroute : ∀ i ∈ l, r.route i = net10 ∨ r.route i = defaultRoute := by
    intro i hi
    simpa using hperm.mem_iff.mp (List.mem_map_of_mem hi)
  obtain ⟨e, he, hre⟩ := List.mem_map.mp (hperm.mem_iff.mpr List.mem_cons_self)
  obtain ⟨d, hd, hrd⟩ := List.mem_map.mp
    (hperm.mem_iff.mpr (List.mem_cons_of_mem _ List.mem_cons_self))
  have hfirst := (h.serves hT).longestFirst hT hO
  rcases hfirst ⟨e, he, by rw [hre]; decide⟩ with ⟨i, hi, hn⟩ | ⟨x, hlong, hbefore⟩
  · rcases hroute i hi with h | h <;> rw [h] at hn <;> exact absurd hn (by decide)
  · have hmask := hlong.longest e he (by rw [hre]; decide)
    have hx : r.route x = net10 := by
      refine (hroute x hlong.mem).resolve_right fun h => ?_
      rw [hre, h] at hmask
      exact absurd hmask (by decide)
    have hne : d ≠ x := by
      rintro rfl
      exact absurd (hrd.symm.trans hx) (by decide)
    have hlt := hbefore d hd (by rw [hrd]; decide) hne
    unfold Rib.routeNetworkCmp at hlt
    rw [hx, hrd] at hlt
    exact absurd hlt (by decide)

end Xstack.Ip.Lookup
