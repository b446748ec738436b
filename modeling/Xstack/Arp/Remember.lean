import Xstack.Net.State

/-! # What the ARP cache remembers

From start-up every slot has age zero, which is `ARP_CACHE_DYN` and not `ARP_CACHE_FREE`:
`arp_cache_insert` takes slot 0 for every new address as long as the entry there is dynamic, and
`arp_cache_get_haddr` does not return static entries at all. So the cache remembers what was
inserted iff all inserts are dynamic and of one address (`remembers_iff`).

`AllZero`, `insert_zero`: the shape of the cache while only dynamic entries are inserted. -/

namespace Xstack.Arp.Remember

open Xstack.Config Xstack.Lib.Program Xstack.Tree.Macros Xstack.Tree.Insert Xstack.Tree.Find
open Xstack.Arp.Cache Xstack.Net.State

/-- The arguments of `arp_cache_insert`. -/
structure Insert where
  ipAddr : InAddr
  haddr : MacAddr
  type : ArpCacheEntryType

/-- The calls of a list, with their results. -/
def insertAll : List Insert → Act (List ℤ)
  | [] => pure []
  | i :: is => do
    let r ← arpCacheInsert i.ipAddr i.haddr i.type
    let rs ← insertAll is
    return r :: rs

/-- The hardware address of the latest insert for `ipAddr`. -/
def latest (is : List Insert) (ipAddr : InAddr) : Option MacAddr :=
  (is.reverse.find? fun i => i.ipAddr == ipAddr).map Insert.haddr

/-- All calls return 0, and then every address mentioned is found. -/
def Remembered (env : Env) (s : Stack) (is : List Insert) : Prop :=
  ∃ t, insertAll is s = (some (List.replicate is.length 0), t) ∧
    ∀ ipAddr haddr, ipAddr ≠ 0 → latest is ipAddr = some haddr →
      ∀ iface, ∃ u, arpCacheGetHaddr env iface ipAddr t = (some (some haddr), u)

/-- **The cache remembers,** at every point of the sequence. -/
def Remembers (env : Env) (s : Stack) (is : List Insert) : Prop :=
  ∀ k ≤ is.length, Remembered env s (is.take k)

/-- The condition: all inserts (of non-zero addresses) are dynamic, and of one address. -/
def OneDynamic (is : List Insert) : Prop :=
  (∀ i ∈ is, i.ipAddr ≠ 0 → i.type = .dyn) ∧
    ∀ i ∈ is, ∀ j ∈ is, i.ipAddr ≠ 0 → j.ipAddr ≠ 0 → i.ipAddr = j.ipAddr

variable {c c' : ArpCache} {ipAddr : InAddr} {haddr : MacAddr} {type : ArpCacheEntryType}

/-! ### One insert -/

/-- The cache as long as all entries are dynamic: at most slot 0 is in use. -/
structure AllZero (c : ArpCache) : Prop where
  age : ∀ i, (c.slot i).age = 0
  addr : ∀ i, i ≠ 0 → (c.slot i).ipAddr = 0
  tree : c.head = Rb.init ∨ Valid c.head [0]

theorem allZero_init : AllZero ArpCache.init := ⟨fun _ => rfl, fun _ _ => rfl, Or.inl rfl⟩

theorem scan_zero (hc : AllZero c) (hip : ipAddr ≠ 0) :
    c.scan ipAddr (List.finRange xstackArpCacheSize) none = some 0 := by
  have hbetter : ∀ i, c.better none i = some i := by
    intro i
    simp [ArpCache.better, hc.age, arpCacheFree, ArpCacheEntryType.toInt]
  have hkeep : ∀ i, c.better (some 0) i = some 0 := by
    intro i
    simp [ArpCache.better, hc.age, arpCacheFree, ArpCacheEntryType.toInt]
  have hrest : ∀ its : List Slot, (∀ i ∈ its, i ≠ 0) → c.scan ipAddr its (some 0) = some 0 := by
    intro its hits
    induction its with
    | nil => rfl
    | cons i its ih =>
      have hne : (c.slot i).ipAddr ≠ ipAddr := by
        rw [hc.addr i (hits i List.mem_cons_self)]
        exact hip.symm
      rw [ArpCache.scan, if_neg hne, hkeep]
      exact ih fun j hj => hits j (List.mem_cons_of_mem i hj)
  have hall : List.finRange xstackArpCacheSize = 0 :: (List.finRange 49).map Fin.succ :=
    List.finRange_succ
  rw [hall, ArpCache.scan]
  split_ifs with h
  · rfl
  · rw [hbetter]
    refine hrest _ fun i hi => ?_
    obtain ⟨j, -, rfl⟩ := List.mem_map.mp hi
    exact Fin.succ_ne_zero j

theorem remove_zero (hc : AllZero c) :
    ∃ c', c.removeDyn 0 = some c' ∧ c'.slot = c.slot ∧ Valid c'.head [] := by
  have hage : (c.slot 0).age ≥ 0 := (hc.age 0).ge
  have hrem : ∀ head, c.head.rbRemove ArpCache.fuel 0 = some head → c.removeDyn 0 =
      some { c with head := head, rbLog := c.rbLog ++ [.remove c.head 0] } := by
    intro head h
    rw [ArpCache.removeDyn, if_pos hage, ArpCache.remove, h]
    rfl
  rcases hc.tree with h | h
  · exact ⟨_, hrem Rb.init (by rw [h]; rfl), rfl, valid_init⟩
  · obtain ⟨head, h1, h2, -⟩ := valid_remove h (by decide : [(0 : Slot)].length ≤ ArpCache.fuel)
      (List.mem_singleton_self 0)
    exact ⟨_, hrem head h1, rfl, h2⟩

/-- **Every insert takes slot 0.** -/
theorem insert_zero (haddr : MacAddr) (type : ArpCacheEntryType) (hc : AllZero c) (hip : ipAddr ≠ 0) :
    ∃ c', c.arpCacheInsert ipAddr haddr type = some (0, c') ∧
      c'.slot = Function.update c.slot 0 ⟨ipAddr, haddr, type.toInt⟩ ∧ Valid c'.head [0] := by
  obtain ⟨c1, h1, h2, h3⟩ := remove_zero hc
  obtain ⟨head, p, q, h4, h5, h6, -, -⟩ := valid_insert
    ((c1.fill 0 ipAddr haddr type).arpCacheCmp ipAddr) (x := (0 : Slot)) h3
    (by decide : ([] : List Slot).length < ArpCache.fuel) (by simp) (by simp)
  obtain ⟨rfl, rfl⟩ : p = [] ∧ q = [] := by simpa using h6.symm
  have h4 : (c1.fill 0 ipAddr haddr type).head.rbInsert ArpCache.fuel
      ((c1.fill 0 ipAddr haddr type).arpCacheCmp ipAddr) 0 = some (head, none) := h4
  have hplace : c1.place 0 ipAddr haddr type = some { c1.fill 0 ipAddr haddr type with
      head := head, rbLog := c1.rbLog ++ [.insert c1.head 0 (c1.slot 0).ipAddr ipAddr] } := by
    simp only [ArpCache.place, h4]
    rfl
  refine ⟨{ c1.fill 0 ipAddr haddr type with head := head, rbLog := c1.rbLog ++
    [.insert c1.head 0 (c1.slot 0).ipAddr ipAddr] }, ?_, ?_, h5⟩
  · rw [ArpCache.arpCacheInsert, if_neg hip, scan_zero hc hip]
    simp only [h1, hplace, Option.bind_eq_bind, Option.bind_some]
    rfl
  · rw [← h2]
    rfl

/-! ### The search -/

/-- With only slot 0 in the tree, only its address is found. -/
theorem cachedHaddr_single (hv : Valid c.head [0]) (ipAddr : InAddr) :
    cachedHaddr c ipAddr = some (if (c.slot 0).ipAddr = ipAddr ∧ (c.slot 0).age ≥ 0 then
      some (c.slot 0).haddr else none) := by
  obtain ⟨r, h1, h2, h3⟩ := valid_find (c.arpCacheCmp ipAddr) hv
    (by decide : [(0 : Slot)].length < ArpCache.fuel)
  have hcmp : c.arpCacheCmp ipAddr 0 = 0 ↔ (c.slot 0).ipAddr = ipAddr :=
    addrCmp_eq_zero.trans eq_comm
  have h1 : c.arpCacheGetEntry ipAddr = some r := h1
  by_cases h : (c.slot 0).ipAddr = ipAddr
  · obtain _ | i := r
    · exact absurd rfl (h3 (List.pairwise_singleton _ _) ⟨0, List.mem_singleton_self 0, hcmp.mpr h⟩)
    · obtain rfl := List.mem_singleton.mp (h2 i rfl).1
      simp [cachedHaddr, h1, h]
  · obtain _ | i := r
    · simp [cachedHaddr, h1, h]
    · obtain ⟨hi, h0⟩ := h2 i rfl
      obtain rfl := List.mem_singleton.mp hi
      exact absurd (hcmp.mp h0) h

/-- What `arp_cache_get_haddr` returns is what it finds in the cache. -/
theorem getHaddr_eq_some {env : Env} {s t : Stack} {iface : InAddr} :
    arpCacheGetHaddr env iface ipAddr s = (some (some haddr), t) ↔
      cachedHaddr s.arp ipAddr = some (some haddr) ∧ t = s := by
  unfold arpCacheGetHaddr
  rw [get_bind]
  rcases hc : cachedHaddr s.arp ipAddr with _ | _ | mac
  · rw [ofOption_none, bind_of_none (stuck_apply s)]
    simp
  · rw [ofOption_some, bind_pure]
    dsimp only
    -- what follows returns -1 or not at all
    rcases hr : ipRouteFindByIface iface s with ⟨_ | _ | route, u⟩
    · rw [bind_of_none hr]
      simp
    · rw [bind_of_some hr]
      simp
    · rw [bind_of_some hr]
      dsimp only
      rcases hq : arpRequest env route.rIfaceHandle route.rIface ipAddr u with ⟨_ | retval, v⟩
      · rw [bind_of_none hq]
        simp
      · rw [bind_of_some hq]
        split_ifs
        · simp [setErrno]
        · simp
  · rw [ofOption_some, bind_pure]
    simp [eq_comm]

/-! ### Sequences -/

/-- The stack with another ARP cache. -/
def withArp (s : Stack) (c : ArpCache) : Stack := { s with arp := c }

theorem act_insert {s : Stack} (h : c.arpCacheInsert ipAddr haddr type = some (0, c')) :
    arpCacheInsert ipAddr haddr type (withArp s c) = (some 0, withArp s c') := by
  have h : (withArp s c).arp.arpCacheInsert ipAddr haddr type = some (0, c') := h
  unfold arpCacheInsert
  rw [get_bind, h, ofOption_some, bind_pure]
  rfl

theorem insertAll_append {t u : Stack} {r' : List ℤ} {js : List Insert}
    (h' : insertAll js t = (some r', u)) : ∀ {is : List Insert} {s : Stack} {r : List ℤ},
    insertAll is s = (some r, t) → insertAll (is ++ js) s = (some (r ++ r'), u)
  | [], s, r, h => by
    obtain ⟨rfl, rfl⟩ : [] = r ∧ s = t := by simpa [insertAll] using h
    exact h'
  | i :: is, s, r, h => by
    rw [insertAll] at h
    rcases hi : arpCacheInsert i.ipAddr i.haddr i.type s with ⟨_ | a, v⟩
    · rw [bind_of_none hi] at h
      simp at h
    · rw [bind_of_some hi] at h
      rcases his : insertAll is v with ⟨_ | b, w⟩
      · rw [bind_of_none his] at h
        simp at h
      · rw [bind_of_some his] at h
        obtain ⟨h1, h2⟩ : a :: b = r ∧ w = t := by simpa using h
        subst h1 h2
        rw [List.cons_append, insertAll, bind_of_some hi, bind_of_some (insertAll_append h' his)]
        rfl

theorem insertAll_single {s : Stack} {x : Insert}
    (h : c.arpCacheInsert x.ipAddr x.haddr x.type = some (0, c')) :
    insertAll [x] (withArp s c) = (some [0], withArp s c') := by
  rw [insertAll, bind_of_some (act_insert h)]
  rfl

variable {env : Env} {s : Stack} {is : List Insert} {x : Insert}

/-- The stack at start-up, as far as the ARP cache goes. -/
def start (s : Stack) : Stack := withArp s ArpCache.init

theorem replicate_snoc (is : List Insert) (x : Insert) :
    List.replicate is.length (0 : ℤ) ++ [0] = List.replicate (is ++ [x]).length 0 := by
  rw [List.length_append, List.length_singleton, List.replicate_succ']

/-- One more insert after dynamic ones. -/
theorem insertAll_snoc (h : insertAll is (start s) =
      (some (List.replicate is.length 0), withArp s c)) (hc : AllZero c)
    (hx : x.ipAddr ≠ 0) : ∃ c', insertAll (is ++ [x]) (start s) =
        (some (List.replicate (is ++ [x]).length 0), withArp s c') ∧
      c'.slot = Function.update c.slot 0 ⟨x.ipAddr, x.haddr, x.type.toInt⟩ ∧ Valid c'.head [0] := by
  obtain ⟨c', h1, h2, h3⟩ := insert_zero x.haddr x.type hc hx
  refine ⟨c', ?_, h2, h3⟩
  rw [← replicate_snoc]
  exact insertAll_append (insertAll_single h1) h

/-- **While all inserts are dynamic,** the cache has the last of them in slot 0, and nothing else. -/
theorem insertAll_dyn (hdyn : ∀ i ∈ is, i.ipAddr ≠ 0 → i.type = .dyn) :
    ∃ c, insertAll is (start s) =
        (some (List.replicate is.length 0), withArp s c) ∧ AllZero c ∧
      ∀ j, is.reverse.find? (fun i => i.ipAddr != 0) = some j →
        c.slot 0 = ⟨j.ipAddr, j.haddr, 0⟩ ∧ Valid c.head [0] := by
  induction is using List.reverseRecOn with
  | nil => exact ⟨ArpCache.init, rfl, allZero_init, by simp⟩
  | append_singleton is x ih =>
    obtain ⟨c, h1, h2, h3⟩ := ih fun i hi => hdyn i (List.mem_append_left _ hi)
    rw [List.reverse_append, List.reverse_singleton, List.singleton_append]
    by_cases hx : x.ipAddr = 0
    · have h0 : c.arpCacheInsert x.ipAddr x.haddr x.type = some (0, c) := by
        rw [ArpCache.arpCacheInsert, if_pos hx]
      refine ⟨c, ?_, h2, fun j hj => h3 j ?_⟩
      · rw [← replicate_snoc]
        exact insertAll_append (insertAll_single h0) h1
      · rwa [List.find?_cons_of_neg (by simpa using hx)] at hj
    · obtain ⟨c', h4, h5, h6⟩ := insertAll_snoc h1 h2 hx
      have htype : x.type = .dyn := hdyn x (by simp) hx
      have hage : ∀ i, (c'.slot i).age = 0 := by
        intro i
        rw [h5]
        by_cases hi : i = 0
        · subst hi
          rw [Function.update_self, htype]
          rfl
        · rw [Function.update_of_ne hi, h2.age]
      refine ⟨c', h4, ⟨hage, fun i hi => ?_, Or.inr h6⟩, fun j hj => ?_⟩
      · rw [h5, Function.update_of_ne hi, h2.addr i hi]
      · rw [List.find?_cons_of_pos (by simpa using hx)] at hj
        obtain rfl := Option.some.inj hj
        refine ⟨?_, h6⟩
        rw [h5, Function.update_self, htype]
        rfl

theorem find_congr {p q : Insert → Bool} (h : ∀ i ∈ is, p i = q i) : is.find? p = is.find? q := by
  induction is with
  | nil => rfl
  | cons i is ih =>
    rw [List.find?_cons, List.find?_cons, h i List.mem_cons_self,
      ih fun j hj => h j (List.mem_cons_of_mem i hj)]

theorem remembered_of_oneDynamic (h : OneDynamic is) : Remembered env (start s) is := by
  obtain ⟨c, h1, -, h3⟩ := insertAll_dyn (s := s) h.1
  refine ⟨_, h1, fun ipAddr haddr hip hlat iface => ⟨_, getHaddr_eq_some.mpr ⟨?_, rfl⟩⟩⟩
  obtain ⟨j, hj, rfl⟩ := Option.map_eq_some_iff.mp hlat
  have hjmem : j ∈ is := List.mem_reverse.mp (List.mem_of_find?_eq_some hj)
  have hjip : j.ipAddr = ipAddr := by simpa using List.find?_some hj
  have hsame : is.reverse.find? (fun i => i.ipAddr != 0) = some j := by
    rw [← hj]
    refine find_congr fun i hi => ?_
    by_cases hi0 : i.ipAddr = 0
    · simp [hi0, hip.symm]
    · have := h.2 i (List.mem_reverse.mp hi) j hjmem hi0 (by rw [hjip]; exact hip)
      simp [this, hjip, hip]
  obtain ⟨h4, h5⟩ := h3 j hsame
  show cachedHaddr c ipAddr = _
  rw [cachedHaddr_single h5, h4]
  simp [hjip]

/-- An address that was inserted has a latest insert. -/
theorem exists_latest {i : Insert} (hi : i ∈ is) : ∃ haddr, latest is i.ipAddr = some haddr := by
  have hs : (is.reverse.find? fun j => j.ipAddr == i.ipAddr).isSome := by
    rw [List.find?_isSome]
    exact ⟨i, List.mem_reverse.mpr hi, by simp⟩
  obtain ⟨j, hj⟩ := Option.isSome_iff_exists.mp hs
  exact ⟨j.haddr, by rw [latest, hj]; rfl⟩

theorem oneDynamic_snoc (h : OneDynamic is) (hr : Remembered env (start s) (is ++ [x])) :
    OneDynamic (is ++ [x]) := by
  by_cases hx : x.ipAddr = 0
  · refine ⟨?_, ?_⟩
    · intro i hi hi0
      rcases List.mem_append.mp hi with hi | hi
      · exact h.1 i hi hi0
      · exact absurd hx (List.mem_singleton.mp hi ▸ hi0)
    · intro i hi j hj hi0 hj0
      rcases List.mem_append.mp hi with hi | hi
      · rcases List.mem_append.mp hj with hj | hj
        · exact h.2 i hi j hj hi0 hj0
        · exact absurd hx (List.mem_singleton.mp hj ▸ hj0)
      · exact absurd hx (List.mem_singleton.mp hi ▸ hi0)
  · obtain ⟨c, h1, h2, -⟩ := insertAll_dyn (s := s) h.1
    obtain ⟨c', h4, h5, h6⟩ := insertAll_snoc h1 h2 hx
    obtain ⟨t, h7, h8⟩ := hr
    obtain rfl : withArp s c' = t := congrArg Prod.snd (h4.symm.trans h7)
    have hslot : c'.slot 0 = ⟨x.ipAddr, x.haddr, x.type.toInt⟩ := by rw [h5, Function.update_self]
    have hfound : ∀ i ∈ is ++ [x], i.ipAddr ≠ 0 →
        x.ipAddr = i.ipAddr ∧ x.type.toInt ≥ 0 := by
      intro i hi hi0
      obtain ⟨mac, hmac⟩ := exists_latest hi
      obtain ⟨u, hu⟩ := h8 i.ipAddr mac hi0 hmac 0
      have hc : cachedHaddr c' i.ipAddr = some (some mac) := (getHaddr_eq_some.mp hu).1
      rw [cachedHaddr_single h6, hslot] at hc
      by_contra hn
      rw [if_neg hn] at hc
      exact absurd hc (by simp)
    have hxdyn : x.type = .dyn := by
      have := (hfound x (by simp) hx).2
      cases hty : x.type with
      | dyn => rfl
      | static => simp [hty, ArpCacheEntryType.toInt] at this
      | free => simp [hty, ArpCacheEntryType.toInt] at this
    refine ⟨fun i hi hi0 => ?_, fun i hi j hj hi0 hj0 => ?_⟩
    · rcases List.mem_append.mp hi with hi | hi
      · exact h.1 i hi hi0
      · rw [List.mem_singleton.mp hi, hxdyn]
    · exact (hfound i hi hi0).1.symm.trans (hfound j hj hj0).1

/-- **From start-up the ARP cache remembers what is inserted iff all inserts are dynamic and of one
address.** -/
theorem remembers_iff (env : Env) (s : Stack) (is : List Insert) :
    Remembers env (start s) is ↔ OneDynamic is := by
  constructor
  · intro h
    have hk : ∀ k ≤ is.length, OneDynamic (is.take k) := by
      intro k
      induction k with
      | zero => exact fun _ => ⟨by simp, by simp⟩
      | succ k ih =>
        intro hk
        have hr := h (k + 1) hk
        rw [List.take_succ_eq_append_getElem (by omega)] at hr ⊢
        exact oneDynamic_snoc (ih (by omega)) hr
    have := hk is.length le_rfl
    rwa [List.take_length] at this
  · intro h k _
    refine remembered_of_oneDynamic ⟨fun i hi => h.1 i (List.mem_of_mem_take hi), ?_⟩
    exact fun i hi j hj => h.2 i (List.mem_of_mem_take hi) j (List.mem_of_mem_take hj)

/-- Two dynamic inserts from start-up: the second one takes the slot of the first. -/
theorem second_displaces : ¬ Remembered ⟨.ofSign, fun _ => 0⟩ (Stack.init fun _ => 0)
    [⟨5, fun _ => 1, .dyn⟩, ⟨6, fun _ => 2, .dyn⟩] := by
  intro h
  have h5 : OneDynamic [⟨5, fun _ => 1, .dyn⟩] := ⟨by simp, by simp⟩
  have h := (oneDynamic_snoc (s := Stack.init fun _ => 0) h5 h).2 ⟨5, fun _ => 1, .dyn⟩ (by simp)
    ⟨6, fun _ => 2, .dyn⟩ (by simp)
  exact absurd (h (by decide) (by decide)) (by decide)

end Xstack.Arp.Remember
