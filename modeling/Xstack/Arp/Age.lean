import Xstack.Arp.Invariant

/-! # The clock and the age of an entry

`eval_timer` takes the seconds since the last tick from the clock, and the ingress thread gives them to
the periodic tasks. The variable `start` is zero before the first tick, not the clock at the start of the
program: the first tick counts the time since the machine was started.

* `evalTimer`, `ticks`: the timer, and the ticks over a sequence of readings.
* `Loop`, `step`: the timer and the ARP cache. `since` is a history variable: the tick before the last
  insertion into a slot.
* `TrueElapsed`, `NotEarly`: the two properties. `Timely`: the condition on the readings.
* `exact_iff`, `notEarly_of_exact`, and from them `elapsed_iff`. -/

namespace Xstack.Arp.Age

open Xstack.Config Xstack.Arp.Cache

/-! ### The timer -/

/-- `struct timespec`. -/
structure Timespec where
  tvSec : ℕ
  tvNsec : Fin (10 ^ 9)
  deriving DecidableEq

/-- The clock in nanoseconds. -/
def Timespec.ns (t : Timespec) : ℤ := t.tvSec * 10 ^ 9 + t.tvNsec.val

/-- Static memory at the start of the program. -/
def zero : Timespec := ⟨0, 0⟩

/-- `delta_time`, as `eval_timer` computes it. -/
def deltaTime (start now : Timespec) : ℤ := wrapInt (now.tvSec - start.tvSec)

/-- `eval_timer`: the return value, and `start` after the call. -/
def evalTimer (start now : Timespec) : Bool × Timespec :=
  if deltaTime start now ≥ xstackPeriodicEventSec then (true, now) else (false, start)

/-- The ticks: the reading, and the `delta_time` that `run_periodic_tasks` gets. -/
def ticks : Timespec → List Timespec → List (Timespec × ℤ)
  | _, [] => []
  | start, now :: rest =>
    if (evalTimer start now).1 then
      (now, deltaTime start now) :: ticks (evalTimer start now).2 rest
    else ticks (evalTimer start now).2 rest

/-! ### The loop -/

/-- What happens in the stack. -/
inductive Event
  /-- `eval_timer`, and the periodic tasks if it is time. -/
  | poll (now : Timespec)
  | insert (ipAddr : InAddr) (haddr : MacAddr) (type : ArpCacheEntryType)
  | remove (ipAddr : InAddr)

/-- The clock readings. -/
def readings (es : List Event) : List Timespec :=
  es.filterMap fun
    | .poll now => some now
    | _ => none

structure Loop where
  start : Timespec
  arp : ArpCache
  /-- The reading of the last tick. -/
  tick : Option Timespec
  /-- The last tick before the last insertion into the slot; without one, the start of the program. -/
  since : Slot → Option Timespec

namespace Loop

def init : Loop := ⟨zero, ArpCache.init, none, fun _ => none⟩

/-- `since` after an insertion. -/
def inserted (s : Loop) (ipAddr : InAddr) : Slot → Option Timespec :=
  if ipAddr = 0 then s.since
  else
    match s.arp.scan ipAddr (List.finRange xstackArpCacheSize) none with
    | none => s.since
    | some entry => Function.update s.since entry s.tick

def step (s : Loop) : Event → Option Loop
  | .poll now =>
    if (evalTimer s.start now).1 then
      (s.arp.arpCacheUpdate (deltaTime s.start now)).map fun arp =>
        { s with start := (evalTimer s.start now).2, arp := arp, tick := some now }
    else some { s with start := (evalTimer s.start now).2 }
  | .insert ipAddr haddr type => (s.arp.arpCacheInsert ipAddr haddr type).map fun r =>
      { s with arp := r.2, since := s.inserted ipAddr }
  | .remove ipAddr => (s.arp.arpCacheRemove ipAddr).map fun arp => { s with arp := arp }

def run (s : Loop) (es : List Event) : Option Loop := es.foldlM step s

end Loop

/-! ### The properties -/

/-- **The ticks see the true time:** up to any tick their `delta_time` add up to the seconds since the
first reading. -/
def TrueElapsed (rs : List Timespec) : Prop :=
  ∀ first ∈ rs.head?, ∀ (pre : List (Timespec × ℤ)) (now : Timespec) (delta : ℤ),
    pre ++ [(now, delta)] <+: ticks zero rs →
    (pre.map Prod.snd).sum + delta = now.tvSec - first.tvSec

/-- **No dynamic entry is freed early:** when a tick frees an entry, more than `ARP_CACHE_AGE_MAX`
seconds have passed since the tick (or the first reading) before it was last inserted. -/
def NotEarly (es : List Event) : Prop :=
  ∀ first ∈ (readings es).head?, ∀ pre now s s', pre ++ [.poll now] <+: es →
    Loop.init.run pre = some s → s.step (.poll now) = some s' →
    ∀ i, 0 ≤ (s.arp.slot i).age → (s'.arp.slot i).age = arpCacheFree →
      arpCacheAgeMax * 10 ^ 9 < now.ns - ((s.since i).getD first).ns

/-- A reading that makes a tick is at most `INT_MAX` seconds after `base`, the tick before it. -/
def Spaced : Timespec → Timespec → List Timespec → Prop
  | _, _, [] => True
  | start, base, now :: rest =>
    if (evalTimer start now).1 then (now.tvSec : ℤ) - base.tvSec ≤ intMax ∧ Spaced now now rest
    else Spaced start base rest

/-- **The condition.** No reading makes a tick, or the first reading is zero, as an `int`, and the ticks
are at most `INT_MAX` seconds apart. -/
def Timely (rs : List Timespec) : Prop :=
  (∀ r ∈ rs, wrapInt r.tvSec < xstackPeriodicEventSec) ∨
    ∃ first ∈ rs.head?, first.tvSec % 2 ^ 32 = 0 ∧ Spaced zero first rs

instance Spaced.decidable : (start base : Timespec) → (rs : List Timespec) →
    Decidable (Spaced start base rs)
  | _, _, [] => isTrue trivial
  | start, base, now :: rest =>
    have := Spaced.decidable now now rest
    have := Spaced.decidable start base rest
    inferInstanceAs (Decidable (if (evalTimer start now).1 then
      (now.tvSec : ℤ) - base.tvSec ≤ intMax ∧ Spaced now now rest else Spaced start base rest))

/-! ### Sums -/

/-- Every tick gets the seconds since `base`, the tick before it. -/
def Exact : Timespec → Timespec → List Timespec → Prop
  | _, _, [] => True
  | start, base, now :: rest =>
    if (evalTimer start now).1 then
      deltaTime start now = now.tvSec - base.tvSec ∧ Exact now now rest
    else Exact start base rest

variable {start base now first : Timespec} {rs rest : List Timespec}

theorem tick_iff : (evalTimer start now).1 = true ↔ xstackPeriodicEventSec ≤ deltaTime start now := by
  unfold evalTimer
  split_ifs with h
  · simpa using h
  · simpa using h

theorem start_of_tick (h : (evalTimer start now).1 = true) : (evalTimer start now).2 = now := by
  have h := tick_iff.mp h
  unfold evalTimer
  rw [if_pos h]

theorem start_of_quiet (h : ¬ (evalTimer start now).1 = true) : (evalTimer start now).2 = start := by
  have h := fun hd => h (tick_iff.mpr hd)
  unfold evalTimer
  rw [if_neg h]

theorem ticks_of_tick (h : (evalTimer start now).1 = true) :
    ticks start (now :: rest) = (now, deltaTime start now) :: ticks now rest := by
  rw [ticks, if_pos h, start_of_tick h]

theorem ticks_of_quiet (h : ¬ (evalTimer start now).1 = true) :
    ticks start (now :: rest) = ticks start rest := by
  rw [ticks, if_neg h, start_of_quiet h]

/-- The sums are right iff every summand is. -/
theorem sums_iff (start base : Timespec) (rs : List Timespec) :
    (∀ (pre : List (Timespec × ℤ)) (now : Timespec) (delta : ℤ),
      pre ++ [(now, delta)] <+: ticks start rs →
        (pre.map Prod.snd).sum + delta = now.tvSec - base.tvSec) ↔ Exact start base rs := by
  induction rs generalizing start base with
  | nil =>
    refine ⟨fun _ => trivial, ?_⟩
    rintro - pre now delta hpre
    have hlen := hpre.length_le
    rw [List.length_append] at hlen
    exact absurd hlen (by simp [ticks])
  | cons now rest ih =>
    unfold Exact
    split_ifs with htick
    · rw [ticks_of_tick htick, ← ih now now]
      constructor
      · intro h
        have h0 : deltaTime start now = now.tvSec - base.tvSec := by
          simpa using h [] now _ ⟨_, rfl⟩
        refine ⟨h0, fun pre r delta hpre => ?_⟩
        have h1 := h ((now, deltaTime start now) :: pre) r delta (List.cons_prefix_cons.mpr ⟨rfl, hpre⟩)
        rw [List.map_cons, List.sum_cons, h0] at h1
        omega
      · rintro ⟨h0, h⟩ pre r delta hpre
        rcases pre with _ | ⟨x, pre⟩
        · obtain ⟨hx, -⟩ := List.cons_prefix_cons.mp hpre
          obtain ⟨rfl, rfl⟩ := Prod.mk.inj hx
          simpa using h0
        · obtain ⟨rfl, htail⟩ := List.cons_prefix_cons.mp hpre
          have h1 := h pre r delta htail
          rw [List.map_cons, List.sum_cons, h0]
          omega
    · rw [ticks_of_quiet htick]
      exact ih start base

/-! ### The condition -/

theorem exact_of_quiet (h : ∀ r ∈ rs, ¬ (evalTimer start r).1 = true) : Exact start base rs := by
  induction rs with
  | nil => trivial
  | cons now rest ih =>
    rw [Exact, if_neg (h now List.mem_cons_self)]
    exact ih fun r hr => h r (List.mem_cons_of_mem now hr)

theorem deltaTime_emod (start now : Timespec) :
    deltaTime start now % 2 ^ 32 = ((now.tvSec : ℤ) - start.tvSec) % 2 ^ 32 := wrapInt_emod _

/-- With another `start` a tick is never right. -/
theorem quiet_of_exact (hne : ¬ start.tvSec % 2 ^ 32 = base.tvSec % 2 ^ 32) (h : Exact start base rs) :
    ∀ r ∈ rs, ¬ (evalTimer start r).1 = true := by
  induction rs with
  | nil => exact fun r hr => absurd hr List.not_mem_nil
  | cons now rest ih =>
    rw [Exact] at h
    split_ifs at h with htick
    · have hmod := deltaTime_emod start now
      rw [h.1] at hmod
      omega
    · intro r hr
      rcases List.mem_cons.mp hr with rfl | hr
      · exact htick
      · exact ih h r hr

theorem tvSec_le {a b : Timespec} (h : a.ns ≤ b.ns) : a.tvSec ≤ b.tvSec := by
  have ha := a.tvNsec.isLt
  have hb := b.tvNsec.isLt
  unfold Timespec.ns at h
  omega

/-- With the right `start` a tick is right iff its `delta_time` fits into an `int`. -/
theorem exact_iff_spaced (hmod : start.tvSec % 2 ^ 32 = base.tvSec % 2 ^ 32)
    (hle : ∀ r ∈ rs, base.ns ≤ r.ns) (hmono : rs.Pairwise fun a b => a.ns ≤ b.ns) :
    Exact start base rs ↔ Spaced start base rs := by
  induction rs generalizing start base with
  | nil => rfl
  | cons now rest ih =>
    obtain ⟨hnow, hrest⟩ := List.pairwise_cons.mp hmono
    rw [Exact, Spaced]
    split_ifs with htick
    · refine and_congr ?_ (ih rfl hnow hrest)
      have hsec := tvSec_le (hle now List.mem_cons_self)
      constructor
      · intro h
        rw [← h]
        exact wrapInt_le _
      · intro h
        have hexact := wrapInt_of_le (show (0 : ℤ) ≤ now.tvSec - base.tvSec by omega) h
        rw [← hexact]
        unfold deltaTime wrapInt
        refine Int.bmod_eq_bmod_iff_bmod_sub_eq_zero.mpr ?_
        exact Int.bmod_eq_zero_of_dvd (by omega)
    · exact ih hmod (fun r hr => hle r (List.mem_cons_of_mem now hr)) hrest

theorem exact_iff (hhead : rs.head? = some first) (hmono : rs.Pairwise fun a b => a.ns ≤ b.ns) :
    Exact zero first rs ↔ Timely rs := by
  have hquiet : (∀ r ∈ rs, ¬ (evalTimer zero r).1 = true) ↔
      ∀ r ∈ rs, wrapInt r.tvSec < xstackPeriodicEventSec := by
    refine forall₂_congr fun r _ => ?_
    rw [tick_iff, not_le, deltaTime]
    simp [zero]
  have hle : ∀ r ∈ rs, first.ns ≤ r.ns := by
    obtain ⟨rest, rfl⟩ := List.head?_eq_some_iff.mp hhead
    intro r hr
    rcases List.mem_cons.mp hr with rfl | hr
    · exact le_rfl
    · exact (List.pairwise_cons.mp hmono).1 r hr
  unfold Timely
  rw [← hquiet]
  constructor
  · intro h
    by_cases hmod : zero.tvSec % 2 ^ 32 = first.tvSec % 2 ^ 32
    · exact Or.inr ⟨first, hhead, hmod.symm, (exact_iff_spaced hmod hle hmono).mp h⟩
    · exact Or.inl (quiet_of_exact hmod h)
  · rintro (h | ⟨first', hhead', hmod, hspaced⟩)
    · exact exact_of_quiet h
    · obtain rfl : first = first' := Option.some.inj (hhead.symm.trans hhead')
      have hzero : zero.tvSec % 2 ^ 32 = first.tvSec % 2 ^ 32 := hmod.symm
      exact (exact_iff_spaced hzero hle hmono).mpr hspaced

/-! ### Ages -/

/-- **The age of a dynamic entry** is at most the time from the tick before its insertion to the last
tick. -/
def AgeInv (first : Timespec) (s : Loop) : Prop :=
  ∀ i, 0 ≤ (s.arp.slot i).age → (s.arp.slot i).age ≤
    ((s.tick.getD first).tvSec : ℤ) - ((s.since i).getD first).tvSec

variable {s s' : Loop} {es : List Event}

theorem ageInv_init (first : Timespec) : AgeInv first Loop.init := by
  intro i _
  show (0 : ℤ) ≤ (first.tvSec : ℤ) - first.tvSec
  omega

theorem AgeInv.insert {ipAddr : InAddr} {haddr : MacAddr} {type : ArpCacheEntryType}
    (h : AgeInv first s) (hs : s.step (.insert ipAddr haddr type) = some s') : AgeInv first s' := by
  obtain ⟨⟨retval, c⟩, hins, rfl⟩ := Option.map_eq_some_iff.mp hs
  have htype : type.toInt ≤ 0 := by
    cases type <;> decide
  intro i hi
  show (c.slot i).age ≤ ((s.tick.getD first).tvSec : ℤ) - ((s.inserted ipAddr i).getD first).tvSec
  replace hi : 0 ≤ (c.slot i).age := hi
  by_cases hzero : ipAddr = 0
  · obtain ⟨-, rfl⟩ : retval = 0 ∧ c = s.arp := by
      simpa [ArpCache.arpCacheInsert, hzero, eq_comm] using hins
    rw [Loop.inserted, if_pos hzero]
    exact h i hi
  · rw [Loop.inserted, if_neg hzero]
    rcases hscan : s.arp.scan ipAddr (List.finRange xstackArpCacheSize) none with _ | e
    · obtain ⟨-, rfl⟩ : retval = -1 ∧ c = s.arp := by
        simpa [ArpCache.arpCacheInsert, hzero, hscan, eq_comm] using hins
      exact h i hi
    · have hslot := Invariant.insert_fills hzero hscan hins
      rw [hslot] at hi ⊢
      dsimp only
      by_cases hie : i = e
      · rw [hie, Function.update_self, Function.update_self]
        dsimp only
        omega
      · rw [Function.update_of_ne hie] at hi ⊢
        rw [Function.update_of_ne hie]
        exact h i hi

theorem AgeInv.remove {ipAddr : InAddr} (h : AgeInv first s)
    (hs : s.step (.remove ipAddr) = some s') : AgeInv first s' := by
  obtain ⟨c, hrem, rfl⟩ := Option.map_eq_some_iff.mp hs
  obtain ⟨entry, -, h1⟩ := Option.bind_eq_some_iff.mp hrem
  obtain ⟨e, -, h2⟩ := Option.bind_eq_some_iff.mp h1
  obtain ⟨c', h3, h4⟩ := Option.bind_eq_some_iff.mp h2
  obtain ⟨head, -, h5⟩ := Option.bind_eq_some_iff.mp h3
  obtain rfl := Option.some.inj h5
  obtain rfl := Option.some.inj h4
  intro i hi
  by_cases hie : i = e
  · have hfree : (Function.update s.arp.slot e { s.arp.slot e with age := arpCacheFree } i).age =
        arpCacheFree := by rw [hie, Function.update_self]
    exact absurd (hi.trans_eq hfree) (by decide)
  · have hsame : Function.update s.arp.slot e { s.arp.slot e with age := arpCacheFree } i =
        s.arp.slot i := Function.update_of_ne hie _ _
    show (Function.update s.arp.slot e { s.arp.slot e with age := arpCacheFree } i).age ≤ _
    rw [hsame]
    exact h i (hi.trans_eq (congrArg ArpCacheEntry.age hsame))

/-- What a tick does to the slots. -/
theorem poll_tick {now : Timespec} (htick : (evalTimer s.start now).1 = true)
    (hs : s.step (.poll now) = some s') : s'.start = now ∧ s'.tick = some now ∧ s'.since = s.since ∧
      ∀ i, s'.arp.slot i = ArpCache.ageSlot (deltaTime s.start now) (s.arp.slot i) := by
  rw [Loop.step, if_pos htick] at hs
  obtain ⟨c, hupd, rfl⟩ := Option.map_eq_some_iff.mp hs
  unfold ArpCache.arpCacheUpdate at hupd
  split_ifs at hupd
  obtain rfl := Option.some.inj hupd
  exact ⟨start_of_tick htick, rfl, rfl, fun _ => rfl⟩

theorem poll_quiet {now : Timespec} (htick : ¬ (evalTimer s.start now).1 = true) :
    s.step (.poll now) = some s := by
  rw [Loop.step, if_neg htick, start_of_quiet htick]

theorem AgeInv.tick (h : AgeInv first s) (htick : (evalTimer s.start now).1 = true)
    (hs : s.step (.poll now) = some s')
    (hdelta : deltaTime s.start now = now.tvSec - (s.tick.getD first).tvSec) : AgeInv first s' := by
  obtain ⟨-, htick', hsince, hslot⟩ := poll_tick htick hs
  intro i hi
  rw [hslot i] at hi ⊢
  rw [htick', hsince]
  unfold ArpCache.ageSlot at hi ⊢
  split_ifs at hi ⊢ with hmax hage
  · have hneg : ¬ 0 ≤ arpCacheFree := by decide
    exact absurd hi hneg
  · have hle := h i hage
    dsimp only [Option.getD_some] at hi ⊢
    omega
  · exact absurd hi hage

/-- A slot that a tick frees is old. -/
theorem AgeInv.freed (h : AgeInv first s) (htick : (evalTimer s.start now).1 = true)
    (hs : s.step (.poll now) = some s') (hle : (s.tick.getD first).ns ≤ now.ns) {i : Slot}
    (hi : 0 ≤ (s.arp.slot i).age) (hfree : (s'.arp.slot i).age = arpCacheFree) :
    arpCacheAgeMax * 10 ^ 9 < now.ns - ((s.since i).getD first).ns := by
  obtain ⟨-, -, -, hslot⟩ := poll_tick htick hs
  have hage := h i hi
  have hdelta := tick_iff.mp htick
  unfold xstackPeriodicEventSec at hdelta
  have hmax : arpCacheAgeMax < (s.arp.slot i).age := by
    by_contra hmax
    rw [hslot i, ArpCache.ageSlot, if_neg hmax, if_pos hi] at hfree
    have hneg : arpCacheFree < 0 := by decide
    dsimp only at hfree
    omega
  have hnsec := ((s.since i).getD first).tvNsec.isLt
  unfold arpCacheAgeMax at hmax ⊢
  unfold Timespec.ns at hle ⊢
  omega

/-! ### Runs -/

/-- What holds before the events `es`: the ticks to come are right, and their readings late. -/
structure Inv (first : Timespec) (s : Loop) (es : List Event) : Prop where
  age : AgeInv first s
  exact : Exact s.start (s.tick.getD first) (readings es)
  late : ∀ r ∈ readings es, (s.tick.getD first).ns ≤ r.ns
  mono : (readings es).Pairwise fun a b => a.ns ≤ b.ns

theorem readings_poll (now : Timespec) (es : List Event) :
    readings (.poll now :: es) = now :: readings es := rfl

theorem Inv.step {e : Event} (h : Inv first s (e :: es)) (hs : s.step e = some s') :
    Inv first s' es := by
  cases e with
  | poll now =>
    have hexact := h.exact
    obtain ⟨hlate, hmono⟩ := List.pairwise_cons.mp h.mono
    rw [readings_poll, Exact] at hexact
    split_ifs at hexact with htick
    · obtain ⟨hstart, htick', -, -⟩ := poll_tick htick hs
      refine ⟨h.age.tick htick hs hexact.1, ?_, ?_, hmono⟩
      · rw [hstart, htick']
        exact hexact.2
      · rw [htick']
        exact hlate
    · obtain rfl := Option.some.inj ((poll_quiet htick).symm.trans hs)
      exact ⟨h.age, hexact, fun r hr => h.late r (List.mem_cons_of_mem now hr), hmono⟩
  | insert ipAddr haddr type =>
    have hage := h.age.insert hs
    obtain ⟨r, -, rfl⟩ := Option.map_eq_some_iff.mp hs
    exact ⟨hage, h.exact, h.late, h.mono⟩
  | remove ipAddr =>
    have hage := h.age.remove hs
    obtain ⟨c, -, rfl⟩ := Option.map_eq_some_iff.mp hs
    exact ⟨hage, h.exact, h.late, h.mono⟩

theorem Inv.run {pre : List Event} (h : Inv first s (pre ++ es)) (hs : s.run pre = some s') :
    Inv first s' es := by
  induction pre generalizing s with
  | nil =>
    obtain rfl : s = s' := by simpa [Loop.run] using hs
    exact h
  | cons e pre ih =>
    rw [Loop.run, List.foldlM_cons] at hs
    obtain ⟨s₁, h1, h2⟩ := Option.bind_eq_some_iff.mp hs
    exact ih (h.step h1) h2

theorem inv_init (hhead : (readings es).head? = some first)
    (hmono : (readings es).Pairwise fun a b => a.ns ≤ b.ns)
    (hexact : Exact zero first (readings es)) : Inv first Loop.init es := by
  refine ⟨ageInv_init first, hexact, ?_, hmono⟩
  obtain ⟨rest, hrs⟩ := List.head?_eq_some_iff.mp hhead
  rw [hrs] at hmono ⊢
  intro r hr
  rcases List.mem_cons.mp hr with rfl | hr
  · exact le_rfl
  · exact (List.pairwise_cons.mp hmono).1 r hr

/-- When the ticks see the true time, no entry is freed early. -/
theorem notEarly_of_exact (hmono : (readings es).Pairwise fun a b => a.ns ≤ b.ns)
    (h : ∀ first ∈ (readings es).head?, Exact zero first (readings es)) : NotEarly es := by
  rintro first hfirst pre now s s' ⟨post, rfl⟩ hrun hs i hi hfree
  rw [List.append_assoc] at hmono h hfirst
  have hinv := (inv_init hfirst hmono (h first hfirst)).run hrun
  have hlate := hinv.late now List.mem_cons_self
  by_cases htick : (evalTimer s.start now).1 = true
  · exact hinv.age.freed htick hs hlate hi hfree
  · obtain rfl := Option.some.inj ((poll_quiet htick).symm.trans hs)
    have hneg : ¬ 0 ≤ arpCacheFree := by decide
    exact absurd (hi.trans_eq hfree) hneg

theorem trueElapsed_iff (hmono : rs.Pairwise fun a b => a.ns ≤ b.ns) :
    TrueElapsed rs ↔ rs = [] ∨ Timely rs := by
  rcases hhead : rs.head? with _ | first
  · have hnil := List.head?_eq_none_iff.mp hhead
    refine iff_of_true ?_ (Or.inl hnil)
    intro first hfirst
    rw [hhead] at hfirst
    cases hfirst
  · have hne : rs ≠ [] := by
      rintro rfl
      cases hhead
    have hiff : TrueElapsed rs ↔ Exact zero first rs := by
      rw [← sums_iff]
      unfold TrueElapsed
      rw [hhead]
      simp only [Option.mem_some, forall_eq']
    rw [hiff, exact_iff hhead hmono]
    simp [hne]

/-- **The periodic tasks see the true time iff the clock starts at zero:** for every sequence of events
with readings that do not decrease, the `delta_time` of the ticks add up to the time since the first
reading, and no dynamic entry is freed early, iff the readings are timely. -/
theorem elapsed_iff (es : List Event) (hmono : (readings es).Pairwise fun a b => a.ns ≤ b.ns) :
    TrueElapsed (readings es) ∧ NotEarly es ↔ Timely (readings es) := by
  have htimely : Timely (readings es) ↔ readings es = [] ∨ Timely (readings es) := by
    refine ⟨Or.inr, ?_⟩
    rintro (hnil | h)
    · rw [hnil]
      exact Or.inl fun r hr => absurd hr List.not_mem_nil
    · exact h
  rw [htimely, ← trueElapsed_iff hmono]
  refine ⟨fun h => h.1, fun h => ⟨h, notEarly_of_exact hmono fun first hfirst => ?_⟩⟩
  exact (sums_iff zero first (readings es)).mp (h first hfirst)

/-- The program starts in the first second after the machine. -/
theorem elapsed_iff_boot : TrueElapsed [⟨0, 5⟩, ⟨12, 0⟩, ⟨25, 7⟩] ∧
    NotEarly [.poll ⟨0, 5⟩, .insert 1 (fun _ => 0) .dyn, .poll ⟨12, 0⟩, .poll ⟨25, 7⟩] :=
  (elapsed_iff [.poll ⟨0, 5⟩, .insert 1 (fun _ => 0) .dyn, .poll ⟨12, 0⟩, .poll ⟨25, 7⟩]
    (by decide)).mpr (Or.inr ⟨⟨0, 5⟩, rfl, rfl, by decide⟩)

/-- The machine is up for 100000 seconds when the program starts: the first tick adds them to the age
of an entry that is there, and the second, ten seconds later, frees it. -/
theorem uptime_counted : ¬ TrueElapsed [⟨100000, 0⟩, ⟨100010, 0⟩] ∧
    ¬ NotEarly [.insert 1 (fun _ => 0) .dyn, .poll ⟨100000, 0⟩, .poll ⟨100010, 0⟩] := by
  constructor
  · intro h
    have h0 := h ⟨100000, 0⟩ rfl [] ⟨100000, 0⟩ 100000 ⟨[(⟨100010, 0⟩, 10)], by decide⟩
    exact absurd h0 (by decide)
  · intro h
    have hrun : ((Loop.init.run [.insert 1 (fun _ => 0) .dyn, .poll ⟨100000, 0⟩]).bind fun s =>
        (s.step (.poll ⟨100010, 0⟩)).map fun s' =>
          ((s.arp.slot 0).age, (s'.arp.slot 0).age, s.since 0)) = some (100000, -2, none) := by
      decide +kernel
    obtain ⟨s, hs, h1⟩ := Option.bind_eq_some_iff.mp hrun
    obtain ⟨s', hs', h2⟩ := Option.map_eq_some_iff.mp h1
    obtain ⟨hage, h3⟩ := Prod.mk.inj h2
    obtain ⟨hfree, hsince⟩ := Prod.mk.inj h3
    have h0 := h ⟨100000, 0⟩ rfl _ ⟨100010, 0⟩ s s' ⟨[], rfl⟩ hs hs' 0 (by rw [hage]; decide) hfree
    rw [hsince] at h0
    exact absurd h0 (by decide)

end Xstack.Arp.Age
