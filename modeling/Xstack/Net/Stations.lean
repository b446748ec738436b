import Xstack.Arp.Invariant
import Xstack.Net.Daemon
import Xstack.Net.Fcs

/-! # What the daemon sends, and to whom

In every run of the daemon the frames given to `sendto` are well formed, have the address of the interface
as their source, and carry ARP or IPv4. A frame is broadcast, or its receiver is a station that the daemon
has heard of: the sender of a frame it received, or of the message in an ARP frame (`run_emits`). -/

namespace Xstack.Net.Stations

open Xstack.Config Xstack.Lib.Bytes Xstack.Lib.Program Xstack.Ether Xstack.Arp.Cache
open Xstack.Net.State Xstack.Net.Input Xstack.Net.Fcs Xstack.Net.Daemon

/-- **A frame of the interface `mac`** that is broadcast, or goes to one of the stations `K`. -/
def Emitted (mac : MacAddr) (K : Set MacAddr) (frame : List UInt8) : Prop :=
  ∃ dst proto data, (dst = macBroadcastAddr ∨ dst ∈ K) ∧
    (proto = etherProtoArp ∨ proto = etherProtoIpv4) ∧ data.length ≤ etherDataLen ∧
    WellFormed dst mac proto data frame

/-- The stations the daemon knows from the start: its own interface, and the address of the slots of the
ARP cache that were never filled. -/
def atBoot (mac : MacAddr) : Set MacAddr := {mac, fun _ => 0}

/-- The stations that a turn of the daemon hears of. -/
def stationsOf (p : Process) (turn : Turn) : Set MacAddr :=
  match p.rxBuffer with
  | none => ∅
  | some rxBuffer => turn.stations p.stack rxBuffer

/-- The stations that a run hears of. -/
def heard (env : Env) (setup : Setup) : Process → List Turn → Set MacAddr
  | _, [] => ∅
  | p, turn :: turns => stationsOf p turn ∪ heard env setup (p.step env setup turn) turns

variable {env : Env} {setup : Setup} {mac : MacAddr} {K K' : Set MacAddr} {old : List (List UInt8)} {s : Stack}

theorem Emitted.mono {frame : List UInt8} (h : Emitted mac K frame) (hk : K ⊆ K') :
    Emitted mac K' frame := by
  obtain ⟨dst, proto, data, hdst, h⟩ := h
  exact ⟨dst, proto, data, hdst.imp_right fun h => hk h, h⟩

/-- The cache has stations of `K` only, and so have the frames behind `old`. -/
structure Within (mac : MacAddr) (K : Set MacAddr) (old : List (List UInt8)) (s : Stack) : Prop where
  source : s.mac = mac
  cached : ∀ i, (s.arp.slot i).haddr ∈ K
  frames : ∃ new, s.tx = old ++ new ∧ ∀ frame ∈ new, Emitted mac K frame

theorem Within.widen (h : Within mac K old s) (hk : K ⊆ K') : Within mac K' s.tx s where
  source := h.source
  cached i := hk (h.cached i)
  frames := ⟨[], by simp, by simp⟩

/-- **The stations of the cache and of the frames stay within `K`.** -/
theorem within_invariant (env : Env) (mac : MacAddr) (K : Set MacAddr) (old : List (List UInt8)) :
    Invariant env (Within mac K old) (Tells fun _ haddr => haddr ∈ K) (fun _ haddr => haddr ∈ K)
      fun _ _ _ => True where
  tells _ _ _ h := h
  other s t hmac harp _ htx _ hs := ⟨hmac.trans hs.source, by rw [harp]; exact hs.cached,
    by rw [htx]; exact hs.frames⟩
  insert s ipAddr haddr type r arp hk hins hs := by
    refine ⟨hs.source, fun i => ?_, hs.frames⟩
    show (arp.slot i).haddr ∈ K
    rcases Arp.Invariant.insert_slots hins with hslot | ⟨e, -, hslot⟩
    · rw [hslot]
      exact hs.cached i
    · rw [hslot]
      by_cases hi : i = e
      · rw [hi, Function.update_self]
        exact hk
      · rw [Function.update_of_ne hi]
        exact hs.cached i
  update s deltaTime arp hupd hs := by
    refine ⟨hs.source, fun i => ?_, hs.frames⟩
    unfold ArpCache.arpCacheUpdate at hupd
    split_ifs at hupd
    have hage : ∀ e, (ArpCache.ageSlot deltaTime e).haddr = e.haddr := by
      intro e
      unfold ArpCache.ageSlot
      split_ifs <;> rfl
    rw [← Option.some.inj hupd]
    show (ArpCache.ageSlot deltaTime (s.arp.slot i)).haddr ∈ K
    rw [hage]
    exact hs.cached i
  cached s i hs := hs.cached i
  sent s dst proto data hdst hproto hlen _ hs := by
    obtain ⟨new, htx, hnew⟩ := hs.frames
    refine ⟨hs.source, hs.cached, new ++ [etherFrame dst s.mac proto data], by simp [htx], ?_⟩
    intro frame hframe
    rcases List.mem_append.mp hframe with hframe | hframe
    · exact hnew frame hframe
    · rw [List.mem_singleton.mp hframe, hs.source]
      exact ⟨dst, proto, data, hdst.imp_right fun ⟨_, hk⟩ => hk, hproto, hlen,
        etherFrame_wellFormed dst mac proto data⟩
  request _ _ _ _ _ _ _ _ := trivial
  packet _ _ _ _ _ _ _ _ _ := trivial
  reply _ _ _ _ _ _ _ _ _ _ _ _ := trivial

theorem boot_within (env : Env) (setup : Setup) :
    Within setup.mac (atBoot setup.mac) [] (Process.boot env setup).stack := by
  have hinit : Within setup.mac (atBoot setup.mac) [] setup.stack :=
    ⟨rfl, fun _ => Or.inr rfl, [], rfl, by simp⟩
  exact (within_invariant env setup.mac (atBoot setup.mac) []).boot hinit (Or.inl rfl)
    (fun _ _ hs _ _ => ⟨hs.source, hs.cached, hs.frames⟩) fun _ _ => trivial

/-- A turn hears of its stations only. -/
theorem hears_stations {rxBuffer : Buf} {turn : Turn} (hk : turn.stations s rxBuffer ⊆ K) :
    turn.Hears (Tells fun _ haddr => haddr ∈ K) s rxBuffer := by
  cases turn with
  | receive frames =>
    intro hdr b n hrecv
    dsimp only [Turn.stations] at hk
    rw [hrecv] at hk
    have hsrc : hdr.hSrc ∈ K := hk (Or.inl rfl)
    exact ⟨⟨0, hsrc⟩, fun harp => hk (Or.inr ⟨harp, rfl⟩), fun _ _ => hsrc⟩
  | tick | egress | sendto | recvfrom => trivial

/-- **One turn.** -/
theorem step_within {p : Process} (turn : Turn) (h : Within mac K old p.stack)
    (hk : stationsOf p turn ⊆ K) : Within mac K old (p.step env setup turn).stack := by
  unfold Process.step Process.exec
  unfold stationsOf at hk
  rcases hrx : p.rxBuffer with _ | rxBuffer
  · exact h
  · rw [hrx] at hk
    exact (within_invariant env mac K old).turn h turn (hears_stations hk)

theorem heard_snoc (turns : List Turn) (turn : Turn) : ∀ p : Process,
    heard env setup p (turns ++ [turn]) =
      heard env setup p turns ∪ stationsOf (p.run env setup turns) turn := by
  induction turns with
  | nil => intro p; simp [heard, Process.run]
  | cons t turns ih =>
    intro p
    rw [List.cons_append, heard, heard, ih, Set.union_assoc]
    rfl

/-- **A run:** all stations were heard of. -/
theorem run_within (turns : List Turn) : ∀ {p : Process} {K : Set MacAddr} {old : List (List UInt8)},
    Within mac K old p.stack →
      ∃ old', Within mac (K ∪ heard env setup p turns) old' (p.run env setup turns).stack := by
  induction turns with
  | nil => exact fun h => ⟨_, h.widen Set.subset_union_left⟩
  | cons turn turns ih =>
    intro p K old h
    have hstep : Within mac (K ∪ stationsOf p turn) p.stack.tx (p.step env setup turn).stack :=
      step_within turn (h.widen Set.subset_union_left) Set.subset_union_right
    obtain ⟨old', hrun⟩ := ih hstep
    refine ⟨old', ?_⟩
    rw [heard, ← Set.union_assoc]
    exact hrun

/-- **All frames of a run are well formed, and go to stations that the daemon has heard of** by then. -/
theorem run_emits (env : Env) (setup : Setup) :
    (∀ frame ∈ (Process.boot env setup).stack.tx, Emitted setup.mac (atBoot setup.mac) frame) ∧
    ∀ (turns : List Turn) (turn : Turn),
      let p := (Process.boot env setup).run env setup turns
      ∃ new, (p.step env setup turn).stack.tx = p.stack.tx ++ new ∧ ∀ frame ∈ new, Emitted setup.mac
        (atBoot setup.mac ∪ heard env setup (Process.boot env setup) (turns ++ [turn])) frame := by
  have hboot := boot_within env setup
  refine ⟨?_, fun turns turn => ?_⟩
  · obtain ⟨new, htx, hnew⟩ := hboot.frames
    rw [htx]
    exact hnew
  · obtain ⟨old', hrun⟩ := @run_within env setup setup.mac turns _ _ _ hboot
    rw [heard_snoc, ← Set.union_assoc]
    exact (step_within turn (hrun.widen Set.subset_union_left) Set.subset_union_right).frames

end Xstack.Net.Stations
