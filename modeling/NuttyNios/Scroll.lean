import NuttyNios.Command
/-!
# The scrolling display

`Scroller` is the display as its user sees it: a text, how far it has moved, a clock that
counts the samples taken while no score is held, and whether one is. It advances by one byte
every 40 ticks of the clock, and nothing in it knows of `delay`, `window` or the order of the
bytes in `display_buff`.

`Agrees` is the simulation relation, `dispatch_agrees` and `sample_agrees` are its two step
lemmas, and `scroll_refines` is the refinement over whole runs from boot.
-/

namespace NuttyNios
open Buffer

/-- The stores to the HEX registers among some actions. -/
def hexWrites (acts : List Action) : List (Fin 6 × UInt8) := acts.filterMap fun
  | .hex n digits => some (n, digits)
  | _ => none

/-- The values `write_leds` was called with. -/
def ledWrites (acts : List Action) : List (BitVec 32) := acts.filterMap fun
  | .leds v => some v
  | _ => none

/-- The bytes `decode_7seg` was called with. -/
def decoded (acts : List Action) : List UInt8 := acts.filterMap fun
  | .decode chr => some chr
  | _ => none

structure Scroller where
  base : Vector UInt8 25
  offset : Nat
  clock : Nat
  held : Bool

namespace Scroller

def boot : Scroller := ⟨Vector.replicate 25 0, 0, 0, false⟩

/-- A new text starts at its first byte; the clock runs on. -/
def load (a : Scroller) (t : List UInt8) : Scroller :=
  { a with base := ofList ((t ++ List.replicate 25 255).take 25) (by simp), offset := 0, held := false }

def dispatch (a : Scroller) : Command → Scroller
  | .leds _ => a
  | .score _ => { a with held := true }
  | .filter _ _ name => a.load name
  | .text t => a.load t

/-- Whether the next sample refreshes the display. -/
def due (a : Scroller) : Bool := !a.held && a.clock % 40 == 0

def tick (a : Scroller) : Scroller :=
  if a.held then a
  else { a with clock := a.clock + 1, offset := if a.clock % 40 = 0 then a.offset + 1 else a.offset }

def step (a : Scroller) : Event → Scroller
  | .message m => a.dispatch (command m.text)
  | .sample _ => a.tick

/-- The display after a history. -/
def after (events : List Event) : Scroller := events.foldl step boot

/-- The six bytes in the window. -/
def view (a : Scroller) : Vector UInt8 6 := Vector.ofFn fun j => a.base[(a.offset + j) % 25]

/-- What the next sample stores: byte `j` of the window goes to `HEX(5-j)`. -/
def stores (decode : UInt8 → UInt8) (a : Scroller) : List (Fin 6 × UInt8) :=
  if a.due then List.ofFn fun n : Fin 6 => (n, decode a.base[(a.offset + (5 - n)) % 25]) else []

theorem after_concat (events : List Event) (e : Event) : after (events ++ [e]) = (after events).step e := by
  simp [after]

theorem load_base {a : Scroller} {t : List UInt8} (h : t.length ≤ 25) : (a.load t).base.toList = padded t := by
  rw [load, toList_ofList, List.take_append, List.take_of_length_le h, List.take_replicate, padded]
  congr 2
  omega

end Scroller

/-! ## The simulation relation -/

structure Agrees (a : Scroller) (g : Globals) : Prop where
  delay : g.delay = ((40 - a.clock % 40) % 40 : Nat)
  buffer : g.displayBuff.toList = a.base.toList.rotate (a.offset % 25)
  held : g.stopscroll = if a.held then 1 else 0

theorem boot_agrees : Agrees Scroller.boot Globals.boot := ⟨rfl, rfl, rfl⟩

theorem Agrees.load {a : Scroller} {g g' : Globals} {t : List UInt8} (h : Agrees a g) (ht : t.length ≤ 25)
    (hd : g'.delay = g.delay) (hb : g'.displayBuff.toList = padded t) (hs : g'.stopscroll = 0) :
    Agrees (a.load t) g' := by
  refine ⟨by rw [hd]; exact h.delay, ?_, hs⟩
  rw [hb, Scroller.load_base ht]
  exact (List.rotate_zero _).symm

/-- **A message keeps the display and its abstraction together.** -/
theorem Command.Effect.agrees {decode : UInt8 → UInt8} {a : Scroller} {g g' : Globals} {acts : List Action}
    {c : Command} (hf : c.Fits) (he : c.Effect decode g g' acts) (h : Agrees a g) : Agrees (a.dispatch c) g' := by
  cases c with
  | leds v =>
    obtain ⟨rfl, -⟩ := he
    exact ⟨h.delay, h.buffer, h.held⟩
  | score payload =>
    obtain ⟨rfl, -⟩ := he
    exact ⟨h.delay, h.buffer, rfl⟩
  | filter f v name =>
    obtain ⟨-, word, b, hb, rfl⟩ := he
    exact h.load (Nat.le_of_lt hf) rfl hb rfl
  | text t =>
    obtain ⟨-, word, b, hb, rfl⟩ := he
    exact h.load (Nat.le_of_lt hf) rfl hb rfl

/-! ## What a sample does to the display -/

/-- `update_leds` changes nothing the display depends on. -/
theorem Agrees.updateLeds {a : Scroller} {g : Globals} (h : Agrees a g) : Agrees a (updateLeds g).1 := by
  unfold NuttyNios.updateLeds
  split
  · exact ⟨h.delay, h.buffer, h.held⟩
  · exact h

theorem hexWrites_updateLeds (g : Globals) : hexWrites (updateLeds g).2 = [] := by
  unfold updateLeds
  split <;> rfl

theorem Agrees.sampled {a : Scroller} {g : Globals} (h : Agrees a g) (s : Sample) : Agrees a (sampled s g) :=
  ⟨h.delay, h.buffer, h.held⟩

/-- The first six bytes of the buffer are the ones in the window. -/
theorem Agrees.window {a : Scroller} {g : Globals} (h : Agrees a g) : getWindow g.displayBuff = a.view := by
  apply toList_ext
  rw [getWindow_toList, h.buffer]
  apply List.ext_getElem (by simp)
  intro i h1 h2
  rw [List.getElem_take, List.getElem_rotate]
  simp [Scroller.view, Nat.add_comm]

/-- **One scrolled sample**, from `if(!stopscroll)` on. -/
theorem scrollHex_agrees (decode : UInt8 → UInt8) {a : Scroller} {g : Globals} (h : Agrees a g) :
    Agrees a.tick (scrollHex decode g).1 ∧
      (scrollHex decode g).2 = if a.due then shown decode a.view else [] := by
  have hd := h.delay
  have hs := h.held
  unfold scrollHex
  cases hheld : a.held with
  | true =>
    rw [hheld] at hs
    have hstop : ¬ g.stopscroll = 0 := by rw [hs]; decide
    rw [if_neg hstop]
    exact ⟨by simpa [Scroller.tick, hheld] using h, by simp [Scroller.due, hheld]⟩
  | false =>
    rw [hheld] at hs
    rw [if_pos (by rw [hs]; rfl), updateHex]
    by_cases hc : a.clock % 40 = 0
    · have h0 : g.delay = 0 := by rw [hd, hc]; rfl
      have hdue : a.due = true := by simp [Scroller.due, hheld, hc]
      have htick : a.tick = { a with clock := a.clock + 1, offset := a.offset + 1 } := by
        simp [Scroller.tick, hheld, hc]
      rw [if_pos h0, if_pos hdue, htick]
      simp only [refreshHex, decodeAll_eq, h.window]
      refine ⟨⟨?_, ?_, hs.trans (by rw [hheld])⟩, rfl⟩
      · simp only [HEX_DELAY]
        omega
      · show (shiftBuffer g.displayBuff).toList = a.base.toList.rotate ((a.offset + 1) % 25)
        have hmod := List.rotate_mod a.base.toList (a.offset + 1)
        rw [Vector.length_toList] at hmod
        have hmod' := List.rotate_mod a.base.toList a.offset
        rw [Vector.length_toList] at hmod'
        rw [shiftBuffer_toList, h.buffer, hmod, hmod', List.rotate_rotate]
    · have h0 : ¬ g.delay = 0 := by omega
      have hdue : ¬ a.due = true := by simp [Scroller.due, hc]
      have htick : a.tick = { a with clock := a.clock + 1 } := by simp [Scroller.tick, hheld, hc]
      rw [if_neg h0, if_neg hdue, htick]
      refine ⟨⟨?_, h.buffer, hs.trans (by rw [hheld])⟩, rfl⟩
      show g.delay - 1 = _
      simp only
      omega

theorem hexWrites_append (as bs : List Action) : hexWrites (as ++ bs) = hexWrites as ++ hexWrites bs :=
  List.filterMap_append

theorem hexWrites_decodes (l : List UInt8) : hexWrites (l.map .decode) = [] := by
  rw [hexWrites, List.filterMap_map]
  simp

/-- What is written for the window, byte `j` of it to `HEX(5-j)`. -/
theorem hexWrites_shown_view (decode : UInt8 → UInt8) (a : Scroller) :
    hexWrites (if a.due then shown decode a.view else []) = a.stores decode := by
  unfold Scroller.stores
  split
  · rw [shown, hexWrites_append, hexWrites_decodes, List.nil_append]
    simp [hexWrites, writeHex, Scroller.view, List.ofFn_succ]
  · rfl

/-- **A sample keeps the display and its abstraction together**, and stores what is due. -/
theorem sample_agrees (decode : UInt8 → UInt8) {a : Scroller} {g : Globals} (h : Agrees a g) (s : Sample) :
    ∃ g' acts, sample decode s g = .ok (g', acts) ∧ Agrees a.tick g' ∧ hexWrites acts = a.stores decode := by
  obtain ⟨h1, h2⟩ := scrollHex_agrees decode (h.sampled s)
  refine ⟨_, _, sample_eq decode s g, h1.updateLeds, ?_⟩
  show hexWrites ((scrollHex decode (NuttyNios.sampled s g)).2 ++ _) = _
  rw [hexWrites_append, hexWrites_updateLeds, List.append_nil, h2, hexWrites_shown_view]

/-! ## Whole runs -/

/-- **Every step keeps the display and its abstraction together.** -/
theorem step_agrees {decode : UInt8 → UInt8} {a : Scroller} {g g' : Globals} {e : Event} {acts : List Action}
    (h : Agrees a g) (hs : (firmware decode).step g e = .ok (g', acts)) :
    Agrees (a.step e) g' ∧ ∀ s, e = .sample s → hexWrites acts = a.stores decode := by
  change NuttyNios.step decode g e = _ at hs
  cases e with
  | message m =>
    obtain ⟨hf, he⟩ := dispatch_inv hs
    refine ⟨he.agrees hf h, ?_⟩
    intro s hm
    cases hm
  | sample s =>
    obtain ⟨g₁, acts₁, hr, ha, hw⟩ := sample_agrees decode h s
    rw [step, hr] at hs
    cases hs
    exact ⟨ha, fun _ _ => hw⟩

theorem firmware_agrees {decode : UInt8 → UInt8} {events : List Event} {g : Globals} {outs : List (List Action)}
    (hr : (firmware decode).run Globals.boot events = .ok (g, outs)) : Agrees (Scroller.after events) g :=
  Machine.run_history (M := firmware decode) (I := fun es s _ => Agrees (Scroller.after es) s) boot_agrees
    (fun es s _ e s' _ _ ih hs => by
      rw [Scroller.after_concat]
      exact (step_agrees ih hs).1) hr

/-- Whether a step was a sample that refreshed the display. -/
def isRefresh : Event × List Action → Bool
  | (.sample _, acts) => !(hexWrites acts).isEmpty
  | (.message _, _) => false

/-- The number of refreshes in a run. -/
def refreshes (events : List Event) (outs : List (List Action)) : Nat := (events.zip outs).countP isRefresh

theorem stores_isEmpty (decode : UInt8 → UInt8) (a : Scroller) : (a.stores decode).isEmpty = !a.due := by
  unfold Scroller.stores
  cases a.due <;> simp

/-- A tick that is due takes the rounded-up count of periods to the next one. -/
theorem tick_periods (a : Scroller) :
    (a.tick.clock + 39) / 40 = (a.clock + 39) / 40 + if a.due then 1 else 0 := by
  unfold Scroller.tick Scroller.due
  cases a.held with
  | true => simp
  | false =>
    by_cases hc : a.clock % 40 = 0
    · simp [hc]
      omega
    · simp [hc]
      omega

theorem refreshes_concat {events : List Event} {outs : List (List Action)} (h : outs.length = events.length)
    (e : Event) (acts : List Action) :
    refreshes (events ++ [e]) (outs ++ [acts]) = refreshes events outs + if isRefresh (e, acts) then 1 else 0 := by
  rw [refreshes, List.zip_append h.symm, List.countP_append]
  simp [refreshes, List.countP_singleton]

theorem firmware_refreshes {decode : UInt8 → UInt8} {events : List Event} {g : Globals} {outs : List (List Action)}
    (hr : (firmware decode).run Globals.boot events = .ok (g, outs)) :
    refreshes events outs = ((Scroller.after events).clock + 39) / 40 := by
  refine Machine.run_history (M := firmware decode)
    (I := fun es _ os => refreshes es os = ((Scroller.after es).clock + 39) / 40) rfl ?_ hr
  intro es s os e s' acts hrun ih hs
  have hag := firmware_agrees hrun
  rw [refreshes_concat (Machine.run_length hrun), ih, Scroller.after_concat]
  cases e with
  | message m =>
    have hclock : ∀ c, ((Scroller.after es).dispatch c).clock = (Scroller.after es).clock := by
      intro c
      cases c <;> rfl
    rw [Scroller.step, hclock]
    rfl
  | sample s =>
    have hw := (step_agrees hag hs).2 s rfl
    rw [Scroller.step, tick_periods]
    simp only [isRefresh, hw, stores_isEmpty, Bool.not_not]

/-- Every sample of a run stores what was due when it came. -/
theorem firmware_stores {decode : UInt8 → UInt8} {events : List Event} {g : Globals} {outs : List (List Action)}
    (hr : (firmware decode).run Globals.boot events = .ok (g, outs)) (k : Nat) (s : Sample) (acts : List Action)
    (he : events[k]? = some (.sample s)) (ho : outs[k]? = some acts) :
    hexWrites acts = (Scroller.after (events.take k)).stores decode := by
  obtain ⟨g₁, os₁, g₂, acts', h1, hs, ho'⟩ := Machine.run_getElem hr he
  obtain rfl : acts' = acts := Option.some.inj (ho'.symm.trans ho)
  exact (step_agrees (firmware_agrees h1) hs).2 s rfl

/-- **The scrolling display refines its abstraction.** A run whose commands fit never stops. In every
state a run reaches, the refreshes so far are the periods of 40 ticks begun, `delay` is what is left
of the current one, `display_buff` is the text rotated by the number of refreshes since it was loaded,
and `stopscroll` says whether a score is held; and each sample of the run stored what was due when it
came: the window of the text at that rotation, decoded, or nothing. -/
theorem scroll_refines (decode : UInt8 → UInt8) (events : List Event) :
    ((∀ m, Event.message m ∈ events → (command m.text).Fits) →
      ∃ g outs, (firmware decode).run Globals.boot events = .ok (g, outs)) ∧
    ∀ g outs, (firmware decode).run Globals.boot events = .ok (g, outs) →
      refreshes events outs = ((Scroller.after events).clock + 39) / 40 ∧
      g.delay = ((40 - (Scroller.after events).clock % 40) % 40 : Nat) ∧
      g.displayBuff.toList = (Scroller.after events).base.toList.rotate ((Scroller.after events).offset % 25) ∧
      g.stopscroll = (if (Scroller.after events).held then 1 else 0) ∧
      ∀ k s acts, events[k]? = some (.sample s) → outs[k]? = some acts →
        hexWrites acts = (Scroller.after (events.take k)).stores decode := by
  refine ⟨firmware_total decode events, fun g outs hr => ?_⟩
  have h := firmware_agrees hr
  exact ⟨firmware_refreshes hr, h.delay, h.buffer, h.held, firmware_stores hr⟩

end NuttyNios
