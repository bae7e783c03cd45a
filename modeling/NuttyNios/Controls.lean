import NuttyNios.Lib.Register
import NuttyNios.Leds
/-!
# The command state

`filter`, `leds` and `stopscroll` are registers written by messages alone: a command writes some of
the three (`Command.filter?`, `Command.leds?`, `Command.stopscroll?`) and leaves the others, and a
sample leaves all three, since turning the LEDs has no effect on the two values they take.
`controls_last_writer` reads each of them off the last message that writes it.
-/

namespace NuttyNios
open Register

/-! ## What a command writes -/

def Command.filter? : Command → Option Int
  | .filter f _ _ => some f
  | _ => none

def Command.stopscroll? : Command → Option Int
  | .leds _ => none
  | .score _ => some 1
  | _ => some 0

theorem Command.Effect.controls {decode : UInt8 → UInt8} {g g' : Globals} {acts : List Action} {c : Command}
    (he : c.Effect decode g g' acts) :
    g'.filter = c.filter?.getD g.filter ∧ g'.stopscroll = c.stopscroll?.getD g.stopscroll := by
  cases c with
  | leds v => rw [he.1]; exact ⟨rfl, rfl⟩
  | score payload => rw [he.1]; exact ⟨rfl, rfl⟩
  | filter f v name =>
    obtain ⟨-, word, b, -, rfl⟩ := he
    exact ⟨rfl, rfl⟩
  | text t =>
    obtain ⟨-, word, b, -, rfl⟩ := he
    exact ⟨rfl, rfl⟩

/-- What an event writes, by what the command of a message writes. -/
def Event.writes {α : Type} (writes : Command → Option α) : Event → Option α
  | .message m => writes (command m.text)
  | .sample _ => none

/-! ## What a sample leaves -/

theorem updateLeds_controls (g : Globals) :
    (updateLeds g).1.filter = g.filter ∧ (updateLeds g).1.stopscroll = g.stopscroll := by
  unfold updateLeds
  split <;> exact ⟨rfl, rfl⟩

theorem scrollHex_controls (decode : UInt8 → UInt8) (g : Globals) :
    (scrollHex decode g).1.filter = g.filter ∧ (scrollHex decode g).1.stopscroll = g.stopscroll := by
  unfold scrollHex updateHex
  split_ifs <;> exact ⟨rfl, rfl⟩

theorem sample_controls {decode : UInt8 → UInt8} {s : Sample} {g g' : Globals} {acts : List Action}
    (hs : sample decode s g = .ok (g', acts)) : g'.filter = g.filter ∧ g'.stopscroll = g.stopscroll := by
  rw [sample_eq] at hs
  cases hs
  rw [(updateLeds_controls _).1, (updateLeds_controls _).2, (scrollHex_controls _ _).1, (scrollHex_controls _ _).2]
  exact ⟨rfl, rfl⟩

/-! ## The last writer -/

/-- A field that the commands write and the samples leave. -/
theorem firmware_latest {α : Type} {decode : UInt8 → UInt8} (reg : Globals → α) (writes : Command → Option α)
    (hcommand : ∀ {g g' : Globals} {acts : List Action} {c : Command}, c.Effect decode g g' acts →
      reg g' = (writes c).getD (reg g))
    (hsample : ∀ {es g outs s g' acts}, (firmware decode).run Globals.boot es = .ok (g, outs) →
      sample decode s g = .ok (g', acts) → reg g' = reg g)
    {events : List Event} {g : Globals} {outs : List (List Action)}
    (hr : (firmware decode).run Globals.boot events = .ok (g, outs)) :
    reg g = latest (Event.writes writes) (reg Globals.boot) events := by
  refine Machine.run_latest (M := firmware decode) reg (Event.writes writes) ?_ hr
  intro es s os e s' acts hrun hs
  cases e with
  | message m => exact hcommand (dispatch_inv hs).2
  | sample smp => exact hsample hrun hs

section
variable {decode : UInt8 → UInt8} {events : List Event} {g : Globals} {outs : List (List Action)}

theorem firmware_filter (hr : (firmware decode).run Globals.boot events = .ok (g, outs)) :
    g.filter = latest (Event.writes Command.filter?) 0 events :=
  firmware_latest Globals.filter Command.filter? (fun he => he.controls.1) (fun _ hs => (sample_controls hs).1) hr

theorem firmware_stopscroll (hr : (firmware decode).run Globals.boot events = .ok (g, outs)) :
    g.stopscroll = latest (Event.writes Command.stopscroll?) 0 events :=
  firmware_latest Globals.stopscroll Command.stopscroll? (fun he => he.controls.2)
    (fun _ hs => (sample_controls hs).2) hr

theorem firmware_leds (hr : (firmware decode).run Globals.boot events = .ok (g, outs)) :
    g.leds = latest (Event.writes Command.leds?) 0 events := by
  refine firmware_latest Globals.leds Command.leds? (fun he => he.leds) ?_ hr
  intro es g outs s g' acts hrun hs
  -- the rotation in `update_leds` needs the two values `leds` can have here
  obtain ⟨g₁, acts₁, h1, -, hleds, -⟩ := sample_leds decode (firmware_agrees hrun) (firmware_lit hrun) s
  cases h1.symm.trans hs
  exact hleds

end

/-! ## Messages by their first byte -/

/-- The text starts with one of these bytes. -/
def startsWith (cs : List UInt8) (text : List UInt8) : Bool := text.head?.any cs.contains

theorem startsWith_cons (cs : List UInt8) (c : UInt8) (text : List UInt8) :
    startsWith cs (c :: text) = true ↔ c ∈ cs := by
  simp [startsWith]

/-- A message that starts with one of these bytes. -/
def Event.starts (cs : List UInt8) : Event → Bool
  | .message m => startsWith cs m.text
  | .sample _ => false

/-- A message that does not start with `'0'` or `'1'`: it changes what is shown. -/
def Event.shows : Event → Bool
  | .message m => !startsWith [48, 49] m.text
  | .sample _ => false

theorem filter?_eq (t : List UInt8) :
    (command t).filter? = if startsWith [43, 45] t then some (if startsWith [43] t then 1 else 0) else none := by
  cases t with
  | nil => rfl
  | cons c payload =>
    rw [command_cons]
    simp only [startsWith_cons]
    split_ifs <;> simp_all [Command.filter?]

theorem leds?_eq (t : List UInt8) : (command t).leds? =
    if startsWith [48, 49, 43, 45] t then some (if startsWith [49, 43] t then 0x3FF else 0) else none := by
  cases t with
  | nil => rfl
  | cons c payload =>
    rw [command_cons]
    simp only [startsWith_cons]
    split_ifs <;> simp_all [Command.leds?]

theorem stopscroll?_eq (t : List UInt8) :
    (command t).stopscroll? = if !startsWith [48, 49] t then some (if startsWith [126] t then 1 else 0) else none := by
  cases t with
  | nil => rfl
  | cons c payload =>
    rw [command_cons]
    simp only [Bool.not_eq_true', ← Bool.not_eq_true, startsWith_cons]
    split_ifs <;> simp_all [Command.stopscroll?]

/-- **The command state is last-writer-wins.** A run whose commands fit never stops, and in every state
a run reaches: `filter` is 1 or 0 as the last message that starts with `'+'` or `'-'` starts with `'+'`;
`leds` is full or empty as the last that starts with `'0'`, `'1'`, `'+'` or `'-'` starts with `'1'` or
`'+'`; and `stopscroll` is 1 or 0 as the last that does not start with `'0'` or `'1'` starts with `'~'`.
Where there was no such message, each is 0. -/
theorem controls_last_writer (decode : UInt8 → UInt8) (events : List Event) :
    ((∀ m, Event.message m ∈ events → (command m.text).Fits) →
      ∃ g outs, (firmware decode).run Globals.boot events = .ok (g, outs)) ∧
    ∀ g outs, (firmware decode).run Globals.boot events = .ok (g, outs) →
      g.filter = (if (last (Event.starts [43, 45]) events).any (Event.starts [43]) then 1 else 0) ∧
      g.leds = (if (last (Event.starts [48, 49, 43, 45]) events).any (Event.starts [49, 43]) then 0x3FF else 0) ∧
      g.stopscroll = if (last Event.shows events).any (Event.starts [126]) then 1 else 0 := by
  refine ⟨firmware_total decode events, fun g outs hr => ⟨?_, ?_, ?_⟩⟩
  · rw [firmware_filter hr]
    refine latest_eq_if (fun e => ?_) events
    cases e with
    | message m => exact filter?_eq m.text
    | sample s => rfl
  · rw [firmware_leds hr]
    refine latest_eq_if (fun e => ?_) events
    cases e with
    | message m => exact leds?_eq m.text
    | sample s => rfl
  · rw [firmware_stopscroll hr]
    refine latest_eq_if (fun e => ?_) events
    cases e with
    | message m => exact stopscroll?_eq m.text
    | sample s => rfl

end NuttyNios
