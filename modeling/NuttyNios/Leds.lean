import NuttyNios.Scroll
/-!
# The LED refresh

`update_leds` runs on every sample but writes only when `delay` is zero, and only `update_hex`
moves `delay`, which is skipped while a score is held. So the writes a run of samples makes are
those of the abstract clock (`samples_leds`): one every 40 samples while the text scrolls, and
all or none while a score is held.
-/

namespace NuttyNios
open Buffer

/-- The only two values `leds` takes. -/
def Lit (leds : BitVec 32) : Prop := leds = 0 ∨ leds = 0b1111111111

/-- Turning the LEDs by one place leaves both as they are. -/
theorem turn_of_lit {leds : BitVec 32} (h : Lit leds) : (leds ||| ((leds &&& 0x1) <<< 10)) >>> 1 = leds := by
  rcases h with rfl | rfl <;> rfl

theorem updateLeds_of_lit {g : Globals} (h : Lit g.leds) :
    updateLeds g = (g, if g.delay = 0 then [.leds g.leds] else []) := by
  unfold updateLeds
  split
  · simp only [turn_of_lit h, writeLeds]
  · rfl

/-! ## What a message sets -/

/-- The value a command gives `leds`, if it does. -/
def Command.leds? : Command → Option (BitVec 32)
  | .leds v => some v
  | .filter _ v _ => some v
  | _ => none

theorem command_lit {t : List UInt8} {v : BitVec 32} (h : (command t).leds? = some v) : Lit v := by
  cases t with
  | nil => cases h
  | cons c payload =>
    rw [command_cons] at h
    split_ifs at h <;> cases h
    · exact .inr rfl
    · exact .inl rfl
    · exact .inl rfl
    · exact .inr rfl

theorem Command.Effect.leds {decode : UInt8 → UInt8} {g g' : Globals} {acts : List Action} {c : Command}
    (he : c.Effect decode g g' acts) : g'.leds = c.leds?.getD g.leds := by
  cases c with
  | leds v => rw [he.1]; rfl
  | score payload => rw [he.1]; rfl
  | filter f v name =>
    obtain ⟨-, word, b, -, rfl⟩ := he
    rfl
  | text t =>
    obtain ⟨-, word, b, -, rfl⟩ := he
    rfl

/-! ## What a sample writes -/

theorem ledWrites_append (as bs : List Action) : ledWrites (as ++ bs) = ledWrites as ++ ledWrites bs :=
  List.filterMap_append

theorem ledWrites_shown (decode : UInt8 → UInt8) (six : Vector UInt8 6) : ledWrites (shown decode six) = [] := by
  rw [shown, ledWrites_append, ledWrites, List.filterMap_map]
  simp [ledWrites, writeHex]

theorem scrollHex_leds (decode : UInt8 → UInt8) (g : Globals) : (scrollHex decode g).1.leds = g.leds := by
  unfold scrollHex updateHex
  split_ifs <;> rfl

/-- **One sample writes the LEDs exactly when it completes a period**, or, with a score held, when
it comes at the start of one. -/
theorem sample_leds (decode : UInt8 → UInt8) {a : Scroller} {g : Globals} (h : Agrees a g) (hl : Lit g.leds)
    (s : Sample) : ∃ g' acts, (firmware decode).step g (.sample s) = .ok (g', acts) ∧ Agrees a.tick g' ∧
      g'.leds = g.leds ∧ ledWrites acts = if a.tick.clock % 40 = 0 then [g.leds] else [] := by
  obtain ⟨h1, h2⟩ := scrollHex_agrees decode (h.sampled s)
  have hleds : (scrollHex decode (sampled s g)).1.leds = g.leds := scrollHex_leds decode (sampled s g)
  have hupd := updateLeds_of_lit (g := (scrollHex decode (sampled s g)).1) (by rw [hleds]; exact hl)
  refine ⟨_, _, sample_eq decode s g, h1.updateLeds, by rw [hupd]; exact hleds, ?_⟩
  show ledWrites (_ ++ _) = _
  have hhex : ledWrites (scrollHex decode (sampled s g)).2 = [] := by
    rw [h2]
    split
    · exact ledWrites_shown decode a.view
    · rfl
  have hdelay : (scrollHex decode (sampled s g)).1.delay = 0 ↔ a.tick.clock % 40 = 0 := by
    rw [h1.delay]
    omega
  rw [ledWrites_append, hhex, hupd, hleds]
  simp only [hdelay, List.nil_append]
  split <;> rfl

/-! ## Runs of samples -/

/-- The number of LED writes in the next `n` samples. -/
def Scroller.ledCount (a : Scroller) (n : Nat) : Nat :=
  if a.held then if a.clock % 40 = 0 then n else 0 else (a.clock + n) / 40 - a.clock / 40

theorem Scroller.ledCount_succ (a : Scroller) (n : Nat) :
    a.ledCount (n + 1) = (if a.tick.clock % 40 = 0 then 1 else 0) + a.tick.ledCount n := by
  unfold Scroller.ledCount Scroller.tick
  cases hheld : a.held with
  | true =>
    simp only [hheld, ↓reduceIte]
    split <;> omega
  | false =>
    simp only [Bool.false_eq_true, ↓reduceIte]
    split <;> omega

/-- **The LED writes of a run of samples.** -/
theorem samples_leds (decode : UInt8 → UInt8) (samples : List Sample) {a : Scroller} {g : Globals}
    (h : Agrees a g) (hl : Lit g.leds) :
    ∃ g' outs, (firmware decode).run g (samples.map .sample) = .ok (g', outs) ∧
      ledWrites outs.flatten = List.replicate (a.ledCount samples.length) g.leds := by
  induction samples generalizing a g with
  | nil => exact ⟨g, [], rfl, by simp [Scroller.ledCount, ledWrites]⟩
  | cons s samples ih =>
    obtain ⟨g₁, acts, hs, h₁, hl₁, hw⟩ := sample_leds decode h hl s
    obtain ⟨g', outs, hr, hws⟩ := ih h₁ (by rw [hl₁]; exact hl)
    refine ⟨g', acts :: outs, Machine.run_cons.2 ⟨g₁, acts, outs, hs, hr, rfl⟩, ?_⟩
    rw [List.flatten_cons, ledWrites_append, hw, hws, hl₁, List.length_cons, Scroller.ledCount_succ,
      List.replicate_add]
    congr 1
    split <;> rfl

theorem step_lit {decode : UInt8 → UInt8} {a : Scroller} {g g' : Globals} {e : Event} {acts : List Action}
    (h : Agrees a g) (hl : Lit g.leds) (hs : (firmware decode).step g e = .ok (g', acts)) : Lit g'.leds := by
  cases e with
  | message m =>
    change step decode g (.message m) = _ at hs
    obtain ⟨-, he⟩ := dispatch_inv hs
    rw [he.leds]
    cases hv : (command m.text).leds? with
    | none => exact hl
    | some v => exact command_lit hv
  | sample s =>
    obtain ⟨g₁, acts₁, hr, -, hl₁, -⟩ := sample_leds decode h hl s
    rw [hr] at hs
    cases hs
    rw [hl₁]
    exact hl

theorem firmware_lit {decode : UInt8 → UInt8} {events : List Event} {g : Globals} {outs : List (List Action)}
    (hr : (firmware decode).run Globals.boot events = .ok (g, outs)) : Lit g.leds :=
  Machine.run_history (M := firmware decode) (I := fun _ s _ => Lit s.leds) (.inl rfl)
    (fun _ _ _ _ _ _ hrun ih hs => step_lit (firmware_agrees hrun) ih hs) hr

/-- **The LED refresh depends on the display mode.** From any state a run reaches, forty samples call
`write_leds` exactly once if and only if no score is held; then the value written is the one last
commanded. -/
theorem led_refresh_iff (decode : UInt8 → UInt8) (events : List Event) (g : Globals) (outs : List (List Action))
    (hr : (firmware decode).run Globals.boot events = .ok (g, outs)) (samples : List Sample)
    (hlen : samples.length = 40) :
    ∃ g' outs', (firmware decode).run g (samples.map .sample) = .ok (g', outs') ∧
      ((ledWrites outs'.flatten).length = 1 ↔ g.stopscroll = 0) ∧
      (g.stopscroll = 0 → ledWrites outs'.flatten = [g.leds]) := by
  have h := firmware_agrees hr
  obtain ⟨g', outs', hrun, hw⟩ := samples_leds decode samples h (firmware_lit hr)
  have hheld := h.held
  rw [hlen] at hw
  refine ⟨g', outs', hrun, ?_⟩
  rw [hw, List.length_replicate]
  unfold Scroller.ledCount
  cases hh : (Scroller.after events).held with
  | true =>
    rw [hh] at hheld
    simp only [hheld, ↓reduceIte]
    constructor
    · constructor
      · split <;> omega
      · intro h0
        cases h0
    · intro h0
      cases h0
  | false =>
    rw [hh] at hheld
    simp [hheld]

/-- At boot, with no message. -/
theorem led_refresh_boot : ∃ g' outs',
    (firmware fun c => c).run Globals.boot ((List.replicate 40 ⟨0, 0, 0, 0, 0⟩).map .sample) = .ok (g', outs') ∧
      ((ledWrites outs'.flatten).length = 1 ↔ (0 : Int) = 0) ∧
      ((0 : Int) = 0 → ledWrites outs'.flatten = [0]) :=
  led_refresh_iff (fun c => c) [] Globals.boot [] rfl (List.replicate 40 ⟨0, 0, 0, 0, 0⟩) List.length_replicate

/-- A sample, a score and the LED command `1`: the next forty samples never write the LEDs. -/
theorem led_refresh_held : ∃ g outs,
    (firmware fun c => c).run Globals.boot [.sample ⟨0, 0, 0, 0, 0⟩,
      .message (Delivered.ofText [126] (by decide)), .message (Delivered.ofText [49] (by decide))] = .ok (g, outs) ∧
    g.leds = 0b1111111111 ∧
    ¬ ∃ g' outs', (firmware fun c => c).run g ((List.replicate 40 ⟨0, 0, 0, 0, 0⟩).map .sample) = .ok (g', outs') ∧
      (ledWrites outs'.flatten).length = 1 := by
  have hscore : command (Delivered.ofText [126] (by decide)).text = .score [] := by
    rw [Delivered.text_ofText]
    rfl
  have hleds : command (Delivered.ofText [49] (by decide)).text = .leds 0b1111111111 := by
    rw [Delivered.text_ofText]
    rfl
  obtain ⟨g₁, acts₁, h1, ha₁, -, -⟩ := sample_leds (fun c => c) boot_agrees (.inl rfl) ⟨0, 0, 0, 0, 0⟩
  obtain ⟨g₂, acts₂, h2, he₂⟩ := dispatch_fits (fun c => c) (Delivered.ofText [126] (by decide))
    (by rw [hscore]; decide) g₁
  obtain ⟨g₃, acts₃, h3, he₃⟩ := dispatch_fits (fun c => c) (Delivered.ofText [49] (by decide))
    (by rw [hleds]; decide) g₂
  rw [hscore] at he₂
  rw [hleds] at he₃
  -- the score holds the display at `delay = 39`, where the LED command finds it
  have ha₂ : Agrees (Scroller.boot.tick.dispatch (.score [])) g₂ := he₂.agrees (by decide) ha₁
  have ha₃ : Agrees ((Scroller.boot.tick.dispatch (.score [])).dispatch (.leds 0b1111111111)) g₃ :=
    he₃.agrees (by decide) ha₂
  have hl₃ : g₃.leds = 0b1111111111 := he₃.leds
  refine ⟨g₃, [acts₁, acts₂, acts₃], ?_, hl₃, ?_⟩
  · exact Machine.run_cons.2 ⟨g₁, _, _, h1, Machine.run_cons.2 ⟨g₂, _, _, h2,
      Machine.run_cons.2 ⟨g₃, _, _, h3, rfl, rfl⟩, rfl⟩, rfl⟩
  · rintro ⟨g', outs', hr, hone⟩
    obtain ⟨g₄, outs₄, hr', hw⟩ := samples_leds (fun c => c) (List.replicate 40 ⟨0, 0, 0, 0, 0⟩) ha₃ (.inr hl₃)
    rw [hr] at hr'
    cases hr'
    rw [hw, List.length_replicate, List.length_replicate] at hone
    revert hone
    decide

end NuttyNios
