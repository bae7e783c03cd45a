import NuttyNios.Controls
import NuttyNios.Lookup
/-!
# The score (main.c:268-279)

`hexDisplay` is what the six HEX registers hold after some actions, from `HEX5` to `HEX0`. While a
score is held no action of the loop writes them, so in every state with `stopscroll = 1` they show the
last score (`score_held`). The handler itself takes the length of its copy from the message and not from
the six bytes it copies to: `score_exact_iff`.
-/

namespace NuttyNios
open Buffer Register

/-- What `HEXn` holds after some actions, `init` before them. -/
def hexRegister (n : Fin 6) (init : UInt8) (acts : List Action) : UInt8 :=
  latest (fun w => if w.1 = n then some w.2 else none) init (hexWrites acts)

/-- The registers from left to right, `HEX5` first. -/
def hexDisplay (init : Fin 6 → UInt8) (acts : List Action) : List UInt8 :=
  (List.finRange 6).reverse.map fun n => hexRegister n (init n) acts

theorem hexDisplay_append_of_no_writes (init : Fin 6 → UInt8) (before : List Action) {acts : List Action}
    (h : hexWrites acts = []) : hexDisplay init (before ++ acts) = hexDisplay init before := by
  unfold hexDisplay hexRegister
  rw [hexWrites_append, h, List.append_nil]

/-- Six bytes written out are what is shown, whatever was shown before. -/
theorem hexDisplay_append_shown (init : Fin 6 → UInt8) (before : List Action) (decode : UInt8 → UInt8)
    (six : Vector UInt8 6) : hexDisplay init (before ++ shown decode six) = six.toList.map decode := by
  have hw : hexWrites (shown decode six) = ([(0, decode six[5]), (1, decode six[4]), (2, decode six[3]),
      (3, decode six[2]), (4, decode six[1]), (5, decode six[0])] : List (Fin 6 × UInt8)) := by
    rw [shown, hexWrites_append, hexWrites_decodes, List.nil_append]
    simp [hexWrites, writeHex]
  have hsix : six.toList = [six[0], six[1], six[2], six[3], six[4], six[5]] := by
    apply List.ext_getElem (by simp)
    intro i h1 h2
    have hi : i < 6 := by simpa using h1
    interval_cases i <;> rfl
  have hregs : (List.finRange 6).reverse = [5, 4, 3, 2, 1, 0] := rfl
  unfold hexDisplay hexRegister
  rw [hexWrites_append, hw, hsix, hregs]
  simp [latest]

/-! ## While a score is held -/

theorem command_eq_score {t payload : List UInt8} (h : command t = .score payload) : t = 126 :: payload := by
  cases t with
  | nil => cases h
  | cons c rest =>
    rw [command_cons] at h
    split_ifs at h with h1 h2 h3
    all_goals cases h
    rw [h3]

theorem command_score_of_starts {t : List UInt8} (h : startsWith [126] t) : command t = .score t.tail := by
  cases t with
  | nil => cases h
  | cons c rest =>
    obtain rfl : c = 126 := List.mem_singleton.1 ((startsWith_cons _ _ _).1 h)
    rfl

/-- In a state with `stopscroll = 1` the last score is shown. -/
def ShowsScore (decode : UInt8 → UInt8) (init : Fin 6 → UInt8) (events : List Event) (g : Globals)
    (outs : List (List Action)) : Prop :=
  g.stopscroll = 1 → ∃ m, last (Event.starts [126]) events = some (.message m) ∧
    hexDisplay init outs.flatten = (padScore m.text.tail).map decode

theorem dispatch_showsScore {decode : UInt8 → UInt8} {init : Fin 6 → UInt8} {events : List Event} {g g' : Globals}
    {outs : List (List Action)} {m : Delivered} {acts : List Action} (h : ShowsScore decode init events g outs)
    (hs : dispatch decode m.toMessage g = .ok (g', acts)) :
    ShowsScore decode init (events ++ [.message m]) g' (outs ++ [acts]) := by
  obtain ⟨-, he⟩ := dispatch_inv hs
  intro hstop
  have hstop' := he.controls.2.symm.trans hstop
  rw [last_concat, List.flatten_concat]
  by_cases hm : startsWith [126] m.text
  · have hc := command_score_of_starts hm
    rw [hc] at he
    obtain ⟨-, six, hsix, rfl⟩ := he
    refine ⟨m, if_pos hm, ?_⟩
    rw [hexDisplay_append_shown, hsix]
  · -- the only other commands that leave `stopscroll` at 1 are the LED commands
    cases hc : command m.text with
    | leds v =>
      rw [hc] at he hstop'
      obtain ⟨m', hlast, hshow⟩ := h hstop'
      refine ⟨m', (if_neg hm).trans hlast, ?_⟩
      rw [hexDisplay_append_of_no_writes init _ (by rw [he.2]; rfl), hshow]
    | score payload =>
      rw [command_eq_score hc] at hm
      exact absurd rfl hm
    | filter f v name =>
      rw [hc] at hstop'
      cases hstop'
    | text t =>
      rw [hc] at hstop'
      cases hstop'

theorem sample_showsScore {decode : UInt8 → UInt8} {init : Fin 6 → UInt8} {events : List Event} {g g' : Globals}
    {outs : List (List Action)} {s : Sample} {acts : List Action} (h : ShowsScore decode init events g outs)
    (hag : Agrees (Scroller.after events) g) (hs : sample decode s g = .ok (g', acts)) :
    ShowsScore decode init (events ++ [.sample s]) g' (outs ++ [acts]) := by
  intro hstop
  rw [(sample_controls hs).2] at hstop
  obtain ⟨m, hlast, hshow⟩ := h hstop
  refine ⟨m, ?_, ?_⟩
  · rw [last_concat]
    exact hlast
  · have hheld : (Scroller.after events).held = true := by
      by_contra hn
      have hzero := hag.held
      rw [if_neg hn, hstop] at hzero
      cases hzero
    have hnone : hexWrites acts = [] := by
      rw [(step_agrees (e := .sample s) hag hs).2 s rfl, Scroller.stores, if_neg (by simp [Scroller.due, hheld])]
    rw [List.flatten_concat, hexDisplay_append_of_no_writes init _ hnone, hshow]

/-- **A score stays on the display.** A run whose commands fit never stops, and in every state with
`stopscroll = 1` that a run reaches there was a score, and the registers hold the bytes of the last one,
filled up with 255 and decoded. -/
theorem score_held (decode : UInt8 → UInt8) (init : Fin 6 → UInt8) (events : List Event) :
    ((∀ m, Event.message m ∈ events → (command m.text).Fits) →
      ∃ g outs, (firmware decode).run Globals.boot events = .ok (g, outs)) ∧
    ∀ g outs, (firmware decode).run Globals.boot events = .ok (g, outs) → g.stopscroll = 1 →
      ∃ m, last (Event.starts [126]) events = some (.message m) ∧
        hexDisplay init outs.flatten = (padScore m.text.tail).map decode := by
  refine ⟨firmware_total decode events, fun g outs hr => ?_⟩
  refine Machine.run_history (M := firmware decode) (I := ShowsScore decode init) (fun h => by cases h) ?_ hr
  intro es s os e s' acts hrun ih hs
  cases e with
  | message m => exact dispatch_showsScore ih hs
  | sample smp => exact sample_showsScore ih (firmware_agrees hrun) hs

/-- The messages `"~42"` and `"1"` with a sample between them: `stopscroll` is 1, and the score is still shown. -/
theorem score_held_two : ∃ g outs, (firmware fun c => c).run Globals.boot
      [.message (Delivered.ofText [126, 52, 50] (by decide)), .sample ⟨16384, 0, 5, 0, 3⟩,
        .message (Delivered.ofText [49] (by decide))] = .ok (g, outs) ∧
    g.stopscroll = 1 ∧ hexDisplay (fun _ => 0) outs.flatten = [52, 50, 255, 255, 255, 255] := by
  obtain ⟨hfit, hheld⟩ := score_held (fun c => c) (fun _ => 0)
    [.message (Delivered.ofText [126, 52, 50] (by decide)), .sample ⟨16384, 0, 5, 0, 3⟩,
      .message (Delivered.ofText [49] (by decide))]
  have hscore : (Delivered.ofText [126, 52, 50] (by decide)).text = [126, 52, 50] := Delivered.text_ofText _ _
  have hleds : (Delivered.ofText [49] (by decide)).text = [49] := Delivered.text_ofText _ _
  obtain ⟨g, outs, hr⟩ := hfit (by
    intro m hm
    simp only [List.mem_cons, Event.message.injEq, reduceCtorEq, List.not_mem_nil, or_false, false_or] at hm
    obtain rfl | rfl := hm
    · rw [hscore]; decide
    · rw [hleds]; decide)
  have hstop : g.stopscroll = 1 := by
    rw [firmware_stopscroll hr]
    simp only [latest, List.filterMap, Event.writes, hscore, hleds]
    rfl
  obtain ⟨m, hlast, hshow⟩ := hheld g outs hr hstop
  have hm : m.text = [126, 52, 50] := by
    simp only [last, List.filter, Event.starts, hscore, hleds] at hlast
    cases hlast
    exact hscore
  refine ⟨g, outs, hr, hstop, ?_⟩
  rw [hshow, hm]
  rfl

/-! ## The handler -/

/-- **The score handler is exact exactly for payloads of up to six bytes.** For those it decodes the
payload, filled up with 255, and shows it; a longer one is copied past the end of its six bytes. -/
theorem score_exact_iff (decode : UInt8 → UInt8) (m : Delivered) (payload : List UInt8)
    (hm : m.text = 126 :: payload) (g : Globals) :
    (∃ g' acts, dispatch decode m.toMessage g = .ok (g', acts) ∧ decoded acts = padScore (payload.take 6) ∧
      ∀ init before, hexDisplay init (before ++ acts) = (padScore (payload.take 6)).map decode) ↔
      payload.length ≤ 6 := by
  have hc : command m.text = .score payload := by rw [hm]; rfl
  refine dispatch_ok_iff hc ?_
  intro hlen g' acts he
  obtain ⟨-, six, hsix, rfl⟩ := he
  rw [List.take_of_length_le hlen]
  refine ⟨?_, fun init before => ?_⟩
  · rw [decoded_shown, hsix]
  · rw [hexDisplay_append_shown, hsix]

/-- The message `"~42"` at boot. -/
theorem score_exact_two : ∃ g' acts,
    dispatch (fun c => c) (Delivered.ofText [126, 52, 50] (by decide)).toMessage Globals.boot = .ok (g', acts) ∧
      decoded acts = [52, 50, 255, 255, 255, 255] ∧
      ∀ init before, hexDisplay init (before ++ acts) = [52, 50, 255, 255, 255, 255] :=
  (score_exact_iff (fun c => c) (Delivered.ofText [126, 52, 50] (by decide)) [52, 50]
    (Delivered.text_ofText _ _) Globals.boot).2 (by decide)

/-- A payload of seven bytes, `"~1234567"`: the seventh is stored behind `score_unprocessed`. -/
theorem score_overrun_seven : ¬ ∃ g' acts,
    dispatch (fun c => c) (Delivered.ofText [126, 49, 50, 51, 52, 53, 54, 55] (by decide)).toMessage Globals.boot =
      .ok (g', acts) := by
  rintro ⟨g', acts, hr⟩
  have hf := (dispatch_inv hr).1
  rw [Delivered.text_ofText] at hf
  revert hf
  decide

end NuttyNios
