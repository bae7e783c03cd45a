import NuttyNios.Scroll
/-!
# The seven-segment lookups

Every call of `decode_7seg` in a run, over the abstract display: a score's six bytes, and the
window of the text at each refresh (`step_decoded`). `decode_7seg` has no guard for the bytes
below `'0'` other than the space, so the lookups of a run are in bounds exactly when all these
bytes are `Displayable` (`lookups_inBounds_iff`). At boot they are not: the buffer is all zeros.
-/

namespace NuttyNios
open Buffer

/-- The table index the lookup of a byte uses, if it makes one, is an index of the table. -/
def InBounds (chr : UInt8) : Prop := ∀ i, decodeIndex chr = some i → 0 ≤ i ∧ i ≤ 74

/-- The bytes a command looks up. -/
def Command.lookups : Command → List UInt8
  | .score payload => padScore payload
  | _ => []

/-- The bytes a step looks up, by what the display shows before it. -/
def Scroller.lookups (a : Scroller) : Event → List UInt8
  | .message m => (command m.text).lookups
  | .sample _ => if a.due then a.view.toList else []

theorem decoded_append (as bs : List Action) : decoded (as ++ bs) = decoded as ++ decoded bs :=
  List.filterMap_append

theorem decoded_decodes (l : List UInt8) : decoded (l.map .decode) = l := by
  rw [decoded, List.filterMap_map]
  exact List.filterMap_some

theorem decoded_shown (decode : UInt8 → UInt8) (six : Vector UInt8 6) : decoded (shown decode six) = six.toList := by
  rw [shown, decoded_append, decoded_decodes]
  exact List.append_nil _

theorem decoded_updateLeds (g : Globals) : decoded (updateLeds g).2 = [] := by
  unfold updateLeds
  split <;> rfl

theorem Command.Effect.decoded {decode : UInt8 → UInt8} {g g' : Globals} {acts : List Action} {c : Command}
    (he : c.Effect decode g g' acts) : decoded acts = c.lookups := by
  cases c with
  | leds v => rw [he.2]; rfl
  | score payload =>
    obtain ⟨-, six, hsix, rfl⟩ := he
    rw [decoded_shown, hsix]
    rfl
  | filter f v name => rw [he.1]; rfl
  | text t => rw [he.1]; rfl

/-- **What a step looks up.** -/
theorem step_decoded {decode : UInt8 → UInt8} {a : Scroller} {g g' : Globals} {e : Event} {acts : List Action}
    (h : Agrees a g) (hs : (firmware decode).step g e = .ok (g', acts)) : decoded acts = a.lookups e := by
  change step decode g e = _ at hs
  cases e with
  | message m =>
    obtain ⟨-, he⟩ := dispatch_inv hs
    exact he.decoded
  | sample s =>
    rw [step, sample_eq] at hs
    cases hs
    show NuttyNios.decoded (_ ++ _) = _
    rw [decoded_append, decoded_updateLeds, (scrollHex_agrees decode (h.sampled s)).2, List.append_nil]
    unfold Scroller.lookups
    split
    · exact decoded_shown decode a.view
    · rfl

/-! ## Whole runs -/

/-- The lookups of a run, step by step. -/
theorem firmware_decoded {decode : UInt8 → UInt8} {events : List Event} {g : Globals} {outs : List (List Action)}
    (hr : (firmware decode).run Globals.boot events = .ok (g, outs)) {k : Nat} {e : Event}
    (he : events[k]? = some e) :
    ∃ acts, outs[k]? = some acts ∧ decoded acts = (Scroller.after (events.take k)).lookups e := by
  obtain ⟨g₁, os₁, g₂, acts, h1, hs, ho⟩ := Machine.run_getElem hr he
  exact ⟨acts, ho, step_decoded (firmware_agrees h1) hs⟩

theorem forall_decoded_iff {decode : UInt8 → UInt8} {events : List Event} {g : Globals} {outs : List (List Action)}
    (hr : (firmware decode).run Globals.boot events = .ok (g, outs)) (P : UInt8 → Prop) :
    (∀ acts ∈ outs, ∀ chr ∈ decoded acts, P chr) ↔
      ∀ k e, events[k]? = some e → ∀ chr ∈ (Scroller.after (events.take k)).lookups e, P chr := by
  constructor
  · intro h k e he
    obtain ⟨acts, ho, hd⟩ := firmware_decoded hr he
    rw [← hd]
    exact h acts (List.mem_of_getElem? ho)
  · intro h acts hacts
    obtain ⟨k, hk⟩ := List.getElem?_of_mem hacts
    have hlt : k < events.length := by
      rw [← Machine.run_length hr]
      exact (List.getElem?_eq_some_iff.1 hk).1
    obtain ⟨acts', ho, hd⟩ := firmware_decoded hr (List.getElem?_eq_getElem hlt)
    obtain rfl : acts' = acts := Option.some.inj (ho.symm.trans hk)
    rw [hd]
    exact h k _ (List.getElem?_eq_getElem hlt)

/-- The filling of a score is displayable. -/
theorem forall_padScore_iff (payload : List UInt8) :
    (∀ chr ∈ padScore payload, Displayable chr) ↔ ∀ chr ∈ payload, Displayable chr := by
  constructor
  · intro h chr hc
    exact h chr (List.mem_append_left _ hc)
  · intro h chr hc
    rcases List.mem_append.1 hc with hc | hc
    · exact h chr hc
    · rw [List.eq_of_mem_replicate hc]
      decide

/-- **When the seven-segment lookups are in bounds.** A run whose texts and scores fit looks up only
indices of the table exactly when every byte of a score is displayable, and so are the six bytes in
the window at each sample that refreshes the display. -/
theorem lookups_inBounds_iff (outside : Int → UInt8) (events : List Event)
    (hf : ∀ m, Event.message m ∈ events → (command m.text).Fits) :
    ∃ g outs, (firmware (decode7seg outside)).run Globals.boot events = .ok (g, outs) ∧
      ((∀ acts ∈ outs, ∀ chr ∈ decoded acts, InBounds chr) ↔
        (∀ m payload, Event.message m ∈ events → command m.text = .score payload →
          ∀ chr ∈ payload, Displayable chr) ∧
        ∀ k s, events[k]? = some (.sample s) → (Scroller.after (events.take k)).due →
          ∀ chr ∈ (Scroller.after (events.take k)).view.toList, Displayable chr) := by
  obtain ⟨g, outs, hr⟩ := firmware_total (decode7seg outside) events hf
  refine ⟨g, outs, hr, ?_⟩
  rw [forall_decoded_iff hr]
  constructor
  · intro h
    constructor
    · intro m payload hm hc
      obtain ⟨k, hk⟩ := List.getElem?_of_mem hm
      rw [← forall_padScore_iff]
      intro chr hchr
      refine (decodeIndex_inBounds chr).1 (h k _ hk chr ?_)
      rw [Scroller.lookups, hc]
      exact hchr
    · intro k s hk hdue chr hchr
      refine (decodeIndex_inBounds chr).1 (h k _ hk chr ?_)
      rw [Scroller.lookups, if_pos hdue]
      exact hchr
  · rintro ⟨hscore, hview⟩ k e hk chr hchr
    refine (decodeIndex_inBounds chr).2 ?_
    cases e with
    | message m =>
      cases hc : command m.text with
      | score payload =>
        rw [Scroller.lookups, hc] at hchr
        exact (forall_padScore_iff payload).2 (hscore m payload (List.mem_of_getElem? hk) hc) chr hchr
      | _ =>
        rw [Scroller.lookups, hc] at hchr
        cases hchr
    | sample s =>
      by_cases hdue : (Scroller.after (events.take k)).due
      · rw [Scroller.lookups, if_pos hdue] at hchr
        exact hview k s hk hdue chr hchr
      · rw [Scroller.lookups, if_neg hdue] at hchr
        cases hchr

/-- The text "Hi" and a sample. -/
theorem lookups_inBounds_hi : ∃ g outs,
    (firmware (decode7seg fun _ => 0)).run Globals.boot
      [.message (Delivered.ofText [72, 105] (by decide)), .sample ⟨0, 0, 0, 0, 0⟩] = .ok (g, outs) ∧
    ∀ acts ∈ outs, ∀ chr ∈ decoded acts, InBounds chr := by
  have hc : command (Delivered.ofText [72, 105] (by decide)).text = .text [72, 105] := by
    rw [Delivered.text_ofText]
    rfl
  obtain ⟨g, outs, hr, hiff⟩ := lookups_inBounds_iff (fun _ => 0)
    [.message (Delivered.ofText [72, 105] (by decide)), .sample ⟨0, 0, 0, 0, 0⟩] (by
      intro m hm
      obtain rfl : m = Delivered.ofText [72, 105] (by decide) := by simpa using hm
      rw [hc]
      decide)
  refine ⟨g, outs, hr, hiff.2 ⟨?_, ?_⟩⟩
  · intro m payload hm hp
    obtain rfl : m = Delivered.ofText [72, 105] (by decide) := by simpa using hm
    rw [hc] at hp
    cases hp
  · intro k s hk _
    obtain rfl : k = 1 := by
      rcases k with _ | _ | k
      · cases hk
      · rfl
      · cases hk
    have hview : (Scroller.boot.dispatch (.text [72, 105])).view.toList = [72, 105, 255, 255, 255, 255] := rfl
    show ∀ chr ∈ (Scroller.boot.dispatch (command (Delivered.ofText [72, 105] (by decide)).text)).view.toList, _
    rw [hc, hview]
    intro chr hchr
    simp only [List.mem_cons, List.not_mem_nil, or_false] at hchr
    rcases hchr with rfl | rfl | rfl | rfl | rfl | rfl <;> decide

/-- A sample before any message: the first refresh looks up six zeros, at index -48. -/
theorem lookups_outOfBounds_boot : ¬ ∀ g outs,
    (firmware (decode7seg fun _ => 0)).run Globals.boot [.sample ⟨0, 0, 0, 0, 0⟩] = .ok (g, outs) →
    ∀ acts ∈ outs, ∀ chr ∈ decoded acts, InBounds chr := by
  intro h
  obtain ⟨g, outs, hr⟩ := firmware_total (decode7seg fun _ => 0) [.sample ⟨0, 0, 0, 0, 0⟩] (by simp)
  have h0 := (forall_decoded_iff hr InBounds).1 (h g outs hr) 0 _ rfl 0 (by decide)
  have := (h0 (-48) (by decide)).1
  omega

end NuttyNios
