import NuttyNios.Host
import NuttyNios.Command
/-!
# The telemetry of a run

`Meter` is what the firmware is to a host that reads its telemetry: the filter mode and the last sample.
A `-` or a `+` sets the mode, a sample gives a `Measurement`, and nothing else matters. The firmware
refines it (`step_measures`), since the delay line of an axis is the last sample twenty-five times over;
so what the host makes of the lines of a run is what the meter has measured (`host_measures`).
-/

namespace NuttyNios

/-- What a line of telemetry is about. -/
structure Measurement where
  x : BitVec 32
  y : BitVec 32
  z : BitVec 32
  buttons : BitVec 32
  switches : BitVec 32

namespace Measurement

/-- The line that is printed. -/
def line (m : Measurement) : List Char := telemetry m.x m.y m.z m.buttons m.switches

/-- What the host prints: each coordinate as a signed number of 23 fraction bits. -/
def axes (m : Measurement) : List ℚ := [m.x.toInt / 2 ^ 23, m.y.toInt / 2 ^ 23, m.z.toInt / 2 ^ 23]

end Measurement

structure Meter where
  mode : Int
  x : BitVec 32
  y : BitVec 32
  z : BitVec 32

namespace Meter

def boot : Meter := ⟨0, 0, 0, 0⟩

/-- One axis: the first tap sees the new sample, and all the others the one before it. -/
def filtered (mode : Int) (last data : BitVec 32) : BitVec 32 :=
  ∑ i : Fin 25, (coeffs.table mode).get i * if i.val = 0 then data else last

def measure (m : Meter) (s : Sample) : Measurement :=
  ⟨filtered m.mode m.x s.x, filtered m.mode m.y s.y, filtered m.mode m.z s.z, s.buttons, s.switches⟩

/-- The only commands that matter. -/
def obey (m : Meter) : Command → Meter
  | .filter mode _ _ => { m with mode }
  | _ => m

def step (m : Meter) : Event → Meter × Option Measurement
  | .message msg => (m.obey (command msg.text), none)
  | .sample s => (⟨m.mode, s.x, s.y, s.z⟩, some (m.measure s))

/-- All that is measured in a run. -/
def measurements : Meter → List Event → List Measurement
  | _, [] => []
  | m, e :: es => (m.step e).2.toList ++ measurements (m.step e).1 es

end Meter

/-! ## The firmware as a meter -/

/-- The line an action prints. -/
def Action.line? : Action → Option (List Char)
  | .print line => some line
  | _ => none

/-- The lines among some actions. -/
def printed (acts : List Action) : List (List Char) := acts.filterMap Action.line?

/-- The delay line of an axis is its last sample, all the way through. -/
structure Measures (g : Globals) (m : Meter) : Prop where
  coeffs : g.coeffs = coeffs
  mode : g.filter = m.mode
  x : g.firMemFixedX = Vector.replicate 25 m.x
  y : g.firMemFixedY = Vector.replicate 25 m.y
  z : g.firMemFixedZ = Vector.replicate 25 m.z

theorem boot_measures : Measures Globals.boot Meter.boot := ⟨rfl, rfl, rfl, rfl, rfl⟩

theorem firFilterFixed_replicate (mode : Int) (last data : BitVec 32) :
    firFilterFixed coeffs mode (Vector.replicate 25 last) data =
      (Vector.replicate 25 data, Meter.filtered mode last data) := by
  refine Prod.ext (firFilterFixed_memory ..) ?_
  simp only [firFilterFixed_acc, Meter.filtered]
  refine Finset.sum_congr rfl fun i _ => congrArg _ ?_
  by_cases hi : i.val = 0
  · rw [if_pos hi]
    simp [hi]
  · rw [if_neg hi]
    exact (Vector.getElem_set_ne _ _ (Ne.symm hi)).trans (by simp)

theorem sampled_measures {g : Globals} {m : Meter} (h : Measures g m) (s : Sample) :
    Measures (sampled s g) (m.step (.sample s)).1 ∧
      (sampled s g).filteredCoords = #v[(m.measure s).x, (m.measure s).y, (m.measure s).z] := by
  obtain ⟨hc, hmode, hx, hy, hz⟩ := h
  simp only [sampled, filterX, filterY, filterZ, hc, hmode, hx, hy, hz, firFilterFixed_replicate]
  refine ⟨⟨rfl, rfl, rfl, rfl, rfl⟩, ?_⟩
  ext i hi
  obtain rfl | rfl | rfl : i = 0 ∨ i = 1 ∨ i = 2 := by omega
  all_goals simp [Meter.measure]

/-- What shows on the displays is nothing to a meter. -/
theorem Measures.updateLeds {g : Globals} {m : Meter} (h : Measures g m) :
    Measures (updateLeds g).1 m ∧ printed (updateLeds g).2 = [] := by
  unfold NuttyNios.updateLeds
  split
  · exact ⟨⟨h.coeffs, h.mode, h.x, h.y, h.z⟩, rfl⟩
  · exact ⟨h, rfl⟩

/-- Decoding and writing out six digits prints nothing. -/
theorem printed_hex (chrs : List UInt8) (hex : Vector UInt8 6) : printed (chrs.map .decode ++ writeHex hex) = [] := by
  rw [printed, List.filterMap_append, List.filterMap_map, List.append_eq_nil_iff]
  refine ⟨List.filterMap_eq_nil_iff.2 fun _ _ => rfl, rfl⟩

theorem Measures.scrollHex {g : Globals} {m : Meter} (h : Measures g m) (decode : UInt8 → UInt8) :
    Measures (scrollHex decode g).1 m ∧ printed (scrollHex decode g).2 = [] := by
  unfold NuttyNios.scrollHex
  by_cases hs : g.stopscroll = 0
  · rw [if_pos hs]
    unfold updateHex
    by_cases hd : g.delay = 0
    · rw [if_pos hd]
      simp only [refreshHex, decodeAll_eq]
      exact ⟨⟨h.coeffs, h.mode, h.x, h.y, h.z⟩, printed_hex _ _⟩
    · rw [if_neg hd]
      exact ⟨⟨h.coeffs, h.mode, h.x, h.y, h.z⟩, rfl⟩
  · rw [if_neg hs]
    exact ⟨h, rfl⟩

theorem Command.Effect.measures {decode : UInt8 → UInt8} {g g' : Globals} {acts : List Action} {c : Command} {m : Meter}
    (h : Measures g m) (he : c.Effect decode g g' acts) :
    Measures g' (m.obey c) ∧ printed acts = [] := by
  obtain ⟨hc, hmode, hx, hy, hz⟩ := h
  cases c with
  | leds v =>
    obtain ⟨rfl, rfl⟩ := he
    exact ⟨⟨hc, hmode, hx, hy, hz⟩, rfl⟩
  | score payload =>
    obtain ⟨rfl, six, -, rfl⟩ := he
    exact ⟨⟨hc, hmode, hx, hy, hz⟩, printed_hex _ _⟩
  | filter mode v name =>
    obtain ⟨rfl, word, displayBuff, -, rfl⟩ := he
    exact ⟨⟨hc, rfl, hx, hy, hz⟩, rfl⟩
  | text t =>
    obtain ⟨rfl, word, displayBuff, -, rfl⟩ := he
    exact ⟨⟨hc, hmode, hx, hy, hz⟩, rfl⟩

/-- **A block of the loop body is a step of the meter**, and prints what it has measured. -/
theorem step_measures {decode : UInt8 → UInt8} {g g' : Globals} {acts : List Action} {m : Meter} {e : Event}
    (h : Measures g m) (hs : (firmware decode).step g e = .ok (g', acts)) :
    Measures g' (m.step e).1 ∧ printed acts = (m.step e).2.toList.map Measurement.line := by
  cases e with
  | message msg =>
    exact (dispatch_inv hs).2.measures h
  | sample s =>
    obtain ⟨hm, hcoords⟩ := sampled_measures h s
    obtain ⟨hm₁, hp₁⟩ := hm.scrollHex decode
    obtain ⟨hm₂, hp₂⟩ := hm₁.updateLeds
    change sample decode s g = .ok (g', acts) at hs
    rw [sample_eq, hcoords] at hs
    cases hs
    refine ⟨hm₂, ?_⟩
    show _ :: printed (_ ++ _) = _
    rw [printed, List.filterMap_append]
    change _ :: (printed _ ++ printed _) = _
    rw [hp₁, hp₂]
    rfl

/-! ## What the host makes of it -/

theorem recieveLine_line (decimal : Char → Option Nat) (m : Measurement) :
    recieveLine decimal (wire m.line) = .ok (some m.axes) := by
  obtain ⟨hne, hhead⟩ := fields_head m.x m.y m.z m.buttons m.switches
  simp only [recieveLine, Measurement.line, pyDecode_telemetry, bind, Except.bind, pyStrip_telemetry, hne, hhead,
    or_self, ↓reduceIte, processData_fields]
  rfl

/-- The lines of a run are those of what the meter measures, up to where the run stops. -/
theorem emitted_lines (decode : UInt8 → UInt8) {g : Globals} {m : Meter} (h : Measures g m) (es : List Event) :
    printed ((firmware decode).emitted g es).flatten <+: (m.measurements es).map Measurement.line := by
  induction es generalizing g m with
  | nil => exact List.nil_prefix
  | cons e es ih =>
    simp only [Machine.emitted]
    cases hs : (firmware decode).step g e with
    | error _ => exact List.nil_prefix
    | ok p =>
      obtain ⟨g', acts⟩ := p
      obtain ⟨h', hp⟩ := step_measures h hs
      show printed (acts ++ _) <+: _
      rw [Meter.measurements, List.map_append, ← hp, printed, List.filterMap_append]
      exact (List.prefix_append_right_inj _).2 (ih h')

/-- What the lines of a run that no message stops come to. -/
theorem printed_lines {decode : UInt8 → UInt8} {es : List Event} {g g' : Globals} {m : Meter}
    {outs : List (List Action)}
    (h : Measures g m) (hr : (firmware decode).run g es = .ok (g', outs)) :
    printed outs.flatten = (m.measurements es).map Measurement.line := by
  induction es generalizing g m outs with
  | nil =>
    cases hr
    rfl
  | cons e es ih =>
    obtain ⟨g₁, acts, outs₁, hs, hr₁, rfl⟩ := Machine.run_cons.1 hr
    obtain ⟨h₁, hp⟩ := step_measures h hs
    rw [Meter.measurements, List.map_append, ← hp, ← ih h₁ hr₁, List.flatten_cons, printed, List.filterMap_append]
    rfl

/-- What the host makes of the lines of some measurements. -/
theorem recieveLine_lines (decimal : Char → Option Nat) (ms : List Measurement) :
    (ms.map Measurement.line).map (fun line => recieveLine decimal (wire line)) =
      ms.map fun m => .ok (some m.axes) := by
  rw [List.map_map]
  exact List.map_congr_left fun m _ => recieveLine_line decimal m

/-- **What the host prints is what the meter measures.** `reciever` makes of the lines of a run, one by one,
the axes of the measurements, up to the first message that does not fit the array it is copied to; and if
all messages fit, it has them all. -/
theorem host_measures (decimal : Char → Option Nat) (decode : UInt8 → UInt8) (es : List Event) :
    ((printed ((firmware decode).emitted Globals.boot es).flatten).map
        (fun line => recieveLine decimal (wire line)) <+:
      (Meter.boot.measurements es).map fun m => .ok (some m.axes)) ∧
    ((∀ m, Event.message m ∈ es → (command m.text).Fits) →
      ∃ g outs, (firmware decode).run Globals.boot es = .ok (g, outs) ∧
        (printed outs.flatten).map (fun line => recieveLine decimal (wire line)) =
          (Meter.boot.measurements es).map fun m => .ok (some m.axes)) := by
  constructor
  · obtain ⟨rest, hrest⟩ := emitted_lines decode boot_measures es
    rw [← recieveLine_lines decimal, ← hrest, List.map_append]
    exact List.prefix_append _ _
  · intro hfits
    obtain ⟨g, outs, hr⟩ := firmware_total decode es hfits
    exact ⟨g, outs, hr, by rw [printed_lines boot_measures hr, recieveLine_lines]⟩

/-- The message `"+"`, a sample of 1 and a sample of 0: the host prints the first hard tap, and then the sum of the
others. -/
theorem host_measures_hard : ∃ g outs, (firmware fun c => c).run Globals.boot
      [.message (Delivered.ofText [43] (by decide)), .sample ⟨1, 0, 0, 0, 3⟩, .sample ⟨0, 0, 0, 0, 3⟩] =
        .ok (g, outs) ∧
    (printed outs.flatten).map (fun line => recieveLine (fun _ => none) (wire line)) =
      [.ok (some [-3923 / 2 ^ 23, 0, 0]), .ok (some [3248379 / 2 ^ 23, 0, 0])] := by
  obtain ⟨g, outs, hr, hprint⟩ := (host_measures (fun _ => none) (fun c => c)
    [.message (Delivered.ofText [43] (by decide)), .sample ⟨1, 0, 0, 0, 3⟩, .sample ⟨0, 0, 0, 0, 3⟩]).2 (by
      intro m hm
      simp only [List.mem_cons, Event.message.injEq, reduceCtorEq, List.not_mem_nil, or_false] at hm
      obtain rfl := hm
      rw [Delivered.text_ofText]
      decide)
  have haxes : (Meter.boot.measurements [.message (Delivered.ofText [43] (by decide)), .sample ⟨1, 0, 0, 0, 3⟩,
      .sample ⟨0, 0, 0, 0, 3⟩]).map Measurement.axes =
      [[-3923 / 2 ^ 23, 0, 0], [3248379 / 2 ^ 23, 0, 0]] := by decide +kernel
  refine ⟨g, outs, hr, hprint.trans ?_⟩
  rw [← Function.comp_def (fun axes : List ℚ => (.ok (some axes) : Except _ _)) Measurement.axes, ← List.map_map, haxes]
  rfl

end NuttyNios
