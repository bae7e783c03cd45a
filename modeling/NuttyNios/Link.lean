import NuttyNios.JtagWrite
import NuttyNios.JtagRead
import NuttyNios.Telemetry
import NuttyNios.Handover
/-!
# From end to end

The two directions of the line, with the program at one end and the host at the other. `handed_from_host`:
what the program hands to its dispatch block are commands the host sent, in the order it sent them.
`measured_by_host`: what the host prints are measurements of the meter that the firmware is, none
missing before the last. Both hold however the interrupts, the host and the calls come.
-/

namespace NuttyNios
open Buffer Frames

namespace Jtag

/-- What `read()` gives the receive loop: -1 for an error. -/
def Out.read? : Out → Option (Option (List UInt8))
  | .read (.ok bytes) => some (some bytes)
  | .read (.error _) => some none
  | _ => none

/-- What the reads of a run gave, in order. -/
def reads (outs : List Out) : List (Option (List UInt8)) := outs.filterMap Out.read?

theorem stream_reads (outs : List Out) : stream (reads outs) = returned outs := by
  induction outs with
  | nil => rfl
  | cons o outs ih =>
    have hcons : returned (o :: outs) = o.returned ++ returned outs := rfl
    rw [hcons, ← ih]
    cases o with
    | read r => cases r <;> rfl
    | _ => rfl

/-- **Commands arrive whole and in order.** If what the host sent fits the receive buffers, and its commands
the arrays they are copied to, no run of the program on what it reads from the driver stops. In every state
framing is sound, and what was handed to the dispatch block are segments the host terminated, in the order
it sent them. -/
theorem handed_from_host (decode : UInt8 → UInt8) (message messagebuff : Vector UInt8 1024) (size : Nat) (alarm : Bool)
    (es : List Step) :
    ∃ s outs, jtagUart.run (reset alarm) es = .ok (s, outs) ∧
      (Fits (received outs) → (∀ seg ∈ frames END_RECIEVE (received outs), (command seg).Fits) →
        ∀ turns, ∃ f acts, (fed decode).run (Fed.boot (Rx.boot message messagebuff size) (reads outs)) turns =
            .ok (f, acts) ∧ f.Reads (reads outs) ∧ f.Sound ∧
          (f.handed.map Message.text).Sublist (frames END_RECIEVE (received outs))) := by
  obtain ⟨s, outs, hr, -⟩ := run_ok alarm es
  have hread : stream (reads outs) <+: received outs := by
    rw [stream_reads]
    exact ⟨s.inFlight, (received_run hr).symm⟩
  refine ⟨s, outs, hr, fun hfit hcommands turns => ?_⟩
  obtain ⟨later, hlater⟩ := hread
  have h0 := boot_holds message messagebuff size
  obtain ⟨f, acts, hrun, hf, hreads⟩ := fed_total decode h0 (fits_append.1 (hlater ▸ hfit)).1
    (fun seg hseg => hcommands seg
      ((frames_mono ⟨later, hlater⟩).subset ((lasts_stream (reads outs)).subset hseg))) turns
  refine ⟨f, acts, hrun, hreads, hf.sound h0, (hf.sound h0).ordered.trans ?_⟩
  exact (frames_mono ((hreads.initial (List.prefix_refl f.done)).1.trans ⟨later, hlater⟩)).sublist

/-- The host sends `1$`, and the program reads it. -/
def ledsOn : List Step :=
  [.cpu, .hostSend 49, .hostSend 36, .hostPause, .irq] ++ List.replicate 16 .cpu ++ [.read 256 true] ++
    List.replicate 12 .cpu

/-- The segment crosses the line and reaches the dispatch block. -/
theorem handed_from_host_leds : ∃ s outs, jtagUart.run (reset true) ledsOn = .ok (s, outs) ∧
    received outs = [49, 36] ∧ reads outs = [some [49, 36]] ∧
    (∀ turns, ∃ f acts, (fed fun c => c).run (Fed.boot .zeroed (reads outs)) turns = .ok (f, acts) ∧
      f.Reads (reads outs) ∧ f.Sound ∧
      (f.handed.map Message.text).Sublist (frames END_RECIEVE (received outs))) ∧
    (fed fun c => c).Ever (fun f => f.handed.map Message.text = [[49]]) (Fed.boot .zeroed (reads outs))
      (List.replicate 16 (.stmt 0)) := by
  obtain ⟨s, outs, hr, h⟩ :=
    handed_from_host (fun c => c) (Vector.replicate 1024 0) (Vector.replicate 1024 0) 0 true ledsOn
  have hgave : (jtagUart.run (reset true) ledsOn).toOption.map (fun p => (received p.2, reads p.2)) =
      some ([49, 36], [some [49, 36]]) := by decide +kernel
  rw [hr] at hgave
  obtain ⟨hreceived, hreads⟩ : received outs = [49, 36] ∧ reads outs = [some [49, 36]] := by
    simpa [Except.toOption] using hgave
  refine ⟨s, outs, hr, hreceived, hreads, h (by rw [hreceived]; decide) (by rw [hreceived]; decide), ?_⟩
  rw [hreads]
  exact hands_over_all (fun c => c) (boot_holds _ _ 0) (by decide) (by decide) (by decide) (by decide)
    (by rw [boot_work]; decide)

end Jtag

/-! ## Lines -/

/-- `'\\n'` -/
def NEWLINE : UInt8 := 10

/-- A line without its newline. -/
def Measurement.body (m : Measurement) : List Char := [','].intercalate (fields m.x m.y m.z m.buttons m.switches)

theorem Measurement.line_eq (m : Measurement) : wire m.line = wire m.body ++ [NEWLINE] := by
  rw [Measurement.line, telemetry_eq, wire, List.map_append]
  rfl

theorem Measurement.newline_not_mem (m : Measurement) : NEWLINE ∉ wire m.body := by
  intro h
  obtain ⟨c, hc, hnl⟩ := List.mem_map.1 h
  rcases mem_fields hc with rfl | hplain
  · exact absurd hnl (by decide)
  · have hbyte : c.toNat % 256 = 10 := congrArg UInt8.toNat hnl
    have hten : c.toNat = 10 := by
      have hlt := hplain.1
      omega
    have hspace := hplain.2.1
    simp [isPySpace, hten] at hspace

/-- The bytes of some lines. -/
def wireLines (lines : List (List Char)) : List UInt8 := (lines.map wire).flatten

theorem frames_wireLines (ms : List Measurement) :
    frames NEWLINE (wireLines (ms.map Measurement.line)) = ms.map fun m => wire m.body := by
  induction ms with
  | nil => exact (frames_of_not_mem List.not_mem_nil).1
  | cons m ms ih =>
    have hcons : wireLines ((m :: ms).map Measurement.line) =
        wire m.body ++ NEWLINE :: wireLines (ms.map Measurement.line) := by
      show wire m.line ++ wireLines (ms.map Measurement.line) = _
      rw [m.line_eq, List.append_assoc]
      rfl
    rw [hcons, (frames_append_cons m.newline_not_mem _).1, ih]
    rfl

/-- The lines the host reads off what it has taken, each with its newline. -/
def hostLines (bytes : List UInt8) : List (List UInt8) := (frames NEWLINE bytes).map (· ++ [NEWLINE])

theorem wireLines_mono {ls ls' : List (List Char)} (h : ls <+: ls') : wireLines ls <+: wireLines ls' := by
  obtain ⟨more, rfl⟩ := h
  rw [wireLines, wireLines, List.map_append, List.flatten_append]
  exact List.prefix_append _ _

/-- **Measurements arrive whole and in order.** If the bytes the writes have taken are those of the lines
the firmware prints in a run, then whatever the host has taken so far, it prints for the complete lines
of it the measurements of the run, from the first on and leaving none out. -/
theorem measured_by_host (decimal : Char → Option Nat) (decode : UInt8 → UInt8) (events : List Event) (alarm : Bool)
    (es : List Jtag.Step) :
    ∃ s outs, jtagUart.run (Jtag.reset alarm) es = .ok (s, outs) ∧
      (Jtag.accepted outs ++ s.task.taken <+:
          wireLines (printed ((firmware decode).emitted Globals.boot events).flatten) →
        (hostLines (Jtag.transmitted outs)).map (recieveLine decimal) <+:
          (Meter.boot.measurements events).map fun m => .ok (some m.axes)) := by
  obtain ⟨s, outs, hr, -⟩ := Jtag.run_ok alarm es
  refine ⟨s, outs, hr, fun htext => ?_⟩
  have htaken : Jtag.transmitted outs <+: wireLines ((Meter.boot.measurements events).map Measurement.line) := by
    rw [Jtag.accepted_run hr] at htext
    exact ((List.prefix_append _ _).trans htext).trans (wireLines_mono (emitted_lines decode boot_measures events))
  have hlines := frames_mono (t := NEWLINE) htaken
  rw [frames_wireLines] at hlines
  obtain ⟨more, hmore⟩ := hlines
  have hall := congrArg (List.map fun l => recieveLine decimal (l ++ [NEWLINE])) hmore
  rw [List.map_append, List.map_map] at hall
  rw [hostLines, List.map_map]
  refine ⟨_, hall.trans (List.map_congr_left fun m _ => ?_)⟩
  show recieveLine decimal (wire m.body ++ [NEWLINE]) = _
  rw [← m.line_eq]
  exact recieveLine_line decimal m

/-- The program writes one line, and the host takes it. -/
def oneLine : List Jtag.Step :=
  [.cpu, .write (wire (telemetry 0 0 0 0 0)) true] ++ List.replicate 18 .cpu ++ [.irq] ++ List.replicate 20 .cpu ++
    List.replicate 10 .hostTake

/-- The line crosses, and the host prints the sample. -/
theorem measured_by_host_line : ∃ s outs,
    jtagUart.run (Jtag.reset true) oneLine = .ok (s, outs) ∧
    hostLines (Jtag.transmitted outs) = [wire (telemetry 0 0 0 0 0)] ∧
    (hostLines (Jtag.transmitted outs)).map (recieveLine fun _ => none) <+:
      (Meter.boot.measurements [.sample ⟨0, 0, 0, 0, 0⟩]).map fun m => .ok (some m.axes) := by
  obtain ⟨s, outs, hr, h⟩ := measured_by_host (fun _ => none) (fun c => c) [.sample ⟨0, 0, 0, 0, 0⟩] true oneLine
  have hgave : (jtagUart.run (Jtag.reset true) oneLine).toOption.map
      (fun p => (Jtag.accepted p.2 ++ p.1.task.taken, Jtag.transmitted p.2)) =
      some (wire (telemetry 0 0 0 0 0), wire (telemetry 0 0 0 0 0)) := by decide +kernel
  rw [hr] at hgave
  obtain ⟨htaken, htransmitted⟩ : Jtag.accepted outs ++ s.task.taken = wire (telemetry 0 0 0 0 0) ∧
      Jtag.transmitted outs = wire (telemetry 0 0 0 0 0) := by
    simpa [Except.toOption] using hgave
  have hprinted : wireLines (printed ((firmware fun c => c).emitted Globals.boot [.sample ⟨0, 0, 0, 0, 0⟩]).flatten) =
      wire (telemetry 0 0 0 0 0) := by decide +kernel
  refine ⟨s, outs, hr, by rw [htransmitted]; decide +kernel, h ?_⟩
  rw [htaken, hprinted]

end NuttyNios
