import NuttyNios.Command
/-!
# The main loop, statement by statement (main.c:179-185, 228-341)

`Main` is the state of the program at a statement boundary: the next statement (`Pc`), the
receive loop's locals, the globals of the loop body, and the two globals it shares with the timer
interrupt. A step is either the next statement of the loop or a whole `get_accler_isr`, which may
come at any boundary. The dispatch block is one step: it uses nothing the interrupt writes.

Each coordinate carries the number of the `get_accler_isr` call that stored it, and `passes` records
what each iteration gave to its three filter calls. Neither is read by the program.

`main_globals` connects the two views of the loop: what the statements leave in the globals, with
interrupts anywhere, is what some sequence of dispatches and samples leaves (`firmware`).
-/

namespace NuttyNios
open Buffer

/-- The next statement. -/
inductive Pc
  | read                        -- :229-233
  | recv (left : List UInt8)    -- :234, with the bytes still to go
  | handle                      -- :256
  | test                        -- :314
  | filterX
  | filterY
  | filterZ
  | buttons
  | switches
  | print
  | flush
  | hex
  | leds
  | clear                       -- :336
deriving DecidableEq

/-- A coordinate and the interrupt that stored it; 0 is the initial value. -/
structure Reading where
  value : BitVec 32
  isr : Nat

/-- The readings one iteration passed to the three filters. -/
structure Pass where
  x : Reading
  y : Reading
  z : Reading

structure Main where
  pc : Pc
  rx : Rx
  globals : Globals
  coords : Vector Reading 3
  coordDataReady : Bool
  /-- The number of interrupts so far. -/
  isrs : Nat
  /-- The readings the current iteration has passed on the first two axes. -/
  passX : Reading
  passY : Reading
  passes : List Pass

/-- The program at the first `while(1)`. -/
def Main.boot (rx : Rx) : Main where
  pc := .read
  rx := rx
  globals := Globals.boot
  coords := Vector.replicate 3 ⟨0, 0⟩
  coordDataReady := false
  isrs := 0
  passX := ⟨0, 0⟩
  passY := ⟨0, 0⟩
  passes := []

/-- `get_accler_isr` (main.c:179). -/
def Main.getAcclerIsr (x y z : BitVec 32) (s : Main) : Main :=
  { s with
    coords := #v[⟨x, s.isrs + 1⟩, ⟨y, s.isrs + 1⟩, ⟨z, s.isrs + 1⟩]
    coordDataReady := true
    isrs := s.isrs + 1 }

/-- What the devices give a statement that reads one: `read()`'s bytes, a port's value. -/
structure Env where
  stdin : Option (List UInt8)
  port : BitVec 32

section
variable (decode : UInt8 → UInt8)

/-- The next statement of the loop. -/
def Main.stmt (env : Env) (s : Main) : Except Fault (Main × List Action) :=
  match s.pc with
  | .read => .ok ({ s with pc := .recv (env.stdin.getD []) }, [])
  | .recv [] => .ok ({ s with pc := .handle }, [])
  | .recv (c :: left) => do
    let rx ← s.rx.recv c
    return ({ s with rx, pc := .recv left }, [])
  | .handle =>
    if s.rx.messageIsReady then do
      let (globals, acts) ← dispatch decode ⟨s.rx.message, s.rx.currMessageSize⟩ s.globals
      return ({ s with globals, rx := { s.rx with messageIsReady := false }, pc := .test }, acts)
    else .ok ({ s with pc := .test }, [])
  | .test => .ok ({ s with pc := if s.coordDataReady then .filterX else .read }, [])
  | .filterX =>
    .ok ({ s with globals := filterX (s.coords.get 0).value s.globals, passX := s.coords.get 0, pc := .filterY }, [])
  | .filterY =>
    .ok ({ s with globals := filterY (s.coords.get 1).value s.globals, passY := s.coords.get 1, pc := .filterZ }, [])
  | .filterZ =>
    .ok ({ s with globals := filterZ (s.coords.get 2).value s.globals,
                  passes := s.passes ++ [⟨s.passX, s.passY, s.coords.get 2⟩], pc := .buttons }, [])
  | .buttons => .ok ({ s with globals := { s.globals with buttons := env.port }, pc := .switches }, [])
  | .switches => .ok ({ s with globals := { s.globals with switches := env.port }, pc := .print }, [])
  | .print => do
    let line ← printSample s.globals
    return ({ s with pc := .flush }, [.print line])
  | .flush => .ok ({ s with pc := .hex }, [])
  | .hex =>
    let (globals, acts) := scrollHex decode s.globals
    .ok ({ s with globals, pc := .leds }, acts)
  | .leds =>
    let (globals, acts) := updateLeds s.globals
    .ok ({ s with globals, pc := .clear }, acts)
  | .clear => .ok ({ s with coordDataReady := false, pc := .read }, [])

/-- A statement of the loop, or the interrupt. -/
inductive Input
  | stmt (env : Env)
  | isr (x y z : BitVec 32)

def Main.step (s : Main) : Input → Except Fault (Main × List Action)
  | .stmt env => s.stmt decode env
  | .isr x y z => .ok (s.getAcclerIsr x y z, [])

/-- The program: statements and interrupts, in any order. -/
def mainLoop : Machine Main Input (List Action) Fault := ⟨Main.step decode⟩

end

/-! ## The two statements that can stop the program -/

section
variable {decode : UInt8 → UInt8} {env : Env} {s s' : Main} {acts : List Action}

theorem stmt_recv {c : UInt8} {left : List UInt8} (hpc : s.pc = .recv (c :: left))
    (hs : s.stmt decode env = .ok (s', acts)) :
    ∃ rx, s.rx.recv c = .ok rx ∧ s' = { s with rx, pc := .recv left } ∧ acts = [] := by
  simp only [Main.stmt, hpc] at hs
  cases hr : s.rx.recv c with
  | error e => rw [hr] at hs; cases hs
  | ok rx =>
    rw [hr] at hs
    cases hs
    exact ⟨rx, rfl, rfl, rfl⟩

theorem stmt_handle (hpc : s.pc = .handle) (hs : s.stmt decode env = .ok (s', acts)) :
    (s.rx.messageIsReady = true ∧ ∃ globals,
      dispatch decode ⟨s.rx.message, s.rx.currMessageSize⟩ s.globals = .ok (globals, acts) ∧
      s' = { s with globals, rx := { s.rx with messageIsReady := false }, pc := .test }) ∨
    (s.rx.messageIsReady = false ∧ s' = { s with pc := .test } ∧ acts = []) := by
  simp only [Main.stmt, hpc] at hs
  split at hs
  · next hready =>
    cases hd : dispatch decode ⟨s.rx.message, s.rx.currMessageSize⟩ s.globals with
    | error e => rw [hd] at hs; cases hs
    | ok r =>
      rw [hd] at hs
      cases hs
      exact .inl ⟨hready, r.1, rfl, rfl⟩
  · next hready =>
    cases hs
    exact .inr ⟨Bool.eq_false_iff.2 hready, rfl, rfl⟩

end

/-! ## The receive loop's locals, a character at a time -/

theorem recv_holds {rx rx' : Rx} {p : List UInt8} {last : Option (List UInt8)} {c : UInt8} (h : rx.Holds p last)
    (hr : rx.recv c = .ok rx') : ∃ p' last', rx'.Holds p' last' := by
  by_cases hlt : p.length < 1024
  · by_cases hc : c = END_RECIEVE
    · subst hc
      obtain ⟨rx₁, h1, hold⟩ := recv_end h hlt
      rw [h1] at hr
      cases hr
      exact ⟨[], some p, hold⟩
    · obtain ⟨rx₁, h1, hold⟩ := recv_payload h hc hlt
      rw [h1] at hr
      cases hr
      exact ⟨p ++ [c], last, hold⟩
  · rw [recv_full h hlt] at hr
    cases hr

/-- What waits in `message` is a delivered message. -/
theorem Rx.Holds.delivered {rx : Rx} {p : List UInt8} {last : Option (List UInt8)} (h : rx.Holds p last)
    (hr : rx.messageIsReady = true) : ∃ m : Delivered, m.toMessage = ⟨rx.message, rx.currMessageSize⟩ := by
  rw [h.ready] at hr
  obtain ⟨seg, rfl⟩ := Option.isSome_iff_exists.1 hr
  obtain ⟨hs, ht⟩ := h.msg seg rfl
  have hd : Delivers (some ⟨rx.message, rx.currMessageSize⟩) (some seg) := ⟨hs, by rw [hs]; exact ht⟩
  obtain ⟨m, hm, -⟩ := hd.delivered
  exact ⟨m, hm⟩

theorem Rx.Holds.taken {rx : Rx} {p : List UInt8} {last : Option (List UInt8)} (h : rx.Holds p last) :
    ({ rx with messageIsReady := false } : Rx).Holds p none :=
  ⟨h.ind, h.buff, rfl, fun _ h => by cases h⟩

/-! ## From statements to dispatches and samples -/

/-- A statement boundary, from the globals `g` at the last complete block: the globals there and
the actions since, by the statements of the sample block already done. -/
def Partial (decode : UInt8 → UInt8) (g : Globals) : Pc → Globals → List Action → Prop
  | .filterY, now, acts => acts = [] ∧ ∃ x, now = filterX x g
  | .filterZ, now, acts => acts = [] ∧ ∃ x y, now = filterY y (filterX x g)
  | .buttons, now, acts => acts = [] ∧ ∃ x y z, now = filterZ z (filterY y (filterX x g))
  | .switches, now, acts => acts = [] ∧ ∃ x y z b, now = { filterZ z (filterY y (filterX x g)) with buttons := b }
  | .print, now, acts => acts = [] ∧ ∃ s, now = sampled s g
  | .flush, now, acts => ∃ s line, printSample now = .ok line ∧ now = sampled s g ∧ acts = [.print line]
  | .hex, now, acts => ∃ s line, printSample now = .ok line ∧ now = sampled s g ∧ acts = [.print line]
  | .leds, now, acts => ∃ s line, printSample (sampled s g) = .ok line ∧
      now = (scrollHex decode (sampled s g)).1 ∧ acts = .print line :: (scrollHex decode (sampled s g)).2
  | .clear, now, acts => ∃ s, sample decode s g = .ok (now, acts)
  | _, now, acts => acts = [] ∧ now = g

/-- **A statement advances the block it is in, or completes it.** -/
theorem stmt_partial {decode : UInt8 → UInt8} {g : Globals} {s s' : Main} {before acts : List Action} {env : Env}
    {p : List UInt8} {last : Option (List UInt8)} (hrx : s.rx.Holds p last)
    (h : Partial decode g s.pc s.globals before) (hs : s.stmt decode env = .ok (s', acts)) :
    (∃ p' last', s'.rx.Holds p' last') ∧
    (Partial decode g s'.pc s'.globals (before ++ acts) ∨
      ∃ e, (firmware decode).step g e = .ok (s'.globals, before ++ acts) ∧
        Partial decode s'.globals s'.pc s'.globals []) := by
  obtain ⟨pc, rx, now, coords, ready, isrs, passX, passY, passes⟩ := s
  cases pc with
  | read =>
    cases hs
    exact ⟨⟨p, last, hrx⟩, .inl ⟨by rw [h.1]; rfl, h.2⟩⟩
  | recv left =>
    cases left with
    | nil =>
      cases hs
      exact ⟨⟨p, last, hrx⟩, .inl ⟨by rw [h.1]; rfl, h.2⟩⟩
    | cons c left =>
      obtain ⟨rx', hr, rfl, rfl⟩ := stmt_recv rfl hs
      exact ⟨recv_holds hrx hr, .inl ⟨by rw [h.1]; rfl, h.2⟩⟩
  | handle =>
    obtain ⟨rfl, rfl⟩ := h
    obtain ⟨hready, globals, hd, rfl⟩ | ⟨-, rfl, rfl⟩ := stmt_handle rfl hs
    · obtain ⟨msg, hm⟩ := hrx.delivered hready
      rw [← hm] at hd
      exact ⟨⟨p, none, hrx.taken⟩, .inr ⟨.message msg, hd, rfl, rfl⟩⟩
    · exact ⟨⟨p, last, hrx⟩, .inl ⟨rfl, rfl⟩⟩
  | test =>
    cases hs
    refine ⟨⟨p, last, hrx⟩, .inl ?_⟩
    cases ready <;> exact ⟨by rw [h.1]; rfl, h.2⟩
  | filterX =>
    cases hs
    exact ⟨⟨p, last, hrx⟩, .inl ⟨by rw [h.1]; rfl, (coords.get 0).value, by rw [h.2]⟩⟩
  | filterY =>
    cases hs
    obtain ⟨rfl, x, rfl⟩ := h
    exact ⟨⟨p, last, hrx⟩, .inl ⟨rfl, x, (coords.get 1).value, rfl⟩⟩
  | filterZ =>
    cases hs
    obtain ⟨rfl, x, y, rfl⟩ := h
    exact ⟨⟨p, last, hrx⟩, .inl ⟨rfl, x, y, (coords.get 2).value, rfl⟩⟩
  | buttons =>
    cases hs
    obtain ⟨rfl, x, y, z, rfl⟩ := h
    exact ⟨⟨p, last, hrx⟩, .inl ⟨rfl, x, y, z, env.port, rfl⟩⟩
  | switches =>
    cases hs
    obtain ⟨rfl, x, y, z, b, rfl⟩ := h
    exact ⟨⟨p, last, hrx⟩, .inl ⟨rfl, ⟨x, y, z, b, env.port⟩, rfl⟩⟩
  | print =>
    obtain ⟨rfl, smp, rfl⟩ := h
    simp only [Main.stmt] at hs
    cases hl : printSample (sampled smp g) with
    | error e => rw [hl] at hs; cases hs
    | ok line =>
      rw [hl] at hs
      cases hs
      exact ⟨⟨p, last, hrx⟩, .inl ⟨smp, line, hl, rfl, rfl⟩⟩
  | flush =>
    cases hs
    obtain ⟨smp, line, hl, rfl, rfl⟩ := h
    exact ⟨⟨p, last, hrx⟩, .inl ⟨smp, line, hl, rfl, rfl⟩⟩
  | hex =>
    cases hs
    obtain ⟨smp, line, hl, rfl, rfl⟩ := h
    exact ⟨⟨p, last, hrx⟩, .inl ⟨smp, line, hl, rfl, rfl⟩⟩
  | leds =>
    cases hs
    obtain ⟨smp, line, hl, rfl, rfl⟩ := h
    refine ⟨⟨p, last, hrx⟩, .inl ⟨smp, ?_⟩⟩
    rw [printSample_eq] at hl
    cases hl
    exact sample_eq decode smp g
  | clear =>
    cases hs
    obtain ⟨smp, hr⟩ := h
    exact ⟨⟨p, last, hrx⟩, .inr ⟨.sample smp, by rw [List.append_nil]; exact hr, rfl, rfl⟩⟩

/-- **What the statements do is what some dispatches and samples do**, wherever the interrupts fall.
At any boundary of a run, the globals and the actions so far are those of a run of the loop body's
blocks, up to the block in progress. -/
theorem main_globals {decode : UInt8 → UInt8} {rx : Rx} {p : List UInt8} {last : Option (List UInt8)}
    (hrx : rx.Holds p last) {inputs : List Input} {s : Main} {outs : List (List Action)}
    (hr : (mainLoop decode).run (Main.boot rx) inputs = .ok (s, outs)) :
    (∃ p' last', s.rx.Holds p' last') ∧ ∃ events g outs' acts,
      (firmware decode).run Globals.boot events = .ok (g, outs') ∧
      Partial decode g s.pc s.globals acts ∧ outs.flatten = outs'.flatten ++ acts := by
  have h0 : Partial decode Globals.boot (Main.boot rx).pc (Main.boot rx).globals [] := ⟨rfl, rfl⟩
  refine Machine.run_history (M := mainLoop decode) (I := fun _ s outs => (∃ p' last', s.rx.Holds p' last') ∧
    ∃ events g outs' acts, (firmware decode).run Globals.boot events = .ok (g, outs') ∧
      Partial decode g s.pc s.globals acts ∧ outs.flatten = outs'.flatten ++ acts)
    ⟨⟨p, last, hrx⟩, [], Globals.boot, [], [], rfl, h0, rfl⟩ ?_ hr
  rintro is s outs i s' acts - ⟨⟨p', last', hrx'⟩, events, g, outs', before, hrun, hp, hacts⟩ hs
  cases i with
  | isr x y z =>
    cases hs
    exact ⟨⟨p', last', hrx'⟩, events, g, outs', before, hrun, hp, by simpa using hacts⟩
  | stmt env =>
    obtain ⟨hrx₁, hp₁ | ⟨e, he, hp₁⟩⟩ := stmt_partial hrx' hp hs
    · refine ⟨hrx₁, events, g, outs', before ++ acts, hrun, hp₁, ?_⟩
      simp [hacts]
    · refine ⟨hrx₁, events ++ [e], s'.globals, outs' ++ [before ++ acts], [],
        Machine.run_concat.2 ⟨g, outs', before ++ acts, hrun, he, rfl⟩, hp₁, ?_⟩
      simp [hacts]

end NuttyNios
