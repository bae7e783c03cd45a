import NuttyNios.Main
/-!
# Commands under the whole loop (main.c:217-311)

`Fed` is the program with the results its reads will have: the loop of `Main`, dispatch block and
interrupts included, and the reads it has made so far. Its runs are those of the loop (`fed_main`,
`main_fed`). Its receive loop is the `receiver` (`fed_follows`): the two have made the same reads, and what
was handed to the dispatch block is what the receiver put out. But a message that does not fit the array
it is copied to ends the run there (`Follows.stop`). So

* `framing_sound_iff`: framing is sound in every state exactly if every message handed over fits;
* `segments_dispatched_iff`: no segment is dropped exactly if no read brings two terminators, and every
  segment but the last fits.

How many statements a run needs for its reads is `Fed.work`; the interrupts may come anywhere.
-/

namespace NuttyNios
open Buffer Frames

/-- What waits for the dispatch block, if `message_is_ready`. -/
def Rx.waiting (rx : Rx) : Option Message :=
  if rx.messageIsReady then some ⟨rx.message, rx.currMessageSize⟩ else none

/-- The program, the reads it has made and the results of its next ones; after them `read()` returns
-1. `handed` are the messages the dispatch block was reached with. -/
structure Fed where
  main : Main
  done : List (Option (List UInt8))
  more : List (Option (List UInt8))
  handed : List Message

def Fed.boot (rx : Rx) (reads : List (Option (List UInt8))) : Fed := ⟨Main.boot rx, [], reads, []⟩

/-- A statement of the loop, with the value of the port it may read, or the interrupt. -/
inductive Turn
  | stmt (port : BitVec 32)
  | isr (x y z : BitVec 32)

def Turn.isStmt : Turn → Bool
  | .stmt _ => true
  | .isr _ _ _ => false

def Fed.input (f : Fed) : Turn → Input
  | .stmt port => .stmt ⟨f.more.headD none, port⟩
  | .isr x y z => .isr x y z

/-- What a statement leaves of the reads, and whether it leads to the dispatch block with a message. -/
def Fed.after (f : Fed) (main : Main) : Fed :=
  match f.main.pc with
  | .read => { f with main, done := f.done ++ [f.more.headD none], more := f.more.tail }
  | .recv [] => { f with main, handed := f.handed ++ main.rx.waiting.toList }
  | _ => { f with main }

def Fed.turn (f : Fed) (main : Main) : Turn → Fed
  | .stmt _ => f.after main
  | .isr _ _ _ => { f with main }

section
variable (decode : UInt8 → UInt8)

def Fed.step (f : Fed) (t : Turn) : Except Fault (Fed × List Action) := do
  let (main, acts) ← f.main.step decode (f.input t)
  return (f.turn main t, acts)

/-- The program on given reads: statements and interrupts, in any order. -/
def fed : Machine Fed Turn (List Action) Fault := ⟨Fed.step decode⟩

end

/-! ## What a statement does to the receive loop -/

/-- Between the dispatch block and the end of the next read. -/
def Pc.away : Pc → Bool
  | .recv _ | .handle => false
  | _ => true

theorem Rx.lower_of_not_ready {rx : Rx} (h : rx.messageIsReady = false) : { rx with messageIsReady := false } = rx := by
  obtain ⟨message, messagebuff, ind, ready, size⟩ := rx
  cases h
  rfl

section
variable {decode : UInt8 → UInt8} {env : Env} {s s' : Main} {acts : List Action}

theorem stmt_receives (hs : s.stmt decode env = .ok (s', acts)) :
    (s.pc = .read ∧ s'.pc = .recv (env.stdin.getD []) ∧ s'.rx = s.rx) ∨
    (∃ c left, s.pc = .recv (c :: left) ∧ s'.pc = .recv left ∧ s.rx.recv c = .ok s'.rx) ∨
    (s.pc = .recv [] ∧ s'.pc = .handle ∧ s'.rx = s.rx) ∨
    (s.pc = .handle ∧ s'.pc = .test ∧ s'.rx = { s.rx with messageIsReady := false } ∧
      ∀ m, s.rx.waiting = some m → ∃ globals, dispatch decode m s.globals = .ok (globals, acts)) ∨
    (s.pc ≠ .read ∧ s.pc.away ∧ s'.pc.away ∧ s'.rx = s.rx) := by
  obtain ⟨pc, rx, now, coords, ready, isrs, passX, passY, passes⟩ := s
  cases pc with
  | read =>
    cases hs
    exact .inl ⟨rfl, rfl, rfl⟩
  | recv left =>
    cases left with
    | nil =>
      cases hs
      exact .inr (.inr (.inl ⟨rfl, rfl, rfl⟩))
    | cons c left =>
      obtain ⟨rx', hr, rfl, -⟩ := stmt_recv rfl hs
      exact .inr (.inl ⟨c, left, rfl, rfl, hr⟩)
  | handle =>
    refine .inr (.inr (.inr (.inl ?_)))
    obtain ⟨hready, globals, hd, rfl⟩ | ⟨hready, rfl, -⟩ := stmt_handle rfl hs
    · refine ⟨rfl, rfl, rfl, fun m hm => ⟨globals, ?_⟩⟩
      rw [Rx.waiting, if_pos hready] at hm
      cases hm
      exact hd
    · refine ⟨rfl, rfl, (Rx.lower_of_not_ready hready).symm, fun m hm => ?_⟩
      rw [Rx.waiting, if_neg (by rw [hready]; exact Bool.false_ne_true)] at hm
      cases hm
  | test =>
    cases hs
    refine .inr (.inr (.inr (.inr ⟨Pc.noConfusion, rfl, ?_, rfl⟩)))
    cases ready <;> rfl
  | print =>
    simp only [Main.stmt, printSample_eq] at hs
    cases hs
    exact .inr (.inr (.inr (.inr ⟨Pc.noConfusion, rfl, rfl, rfl⟩)))
  | _ =>
    cases hs
    exact .inr (.inr (.inr (.inr ⟨Pc.noConfusion, rfl, rfl, rfl⟩)))

theorem stmt_error {e : Fault} (hs : s.stmt decode env = .error e) :
    (∃ c left, s.pc = .recv (c :: left) ∧ s.rx.recv c = .error e) ∨
    (s.pc = .handle ∧ ∃ m, s.rx.waiting = some m ∧ dispatch decode m s.globals = .error e) := by
  obtain ⟨pc, rx, now, coords, ready, isrs, passX, passY, passes⟩ := s
  cases pc with
  | recv left =>
    cases left with
    | nil => cases hs
    | cons c left => exact .inl ⟨c, left, rfl, bind_pure_error hs⟩
  | handle =>
    refine .inr ⟨rfl, ⟨rx.message, rx.currMessageSize⟩, ?_⟩
    simp only [Main.stmt] at hs
    split at hs
    · next hready =>
      exact ⟨if_pos hready, bind_pure_error hs⟩
    · cases hs
  | print =>
    simp only [Main.stmt, printSample_eq] at hs
    cases hs
  | _ => cases hs

/-- How many statements there are at most to the next read. -/
def Pc.left : Pc → Nat
  | .read => 0
  | .recv left => left.length + 13
  | .handle => 12
  | .test => 11
  | .filterX => 10
  | .filterY => 9
  | .filterZ => 8
  | .buttons => 7
  | .switches => 6
  | .print => 5
  | .flush => 4
  | .hex => 3
  | .leds => 2
  | .clear => 1

theorem stmt_left (hpc : s.pc ≠ .read) (hs : s.stmt decode env = .ok (s', acts)) : s'.pc.left < s.pc.left := by
  obtain ⟨pc, rx, now, coords, ready, isrs, passX, passY, passes⟩ := s
  cases pc with
  | read => exact absurd rfl hpc
  | recv left =>
    cases left with
    | nil =>
      cases hs
      simp [Pc.left]
    | cons c left =>
      obtain ⟨rx', -, rfl, -⟩ := stmt_recv rfl hs
      simp [Pc.left]
  | handle =>
    obtain ⟨-, globals, -, rfl⟩ | ⟨-, rfl, -⟩ := stmt_handle rfl hs <;> simp [Pc.left]
  | test =>
    cases hs
    cases ready <;> simp [Pc.left]
  | print =>
    simp only [Main.stmt, printSample_eq] at hs
    cases hs
    simp [Pc.left]
  | _ =>
    cases hs
    simp [Pc.left]

end

/-! ## The receiver behind the program -/

/-- The receiver that has made the same reads as the program, up to the read being taken in. What it has
put out is what was handed over; and all of it fits, up to the message the dispatch block has just been
reached with. -/
inductive Fed.Follows (rx₀ : Rx) (f : Fed) : Prop
  | away {out : List (Option Message)} (hpc : f.main.pc.away) (hrun : receiver.run rx₀ f.done = .ok (f.main.rx, out))
      (handed : f.handed = out.reduceOption) (fits : ∀ m ∈ f.handed, (command m.text).Fits)
  | taking {done : List (Option (List UInt8))} {r : Option (List UInt8)} (seen : List UInt8) {left : List UInt8}
      {rx : Rx} {out : List (Option Message)} (hpc : f.main.pc = .recv left) (hdone : f.done = done ++ [r])
      (hrun : receiver.run rx₀ done = .ok (rx, out)) (hread : r.getD [] = seen ++ left)
      (hseen : seen.foldlM Rx.recv rx = .ok f.main.rx)
      (handed : f.handed = out.reduceOption) (fits : ∀ m ∈ f.handed, (command m.text).Fits)
  | handling {done : List (Option (List UInt8))} {r : Option (List UInt8)} {rx : Rx} {out : List (Option Message)}
      (hpc : f.main.pc = .handle) (hdone : f.done = done ++ [r]) (hrun : receiver.run rx₀ done = .ok (rx, out))
      (hread : rx.recvAll r = .ok f.main.rx) (handed : f.handed = out.reduceOption ++ f.main.rx.waiting.toList)
      (fits : ∀ m ∈ out.reduceOption, (command m.text).Fits)

/-- The next read of a run, and what waits after it. -/
theorem receiver_run_read {rx₀ rx rx' : Rx} {done : List (Option (List UInt8))} {r : Option (List UInt8)}
    {out : List (Option Message)} (hrun : receiver.run rx₀ done = .ok (rx, out)) (hread : rx.recvAll r = .ok rx') :
    receiver.run rx₀ (done ++ [r]) = .ok ({ rx' with messageIsReady := false }, out ++ [rx'.waiting]) := by
  refine Machine.run_concat.2 ⟨rx, out, rx'.waiting, hrun, ?_, rfl⟩
  show rx.poll r = _
  simp only [Rx.poll, hread, bind, Except.bind, Rx.waiting]
  cases hready : rx'.messageIsReady with
  | true => rfl
  | false =>
    rw [Rx.lower_of_not_ready hready]
    rfl

theorem Delivers.mem {out : List (Option Message)} {ls : List (Option (List UInt8))} (h : List.Forall₂ Delivers out ls)
    {m : Message} (hm : some m ∈ out) : ∃ d : Delivered, d.toMessage = m := by
  induction h with
  | nil => cases hm
  | @cons o l out ls hd h ih =>
    rcases List.mem_cons.1 hm with rfl | hm
    · cases l with
      | none => exact hd.elim
      | some seg =>
        obtain ⟨d, he, -⟩ := hd.delivered
        exact ⟨d, he⟩
    · exact ih hm

theorem Delivers.last {out : List (Option Message)} {o : Option Message} {ls : List (Option (List UInt8))}
    (h : List.Forall₂ Delivers (out ++ [o]) ls) : ∃ l, ls.getLast? = some l ∧ Delivers o l := by
  induction out generalizing ls with
  | nil =>
    obtain _ | ⟨hd, h⟩ := h
    cases h
    exact ⟨_, rfl, hd⟩
  | cons x out ih =>
    obtain _ | ⟨-, h⟩ := h
    obtain ⟨l, hl, hd⟩ := ih h
    exact ⟨l, by rw [List.getLast?_cons, hl]; rfl, hd⟩

/-- What waits at the dispatch block was put into `message` by a terminator. -/
theorem waiting_delivered {rx₀ rx rx' : Rx} (h0 : rx₀.Holds [] none) {done : List (Option (List UInt8))}
    {r : Option (List UInt8)} {out : List (Option Message)} (hrun : receiver.run rx₀ done = .ok (rx, out))
    (hread : rx.recvAll r = .ok rx') {m : Message} (hm : rx'.waiting = some m) : ∃ d : Delivered, d.toMessage = m :=
  Delivers.mem (receiver_run_inv h0 (receiver_run_read hrun hread)).2.2 (by simp [hm])

theorem reduceOption_concat {α : Type} (l : List (Option α)) (x : Option α) :
    l.reduceOption ++ x.toList = (l ++ [x]).reduceOption := by
  rw [← List.concat_eq_append, List.reduceOption_concat]

theorem recvAll_getD (rx : Rx) (r : Option (List UInt8)) : rx.recvAll r = (r.getD []).foldlM Rx.recv rx := by
  cases r <;> rfl

section
variable {decode : UInt8 → UInt8} {rx₀ : Rx} {f g : Fed} {t : Turn} {acts : List Action}

theorem fed_step : (fed decode).step f t = .ok (g, acts) ↔
    ∃ main, (mainLoop decode).step f.main (f.input t) = .ok (main, acts) ∧ g = f.turn main t := by
  refine bind_ok_iff.trans ?_
  constructor
  · rintro ⟨⟨main, acts'⟩, hs, he⟩
    cases he
    exact ⟨main, hs, rfl⟩
  · rintro ⟨main, hs, rfl⟩
    exact ⟨(main, acts), hs, rfl⟩

theorem fed_stmt {port : BitVec 32} : (fed decode).step f (.stmt port) = .ok (g, acts) ↔
    ∃ main, f.main.stmt decode ⟨f.more.headD none, port⟩ = .ok (main, acts) ∧ g = f.after main := fed_step

theorem after_read (hpc : f.main.pc = .read) (main : Main) :
    f.after main = { f with main, done := f.done ++ [f.more.headD none], more := f.more.tail } := by
  rw [Fed.after, hpc]

theorem after_recv_nil (hpc : f.main.pc = .recv []) (main : Main) :
    f.after main = { f with main, handed := f.handed ++ main.rx.waiting.toList } := by
  rw [Fed.after, hpc]

theorem after_other (hread : f.main.pc ≠ .read) (hnil : f.main.pc ≠ .recv []) (main : Main) :
    f.after main = { f with main } := by
  rw [Fed.after]
  split
  · next h => exact absurd h hread
  · next h => exact absurd h hnil
  · rfl

theorem Fed.Follows.of_away (hf : f.Follows rx₀) (hpc : f.main.pc.away) : ∃ out,
    receiver.run rx₀ f.done = .ok (f.main.rx, out) ∧ f.handed = out.reduceOption ∧
      ∀ m ∈ f.handed, (command m.text).Fits := by
  cases hf with
  | away _ hrun handed fits => exact ⟨_, hrun, handed, fits⟩
  | taking _ h => rw [h] at hpc; cases hpc
  | handling h => rw [h] at hpc; cases hpc

theorem Fed.Follows.of_recv (hf : f.Follows rx₀) {left : List UInt8} (hpc : f.main.pc = .recv left) :
    ∃ done r seen rx out, f.done = done ++ [r] ∧ receiver.run rx₀ done = .ok (rx, out) ∧ r.getD [] = seen ++ left ∧
      seen.foldlM Rx.recv rx = .ok f.main.rx ∧ f.handed = out.reduceOption ∧
      ∀ m ∈ f.handed, (command m.text).Fits := by
  cases hf with
  | away h => rw [hpc] at h; cases h
  | taking seen h hdone hrun hread hseen handed fits =>
    cases hpc.symm.trans h
    exact ⟨_, _, seen, _, _, hdone, hrun, hread, hseen, handed, fits⟩
  | handling h => rw [hpc] at h; cases h

theorem Fed.Follows.of_handle (hf : f.Follows rx₀) (hpc : f.main.pc = .handle) :
    ∃ done r rx out, f.done = done ++ [r] ∧ receiver.run rx₀ done = .ok (rx, out) ∧ rx.recvAll r = .ok f.main.rx ∧
      f.handed = out.reduceOption ++ f.main.rx.waiting.toList ∧
      ∀ m ∈ out.reduceOption, (command m.text).Fits := by
  cases hf with
  | away h => rw [hpc] at h; cases h
  | taking _ h => rw [hpc] at h; cases h
  | handling _ hdone hrun hread handed fits => exact ⟨_, _, _, _, hdone, hrun, hread, handed, fits⟩

/-- **Every turn of the program is one the receiver follows.** -/
theorem follows_step (h0 : rx₀.Holds [] none) (hf : f.Follows rx₀) (hs : (fed decode).step f t = .ok (g, acts)) :
    g.Follows rx₀ := by
  cases t with
  | isr x y z =>
    cases hs
    cases hf with
    | away hpc hrun handed fits => exact .away hpc hrun handed fits
    | taking seen hpc hdone hrun hread hseen handed fits => exact .taking seen hpc hdone hrun hread hseen handed fits
    | handling hpc hdone hrun hread handed fits => exact .handling hpc hdone hrun hread handed fits
  | stmt port =>
    obtain ⟨main, hm, rfl⟩ := fed_stmt.1 hs
    rcases stmt_receives hm with ⟨hpc, hpc', hrx⟩ | ⟨c, left, hpc, hpc', hrx⟩ | ⟨hpc, hpc', hrx⟩ |
      ⟨hpc, hpc', hrx, hd⟩ | ⟨hread, hpc, hpc', hrx⟩
    · obtain ⟨out, hrun, handed, fits⟩ := hf.of_away (by rw [hpc]; rfl)
      rw [after_read hpc]
      exact .taking [] hpc' rfl hrun rfl (congrArg Except.ok hrx.symm) handed fits
    · obtain ⟨done, r, seen, rx, out, hdone, hrun, hread, hseen, handed, fits⟩ := hf.of_recv hpc
      rw [after_other (by rw [hpc]; exact Pc.noConfusion) (by rw [hpc]; simp)]
      refine .taking (seen ++ [c]) hpc' hdone hrun (by rw [hread, List.append_assoc]; rfl) ?_ handed fits
      rw [List.foldlM_append, hseen]
      show List.foldlM Rx.recv f.main.rx [c] = _
      rw [List.foldlM_cons, hrx]
      rfl
    · obtain ⟨done, r, seen, rx, out, hdone, hrun, hread, hseen, handed, fits⟩ := hf.of_recv hpc
      rw [after_recv_nil hpc]
      refine .handling hpc' hdone hrun ?_ (by rw [handed]) (handed ▸ fits)
      rw [recvAll_getD, hread, List.append_nil, hseen, hrx]
    · obtain ⟨done, r, rx, out, hdone, hrun, hread, handed, fits⟩ := hf.of_handle hpc
      rw [after_other (by rw [hpc]; exact Pc.noConfusion) (by rw [hpc]; exact Pc.noConfusion)]
      have hnew := receiver_run_read hrun hread
      rw [← hrx, ← hdone] at hnew
      refine .away (by rw [hpc']; rfl) hnew (handed.trans (reduceOption_concat out _)) fun m hmem => ?_
      rw [handed, List.mem_append, Option.mem_toList] at hmem
      rcases hmem with hmem | hmem
      · exact fits m hmem
      · -- the dispatch block got through, so the message fits
        obtain ⟨d, rfl⟩ := waiting_delivered h0 hrun hread hmem
        obtain ⟨globals, hdisp⟩ := hd _ hmem
        exact (dispatch_inv hdisp).1
    · obtain ⟨out, hrun, handed, fits⟩ := hf.of_away hpc
      rw [after_other hread (fun h => by rw [h] at hpc; cases hpc)]
      exact .away hpc' (by rw [hrun, hrx]) handed fits

theorem boot_follows (rx : Rx) (reads : List (Option (List UInt8))) : (Fed.boot rx reads).Follows rx :=
  .away rfl rfl rfl fun _ h => absurd h List.not_mem_nil

/-- **The receive loop of the program is the receiver**, wherever the interrupts fall, in every state
that a run reaches. -/
theorem fed_follows (h0 : rx₀.Holds [] none) {reads : List (Option (List UInt8))} {turns : List Turn}
    {outs : List (List Action)} (hr : (fed decode).run (Fed.boot rx₀ reads) turns = .ok (f, outs)) : f.Follows rx₀ :=
  Machine.run_inv (fun _ _ _ _ hf hs => follows_step h0 hf hs) (boot_follows rx₀ reads) hr

/-! ## The program on its reads is the program -/

theorem turn_main (f : Fed) (main : Main) (t : Turn) : (f.turn main t).main = main := by
  cases t with
  | isr x y z => rfl
  | stmt port =>
    show (f.after main).main = main
    unfold Fed.after
    split <;> rfl

/-- A run on given reads is a run of the program. -/
theorem fed_main {turns : List Turn} {outs : List (List Action)} (hr : (fed decode).run f turns = .ok (g, outs)) :
    ∃ inputs, (mainLoop decode).run f.main inputs = .ok (g.main, outs) := by
  induction turns generalizing f outs with
  | nil =>
    cases hr
    exact ⟨[], rfl⟩
  | cons t turns ih =>
    obtain ⟨f₁, o, outs₁, hs, hr₁, rfl⟩ := Machine.run_cons.1 hr
    obtain ⟨main, hm, rfl⟩ := fed_step.1 hs
    obtain ⟨inputs, hrun⟩ := ih hr₁
    rw [turn_main] at hrun
    exact ⟨f.input t :: inputs, Machine.run_cons.2 ⟨main, o, outs₁, hm, hrun, rfl⟩⟩

/-- Only the read looks at what stdin holds. -/
theorem stmt_stdin {s : Main} (hpc : s.pc ≠ .read) (stdin stdin' : Option (List UInt8)) (port : BitVec 32) :
    s.stmt decode ⟨stdin, port⟩ = s.stmt decode ⟨stdin', port⟩ := by
  obtain ⟨pc, rx, now, coords, ready, isrs, passX, passY, passes⟩ := s
  cases pc with
  | read => exact absurd rfl hpc
  | recv left => cases left <;> rfl
  | _ => rfl

theorem after_more {s : Main} (hpc : s.pc ≠ .read) (main : Main) (done : List (Option (List UInt8)))
    (handed : List Message) : ∃ handed', ∀ more, (⟨s, done, more, handed⟩ : Fed).after main =
      ⟨main, done, more, handed'⟩ := by
  by_cases hnil : s.pc = .recv []
  · exact ⟨handed ++ main.rx.waiting.toList, fun more => after_recv_nil (f := ⟨s, done, more, handed⟩) hnil main⟩
  · exact ⟨handed, fun more => after_other (f := ⟨s, done, more, handed⟩) hpc hnil main⟩

/-- **And every run of the program is a run on the reads it makes.** -/
theorem main_fed {inputs : List Input} {s s' : Main} {outs : List (List Action)}
    (hr : (mainLoop decode).run s inputs = .ok (s', outs)) (done : List (Option (List UInt8))) (handed : List Message) :
    ∃ reads turns f, (fed decode).run ⟨s, done, reads, handed⟩ turns = .ok (f, outs) ∧ f.main = s' := by
  induction inputs generalizing s outs done handed with
  | nil =>
    cases hr
    exact ⟨[], [], _, rfl, rfl⟩
  | cons i inputs ih =>
    obtain ⟨s₁, o, outs₁, hs, hr₁, rfl⟩ := Machine.run_cons.1 hr
    cases i with
    | isr x y z =>
      cases hs
      obtain ⟨reads, turns, f, hrun, hf⟩ := ih hr₁ done handed
      exact ⟨reads, .isr x y z :: turns, f, Machine.run_cons.2 ⟨_, [], outs₁, rfl, hrun, rfl⟩, hf⟩
    | stmt env =>
      change s.stmt decode env = .ok (s₁, o) at hs
      by_cases hpc : s.pc = .read
      · obtain ⟨reads, turns, f, hrun, hf⟩ := ih hr₁ (done ++ [env.stdin]) handed
        refine ⟨env.stdin :: reads, .stmt env.port :: turns, f, Machine.run_cons.2 ⟨_, o, outs₁, ?_, hrun, rfl⟩, hf⟩
        exact fed_stmt.2 ⟨s₁, hs, (after_read (f := ⟨s, done, env.stdin :: reads, handed⟩) hpc s₁).symm⟩
      · obtain ⟨handed', hafter⟩ := after_more hpc s₁ done handed
        obtain ⟨reads, turns, f, hrun, hf⟩ := ih hr₁ done handed'
        refine ⟨reads, .stmt env.port :: turns, f, Machine.run_cons.2 ⟨_, o, outs₁, ?_, hrun, rfl⟩, hf⟩
        rw [stmt_stdin hpc env.stdin (reads.headD none)] at hs
        exact fed_stmt.2 ⟨s₁, hs, (hafter reads).symm⟩

/-! ## The reads of a run -/

/-- The reads made and to come are the given ones, and then nothing. -/
def Fed.Reads (f : Fed) (reads : List (Option (List UInt8))) : Prop :=
  ∃ n, f.done ++ f.more = reads ++ List.replicate n none

theorem reads_step {reads : List (Option (List UInt8))} (hf : f.Reads reads)
    (hs : (fed decode).step f t = .ok (g, acts)) : g.Reads reads := by
  cases t with
  | isr x y z =>
    cases hs
    exact hf
  | stmt port =>
    obtain ⟨main, -, rfl⟩ := fed_stmt.1 hs
    unfold Fed.after
    split
    · obtain ⟨n, hn⟩ := hf
      cases hm : f.more with
      | nil =>
        refine ⟨n + 1, ?_⟩
        rw [hm, List.append_nil] at hn
        simp [hn, List.replicate_succ']
      | cons r rs =>
        refine ⟨n, ?_⟩
        rw [← hn, hm]
        simp
    · exact hf
    · exact hf

theorem fed_reads {reads : List (Option (List UInt8))} {rx : Rx} {turns : List Turn} {outs : List (List Action)}
    (hr : (fed decode).run (Fed.boot rx reads) turns = .ok (f, outs)) : f.Reads reads :=
  Machine.run_inv (fun _ _ _ _ hf hs => reads_step hf hs)
    (show (Fed.boot rx reads).Reads reads from ⟨0, (List.append_nil reads).symm⟩) hr

theorem stream_append (xs ys : List (Option (List UInt8))) : stream (xs ++ ys) = stream xs ++ stream ys := by
  simp [stream, chunks]

theorem chunks_append (xs ys : List (Option (List UInt8))) : chunks (xs ++ ys) = chunks xs ++ chunks ys :=
  List.map_append

theorem stream_replicate_none (n : Nat) : stream (List.replicate n none) = [] := by
  simp [stream, chunks]

/-- With nothing read nothing is completed. -/
theorem Fed.Reads.whole {reads : List (Option (List UInt8))} (hf : f.Reads reads) :
    stream (f.done ++ f.more) = stream reads ∧ (lasts END_RECIEVE [] (chunks (f.done ++ f.more))).reduceOption =
      (lasts END_RECIEVE [] (chunks reads)).reduceOption := by
  obtain ⟨n, hn⟩ := hf
  have hnil : chunks (List.replicate n none) = List.replicate n [] := by simp [chunks]
  rw [hn, stream_append, stream_replicate_none, List.append_nil, chunks_append, lasts_append List.not_mem_nil,
    List.reduceOption_append, hnil, lasts_replicate_nil (rest_not_mem _), List.append_nil]
  exact ⟨rfl, rfl⟩

theorem stream_mono {xs ys : List (Option (List UInt8))} (h : xs <+: ys) : stream xs <+: stream ys := by
  obtain ⟨zs, rfl⟩ := h
  rw [stream_append]
  exact List.prefix_append _ _

theorem lasts_mono {xs ys : List (Option (List UInt8))} (h : xs <+: ys) :
    (lasts END_RECIEVE [] (chunks xs)).reduceOption <+: (lasts END_RECIEVE [] (chunks ys)).reduceOption := by
  obtain ⟨zs, rfl⟩ := h
  rw [chunks_append, lasts_append List.not_mem_nil, List.reduceOption_append]
  exact List.prefix_append _ _

/-- What the reads so far completed is what the first of the given ones complete. -/
theorem Fed.Reads.initial {reads done : List (Option (List UInt8))} (hf : f.Reads reads) (hd : done <+: f.done) :
    stream done <+: stream reads ∧
      (lasts END_RECIEVE [] (chunks done)).reduceOption <+: (lasts END_RECIEVE [] (chunks reads)).reduceOption := by
  have hall := hd.trans (List.prefix_append f.done f.more)
  exact ⟨hf.whole.1 ▸ stream_mono hall, hf.whole.2 ▸ lasts_mono hall⟩

theorem Fed.Reads.chunk {reads : List (Option (List UInt8))} (hf : f.Reads reads) {r : Option (List UInt8)}
    (hr : r ∈ f.done) : r.getD [] ∈ chunks reads ∨ r.getD [] = [] := by
  obtain ⟨n, hn⟩ := hf
  have hmem : r ∈ reads ++ List.replicate n none := hn ▸ List.mem_append_left f.more hr
  rcases List.mem_append.1 hmem with h | h
  · exact .inl (List.mem_map_of_mem h)
  · rw [List.eq_of_mem_replicate h]
    exact .inr rfl

/-- What was handed over is what some of the reads so far completed, all of it but the last fits. -/
theorem Fed.Follows.handed_texts (h0 : rx₀.Holds [] none) (hf : f.Follows rx₀) : ∃ done, done <+: f.done ∧
    Fits (stream done) ∧ f.handed.map Message.text = (lasts END_RECIEVE [] (chunks done)).reduceOption ∧
    ∀ seg ∈ (f.handed.map Message.text).dropLast, (command seg).Fits := by
  have hall (h : ∀ m ∈ f.handed, (command m.text).Fits) :
      ∀ seg ∈ (f.handed.map Message.text).dropLast, (command seg).Fits := by
    intro seg hseg
    obtain ⟨m, hm, rfl⟩ := List.mem_map.1 (List.mem_of_mem_dropLast hseg)
    exact h m hm
  cases hf with
  | away hpc hrun handed fits =>
    obtain ⟨hfit, -, hd⟩ := receiver_run_inv h0 hrun
    exact ⟨f.done, List.prefix_rfl, hfit, by rw [handed, Delivers.texts hd], hall fits⟩
  | @taking done r seen left rx out hpc hdone hrun hread hseen handed fits =>
    obtain ⟨hfit, -, hd⟩ := receiver_run_inv h0 hrun
    exact ⟨done, hdone ▸ List.prefix_append _ _, hfit, by rw [handed, Delivers.texts hd], hall fits⟩
  | @handling done r rx out hpc hdone hrun hread handed fits =>
    obtain ⟨hfit, -, hd⟩ := receiver_run_inv h0 (receiver_run_read hrun hread)
    refine ⟨f.done, List.prefix_rfl, hdone ▸ hfit,
      by rw [handed, reduceOption_concat, Delivers.texts hd, hdone], fun seg hseg => ?_⟩
    rw [← List.map_dropLast] at hseg
    obtain ⟨m, hm, rfl⟩ := List.mem_map.1 hseg
    apply fits m
    rw [handed] at hm
    -- what waits is the last one
    cases hw : f.main.rx.waiting with
    | none => rw [hw] at hm; exact List.mem_of_mem_dropLast (by simpa using hm)
    | some w => rw [hw] at hm; simpa using hm

/-! ## Where a run stops -/

theorem fed_error {e : Fault} (he : (fed decode).step f t = .error e) :
    ∃ port, t = .stmt port ∧ f.main.stmt decode ⟨f.more.headD none, port⟩ = .error e := by
  cases t with
  | isr x y z => cases he
  | stmt port =>
    exact ⟨port, rfl, bind_pure_error he⟩

/-- **A run stops in one of two ways**: a read overruns the receive buffers, or the last message handed
over does not fit the array it is copied to. -/
theorem Fed.Follows.stop (h0 : rx₀.Holds [] none) (hf : f.Follows rx₀) {e : Fault}
    (he : (fed decode).step f t = .error e) :
    (∃ done r, f.done = done ++ [r] ∧ Fits (stream done) ∧ ¬ Fits (stream f.done) ∧
      f.handed.map Message.text = (lasts END_RECIEVE [] (chunks done)).reduceOption) ∨
    ∃ segs seg, f.handed.map Message.text = segs ++ [seg] ∧ ¬ (command seg).Fits ∧
      f.handed.map Message.text = (lasts END_RECIEVE [] (chunks f.done)).reduceOption := by
  obtain ⟨port, rfl, hs⟩ := fed_error he
  rcases stmt_error hs with ⟨c, left, hpc, hrecv⟩ | ⟨hpc, m, hm, hd⟩
  · obtain ⟨done, r, seen, rx, out, hdone, hrun, hread, hseen, handed, fits⟩ := hf.of_recv hpc
    obtain ⟨hfit, -, hds⟩ := receiver_run_inv h0 hrun
    refine .inl ⟨done, r, hdone, hfit, fun hall => ?_, by rw [handed, Delivers.texts hds]⟩
    -- had the whole read fitted, so would this byte
    rw [hdone] at hall
    obtain ⟨rx', out', hrun', -⟩ := receiver_run_fits (done ++ [r]) h0 List.not_mem_nil hall
    obtain ⟨rx₁, os, o, h1, h2, -⟩ := Machine.run_concat.1 hrun'
    rw [hrun] at h1
    cases h1
    obtain ⟨rx₂, h3, -⟩ := bind_ok_iff.1 (show (rx.recvAll r >>= _) = _ from h2)
    rw [recvAll_getD, hread, List.foldlM_append, hseen] at h3
    obtain ⟨rx₃, h4, -⟩ := bind_ok_iff.1 (show (f.main.rx.recv c >>= _) = _ from h3)
    rw [hrecv] at h4
    cases h4
  · obtain ⟨done, r, rx, out, hdone, hrun, hread, handed, fits⟩ := hf.of_handle hpc
    obtain ⟨-, -, hds⟩ := receiver_run_inv h0 (receiver_run_read hrun hread)
    obtain ⟨d, rfl⟩ := waiting_delivered h0 hrun hread hm
    refine .inr ⟨out.reduceOption.map Message.text, d.text, by rw [handed, hm]; simp, fun hfit => ?_,
      by rw [handed, reduceOption_concat, Delivers.texts hds, hdone]⟩
    obtain ⟨g', acts', hok, -⟩ := dispatch_fits decode d hfit f.main.globals
    rw [hok] at hd
    cases hd

/-! ## How far a run gets -/

/-- The statements that are missing at most until all reads are made and the loop is back at its top. -/
def Fed.work (f : Fed) : Nat := f.main.pc.left + (f.more.map fun r => (r.getD []).length + 14).sum

theorem boot_work (rx : Rx) (reads : List (Option (List UInt8))) :
    (Fed.boot rx reads).work = (stream reads).length + 14 * reads.length := by
  show 0 + _ = _
  rw [Nat.zero_add]
  show (reads.map _).sum = _
  induction reads with
  | nil => rfl
  | cons r rs ih =>
    rw [List.map_cons, List.sum_cons, ih, stream_cons, List.length_append, List.length_cons]
    omega

theorem work_step (hn : ¬ (f.main.pc = .read ∧ f.more = [])) (hs : (fed decode).step f t = .ok (g, acts)) :
    g.work + t.isStmt.toNat ≤ f.work := by
  cases t with
  | isr x y z =>
    cases hs
    exact Nat.le_refl _
  | stmt port =>
    obtain ⟨main, hm, rfl⟩ := fed_stmt.1 hs
    by_cases hpc : f.main.pc = .read
    · rw [after_read hpc]
      cases hmore : f.more with
      | nil => exact absurd ⟨hpc, hmore⟩ hn
      | cons r rs =>
        rcases stmt_receives hm with ⟨-, hpc', -⟩ | ⟨c, left, h, -⟩ | ⟨h, -⟩ | ⟨h, -⟩ | ⟨h, -⟩
        · rw [hmore, List.headD_cons] at hpc'
          simp only [Fed.work, hpc, hpc', hmore, Pc.left, Turn.isStmt, List.tail_cons, List.map_cons, List.sum_cons,
            Bool.toNat_true]
          omega
        · rw [hpc] at h; cases h
        · rw [hpc] at h; cases h
        · rw [hpc] at h; cases h
        · exact absurd hpc h
    · have hlt := stmt_left hpc hm
      have hafter : (f.after main).main = main ∧ (f.after main).more = f.more := by
        unfold Fed.after
        split
        · next h => exact absurd h hpc
        · exact ⟨rfl, rfl⟩
        · exact ⟨rfl, rfl⟩
      simp only [Fed.work, hafter.1, hafter.2, Turn.isStmt, Bool.toNat_true]
      omega

/-- **With enough statements a run makes all its reads**, unless it stops. -/
theorem fed_settles {turns : List Turn} (h : f.work ≤ turns.countP Turn.isStmt) :
    ∃ k g outs, (fed decode).run f (turns.take k) = .ok (g, outs) ∧
      ((g.main.pc = .read ∧ g.more = []) ∨ ∃ t e, (fed decode).step g t = .error e) := by
  induction turns generalizing f with
  | nil =>
    refine ⟨0, f, [], rfl, .inl ?_⟩
    simp only [Fed.work, List.countP_nil, Nat.le_zero, Nat.add_eq_zero_iff] at h
    constructor
    · have h0 := h.1
      cases hpc : f.main.pc <;> first | rfl | (rw [hpc] at h0; simp [Pc.left] at h0)
    · cases hmore : f.more with
      | nil => rfl
      | cons r rs => simp [hmore] at h
  | cons t turns ih =>
    by_cases hdone : f.main.pc = .read ∧ f.more = []
    · exact ⟨0, f, [], rfl, .inl hdone⟩
    cases hs : (fed decode).step f t with
    | error e => exact ⟨0, f, [], rfl, .inr ⟨t, e, hs⟩⟩
    | ok r =>
      obtain ⟨f', o⟩ := r
      have hw := work_step hdone hs
      rw [List.countP_cons] at h
      obtain ⟨k, g, outs, hr, hg⟩ := ih (f := f') (by cases t <;> simp_all [Turn.isStmt] <;> omega)
      exact ⟨k + 1, g, o :: outs, Machine.run_cons.2 ⟨f', o, outs, hs, hr, rfl⟩, hg⟩

end

/-! ## Framing -/

/-- The last read is taken in. -/
def Pc.taken : Pc → Bool
  | .recv _ => false
  | _ => true

/-- Framing, at a statement boundary. -/
structure Fed.Sound (f : Fed) : Prop where
  /-- `messagebuff[0 .. messagebuffind)` is what came in since the last `'$'`. -/
  pending : f.main.pc.taken → f.main.rx.messagebuffind = (rest END_RECIEVE (stream f.done)).length ∧
    f.main.rx.messagebuff.toList.take f.main.rx.messagebuffind = rest END_RECIEVE (stream f.done)
  /-- The dispatch block is reached with the last segment the last read completed, or with none. -/
  dispatch : f.main.pc = .handle → ∃ last, (lasts END_RECIEVE [] (chunks f.done)).getLast? = some last ∧
    Delivers f.main.rx.waiting last
  ordered : (f.handed.map Message.text).Sublist (frames END_RECIEVE (stream f.done))

section
variable {decode : UInt8 → UInt8} {rx₀ : Rx} {f : Fed} {reads : List (Option (List UInt8))}

theorem frames_mono {t : UInt8} {xs ys : List UInt8} (h : xs <+: ys) : frames t xs <+: frames t ys := by
  obtain ⟨zs, rfl⟩ := h
  rw [(frames_append xs zs).1]
  exact List.prefix_append _ _

/-- What is handed over is in the order of the stream. -/
theorem lasts_stream (reads : List (Option (List UInt8))) :
    (lasts END_RECIEVE [] (chunks reads)).reduceOption.Sublist (frames END_RECIEVE (stream reads)) :=
  lasts_sublist (chunks reads) []

theorem Fed.Follows.sound (h0 : rx₀.Holds [] none) (hf : f.Follows rx₀) : f.Sound := by
  have hordered : (f.handed.map Message.text).Sublist (frames END_RECIEVE (stream f.done)) := by
    obtain ⟨done, hd, -, htexts, -⟩ := hf.handed_texts h0
    rw [htexts]
    exact (lasts_stream done).trans (frames_mono (stream_mono hd)).sublist
  cases hf with
  | away hpc hrun handed fits =>
    obtain ⟨-, hold, -⟩ := receiver_run_inv h0 hrun
    refine ⟨fun _ => ⟨hold.ind, by rw [hold.ind]; exact hold.buff⟩, fun h => ?_, hordered⟩
    rw [h] at hpc
    cases hpc
  | taking _ hpc =>
    refine ⟨fun h => ?_, fun h => ?_, hordered⟩
    · rw [hpc] at h
      cases h
    · rw [hpc] at h
      cases h
  | @handling done r rx out hpc hdone hrun hread handed fits =>
    obtain ⟨-, hold, hd⟩ := receiver_run_inv h0 (receiver_run_read hrun hread)
    rw [← hdone] at hold hd
    have hind : f.main.rx.messagebuffind = (rest END_RECIEVE (stream f.done)).length := hold.ind
    exact ⟨fun _ => ⟨hind, by rw [hind]; exact hold.buff⟩, fun _ => Delivers.last hd, hordered⟩

/-- No turn stops a run whose messages fit. -/
theorem fed_total (decode : UInt8 → UInt8) (h0 : rx₀.Holds [] none) (hfit : Fits (stream reads))
    (hcommands : ∀ seg ∈ (lasts END_RECIEVE [] (chunks reads)).reduceOption, (command seg).Fits) (turns : List Turn) :
    ∃ f outs, (fed decode).run (Fed.boot rx₀ reads) turns = .ok (f, outs) ∧ f.Follows rx₀ ∧ f.Reads reads := by
  refine Machine.run_total (I := fun f : Fed => f.Follows rx₀ ∧ f.Reads reads) (A := fun _ => True) ?_
    ⟨boot_follows rx₀ reads, 0, (List.append_nil reads).symm⟩ fun _ _ => trivial
  rintro f t ⟨hf, hreads⟩ -
  cases hs : (fed decode).step f t with
  | ok r => exact ⟨r.1, r.2, rfl, follows_step h0 hf hs, reads_step hreads hs⟩
  | error e =>
    obtain ⟨hstream, hlasts⟩ := hreads.initial (List.prefix_refl f.done)
    rcases hf.stop h0 hs with ⟨-, -, -, -, hover, -⟩ | ⟨segs, seg, hsplit, hlong, htexts⟩
    · obtain ⟨more, hmore⟩ := hstream
      rw [← hmore, fits_append] at hfit
      exact absurd hfit.1 hover
    · rw [← htexts, hsplit] at hlasts
      exact absurd (hcommands seg (hlasts.subset (by simp))) hlong

/-- A run that makes all its reads has handed over only messages that fit. -/
theorem fed_finished (h0 : rx₀.Holds [] none) (hf : f.Follows rx₀) (hreads : f.Reads reads)
    (hpc : f.main.pc = .read) (hmore : f.more = []) :
    f.handed.map Message.text = (lasts END_RECIEVE [] (chunks reads)).reduceOption ∧
      ∀ m ∈ f.handed, (command m.text).Fits := by
  obtain ⟨out, hrun, handed, fits⟩ := hf.of_away (by rw [hpc]; rfl)
  obtain ⟨-, -, hd⟩ := receiver_run_inv h0 hrun
  refine ⟨?_, fits⟩
  rw [handed, Delivers.texts hd, ← hreads.whole.2, hmore, List.append_nil]

end

/-- Some run stops if a message that is handed over does not fit. -/
theorem commands_fit_of_total (decode : UInt8 → UInt8) {rx₀ : Rx} (h0 : rx₀.Holds [] none)
    {reads : List (Option (List UInt8))}
    (h : ∀ turns, ∃ f outs, (fed decode).run (Fed.boot rx₀ reads) turns = .ok (f, outs)) :
    ∀ seg ∈ (lasts END_RECIEVE [] (chunks reads)).reduceOption, (command seg).Fits := by
  let turns := List.replicate (Fed.boot rx₀ reads).work (Turn.stmt 0)
  obtain ⟨k, g, outs, hr, hg⟩ := @fed_settles decode (Fed.boot rx₀ reads) turns
    (by simp [turns, List.countP_replicate, Turn.isStmt])
  rcases hg with ⟨hpc, hmore⟩ | ⟨t, e, he⟩
  · obtain ⟨htexts, hfits⟩ := fed_finished h0 (fed_follows h0 hr) (fed_reads hr) hpc hmore
    intro seg hseg
    rw [← htexts] at hseg
    obtain ⟨m, hm, rfl⟩ := List.mem_map.1 hseg
    exact hfits m hm
  · obtain ⟨f, outs', hr'⟩ := h (turns.take k ++ [t])
    obtain ⟨g', os, o, h1, h2, -⟩ := Machine.run_concat.1 hr'
    rw [hr] at h1
    cases h1
    rw [he] at h2
    cases h2

/-- **Framing is sound exactly if every message handed over fits.** Then every run of a stream that fits
the receive buffers goes on, and in every state of it `messagebuff` holds what came in since the last
`'$'`, and the dispatch block has been reached with the last segment of each read, NUL-terminated. A message
that does not fit is copied over whatever follows its array. -/
theorem framing_sound_iff (decode : UInt8 → UInt8) (message messagebuff : Vector UInt8 1024) (size : Nat)
    (reads : List (Option (List UInt8))) (hf : Fits (stream reads)) :
    (∀ turns, ∃ f outs, (fed decode).run (Fed.boot (Rx.boot message messagebuff size) reads) turns = .ok (f, outs) ∧
      f.Sound) ↔ ∀ seg ∈ (lasts END_RECIEVE [] (chunks reads)).reduceOption, (command seg).Fits := by
  have h0 := boot_holds message messagebuff size
  constructor
  · intro h
    refine commands_fit_of_total decode h0 fun turns => ?_
    obtain ⟨f, outs, hr, -⟩ := h turns
    exact ⟨f, outs, hr⟩
  · intro h turns
    obtain ⟨f, outs, hr, hfollows, -⟩ := fed_total decode h0 hf h turns
    exact ⟨f, outs, hr, hfollows.sound h0⟩

/-- `1$0$A` in two reads with an empty one between them, and an interrupt. -/
theorem framing_sound_two_reads : ∃ f outs, (fed fun c => c).run
    (Fed.boot .zeroed [some [49, 36, 48], none, some [36, 65]]) (List.replicate 20 (.stmt 0) ++ [.isr 1 2 3]) =
      .ok (f, outs) ∧ f.Sound :=
  (framing_sound_iff (fun c => c) (Vector.replicate 1024 0) (Vector.replicate 1024 0) 0
    [some [49, 36, 48], none, some [36, 65]] (by decide)).2 (by decide) _

/-- A score of 300 bytes in two reads, and `abcd` in the second and a third. -/
def overlong : List (Option (List UInt8)) :=
  [some (126 :: List.replicate 255 65), some (List.replicate 45 65 ++ [36, 97, 98, 99]), some [100, 36]]

/-- **The score overruns its array.** The second read completes it; the dispatch block copies 300 bytes to an
array of 6, and `abcd` is never received whole. -/
theorem framing_overrun : ¬ ∀ turns, ∃ f outs, (fed fun c => c).run
    (Fed.boot .zeroed overlong) turns = .ok (f, outs) ∧ f.Sound := by
  intro h
  have hmem : 126 :: List.replicate 300 65 ∈ (lasts END_RECIEVE [] (chunks overlong)).reduceOption := by decide +kernel
  have hfits := commands_fit_of_total (fun c => c) (boot_holds _ _ 0) (fun turns => by
    obtain ⟨f, outs, hr, -⟩ := h turns
    exact ⟨f, outs, hr⟩) _ hmem
  revert hfits
  decide +kernel

/-! ## Which segments reach the dispatch block -/

section
variable {decode : UInt8 → UInt8} {rx₀ : Rx} {f : Fed} {reads : List (Option (List UInt8))}

/-- If all segments have been handed over, no read brought two of them, and all but the last fit. -/
theorem Fed.Follows.all_handed (h0 : rx₀.Holds [] none) (hf : f.Follows rx₀) (hreads : f.Reads reads)
    (hall : f.handed.map Message.text = frames END_RECIEVE (stream reads)) :
    (∀ c ∈ chunks reads, c.count END_RECIEVE ≤ 1) ∧
      ∀ seg ∈ (frames END_RECIEVE (stream reads)).dropLast, (command seg).Fits := by
  obtain ⟨done, hd, -, htexts, hfits⟩ := hf.handed_texts h0
  rw [hall] at htexts hfits
  refine ⟨(lasts_eq_frames_iff (chunks reads) [] List.not_mem_nil).1 ?_, hfits⟩
  have hle := (hreads.initial hd).2
  rw [← htexts] at hle
  exact ((lasts_stream reads).eq_of_length_le hle.length_le)

/-- If no read brings two terminators, what the first reads hand over is the first segments. -/
theorem lasts_eq_frames (hone : ∀ c ∈ chunks reads, c.count END_RECIEVE ≤ 1) :
    (lasts END_RECIEVE [] (chunks reads)).reduceOption = frames END_RECIEVE (stream reads) :=
  (lasts_eq_frames_iff (chunks reads) [] List.not_mem_nil).2 hone

theorem hands_over_all (decode : UInt8 → UInt8) (h0 : rx₀.Holds [] none)
    (hseg : ∀ seg ∈ frames END_RECIEVE (stream reads), seg.length ≤ 1023) (hlen : ∀ c ∈ chunks reads, c.length ≤ 256)
    (hone : ∀ c ∈ chunks reads, c.count END_RECIEVE ≤ 1)
    (hfits : ∀ seg ∈ (frames END_RECIEVE (stream reads)).dropLast, (command seg).Fits) {turns : List Turn}
    (hturns : (Fed.boot rx₀ reads).work ≤ turns.countP Turn.isStmt) :
    (fed decode).Ever (fun f => f.handed.map Message.text = frames END_RECIEVE (stream reads)) (Fed.boot rx₀ reads)
      turns := by
  obtain ⟨k, g, outs, hr, hg⟩ := @fed_settles decode (Fed.boot rx₀ reads) turns hturns
  refine ⟨k, g, outs, hr, show g.handed.map Message.text = _ from ?_⟩
  have hf := fed_follows h0 hr
  have hreads := fed_reads hr
  rw [← lasts_eq_frames hone] at hfits
  rcases hg with ⟨hpc, hmore⟩ | ⟨t, e, he⟩
  · rw [(fed_finished h0 hf hreads hpc hmore).1, lasts_eq_frames hone]
  rcases hf.stop h0 he with ⟨done, r, hdone, hfit, hover, htexts⟩ | ⟨segs, seg, hsplit, hlong, htexts⟩
  · -- the read that overruns brings no terminator, and none comes after it
    have hstream : stream reads = stream done ++ (r.getD [] ++ stream g.more) := by
      rw [← hreads.whole.1, hdone, stream_append, stream_append, List.append_assoc]
      simp [stream, chunks]
    rw [hdone, stream_append, fits_append, not_and] at hover
    obtain ⟨hframes, -⟩ := frames_append (t := END_RECIEVE) (stream done) (r.getD [] ++ stream g.more)
    rw [← hstream] at hframes
    have hc : (r.getD []).length ≤ 256 := by
      rcases hreads.chunk (by rw [hdone]; simp : r ∈ g.done) with h | h
      · exact hlen _ h
      · simp [h]
    rw [no_frames_of_overrun (rest_not_mem _)
      (fun seg h => Nat.lt_succ_of_le (hseg seg (hframes ▸ List.mem_append_right _ h))) hc
      (by simpa [stream, chunks] using hover hfit), List.append_nil] at hframes
    rw [htexts, hframes]
    refine lasts_eq_frames fun c hmem => ?_
    obtain ⟨r', hr', rfl⟩ := List.mem_map.1 hmem
    rcases hreads.chunk (by rw [hdone]; exact List.mem_append_left _ hr' : r' ∈ g.done) with h | h
    · exact hone _ h
    · simp [h]
  · -- the last message handed over does not fit, so it is the last there is
    obtain ⟨more, hmore⟩ := (hreads.initial (List.prefix_refl g.done)).2
    rw [← htexts, hsplit] at hmore
    cases more with
    | nil => rw [hsplit, ← lasts_eq_frames hone, ← hmore, List.append_nil]
    | cons x xs =>
      refine absurd (hfits seg ?_) hlong
      rw [← hmore, List.dropLast_append_of_ne_nil (List.cons_ne_nil x xs)]
      simp

end

/-- **No segment is dropped exactly if no read brings two terminators and every segment but the last
fits.** The single `message` slot is emptied once per read, so of several segments that complete in one
read only the last is seen; and after a message that overran its array nothing is certain. The statements
are enough for all reads, and the interrupts come anywhere between them. -/
theorem segments_dispatched_iff (decode : UInt8 → UInt8) (message messagebuff : Vector UInt8 1024) (size : Nat)
    (reads : List (Option (List UInt8))) (hseg : ∀ seg ∈ frames END_RECIEVE (stream reads), seg.length ≤ 1023)
    (hlen : ∀ c ∈ chunks reads, c.length ≤ 256) (turns : List Turn)
    (hturns : (stream reads).length + 14 * reads.length ≤ turns.countP Turn.isStmt) :
    (fed decode).Ever (fun f => f.handed.map Message.text = frames END_RECIEVE (stream reads))
      (Fed.boot (Rx.boot message messagebuff size) reads) turns ↔
    (∀ c ∈ chunks reads, c.count END_RECIEVE ≤ 1) ∧
      ∀ seg ∈ (frames END_RECIEVE (stream reads)).dropLast, (command seg).Fits := by
  have h0 := boot_holds message messagebuff size
  constructor
  · rintro ⟨k, f, outs, hr, hall⟩
    exact (fed_follows h0 hr).all_handed h0 (fed_reads hr) hall
  · rintro ⟨hone, hfits⟩
    exact hands_over_all decode h0 hseg hlen hone hfits (by rw [boot_work]; exact hturns)

/-- `1$` and `0$` in separate reads. -/
theorem segments_dispatched_separate : (fed fun c => c).Ever (fun f => f.handed.map Message.text = [[49], [48]])
    (Fed.boot .zeroed [some [49, 36], some [48, 36]]) (List.replicate 32 (.stmt 0)) :=
  (segments_dispatched_iff (fun c => c) (Vector.replicate 1024 0) (Vector.replicate 1024 0) 0
    [some [49, 36], some [48, 36]] (by decide) (by decide) (List.replicate 32 (.stmt 0)) (by decide)).2
    ⟨by decide, by decide⟩

/-- `1$0$` in one read: the LED-on command is never dispatched. -/
theorem segments_batched : ¬ ∃ turns, (fed fun c => c).Ever
    (fun f => f.handed.map Message.text = frames END_RECIEVE (stream [some [49, 36, 48, 36]]))
    (Fed.boot .zeroed [some [49, 36, 48, 36]]) turns := by
  rintro ⟨turns, k, f, outs, hr, hall⟩
  have h0 := boot_holds (Vector.replicate 1024 0) (Vector.replicate 1024 0) 0
  obtain ⟨hone, -⟩ := (fed_follows h0 hr).all_handed h0 (fed_reads hr) hall
  revert hone
  decide

end NuttyNios
