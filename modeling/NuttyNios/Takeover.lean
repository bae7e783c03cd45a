import NuttyNios.BoardRun
/-!
# What becomes of the system clock

Until `timer_init` takes its interrupt, timer0 is the system clock, and the driver's alarm goes off each second. After
that it never does (`clock_stops`). If `main` gets there within a second of the start it never did, and a program
that prints with no host to read stops for good (`prints_stop`). `get_accler_isr` samples once in
50417 clocks at most (`samples_rate`). All the while the driver and its device run as they do alone (`board_runs`).
`Move.rate` is the bound for a step: each tick and each sample is a timeout, and each timeout takes its clocks.
-/

namespace NuttyNios
open Timer

namespace Board

/-- The steps of the driver and its device, and what they show. -/
def driven (outs : List (List BoardOut)) : List Jtag.Step := outs.flatten.filterMap BoardOut.step?

def shown (outs : List (List BoardOut)) : List Jtag.Out := outs.flatten.filterMap BoardOut.out?

/-- How often `get_accler_isr` has run. -/
def samples (outs : List (List BoardOut)) : Nat := outs.flatten.countP BoardOut.isSample

/-- How many clocks have passed, at least. -/
def time (es : List BoardStep) : Nat := (es.map BoardStep.time).sum

/-! ## The driver on the board -/

theorem inv_reset : Inv reset 0 where
  stage := by decide
  boot := rfl
  config := rfl
  jtag := Jtag.reset_inv true
  task := fun _ => rfl
  isr := fun _ => rfl
  enter := fun h => by cases h
  late := fun _ h => by cases h
  timer := ⟨⟨rfl, rfl⟩, rfl⟩
  rate := rfl
  alarms := rfl

theorem Move.driven {b b' : Board} {e : BoardStep} {l : List BoardOut} (hm : Move b e b' l) :
    jtagUart.run b.jtag (l.filterMap BoardOut.step?) = .ok (b'.jtag, l.filterMap BoardOut.out?) := by
  have hone : ∀ {je jtag o}, b.jtag.step je = .ok (jtag, o) → jtagUart.run b.jtag [je] = .ok (jtag, [o]) :=
    fun hs => Machine.run_cons.2 ⟨_, _, [], hs, rfl, rfl⟩
  cases hm with
  | ignored | entry | noEntry | leave | timerSc | getAcclerIsr | tick | back | sample | boot => rfl
  | host _ _ _ _ _ hs | call _ _ _ _ _ hs | clock _ _ hs | driver _ _ _ _ hs | alarm _ _ _ _ _ _ hs | isr _ _ _ _ hs
    | task _ _ _ _ hs | init _ _ _ _ _ _ _ _ _ _ hs => exact hone hs

theorem driven_cons (l : List BoardOut) (outs : List (List BoardOut)) :
    Board.driven (l :: outs) = l.filterMap BoardOut.step? ++ Board.driven outs := by
  simp [Board.driven]

theorem shown_cons (l : List BoardOut) (outs : List (List BoardOut)) :
    shown (l :: outs) = l.filterMap BoardOut.out? ++ shown outs := by
  simp [shown]

theorem step_ok {b b' : Board} {k : Nat} {e : BoardStep} {l : List BoardOut} (h : Inv b k)
    (hs : b.step e = .ok (b', l)) :
    Move b e b' l ∧ ∃ k', k ≤ k' ∧ Inv b' k' := by
  obtain ⟨b₁, l₁, hs₁, hm⟩ := step_moves h e
  cases hs.symm.trans hs₁
  exact ⟨hm, hm.inv h⟩

theorem run_follows {b b' : Board} {k : Nat} {es : List BoardStep} {outs : List (List BoardOut)} (h : Inv b k)
    (hr : board.run b es = .ok (b', outs)) :
    (∃ k', k ≤ k' ∧ Inv b' k') ∧ jtagUart.run b.jtag (Board.driven outs) = .ok (b'.jtag, shown outs) := by
  induction es generalizing b k outs with
  | nil =>
    cases hr
    exact ⟨⟨k, le_refl k, h⟩, rfl⟩
  | cons e es ih =>
    obtain ⟨b₁, l, outs', hs, hr', rfl⟩ := Machine.run_cons.1 hr
    obtain ⟨hm, k₁, hk₁, h₁⟩ := step_ok h hs
    obtain ⟨⟨k', hk', h'⟩, hjtag⟩ := ih h₁ hr'
    refine ⟨⟨k', hk₁.trans hk', h'⟩, ?_⟩
    rw [driven_cons, shown_cons]
    exact Machine.run_append.2 ⟨_, _, _, hm.driven, hjtag, rfl⟩

/-- **Nothing goes wrong on the board**: no handler is missing, no scan and no list of alarms without an end, no byte
out of bounds; and the driver and its device run as they do alone. -/
theorem board_runs (es : List BoardStep) :
    ∃ b outs, board.run reset es = .ok (b, outs) ∧
      jtagUart.run (Jtag.reset true) (Board.driven outs) = .ok (b.jtag, shown outs) := by
  have hstep : ∀ b e, (∃ k, Inv b k) → True → ∃ b' l, b.step e = .ok (b', l) ∧ ∃ k, Inv b' k := by
    rintro b e ⟨k, h⟩ -
    obtain ⟨b', l, hs, hm⟩ := step_moves h e
    obtain ⟨k', -, h'⟩ := hm.inv h
    exact ⟨b', l, hs, k', h'⟩
  obtain ⟨b, outs, hr, -⟩ := Machine.run_total (M := board) hstep ⟨0, inv_reset⟩ fun e (_ : e ∈ es) => trivial
  exact ⟨b, outs, hr, (run_follows inv_reset hr).2⟩

/-! ## The time -/

/-- Timeouts that have not been served: the one that is pending, and the one whose handler runs. -/
def due (b : Board) : Nat := b.timer.timeoutOccurred.toNat + if b.irq = some .tick ∨ b.irq = some .sample then 1 else 0

theorem due_le {b b' : Board} (w : Option BusWrite) (htimer : b'.timer = b.timer.clock w)
    (hirq : b'.irq = some .tick ∨ b'.irq = some .sample → b.irq = some .tick ∨ b.irq = some .sample) :
    b'.due ≤ b.due + b.timer.event.toNat := by
  have hle := timeout_clock b.timer w
  unfold due
  rw [htimer]
  split
  · next h => rw [if_pos (hirq h)]; omega
  · omega

/-- Every tick and every sample has its timeout. -/
theorem Move.served {b b' : Board} {k : Nat} {e : BoardStep} {l : List BoardOut} (h : Inv b k) (hm : Move b e b' l) :
    b'.alarms.nticks + l.countP BoardOut.isSample + b'.due ≤ b.alarms.nticks + b.due +
      if e.time = 0 then 0 else b.timer.event.toNat := by
  have hidle : b.irq = some .enter ∨ b.irq = some .again → b.due = b.timer.timeoutOccurred.toNat := by
    intro hirq
    rw [due, if_neg (by rcases hirq with h0 | h0 <;> rw [h0] <;> simp), Nat.add_zero]
  have htaken : b.timer.irq = true → b.timer.timeoutOccurred.toNat = 1 := fun hline => by
    rw [(Bool.and_eq_true_iff.1 hline).1]
    rfl
  -- a clock, with the interrupt routine where it was or past the timer's handlers
  have hclock : ∀ {b' : Board} {w}, b'.timer = b.timer.clock w → (b'.irq = some .tick ∨ b'.irq = some .sample →
      b.irq = some .tick ∨ b.irq = some .sample) → b'.alarms.nticks = b.alarms.nticks →
      b'.alarms.nticks + 0 + b'.due ≤ b.alarms.nticks + b.due + b.timer.event.toNat := by
    intro b' w htimer hirq hn
    have := due_le w htimer hirq
    omega
  -- a clock at which a handler of the timer is done
  have hend : ∀ b' : Board, b.irq = some .tick ∨ b.irq = some .sample → b'.timer = b.timer.clock none →
      ¬ (b'.irq = some .tick ∨ b'.irq = some .sample) → b'.due + 1 ≤ b.due + b.timer.event.toNat := by
    intro b' hirq htimer hirq'
    have := timeout_clock b.timer none
    rw [due, due, if_pos hirq, if_neg hirq', htimer]
    omega
  cases hm with
  | ignored e he =>
    rw [if_pos he]
    exact le_refl _
  | host e je jtag o he hs hje | call e je jtag o he hs hboot hirq hje =>
    rw [if_pos he]
    exact le_refl _
  | clock jtag o hs | noEntry | isr jtag o hirq hisr hs | task jtag o hirq hboot hs => exact hclock rfl id rfl
  | entry hirq hpending | leave hirq | driver jtag o hirq hline hs | back hirq hisr =>
    exact hclock rfl (fun h0 => by rcases h0 with h0 | h0 <;> cases h0) rfl
  | timerSc hirq hline hh | getAcclerIsr hirq hline =>
    have := hidle hirq
    have := htaken hline
    show b.alarms.nticks + 0 + 1 ≤ b.alarms.nticks + b.due + b.timer.event.toNat
    omega
  | tick alarms hirq htick =>
    obtain ⟨-, -, hn, -⟩ := h.ticked htick
    have := Nat.mod_le (b.alarms.nticks + 1) (2 ^ 64)
    have := hend { b.clock none with alarms, irq := some .again } (.inl hirq) rfl (by simp)
    show alarms.nticks + 0 + _ ≤ b.alarms.nticks + b.due + b.timer.event.toNat
    omega
  | alarm alarms jtag o called hirq htick hs =>
    obtain ⟨-, -, hn, -⟩ := h.ticked htick
    have := Nat.mod_le (b.alarms.nticks + 1) (2 ^ 64)
    have := hend { b.clock none with alarms, jtag, irq := some .driver } (.inl hirq) rfl (by simp)
    show alarms.nticks + 0 + _ ≤ b.alarms.nticks + b.due + b.timer.event.toNat
    omega
  | sample hirq =>
    have := hend { b.clock none with irq := some .again } (.inr hirq) rfl (by simp)
    show b.alarms.nticks + 1 + _ ≤ b.alarms.nticks + b.due + b.timer.event.toNat
    omega
  | boot st boot config alarms hirq hboot hconfig hst halarms =>
    exact hclock rfl id (boot_alarms halarms).2.2
  | init boot config alarms jtag o hirq hboot hconfig hstart ht hs =>
    refine hclock rfl id ?_
    show alarms.nticks = b.alarms.nticks
    rw [Alarms.start] at hstart
    split at hstart <;> cases hstart
    rfl

/-- The timer keeps its registers, or has a clock; nobody stops it. -/
theorem Move.timer {b b' : Board} {k : Nat} {e : BoardStep} {l : List BoardOut} (h : Inv b k) (hm : Move b e b' l) :
    e.time = 0 ∧ b'.timer = b.timer ∨ e.time = 1 ∧ ∃ w, stopStrobe w = false ∧ b'.timer = b.timer.clock w := by
  cases hm with
  | ignored e he | host e _ _ _ he | call e _ _ _ he => exact .inl ⟨he, rfl⟩
  | clock | entry | noEntry | leave | driver | timerSc | getAcclerIsr | tick | alarm | isr | back | sample | task
  | init =>
    exact .inr ⟨rfl, _, rfl, rfl⟩
  | boot st boot config alarms hirq hboot =>
    have hplan : ∀ st ∈ plan, stopStrobe (Boot.write st) = false := by decide
    refine .inr ⟨rfl, _, hplan st ?_, rfl⟩
    exact List.mem_of_mem_drop (h.boot ▸ hboot ▸ List.mem_cons_self)

/-- A step pays for what it serves with its clock. -/
theorem Move.rate {b b' : Board} {k : Nat} {e : BoardStep} {l : List BoardOut} (h : Inv b k) (hm : Move b e b' l)
    {p : Nat}
    (hp : 0 < p) (ht : b.timer.AtLeast p) (hload : p ≤ b'.timer.counterLoadValue.toNat) : b'.timer.AtLeast p ∧
      (p + 1) * (b'.alarms.nticks + l.countP BoardOut.isSample + b'.due) + b'.timer.credit p ≤
        (p + 1) * (b.alarms.nticks + b.due) + b.timer.credit p + e.time := by
  have hserved := hm.served h
  rcases hm.timer h with ⟨he, htimer⟩ | ⟨he, w, hstop, htimer⟩
  · rw [if_pos he] at hserved
    rw [htimer, he]
    exact ⟨ht, Nat.add_le_add_right (Nat.mul_le_mul_left (p + 1) hserved) _⟩
  · rw [if_neg (by omega)] at hserved
    rw [htimer] at hload ⊢
    obtain ⟨ht', hcredit⟩ := ht.clock hp hstop hload
    have hpaid := Nat.mul_le_mul_left (p + 1) hserved
    rw [Nat.mul_add (p + 1) (b.alarms.nticks + b.due)] at hpaid
    exact ⟨ht', by omega⟩

theorem time_cons (e : BoardStep) (es : List BoardStep) : time (e :: es) = e.time + time es := by
  simp [time]

theorem samples_cons (l : List BoardOut) (outs : List (List BoardOut)) :
    samples (l :: outs) = l.countP BoardOut.isSample + samples outs := by
  simp [samples]

theorem run_rate {b b' : Board} {k : Nat} {es : List BoardStep} {outs : List (List BoardOut)} (h : Inv b k)
    (hr : board.run b es = .ok (b', outs)) {p : Nat} (hp : 0 < p) (ht : b.timer.AtLeast p)
    (hload : ∀ k' t, k ≤ k' → TimerAt k' t → p ≤ t.counterLoadValue.toNat) :
    (p + 1) * (b'.alarms.nticks + samples outs + b'.due) ≤
      (p + 1) * (b.alarms.nticks + b.due) + b.timer.credit p + time es := by
  induction es generalizing b k outs with
  | nil =>
    cases hr
    exact (Nat.le_add_right _ _).trans (Nat.le_add_right _ _)
  | cons e es ih =>
    obtain ⟨b₁, l, outs', hs, hr', rfl⟩ := Machine.run_cons.1 hr
    obtain ⟨hm, k₁, hk₁, h₁⟩ := step_ok h hs
    obtain ⟨ht₁, hone⟩ := hm.rate h hp ht (hload k₁ _ hk₁ h₁.timer)
    have hrest := ih h₁ hr' ht₁ fun k' t hk' => hload k' t (hk₁.trans hk')
    rw [samples_cons, time_cons]
    rw [Nat.add_right_comm, Nat.mul_add] at hone
    have hsum : (p + 1) * (b'.alarms.nticks + (l.countP BoardOut.isSample + samples outs') + b'.due) =
        (p + 1) * (b'.alarms.nticks + samples outs' + b'.due) + (p + 1) * l.countP BoardOut.isSample := by ring
    omega

/-- The system clock is never fast: 2500 clocks for a tick. -/
theorem nticks_le {b : Board} {es : List BoardStep} {outs : List (List BoardOut)}
    (hr : board.run reset es = .ok (b, outs)) : 2500 * b.alarms.nticks ≤ time es := by
  have hrate := run_rate inv_reset hr (p := 2499) (by decide) ⟨by decide, fun _ => by decide⟩ fun k t _ ht => by
    rw [ht.load]
    split <;> decide
  have h0 : 2500 * (reset.alarms.nticks + reset.due) + reset.timer.credit 2499 = 0 := rfl
  omega

/-! ## The takeover -/

theorem Inv.taken_over {b : Board} {k : Nat} (h : Inv b k) (hh : b.config.handler TIMER0_IRQ = some .getAcclerIsr) :
    11 ≤ k :=
  h.sound.2.2.1.1 hh

theorem Inv.started {b : Board} {k : Nat} (h : Inv b k) (hboot : b.boot = []) : k = 12 := by
  have hdrop := List.drop_eq_nil_iff.1 (h.boot.symm.trans hboot)
  exact Nat.le_antisymm h.stage hdrop

/-- What the driver is made to do: its alarm goes off only in `alt_tick`, and its writes are to wait. -/
theorem Move.does {b b' : Board} {k : Nat} {e : BoardStep} {l : List BoardOut} (h : Inv b k) (hm : Move b e b' l)
    {je : Jtag.Step} (hje : je ∈ l.filterMap BoardOut.step?) :
    (je = .tick → b.irq = some .tick ∧ b.alarms.list.next none ≠ none ∧ b.alarms.time () ≤ b'.alarms.nticks) ∧
      (je = .hostTake → e = .hostTake) ∧ ∀ data, je ≠ .write data true := by
  cases hm with
  | ignored | entry | noEntry | leave | timerSc | getAcclerIsr | tick | back | sample | boot => cases hje
  | host e je' jtag o he hs hje' =>
    obtain rfl : je = je' := by simpa [BoardOut.step?] using hje
    rcases hje' with ⟨c, rfl⟩ | rfl | ⟨rfl, rfl⟩ <;> simp
  | call e je' jtag o he hs hboot hirq hje' =>
    obtain rfl : je = je' := by simpa [BoardOut.step?] using hje
    have hblock := (h.sound.2.2.2 (h.started hboot)).2
    rcases hje' with ⟨n, rfl⟩ | ⟨data, rfl⟩
    · simp
    · rw [hblock]
      simp
  | alarm alarms jtag o called hirq htick hs =>
    obtain rfl : je = .tick := by simpa [BoardOut.step?] using hje
    obtain ⟨-, -, hn, hcalled⟩ := h.ticked htick
    refine ⟨fun _ => ⟨hirq, fun hnone => ?_, ?_⟩, by simp, by simp⟩
    · rw [Alarms.tick] at htick
      simp only [hnone, Alarms.tickLoop] at htick
      cases htick
    · rcases hcalled with ⟨h0, -⟩ | ⟨-, hdue⟩
      · cases h0
      · exact hn ▸ hdue
  | clock jtag o hs | driver jtag o hirq hline hs | isr jtag o hirq hisr hs | task jtag o hirq hboot hs
    | init boot config alarms jtag o hirq hboot hconfig hstart ht hs =>
    simp only [List.filterMap_cons, BoardOut.step?, List.filterMap_nil, List.mem_singleton] at hje
    rw [hje]
    simp

/-- With its interrupt taken, the clock stands still. -/
theorem Move.frozen {b b' : Board} {k : Nat} {e : BoardStep} {l : List BoardOut} (h : Inv b k) (hk : 11 ≤ k)
    (hm : Move b e b' l) : b'.alarms = b.alarms := by
  cases hm with
  | ignored | host | call | clock | entry | noEntry | leave | driver | timerSc | getAcclerIsr | isr | back | sample
  | task =>
    rfl
  | tick _ hirq | alarm _ _ _ _ hirq => exact absurd hirq (h.late hk)
  | boot st boot config alarms hirq hboot hconfig hst halarms =>
    have hhead := congrArg List.head? (h.boot.symm.trans hboot)
    have hst' : st ≠ .sysclkInit := fun hst' => by
      have := (Config.stage_sysclk k h.stage).1 (hst' ▸ hhead)
      omega
    exact halarms.trans (if_neg hst')
  | init boot config alarms jtag o hirq hboot =>
    have := (Config.stage_init k h.stage).1 (congrArg List.head? (h.boot.symm.trans hboot))
    omega

theorem run_frozen {b b' : Board} {k : Nat} {es : List BoardStep} {outs : List (List BoardOut)} (h : Inv b k)
    (hk : 11 ≤ k)
    (hr : board.run b es = .ok (b', outs)) : b'.alarms = b.alarms ∧ ∀ je ∈ Board.driven outs, je ≠ .tick := by
  induction es generalizing b k outs with
  | nil =>
    cases hr
    exact ⟨rfl, fun je hje => by cases hje⟩
  | cons e es ih =>
    obtain ⟨b₁, l, outs', hs, hr', rfl⟩ := Machine.run_cons.1 hr
    obtain ⟨hm, k₁, hk₁, h₁⟩ := step_ok h hs
    obtain ⟨halarms, htick⟩ := ih h₁ (hk.trans hk₁) hr'
    refine ⟨halarms.trans (hm.frozen h hk), fun je hje => ?_⟩
    rw [driven_cons, List.mem_append] at hje
    rcases hje with hje | hje
    · exact fun h0 => h.late hk ((hm.does h hje).1 h0).1
    · exact htick je hje

/-- **The interrupt of the system clock is taken for good**: in every run that goes on from where `timer_init` has
registered `get_accler_isr`, no tick is counted and the driver's alarm never goes off. -/
theorem clock_stops {es₁ es₂ : List BoardStep} {b₁ b₂ : Board} {outs₁ outs₂ : List (List BoardOut)}
    (hr₁ : board.run reset es₁ = .ok (b₁, outs₁)) (hh : b₁.config.handler TIMER0_IRQ = some .getAcclerIsr)
    (hr₂ : board.run b₁ es₂ = .ok (b₂, outs₂)) : b₂.alarms = b₁.alarms ∧ .tick ∉ Board.driven outs₂ := by
  obtain ⟨⟨k, -, h⟩, -⟩ := run_follows inv_reset hr₁
  obtain ⟨halarms, htick⟩ := run_frozen h (h.taken_over hh) hr₂
  exact ⟨halarms, fun h0 => htick _ h0 rfl⟩

theorem clock_stops_boot : ∃ b₁ outs₁ b₂ outs₂, board.run reset (List.replicate 12 .cpu) = .ok (b₁, outs₁) ∧
    b₁.config.handler TIMER0_IRQ = some .getAcclerIsr ∧ board.run b₁ [.interrupt, .write [36], .cpu] = .ok (b₂, outs₂) ∧
      b₂.alarms = b₁.alarms ∧ .tick ∉ Board.driven outs₂ :=
  ⟨_, _, _, _, rfl, rfl, rfl,
    @clock_stops (List.replicate 12 .cpu) [.interrupt, .write [36], .cpu] _ _ _ _ rfl rfl rfl⟩

/-- **One sample in 50417 clocks**, but for the timeouts that wait at the start, and the cycle that is under way. -/
theorem samples_rate {es₁ es₂ : List BoardStep} {b₁ b₂ : Board} {outs₁ outs₂ : List (List BoardOut)}
    (hr₁ : board.run reset es₁ = .ok (b₁, outs₁)) (hboot : b₁.boot = []) (hr₂ : board.run b₁ es₂ = .ok (b₂, outs₂)) :
    samples outs₂ ≤ time es₂ / 50417 + 3 := by
  obtain ⟨⟨k, -, h⟩, -⟩ := run_follows inv_reset hr₁
  have hk := h.started hboot
  have hfree : b₁.timer.Free 50416 := by
    have := h.timer
    rw [hk] at this
    exact this
  have hrate := run_rate h hr₂ (p := 50416) (by decide)
    ⟨hfree.load.ge, fun hstill => absurd (hfree.running.symm.trans hstill) (by decide)⟩ fun k' t hk' ht => by
      rw [ht.load, if_neg (by omega)]
  rw [(run_frozen h (by omega) hr₂).1] at hrate
  have hcredit : b₁.timer.credit 50416 ≤ 50416 := by
    unfold credit
    split
    · exact Nat.sub_le _ _
    · exact Nat.zero_le _
  have hdue : b₁.due ≤ 2 := by
    have := Bool.toNat_le b₁.timer.timeoutOccurred
    unfold due
    split <;> omega
  omega

theorem samples_rate_boot : ∃ b₁ outs₁ b₂ outs₂, board.run reset (List.replicate 12 .cpu) = .ok (b₁, outs₁) ∧
    b₁.boot = [] ∧ board.run b₁ [.clock, .interrupt, .cpu] = .ok (b₂, outs₂) ∧
      samples outs₂ ≤ time [.clock, .interrupt, .cpu] / 50417 + 3 :=
  ⟨_, _, _, _, rfl, rfl, rfl, @samples_rate (List.replicate 12 .cpu) [.clock, .interrupt, .cpu] _ _ _ _ rfl rfl rfl⟩

/-! ## The alarm that does not go off -/

/-- The driver's alarm is not started, or not due in the first second. -/
def Quiet (b : Board) : Prop := b.alarms.list.next none = none ∨ 20001 ≤ b.alarms.time ()

theorem Move.quiet {b b' : Board} {k : Nat} {e : BoardStep} {l : List BoardOut} (h : Inv b k) (hm : Move b e b' l)
    (hq : Quiet b) (hn : b'.alarms.nticks ≤ 20000) : Quiet b' ∧ ∀ je ∈ l.filterMap BoardOut.step?, je ≠ .tick := by
  have htick : ∀ je ∈ l.filterMap BoardOut.step?, je ≠ .tick := by
    rintro je hje rfl
    obtain ⟨-, hnone, hdue⟩ := (hm.does h hje).1 rfl
    rcases hq with hq | hq
    · exact hnone hq
    · omega
  refine ⟨?_, htick⟩
  cases hm with
  | ignored | host | call | clock | entry | noEntry | leave | driver | timerSc | getAcclerIsr | isr | back | sample
  | task =>
    exact hq
  | tick alarms hirq ht =>
    obtain ⟨hlist, -, -, hcalled⟩ := h.ticked ht
    rcases hcalled with ⟨-, htime⟩ | ⟨h0, -⟩
    · exact hq.imp (fun h0 => (congrArg (·.next none) hlist).trans h0) fun h0 => htime ▸ h0
    · cases h0
  | alarm => exact absurd rfl (htick .tick (by simp [BoardOut.step?]))
  | boot st boot config alarms hirq hboot hconfig hst halarms =>
    obtain ⟨hlist, htime, -⟩ := boot_alarms halarms
    exact hq.imp (fun h0 => hlist ▸ h0) fun h0 => htime ▸ h0
  | init boot config alarms jtag o hirq hboot hconfig hstart ht hs =>
    have hk := (Config.stage_init k h.stage).1 (congrArg List.head? (h.boot.symm.trans hboot))
    have hrate := h.rate.trans (if_neg (by omega))
    rw [Alarms.start, if_pos (hrate ▸ by decide)] at hstart
    cases hstart
    refine .inr ?_
    show 20001 ≤ Function.update b.alarms.time () ((b.alarms.tickRate.toNat + b.alarms.nticks + 1) % 2 ^ 64) ()
    rw [Function.update_self, hrate, show TIMER0_TICKS_PER_SEC.toNat = 20000 from rfl]
    have : b.alarms.nticks ≤ 20000 := hn
    omega

theorem time_concat (es : List BoardStep) (e : BoardStep) : time (es ++ [e]) = time es + e.time := by
  simp [time]

theorem driven_append (outs₁ outs₂ : List (List BoardOut)) :
    Board.driven (outs₁ ++ outs₂) = Board.driven outs₁ ++ Board.driven outs₂ := by
  simp [Board.driven]

theorem driven_concat (outs : List (List BoardOut)) (l : List BoardOut) :
    Board.driven (outs ++ [l]) = Board.driven outs ++ l.filterMap BoardOut.step? := by
  simp [Board.driven]

theorem run_quiet {b : Board} {es : List BoardStep} {outs : List (List BoardOut)}
    (hr : board.run reset es = .ok (b, outs))
    (htime : time es < 2500 * 20001) : Quiet b ∧ ∀ je ∈ Board.driven outs, je ≠ .tick := by
  refine Machine.run_history (M := board)
    (I := fun es b outs => time es < 2500 * 20001 → Quiet b ∧ ∀ je ∈ Board.driven outs, je ≠ .tick)
    (fun _ => ⟨.inl rfl, fun je hje => by cases hje⟩) ?_ hr htime
  intro es b outs e b' l hr ih hs htime
  obtain ⟨hq, hold⟩ := ih (by rw [time_concat] at htime; omega)
  obtain ⟨⟨k, -, h⟩, -⟩ := run_follows inv_reset hr
  obtain ⟨hm, -⟩ := step_ok h hs
  have hn := nticks_le (Machine.run_concat.2 ⟨b, outs, l, hr, hs, rfl⟩)
  obtain ⟨hq', hnew⟩ := hm.quiet h hq (by omega)
  refine ⟨hq', fun je hje => ?_⟩
  rw [driven_concat, List.mem_append] at hje
  exact hje.elim (hold je) (hnew je)

/-- The host takes what it takes, and no write is told not to wait. -/
theorem run_does {b : Board} {es : List BoardStep} {outs : List (List BoardOut)}
    (hr : board.run reset es = .ok (b, outs))
    {je : Jtag.Step} (hje : je ∈ Board.driven outs) :
    (je = .hostTake → .hostTake ∈ es) ∧ ∀ data, je ≠ .write data true := by
  refine Machine.run_history (M := board)
    (I := fun es b outs => ∀ je ∈ Board.driven outs, (je = .hostTake → .hostTake ∈ es) ∧ ∀ data, je ≠ .write data true)
    (fun je hje => by cases hje) ?_ hr je hje
  intro es b outs e b' l hr ih hs je hje
  obtain ⟨⟨k, -, h⟩, -⟩ := run_follows inv_reset hr
  obtain ⟨hm, -⟩ := step_ok h hs
  rw [driven_concat, List.mem_append] at hje
  rcases hje with hje | hje
  · exact ⟨fun h0 => List.mem_append_left _ ((ih je hje).1 h0), (ih je hje).2⟩
  · obtain ⟨-, htake, hwrite⟩ := hm.does h hje
    exact ⟨fun h0 => List.mem_append_right _ (List.mem_singleton.2 (htake h0).symm), hwrite⟩

/-- **A program that prints to nobody stops**: if `timer_init` has the timer within a second, the driver's alarm has
never gone off and never does; so in any run in which the host takes nothing, the writes that have returned were
taken whole, and come to no more than the driver and its device hold. -/
theorem prints_stop {es₁ es₂ : List BoardStep} {b₁ b₂ : Board} {outs₁ outs₂ : List (List BoardOut)}
    (hr₁ : board.run reset es₁ = .ok (b₁, outs₁)) (hh : b₁.config.handler TIMER0_IRQ = some .getAcclerIsr)
    (htime : time es₁ < 2500 * 20001) (hr₂ : board.run b₁ es₂ = .ok (b₂, outs₂)) (htake : .hostTake ∉ es₁ ++ es₂) :
    .tick ∉ Board.driven (outs₁ ++ outs₂) ∧
      Jtag.written (shown (outs₁ ++ outs₂)) = Jtag.accepted (shown (outs₁ ++ outs₂)) ∧
      (Jtag.written (shown (outs₁ ++ outs₂))).length ≤ 64 + (BUF_LEN - 1) := by
  have hr := Machine.run_append.2 ⟨b₁, outs₁, outs₂, hr₁, hr₂, rfl⟩
  obtain ⟨⟨k, -, h⟩, -⟩ := run_follows inv_reset hr₁
  have htick : ∀ je ∈ Board.driven (outs₁ ++ outs₂), je ≠ .tick := by
    intro je hje
    rw [driven_append, List.mem_append] at hje
    exact hje.elim ((run_quiet hr₁ htime).2 je) ((run_frozen h (h.taken_over hh) hr₂).2 je)
  refine ⟨fun h0 => htick _ h0 rfl, Jtag.unread_run (run_follows inv_reset hr).2 fun je hje => ⟨htick je hje, ?_⟩⟩
  obtain ⟨htake', hwrite⟩ := run_does hr hje
  exact ⟨fun h0 => htake (htake' h0), hwrite⟩

theorem prints_stop_byte : ∃ b₁ outs₁ b₂ outs₂, board.run reset (List.replicate 12 .cpu) = .ok (b₁, outs₁) ∧
    board.run b₁ (.write [36] :: List.replicate 7 .cpu) = .ok (b₂, outs₂) ∧
      .tick ∉ Board.driven (outs₁ ++ outs₂) ∧
      Jtag.written (shown (outs₁ ++ outs₂)) = Jtag.accepted (shown (outs₁ ++ outs₂)) ∧
      (Jtag.written (shown (outs₁ ++ outs₂))).length ≤ 64 + (BUF_LEN - 1) :=
  ⟨_, _, _, _, rfl, rfl, @prints_stop (List.replicate 12 .cpu) (.write [36] :: List.replicate 7 .cpu) _ _ _ _ rfl rfl
    (by decide) rfl (by decide)⟩

end Board
end NuttyNios
