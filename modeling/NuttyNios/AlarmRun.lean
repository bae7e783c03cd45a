import NuttyNios.Alarm
/-!
# When an alarm is called

An alarm whose callback always asks for the same period is called after `nticks + 1` ticks and then once every
period, by each tick at most once (`periodic_calls`). The other alarms and their callbacks must keep to the
rules of `timetable`, and the clock must not run over. A callback that stops the alarm after its own, when
that one is not due yet, breaks `alt_tick`: it goes on from an entry that points to itself (`tick_endless`).
-/

namespace NuttyNios

def Request.alarm {α β : Type} : Request α β → α
  | .start a _ _ => a
  | .stop a => a

namespace AlarmEvent
variable {α β : Type}

/-- The alarm that is started or stopped. -/
def alarm? : AlarmEvent α β → Option α
  | .start a _ _ => some a
  | .stop a => some a
  | .tick => none

def isTick : AlarmEvent α β → Bool
  | .tick => true
  | _ => false

end AlarmEvent

namespace Timetable
variable {α β σ : Type} [DecidableEq α] {t t' : Timetable α β} {a b : α}

theorem find_start (h : b ≠ a) (nticks : BitVec 32) (callback : β) : (t.start b nticks callback).find a = t.find a :=
  List.find?_cons_of_neg (by simpa using h)

theorem find_start_self (nticks : BitVec 32) (callback : β) :
    (t.start a nticks callback).find a = some ⟨a, nticks.toNat + t.now + 1, callback⟩ :=
  List.find?_cons_of_pos (by simp)

theorem find_stop (h : b ≠ a) : (t.stop b).find a = t.find a := by
  show (t.entries.filter _).find? _ = t.entries.find? _
  rw [List.find?_filter]
  congr 1
  funext e
  by_cases he : e.alarm = a
  · simp [he, h.symm]
  · simp [he]

theorem find_again (nticks : BitVec 32) : (t.again b nticks).find a =
    (t.find a).map fun e => if e.alarm = b then { e with due := e.due + nticks.toNat } else e := by
  show (t.entries.map _).find? _ = (t.entries.find? _).map _
  rw [List.find?_map]
  congr 2
  funext e
  simp only [Function.comp]
  split <;> rfl

theorem find_again_ne (h : b ≠ a) (nticks : BitVec 32) : (t.again b nticks).find a = t.find a := by
  rw [find_again]
  cases hfind : t.find a with
  | none => rfl
  | some e =>
    have hne : e.alarm ≠ b := (find_some hfind).2 ▸ h.symm
    exact congrArg some (if_neg hne)

theorem find_again_self {e : Entry α β} (h : t.find a = some e) (nticks : BitVec 32) :
    (t.again a nticks).find a = some { e with due := e.due + nticks.toNat } := by
  rw [find_again, h]
  exact congrArg some (if_pos (find_some h).2)

theorem perform_find {rs : List (Request α β)} {next : Option α} (hrs : ∀ r ∈ rs, r.alarm ≠ a)
    (hp : t.perform next rs = some t') : t'.find a = t.find a ∧ t'.now = t.now := by
  induction rs generalizing t with
  | nil =>
    cases hp
    exact ⟨rfl, rfl⟩
  | cons r rs ih =>
    have hr := hrs r List.mem_cons_self
    have hrest : ∀ r ∈ rs, r.alarm ≠ a := fun r hr => hrs r (List.mem_cons_of_mem _ hr)
    cases r with
    | start b nticks callback =>
      simp only [perform] at hp
      split at hp
      · cases hp
      · obtain ⟨hfind, hnow⟩ := ih hrest hp
        exact ⟨hfind.trans (find_start hr nticks callback), hnow⟩
    | stop b =>
      simp only [perform] at hp
      split at hp
      · obtain ⟨hfind, hnow⟩ := ih hrest hp
        exact ⟨hfind.trans (find_stop hr), hnow⟩
      · cases hp

/-- No callback starts or stops `a`. -/
def Leaves (calls : Calls α β σ) (a : α) : Prop := ∀ c w, ∀ r ∈ (calls c w).2.1, r.alarm ≠ a

variable {calls : Calls α β σ} {w w' : σ} {called : List α}

theorem call_find_ne (hq : Leaves calls a) (h : b ≠ a) (hc : t.call calls w b = some (t', w', called)) :
    t'.find a = t.find a ∧ t'.now = t.now ∧ called.count a = 0 := by
  unfold call at hc
  split at hc
  · cases hc
    exact ⟨rfl, rfl, rfl⟩
  · next e he =>
    split at hc
    · obtain ⟨t₁, hperform, hc⟩ := Option.bind_eq_some_iff.1 hc
      obtain ⟨hfind, hnow⟩ := perform_find (hq e.callback w) hperform
      cases hc
      refine ⟨?_, ?_, List.count_eq_zero.2 fun hmem => h (List.mem_singleton.1 hmem).symm⟩
      · split
        · exact (find_stop h).trans hfind
        · exact (find_again_ne h _).trans hfind
      · split <;> exact hnow
    · cases hc
      exact ⟨rfl, rfl, rfl⟩

/-- When `a` comes up and is due, it is called and due again a period later. -/
theorem call_find {e : Entry α β} {period : BitVec 32} (hq : Leaves calls a)
    (hperiod : ∀ w, (calls e.callback w).2.2 = period)
    (hp : period ≠ 0) (he : t.find a = some e) (hc : t.call calls w a = some (t', w', called)) :
    t'.now = t.now ∧ if e.due ≤ t.now then t'.find a = some { e with due := e.due + period.toNat } ∧ called.count a = 1
      else t'.find a = some e ∧ called.count a = 0 := by
  unfold call at hc
  rw [he] at hc
  by_cases hdue : e.due ≤ t.now
  · simp only [if_pos hdue] at hc ⊢
    obtain ⟨t₁, hperform, hc⟩ := Option.bind_eq_some_iff.1 hc
    obtain ⟨hfind, hnow⟩ := perform_find (hq e.callback w) hperform
    cases hc
    rw [hperiod w, if_neg hp]
    exact ⟨hnow, find_again_self (hfind.trans he) period, List.count_singleton_self⟩
  · simp only [if_neg hdue] at hc ⊢
    cases hc
    exact ⟨rfl, he, rfl⟩

theorem callAll_find_ne {as : List α} (hq : Leaves calls a) (ha : a ∉ as)
    (hc : callAll calls as t w = some (t', w', called)) :
    t'.find a = t.find a ∧ t'.now = t.now ∧ called.count a = 0 := by
  induction as generalizing t w called with
  | nil =>
    cases hc
    exact ⟨rfl, rfl, rfl⟩
  | cons b as ih =>
    obtain ⟨hb, ha⟩ := not_or.1 (mt List.mem_cons.2 ha)
    obtain ⟨⟨t₁, w₁, called₁⟩, hcall, hc⟩ := Option.bind_eq_some_iff.1 hc
    obtain ⟨⟨t₂, w₂, called₂⟩, hall, hc⟩ := Option.bind_eq_some_iff.1 hc
    cases hc
    obtain ⟨hfind₁, hnow₁, hcount₁⟩ := call_find_ne hq (Ne.symm hb) hcall
    obtain ⟨hfind₂, hnow₂, hcount₂⟩ := ih ha hall
    exact ⟨hfind₂.trans hfind₁, hnow₂.trans hnow₁, by rw [List.count_append, hcount₁, hcount₂]⟩

theorem callAll_find {as : List α} {e : Entry α β} {period : BitVec 32} (hq : Leaves calls a)
    (hperiod : ∀ w, (calls e.callback w).2.2 = period) (hp : period ≠ 0) (hnodup : as.Nodup) (ha : a ∈ as)
    (he : t.find a = some e) (hc : callAll calls as t w = some (t', w', called)) :
    t'.now = t.now ∧ if e.due ≤ t.now then t'.find a = some { e with due := e.due + period.toNat } ∧ called.count a = 1
      else t'.find a = some e ∧ called.count a = 0 := by
  induction as generalizing t w called with
  | nil => exact absurd ha List.not_mem_nil
  | cons b as ih =>
    obtain ⟨hb, hnodup⟩ := List.nodup_cons.1 hnodup
    obtain ⟨⟨t₁, w₁, called₁⟩, hcall, hc⟩ := Option.bind_eq_some_iff.1 hc
    obtain ⟨⟨t₂, w₂, called₂⟩, hall, hc⟩ := Option.bind_eq_some_iff.1 hc
    cases hc
    rw [List.count_append]
    by_cases hab : b = a
    · subst hab
      obtain ⟨hnow₁, h₁⟩ := call_find hq hperiod hp he hcall
      obtain ⟨hfind₂, hnow₂, hcount₂⟩ := callAll_find_ne hq hb hall
      rw [hfind₂, hcount₂, Nat.add_zero]
      exact ⟨hnow₂.trans hnow₁, h₁⟩
    · obtain ⟨hfind₁, hnow₁, hcount₁⟩ := call_find_ne hq hab hcall
      have hmem := (List.mem_cons.1 ha).resolve_left (Ne.symm hab)
      obtain ⟨hnow₂, h₂⟩ := ih hnodup hmem (hfind₁.trans he) hall
      rw [hcount₁, Nat.zero_add]
      exact ⟨hnow₂.trans hnow₁, hnow₁ ▸ h₂⟩

/-- A tick calls `a` if it is due by then, and once. -/
theorem tick_find {e : Entry α β} {period : BitVec 32} (hq : Leaves calls a)
    (hperiod : ∀ w, (calls e.callback w).2.2 = period) (hp : period ≠ 0) (hnodup : t.alarms.Nodup)
    (he : t.find a = some e) (hc : t.tick calls w = some (t', w', called)) :
    t'.now = t.now + 1 ∧
      if e.due ≤ t.now + 1 then t'.find a = some { e with due := e.due + period.toNat } ∧ called.count a = 1
      else t'.find a = some e ∧ called.count a = 0 := by
  have hmem : a ∈ t.alarms := mem_alarms.2 ⟨e, find_some he⟩
  exact callAll_find (t := { t with now := t.now + 1 }) hq hperiod hp hnodup hmem he hc

end Timetable

/-! ## How often -/

/-- How often an alarm has gone off `m` ticks after it was started. -/
def rings (nticks period m : Nat) : Nat := (m - nticks + (period - 1)) / period

theorem rings_zero {nticks period : Nat} (hp : 0 < period) : rings nticks period 0 = 0 :=
  Nat.div_eq_of_lt (by omega)

theorem lt_rings (nticks : Nat) {period : Nat} (hp : 0 < period) (m : Nat) :
    m < nticks + 1 + rings nticks period m * period := by
  have hdiv := Nat.div_add_mod (m - nticks + (period - 1)) period
  have hmod := Nat.mod_lt (m - nticks + (period - 1)) hp
  rw [Nat.mul_comm] at hdiv
  unfold rings
  omega

theorem rings_succ (nticks : Nat) {period : Nat} (hp : 0 < period) (m : Nat) : rings nticks period (m + 1) =
    if nticks + 1 + rings nticks period m * period ≤ m + 1 then rings nticks period m + 1
    else rings nticks period m := by
  have hlt := lt_rings nticks hp m
  have hle : rings nticks period m * period ≤ m - nticks + (period - 1) := Nat.div_mul_le_self ..
  split
  · refine Nat.div_eq_of_lt_le ?_ ?_
    · rw [Nat.succ_mul]
      omega
    · rw [Nat.succ_mul, Nat.succ_mul]
      omega
  · refine Nat.div_eq_of_lt_le ?_ ?_
    · omega
    · rw [Nat.succ_mul]
      omega

section
variable {α β σ : Type} [DecidableEq α] [Fintype α] {calls : Calls α β σ} {a : α} {c : β} {nticks period : BitVec 32}

/-- An alarm that was started at `t₀`, some ticks later. -/
structure Running (a : α) (c : β) (nticks period : BitVec 32) (t₀ m : Nat) (t : Timetable α β) : Prop where
  represents : ∃ s, Represents s t
  now : t.now = t₀ + m
  entry : t.find a = some ⟨a, t₀ + (nticks.toNat + 1 + rings nticks.toNat period.toNat m * period.toNat), c⟩

theorem running_step (hq : Timetable.Leaves calls a) (hperiod : ∀ w, (calls c w).2.2 = period) (hp : period ≠ 0)
    {t₀ m : Nat} {t : Timetable α β} {w : σ} {e : AlarmEvent α β} {q : Timetable α β × σ} {called : List α}
    (h : Running a c nticks period t₀ m t) (he : e.alarm? ≠ some a)
    (hs : (timetable calls).step (t, w) e = .ok (q, called)) :
    Running a c nticks period t₀ (m + e.isTick.toNat) q.1 ∧
      rings nticks.toNat period.toNat m + called.count a = rings nticks.toNat period.toNat (m + e.isTick.toNat) := by
  obtain ⟨⟨s, hrep⟩, hnow, hentry⟩ := h
  obtain ⟨s', -, hrep'⟩ := alarmClock_step hrep hs
  have hpos : 0 < period.toNat := Nat.pos_of_ne_zero fun h => hp (BitVec.eq_of_toNat_eq h)
  cases e with
  | start b nticks' callback =>
    have hb : b ≠ a := fun h => he (congrArg some h)
    simp only [timetable] at hs
    split at hs <;> cases hs
    exact ⟨⟨⟨s', hrep'⟩, hnow, (Timetable.find_start hb nticks' callback).trans hentry⟩, rfl⟩
  | stop b =>
    have hb : b ≠ a := fun h => he (congrArg some h)
    simp only [timetable] at hs
    split at hs <;> cases hs
    exact ⟨⟨⟨s', hrep'⟩, hnow, (Timetable.find_stop hb).trans hentry⟩, rfl⟩
  | tick =>
    simp only [timetable] at hs
    split at hs
    · cases htick : t.tick calls w with
      | none => rw [htick] at hs; cases hs
      | some p =>
        rw [htick] at hs
        cases hs
        obtain ⟨hnow', hcalled⟩ := Timetable.tick_find hq hperiod hp hrep.nodup hentry htick
        have hsucc := rings_succ nticks.toNat hpos m
        rw [hnow] at hcalled
        show Running a c nticks period t₀ (m + 1) _ ∧ _ = rings _ _ (m + 1)
        have hnext : p.1.now = t₀ + (m + 1) := by rw [hnow', hnow, Nat.add_assoc]
        by_cases hdue : nticks.toNat + 1 + rings nticks.toNat period.toNat m * period.toNat ≤ m + 1
        · rw [if_pos (show t₀ + _ ≤ t₀ + m + 1 by omega)] at hcalled
          rw [if_pos hdue] at hsucc
          refine ⟨⟨⟨s', hrep'⟩, hnext, ?_⟩, by rw [hsucc, hcalled.2]⟩
          rw [hcalled.1, hsucc, Nat.succ_mul]
          simp only [Nat.add_assoc]
        · rw [if_neg (show ¬ t₀ + _ ≤ t₀ + m + 1 by omega)] at hcalled
          rw [if_neg hdue] at hsucc
          exact ⟨⟨⟨s', hrep'⟩, hnext, by rw [hcalled.1, hsucc]⟩, by rw [hsucc, hcalled.2, Nat.add_zero]⟩
    · cases hs

/-- Ticks among some events. -/
def ticks (es : List (AlarmEvent α β)) : Nat := es.countP AlarmEvent.isTick

theorem running_run (hq : Timetable.Leaves calls a) (hperiod : ∀ w, (calls c w).2.2 = period) (hp : period ≠ 0)
    {t₀ m : Nat} {t : Timetable α β} {w : σ} {es : List (AlarmEvent α β)} {q : Timetable α β × σ} {outs : List (List α)}
    (h : Running a c nticks period t₀ m t) (hes : ∀ e ∈ es, e.alarm? ≠ some a)
    (hr : (timetable calls).run (t, w) es = .ok (q, outs)) :
    rings nticks.toNat period.toNat m + outs.flatten.count a = rings nticks.toNat period.toNat (m + ticks es) := by
  induction es generalizing t w m outs with
  | nil =>
    cases hr
    rfl
  | cons e es ih =>
    obtain ⟨⟨t₁, w₁⟩, called, outs₁, hs, hr₁, rfl⟩ := Machine.run_cons.1 hr
    obtain ⟨h₁, hcount⟩ := running_step hq hperiod hp h (hes e List.mem_cons_self) hs
    have hrest := ih h₁ (fun e he => hes e (List.mem_cons_of_mem _ he)) hr₁
    have hticks : m + e.isTick.toNat + ticks es = m + ticks (e :: es) := by
      rw [ticks, ticks, List.countP_cons]
      cases e.isTick
      · simp
      · simp [Nat.add_assoc, Nat.add_comm]
    rw [List.flatten_cons, List.count_append, ← Nat.add_assoc, hcount, hrest, hticks]

/-- **An alarm is called when it should be**, in a run that keeps to the rules (`hr`): if its callback always asks
for the same period, and nothing else starts or stops it, then `m` ticks after it was started it has been
called `rings nticks period m` times, for every `m`: not before the tick `nticks + 1`, and from then on once
every `period`. -/
theorem periodic_calls {rate : BitVec 32} (hrate : rate ≠ 0) (callback : α → β) (hq : Timetable.Leaves calls a)
    (hperiod : ∀ w, (calls c w).2.2 = period) (hp : period ≠ 0) {es es' : List (AlarmEvent α β)} {w : σ}
    {q : Timetable α β × σ} {outs : List (List α)} (hes : ∀ e ∈ es', e.alarm? ≠ some a)
    (hr : (timetable calls).run (Timetable.empty, w) (es ++ .start a nticks c :: es') = .ok (q, outs)) :
    ∃ s, (alarmClock calls).run ((Alarms.reset callback).sysclkInit rate, w) (es ++ .start a nticks c :: es') =
        .ok ((s, q.2), outs) ∧
      (outs.drop es.length).flatten.count a = rings nticks.toNat period.toNat (ticks es') := by
  obtain ⟨t, w'⟩ := q
  obtain ⟨s, hrun, -⟩ := alarmClock_simulates (reset_represents hrate callback) hr
  refine ⟨s, hrun, ?_⟩
  obtain ⟨⟨t₁, w₁⟩, outs₁, outs₂, hr₁, hr₂, rfl⟩ := Machine.run_append.1 hr
  obtain ⟨q₂, called, outs₃, hs, hr₃, rfl⟩ := Machine.run_cons.1 hr₂
  rw [← Machine.run_length hr₁, List.drop_left]
  obtain ⟨s₁, -, hrep₁⟩ := alarmClock_simulates (reset_represents hrate callback) hr₁
  obtain ⟨s₂, -, hrep₂⟩ := alarmClock_step hrep₁ hs
  have hpos : 0 < period.toNat := Nat.pos_of_ne_zero fun h => hp (BitVec.eq_of_toNat_eq h)
  simp only [timetable] at hs
  split at hs <;> cases hs
  have hstart : Running a c nticks period t₁.now 0 (t₁.start a nticks c) := by
    refine ⟨⟨s₂, hrep₂⟩, rfl, ?_⟩
    rw [Timetable.find_start_self, rings_zero hpos, Nat.zero_mul, Nat.add_zero, Nat.add_comm nticks.toNat,
      Nat.add_assoc]
  have hcount := running_run hq hperiod hp hstart hes hr₃
  rw [rings_zero hpos, Nat.zero_add, Nat.zero_add] at hcount
  exact hcount

theorem periodic_calls_every : ∃ (s : Alarms Bool Bool) (q : Timetable Bool Bool × Unit) (outs : List (List Bool)),
    (alarmClock fun _ w => (w, [], 2)).run ((Alarms.reset id).sysclkInit 1, ())
        ([] ++ .start true 1 true :: List.replicate 5 .tick) = .ok ((s, q.2), outs) ∧
      (outs.drop 0).flatten.count true = rings 1 2 (ticks (List.replicate 5 (.tick : AlarmEvent Bool Bool))) := by
  obtain ⟨s, h⟩ := @periodic_calls Bool Bool Unit _ _ (fun _ w => (w, [], 2)) true true 1 2 1 (by decide) id
    (fun c w r hr => absurd hr List.not_mem_nil) (fun _ => rfl) (by decide) [] (List.replicate 5 .tick) () _ _
    (by simp [AlarmEvent.alarm?]) rfl
  exact ⟨s, _, _, h⟩

end

/-! ## Where the rules are broken -/

section
variable {α β σ : Type} [DecidableEq α] {calls : Calls α β σ} {s : Alarms α β} {t : Timetable α β} {a b : α} {c : β}

/-- The loop cannot leave an entry that points to itself and is not due. -/
theorem tickLoop_endless (hb : s.list.Alone (some b)) (hdue : s.nticks < s.time b) (w : σ) (fuel : Nat) :
    s.tickLoop calls fuel (some b) w = none := by
  induction fuel with
  | zero => rfl
  | succ fuel ih =>
    rw [Alarms.tickLoop, if_neg (Nat.not_le.2 hdue), hb.1]
    exact ih

/-- The loop gets as far as the first alarm that is due. -/
theorem tickLoop_skip (h : Represents s t) (front' : List (Entry α β)) {front rest : List (Entry α β)}
    (ht : t.entries = front' ++ front ++ rest) (hfront : ∀ e ∈ front, t.now < e.due) (w : σ)
    (fuel : Nat) (hend : ∀ fuel, s.tickLoop calls fuel (rest.map Entry.alarm).head? w = none) :
    s.tickLoop calls fuel ((front ++ rest).map Entry.alarm).head? w = none := by
  induction front generalizing front' fuel with
  | nil => exact hend fuel
  | cons e front ih =>
    cases fuel with
    | zero => rfl
    | succ fuel =>
      have hsplit : t.alarms = front'.map Entry.alarm ++ e.alarm :: (front ++ rest).map Entry.alarm := by
        rw [Timetable.alarms, ht, List.append_assoc, List.map_append]
        rfl
      have he : e ∈ t.entries := by
        rw [ht]
        simp
      have hnot : ¬ s.time e.alarm ≤ s.nticks := by
        rw [(h.entry e he).1, h.nticks]
        exact Nat.not_le.2 (hfront e List.mem_cons_self)
      show s.tickLoop calls (fuel + 1) (some e.alarm) w = none
      rw [Alarms.tickLoop, if_neg hnot, h.next_eq hsplit]
      refine ih (front' ++ [e]) ?_ (fun x hx => hfront x (List.mem_cons_of_mem e hx)) fuel
      rw [ht]
      simp

/-- The callback of `ea` stops `eb`, where the loop goes next. -/
theorem tickLoop_stuck (h : Represents s t) {front back : List (Entry α β)} {ea eb : Entry α β}
    (ht : t.entries = front ++ ea :: eb :: back) (ha : ea.due ≤ t.now) (hb : t.now < eb.due) {w : σ}
    (hstop : (calls ea.callback w).2.1 = [.stop eb.alarm]) (fuel : Nat) :
    s.tickLoop calls fuel (some ea.alarm) w = none := by
  have hsplit : t.alarms = front.map Entry.alarm ++ ea.alarm :: eb.alarm :: back.map Entry.alarm := by
    rw [Timetable.alarms, ht, List.map_append]
    rfl
  have hea : ea ∈ t.entries := ht ▸ List.mem_append_right _ List.mem_cons_self
  have heb : eb ∈ t.entries := ht ▸ List.mem_append_right _ (List.mem_cons_of_mem ea List.mem_cons_self)
  have hne : ea.alarm ≠ eb.alarm := by
    have hnodup := (List.nodup_append.1 (hsplit ▸ h.nodup)).2.1
    exact fun heq => (List.nodup_cons.1 hnodup).1 (heq ▸ List.mem_cons_self)
  have hmem : ea.alarm ∈ t.alarms := Timetable.mem_alarms.2 ⟨ea, hea, rfl⟩
  have hmemb : eb.alarm ∈ t.alarms := Timetable.mem_alarms.2 ⟨eb, heb, rfl⟩
  have hdue : s.time ea.alarm ≤ s.nticks := by
    rw [(h.entry ea hea).1, h.nticks]
    exact ha
  have hlater : s.nticks < s.time eb.alarm := by
    rw [(h.entry eb heb).1, h.nticks]
    exact hb
  have halone : (s.stop eb.alarm).list.Alone (some eb.alarm) := Links.alone_remove ..
  have hrep := h.stop hmemb
  have hstill : ea.alarm ∈ (t.stop eb.alarm).alarms := by
    rw [Timetable.alarms_stop]
    exact List.mem_filter.2 ⟨hmem, decide_eq_true hne⟩
  have hgone : eb.alarm ∉ (t.stop eb.alarm).alarms := by
    rw [Timetable.alarms_stop]
    exact fun hin => of_decide_eq_true (List.mem_filter.1 hin).2 rfl
  cases fuel with
  | zero => rfl
  | succ fuel =>
    cases hcalls : calls ea.callback w with
    | mk w' p =>
      obtain ⟨rs, nextCallback⟩ := p
      obtain rfl : rs = [.stop eb.alarm] := by rw [hcalls] at hstop; exact hstop
      rw [Alarms.tickLoop, if_pos hdue, (h.entry ea hea).2, hcalls, h.next_eq hsplit]
      refine Option.bind_eq_none_iff.2 fun q hq => ?_
      exfalso
      refine Option.some_ne_none q (hq.symm.trans (tickLoop_endless ?_ ?_ w' fuel))
      · show (if nextCallback = 0 then (s.stop eb.alarm).stop ea.alarm
          else (s.stop eb.alarm).again ea.alarm nextCallback).list.Alone _
        split
        · obtain ⟨xs, ys, hall, -⟩ := hrep.split hstill
          refine halone.remove (hall ▸ hrep.ring) (hall ▸ by simpa using hgone)
        · exact halone
      · show (if nextCallback = 0 then (s.stop eb.alarm).stop ea.alarm
          else (s.stop eb.alarm).again ea.alarm nextCallback).nticks <
          (if nextCallback = 0 then (s.stop eb.alarm).stop ea.alarm
          else (s.stop eb.alarm).again ea.alarm nextCallback).time eb.alarm
        split
        · exact hlater
        · show s.nticks < Function.update s.time ea.alarm _ eb.alarm
          rw [Function.update_of_ne hne.symm]
          exact hlater

/-- **A callback must not stop the alarm after its own**: if that is all the first alarm that is due asks for
(`hfront`, `hstop`), and the one after it is not due yet, `alt_tick` never returns. -/
theorem tick_endless (h : Represents s t) (hnow : t.now + 1 + 2 ^ 33 < 2 ^ 64) {front back : List (Entry α β)}
    {ea eb : Entry α β} (ht : t.entries = front ++ ea :: eb :: back) (hfront : ∀ e ∈ front, t.now + 1 < e.due)
    (ha : ea.due ≤ t.now + 1) (hb : t.now + 1 < eb.due) {w : σ} (hstop : (calls ea.callback w).2.1 = [.stop eb.alarm])
    (fuel : Nat) : s.tick calls fuel w = none := by
  have hall : t.alarms = (front ++ ea :: eb :: back).map Entry.alarm := congrArg _ ht
  rw [Alarms.tick, h.first_eq, hall]
  exact tickLoop_skip (h.advance hnow) [] ht hfront w fuel
    fun fuel => tickLoop_stuck (h.advance hnow) ht ha hb hstop fuel

theorem tick_endless_pair : ∃ s₁ s₂ : Alarms Bool Bool,
    ((Alarms.reset id).sysclkInit 1).start (some false) 5 false = .ok s₁ ∧ s₁.start (some true) 0 true = .ok s₂ ∧
      s₂.tick (σ := Unit) (fun c w => (w, if c then [.stop false] else [], 1)) 100 () = none := by
  obtain ⟨s₁, h₁, hrep₁, -⟩ := (@reset_represents Bool Bool _ 1 (by decide) id).start (a := false) (by decide) 5 false
  obtain ⟨s₂, h₂, hrep₂, -⟩ := hrep₁.start (a := true) (by decide) 0 true
  have ht : ((Timetable.empty.start false 5 false).start true 0 true).entries =
      [] ++ ⟨true, 1, true⟩ :: ⟨false, 6, false⟩ :: [] := rfl
  exact ⟨s₁, s₂, h₁, h₂, tick_endless hrep₂ (by decide) ht (by simp) (by decide) (by decide) rfl 100⟩

end
end NuttyNios
