import NuttyNios.Lib.Links
import NuttyNios.Lib.Machine
/-!
# The alarms of the system clock (firmware02_bsp/HAL/src/alt_tick.c, alt_alarm_start.c, HAL/inc/sys/alt_alarm.h)

| here | there |
| --- | --- |
| `Alarms`       | `_alt_tick_rate`, `_alt_nticks`, `alt_alarm_list` and the `alt_alarm` structures |
| `sysclkInit`   | `alt_sysclk_init` |
| `start`        | `alt_alarm_start` |
| `stop`         | `alt_alarm_stop` |
| `tick`         | `alt_tick` |

An alarm is known by its address; the address `none` is that of `alt_alarm_list`. A callback (function and
context) may start and stop alarms while `alt_tick` goes through the list: these are its requests. The
loop of `alt_tick` need not end, so it has fuel.
-/

namespace NuttyNios

/-- What a callback may ask for. -/
inductive Request (α β : Type)
  | start (alarm : α) (nticks : BitVec 32) (callback : β)
  | stop (alarm : α)

/-- What the callbacks do: to what is outside (`σ`), to the alarms, and what they return. -/
abbrev Calls (α β σ : Type) := β → σ → σ × List (Request α β) × BitVec 32

structure Alarms (α β : Type) where
  tickRate : BitVec 32
  nticks : Nat
  list : Links (Option α)
  time : α → Nat
  callback : α → β

inductive AlarmErrno
  | einval
  | enotsup
deriving DecidableEq

namespace Alarms
variable {α β σ : Type} [DecidableEq α]

/-- Out of reset: no clock, and the list is empty. -/
def reset (callback : α → β) : Alarms α β where
  tickRate := 0
  nticks := 0
  list := ⟨id, id⟩
  time _ := 0
  callback

def sysclkInit (s : Alarms α β) (nticks : BitVec 32) : Alarms α β :=
  if s.tickRate = 0 then { s with tickRate := nticks } else s

/-- `none` for a null pointer. -/
def start (s : Alarms α β) (alarm : Option α) (nticks : BitVec 32) (callback : β) : Except AlarmErrno (Alarms α β) :=
  if s.tickRate ≠ 0 then match alarm with
    | some a => .ok { s with callback := Function.update s.callback a callback,
                             time := Function.update s.time a ((nticks.toNat + s.nticks + 1) % 2 ^ 64),
                             list := s.list.insert none a }
    | none => .error .einval
  else .error .enotsup

def stop (s : Alarms α β) (alarm : α) : Alarms α β := { s with list := s.list.remove alarm }

/-- `alarm->time += next_callback` -/
def again (s : Alarms α β) (alarm : α) (nextCallback : BitVec 32) : Alarms α β :=
  { s with time := Function.update s.time alarm ((s.time alarm + nextCallback.toNat) % 2 ^ 64) }

/-- The requests of a callback, one after the other; it does not look at what `alt_alarm_start` returns. -/
def perform (s : Alarms α β) : List (Request α β) → Alarms α β
  | [] => s
  | .start a nticks callback :: rs => ((s.start a nticks callback).toOption.getD s).perform rs
  | .stop a :: rs => (s.stop a).perform rs

/-- The loop of `alt_tick`, which goes on from `alarm`; with the alarms it called. -/
def tickLoop (calls : Calls α β σ) : Nat → Option α → Alarms α β → σ → Option (Alarms α β × σ × List α)
  | 0, _, _, _ => none
  | _ + 1, none, s, w => some (s, w, [])
  | fuel + 1, some alarm, s, w =>
    let next := s.list.next alarm
    if s.time alarm ≤ s.nticks then do
      let (w, rs, nextCallback) := calls (s.callback alarm) w
      let s := s.perform rs
      let s := if nextCallback = 0 then s.stop alarm else s.again alarm nextCallback
      let (s, w, called) ← tickLoop calls fuel next s w
      return (s, w, alarm :: called)
    else tickLoop calls fuel next s w

def tick (calls : Calls α β σ) (fuel : Nat) (s : Alarms α β) (w : σ) : Option (Alarms α β × σ × List α) :=
  let s := { s with nticks := (s.nticks + 1) % 2 ^ 64 }
  tickLoop calls fuel (s.list.next none) s w

end Alarms

/-! ## The timetable -/

/-- An alarm on the timetable: when it is due, and what is called. -/
structure Entry (α β : Type) where
  alarm : α
  due : Nat
  callback : β

/-- What the alarms are for: the time, and who is to be called when. -/
structure Timetable (α β : Type) where
  now : Nat
  entries : List (Entry α β)

namespace Timetable
variable {α β σ : Type} [DecidableEq α]

def alarms (t : Timetable α β) : List α := t.entries.map Entry.alarm

def start (t : Timetable α β) (a : α) (nticks : BitVec 32) (callback : β) : Timetable α β :=
  { t with entries := ⟨a, nticks.toNat + t.now + 1, callback⟩ :: t.entries }

def stop (t : Timetable α β) (a : α) : Timetable α β := { t with entries := t.entries.filter (·.alarm ≠ a) }

/-- It is due again after some time. -/
def again (t : Timetable α β) (a : α) (nticks : BitVec 32) : Timetable α β :=
  { t with entries := t.entries.map fun e => if e.alarm = a then { e with due := e.due + nticks.toNat } else e }

def find (t : Timetable α β) (a : α) : Option (Entry α β) := t.entries.find? (·.alarm = a)

/-- What comes after `a`. -/
def after (a : α) : List α → Option α
  | [] => none
  | x :: xs => if x = a then xs.head? else after a xs

/-- The requests of a callback, if it keeps to the rules: it starts what is not on the timetable, and it stops
what is, but not `next`. -/
def perform (t : Timetable α β) (next : Option α) : List (Request α β) → Option (Timetable α β)
  | [] => some t
  | .start a nticks callback :: rs =>
    if a ∈ t.alarms then none else (t.start a nticks callback).perform next rs
  | .stop a :: rs => if a ∈ t.alarms ∧ some a ≠ next then (t.stop a).perform next rs else none

/-- `a` is called if it is still there and due. -/
def call (calls : Calls α β σ) (t : Timetable α β) (w : σ) (a : α) : Option (Timetable α β × σ × List α) :=
  match t.find a with
  | none => some (t, w, [])
  | some e =>
    if e.due ≤ t.now then do
      let (w, rs, nextCallback) := calls e.callback w
      let t ← t.perform (after a t.alarms) rs
      return (if nextCallback = 0 then t.stop a else t.again a nextCallback, w, [a])
    else some (t, w, [])

def callAll (calls : Calls α β σ) : List α → Timetable α β → σ → Option (Timetable α β × σ × List α)
  | [], t, w => some (t, w, [])
  | a :: as, t, w => do
    let (t, w, called) ← t.call calls w a
    let (t, w, more) ← callAll calls as t w
    return (t, w, called ++ more)

/-- A tick calls, one by one, all that were on the timetable before it and are due. -/
def tick (calls : Calls α β σ) (t : Timetable α β) (w : σ) : Option (Timetable α β × σ × List α) :=
  callAll calls t.alarms { t with now := t.now + 1 } w

theorem alarms_stop (t : Timetable α β) (a : α) : (t.stop a).alarms = t.alarms.filter (· ≠ a) := by
  show (t.entries.filter (·.alarm ≠ a)).map Entry.alarm = (t.entries.map Entry.alarm).filter (· ≠ a)
  rw [List.filter_map]
  rfl

theorem alarms_again (t : Timetable α β) (a : α) (nticks : BitVec 32) : (t.again a nticks).alarms = t.alarms := by
  rw [alarms, again, List.map_map]
  refine List.map_congr_left fun e _ => ?_
  simp only [Function.comp]
  split <;> rfl

omit [DecidableEq α] in
theorem mem_alarms {t : Timetable α β} {a : α} : a ∈ t.alarms ↔ ∃ e ∈ t.entries, e.alarm = a := List.mem_map

theorem find_some {t : Timetable α β} {a : α} {e : Entry α β} (h : t.find a = some e) : e ∈ t.entries ∧ e.alarm = a :=
  ⟨List.mem_of_find?_eq_some h, by simpa using List.find?_some h⟩

theorem stop_of_not_mem {t : Timetable α β} {a : α} (h : a ∉ t.alarms) : t.stop a = t := by
  have hall : t.entries.filter (·.alarm ≠ a) = t.entries :=
    List.filter_eq_self.2 fun e he => decide_eq_true fun ha => h (mem_alarms.2 ⟨e, he, ha⟩)
  rw [stop, hall]

end Timetable

/-! ## The list keeps the timetable -/

/-- The memory is that of the timetable. Nothing runs over yet. -/
structure Represents {α β : Type} [DecidableEq α] (s : Alarms α β) (t : Timetable α β) : Prop where
  rate : s.tickRate ≠ 0
  nticks : s.nticks = t.now
  bounded : t.now + 2 ^ 33 < 2 ^ 64
  ring : s.list.Ring none (t.alarms.map some)
  entry : ∀ e ∈ t.entries, s.time e.alarm = e.due ∧ s.callback e.alarm = e.callback
  due_le : ∀ e ∈ t.entries, e.due ≤ t.now + 2 ^ 33

namespace Represents
variable {α β σ : Type} [DecidableEq α] {s : Alarms α β} {t : Timetable α β} {a : α}

theorem nodup (h : Represents s t) : t.alarms.Nodup :=
  ((List.nodup_cons.1 h.ring.nodup).2).of_map some

theorem start (h : Represents s t) (ha : a ∉ t.alarms) (nticks : BitVec 32) (callback : β) :
    ∃ s', s.start (some a) nticks callback = .ok s' ∧ Represents s' (t.start a nticks callback) ∧
      s'.list = s.list.insert none (some a) := by
  have hlt := nticks.isLt
  have hb := h.bounded
  have hmod : (nticks.toNat + s.nticks + 1) % 2 ^ 64 = nticks.toNat + t.now + 1 := by
    rw [h.nticks]
    exact Nat.mod_eq_of_lt (by omega)
  refine ⟨_, if_pos h.rate, ⟨h.rate, h.nticks, hb, ?_, ?_, ?_⟩, rfl⟩
  · exact h.ring.insert (by simpa using ha)
  · intro e he
    rcases List.mem_cons.1 he with rfl | he
    · exact ⟨(Function.update_self ..).trans hmod, Function.update_self ..⟩
    · have hne : e.alarm ≠ a := fun h => ha (Timetable.mem_alarms.2 ⟨e, he, h⟩)
      exact ⟨(Function.update_of_ne hne ..).trans (h.entry e he).1,
        (Function.update_of_ne hne ..).trans (h.entry e he).2⟩
  · intro e he
    rcases List.mem_cons.1 he with rfl | he
    · show nticks.toNat + t.now + 1 ≤ t.now + 2 ^ 33
      omega
    · exact h.due_le e he

/-- Where an alarm is on the list. -/
theorem split (h : Represents s t) (ha : a ∈ t.alarms) :
    ∃ xs ys, t.alarms.map some = xs ++ some a :: ys ∧ (t.stop a).alarms.map some = xs ++ ys := by
  obtain ⟨xs, ys, -, hall, hrem⟩ := List.exists_erase_eq ha
  have hfilter : (t.stop a).alarms = t.alarms.erase a := by
    rw [Timetable.alarms_stop, h.nodup.erase_eq_filter]
    exact List.filter_congr fun x _ => decide_not
  refine ⟨xs.map some, ys.map some, ?_, ?_⟩
  · rw [hall, List.map_append, List.map_cons]
  · rw [hfilter, hrem, List.map_append]

theorem stop (h : Represents s t) (ha : a ∈ t.alarms) : Represents (s.stop a) (t.stop a) := by
  obtain ⟨xs, ys, hall, hrem⟩ := h.split ha
  refine ⟨h.rate, h.nticks, h.bounded, ?_, ?_, ?_⟩
  · rw [hrem]
    exact (hall ▸ h.ring).remove
  · intro e he
    exact h.entry e (List.mem_of_mem_filter he)
  · intro e he
    exact h.due_le e (List.mem_of_mem_filter he)

theorem stop_alone (h : s.list.Alone (some a)) : s.stop a = s := by
  rw [Alarms.stop, Links.remove_alone h]

theorem again (h : Represents s t) (nticks : BitVec 32)
    (hd : ∀ e ∈ t.entries, e.alarm = a → e.due ≤ t.now + 2 ^ 32) :
    Represents (s.again a nticks) (t.again a nticks) := by
  have hlt := nticks.isLt
  have hb := h.bounded
  refine ⟨h.rate, h.nticks, hb, ?_, ?_, ?_⟩
  · rw [Timetable.alarms_again]
    exact h.ring
  · intro e he
    obtain ⟨e, hmem, rfl⟩ := List.mem_map.1 he
    have hentry := h.entry e hmem
    split
    · next ha =>
      have hle := hd e hmem ha
      refine ⟨?_, hentry.2⟩
      show Function.update _ _ _ e.alarm = _
      rw [← ha, Function.update_self, hentry.1]
      exact Nat.mod_eq_of_lt (by omega)
    · next ha => exact ⟨(Function.update_of_ne ha ..).trans hentry.1, hentry.2⟩
  · intro e he
    obtain ⟨e, hmem, rfl⟩ := List.mem_map.1 he
    split
    · next ha =>
      have hle := hd e hmem ha
      show e.due + nticks.toNat ≤ t.now + 2 ^ 33
      omega
    · exact h.due_le e hmem

end Represents

/-- Where the loop of `alt_tick` is: of the alarms that are still to be called, `rest` are ahead of it on the
list. Those that are not there any more will not be due. -/
structure Scan {α β : Type} (t : Timetable α β) (as rest : List α) : Prop where
  split : ∃ front, t.alarms = front ++ rest
  sub : rest.Sublist as
  late : ∀ a ∈ as, a ∉ rest → ∀ e ∈ t.entries, e.alarm = a → t.now < e.due

namespace Scan
variable {α β σ : Type} [DecidableEq α] {t : Timetable α β} {a : α} {as rest : List α}

omit [DecidableEq α] in
theorem start (h : Scan t as rest) (a : α) (nticks : BitVec 32) (callback : β) :
    Scan (t.start a nticks callback) as rest := by
  obtain ⟨front, hfront⟩ := h.split
  refine ⟨⟨a :: front, congrArg (a :: ·) hfront⟩, h.sub, ?_⟩
  intro x hx hrest e he hex
  rcases List.mem_cons.1 he with rfl | he
  · show t.now < nticks.toNat + t.now + 1
    omega
  · exact h.late x hx hrest e he hex

theorem stop (h : Scan t as rest) (a : α) : Scan (t.stop a) as (rest.filter (· ≠ a)) := by
  obtain ⟨front, hfront⟩ := h.split
  refine ⟨⟨front.filter (· ≠ a), ?_⟩, List.filter_sublist.trans h.sub, ?_⟩
  · rw [Timetable.alarms_stop, hfront, List.filter_append]
  · intro x hx hrest e he hex
    obtain ⟨he, hea⟩ := List.mem_filter.1 he
    refine h.late x hx (fun hmem => hrest (List.mem_filter.2 ⟨hmem, ?_⟩)) e he hex
    rw [← hex]
    exact hea

theorem again (h : Scan t as rest) (ha : a ∉ as) (nticks : BitVec 32) : Scan (t.again a nticks) as rest := by
  obtain ⟨front, hfront⟩ := h.split
  refine ⟨⟨front, (Timetable.alarms_again ..).trans hfront⟩, h.sub, ?_⟩
  intro x hx hrest e he hex
  obtain ⟨e, hmem, rfl⟩ := List.mem_map.1 he
  have hne : e.alarm ≠ a := by
    intro hea
    rw [if_pos hea] at hex
    exact ha (hea ▸ hex ▸ hx)
  rw [if_neg hne] at hex ⊢
  exact h.late x hx hrest e hmem hex

/-- What is not the next to come may go. -/
theorem head_filter (hne : some a ≠ rest.head?) : (rest.filter (· ≠ a)).head? = rest.head? := by
  cases rest with
  | nil => rfl
  | cons x xs =>
    have hx : x ≠ a := fun h => hne (congrArg some h.symm)
    rw [List.filter_cons_of_pos (by simpa using hx)]
    rfl

end Scan

namespace Represents
variable {α β σ : Type} [DecidableEq α] {s : Alarms α β} {t t' : Timetable α β} {a : α} {as rest : List α}

/-- The requests of the callback of `a`, while the loop has gone on to `rest`. `a` itself stays on the list or
points to itself, so that it may be stopped once more. -/
theorem perform {rs : List (Request α β)} {next : Option α} (h : Represents s t) (hs : Scan t as rest)
    (hn : rest.head? = next) (ha : a ∈ t.alarms ∨ s.list.Alone (some a) ∧ a ∉ t.alarms)
    (hd : ∀ e ∈ t.entries, e.alarm = a → e.due ≤ t.now + 2 ^ 32) (hp : t.perform next rs = some t') :
    ∃ rest', Represents (s.perform rs) t' ∧ Scan t' as rest' ∧ rest'.head? = next ∧ t'.now = t.now ∧
      (a ∈ t'.alarms ∨ (s.perform rs).list.Alone (some a) ∧ a ∉ t'.alarms) ∧
      ∀ e ∈ t'.entries, e.alarm = a → e.due ≤ t'.now + 2 ^ 32 := by
  induction rs generalizing s t rest with
  | nil =>
    cases hp
    exact ⟨rest, h, hs, hn, rfl, ha, hd⟩
  | cons r rs ih =>
    cases r with
    | start b nticks callback =>
      simp only [Timetable.perform] at hp
      split at hp
      · cases hp
      next hb =>
      obtain ⟨s₁, hstart, hrep, hlist⟩ := h.start hb nticks callback
      have hperform : s.perform (.start b nticks callback :: rs) = s₁.perform rs := by
        rw [Alarms.perform, hstart]
        rfl
      rw [hperform]
      refine ih (t := t.start b nticks callback) hrep (hs.start b nticks callback) hn ?_ ?_ hp
      · by_cases hab : a = b
        · exact .inl (hab ▸ List.mem_cons_self)
        · refine ha.imp (List.mem_cons_of_mem b) fun ⟨halone, hmem⟩ => ⟨?_, List.not_mem_cons_of_ne_of_not_mem hab hmem⟩
          rw [hlist]
          exact halone.insert h.ring (by simpa using hmem) (by simpa using hab) (Option.some_ne_none b)
      · intro e he hea
        rcases List.mem_cons.1 he with rfl | he
        · have hlt := nticks.isLt
          show nticks.toNat + t.now + 1 ≤ t.now + 2 ^ 32
          omega
        · exact hd e he hea
    | stop b =>
      simp only [Timetable.perform] at hp
      split at hp
      · next hb =>
        refine ih (t := t.stop b) (h.stop hb.1) (hs.stop b) ?_ ?_ ?_ hp
        · rw [Scan.head_filter (hn ▸ hb.2), hn]
        · rw [Timetable.alarms_stop]
          by_cases hab : a = b
          · exact .inr ⟨hab ▸ Links.alone_remove s.list (some a),
              fun h => of_decide_eq_true (List.mem_filter.1 h).2 hab⟩
          · refine ha.imp (fun h => List.mem_filter.2 ⟨h, decide_eq_true hab⟩) fun ⟨halone, hmem⟩ => ⟨?_, ?_⟩
            · obtain ⟨xs, ys, hall, -⟩ := h.split hb.1
              exact halone.remove (hall ▸ h.ring) (hall ▸ by simpa using hmem)
            · exact fun h => hmem (List.mem_of_mem_filter h)
        · exact fun e he => hd e (List.mem_of_mem_filter he)
      · cases hp

/-- Where the loop goes next. -/
theorem next_eq (h : Represents s t) {front : List α} (hsplit : t.alarms = front ++ a :: rest) :
    s.list.next (some a) = rest.head? := by
  have hchain := h.ring.chain
  rw [hsplit, List.map_append, List.map_cons] at hchain
  have hrest := ((Links.chain_append (some a)).1 hchain).2
  cases rest with
  | nil => exact hrest.1
  | cons x xs => exact hrest.1

theorem after_eq (h : Represents s t) {front : List α} (hsplit : t.alarms = front ++ a :: rest) :
    Timetable.after a t.alarms = rest.head? := by
  have hnodup := hsplit ▸ h.nodup
  rw [hsplit]
  clear hsplit
  induction front with
  | nil => exact if_pos rfl
  | cons x front ih =>
    obtain ⟨hx, hnodup⟩ := List.nodup_cons.1 hnodup
    have hne : x ≠ a := fun h => hx (h ▸ List.mem_append_right _ List.mem_cons_self)
    exact (if_neg hne).trans (ih hnodup)

/-- What a pass of the loop does for an alarm it comes to. -/
theorem tickLoop_step {calls : Calls α β σ} {w w' : σ} {called : List α} (h : Represents s t)
    (hs : Scan t (a :: as) (a :: rest)) (hnodup : (a :: as).Nodup) (hc : t.call calls w a = some (t', w', called)) :
    ∃ s' rest', Represents s' t' ∧ Scan t' as rest' ∧ ∀ fuel, s.tickLoop calls (fuel + 1) (some a) w =
      (s'.tickLoop calls fuel rest'.head? w').map fun p => (p.1, p.2.1, called ++ p.2.2) := by
  obtain ⟨front, hsplit⟩ := hs.split
  obtain ⟨haas, -⟩ := List.nodup_cons.1 hnodup
  have hmem : a ∈ t.alarms := hsplit ▸ List.mem_append_right _ List.mem_cons_self
  have hnext := h.next_eq hsplit
  have hahead : Scan t as rest := by
    refine ⟨⟨front ++ [a], by rw [hsplit, List.append_assoc]; rfl⟩, List.cons_sublist_cons.1 hs.sub, ?_⟩
    intro x hx hrest
    refine hs.late x (List.mem_cons_of_mem a hx) (mt List.mem_cons.1 (not_or.2 ⟨?_, hrest⟩))
    exact ne_of_mem_of_not_mem hx haas
  unfold Timetable.call at hc
  split at hc
  · next hnone =>
    obtain ⟨e, he, hea⟩ := Timetable.mem_alarms.1 hmem
    exact absurd hea (by simpa using List.find?_eq_none.1 hnone e he)
  · next e he =>
    obtain ⟨hentry, rfl⟩ := Timetable.find_some he
    obtain ⟨htime, hcallback⟩ := h.entry e hentry
    split at hc
    · next hdue =>
      rw [h.after_eq hsplit] at hc
      cases hcalls : calls e.callback w with
      | mk w₁ p =>
        obtain ⟨rs, nextCallback⟩ := p
        rw [hcalls] at hc
        obtain ⟨t₁, hperform, hc⟩ := Option.bind_eq_some_iff.1 hc
        cases hc
        have hself : ∀ x ∈ t.entries, x.alarm = e.alarm → x.due ≤ t.now + 2 ^ 32 := by
          intro x hx hxe
          obtain rfl := List.inj_on_of_nodup_map h.nodup hx hentry hxe
          omega
        obtain ⟨rest', hrep, hscan, hhead, -, hthere, hle⟩ := h.perform hahead rfl (.inl hmem) hself hperform
        have hloop : ∀ fuel, s.tickLoop calls (fuel + 1) (some e.alarm) w =
            ((if nextCallback = 0 then (s.perform rs).stop e.alarm
                else (s.perform rs).again e.alarm nextCallback).tickLoop
              calls fuel rest'.head? w').map fun p => (p.1, p.2.1, [e.alarm] ++ p.2.2) := by
          intro fuel
          rw [Alarms.tickLoop, htime, h.nticks, if_pos hdue, hcallback, hcalls, hnext, hhead]
          exact Option.map_eq_bind.symm
        by_cases hzero : nextCallback = 0
        · simp only [if_pos hzero] at hloop ⊢
          have hrest : rest'.filter (· ≠ e.alarm) = rest' :=
            List.filter_eq_self.2 fun x hx => decide_eq_true (ne_of_mem_of_not_mem (hscan.sub.subset hx) haas)
          refine ⟨_, rest', ?_, hrest ▸ hscan.stop e.alarm, hloop⟩
          rcases hthere with hin | ⟨halone, hout⟩
          · exact hrep.stop hin
          · rw [stop_alone halone, Timetable.stop_of_not_mem hout]
            exact hrep
        · simp only [if_neg hzero] at hloop ⊢
          exact ⟨_, rest', hrep.again nextCallback hle, hscan.again haas nextCallback, hloop⟩
    · next hdue =>
      cases hc
      refine ⟨s, rest, h, hahead, fun fuel => ?_⟩
      rw [Alarms.tickLoop, htime, h.nticks, if_neg hdue, hnext]
      simp

/-- The loop does what the timetable says, as long as the callbacks keep to the rules. -/
theorem tickLoop {calls : Calls α β σ} {fuel : Nat} {w w' : σ} {called : List α} (h : Represents s t)
    (hs : Scan t as rest)
    (hnodup : as.Nodup) (hfuel : as.length < fuel) (hc : t.callAll calls as w = some (t', w', called)) :
    ∃ s', s.tickLoop calls fuel rest.head? w = some (s', w', called) ∧ Represents s' t' := by
  induction as generalizing s t rest fuel w called with
  | nil =>
    cases hc
    obtain rfl := List.sublist_nil.1 hs.sub
    obtain ⟨fuel, rfl⟩ := Nat.exists_eq_succ_of_ne_zero (Nat.ne_of_gt hfuel)
    exact ⟨s, rfl, h⟩
  | cons a as ih =>
    obtain ⟨⟨t₁, w₁, called₁⟩, hcall, hc⟩ := Option.bind_eq_some_iff.1 hc
    obtain ⟨⟨t₂, w₂, called₂⟩, hall, hc⟩ := Option.bind_eq_some_iff.1 hc
    cases hc
    obtain ⟨haas, hnodup'⟩ := List.nodup_cons.1 hnodup
    cases hs.sub with
    | cons _ hsub =>
      have hrest : a ∉ rest := fun h => haas (hsub.subset h)
      have hskip : t.call calls w a = some (t, w, []) := by
        unfold Timetable.call
        split
        · rfl
        · next e he =>
          obtain ⟨hentry, hea⟩ := Timetable.find_some he
          exact if_neg (Nat.not_le.2 (hs.late a List.mem_cons_self hrest e hentry hea))
      rw [hskip] at hcall
      cases hcall
      exact ih h ⟨hs.split, hsub, fun x hx => hs.late x (List.mem_cons_of_mem a hx)⟩ hnodup'
        (Nat.lt_of_succ_lt hfuel) hall
    | cons_cons _ hsub =>
      obtain ⟨s₁, rest₁, hrep, hscan, hloop⟩ := h.tickLoop_step hs hnodup hcall
      obtain ⟨fuel, rfl⟩ := Nat.exists_eq_succ_of_ne_zero (Nat.ne_zero_of_lt hfuel)
      obtain ⟨s₂, hrun, hrep₂⟩ := ih hrep hscan hnodup' (Nat.lt_of_succ_lt_succ hfuel) hall
      refine ⟨s₂, ?_, hrep₂⟩
      show s.tickLoop calls (fuel + 1) (some a) w = _
      rw [hloop, hrun]
      rfl

/-- `_alt_nticks++` -/
theorem advance (h : Represents s t) (hnow : t.now + 1 + 2 ^ 33 < 2 ^ 64) :
    Represents { s with nticks := (s.nticks + 1) % 2 ^ 64 } { t with now := t.now + 1 } := by
  have hmod : (s.nticks + 1) % 2 ^ 64 = t.now + 1 := by
    rw [h.nticks]
    exact Nat.mod_eq_of_lt (by omega)
  exact ⟨h.rate, hmod, hnow, h.ring, h.entry, fun e he => Nat.le_trans (h.due_le e he) (by simp)⟩

theorem first_eq (h : Represents s t) : s.list.next none = t.alarms.head? := by
  have hchain := h.ring.chain
  cases halarms : t.alarms with
  | nil => rw [halarms] at hchain; exact hchain.1
  | cons a as => rw [halarms] at hchain; exact hchain.1

theorem tick {calls : Calls α β σ} {fuel : Nat} {w w' : σ} {called : List α} (h : Represents s t)
    (hnow : t.now + 1 + 2 ^ 33 < 2 ^ 64) (hfuel : t.alarms.length < fuel)
    (hc : t.tick calls w = some (t', w', called)) :
    ∃ s', s.tick calls fuel w = some (s', w', called) ∧ Represents s' t' := by
  have hscan : Scan { t with now := t.now + 1 } t.alarms t.alarms :=
    ⟨⟨[], rfl⟩, List.Sublist.refl _, fun a ha hna => absurd ha hna⟩
  obtain ⟨s', hloop, hrep⟩ := (h.advance hnow).tickLoop hscan h.nodup hfuel hc
  exact ⟨s', by rw [Alarms.tick, h.first_eq]; exact hloop, hrep⟩

end Represents

/-! ## Runs -/

/-- What happens to the alarms, one at a time: a program starts and stops them with the interrupts off. -/
inductive AlarmEvent (α β : Type)
  | start (alarm : α) (nticks : BitVec 32) (callback : β)
  | stop (alarm : α)
  | tick

inductive AlarmFault
  | error (e : AlarmErrno)
  /-- `alt_tick` has not come to an end. -/
  | endless
  /-- What the timetable has no meaning for. -/
  | rules

section
variable {α β σ : Type} [DecidableEq α]

/-- The memory, and all outside. There are only so many `alt_alarm` structures. -/
def alarmClock [Fintype α] (calls : Calls α β σ) : Machine (Alarms α β × σ) (AlarmEvent α β) (List α) AlarmFault where
  step
    | (s, w), .start a nticks callback => match s.start (some a) nticks callback with
      | .ok s => .ok ((s, w), [])
      | .error e => .error (.error e)
    | (s, w), .stop a => .ok ((s.stop a, w), [])
    | (s, w), .tick => match s.tick calls (Fintype.card α + 1) w with
      | some (s, w, called) => .ok ((s, w), called)
      | none => .error .endless

/-- The rules: an alarm is started when it is off and stopped when it is on, also by callbacks, but none of
them stops the one after its own; and the clock does not run over. -/
def timetable (calls : Calls α β σ) : Machine (Timetable α β × σ) (AlarmEvent α β) (List α) AlarmFault where
  step
    | (t, w), .start a nticks callback =>
      if a ∈ t.alarms then .error .rules else .ok ((t.start a nticks callback, w), [])
    | (t, w), .stop a => if a ∈ t.alarms then .ok ((t.stop a, w), []) else .error .rules
    | (t, w), .tick =>
      if t.now + 1 + 2 ^ 33 < 2 ^ 64 then match t.tick calls w with
        | some (t, w, called) => .ok ((t, w), called)
        | none => .error .rules
      else .error .rules

def Timetable.empty : Timetable α β := ⟨0, []⟩

theorem reset_represents {rate : BitVec 32} (hrate : rate ≠ 0) (callback : α → β) :
    Represents ((Alarms.reset callback).sysclkInit rate) Timetable.empty := by
  have hinit : (Alarms.reset callback).sysclkInit rate = { Alarms.reset callback with tickRate := rate } := if_pos rfl
  rw [hinit]
  exact ⟨hrate, rfl, show 0 + 2 ^ 33 < 2 ^ 64 by decide, ⟨⟨rfl, rfl⟩, List.nodup_singleton _⟩,
    fun e he => absurd he List.not_mem_nil, fun e he => absurd he List.not_mem_nil⟩

theorem alarmClock_step [Fintype α] {calls : Calls α β σ} {s : Alarms α β} {t : Timetable α β} {w : σ}
    {e : AlarmEvent α β} {q : Timetable α β × σ} {called : List α} (h : Represents s t)
    (hs : (timetable calls).step (t, w) e = .ok (q, called)) :
    ∃ s', (alarmClock calls).step (s, w) e = .ok ((s', q.2), called) ∧ Represents s' q.1 := by
  cases e with
  | start a nticks callback =>
    simp only [timetable] at hs
    split at hs <;> cases hs
    next ha =>
    obtain ⟨s', hstart, hrep, -⟩ := h.start ha nticks callback
    exact ⟨s', by simp only [alarmClock, hstart], hrep⟩
  | stop a =>
    simp only [timetable] at hs
    split at hs <;> cases hs
    next ha => exact ⟨s.stop a, rfl, h.stop ha⟩
  | tick =>
    simp only [timetable] at hs
    split at hs
    · next hnow =>
      cases htick : t.tick calls w with
      | none => rw [htick] at hs; cases hs
      | some p =>
        rw [htick] at hs
        cases hs
        have hfuel : t.alarms.length < Fintype.card α + 1 := Nat.lt_succ_of_le h.nodup.length_le_card
        obtain ⟨s', hrun, hrep⟩ := h.tick hnow hfuel htick
        exact ⟨s', by simp only [alarmClock, hrun], hrep⟩
    · cases hs

theorem alarmClock_simulates [Fintype α] {calls : Calls α β σ} {s : Alarms α β} {t : Timetable α β} (h : Represents s t)
    {w : σ} {es : List (AlarmEvent α β)} {t' : Timetable α β} {w' : σ} {outs : List (List α)}
    (hr : (timetable calls).run (t, w) es = .ok ((t', w'), outs)) :
    ∃ s', (alarmClock calls).run (s, w) es = .ok ((s', w'), outs) ∧ Represents s' t' := by
  have hstep : ∀ (p : Alarms α β × σ) (q : Timetable α β × σ) e q' called, (Represents p.1 q.1 ∧ p.2 = q.2) →
      (timetable calls).step q e = .ok (q', called) →
      ∃ p', (alarmClock calls).step p e = .ok (p', called) ∧ Represents p'.1 q'.1 ∧ p'.2 = q'.2 := by
    rintro ⟨s, w⟩ ⟨t, _⟩ e q called ⟨hrep, rfl⟩ hs
    obtain ⟨s', hs', hrep'⟩ := alarmClock_step hrep hs
    exact ⟨(s', q.2), hs', hrep', rfl⟩
  obtain ⟨⟨s', _⟩, hrun, hrep, rfl⟩ := Machine.run_simulates hstep (s := (s, w)) ⟨h, rfl⟩ hr
  exact ⟨s', hrun, hrep⟩

/-- **The linked list keeps the timetable**: in every run that keeps to the rules, its callbacks too, and in which
the clock does not run over, `alt_tick` comes to an end each time and calls, in this order, what the timetable
says. -/
theorem alarmClock_run [Fintype α] {calls : Calls α β σ} {rate : BitVec 32} (hrate : rate ≠ 0) (callback : α → β)
    {w : σ}
    {es : List (AlarmEvent α β)} {t : Timetable α β} {w' : σ} {outs : List (List α)}
    (hr : (timetable calls).run (Timetable.empty, w) es = .ok ((t, w'), outs)) :
    ∃ s, (alarmClock calls).run ((Alarms.reset callback).sysclkInit rate, w) es = .ok ((s, w'), outs) ∧
      Represents s t :=
  alarmClock_simulates (reset_represents hrate callback) hr

theorem alarmClock_run_pair : ∃ (s : Alarms Bool Bool) (t : Timetable Bool Bool) (outs : List (List Bool)),
    (alarmClock fun c w => (w, if c then [] else [.stop true], 1)).run ((Alarms.reset id).sysclkInit 1, ())
        [.start false 1 false, .start true 0 true, .tick, .tick] = .ok ((s, ()), outs) ∧ Represents s t := by
  obtain ⟨s, h⟩ := @alarmClock_run Bool Bool Unit _ _ (fun c w => (w, if c then [] else [.stop true], 1)) 1
    (by decide) id ()
    [.start false 1 false, .start true 0 true, .tick, .tick] _ _ _ rfl
  exact ⟨s, _, _, h⟩

end
end NuttyNios
