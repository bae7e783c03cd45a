import NuttyNios.JtagCalls
/-!
# What a write takes

`WriteCalled` says how far a write has come: with what it has put into the ring buffer, the space there was
when it was called is used or still there. A write that is to wait takes everything, as long as the
driver sees the host (`write_result`), and waits for ever if nobody reads and the alarm does not go off
(`writes_unread`).
-/

namespace NuttyNios
open Buffer RingBuffer

namespace Jtag

/-- Of the space for `n` bytes there was at the call, as much as is needed has been used, or is still
there; where the write leaves its loop it has been used. -/
def Fills (n : Nat) (tx : RingBuffer UInt8 BUF_LEN) (c : WriteCall) : WritePc → Prop
  | .loadIn | .loadOut _ | .copy _ _ _ _ | .publish _ _ _ =>
    min c.data.length n ≤ c.sent + (BUF_LEN - 1 - tx.count)
  | .enable _ | .spin _ | .active | .ret => min c.data.length n ≤ c.sent

/-- A write that waits leaves something out only if the host is `gone`. -/
def StopsShort (gone : Prop) (c : WriteCall) : WritePc → Prop
  | .ret => c.sent = c.data.length ∨ c.nonblock = true ∨ gone
  | _ => True

/-- How far a write has come. -/
structure WriteCalled (data : List UInt8) (n : Nat) (nonblock : Bool) (gone : Prop) (tx : RingBuffer UInt8 BUF_LEN)
    (c : WriteCall) (pc : WritePc) : Prop where
  bytes : c.data = data
  flags : c.nonblock = nonblock
  size : c.sent ≤ c.data.length
  fills : Fills n tx c pc
  stopsShort : StopsShort gone c pc

/-- The statements of its own that a write which does not wait has left. -/
def WriteCall.left (c : WriteCall) : WritePc → Nat
  | .loadIn => 5 * c.count + 4
  | .loadOut _ => 5 * c.count + 3
  | .copy _ _ n k => 5 * (c.count - n) + (n - k) + 6
  | .publish _ _ n => 5 * (c.count - n) + 5
  | .enable _ => 2
  | .spin _ | .active => 0
  | .ret => 1

theorem WriteCalled.mono {data : List UInt8} {n : Nat} {nonblock : Bool} {gone gone' : Prop}
    {tx : RingBuffer UInt8 BUF_LEN} {c : WriteCall} {pc : WritePc} (h : WriteCalled data n nonblock gone tx c pc)
    (hg : gone → gone') : WriteCalled data n nonblock gone' tx c pc := by
  refine ⟨h.bytes, h.flags, h.size, h.fills, ?_⟩
  have hu := h.stopsShort
  cases pc with
  | ret => exact hu.imp_right (.imp_right hg)
  | _ => trivial

theorem WriteCalled.elsewhere {data : List UInt8} {n : Nat} {nonblock : Bool} {gone : Prop} {s s' : Jtag}
    {c : WriteCall} {pc : WritePc} (h : WriteCalled data n nonblock gone s.tx c pc) (he : Elsewhere s s') :
    WriteCalled data n nonblock gone s'.tx c pc := by
  refine ⟨h.bytes, h.flags, h.size, ?_, h.stopsShort⟩
  have hf := h.fills
  have hle := he.txCount
  cases pc with
  | loadIn | loadOut inp | copy inp out m k | publish inp out m =>
    change min c.data.length n ≤ c.sent + (BUF_LEN - 1 - s.tx.count) at hf
    show min c.data.length n ≤ c.sent + (BUF_LEN - 1 - s'.tx.count)
    omega
  | enable out | spin out | active | ret => exact hf

/-- One statement of a write. -/
theorem writeStep_called {data : List UInt8} {n : Nat} {nonblock : Bool} {gone : Prop} {s s' : Jtag} {c : WriteCall}
    {pc : WritePc} {o : Out} (h : Inv s) (hc : WriteCalled data n nonblock gone s.tx c pc)
    (ht : s.task = .write c pc) (hs : s.writeStep c pc = .ok (s', o)) :
    (∃ c' pc', s'.task = .write c' pc' ∧ WriteCalled data n nonblock (gone ∨ s.hostInactive ≠ 0) s'.tx c' pc' ∧
        o.isReturn = false ∧ (nonblock = true → c'.left pc' + 1 ≤ c.left pc)) ∨
      s'.task = .idle ∧ min data.length n ≤ c.sent ∧ c.sent ≤ data.length ∧
        (c.sent = data.length ∨ nonblock = true ∨ gone) ∧
        o = .wrote data (if c.sent ≠ 0 then .ok c.sent else if nonblock then .error .ewouldblock else .error .eio) := by
  have hwrite := h.tx.writing
  have hwaits := h.irq.waits
  rw [ht] at hwrite hwaits
  obtain ⟨rfl, rfl, hsize, hf, hu⟩ := hc
  have hcount : c.count = c.data.length - c.sent := rfl
  cases pc with
  | loadIn =>
    cases hs
    exact .inl ⟨c, _, rfl, ⟨rfl, rfl, hsize, hf, trivial⟩, rfl, fun _ => Nat.le_refl _⟩
  | loadOut inp =>
    obtain rfl : inp = s.tx.inp := hwrite
    simp only [writeStep] at hs
    rw [← show free BUF_LEN s.tx.inp s.tx.out = if s.tx.inp < s.tx.out then s.tx.out - 1 - s.tx.inp
      else if s.tx.out > 0 then BUF_LEN - s.tx.inp else BUF_LEN - 1 - s.tx.inp from rfl] at hs
    split at hs
    · next hz =>
      have hfull : s.tx.count + 1 = BUF_LEN := (free_eq_zero_iff s.tx.out_lt s.tx.inp_lt).1 hz
      change min c.data.length n ≤ c.sent + (BUF_LEN - 1 - s.tx.count) at hf
      cases hs
      refine .inl ⟨c, _, rfl, ⟨rfl, rfl, hsize, ?_, trivial⟩, rfl, fun _ => by simp only [WriteCall.left]; omega⟩
      show min c.data.length n ≤ c.sent
      omega
    · cases hs
      refine .inl ⟨c, _, rfl, ⟨rfl, rfl, hsize, hf, trivial⟩, rfl, fun _ => ?_⟩
      change 0 < c.count at hwaits
      simp only [WriteCall.left]
      split <;> omega
  | copy inp out m k =>
    simp only [writeStep] at hs
    split at hs
    · next hlt =>
      obtain ⟨rfl, hpiece, hk, hm, hroom, hst⟩ := hwrite
      have hlen : ((c.data.drop c.sent).take k).length = k := by
        rw [List.length_take, List.length_drop]
        omega
      obtain ⟨tx', hput, -, hin, hout, -⟩ := hst.put (by rw [hlen]; omega)
        (i := s.tx.inp + k) (by rw [hlen, Nat.mod_eq_of_lt (by omega)]) (c.data.getD (c.sent + k) 0)
      have hsame : tx'.count = s.tx.count := by rw [count, count, hin, hout]
      rw [hput] at hs
      cases hs
      refine .inl ⟨c, _, rfl, ⟨rfl, rfl, hsize, ?_, trivial⟩, rfl, fun _ => by simp only [WriteCall.left]; omega⟩
      show min c.data.length n ≤ c.sent + (BUF_LEN - 1 - tx'.count)
      rw [hsame]
      exact hf
    · cases hs
      exact .inl ⟨c, _, rfl, ⟨rfl, rfl, hsize, hf, trivial⟩, rfl, fun _ => by simp only [WriteCall.left]; omega⟩
  | publish inp out m =>
    obtain ⟨rfl, hm, hst⟩ := hwrite
    change 0 < m at hwaits
    change min c.data.length n ≤ c.sent + (BUF_LEN - 1 - s.tx.count) at hf
    have hlen : ((c.data.drop c.sent).take m).length = m := by
      rw [List.length_take, List.length_drop]
      omega
    have hroom := hst.room
    have hmore : (s.tx.setIn (s.tx.inp + m)).count = s.tx.count + m := by
      rw [← length_contents, hst.setIn (by rw [hlen]), List.length_append, length_contents, hlen]
    rw [hlen] at hroom
    simp only [writeStep] at hs
    split at hs <;> cases hs
    · refine .inl ⟨_, _, rfl, ⟨rfl, rfl, ?_, ?_, trivial⟩, rfl, fun _ => ?_⟩
      · show c.sent + m ≤ c.data.length
        omega
      · show min c.data.length n ≤ c.sent + m + (BUF_LEN - 1 - (s.tx.setIn (s.tx.inp + m)).count)
        omega
      · simp only [WriteCall.left, WriteCall.count]
        omega
    · next hz =>
      change ¬ 0 < c.data.length - (c.sent + m) at hz
      refine .inl ⟨_, _, rfl, ⟨rfl, rfl, ?_, ?_, trivial⟩, rfl, fun _ => ?_⟩
      · show c.sent + m ≤ c.data.length
        omega
      · show min c.data.length n ≤ c.sent + m
        omega
      · simp only [WriteCall.left]
        omega
  | enable out =>
    simp only [writeStep] at hs
    split at hs <;> cases hs
    · next hgo =>
      exact .inl ⟨c, _, rfl, ⟨rfl, rfl, hsize, hf, trivial⟩, rfl,
        fun hb => absurd (hgo.2.symm.trans hb) Bool.false_ne_true⟩
    · next hgo =>
      refine .inl ⟨c, _, rfl, ⟨rfl, rfl, hsize, hf, ?_⟩, rfl, fun _ => Nat.le_refl _⟩
      by_cases hb : c.nonblock = true
      · exact .inr (.inl hb)
      · exact .inl (Nat.le_antisymm hsize (by
          have hz : ¬ 0 < c.count := fun hpos => hgo ⟨hpos, Bool.eq_false_iff.2 hb⟩
          omega))
  | spin out =>
    obtain ⟨-, hb, -⟩ := hwaits
    have hblock : ∀ {n m : Nat}, c.nonblock = true → n + 1 ≤ m :=
      fun hb' => absurd (hb.symm.trans hb') Bool.false_ne_true
    simp only [writeStep] at hs
    split at hs <;> cases hs
    · exact .inl ⟨c, _, ht, ⟨rfl, rfl, hsize, hf, trivial⟩, rfl, hblock⟩
    · exact .inl ⟨c, _, rfl, ⟨rfl, rfl, hsize, hf, trivial⟩, rfl, hblock⟩
  | active =>
    have hblock : ∀ {n m : Nat}, c.nonblock = true → n + 1 ≤ m :=
      fun hb' => absurd (hwaits.2.symm.trans hb') Bool.false_ne_true
    change min c.data.length n ≤ c.sent at hf
    simp only [writeStep] at hs
    split at hs <;> cases hs
    · next hin => exact .inl ⟨c, _, rfl, ⟨rfl, rfl, hsize, hf, .inr (.inr (.inr hin))⟩, rfl, hblock⟩
    · exact .inl ⟨c, _, rfl, ⟨rfl, rfl, hsize, hf.trans (Nat.le_add_right _ _), trivial⟩, rfl, hblock⟩
  | ret =>
    cases hs
    exact .inr ⟨rfl, hf, hsize, hu, rfl⟩

/-- A write under way. -/
def InWrite (data : List UInt8) (n : Nat) (nonblock : Bool) (gone : Prop) (s : Jtag) : Prop :=
  ∃ c pc, s.task = .write c pc ∧ WriteCalled data n nonblock gone s.tx c pc

theorem write_first {s t : Jtag} {data : List UInt8} {nonblock : Bool} {gone : Prop} {o : Out} (hi : s.isr = none)
    (ht : s.task = .idle) (hs : s.step (.write data nonblock) = .ok (t, o)) :
    o.isReturn = false ∧ InWrite data (BUF_LEN - 1 - s.tx.count) nonblock gone t := by
  simp only [step, hi, ht] at hs
  cases hs
  refine ⟨rfl, _, _, rfl, rfl, rfl, Nat.zero_le _, ?_, ?_⟩
  · split
    · show min data.length (BUF_LEN - 1 - s.tx.count) ≤ 0 + (BUF_LEN - 1 - s.tx.count)
      omega
    · next hz =>
      show min data.length (BUF_LEN - 1 - s.tx.count) ≤ 0
      omega
  · split <;> trivial

/-- What a write may return, having found space for `n` bytes in the ring buffer. -/
structure WriteResult (data : List UInt8) (n : Nat) (nonblock : Bool) (gone : Prop) (r : Except Errno Nat) : Prop where
  fills : min data.length n ≤ (Out.wrote data r).accepted.length
  whole : (Out.wrote data r).accepted = data ∨ nonblock = true ∨ gone
  wouldBlock : r = .error .ewouldblock → nonblock = true
  eio : r = .error .eio → nonblock = false

theorem write_step {data : List UInt8} {n : Nat} {nonblock : Bool} {gone : Prop} {u t : Jtag} {e : Step} {o : Out}
    (h : Inv u) (hp : InWrite data n nonblock gone u) (hs : u.step e = .ok (t, o)) :
    o.isReturn = false ∧ InWrite data n nonblock (gone ∨ hostQuiet u) t ∨
      o.isReturn = true ∧ ∃ r, o = .wrote data r ∧ t.task = .idle ∧ WriteResult data n nonblock gone r := by
  obtain ⟨c, pc, htask, hcalled⟩ := hp
  by_cases hc : u.caller e = true
  · obtain ⟨hi, rfl⟩ := caller_iff.1 hc
    simp only [step, hi, taskStep, htask] at hs
    rcases writeStep_called h hcalled htask hs with ⟨c', pc', ht', hc', ho, -⟩ | ⟨hidle, hf, hle, hstop, rfl⟩
    · exact .inl ⟨ho, c', pc', ht', hc'⟩
    · refine .inr ⟨rfl, _, rfl, hidle, ?_⟩
      by_cases hz : c.sent = 0
      · rw [hz] at hf hstop
        rw [if_neg (not_not.2 hz)]
        have hwhole : (data = [] ∨ nonblock = true ∨ gone) := hstop.imp_left fun h => List.length_eq_zero_iff.1 h.symm
        cases nonblock with
        | true => exact ⟨hf, hwhole.imp_left Eq.symm, fun _ => rfl, by simp⟩
        | false => exact ⟨hf, hwhole.imp_left Eq.symm, by simp, fun _ => rfl⟩
      · rw [if_pos hz]
        refine ⟨?_, hstop.imp_left ?_, by simp, by simp⟩
        · show _ ≤ (data.take c.sent).length
          rw [List.length_take_of_le hle]
          exact hf
        · intro hsent
          show data.take c.sent = data
          rw [hsent, List.take_length]
  · have hne : u.task ≠ .idle := by simp [htask]
    obtain ⟨he, ho⟩ := step_elsewhere h.rx hne (Bool.eq_false_iff.2 hc) hs
    exact .inl ⟨ho, c, pc, he.task.trans htask, (hcalled.elsewhere he).mono .inl⟩

theorem write_ends {s t : Jtag} {es : List Step} {os : List Out} {data : List UInt8} {nonblock : Bool} {o : Out}
    (h : Inv s) (hi : s.isr = none) (ht : s.task = .idle)
    (hr : jtagUart.run s (.write data nonblock :: es) = .ok (t, os ++ [o])) (hos : ∀ p ∈ os, p.isReturn = false)
    (ho : o.isReturn = true) :
    ∃ r, o = .wrote data r ∧ t.task = .idle ∧ WriteResult data (BUF_LEN - 1 - s.tx.count) nonblock
      (jtagUart.Ever hostQuiet s (.write data nonblock :: es)) r := by
  refine call_ends
    (P := fun es u => InWrite data (BUF_LEN - 1 - s.tx.count) nonblock (jtagUart.Ever hostQuiet s es) u)
    (R := fun es t o => ∃ r, o = .wrote data r ∧ t.task = .idle ∧
      WriteResult data (BUF_LEN - 1 - s.tx.count) nonblock (jtagUart.Ever hostQuiet s es) r)
    h (fun t o hs => write_first hi ht hs) ?_ hr hos ho
  intro es u os e t o hru hu hp hs
  rcases write_step hu hp hs with ⟨ho, c, pc, htask, hc⟩ | ⟨ho, r, hor, hidle, hres⟩
  · exact .inl ⟨ho, c, pc, htask, hc.mono fun hg => hg.elim (·.concat e) fun hg => Machine.ever_last hru hg e⟩
  · exact .inr ⟨ho, r, hor, hidle, hres.fills, hres.whole.imp_right (.imp_right (·.concat e)), hres.wouldBlock,
    hres.eio⟩

/-- **What a write takes**, whatever interrupts it: at least what there was space for when it was called. If
it is to wait it takes everything, unless the driver had not seen the host since the alarm last went off. -/
theorem write_result {alarm : Bool} {es es' : List Step} {s t : Jtag} {outs os : List Out} {data data' : List UInt8}
    {nonblock : Bool} {r : Except Errno Nat} (hr : jtagUart.run (reset alarm) es = .ok (s, outs)) (hi : s.isr = none)
    (ht : s.task = .idle) (hr' : jtagUart.run s (.write data nonblock :: es') = .ok (t, os ++ [.wrote data' r]))
    (hos : ∀ o ∈ os, o.isReturn = false) :
    data' = data ∧ t.task = .idle ∧ WriteResult data (BUF_LEN - 1 - s.tx.count) nonblock
      (jtagUart.Ever hostQuiet s (.write data nonblock :: es')) r := by
  obtain ⟨_, ho, hidle, hres⟩ := write_ends (inv_of_run hr) hi ht hr' hos rfl
  cases ho
  exact ⟨rfl, hidle, hres⟩

theorem write_result_byte : ∃ (s t : Jtag) (outs : List Out),
    jtagUart.run (reset true) [.cpu] = .ok (s, outs) ∧ ([36] : List UInt8) = [36] ∧ t.task = .idle ∧
      WriteResult [36] (BUF_LEN - 1 - s.tx.count) false
        (jtagUart.Ever hostQuiet s (.write [36] false :: List.replicate 7 .cpu)) (.ok 1) :=
  ⟨_, _, _, rfl, @write_result true [.cpu] (List.replicate 7 .cpu) _ _ _ (List.replicate 7 .quiet) [36] [36] false
    (.ok 1) rfl rfl rfl rfl (by decide)⟩

/-- A write that is not to wait, with so many statements left at most. -/
def WriteWithin (data : List UInt8) (s : Jtag) (k : Nat) : Prop :=
  ∃ c pc, s.task = .write c pc ∧ WriteCalled data 0 true True s.tx c pc ∧ c.left pc ≤ k

theorem step_writeWithin {data : List UInt8} {s s' : Jtag} {e : Step} {o : Out} {k : Nat} (h : Inv s)
    (hw : WriteWithin data s k) (hs : s.step e = .ok (s', o)) :
    o.isReturn = true ∨ ∃ k', k' + (s.caller e).toNat ≤ k ∧ WriteWithin data s' k' := by
  obtain ⟨c, pc, ht, hc, hk⟩ := hw
  by_cases hcall : s.caller e = true
  · rw [hcall]
    obtain ⟨hi, rfl⟩ := caller_iff.1 hcall
    simp only [step, hi, taskStep, ht] at hs
    rcases writeStep_called h hc ht hs with ⟨c', pc', ht', hc', -, hless⟩ | ⟨-, -, -, -, rfl⟩
    · exact .inr ⟨c'.left pc', (hless rfl).trans hk, c', pc', ht', hc'.mono fun _ => trivial, Nat.le_refl _⟩
    · exact .inl rfl
  · rw [Bool.eq_false_iff.2 hcall]
    have hne : s.task ≠ .idle := by simp [ht]
    obtain ⟨he, -⟩ := step_elsewhere h.rx hne (Bool.eq_false_iff.2 hcall) hs
    exact .inr ⟨k, Nat.le_refl _, c, pc, he.task.trans ht, hc.elsewhere he, hk⟩

/-- **A write that is not to wait returns** after so many statements of its own, however it is interrupted,
and has taken at least what there was space for when it was called. -/
theorem write_nonblock {alarm : Bool} {es es' : List Step} {s : Jtag} {outs : List Out} {data : List UInt8}
    (hr : jtagUart.run (reset alarm) es = .ok (s, outs)) (hi : s.isr = none) (ht : s.task = .idle)
    (h : 5 * data.length + 4 < jtagUart.tally caller s (.write data true :: es')) :
    ∃ j t os r, jtagUart.run s (.write data true :: es'.take j) = .ok (t, os ++ [.wrote data r]) ∧
      (∀ p ∈ os, p.isReturn = false) ∧ t.task = .idle ∧
      min data.length (BUF_LEN - 1 - s.tx.count) ≤ (Out.wrote data r).accepted.length ∧ r ≠ .error .eio := by
  have hinv := inv_of_run hr
  have hfirst : ∀ t o, s.step (.write data true) = .ok (t, o) →
      o.isReturn = false ∧ WriteWithin data t (5 * data.length + 4) := by
    intro t o hs
    simp only [step, hi, ht] at hs
    cases hs
    refine ⟨rfl, _, _, rfl, ⟨rfl, rfl, Nat.zero_le _, ?_, ?_⟩, ?_⟩
    · split <;> simp [Fills]
    · split <;> trivial
    · split
      · exact Nat.le_refl _
      · simp [WriteCall.left]
  obtain ⟨j, t, os, o, hru, hos, ho⟩ := call_returns hinv (by simp [caller]) hfirst
    (fun u e t o k h hw hs => step_writeWithin h hw hs) h
  obtain ⟨r, rfl, hidle, hres⟩ := write_ends hinv hi ht hru hos ho
  exact ⟨j, t, os, r, hru, hos, hidle, hres.fills, fun h => Bool.noConfusion (hres.eio h)⟩

theorem write_nonblock_byte : ∃ (s : Jtag) (outs : List Out),
    jtagUart.run (reset true) [.cpu] = .ok (s, outs) ∧
      ∃ j t os r, jtagUart.run s (.write [36] true :: (List.replicate 10 Step.cpu).take j) =
          .ok (t, os ++ [.wrote [36] r]) ∧
        (∀ p ∈ os, p.isReturn = false) ∧ t.task = .idle ∧
        min 1 (BUF_LEN - 1 - s.tx.count) ≤ (Out.wrote [36] r).accepted.length ∧ r ≠ .error .eio :=
  ⟨_, _, rfl, @write_nonblock true [.cpu] (List.replicate 10 .cpu) _ _ [36] rfl rfl rfl (by decide)⟩

/-! ## Writes that nobody reads -/

/-- The interrupt routine, and not the alarm. -/
def Unalarmed : Option IsrPc → Prop
  | some .timeout | some .timeoutClear => False
  | _ => True

/-- The driver has always seen the host, and the write under way is to wait and has left nothing out. -/
structure Waiting (s : Jtag) : Prop where
  active : s.hostInactive = 0
  unalarmed : Unalarmed s.isr
  write : ∀ c pc, s.task = .write c pc → ∃ n, WriteCalled c.data n false False s.tx c pc

theorem isrStep_waiting {s s' : Jtag} {pc : IsrPc} (h : Waiting s) (hi : s.isr = some pc) (hs : s.isrStep pc = .ok s') :
    s'.hostInactive = 0 ∧ Unalarmed s'.isr := by
  obtain ⟨ha, hu, -⟩ := h
  rw [hi] at hu
  cases pc with
  | timeout | timeoutClear => exact absurd hu id
  | rxPop control =>
    cases hs
    exact ⟨ha, trivial⟩
  | rxData control =>
    simp only [isrStep] at hs
    split at hs
    · cases hs
      exact ⟨ha, trivial⟩
    · cases hp : s.rx.put s.rx.inp (.ofBitVec ((s.uart.dataWord &&& DATA_DATA_MSK).setWidth 8)) with
      | error e => rw [hp] at hs; cases hs
      | ok rx =>
        rw [hp] at hs
        cases hs
        exact ⟨ha, trivial⟩
  | txLoop space =>
    simp only [isrStep] at hs
    split at hs
    · cases hg : s.tx.get s.tx.out with
      | error e => rw [hg] at hs; cases hs
      | ok c =>
        rw [hg] at hs
        cases hs
        exact ⟨ha, trivial⟩
    · cases hs
      exact ⟨ha, trivial⟩
  | _ =>
    simp only [isrStep] at hs
    split_ifs at hs <;> cases hs <;> exact ⟨ha, trivial⟩

theorem quiet_written {o : Out} (h : o.isReturn = false) : o.written = o.accepted := by
  cases o with
  | read r => rfl
  | wrote data r => cases h
  | _ => rfl

theorem step_waiting {s s' : Jtag} {e : Step} {o : Out} (h : Inv s) (hw : Waiting s) (htick : e ≠ .tick)
    (hblock : ∀ data, e ≠ .write data true) (hs : s.step e = .ok (s', o)) : Waiting s' ∧ o.written = o.accepted := by
  have hwrite := hw.write
  cases e with
  | cpu =>
    simp only [step] at hs
    split at hs
    · next pc hi =>
      cases hr : s.isrStep pc with
      | error e => rw [hr] at hs; cases hs
      | ok s₁ =>
        rw [hr] at hs
        cases hs
        obtain ⟨ha, hu⟩ := isrStep_waiting hw hi hr
        have he := isrStep_elsewhere h.rx hi hr
        exact ⟨⟨ha, hu, fun c pc ht => (hwrite c pc (he.task.symm.trans ht)).imp fun n hc => hc.elsewhere he⟩, rfl⟩
    · next hi =>
      unfold taskStep at hs
      split at hs
      · cases hs
        exact ⟨⟨rfl, hw.unalarmed, by simp⟩, rfl⟩
      · cases hs
        exact ⟨hw, rfl⟩
      · next c pc ht =>
        obtain ⟨-, hisr, -, -, hacc, hwr, hin, hidle⟩ := readStep_frame ht hs
        refine ⟨⟨hin.trans hw.active, hisr ▸ hw.unalarmed, fun c pc ht => ?_⟩, hwr.trans hacc.symm⟩
        rcases hidle with h | ⟨c', pc', h⟩ <;> rw [h] at ht <;> cases ht
      · next c pc ht =>
        obtain ⟨-, hisr, -, -, -, -, hin, -⟩ := writeStep_frame ht hs
        have ha := hin.trans hw.active
        have hu : Unalarmed s'.isr := hisr ▸ hw.unalarmed
        obtain ⟨n, hc⟩ := hwrite c pc ht
        rcases writeStep_called h hc ht hs with ⟨c', pc', ht', hc', ho, -⟩ | ⟨hidle, -, -, hwhole, rfl⟩
        · refine ⟨⟨ha, hu, fun c₁ pc₁ ht₁ => ?_⟩, ?_⟩
          · rw [ht'] at ht₁
            cases ht₁
            refine ⟨n, ?_⟩
            rw [hc'.bytes]
            exact hc'.mono fun hg => hg.elim id fun hne => hne hw.active
          · exact quiet_written ho
        · refine ⟨⟨ha, hu, fun c pc ht => ?_⟩, ?_⟩
          · rw [hidle] at ht
            cases ht
          · have hsent : c.sent = c.data.length := hwhole.resolve_right fun h => h.elim Bool.false_ne_true id
            by_cases hz : c.sent = 0
            · rw [if_neg (not_not.2 hz)]
              exact List.length_eq_zero_iff.1 (hsent.symm.trans hz)
            · rw [if_pos hz]
              show c.data = c.data.take c.sent
              rw [hsent, List.take_length]
  | irq =>
    simp only [step] at hs
    split at hs
    · cases hs
      exact ⟨hw, rfl⟩
    · split at hs <;> cases hs
      · exact ⟨⟨hw.active, trivial, hwrite⟩, rfl⟩
      · exact ⟨hw, rfl⟩
  | tick => exact absurd rfl htick
  | read space nonblock =>
    simp only [step] at hs
    split at hs <;> cases hs
    · exact ⟨⟨hw.active, hw.unalarmed, by simp⟩, rfl⟩
    · exact ⟨hw, rfl⟩
  | write data nonblock =>
    obtain rfl : nonblock = false := Bool.eq_false_iff.2 fun hb => hblock data (hb ▸ rfl)
    have hcall := hs
    simp only [step] at hs
    split at hs
    · next hi ht =>
      have hfirst : InWrite data (BUF_LEN - 1 - s.tx.count) false False s' := (write_first hi ht hcall).2
      obtain ⟨c', pc', ht', hc'⟩ := hfirst
      cases hs
      refine ⟨⟨hw.active, hw.unalarmed, fun c pc ht => ⟨BUF_LEN - 1 - s.tx.count, ?_⟩⟩, rfl⟩
      cases ht'
      cases ht
      exact hc'
    · cases hs
      exact ⟨hw, rfl⟩
  | hostSend c =>
    cases hs
    refine ⟨⟨hw.active, hw.unalarmed, hwrite⟩, ?_⟩
    split <;> rfl
  | hostTake =>
    cases hs
    refine ⟨⟨hw.active, hw.unalarmed, hwrite⟩, ?_⟩
    split <;> rfl
  | hostPause | clock =>
    cases hs
    exact ⟨⟨hw.active, hw.unalarmed, hwrite⟩, rfl⟩

theorem written_concat (outs : List Out) (o : Out) : written (outs ++ [o]) = written outs ++ o.written := by
  simp [written]

theorem reset_waiting (alarm : Bool) : Waiting (reset alarm) where
  active := rfl
  unalarmed := trivial
  write := by
    intro c pc ht
    cases ht

/-- What the host has not taken fits into the FIFO and the ring buffer. -/
theorem owed_length (s : Jtag) : s.owed.length ≤ 64 + (BUF_LEN - 1) := by
  have hfifo := s.uart.wfifo.length_le
  have hring := s.tx.count_lt
  rw [owed, List.length_append, length_contents]
  omega

/-- While nobody reads, what the writes took is still in the driver and the FIFO. -/
theorem unread_run {alarm : Bool} {es : List Step} {s : Jtag} {outs : List Out}
    (hr : jtagUart.run (reset alarm) es = .ok (s, outs))
    (hes : ∀ e ∈ es, e ≠ .tick ∧ e ≠ .hostTake ∧ ∀ data, e ≠ .write data true) :
    written outs = accepted outs ∧ (written outs).length ≤ 64 + (BUF_LEN - 1) := by
  have hquiet := Machine.run_history (M := jtagUart)
    (I := fun es s outs => (∀ e ∈ es, e ≠ .tick ∧ e ≠ .hostTake ∧ ∀ data, e ≠ .write data true) →
      Waiting s ∧ written outs = accepted outs ∧ transmitted outs = [])
    (fun _ => ⟨reset_waiting alarm, rfl, rfl⟩) ?_ hr hes
  · obtain ⟨-, hwritten, htrans⟩ := hquiet
    have hall := accepted_run hr
    rw [htrans, List.nil_append] at hall
    refine ⟨hwritten, ?_⟩
    rw [hwritten]
    refine Nat.le_trans ?_ (owed_length s)
    rw [← hall, List.length_append]
    exact Nat.le_add_right _ _
  · intro es s os e s' o hru ih hs hes
    obtain ⟨hw, hwr, htr⟩ := ih fun e he => hes e (List.mem_append_left _ he)
    obtain ⟨htick, htake, hblock⟩ := hes e (List.mem_append_right _ (List.mem_singleton_self e))
    obtain ⟨hw', ho⟩ := step_waiting (inv_of_run hru) hw htick hblock hs
    refine ⟨hw', ?_, ?_⟩
    · rw [written_concat, accepted_concat, hwr, ho]
    · rw [transmitted_concat, htr, step_transmitted htake hs]
      rfl

/-- **Without the alarm, writes that nobody reads stop returning**: where writes are to wait, the alarm does
not go off and the host takes nothing, those that have returned were taken whole, and come to no more
than the ring buffer and the transmit FIFO hold. -/
theorem writes_unread (alarm : Bool) (es : List Step)
    (hes : ∀ e ∈ es, e ≠ .tick ∧ e ≠ .hostTake ∧ ∀ data, e ≠ .write data true) :
    ∃ s outs, jtagUart.run (reset alarm) es = .ok (s, outs) ∧ written outs = accepted outs ∧
      (written outs).length ≤ 64 + (BUF_LEN - 1) := by
  obtain ⟨s, outs, hr, -⟩ := run_ok alarm es
  exact ⟨s, outs, hr, unread_run hr hes⟩

theorem writes_unread_byte : ∃ s outs,
    jtagUart.run (reset true) ([.cpu, .write [36] false] ++ List.replicate 7 .cpu) = .ok (s, outs) ∧
      written outs = accepted outs ∧ (written outs).length ≤ 64 + (BUF_LEN - 1) :=
  writes_unread true ([.cpu, .write [36] false] ++ List.replicate 7 .cpu) (by simp)

end Jtag
end NuttyNios
