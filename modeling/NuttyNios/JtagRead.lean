import NuttyNios.JtagCalls
/-!
# What a read returns

`ReadCalled` says how far a read has come: what it has taken and what the ring buffer holds begin with
what the buffer held when it was called. The index `rx_in` it goes by is an old one, so that what has
come since may or may not be returned (`read_result`). A read that is not to wait returns after a number
of statements that only depends on the space it has (`read_nonblock`).
-/

namespace NuttyNios
open Buffer RingBuffer

namespace Jtag

/-- What a read has taken and the ring buffer together begin with `l`, and where it leaves its loop, what
it has taken alone. -/
def Begins (l : List UInt8) (rx : RingBuffer UInt8 BUF_LEN) (c : ReadCall) : ReadPc → Prop
  | .loadIn | .copy _ _ _ _ | .publish _ _ _ => l <+: c.got ++ rx.contents
  | .loadOut inp => l <+: c.got ++ rx.contents.take (dist BUF_LEN rx.out inp)
  | .check _ | .spin _ | .recheck _ | .enable | .ret => l <+: c.got

/-- A read that waits gives up only if the host is `gone`. -/
def GivesUp (space : Nat) (gone : Prop) (rx : RingBuffer UInt8 BUF_LEN) (c : ReadCall) : ReadPc → Prop
  | .recheck _ => gone ∨ rx.contents ≠ []
  | .ret => c.got = [] → c.nonblock = true ∨ space = 0 ∨ gone
  | _ => True

/-- How far a read for `space` bytes has come. -/
structure ReadCalled (l : List UInt8) (space : Nat) (nonblock : Bool) (gone : Prop) (rx : RingBuffer UInt8 BUF_LEN)
    (c : ReadCall) (pc : ReadPc) : Prop where
  flags : c.nonblock = nonblock
  size : c.got.length + c.space = space
  begins : Begins l rx c pc
  givesUp : GivesUp space gone rx c pc

/-- The statements of its own that a read which does not wait has left. -/
def ReadCall.left (c : ReadCall) : ReadPc → Nat
  | .loadIn => 5 * c.space + 5
  | .loadOut _ => 5 * c.space + 4
  | .copy _ _ n chunk => 5 * (c.space - n) + (n - chunk.length) + 7
  | .publish _ _ chunk => 5 * (c.space - chunk.length) + 6
  | .check _ => 3
  | .spin _ | .recheck _ => 0
  | .enable => 2
  | .ret => 1

theorem ReadCalled.mono {l : List UInt8} {space : Nat} {nonblock : Bool} {gone gone' : Prop}
    {rx : RingBuffer UInt8 BUF_LEN} {c : ReadCall} {pc : ReadPc} (h : ReadCalled l space nonblock gone rx c pc)
    (hg : gone → gone') : ReadCalled l space nonblock gone' rx c pc := by
  refine ⟨h.flags, h.size, h.begins, ?_⟩
  have hu := h.givesUp
  cases pc with
  | recheck inp => exact hu.imp_left hg
  | ret => exact fun hnil => (hu hnil).imp_right (.imp_right hg)
  | _ => trivial

theorem ReadCalled.elsewhere {l : List UInt8} {space : Nat} {nonblock : Bool} {gone : Prop} {s s' : Jtag}
    {c : ReadCall} {pc : ReadPc} (h : ReadCalled l space nonblock gone s.rx c pc) (hread : Reading s.rx (.read c pc))
    (he : Elsewhere s s') : ReadCalled l space nonblock gone s'.rx c pc := by
  obtain ⟨hb, hsp, hl, hu⟩ := h
  obtain ⟨more, hmore⟩ := he.rxContents
  refine ⟨hb, hsp, ?_, ?_⟩
  · cases pc with
    | loadIn | copy inp out n chunk | publish inp out chunk =>
      show l <+: c.got ++ s'.rx.contents
      rw [← hmore, ← List.append_assoc]
      exact hl.trans (List.prefix_append _ _)
    | loadOut inp =>
      show l <+: c.got ++ s'.rx.contents.take (dist BUF_LEN s'.rx.out inp)
      rw [he.rxOut, ← hmore, List.take_append_of_le_length (by rw [length_contents]; exact hread.2)]
      exact hl
    | check inp | spin inp | recheck inp | enable | ret => exact hl
  · cases pc with
    | recheck inp =>
      refine hu.imp_right fun hne => ?_
      rw [← hmore]
      exact List.append_ne_nil_of_left_ne_nil hne _
    | ret => exact hu
    | _ => trivial

/-- One statement of a read: either the call goes on and, if it does not wait, it has fewer statements
left, or it returns what it has taken. -/
theorem readStep_called {l : List UInt8} {space : Nat} {nonblock : Bool} {gone : Prop} {s s' : Jtag} {c : ReadCall}
    {pc : ReadPc} {o : Out} (hlen : l.length ≤ space) (h : Inv s) (hc : ReadCalled l space nonblock gone s.rx c pc)
    (ht : s.task = .read c pc) (hs : s.readStep c pc = .ok (s', o)) :
    (∃ c' pc', s'.task = .read c' pc' ∧
        ReadCalled l space nonblock (gone ∨ s.timeout ≤ s.hostInactive) s'.rx c' pc' ∧ o.isReturn = false ∧
        (nonblock = true → c'.left pc' + 1 ≤ c.left pc)) ∨
      s'.task = .idle ∧ l <+: c.got ∧ c.got.length ≤ space ∧ (c.got = [] → nonblock = true ∨ space = 0 ∨ gone) ∧
        o = .read (if c.got ≠ [] then .ok c.got else if nonblock then .error .ewouldblock else .error .eio) := by
  have hread := h.rx.reading
  have hwaits := h.irq.waits
  rw [ht] at hread hwaits
  obtain ⟨rfl, hsp, hl, hu⟩ := hc
  cases pc with
  | loadIn =>
    cases hs
    left
    refine ⟨c, _, rfl, ⟨rfl, hsp, ?_, trivial⟩, rfl, fun _ => Nat.le_refl _⟩
    show l <+: c.got ++ s.rx.contents.take s.rx.count
    rw [List.take_of_length_le (by rw [length_contents])]
    exact hl
  | loadOut inp =>
    obtain ⟨hlt, hle⟩ := hread
    simp only [readStep] at hs
    rw [← show filled BUF_LEN inp s.rx.out =
      if inp ≥ s.rx.out then inp - s.rx.out else BUF_LEN - s.rx.out from rfl] at hs
    split at hs
    · next hz =>
      cases hs
      left
      refine ⟨c, _, rfl, ⟨rfl, hsp, ?_, trivial⟩, rfl, fun _ => by simp only [ReadCall.left]; omega⟩
      change l <+: c.got ++ s.rx.contents.take (dist BUF_LEN s.rx.out inp) at hl
      rw [(filled_eq_zero_iff s.rx.out_lt).1 hz, (dist_eq_zero_iff s.rx.out_lt).2 rfl, List.take_zero,
        List.append_nil] at hl
      exact hl
    · cases hs
      left
      refine ⟨c, _, rfl, ⟨rfl, hsp, hl.trans ?_, trivial⟩, rfl, fun _ => ?_⟩
      · exact (List.prefix_append_right_inj _).2 (List.take_prefix _ _)
      · simp only [ReadCall.left, List.length_nil]
        change 0 < c.space at hwaits
        split <;> omega
  | copy inp out n chunk =>
    obtain ⟨hpos, hn, hle⟩ := hwaits
    simp only [readStep] at hs
    split at hs
    · next hlt =>
      cases hg : s.rx.get (out + chunk.length) with
      | error e => rw [hg] at hs; cases hs
      | ok x =>
        rw [hg] at hs
        cases hs
        left
        refine ⟨c, _, rfl, ⟨rfl, hsp, hl, trivial⟩, rfl, fun _ => ?_⟩
        simp only [ReadCall.left, List.length_append, List.length_singleton]
        omega
    · next hge =>
      cases hs
      left
      refine ⟨c, _, rfl, ⟨rfl, hsp, hl, trivial⟩, rfl, fun _ => ?_⟩
      simp only [ReadCall.left]
      omega
  | publish inp out chunk =>
    obtain ⟨rfl, rest, hrest⟩ := hread
    obtain ⟨hne, hle⟩ := hwaits
    have hcount : chunk.length ≤ s.rx.count := by
      rw [← length_contents, ← hrest, List.length_append]
      omega
    have hcont : (s.rx.setOut (s.rx.out + chunk.length)).contents = rest := by
      rw [contents_setOut s.rx hcount, ← hrest, List.drop_left]
    change l <+: c.got ++ s.rx.contents at hl
    rw [← hrest, ← List.append_assoc] at hl
    have hsp' : (c.got ++ chunk).length + (c.space - chunk.length) = space := by
      rw [List.length_append]
      omega
    simp only [readStep] at hs
    split at hs <;> cases hs
    · left
      refine ⟨_, _, rfl, ⟨rfl, hsp', ?_, trivial⟩, rfl, fun _ => ?_⟩
      · show l <+: c.got ++ chunk ++ (s.rx.setOut (s.rx.out + chunk.length)).contents
        rw [hcont]
        exact hl
      · simp only [ReadCall.left]
        omega
    · next hz =>
      have hfull : l.length ≤ (c.got ++ chunk).length := by
        change ¬ 0 < c.space - chunk.length at hz
        omega
      left
      refine ⟨_, _, rfl, ⟨rfl, hsp', ?_, trivial⟩, rfl, fun _ => ?_⟩
      · exact List.prefix_of_prefix_length_le hl (List.prefix_append _ _) hfull
      · simp only [ReadCall.left]
        omega
  | check inp =>
    simp only [readStep] at hs
    split at hs
    · cases hs
      exact .inl ⟨c, _, rfl, ⟨rfl, hsp, hl, trivial⟩, rfl, fun _ => Nat.le_refl _⟩
    · split at hs <;> cases hs
      · next hb => exact .inl ⟨c, _, rfl, ⟨rfl, hsp, hl, fun _ => .inl hb⟩, rfl, fun _ => by simp [ReadCall.left]⟩
      · next hb => exact .inl ⟨c, _, rfl, ⟨rfl, hsp, hl, trivial⟩, rfl, fun hb' => absurd hb' hb⟩
  | spin inp =>
    obtain ⟨-, hb, -, hout⟩ := hwaits
    have hblock : ∀ {n m : Nat}, c.nonblock = true → n + 1 ≤ m :=
      fun hb' => absurd (hb.symm.trans hb') Bool.false_ne_true
    simp only [readStep] at hs
    split at hs <;> cases hs
    · exact .inl ⟨c, _, ht, ⟨rfl, hsp, hl, trivial⟩, rfl, hblock⟩
    · next hgo =>
      refine .inl ⟨c, _, rfl, ⟨rfl, hsp, hl, ?_⟩, rfl, hblock⟩
      by_cases hin : inp = s.rx.inp
      · exact .inl (.inr (Nat.le_of_not_lt fun hlt => hgo ⟨hin, hlt⟩))
      · exact .inr fun hnil => hin (hout.trans ((contents_eq_nil_iff s.rx).1 hnil).symm)
  | recheck inp =>
    obtain ⟨hgot, hb, -, hout⟩ := hwaits
    have hblock : ∀ {n m : Nat}, c.nonblock = true → n + 1 ≤ m :=
      fun hb' => absurd (hb.symm.trans hb') Bool.false_ne_true
    simp only [readStep] at hs
    split at hs <;> cases hs
    · next hin =>
      have hgone := hu.resolve_right (not_not.2 ((contents_eq_nil_iff s.rx).2 (hin ▸ hout)))
      exact .inl ⟨c, _, rfl, ⟨rfl, hsp, hl, fun _ => .inr (.inr (.inl hgone))⟩, rfl, hblock⟩
    · exact .inl ⟨c, _, rfl, ⟨rfl, hsp, hl.trans (List.prefix_append _ _), trivial⟩, rfl, hblock⟩
  | enable =>
    cases hs
    exact .inl ⟨c, _, rfl, ⟨rfl, hsp, hl, fun hnil => absurd hnil hwaits⟩, rfl, fun _ => Nat.le_refl _⟩
  | ret =>
    cases hs
    exact .inr ⟨rfl, hl, by omega, hu, rfl⟩

/-- A read under way. -/
def InRead (l : List UInt8) (space : Nat) (nonblock : Bool) (gone : Prop) (s : Jtag) : Prop :=
  ∃ c pc, s.task = .read c pc ∧ ReadCalled l space nonblock gone s.rx c pc

theorem read_first {s t : Jtag} {space : Nat} {nonblock : Bool} {gone : Prop} {o : Out} (hi : s.isr = none)
    (ht : s.task = .idle) (hs : s.step (.read space nonblock) = .ok (t, o)) :
    o.isReturn = false ∧ InRead (s.rx.contents.take space) space nonblock gone t := by
  simp only [step, hi, ht] at hs
  cases hs
  refine ⟨rfl, _, _, rfl, rfl, Nat.zero_add _, ?_, ?_⟩
  · split
    · exact List.take_prefix _ _
    · next hz =>
      rw [Nat.eq_zero_of_not_pos hz, List.take_zero]
      exact List.nil_prefix
  · split
    · trivial
    · next hz => exact fun _ => .inr (.inl (Nat.eq_zero_of_not_pos hz))

/-- What a read may return, having found `l` in the ring buffer. -/
structure ReadResult (l : List UInt8) (space : Nat) (nonblock : Bool) (gone : Prop) (r : Except Errno (List UInt8)) :
    Prop where
  begins : l <+: (Out.read r).returned
  length_le : (Out.read r).returned.length ≤ space
  wouldBlock : r = .error .ewouldblock → nonblock = true
  eio : r = .error .eio → nonblock = false ∧ (space = 0 ∨ gone)

theorem read_step {l : List UInt8} {space : Nat} {nonblock : Bool} {gone : Prop} {u t : Jtag} {e : Step} {o : Out}
    (hlen : l.length ≤ space) (h : Inv u) (hp : InRead l space nonblock gone u) (hs : u.step e = .ok (t, o)) :
    o.isReturn = false ∧ InRead l space nonblock (gone ∨ hostGone u) t ∨
      o.isReturn = true ∧ ∃ r, o = .read r ∧ t.task = .idle ∧ ReadResult l space nonblock gone r := by
  obtain ⟨c, pc, htask, hcalled⟩ := hp
  by_cases hc : u.caller e = true
  · obtain ⟨hi, rfl⟩ := caller_iff.1 hc
    simp only [step, hi, taskStep, htask] at hs
    rcases readStep_called hlen h hcalled htask hs with ⟨c', pc', ht', hc', ho, -⟩ | ⟨hidle, hl, hle, hgive, rfl⟩
    · exact .inl ⟨ho, c', pc', ht', hc'⟩
    · refine .inr ⟨rfl, _, rfl, hidle, ?_⟩
      by_cases hgot : c.got = []
      · rw [hgot] at hl
        rw [if_neg (not_not.2 hgot)]
        cases nonblock with
        | true => exact ⟨hl, Nat.zero_le _, fun _ => rfl, by simp⟩
        | false =>
          have hgone := (hgive hgot).resolve_left Bool.false_ne_true
          exact ⟨hl, Nat.zero_le _, by simp, fun _ => ⟨rfl, hgone⟩⟩
      · rw [if_pos hgot]
        exact ⟨hl, hle, by simp, by simp⟩
  · have hne : u.task ≠ .idle := by simp [htask]
    obtain ⟨he, ho⟩ := step_elsewhere h.rx hne (Bool.eq_false_iff.2 hc) hs
    exact .inl ⟨ho, c, pc, he.task.trans htask, (hcalled.elsewhere (htask ▸ h.rx.reading) he).mono .inl⟩

theorem read_ends {s t : Jtag} {es : List Step} {os : List Out} {space : Nat} {nonblock : Bool} {o : Out} (h : Inv s)
    (hi : s.isr = none) (ht : s.task = .idle) (hr : jtagUart.run s (.read space nonblock :: es) = .ok (t, os ++ [o]))
    (hos : ∀ p ∈ os, p.isReturn = false) (ho : o.isReturn = true) :
    ∃ r, o = .read r ∧ t.task = .idle ∧ ReadResult (s.rx.contents.take space) space nonblock
      (jtagUart.Ever hostGone s (.read space nonblock :: es)) r := by
  refine call_ends (P := fun es u => InRead (s.rx.contents.take space) space nonblock (jtagUart.Ever hostGone s es) u)
    (R := fun es t o => ∃ r, o = .read r ∧ t.task = .idle ∧
      ReadResult (s.rx.contents.take space) space nonblock (jtagUart.Ever hostGone s es) r)
    h (fun t o hs => read_first hi ht hs) ?_ hr hos ho
  intro es u os e t o hru hu hp hs
  rcases read_step (List.length_take_le _ _) hu hp hs with ⟨ho, c, pc, htask, hc⟩ | ⟨ho, r, hor, hidle, hres⟩
  · exact .inl ⟨ho, c, pc, htask, hc.mono fun hg => hg.elim (·.concat e) fun hg => Machine.ever_last hru hg e⟩
  · exact .inr ⟨ho, r, hor, hidle, hres.begins, hres.length_le, hres.wouldBlock,
      fun h => (hres.eio h).imp_right (.imp_right (·.concat e))⟩

/-- **What a read returns**, whatever interrupts it: all that was in the ring buffer when it was called, as
far as there is space for it, and perhaps some of what came after; -EWOULDBLOCK only if it is not to
wait, -EIO only if it is and the driver took the host to be gone, or there was no space. -/
theorem read_result {alarm : Bool} {es es' : List Step} {s t : Jtag} {outs os : List Out} {space : Nat}
    {nonblock : Bool}
    {r : Except Errno (List UInt8)} (hr : jtagUart.run (reset alarm) es = .ok (s, outs)) (hi : s.isr = none)
    (ht : s.task = .idle) (hr' : jtagUart.run s (.read space nonblock :: es') = .ok (t, os ++ [.read r]))
    (hos : ∀ o ∈ os, o.isReturn = false) :
    t.task = .idle ∧ ReadResult (s.rx.contents.take space) space nonblock
      (jtagUart.Ever hostGone s (.read space nonblock :: es')) r := by
  obtain ⟨_, ho, hidle, hres⟩ := read_ends (inv_of_run hr) hi ht hr' hos rfl
  cases ho
  exact ⟨hidle, hres⟩

theorem read_result_byte : ∃ (s t : Jtag) (outs : List Out),
    jtagUart.run (reset true) ([.cpu, .hostSend 65, .hostPause, .irq] ++ List.replicate 11 .cpu) = .ok (s, outs) ∧
      t.task = .idle ∧ ReadResult (s.rx.contents.take 1) 1 true
        (jtagUart.Ever hostGone s (.read 1 true :: List.replicate 8 .cpu)) (.ok [65]) :=
  ⟨_, _, _, rfl, @read_result true ([.cpu, .hostSend 65, .hostPause, .irq] ++ List.replicate 11 .cpu)
    (List.replicate 8 .cpu) _ _ _ (List.replicate 8 .quiet) 1 true (.ok [65]) rfl rfl rfl rfl (by decide)⟩

/-- A read that is not to wait, with so many statements left at most. -/
def ReadWithin (space : Nat) (s : Jtag) (k : Nat) : Prop :=
  ∃ c pc, s.task = .read c pc ∧ ReadCalled [] space true True s.rx c pc ∧ c.left pc ≤ k

theorem step_readWithin {space : Nat} {s s' : Jtag} {e : Step} {o : Out} {k : Nat} (h : Inv s)
    (hw : ReadWithin space s k) (hs : s.step e = .ok (s', o)) :
    o.isReturn = true ∨ ∃ k', k' + (s.caller e).toNat ≤ k ∧ ReadWithin space s' k' := by
  obtain ⟨c, pc, ht, hc, hk⟩ := hw
  by_cases hcall : s.caller e = true
  · rw [hcall]
    obtain ⟨hi, rfl⟩ := caller_iff.1 hcall
    simp only [step, hi, taskStep, ht] at hs
    rcases readStep_called (Nat.zero_le _) h hc ht hs with ⟨c', pc', ht', hc', -, hless⟩ | ⟨-, -, -, -, rfl⟩
    · exact .inr ⟨c'.left pc', (hless rfl).trans hk, c', pc', ht', hc'.mono fun _ => trivial, Nat.le_refl _⟩
    · exact .inl rfl
  · rw [Bool.eq_false_iff.2 hcall]
    have hne : s.task ≠ .idle := by simp [ht]
    obtain ⟨he, -⟩ := step_elsewhere h.rx hne (Bool.eq_false_iff.2 hcall) hs
    exact .inr ⟨k, Nat.le_refl _, c, pc, he.task.trans ht, hc.elsewhere (ht ▸ h.rx.reading) he, hk⟩

/-- **A read that is not to wait returns** after so many statements of its own, however it is interrupted,
with all that was in the ring buffer when it was called, as far as there is space for it. -/
theorem read_nonblock {alarm : Bool} {es es' : List Step} {s : Jtag} {outs : List Out} {space : Nat}
    (hr : jtagUart.run (reset alarm) es = .ok (s, outs)) (hi : s.isr = none) (ht : s.task = .idle)
    (h : 5 * space + 5 < jtagUart.tally caller s (.read space true :: es')) :
    ∃ j t os r, jtagUart.run s (.read space true :: es'.take j) = .ok (t, os ++ [.read r]) ∧
      (∀ p ∈ os, p.isReturn = false) ∧ t.task = .idle ∧ s.rx.contents.take space <+: (Out.read r).returned ∧
      (Out.read r).returned.length ≤ space ∧ r ≠ .error .eio := by
  have hinv := inv_of_run hr
  have hfirst : ∀ t o, s.step (.read space true) = .ok (t, o) →
      o.isReturn = false ∧ ReadWithin space t (5 * space + 5) := by
    intro t o hs
    simp only [step, hi, ht] at hs
    cases hs
    refine ⟨rfl, _, _, rfl, ⟨rfl, Nat.zero_add _, ?_, ?_⟩, ?_⟩
    · split <;> exact List.nil_prefix
    · split
      · trivial
      · exact fun _ => .inl rfl
    · split
      · exact Nat.le_refl _
      · simp [ReadCall.left]
  obtain ⟨j, t, os, o, hru, hos, ho⟩ := call_returns hinv (by simp [caller]) hfirst
    (fun u e t o k h hw hs => step_readWithin h hw hs) h
  obtain ⟨r, rfl, hidle, hres⟩ := read_ends hinv hi ht hru hos ho
  exact ⟨j, t, os, r, hru, hos, hidle, hres.begins, hres.length_le, fun h => Bool.noConfusion (hres.eio h).1⟩

theorem read_nonblock_byte : ∃ (s : Jtag) (outs : List Out),
    jtagUart.run (reset true) ([.cpu, .hostSend 65, .hostPause, .irq] ++ List.replicate 11 .cpu) = .ok (s, outs) ∧
      ∃ j t os r, jtagUart.run s (.read 1 true :: (List.replicate 11 Step.cpu).take j) = .ok (t, os ++ [.read r]) ∧
        (∀ p ∈ os, p.isReturn = false) ∧ t.task = .idle ∧ s.rx.contents.take 1 <+: (Out.read r).returned ∧
        (Out.read r).returned.length ≤ 1 ∧ r ≠ .error .eio :=
  ⟨_, _, rfl, @read_nonblock true ([.cpu, .hostSend 65, .hostPause, .irq] ++ List.replicate 11 .cpu)
    (List.replicate 11 .cpu) _ _ 1 rfl rfl rfl (by decide)⟩

end Jtag
end NuttyNios
