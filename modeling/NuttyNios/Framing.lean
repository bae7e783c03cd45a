import NuttyNios.Receive
/-!
# What the receive loop hands over

The receive loop against the abstract cut of its input at `'$'` (`Frames`), over every way
`read()` may chunk it: no store leaves the two buffers exactly when the stream `Fits` them
(`receiver_no_overrun_iff`), and then `messagebuff` holds what came in since the last `'$'`,
and each hand-over is the last segment its read completed (`receiver_run_fits`).

This is the loop without the dispatch block between two reads. `Handover` puts it back.
-/

namespace NuttyNios
open Buffer Frames

/-! ## One read -/

theorem recv_bytes_fits (bytes : List UInt8) {rx : Rx} {p : List UInt8} {last : Option (List UInt8)}
    (h : rx.Holds p last) (hp : END_RECIEVE ∉ p) (hf : Fits (p ++ bytes)) :
    ∃ rx', bytes.foldlM Rx.recv rx = .ok rx' ∧
      rx'.Holds (rest END_RECIEVE (p ++ bytes)) ((frames END_RECIEVE (p ++ bytes)).getLast?.or last) := by
  induction bytes generalizing rx p last with
  | nil =>
    obtain ⟨f, r⟩ := frames_of_not_mem hp
    refine ⟨rx, rfl, ?_⟩
    simpa [f, r] using h
  | cons c cs ih =>
    by_cases hc : c = END_RECIEVE
    · subst hc
      obtain ⟨hlt, hf'⟩ := (fits_append_cons hp cs).1 hf
      obtain ⟨f, r⟩ := frames_append_cons hp cs
      obtain ⟨rx₁, h1, hold₁⟩ := recv_end h hlt
      obtain ⟨rx₂, h2, hold₂⟩ := ih hold₁ (by simp) (by simpa using hf')
      refine ⟨rx₂, by simp only [List.foldlM_cons, h1]; exact h2, ?_⟩
      rw [f, r, List.getLast?_cons]
      rw [List.nil_append] at hold₂
      cases hl : (frames END_RECIEVE cs).getLast? <;> simpa [hl] using hold₂
    · have e : p ++ c :: cs = (p ++ [c]) ++ cs := by simp
      rw [e] at hf ⊢
      have hp' : END_RECIEVE ∉ p ++ [c] := by simp [hp, Ne.symm hc]
      have hlt := fits_prefix_le hp' hf
      obtain ⟨rx₁, h1, hold₁⟩ := recv_payload h hc (by simp at hlt; omega)
      obtain ⟨rx₂, h2, hold₂⟩ := ih hold₁ hp' hf
      exact ⟨rx₂, by simp only [List.foldlM_cons, h1]; exact h2, hold₂⟩

theorem recv_bytes_overrun (bytes : List UInt8) {rx : Rx} {p : List UInt8} {last : Option (List UInt8)}
    (h : rx.Holds p last) (hp : END_RECIEVE ∉ p) (hf : ¬ Fits (p ++ bytes)) :
    bytes.foldlM Rx.recv rx = .error .store := by
  induction bytes generalizing rx p last with
  | nil =>
    rw [List.append_nil] at hf
    exact absurd ((fits_of_not_mem hp).2 h.length_le) hf
  | cons c cs ih =>
    by_cases hlt : p.length < 1024
    · by_cases hc : c = END_RECIEVE
      · subst hc
        rw [fits_append_cons hp cs, not_and] at hf
        obtain ⟨rx₁, h1, hold₁⟩ := recv_end h hlt
        simp only [List.foldlM_cons, h1]
        exact ih hold₁ (by simp) (by simpa using hf hlt)
      · have e : p ++ c :: cs = (p ++ [c]) ++ cs := by simp
        rw [e] at hf
        obtain ⟨rx₁, h1, hold₁⟩ := recv_payload h hc hlt
        simp only [List.foldlM_cons, h1]
        exact ih hold₁ (by simp [hp, Ne.symm hc]) hf
    · simp only [List.foldlM_cons, recv_full h hlt]
      rfl

/-- What a pass hands to the dispatch block, against the last segment its read completed:
nothing if there is none, else an array that holds the segment and a NUL after it. -/
def Delivers : Option Message → Option (List UInt8) → Prop
  | none, none => True
  | some m, some seg => m.size = seg.length ∧ m.buf.toList.take (m.size + 1) = seg ++ [0]
  | _, _ => False

theorem Delivers.text {m : Message} {seg : List UInt8} (h : Delivers (some m) (some seg)) : m.text = seg := by
  obtain ⟨hs, ht⟩ := h
  have := congrArg (List.take m.size) ht
  rw [List.take_take, Nat.min_eq_left (by omega), hs, List.take_left] at this
  rw [Message.text, hs, this]

/-- **One pass.** The read is taken in, its last completed segment is handed over, and the
flag is down again. -/
theorem poll_fits {rx : Rx} {p : List UInt8} (h : rx.Holds p none) (hp : END_RECIEVE ∉ p)
    (r : Option (List UInt8)) (hf : Fits (p ++ r.getD [])) :
    ∃ rx' o, rx.poll r = .ok (rx', o) ∧ rx'.Holds (rest END_RECIEVE (p ++ r.getD [])) none ∧
      Delivers o (frames END_RECIEVE (p ++ r.getD [])).getLast? := by
  obtain ⟨rx₁, h1, hold⟩ : ∃ rx₁, rx.recvAll r = .ok rx₁ ∧
      rx₁.Holds (rest END_RECIEVE (p ++ r.getD [])) (frames END_RECIEVE (p ++ r.getD [])).getLast? := by
    cases r with
    | none =>
      obtain ⟨f, r⟩ := frames_of_not_mem hp
      refine ⟨rx, rfl, ?_⟩
      simpa [f, r] using h
    | some bytes => simpa [Rx.recvAll] using recv_bytes_fits bytes h hp hf
  cases hl : (frames END_RECIEVE (p ++ r.getD [])).getLast? with
  | none =>
    rw [hl] at hold
    refine ⟨rx₁, none, ?_, hold, trivial⟩
    simp only [Rx.poll, h1, bind, Except.bind, hold.ready]
    rfl
  | some seg =>
    rw [hl] at hold
    obtain ⟨hs, ht⟩ := hold.msg seg rfl
    refine ⟨{ rx₁ with messageIsReady := false }, some ⟨rx₁.message, rx₁.currMessageSize⟩, ?_,
      ⟨hold.ind, hold.buff, rfl, fun _ h => by cases h⟩, hs, by rw [hs]; exact ht⟩
    simp only [Rx.poll, h1, bind, Except.bind, hold.ready]
    rfl

theorem poll_overrun {rx : Rx} {p : List UInt8} (h : rx.Holds p none) (hp : END_RECIEVE ∉ p)
    (r : Option (List UInt8)) (hf : ¬ Fits (p ++ r.getD [])) : rx.poll r = .error .store := by
  cases r with
  | none =>
    simp only [Option.getD_none, List.append_nil, fits_of_not_mem hp] at hf
    exact absurd h.length_le hf
  | some bytes =>
    have := recv_bytes_overrun bytes h hp hf
    simp only [Rx.poll, Rx.recvAll, this]
    rfl

theorem boot_holds (message messagebuff : Vector UInt8 1024) (size : Nat) :
    (Rx.boot message messagebuff size).Holds [] none :=
  ⟨rfl, rfl, rfl, fun _ h => by cases h⟩

/-! ## A run of reads -/

theorem stream_cons (r : Option (List UInt8)) (rs : List (Option (List UInt8))) :
    stream (r :: rs) = r.getD [] ++ stream rs := rfl

theorem receiver_run_fits (reads : List (Option (List UInt8))) {rx : Rx} {p : List UInt8}
    (h : rx.Holds p none) (hp : END_RECIEVE ∉ p) (hf : Fits (p ++ stream reads)) :
    ∃ rx' out, receiver.run rx reads = .ok (rx', out) ∧
      rx'.Holds (rest END_RECIEVE (p ++ stream reads)) none ∧
      List.Forall₂ Delivers out (lasts END_RECIEVE p (chunks reads)) := by
  induction reads generalizing rx p with
  | nil =>
    refine ⟨rx, [], rfl, ?_, .nil⟩
    rw [show p ++ stream [] = p from List.append_nil p, (frames_of_not_mem hp).2]
    exact h
  | cons r rs ih =>
    rw [stream_cons, ← List.append_assoc] at hf ⊢
    obtain ⟨hf1, hf2⟩ := fits_append.1 hf
    obtain ⟨rx₁, o, h1, hold₁, hd⟩ := poll_fits h hp r hf1
    obtain ⟨rx₂, out, h2, hold₂, hds⟩ := ih hold₁ (rest_not_mem _) hf2
    refine ⟨rx₂, o :: out, Machine.run_cons.2 ⟨rx₁, o, out, h1, h2, rfl⟩, ?_, .cons hd hds⟩
    rw [(frames_append (p ++ r.getD []) (stream rs)).2]
    exact hold₂

theorem receiver_run_overrun (reads : List (Option (List UInt8))) {rx : Rx} {p : List UInt8}
    (h : rx.Holds p none) (hp : END_RECIEVE ∉ p) (hf : ¬ Fits (p ++ stream reads)) :
    receiver.run rx reads = .error .store := by
  induction reads generalizing rx p with
  | nil =>
    rw [show p ++ stream [] = p from List.append_nil p, fits_of_not_mem hp] at hf
    exact absurd h.length_le hf
  | cons r rs ih =>
    by_cases hf1 : Fits (p ++ r.getD [])
    · rw [stream_cons, ← List.append_assoc, fits_append, not_and] at hf
      obtain ⟨rx₁, o, h1, hold₁, -⟩ := poll_fits h hp r hf1
      have h2 := ih hold₁ (rest_not_mem _) (hf hf1)
      simp only [Machine.run, show receiver.step rx r = .ok (rx₁, o) from h1, bind, Except.bind, h2]
    · have h1 := poll_overrun h hp r hf1
      simp only [Machine.run, show receiver.step rx r = .error .store from h1]
      rfl

/-- **What a run of the receiver has done**, since it did not overrun a buffer. -/
theorem receiver_run_inv {reads : List (Option (List UInt8))} {rx₀ rx : Rx} {out : List (Option Message)}
    (h : rx₀.Holds [] none) (hr : receiver.run rx₀ reads = .ok (rx, out)) :
    Fits (stream reads) ∧ rx.Holds (rest END_RECIEVE (stream reads)) none ∧
      List.Forall₂ Delivers out (lasts END_RECIEVE [] (chunks reads)) := by
  have hf : Fits (stream reads) := by
    by_contra hf
    rw [receiver_run_overrun reads h (by simp) hf] at hr
    cases hr
  obtain ⟨rx', out', hr', hold, hd⟩ := receiver_run_fits reads h (by simp) hf
  rw [hr] at hr'
  cases hr'
  exact ⟨hf, hold, hd⟩

/-- **The receive buffers are overrun exactly by the streams that do not fit them**, however
the stream is cut into reads. -/
theorem receiver_no_overrun_iff (message messagebuff : Vector UInt8 1024) (size : Nat)
    (reads : List (Option (List UInt8))) :
    (∃ rx out, receiver.run (Rx.boot message messagebuff size) reads = .ok (rx, out)) ↔
      Fits (stream reads) := by
  have h0 := boot_holds message messagebuff size
  constructor
  · rintro ⟨rx, out, hr⟩
    exact (receiver_run_inv h0 hr).1
  · intro hf
    obtain ⟨rx, out, hr, -⟩ := receiver_run_fits reads h0 (by simp) hf
    exact ⟨rx, out, hr⟩

/-- 1025 bytes without a `'$'`, in reads of 205: the last store is to `messagebuff[1024]`. -/
theorem receiver_overrun_unterminated :
    ¬ ∃ rx out, receiver.run (Rx.boot (Vector.replicate 1024 0) (Vector.replicate 1024 0) 0)
      (List.replicate 5 (some (List.replicate 205 65))) = .ok (rx, out) := by
  have hs : stream (List.replicate 5 (some (List.replicate 205 65))) = List.replicate 1025 65 := by
    rw [stream, chunks, List.map_replicate, Option.getD_some, List.flatten_replicate_replicate]
  have hn : END_RECIEVE ∉ List.replicate 1025 65 := fun h => by
    have := List.eq_of_mem_replicate h
    revert this; decide
  have hf : ¬ Fits ([] ++ stream (List.replicate 5 (some (List.replicate 205 65)))) := by
    rw [List.nil_append, hs, fits_of_not_mem hn, List.length_replicate]
    omega
  rw [receiver_run_overrun _ (boot_holds _ _ 0) (by simp) hf]
  rintro ⟨_, _, h⟩
  cases h

/-- The texts handed over are the last segments their reads completed. -/
theorem Delivers.texts {out : List (Option Message)} {ls : List (Option (List UInt8))}
    (h : List.Forall₂ Delivers out ls) : out.reduceOption.map Message.text = ls.reduceOption := by
  induction h with
  | nil => rfl
  | @cons o l out ls hd h ih =>
    rcases o with _ | m <;> rcases l with _ | seg
    · simpa using ih
    · exact hd.elim
    · exact hd.elim
    · simpa [hd.text] using ih

/-- Only the bytes after the last `'$'` can overrun a buffer when the segments are short, and
nothing is handed over from there on. -/
theorem no_frames_of_overrun {p c s : List UInt8} (hp : END_RECIEVE ∉ p)
    (hseg : ∀ f ∈ frames END_RECIEVE (p ++ (c ++ s)), f.length < 1024) (hc : c.length ≤ 256)
    (hf : ¬ Fits (p ++ c)) : frames END_RECIEVE (p ++ (c ++ s)) = [] := by
  rw [frames_append_chunk] at hseg
  have hrest : 1024 < (rest END_RECIEVE (p ++ c)).length := by
    by_contra hle
    exact hf ⟨fun f h => hseg f (List.mem_append_left _ h), by omega⟩
  have hcm : END_RECIEVE ∉ c := by
    intro hm
    obtain ⟨a, b, rfl, ha⟩ := List.eq_append_cons_of_mem hm
    rw [← List.append_assoc, (frames_append_cons (by simp [hp, ha]) b).2] at hrest
    have := length_rest_le (t := END_RECIEVE) b
    simp at hc; omega
  have hpc : END_RECIEVE ∉ p ++ c := by simp [hp, hcm]
  obtain ⟨f, r⟩ := frames_of_not_mem hpc
  rw [r] at hrest
  rw [← List.append_assoc, frames_eq_nil_iff]
  intro hm
  obtain ⟨a, b, rfl, ha⟩ := List.eq_append_cons_of_mem
    (show END_RECIEVE ∈ s by simpa [hp, hcm] using hm)
  have hlong := hseg (p ++ c ++ a) (List.mem_append_right _ (by
    rw [r, ← List.append_assoc, (frames_append_cons (by simp [hp, hcm, ha]) b).1]; simp))
  simp at hlong hrest; omega

end NuttyNios
