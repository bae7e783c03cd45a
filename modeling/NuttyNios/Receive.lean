import NuttyNios.Lib.Buffer
import NuttyNios.Lib.Frames
import NuttyNios.Lib.Machine
/-!
# The receive loop (main.c:217-256, :310)

| here | there |
| --- | --- |
| `Rx`          | the locals `message`, `messagebuff`, `messagebuffind`, `message_is_ready`, `curr_message_size` |
| a read        | what `read(STDIN_FILENO, stdin_buff, 256)` returned: `none` for `-1`, else the bytes |
| `Rx.recv`     | one pass of the `for` over `stdin_buff` (:235-250) |
| `Rx.poll`     | one pass of `while(1)` up to the dispatch block, and its `message_is_ready = 0` (:228-256, :310) |
| `Message`     | what the dispatch block reads: the array `message` and `curr_message_size` |

Both arrays are uninitialised stack memory at boot, so nothing is assumed about their bytes.
A store outside them stops the run (`Buffer.Fault`).

`Rx.poll` leaves out the dispatch block between two reads (:258-309). The block stores to neither
array as long as the command it is handed fits its own ones; `Main` has the loop with the block in it,
and `Handover` shows when that loop receives as the passes here do.
-/

namespace NuttyNios
open Buffer Frames

/-- `'$'` -/
def END_RECIEVE : UInt8 := 36

structure Rx where
  message : Vector UInt8 1024
  messagebuff : Vector UInt8 1024
  messagebuffind : Nat
  messageIsReady : Bool
  currMessageSize : Nat

/-- The array `message` and `curr_message_size`, as the dispatch block finds them. -/
structure Message where
  buf : Vector UInt8 1024
  size : Nat

/-- `message[0 .. curr_message_size)`. -/
def Message.text (m : Message) : List UInt8 := m.buf.toList.take m.size

/-- One received character (main.c:235-250). -/
def Rx.recv (rx : Rx) (c : UInt8) : Except Fault Rx :=
  if c ≠ END_RECIEVE then do
    let messagebuff ← store rx.messagebuff rx.messagebuffind c
    return { rx with messagebuff, messagebuffind := rx.messagebuffind + 1 }
  else do
    let message ← memcpy rx.message rx.messagebuff 0 rx.messagebuffind
    let message ← store message rx.messagebuffind 0
    let messagebuff ← memset rx.messagebuff 0 256
    return { message, messagebuff, messagebuffind := 0, messageIsReady := true, currMessageSize := rx.messagebuffind }

/-- `if(size != -1) for(...)` (main.c:233-252). -/
def Rx.recvAll (rx : Rx) : Option (List UInt8) → Except Fault Rx
  | none => .ok rx
  | some bytes => bytes.foldlM Rx.recv rx

/-- One pass of the loop as the receiver sees it: the read, then the hand-over to the
dispatch block if `message_is_ready`, which the block resets. -/
def Rx.poll (rx : Rx) (r : Option (List UInt8)) : Except Fault (Rx × Option Message) := do
  let rx ← rx.recvAll r
  if rx.messageIsReady then
    return ({ rx with messageIsReady := false }, some ⟨rx.message, rx.currMessageSize⟩)
  else
    return (rx, none)

/-- The receiver: reads in, messages for the dispatch block out. -/
def receiver : Machine Rx (Option (List UInt8)) (Option Message) Fault := ⟨Rx.poll⟩

/-- The locals when `while(1)` is first entered. -/
def Rx.boot (message messagebuff : Vector UInt8 1024) (currMessageSize : Nat) : Rx :=
  { message, messagebuff, messagebuffind := 0, messageIsReady := false, currMessageSize }

/-- The receive loop's locals over zeroed memory. -/
def Rx.zeroed : Rx := Rx.boot (Vector.replicate 1024 0) (Vector.replicate 1024 0) 0

/-- The bytes each read delivered. -/
def chunks (reads : List (Option (List UInt8))) : List (List UInt8) := reads.map (·.getD [])

/-- The received stream. -/
def stream (reads : List (Option (List UInt8))) : List UInt8 := (chunks reads).flatten

/-! ## What the buffers hold -/

/-- `p` is in `messagebuff`, and `last`, if any, is in `message` waiting to be dispatched. -/
structure Rx.Holds (rx : Rx) (p : List UInt8) (last : Option (List UInt8)) : Prop where
  ind : rx.messagebuffind = p.length
  buff : rx.messagebuff.toList.take p.length = p
  ready : rx.messageIsReady = last.isSome
  msg : ∀ seg, last = some seg →
    rx.currMessageSize = seg.length ∧ rx.message.toList.take (seg.length + 1) = seg ++ [0]

theorem Rx.Holds.length_le {rx : Rx} {p : List UInt8} {last : Option (List UInt8)} (h : rx.Holds p last) :
    p.length ≤ 1024 := by
  have := congrArg List.length h.buff
  simp at this; omega

theorem take_succ_set {α : Type} (l : List α) (i : Nat) (x : α) (h : i < l.length) :
    (l.set i x).take (i + 1) = l.take i ++ [x] := by
  rw [List.take_add_one, List.take_set_of_le (Nat.le_refl i), List.getElem?_set_self h]
  rfl

/-- A payload byte goes to the end of `messagebuff`, when there is room for it. -/
theorem recv_payload {rx : Rx} {p : List UInt8} {last : Option (List UInt8)} {c : UInt8}
    (h : rx.Holds p last) (hc : c ≠ END_RECIEVE) (hp : p.length < 1024) :
    ∃ rx', rx.recv c = .ok rx' ∧ rx'.Holds (p ++ [c]) last := by
  obtain ⟨b, hb, hl⟩ := store_of_lt rx.messagebuff c (i := rx.messagebuffind) (by rw [h.ind]; exact hp)
  have e : rx.recv c = .ok { rx with messagebuff := b, messagebuffind := rx.messagebuffind + 1 } := by
    rw [Rx.recv, if_pos hc, hb]; rfl
  refine ⟨_, e, ?_, ?_, h.ready, h.msg⟩
  · simp [h.ind]
  · simp only [List.length_append, List.length_singleton]
    rw [hl, h.ind, take_succ_set _ _ _ (by simpa using hp), h.buff]

/-- With 1024 bytes pending the store is outside `messagebuff`. -/
theorem recv_payload_full {rx : Rx} {p : List UInt8} {last : Option (List UInt8)} {c : UInt8}
    (h : rx.Holds p last) (hc : c ≠ END_RECIEVE) (hp : ¬ p.length < 1024) : rx.recv c = .error .store := by
  rw [Rx.recv, if_pos hc, store, dif_neg (by rw [h.ind]; exact hp)]
  rfl

/-- A terminator moves the pending bytes and a NUL to `message`. -/
theorem recv_end {rx : Rx} {p : List UInt8} {last : Option (List UInt8)}
    (h : rx.Holds p last) (hp : p.length < 1024) :
    ∃ rx', rx.recv END_RECIEVE = .ok rx' ∧ rx'.Holds [] (some p) := by
  obtain ⟨m, hm, hml⟩ := memcpy_of_le rx.message rx.messagebuff (i := 0) (k := rx.messagebuffind)
    (by rw [h.ind]; omega) (by rw [h.ind]; omega)
  obtain ⟨m', hm', hml'⟩ := store_of_lt m (0 : UInt8) (i := rx.messagebuffind) (by rw [h.ind]; exact hp)
  obtain ⟨b, hb, -⟩ := memset_of_le rx.messagebuff (0 : UInt8) (k := 256) (by omega)
  have e : rx.recv END_RECIEVE = .ok ⟨m', b, 0, true, rx.messagebuffind⟩ := by
    rw [Rx.recv, if_neg (by simp), hm]
    simp only [bind, Except.bind, hm', hb]
    rfl
  refine ⟨_, e, rfl, rfl, rfl, ?_⟩
  intro seg hseg
  cases hseg
  refine ⟨h.ind, ?_⟩
  rw [hml', h.ind, take_succ_set _ _ _ (by simpa using hp), hml, List.drop_zero, h.ind, h.buff,
    List.take_left]

/-- With 1024 bytes pending there is no room for the NUL. -/
theorem recv_end_full {rx : Rx} {p : List UInt8} {last : Option (List UInt8)}
    (h : rx.Holds p last) (hp : ¬ p.length < 1024) : rx.recv END_RECIEVE = .error .store := by
  have hle := h.length_le
  obtain ⟨m, hm, -⟩ := memcpy_of_le rx.message rx.messagebuff (i := 0) (k := rx.messagebuffind)
    (by rw [h.ind]; omega) (by rw [h.ind]; omega)
  rw [Rx.recv, if_neg (by simp), hm]
  simp only [bind, Except.bind]
  rw [store, dif_neg (by rw [h.ind]; exact hp)]

/-- With 1024 bytes pending the next character, whichever it is, overruns a buffer. -/
theorem recv_full {rx : Rx} {p : List UInt8} {last : Option (List UInt8)} {c : UInt8}
    (h : rx.Holds p last) (hp : ¬ p.length < 1024) : rx.recv c = .error .store := by
  by_cases hc : c = END_RECIEVE
  · subst hc
    exact recv_end_full h hp
  · exact recv_payload_full h hc hp

/-! ## When a stream fits the buffers -/

/-- Every terminated segment leaves room for its NUL, and the bytes after the last
terminator fit `messagebuff`. -/
def Fits (xs : List UInt8) : Prop :=
  (∀ f ∈ frames END_RECIEVE xs, f.length < 1024) ∧ (rest END_RECIEVE xs).length ≤ 1024

instance (xs : List UInt8) : Decidable (Fits xs) := by unfold Fits; infer_instance

theorem fits_of_not_mem {p : List UInt8} (h : END_RECIEVE ∉ p) : Fits p ↔ p.length ≤ 1024 := by
  obtain ⟨f, r⟩ := frames_of_not_mem h
  simp [Fits, f, r]

theorem fits_append_cons {p : List UInt8} (h : END_RECIEVE ∉ p) (xs : List UInt8) :
    Fits (p ++ END_RECIEVE :: xs) ↔ p.length < 1024 ∧ Fits xs := by
  obtain ⟨f, r⟩ := frames_append_cons h xs
  simp [Fits, f, r, and_assoc]

/-- A `'$'`-free prefix of a stream that fits, fits. -/
theorem fits_prefix_le {p xs : List UInt8} (h : END_RECIEVE ∉ p) (hf : Fits (p ++ xs)) : p.length ≤ 1024 := by
  by_cases hm : END_RECIEVE ∈ xs
  · obtain ⟨a, b, rfl, ha⟩ := List.eq_append_cons_of_mem hm
    rw [← List.append_assoc, fits_append_cons (by simp [h, ha])] at hf
    have := hf.1
    simp at this; omega
  · have := (fits_of_not_mem (by simp [h, hm])).1 hf
    simp at this; omega

theorem fits_append {xs ys : List UInt8} :
    Fits (xs ++ ys) ↔ Fits xs ∧ Fits (rest END_RECIEVE xs ++ ys) := by
  obtain ⟨f, r⟩ := frames_append (t := END_RECIEVE) xs ys
  constructor
  · intro h
    have h2 : Fits (rest END_RECIEVE xs ++ ys) := ⟨fun g hg => h.1 g (by simp [f, hg]), by rw [← r]; exact h.2⟩
    exact ⟨⟨fun g hg => h.1 g (by simp [f, hg]), fits_prefix_le (rest_not_mem xs) h2⟩, h2⟩
  · rintro ⟨h1, h2⟩
    refine ⟨fun g hg => ?_, by rw [r]; exact h2.2⟩
    rw [f, List.mem_append] at hg
    exact hg.elim (h1.1 g) (h2.1 g)

end NuttyNios
