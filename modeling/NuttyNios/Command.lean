import NuttyNios.Firmware
/-!
# What a message asks for

`command` reads a message's text as one of the commands of the protocol; it says nothing about
buffers. `dispatch_fits` and `dispatch_overruns` connect it to the dispatch block: a command that
`Fits` the arrays it is copied to has its `Effect`, and any other stops the run.
-/

namespace NuttyNios
open Buffer

inductive Command
  | leds (v : BitVec 32)
  | score (payload : List UInt8)
  | filter (f : Int) (leds : BitVec 32) (name : List UInt8)
  | text (shown : List UInt8)

/-- "Easy filter" -/
def easyName : List UInt8 := [69, 97, 115, 121, 32, 102, 105, 108, 116, 101, 114]

/-- "Hard filter" -/
def hardName : List UInt8 := [72, 97, 114, 100, 32, 102, 105, 108, 116, 101, 114]

/-- The commands, by the message's text. A text is shown up to its first NUL. -/
def command : List UInt8 → Command
  | [] => .text []
  | c :: payload =>
    if c = 49 then .leds 0b1111111111
    else if c = 48 then .leds 0
    else if c = 126 then .score payload
    else if c = 45 then .filter 0 0 easyName
    else if c = 43 then .filter 1 0b1111111111 hardName
    else .text (cstr (c :: payload))

theorem command_cons (c : UInt8) (payload : List UInt8) : command (c :: payload) =
    if c = 49 then .leds 0b1111111111
    else if c = 48 then .leds 0
    else if c = 126 then .score payload
    else if c = 45 then .filter 0 0 easyName
    else if c = 43 then .filter 1 0b1111111111 hardName
    else .text (cstr (c :: payload)) := rfl

/-- The commands that fit the arrays they are copied to. -/
def Command.Fits : Command → Prop
  | .score payload => payload.length ≤ 6
  | .filter _ _ name => name.length < 25
  | .text shown => shown.length < 25
  | .leds _ => True

instance : (c : Command) → Decidable c.Fits
  | .score payload => inferInstanceAs (Decidable (payload.length ≤ 6))
  | .filter _ _ name => inferInstanceAs (Decidable (name.length < 25))
  | .text shown => inferInstanceAs (Decidable (shown.length < 25))
  | .leds _ => inferInstanceAs (Decidable True)

/-- The six bytes a score is padded to. -/
def padScore (payload : List UInt8) : List UInt8 := payload ++ List.replicate (6 - payload.length) 255

/-- Decoding six bytes and writing them out. -/
def shown (decode : UInt8 → UInt8) (six : Vector UInt8 6) : List Action :=
  six.toList.map .decode ++ writeHex (six.map decode)

/-- What dispatching a command does to the globals, and the actions it takes. -/
def Command.Effect (decode : UInt8 → UInt8) (g g' : Globals) (acts : List Action) : Command → Prop
  | .leds v => g' = { g with leds := v } ∧ acts = []
  | .score payload => g' = { g with stopscroll := 1 } ∧
      ∃ six : Vector UInt8 6, six.toList = padScore payload ∧ acts = shown decode six
  | .filter f v name => acts = [] ∧ ∃ word displayBuff, displayBuff.toList = padded name ∧
      g' = { g with word, displayBuff, filter := f, leds := v, stopscroll := 0 }
  | .text t => acts = [] ∧ ∃ word displayBuff, displayBuff.toList = padded t ∧
      g' = { g with word, displayBuff, stopscroll := 0 }

/-- Any text of up to 1023 bytes, over a zeroed array. -/
def Delivered.ofText (text : List UInt8) (h : text.length < 1024) : Delivered where
  buf := ofList (text ++ List.replicate (1024 - text.length) 0) (by simp; omega)
  size := text.length
  size_lt := h
  terminated := by
    rw [getElem_ofList, List.getElem_append_right (Nat.le_refl _), List.getElem_replicate]

@[simp] theorem Delivered.text_ofText (text : List UInt8) (h : text.length < 1024) :
    (Delivered.ofText text h).text = text := by
  simp [Message.text, Delivered.ofText]

/-- The text, its NUL, and whatever the array held before. -/
theorem Delivered.buf_eq (m : Delivered) : ∃ stale, m.buf.toList = m.text ++ 0 :: stale := by
  have hlt : m.size < m.buf.toList.length := by simpa using m.size_lt
  refine ⟨m.buf.toList.drop (m.size + 1), ?_⟩
  rw [Message.text, ← show m.buf.toList[m.size] = 0 by simpa using m.terminated, List.getElem_cons_drop hlt,
    List.take_append_drop]

/-- The first NUL of the array ends what is shown of the text. -/
theorem Delivered.cstr_buf (m : Delivered) : cstr m.buf.toList = cstr m.text := by
  obtain ⟨stale, h⟩ := m.buf_eq
  rw [h, cstr_append_zero]

/-! ## Loading the display buffer -/

/-- `word` takes the first 25 bytes of the source, and is only then searched for its end. -/
theorem loadWord_eq {n : Nat} (src : Vector UInt8 n) (hn : 25 ≤ n) (g : Globals) :
    ∃ word : Vector UInt8 25, word.toList = src.toList.take 25 ∧ loadWord src g =
      (setBuffer word g.displayBuff).map fun displayBuff => { g with word, displayBuff } := by
  obtain ⟨w₁, h1, -⟩ := memset_full g.word 255
  obtain ⟨word, h2, l2⟩ := memcpy_of_le w₁ src (i := 0) (k := 25) (by omega) (Nat.le_refl _)
  rw [List.drop_zero, List.drop_of_length_le (by simp), List.append_nil] at l2
  refine ⟨word, l2, ?_⟩
  simp only [loadWord, h1, h2, bind, Except.bind]
  cases setBuffer word g.displayBuff <;> rfl

theorem loadWord_ok {n : Nat} (src : Vector UInt8 n) (hn : 25 ≤ n)
    (h : (cstr src.toList).length < 25) (g : Globals) :
    ∃ word displayBuff, displayBuff.toList = padded (cstr src.toList) ∧
      loadWord src g = .ok { g with word, displayBuff } := by
  obtain ⟨word, hw, hl⟩ := loadWord_eq src hn g
  obtain ⟨b, hb, l⟩ := setBuffer_ok word (by rw [hw, zero_mem_take_iff (by simpa using hn)]; exact h) g.displayBuff
  refine ⟨word, b, ?_, ?_⟩
  · rw [l, hw, cstr_take, List.take_of_length_le (Nat.le_of_lt h)]
  · rw [hl, hb]
    rfl

theorem loadWord_fault {n : Nat} (src : Vector UInt8 n) (hn : 25 ≤ n)
    (h : ¬ (cstr src.toList).length < 25) (g : Globals) : loadWord src g = .error .load := by
  obtain ⟨word, hw, hl⟩ := loadWord_eq src hn g
  have hb := setBuffer_fault word (by rw [hw, zero_mem_take_iff (by simpa using hn)]; exact h) g.displayBuff
  rw [hl, hb]
  rfl

/-! ## Dispatch -/

theorem Delivered.payload_count (m : Delivered) (h : 0 < m.size) :
    ((m.size - 1 : Int) % 2 ^ 32).toNat = m.size - 1 := by
  have := m.size_lt
  omega

theorem showScore_fits (decode : UInt8 → UInt8) (m : Delivered) (hpos : 0 < m.size) (h : m.size - 1 ≤ 6) (g : Globals) :
    ∃ six : Vector UInt8 6, six.toList = padScore ((m.buf.toList.drop 1).take (m.size - 1)) ∧
      showScore decode m.toMessage g = .ok ({ g with stopscroll := 1 }, shown decode six) := by
  have hlt := m.size_lt
  obtain ⟨six, h1, l1⟩ := memcpy_of_le (Vector.replicate 6 (255 : UInt8)) m.buf (i := 1) (k := m.size - 1)
    (by omega) h
  refine ⟨six, ?_, ?_⟩
  · rw [l1, padScore, length_load (by omega), Vector.toList_replicate, List.drop_replicate]
  · simp only [showScore, m.payload_count hpos, h1, decodeAll_eq, bind, Except.bind, pure, Except.pure]
    rfl

theorem showScore_overruns (decode : UInt8 → UInt8) (m : Delivered) (h : 6 < m.size - 1) (g : Globals) :
    showScore decode m.toMessage g = .error .store := by
  have hlt := m.size_lt
  have hl : load m.buf 1 (m.size - 1) = .ok ((m.buf.toList.drop 1).take (m.size - 1)) := load_of_le _ (by omega)
  have hlen : 6 < ((m.buf.toList.drop 1).take (m.size - 1)).length := by rw [length_load (by omega)]; exact h
  have hw := write_error (Vector.replicate 6 (255 : UInt8)) hlen
  simp only [showScore, m.payload_count (by omega), memcpy, hl, hw, bind, Except.bind]

/-- The last branch: a message no other branch takes is loaded and scrolled. -/
theorem loadWord_message (decode : UInt8 → UInt8) (m : Delivered) (g : Globals)
    {r : Except Fault (Globals × List Action)} (hr : r = do
      let g ← loadWord m.buf g
      return ({ g with stopscroll := 0 }, [])) :
    ((Command.text (cstr m.text)).Fits → ∃ g' acts, r = .ok (g', acts) ∧
      (Command.text (cstr m.text)).Effect decode g g' acts) ∧
    (¬ (Command.text (cstr m.text)).Fits → ∃ e, r = .error e) := by
  rw [← m.cstr_buf]
  constructor
  · intro h
    obtain ⟨word, b, hb, hl⟩ := loadWord_ok m.buf (by omega) h g
    refine ⟨_, [], ?_, rfl, word, b, hb, rfl⟩
    rw [hr, hl]
    rfl
  · intro h
    refine ⟨.load, ?_⟩
    rw [hr, loadWord_fault m.buf (by omega) h g]
    rfl

/-- The dispatch block, by the command the text stands for. -/
theorem dispatch_command (decode : UInt8 → UInt8) (m : Delivered) (g : Globals) :
    ((command m.text).Fits →
      ∃ g' acts, dispatch decode m.toMessage g = .ok (g', acts) ∧ (command m.text).Effect decode g g' acts) ∧
    (¬ (command m.text).Fits → ∃ e, dispatch decode m.toMessage g = .error e) := by
  rcases m.text_cases with ⟨ht, h0⟩ | ⟨hpos, ht⟩
  · have hlast := loadWord_message decode m g (r := dispatch decode m.toMessage g) (by simp only [dispatch, h0]; rfl)
    rw [ht] at hlast ⊢
    exact hlast
  · have hsize := m.size_lt
    have hlen : ((m.buf.toList.drop 1).take (m.size - 1)).length = m.size - 1 := length_load (by omega)
    rw [ht, command_cons]
    unfold dispatch
    by_cases h1 : m.buf[0] = 49
    · rw [if_pos h1, if_pos h1]
      exact ⟨fun _ => ⟨_, _, rfl, rfl, rfl⟩, fun h => absurd trivial h⟩
    rw [if_neg h1, if_neg h1]
    by_cases h2 : m.buf[0] = 48
    · rw [if_pos h2, if_pos h2]
      exact ⟨fun _ => ⟨_, _, rfl, rfl, rfl⟩, fun h => absurd trivial h⟩
    rw [if_neg h2, if_neg h2]
    by_cases h3 : m.buf[0] = 126
    · rw [if_pos h3, if_pos h3]
      constructor
      · intro h
        obtain ⟨six, hs, hr⟩ := showScore_fits decode m hpos (hlen ▸ h) g
        exact ⟨_, _, hr, rfl, six, hs, rfl⟩
      · intro h
        exact ⟨_, showScore_overruns decode m (Nat.not_le.1 (hlen ▸ h)) g⟩
    rw [if_neg h3, if_neg h3]
    by_cases h4 : m.buf[0] = 45
    · rw [if_pos h4, if_pos h4]
      obtain ⟨word, b, hb, hl⟩ := loadWord_ok easyFilter (by omega) (by decide) g
      refine ⟨fun _ => ⟨_, [], ?_, rfl, word, b, hb, rfl⟩, fun h => absurd (show 11 < 25 by decide) h⟩
      rw [hl]
      rfl
    rw [if_neg h4, if_neg h4]
    by_cases h5 : m.buf[0] = 43
    · rw [if_pos h5, if_pos h5]
      obtain ⟨word, b, hb, hl⟩ := loadWord_ok hardFilter (by omega) (by decide) g
      refine ⟨fun _ => ⟨_, [], ?_, rfl, word, b, hb, rfl⟩, fun h => absurd (show 11 < 25 by decide) h⟩
      rw [hl]
      rfl
    rw [if_neg h5, if_neg h5]
    have hlast := loadWord_message decode m g rfl
    rw [ht] at hlast
    exact hlast

/-- **A command that fits has its effect.** -/
theorem dispatch_fits (decode : UInt8 → UInt8) (m : Delivered) (h : (command m.text).Fits) (g : Globals) :
    ∃ g' acts, dispatch decode m.toMessage g = .ok (g', acts) ∧ (command m.text).Effect decode g g' acts :=
  (dispatch_command decode m g).1 h

/-- A command that does not fit stops the run. -/
theorem dispatch_overruns (decode : UInt8 → UInt8) (m : Delivered) (h : ¬ (command m.text).Fits) (g : Globals) :
    ∃ e, dispatch decode m.toMessage g = .error e :=
  (dispatch_command decode m g).2 h

/-- **What a dispatch can do**: it went through only for a command that fits, and had its effect. -/
theorem dispatch_inv {decode : UInt8 → UInt8} {m : Delivered} {g g' : Globals} {acts : List Action}
    (h : dispatch decode m.toMessage g = .ok (g', acts)) :
    (command m.text).Fits ∧ (command m.text).Effect decode g g' acts := by
  by_cases hf : (command m.text).Fits
  · obtain ⟨g₁, acts₁, hr, he⟩ := dispatch_fits decode m hf g
    rw [hr] at h
    cases h
    exact ⟨hf, he⟩
  · obtain ⟨e, hr⟩ := dispatch_overruns decode m hf g
    rw [hr] at h
    cases h

/-- What every effect of a command brings about, a dispatch brings about exactly if the command fits. -/
theorem dispatch_ok_iff {decode : UInt8 → UInt8} {m : Delivered} {g : Globals} {c : Command}
    {P : Globals → List Action → Prop} (hc : command m.text = c)
    (h : c.Fits → ∀ g' acts, c.Effect decode g g' acts → P g' acts) :
    (∃ g' acts, dispatch decode m.toMessage g = .ok (g', acts) ∧ P g' acts) ↔ c.Fits := by
  subst hc
  constructor
  · rintro ⟨g', acts, hr, -⟩
    exact (dispatch_inv hr).1
  · intro hf
    obtain ⟨g', acts, hr, he⟩ := dispatch_fits decode m hf g
    exact ⟨g', acts, hr, h hf g' acts he⟩

/-- No command that fits stops the run. -/
theorem firmware_total (decode : UInt8 → UInt8) (events : List Event)
    (hf : ∀ m, Event.message m ∈ events → (command m.text).Fits) :
    ∃ g outs, (firmware decode).run Globals.boot events = .ok (g, outs) := by
  have hstep : ∀ (g : Globals) (e : Event), True → (∀ m, e = .message m → (command m.text).Fits) →
      ∃ g' acts, (firmware decode).step g e = .ok (g', acts) ∧ True := by
    intro g e _ he
    cases e with
    | message m =>
      obtain ⟨g', acts, hr, -⟩ := dispatch_fits decode m (he m rfl) g
      exact ⟨g', acts, hr, trivial⟩
    | sample s => exact ⟨_, _, sample_eq decode s g, trivial⟩
  obtain ⟨g, outs, hr, -⟩ := Machine.run_total hstep (s := Globals.boot) trivial
    (fun e (he : e ∈ events) m hm => hf m (hm ▸ he))
  exact ⟨g, outs, hr⟩

end NuttyNios
