import NuttyNios.Controls
/-!
# Any other string (main.c:303-309)

The branch copies 25 bytes of the message to `word`, whatever its length, and `setBuffer` then looks for
the end of the string in `word`. A NUL is there exactly when the text is shown up to fewer than 25 bytes:
`text_exact_iff`.
-/

namespace NuttyNios
open Buffer

theorem command_eq_text {t : List UInt8} (h : ¬ startsWith [49, 48, 126, 45, 43] t) : command t = .text (cstr t) := by
  cases t with
  | nil => rfl
  | cons c payload =>
    rw [command_cons]
    simp only [startsWith_cons, List.mem_cons, List.not_mem_nil, or_false, not_or] at h
    obtain ⟨h1, h0, hs, hm, hp⟩ := h
    rw [if_neg h1, if_neg h0, if_neg hs, if_neg hm, if_neg hp]

/-- **Loading a text is bounded and exact exactly for texts shown up to fewer than 25 bytes**, from any
state and whatever the message array holds behind the text. -/
theorem text_exact_iff (decode : UInt8 → UInt8) (m : Delivered)
    (hm : ¬ startsWith [49, 48, 126, 45, 43] m.text) (g : Globals) :
    (∃ g' acts, dispatch decode m.toMessage g = .ok (g', acts) ∧
      g'.displayBuff.toList = padded ((cstr m.text).take 25)) ↔ (cstr m.text).length < 25 := by
  refine dispatch_ok_iff (command_eq_text hm) ?_
  intro hlen g' acts he
  obtain ⟨-, word, b, hb, rfl⟩ := he
  rw [List.take_of_length_le (Nat.le_of_lt hlen)]
  exact hb

/-- The message `"Hi"` at boot. -/
theorem text_exact_hi : ∃ g' acts,
    dispatch (fun c => c) (Delivered.ofText [72, 105] (by decide)).toMessage Globals.boot = .ok (g', acts) ∧
      g'.displayBuff.toList = [72, 105] ++ List.replicate 23 255 := by
  have h := (text_exact_iff (fun c => c) (Delivered.ofText [72, 105] (by decide))
    (by rw [Delivered.text_ofText]; decide) Globals.boot).2 (by rw [Delivered.text_ofText]; decide)
  rw [Delivered.text_ofText] at h
  exact h

/-- Twenty-five bytes `'A'`: there is no NUL in `word`. -/
theorem text_overread_25 : ¬ ∃ g' acts, dispatch (fun c => c)
    (Delivered.ofText (List.replicate 25 65) (by decide)).toMessage Globals.boot = .ok (g', acts) := by
  rintro ⟨g', acts, hr⟩
  have hf := (dispatch_inv hr).1
  rw [Delivered.text_ofText] at hf
  revert hf
  decide

end NuttyNios
