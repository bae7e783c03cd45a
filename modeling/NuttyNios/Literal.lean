import NuttyNios.Host
/-!
# What `int(s, 16)` accepts

`HexLiteral` is the grammar of a base-16 literal, as a relation between a string and the number it
spells: blanks, a sign, a radix, digits with single underscores between them, blanks. The reader
`pyInt16` walks the string from the left and decides on the next character or two; `pyInt16_iff` says
that on ASCII it accepts exactly the literals.
-/

namespace NuttyNios

/-- Hexadecimal digits with single underscores between them, and what they spell. -/
inductive Digits : List Char → List Nat → Prop
  | one {c : Char} : digitValue c < 16 → Digits [c] [digitValue c]
  | cons {c : Char} {cs : List Char} {ds : List Nat} : digitValue c < 16 → Digits cs ds →
      Digits (c :: cs) (digitValue c :: ds)
  | under {c : Char} {cs : List Char} {ds : List Nat} : digitValue c < 16 → Digits cs ds →
      Digits (c :: '_' :: cs) (digitValue c :: ds)

/-- The signs and the radixes a literal may have. -/
def signs : List (List Char) := [[], ['+'], ['-']]

def radixes : List (List Char) := [[], ['0', 'x'], ['0', 'X'], ['0', 'x', '_'], ['0', 'X', '_']]

/-- A base-16 literal and the number it spells. -/
inductive HexLiteral : List Char → Int → Prop
  | mk {before sign radix body after : List Char} {ds : List Nat} : (∀ c ∈ before, isCSpace c = true) →
      sign ∈ signs → radix ∈ radixes → Digits body ds → (∀ c ∈ after, isCSpace c = true) →
      HexLiteral (before ++ (sign ++ (radix ++ (body ++ after))))
        (if sign = ['-'] then -(Nat.ofDigits 16 ds.reverse : Nat) else (Nat.ofDigits 16 ds.reverse : Nat))

/-! ## Characters -/

theorem digitValue_lt {c : Char} (h : digitValue c < 16) :
    isCSpace c = false ∧ c ≠ '_' ∧ c ≠ '+' ∧ c ≠ '-' ∧ c ≠ 'x' ∧ c ≠ 'X' := by
  have hne : ∀ e : Char, ¬ digitValue e < 16 → c ≠ e := by
    rintro e he rfl
    exact he h
  refine ⟨?_, hne '_' (by decide), hne '+' (by decide), hne '-' (by decide), hne 'x' (by decide), hne 'X' (by decide)⟩
  have hsp : c ≠ ' ' := hne ' ' (by decide)
  simp only [digitValue] at h
  simp only [isCSpace, Bool.or_eq_false_iff, Bool.and_eq_false_iff, decide_eq_false_iff_not, beq_eq_false_iff_ne]
  refine ⟨?_, hsp⟩
  split_ifs at h <;> omega

theorem blank_not_digit {c : Char} (h : isCSpace c = true) : c ≠ '_' ∧ ¬ digitValue c < 16 := by
  constructor
  · rintro rfl
    revert h
    decide
  · intro hd
    rw [(digitValue_lt hd).1] at h
    cases h

/-! ## Digits -/

theorem scanDigits_digit {c : Char} (h : digitValue c < 16) (under : Bool) (cs : List Char) :
    scanDigits under (c :: cs) = (scanDigits false cs).map fun (ds, rest) => (digitValue c :: ds, rest) := by
  rw [scanDigits, if_neg (digitValue_lt h).2.1, if_pos h]

theorem scanDigits_stop {rest : List Char} (h : ∀ c ∈ rest.head?, isCSpace c = true) :
    scanDigits false rest = some ([], rest) := by
  cases rest with
  | nil => rfl
  | cons c cs =>
    obtain ⟨hu, hd⟩ := blank_not_digit (h c rfl)
    rw [scanDigits, if_neg hu, if_neg hd]
    rfl

theorem Digits.ne_nil {cs : List Char} {ds : List Nat} (h : Digits cs ds) :
    ∃ c tail d ds', cs = c :: tail ∧ ds = d :: ds' ∧ digitValue c < 16 := by
  cases h with
  | one hc => exact ⟨_, _, _, _, rfl, rfl, hc⟩
  | cons hc _ => exact ⟨_, _, _, _, rfl, rfl, hc⟩
  | under hc _ => exact ⟨_, _, _, _, rfl, rfl, hc⟩

/-- **The scan reads all of the digits.** -/
theorem Digits.scan {cs : List Char} {ds : List Nat} (h : Digits cs ds) {rest : List Char}
    (hrest : ∀ c ∈ rest.head?, isCSpace c = true) : scanDigits false (cs ++ rest) = some (ds, rest) := by
  induction h with
  | one hc =>
    rw [List.singleton_append, scanDigits_digit hc, scanDigits_stop hrest]
    rfl
  | cons hc _ ih =>
    rw [List.cons_append, scanDigits_digit hc, ih]
    rfl
  | @under c cs ds hc hcs ih =>
    obtain ⟨c', tail, d, ds', rfl, rfl, hc'⟩ := hcs.ne_nil
    have hskip : scanDigits false ('_' :: (c' :: tail ++ rest)) = scanDigits true (c' :: tail ++ rest) := by
      rw [scanDigits]
      rfl
    rw [List.cons_append, List.cons_append, scanDigits_digit hc, hskip]
    rw [List.cons_append, scanDigits_digit hc' true, ← scanDigits_digit hc' false, ← List.cons_append, ih]
    rfl

/-- **What the scan reads are digits**, after an underscore when it may start with one. -/
theorem scanDigits_sound {s : List Char} : ∀ {under : Bool} {ds : List Nat} {rest : List Char},
    scanDigits under s = some (ds, rest) → (under = false ∧ ds = [] ∧ rest = s) ∨
      ∃ body, Digits body ds ∧ (s = body ++ rest ∨ (under = false ∧ s = '_' :: (body ++ rest))) := by
  induction s with
  | nil =>
    intro under ds rest h
    cases under with
    | true => cases h
    | false =>
      cases h
      exact .inl ⟨rfl, rfl, rfl⟩
  | cons c cs ih =>
    intro under ds rest h
    rw [scanDigits] at h
    by_cases hu : c = '_'
    · subst hu
      cases under with
      | true => cases h
      | false =>
        rw [if_pos rfl] at h
        rcases ih h with ⟨hf, -, -⟩ | ⟨body, hb, he | ⟨hf, -⟩⟩
        · cases hf
        · exact .inr ⟨body, hb, .inr ⟨rfl, by rw [he]⟩⟩
        · cases hf
    rw [if_neg hu] at h
    by_cases hd : digitValue c < 16
    · rw [if_pos hd] at h
      cases hs : scanDigits false cs with
      | none => rw [hs] at h; cases h
      | some p =>
        obtain ⟨ds', rest'⟩ := p
        rw [hs] at h
        cases h
        rcases ih hs with ⟨-, rfl, rfl⟩ | ⟨body, hb, rfl | ⟨-, rfl⟩⟩
        · exact .inr ⟨[c], .one hd, .inl rfl⟩
        · exact .inr ⟨c :: body, .cons hd hb, .inl rfl⟩
        · exact .inr ⟨c :: '_' :: body, .under hd hb, .inl rfl⟩
    · rw [if_neg hd] at h
      cases under with
      | true => cases h
      | false =>
        cases h
        exact .inl ⟨rfl, rfl, rfl⟩

/-! ## Radix and sign -/

theorem Digits.mem {cs : List Char} {ds : List Nat} (h : Digits cs ds) :
    ∀ c ∈ cs, digitValue c < 16 ∨ c = '_' := by
  induction h with
  | one hc => simpa using .inl hc
  | cons hc _ ih => exact List.forall_mem_cons.2 ⟨.inl hc, ih⟩
  | under hc _ ih => exact List.forall_mem_cons.2 ⟨.inl hc, List.forall_mem_cons.2 ⟨.inr rfl, ih⟩⟩

theorem skipRadix_of_not_mem {s : List Char} (hx : 'x' ∉ s) (hX : 'X' ∉ s) : skipRadix s = s := by
  refine if_neg ?_
  rintro (h | h)
  · exact hx (List.mem_of_mem_take (i := 2) (by rw [h]; simp))
  · exact hX (List.mem_of_mem_take (i := 2) (by rw [h]; simp))

/-- The radix is skipped and nothing else. -/
theorem skipRadix_append {radix body after : List Char} {ds : List Nat} (hr : radix ∈ radixes)
    (hd : Digits body ds) (ha : ∀ c ∈ after, isCSpace c = true) :
    skipRadix (radix ++ (body ++ after)) = body ++ after := by
  obtain ⟨c, tail, d, ds', rfl, rfl, hc⟩ := hd.ne_nil
  have hu : c ≠ '_' := (digitValue_lt hc).2.1
  simp only [radixes, List.mem_cons, List.not_mem_nil, or_false] at hr
  rcases hr with rfl | rfl | rfl | rfl | rfl
  · have hnot : ∀ e : Char, ¬ (digitValue e < 16 ∨ e = '_') → isCSpace e = false → e ∉ c :: tail ++ after := by
      intro e he hb hm
      rcases List.mem_append.1 hm with hm | hm
      · exact he (hd.mem e hm)
      · rw [ha e hm] at hb
        cases hb
    exact skipRadix_of_not_mem (hnot 'x' (by decide) (by decide)) (hnot 'X' (by decide) (by decide))
  all_goals simp [skipRadix, hu]

theorem skipRadix_sound (s : List Char) : ∃ radix ∈ radixes, s = radix ++ skipRadix s := by
  by_cases h : s.take 2 = ['0', 'x'] ∨ s.take 2 = ['0', 'X']
  · obtain ⟨e, rest, he, rfl⟩ : ∃ e rest, (e = 'x' ∨ e = 'X') ∧ s = '0' :: e :: rest := by
      have hsplit := List.take_append_drop 2 s
      rcases h with h | h
      · exact ⟨'x', s.drop 2, .inl rfl, by rw [h] at hsplit; exact hsplit.symm⟩
      · exact ⟨'X', s.drop 2, .inr rfl, by rw [h] at hsplit; exact hsplit.symm⟩
    cases rest with
    | nil =>
      refine ⟨['0', e], ?_, ?_⟩
      · rcases he with rfl | rfl <;> simp [radixes]
      · rcases he with rfl | rfl <;> rfl
    | cons u rest =>
      by_cases hu : u = '_'
      · subst hu
        refine ⟨['0', e, '_'], ?_, ?_⟩
        · rcases he with rfl | rfl <;> simp [radixes]
        · rcases he with rfl | rfl <;> rfl
      · refine ⟨['0', e], ?_, ?_⟩
        · rcases he with rfl | rfl <;> simp [radixes]
        · rcases he with rfl | rfl <;> simp [skipRadix, hu]
  · exact ⟨[], by simp [radixes], (if_neg h).symm⟩

/-- The first character of a number without its sign is a digit. -/
theorem head_digit {radix body : List Char} {ds : List Nat} (hr : radix ∈ radixes) (hd : Digits body ds)
    (after : List Char) : ∃ c, (radix ++ (body ++ after)).head? = some c ∧ digitValue c < 16 := by
  obtain ⟨c, tail, d, ds', rfl, rfl, hc⟩ := hd.ne_nil
  simp only [radixes, List.mem_cons, List.not_mem_nil, or_false] at hr
  rcases hr with rfl | rfl | rfl | rfl | rfl
  · exact ⟨c, rfl, hc⟩
  all_goals exact ⟨'0', rfl, by decide⟩

/-! ## The whole literal -/

theorem map_toAscii (decimal : Char → Option Nat) {s : List Char} (h : ∀ c ∈ s, c.toNat < 128) :
    s.map (toAscii decimal) = s :=
  (List.map_congr_left fun c hc => if_pos (h c hc)).trans (List.map_id _)

/-- The number from its first digit on. -/
theorem scan_number {radix body after : List Char} {ds : List Nat} (hr : radix ∈ radixes) (hd : Digits body ds)
    (ha : ∀ c ∈ after, isCSpace c = true) :
    (skipRadix (radix ++ (body ++ after))).head? ≠ some '_' ∧
      scanDigits false (skipRadix (radix ++ (body ++ after))) = some (ds, after) := by
  rw [skipRadix_append hr hd ha]
  constructor
  · obtain ⟨c, tail, d, ds', rfl, rfl, hc⟩ := hd.ne_nil
    simpa using (digitValue_lt hc).2.1
  · exact hd.scan fun c hc => ha c (List.mem_of_mem_head? hc)

theorem pyInt16_literal (decimal : Char → Option Nat) {s : List Char} {v : Int} (h : HexLiteral s v)
    (hascii : ∀ c ∈ s, c.toNat < 128) : pyInt16 decimal s = .ok v := by
  obtain ⟨hb, hs, hr, hd, ha⟩ := h
  rename_i before sign radix body after ds
  obtain ⟨c, hc, hdigit⟩ := head_digit hr hd after
  obtain ⟨hblank, -, hplus, hminus, -, -⟩ := digitValue_lt hdigit
  obtain ⟨hunder, hscan⟩ := scan_number hr hd ha
  obtain ⟨c', tail, d, ds', rfl, rfl, -⟩ := hd.ne_nil
  have hall : after.all isCSpace = true := List.all_eq_true.2 ha
  rw [pyInt16, map_toAscii decimal hascii, List.dropWhile_append_of_pos hb]
  generalize radix ++ (c' :: tail ++ after) = number at hc hunder hscan ⊢
  obtain ⟨rest, rfl⟩ : ∃ rest, number = c :: rest := List.head?_eq_some_iff.1 hc
  simp only [signs, List.mem_cons, List.not_mem_nil, or_false] at hs
  rcases hs with rfl | rfl | rfl
  · rw [List.nil_append, List.dropWhile_cons_of_neg (by simp [hblank])]
    simp [hminus, hplus, hunder, hscan, hall]
  · rw [List.singleton_append, List.dropWhile_cons_of_neg (by decide)]
    simp [hunder, hscan, hall]
  · rw [List.singleton_append, List.dropWhile_cons_of_neg (by decide)]
    simp [hunder, hscan, hall]

/-- Reading a sign. -/
theorem sign_sound (s : List Char) : ∃ sign ∈ signs,
    s = sign ++ (if s.head? = some '-' ∨ s.head? = some '+' then s.tail else s) ∧
      (s.head? = some '-' ↔ sign = ['-']) := by
  by_cases hm : s.head? = some '-'
  · obtain ⟨rest, rfl⟩ := List.head?_eq_some_iff.1 hm
    exact ⟨['-'], by simp [signs], by simp, by simp⟩
  by_cases hp : s.head? = some '+'
  · obtain ⟨rest, rfl⟩ := List.head?_eq_some_iff.1 hp
    exact ⟨['+'], by simp [signs], by simp, by simp⟩
  · exact ⟨[], by simp [signs], by simp [hm, hp], by simp [hm]⟩

theorem pyInt16_sound (decimal : Char → Option Nat) {s : List Char} {v : Int} (hascii : ∀ c ∈ s, c.toNat < 128)
    (h : pyInt16 decimal s = .ok v) : HexLiteral s v := by
  rw [pyInt16, map_toAscii decimal hascii] at h
  have hblank : s = s.takeWhile isCSpace ++ s.dropWhile isCSpace := List.takeWhile_append_dropWhile.symm
  obtain ⟨sign, hs, hsign, hneg⟩ := sign_sound (s.dropWhile isCSpace)
  generalize s.dropWhile isCSpace = number at h hblank hsign hneg
  simp only at h
  generalize (if number.head? = some '-' ∨ number.head? = some '+' then number.tail else number) = unsigned at h hsign
  obtain ⟨radix, hr, hradix⟩ := skipRadix_sound unsigned
  generalize skipRadix unsigned = digits at h hradix
  by_cases hu : digits.head? = some '_'
  · rw [if_pos hu] at h
    cases h
  rw [if_neg hu] at h
  cases hscan : scanDigits false digits with
  | none => rw [hscan] at h; cases h
  | some p =>
    obtain ⟨ds, after⟩ := p
    rw [hscan] at h
    cases ds with
    | nil => cases h
    | cons d ds =>
      simp only at h
      by_cases ha : after.all isCSpace = true
      · rw [if_pos ha] at h
        rcases scanDigits_sound hscan with ⟨-, hnil, -⟩ | ⟨body, hd, hbody | ⟨-, hbody⟩⟩
        · cases hnil
        · have hb : ∀ c ∈ s.takeWhile isCSpace, isCSpace c = true := fun c hc => List.mem_takeWhile_imp hc
          have hlit := HexLiteral.mk hb hs hr hd (List.all_eq_true.1 ha)
          rw [← hbody, ← hradix, ← hsign, ← hblank] at hlit
          simp only [hneg] at h
          cases h
          exact hlit
        · rw [hbody] at hu
          exact absurd rfl hu
      · rw [if_neg ha] at h
        cases h

/-- **`int(s, 16)` accepts exactly the literals**, and returns what they spell. -/
theorem pyInt16_iff (decimal : Char → Option Nat) {s : List Char} (hascii : ∀ c ∈ s, c.toNat < 128) (v : Int) :
    pyInt16 decimal s = .ok v ↔ HexLiteral s v :=
  ⟨pyInt16_sound decimal hascii, fun h => pyInt16_literal decimal h hascii⟩

end NuttyNios
