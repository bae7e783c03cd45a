import Mathlib
/-!
# A flag handshake over three cells

A producer stores a new version of three cells and raises a flag, all in one step, at any time. A
consumer polls the flag; when it is up it takes the cells one after the other, works, and only then
lowers the flag. Versions are numbered from 1; 0 is what the cells hold at first.

Two things are asked of it: that a round takes one version of the cells (`Round.Whole`), and that
at the top of the loop a lowered flag means that the newest version was taken (`Kept`). Neither
holds for all interleavings. `Steady` and `Fresh` are what keeps them as long as no store comes
while the cells are being taken, respectively before the flag is lowered; `Late` and `Overdue` are
the marks a store at such a time leaves until the property fails. `Hazard` is what the two have in
common.
-/

namespace Handshake

/-- Where the consumer is: at the top of its loop, about to look at the flag, about to take a
cell, or working. -/
inductive Phase
  | top
  | poll
  | first
  | second
  | third
  | busy
deriving DecidableEq

/-- Between the first and the last cell. -/
def Phase.taking : Phase → Bool
  | .second | .third => true
  | _ => false

/-- Between the first cell and the lowering of the flag. -/
def Phase.serving : Phase → Bool
  | .second | .third | .busy => true
  | _ => false

/-- The versions a round took. -/
structure Round where
  a : Nat
  b : Nat
  c : Nat

structure State where
  phase : Phase
  stored : Nat
  ready : Bool
  a : Nat
  b : Nat
  rounds : List Round

def State.store (s : State) : State := { s with stored := s.stored + 1, ready := true }

/-- A step of the consumer. -/
inductive Next (s : State) : State → Prop
  | work : Next s s
  | leave : s.phase = .top → Next s { s with phase := .poll }
  | enter : s.phase = .poll → s.ready = true → Next s { s with phase := .first }
  | again : s.phase = .poll → s.ready = false → Next s { s with phase := .top }
  | first : s.phase = .first → Next s { s with a := s.stored, phase := .second }
  | second : s.phase = .second → Next s { s with b := s.stored, phase := .third }
  | third : s.phase = .third → Next s { s with rounds := s.rounds ++ [⟨s.a, s.b, s.stored⟩], phase := .busy }
  | clear : s.phase = .busy → Next s { s with ready := false, phase := .top }

variable {s s' : State}

/-- The first cell of a round is never newer than what is stored, nor older than those before. -/
structure Bounded (s : State) : Prop where
  a_le : s.a ≤ s.stored
  rounds_le : ∀ r ∈ s.rounds, r.a ≤ s.a

theorem Bounded.store (h : Bounded s) : Bounded s.store := ⟨Nat.le_succ_of_le h.a_le, h.rounds_le⟩

theorem Bounded.next (h : Bounded s) (hn : Next s s') : Bounded s' := by
  cases hn with
  | first => exact ⟨Nat.le_refl _, fun r hr => Nat.le_trans (h.rounds_le r hr) h.a_le⟩
  | third =>
    refine ⟨h.a_le, fun r hr => ?_⟩
    rcases List.mem_append.1 hr with hr | hr
    · exact h.rounds_le r hr
    · exact Nat.le_of_eq (by rw [List.mem_singleton.1 hr])
  | _ => exact ⟨h.a_le, h.rounds_le⟩

/-! ## Rounds of one version -/

def Round.Whole (r : Round) : Prop := r.a = r.b ∧ r.b = r.c

def Whole (s : State) : Prop := ∀ r ∈ s.rounds, r.Whole

/-- The cells taken so far in this round are of the version that is stored. -/
def Steady (s : State) : Prop := Whole s ∧ match s.phase with
  | .second => s.a = s.stored
  | .third => s.a = s.stored ∧ s.b = s.stored
  | _ => True

theorem Steady.store (h : Steady s) (hp : ¬ s.phase.taking) : Steady s.store := by
  obtain ⟨hw, hs⟩ := h
  refine ⟨hw, ?_⟩
  unfold State.store
  cases hph : s.phase <;> simp_all [Phase.taking]

theorem Steady.next (h : Steady s) (hn : Next s s') : Steady s' := by
  obtain ⟨hw, hs⟩ := h
  cases hn with
  | work => exact ⟨hw, hs⟩
  | first => exact ⟨hw, rfl⟩
  | second hp =>
    rw [hp] at hs
    exact ⟨hw, hs, rfl⟩
  | third hp =>
    rw [hp] at hs
    refine ⟨fun r hr => ?_, trivial⟩
    rcases List.mem_append.1 hr with hr | hr
    · exact hw r hr
    · rw [List.mem_singleton.1 hr]
      exact ⟨hs.1.trans hs.2.symm, hs.2⟩
  | _ => exact ⟨hw, trivial⟩

/-- A newer version was stored while the cells were being taken. -/
def Late (s : State) : Prop := s.phase.taking ∧ s.a < s.stored

theorem Late.of_store (h : Bounded s) (hp : s.phase.taking) : Late s.store := ⟨hp, Nat.lt_succ_of_le h.a_le⟩

theorem Late.store (h : Late s) : Late s.store := ⟨h.1, Nat.lt_succ_of_lt h.2⟩

/-- Then the round cannot be whole. -/
theorem Late.next (h : Late s) (hn : Next s s') : Late s' ∨ ¬ Whole s' := by
  obtain ⟨hp, hlt⟩ := h
  cases hn with
  | work => exact .inl ⟨hp, hlt⟩
  | second => exact .inl ⟨rfl, hlt⟩
  | third =>
    refine .inr fun hw => ?_
    obtain ⟨hab, hbc⟩ := hw ⟨s.a, s.b, s.stored⟩ (List.mem_append_right _ (List.mem_singleton.2 rfl))
    simp only at hab hbc
    omega
  | leave hq | enter hq | again hq | first hq | clear hq =>
    rw [hq] at hp
    cases hp

/-! ## The newest version -/

/-- Every cell of the newest version was taken, if there is one. -/
def Served (s : State) : Prop := s.stored = 0 ∨
  (∃ r ∈ s.rounds, r.a = s.stored) ∧ (∃ r ∈ s.rounds, r.b = s.stored) ∧ ∃ r ∈ s.rounds, r.c = s.stored

/-- At the top of the loop, a lowered flag means that nothing is left to take. -/
def Kept (s : State) : Prop := s.phase = .top → s.ready = false → Served s

/-- The round in progress is about the newest version. -/
def Fresh (s : State) : Prop := match s.phase with
  | .top | .poll => s.ready = false → Served s
  | .first => True
  | .second => s.a = s.stored
  | .third => s.a = s.stored ∧ s.b = s.stored
  | .busy => ⟨s.stored, s.stored, s.stored⟩ ∈ s.rounds

theorem Fresh.kept (h : Fresh s) : Kept s := by
  intro hp
  unfold Fresh at h
  rw [hp] at h
  exact h

/-- While no round is in progress, the raised flag is all that is needed. -/
theorem Fresh.of_store (hp : ¬ s.phase.serving) : Fresh s.store := by
  unfold Fresh State.store
  cases hph : s.phase <;> simp_all [Phase.serving]

theorem Fresh.next (h : Fresh s) (hn : Next s s') : Fresh s' := by
  unfold Fresh at h
  cases hn with
  | work => exact h
  | leave hp | again hp =>
    rw [hp] at h
    exact h
  | enter => trivial
  | first => exact rfl
  | second hp =>
    rw [hp] at h
    exact ⟨h, rfl⟩
  | third hp =>
    rw [hp] at h
    refine List.mem_append_right _ (List.mem_singleton.2 ?_)
    rw [h.1, h.2]
  | clear hp =>
    rw [hp] at h
    intro _
    exact .inr ⟨⟨_, h, rfl⟩, ⟨_, h, rfl⟩, ⟨_, h, rfl⟩⟩

/-- A newer version was stored before the flag was lowered. -/
def Overdue (s : State) : Prop := s.phase.serving ∧ s.a < s.stored

theorem Overdue.of_store (h : Bounded s) (hp : s.phase.serving) : Overdue s.store :=
  ⟨hp, Nat.lt_succ_of_le h.a_le⟩

theorem Overdue.store (h : Overdue s) : Overdue s.store := ⟨h.1, Nat.lt_succ_of_lt h.2⟩

/-- Then lowering the flag loses it. -/
theorem Overdue.next (h : Overdue s) (hb : Bounded s) (hn : Next s s') : Overdue s' ∨ ¬ Kept s' := by
  obtain ⟨hp, hlt⟩ := h
  cases hn with
  | work => exact .inl ⟨hp, hlt⟩
  | second => exact .inl ⟨rfl, hlt⟩
  | third => exact .inl ⟨rfl, hlt⟩
  | clear =>
    refine .inr fun hk => ?_
    rcases hk rfl rfl with h0 | ⟨⟨r, hr, he⟩, -⟩
    · simp only at h0
      omega
    · have := hb.rounds_le r hr
      simp only at he
      omega
  | leave hq | enter hq | again hq | first hq =>
    rw [hq] at hp
    cases hp

/-! ## Stores at the wrong time -/

/-- What a store in a `bad` phase has to do with a property `K`: `I`, which gives `K`, survives every
other step, and such a store leaves the mark `J`, which stays until the phase is over and `K` broken. -/
structure Hazard (bad : Phase → Bool) (I J K : State → Prop) : Prop where
  gives : ∀ {s}, I s → K s
  store : ∀ {s}, I s → ¬ bad s.phase → I s.store
  next : ∀ {s s'}, I s → Next s s' → I s'
  mark_bad : ∀ {s}, J s → bad s.phase
  mark_of_store : ∀ {s}, Bounded s → bad s.phase → J s.store
  mark_store : ∀ {s}, J s → J s.store
  mark_next : ∀ {s s'}, J s → Bounded s → Next s s' → J s' ∨ ¬ K s'

theorem whole_hazard : Hazard Phase.taking Steady Late Whole where
  gives h := h.1
  store h hp := h.store hp
  next h hn := h.next hn
  mark_bad h := h.1
  mark_of_store hb hp := Late.of_store hb hp
  mark_store h := h.store
  mark_next h _ hn := h.next hn

theorem kept_hazard : Hazard Phase.serving Fresh Overdue Kept where
  gives h := h.kept
  store _ hp := Fresh.of_store hp
  next h hn := h.next hn
  mark_bad h := h.1
  mark_of_store hb hp := Overdue.of_store hb hp
  mark_store h := h.store
  mark_next h hb hn := h.next hb hn

end Handshake
