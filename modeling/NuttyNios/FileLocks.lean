import NuttyNios.Files
/-!
# Locked devices

`alt_fd_lock` wants to grant a lock if nobody else has the device open, and `open` to fail on a device that
is locked. The second holds (`lock_keeps`). The first does not: the loop of `alt_fd_lock` ends before
`alt_max_fd`, so one other descriptor may keep the device, and no more than one (`lock_shared`). No descriptor
is handed out twice without a `close` in between (`opened_once`).
-/

namespace NuttyNios
namespace Files
variable {δ : Type} [DecidableEq δ] {find : List UInt8 → Option δ}

/-! ## What holds of the descriptors at any time -/

omit [DecidableEq δ] in
theorem ok_reset (null : δ) : Ok (reset null) := by
  have hflags : ∀ i : Fin ALT_MAX_FD, ((reset null).list i).fdFlags = 0#32 := by
    intro i
    unfold reset
    simp only
    split <;> rfl
  have hnolock : ∀ i, ¬ Locked (reset null) i := fun i hl => hl (by rw [hflags, BitVec.zero_and])
  refine ⟨?_, ?_, .inl rfl, ?_, ?_, fun i j k hl => absurd hl (hnolock i)⟩
  · intro i hi
    simp [reset, hi]
  · intro i hi hdev
    simp [reset, Nat.not_le.2 hi] at hdev
  · intro i _
    rw [hflags, BitVec.zero_and]
  · intro _ i
    rw [hflags, BitVec.zero_and]

omit [DecidableEq δ] in
theorem Ok.free_again {s : Files δ} (h : Ok s) {i : Fin ALT_MAX_FD} (hi : 2 < i.val) {m : Int} (hm : Grows s.maxFd m) :
    Ok (s.put i ⟨none, 0#32⟩ m) :=
  h.update hm (fun hle => absurd hi (Nat.not_lt.2 hle)) (fun _ hd => absurd rfl hd) (fun _ => BitVec.zero_and)
    (fun _ => BitVec.zero_and) (.inr (.inl rfl)) fun hl => absurd BitVec.zero_and hl

omit [DecidableEq δ] in
theorem Ok.take {s : Files δ} (h : Ok s) {i : Fin ALT_MAX_FD} {d : δ} (flags : BitVec 32) {m : Int}
    (hm : Grows s.maxFd m)
    (h3 : 3 ≤ m) (hi : 2 < i.val → (i.val : Int) ≤ m) (hfree : ∀ j, Locked s j → (s.list j).dev ≠ some d) :
    Ok (s.put i ⟨some d, opened flags⟩ m) :=
  h.update hm (fun _ => Option.some_ne_none d) (fun hlt _ => hi hlt) (fun hn => by cases hn) (fun hm' => by omega)
    (.inr (.inr hfree)) fun hl => absurd (opened_excl flags) hl

omit [DecidableEq δ] in
/-- The lock is granted only if all others that have the device are `alt_max_fd`. -/
theorem Ok.lock {s : Files δ} (h : Ok s) {i : Fin ALT_MAX_FD} (hdev : (s.list i).fdFlags &&& ALT_FD_DEV ≠ 0#32)
    (hj : ∀ j, j ≠ i → (s.list j).dev = (s.list i).dev → s.maxFd ≤ j.val) :
    Ok (s.put i ⟨(s.list i).dev, (s.list i).fdFlags ||| ALT_FD_EXCL⟩ s.maxFd) := by
  have hdevne : (s.list i).dev ≠ none := fun hnone => hdev (and_of_mask (h.free i hnone) (by decide))
  have h3 : 3 ≤ s.maxFd := by
    rcases h.maxFd with hm | hm
    · exact absurd (h.unopened hm i) hdev
    · exact hm.1
  have hmax : ∀ x, x ≠ i → (s.list x).dev = (s.list i).dev → (x.val : Int) = s.maxFd := by
    intro x hx hsame
    have hge := hj x hx hsame
    exact le_antisymm (h.high x (by omega) (hsame ▸ hdevne)) hge
  refine h.update (.inl rfl) (h.stdio i) (h.high i) (fun hnone => absurd hnone hdevne) (fun hm => by omega) (.inl rfl)
    fun _ => ⟨rfl, .inr ?_⟩
  intro j k hj hk hsj hsk
  have := hmax j hj hsj
  have := hmax k hk hsk
  omega

omit [DecidableEq δ] in
theorem Change.ok {s s' : Files δ} {c : FileCall} {r : FileResult} (h : Ok s) (hc : Change find s c s' r) : Ok s' := by
  have hmask : ∀ {f x : BitVec 32} {i}, ALT_FD_FLAGS_MASK &&& x = x →
      f &&& ALT_FD_FLAGS_MASK = (s.list i).fdFlags &&& ALT_FD_FLAGS_MASK → f &&& x = (s.list i).fdFlags &&& x := by
    intro f x i hx hf
    rw [← hx, ← BitVec.and_assoc, hf, BitVec.and_assoc]
  cases hc with
  | stays => exact h
  | fails file flags status i e hnone hi => exact h.free_again hi (h.grows hi)
  | opens file flags status i d hd hnone hi hfree =>
    exact h.take flags (h.grows hi) (by have := le_max_right s.maxFd i.val; omega) (fun _ => le_max_right ..) hfree
  | closes i rval r hi hr => exact h.free_again hi (.inl rfl)
  | sets i flags f hf =>
    refine h.update (.inl rfl) (h.stdio i) (h.high i) (fun hd => hf.trans (h.free i hd)) ?_ (.inl rfl) ?_
    · exact fun hm' => (hmask (x := ALT_FD_DEV) (by decide) hf).trans (h.unopened hm' i)
    · exact fun hl => ⟨rfl, .inl fun h0 => hl ((hmask (x := ALT_FD_EXCL) (by decide) hf).trans h0)⟩
  | locks i rc hdev hj => exact h.lock hdev hj
  | unlocks i rc =>
    refine h.update (.inl rfl) (h.stdio i) (h.high i) ?_ ?_ (.inl rfl) ?_
    · intro hnone
      rw [BitVec.and_assoc, BitVec.and_comm _ ALT_FD_FLAGS_MASK, ← BitVec.and_assoc, h.free i hnone, BitVec.zero_and]
    · intro hm
      rw [BitVec.and_assoc, BitVec.and_comm _ ALT_FD_DEV, ← BitVec.and_assoc, h.unopened hm i, BitVec.zero_and]
    · intro hl
      rw [BitVec.and_assoc, show ~~~ALT_FD_EXCL &&& ALT_FD_EXCL = 0#32 from by decide, BitVec.and_zero] at hl
      exact absurd rfl hl

theorem ok_run {s s' : Files δ} {cs : List FileCall} {rs : List FileResult} (h : Ok s)
    (hr : (files find).run s cs = .ok (s', rs)) : Ok s' :=
  Machine.run_inv (I := Ok) (fun _ _ _ _ hs hstep => (files_change hs hstep).ok hs) h hr

/-! ## Redirecting standard input, output and error -/

/-- The descriptor that `open` found is free again, and `fd` has its device. -/
theorem openFd_ok {s s' : Files δ} (h : Ok s) {fd : Fin ALT_MAX_FD} (hfd : fd.val ≤ 2) {name : List UInt8}
    {flags : BitVec 32}
    {status : Int} (ho : s.openFd find fd name flags status = .ok s') : Ok s' := by
  obtain ⟨⟨s₁, r⟩, hopen, ho⟩ := bind_ok_iff.1 ho
  rcases altOpen_cases h find name flags status with ⟨e, he⟩ | ⟨i, e, he, -, hi⟩ | ⟨i, d, he, hd, hnone, hi, hfree⟩
  · cases hopen.symm.trans he
    cases ho
    exact h
  · cases hopen.symm.trans he
    cases ho
    exact h.free_again hi (h.grows hi)
  · cases hopen.symm.trans he
    cases ho
    have hne : fd ≠ i := fun hfi => absurd (hfi ▸ hfd) (Nat.not_le.2 hi)
    have hfinal : (⟨Function.update (s.put i ⟨some d, opened flags⟩ (max s.maxFd i.val)).list fd
        ((s.put i ⟨some d, opened flags⟩ (max s.maxFd i.val)).list i), max s.maxFd i.val⟩ : Files δ).releaseFd i =
        (s.put i ⟨none, 0#32⟩ (max s.maxFd i.val)).put fd ⟨some d, opened flags⟩ (max s.maxFd i.val) := by
      rw [put_self, releaseFd_eq _ hi]
      simp only [put, Function.update_comm hne, Function.update_idem]
    refine hfinal ▸ (h.free_again hi (h.grows hi)).take flags (.inl rfl) ?_
      (fun hlt => absurd hfd (Nat.not_le.2 hlt)) ?_
    · have := le_max_right s.maxFd i.val
      show 3 ≤ max s.maxFd i.val
      omega
    · intro j hl
      by_cases hji : j = i
      · rw [hji, put_self]
        exact fun h0 => by cases h0
      · rw [Locked, put_of_ne hji] at hl
        rw [put_of_ne hji]
        exact hfree j hl

theorem ok_redirect {null : δ} {s : Files δ} {stdoutDev stdinDev stderrDev : List UInt8} {status : Int × Int × Int}
    (h : (reset null).ioRedirect find stdoutDev stdinDev stderrDev status = .ok s) : Ok s := by
  obtain ⟨s₁, hout, h⟩ := bind_ok_iff.1 h
  obtain ⟨s₂, hin, herr⟩ := bind_ok_iff.1 h
  exact openFd_ok (openFd_ok (openFd_ok (ok_reset null) (by decide) hout) (by decide) hin) (by decide) herr

/-- The program has made the calls `cs` since `alt_io_redirect`. -/
def Called (find : List UInt8 → Option δ) (s : Files δ) (cs : List FileCall) : Prop :=
  ∃ null s₀ stdoutDev stdinDev stderrDev status rs,
    (reset null).ioRedirect find stdoutDev stdinDev stderrDev status = .ok s₀ ∧ (files find).run s₀ cs = .ok (s, rs)

theorem Called.ok {s : Files δ} {cs : List FileCall} (h : Called find s cs) : Ok s := by
  obtain ⟨_, _, _, _, _, _, _, hio, hr⟩ := h
  exact ok_run (ok_redirect hio) hr

/-! ## Locks -/

/-- Who has a locked device: the descriptor that locked it and one other at most. -/
theorem lock_shared {s : Files δ} {cs : List FileCall} (h : Called find s cs) {i j k : Fin ALT_MAX_FD} (hl : Locked s i)
    (hj : j ≠ i) (hk : k ≠ i) (hsj : (s.list j).dev = (s.list i).dev) (hsk : (s.list k).dev = (s.list i).dev) : j = k :=
  h.ok.shared i j k hl hj hk hsj hsk

/-- Opened twice, then locked: the lock is granted, and the second one keeps the device. -/
theorem lock_shared_two : ∃ (s : Files Nat) (cs : List FileCall), Called (fun name => some name.length) s cs ∧
    Locked s 3 ∧ (s.list 4).dev = (s.list 3).dev ∧ ∀ k, k ≠ 3 → (s.list k).dev = (s.list 3).dev → 4 = k :=
  have h : Called (fun name => some name.length) _ [.openFile [0] 0#32 0, .openFile [0] 0#32 0, .ioctl 3 .excl 0] :=
    ⟨0, _, [], [], [], (0, 0, 0), _, rfl, rfl⟩
  ⟨_, _, h, by decide, by decide, fun _ hk hdev => lock_shared h (by decide) (by decide) hk (by decide) hdev⟩

/-- `i` has locked the device `d`, and only `owners` have it open. -/
structure Kept (i : Fin ALT_MAX_FD) (d : δ) (owners : Fin ALT_MAX_FD → Prop) (s : Files δ) : Prop where
  locked : Locked s i
  dev : (s.list i).dev = some d
  others : ∀ j, (s.list j).dev = some d → owners j

omit [DecidableEq δ] in
theorem Kept.put {i j : Fin ALT_MAX_FD} {d : δ} {owners : Fin ALT_MAX_FD → Prop} {s : Files δ} (h : Kept i d owners s)
    {e : Fd δ} (m : Int) (hi : j = i → e.dev = some d ∧ e.fdFlags &&& ALT_FD_EXCL ≠ 0#32)
    (he : e.dev = some d → (s.list j).dev = some d) : Kept i d owners (s.put j e m) := by
  by_cases hij : i = j
  · obtain ⟨hdev, hexcl⟩ := hi hij.symm
    refine ⟨by rw [Locked, hij, put_self]; exact hexcl, by rw [hij, put_self]; exact hdev, fun x hx => ?_⟩
    by_cases hxj : x = j
    · exact hxj ▸ h.others j (hij ▸ h.dev)
    · exact h.others x (put_of_ne hxj e m ▸ hx)
  · refine ⟨by rw [Locked, put_of_ne hij]; exact h.locked, by rw [put_of_ne hij]; exact h.dev, fun x hx => ?_⟩
    by_cases hxj : x = j
    · rw [hxj, put_self] at hx
      exact hxj ▸ h.others j (he hx)
    · exact h.others x (put_of_ne hxj e m ▸ hx)

omit [DecidableEq δ] in
/-- Only its own `close` and `TIOCNXCL` end a lock. -/
theorem Change.kept {s s' : Files δ} {c : FileCall} {r : FileResult} (hc : Change find s c s' r) {i : Fin ALT_MAX_FD}
    {d : δ}
    {owners : Fin ALT_MAX_FD → Prop} (h : Kept i d owners s) (hclose : ∀ rval, c ≠ .close i.val rval)
    (hunlock : ∀ rc, c ≠ .ioctl i.val .nxcl rc) : Kept i d owners s' := by
  have hne : ∀ {j}, (s.list j).dev = none → j ≠ i := fun hnone hji => by
    rw [hji, h.dev] at hnone
    cases hnone
  cases hc with
  | stays => exact h
  | fails file flags status j e hnone hj => exact h.put _ (fun hji => absurd hji (hne hnone)) fun h0 => by cases h0
  | opens file flags status j d' hd hnone hj hfree =>
    refine h.put _ (fun hji => absurd hji (hne hnone)) fun hsame => ?_
    exact absurd (h.dev.trans hsame.symm) (hfree i h.locked)
  | closes j rval r hj hr =>
    refine h.put _ (fun hji => absurd (hji ▸ rfl) (hclose rval)) fun h0 => by cases h0
  | sets j flags f hf =>
    refine h.put _ (fun hji => ⟨hji ▸ h.dev, fun h0 => h.locked ?_⟩) id
    rw [← hji, ← h0, show ALT_FD_EXCL = ALT_FD_FLAGS_MASK &&& ALT_FD_EXCL from by decide, ← BitVec.and_assoc, ← hf,
      BitVec.and_assoc]
  | locks j rc hdev hj =>
    refine h.put _ (fun hji => ⟨hji ▸ h.dev, fun h0 => ?_⟩) id
    rw [BitVec.and_or_distrib_right] at h0
    exact absurd (BitVec.or_eq_zero_iff.1 h0).2 (by decide)
  | unlocks j rc => exact h.put _ (fun hji => absurd (hji ▸ rfl) (hunlock rc)) id

theorem run_kept {s s' : Files δ} {cs : List FileCall} {rs : List FileResult} {i : Fin ALT_MAX_FD} {d : δ}
    {owners : Fin ALT_MAX_FD → Prop} (hok : Ok s) (h : Kept i d owners s) (hclose : ∀ rval, .close i.val rval ∉ cs)
    (hunlock : ∀ rc, .ioctl i.val .nxcl rc ∉ cs) (hr : (files find).run s cs = .ok (s', rs)) :
    Ok s' ∧ Kept i d owners s' := by
  refine Machine.run_inv_of (I := fun s => Ok s ∧ Kept i d owners s)
    (A := fun c => (∀ rval, c ≠ .close i.val rval) ∧ ∀ rc, c ≠ .ioctl i.val .nxcl rc) ?_ ⟨hok, h⟩ ?_ hr
  · intro s c s' r hs hA hstep
    have hc := files_change hs.1 hstep
    exact ⟨hc.ok hs.1, hc.kept hs.2 hA.1 hA.2⟩
  · exact fun c hc => ⟨fun rval h0 => hclose rval (h0 ▸ hc), fun rc h0 => hunlock rc (h0 ▸ hc)⟩

/-- **A lock keeps others out**: until the descriptor that locked a device is closed or unlocks it, it stays
locked, every `open` of the device fails, and no descriptor gets it that did not have it before. -/
theorem lock_keeps {s s' : Files δ} {cs₀ cs : List FileCall} {rs : List FileResult} (h : Called find s cs₀)
    {i : Fin ALT_MAX_FD} {d : δ} (hl : Locked s i) (hd : (s.list i).dev = some d)
    (hclose : ∀ rval, .close i.val rval ∉ cs)
    (hunlock : ∀ rc, .ioctl i.val .nxcl rc ∉ cs) (hr : (files find).run s cs = .ok (s', rs)) :
    Locked s' i ∧ (s'.list i).dev = some d ∧ (∀ j, (s'.list j).dev = some d → (s.list j).dev = some d) ∧
      ∀ (k : Nat) (file : List UInt8) (flags : BitVec 32) (status : Int), cs[k]? = some (.openFile file flags status) →
        find file = some d → ∃ e, rs[k]? = some (.error e) := by
  have hkept : Kept i d (fun j => (s.list j).dev = some d) s := ⟨hl, hd, fun _ hj => hj⟩
  have hend := (run_kept h.ok hkept hclose hunlock hr).2
  refine ⟨hend.locked, hend.dev, hend.others, fun k file flags status hk hfile => ?_⟩
  obtain ⟨s₁, rs₁, s₂, r, hr₁, hstep, hrk⟩ := Machine.run_getElem hr hk
  -- the lock still holds when the call is made
  have hthen := run_kept h.ok hkept (fun rval hin => hclose rval (List.mem_of_mem_take hin))
    (fun rc hin => hunlock rc (List.mem_of_mem_take hin)) hr₁
  rw [hrk]
  cases files_change hthen.1 hstep with
  | stays c r hr ho =>
    obtain ⟨e, rfl⟩ := ho file flags status rfl
    exact ⟨e, rfl⟩
  | fails file flags status j e hnone hj => exact ⟨e, rfl⟩
  | opens file flags status j d' hd' hnone hj hfree =>
    cases hd'.symm.trans hfile
    exact absurd hthen.2.dev (hfree i hthen.2.locked)

/-- The lock of descriptor 3, while 4 is closed. -/
theorem lock_keeps_close : ∃ (s s' : Files Nat) (rs : List FileResult),
    Called (fun name => some name.length) s [.openFile [0] 0#32 0, .openFile [0] 0#32 0, .ioctl 3 .excl 0] ∧
    (files fun name => some name.length).run s [.close 4 0, .openFile [0] 0#32 0] = .ok (s', rs) ∧
    Locked s' 3 ∧ ∃ e, rs[1]? = some (.error e) :=
  have hclose : ∀ rval, FileCall.close 3 rval ∉ [.close 4 0, .openFile [0] 0#32 0] := by simp
  have h : Called (fun name => some name.length) _ [.openFile [0] 0#32 0, .openFile [0] 0#32 0, .ioctl 3 .excl 0] :=
    ⟨0, _, [], [], [], (0, 0, 0), _, rfl, rfl⟩
  have hkeeps := lock_keeps (i := 3) (d := 1) h (by decide) (by decide) hclose (fun rc => by simp) rfl
  ⟨_, _, _, h, rfl, hkeeps.1, hkeeps.2.2.2 1 [0] 0#32 0 rfl rfl⟩

/-! ## Descriptors -/

omit [DecidableEq δ] in
/-- Only its own `close` frees a descriptor. -/
theorem Change.held {s s' : Files δ} {c : FileCall} {r : FileResult} (hc : Change find s c s' r) {i : Fin ALT_MAX_FD}
    {d : δ}
    (h : (s.list i).dev = some d) (hclose : ∀ rval, c ≠ .close i.val rval) : (s'.list i).dev = some d := by
  have hput : ∀ {j : Fin ALT_MAX_FD} {e : Fd δ} {m}, (i = j → e.dev = some d) →
      ((s.put j e m).list i).dev = some d := by
    intro j e m he
    by_cases hij : i = j
    · rw [hij, put_self]
      exact he hij
    · rw [put_of_ne hij]
      exact h
  have hfree : ∀ {j}, (s.list j).dev = none → i ≠ j := fun hnone hij => by
    rw [← hij, h] at hnone
    cases hnone
  cases hc with
  | stays => exact h
  | fails file flags status j e hnone hj => exact hput fun hij => absurd hij (hfree hnone)
  | opens file flags status j d' hd hnone hj hlock => exact hput fun hij => absurd hij (hfree hnone)
  | closes j rval r hj hr => exact hput fun hij => absurd (hij ▸ rfl) (hclose rval)
  | sets j flags f hf => exact hput fun hij => hij ▸ h
  | locks j rc hdev hj => exact hput fun hij => hij ▸ h
  | unlocks j rc => exact hput fun hij => hij ▸ h

omit [DecidableEq δ] in
theorem Change.handed {s s' : Files δ} {c : FileCall} {r : FileResult} (hc : Change find s c s' r) {i : Fin ALT_MAX_FD}
    (hr : r = .ok (some i)) : (s.list i).dev = none ∧ ∃ d, (s'.list i).dev = some d := by
  cases hc with
  | stays c r hno ho => exact absurd hr (hno i)
  | fails => cases hr
  | opens file flags status j d hd hnone hj hfree =>
    cases hr
    exact ⟨hnone, d, by rw [put_self]⟩
  | closes j rval r hj hno => exact absurd hr (hno i)
  | sets => cases hr
  | locks => cases hr
  | unlocks => cases hr

/-- **No descriptor twice**: between two calls that return the same descriptor there is a `close` of it. -/
theorem opened_once {s s' : Files δ} {cs₀ cs : List FileCall} {rs : List FileResult} (h : Called find s cs₀)
    (hr : (files find).run s cs = .ok (s', rs)) {i : Fin ALT_MAX_FD} {k l : Nat} (hkl : k < l)
    (hk : rs[k]? = some (.ok (some i))) (hl : rs[l]? = some (.ok (some i))) :
    ∃ m rval, k < m ∧ m < l ∧ cs[m]? = some (.close i.val rval) := by
  have hlen := Machine.run_length hr
  have hk' := (List.getElem?_eq_some_iff.1 hk).1
  have hl' := (List.getElem?_eq_some_iff.1 hl).1
  obtain ⟨s₁, rs₁, s₂, r, s₃, rs₃, s₄, r', hr₁, hs₁, hr₂, hs₃, hrk, hrl⟩ := Machine.run_between hr hkl
    (List.getElem?_eq_getElem (hlen ▸ hk')) (List.getElem?_eq_getElem (hlen ▸ hl'))
  cases hk.symm.trans hrk
  cases hl.symm.trans hrl
  have hok₁ := ok_run h.ok hr₁
  have hc₁ := files_change hok₁ hs₁
  obtain ⟨-, d, hdev⟩ := hc₁.handed rfl
  by_contra hno
  -- without a `close` the descriptor has its device when it is handed out again
  have hheld : Ok s₃ ∧ (s₃.list i).dev = some d := by
    refine Machine.run_inv_of (I := fun s => Ok s ∧ (s.list i).dev = some d)
      (A := fun c => ∀ rval, c ≠ .close i.val rval)
      ?_ ⟨hc₁.ok hok₁, hdev⟩ ?_ hr₂
    · intro s c s' r hs hA hstep
      have hc := files_change hs.1 hstep
      exact ⟨hc.ok hs.1, hc.held hs.2 hA⟩
    · rintro c hc rval rfl
      obtain ⟨m, hm, hcm⟩ := List.getElem_of_mem hc
      rw [List.length_drop, List.length_take] at hm
      rw [List.getElem_drop, List.getElem_take] at hcm
      exact hno ⟨k + 1 + m, rval, by omega, by omega, hcm ▸ List.getElem?_eq_getElem (by omega)⟩
  obtain ⟨hnone, -⟩ := (files_change hheld.1 hs₃).handed rfl
  rw [hheld.2] at hnone
  cases hnone

/-- Descriptor 3 is opened, closed and opened again. -/
theorem opened_once_again : ∃ (s s' : Files Nat) (rs : List FileResult),
    Called (fun name => some name.length) s [] ∧
    (files fun name => some name.length).run s [.openFile [0] 0#32 0, .close 3 0, .openFile [0] 0#32 0] = .ok (s', rs) ∧
    ∃ m rval, 0 < m ∧ m < 2 ∧
      ([.openFile [0] 0#32 0, .close 3 0, .openFile [0] 0#32 0] : List FileCall)[m]? = some (.close 3 rval) :=
  have h : Called (fun name => some name.length) _ [] := ⟨0, _, [], [], [], (0, 0, 0), _, rfl, rfl⟩
  ⟨_, _, _, h, rfl, opened_once (i := 3) (k := 0) (l := 2) h rfl (by decide) rfl rfl⟩

end Files
end NuttyNios
