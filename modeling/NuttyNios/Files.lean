import NuttyNios.Lib.Machine
/-!
# File descriptors (firmware02_bsp/HAL/src: alt_dev.c, alt_get_fd.c, alt_release_fd.c, alt_open.c, alt_close.c,
alt_fcntl.c, alt_ioctl.c, alt_fd_lock.c, alt_fd_unlock.c, alt_io_redirect.c)

| here | there |
| --- | --- |
| `Files`        | `alt_fd_list` and `alt_max_fd` |
| `getFd`        | `alt_get_fd` |
| `releaseFd`    | `alt_release_fd` |
| `fileLocked`   | `alt_file_locked` |
| `altOpen`      | `ALT_OPEN` |
| `altClose`     | `ALT_CLOSE` |
| `setfl`        | `ALT_FCNTL` with `F_SETFL` |
| `fdLock`       | `alt_fd_lock` |
| `fdUnlock`     | `alt_fd_unlock` |
| `ioctl`        | `ALT_IOCTL` |
| `openFd`       | `alt_open_fd` |
| `ioRedirect`   | `alt_io_redirect` |

`find` is `alt_find_dev` on the devices that are registered; no file system is. What a device's own `open`,
`close` and `ioctl` return is given with the call. `files_change` says all that one call can do.
-/

namespace NuttyNios

def ALT_MAX_FD : Nat := 32

instance : NeZero ALT_MAX_FD := ⟨by decide⟩

def ALT_FD_EXCL : BitVec 32 := 0x80000000#32
def ALT_FD_DEV : BitVec 32 := 0x40000000#32
def ALT_FD_FLAGS_MASK : BitVec 32 := ALT_FD_EXCL ||| ALT_FD_DEV
def O_RDONLY : BitVec 32 := 0#32
def O_WRONLY : BitVec 32 := 1#32
def O_APPEND : BitVec 32 := 0x8#32
def O_NONBLOCK : BitVec 32 := 0x4000#32
def ALT_FCNTL_FLAGS_MASK : BitVec 32 := O_APPEND ||| O_NONBLOCK

/-- `alt_fd`; `none` for a null pointer. -/
structure Fd (δ : Type) where
  dev : Option δ
  fdFlags : BitVec 32

structure Files (δ : Type) where
  list : Fin ALT_MAX_FD → Fd δ
  maxFd : Int

/-- The values of `errno`, the one a device returns among them. -/
inductive FileErrno
  | enodev
  | emfile
  | eacces
  | ebadfd
  | device (rval : Int)
deriving DecidableEq

/-- A null pointer or an entry outside `alt_fd_list` is read. -/
inductive FileFault
  | null
  | bounds
deriving DecidableEq

namespace Files
variable {δ : Type}

/-- Standard input, output and error are `/dev/null` at first. -/
def reset (null : δ) : Files δ := ⟨fun i => if i.val ≤ 2 then ⟨some null, 0#32⟩ else ⟨none, 0#32⟩, -1⟩

def setFlags (s : Files δ) (i : Fin ALT_MAX_FD) (flags : BitVec 32) : Files δ :=
  { s with list := Function.update s.list i ⟨(s.list i).dev, flags⟩ }

/-- The first descriptor that is free, if there is one. -/
def getFd (s : Files δ) (dev : δ) : Option (Files δ × Fin ALT_MAX_FD) :=
  match (List.finRange ALT_MAX_FD).find? fun i => (s.list i).dev.isNone with
  | some i =>
    some (⟨Function.update s.list i ⟨some dev, (s.list i).fdFlags⟩,
      if (i.val : Int) > s.maxFd then i.val else s.maxFd⟩, i)
  | none => none

def releaseFd (s : Files δ) (fd : Fin ALT_MAX_FD) : Files δ :=
  if 2 < fd.val then { s with list := Function.update s.list fd ⟨none, 0#32⟩ } else s

section
variable [DecidableEq δ]

/-- `i <= alt_max_fd` compares without sign. -/
def fileLocked (s : Files δ) (fd : Fin ALT_MAX_FD) : Except FileFault (Files δ × Bool) :=
  let s := s.setFlags fd ((s.list fd).fdFlags ||| ALT_FD_DEV)
  let maxFd := (BitVec.ofInt 32 s.maxFd).toNat
  if ∃ i : Fin ALT_MAX_FD, i.val ≤ maxFd ∧ (s.list i).dev = (s.list fd).dev ∧
      (s.list i).fdFlags &&& ALT_FD_EXCL ≠ 0#32 ∧
    i ≠ fd then .ok (s, true)
  else if maxFd < ALT_MAX_FD then .ok (s, false)
  else .error .bounds

/-- `status` is what the device's `open` returns, 0 if it has none. -/
def altOpen (find : List UInt8 → Option δ) (s : Files δ) (file : List UInt8) (flags : BitVec 32) (status : Int) :
    Except FileFault (Files δ × Except FileErrno (Fin ALT_MAX_FD)) :=
  match find file with
  | none => .ok (s, .error .enodev)
  | some dev => match s.getFd dev with
    | none => .ok (s, .error .emfile)
    | some (s, fd) => do
      let (s, locked) ← (s.setFlags fd (flags &&& ~~~ALT_FD_FLAGS_MASK)).fileLocked fd
      if locked then return (s.releaseFd fd, .error .eacces)
      else if status < 0 then return (s.releaseFd fd, .error (.device (-status)))
      else return (s, .ok fd)

/-- The entry of a descriptor that is not negative. -/
def entry (file : Int) : Except FileFault (Fin ALT_MAX_FD) :=
  if h : file.toNat < ALT_MAX_FD then .ok ⟨file.toNat, h⟩ else .error .bounds

/-- `rval` is what the device's `close` returns, 0 if it has none. -/
def altClose (s : Files δ) (fildes : Int) (rval : Int) : Except FileFault (Files δ × Except FileErrno Unit) :=
  if fildes < 0 then .ok (s, .error .ebadfd)
  else do
    let fd ← entry fildes
    if (s.list fd).dev = none then .error .null
    else return (s.releaseFd fd, if rval < 0 then .error (.device (-rval)) else .ok ())

def setfl (s : Files δ) (file : Int) (flags : BitVec 32) : Except FileFault (Files δ × Except FileErrno Unit) :=
  if file < 0 then .ok (s, .error .ebadfd)
  else do
    let fd ← entry file
    let s := s.setFlags fd ((s.list fd).fdFlags &&& ~~~ALT_FCNTL_FLAGS_MASK)
    return (s.setFlags fd ((s.list fd).fdFlags ||| (flags &&& ALT_FCNTL_FLAGS_MASK)), .ok ())

/-- `i < alt_max_fd` is a comparison with sign. -/
def fdLock (s : Files δ) (fd : Fin ALT_MAX_FD) : Except FileFault (Files δ × Except FileErrno Unit) :=
  if ∃ i : Fin ALT_MAX_FD, (i.val : Int) < s.maxFd ∧ i ≠ fd ∧ (s.list i).dev = (s.list fd).dev then
    .ok (s, .error .eacces)
  else if s.maxFd ≤ ALT_MAX_FD then .ok (s.setFlags fd ((s.list fd).fdFlags ||| ALT_FD_EXCL), .ok ())
  else .error .bounds

def fdUnlock (s : Files δ) (fd : Fin ALT_MAX_FD) : Files δ := s.setFlags fd ((s.list fd).fdFlags &&& ~~~ALT_FD_EXCL)

/-- `TIOCEXCL`, `TIOCNXCL`, and all the others. -/
inductive Ioctl
  | excl
  | nxcl
  | other
deriving DecidableEq

/-- `rc` is what the device's `ioctl` returns, -ENOTTY if it has none. -/
def ioctl (s : Files δ) (file : Int) (req : Ioctl) (rc : Int) : Except FileFault (Files δ × Except FileErrno Unit) :=
  if file < 0 then .ok (s, .error .ebadfd)
  else do
    let fd ← entry file
    if (s.list fd).fdFlags &&& ALT_FD_DEV ≠ 0#32 ∧ req = .excl then s.fdLock fd
    else if (s.list fd).fdFlags &&& ALT_FD_DEV ≠ 0#32 ∧ req = .nxcl then return (s.fdUnlock fd, .ok ())
    else if (s.list fd).dev = none then .error .null
    else return (s, if rc < 0 then .error (.device (-rc)) else .ok ())

/-- `fd` takes the place of the descriptor that is opened. -/
def openFd (find : List UInt8 → Option δ) (s : Files δ) (fd : Fin ALT_MAX_FD) (name : List UInt8) (flags : BitVec 32)
    (status : Int) : Except FileFault (Files δ) := do
  let (s, old) ← s.altOpen find name flags status
  match old with
  | .ok old => return { s with list := Function.update s.list fd (s.list old) }.releaseFd old
  | .error _ => return s

/-- `status` is what the `open` of each of the three devices returns. -/
def ioRedirect (find : List UInt8 → Option δ) (s : Files δ) (stdoutDev stdinDev stderrDev : List UInt8)
    (status : Int × Int × Int) : Except FileFault (Files δ) := do
  let s ← s.openFd find 1 stdoutDev O_WRONLY status.1
  let s ← s.openFd find 0 stdinDev O_RDONLY status.2.1
  s.openFd find 2 stderrDev O_WRONLY status.2.2

end

inductive FileCall
  | openFile (file : List UInt8) (flags : BitVec 32) (status : Int)
  | close (fildes rval : Int)
  | setfl (file : Int) (flags : BitVec 32)
  | ioctl (file : Int) (req : Ioctl) (rc : Int)

/-- The result of a call, with the descriptor that `open` returns. -/
abbrev FileResult := Except FileErrno (Option (Fin ALT_MAX_FD))

/-- The program's calls after `alt_io_redirect`. -/
def files [DecidableEq δ] (find : List UInt8 → Option δ) : Machine (Files δ) FileCall FileResult FileFault where
  step s
    | .openFile file flags status => do
      let (s, r) ← s.altOpen find file flags status
      return (s, r.map some)
    | .close fildes rval => do
      let (s, r) ← s.altClose fildes rval
      return (s, r.map fun _ => none)
    | .setfl file flags => do
      let (s, r) ← s.setfl file flags
      return (s, r.map fun _ => none)
    | .ioctl file req rc => do
      let (s, r) ← s.ioctl file req rc
      return (s, r.map fun _ => none)

/-! ## One call -/

/-- A mask that another does not touch. -/
theorem and_of_disjoint {f a m x : BitVec 32} (hm : m &&& x = 0#32) (hx : ~~~m &&& x = x) :
    (f &&& ~~~m ||| a &&& m) &&& x = f &&& x := by
  rw [BitVec.and_or_distrib_right, BitVec.and_assoc, BitVec.and_assoc, hm, hx, BitVec.and_zero, BitVec.or_zero]

theorem setFlags_self (s : Files δ) (i : Fin ALT_MAX_FD) (flags : BitVec 32) :
    (s.setFlags i flags).list i = ⟨(s.list i).dev, flags⟩ := Function.update_self ..

theorem setFlags_of_ne {s : Files δ} {i j : Fin ALT_MAX_FD} (h : j ≠ i) (flags : BitVec 32) :
    (s.setFlags i flags).list j = s.list j := Function.update_of_ne h ..

theorem setFlags_dev (s : Files δ) (i j : Fin ALT_MAX_FD) (flags : BitVec 32) :
    ((s.setFlags i flags).list j).dev = (s.list j).dev := by
  by_cases h : j = i
  · rw [h, setFlags_self]
  · rw [setFlags_of_ne h]

/-- A new entry for `i`. -/
def put (s : Files δ) (i : Fin ALT_MAX_FD) (e : Fd δ) (m : Int) : Files δ := ⟨Function.update s.list i e, m⟩

@[simp] theorem put_self (s : Files δ) (i : Fin ALT_MAX_FD) (e : Fd δ) (m : Int) : (s.put i e m).list i = e :=
  Function.update_self ..

theorem put_of_ne {s : Files δ} {i j : Fin ALT_MAX_FD} (h : j ≠ i) (e : Fd δ) (m : Int) :
    (s.put i e m).list j = s.list j := Function.update_of_ne h ..

theorem put_put (s : Files δ) (i : Fin ALT_MAX_FD) (e e' : Fd δ) (m m' : Int) :
    (s.put i e m).put i e' m' = s.put i e' m' := by
  simp only [put, Function.update_idem]

theorem setFlags_eq (s : Files δ) (i : Fin ALT_MAX_FD) (flags : BitVec 32) :
    s.setFlags i flags = s.put i ⟨(s.list i).dev, flags⟩ s.maxFd := rfl

theorem releaseFd_eq (s : Files δ) {i : Fin ALT_MAX_FD} (hi : 2 < i.val) :
    s.releaseFd i = s.put i ⟨none, 0#32⟩ s.maxFd :=
  if_pos hi

theorem getFd_some {s s' : Files δ} {dev : δ} {i : Fin ALT_MAX_FD} (h : s.getFd dev = some (s', i)) :
    (s.list i).dev = none ∧ s' = s.put i ⟨some dev, (s.list i).fdFlags⟩ (max s.maxFd i.val) := by
  unfold getFd at h
  split at h
  · next j hj =>
    have hnone := List.find?_some hj
    cases h
    refine ⟨by simpa using hnone, congrArg (Files.mk _) ?_⟩
    rw [max_def]
    split <;> split <;> omega
  · cases h

section
variable [DecidableEq δ]

/-- A descriptor that others may not share. -/
def Locked (s : Files δ) (i : Fin ALT_MAX_FD) : Prop := (s.list i).fdFlags &&& ALT_FD_EXCL ≠ 0#32

instance (s : Files δ) (i : Fin ALT_MAX_FD) : Decidable (Locked s i) := inferInstanceAs (Decidable (_ ≠ _))

theorem fileLocked_eq {s : Files δ} (hm : 0 ≤ s.maxFd ∧ s.maxFd < ALT_MAX_FD) (fd : Fin ALT_MAX_FD) :
    s.fileLocked fd = .ok (s.setFlags fd ((s.list fd).fdFlags ||| ALT_FD_DEV), decide (∃ i : Fin ALT_MAX_FD,
      (i.val : Int) ≤ s.maxFd ∧ (s.list i).dev = (s.list fd).dev ∧ Locked s i ∧ i ≠ fd)) := by
  have hlock : ∀ i, i ≠ fd →
      (((s.setFlags fd ((s.list fd).fdFlags ||| ALT_FD_DEV)).list i).fdFlags &&& ALT_FD_EXCL ≠ 0#32 ↔
      Locked s i) := fun i hi => by rw [setFlags_of_ne hi, Locked]
  have hmax : (s.setFlags fd ((s.list fd).fdFlags ||| ALT_FD_DEV)).maxFd = s.maxFd := rfl
  have hunsigned : (BitVec.ofInt 32 s.maxFd).toNat = s.maxFd.toNat := by
    rw [BitVec.toNat_ofInt, Int.emod_eq_of_lt hm.1 (by unfold ALT_MAX_FD at hm; omega)]
  have hle : ∀ i : Fin ALT_MAX_FD, i.val ≤ s.maxFd.toNat ↔ (i.val : Int) ≤ s.maxFd := fun i => by omega
  simp only [fileLocked, hmax, hunsigned, hle, setFlags_dev]
  have hiff : (∃ i : Fin ALT_MAX_FD, (i.val : Int) ≤ s.maxFd ∧ (s.list i).dev = (s.list fd).dev ∧
      ((s.setFlags fd ((s.list fd).fdFlags ||| ALT_FD_DEV)).list i).fdFlags &&& ALT_FD_EXCL ≠ 0#32 ∧ i ≠ fd) ↔
      ∃ i : Fin ALT_MAX_FD, (i.val : Int) ≤ s.maxFd ∧ (s.list i).dev = (s.list fd).dev ∧ Locked s i ∧ i ≠ fd :=
    exists_congr fun i => and_congr_right fun _ => and_congr_right fun _ => and_congr_left (hlock i)
  split
  · next h => rw [decide_eq_true (hiff.1 h)]
  · next h =>
    rw [if_pos (by omega), decide_eq_false (fun h' => h (hiff.2 h'))]

/-- What holds of the descriptors at any time. -/
structure Ok (s : Files δ) : Prop where
  stdio : ∀ i : Fin ALT_MAX_FD, i.val ≤ 2 → (s.list i).dev ≠ none
  high : ∀ i : Fin ALT_MAX_FD, 2 < i.val → (s.list i).dev ≠ none → (i.val : Int) ≤ s.maxFd
  maxFd : s.maxFd = -1 ∨ 3 ≤ s.maxFd ∧ s.maxFd < ALT_MAX_FD
  free : ∀ i, (s.list i).dev = none → (s.list i).fdFlags &&& ALT_FD_FLAGS_MASK = 0#32
  unopened : s.maxFd = -1 → ∀ i, (s.list i).fdFlags &&& ALT_FD_DEV = 0#32
  shared : ∀ i j k, Locked s i → j ≠ i → k ≠ i → (s.list j).dev = (s.list i).dev →
    (s.list k).dev = (s.list i).dev → j = k

/-- The flags of a device that has been opened. -/
def opened (flags : BitVec 32) : BitVec 32 := flags &&& ~~~ALT_FD_FLAGS_MASK ||| ALT_FD_DEV

theorem opened_excl (flags : BitVec 32) : opened flags &&& ALT_FD_EXCL = 0#32 := by
  rw [opened, BitVec.and_or_distrib_right, BitVec.and_assoc,
    show ~~~ALT_FD_FLAGS_MASK &&& ALT_FD_EXCL = 0#32 from by decide,
    BitVec.and_zero]
  decide

/-- A flag is off where both are. -/
theorem and_of_mask {f x : BitVec 32} (h : f &&& ALT_FD_FLAGS_MASK = 0#32) (hx : ALT_FD_FLAGS_MASK &&& x = x) :
    f &&& x = 0#32 := by
  rw [← hx, ← BitVec.and_assoc, h, BitVec.zero_and]

omit [DecidableEq δ] in
theorem Ok.dev_ne {s : Files δ} (h : Ok s) {i : Fin ALT_MAX_FD} (hl : Locked s i) : (s.list i).dev ≠ none :=
  fun hnone => hl (and_of_mask (h.free i hnone) (by decide))

/-- How far `alt_max_fd` may go. -/
def Grows (m m' : Int) : Prop := m' = m ∨ m ≤ m' ∧ 3 ≤ m' ∧ m' < ALT_MAX_FD

theorem Grows.maxFd {m m' : Int} (h : Grows m m') (hm : m = -1 ∨ 3 ≤ m ∧ m < ALT_MAX_FD) :
    m' = -1 ∨ 3 ≤ m' ∧ m' < ALT_MAX_FD := by
  rcases h with rfl | h
  · exact hm
  · exact .inr h.2

theorem Grows.le {m m' : Int} (h : Grows m m') : m ≤ m' := by
  rcases h with rfl | h
  · exact le_refl _
  · exact h.1

theorem Grows.eq {m m' : Int} (h : Grows m m') (hm : m' = -1) : m = -1 := by
  rcases h with rfl | h
  · exact hm
  · omega

omit [DecidableEq δ] in
theorem Ok.grows {s : Files δ} (h : Ok s) {i : Fin ALT_MAX_FD} (hi : 2 < i.val) :
    Grows s.maxFd (max s.maxFd i.val) := by
  have := i.isLt
  exact .inr ⟨le_max_left .., by omega, by rcases h.maxFd with hm | hm <;> omega⟩

/-- A new descriptor finds its device locked or has checked that nobody locks it. -/
theorem fileLocked_opened {s : Files δ} (h : Ok s) {i : Fin ALT_MAX_FD} (hnone : (s.list i).dev = none) (hi : 2 < i.val)
    (d : δ) (f flags : BitVec 32) :
    ∃ locked, ((s.put i ⟨some d, f⟩ (max s.maxFd i.val)).setFlags i (flags &&& ~~~ALT_FD_FLAGS_MASK)).fileLocked i =
        .ok (s.put i ⟨some d, opened flags⟩ (max s.maxFd i.val), locked) ∧
      (locked = false → ∀ j, Locked s j → (s.list j).dev ≠ some d) := by
  have hmax : 0 ≤ max s.maxFd i.val ∧ max s.maxFd i.val < ALT_MAX_FD := by
    have := i.isLt
    rcases h.maxFd with hm | hm <;> omega
  have hset : (s.put i ⟨some d, f⟩ (max s.maxFd i.val)).setFlags i (flags &&& ~~~ALT_FD_FLAGS_MASK) =
      s.put i ⟨some d, flags &&& ~~~ALT_FD_FLAGS_MASK⟩ (max s.maxFd i.val) := by
    rw [setFlags_eq, put_put, put_self]
    rfl
  have hopened : (s.put i ⟨some d, flags &&& ~~~ALT_FD_FLAGS_MASK⟩ (max s.maxFd i.val)).setFlags i (opened flags) =
      s.put i ⟨some d, opened flags⟩ (max s.maxFd i.val) := by
    rw [setFlags_eq, put_put, put_self]
    rfl
  have hfl := fileLocked_eq (s := s.put i ⟨some d, flags &&& ~~~ALT_FD_FLAGS_MASK⟩ (max s.maxFd i.val)) hmax i
  rw [put_self] at hfl
  rw [hset]
  refine ⟨_, hfl.trans (congrArg (fun t => Except.ok (t, _)) hopened), ?_⟩
  intro hfalse j hl hdev
  have hji : j ≠ i := fun hji => by rw [hji, hnone] at hdev; cases hdev
  have hle : (j.val : Int) ≤ max s.maxFd i.val := by
    by_cases hj : 2 < j.val
    · exact (h.high j hj (hdev ▸ Option.some_ne_none d)).trans (le_max_left ..)
    · omega
  refine of_decide_eq_false hfalse ⟨j, hle, ?_, ?_, hji⟩
  · rw [put_of_ne hji, hdev]
  · rw [Locked, put_of_ne hji]
    exact hl

/-- What `open` does: it fails, and a free descriptor may have lost its flags, or it takes a free one and nobody has
locked the device. -/
theorem altOpen_cases {s : Files δ} (h : Ok s) (find : List UInt8 → Option δ) (file : List UInt8) (flags : BitVec 32)
    (status : Int) :
    (∃ e, s.altOpen find file flags status = .ok (s, .error e)) ∨
    (∃ i e, s.altOpen find file flags status = .ok (s.put i ⟨none, 0#32⟩ (max s.maxFd i.val), .error e) ∧
      (s.list i).dev = none ∧ 2 < i.val) ∨
    ∃ i d, s.altOpen find file flags status = .ok (s.put i ⟨some d, opened flags⟩ (max s.maxFd i.val), .ok i) ∧
      find file = some d ∧ (s.list i).dev = none ∧ 2 < i.val ∧ ∀ j, Locked s j → (s.list j).dev ≠ some d := by
  unfold altOpen
  split
  · exact .inl ⟨.enodev, rfl⟩
  next d hd =>
  split
  · exact .inl ⟨.emfile, rfl⟩
  next s₁ i hget =>
  obtain ⟨hnone, rfl⟩ := getFd_some hget
  have hi : 2 < i.val := Nat.lt_of_not_le fun hle => h.stdio i hle hnone
  have hback : (s.put i ⟨some d, opened flags⟩ (max s.maxFd i.val)).releaseFd i =
      s.put i ⟨none, 0#32⟩ (max s.maxFd i.val) := (releaseFd_eq _ hi).trans (put_put ..)
  obtain ⟨locked, hlocked, hfree⟩ := fileLocked_opened h hnone hi d (s.list i).fdFlags flags
  rw [hlocked]
  cases locked with
  | true => exact .inr (.inl ⟨i, .eacces, hback ▸ rfl, hnone, hi⟩)
  | false =>
    by_cases hstatus : status < 0
    · exact .inr (.inl ⟨i, .device (-status), hback ▸ if_pos hstatus, hnone, hi⟩)
    · exact .inr (.inr ⟨i, d, if_neg hstatus, hd, hnone, hi, hfree rfl⟩)

omit [DecidableEq δ] in
/-- A new entry keeps the rules if it keeps its own. -/
theorem Ok.update {s : Files δ} (h : Ok s) {i : Fin ALT_MAX_FD} {e : Fd δ} {m : Int} (hm : Grows s.maxFd m)
    (hstdio : i.val ≤ 2 → e.dev ≠ none) (hhigh : 2 < i.val → e.dev ≠ none → (i.val : Int) ≤ m)
    (hfree : e.dev = none → e.fdFlags &&& ALT_FD_FLAGS_MASK = 0#32) (hun : m = -1 → e.fdFlags &&& ALT_FD_DEV = 0#32)
    (hdev : e.dev = (s.list i).dev ∨ e.dev = none ∨ ∀ j, Locked s j → (s.list j).dev ≠ e.dev)
    (hlock : e.fdFlags &&& ALT_FD_EXCL ≠ 0#32 → e.dev = (s.list i).dev ∧ (Locked s i ∨
      ∀ j k, j ≠ i → k ≠ i → (s.list j).dev = (s.list i).dev → (s.list k).dev = (s.list i).dev → j = k)) :
    Ok (s.put i e m) := by
  refine ⟨?_, ?_, hm.maxFd h.maxFd, ?_, ?_, ?_⟩
  · intro j hj
    by_cases hji : j = i
    · rw [hji, put_self]
      exact hstdio (hji ▸ hj)
    · rw [put_of_ne hji]
      exact h.stdio j hj
  · intro j hj hdevj
    by_cases hji : j = i
    · rw [hji, put_self] at hdevj
      exact hji ▸ hhigh (hji ▸ hj) hdevj
    · rw [put_of_ne hji] at hdevj
      exact (h.high j hj hdevj).trans hm.le
  · intro j
    by_cases hji : j = i
    · rw [hji, put_self]
      exact hfree
    · rw [put_of_ne hji]
      exact h.free j
  · intro hm' j
    by_cases hji : j = i
    · rw [hji, put_self]
      exact hun hm'
    · rw [put_of_ne hji]
      exact h.unopened (hm.eq hm') j
  · intro a j k ha hj hk hja hka
    by_cases hai : a = i
    · subst hai
      rw [Locked, put_self] at ha
      rw [put_self, put_of_ne hj] at hja
      rw [put_self, put_of_ne hk] at hka
      obtain ⟨hsame, hor⟩ := hlock ha
      rw [hsame] at hja hka
      rcases hor with hl | hall
      · exact h.shared a j k hl hj hk hja hka
      · exact hall j k hj hk hja hka
    · have hl : Locked s a := by
        rw [Locked, put_of_ne hai] at ha
        exact ha
      have hback : ∀ x, ((s.put i e m).list x).dev = (s.list a).dev → (s.list x).dev = (s.list a).dev := by
        intro x hx
        by_cases hxi : x = i
        · subst hxi
          rw [put_self] at hx
          rcases hdev with hsame | hnone | hnobody
          · exact hsame ▸ hx
          · exact absurd (hx ▸ hnone) (h.dev_ne hl)
          · exact absurd hx.symm (hnobody a hl)
        · rw [put_of_ne hxi] at hx
          exact hx
      rw [put_of_ne hai] at hja hka
      exact h.shared a j k hl hj hk (hback j hja) (hback k hka)

/-- Everything a call can do. -/
inductive Change (find : List UInt8 → Option δ) (s : Files δ) : FileCall → Files δ → FileResult → Prop
  | stays (c : FileCall) (r : FileResult) (hr : ∀ i, r ≠ .ok (some i))
      (ho : ∀ file flags status, c = .openFile file flags status → ∃ e, r = .error e) : Change find s c s r
  | fails (file : List UInt8) (flags : BitVec 32) (status : Int) (i : Fin ALT_MAX_FD) (e : FileErrno)
      (hnone : (s.list i).dev = none) (hi : 2 < i.val) :
      Change find s (.openFile file flags status) (s.put i ⟨none, 0#32⟩ (max s.maxFd i.val)) (.error e)
  | opens (file : List UInt8) (flags : BitVec 32) (status : Int) (i : Fin ALT_MAX_FD) (d : δ) (hd : find file = some d)
      (hnone : (s.list i).dev = none) (hi : 2 < i.val) (hfree : ∀ j, Locked s j → (s.list j).dev ≠ some d) :
      Change find s (.openFile file flags status) (s.put i ⟨some d, opened flags⟩ (max s.maxFd i.val)) (.ok (some i))
  | closes (i : Fin ALT_MAX_FD) (rval : Int) (r : FileResult) (hi : 2 < i.val) (hr : ∀ i, r ≠ .ok (some i)) :
      Change find s (.close i.val rval) (s.put i ⟨none, 0#32⟩ s.maxFd) r
  | sets (i : Fin ALT_MAX_FD) (flags f : BitVec 32)
      (hf : f &&& ALT_FD_FLAGS_MASK = (s.list i).fdFlags &&& ALT_FD_FLAGS_MASK) :
      Change find s (.setfl i.val flags) (s.put i ⟨(s.list i).dev, f⟩ s.maxFd) (.ok none)
  | locks (i : Fin ALT_MAX_FD) (rc : Int) (hdev : (s.list i).fdFlags &&& ALT_FD_DEV ≠ 0#32)
      (hj : ∀ j, j ≠ i → (s.list j).dev = (s.list i).dev → s.maxFd ≤ j.val) :
      Change find s (.ioctl i.val .excl rc)
        (s.put i ⟨(s.list i).dev, (s.list i).fdFlags ||| ALT_FD_EXCL⟩ s.maxFd) (.ok none)
  | unlocks (i : Fin ALT_MAX_FD) (rc : Int) :
      Change find s (.ioctl i.val .nxcl rc)
        (s.put i ⟨(s.list i).dev, (s.list i).fdFlags &&& ~~~ALT_FD_EXCL⟩ s.maxFd) (.ok none)

omit [DecidableEq δ] in
theorem entry_val {file : Int} {i : Fin ALT_MAX_FD} (hfile : ¬ file < 0) (h : entry file = .ok i) : file = i.val := by
  unfold entry at h
  split at h
  · cases h
    exact (Int.toNat_of_nonneg (not_lt.1 hfile)).symm
  · cases h

omit [DecidableEq δ] in
theorem altClose_ok {s s' : Files δ} {fildes rval : Int} {r : Except FileErrno Unit}
    (h : s.altClose fildes rval = .ok (s', r)) :
    s' = s ∨ ∃ i : Fin ALT_MAX_FD, fildes = i.val ∧ 2 < i.val ∧ s' = s.put i ⟨none, 0#32⟩ s.maxFd := by
  unfold altClose at h
  split at h
  · cases h
    exact .inl rfl
  next hfile =>
  obtain ⟨i, hentry, h⟩ := bind_ok_iff.1 h
  split at h
  · cases h
  cases h
  by_cases hi : 2 < i.val
  · exact .inr ⟨i, entry_val hfile hentry, hi, releaseFd_eq s hi⟩
  · exact .inl (if_neg hi)

omit [DecidableEq δ] in
theorem setfl_ok {s s' : Files δ} {file : Int} {flags : BitVec 32} {r : Except FileErrno Unit}
    (h : s.setfl file flags = .ok (s', r)) :
    s' = s ∨ r = .ok () ∧ ∃ (i : Fin ALT_MAX_FD) (f : BitVec 32), file = i.val ∧
      f &&& ALT_FD_FLAGS_MASK = (s.list i).fdFlags &&& ALT_FD_FLAGS_MASK ∧
      s' = s.put i ⟨(s.list i).dev, f⟩ s.maxFd := by
  unfold setfl at h
  split at h
  · cases h
    exact .inl rfl
  next hfile =>
  obtain ⟨i, hentry, h⟩ := bind_ok_iff.1 h
  cases h
  refine .inr ⟨rfl, i, (s.list i).fdFlags &&& ~~~ALT_FCNTL_FLAGS_MASK ||| flags &&& ALT_FCNTL_FLAGS_MASK,
    entry_val hfile hentry, and_of_disjoint (by decide) (by decide), ?_⟩
  simp only [setFlags_eq, put_self, put_put]
  rfl

theorem fdLock_ok {s s' : Files δ} {i : Fin ALT_MAX_FD} {r : Except FileErrno Unit} (h : s.fdLock i = .ok (s', r)) :
    s' = s ∨ r = .ok () ∧ (∀ j, j ≠ i → (s.list j).dev = (s.list i).dev → s.maxFd ≤ j.val) ∧
      s' = s.put i ⟨(s.list i).dev, (s.list i).fdFlags ||| ALT_FD_EXCL⟩ s.maxFd := by
  unfold fdLock at h
  split at h
  · cases h
    exact .inl rfl
  next hnobody =>
  split at h
  · cases h
    exact .inr ⟨rfl, fun j hji hdev => not_lt.1 fun hlt => hnobody ⟨j, hlt, hji, hdev⟩, rfl⟩
  · cases h

theorem ioctl_ok {s s' : Files δ} {file : Int} {req : Ioctl} {rc : Int} {r : Except FileErrno Unit}
    (h : s.ioctl file req rc = .ok (s', r)) :
    s' = s ∨ r = .ok () ∧ ∃ i : Fin ALT_MAX_FD, file = i.val ∧
      (req = .excl ∧ (s.list i).fdFlags &&& ALT_FD_DEV ≠ 0#32 ∧
        (∀ j, j ≠ i → (s.list j).dev = (s.list i).dev → s.maxFd ≤ j.val) ∧
        s' = s.put i ⟨(s.list i).dev, (s.list i).fdFlags ||| ALT_FD_EXCL⟩ s.maxFd ∨
      req = .nxcl ∧ s' = s.put i ⟨(s.list i).dev, (s.list i).fdFlags &&& ~~~ALT_FD_EXCL⟩ s.maxFd) := by
  unfold ioctl at h
  split at h
  · cases h
    exact .inl rfl
  next hfile =>
  obtain ⟨i, hentry, h⟩ := bind_ok_iff.1 h
  split at h
  next hexcl =>
    rcases fdLock_ok h with hstay | ⟨hr, hj, hput⟩
    · exact .inl hstay
    · exact .inr ⟨hr, i, entry_val hfile hentry, .inl ⟨hexcl.2, hexcl.1, hj, hput⟩⟩
  split at h
  next hnxcl =>
    cases h
    exact .inr ⟨rfl, i, entry_val hfile hentry, .inr ⟨hnxcl.2, rfl⟩⟩
  split at h
  · cases h
  · cases h
    exact .inl rfl

omit [DecidableEq δ] in
theorem map_none_ne (r : Except FileErrno Unit) (i : Fin ALT_MAX_FD) :
    (r.map fun _ => none : FileResult) ≠ .ok (some i) := by
  cases r <;> simp [Except.map]

theorem files_change {find : List UInt8 → Option δ} {s s' : Files δ} (h : Ok s) {c : FileCall} {r : FileResult}
    (hs : (files find).step s c = .ok (s', r)) : Change find s c s' r := by
  cases c with
  | openFile file flags status =>
    obtain ⟨⟨s₁, r₁⟩, hopen, hret⟩ := bind_ok_iff.1 hs
    cases hret
    rcases altOpen_cases h find file flags status with ⟨e, he⟩ | ⟨i, e, he, hnone, hi⟩ |
      ⟨i, d, he, hd, hnone, hi, hfree⟩
    · cases hopen.symm.trans he
      exact .stays _ _ (fun i hr => by cases hr) fun _ _ _ _ => ⟨e, rfl⟩
    · cases hopen.symm.trans he
      exact .fails file flags status i e hnone hi
    · cases hopen.symm.trans he
      exact .opens file flags status i d hd hnone hi hfree
  | close fildes rval =>
    obtain ⟨⟨s₁, r₁⟩, hclose, hret⟩ := bind_ok_iff.1 hs
    cases hret
    rcases altClose_ok hclose with rfl | ⟨i, rfl, hi, rfl⟩
    · exact .stays _ _ (map_none_ne r₁) fun _ _ _ h0 => by cases h0
    · exact .closes i rval _ hi (map_none_ne r₁)
  | setfl file flags =>
    obtain ⟨⟨s₁, r₁⟩, hset, hret⟩ := bind_ok_iff.1 hs
    cases hret
    rcases setfl_ok hset with rfl | ⟨rfl, i, f, rfl, hf, rfl⟩
    · exact .stays _ _ (map_none_ne r₁) fun _ _ _ h0 => by cases h0
    · exact .sets i flags f hf
  | ioctl file req rc =>
    obtain ⟨⟨s₁, r₁⟩, hioctl, hret⟩ := bind_ok_iff.1 hs
    cases hret
    rcases ioctl_ok hioctl with rfl | ⟨rfl, i, rfl, ⟨rfl, hdev, hj, rfl⟩ | ⟨rfl, rfl⟩⟩
    · exact .stays _ _ (map_none_ne r₁) fun _ _ _ h0 => by cases h0
    · exact .locks i rc hdev hj
    · exact .unlocks i rc

end
end Files
end NuttyNios
