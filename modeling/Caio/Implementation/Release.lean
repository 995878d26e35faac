import Mathlib.Algebra.Order.Ring.Int
import Caio.Python

namespace Caio.Implementation

def isSpace (c : Char) : Bool := c ∈ [' ', '\t', '\n', '\x0b', '\x0c', '\r']

/-- `%d`: the number and what follows it. -/
def scanInt (text : List Char) : Option (Int × List Char) :=
  let text := text.dropWhile isSpace
  let (negative, text) := match text with
    | '-' :: text => (true, text)
    | '+' :: text => (false, text)
    | text => (false, text)
  let digits := text.takeWhile Char.isDigit
  if digits = [] then none
  else
    let n : Int := Nat.ofDigitChars 10 digits 0
    some (if negative then -n else n, text.dropWhile Char.isDigit)

/-- A number that an `int` does not hold is stored as it happens. -/
def toInt (overflow : Int → Int32) (n : Int) : Int32 :=
  if -2 ^ 31 ≤ n ∧ n < 2 ^ 31 then Int32.ofInt n else overflow n

/-- `sscanf(release, "%d.%d", &major, &minor)` over two zeros. -/
def scanRelease (overflow : Int → Int32) (release : String) : Int32 × Int32 :=
  match scanInt release.toList with
  | none => (0, 0)
  | some (major, '.' :: rest) =>
    (toInt overflow major,
      match scanInt rest with
      | none => 0
      | some (minor, _) => toInt overflow minor)
  | some (major, _) => (toInt overflow major, 0)

structure ImportError where
  msg : String

def enosys : Int32 := 38

def setupSqpoll : UInt32 := 2

/-- What the functions find of the system. -/
structure Platform where
  /-- `uname` -/
  release : Option String
  overflow : Int → Int32
  strerror : Int32 → String
  /-- `io_uring_setup` for one entry, by its flags. -/
  ioUringSetup : UInt32 → Except Int32 Fd
  /-- `io_setup` for one request, and `io_destroy` of what it has made. -/
  ioSetup : Except Int32 Unit
  ioDestroy : Except Int32 Unit

variable (k : Platform)

def atLeast (major minor : Int32) (release : Int32 × Int32) : Bool :=
  release.1 > major || (release.1 == major && release.2 ≥ minor)

def uringSupports : Int32 × Int32 → Bool := atLeast 5 6

def linuxSupports : Int32 × Int32 → Bool := atLeast 4 18

/-- `PyInit_linux_uring` up to `PyModule_Create`; the value is `SQPOLL_ALLOWED`. -/
def initLinuxUring : Except ImportError Bool :=
  match k.release with
  | none => .error ⟨"uname() failed"⟩
  | some release =>
    if !uringSupports (scanRelease k.overflow release) then
      .error
        ⟨"linux_uring requires Linux 5.6+ (IORING_OP_READ/WRITE), current kernel is " ++ release⟩
    else
      match k.ioUringSetup 0 with
      | .error errno =>
        -- what the probe says when a seccomp filter hides the system call
        if errno = enosys then
          .error ⟨"io_uring_setup failed: syscall not available (ENOSYS). " ++
            "This usually means a seccomp filter is blocking io_uring. To fix:\n" ++
            "  Docker/Podman : add --security-opt seccomp=unconfined\n" ++
            "  Kubernetes    : set securityContext.seccompProfile.type=Unconfined\n" ++
            "  OrbStack      : use a plain Linux VM instead of a container context\n" ++
            "Kernel: " ++ release⟩
        else .error ⟨"io_uring_setup probe failed: " ++ k.strerror errno⟩
      -- SQPOLL may be refused to this process; that is no reason to fail
      | .ok _ => .ok (k.ioUringSetup setupSqpoll).isOk

def initLinuxAio : Except ImportError Unit :=
  match k.release with
  | none => .error ⟨"Can not detect linux kernel version"⟩
  | some release =>
    if !linuxSupports (scanRelease k.overflow release) then
      .error ⟨"Linux kernel supported since 4.18 but current kernel is " ++ release ++ "."⟩
    else
      match k.ioSetup with
      | .error errno => .error ⟨"Error on io_setup with code " ++ toString errno.toInt⟩
      | .ok () =>
        match k.ioDestroy with
        | .error errno => .error ⟨"Error on io_destroy with code " ++ toString errno.toInt⟩
        | .ok () => .ok ()

variable {k}

theorem takeWhile_digits {digits rest : List Char} (hdigits : ∀ c ∈ digits, c.isDigit = true)
    (hrest : ∀ c ∈ rest.head?, c.isDigit = false) :
    (digits ++ rest).takeWhile Char.isDigit = digits ∧
      (digits ++ rest).dropWhile Char.isDigit = rest := by
  rw [List.takeWhile_append_of_pos hdigits, List.dropWhile_append_of_pos hdigits]
  cases rest with
  | nil => exact ⟨List.append_nil _, rfl⟩
  | cons c rest =>
    have hc := hrest c rfl
    rw [List.takeWhile_cons_of_neg (by rw [hc]; decide),
      List.dropWhile_cons_of_neg (by rw [hc]; decide)]
    exact ⟨List.append_nil _, rfl⟩

theorem ne_of_isDigit {c : Char} (h : c.isDigit = true) :
    isSpace c = false ∧ c ≠ '-' ∧ c ≠ '+' := by
  refine ⟨?_, ?_, ?_⟩
  · refine decide_eq_false fun hmem => ?_
    simp only [List.mem_cons, List.not_mem_nil, or_false] at hmem
    rcases hmem with rfl | rfl | rfl | rfl | rfl | rfl <;> exact absurd h (by decide)
  · rintro rfl
    exact absurd h (by decide)
  · rintro rfl
    exact absurd h (by decide)

theorem scanInt_numeral (n : ℕ) {rest : List Char} (hrest : ∀ c ∈ rest.head?, c.isDigit = false) :
    scanInt (Nat.toDigits 10 n ++ rest) = some ((n : Int), rest) := by
  have hdigits : ∀ c ∈ Nat.toDigits 10 n, c.isDigit = true := fun c hc =>
    Nat.isDigit_of_mem_toDigits (by decide) (by decide) hc
  obtain ⟨htake, hdrop⟩ := takeWhile_digits hdigits hrest
  have hvalue := Nat.ofDigitChars_ten_toDigits (n := n)
  have hne : Nat.toDigits 10 n ≠ [] := Nat.toDigits_ne_nil
  generalize Nat.toDigits 10 n = digits at *
  cases digits with
  | nil => exact absurd rfl hne
  | cons c digits =>
    obtain ⟨hspace, hminus, hplus⟩ := ne_of_isDigit (hdigits c List.mem_cons_self)
    have hskip : (c :: digits ++ rest).dropWhile isSpace = c :: digits ++ rest :=
      List.dropWhile_cons_of_neg (by rw [hspace]; decide)
    have hsign : (match c :: digits ++ rest with
        | '-' :: text => (true, text)
        | '+' :: text => (false, text)
        | text => (false, text)) = (false, c :: digits ++ rest) := by
      rw [List.cons_append]
      split
      · rename_i heq
        exact absurd (List.cons.inj heq).1 hminus
      · rename_i heq
        exact absurd (List.cons.inj heq).1 hplus
      · rfl
    unfold scanInt
    simp only [hskip, hsign, htake, hdrop, hvalue]
    rfl

theorem toInt_natCast (overflow : Int → Int32) {n : ℕ} (hn : n < 2 ^ 31) :
    toInt overflow n = Int32.ofNat n :=
  if_pos ⟨by omega, by omega⟩

theorem scanRelease_eq (overflow : Int → Int32) {major minor : ℕ} {rest : String}
    (hmajor : major < 2 ^ 31) (hminor : minor < 2 ^ 31)
    (hrest : ∀ c ∈ rest.toList.head?, c.isDigit = false) :
    scanRelease overflow (toString major ++ "." ++ toString minor ++ rest) =
      (Int32.ofNat major, Int32.ofNat minor) := by
  have htext : (toString major ++ "." ++ toString minor ++ rest).toList =
      Nat.toDigits 10 major ++ '.' :: (Nat.toDigits 10 minor ++ rest.toList) := by
    simp
  have hfirst : scanInt (Nat.toDigits 10 major ++ '.' :: (Nat.toDigits 10 minor ++ rest.toList)) =
      some ((major : Int), '.' :: (Nat.toDigits 10 minor ++ rest.toList)) :=
    scanInt_numeral major (by simp)
  have hsecond := scanInt_numeral minor hrest
  unfold scanRelease
  simp only [htext, hfirst, hsecond, toInt_natCast overflow hmajor, toInt_natCast overflow hminor]

theorem atLeast_iff {a b major minor : ℕ} (ha : a < 2 ^ 31) (hb : b < 2 ^ 31)
    (hmajor : major < 2 ^ 31) (hminor : minor < 2 ^ 31) :
    atLeast (Int32.ofNat a) (Int32.ofNat b) (Int32.ofNat major, Int32.ofNat minor) = true ↔
      a < major ∨ major = a ∧ b ≤ minor := by
  have hvalue {n : ℕ} (hn : n < 2 ^ 31) : (Int32.ofNat n).toInt = n := Int32.toInt_ofNat_of_lt hn
  simp only [atLeast, Bool.or_eq_true, Bool.and_eq_true, decide_eq_true_eq, beq_iff_eq, gt_iff_lt,
    ge_iff_le, Int32.lt_iff_toInt_lt, Int32.le_iff_toInt_le, ← Int32.toInt_inj, hvalue ha,
    hvalue hb, hvalue hmajor, hvalue hminor]
  omega

theorem initLinuxUring_isOk {release : String} (h : k.release = some release) :
    (initLinuxUring k).isOk = true ↔
      uringSupports (scanRelease k.overflow release) = true ∧ (k.ioUringSetup 0).isOk = true := by
  unfold initLinuxUring
  simp only [h]
  cases uringSupports (scanRelease k.overflow release) with
  | false => exact iff_of_false Bool.false_ne_true fun h => Bool.false_ne_true h.1
  | true =>
    cases k.ioUringSetup 0 with
    | ok fd => exact iff_of_true rfl ⟨rfl, rfl⟩
    | error errno =>
      refine iff_of_false ?_ fun h => Bool.false_ne_true h.2
      dsimp only [Bool.not_true]
      split
      · rename_i hfalse
        cases hfalse
      · split <;> exact Bool.false_ne_true

theorem initLinuxAio_isOk {release : String} (h : k.release = some release) :
    (initLinuxAio k).isOk = true ↔ linuxSupports (scanRelease k.overflow release) = true ∧
      k.ioSetup.isOk = true ∧ k.ioDestroy.isOk = true := by
  unfold initLinuxAio
  simp only [h]
  cases linuxSupports (scanRelease k.overflow release) with
  | false => exact iff_of_false Bool.false_ne_true fun h => Bool.false_ne_true h.1
  | true =>
    cases k.ioSetup with
    | error errno => exact iff_of_false Bool.false_ne_true fun h => Bool.false_ne_true h.2.1
    | ok =>
      cases k.ioDestroy with
      | error errno => exact iff_of_false Bool.false_ne_true fun h => Bool.false_ne_true h.2.2
      | ok => exact iff_of_true rfl ⟨rfl, rfl, rfl⟩

/-- A release `major.minor`, whatever follows, is read back, and the modules can be imported from
5.6 and from 4.18 on, where the system calls work. -/
theorem imports_iff {major minor : ℕ} {rest : String} (hmajor : major < 2 ^ 31)
    (hminor : minor < 2 ^ 31) (hrest : ∀ c ∈ rest.toList.head?, c.isDigit = false)
    (hrelease : k.release = some (toString major ++ "." ++ toString minor ++ rest)) :
    (∃ release, k.release = some release ∧
      (scanRelease k.overflow release).1.toInt = major ∧
      (scanRelease k.overflow release).2.toInt = minor) ∧
    ((initLinuxUring k).isOk = true ↔
      (5 < major ∨ major = 5 ∧ 6 ≤ minor) ∧ (k.ioUringSetup 0).isOk = true) ∧
    ((initLinuxAio k).isOk = true ↔
      (4 < major ∨ major = 4 ∧ 18 ≤ minor) ∧ k.ioSetup.isOk = true ∧ k.ioDestroy.isOk = true) := by
  have hscan := scanRelease_eq k.overflow hmajor hminor hrest
  rw [initLinuxUring_isOk hrelease, initLinuxAio_isOk hrelease, hscan]
  refine ⟨⟨_, hrelease, ?_, ?_⟩,
    and_congr_left' (atLeast_iff (by decide) (by decide) hmajor hminor),
    and_congr_left' (atLeast_iff (by decide) (by decide) hmajor hminor)⟩
  · rw [hscan]
    exact Int32.toInt_ofNat_of_lt hmajor
  · rw [hscan]
    exact Int32.toInt_ofNat_of_lt hminor

def blocked : Platform where
  release := some "6.8.0-45-generic"
  overflow _ := 0
  strerror _ := "Operation not permitted"
  ioUringSetup _ := .error 1
  ioSetup := .ok ()
  ioDestroy := .ok ()

theorem imports_iff_blocked :
    (∃ release, blocked.release = some release ∧
      (scanRelease blocked.overflow release).1.toInt = 6 ∧
      (scanRelease blocked.overflow release).2.toInt = 8) ∧
    (initLinuxUring blocked).isOk = false ∧ (initLinuxAio blocked).isOk = true := by
  have hrest : ∀ c ∈ ".0-45-generic".toList.head?, c.isDigit = false := by
    intro c hc
    cases hc
    rfl
  obtain ⟨hscan, h⟩ := imports_iff (k := blocked) (show 6 < 2 ^ 31 by decide)
    (show 8 < 2 ^ 31 by decide) hrest rfl
  exact ⟨hscan, Bool.eq_false_iff.mpr fun huring => Bool.false_ne_true (h.1.mp huring).2,
    h.2.mpr ⟨.inl (by decide), rfl, rfl⟩⟩

end Caio.Implementation
