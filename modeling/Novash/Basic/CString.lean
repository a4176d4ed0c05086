import Mathlib.Data.List.TakeWhile
import Mathlib.Tactic

/-!
# C strings and the character functions of the C library

A C string is the list of its bytes without the terminating NUL. Bytes are written as characters:
every byte the shell tells apart is an ASCII one, and the bytes from `0x80` on are ordinary
characters to each of the functions below, as they are in the `C` locale and in the UTF-8 locales.

`'\x00'` is what reading past the last byte gives, so a string that is stored in memory contains no
NUL of its own; `NulFree` says so where a statement needs it.
-/

namespace Novash

/-- The bytes of a C string, without the terminating NUL. -/
abbrev CStr := List Char

/-- No byte of the string is the terminator. -/
def NulFree (s : CStr) : Prop := '\x00' ∉ s

instance (s : CStr) : Decidable (NulFree s) := inferInstanceAs (Decidable ('\x00' ∉ s))

@[simp] theorem nulFree_nil : NulFree [] := by simp [NulFree]

@[simp] theorem nulFree_cons {c : Char} {s : CStr} :
    NulFree (c :: s) ↔ c ≠ '\x00' ∧ NulFree s := by
  simp only [NulFree, List.mem_cons, not_or]
  exact and_congr_left fun _ ↦ ne_comm

@[simp] theorem nulFree_append {s t : CStr} : NulFree (s ++ t) ↔ NulFree s ∧ NulFree t := by
  simp [NulFree]

/-- What a reader sees of a buffer that holds these bytes: everything before the first NUL. -/
def cstr (buf : List Char) : CStr := buf.takeWhile (· ≠ '\x00')

theorem cstr_eq_self {s : CStr} (h : NulFree s) : cstr s = s := by
  rw [cstr, List.takeWhile_eq_self_iff]
  intro c hc
  simpa using fun he : c = '\x00' ↦ h (he ▸ hc)

/-! ## `ctype.h` -/

/-- The six white-space bytes of the `C` locale. -/
def isspace (c : Char) : Bool :=
  c == ' ' || c == '\t' || c == '\n' || c == '\x0b' || c == '\x0c' || c == '\r'

def isdigit (c : Char) : Bool := c.isDigit

def isalpha (c : Char) : Bool := c.isAlpha

def isalnum (c : Char) : Bool := c.isAlphanum

theorem isspace_eq_false_of_isdigit {c : Char} (h : isdigit c = true) : isspace c = false := by
  by_contra hs
  simp only [isspace, Bool.not_eq_false, Bool.or_eq_true, beq_iff_eq] at hs
  rcases hs with ((((rfl | rfl) | rfl) | rfl) | rfl) | rfl <;> exact absurd h (by decide)

/-! ## Numbers -/

/-- `LONG_MIN` and `LONG_MAX`, to which `strtol` saturates. -/
def clampLong (v : ℤ) : ℤ := max (-2 ^ 63) (min (2 ^ 63 - 1) v)

/-- The optional sign `strtol` accepts, with the bytes after it. -/
def strtolSign : CStr → ℤ × CStr
  | '-' :: s => (-1, s)
  | '+' :: s => (1, s)
  | s => (1, s)

/-- `strtol(s, &end, 10)`: the value, and the string that `end` is left pointing to. With no digit
to convert, `end` is the whole string. -/
def strtol (s : CStr) : ℤ × CStr :=
  let (sign, t) := strtolSign (s.dropWhile isspace)
  let digits := t.takeWhile isdigit
  if digits = [] then (0, s)
  else (clampLong (sign * (Nat.ofDigitChars 10 digits 0 : ℤ)), t.dropWhile isdigit)

/-- The conversion `(int)` of a `long`. -/
def toInt (v : ℤ) : Int32 := Int32.ofInt v

/-- `printf("%d", v)`. -/
def showInt : ℤ → CStr
  | .ofNat n => Nat.toDigits 10 n
  | .negSucc n => '-' :: Nat.toDigits 10 (n + 1)

private theorem all_isdigit_toDigits (n : ℕ) : ∀ c ∈ Nat.toDigits 10 n, isdigit c = true :=
  fun _ hc ↦ Nat.isDigit_of_mem_toDigits (by decide) (by decide) hc

theorem mem_showInt {v : ℤ} {c : Char} (hc : c ∈ showInt v) : isdigit c = true ∨ c = '-' := by
  cases v with
  | ofNat n => exact .inl (all_isdigit_toDigits n c hc)
  | negSucc n => exact (List.mem_cons.mp hc).symm.imp_left (all_isdigit_toDigits (n + 1) c)

theorem showInt_ne_nil (v : ℤ) : showInt v ≠ [] := by
  cases v with
  | ofNat n => exact Nat.toDigits_ne_nil
  | negSucc n => exact List.cons_ne_nil _ _

theorem nulFree_showInt (v : ℤ) : NulFree (showInt v) := by
  cases v with
  | ofNat n => exact fun hnul ↦ absurd (all_isdigit_toDigits n _ hnul) (by decide)
  | negSucc n =>
    refine nulFree_cons.mpr ⟨by decide, fun hnul ↦ ?_⟩
    exact absurd (all_isdigit_toDigits (n + 1) _ hnul) (by decide)

private theorem takeWhile_isdigit_toDigits (n : ℕ) :
    (Nat.toDigits 10 n).takeWhile isdigit = Nat.toDigits 10 n :=
  List.takeWhile_eq_self_iff.mpr (all_isdigit_toDigits n)

private theorem dropWhile_isdigit_toDigits (n : ℕ) :
    (Nat.toDigits 10 n).dropWhile isdigit = [] :=
  List.dropWhile_eq_nil_iff.mpr (all_isdigit_toDigits n)

private theorem toDigits_eq_cons (n : ℕ) :
    ∃ c s, Nat.toDigits 10 n = c :: s ∧ isdigit c = true := by
  cases h : Nat.toDigits 10 n with
  | nil => exact absurd h Nat.toDigits_ne_nil
  | cons c s => exact ⟨c, s, rfl, all_isdigit_toDigits n c (h ▸ List.mem_cons_self)⟩

private theorem strtolSign_toDigits (n : ℕ) :
    strtolSign (Nat.toDigits 10 n) = (1, Nat.toDigits 10 n) := by
  obtain ⟨c, s, hcs, hc⟩ := toDigits_eq_cons n
  rw [hcs]
  unfold strtolSign
  split
  · simp_all [isdigit]
  · simp_all [isdigit]
  · rfl

/-- Reading a number back: `strtol` undoes `printf("%d")` within the range of `long`, and leaves
nothing unread. -/
theorem strtol_showInt {v : ℤ} (hlo : -2 ^ 63 ≤ v) (hhi : v ≤ 2 ^ 63 - 1) :
    strtol (showInt v) = (v, []) := by
  have hclamp : clampLong v = v := by rw [clampLong, min_eq_right hhi, max_eq_right hlo]
  cases v with
  | ofNat n =>
    obtain ⟨c, s, hcs, hc⟩ := toDigits_eq_cons n
    have hspace : (Nat.toDigits 10 n).dropWhile isspace = Nat.toDigits 10 n := by
      rw [hcs, List.dropWhile_cons_of_neg]
      simp [isspace_eq_false_of_isdigit hc]
    rw [strtol, showInt, hspace, strtolSign_toDigits]
    simp only [takeWhile_isdigit_toDigits, Nat.toDigits_ne_nil, if_false,
      dropWhile_isdigit_toDigits, Nat.ofDigitChars_ten_toDigits, one_mul]
    rw [← hclamp]
    rfl
  | negSucc n =>
    have hspace : ('-' :: Nat.toDigits 10 (n + 1)).dropWhile isspace
        = '-' :: Nat.toDigits 10 (n + 1) := rfl
    rw [strtol, showInt, hspace, strtolSign]
    simp only [takeWhile_isdigit_toDigits, Nat.toDigits_ne_nil, if_false,
      dropWhile_isdigit_toDigits, Nat.ofDigitChars_ten_toDigits]
    rw [show (-1 : ℤ) * ((n + 1 : ℕ) : ℤ) = Int.negSucc n by rw [Int.negSucc_eq]; push_cast; ring,
      hclamp]

/-- An `int` that is printed and read back is unchanged. -/
theorem toInt_strtol_showInt (fd : Int32) : toInt (strtol (showInt fd.toInt)).1 = fd := by
  have hlo := fd.le_toInt
  have hhi := fd.toInt_lt
  rw [strtol_showInt (by omega) (by omega), toInt, Int32.ofInt_toInt]

end Novash
