import Novash.Basic.CString
import Novash.Foundations.Buffers

/-!
# The text of a prompt block

`ps1.c`: `ps1_handle_text`. The text of a block is copied to a buffer of 1024 bytes, and each escape
in it is replaced on the way. What does not fit in front of the final NUL is cut off: in the middle
of a replacement, or by leaving the loop.

`expansion` is the text with its escapes replaced, of whatever length. The buffer holds the first
1023 bytes of what has been expanded so far, in every turn of the loop (`Ps1Text.Holds`).
-/

namespace Novash

open Foundations

/-- The fields of `shell_identity_t` that a prompt is made of. -/
structure ShellIdentity where
  username : CStr
  hostname : CStr
  cwd : CStr
  uid : ℕ
  nulFree : NulFree username ∧ NulFree hostname ∧ NulFree cwd

/-- `strrchr`: the string from the last `c` on. -/
def strrchr (s : CStr) (c : Char) : Option CStr :=
  if c ∈ s then some (c :: (s.reverse.takeWhile (· ≠ c)).reverse) else none

/-- What an escape is replaced by. -/
def ps1Escape (identity : ShellIdentity) : Char → Option CStr
  | 'u' => some identity.username
  | 'h' => some identity.hostname
  | 'w' => some identity.cwd
  | 'W' =>
    match strrchr identity.cwd '/' with
    | some (_ :: c :: name) => some (c :: name)
    | _ => some ['/']
  | '$' => some (if identity.uid = 0 then "# ".toList else "$ ".toList)
  | _ => none

/-- The state of the loop, with what it has printed on `stderr`. -/
structure Ps1Text where
  output : Buffer Char 1024
  pos : ℕ
  err : CStr

/-- Copy the bytes to `output + pos`. -/
def Ps1Text.put (bytes : CStr) (st : Ps1Text) : Option Ps1Text := do
  let output ← st.output.write st.pos bytes
  return { st with output, pos := st.pos + bytes.length }

/-- `\c`, for any byte `c`. -/
def Ps1Text.replace (identity : ShellIdentity) (c : Char) (st : Ps1Text) : Option Ps1Text :=
  let rep := (ps1Escape identity c).getD []
  let err := if (ps1Escape identity c).isNone
    then st.err ++ "Unknown PS1 escape \\".toList ++ [c, '\n'] else st.err
  let rlen := if st.pos + rep.length ≥ 1023 then 1023 - st.pos else rep.length
  { st with err }.put (rep.take rlen)

def textLoop (identity : ShellIdentity) : CStr → Ps1Text → Option Ps1Text
  | [], st => some st
  | c :: text, st =>
    if st.pos < 1023 then
      if c = '\\' then
        match text with
        | [] => some st
        | c :: text => st.replace identity c >>= textLoop identity text
      else st.put [c] >>= textLoop identity text
    else some st

/-- The text, and what was printed on `stderr`; there is no result after a write outside of the
buffer. -/
def ps1HandleText (identity : ShellIdentity) (text : CStr) : Option (CStr × CStr) := do
  let st ← textLoop identity text ⟨.blank 1024, 0, []⟩
  let output ← st.output.write st.pos ['\x00']
  let copy ← output.read '\x00'
  return (copy, st.err)

/-! ## What the text stands for -/

/-- Escapes are replaced, unknown ones and a backslash at the very end are dropped, and every other
byte is copied. -/
def expansion (identity : ShellIdentity) : CStr → CStr
  | [] => []
  | c :: text =>
    if c = '\\' then
      match text with
      | [] => []
      | c :: text => (ps1Escape identity c).getD [] ++ expansion identity text
    else c :: expansion identity text

section

variable {identity : ShellIdentity} {text xs : CStr} {st : Ps1Text}

theorem subset_of_strrchr {s t : CStr} {c : Char} (h : strrchr s c = some t) : t ⊆ s := by
  unfold strrchr at h
  split_ifs at h with hc
  cases h
  refine List.cons_subset.mpr ⟨hc, fun d hd ↦ ?_⟩
  exact List.mem_reverse.mp ((List.takeWhile_prefix _).subset (List.mem_reverse.mp hd))

theorem nulFree_of_ps1Escape {c : Char} {rep : CStr} (h : ps1Escape identity c = some rep) :
    NulFree rep := by
  obtain ⟨huser, hhost, hcwd⟩ := identity.nulFree
  unfold ps1Escape at h
  split at h
  · cases h
    exact huser
  · cases h
    exact hhost
  · cases h
    exact hcwd
  · split at h
    · next hlast =>
      cases h
      exact fun hnul ↦ hcwd (subset_of_strrchr hlast (List.mem_cons_of_mem _ hnul))
    · cases h
      decide
  · cases h
    split <;> decide
  · cases h

theorem nulFree_expansion (htext : NulFree text) : NulFree (expansion identity text) := by
  fun_induction expansion identity text with
  | case1 => exact nulFree_nil
  | case2 => exact nulFree_nil
  | case3 c text ih =>
    obtain ⟨-, htext⟩ := nulFree_cons.mp (nulFree_cons.mp htext).2
    refine nulFree_append.mpr ⟨?_, ih htext⟩
    cases hrep : ps1Escape identity c with
    | none => exact nulFree_nil
    | some rep => exact nulFree_of_ps1Escape hrep
  | case4 c text hc ih =>
    obtain ⟨hnul, htext⟩ := nulFree_cons.mp htext
    exact nulFree_cons.mpr ⟨hnul, ih htext⟩

/-! ## What the buffer holds -/

/-- The buffer starts with these bytes, and has room for a NUL behind them. -/
structure Ps1Text.Holds (st : Ps1Text) (xs : CStr) : Prop where
  pos : st.pos = xs.length
  output : st.output.StartsWith xs
  fits : xs.length ≤ 1023

theorem Ps1Text.Holds.put (h : st.Holds xs) (bytes : CStr)
    (hroom : xs.length + bytes.length ≤ 1023) :
    ∃ st', st.put bytes = some st' ∧ st'.Holds (xs ++ bytes) := by
  obtain ⟨output, hwrite, hstarts⟩ := h.output.write bytes (by omega)
  rw [← List.length_append] at hroom
  refine ⟨{ st with output, pos := st.pos + bytes.length }, ?_, ?_, hstarts, hroom⟩
  · rw [Ps1Text.put, h.pos, hwrite]
    rfl
  · rw [List.length_append, h.pos]

theorem Ps1Text.Holds.withErr (h : st.Holds xs) (err : CStr) :
    Ps1Text.Holds { st with err } xs := ⟨h.pos, h.output, h.fits⟩

/-- As much of the replacement is copied as fits. -/
theorem Ps1Text.Holds.replace (h : st.Holds xs) (identity : ShellIdentity) (c : Char) :
    ∃ st', st.replace identity c = some st' ∧
      st'.Holds ((xs ++ (ps1Escape identity c).getD []).take 1023) := by
  have hfits := h.fits
  have htake : ∀ rep : CStr,
      rep.take (if st.pos + rep.length ≥ 1023 then 1023 - st.pos else rep.length)
        = rep.take (1023 - xs.length) := by
    intro rep
    rw [h.pos]
    split_ifs with hfull
    · rfl
    · rw [List.take_length, List.take_of_length_le (by omega)]
  rw [List.take_append, List.take_of_length_le hfits, Ps1Text.replace, htake]
  refine (h.withErr _).put _ ?_
  rw [List.length_take]
  omega

theorem textLoop_escape (c : Char) (text : CStr) (h : st.pos < 1023) :
    textLoop identity ('\\' :: c :: text) st
      = st.replace identity c >>= textLoop identity text := by
  rw [textLoop.eq_def]
  exact if_pos h

theorem textLoop_copy {c : Char} (hc : c ≠ '\\') (text : CStr) (h : st.pos < 1023) :
    textLoop identity (c :: text) st = st.put [c] >>= textLoop identity text := by
  rw [textLoop.eq_def]
  dsimp only
  rw [if_pos h, if_neg hc]

/-- Nothing is copied to a buffer that is full. -/
theorem Ps1Text.Holds.full (h : st.Holds xs) (hpos : ¬st.pos < 1023) (text ys : CStr) :
    ∃ st', textLoop identity text st = some st' ∧ st'.Holds ((xs ++ ys).take 1023) := by
  have hlen : xs.length = 1023 := le_antisymm h.fits (h.pos ▸ not_lt.mp hpos)
  rw [List.take_left' hlen]
  refine ⟨st, ?_, h⟩
  cases text with
  | nil => rfl
  | cons c text =>
    rw [textLoop.eq_def]
    exact if_neg hpos

/-- One turn after the other, the buffer holds the beginning of the expansion. -/
theorem Ps1Text.Holds.textLoop (h : st.Holds xs) (text : CStr) :
    ∃ st', textLoop identity text st = some st' ∧
      st'.Holds ((xs ++ expansion identity text).take 1023) := by
  fun_induction expansion identity text generalizing st xs with
  | case1 =>
    rw [List.append_nil, List.take_of_length_le h.fits]
    exact ⟨st, rfl, h⟩
  | case2 =>
    rw [List.append_nil, List.take_of_length_le h.fits]
    exact ⟨st, by simp [Novash.textLoop], h⟩
  | case3 c text ih =>
    by_cases hpos : st.pos < 1023
    · obtain ⟨st₁, hreplace, h₁⟩ := h.replace identity c
      obtain ⟨st', hloop, h'⟩ := ih h₁
      rw [textLoop_escape c text hpos, hreplace]
      refine ⟨st', hloop, ?_⟩
      rwa [take_append_take, List.append_assoc] at h'
    · exact h.full hpos _ _
  | case4 c text hc ih =>
    by_cases hpos : st.pos < 1023
    · obtain ⟨st₁, hput, h₁⟩ := h.put [c] (h.pos ▸ hpos)
      obtain ⟨st', hloop, h'⟩ := ih h₁
      rw [textLoop_copy hc text hpos, hput]
      refine ⟨st', hloop, ?_⟩
      rwa [List.append_assoc] at h'
    · exact h.full hpos _ _

/-- **The text of a block.** What is returned are the first 1023 bytes of the expansion, and no byte
is written outside of the buffer. -/
theorem ps1HandleText_eq (identity : ShellIdentity) {text : CStr} (htext : NulFree text) :
    ∃ err, ps1HandleText identity text = some ((expansion identity text).take 1023, err) := by
  have hstart : Ps1Text.Holds ⟨.blank 1024, 0, []⟩ [] :=
    ⟨rfl, Buffer.startsWith_nil _, Nat.zero_le _⟩
  obtain ⟨st, hloop, h⟩ := hstart.textLoop text
  rw [List.nil_append] at h
  obtain ⟨output, hwrite, hstarts⟩ := h.output.write ['\x00'] (Nat.succ_le_succ h.fits)
  have hread : output.read '\x00' = some ((expansion identity text).take 1023) :=
    hstarts.read fun hnul ↦ nulFree_expansion htext (List.mem_of_mem_take hnul)
  refine ⟨st.err, ?_⟩
  rw [ps1HandleText, hloop]
  simp only [Option.bind_eq_bind, Option.bind_some, h.pos, hwrite, hread]
  rfl

/-- `\u@\h`, the text of the first block of the shell. -/
theorem ps1HandleText_eq_user_host :
    ∃ err, ps1HandleText ⟨"ann".toList, "box".toList, "/".toList, 1000, by decide⟩ "\\u@\\h".toList
      = some ("ann@box".toList, err) :=
  ps1HandleText_eq ⟨"ann".toList, "box".toList, "/".toList, 1000, by decide⟩
    (by decide : NulFree "\\u@\\h".toList)

end

end Novash
