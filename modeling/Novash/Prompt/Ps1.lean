import Novash.Prompt.Text

/-!
# The prompt

`ps1.c`: the colours of a block, the table of blocks and `prompt_build_ps1`. The prompt is printed
to a buffer of 1024 bytes, three pieces a block: a leading symbol, the text and a trailing symbol,
each with a colour in front and a reset behind.

The offset goes forward by what `snprintf` returns, which is the length of the piece and not what
was stored of it. So nothing is cut off: a prompt that is too long is not shortened, but takes the
offset out of the buffer, and `sizeof(buf) - pos` wraps. The offset before each piece is the sum of
the pieces in front of it, and `FitsFrom` says that these sums stay inside.

Behind a trailing symbol the foreground colour is freed. That is the copy `get_reverse_color` made,
but where the symbols are not supported no copy was made, and the colour is the one in the table.
-/

namespace Novash

open Foundations

/-! ## Colours -/

structure PS1Color where
  fg : Option CStr
  bg : Option CStr

/-- `sscanf(seq, "\033[%dm", &code)`, with -1 where nothing is converted. -/
def extractCode : Option CStr → ℤ
  | some ('\x1b' :: '[' :: t) => if (strtol t).2 = t then -1 else (toInt (strtol t).1).toInt
  | _ => -1

/-- A foreground colour becomes the background colour of the same name, and the other way round. -/
def getReverseColor : Option CStr → Option CStr
  | none => none
  | some color =>
    let code := extractCode (some color)
    if code < 0 then some color
    else
      let code :=
        if 30 ≤ code ∧ code ≤ 37 ∨ 90 ≤ code ∧ code ≤ 97 then code + 10
        else if 40 ≤ code ∧ code ≤ 47 ∨ 100 ≤ code ∧ code ≤ 107 then code - 10
        else code
      some (("\x1b[".toList ++ showInt code ++ ['m']).take 15)

/-- The bytes `\001` and `\002` tell readline that what is between them is not printed. -/
def makeAnsiColor (fg bg : Option CStr) : CStr :=
  let fgCode := extractCode fg
  let bgCode := extractCode bg
  let buf :=
    if fgCode ≠ -1 ∧ bgCode ≠ -1 then
      "\x01\x1b[".toList ++ showInt fgCode ++ [';'] ++ showInt bgCode ++ "m\x02".toList
    else if fgCode ≠ -1 then "\x01\x1b[".toList ++ showInt fgCode ++ "m\x02".toList
    else if bgCode ≠ -1 then "\x01\x1b[".toList ++ showInt bgCode ++ "m\x02".toList
    else []
  buf.take 31

/-! ## Printing to the buffer -/

/-- What `snprintf(dst, max, ..)` stores for the text `s`, and its result as a `size_t`: the length
of `s`, or -1 where that is not an `int`. -/
def snprintf (max : ℕ) (s : CStr) : CStr × ℕ :=
  (if max = 0 then [] else s.take (max - 1) ++ ['\x00'],
    if s.length < 2 ^ 31 then s.length else 2 ^ 64 - 1)

/-- A text between its colour and the reset. -/
def coloredText (text : CStr) (color : PS1Color) (reverse : Bool) : CStr :=
  let fg := if reverse then getReverseColor color.fg else color.fg
  let bg := if reverse then getReverseColor color.bg else color.bg
  makeAnsiColor fg bg ++ text ++ "\x1b[0m".toList

def ps1ApplyColor (max : ℕ) (text : CStr) (color : PS1Color) (reverse : Bool) : CStr × ℕ :=
  snprintf max (coloredText text color reverse)

/-- `buf` and `pos` of `prompt_build_ps1`. -/
structure Ps1Buffer where
  buf : Buffer Char 1024
  pos : ℕ

/-- `pos += ps1_apply_color(buf + pos, sizeof(buf) - pos, text, color, reverse)`, unless the
difference wraps. -/
def Ps1Buffer.apply (text : CStr) (color : PS1Color) (reverse : Bool) (p : Ps1Buffer) :
    Option Ps1Buffer :=
  if 1024 < p.pos then none
  else do
    let (bytes, n) := ps1ApplyColor (1024 - p.pos) text color reverse
    let buf ← p.buf.write p.pos bytes
    return ⟨buf, (p.pos + n) % 2 ^ 64⟩

/-! ## Blocks -/

/-- An entry of `PS1_blocks` in front of the one whose text is `NULL`. -/
structure PS1Block where
  text : CStr
  leading : Option CStr
  trailing : Option CStr
  color : PS1Color
  nulFree : NulFree text ∧ (∀ s ∈ leading, NulFree s) ∧ ∀ s ∈ trailing, NulFree s

/-- The leading symbol, and `should_reverse` for it. -/
def leadingSymbol (utf8Supported : Bool) (b : PS1Block) : CStr × Bool :=
  match b.leading with
  | none => ([' '], false)
  | some leading => if utf8Supported then (leading, true) else ([' '], false)

/-- The trailing symbol with its colour, from the background of the block to that of the next. -/
def trailingSymbol (utf8Supported : Bool) (b : PS1Block) (next : Option PS1Block) :
    CStr × PS1Color :=
  match b.trailing with
  | none => ([' '], b.color)
  | some trailing =>
    if utf8Supported then
      (trailing, ⟨getReverseColor b.color.bg, next.bind fun b ↦ b.color.bg⟩)
    else ([' '], b.color)

/-- `free((void *)trailing_color.fg)` of a block with a trailing symbol can be done: the colour is
the copy of `get_reverse_color` or `NULL`, and not the colour in the table. -/
def CanFree (utf8Supported : Bool) (b : PS1Block) : Prop :=
  utf8Supported = true ∨ b.trailing = none ∨ b.color.fg = none

instance (utf8Supported : Bool) (b : PS1Block) : Decidable (CanFree utf8Supported b) :=
  inferInstanceAs (Decidable (_ ∨ _ ∨ _))

/-- The loop over the blocks, with what is printed on `stderr`. -/
def blockLoop (identity : ShellIdentity) (utf8Supported : Bool) :
    List PS1Block → Ps1Buffer → Option (Ps1Buffer × CStr)
  | [], p => some (p, [])
  | b :: blocks, p => do
    let (leading, shouldReverse) := leadingSymbol utf8Supported b
    let p ← p.apply leading b.color shouldReverse
    let (txt, err) ← ps1HandleText identity b.text
    let p ← p.apply txt b.color false
    let (trailing, trailingColor) := trailingSymbol utf8Supported b blocks.head?
    let p ← p.apply trailing trailingColor false
    guard (CanFree utf8Supported b)
    let (p, errs) ← blockLoop identity utf8Supported blocks p
    return (p, err ++ errs)

/-- The space that separates the prompt from the command, the NUL, and the copy that is returned. -/
def Ps1Buffer.finish (p : Ps1Buffer) : Option CStr := do
  let buf ← p.buf.write p.pos [' ']
  let buf ← buf.write (p.pos + 1) ['\x00']
  buf.read '\x00'

/-- The prompt, and what was printed on `stderr`. There is no result when `sizeof(buf) - pos` wraps
at a call of `ps1_apply_color`, when a byte is written outside of `buf`, or when a colour of the
table is freed. -/
def promptBuildPs1 (identity : ShellIdentity) (utf8Supported : Bool) (blocks : List PS1Block) :
    Option (CStr × CStr) := do
  let (p, err) ← blockLoop identity utf8Supported blocks ⟨.filled 1024 '\x00', 0⟩
  let ps1 ← p.finish
  return (ps1, err)

/-- The table that `prompt_symbols_init` makes. -/
def ps1Blocks (utf8Supported : Bool) : List PS1Block :=
  let trailingDiamond := if utf8Supported then "\xee\x82\xb4".toList else "[v]".toList
  have hdiamond : NulFree trailingDiamond := by cases utf8Supported <;> decide
  [⟨"\\u@\\h".toList, none, some trailingDiamond, ⟨none, some "\x1b[44m".toList⟩,
      by decide, by simp, by simpa using hdiamond⟩,
    ⟨"\\W".toList, none, some trailingDiamond, ⟨none, some "\x1b[42m".toList⟩,
      by decide, by simp, by simpa using hdiamond⟩]

/-! ## The pieces of a prompt -/

/-- What the three calls for a block print. -/
def blockPieces (identity : ShellIdentity) (utf8Supported : Bool) (b : PS1Block)
    (next : Option PS1Block) : List CStr :=
  let leading := leadingSymbol utf8Supported b
  let trailing := trailingSymbol utf8Supported b next
  [coloredText leading.1 b.color leading.2,
    coloredText ((expansion identity b.text).take 1023) b.color false,
    coloredText trailing.1 trailing.2 false]

def promptPieces (identity : ShellIdentity) (utf8Supported : Bool) : List PS1Block → List CStr
  | [] => []
  | b :: blocks =>
    blockPieces identity utf8Supported b blocks.head? ++ promptPieces identity utf8Supported blocks

/-- A call of `ps1_apply_color` that prints this piece. -/
def Ps1Buffer.print (p : Ps1Buffer) (piece : CStr) : Option Ps1Buffer :=
  if 1024 < p.pos then none
  else do
    let buf ← p.buf.write p.pos (snprintf (1024 - p.pos) piece).1
    return ⟨buf, (p.pos + (snprintf (1024 - p.pos) piece).2) % 2 ^ 64⟩

section

variable {identity : ShellIdentity} {utf8Supported : Bool} {p p' : Ps1Buffer} {piece : CStr}
  {pieces : List CStr}

theorem Ps1Buffer.apply_eq (text : CStr) (color : PS1Color) (reverse : Bool) (p : Ps1Buffer) :
    p.apply text color reverse = p.print (coloredText text color reverse) := rfl

/-- The loop prints the pieces one after the other, as long as it frees no colour of the table. -/
theorem map_fst_blockLoop (blocks : List PS1Block) : ∀ p : Ps1Buffer,
    (∀ b ∈ blocks, CanFree utf8Supported b) →
      (blockLoop identity utf8Supported blocks p).map Prod.fst
        = (promptPieces identity utf8Supported blocks).foldlM Ps1Buffer.print p := by
  induction blocks with
  | nil => exact fun _ _ ↦ rfl
  | cons b blocks ih =>
    intro p hfree
    obtain ⟨hb, hblocks⟩ := List.forall_mem_cons.mp hfree
    obtain ⟨err, htext⟩ := ps1HandleText_eq identity b.nulFree.1
    rw [blockLoop, promptPieces, blockPieces, htext]
    simp only [Ps1Buffer.apply_eq, List.cons_append, List.nil_append, List.foldlM_cons,
      Option.bind_eq_bind, Option.map_bind, Option.bind_some, Function.comp_def, ← ih _ hblocks,
      guard, if_pos hb]
    simp only [Option.pure_def, Option.map_eq_bind, Function.comp_def, Option.bind_some]

/-- Nothing comes behind the free of a colour of the table. -/
theorem blockLoop_eq_none {blocks : List PS1Block} {b : PS1Block} (hmem : b ∈ blocks)
    (hb : ¬CanFree utf8Supported b) : ∀ p, blockLoop identity utf8Supported blocks p = none := by
  induction blocks with
  | nil => exact absurd hmem List.not_mem_nil
  | cons b' blocks ih =>
    intro p
    cases hloop : blockLoop identity utf8Supported (b' :: blocks) p with
    | none => rfl
    | some r =>
      rw [blockLoop] at hloop
      obtain ⟨p₁, -, hloop⟩ := Option.bind_eq_some_iff.mp hloop
      obtain ⟨txt, -, hloop⟩ := Option.bind_eq_some_iff.mp hloop
      obtain ⟨p₂, -, hloop⟩ := Option.bind_eq_some_iff.mp hloop
      obtain ⟨p₃, -, hloop⟩ := Option.bind_eq_some_iff.mp hloop
      obtain ⟨_, hguard, hloop⟩ := Option.bind_eq_some_iff.mp hloop
      obtain ⟨r', hrest, -⟩ := Option.bind_eq_some_iff.mp hloop
      rcases List.mem_cons.mp hmem with rfl | hmem
      · rw [guard, if_neg hb] at hguard
        cases hguard
      · rw [ih hmem] at hrest
        cases hrest

/-! ## The offset -/

/-- How far a piece takes the offset. -/
def printedSize (piece : CStr) : ℤ := if piece.length < 2 ^ 31 then piece.length else -1

/-- The offset behind these pieces, from the offset in front of them. -/
def offset (pos : ℤ) (pieces : List CStr) : ℤ := pos + (pieces.map printedSize).sum

/-- The offset is inside in front of every piece, and behind the last there is room for a space and
a NUL. -/
structure FitsFrom (pos : ℤ) (pieces : List CStr) : Prop where
  before : ∀ pre, pre <+: pieces → 0 ≤ offset pos pre ∧ offset pos pre ≤ 1024
  behind : offset pos pieces ≤ 1022

theorem printedSize_mem (piece : CStr) : -1 ≤ printedSize piece ∧ printedSize piece < 2 ^ 31 := by
  unfold printedSize
  split_ifs <;> omega

theorem offset_nil (pos : ℤ) : offset pos [] = pos := add_zero pos

theorem offset_cons (pos : ℤ) (piece : CStr) (pieces : List CStr) :
    offset pos (piece :: pieces) = offset (pos + printedSize piece) pieces := by
  rw [offset, offset, List.map_cons, List.sum_cons, add_assoc]

theorem FitsFrom.inside {pos : ℤ} (h : FitsFrom pos pieces) : 0 ≤ pos ∧ pos ≤ 1024 := by
  have hbefore := h.before [] List.nil_prefix
  rwa [offset_nil] at hbefore

theorem fitsFrom_nil_iff {pos : ℤ} : FitsFrom pos [] ↔ 0 ≤ pos ∧ pos ≤ 1022 := by
  constructor
  · intro h
    have hbehind := h.behind
    rw [offset_nil] at hbehind
    exact ⟨h.inside.1, hbehind⟩
  · rintro ⟨hlo, hhi⟩
    refine ⟨fun pre hpre ↦ ?_, by rwa [offset_nil]⟩
    rw [List.prefix_nil.mp hpre, offset_nil]
    exact ⟨hlo, by omega⟩

theorem fitsFrom_cons_iff {pos : ℤ} : FitsFrom pos (piece :: pieces) ↔
    (0 ≤ pos ∧ pos ≤ 1024) ∧ FitsFrom (pos + printedSize piece) pieces := by
  constructor
  · intro h
    refine ⟨h.inside, fun pre hpre ↦ ?_, ?_⟩
    · rw [← offset_cons]
      exact h.before _ (List.cons_prefix_cons.mpr ⟨rfl, hpre⟩)
    · rw [← offset_cons]
      exact h.behind
  · rintro ⟨hpos, h⟩
    refine ⟨fun pre hpre ↦ ?_, by rw [offset_cons]; exact h.behind⟩
    rcases List.prefix_cons_iff.mp hpre with rfl | ⟨rest, rfl, hrest⟩
    · rwa [offset_nil]
    · rw [offset_cons]
      exact h.before rest hrest

/-- No piece is longer than an `int` can say: then only the length of all of them counts. -/
theorem fitsFrom_zero_iff_of_int (hint : ∀ piece ∈ pieces, piece.length < 2 ^ 31) :
    FitsFrom 0 pieces ↔ pieces.flatten.length ≤ 1022 := by
  have hoffset : ∀ pre, pre <+: pieces → offset 0 pre = pre.flatten.length := by
    intro pre hpre
    have hsize : pre.map printedSize = pre.map fun piece ↦ (piece.length : ℤ) :=
      List.map_congr_left fun piece hpiece ↦ if_pos (hint piece (hpre.subset hpiece))
    rw [offset, hsize, zero_add, List.length_flatten, Nat.cast_list_sum, List.map_map]
    rfl
  have hall := hoffset pieces List.prefix_rfl
  constructor
  · intro h
    have hbehind := h.behind
    rw [hall] at hbehind
    exact_mod_cast hbehind
  · intro h
    refine ⟨fun pre hpre ↦ ?_, by rw [hall]; exact_mod_cast h⟩
    obtain ⟨rest, rfl⟩ := hpre
    rw [hoffset pre (List.prefix_append _ _)]
    rw [List.flatten_append, List.length_append] at h
    omega

/-! ## Runs -/

/-- No more is stored than there is room for. -/
theorem length_snprintf_le (max : ℕ) (s : CStr) : (snprintf max s).1.length ≤ max := by
  unfold snprintf
  dsimp only
  split_ifs with hmax
  · exact Nat.zero_le _
  · rw [List.length_append, List.length_take, List.length_singleton]
    omega

/-- One piece: it is printed when the offset is inside, and takes the offset as far as its size
says. -/
theorem Ps1Buffer.exists_print (hpos : p.pos ≤ 1024) (piece : CStr) :
    ∃ p', p.print piece = some p' ∧ (p'.pos : ℤ) = (p.pos + printedSize piece) % 2 ^ 64 ∧
      (p.buf.Written → p'.buf.Written) := by
  have hroom : p.pos + (snprintf (1024 - p.pos) piece).1.length ≤ 1024 := by
    have hle := length_snprintf_le (1024 - p.pos) piece
    omega
  obtain ⟨buf, hwrite⟩ := Option.isSome_iff_exists.mp (Buffer.isSome_write_iff.mpr hroom)
  refine ⟨⟨buf, (p.pos + (snprintf (1024 - p.pos) piece).2) % 2 ^ 64⟩, ?_, ?_,
    fun hwritten ↦ hwritten.write hwrite⟩
  · rw [Ps1Buffer.print, if_neg (not_lt.mpr hpos), hwrite]
    rfl
  · rw [snprintf, printedSize]
    dsimp only
    split_ifs <;> push_cast <;> omega

/-- The pieces are printed and leave room for the space and the NUL exactly when the offsets stay
inside. -/
theorem exists_foldlM_print_iff (pieces : List CStr) : ∀ p : Ps1Buffer,
    (∃ p', pieces.foldlM Ps1Buffer.print p = some p' ∧ p'.pos + 1 < 1024) ↔
      FitsFrom p.pos pieces := by
  induction pieces with
  | nil =>
    intro p
    rw [fitsFrom_nil_iff]
    constructor
    · rintro ⟨p', hp', hpos⟩
      cases hp'
      omega
    · exact fun h ↦ ⟨p, rfl, by omega⟩
  | cons piece pieces ih =>
    intro p
    rw [fitsFrom_cons_iff, List.foldlM_cons]
    by_cases hpos : p.pos ≤ 1024
    · obtain ⟨p₁, hprint, hpos₁, -⟩ := Ps1Buffer.exists_print hpos piece
      rw [hprint, and_iff_right (by omega)]
      refine (ih p₁).trans ?_
      -- the offset wraps only where a piece without a size is the first one
      obtain ⟨hlo, hhi⟩ := printedSize_mem piece
      by_cases hneg : 0 ≤ p.pos + printedSize piece
      · rw [hpos₁, Int.emod_eq_of_lt hneg (by omega)]
      · refine iff_of_false (fun h ↦ ?_) fun h ↦ hneg h.inside.1
        have hinside := h.inside
        omega
    · rw [Ps1Buffer.print, if_pos (not_le.mp hpos)]
      refine iff_of_false ?_ fun h ↦ hpos (by omega)
      rintro ⟨_, hp', -⟩
      cases hp'

theorem written_foldlM_print (pieces : List CStr) : ∀ {p p' : Ps1Buffer}, p.buf.Written →
    pieces.foldlM Ps1Buffer.print p = some p' → p'.buf.Written := by
  induction pieces with
  | nil =>
    intro p p' hwritten h
    cases h
    exact hwritten
  | cons piece pieces ih =>
    intro p p' hwritten h
    rw [List.foldlM_cons] at h
    obtain ⟨p₁, hprint, h⟩ := Option.bind_eq_some_iff.mp h
    have hpos : p.pos ≤ 1024 := by
      by_contra hpos
      rw [Ps1Buffer.print, if_pos (not_le.mp hpos)] at hprint
      cases hprint
    obtain ⟨p₂, hprint₂, -, hkeeps⟩ := Ps1Buffer.exists_print hpos piece
    cases hprint.symm.trans hprint₂
    exact ih (hkeeps hwritten) h

/-- The space and the NUL are written, and the prompt is read back, when there is room for both. -/
theorem Ps1Buffer.isSome_finish_iff (hwritten : p.buf.Written) :
    p.finish.isSome = true ↔ p.pos + 1 < 1024 := by
  unfold Ps1Buffer.finish
  constructor
  · intro h
    obtain ⟨copy, h⟩ := Option.isSome_iff_exists.mp h
    obtain ⟨buf, -, h⟩ := Option.bind_eq_some_iff.mp h
    obtain ⟨buf', hnul, -⟩ := Option.bind_eq_some_iff.mp h
    exact Buffer.isSome_write_iff.mp (Option.isSome_of_mem hnul)
  · intro hpos
    obtain ⟨buf, hspace⟩ := Option.isSome_iff_exists.mp
      (Buffer.isSome_write_iff.mpr (by simp only [List.length_singleton]; omega) :
        (p.buf.write p.pos [' ']).isSome = true)
    obtain ⟨buf', hnul⟩ := Option.isSome_iff_exists.mp
      (Buffer.isSome_write_iff.mpr hpos : (buf.write (p.pos + 1) ['\x00']).isSome = true)
    rw [hspace, Option.bind_eq_bind, Option.bind_some, hnul]
    exact Buffer.isSome_readCells ((hwritten.write hspace).write hnul)
      (Buffer.mem_cells_of_write hnul List.mem_cons_self)

/-- **The prompt.** The offset stays inside the buffer, to the final NUL, exactly when the sums of
the sizes of the pieces do, and no colour of the table is freed on the way. -/
theorem isSome_promptBuildPs1_iff (identity : ShellIdentity) (utf8Supported : Bool)
    (blocks : List PS1Block) :
    (promptBuildPs1 identity utf8Supported blocks).isSome = true ↔
      FitsFrom 0 (promptPieces identity utf8Supported blocks) ∧
        ∀ b ∈ blocks, CanFree utf8Supported b := by
  by_cases hfree : ∀ b ∈ blocks, CanFree utf8Supported b
  swap
  · obtain ⟨b, hmem, hb⟩ : ∃ b ∈ blocks, ¬CanFree utf8Supported b := by simpa using hfree
    refine iff_of_false ?_ fun h ↦ hfree h.2
    rw [promptBuildPs1, blockLoop_eq_none hmem hb]
    exact Bool.false_ne_true
  rw [and_iff_left hfree]
  refine Iff.trans ?_ (exists_foldlM_print_iff _ ⟨.filled 1024 '\x00', 0⟩)
  rw [← map_fst_blockLoop _ _ hfree, promptBuildPs1]
  cases hloop : blockLoop identity utf8Supported blocks ⟨.filled 1024 '\x00', 0⟩ with
  | none => exact iff_of_false Bool.false_ne_true fun h ↦ nomatch h.choose_spec.1
  | some r =>
    obtain ⟨p, err⟩ := r
    have hfold : (promptPieces identity utf8Supported blocks).foldlM Ps1Buffer.print
        ⟨.filled 1024 '\x00', 0⟩ = some p := by
      rw [← map_fst_blockLoop _ _ hfree, hloop]
      rfl
    have hwritten := written_foldlM_print _ (Buffer.written_filled 1024 '\x00') hfold
    simp only [Option.map_some, Option.some.injEq, exists_eq_left']
    rw [← Ps1Buffer.isSome_finish_iff hwritten]
    cases hfinish : p.finish <;> simp [hfinish]

/-- The prompt of a table with one block, the working directory, in a long directory. -/
theorem not_isSome_promptBuildPs1 : ¬∀ (identity : ShellIdentity) (utf8Supported : Bool)
    (blocks : List PS1Block), (promptBuildPs1 identity utf8Supported blocks).isSome = true := by
  intro h
  have hlong := h ⟨"ann".toList, "box".toList, '/' :: List.replicate 1100 'a', 1000,
    by decide +kernel⟩ true [⟨"\\w".toList, none, none, ⟨none, none⟩, by decide, by simp, by simp⟩]
  exact absurd hlong (by decide +kernel)

/-! ## Prompts that fit -/

/-- What has been printed is what the buffer starts with. -/
structure Ps1Buffer.Holds (p : Ps1Buffer) (xs : CStr) : Prop where
  pos : p.pos = xs.length
  buf : p.buf.StartsWith xs

theorem Ps1Buffer.Holds.print {xs : CStr} (h : p.Holds xs) (piece : CStr)
    (hroom : xs.length + piece.length ≤ 1023) :
    ∃ p', p.print piece = some p' ∧ p'.Holds (xs ++ piece) := by
  have hpos : ¬1024 < p.pos := by rw [h.pos]; omega
  have hstored : (snprintf (1024 - p.pos) piece).1 = piece ++ ['\x00'] := by
    rw [snprintf, if_neg (by rw [h.pos]; omega), List.take_of_length_le (by rw [h.pos]; omega)]
  have hsize : (snprintf (1024 - p.pos) piece).2 = piece.length := if_pos (by omega)
  obtain ⟨buf, hwrite, hstarts⟩ := h.buf.write (piece ++ ['\x00'])
    (by rw [List.length_append, List.length_singleton]; omega)
  refine ⟨⟨buf, (p.pos + piece.length) % 2 ^ 64⟩, ?_, ?_, ?_⟩
  · rw [Ps1Buffer.print, if_neg hpos, hstored, hsize, h.pos, hwrite]
    rfl
  · dsimp only
    rw [List.length_append, h.pos, Nat.mod_eq_of_lt (by omega)]
  · rw [← List.append_assoc] at hstarts
    exact hstarts.shorten (List.prefix_append _ _)

theorem Ps1Buffer.Holds.foldlM_print (pieces : List CStr) : ∀ {p : Ps1Buffer} {xs : CStr},
    p.Holds xs → xs.length + pieces.flatten.length ≤ 1023 →
      ∃ p', pieces.foldlM Ps1Buffer.print p = some p' ∧ p'.Holds (xs ++ pieces.flatten) := by
  induction pieces with
  | nil =>
    intro p xs h _
    rw [List.flatten_nil, List.append_nil]
    exact ⟨p, rfl, h⟩
  | cons piece pieces ih =>
    intro p xs h hroom
    rw [List.flatten_cons, List.length_append] at hroom
    obtain ⟨p₁, hprint, h₁⟩ := h.print piece (by omega)
    obtain ⟨p', hfold, h'⟩ := ih h₁ (by rw [List.length_append]; omega)
    refine ⟨p', ?_, by rwa [List.flatten_cons, ← List.append_assoc]⟩
    rw [List.foldlM_cons, hprint]
    exact hfold

theorem Ps1Buffer.Holds.finish {xs : CStr} (h : p.Holds xs) (hroom : xs.length ≤ 1022)
    (hnul : NulFree xs) : p.finish = some (xs ++ [' ']) := by
  obtain ⟨buf, hspace, hstarts⟩ := h.buf.write [' '] (by rw [List.length_singleton]; omega)
  obtain ⟨buf', hwrite, hstarts'⟩ := hstarts.write ['\x00']
    (by simp only [List.length_append, List.length_singleton]; omega)
  rw [List.length_append, List.length_singleton] at hwrite
  have hread := hstarts'.read (nulFree_append.mpr ⟨hnul, by decide⟩)
  rw [Ps1Buffer.finish, h.pos, hspace]
  simp only [Option.bind_eq_bind, Option.bind_some, hwrite, hread]

theorem nulFree_makeAnsiColor (fg bg : Option CStr) : NulFree (makeAnsiColor fg bg) := by
  refine fun hnul ↦ ?_
  have hmem := List.mem_of_mem_take hnul
  revert hmem
  change NulFree _
  split_ifs <;> simp [nulFree_showInt]

theorem nulFree_coloredText {text : CStr} (h : NulFree text) (color : PS1Color) (reverse : Bool) :
    NulFree (coloredText text color reverse) :=
  nulFree_append.mpr ⟨nulFree_append.mpr ⟨nulFree_makeAnsiColor _ _, h⟩, by decide⟩

/-- A blank stands for a symbol that is missing or cannot be shown. -/
theorem fst_leadingSymbol (utf8Supported : Bool) (b : PS1Block) :
    (leadingSymbol utf8Supported b).1 = if utf8Supported then b.leading.getD [' '] else [' '] := by
  unfold leadingSymbol
  cases b.leading <;> cases utf8Supported <;> rfl

theorem fst_trailingSymbol (utf8Supported : Bool) (b : PS1Block) (next : Option PS1Block) :
    (trailingSymbol utf8Supported b next).1
      = if utf8Supported then b.trailing.getD [' '] else [' '] := by
  unfold trailingSymbol
  cases b.trailing <;> cases utf8Supported <;> rfl

theorem nulFree_symbol {symbol : Option CStr} (h : ∀ s ∈ symbol, NulFree s) :
    NulFree (if utf8Supported then symbol.getD [' '] else [' ']) := by
  have hblank : NulFree [' '] := by decide
  split_ifs
  · cases symbol with
    | none => exact hblank
    | some s => exact h s rfl
  · exact hblank

theorem nulFree_promptPieces (blocks : List PS1Block) :
    NulFree (promptPieces identity utf8Supported blocks).flatten := by
  induction blocks with
  | nil => exact nulFree_nil
  | cons b blocks ih =>
    have htext : NulFree ((expansion identity b.text).take 1023) :=
      fun hnul ↦ nulFree_expansion b.nulFree.1 (List.mem_of_mem_take hnul)
    rw [promptPieces, List.flatten_append]
    refine nulFree_append.mpr ⟨?_, ih⟩
    simp only [blockPieces, List.flatten_cons, List.flatten_nil, nulFree_append, nulFree_nil,
      and_true]
    rw [fst_leadingSymbol, fst_trailingSymbol]
    exact ⟨nulFree_coloredText (nulFree_symbol b.nulFree.2.1) _ _, nulFree_coloredText htext _ _,
      nulFree_coloredText (nulFree_symbol b.nulFree.2.2) _ _⟩

/-- A prompt that fits is returned whole, with a space behind it. -/
theorem promptBuildPs1_of_length_le {blocks : List PS1Block}
    (hfree : ∀ b ∈ blocks, CanFree utf8Supported b)
    (h : (promptPieces identity utf8Supported blocks).flatten.length ≤ 1022) :
    ∃ err, promptBuildPs1 identity utf8Supported blocks
      = some ((promptPieces identity utf8Supported blocks).flatten ++ [' '], err) := by
  have hstart : Ps1Buffer.Holds ⟨.filled 1024 '\x00', 0⟩ [] := ⟨rfl, Buffer.startsWith_nil _⟩
  obtain ⟨p, hfold, hp⟩ := hstart.foldlM_print (promptPieces identity utf8Supported blocks)
    (by rw [List.length_nil]; omega)
  rw [List.nil_append] at hp
  have hfinish := hp.finish h (nulFree_promptPieces blocks)
  rw [← map_fst_blockLoop _ _ hfree] at hfold
  obtain ⟨⟨_, err⟩, hloop, rfl⟩ := Option.map_eq_some_iff.mp hfold
  refine ⟨err, ?_⟩
  rw [promptBuildPs1, hloop]
  simp only [Option.bind_eq_bind, Option.bind_some, hfinish]
  rfl

theorem length_coloredText_le (text : CStr) (color : PS1Color) (reverse : Bool) :
    (coloredText text color reverse).length ≤ text.length + 35 := by
  have hcolor : ∀ fg bg, (makeAnsiColor fg bg).length ≤ 31 := fun _ _ ↦ List.length_take_le _ _
  have hreset : "\x1b[0m".toList.length = 4 := by decide
  have hle := hcolor (if reverse then getReverseColor color.fg else color.fg)
    (if reverse then getReverseColor color.bg else color.bg)
  rw [coloredText, List.length_append, List.length_append, hreset]
  omega

theorem length_blockPieces_le (identity : ShellIdentity) (utf8Supported : Bool) (b : PS1Block)
    (next : Option PS1Block) :
    (blockPieces identity utf8Supported b next).flatten.length
      ≤ (leadingSymbol utf8Supported b).1.length + (expansion identity b.text).length
        + (trailingSymbol utf8Supported b next).1.length + 105 := by
  have htext := List.length_take_le 1023 (expansion identity b.text)
  have h₁ := length_coloredText_le (leadingSymbol utf8Supported b).1 b.color
    (leadingSymbol utf8Supported b).2
  have h₂ := length_coloredText_le ((expansion identity b.text).take 1023) b.color false
  have h₃ := length_coloredText_le (trailingSymbol utf8Supported b next).1
    (trailingSymbol utf8Supported b next).2 false
  simp only [blockPieces, List.flatten_cons, List.flatten_nil, List.length_append,
    List.length_nil]
  rw [List.length_take] at h₂
  omega

/-- The table of the shell fits, for names as long as the identity holds. -/
theorem promptBuildPs1_ps1Blocks (huser : identity.username.length ≤ 255)
    (hhost : identity.hostname.length ≤ 255)
    (hname : ((ps1Escape identity 'W').getD []).length ≤ 255) :
    ∃ err, promptBuildPs1 identity utf8Supported (ps1Blocks utf8Supported)
      = some ((promptPieces identity utf8Supported (ps1Blocks utf8Supported)).flatten ++ [' '],
        err) := by
  have hfree : ∀ b ∈ ps1Blocks utf8Supported, CanFree utf8Supported b := by
    simp [ps1Blocks, CanFree]
  refine promptBuildPs1_of_length_le hfree ?_
  have huserhost : (expansion identity "\\u@\\h".toList).length
      = identity.username.length + identity.hostname.length + 1 := by
    simp [expansion, ps1Escape]
    omega
  have hcwd : (expansion identity "\\W".toList).length
      = ((ps1Escape identity 'W').getD []).length := by
    simp [expansion]
  have hle : ∀ b ∈ ps1Blocks utf8Supported, ∀ next,
      (leadingSymbol utf8Supported b).1.length + (trailingSymbol utf8Supported b next).1.length
        ≤ 4 := by
    intro b hb next
    rw [fst_leadingSymbol, fst_trailingSymbol]
    revert b
    cases utf8Supported <;> simp [ps1Blocks]
  obtain ⟨b₁, b₂, htable, htext₁, htext₂⟩ : ∃ b₁ b₂, ps1Blocks utf8Supported = [b₁, b₂] ∧
      b₁.text = "\\u@\\h".toList ∧ b₂.text = "\\W".toList := ⟨_, _, rfl, rfl, rfl⟩
  rw [htable] at hle ⊢
  have hle₁ := hle b₁ List.mem_cons_self (some b₂)
  have hle₂ := hle b₂ (List.mem_cons_of_mem _ List.mem_cons_self) none
  have hblock₁ := length_blockPieces_le identity utf8Supported b₁ (some b₂)
  have hblock₂ := length_blockPieces_le identity utf8Supported b₂ none
  rw [htext₁, huserhost] at hblock₁
  rw [htext₂, hcwd] at hblock₂
  simp only [promptPieces, List.append_nil, List.flatten_append, List.length_append,
    List.head?_cons, List.head?_nil]
  omega

end

end Novash
