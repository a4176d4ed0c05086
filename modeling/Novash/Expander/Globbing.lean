import Novash.Expander.Pipeline
import Novash.Foundations.Patterns

/-!
# Wildcards and quoting

A word with a wildcard is one pattern for `glob(3)`: the values of its parts, in order. A wildcard
should match a piece of a path, and any other part should be its piece. But nothing in the pattern
says where a part begins, and the bytes of a literal part are not quoted, so that `'*'?` finds every
name of at least one byte.

`quotedPattern` is the word with the literal parts quoted. What it matches is what splits as it
should (`splitsInto_iff`), and so the paths that go wrong are those that only the flattened word
matches.
-/

namespace Novash

open Foundations WordPartType

/-! ## Paths that split as the word does -/

/-- `glob(3)` returns the existing paths that match the pattern, and no others. -/
def GlobsPaths (scan : BracketScan) (existing : CStr → Prop) (glob : CStr → GlobResult) : Prop :=
  ∀ pattern path, path ∈ (glob pattern).pathv ↔ existing path ∧ MatchesPath scan pattern path

/-- The part as a pattern by itself; a part that is not a wildcard stands for its expanded value. -/
def partPattern (scan : BracketScan) (env : ExpandEnv) (part : WordPart) :
    List (PatternItem Char) :=
  if part.type = wordGlob then readPattern scan part.value
  else (expandedValue env part).map PatternItem.char

/-- The word with its literal parts quoted. -/
def quotedPattern (scan : BracketScan) (env : ExpandEnv) (parts : Word) :
    List (PatternItem Char) :=
  (parts.map (partPattern scan env)).flatten

/-- What a part is for in a path: a wildcard matches its piece, and any other part is its piece. -/
def PieceOf (scan : BracketScan) (env : ExpandEnv) (part : WordPart) (piece : CStr) : Prop :=
  if part.type = wordGlob then matchItems '/' (readPattern scan part.value) piece = true
  else piece = expandedValue env part

/-- The path is made of a piece for each part. -/
def SplitsInto (scan : BracketScan) (env : ExpandEnv) (parts : Word) (path : CStr) : Prop :=
  ∃ pieces : List CStr, pieces.flatten = path ∧ List.Forall₂ (PieceOf scan env) parts pieces

section

variable {scan : BracketScan} {env : ExpandEnv} {existing : CStr → Prop} {parts : Word}
  {argv : List CStr}

theorem pieceOf_iff (part : WordPart) (piece : CStr) :
    PieceOf scan env part piece ↔ matchItems '/' (partPattern scan env part) piece = true := by
  rw [PieceOf, partPattern]
  split
  · rfl
  · exact matchItems_map_char.symm

theorem splitsInto_iff (path : CStr) :
    SplitsInto scan env parts path ↔ matchItems '/' (quotedPattern scan env parts) path = true := by
  rw [quotedPattern, matchItems_flatten_iff]
  simp only [SplitsInto, List.forall₂_map_left_iff, ← pieceOf_iff]

/-! ## What a word is replaced by -/

/-- A part after both passes. -/
def expandedPart (env : ExpandEnv) (part : WordPart) : WordPart where
  type := if part.type = wordGlob then wordGlob else wordLiteral
  quote := part.quote
  value := expandedValue env part

theorem eq_of_passes {out : Word}
    (h : passExpandTilde env (passExpandParams env parts) = .ok out) :
    out = parts.map (expandedPart env) := by
  induction parts generalizing out with
  | nil => exact (Except.ok.inj h).symm
  | cons part parts ih =>
    rw [passExpandParams, List.map_cons, ← passExpandParams] at h
    obtain ⟨type, quote, value⟩ := part
    cases type with
    | wordLiteral =>
      rw [if_neg (by simp), passExpandTilde, if_pos (by simp)] at h
      obtain ⟨rest, hrest, h⟩ := bind_ok.mp h
      rw [← Except.ok.inj h, List.map_cons, ← ih hrest]
      rfl
    | wordVariable =>
      rw [if_pos rfl, passExpandTilde, if_pos (by simp)] at h
      obtain ⟨rest, hrest, h⟩ := bind_ok.mp h
      rw [← Except.ok.inj h, List.map_cons, ← ih hrest]
      rfl
    | wordTilde =>
      rw [if_neg (by simp), passExpandTilde, if_neg (by simp)] at h
      split at h
      · cases h
      · next dir hdir =>
        obtain ⟨rest, hrest, h⟩ := bind_ok.mp h
        rw [← Except.ok.inj h, List.map_cons, ← ih hrest]
        simp [expandedPart, expandedValue, hdir]
    | wordGlob =>
      rw [if_neg (by simp), passExpandTilde, if_pos (by simp)] at h
      obtain ⟨rest, hrest, h⟩ := bind_ok.mp h
      rw [← Except.ok.inj h, List.map_cons, ← ih hrest]
      rfl

theorem buildStrFromParts_expandedPart (env : ExpandEnv) (parts : Word) :
    buildStrFromParts (parts.map (expandedPart env)) = expandedWord env parts := by
  rw [buildStrFromParts, expandedWord, List.map_map]
  rfl

/-- A word with a wildcard is replaced by what `glob(3)` finds for its text. -/
theorem eq_pathv_of_expandArgvParts (hpart : ∃ part ∈ parts, part.type = wordGlob)
    (h : expandArgvParts env [parts] = .ok argv) :
    argv = (env.glob (expandedWord env parts)).pathv := by
  rw [expandArgvParts] at h
  obtain ⟨out, hout, h⟩ := bind_ok.mp h
  obtain ⟨entry, hentry, h⟩ := bind_ok.mp h
  rw [eq_of_passes hout] at hentry
  have hargv : entry = argv := by
    have hnil : expandArgvParts env [] = .ok [] := rfl
    rw [hnil] at h
    simpa using Except.ok.inj h
  subst hargv
  have hpass : passGlob env (parts.map (expandedPart env)) = .ok entry := by
    unfold argvEntry at hentry
    split at hentry
    · next part hsingle =>
      obtain ⟨p, hp, htype⟩ := hpart
      obtain ⟨q, rfl, hq⟩ := List.map_eq_singleton_iff.mp hsingle
      rw [List.mem_singleton] at hp
      subst hp
      have hliteral : part.type ≠ wordLiteral := by
        simp [← hq, expandedPart, htype]
      rwa [if_neg hliteral] at hentry
    · exact hentry
  rw [passGlob, buildStrFromParts_expandedPart] at hpass
  split at hpass
  · cases hpass
  · exact (Except.ok.inj hpass).symm

/-- **Quoting.** Every path that replaces a word with a wildcard splits as the word does exactly
when every existing path that the text of the word matches is matched by the word with its literal
parts quoted. -/
theorem splitsInto_substituted_iff (hglob : GlobsPaths scan existing env.glob)
    (hpart : ∃ part ∈ parts, part.type = wordGlob)
    (h : expandArgvParts env [parts] = .ok argv) :
    (∀ path ∈ argv, SplitsInto scan env parts path) ↔
      ∀ path, existing path → MatchesPath scan (expandedWord env parts) path →
        matchItems '/' (quotedPattern scan env parts) path = true := by
  rw [eq_pathv_of_expandArgvParts hpart h]
  simp only [hglob _ _, splitsInto_iff, and_imp]

/-! ## Words whose literal parts need no quotes -/

/-- The part reads the same in a longer pattern: a wildcard that is complete, or bytes that are no
more than themselves. -/
def ReadsAlone (scan : BracketScan) (env : ExpandEnv) (part : WordPart) : Prop :=
  if part.type = wordGlob then CompletePattern scan part.value
  else ∀ c ∈ expandedValue env part, isPatternChar c = false

theorem readPattern_expandedWord (h : ∀ part ∈ parts, ReadsAlone scan env part) :
    readPattern scan (expandedWord env parts) = quotedPattern scan env parts := by
  induction parts with
  | nil => exact readPattern.eq_1 scan
  | cons part parts ih =>
    obtain ⟨hpart, hparts⟩ := List.forall_mem_cons.mp h
    have hword : expandedWord env (part :: parts)
        = expandedValue env part ++ expandedWord env parts := rfl
    have hquoted : quotedPattern scan env (part :: parts)
        = partPattern scan env part ++ quotedPattern scan env parts := rfl
    rw [hword, hquoted, ← ih hparts, partPattern]
    rw [ReadsAlone] at hpart
    split at hpart
    · next htype =>
      have hvalue : expandedValue env part = part.value := by simp [expandedValue, htype]
      rw [if_pos htype, hvalue, hpart]
    · next htype => rw [if_neg htype, readPattern_plain hpart]

/-- Such a word is replaced by paths that split as it does, whatever exists. -/
theorem splitsInto_of_readsAlone (hglob : GlobsPaths scan existing env.glob)
    (hpart : ∃ part ∈ parts, part.type = wordGlob)
    (h : expandArgvParts env [parts] = .ok argv)
    (halone : ∀ part ∈ parts, ReadsAlone scan env part) :
    ∀ path ∈ argv, SplitsInto scan env parts path := by
  refine (splitsInto_substituted_iff hglob hpart h).mpr fun path _ hmatches ↦ ?_
  rw [← readPattern_expandedWord halone]
  exact hmatches.items

/-! ## Directories -/

/-- Bracket expressions that list their characters, as `[ab]`. -/
def listScan : BracketScan := fun s ↦
  let chars := s.takeWhile fun c ↦ c != ']' && c != '/'
  if chars ≠ [] ∧ (s.drop chars.length).head? = some ']' then
    some (chars.length + 1, fun c ↦ chars.contains c)
  else none

/-- The files of a directory that match. -/
def globFiles (scan : BracketScan) (files : List CStr) (pattern : CStr) : GlobResult :=
  let pathv := files.filter fun path ↦ MatchesPath scan pattern path
  ⟨if pathv = [] then .nomatch else .ok, pathv⟩

theorem globsPaths_globFiles (scan : BracketScan) (files : List CStr) :
    GlobsPaths scan (· ∈ files) (globFiles scan files) := fun pattern path ↦ by
  rw [globFiles, List.mem_filter, decide_eq_true_eq]

/-- A session in a directory with these files. -/
def inDirectory (files : List CStr) : ExpandEnv :=
  { emptyDirectory with glob := globFiles listScan files }

/-- `"a"*` where the only file is `ab`. -/
theorem splitsInto_substituted_iff_quoted :
    ∃ argv, expandArgvParts (inDirectory ["ab".toList])
        [[⟨wordLiteral, .quoteDouble, ['a']⟩, ⟨wordGlob, .quoteNone, ['*']⟩]] = .ok argv ∧
      ∀ path ∈ argv, SplitsInto listScan (inDirectory ["ab".toList])
        [⟨wordLiteral, .quoteDouble, ['a']⟩, ⟨wordGlob, .quoteNone, ['*']⟩] path := by
  have heval : expandArgvParts (inDirectory ["ab".toList])
      [[⟨wordLiteral, .quoteDouble, ['a']⟩, ⟨wordGlob, .quoteNone, ['*']⟩]]
      = .ok ["ab".toList] := by decide +kernel
  refine ⟨_, heval, (splitsInto_substituted_iff (globsPaths_globFiles listScan ["ab".toList])
    (by simp) heval).mpr fun path hpath _ ↦ ?_⟩
  rw [List.mem_singleton.mp hpath]
  decide +kernel

/-- `'*'?` where the only file is `ab`: the star acts as a wildcard. -/
theorem not_splitsInto_substituted : ¬∀ (scan : BracketScan) (env : ExpandEnv)
    (existing : CStr → Prop) (parts : Word) (argv : List CStr),
    GlobsPaths scan existing env.glob → (∃ part ∈ parts, part.type = wordGlob) →
    expandArgvParts env [parts] = .ok argv → ∀ path ∈ argv, SplitsInto scan env parts path := by
  intro h
  have heval : expandArgvParts (inDirectory ["ab".toList])
      [[⟨wordLiteral, .quoteSingle, ['*']⟩, ⟨wordGlob, .quoteNone, ['?']⟩]]
      = .ok ["ab".toList] := by decide +kernel
  have hsplits := h listScan _ _ _ _ (globsPaths_globFiles listScan ["ab".toList]) (by simp) heval
    "ab".toList List.mem_cons_self
  rw [splitsInto_iff] at hsplits
  exact absurd hsplits (by decide +kernel)

end

end Novash
