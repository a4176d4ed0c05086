import Novash.Foundations.Results
import Novash.Parser.Ast

/-!
# Expanding words

`pipeline.c`: the passes that turn the parts of a word into arguments. What they read besides the
word (the shell's own state, the environment, the password file and the file system) is collected in
an `ExpandEnv`; the library functions among it are parameters.

## One word, one argument

A word with no wildcard should be one argument. `expand_argv_parts` decides whether to call
`glob(3)` by counting: only a word of exactly one literal part is pushed as it stands. A word of
several parts, such as `"a"b`, and a word of none, such as `''`, go to `glob(3)` even though nothing
in them is a wildcard, and then the directory decides. `expandArgvParts_noglob_iff` is the exact
condition under which this does not show.
-/

namespace Novash

open Foundations WordPartType

/-! ## What expansion reads -/

/-- `shell_flags_t`. -/
structure ShellFlags where
  interactive : Bool
  jobControl : Bool
  historyEnabled : Bool
  debug : Bool
  deriving DecidableEq, Repr

def shellStateGetFlags (flags : ShellFlags) : CStr :=
  (if flags.interactive then ['i'] else []) ++ (if flags.jobControl then ['m'] else []) ++
    (if flags.historyEnabled then ['h'] else []) ++ if flags.debug then ['d'] else []

/-- The return values of `glob(3)`. -/
inductive GlobStatus
  | ok
  | nospace
  | aborted
  | nomatch
  deriving DecidableEq, Repr

structure GlobResult where
  status : GlobStatus
  pathv : List CStr
  deriving DecidableEq, Repr

structure ExpandEnv where
  /-- `last_exec.exit_status` and `last_exec.bg_pid`. -/
  exitStatus : ℤ
  bgPid : ℤ
  /-- `identity.pid`. -/
  pid : ℤ
  flags : ShellFlags
  /-- `shell_state_getenv`, the shell's own table. -/
  shellStateGetenv : CStr → Option CStr
  /-- `getenv("HOME")`, the environment of the process. -/
  home : Option CStr
  /-- The password entry of a user, with its home directory if it has one. -/
  getpwnam : CStr → Option (Option CStr)
  glob : CStr → GlobResult

/-- Why a word could not be expanded. -/
inductive ExpandError
  | userNotFound (value : CStr)
  | noMatches (pattern : CStr)
  deriving DecidableEq, Repr

/-- The text printed by `nsh_msg`. -/
def ExpandError.message : ExpandError → String
  | userNotFound value => "nsh: user not found for '" ++ String.ofList value ++ "'\n"
  | noMatches pattern => "nsh: no matches found for pattern '" ++ String.ofList pattern ++ "'\n"

/-! ## The passes -/

section

variable (env : ExpandEnv)

def expandSpecialOne (sigil : Char) : Option CStr :=
  if sigil = '?' then some (showInt (if env.exitStatus ≥ 0 then env.exitStatus else 0))
  else if sigil = '$' then some (showInt env.pid)
  else if sigil = '!' then some (showInt env.bgPid)
  else if sigil = '-' then some (shellStateGetFlags env.flags)
  else none

/-- The value of a variable part. A name that starts with a digit is left as it is. -/
def expandParamsInString (inPart : WordPart) : CStr :=
  let p := inPart.value.headD '\x00'
  if p = '?' ∨ p = '$' ∨ p = '!' ∨ p = '-' then (expandSpecialOne env p).getD []
  else if isalpha p || p = '_' then (env.shellStateGetenv inPart.value).getD []
  else inPart.value

def passExpandParams (inParts : Word) : Word :=
  inParts.map fun wp ↦
    if wp.type = wordVariable then
      { wp with value := expandParamsInString env wp, type := wordLiteral }
    else wp

/-- The directory for a tilde and a user name; `NULL` when there is none. -/
def expandTildeStr (s : CStr) : Option CStr :=
  let user := s.drop 1
  if user.length = 0 then env.home
  else if user.length > 256 then none
  else (env.getpwnam user).join

def passExpandTilde : Word → Except ExpandError Word
  | [] => .ok []
  | wp :: inParts =>
    if wp.type ≠ wordTilde then do
      let inParts ← passExpandTilde inParts
      return wp :: inParts
    else
      match expandTildeStr env wp.value with
      | none => .error (.userNotFound wp.value)
      | some expanded => do
        let inParts ← passExpandTilde inParts
        return { wp with type := wordLiteral, value := expanded } :: inParts

def buildStrFromParts (parts : Word) : CStr := (parts.map WordPart.value).flatten

def passGlob (inParts : Word) : Except ExpandError (List CStr) :=
  let pattern := buildStrFromParts inParts
  let g := env.glob pattern
  if g.status = .nomatch ∨ g.pathv.length = 0 then .error (.noMatches pattern) else .ok g.pathv

/-- The arguments one word contributes, after its parameters and tildes are expanded. -/
def argvEntry (parts : Word) : Except ExpandError (List CStr) :=
  match parts with
  | [part] => if part.type = wordLiteral then .ok [part.value] else passGlob env parts
  | _ => passGlob env parts

/-- On an error `argv` is `NULL` and the node is marked invalid. -/
def expandArgvParts : List Word → Except ExpandError (List CStr)
  | [] => .ok []
  | parts :: argvParts => do
    let parts ← passExpandTilde env (passExpandParams env parts)
    let entry ← argvEntry env parts
    let argv ← expandArgvParts argvParts
    return entry ++ argv

def expandRedirectionTarget (redirTargetParts : Word) : Except ExpandError CStr := do
  let parts ← passExpandTilde env (passExpandParams env redirTargetParts)
  return buildStrFromParts parts

end

/-! ## Words without wildcards -/

section

variable {env : ExpandEnv}

/-- The value of a part once it is expanded. -/
def expandedValue (env : ExpandEnv) (part : WordPart) : CStr :=
  match part.type with
  | wordVariable => expandParamsInString env part
  | wordTilde => (expandTildeStr env part.value).getD []
  | wordLiteral => part.value
  | wordGlob => part.value

/-- The text of a word: its expanded parts in order. -/
def expandedWord (env : ExpandEnv) (parts : Word) : CStr :=
  (parts.map (expandedValue env)).flatten

/-- The parts of a word after both passes. -/
private def literalParts (env : ExpandEnv) (parts : Word) : Word :=
  parts.map fun part ↦ ⟨wordLiteral, part.quote, expandedValue env part⟩

/-- Both passes succeed exactly when every tilde has a directory. -/
private theorem pass_of_noglob {parts : Word} (hglob : ∀ part ∈ parts, part.type ≠ wordGlob)
    (htilde : ∀ part ∈ parts, part.type = wordTilde → (expandTildeStr env part.value).isSome) :
    passExpandTilde env (passExpandParams env parts) = .ok (literalParts env parts) := by
  induction parts with
  | nil => rfl
  | cons part parts ih =>
    have hrest := ih (fun p hp ↦ hglob p (List.mem_cons_of_mem _ hp))
      (fun p hp ↦ htilde p (List.mem_cons_of_mem _ hp))
    rw [passExpandParams, List.map_cons, ← passExpandParams]
    cases htype : part.type with
    | wordGlob => exact absurd htype (hglob part List.mem_cons_self)
    | wordLiteral =>
      rw [if_neg (by decide), passExpandTilde, if_pos (by rw [htype]; decide), hrest]
      simp [bind, Except.bind, pure, Except.pure, literalParts, expandedValue, htype]
      rw [← htype]
    | wordVariable =>
      rw [if_pos rfl, passExpandTilde, if_pos (fun h ↦ nomatch h), hrest]
      simp [bind, Except.bind, pure, Except.pure, literalParts, expandedValue, htype]
    | wordTilde =>
      obtain ⟨dir, hdir⟩ :=
        Option.isSome_iff_exists.mp (htilde part List.mem_cons_self htype)
      rw [if_neg (by decide), passExpandTilde, if_neg (by rw [htype]; decide), hdir, hrest]
      simp [bind, Except.bind, pure, Except.pure, literalParts, expandedValue, htype, hdir]

/-- A tilde that was expanded had a directory. -/
private theorem tilde_of_pass {parts out : Word} (hpass : passExpandTilde env parts = .ok out) :
    ∀ part ∈ parts, part.type = wordTilde → (expandTildeStr env part.value).isSome := by
  induction parts generalizing out with
  | nil => exact fun _ hpart ↦ absurd hpart List.not_mem_nil
  | cons head parts ih =>
    rw [passExpandTilde] at hpass
    intro part hpart htype
    split at hpass
    · next hhead =>
      obtain ⟨rest, hrest, _⟩ := bind_ok.mp hpass
      rcases List.mem_cons.mp hpart with rfl | htail
      · exact absurd htype hhead
      · exact ih hrest part htail htype
    · split at hpass
      · exact nomatch hpass
      · next dir hdir =>
        obtain ⟨rest, hrest, _⟩ := bind_ok.mp hpass
        rcases List.mem_cons.mp hpart with rfl | htail
        · rw [hdir]; rfl
        · exact ih hrest part htail htype

/-- The parameter pass does not touch tildes. -/
private theorem mem_passExpandParams {parts : Word} {part : WordPart} (hpart : part ∈ parts)
    (htype : part.type = wordTilde) : part ∈ passExpandParams env parts :=
  List.mem_map.mpr ⟨part, hpart, if_neg (by rw [htype]; decide)⟩

/-- A tilde has a directory, when users have one, exactly when the name is not too long. -/
private theorem expandTildeStr_isSome_iff {value : CStr} (hhome : env.home.isSome)
    (huser : value.drop 1 ≠ [] → ∃ dir, env.getpwnam (value.drop 1) = some (some dir)) :
    (expandTildeStr env value).isSome ↔ (value.drop 1).length ≤ 256 := by
  unfold expandTildeStr
  by_cases hnil : (value.drop 1).length = 0
  · rw [if_pos hnil]
    exact ⟨fun _ ↦ hnil ▸ Nat.zero_le _, fun _ ↦ hhome⟩
  · obtain ⟨dir, hdir⟩ := huser fun h ↦ hnil (h ▸ rfl)
    rw [if_neg hnil]
    by_cases hlong : (value.drop 1).length > 256
    · rw [if_pos hlong]
      exact iff_of_false (fun h ↦ nomatch h) (Nat.not_le.mpr hlong)
    · rw [if_neg hlong, hdir]
      exact ⟨fun _ ↦ Nat.not_lt.mp hlong, fun _ ↦ rfl⟩

/-- A word that was expanded is at least one argument, whatever is in it. -/
theorem argvEntry_length_pos {parts : Word} {entry : List CStr}
    (hentry : argvEntry env parts = .ok entry) : 0 < entry.length := by
  have hglob : ∀ {parts : Word}, passGlob env parts = .ok entry → 0 < entry.length := by
    intro parts hpass
    rw [passGlob] at hpass
    split at hpass
    · exact nomatch hpass
    · next hsome =>
      obtain rfl := Except.ok.inj hpass
      exact Nat.pos_of_ne_zero fun h ↦ hsome (Or.inr h)
  unfold argvEntry at hentry
  split at hentry
  · split at hentry
    · obtain rfl := Except.ok.inj hentry
      exact Nat.one_pos
    · exact hglob hentry
  · exact hglob hentry

theorem length_le_of_expandArgvParts {words : List Word} {argv : List CStr}
    (hargv : expandArgvParts env words = .ok argv) : words.length ≤ argv.length := by
  induction words generalizing argv with
  | nil => exact Nat.zero_le _
  | cons parts words ih =>
    rw [expandArgvParts] at hargv
    obtain ⟨out, _, hargv⟩ := bind_ok.mp hargv
    obtain ⟨entry, hentry, hargv⟩ := bind_ok.mp hargv
    obtain ⟨rest, hrest, hargv⟩ := bind_ok.mp hargv
    obtain rfl := Except.ok.inj hargv
    have hpos := argvEntry_length_pos hentry
    have hle := ih hrest
    rw [List.length_cons, List.length_append]
    omega

/-- `glob(3)` finds the text of the word itself and nothing else: a file of that name exists. -/
def GlobsToItself (env : ExpandEnv) (parts : Word) : Prop :=
  (env.glob (expandedWord env parts)).status ≠ .nomatch ∧
    (env.glob (expandedWord env parts)).pathv = [expandedWord env parts]

instance (env : ExpandEnv) (parts : Word) : Decidable (GlobsToItself env parts) :=
  inferInstanceAs (Decidable (_ ∧ _))

private theorem buildStrFromParts_literalParts (parts : Word) :
    buildStrFromParts (literalParts env parts) = expandedWord env parts := by
  simp [buildStrFromParts, literalParts, expandedWord, Function.comp_def]

private theorem passGlob_literalParts_iff (parts : Word) :
    passGlob env (literalParts env parts) = .ok [expandedWord env parts] ↔
      GlobsToItself env parts := by
  rw [passGlob, buildStrFromParts_literalParts, GlobsToItself]
  constructor
  · intro hpass
    split at hpass
    · exact nomatch hpass
    · next hsome => exact ⟨fun h ↦ hsome (Or.inl h), Except.ok.inj hpass⟩
  · rintro ⟨hstatus, hpathv⟩
    rw [if_neg (by simp [hstatus, hpathv]), hpathv]

/-- Only a single literal part is spared `glob(3)`. -/
private theorem argvEntry_literalParts_iff (parts : Word) :
    argvEntry env (literalParts env parts) = .ok [expandedWord env parts] ↔
      parts.length = 1 ∨ GlobsToItself env parts := by
  match parts with
  | [part] => simp [literalParts, argvEntry, expandedWord]
  | [] =>
    rw [← passGlob_literalParts_iff]
    simp [literalParts, argvEntry]
  | part :: part' :: parts =>
    rw [← passGlob_literalParts_iff]
    simp [literalParts, argvEntry]

/-- Words without wildcards, with `HOME` set and every named user present, come out as one argument
each exactly when the names of users are short and every word that is not a single part names a
file of the directory. -/
theorem expandArgvParts_noglob_iff (env : ExpandEnv) (words : List Word)
    (hglob : ∀ parts ∈ words, ∀ part ∈ parts, part.type ≠ wordGlob) (hhome : env.home.isSome)
    (huser : ∀ parts ∈ words, ∀ part ∈ parts, part.type = wordTilde → part.value.drop 1 ≠ [] →
      ∃ dir, env.getpwnam (part.value.drop 1) = some (some dir)) :
    expandArgvParts env words = .ok (words.map (expandedWord env)) ↔
      (∀ parts ∈ words, ∀ part ∈ parts, part.type = wordTilde →
        (part.value.drop 1).length ≤ 256) ∧
      ∀ parts ∈ words, parts.length = 1 ∨ GlobsToItself env parts := by
  induction words with
  | nil => simp [expandArgvParts]
  | cons parts words ih =>
    have ih := ih (fun w hw ↦ hglob w (List.mem_cons_of_mem _ hw))
      (fun w hw ↦ huser w (List.mem_cons_of_mem _ hw))
    have htilde : ∀ part ∈ parts, part.type = wordTilde →
        ((expandTildeStr env part.value).isSome ↔ (part.value.drop 1).length ≤ 256) :=
      fun part hpart htype ↦ expandTildeStr_isSome_iff hhome
        (huser parts List.mem_cons_self part hpart htype)
    rw [List.forall_mem_cons, List.forall_mem_cons, and_and_and_comm, ← ih,
      ← argvEntry_literalParts_iff, expandArgvParts]
    constructor
    · intro hargv
      obtain ⟨out, hout, hargv⟩ := bind_ok.mp hargv
      have hshort : ∀ part ∈ parts, part.type = wordTilde → (part.value.drop 1).length ≤ 256 :=
        fun part hpart htype ↦ (htilde part hpart htype).mp
          (tilde_of_pass hout part (mem_passExpandParams hpart htype) htype)
      rw [pass_of_noglob (hglob parts List.mem_cons_self)
        fun part hpart htype ↦ (htilde part hpart htype).mpr (hshort part hpart htype)] at hout
      obtain rfl := Except.ok.inj hout
      obtain ⟨entry, hentry, hargv⟩ := bind_ok.mp hargv
      obtain ⟨argv, hrest, hargv⟩ := bind_ok.mp hargv
      -- every word gives at least one argument, so none of them can give two
      have hone : entry.length = 1 := by
        have hpos := argvEntry_length_pos hentry
        have hle := length_le_of_expandArgvParts hrest
        have hsum := congrArg List.length (Except.ok.inj hargv)
        rw [List.length_append, List.length_map, List.length_cons] at hsum
        omega
      obtain ⟨arg, rfl⟩ := List.length_eq_one_iff.mp hone
      obtain ⟨rfl, rfl⟩ := List.cons.inj (Except.ok.inj hargv)
      exact ⟨⟨hshort, hentry⟩, hrest⟩
    · rintro ⟨⟨hshort, hentry⟩, hrest⟩
      rw [pass_of_noglob (hglob parts List.mem_cons_self)
        fun part hpart htype ↦ (htilde part hpart htype).mpr (hshort part hpart htype)]
      change argvEntry env (literalParts env parts) >>= _ = _
      rw [hentry, hrest]
      rfl

/-- A session in an empty directory, where one user is known. -/
def emptyDirectory : ExpandEnv where
  exitStatus := 0
  bgPid := -1
  pid := 100
  flags := ⟨true, true, true, false⟩
  shellStateGetenv := fun _ ↦ none
  home := some ['/', 'h']
  getpwnam := fun user ↦ if user = ['u'] then some (some ['/', 'u']) else none
  glob := fun _ ↦ ⟨.nomatch, []⟩

/-- `ls ~ ~u` is expanded without a look at the directory. -/
theorem expandArgvParts_noglob_iff_tildes :
    expandArgvParts emptyDirectory
      [[⟨wordLiteral, .quoteNone, ['l', 's']⟩], [⟨wordTilde, .quoteNone, ['~']⟩],
        [⟨wordTilde, .quoteNone, ['~', 'u']⟩]] =
      .ok [['l', 's'], ['/', 'h'], ['/', 'u']] :=
  (expandArgvParts_noglob_iff emptyDirectory
    [[⟨wordLiteral, .quoteNone, ['l', 's']⟩], [⟨wordTilde, .quoteNone, ['~']⟩],
      [⟨wordTilde, .quoteNone, ['~', 'u']⟩]] (by decide) rfl
    (by simp [emptyDirectory])).mpr ⟨by decide, by decide⟩

/-- `"a"b` in an empty directory: no wildcard, every hypothesis met, and yet an error. -/
theorem not_expandArgvParts_noglob :
    ¬ ∀ (env : ExpandEnv) (words : List Word),
      (∀ parts ∈ words, ∀ part ∈ parts, part.type ≠ wordGlob) → env.home.isSome →
      (∀ parts ∈ words, ∀ part ∈ parts, part.type = wordTilde → part.value.drop 1 ≠ [] →
        ∃ dir, env.getpwnam (part.value.drop 1) = some (some dir)) →
      expandArgvParts env words = .ok (words.map (expandedWord env)) := by
  intro hclaim
  have hargv := hclaim emptyDirectory
    [[⟨wordLiteral, .quoteDouble, ['a']⟩, ⟨wordLiteral, .quoteNone, ['b']⟩]] (by decide) rfl
    (by simp)
  have herr : expandArgvParts emptyDirectory
      [[⟨wordLiteral, .quoteDouble, ['a']⟩, ⟨wordLiteral, .quoteNone, ['b']⟩]] =
      .error (.noMatches ['a', 'b']) := rfl
  exact nomatch herr.symm.trans hargv

end

end Novash
