import Novash.Expander.Pipeline
import Novash.Memory.Trees

/-!
# The memory of an expanded word

The passes of `pipeline.c` once more, with the blocks that they allocate and free. What they put
into a word they put in the place of something else, and that is lost: the name of a parameter and
the text of a tilde when the value is written over them. The arguments that were made already are
lost when a word cannot be expanded, as only their array is freed then. How many blocks that are can
be read off the words (`argvLosses`), and there are no others (`succeeds_expandArgvParts`).
-/

namespace Novash.Memory

open Foundations WordPartType

/-! ## What is lost -/

/-- The values that `expand_params_in_string` does not return as they are. -/
def KnownParameter (value : CStr) : Prop :=
  let p := value.headD '\x00'
  (p = '?' ∨ p = '$' ∨ p = '!' ∨ p = '-') ∨ isalpha p || p = '_'

instance (value : CStr) : Decidable (KnownParameter value) :=
  inferInstanceAs (Decidable (_ ∨ _))

/-- The parts of a word whose name is replaced by a value. -/
def paramsReplaced (word : Word) : ℕ :=
  word.countP fun part ↦ part.type = wordVariable ∧ KnownParameter part.value

section

variable (env : ExpandEnv)

/-- The parts of a word whose tilde is replaced by a directory, up to one that has none. -/
def tildesReplaced : Word → ℕ
  | [] => 0
  | part :: word =>
    if part.type ≠ wordTilde then tildesReplaced word
    else
      match expandTildeStr env part.value with
      | none => 0
      | some _ => 1 + tildesReplaced word

def wordLosses (word : Word) : ℕ :=
  paramsReplaced word + tildesReplaced env (Novash.passExpandParams env word)

/-- The losses of `expand_argv_parts`, after so many arguments have been made. -/
def argvLosses (made : ℕ) : List Word → ℕ
  | [] => 0
  | parts :: argvParts =>
    wordLosses env parts +
      match Novash.passExpandTilde env (Novash.passExpandParams env parts) with
      | .error _ => made
      | .ok parts =>
        match Novash.argvEntry env parts with
        | .error _ => made
        | .ok entry => argvLosses (made + entry.length) argvParts

/-! ## The passes -/

def expandParamsInString (inPart : HeapPart) (m : Heap) : HeapStr × Heap :=
  let p := inPart.value.text.headD '\x00'
  if p = '?' ∨ p = '$' ∨ p = '!' ∨ p = '-' then newStr ((expandSpecialOne env p).getD []) m
  else if isalpha p || p = '_' then
    newStr ((env.shellStateGetenv inPart.value.text).getD []) m
  else (inPart.value, m)

/-- The parts are written over in place. -/
def passExpandParams : List HeapPart → Heap → List HeapPart × Heap
  | [], m => ([], m)
  | wp :: inParts, m =>
    if wp.type ≠ wordVariable then
      let (inParts, m) := passExpandParams inParts m
      (wp :: inParts, m)
    else
      let (value, m) := expandParamsInString env wp m
      let (inParts, m) := passExpandParams inParts m
      ({ wp with value, type := wordLiteral } :: inParts, m)

/-- Whether every tilde has a directory; the parts before one that has none are written over all
the same. -/
def passExpandTilde : List HeapPart → Heap → Bool × List HeapPart × Heap
  | [], m => (true, [], m)
  | wp :: inParts, m =>
    if wp.type ≠ wordTilde then
      let (done, inParts, m) := passExpandTilde inParts m
      (done, wp :: inParts, m)
    else
      match expandTildeStr env wp.value.text with
      | none => (false, wp :: inParts, m)
      | some expanded =>
        let (value, m) := newStr expanded m
        let (done, inParts, m) := passExpandTilde inParts m
        (done, { wp with type := wordLiteral, value } :: inParts, m)

/-- Both passes over a word. -/
def expandWord (word : HeapWord) (m : Heap) : Bool × HeapWord × Heap :=
  let (parts, m) := passExpandParams env word.elems m
  let (done, parts, m) := passExpandTilde env parts m
  (done, word.overwrite parts, m)

section

variable {m : Heap} {frame : Multiset ℕ}

def partsBlocks (parts : List HeapPart) : Multiset ℕ := (parts.map HeapPart.blocks).sum

theorem text_expandParamsInString (inPart : HeapPart) (m : Heap) :
    (expandParamsInString env inPart m).1.text
      = Novash.expandParamsInString env inPart.erase := by
  unfold expandParamsInString Novash.expandParamsInString
  simp only [HeapPart.erase]
  split_ifs with hspecial hname
  · exact (if_pos hspecial).symm
  · exact ((if_neg hspecial).trans (if_pos hname)).symm
  · exact ((if_neg hspecial).trans (if_neg hname)).symm

/-- The old value is lost if there is a new one. -/
theorem leaves_expandParamsInString {inPart : HeapPart} (h : m.live = inPart.blocks + frame) :
    Leaves (if KnownParameter inPart.value.text then 1 else 0)
      {(expandParamsInString env inPart m).1.addr} frame
      (expandParamsInString env inPart m).2 := by
  have hnew : m.malloc.2.live = {m.malloc.1} + ({inPart.value.addr} + frame) := by
    rw [Heap.live_malloc, h]
    rfl
  unfold expandParamsInString
  simp only
  split_ifs with hknown hspecial hname hspecial hname
  · exact .one hnew
  · exact .one hnew
  · exact absurd hknown (not_or.mpr ⟨hspecial, hname⟩)
  · exact absurd (.inl hspecial) hknown
  · exact absurd (.inr hname) hknown
  · exact .none h

theorem erase_passExpandParams (parts : List HeapPart) : ∀ m : Heap,
    (passExpandParams env parts m).1.map HeapPart.erase
      = Novash.passExpandParams env (parts.map HeapPart.erase) := by
  induction parts with
  | nil => exact fun _ ↦ rfl
  | cons wp parts ih =>
    intro m
    rw [passExpandParams, List.map_cons, Novash.passExpandParams, List.map_cons,
      ← Novash.passExpandParams]
    change _ = (if wp.type = wordVariable then _ else _) :: _
    by_cases htype : wp.type = wordVariable
    · rw [if_neg (not_not.mpr htype), if_pos htype, ← ih (expandParamsInString env wp m).2,
        ← text_expandParamsInString env wp m]
      rfl
    · rw [if_pos htype, if_neg htype, ← ih m]
      rfl

theorem leaves_passExpandParams (parts : List HeapPart) : ∀ {m : Heap} {frame : Multiset ℕ},
    m.live = partsBlocks parts + frame →
      Leaves (paramsReplaced (parts.map HeapPart.erase))
        (partsBlocks (passExpandParams env parts m).1) frame
        (passExpandParams env parts m).2 := by
  induction parts with
  | nil => exact fun h ↦ .none h
  | cons wp parts ih =>
    intro m frame h
    rw [partsBlocks, List.map_cons, List.sum_cons, add_assoc] at h
    rw [passExpandParams, paramsReplaced, List.map_cons, List.countP_cons, ← paramsReplaced]
    by_cases htype : wp.type = wordVariable
    · rw [if_neg (not_not.mpr htype)]
      refine ((leaves_expandParamsInString env h).trans fun frame' h' ↦ ih h').congr ?_ rfl
      rw [Nat.add_comm]
      simp [HeapPart.erase, htype]
    · rw [if_pos htype]
      refine ((Leaves.none h).trans fun frame' h' ↦ ih h').congr ?_ rfl
      rw [Nat.add_comm]
      simp [HeapPart.erase, htype]

theorem leaves_passExpandTilde (parts : List HeapPart) : ∀ {m : Heap} {frame : Multiset ℕ},
    m.live = partsBlocks parts + frame →
      Leaves (tildesReplaced env (parts.map HeapPart.erase))
        (partsBlocks (passExpandTilde env parts m).2.1) frame
        (passExpandTilde env parts m).2.2 := by
  induction parts with
  | nil => exact fun h ↦ .none h
  | cons wp parts ih =>
    intro m frame h
    rw [partsBlocks, List.map_cons, List.sum_cons, add_assoc] at h
    rw [passExpandTilde, List.map_cons, tildesReplaced]
    by_cases htype : wp.type = wordTilde
    · rw [if_neg (not_not.mpr htype), if_neg (not_not.mpr (by exact htype))]
      change Leaves (match expandTildeStr env wp.value.text with | none => 0 | some _ => _) _ _ _
      cases expandTildeStr env wp.value.text with
      | none => exact .none (h.trans (add_assoc _ _ _).symm)
      | some expanded =>
        have hnew : m.malloc.2.live
            = {m.malloc.1} + ({wp.value.addr} + (partsBlocks parts + frame)) := by
          rw [Heap.live_malloc, h]
          rfl
        exact (Leaves.one hnew).trans fun frame' h' ↦ ih h'
    · rw [if_pos htype, if_pos (by exact htype)]
      exact ((Leaves.none h).trans fun frame' h' ↦ ih h').congr (Nat.zero_add _) rfl

/-- The pass goes through if there is a directory for every tilde. -/
theorem passExpandTilde_cases (parts : List HeapPart) : ∀ m : Heap,
    ((passExpandTilde env parts m).1 = true ∧ Novash.passExpandTilde env
        (parts.map HeapPart.erase) = .ok ((passExpandTilde env parts m).2.1.map HeapPart.erase)) ∨
      ((passExpandTilde env parts m).1 = false ∧
        ∃ e, Novash.passExpandTilde env (parts.map HeapPart.erase) = .error e) := by
  induction parts with
  | nil => exact fun _ ↦ .inl ⟨rfl, rfl⟩
  | cons wp parts ih =>
    intro m
    rw [passExpandTilde, List.map_cons, Novash.passExpandTilde]
    by_cases htype : wp.type = wordTilde
    · rw [if_neg (not_not.mpr htype), if_neg (not_not.mpr (by exact htype))]
      rw [show wp.erase.value = wp.value.text from rfl]
      cases expandTildeStr env wp.value.text with
      | none => exact .inr ⟨rfl, _, rfl⟩
      | some expanded =>
        rcases ih (newStr expanded m).2 with ⟨hdone, hrest⟩ | ⟨hdone, e, hrest⟩
        · exact .inl ⟨hdone, by rw [hrest]; rfl⟩
        · exact .inr ⟨hdone, e, by rw [hrest]; rfl⟩
    · rw [if_pos htype, if_pos (by exact htype)]
      rcases ih m with ⟨hdone, hrest⟩ | ⟨hdone, e, hrest⟩
      · exact .inl ⟨hdone, by rw [hrest]; rfl⟩
      · exact .inr ⟨hdone, e, by rw [hrest]; rfl⟩

private theorem passes_of_nil {parts : List HeapPart} (h : parts = []) (m : Heap) :
    (passExpandTilde env (passExpandParams env parts m).1
      (passExpandParams env parts m).2).2.1 = [] := by
  rw [h]
  rfl

theorem expandWord_cases (word : HeapWord) (m : Heap) :
    ((expandWord env word m).1 = true ∧
        Novash.passExpandTilde env (Novash.passExpandParams env word.erase)
          = .ok (expandWord env word m).2.1.erase) ∨
      ((expandWord env word m).1 = false ∧
        ∃ e, Novash.passExpandTilde env (Novash.passExpandParams env word.erase) = .error e) := by
  have h := passExpandTilde_cases env (passExpandParams env word.elems m).1
    (passExpandParams env word.elems m).2
  rw [erase_passExpandParams env] at h
  have herase : (expandWord env word m).2.1.erase = (passExpandTilde env
      (passExpandParams env word.elems m).1
      (passExpandParams env word.elems m).2).2.1.map HeapPart.erase :=
    congrArg _ (HeapArray.elems_overwrite fun h ↦ passes_of_nil env h m)
  rw [herase]
  exact h

theorem leaves_expandWord {word : HeapWord} (h : m.live = word.blocks + frame) :
    Leaves (wordLosses env word.erase) (expandWord env word m).2.1.blocks frame
      (expandWord env word m).2.2 := by
  have hparts : m.live = partsBlocks word.elems + (pointee word.addr + frame) := by
    rw [h, HeapWord.blocks, HeapArray.blocks, partsBlocks]
    abel
  have hparams := (leaves_passExpandParams env word.elems hparts).regroup
    (add_left_comm _ _ _)
  refine (hparams.trans fun frame' h' ↦ leaves_passExpandTilde env _ h').congr ?_ ?_
  · rw [erase_passExpandParams env]
    rfl
  · rw [HeapWord.blocks, HeapArray.blocks, expandWord, HeapArray.addr_overwrite,
      HeapArray.elems_overwrite fun h ↦ passes_of_nil env h m]
    rfl

/-! ## Arguments and targets -/

/-- Copies of the texts are pushed. -/
def pushStrs : List CStr → HeapArray HeapStr → Heap → HeapArray HeapStr × Heap
  | [], out, m => (out, m)
  | text :: texts, out, m =>
    let (s, m) := newStr text m
    let (out, m) := out.arrpush s m
    pushStrs texts out m

end

/-- `NULL` if nothing matches. -/
def passGlob (inParts : HeapWord) (m : Heap) : Option (Option (HeapArray HeapStr) × Heap) :=
  let (pattern, m) := newStr (buildStrFromParts inParts.erase) m
  let g := env.glob pattern.text
  if g.status = .nomatch ∨ g.pathv.length = 0 then do
    let m ← m.free pattern.addr
    return (none, m)
  else do
    let (out, m) := pushStrs g.pathv .empty m
    let m ← m.free pattern.addr
    return (some out, m)

/-- The arguments of a word are copied once more, and freed one after the other. -/
def moveEntries : List HeapStr → HeapArray HeapStr → Heap → Option (HeapArray HeapStr × Heap)
  | [], argv, m => some (argv, m)
  | entry :: argvEntry, argv, m => do
    let (s, m) := newStr entry.text m
    let (argv, m) := argv.arrpush s m
    let m ← m.free entry.addr
    moveEntries argvEntry argv m

/-- Pushes what `glob` finds for a word. -/
def pushGlob (parts : HeapWord) (argv : HeapArray HeapStr) (m : Heap) :
    Option (Bool × HeapArray HeapStr × Heap) := do
  let (argvEntry, m) ← passGlob env parts m
  match argvEntry with
  | none => return (false, argv, m)
  | some argvEntry =>
    let (argv, m) ← moveEntries argvEntry.elems argv m
    let m ← freePtr argvEntry.addr m
    return (true, argv, m)

/-- Pushes the arguments of a word whose parameters and tildes are expanded. -/
def pushEntry (parts : HeapWord) (argv : HeapArray HeapStr) (m : Heap) :
    Option (Bool × HeapArray HeapStr × Heap) :=
  match parts.elems with
  | [part] =>
    if part.type = wordLiteral then
      let (argv, m) := pushStrs [part.value.text] argv m
      some (true, argv, m)
    else pushGlob env parts argv m
  | _ => pushGlob env parts argv m

/-- The arguments, or `NULL`, with the words as they are left. What `argv` points to is not freed
on an error, only the array. -/
def expandArgvParts (argv : HeapArray HeapStr) :
    List HeapWord → Heap → Option (Option (HeapArray HeapStr) × List HeapWord × Heap)
  | [], m =>
    let (argv, m) := argv.arrpushnc m
    some (some argv, [], m)
  | parts :: argvParts, m => do
    let (expanded, parts, m) := expandWord env parts m
    if expanded then
      let (pushed, argv, m) ← pushEntry env parts argv m
      if pushed then
        let (argv, argvParts, m) ← expandArgvParts argv argvParts m
        return (argv, parts :: argvParts, m)
      else
        let m ← freePtr argv.addr m
        return (none, parts :: argvParts, m)
    else
      let m ← freePtr argv.addr m
      return (none, parts :: argvParts, m)

section

variable {m : Heap} {frame : Multiset ℕ}

def strsBlocks (argv : HeapArray HeapStr) : Multiset ℕ := argv.blocks fun s ↦ {s.addr}

def wordsBlocks (words : List HeapWord) : Multiset ℕ := (words.map HeapWord.blocks).sum

def texts (argv : HeapArray HeapStr) : List CStr := argv.elems.map HeapStr.text

private theorem pushStr (text : CStr) {out : HeapArray HeapStr}
    (h : m.live = strsBlocks out + frame) :
    (out.arrpush (newStr text m).1 (newStr text m).2).2.live
      = strsBlocks (out.arrpush (newStr text m).1 (newStr text m).2).1 + frame := by
  refine HeapArray.live_arrpush (f := fun s : HeapStr ↦ {s.addr}) ?_
  change {m.malloc.1} + m.live = strsBlocks out + {m.malloc.1} + frame
  rw [h]
  abel

theorem pushStrs_spec (ts : List CStr) : ∀ {out : HeapArray HeapStr} {m : Heap},
    m.live = strsBlocks out + frame →
      (pushStrs ts out m).2.live = strsBlocks (pushStrs ts out m).1 + frame ∧
        texts (pushStrs ts out m).1 = texts out ++ ts := by
  induction ts with
  | nil => exact fun h ↦ ⟨h, (List.append_nil _).symm⟩
  | cons text ts ih =>
    intro out m h
    obtain ⟨hlive, htexts⟩ := ih (pushStr text h)
    refine ⟨hlive, htexts.trans ?_⟩
    rw [texts, HeapArray.elems_arrpush, List.map_append, List.append_assoc]
    rfl

theorem succeeds_moveEntries (entries : List HeapStr) :
    ∀ {argv : HeapArray HeapStr} {m : Heap},
      m.live = strsBlocks argv + ((entries.map fun s ↦ ({s.addr} : Multiset ℕ)).sum + frame) →
        Succeeds (fun r ↦ r.2.live = strsBlocks r.1 + frame ∧
          texts r.1 = texts argv ++ entries.map HeapStr.text) (moveEntries entries argv m) := by
  induction entries with
  | nil => exact fun h ↦ ⟨_, rfl, h.trans (by rw [List.map_nil, List.sum_nil, zero_add]),
      (List.append_nil _).symm⟩
  | cons entry entries ih =>
    intro argv m h
    have hpushed := pushStr entry.text h
    rw [List.map_cons, List.sum_cons, add_assoc, add_left_comm] at hpushed
    refine (succeeds_free hpushed).bind fun m₁ hm₁ ↦ ?_
    obtain ⟨r, hr, hlive, htexts⟩ := ih hm₁
    refine ⟨r, hr, hlive, htexts.trans ?_⟩
    rw [texts, HeapArray.elems_arrpush, List.map_append, List.append_assoc]
    rfl

theorem succeeds_passGlob (parts : HeapWord) (h : m.live = frame) :
    Succeeds (fun r ↦ match r.1 with
      | none => r.2.live = frame ∧ ∃ e, Novash.passGlob env parts.erase = .error e
      | some out => r.2.live = strsBlocks out + frame ∧
          Novash.passGlob env parts.erase = .ok (texts out)) (passGlob env parts m) := by
  have hpattern : (newStr (buildStrFromParts parts.erase) m).2.live
      = {(newStr (buildStrFromParts parts.erase) m).1.addr} + frame := h ▸ rfl
  by_cases hnone : (env.glob (buildStrFromParts parts.erase)).status = .nomatch ∨
      (env.glob (buildStrFromParts parts.erase)).pathv.length = 0
  · rw [show passGlob env parts m = _ from if_pos hnone]
    exact (succeeds_free hpattern).bind fun m₁ hm₁ ↦ ⟨_, rfl, hm₁, _, if_pos hnone⟩
  · have hstart : (newStr (buildStrFromParts parts.erase) m).2.live = strsBlocks .empty
        + ({(newStr (buildStrFromParts parts.erase) m).1.addr} + frame) :=
      hpattern.trans (zero_add _).symm
    obtain ⟨hlive, htexts⟩ := pushStrs_spec (env.glob (buildStrFromParts parts.erase)).pathv hstart
    rw [add_left_comm] at hlive
    rw [show passGlob env parts m = _ from if_neg hnone]
    refine (succeeds_free hlive).bind fun m₁ hm₁ ↦ ⟨_, rfl, hm₁, ?_⟩
    exact (if_neg hnone).trans (congrArg _ htexts.symm)

/-- What `pushEntry` does: all the arguments of the word are pushed, or none. -/
def PushedEntry (result : Except ExpandError (List CStr)) (argv : HeapArray HeapStr)
    (frame : Multiset ℕ) (r : Bool × HeapArray HeapStr × Heap) : Prop :=
  r.2.2.live = strsBlocks r.2.1 + frame ∧
    ((r.1 = true ∧ ∃ entry, result = .ok entry ∧ texts r.2.1 = texts argv ++ entry) ∨
      (r.1 = false ∧ r.2.1 = argv ∧ ∃ e, result = .error e))

theorem succeeds_pushGlob (parts : HeapWord) {argv : HeapArray HeapStr}
    (h : m.live = strsBlocks argv + frame) :
    Succeeds (PushedEntry (Novash.passGlob env parts.erase) argv frame)
      (pushGlob env parts argv m) := by
  refine (succeeds_passGlob env parts h).bind fun r hr ↦ ?_
  obtain ⟨found, m₁⟩ := r
  cases found with
  | none => exact ⟨_, rfl, hr.1, .inr ⟨rfl, rfl, hr.2⟩⟩
  | some out =>
    have hmove : m₁.live = strsBlocks argv
        + ((out.elems.map fun s ↦ ({s.addr} : Multiset ℕ)).sum + (pointee out.addr + frame)) := by
      rw [hr.1, strsBlocks, HeapArray.blocks]
      abel
    refine (succeeds_moveEntries out.elems hmove).bind fun r₂ hr₂ ↦ ?_
    rw [add_left_comm] at hr₂
    refine (succeeds_freePtr hr₂.1).bind fun m₃ hm₃ ↦ ?_
    exact ⟨_, rfl, hm₃, .inl ⟨rfl, _, hr.2, hr₂.2⟩⟩

theorem succeeds_pushEntry (parts : HeapWord) {argv : HeapArray HeapStr}
    (h : m.live = strsBlocks argv + frame) :
    Succeeds (PushedEntry (Novash.argvEntry env parts.erase) argv frame)
      (pushEntry env parts argv m) := by
  unfold pushEntry
  split
  · next part hpart =>
    have herase : parts.erase = [part.erase] := by rw [HeapWord.erase, hpart, List.map_singleton]
    split
    · next hliteral =>
      obtain ⟨hlive, htexts⟩ := pushStrs_spec [part.value.text] h
      refine ⟨_, rfl, hlive, .inl ⟨rfl, [part.value.text], ?_, htexts⟩⟩
      rw [herase, Novash.argvEntry]
      exact if_pos hliteral
    · next hliteral =>
      have hentry : Novash.argvEntry env parts.erase = Novash.passGlob env parts.erase := by
        rw [herase, Novash.argvEntry]
        exact if_neg hliteral
      rw [hentry]
      exact succeeds_pushGlob env parts h
  · next hparts =>
    have hentry : Novash.argvEntry env parts.erase = Novash.passGlob env parts.erase := by
      unfold Novash.argvEntry
      split
      · next part hpart =>
        rw [HeapWord.erase, List.map_eq_singleton_iff] at hpart
        obtain ⟨part', hpart', -⟩ := hpart
        exact absurd hpart' (hparts part')
      · rfl
    rw [hentry]
    exact succeeds_pushGlob env parts h

theorem card_strings (argv : HeapArray HeapStr) :
    (argv.elems.map fun s ↦ ({s.addr} : Multiset ℕ)).sum.card = argv.elems.length := by
  induction argv.elems with
  | nil => rfl
  | cons s elems ih =>
    rw [List.map_cons, List.sum_cons, Multiset.card_add, ih, Multiset.card_singleton, Nat.add_comm]
    rfl

theorem length_texts (argv : HeapArray HeapStr) : (texts argv).length = argv.elems.length :=
  List.length_map _

/-- An array that is `NULL` has no elements. -/
theorem length_eraseArgv (argv : HeapArray HeapStr) :
    ((argv.addr.map fun _ ↦ texts argv).getD []).length = argv.elems.length := by
  cases haddr : argv.addr with
  | none => exact congrArg List.length (argv.null haddr).symm
  | some addr => exact length_texts argv

/-- Only the array is freed, so that the arguments in it are lost. -/
private theorem succeeds_giveUp {argv : HeapArray HeapStr} {n : ℕ} {owned : Multiset ℕ}
    (h : Leaves n owned (strsBlocks argv + frame) m) :
    Succeeds (Leaves (n + argv.elems.length) owned frame) (freePtr argv.addr m) := by
  obtain ⟨lost, hcard, hlive⟩ := h
  have hfree : m.live = pointee argv.addr + (owned
      + (lost + (argv.elems.map fun s ↦ ({s.addr} : Multiset ℕ)).sum + frame)) := by
    rw [hlive, strsBlocks, HeapArray.blocks]
    abel
  obtain ⟨m', hm', hlive'⟩ := succeeds_freePtr hfree
  refine ⟨m', hm', _, ?_, hlive'⟩
  rw [Multiset.card_add, hcard, card_strings]

/-! ### A word and the words behind it -/

/-- The arguments of one word. -/
def wordEntry (word : Word) : Except ExpandError (List CStr) := do
  let parts ← Novash.passExpandTilde env (Novash.passExpandParams env word)
  Novash.argvEntry env parts

section

variable {word : Word} {made : ℕ} {words : List Word}

theorem argvLosses_of_error {e : ExpandError} (h : wordEntry env word = .error e) :
    argvLosses env made (word :: words) = wordLosses env word + made := by
  rw [wordEntry] at h
  rw [argvLosses]
  cases hpass : Novash.passExpandTilde env (Novash.passExpandParams env word) with
  | error e => rfl
  | ok parts =>
    rw [hpass] at h
    dsimp only
    rw [show Novash.argvEntry env parts = .error e from h]

theorem argvLosses_of_ok {entry : List CStr} (h : wordEntry env word = .ok entry) :
    argvLosses env made (word :: words)
      = wordLosses env word + argvLosses env (made + entry.length) words := by
  obtain ⟨parts, hpass, hentry⟩ := bind_ok.mp h
  rw [argvLosses, hpass]
  dsimp only
  rw [hentry]

theorem expandArgvParts_cons :
    Novash.expandArgvParts env (word :: words) = (do
      let entry ← wordEntry env word
      let argv ← Novash.expandArgvParts env words
      return entry ++ argv) := by
  rw [Novash.expandArgvParts, wordEntry, bind_assoc]

end

/-- What `expandArgvParts` does. -/
def ExpandedArgv (n : ℕ) (result : Except ExpandError (List CStr)) (argv : HeapArray HeapStr)
    (frame : Multiset ℕ) (r : Option (HeapArray HeapStr) × List HeapWord × Heap) : Prop :=
  Leaves n (strsBlocks (r.1.getD .empty) + wordsBlocks r.2.1) frame r.2.2 ∧
    (∀ out ∈ r.1, out.addr ≠ none) ∧
      r.1.map texts = result.toOption.map (texts argv ++ ·)

private theorem succeeds_giveUpWord {parts : HeapWord} {words : List HeapWord} {word : Word}
    {argv : HeapArray HeapStr} {e : ExpandError}
    (h : Leaves (wordLosses env word) (parts.blocks + wordsBlocks words)
      (strsBlocks argv + frame) m)
    (hentry : wordEntry env word = .error e) :
    Succeeds (ExpandedArgv
      (argvLosses env argv.elems.length (word :: words.map HeapWord.erase))
      (Novash.expandArgvParts env (word :: words.map HeapWord.erase)) argv frame) (do
        let m ← freePtr argv.addr m
        return (none, parts :: words, m)) := by
  have hblocks : parts.blocks + wordsBlocks words
      = strsBlocks .empty + wordsBlocks (parts :: words) := by
    rw [wordsBlocks, wordsBlocks, List.map_cons, List.sum_cons]
    exact (zero_add _).symm
  rw [argvLosses_of_error env hentry, expandArgvParts_cons, hentry]
  refine (succeeds_giveUp h).bind fun m' hm' ↦ ⟨_, rfl, hm'.congr rfl hblocks, ?_, rfl⟩
  rintro out ⟨⟩

theorem succeeds_expandArgvParts (words : List HeapWord) :
    ∀ {argv : HeapArray HeapStr} {m : Heap} {frame : Multiset ℕ},
      m.live = strsBlocks argv + (wordsBlocks words + frame) →
        Succeeds (ExpandedArgv (argvLosses env argv.elems.length (words.map HeapWord.erase))
          (Novash.expandArgvParts env (words.map HeapWord.erase)) argv frame)
          (expandArgvParts env argv words m) := by
  induction words with
  | nil =>
    intro argv m frame h
    refine ⟨_, rfl, .none ?_, ?_, ?_⟩
    · exact (HeapArray.live_arrpushnc h).trans (add_assoc _ _ _).symm
    · rintro out ⟨⟩
      exact HeapArray.addr_arrpushnc argv m
    · change some (texts (argv.arrpushnc m).1) = some (texts argv ++ [])
      rw [texts, HeapArray.elems_arrpushnc, List.append_nil]
      rfl
  | cons parts words ih =>
    intro argv m frame h
    rw [wordsBlocks, List.map_cons, List.sum_cons, ← wordsBlocks] at h
    have hword : m.live = parts.blocks + (strsBlocks argv + (wordsBlocks words + frame)) := by
      rw [h]
      abel
    have hleaves := leaves_expandWord env hword
    have hcases := expandWord_cases env parts m
    rw [expandArgvParts, List.map_cons]
    generalize expandWord env parts m = w at hleaves hcases ⊢
    obtain ⟨expanded, parts', m₁⟩ := w
    simp only at hleaves hcases ⊢
    rcases hcases with ⟨rfl, hpass⟩ | ⟨rfl, e, hpass⟩
    · have hvalue : wordEntry env parts.erase = Novash.argvEntry env parts'.erase := by
        rw [wordEntry, hpass]
        rfl
      obtain ⟨lost, hcard, hlive⟩ := hleaves
      have hargv : m₁.live = strsBlocks argv
          + (parts'.blocks + (lost + (wordsBlocks words + frame))) := by
        rw [hlive]
        abel
      refine (succeeds_pushEntry env parts' hargv).bind fun r hr ↦ ?_
      obtain ⟨pushed, argv', m₂⟩ := r
      obtain ⟨hlive₂, ⟨rfl, entry, hentry, htexts⟩ | ⟨rfl, rfl, e, hentry⟩⟩ := hr
      · have hrest : m₂.live = strsBlocks argv'
            + (wordsBlocks words + (parts'.blocks + (lost + frame))) := by
          rw [hlive₂]
          abel
        have hlength : argv'.elems.length = argv.elems.length + entry.length := by
          rw [← length_texts, htexts, List.length_append, length_texts]
        rw [argvLosses_of_ok env (hvalue.trans hentry), expandArgvParts_cons,
          hvalue.trans hentry, ← hlength]
        refine (ih hrest).bind fun r hr ↦ ⟨_, rfl, ?_, hr.2.1, ?_⟩
        · obtain ⟨lost', hcard', hlive'⟩ := hr.1
          refine ⟨lost + lost', by rw [Multiset.card_add, hcard, hcard'], ?_⟩
          rw [hlive', wordsBlocks, wordsBlocks, List.map_cons, List.sum_cons]
          abel
        · rw [hr.2.2, htexts]
          cases Novash.expandArgvParts env (words.map HeapWord.erase) with
          | error e => rfl
          | ok rest => exact congrArg some (List.append_assoc _ _ _)
      · refine succeeds_giveUpWord env ⟨lost, hcard, ?_⟩ (hvalue.trans hentry)
        rw [hlive₂]
        abel
    · have hvalue : wordEntry env parts.erase = .error e := by
        rw [wordEntry, hpass]
        rfl
      exact succeeds_giveUpWord env (hleaves.regroup (by abel)) hvalue

end

end

end Novash.Memory
