import Mathlib.Tactic

/-!
# Path patterns

A pattern is a list of items: an element that stands for itself, a set of which one element is
taken, and the star. Neither a set nor a star takes the separator. What a concatenation matches
splits into what its pieces match (`matchItems_flatten_iff`).

The text of a POSIX pattern is read into such a list. What a bracket expression is depends on the
locale, so that it is a parameter, `BracketScan`. Where a component of a path starts with a period,
the pattern has to have one there.
-/

namespace Foundations

inductive PatternItem (α : Type)
  | char (a : α)
  | set (p : α → Bool)
  | star

section

variable {α : Type} [DecidableEq α]

/-- The item stands for this element and no other. -/
def PatternItem.isChar (a : α) : PatternItem α → Bool
  | .char b => b = a
  | _ => false

variable (sep : α)

/-- A star in front of what `rest` matches. -/
def starMatches (rest : List α → Bool) : List α → Bool
  | [] => rest []
  | a :: s => rest (a :: s) || (a != sep && starMatches rest s)

def matchItems : List (PatternItem α) → List α → Bool
  | [], s => s.isEmpty
  | .char _ :: _, [] => false
  | .char a :: items, b :: s => a == b && matchItems items s
  | .set _ :: _, [] => false
  | .set p :: items, b :: s => b != sep && p b && matchItems items s
  | .star :: items, s => starMatches sep (matchItems items) s

variable {sep}

theorem starMatches_iff {rest : List α → Bool} {s : List α} :
    starMatches sep rest s = true ↔ ∃ u v, s = u ++ v ∧ sep ∉ u ∧ rest v = true := by
  induction s with
  | nil =>
    rw [starMatches]
    constructor
    · exact fun h ↦ ⟨[], [], rfl, List.not_mem_nil, h⟩
    · rintro ⟨u, v, hs, -, h⟩
      obtain ⟨rfl, rfl⟩ := List.append_eq_nil_iff.mp hs.symm
      exact h
  | cons a s ih =>
    rw [starMatches, Bool.or_eq_true, Bool.and_eq_true, ih, bne_iff_ne]
    constructor
    · rintro (h | ⟨ha, u, v, rfl, hu, h⟩)
      · exact ⟨[], a :: s, rfl, List.not_mem_nil, h⟩
      · exact ⟨a :: u, v, rfl, by simp [ha.symm, hu], h⟩
    · rintro ⟨u, v, hs, hu, h⟩
      cases u with
      | nil =>
        rw [List.nil_append] at hs
        exact Or.inl (hs ▸ h)
      | cons b u =>
        obtain ⟨rfl, rfl⟩ := List.cons.inj hs
        rw [List.mem_cons, not_or] at hu
        exact Or.inr ⟨Ne.symm hu.1, u, v, rfl, hu.2, h⟩

/-- An item other than the star takes one element. -/
theorem matchItems_cons_of_ne_star (sep : α) {item : PatternItem α} (hitem : item ≠ .star) :
    ∃ one : α → Bool, ∀ items s, matchItems sep (item :: items) s = true ↔
      ∃ a t, s = a :: t ∧ one a = true ∧ matchItems sep items t = true := by
  cases item with
  | char a =>
    refine ⟨fun b ↦ a == b, fun items s ↦ ?_⟩
    cases s <;> simp [matchItems]
  | set p =>
    refine ⟨fun b ↦ b != sep && p b, fun items s ↦ ?_⟩
    cases s <;> simp [matchItems]
  | star => exact absurd rfl hitem

theorem matchItems_append_iff {items items' : List (PatternItem α)} {s : List α} :
    matchItems sep (items ++ items') s = true ↔
      ∃ u v, s = u ++ v ∧ matchItems sep items u = true ∧ matchItems sep items' v = true := by
  induction items generalizing s with
  | nil =>
    constructor
    · exact fun h ↦ ⟨[], s, rfl, rfl, h⟩
    · rintro ⟨u, v, rfl, hu, hv⟩
      rw [List.isEmpty_iff.mp hu]
      exact hv
  | cons item items ih =>
    rw [List.cons_append]
    by_cases hitem : item = .star
    · subst hitem
      simp only [matchItems, starMatches_iff, ih]
      constructor
      · rintro ⟨u, _, rfl, hu, v, w, rfl, hv, hw⟩
        exact ⟨u ++ v, w, (List.append_assoc u v w).symm, ⟨u, v, rfl, hu, hv⟩, hw⟩
      · rintro ⟨_, w, rfl, ⟨u, v, rfl, hu, hv⟩, hw⟩
        exact ⟨u, v ++ w, List.append_assoc u v w, hu, v, w, rfl, hv, hw⟩
    · obtain ⟨one, hone⟩ := matchItems_cons_of_ne_star sep hitem
      simp only [hone, ih]
      constructor
      · rintro ⟨a, _, rfl, ha, u, v, rfl, hu, hv⟩
        exact ⟨a :: u, v, rfl, ⟨a, u, rfl, ha, hu⟩, hv⟩
      · rintro ⟨_, v, rfl, ⟨a, u, rfl, ha, hu⟩, hv⟩
        exact ⟨a, u ++ v, rfl, ha, u, v, rfl, hu, hv⟩

/-- A text is what it matches when all of it stands for itself. -/
theorem matchItems_map_char {t s : List α} :
    matchItems sep (t.map PatternItem.char) s = true ↔ s = t := by
  induction t generalizing s with
  | nil => simp [matchItems]
  | cons a t ih =>
    cases s with
    | nil => simp [matchItems]
    | cons b s =>
      rw [List.map_cons, matchItems, Bool.and_eq_true, ih, beq_iff_eq, List.cons.injEq, eq_comm]

/-- What several patterns match one after the other splits into what each of them matches. -/
theorem matchItems_flatten_iff {patterns : List (List (PatternItem α))} {s : List α} :
    matchItems sep patterns.flatten s = true ↔
      ∃ pieces : List (List α), pieces.flatten = s ∧
        List.Forall₂ (fun items piece ↦ matchItems sep items piece = true) patterns pieces := by
  induction patterns generalizing s with
  | nil =>
    rw [List.flatten_nil, matchItems, List.isEmpty_iff]
    constructor
    · rintro rfl
      exact ⟨[], rfl, .nil⟩
    · rintro ⟨_, rfl, h⟩
      cases h
      rfl
  | cons items patterns ih =>
    rw [List.flatten_cons, matchItems_append_iff]
    constructor
    · rintro ⟨u, v, rfl, hu, hv⟩
      obtain ⟨pieces, rfl, h⟩ := ih.mp hv
      exact ⟨u :: pieces, rfl, .cons hu h⟩
    · rintro ⟨_, rfl, h⟩
      cases h with
      | @cons _ u _ pieces hu h => exact ⟨u, pieces.flatten, rfl, hu, ih.mpr ⟨pieces, rfl, h⟩⟩

end

/-! ## The text of a pattern -/

/-- How a locale reads what stands behind a `[`: the number of bytes up to the `]` that ends the
bracket expression, with the characters it stands for, or that there is no such expression. -/
abbrev BracketScan := List Char → Option (ℕ × (Char → Bool))

variable {scan : BracketScan}

/-- A backslash at the very end matches nothing. -/
def readPattern (scan : BracketScan) : List Char → List (PatternItem Char)
  | [] => []
  | ['\\'] => [.set fun _ ↦ false]
  | '\\' :: c :: s => .char c :: readPattern scan s
  | '?' :: s => .set (fun _ ↦ true) :: readPattern scan s
  | '*' :: s => .star :: readPattern scan s
  | '[' :: s =>
    match scan s with
    | none => .char '[' :: readPattern scan s
    | some (n, p) => .set p :: readPattern scan (s.drop n)
  | c :: s => .char c :: readPattern scan s
termination_by s => s.length
decreasing_by all_goals simp; try omega

/-- Every period at the start of a component is one that the pattern spells. -/
def PeriodsExplicit (items : List (PatternItem Char)) (path : List Char) : Prop :=
  ∀ c ∈ (path.splitOn '/').zip (items.splitOnP (PatternItem.isChar '/')),
    c.1.head? = some '.' → c.2.head?.any (PatternItem.isChar '.') = true

instance (items : List (PatternItem Char)) (path : List Char) :
    Decidable (PeriodsExplicit items path) := inferInstanceAs (Decidable (∀ _ ∈ _, _))

/-- The path matches the text of the pattern. -/
structure MatchesPath (scan : BracketScan) (pattern path : List Char) : Prop where
  items : matchItems '/' (readPattern scan pattern) path = true
  periods : PeriodsExplicit (readPattern scan pattern) path

instance (scan : BracketScan) (pattern path : List Char) :
    Decidable (MatchesPath scan pattern path) :=
  decidable_of_iff (matchItems '/' (readPattern scan pattern) path = true ∧
    PeriodsExplicit (readPattern scan pattern) path) ⟨fun h ↦ ⟨h.1, h.2⟩, fun h ↦ ⟨h.1, h.2⟩⟩

/-- The characters that are more than themselves in a pattern. -/
def isPatternChar (c : Char) : Bool := c == '*' || c == '?' || c == '[' || c == '\\'

/-- A text that is read in the same way whatever follows it. -/
def CompletePattern (scan : BracketScan) (s : List Char) : Prop :=
  ∀ t, readPattern scan (s ++ t) = readPattern scan s ++ readPattern scan t

theorem readPattern_plain {s : List Char} (hs : ∀ c ∈ s, isPatternChar c = false) (t : List Char) :
    readPattern scan (s ++ t) = s.map PatternItem.char ++ readPattern scan t := by
  induction s with
  | nil => rfl
  | cons c s ih =>
    obtain ⟨hc, hs⟩ := List.forall_mem_cons.mp hs
    have hread : readPattern scan (c :: (s ++ t)) = .char c :: readPattern scan (s ++ t) := by
      simp only [isPatternChar, Bool.or_eq_false_iff, beq_eq_false_iff_ne] at hc
      rw [readPattern] <;> simp_all
    rw [List.cons_append, hread, ih hs, List.map_cons, List.cons_append]

end Foundations
