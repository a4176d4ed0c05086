import Novash.Foundations.Allocation
import Novash.Executor.ProcessCopies

/-!
# Strings, arrays and tokens on the heap

The data of the lexer and the parser with the blocks they are kept in. A word owns its array and the
text of each of its parts; a token with a raw text owns that, and its word. What is read of them by
the rest of the model is what is left when the addresses are erased.
-/

namespace Novash.Memory

open Foundations TokenType WordPartType QuoteContext

/-! ## Strings and arrays -/

/-- A string that is put on the heap. -/
def newStr (text : CStr) (m : Heap) : HeapStr × Heap := (⟨m.malloc.1, text⟩, m.malloc.2)

/-- The block behind a pointer, if it is not `NULL`. -/
def pointee (addr : Option ℕ) : Multiset ℕ := addr.elim 0 ({·})

/-- `free`, and `arrfree` of an array; both may be given `NULL`. -/
def freePtr (addr : Option ℕ) (m : Heap) : Option Heap :=
  match addr with
  | none => some m
  | some addr => m.free addr

theorem succeeds_freePtr {addr : Option ℕ} {m : Heap} {frame : Multiset ℕ}
    (h : m.live = pointee addr + frame) :
    Succeeds (fun m' ↦ m'.live = frame) (freePtr addr m) := by
  cases addr with
  | none => exact ⟨m, rfl, h.trans (zero_add _)⟩
  | some addr => exact succeeds_free h

/-- A dynamic array, which is `NULL` until something is pushed. It keeps its name when it grows and
is moved. -/
structure HeapArray (α : Type) where
  addr : Option ℕ
  elems : List α
  null : addr = none → elems = []

namespace HeapArray

variable {α : Type}

def empty : HeapArray α := ⟨none, [], fun _ ↦ rfl⟩

def arrpush (a : HeapArray α) (x : α) (m : Heap) : HeapArray α × Heap :=
  match a.addr with
  | none =>
    (⟨some m.malloc.1, a.elems ++ [x], fun h ↦ absurd h (Option.some_ne_none _)⟩, m.malloc.2)
  | some addr => (⟨some addr, a.elems ++ [x], fun h ↦ absurd h (Option.some_ne_none _)⟩, m)

/-- The block of the array, and those of its elements. -/
def blocks (f : α → Multiset ℕ) (a : HeapArray α) : Multiset ℕ :=
  pointee a.addr + (a.elems.map f).sum

@[simp] theorem elems_arrpush (a : HeapArray α) (x : α) (m : Heap) :
    (a.arrpush x m).1.elems = a.elems ++ [x] := by
  unfold arrpush
  split <;> rfl

theorem live_arrpush {f : α → Multiset ℕ} {a : HeapArray α} {x : α} {m : Heap}
    {frame : Multiset ℕ} (h : m.live = a.blocks f + f x + frame) :
    (a.arrpush x m).2.live = (a.arrpush x m).1.blocks f + frame := by
  unfold arrpush
  split
  · next haddr =>
    simp only [Heap.live_malloc, h, blocks, haddr, pointee, Option.elim, List.map_append,
      List.sum_append, List.map_singleton, List.sum_singleton]
    abel
  · next addr haddr =>
    simp only [h, blocks, haddr, List.map_append, List.sum_append, List.map_singleton,
      List.sum_singleton]
    abel

/-- `arrpushnc` of the `NULL` that ends an array of pointers. It is not among the elements here, but
the array is made if there is none. -/
def arrpushnc (a : HeapArray α) (m : Heap) : HeapArray α × Heap :=
  match a.addr with
  | none => (⟨some m.malloc.1, a.elems, fun h ↦ absurd h (Option.some_ne_none _)⟩, m.malloc.2)
  | some _ => (a, m)

@[simp] theorem elems_arrpushnc (a : HeapArray α) (m : Heap) :
    (a.arrpushnc m).1.elems = a.elems := by
  unfold arrpushnc
  split <;> rfl

theorem addr_arrpushnc (a : HeapArray α) (m : Heap) : (a.arrpushnc m).1.addr ≠ none := by
  unfold arrpushnc
  split
  · exact Option.some_ne_none _
  · next addr haddr => exact haddr ▸ Option.some_ne_none _

theorem live_arrpushnc {f : α → Multiset ℕ} {a : HeapArray α} {m : Heap} {frame : Multiset ℕ}
    (h : m.live = a.blocks f + frame) :
    (a.arrpushnc m).2.live = (a.arrpushnc m).1.blocks f + frame := by
  unfold arrpushnc
  split
  · next haddr =>
    simp only [Heap.live_malloc, h, blocks, haddr, pointee, Option.elim]
    abel
  · exact h

/-- The array with its elements written over. -/
def overwrite (a : HeapArray α) (elems : List α) : HeapArray α :=
  if h : a.addr = none then a else ⟨a.addr, elems, fun hnull ↦ absurd hnull h⟩

@[simp] theorem addr_overwrite (a : HeapArray α) (elems : List α) :
    (a.overwrite elems).addr = a.addr := by
  unfold overwrite
  split <;> rfl

theorem elems_overwrite {a : HeapArray α} {elems : List α} (h : a.elems = [] → elems = []) :
    (a.overwrite elems).elems = elems := by
  unfold overwrite
  split
  · next hnull => exact (a.null hnull).trans (h (a.null hnull)).symm
  · rfl

end HeapArray

/-! ## Words -/

/-- `word_part_t`. -/
structure HeapPart where
  type : WordPartType
  quote : QuoteContext
  value : HeapStr

/-- `word_part_t *`, an array. -/
abbrev HeapWord := HeapArray HeapPart

/-- The part, without the address of its text. -/
def HeapPart.erase (part : HeapPart) : WordPart := ⟨part.type, part.quote, part.value.text⟩

def HeapPart.blocks (part : HeapPart) : Multiset ℕ := {part.value.addr}

def HeapWord.erase (word : HeapWord) : Word := word.elems.map HeapPart.erase

def HeapWord.blocks (word : HeapWord) : Multiset ℕ := HeapArray.blocks HeapPart.blocks word

/-- The texts of the parts, and then the array. -/
def freeWord (word : HeapWord) (m : Heap) : Option Heap := do
  let m ← m.freeAll (word.elems.map fun part ↦ part.value.addr)
  freePtr word.addr m

theorem succeeds_freeWord {word : HeapWord} {m : Heap} {frame : Multiset ℕ}
    (h : m.live = word.blocks + frame) :
    Succeeds (fun m' ↦ m'.live = frame) (freeWord word m) := by
  have htexts : m.live = ((word.elems.map fun part ↦ part.value.addr).map ({·})).sum
      + (pointee word.addr + frame) := by
    rw [List.map_map]
    change _ = (word.elems.map HeapPart.blocks).sum + (pointee word.addr + frame)
    rw [h, HeapWord.blocks, HeapArray.blocks]
    abel
  exact (succeeds_freeAll htexts).bind fun m' hm' ↦ succeeds_freePtr hm'

/-- `duplicate_word_parts`. -/
def duplicateWordParts (parts : HeapWord) (m : Heap) : HeapWord × Heap :=
  parts.elems.foldl (fun (dupParts, m) p ↦
    let (value, m) := newStr p.value.text m
    dupParts.arrpush { p with value } m) (.empty, m)

section

variable {frame : Multiset ℕ}

private theorem foldl_duplicate (ps : List HeapPart) : ∀ acc : HeapWord × Heap,
    acc.2.live = acc.1.blocks + frame →
      let dup := ps.foldl (fun (dupParts, m) p ↦
        let (value, m) := newStr p.value.text m
        dupParts.arrpush { p with value } m) acc
      dup.2.live = HeapWord.blocks dup.1 + frame ∧
        HeapWord.erase dup.1 = acc.1.erase ++ ps.map HeapPart.erase := by
  induction ps with
  | nil => exact fun _ h ↦ ⟨h, (List.append_nil _).symm⟩
  | cons p ps ih =>
    intro acc h
    have hlive : (newStr p.value.text acc.2).2.live = HeapArray.blocks HeapPart.blocks acc.1
        + HeapPart.blocks { p with value := (newStr p.value.text acc.2).1 } + frame := by
      change {acc.2.malloc.1} + acc.2.live = _
      rw [h, HeapWord.blocks, HeapPart.blocks, newStr]
      abel
    obtain ⟨hdup, herase⟩ := ih (acc.1.arrpush _ _) (HeapArray.live_arrpush hlive)
    refine ⟨hdup, herase.trans ?_⟩
    rw [HeapWord.erase, HeapArray.elems_arrpush, List.map_append, List.map_cons, List.append_assoc]
    rfl

theorem live_duplicateWordParts (parts : HeapWord) {m : Heap} (h : m.live = frame) :
    (duplicateWordParts parts m).2.live = (duplicateWordParts parts m).1.blocks + frame :=
  (foldl_duplicate parts.elems (.empty, m) (h.trans (zero_add _).symm)).1

@[simp] theorem erase_duplicateWordParts (parts : HeapWord) (m : Heap) :
    (duplicateWordParts parts m).1.erase = parts.erase :=
  (foldl_duplicate parts.elems (.empty, m) (zero_add _).symm).2

end

/-! ## Tokens -/

/-- `token_t`. Only words and numbers have a `raw_value`. -/
structure HeapToken where
  type : TokenType
  rawValue : Option HeapStr := none
  parts : HeapWord := .empty

namespace HeapToken

def erase (tok : HeapToken) : Token :=
  ⟨tok.type, (tok.rawValue.map HeapStr.text).getD [], tok.parts.erase⟩

/-- What `lexer_free_token` has to give back. -/
def blocks (tok : HeapToken) : Multiset ℕ :=
  match tok.rawValue with
  | none => 0
  | some rawValue => {rawValue.addr} + tok.parts.blocks

end HeapToken

def lexerFreeToken (tok : HeapToken) (m : Heap) : Option (HeapToken × Heap) :=
  match tok.rawValue with
  | none => some (tok, m)
  | some rawValue => do
    let m ← m.free rawValue.addr
    let m ← freeWord tok.parts m
    return ({ type := tok.type }, m)

theorem succeeds_lexerFreeToken {tok : HeapToken} {m : Heap} {frame : Multiset ℕ}
    (h : m.live = tok.blocks + frame) :
    Succeeds (fun r ↦ r.1.blocks = 0 ∧ r.2.live = frame) (lexerFreeToken tok m) := by
  unfold lexerFreeToken
  split
  · next hraw =>
    have hblocks : tok.blocks = 0 := by rw [HeapToken.blocks, hraw]
    exact ⟨_, rfl, hblocks, h.trans (by rw [hblocks, zero_add])⟩
  · next raw hraw =>
    rw [HeapToken.blocks, hraw, add_assoc] at h
    refine (succeeds_free h).bind fun m₁ hm₁ ↦ ?_
    refine (succeeds_freeWord hm₁).bind fun m₂ hm₂ ↦ ?_
    exact ⟨_, rfl, rfl, hm₂⟩

end Novash.Memory
