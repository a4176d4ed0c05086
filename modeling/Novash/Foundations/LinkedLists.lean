import Mathlib.Tactic

/-!
# Doubly linked lists

The pointers of a doubly linked list as functions of the node, with the two ends. A pointer is an
`Option`, and `none` for null. `Seg next p as q` says that following `next` from `p` visits the
nodes `as`, in this order, and arrives at `q`; `Links.Holds` that following `next` from the head and
`prev` from the tail visit the same nodes in opposite orders, each once, and both arrive at null.

Only the pointers of the nodes of the list matter (`Seg.congr`), and a list reads the same from the
other end (`Links.flip`), so that each operation has to be looked at in one direction only.
-/

namespace Foundations

variable {α : Type*}

/-! ## Segments -/

def Seg (next : α → Option α) : Option α → List α → Option α → Prop
  | p, [], q => p = q
  | p, a :: as, q => p = some a ∧ Seg next (next a) as q

/-- Follow `next` up to null, for at most `n` nodes. -/
def walk (next : α → Option α) : ℕ → Option α → Option (List α)
  | _, none => some []
  | 0, some _ => none
  | n + 1, some a => (walk next n (next a)).map (a :: ·)

namespace Seg

variable {next next' : α → Option α} {p q r : Option α} {a b : α} {as bs : List α}

theorem append_iff : Seg next p (as ++ bs) r ↔ ∃ q, Seg next p as q ∧ Seg next q bs r := by
  induction as generalizing p with
  | nil => simp [Seg]
  | cons a as ih => simp [Seg, ih, and_assoc]

theorem congr (hnext : ∀ a ∈ as, next' a = next a) (h : Seg next p as q) : Seg next' p as q := by
  induction as generalizing p with
  | nil => exact h
  | cons a as ih =>
    refine ⟨h.1, ?_⟩
    rw [hnext a List.mem_cons_self]
    exact ih (fun b hb ↦ hnext b (List.mem_cons_of_mem a hb)) h.2

/-- A segment up to null starts at its first node. -/
theorem head_eq (h : Seg next p as none) : p = as.head? := by
  cases as with
  | nil => exact h
  | cons a as => exact h.1

/-- What comes after a node on the way to null. -/
theorem next_eq (h : Seg next p (as ++ a :: bs) none) : next a = bs.head? := by
  obtain ⟨q, -, -, hrest⟩ := append_iff.mp h
  exact hrest.head_eq

theorem walk_eq (h : Seg next p as none) {n : ℕ} (hn : as.length ≤ n) :
    walk next n p = some as := by
  induction as generalizing p n with
  | nil =>
    rw [h.head_eq]
    cases n <;> rfl
  | cons a as ih =>
    obtain ⟨rfl, hrest⟩ := h
    cases n with
    | zero => exact absurd hn (Nat.not_succ_le_zero _)
    | succ n => rw [walk, ih hrest (Nat.le_of_succ_le_succ hn)]; rfl

/-- Following the pointers from the start gets to the nodes of the segment and no others. -/
theorem mem_of_reach (h : Seg next p as none) (hreach : Seg next p bs (some a)) : a ∈ as := by
  induction bs generalizing p as with
  | nil =>
    obtain rfl : p = some a := hreach
    cases as with
    | nil => cases h.head_eq
    | cons b as => exact (Option.some.inj h.1) ▸ List.mem_cons_self
  | cons b bs ih =>
    obtain ⟨rfl, hreach⟩ := hreach
    cases as with
    | nil => cases h.head_eq
    | cons c as =>
      obtain ⟨hc, hrest⟩ := h
      obtain rfl := Option.some.inj hc
      exact List.mem_cons_of_mem _ (ih hrest hreach)

theorem reach_of_mem (h : Seg next p as none) (ha : a ∈ as) : ∃ bs, Seg next p bs (some a) := by
  obtain ⟨pre, post, rfl⟩ := List.append_of_mem ha
  obtain ⟨q, hpre, hq, -⟩ := append_iff.mp h
  exact ⟨pre, hq ▸ hpre⟩

variable [DecidableEq α]

/-- A pointer of a node outside of the segment may change. -/
theorem update (ha : a ∉ as) (h : Seg next p as q) : Seg (Function.update next a r) p as q :=
  h.congr fun b hb ↦ Function.update_of_ne (fun heq : b = a ↦ ha (heq ▸ hb)) _ _

end Seg

/-! ## Lists -/

structure Links (α : Type*) where
  head : Option α
  tail : Option α
  next : α → Option α
  prev : α → Option α

namespace Links

/-- The list from the other end. -/
def flip (l : Links α) : Links α := ⟨l.tail, l.head, l.prev, l.next⟩

structure Holds (l : Links α) (as : List α) : Prop where
  nodup : as.Nodup
  forward : Seg l.next l.head as none
  backward : Seg l.prev l.tail as.reverse none

variable {l l' : Links α} {a : α} {as pre post : List α}

theorem Holds.flip (h : l.Holds as) : l.flip.Holds as.reverse where
  nodup := List.nodup_reverse.mpr h.nodup
  forward := h.backward
  backward := by rw [List.reverse_reverse]; exact h.forward

/-- The pointers of other nodes do not matter. -/
theorem Holds.congr (h : l.Holds as) (hhead : l'.head = l.head) (htail : l'.tail = l.tail)
    (hnext : ∀ a ∈ as, l'.next a = l.next a) (hprev : ∀ a ∈ as, l'.prev a = l.prev a) :
    l'.Holds as where
  nodup := h.nodup
  forward := hhead ▸ h.forward.congr hnext
  backward := htail ▸ h.backward.congr fun a ha ↦ hprev a (List.mem_reverse.mp ha)

theorem holds_nil (hhead : l.head = none) (htail : l.tail = none) : l.Holds [] :=
  ⟨List.nodup_nil, hhead, htail⟩

theorem Holds.prev_eq (h : l.Holds (pre ++ a :: post)) : l.prev a = pre.getLast? := by
  have hback := h.backward
  rw [List.reverse_append, List.reverse_cons, List.append_assoc, List.singleton_append] at hback
  rw [hback.next_eq, List.head?_reverse]

variable [DecidableEq α]

/-! ## Adding a node at the tail -/

def pushBack (l : Links α) (a : α) : Links α where
  head := if l.head = none then some a else l.head
  tail := some a
  next :=
    match l.tail with
    | none => Function.update l.next a none
    | some b => Function.update (Function.update l.next a none) b (some a)
  prev := Function.update l.prev a l.tail

theorem Holds.pushBack (h : l.Holds as) (ha : a ∉ as) : (l.pushBack a).Holds (as ++ [a]) where
  nodup := List.nodup_append.mpr ⟨h.nodup, List.nodup_singleton a, fun b hb c hc hbc ↦
    ha (List.mem_singleton.mp hc ▸ hbc ▸ hb)⟩
  forward := by
    have htail : l.tail = as.getLast? := h.backward.head_eq.trans List.head?_reverse
    rcases List.eq_nil_or_concat as with rfl | ⟨init, b, rfl⟩
    · have hhead : l.head = none := h.forward
      rw [List.getLast?_nil] at htail
      simp [Links.pushBack, Seg, hhead, htail]
    · have hhead : l.head ≠ none := by
        rw [h.forward.head_eq]
        simp
      rw [List.concat_eq_append, List.getLast?_append] at htail
      rw [List.concat_eq_append] at ha h ⊢
      -- the link of the last node is redirected, and the nodes before it keep theirs
      obtain ⟨q, hinit, hq, -⟩ := Seg.append_iff.mp h.forward
      have hb : b ∉ init := fun hb ↦
        (List.nodup_append.mp h.nodup).2.2 b hb b (List.mem_singleton_self b) rfl
      have hne : a ≠ b := fun heq ↦ ha (heq ▸ List.mem_append_right _ (List.mem_singleton_self _))
      have hinit' : a ∉ init := fun hmem ↦ ha (List.mem_append_left _ hmem)
      rw [List.append_assoc, Links.pushBack, if_neg hhead, htail]
      refine Seg.append_iff.mpr ⟨q, (hinit.update hinit').update hb, hq, ?_⟩
      exact ⟨Function.update_self ..,
        (Function.update_of_ne hne ..).trans (Function.update_self ..)⟩
  backward := by
    rw [List.reverse_append, List.reverse_singleton, List.singleton_append]
    refine ⟨rfl, ?_⟩
    have hprev : (l.pushBack a).prev a = l.tail := Function.update_self ..
    rw [hprev]
    exact h.backward.update fun hmem ↦ ha (List.mem_reverse.mp hmem)

/-! ## Taking a node out -/

def unlink (l : Links α) (a : α) : Links α where
  head := if l.prev a = none then l.next a else l.head
  tail := if l.next a = none then l.prev a else l.tail
  next :=
    match l.prev a with
    | none => l.next
    | some b => Function.update l.next b (l.next a)
  prev :=
    match l.next a with
    | none => l.prev
    | some b => Function.update l.prev b (l.prev a)

private theorem forward_unlink (h : l.Holds (pre ++ a :: post)) :
    Seg (l.unlink a).next (l.unlink a).head (pre ++ post) none := by
  have hprev := h.prev_eq
  obtain ⟨q, hpre, hq, hpost⟩ := Seg.append_iff.mp h.forward
  rcases List.eq_nil_or_concat pre with rfl | ⟨init, b, rfl⟩
  · rw [List.getLast?_nil] at hprev
    rw [unlink, hprev, if_pos rfl]
    exact hpost
  · rw [List.concat_eq_append] at h hprev hpre ⊢
    rw [List.getLast?_append] at hprev
    obtain ⟨r, hinit, hr, -⟩ := Seg.append_iff.mp hpre
    have hnodup := h.nodup
    rw [List.append_assoc, List.nodup_append] at hnodup
    have hb : b ∉ init := fun hmem ↦ hnodup.2.2 b hmem b List.mem_cons_self rfl
    have hb' : b ∉ post := fun hmem ↦
      (List.nodup_cons.mp hnodup.2.1).1 (List.mem_cons_of_mem _ hmem)
    have hne : l.prev a ≠ none := by rw [hprev]; simp
    rw [unlink, if_neg hne, hprev, List.append_assoc]
    refine Seg.append_iff.mpr ⟨r, hinit.update hb, hr, ?_⟩
    have hself : Function.update l.next b (l.next a) b = l.next a := Function.update_self ..
    change Seg (Function.update l.next b (l.next a)) (Function.update l.next b (l.next a) b) post
      none
    rw [hself]
    exact hpost.update hb'

theorem Holds.unlink (h : l.Holds (pre ++ a :: post)) : (l.unlink a).Holds (pre ++ post) where
  nodup := h.nodup.sublist ((List.sublist_cons_self a post).append_left pre)
  forward := forward_unlink h
  backward := by
    have hflip := h.flip
    rw [List.reverse_append, List.reverse_cons, List.append_assoc, List.singleton_append] at hflip
    rw [List.reverse_append]
    exact forward_unlink hflip

end Links

end Foundations
