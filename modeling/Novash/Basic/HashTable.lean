import Novash.Basic.StringMap

/-!
# The hash table of a string map

A table is valid for a list of keys if it stores one slot for each of them, where a probe for its
hash comes to it, and is not filled beyond its threshold. As the number of slots is a power of two,
a probe comes to every slot, so there is always an empty one to end it (`mem_placesFor`).

Copying a valid table to one of twice the size leaves a valid table
(`HashIndex.Valid.makeHashIndex`).
-/

namespace Novash.StringMap

open Foundations

/-! ## The order of a probe -/

variable {σ β : Type} {slotCount fuel pos step p k : ℕ} {hash : UInt64}
  {look : σ → ℕ → Except β σ} {s : σ} {found : β}

/-- The places that a probe looks at, one bucket after the other. -/
def probeOrder (slotCount : ℕ) : ℕ → ℕ → ℕ → List ℕ
  | 0, _, _ => []
  | fuel + 1, pos, step =>
    bucketOrder pos
      ++ probeOrder slotCount fuel ((pos + step) &&& (slotCount - 1)) (step + bucketLength)

def placesFor (slotCount : ℕ) (hash : UInt64) : List ℕ :=
  probeOrder slotCount (slotCount / bucketLength) (probePosition hash slotCount) bucketLength

theorem probe_eq_some (h : (probeOrder slotCount fuel pos step).foldlM look s = .error found) :
    probe slotCount look fuel s pos step = some found := by
  induction fuel generalizing pos step s with
  | zero => cases h
  | succ fuel ih =>
    rw [probeOrder, List.foldlM_append] at h
    rw [probe]
    cases hbucket : (bucketOrder pos).foldlM look s with
    | error b =>
      rw [hbucket] at h
      exact congrArg some (Except.error.inj h)
    | ok s' =>
      rw [hbucket] at h
      exact ih h

theorem probeFor_eq_some (h : (placesFor slotCount hash).foldlM look s = .error found) :
    probeFor hash slotCount look s = some found := probe_eq_some h

theorem mem_bucketOrder : p ∈ bucketOrder pos ↔ p / 8 = pos / 8 := by
  have hadd (l : List ℕ) :
      p ∈ l.map (pos / 8 * 8 + ·) ↔ pos / 8 * 8 ≤ p ∧ p - pos / 8 * 8 ∈ l := by
    rw [List.mem_map]
    constructor
    · rintro ⟨i, hi, rfl⟩
      exact ⟨Nat.le_add_right .., by rwa [Nat.add_sub_cancel_left]⟩
    · rintro ⟨hle, hi⟩
      exact ⟨_, hi, Nat.add_sub_cancel' hle⟩
  simp only [bucketOrder, bucketLength, List.mem_append, hadd, List.mem_range'_1, List.mem_range]
  omega

theorem and_slotCount_sub_one (hcount : slotCount = 2 ^ k) (n : ℕ) :
    n &&& (slotCount - 1) = n % slotCount := by
  rw [hcount, Nat.and_two_pow_sub_one_eq_mod]

theorem lt_of_mem_probeOrder (hcount : slotCount = 2 ^ (k + 3)) (hpos : pos < slotCount)
    (h : p ∈ probeOrder slotCount fuel pos step) : p < slotCount := by
  induction fuel generalizing pos step with
  | zero => cases h
  | succ fuel ih =>
    have hlt : 0 < slotCount := hcount ▸ Nat.two_pow_pos _
    obtain hbucket | hrest := List.mem_append.mp h
    · have heq := mem_bucketOrder.mp hbucket
      have hmul : slotCount = 8 * 2 ^ k := by rw [hcount, pow_add, mul_comm]; rfl
      omega
    · refine ih ?_ hrest
      rw [and_slotCount_sub_one hcount]
      exact Nat.mod_lt _ hlt

/-- The bucket of the `j`th round is looked at. -/
theorem mem_probeOrder (hcount : slotCount = 2 ^ k) {start i j : ℕ} (hi : i ≤ j)
    (hj : j < i + fuel) (hp : p / 8 = (start + 8 * triangle j) % slotCount / 8) :
    p ∈ probeOrder slotCount fuel ((start + 8 * triangle i) % slotCount) (8 * (i + 1)) := by
  induction fuel generalizing i with
  | zero => omega
  | succ fuel ih =>
    rw [probeOrder, List.mem_append, mem_bucketOrder]
    obtain rfl | hlt := hi.eq_or_lt
    · exact .inl hp
    · have hnext := ih hlt (by omega)
      have hstep : start + 8 * triangle i + 8 * (i + 1) = start + 8 * triangle (i + 1) := by
        rw [triangle]
        ring
      rw [and_slotCount_sub_one hcount, Nat.mod_add_mod, hstep]
      exact .inr hnext

/-- A probe comes to every slot of the table, and to nothing else. -/
theorem mem_placesFor (hcount : slotCount = 2 ^ (k + 3)) :
    p ∈ placesFor slotCount hash ↔ p < slotCount := by
  have hmul : slotCount = 8 * 2 ^ k := by rw [hcount, pow_add, mul_comm]; rfl
  have hpos : probePosition hash slotCount = hash.toNat % slotCount :=
    and_slotCount_sub_one hcount _
  have hlt : hash.toNat % slotCount < slotCount := Nat.mod_lt _ (hcount ▸ Nat.two_pow_pos _)
  refine ⟨lt_of_mem_probeOrder hcount (hpos ▸ hlt), fun hp ↦ ?_⟩
  -- the round that comes to the bucket of the slot
  obtain ⟨j, hj, hbucket⟩ :=
    exists_add_triangle_mod_eq k (hash.toNat / 8) (b := p / 8) (by omega)
  have hround : p / 8 = (hash.toNat + 8 * triangle j) % slotCount / 8 := by
    rw [hmul, Nat.mod_mul_right_div_self, Nat.add_mul_div_left _ _ (by decide), hbucket]
  have hmem : p ∈ probeOrder slotCount (slotCount / 8) ((hash.toNat + 8 * triangle 0) % slotCount)
      (8 * (0 + 1)) :=
    mem_probeOrder hcount (Nat.zero_le j) (by omega) hround
  rw [placesFor, hpos]
  exact hmem

/-! ## What a table stores -/

/-- The slots in use. -/
def cells (storage : List Slot) (p : ℕ) : Option Slot := (storage[p]?).filter (·.hash ≠ 0)

variable {storage old : List Slot} {slot : Slot} {l : Finset Slot}

theorem cells_eq_some_iff :
    cells storage p = some slot ↔ storage[p]? = some slot ∧ slot.hash ≠ 0 := by
  rw [cells, Option.filter_eq_some_iff, decide_eq_true_iff]

theorem cells_eq_none_iff (hp : p < storage.length) :
    cells storage p = none ↔ (slotAt storage p).hash = 0 := by
  rw [cells, slotAt, List.getD_eq_getElem?_getD, List.getElem?_eq_getElem hp]
  simp

theorem cells_set (hp : p < storage.length) (hslot : slot.hash ≠ 0) :
    cells (storage.set p slot) = Function.update (cells storage) p (some slot) := by
  funext q
  rw [cells, Function.update_apply]
  split_ifs with heq
  · rw [heq, List.getElem?_set_self hp]
    simp [hslot]
  · rw [List.getElem?_set_ne (Ne.symm heq), cells]

theorem cells_replicate (n : ℕ) : cells (List.replicate n .empty) = fun _ ↦ none := by
  funext p
  rw [cells, List.getElem?_replicate]
  split_ifs <;> rfl

/-- A storage of slots that a probe for its hash finds, each of them. -/
abbrev SlotsStored (slotCount : ℕ) (storage : List Slot) (l : Finset Slot) : Prop :=
  Stores (fun slot ↦ placesFor slotCount slot.hash) slotCount (cells storage) l

/-! ## The copying of a table -/

theorem copySlot_spec (hcount : slotCount = 2 ^ (k + 3)) (hlength : storage.length = slotCount)
    (hstored : SlotsStored slotCount storage l) (hcard : l.card < slotCount) (hnew : slot ∉ l)
    (hhash : slot.hash ≠ 0) :
    ∃ storage', copySlot slotCount storage slot = some storage' ∧
      storage'.length = slotCount ∧ SlotsStored slotCount storage' (insert slot l) ∧
      ∀ s ∈ storage', s ∈ storage ∨ s = slot := by
  obtain ⟨p, hp, hfree, hreach⟩ :=
    hstored.exists_reaches_free (e := slot) hcard fun _ ↦ mem_placesFor hcount
  have hprobe : probeFor slot.hash slotCount
      (fun _ pos ↦ if (slotAt storage pos).hash = 0 then .error pos else .ok ()) ()
        = some p := by
    refine probeFor_eq_some (hreach.foldlM_eq ?_ fun q hq hused ↦ .inl ?_)
    · exact if_pos ((cells_eq_none_iff (hlength ▸ hp)).mp hfree)
    · have hlt := hlength ▸ (mem_placesFor hcount).mp hq
      exact if_neg fun hzero ↦ hused ((cells_eq_none_iff hlt).mpr hzero)
  refine ⟨storage.set p slot, by rw [copySlot, hprobe, Option.map_some], ?_, ?_, fun s hs ↦ ?_⟩
  · rw [List.length_set, hlength]
  · rw [SlotsStored, cells_set (hlength ▸ hp) hhash]
    exact hstored.insert hnew hp hfree hreach
  · exact List.mem_or_eq_of_mem_set hs

/-- The loop over the old table puts its slots into the new one, where there is room for all. -/
theorem copySlots_spec (hcount : slotCount = 2 ^ (k + 3)) (hlength : storage.length = slotCount)
    (hstored : SlotsStored slotCount storage l)
    (hroom : l.card + (old.filter (0 ≤ ·.index)).length ≤ slotCount)
    (hold : old.Pairwise fun s s' ↦ 0 ≤ s'.index → s ≠ s')
    (hnew : ∀ s ∈ old, 0 ≤ s.index → s ∉ l ∧ s.hash ≠ 0) :
    ∃ storage', copySlots slotCount storage old = some storage' ∧
      storage'.length = slotCount ∧
      SlotsStored slotCount storage' (l ∪ (old.filter (0 ≤ ·.index)).toFinset) ∧
      ∀ s ∈ storage', s ∈ storage ∨ s ∈ old := by
  induction old generalizing storage l with
  | nil => exact ⟨storage, rfl, hlength, by simpa using hstored, fun s hs ↦ .inl hs⟩
  | cons slot old ih =>
    obtain ⟨hdiff, hold⟩ := List.pairwise_cons.mp hold
    rw [copySlots]
    split_ifs with hindex
    · rw [List.filter_cons_of_pos (by simpa using hindex)] at hroom ⊢
      rw [List.length_cons] at hroom
      obtain ⟨hslot, hhash⟩ := hnew slot List.mem_cons_self hindex
      obtain ⟨storage₁, hcopy, hlength₁, hstored₁, hmem₁⟩ :=
        copySlot_spec hcount hlength hstored (by omega) hslot hhash
      have hcard : (insert slot l).card = l.card + 1 := Finset.card_insert_of_notMem hslot
      obtain ⟨storage', hrest, hlength', hstored', hmem'⟩ :=
        ih hlength₁ hstored₁ (by omega) hold fun s hs hs0 ↦ by
          obtain ⟨hs₁, hs₂⟩ := hnew s (List.mem_cons_of_mem _ hs) hs0
          exact ⟨by rw [Finset.mem_insert, not_or]; exact ⟨(hdiff s hs hs0).symm, hs₁⟩, hs₂⟩
      refine ⟨storage', by rw [hcopy, Option.bind_some, hrest], hlength', ?_, fun s hs ↦ ?_⟩
      · rw [List.toFinset_cons, Finset.union_insert, ← Finset.insert_union]
        exact hstored'
      · obtain hs₁ | hs₂ := hmem' s hs
        · obtain hs₀ | rfl := hmem₁ s hs₁
          · exact .inl hs₀
          · exact .inr List.mem_cons_self
        · exact .inr (List.mem_cons_of_mem _ hs₂)
    · rw [List.filter_cons_of_neg (by simpa using hindex)] at hroom ⊢
      obtain ⟨storage', hrest, hlength', hstored', hmem'⟩ :=
        ih hlength hstored hroom hold fun s hs ↦ hnew s (List.mem_cons_of_mem _ hs)
      exact ⟨storage', hrest, hlength', hstored',
        fun s hs ↦ (hmem' s hs).imp_right (List.mem_cons_of_mem _)⟩

/-! ## Valid tables -/

/-- The slots of the elements with these keys. -/
def keySlots (keys : List CStr) (seed : UInt64) : Finset Slot :=
  (keys.mapIdx fun i key ↦ (⟨keyHash key seed, i⟩ : Slot)).toFinset

variable {keys : List CStr} {key : CStr} {seed : UInt64} {t : HashIndex}

theorem mem_keySlots :
    slot ∈ keySlots keys seed ↔
      ∃ (i : ℕ) (key : CStr), keys[i]? = some key ∧ slot = ⟨keyHash key seed, i⟩ := by
  rw [keySlots, List.mem_toFinset, List.mem_mapIdx]
  constructor
  · rintro ⟨i, hi, rfl⟩
    exact ⟨i, keys[i], List.getElem?_eq_getElem hi, rfl⟩
  · rintro ⟨i, key, hkey, rfl⟩
    obtain ⟨hi, rfl⟩ := List.getElem?_eq_some_iff.mp hkey
    exact ⟨i, hi, rfl⟩

theorem card_keySlots_le : (keySlots keys seed).card ≤ keys.length :=
  (List.toFinset_card_le _).trans_eq List.length_mapIdx

theorem keyHash_ne_zero : keyHash key seed ≠ 0 := by
  simp only [keyHash]
  intro h
  split_ifs at h with hlt
  · have hnat := congrArg UInt64.toNat h
    rw [UInt64.lt_iff_toNat_lt] at hlt
    rw [UInt64.toNat_add] at hnat
    simp at hlt hnat
    omega
  · exact hlt (by rw [h]; decide)

/-- What a table keeps about the keys of the elements. -/
structure HashIndex.Valid (t : HashIndex) (keys : List CStr) : Prop where
  slotCount : ∃ k, t.slotCount = 2 ^ (k + 3)
  length : t.storage.length = t.slotCount
  threshold : t.usedCountThreshold = t.slotCount - t.slotCount / 4
  usedCount : t.usedCount = keys.length
  usedCount_le : keys.length ≤ t.usedCountThreshold
  inUse : ∀ s ∈ t.storage, 0 ≤ s.index → s.hash ≠ 0
  stored : SlotsStored t.slotCount t.storage (keySlots keys t.seed)

namespace HashIndex.Valid

theorem pos_lt (h : t.Valid keys) :
    3 ≤ t.usedCountThreshold ∧ t.usedCountThreshold < t.slotCount := by
  obtain ⟨k, hk⟩ := h.slotCount
  have hpos := Nat.two_pow_pos k
  have hmul : t.slotCount = 8 * 2 ^ k := by rw [hk, pow_add, mul_comm]; rfl
  have hthreshold := h.threshold
  omega

/-- A slot in use belongs to an element. -/
theorem slot_of_cells (h : t.Valid keys) (hp : cells t.storage p = some slot) :
    ∃ (i : ℕ) (key : CStr), keys[i]? = some key ∧ slot = ⟨keyHash key t.seed, i⟩ :=
  mem_keySlots.mp (h.stored.mem p slot hp).2

theorem filter_inUse (h : t.Valid keys) :
    (t.storage.filter (0 ≤ ·.index)).toFinset = keySlots keys t.seed := by
  ext slot
  rw [List.mem_toFinset, List.mem_filter, decide_eq_true_iff]
  constructor
  · rintro ⟨hmem, hindex⟩
    obtain ⟨p, hp⟩ := List.getElem?_of_mem hmem
    exact (h.stored.mem p slot (cells_eq_some_iff.mpr ⟨hp, h.inUse slot hmem hindex⟩)).2
  · intro hmem
    obtain ⟨p, hp, -⟩ := h.stored.reaches slot hmem
    obtain ⟨i, key, -, rfl⟩ := mem_keySlots.mp hmem
    exact ⟨List.mem_of_getElem? (cells_eq_some_iff.mp hp).1, Int.natCast_nonneg i⟩

theorem pairwise_inUse (h : t.Valid keys) :
    t.storage.Pairwise fun s s' ↦ 0 ≤ s'.index → s ≠ s' := by
  rw [List.pairwise_iff_getElem]
  intro p q hp hq hlt hindex heq
  have hhash := h.inUse _ (List.getElem_mem hq) hindex
  have hcell := cells_eq_some_iff.mpr ⟨List.getElem?_eq_getElem hq, hhash⟩
  have hcell' := cells_eq_some_iff.mpr ⟨List.getElem?_eq_getElem hp, heq ▸ hhash⟩
  exact hlt.ne (h.stored.inj p q _ hcell' (heq ▸ hcell))

/-- The slots in use are as many as the elements, and not more. -/
theorem length_filter_inUse (h : t.Valid keys) :
    (t.storage.filter (0 ≤ ·.index)).length ≤ keys.length := by
  have hnodup : (t.storage.filter (0 ≤ ·.index)).Nodup := by
    rw [List.Nodup, List.pairwise_filter]
    exact h.pairwise_inUse.imp fun hne _ hindex ↦ hne (by simpa using hindex)
  rw [← List.toFinset_card_of_nodup hnodup, h.filter_inUse]
  exact card_keySlots_le

/-- The table of twice the size has the elements of the old one. -/
theorem makeHashIndex (h : t.Valid keys) (hashSeed : UInt64) :
    ∃ t', makeHashIndex (t.slotCount * 2) (some t) hashSeed = some (t', hashSeed) ∧
      t'.Valid keys ∧ t'.usedCount < t'.usedCountThreshold := by
  obtain ⟨k, hk⟩ := h.slotCount
  have hcount : t.slotCount * 2 = 2 ^ (k + 1 + 3) := by rw [hk]; ring
  have hpos := h.pos_lt
  have hle := h.usedCount_le
  have hshift : (t.slotCount * 2) >>> 2 = t.slotCount * 2 / 4 := Nat.shiftRight_eq_div_pow _ 2
  have hlt : keys.length < t.slotCount * 2 - (t.slotCount * 2) >>> 2 := by omega
  obtain ⟨storage, hcopy, hlength, hstored, hmem⟩ :=
    copySlots_spec (l := ∅) hcount List.length_replicate
      (by rw [SlotsStored, cells_replicate]; exact stores_empty)
      (by
        have hinUse := h.length_filter_inUse
        rw [Finset.card_empty]
        omega)
      h.pairwise_inUse fun s hs hindex ↦ ⟨Finset.notMem_empty s, h.inUse s hs hindex⟩
  rw [Finset.empty_union, h.filter_inUse] at hstored
  refine ⟨_, by rw [StringMap.makeHashIndex, hcopy, Option.map_some], ?_, ?_⟩
  · exact {
      slotCount := ⟨k + 1, hcount⟩
      length := hlength
      threshold := congrArg (t.slotCount * 2 - ·) hshift
      usedCount := h.usedCount
      usedCount_le := hlt.le
      inUse := fun s hs hindex ↦ by
        obtain hempty | hold := hmem s hs
        · rw [List.eq_of_mem_replicate hempty] at hindex
          exact absurd hindex (by decide)
        · exact h.inUse s hold hindex
      stored := hstored }
  · exact h.usedCount.trans_lt hlt

end HashIndex.Valid

/-- The first table. -/
theorem valid_makeHashIndex (hashSeed : UInt64) :
    ∃ t hashSeed', makeHashIndex bucketLength none hashSeed = some (t, hashSeed') ∧ t.Valid [] ∧
      t.usedCount < t.usedCountThreshold :=
  ⟨_, _, rfl, {
    slotCount := ⟨0, rfl⟩
    length := List.length_replicate
    threshold := show 8 - 8 >>> 2 = 8 - 8 / 4 by decide
    usedCount := rfl
    usedCount_le := Nat.zero_le _
    inUse := fun s hs hindex ↦ by
      rw [List.eq_of_mem_replicate hs] at hindex
      exact absurd hindex (by decide)
    stored := by
      rw [SlotsStored, cells_replicate]
      exact stores_empty }, show 0 < 8 - 8 >>> 2 by decide⟩

end Novash.StringMap
