import Novash.Basic.HashTable

/-!
# A string map as a finite map

`StringMap.toFun` is the finite map that a string map stands for. In a valid map a probe ends at the
slot of the key or, if there is none, at an empty slot (`hmFindSlot_eq_of_mem`,
`hmFindSlot_eq_of_notMem`); so `shget` is a lookup (`Valid.shget_eq`) and `shput` an update
(`Valid.shput`), and both always come to an end. From the empty map every sequence of calls of
`shput` leads to the updates in their order (`shputs_null`).
-/

namespace Novash.StringMap

open Foundations

variable {V : Type} {m : StringMap V} {elems : List (Elem V)} {e : Elem V} {t : HashIndex}
  {key : CStr} {value : Option V} {slot : Slot} {i p : ℕ}

/-- The keys in the order in which they were first put. -/
def keys (elems : List (Elem V)) : List CStr := elems.map (·.key)

/-- The finite map, where a key whose value is `NULL` has none. -/
def toFun (m : StringMap V) (key : CStr) : Option V :=
  (m.elems.find? (·.key = key)).bind (·.value)

/-- What a map keeps between the calls. -/
structure Valid (m : StringMap V) : Prop where
  nodup : (keys m.elems).Nodup
  table : ∀ t, m.table = some t → t.Valid (keys m.elems)
  noTable : m.table = none → m.elems = []

theorem valid_null : (null : StringMap V).Valid where
  nodup := List.nodup_nil
  table _ h := nomatch h
  noTable _ := rfl

theorem keys_getElem? : (keys elems)[i]? = (elems[i]?).map (·.key) := List.getElem?_map ..

/-! ## What a probe sees -/

theorem isKeyEqual_natCast (hi : (keys elems)[i]? = some key) (key' : CStr) :
    isKeyEqual elems key' i = decide (key = key') := by
  rw [keys_getElem?, Option.map_eq_some_iff] at hi
  obtain ⟨e, he, rfl⟩ := hi
  rw [isKeyEqual, Int.toNat_natCast, he, Option.any_some]

theorem slotAt_of_cells {storage : List Slot} (h : cells storage p = some slot) :
    slotAt storage p = slot := by
  rw [slotAt, List.getD_eq_getElem?_getD, (cells_eq_some_iff.mp h).1, Option.getD_some]

/-- A place in use is that of a key. If its hash is the hash of the key that is looked for, the keys
are compared; the elements are all different, so equal keys are at the same index. -/
theorem look_of_used (ht : t.Valid (keys elems)) (hp : cells t.storage p ≠ none) (key : CStr) :
    (slotAt t.storage p).hash ≠ 0 ∧ (slotAt t.storage p).index ≠ indexDeleted ∧
    ∃ (i : ℕ) (key' : CStr), (keys elems)[i]? = some key' ∧ (slotAt t.storage p).index = i ∧
      isKeyEqual elems key (slotAt t.storage p).index = decide (key' = key) := by
  obtain ⟨slot, hslot⟩ := Option.ne_none_iff_exists'.mp hp
  obtain ⟨i, key', hi, rfl⟩ := ht.slot_of_cells hslot
  rw [slotAt_of_cells hslot]
  have hindex : (i : ℤ) ≠ indexDeleted := by
    unfold indexDeleted
    omega
  exact ⟨keyHash_ne_zero, hindex, i, key', hi, rfl, isKeyEqual_natCast hi key⟩

/-- The place of a key, to which a probe comes. -/
theorem exists_place (ht : t.Valid (keys elems)) (hkey : (keys elems)[i]? = some key) :
    ∃ p, slotAt t.storage p = ⟨keyHash key t.seed, i⟩ ∧ p < t.slotCount ∧
      Reaches (cells t.storage · = none) (placesFor t.slotCount (keyHash key t.seed)) p ∧
      cells t.storage p = some ⟨keyHash key t.seed, i⟩ := by
  obtain ⟨p, hp, hreach⟩ := ht.stored.reaches _ (mem_keySlots.mpr ⟨i, key, hkey, rfl⟩)
  exact ⟨p, slotAt_of_cells hp, (ht.stored.mem p _ hp).1, hreach, hp⟩

/-- Without the key, the empty place at which the probe ends. -/
theorem exists_empty_place (ht : t.Valid (keys elems)) (key : CStr) :
    ∃ p, (slotAt t.storage p).hash = 0 ∧ p < t.slotCount ∧
      Reaches (cells t.storage · = none) (placesFor t.slotCount (keyHash key t.seed)) p ∧
      cells t.storage p = none := by
  obtain ⟨k, hk⟩ := ht.slotCount
  have hcard : (keySlots (keys elems) t.seed).card < t.slotCount :=
    card_keySlots_le.trans_lt (ht.usedCount_le.trans_lt ht.pos_lt.2)
  obtain ⟨p, hp, hfree, hreach⟩ := ht.stored.exists_reaches_free
    (e := ⟨keyHash key t.seed, 0⟩) hcard fun _ ↦ mem_placesFor hk
  exact ⟨p, (cells_eq_none_iff (ht.length ▸ hp)).mp hfree, hp, hreach, hfree⟩

theorem eq_index_of_key (hnodup : (keys elems).Nodup) {j : ℕ} (hi : (keys elems)[i]? = some key)
    (hj : (keys elems)[j]? = some key) : j = i := by
  have hlt := (List.getElem?_eq_some_iff.mp hj).1
  exact (List.getElem?_inj hlt hnodup).mp (hj.trans hi.symm)

/-- `stbds_hm_find_slot` comes to the place of a key that is there. -/
theorem hmFindSlot_eq_of_mem (ht : t.Valid (keys elems)) (hnodup : (keys elems).Nodup)
    (hkey : (keys elems)[i]? = some key) :
    ∃ p, hmFindSlot elems t key = some (some p) ∧ (slotAt t.storage p).index = i := by
  obtain ⟨p, hp, -, hreach, hcell⟩ := exists_place ht hkey
  refine ⟨p, probeFor_eq_some (hreach.foldlM_eq ?_ fun q _ hq ↦ ?_), by rw [hp]⟩
  · have hequal := isKeyEqual_natCast hkey key
    simp [hp, hequal]
  · obtain ⟨hzero, -, j, key', hj, hindex, hequal⟩ := look_of_used ht hq key
    simp only [hequal, hzero, if_false]
    split_ifs with hhash hkeys
    · -- the same key has the same index, and so the same place
      obtain rfl := of_decide_eq_true hkeys
      obtain rfl := eq_index_of_key hnodup hkey hj
      obtain ⟨slot, hslot⟩ := Option.ne_none_iff_exists'.mp hq
      have hsame : slot = ⟨keyHash key' t.seed, j⟩ := by
        rw [slotAt_of_cells hslot] at hhash hindex
        cases slot
        cases hhash
        cases hindex
        rfl
      exact .inr (by rw [ht.stored.inj q p _ (hsame ▸ hslot) hcell])
    · exact .inl rfl
    · exact .inl rfl

/-- It comes to an empty place if the key is not there. -/
theorem hmFindSlot_eq_of_notMem (ht : t.Valid (keys elems)) (hkey : key ∉ keys elems) :
    hmFindSlot elems t key = some none := by
  obtain ⟨p, hp, -, hreach, -⟩ := exists_empty_place ht key
  refine probeFor_eq_some (hreach.foldlM_eq ?_ fun q _ hq ↦ .inl ?_)
  · have hne : (0 : UInt64) ≠ keyHash key t.seed := keyHash_ne_zero.symm
    simp [hp, hne]
  · obtain ⟨hzero, -, j, key', hj, -, hequal⟩ := look_of_used ht hq key
    have hne : key' ≠ key := fun heq ↦ hkey (heq ▸ List.mem_of_getElem? hj)
    simp [hequal, hne, hzero]

/-! ## The finite map -/

theorem toFun_eq_of_getElem? (hnodup : (keys m.elems).Nodup) (he : m.elems[i]? = some e) :
    m.toFun e.key = e.value := by
  have hfind : m.elems.find? (·.key = e.key) = some e := by
    have hmem := List.mem_of_getElem? he
    have hsome : (m.elems.find? (·.key = e.key)).isSome :=
      List.find?_isSome.mpr ⟨e, hmem, decide_eq_true rfl⟩
    obtain ⟨e', he'⟩ := Option.isSome_iff_exists.mp hsome
    have hkey : e'.key = e.key := by
      have htest := List.find?_some he'
      simpa using htest
    rw [he', List.inj_on_of_nodup_map hnodup (List.mem_of_find?_eq_some he') hmem hkey]
  rw [toFun, hfind, Option.bind_some]

theorem toFun_eq_none (hkey : key ∉ keys m.elems) : m.toFun key = none := by
  have hfind : m.elems.find? (·.key = key) = none := by
    rw [List.find?_eq_none]
    intro e he hek
    exact hkey (List.mem_map.mpr ⟨e, he, by simpa using hek⟩)
  rw [toFun, hfind, Option.bind_none]

theorem exists_getElem? (hkey : key ∈ keys elems) :
    ∃ (i : ℕ) (e : Elem V), elems[i]? = some e ∧ e.key = key := by
  obtain ⟨e, he, rfl⟩ := List.mem_map.mp hkey
  obtain ⟨i, hi⟩ := List.getElem?_of_mem he
  exact ⟨i, e, hi, rfl⟩

/-- `shget` finds the value of the key. -/
theorem Valid.shget_eq (h : m.Valid) (key : CStr) : m.shget key = some (m.toFun key) := by
  rw [shget, hmgetKey]
  cases htable : m.table with
  | none =>
    have hkey : key ∉ keys m.elems := by
      rw [h.noTable htable]
      exact List.not_mem_nil
    rw [toFun_eq_none hkey]
    rfl
  | some t =>
    by_cases hkey : key ∈ keys m.elems
    · obtain ⟨i, e, he, rfl⟩ := exists_getElem? hkey
      obtain ⟨p, hslot, hindex⟩ := hmFindSlot_eq_of_mem (h.table t htable) h.nodup (i := i)
        (by rw [keys_getElem?, he, Option.map_some])
      have hpos : (0 : ℤ) ≤ i := Int.natCast_nonneg i
      simp [hslot, hindex, he, toFun_eq_of_getElem? h.nodup he]
    · simp only [hmFindSlot_eq_of_notMem (h.table t htable) hkey, toFun_eq_none hkey]
      rfl

/-! ## Putting a key -/

/-- The table that the new element goes to has room for it. -/
theorem Valid.growTable (h : m.Valid) (hashSeed : UInt64) :
    ∃ t hashSeed', growTable m.table hashSeed = some (t, hashSeed') ∧ t.Valid (keys m.elems) ∧
      t.usedCount < t.usedCountThreshold := by
  unfold StringMap.growTable
  split
  next htable =>
    rw [h.noTable htable]
    exact valid_makeHashIndex hashSeed
  next t htable =>
    split_ifs with hfull
    · obtain ⟨t', ht', hvalid, hroom⟩ := (h.table t htable).makeHashIndex hashSeed
      exact ⟨t', hashSeed, ht', hvalid, hroom⟩
    · exact ⟨t, hashSeed, rfl, h.table t htable, not_le.mp hfull⟩

/-- The probe of `stbds_hmput_key` ends at the element of a key that is there. -/
theorem putProbe_eq_of_mem (ht : t.Valid (keys elems)) (hnodup : (keys elems).Nodup)
    (hkey : (keys elems)[i]? = some key) :
    probeFor (keyHash key t.seed) t.slotCount
      (putLook elems t.storage (keyHash key t.seed) key) none = some (.found i) := by
  obtain ⟨p, hp, -, hreach, -⟩ := exists_place ht hkey
  refine probeFor_eq_some (hreach.foldlM_eq ?_ fun q _ hq ↦ ?_)
  · have hequal := isKeyEqual_natCast hkey key
    simp [putLook, hp, hequal]
  · obtain ⟨hzero, hdeleted, j, key', hj, hindex, hequal⟩ := look_of_used ht hq key
    simp only [putLook, hequal, hzero, hdeleted, and_false, if_false]
    split_ifs with hhash hkeys
    · obtain rfl := of_decide_eq_true hkeys
      obtain rfl := eq_index_of_key hnodup hkey hj
      exact .inr (by rw [hindex])
    · exact .inl rfl
    · exact .inl rfl

/-- Without the key it ends at an empty place, and no deleted one is before it. -/
theorem putProbe_eq_of_notMem (ht : t.Valid (keys elems)) (hkey : key ∉ keys elems) :
    ∃ p < t.slotCount,
      probeFor (keyHash key t.seed) t.slotCount
        (putLook elems t.storage (keyHash key t.seed) key) none = some (.emptySlot p none) ∧
      Reaches (cells t.storage · = none) (placesFor t.slotCount (keyHash key t.seed)) p ∧
      cells t.storage p = none := by
  obtain ⟨p, hp, hlt, hreach, hfree⟩ := exists_empty_place ht key
  refine ⟨p, hlt, probeFor_eq_some (hreach.foldlM_eq ?_ fun q _ hq ↦ .inl ?_), hreach, hfree⟩
  · have hne : (0 : UInt64) ≠ keyHash key t.seed := keyHash_ne_zero.symm
    simp [putLook, hp, hne]
  · obtain ⟨hzero, hdeleted, j, key', hj, -, hequal⟩ := look_of_used ht hq key
    have hne : key' ≠ key := fun heq ↦ hkey (heq ▸ List.mem_of_getElem? hj)
    simp [putLook, hequal, hne, hzero, hdeleted]

theorem keySlots_append (ks : List CStr) (key : CStr) (seed : UInt64) :
    keySlots (ks ++ [key]) seed = insert ⟨keyHash key seed, ks.length⟩ (keySlots ks seed) := by
  rw [keySlots, List.mapIdx_append, List.toFinset_append, keySlots, Finset.union_comm,
    Finset.insert_eq]
  simp

/-- The table with a slot for the new key. -/
theorem HashIndex.Valid.set {ks : List CStr} (ht : t.Valid ks)
    (hroom : t.usedCount < t.usedCountThreshold) (hp : p < t.slotCount)
    (hfree : cells t.storage p = none)
    (hreach : Reaches (cells t.storage · = none) (placesFor t.slotCount (keyHash key t.seed)) p) :
    { t with
      usedCount := t.usedCount + 1
      storage := t.storage.set p ⟨keyHash key t.seed, ks.length⟩ }.Valid (ks ++ [key]) where
  slotCount := ht.slotCount
  length := List.length_set.trans ht.length
  threshold := ht.threshold
  usedCount := by rw [List.length_append, ht.usedCount, List.length_singleton]
  usedCount_le := by
    rw [List.length_append, ← ht.usedCount]
    exact hroom
  inUse s hs := by
    obtain hold | rfl := List.mem_or_eq_of_mem_set hs
    · exact ht.inUse s hold
    · exact fun _ ↦ keyHash_ne_zero
  stored := by
    have hnew : (⟨keyHash key t.seed, ks.length⟩ : Slot) ∉ keySlots ks t.seed := by
      rw [mem_keySlots]
      rintro ⟨i, key', hi, heq⟩
      have hlt := (List.getElem?_eq_some_iff.mp hi).1
      have hindex : (ks.length : ℤ) = i := congrArg Slot.index heq
      omega
    rw [SlotsStored, cells_set (ht.length ▸ hp) keyHash_ne_zero, keySlots_append]
    exact ht.stored.insert hnew hp hfree hreach

theorem keys_modify : keys (elems.modify i fun e ↦ { e with value }) = keys elems := by
  refine List.ext_getElem? fun j ↦ ?_
  rw [keys_getElem?, keys_getElem?, List.getElem?_modify]
  split_ifs <;> cases elems[j]? <;> rfl

/-- Writing the value of an element that is there. -/
theorem toFun_modify (hnodup : (keys m.elems).Nodup) (he : m.elems[i]? = some e)
    (table : Option HashIndex) :
    toFun ⟨m.elems.modify i fun e ↦ { e with value }, table⟩
      = Function.update m.toFun e.key value := by
  let elems' := m.elems.modify i fun e ↦ { e with value }
  have hkeys : keys elems' = keys m.elems := keys_modify
  funext key'
  by_cases hkey : key' ∈ keys m.elems
  · obtain ⟨j, e', he', rfl⟩ := exists_getElem? hkey
    by_cases hij : i = j
    · obtain rfl := hij
      obtain rfl := Option.some_inj.mp (he.symm.trans he')
      have hnew : elems'[i]? = some { e with value } := by
        rw [List.getElem?_modify_eq, he]
        rfl
      rw [Function.update_self]
      exact toFun_eq_of_getElem? (m := ⟨elems', table⟩) (hkeys ▸ hnodup) hnew
    · have hi : (keys m.elems)[i]? = some e.key := by rw [keys_getElem?, he, Option.map_some]
      have hj : (keys m.elems)[j]? = some e'.key := by rw [keys_getElem?, he', Option.map_some]
      have hne : e'.key ≠ e.key := fun heq ↦ hij (eq_index_of_key hnodup hj (heq ▸ hi))
      have hsame : elems'[j]? = some e' := by rw [List.getElem?_modify_ne _ _ hij, he']
      rw [Function.update_of_ne hne, toFun_eq_of_getElem? hnodup he']
      exact toFun_eq_of_getElem? (m := ⟨elems', table⟩) (hkeys ▸ hnodup) hsame
  · have hne : key' ≠ e.key := fun heq ↦
      hkey (heq ▸ List.mem_map_of_mem (List.mem_of_getElem? he))
    rw [Function.update_of_ne hne, toFun_eq_none hkey]
    exact toFun_eq_none (m := ⟨elems', table⟩) (hkeys ▸ hkey)

/-- Writing a new element. -/
theorem toFun_append (hkey : key ∉ keys m.elems) (table : Option HashIndex) :
    toFun ⟨m.elems ++ [⟨key, value⟩], table⟩ = Function.update m.toFun key value := by
  funext key'
  rw [toFun, List.find?_append]
  obtain rfl | hne := eq_or_ne key' key
  · have hfind : m.elems.find? (·.key = key') = none := by
      rw [List.find?_eq_none]
      exact fun e he hek ↦ hkey (List.mem_map.mpr ⟨e, he, by simpa using hek⟩)
    simp [hfind]
  · rw [Function.update_of_ne hne, toFun]
    simp [hne.symm]

/-- A call of `shput` comes to an end, and is an update of the finite map. Only a new key makes a
new element, behind the others. -/
theorem Valid.shput (h : m.Valid) (key : CStr) (value : Option V) (hashSeed : UInt64) :
    ∃ m' hashSeed', m.shput key value hashSeed = some (m', hashSeed') ∧ m'.Valid ∧
      m'.toFun = Function.update m.toFun key value ∧
      keys m'.elems = if key ∈ keys m.elems then keys m.elems else keys m.elems ++ [key] := by
  obtain ⟨t, hashSeed', hgrow, ht, hroom⟩ := h.growTable hashSeed
  split_ifs with hkey
  · obtain ⟨i, e, he, rfl⟩ := exists_getElem? hkey
    have hi : (keys m.elems)[i]? = some e.key := by rw [keys_getElem?, he, Option.map_some]
    have hprobe := putProbe_eq_of_mem ht h.nodup hi
    have hkeys : keys (m.elems.modify i fun e ↦ { e with value }) = keys m.elems := keys_modify
    refine ⟨⟨m.elems.modify i fun e ↦ { e with value }, some t⟩, hashSeed', ?_, ?_, ?_, hkeys⟩
    · simp [StringMap.shput, hmputKey, hgrow, hprobe]
    · exact {
        nodup := hkeys ▸ h.nodup
        table := fun t' ht' ↦ by rw [← Option.some_inj.mp ht', hkeys]; exact ht
        noTable := fun hnone ↦ nomatch hnone }
    · exact toFun_modify h.nodup he _
  · obtain ⟨p, hp, hprobe, hreach, hfree⟩ := putProbe_eq_of_notMem ht hkey
    have hkeys : keys (m.elems ++ [⟨key, value⟩]) = keys m.elems ++ [key] := List.map_append
    let t' : HashIndex := { t with
      usedCount := t.usedCount + 1
      storage := t.storage.set p ⟨keyHash key t.seed, m.elems.length⟩ }
    refine ⟨⟨m.elems ++ [⟨key, value⟩], some t'⟩, hashSeed', ?_, ?_, toFun_append hkey _, hkeys⟩
    · simp only [StringMap.shput, hmputKey, hgrow, hprobe, Option.bind_some, Option.map_some]
      rw [Int.toNat_natCast, List.modify_eq_take_drop, List.take_left, List.drop_left]
      rfl
    · exact {
        nodup := by
          rw [hkeys, ← List.concat_eq_append]
          exact h.nodup.concat hkey
        table := fun _ ht' ↦ by
          have hset := ht.set hroom hp hfree hreach
          rw [← Option.some_inj.mp ht', hkeys]
          rwa [keys, List.length_map] at hset
        noTable := fun hnone ↦ nomatch hnone }

/-! ## Sequences of calls -/

theorem Valid.shputs (h : m.Valid) (hashSeed : UInt64) (puts : List (CStr × Option V)) :
    ∃ m' hashSeed', m.shputs hashSeed puts = some (m', hashSeed') ∧ m'.Valid ∧
      m'.toFun = puts.foldl (fun f put ↦ Function.update f put.1 put.2) m.toFun ∧
      keys m'.elems =
        puts.foldl (fun ks put ↦ if put.1 ∈ ks then ks else ks ++ [put.1]) (keys m.elems) := by
  induction puts generalizing m hashSeed with
  | nil => exact ⟨m, hashSeed, rfl, h, rfl, rfl⟩
  | cons put puts ih =>
    obtain ⟨m₁, hashSeed₁, hput, hvalid₁, htoFun₁, hkeys₁⟩ := h.shput put.1 put.2 hashSeed
    obtain ⟨m', hashSeed', hputs, hvalid, htoFun, hkeys⟩ := ih hvalid₁ hashSeed₁
    refine ⟨m', hashSeed', ?_, hvalid, ?_, ?_⟩
    · rw [StringMap.shputs, hput, Option.bind_some, hputs]
    · rw [htoFun, htoFun₁, List.foldl_cons]
    · rw [hkeys, hkeys₁, List.foldl_cons]

/-- Where no value is `NULL`, the keys of the finite map are those that were put. -/
theorem isSome_foldl_update {puts : List (CStr × Option V)} (hsome : ∀ put ∈ puts, put.2.isSome)
    (f : CStr → Option V) (key : CStr) :
    (puts.foldl (fun f put ↦ Function.update f put.1 put.2) f key).isSome
      = ((puts.map Prod.fst).contains key || (f key).isSome) := by
  induction puts generalizing f with
  | nil => rfl
  | cons put puts ih =>
    rw [List.foldl_cons, ih fun p hp ↦ hsome p (List.mem_cons_of_mem _ hp), List.map_cons,
      List.contains_cons, Function.update_apply]
    obtain rfl | hne := eq_or_ne key put.1
    · rw [if_pos rfl, hsome put List.mem_cons_self]
      simp
    · rw [if_neg hne, beq_eq_false_iff_ne.mpr hne, Bool.false_or]

/-- The keys in the order in which they are put first. -/
theorem foldl_keys_eq (puts : List (CStr × Option V)) :
    puts.foldl (fun ks put ↦ if put.1 ∈ ks then ks else ks ++ [put.1]) []
      = (puts.map Prod.fst).reverse.dedup.reverse := by
  induction puts using List.reverseRecOn with
  | nil => rfl
  | append_singleton puts put ih =>
    have hreverse : ((puts ++ [put]).map Prod.fst).reverse
        = put.1 :: (puts.map Prod.fst).reverse := by
      rw [List.map_append, List.reverse_append]
      rfl
    rw [List.foldl_append, ih, hreverse, List.foldl_cons, List.foldl_nil]
    split_ifs with hmem
    · rw [List.mem_reverse, List.mem_dedup] at hmem
      rw [List.dedup_cons_of_mem hmem]
    · rw [List.mem_reverse, List.mem_dedup] at hmem
      rw [List.dedup_cons_of_notMem hmem, List.reverse_cons]

theorem shget_shputs_null (hashSeed : UInt64) (puts : List (CStr × Option V)) :
    ∃ m hashSeed', null.shputs hashSeed puts = some (m, hashSeed') ∧
      ∀ key, m.shget key
        = some (puts.foldl (fun f put ↦ Function.update f put.1 put.2) (fun _ ↦ none) key) := by
  obtain ⟨m, hashSeed', hputs, hvalid, htoFun, -⟩ := valid_null.shputs (V := V) hashSeed puts
  refine ⟨m, hashSeed', hputs, fun key ↦ ?_⟩
  rw [hvalid.shget_eq, htoFun]
  rfl

/-- From a map that is `NULL`, and whatever the seed, every sequence of calls of `shput` comes to an
end. Afterwards `shget` finds for each key the value that was put under it last, and the elements
are one for each key, in the order in which the keys were put first. -/
theorem shputs_null (hashSeed : UInt64) (puts : List (CStr × Option V)) :
    ∃ m hashSeed', null.shputs hashSeed puts = some (m, hashSeed') ∧
      (∀ key, m.shget key
        = some (puts.foldl (fun f put ↦ Function.update f put.1 put.2) (fun _ ↦ none) key)) ∧
      keys m.elems = (puts.map Prod.fst).reverse.dedup.reverse := by
  obtain ⟨m, hashSeed', hputs, hget⟩ := shget_shputs_null hashSeed puts
  obtain ⟨m', _, hputs', -, -, hkeys⟩ := valid_null.shputs (V := V) hashSeed puts
  cases hputs.symm.trans hputs'
  exact ⟨m, hashSeed', hputs, hget, hkeys.trans (foldl_keys_eq puts)⟩

example : ((null : StringMap ℕ).shputs 7 [("a".toList, some 1), ("b".toList, some 2),
    ("a".toList, some 3)]).bind (fun put ↦ put.1.shget "a".toList) = some (some 3) := by
  decide +kernel

end Novash.StringMap
