import Novash.Basic.CString
import Novash.Foundations.Probing

/-!
# String maps

The hash map of `external/stb_ds.h` with C strings as keys (`shput`, `shget`, `shlen`), which is
what the table of builtins and the environment of the shell are kept in. The elements stand in an
array in the order in which their keys were first put; the hash table in front of it holds, for each
key, its hash and the index of its element.

A table is read eight slots at a time: from the slot of the hash to the end of its bucket, then from
the beginning of the bucket, and so on with the bucket one further, then two, then three.
-/

namespace Novash.StringMap

open Foundations

/-! ## The hash of a string -/

def rotateLeft (val n : UInt64) : UInt64 := (val <<< n) ||| (val >>> (64 - n))

def rotateRight (val n : UInt64) : UInt64 := (val >>> n) ||| (val <<< (64 - n))

/-- `stbds_hash_string`. -/
def hashString (str : CStr) (seed : UInt64) : UInt64 :=
  let hash := str.foldl (fun hash c ↦ rotateLeft hash 9 + c.toUInt8.toUInt64) seed
  let hash := hash ^^^ seed
  let hash := ~~~hash + (hash <<< 18)
  let hash := hash ^^^ (hash ^^^ rotateRight hash 31)
  let hash := hash * 21
  let hash := hash ^^^ (hash ^^^ rotateRight hash 11)
  let hash := hash + (hash <<< 6)
  let hash := hash ^^^ rotateRight hash 22
  hash + seed

/-- The hash that is stored: never that of an empty slot, 0, nor that of a deleted one, 1. -/
def keyHash (key : CStr) (seed : UInt64) : UInt64 :=
  let hash := hashString key seed
  if hash < 2 then hash + 2 else hash

/-! ## The hash table -/

/-- `STBDS_BUCKET_LENGTH`. -/
def bucketLength : ℕ := 8

/-- One place of a bucket: `hash[i]` and `index[i]`. -/
structure Slot where
  hash : UInt64
  index : ℤ
deriving DecidableEq, Repr

/-- `STBDS_HASH_EMPTY` and `STBDS_INDEX_EMPTY`. -/
def Slot.empty : Slot := ⟨0, -1⟩

/-- The slot at a place of the table. -/
def slotAt (storage : List Slot) (pos : ℕ) : Slot := storage.getD pos .empty

/-- `STBDS_INDEX_DELETED`. -/
def indexDeleted : ℤ := -2

/-- `stbds_hash_index`. The buckets are one list of slots. -/
structure HashIndex where
  slotCount : ℕ
  usedCount : ℕ
  usedCountThreshold : ℕ
  tombstoneCount : ℕ
  seed : UInt64
  storage : List Slot
deriving DecidableEq, Repr

/-- `stbds_probe_position`. -/
def probePosition (hash : UInt64) (slotCount : ℕ) : ℕ := hash.toNat &&& (slotCount - 1)

/-- The places of the bucket of `pos` in the order in which they are looked at. -/
def bucketOrder (pos : ℕ) : List ℕ :=
  let first := pos / bucketLength * bucketLength
  let limit := pos % bucketLength
  (List.range' limit (bucketLength - limit)).map (first + ·)
    ++ (List.range limit).map (first + ·)

variable {σ β : Type}

/-- The `for (;;)` of a probe. `look` is the body of the two loops over a bucket; its error leaves
them. The buckets of the table are the fuel. -/
def probe (slotCount : ℕ) (look : σ → ℕ → Except β σ) : ℕ → σ → ℕ → ℕ → Option β
  | 0, _, _, _ => none
  | fuel + 1, s, pos, step =>
    match (bucketOrder pos).foldlM look s with
    | .error found => some found
    | .ok s =>
      -- quadratic probing
      probe slotCount look fuel s ((pos + step) &&& (slotCount - 1)) (step + bucketLength)

/-- The probe for a hash, over the whole table. -/
def probeFor (hash : UInt64) (slotCount : ℕ) (look : σ → ℕ → Except β σ) (s : σ) : Option β :=
  probe slotCount look (slotCount / bucketLength) s (probePosition hash slotCount) bucketLength

/-- Where the copying loop of `stbds_make_hash_index` puts a slot of the old table. -/
def copySlot (slotCount : ℕ) (storage : List Slot) (slot : Slot) : Option (List Slot) :=
  (probeFor slot.hash slotCount
    (fun _ pos ↦ if (slotAt storage pos).hash = 0 then .error pos else .ok ()) ()).map
    fun pos ↦ storage.set pos slot

/-- The loop of `stbds_make_hash_index` over the old table. -/
def copySlots (slotCount : ℕ) : List Slot → List Slot → Option (List Slot)
  | storage, [] => some storage
  | storage, slot :: old =>
    if 0 ≤ slot.index then (copySlot slotCount storage slot).bind (copySlots slotCount · old)
    else copySlots slotCount storage old

/-- `stbds_make_hash_index`, with the value of `stbds_hash_seed` before and after. -/
def makeHashIndex (slotCount : ℕ) (ot : Option HashIndex) (hashSeed : UInt64) :
    Option (HashIndex × UInt64) :=
  let t : HashIndex := {
    slotCount
    usedCount := 0
    usedCountThreshold := slotCount - (slotCount >>> 2)
    tombstoneCount := 0
    seed := hashSeed
    storage := List.replicate slotCount .empty }
  match ot with
  | none => some (t, hashSeed * 2862933555777941757 + 3037000493)
  | some ot =>
    (copySlots slotCount t.storage ot.storage).map fun storage ↦
      ({ t with usedCount := ot.usedCount, seed := ot.seed, storage }, hashSeed)

/-! ## The map -/

variable {V : Type}

/-- An element of the array. The value is `none` when it is `NULL`, and in a new element until it is
written. -/
structure Elem (V : Type) where
  key : CStr
  value : Option V
deriving DecidableEq, Repr

end StringMap

/-- The array of a map without its default element, which is zero, and the hash table in its header.
A map that is `NULL` and one that has no table yet are treated alike. -/
structure StringMap (V : Type) where
  elems : List (StringMap.Elem V)
  table : Option StringMap.HashIndex
deriving DecidableEq, Repr

namespace StringMap

variable {V : Type}

def null : StringMap V := ⟨[], none⟩

/-- `stbds_is_key_equal`. -/
def isKeyEqual (elems : List (Elem V)) (key : CStr) (index : ℤ) : Bool :=
  (elems[index.toNat]?).any (·.key = key)

/-- `stbds_hm_find_slot`: the place of the key, or `none` for -1. -/
def hmFindSlot (elems : List (Elem V)) (table : HashIndex) (key : CStr) : Option (Option ℕ) :=
  let hash := keyHash key table.seed
  probeFor hash table.slotCount (fun _ pos ↦
    let slot := slotAt table.storage pos
    if slot.hash = hash then
      if isKeyEqual elems key slot.index then .error (some pos) else .ok ()
    else if slot.hash = 0 then .error none
    else .ok ()) ()

/-- `stbds_hmget_key`: the index of the key, -1 if it has none. -/
def hmgetKey (m : StringMap V) (key : CStr) : Option ℤ :=
  match m.table with
  | none => some (-1)
  | some table =>
    (hmFindSlot m.elems table key).map fun slot ↦
      match slot with
      | none => -1
      | some pos => (slotAt table.storage pos).index

/-- `shget`. The default element stands at -1. -/
def shget (m : StringMap V) (key : CStr) : Option (Option V) :=
  (m.hmgetKey key).map fun index ↦
    if 0 ≤ index then (m.elems[index.toNat]?).bind (·.value) else none

def shlen (m : StringMap V) : ℕ := m.elems.length

/-- How the probe of `stbds_hmput_key` ends: at the key, whose element has this index, or at an
empty place, with the first deleted one before it. -/
inductive PutStop where
  | found (index : ℤ)
  | emptySlot (pos : ℕ) (tombstone : Option ℕ)
deriving DecidableEq, Repr

/-- The body of the loops of `stbds_hmput_key`. -/
def putLook (elems : List (Elem V)) (storage : List Slot) (hash : UInt64) (key : CStr)
    (tombstone : Option ℕ) (pos : ℕ) : Except PutStop (Option ℕ) :=
  let slot := slotAt storage pos
  if slot.hash = hash then
    if isKeyEqual elems key slot.index then .error (.found slot.index) else .ok tombstone
  else if slot.hash = 0 then .error (.emptySlot pos tombstone)
  else if tombstone = none ∧ slot.index = indexDeleted then .ok (some pos)
  else .ok tombstone

/-- The table that `stbds_hmput_key` works on: a first one, or one of twice the size if this one is
filled up to its threshold. -/
def growTable (table : Option HashIndex) (hashSeed : UInt64) : Option (HashIndex × UInt64) :=
  match table with
  | none => makeHashIndex bucketLength none hashSeed
  | some t =>
    if t.usedCountThreshold ≤ t.usedCount then makeHashIndex (t.slotCount * 2) (some t) hashSeed
    else some (t, hashSeed)

/-- `stbds_hmput_key`: the map with an element for the key, its index, which is left in `temp`, and
`stbds_hash_seed`. -/
def hmputKey (m : StringMap V) (key : CStr) (hashSeed : UInt64) :
    Option (StringMap V × ℤ × UInt64) :=
  (growTable m.table hashSeed).bind fun grown ↦
    let table := grown.1
    let hash := keyHash key table.seed
    (probeFor hash table.slotCount (putLook m.elems table.storage hash key) none).map fun stop ↦
      match stop with
      | .found index => (⟨m.elems, some table⟩, index, grown.2)
      | .emptySlot pos tombstone =>
        let i := m.elems.length
        (⟨m.elems ++ [⟨key, none⟩], some { table with
            usedCount := table.usedCount + 1
            tombstoneCount :=
              if tombstone.isSome then table.tombstoneCount - 1 else table.tombstoneCount
            storage := table.storage.set (tombstone.getD pos) ⟨hash, i⟩ }⟩, i, grown.2)

/-- `shput`: the value goes to the element that `stbds_hmput_key` has left in `temp`. -/
def shput (m : StringMap V) (key : CStr) (value : Option V) (hashSeed : UInt64) :
    Option (StringMap V × UInt64) :=
  (m.hmputKey key hashSeed).map fun put ↦
    ({ put.1 with elems := put.1.elems.modify put.2.1.toNat fun e ↦ { e with value } }, put.2.2)

/-- One `shput` after the other. -/
def shputs (m : StringMap V) (hashSeed : UInt64) :
    List (CStr × Option V) → Option (StringMap V × UInt64)
  | [] => some (m, hashSeed)
  | (key, value) :: puts => (m.shput key value hashSeed).bind fun put ↦ put.1.shputs put.2 puts

end StringMap
end Novash
