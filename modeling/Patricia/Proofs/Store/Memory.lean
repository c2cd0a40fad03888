import Mathlib.Data.List.Dedup
import Patricia.Format.Encoding
import Patricia.Store.Memory

/-!
# What stores in memory have

Writing an entry into a store in memory puts its bytes under its hash and leaves the other hashes
alone. So a store whose entries are filed under their own hashes only grows when such entries are
written, unless two byte strings among them have one hash (`MemoryStore.Authentic.insertAll`).
-/

namespace Patricia

/-- No two byte strings of some kind have the same hash. -/
def Apart (known : Bytes → Prop) : Prop :=
  ∀ left right, known left → known right → keccak256 left = keccak256 right → left = right

/-- Fewer byte strings are apart if more are. -/
theorem Apart.mono {known more : Bytes → Prop} (h : Apart more)
    (hmore : ∀ bytes, known bytes → more bytes) : Apart known :=
  fun left right hleft hright ↦ h left right (hmore left hleft) (hmore right hright)

/-- The byte strings of a list are apart, if those that differ have no hash twice. -/
theorem Apart.of_nodup {listed : List Bytes} (h : (listed.dedup.map keccak256).Nodup) :
    Apart (· ∈ listed) := fun _ _ hleft hright heq ↦
  List.inj_on_of_nodup_map h (List.mem_dedup.mpr hleft) (List.mem_dedup.mpr hright) heq

namespace MemoryStore

variable {store : MemoryStore} {known : Bytes → Prop}

/-- The first entry of a list answers for its hash, and the others answer for the rest. -/
theorem lookup_cons_eq (entry : Entry) (entries : List Entry) (hash : Hash) :
    (entry :: entries).lookup hash =
      if hash = entry.1 then some entry.2 else entries.lookup hash := by
  rw [List.lookup_cons]
  split
  · rename_i heq
    rw [if_pos (beq_iff_eq.mp heq)]
  · rename_i hne
    rw [if_neg (beq_eq_false_iff_ne.mp hne)]

/-- Replacing the entries under a hash changes what is under that hash only. -/
theorem lookup_map_replace (entry : Entry) (hash : Hash) (entries : List Entry) :
    (entries.map fun old ↦ if old.1 = entry.1 then entry else old).lookup hash =
      if hash = entry.1 then (entries.lookup hash).map fun _ ↦ entry.2
      else entries.lookup hash := by
  induction entries with
  | nil => simp
  | cons old entries ih =>
      have hkey : (if old.1 = entry.1 then entry else old).1 = old.1 := by
        split
        · rename_i heq
          exact heq.symm
        · rfl
      rw [List.map_cons, lookup_cons_eq, lookup_cons_eq, hkey, ih]
      by_cases hold : hash = old.1
      · rw [if_pos hold, if_pos hold, hold, Option.map_some]
        split <;> rfl
      · rw [if_neg hold, if_neg hold]

/-- An entry that was written is under its hash, and other hashes are as they were. -/
theorem get?_insert (store : MemoryStore) (entry : Entry) (hash : Hash) :
    (store.insert entry).get? hash = if hash = entry.1 then some entry.2 else store.get? hash := by
  rw [insert]
  by_cases hcontains : store.contains entry.1 = true
  · rw [if_pos hcontains, get?, lookup_map_replace]
    split
    · rename_i heq
      rw [contains, get?, ← heq] at hcontains
      obtain ⟨bytes, hbytes⟩ := Option.isSome_iff_exists.mp hcontains
      rw [hbytes, Option.map_some]
    · rfl
  · rw [if_neg hcontains, get?, List.lookup_append, lookup_cons_eq]
    have hnone : store.entries.lookup entry.1 = none := by
      rwa [contains, get?, Option.not_isSome_iff_eq_none] at hcontains
    split
    · rename_i heq
      rw [heq, hnone, Option.none_or]
    · rw [List.lookup_nil, Option.or_none]
      rfl

/-- An entry is filed under its own hash and is of some kind. -/
def Genuine (known : Bytes → Prop) (entry : Entry) : Prop :=
  keccak256 entry.2 = entry.1 ∧ known entry.2

/-- All entries of a store are filed under their own hashes and are of some kind. -/
def Authentic (known : Bytes → Prop) (store : MemoryStore) : Prop :=
  ∀ hash bytes, store.get? hash = some bytes → Genuine known (hash, bytes)

/-- Nothing is wrong with the entries of a store without any. -/
theorem authentic_empty : empty.Authentic known :=
  nofun

/-- A genuine entry can be written. -/
theorem Authentic.insert (h : store.Authentic known) {entry : Entry}
    (hentry : Genuine known entry) : (store.insert entry).Authentic known := by
  intro hash bytes hbytes
  rw [get?_insert] at hbytes
  split at hbytes
  · rename_i heq
    obtain rfl := Option.some.inj hbytes
    rw [heq]
    exact hentry
  · exact h hash bytes hbytes

/-- A genuine entry overwrites nothing. -/
theorem Authentic.get?_insert (h : store.Authentic known) (hapart : Apart known) {entry : Entry}
    (hentry : Genuine known entry) {hash : Hash} {bytes : Bytes}
    (hbytes : store.get? hash = some bytes) : (store.insert entry).get? hash = some bytes := by
  rw [MemoryStore.get?_insert]
  split
  · rename_i heq
    obtain ⟨hhash, hknown⟩ := h hash bytes hbytes
    exact congrArg some (hapart _ _ hentry.2 hknown (by rw [hentry.1, hhash, heq]))
  · exact hbytes

/-- A store of genuine entries is authentic. -/
theorem authentic_ofEntries {entries : List Entry} (h : ∀ entry ∈ entries, Genuine known entry) :
    (ofEntries entries).Authentic known := by
  rw [ofEntries, MemoryStore.insertAll]
  have hstart : empty.Authentic known := authentic_empty
  generalize empty = start at hstart
  induction entries generalizing start with
  | nil => exact hstart
  | cons entry entries ih =>
      exact ih (fun other hother ↦ h other (List.mem_cons_of_mem _ hother)) _
        (hstart.insert (h entry List.mem_cons_self))

/-- Genuine entries can be written. All of them are there then, and they overwrite nothing. -/
theorem Authentic.insertAll (h : store.Authentic known) (hapart : Apart known)
    {entries : List Entry} (hentries : ∀ entry ∈ entries, Genuine known entry) :
    (store.insertAll entries).Authentic known ∧
      (∀ hash bytes, store.get? hash = some bytes →
        (store.insertAll entries).get? hash = some bytes) ∧
      ∀ entry ∈ entries, (store.insertAll entries).get? entry.1 = some entry.2 := by
  induction entries generalizing store with
  | nil => exact ⟨h, fun _ _ ↦ id, nofun⟩
  | cons entry entries ih =>
      have hentry := hentries entry List.mem_cons_self
      obtain ⟨hlast, hgrown, hwritten⟩ :=
        ih (h.insert hentry) fun other hother ↦ hentries other (List.mem_cons_of_mem _ hother)
      refine ⟨hlast, fun hash bytes hbytes ↦ ?_, ?_⟩
      · exact hgrown _ _ (h.get?_insert hapart hentry hbytes)
      intro other hother
      rcases List.mem_cons.mp hother with rfl | hmem
      · exact hgrown _ _ (by rw [MemoryStore.get?_insert, if_pos rfl])
      · exact hwritten other hmem

/-- An entry after writing some was there before or is one of them. -/
theorem get?_insertAll {entries : List Entry} {hash : Hash} {bytes : Bytes}
    (h : (store.insertAll entries).get? hash = some bytes) :
    store.get? hash = some bytes ∨ (hash, bytes) ∈ entries := by
  induction entries generalizing store with
  | nil => exact Or.inl h
  | cons entry entries ih =>
      rcases ih h with hold | hnew
      · rw [MemoryStore.get?_insert] at hold
        split at hold
        · rename_i heq
          obtain rfl := Option.some.inj hold
          subst heq
          exact Or.inr List.mem_cons_self
        · exact Or.inl hold
      · exact Or.inr (List.mem_cons_of_mem _ hnew)

end MemoryStore

end Patricia
