set_option autoImplicit false

namespace Stencil

structure Table (κ α : Type) where
  entries : List (κ × α)
  nodup : (entries.map Prod.fst).Nodup

namespace Table

variable {κ α : Type}

def empty : Table κ α := ⟨[], List.nodup_nil⟩

def keys (t : Table κ α) : List κ := t.entries.map Prod.fst

def size (t : Table κ α) : Nat := t.entries.length

def place [LT κ] [DecidableLT κ] (k : κ) (a : α) : List (κ × α) → List (κ × α)
  | [] => [(k, a)]
  | e :: rest => if k < e.1 then (k, a) :: e :: rest else e :: place k a rest

theorem perm_place [LT κ] [DecidableLT κ] (k : κ) (a : α) (entries : List (κ × α)) :
    (place k a entries).Perm ((k, a) :: entries) := by
  induction entries with
  | nil => exact .refl _
  | cons e rest ih =>
    rw [place]
    split
    · exact .refl _
    · exact (ih.cons e).trans (.swap _ _ _)

variable [DecidableEq κ]

def find? (t : Table κ α) (k : κ) : Option α := (t.entries.find? (·.1 == k)).map Prod.snd

def contains (t : Table κ α) (k : κ) : Bool := (t.find? k).isSome

def erase (t : Table κ α) (k : κ) : Table κ α :=
  ⟨t.entries.filter (·.1 != k), t.nodup.sublist (List.filter_sublist.map _)⟩

theorem not_mem_keys_erase (t : Table κ α) (k : κ) : k ∉ (t.erase k).keys := by
  intro h
  obtain ⟨e, he, rfl⟩ := List.mem_map.1 h
  simp [erase] at he

def insert [LT κ] [DecidableLT κ] (t : Table κ α) (k : κ) (a : α) : Table κ α where
  entries := place k a (t.erase k).entries
  nodup := by
    rw [((perm_place k a (t.erase k).entries).map Prod.fst).nodup_iff]
    exact List.nodup_cons.2 ⟨t.not_mem_keys_erase k, (t.erase k).nodup⟩

@[simp] theorem find?_empty (k : κ) : (empty : Table κ α).find? k = none := rfl

theorem mem_entries_iff (t : Table κ α) (k : κ) (a : α) :
    (k, a) ∈ t.entries ↔ t.find? k = some a := by
  obtain ⟨entries, hn⟩ := t
  simp only [find?]
  induction entries with
  | nil => simp
  | cons e rest ih =>
    simp only [List.map_cons, List.nodup_cons] at hn
    by_cases h : e.1 = k
    · have hk : (k, a) ∉ rest := fun hm => hn.1 (h ▸ List.mem_map_of_mem (f := Prod.fst) hm)
      simp only [List.mem_cons, hk, or_false, List.find?_cons, h, BEq.rfl, Option.map_some,
        Option.some.injEq]
      constructor
      · rintro rfl; rfl
      · rintro rfl; rw [← h]
    · have hk : (k, a) ≠ e := fun he => h (by rw [← he])
      have hb : (e.1 == k) = false := by simpa using h
      simp [hb, hk, ih hn.2]

theorem find?_insert [LT κ] [DecidableLT κ] (t : Table κ α) (k k' : κ) (a : α) :
    (t.insert k a).find? k' = if k' = k then some a else t.find? k' := by
  apply Option.ext
  intro b
  rw [← mem_entries_iff, insert, (perm_place k a _).mem_iff]
  by_cases h : k' = k
  · subst h
    simp [erase, eq_comm]
  · simp [erase, h, mem_entries_iff]

theorem find?_erase (t : Table κ α) (k k' : κ) :
    (t.erase k).find? k' = if k' = k then none else t.find? k' := by
  apply Option.ext
  intro b
  rw [← mem_entries_iff]
  by_cases h : k' = k
  · simp [erase, h]
  · simp [erase, h, mem_entries_iff]

end Table

end Stencil
