/-!
# Maps and sets of names

A map from names to values, kept in ascending order of the names.  The order is that of the code
points of the names, and it is the order in which a map is listed.  Each name occurs once, so two
maps with the same entries are equal.

## Main definitions

* `NameMap` — a map; `find?`, `insert`, `erase` and `keys` are its operations.
* `NameSet` — a set of names.
-/

namespace Mend

/-- A map from names to values. -/
structure NameMap (α : Type) where
  /-- The entries. -/
  entries : List (String × α)
  /-- The names ascend, so none occurs twice. -/
  ascending : entries.Pairwise fun p q => p.1 < q.1

namespace NameMap

variable {α β : Type}

/-- The map without entries. -/
def empty : NameMap α := ⟨[], .nil⟩

instance : Inhabited (NameMap α) := ⟨empty⟩

/-- Two maps with the same entries are the same. -/
@[ext] theorem ext {m n : NameMap α} (h : m.entries = n.entries) : m = n := by
  cases m; cases n; cases h; rfl

instance [DecidableEq α] : DecidableEq (NameMap α) := fun m n =>
  decidable_of_iff (m.entries = n.entries) ⟨ext, fun h => h ▸ rfl⟩

/-- The value of a name. -/
def find? (m : NameMap α) (k : String) : Option α :=
  (m.entries.find? fun p => p.1 == k).map (·.2)

/-- A name of the map. -/
def contains (m : NameMap α) (k : String) : Bool := (m.find? k).isSome

/-- The names, in ascending order. -/
def keys (m : NameMap α) : List String := m.entries.map (·.1)

/-- The values, in ascending order of their names. -/
def values (m : NameMap α) : List α := m.entries.map (·.2)

/-- The number of names. -/
def size (m : NameMap α) : Nat := m.entries.length

/-- Puts an entry where it belongs among ascending entries. -/
def insertEntry (k : String) (v : α) : List (String × α) → List (String × α)
  | [] => [(k, v)]
  | (k', v') :: rest =>
    if k < k' then (k, v) :: (k', v') :: rest
    else if k = k' then (k, v) :: rest
    else (k', v') :: insertEntry k v rest

theorem mem_insertEntry {k : String} {v : α} {es : List (String × α)} {p : String × α}
    (h : p ∈ insertEntry k v es) : p = (k, v) ∨ p ∈ es := by
  induction es with
  | nil => simpa [insertEntry] using h
  | cons e es ih =>
    obtain ⟨k', v'⟩ := e
    rw [insertEntry] at h
    split at h
    · simpa using h
    · split at h
      · rcases List.mem_cons.1 h with h | h
        · exact .inl h
        · exact .inr (List.mem_cons_of_mem _ h)
      · rcases List.mem_cons.1 h with h | h
        · exact .inr (h ▸ List.mem_cons_self ..)
        · exact (ih h).imp id (List.mem_cons_of_mem _)

theorem ascending_insertEntry (k : String) (v : α) {es : List (String × α)}
    (h : es.Pairwise fun p q => p.1 < q.1) :
    (insertEntry k v es).Pairwise fun p q => p.1 < q.1 := by
  induction es with
  | nil => simp [insertEntry]
  | cons e es ih =>
    obtain ⟨k', v'⟩ := e
    have ⟨hhead, htail⟩ := List.pairwise_cons.1 h
    rw [insertEntry]
    split
    case isTrue hlt =>
      refine List.pairwise_cons.2 ⟨fun q hq => ?_, h⟩
      rcases List.mem_cons.1 hq with rfl | hq
      · exact hlt
      · exact String.lt_trans hlt (hhead q hq)
    case isFalse hlt =>
      split
      case isTrue heq =>
        subst heq
        exact List.pairwise_cons.2 ⟨hhead, htail⟩
      case isFalse hne =>
        refine List.pairwise_cons.2 ⟨fun q hq => ?_, ih htail⟩
        rcases mem_insertEntry hq with rfl | hq
        · exact String.not_le.1 fun hle => hne (String.le_antisymm hle (String.not_lt.1 hlt))
        · exact hhead q hq

/-- Gives a name a value, in place of the one it has. -/
def insert (m : NameMap α) (k : String) (v : α) : NameMap α :=
  ⟨insertEntry k v m.entries, ascending_insertEntry k v m.ascending⟩

/-- Takes a name away. -/
def erase (m : NameMap α) (k : String) : NameMap α :=
  ⟨m.entries.filter fun p => p.1 != k, m.ascending.filter _⟩

/-- Exchanges the values, each for one that may depend on its name. -/
def mapNamed (f : String → α → β) (m : NameMap α) : NameMap β :=
  ⟨m.entries.map fun p => (p.1, f p.1 p.2), List.pairwise_map.2 m.ascending⟩

/-- The map of some entries; of two entries with one name the later one counts. -/
def ofList (es : List (String × α)) : NameMap α := es.foldl (fun m p => m.insert p.1 p.2) empty

/-- A name has the value it was given last. -/
theorem find?_insert_self (m : NameMap α) (k : String) (v : α) :
    (m.insert k v).find? k = some v := by
  unfold insert find?
  dsimp only
  induction m.entries with
  | nil => simp [insertEntry]
  | cons e es ih =>
    obtain ⟨k', v'⟩ := e
    rw [insertEntry]
    split
    · simp
    · split
      · simp
      next hne =>
        have : (k' == k) = false := by simpa using Ne.symm hne
        simpa [this] using ih

/-- Giving a name a value leaves the other names alone. -/
theorem find?_insert_of_ne (m : NameMap α) {k j : String} (hne : j ≠ k) (v : α) :
    (m.insert k v).find? j = m.find? j := by
  have hkj : (k == j) = false := by simpa using Ne.symm hne
  unfold insert find?
  dsimp only
  induction m.entries with
  | nil => simp [insertEntry, hkj]
  | cons e es ih =>
    obtain ⟨k', v'⟩ := e
    rw [insertEntry]
    split
    · simp [hkj]
    · split
      next heq => simp [← heq, hkj]
      next =>
        rw [List.find?_cons, List.find?_cons]
        split
        · rfl
        · exact ih

/-- Among ascending entries, a name has one value. -/
theorem find?_of_mem {es : List (String × α)} (hes : es.Pairwise fun p q => p.1 < q.1)
    {k : String} {v : α} (h : (k, v) ∈ es) : es.find? (fun p => p.1 == k) = some (k, v) := by
  induction es with
  | nil => cases h
  | cons e es ih =>
    have ⟨hhead, htail⟩ := List.pairwise_cons.1 hes
    rcases List.mem_cons.1 h with rfl | h
    · simp
    · have hne : e.1 ≠ k := by
        rintro rfl
        exact String.lt_irrefl e.1 (hhead (e.1, v) h)
      rw [List.find?_cons_of_neg (by simpa using hne)]
      exact ih htail h

/-- What is found under a name is what is listed with it. -/
theorem find?_eq_some_iff {m : NameMap α} {k : String} {v : α} :
    m.find? k = some v ↔ (k, v) ∈ m.entries := by
  constructor
  · intro h
    obtain ⟨⟨k', v'⟩, hfind, rfl⟩ := Option.map_eq_some_iff.1 h
    have hname : k' = k := by simpa using List.find?_some hfind
    exact hname ▸ List.mem_of_find?_eq_some hfind
  · intro h
    rw [find?, find?_of_mem m.ascending h]
    rfl

end NameMap

/-- A set of names, in ascending order. -/
abbrev NameSet := NameMap Unit

namespace NameSet

/-- The set of some names. -/
def ofList (ks : List String) : NameSet := NameMap.ofList (ks.map fun k => (k, ()))

/-- The names of a set, in ascending order. -/
def toList (s : NameSet) : List String := s.keys

/-- Adds a name. -/
def add (s : NameSet) (k : String) : NameSet := s.insert k ()

end NameSet

end Mend
