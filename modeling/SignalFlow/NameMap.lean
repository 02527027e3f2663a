/-!
# Maps from names

A map from names to values, kept in the order of the names. Names are ordered by their code
points, which is also the order of their UTF-8 bytes. A name occurs once, so two maps that
give the same value to every name are the same map.
-/

namespace SignalFlow

/-- A finite map whose entries are in ascending order of their names. -/
structure NameMap (α : Type) where
  entries : List (String × α)
  ascending : entries.Pairwise (fun a b ↦ a.1 < b.1)
deriving DecidableEq

namespace NameMap

variable {α β : Type}

/-- Puts an entry at its place in an ascending list, instead of one of the same name. -/
def insertEntry (name : String) (value : α) : List (String × α) → List (String × α)
  | [] => [(name, value)]
  | (n, v) :: rest =>
    if name < n then (name, value) :: (n, v) :: rest
    else if name = n then (name, value) :: rest
    else (n, v) :: insertEntry name value rest

theorem mem_insertEntry {name : String} {value : α} {entries : List (String × α)}
    {e : String × α} (h : e ∈ insertEntry name value entries) :
    e = (name, value) ∨ e ∈ entries := by
  induction entries with
  | nil => simpa [insertEntry] using h
  | cons head rest ih =>
    obtain ⟨n, v⟩ := head
    unfold insertEntry at h
    split at h
    · simpa using h
    · split at h
      · rcases List.mem_cons.1 h with h | h
        · exact .inl h
        · exact .inr (List.mem_cons_of_mem _ h)
      · rcases List.mem_cons.1 h with h | h
        · exact .inr (h ▸ List.mem_cons_self)
        · exact (ih h).imp id (List.mem_cons_of_mem _)

theorem ascending_insertEntry (name : String) (value : α) {entries : List (String × α)}
    (h : entries.Pairwise (fun a b ↦ a.1 < b.1)) :
    (insertEntry name value entries).Pairwise (fun a b ↦ a.1 < b.1) := by
  induction entries with
  | nil => simp [insertEntry]
  | cons head rest ih =>
    obtain ⟨n, v⟩ := head
    obtain ⟨below, ascending⟩ := List.pairwise_cons.1 h
    unfold insertEntry
    split
    · next hlt =>
      refine List.pairwise_cons.2 ⟨?_, h⟩
      intro e he
      rcases List.mem_cons.1 he with rfl | he
      · exact hlt
      · exact String.lt_trans hlt (below e he)
    · next hge =>
      split
      · next heq => exact List.pairwise_cons.2 ⟨fun e he ↦ heq ▸ below e he, ascending⟩
      · next hne =>
        refine List.pairwise_cons.2 ⟨?_, ih ascending⟩
        intro e he
        rcases mem_insertEntry he with rfl | he
        · exact Decidable.byContradiction fun hnot ↦
            hne (String.le_antisymm (String.not_lt.1 hnot) (String.not_lt.1 hge))
        · exact below e he

def empty : NameMap α where
  entries := []
  ascending := .nil

instance : Inhabited (NameMap α) := ⟨empty⟩

/-- The map in which `name` has the given value and all else is as before. -/
def insert (m : NameMap α) (name : String) (value : α) : NameMap α where
  entries := insertEntry name value m.entries
  ascending := ascending_insertEntry name value m.ascending

def get? (m : NameMap α) (name : String) : Option α :=
  m.entries.lookup name

def contains (m : NameMap α) (name : String) : Bool :=
  (m.get? name).isSome

def size (m : NameMap α) : Nat :=
  m.entries.length

def isEmpty (m : NameMap α) : Bool :=
  m.entries.isEmpty

def names (m : NameMap α) : List String :=
  m.entries.map (·.1)

/-- Inserts entries from the first to the last, so that the last value of a name stays. -/
def insertAll (m : NameMap α) (entries : List (String × α)) : NameMap α :=
  entries.foldl (fun m e ↦ m.insert e.1 e.2) m

def ofList (entries : List (String × α)) : NameMap α :=
  empty.insertAll entries

/-- Whether two maps have the same names and related values. -/
def agree (related : α → α → Bool) (a b : NameMap α) : Bool :=
  a.names == b.names && (a.entries.zip b.entries).all fun (x, y) ↦ related x.2 y.2

end NameMap

end SignalFlow
