/-!
Finite maps from names, as lists in increasing order of names. Writing a name that is present
replaces its value; the order of names is that of their UTF-8 forms.
-/

namespace LiveMarkup

abbrev Table (α : Type) := List (String × α)

namespace Table

variable {α β : Type}

def find? (name : String) : Table α → Option α
  | [] => none
  | (key, value) :: rest => if key = name then some value else find? name rest

def insert (name : String) (value : α) : Table α → Table α
  | [] => [(name, value)]
  | (key, old) :: rest =>
    if name < key then (name, value) :: (key, old) :: rest
    else if name = key then (name, value) :: rest
    else (key, old) :: insert name value rest

def contains (name : String) (t : Table α) : Bool := (t.find? name).isSome

def names (t : Table α) : List String := t.map (·.1)

def ofList (entries : List (String × α)) : Table α := entries.foldl (fun t e => insert e.1 e.2 t) []

def mapValues (f : α → β) (t : Table α) : Table β := t.map fun e => (e.1, f e.2)

@[simp] theorem find?_insert_self (name : String) (value : α) (t : Table α) :
    find? name (insert name value t) = some value := by
  induction t with
  | nil => simp [insert, find?]
  | cons e rest ih =>
    simp only [insert]
    split
    · simp [find?]
    · split
      · simp [find?]
      · next h => simp [find?, ih, Ne.symm h]

theorem find?_insert_of_ne {name other : String} (value : α) (t : Table α) (h : other ≠ name) :
    find? other (insert name value t) = find? other t := by
  induction t with
  | nil => simp [insert, find?, Ne.symm h]
  | cons e rest ih =>
    simp only [insert]
    split
    · simp [find?, Ne.symm h]
    · split
      · next hk => simp [find?, ← hk, Ne.symm h]
      · simp [find?, ih]

theorem find?_insert (name other : String) (value : α) (t : Table α) :
    find? other (insert name value t) = if other = name then some value else find? other t := by
  split
  · next h => subst h; simp
  · next h => exact find?_insert_of_ne value t h

theorem mem_of_find? {name : String} {value : α} {t : Table α} (h : t.find? name = some value) :
    (name, value) ∈ t := by
  induction t with
  | nil => cases h
  | cons e rest ih =>
    rw [find?] at h
    split at h
    · next hkey =>
      cases h
      exact hkey ▸ List.mem_cons_self ..
    · exact List.mem_cons_of_mem _ (ih h)

theorem mem_insert {name : String} {value : α} {t : Table α} {e : String × α}
    (h : e ∈ t.insert name value) : e = (name, value) ∨ e ∈ t := by
  induction t with
  | nil => exact .inl (List.mem_singleton.1 h)
  | cons e' rest ih =>
    rw [insert] at h
    split at h
    · exact List.mem_cons.1 h
    · split at h
      · exact (List.mem_cons.1 h).imp_right (List.mem_cons_of_mem _)
      · rcases List.mem_cons.1 h with rfl | h
        · exact .inr (List.mem_cons_self ..)
        · exact (ih h).imp_right (List.mem_cons_of_mem _)

theorem mem_foldl_insert {entries : List (String × α)} {t : Table α} {e : String × α}
    (h : e ∈ entries.foldl (fun t e => insert e.1 e.2 t) t) : e ∈ entries ∨ e ∈ t := by
  induction entries generalizing t with
  | nil => exact .inr h
  | cons entry entries ih =>
    rcases ih h with hmem | hmem
    · exact .inl (List.mem_cons_of_mem _ hmem)
    · rcases mem_insert hmem with rfl | hmem
      · exact .inl (List.mem_cons_self ..)
      · exact .inr hmem

theorem mem_ofList {entries : List (String × α)} {e : String × α} (h : e ∈ ofList entries) :
    e ∈ entries := (mem_foldl_insert h).resolve_right List.not_mem_nil

end Table

end LiveMarkup

