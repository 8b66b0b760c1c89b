/-! Values by name. A table keeps the order in which its names first came. -/

namespace FlowProfile

structure Table (α : Type) where
  entries : List (String × α)
deriving DecidableEq, Repr

namespace Table

variable {α : Type}

def empty : Table α := ⟨[]⟩

instance : Inhabited (Table α) := ⟨empty⟩

def find (name : String) : List (String × α) → Option α
  | [] => none
  | (n, v) :: rest => if n = name then some v else find name rest

/-- The value replaces an earlier one in its place. -/
def put (name : String) (value : α) : List (String × α) → List (String × α)
  | [] => [(name, value)]
  | (n, v) :: rest => if n = name then (name, value) :: rest else (n, v) :: put name value rest

/-- Changes the value of a name that is there. -/
def alter (name : String) (f : α → α) : List (String × α) → List (String × α)
  | [] => []
  | (n, v) :: rest => if n = name then (n, f v) :: rest else (n, v) :: alter name f rest

def get? (t : Table α) (name : String) : Option α := find name t.entries

def set (t : Table α) (name : String) (value : α) : Table α := ⟨put name value t.entries⟩

def modify (t : Table α) (name : String) (f : α → α) : Table α := ⟨alter name f t.entries⟩

/-- Of several entries with one name the last counts. -/
def ofList (entries : List (String × α)) : Table α :=
  entries.foldl (fun t (name, value) => t.set name value) empty

@[simp] theorem get?_empty (name : String) : (empty : Table α).get? name = none := rfl

theorem find_put (name other : String) (value : α) (entries : List (String × α)) :
    find other (put name value entries) =
      if name = other then some value else find other entries := by
  fun_induction put name value entries <;> grind [find]

theorem find_alter (name other : String) (f : α → α) (entries : List (String × α)) :
    find other (alter name f entries) =
      if name = other then (find other entries).map f else find other entries := by
  fun_induction alter name f entries <;> grind [find]

theorem get?_set (t : Table α) (name other : String) (value : α) :
    (t.set name value).get? other = if name = other then some value else t.get? other :=
  find_put name other value t.entries

@[simp] theorem get?_set_self (t : Table α) (name : String) (value : α) :
    (t.set name value).get? name = some value := by simp [get?_set]

theorem get?_modify (t : Table α) (name other : String) (f : α → α) :
    (t.modify name f).get? other =
      if name = other then (t.get? other).map f else t.get? other :=
  find_alter name other f t.entries

end Table

end FlowProfile
