/-!
# Settings by name

A small table from names to values in the order in which the names were first set.
-/

namespace Stave

/-- Values by name. -/
abbrev Named (α : Type) := List (String × α)

namespace Named

variable {α : Type}

/-- Sets the value of a name, which keeps its place if it had one. -/
def set (name : String) (value : α) : Named α → Named α
  | [] => [(name, value)]
  | (n, v) :: rest => if n = name then (n, value) :: rest else (n, v) :: set name value rest

/-- Sets several values one after the other. -/
def setAll (table : Named α) (values : List (String × α)) : Named α :=
  values.foldl (fun table (name, value) => set name value table) table

/-- The value of a name. -/
def get? (name : String) (table : Named α) : Option α := table.lookup name

end Named

end Stave
