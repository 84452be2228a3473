/-!
# Association lists

Values kept under keys in order of first arrival. Inserting at a present key replaces its value in
place, inserting a new key appends it, and grouping gathers the values of equal keys in order.
-/

namespace ManifestTree

abbrev Association (κ ν : Type) := List (κ × ν)

namespace Association

variable {κ ν : Type} [DecidableEq κ]

def get? (key : κ) : Association κ ν → Option ν
  | [] => none
  | (name, value) :: rest => if name = key then some value else get? key rest

/-- The value at a key: a present key keeps its place, a new one comes last. -/
def insert (key : κ) (value : ν) : Association κ ν → Association κ ν
  | [] => [(key, value)]
  | (name, old) :: rest =>
    if name = key then (name, value) :: rest else (name, old) :: insert key value rest

def erase (key : κ) : Association κ ν → Association κ ν
  | [] => []
  | (name, value) :: rest => if name = key then rest else (name, value) :: erase key rest

def addTo (key : κ) (value : ν) (groups : Association κ (List ν)) : Association κ (List ν) :=
  insert key ((groups.get? key).getD [] ++ [value]) groups

/-- The values gathered by key, keys in order of first occurrence and values in order. -/
def group (keyOf : ν → κ) (values : List ν) : Association κ (List ν) :=
  values.foldl (fun groups value ↦ addTo (keyOf value) value groups) []

end Association
end ManifestTree
