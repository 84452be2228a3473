import ManifestTree.Toml.Value

/-!
# Assembling tables

A table may be named by a heading, on the way to another heading, or on the way of a dotted key. A
heading names a table once; a dotted key extends tables that dotted keys have named. Nothing is
said twice.
-/

namespace ManifestTree.Toml

inductive Origin where
  | heading
  | implied
  | dotted
  deriving DecidableEq, Repr

/-- What a key stands for while a file is being read. -/
inductive Entry where
  | value (value : Value)
  | table (origin : Origin) (members : List (String × Entry))
  | tables (elements : List (List (String × Entry)))
  deriving Inhabited

abbrev Entries := Association String Entry

namespace Entries

def find? (key : String) (entries : Entries) : Option Entry := Association.get? key entries

def put (key : String) (entry : Entry) (entries : Entries) : Entries :=
  Association.insert key entry entries

/-- A value assigned to a dotted key. Tables on the way must not have a heading of their own, and
the one that receives the value must have come from dotted keys. -/
def assign? : List String → String → Value → Entries → Option Entries
  | [], key, value, entries =>
    if (find? key entries).isSome then none else some (entries ++ [(key, .value value)])
  | step :: way, key, value, entries =>
    match find? step entries with
    | none =>
      (assign? way key value []).map fun members ↦ put step (.table .dotted members) entries
    | some (.table origin members) =>
      if origin = .heading ∨ (way.isEmpty ∧ origin ≠ .dotted) then none
      else
        (assign? way key value members).map fun members ↦ put step (.table origin members) entries
    | some (.tables elements) =>
      if way.isEmpty then none
      else
        match elements.reverse with
        | [] => none
        | last :: before =>
          (assign? way key value last).map fun members ↦
            put step (.tables (before.reverse ++ [members])) entries
    | some (.value _) => none

/-- An entry changed at the end of the way of a heading; the last of several tables is meant. -/
def change? (change : Option Entry → Option Entry) : List String → Entries → Option Entries
  | [], _ => none
  | [key], entries => (change (find? key entries)).map fun entry ↦ put key entry entries
  | step :: way, entries =>
    match find? step entries with
    | none => (change? change way []).map fun members ↦ put step (.table .implied members) entries
    | some (.table origin members) =>
      (change? change way members).map fun members ↦ put step (.table origin members) entries
    | some (.tables elements) =>
      match elements.reverse with
      | [] => none
      | last :: before =>
        (change? change way last).map fun members ↦
          put step (.tables (before.reverse ++ [members])) entries
    | some (.value _) => none

end Entries

mutual

def Entry.settle : Entry → Value
  | .value value => value
  | .table _ members => .table (settleMembers members)
  | .tables elements => .list (settleTables elements)

def settleMembers : List (String × Entry) → List (String × Value)
  | [] => []
  | (key, entry) :: rest => (key, entry.settle) :: settleMembers rest

def settleTables : List (List (String × Entry)) → List Value
  | [] => []
  | members :: rest => .table (settleMembers members) :: settleTables rest

end

structure Assignment where
  way : List String
  key : String
  value : Value

def assignAll? (entries : Entries) : List Assignment → Option Entries
  | [] => some entries
  | assignment :: rest => do
    let entries ← Entries.assign? assignment.way assignment.key assignment.value entries
    assignAll? entries rest

/-- Part of a file: a heading and the values under it. -/
structure Section where
  way : List String
  isElement : Bool
  assignments : List Assignment

/-- The entry of a heading once its section has been read. -/
def Section.change? (part : Section) (found : Option Entry) : Option Entry :=
  if part.isElement then
    match found with
    | none => (assignAll? [] part.assignments).map fun members ↦ .tables [members]
    | some (.tables elements) =>
      (assignAll? [] part.assignments).map fun members ↦ .tables (elements ++ [members])
    | some _ => none
  else
    match found with
    | none => (assignAll? [] part.assignments).map (.table .heading)
    | some (.table .implied members) =>
      (assignAll? members part.assignments).map (.table .heading)
    | some _ => none

def addSections? (entries : Entries) : List Section → Option Entries
  | [] => some entries
  | part :: rest => do
    let entries ← Entries.change? part.change? part.way entries
    addSections? entries rest

end ManifestTree.Toml
