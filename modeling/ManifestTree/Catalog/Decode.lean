import ManifestTree.Catalog.Basic

/-!
# Reading catalogs from data

Catalogs are kept in several notations. A `Dialect` says how the values of one notation present
records, lists, texts and truth values; the fields of a catalog are decoded once for all of them.
Unknown and repeated fields are refused at every level.
-/

namespace ManifestTree.Catalog

inductive Record (σ : Type) where
  | named (fields : List (String × σ))
  /-- Fields in their fixed order; `closed` refuses more of them than there are names. -/
  | listed (fields : List σ) (closed : Bool)

structure Dialect (σ : Type) where
  record : σ → Option (Record σ)
  list : σ → Option (List σ)
  text : σ → Option String
  optionalText : σ → Option (Option String)
  flag : σ → Option Bool

/-- The fields of a record that has no others than the named ones, and none twice. -/
def Record.fields? {σ : Type} (names : List String) : Record σ → Option (List (String × σ))
  | .named fields =>
    let keys := fields.map Prod.fst
    if keys.all names.contains && keys.eraseDups.length == keys.length then some fields else none
  | .listed fields closed =>
    if closed && fields.length > names.length then none else some (names.zip fields)

namespace Dialect

variable {σ : Type} (dialect : Dialect σ)

def required (fields : List (String × σ)) (name : String) : Option String := do
  dialect.text (← fields.lookup name)

def optional (fields : List (String × σ)) (name : String) : Option (Option String) :=
  match fields.lookup name with
  | none => some none
  | some value => dialect.optionalText value

def flagOf (fields : List (String × σ)) (name : String) : Option Bool :=
  match fields.lookup name with
  | none => some false
  | some value => dialect.flag value

/-- A list of decoded items, empty where it is missing. -/
def listOf {α : Type} (fields : List (String × σ)) (name : String) (decode : σ → Option α) :
    Option (List α) :=
  match fields.lookup name with
  | none => some []
  | some value => do (← dialect.list value).mapM decode

/-- The fields of a type declaration in their fixed order. -/
def typeFields : List String := ["id", "apiVersion", "kind", "module", "hoistMetadata", "specKey"]

/-- The fields of a relation declaration in their fixed order. -/
def relationFields : List String := ["child", "parent", "path", "array", "discriminator"]

def catalogFields : List String := ["types", "relations"]

def type? (value : σ) : Option TypeDeclaration := do
  let fields ← (← dialect.record value).fields? typeFields
  pure {
    id := ⟨← dialect.required fields "id"⟩
    apiVersion := ← dialect.optional fields "apiVersion"
    kind := ← dialect.optional fields "kind"
    module := ← dialect.optional fields "module"
    hoistMetadata := ← dialect.flagOf fields "hoistMetadata"
    specKey := ← dialect.optional fields "specKey" }

def relation? (value : σ) : Option RelationDeclaration := do
  let fields ← (← dialect.record value).fields? relationFields
  pure {
    child := ⟨← dialect.required fields "child"⟩
    parent := ⟨← dialect.required fields "parent"⟩
    path := ← (FieldPath.parse (← dialect.required fields "path")).toOption
    array := ← dialect.flagOf fields "array"
    discriminator := ← dialect.optional fields "discriminator" }

def catalog? (value : σ) : Option Catalog := do
  let fields ← (← dialect.record value).fields? catalogFields
  pure {
    types := ← dialect.listOf fields "types" dialect.type?
    relations := ← dialect.listOf fields "relations" dialect.relation? }

end Dialect

/-- Data text: records are objects or closed lists, an optional text may be null. -/
def jsonDialect : Dialect Json where
  record
    | .object members => some (.named members)
    | .array items => some (.listed items true)
    | _ => none
  list
    | .array items => some items
    | _ => none
  text
    | .string text => some text
    | _ => none
  optionalText
    | .null => some none
    | .string text => some (some text)
    | _ => none
  flag
    | .bool value => some value
    | _ => none

end ManifestTree.Catalog
