import ManifestTree.Json.Basic
import ManifestTree.Toml.Value

/-!
# Layers of settings

Settings come from several places, each of which gives some of them. Laid over one another,
sections grow together and everything else is replaced.
-/

namespace ManifestTree

/-- What a place gives under a name. -/
inductive Setting where
  | text (value : String)
  | nothing
  | other
  | group (members : List (String × Setting))
  deriving Inhabited

namespace Setting

abbrev Layer := Association String Setting

mutual

def overlay (base : Setting) : Setting → Setting
  | .group members =>
    match base with
    | .group below => .group (lay below members)
    | _ => .group (lay [] members)
  | top => top

def lay (below : Layer) : List (String × Setting) → Layer
  | [] => below
  | (name, top) :: rest =>
    let setting := match Association.get? name below with
      | some base => overlay base top
      | none => overlay .nothing top
    lay (Association.insert name setting below) rest

end

mutual

def ofToml : Toml.Value → Setting
  | .text value => .text value
  | .table members => .group (ofTomlMembers members)
  | _ => .other

def ofTomlMembers : List (String × Toml.Value) → Layer
  | [] => []
  | (name, value) :: rest => (name, ofToml value) :: ofTomlMembers rest

end

mutual

def ofJson : Json → Setting
  | .string value => .text value
  | .null => .nothing
  | .object members => .group (ofJsonMembers members)
  | _ => .other

def ofJsonMembers : List (String × Json) → Layer
  | [] => []
  | (name, value) :: rest => (name, ofJson value) :: ofJsonMembers rest

end

end Setting
end ManifestTree
