import ManifestTree.Json.Basic

/-!
# Overlaying values

An object laid over a value merges key by key: keys of the value keep their places, keys that only
the layer has follow in the layer's order, and a value that is no object counts as the empty one.
Every other layer replaces the value, arrays included.
-/

namespace ManifestTree.Json

mutual

def overlay (target : Json) : Json → Json
  | object layer => object (overlayMembers target.members layer)
  | layer => layer

/-- The members with those of a layer laid over them, one after another. -/
def overlayMembers (target : Members) : List (String × Json) → Members
  | [] => target
  | (key, layer) :: rest =>
    match Members.get? target key with
    | some old => overlayMembers (Members.insert target key (overlay old layer)) rest
    | none => overlayMembers (Members.insert target key layer) rest

end

end ManifestTree.Json
