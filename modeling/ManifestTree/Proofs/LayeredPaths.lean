import ManifestTree.Proofs.LaidValues

/-!
# What is read in a layered value

Along keys, a value with a layer laid over it reads as the layer does where that has anything, and
an object of the layer is laid over the object below it; a scalar or array of the layer hides what
lay inside the value below; everywhere else the value below shows. The keys below keep their places
at every level. Hence a layer laid twice is as good as laid once, and a layer whose objects begin
with the keys below is laid as it is. Indices are left out, since arrays are replaced as a whole.
-/

namespace ManifestTree.Json

section Reading

variable {target layer found : Json} {names : List String}

/-- Into a member, a layered value reads as the layer's member over the one below. -/
theorem getSteps?_overlay_key {fields : Members} (hlayer : (object fields).WellFormed)
    (target : Json) (name : String) (rest : List Step) :
    getSteps? (.key name :: rest) (target.overlay (object fields)) =
      match fields.get? name with
      | none => getSteps? (.key name :: rest) target
      | some inner => getSteps? rest (laidOver inner (Members.get? target.members name)) := by
  rw [overlay, getSteps?_key, get?_overlayMembers hlayer.nodup, getSteps?_key_members]
  cases fields.get? name <;> rfl

/-- A scalar or an array of the layer stands in its place. -/
theorem getSteps?_overlay_value {steps : List Step} (hlayer : layer.WellFormed)
    (h : getSteps? steps layer = some found) (hfound : found.isObject = false) (target : Json) :
    getSteps? steps (target.overlay layer) = some found := by
  obtain ⟨value, hvalue, rfl | ⟨old, -, rfl⟩⟩ := getSteps?_overlay hlayer h target
  · exact hvalue
  · cases found with
    | object fields => cases hfound
    | _ => exact hvalue

/-- The members of the object at the end of some keys. -/
theorem membersAt_cons (name : String) (names : List String) (value : Json) :
    value.membersAt (.ofKeys (name :: names)) =
      match Members.get? value.members name with
      | none => []
      | some inner => inner.membersAt (.ofKeys names) := by
  have hread : value.get? (.ofKeys (name :: names)) =
      (Members.get? value.members name).bind (getSteps? (names.map Step.key)) :=
    getSteps?_key_members name (names.map Step.key) value
  rw [membersAt, hread]
  cases Members.get? value.members name <;> rfl

/-- An object of the layer is laid over the object below it. -/
theorem get?_overlay_object {fields : Members} (hlayer : layer.WellFormed)
    (h : layer.get? (.ofKeys names) = some (object fields)) (target : Json) :
    (target.overlay layer).get? (.ofKeys names) =
      some (object (overlayMembers (target.membersAt (.ofKeys names)) fields)) := by
  induction names generalizing target layer with
  | nil =>
    cases h
    rfl
  | cons name rest ih =>
    obtain ⟨outer, inner, rfl, hinner, hrest⟩ := eq_object_of_getSteps?_key h
    have hread := getSteps?_overlay_key hlayer target name (rest.map Step.key)
    rw [hinner] at hread
    rw [membersAt_cons]
    refine hread.trans ?_
    cases Members.get? target.members name with
    | none =>
      rw [overlayMembers_nil (hlayer.inside h).nodup]
      exact hrest
    | some old => exact ih (hlayer.member hinner) hrest old

/-- A scalar or an array of the layer hides what lay inside the value below. -/
theorem get?_overlay_barred {front back : List String} (hlayer : layer.WellFormed)
    (hnone : layer.get? (.ofKeys (front ++ back)) = none)
    (h : layer.get? (.ofKeys front) = some found) (hfound : found.isObject = false)
    (target : Json) : (target.overlay layer).get? (.ofKeys (front ++ back)) = none := by
  have hsteps : (FieldPath.ofKeys (front ++ back)).steps =
      front.map Step.key ++ back.map Step.key := List.map_append
  have hread : getSteps? (front.map Step.key) layer = some found := h
  rw [Json.get?, hsteps, getSteps?_append] at hnone ⊢
  rw [hread] at hnone
  rw [getSteps?_overlay_value hlayer hread hfound target]
  exact hnone

/-- Keys that lead out of the layer through objects are left out by it. -/
theorem leavesOut_of_get?_eq_none (hnone : layer.get? (.ofKeys names) = none)
    (h : ∀ front back found, names = front ++ back → layer.get? (.ofKeys front) = some found →
      found.isObject) : LeavesOut names layer := by
  induction names generalizing layer with
  | nil => cases hnone
  | cons name rest ih =>
    have hobject : layer.isObject := h [] (name :: rest) layer rfl rfl
    cases layer with
    | object fields =>
      rw [LeavesOut]
      cases hinner : Members.get? fields name with
      | none => trivial
      | some inner =>
        have hread (keys : List String) :
            (object fields).get? (.ofKeys (name :: keys)) = inner.get? (.ofKeys keys) := by
          change getSteps? (.key name :: keys.map Step.key) (object fields) = _
          rw [getSteps?_key, hinner]
          rfl
        refine ih ((hread rest).symm.trans hnone) fun front back found hnames hfront ↦ ?_
        exact h (name :: front) back found (by rw [hnames]; rfl) ((hread front).trans hfront)
    | _ => cases hobject

/-- Over what a layer has made of a value, the layer changes nothing more. -/
theorem overlay_overlay_self (htarget : target.WellFormed) (hlayer : layer.WellFormed) :
    (target.overlay layer).overlay layer = target.overlay layer := by
  induction hheight : layer.height using Nat.strongRecOn generalizing target layer with
  | ind height ih =>
    cases layer with
    | object fields =>
      let once := overlayMembers target.members fields
      have hkeys : (overlayMembers once fields).map Prod.fst = once.map Prod.fst := by
        have hnone : (fields.map Prod.fst).filter (· ∉ once.map Prod.fst) = [] := by
          refine List.filter_eq_nil_iff.mpr fun key hkey ↦ ?_
          have hmem := (mem_map_fst_overlayMembers hlayer.nodup target.members key).mpr (.inr hkey)
          simpa [once] using hmem
        rw [map_fst_overlayMembers hlayer.nodup, hnone, List.append_nil]
      have hnodup : ((overlayMembers once fields).map Prod.fst).Nodup :=
        hkeys ▸ nodup_map_fst_overlayMembers htarget.members.nodup fields
      refine congrArg object (Association.eq_of_get?_eq hkeys hnodup fun key ↦ ?_)
      have honce := get?_overlayMembers hlayer.nodup target.members key
      refine (get?_overlayMembers hlayer.nodup once key).trans ?_
      cases hfield : Members.get? fields key with
      | none => rfl
      | some field =>
        have hwf : field.WellFormed := hlayer.member hfield
        have hlow : field.height < height := by
          rw [← hheight, Json.height]
          exact Nat.lt_succ_of_le (height_member_le hfield)
        rw [hfield] at honce
        refine Eq.trans ?_ honce.symm
        rw [honce]
        cases hold : Members.get? target.members key with
        | none => exact congrArg some (overlay_of_extendedBy (ExtendedBy.refl field) hwf)
        | some old => exact congrArg some (ih _ hlow (htarget.members.member hold) hwf rfl)
    | _ => rfl

/-! ## The law -/

/-- What is read along keys in a value with a layer laid over it. -/
structure ReadsLayered (target layer : Json) : Prop where
  value : ∀ names found, layer.get? (.ofKeys names) = some found → found.isObject = false →
    (target.overlay layer).get? (.ofKeys names) = some found
  /-- An object of the layer, laid over the members of the object below it, if there is one. -/
  object : ∀ names (fields : Members), layer.get? (.ofKeys names) = some (object fields) →
    (target.overlay layer).get? (.ofKeys names) =
      some ((Json.object (target.membersAt (.ofKeys names))).overlay (.object fields))
  /-- Nothing, where a scalar or an array of the layer stands before the end. -/
  barred : ∀ front back found, layer.get? (.ofKeys (front ++ back)) = none →
    layer.get? (.ofKeys front) = some found → found.isObject = false →
    (target.overlay layer).get? (.ofKeys (front ++ back)) = none
  /-- What the value below has, where the layer has nothing and nothing of it is in the way. -/
  below : ∀ names, layer.get? (.ofKeys names) = none →
    (∀ front back found, names = front ++ back → layer.get? (.ofKeys front) = some found →
      found.isObject) →
    (target.overlay layer).get? (.ofKeys names) = target.get? (.ofKeys names)
  /-- Where an object is laid, the keys below keep their places, and those of the layer alone follow
  in its order. -/
  keys : ∀ names (fields : Members), layer.get? (.ofKeys names) = some (.object fields) →
    ((target.overlay layer).membersAt (.ofKeys names)).keys =
      (target.membersAt (.ofKeys names)).keys ++
        fields.keys.filter (· ∉ (target.membersAt (.ofKeys names)).keys)

/-- A value with a layer laid over it, key by key. Laying the layer once more changes nothing, and
a layer whose objects begin with the keys of those below is what comes of laying it. -/
theorem overlay_readsLayered (htarget : target.WellFormed) (hlayer : layer.WellFormed) :
    ReadsLayered target layer ∧
      (target.overlay layer).overlay layer = target.overlay layer ∧
      ((∀ (names : List String) (members fields : Members),
          target.get? (.ofKeys names) = some (object members) →
          layer.get? (.ofKeys names) = some (object fields) → members.keys <+: fields.keys) →
        target.overlay layer = layer) := by
  refine ⟨?_, overlay_overlay_self htarget hlayer, overlay_eq_layer hlayer⟩
  have hobject (names : List String) (fields : Members)
      (h : layer.get? (.ofKeys names) = some (object fields)) :=
    get?_overlay_object hlayer h target
  constructor
  case value => exact fun _ _ h hfound ↦ getSteps?_overlay_value hlayer h hfound target
  case object => exact hobject
  case barred => exact fun _ _ _ hnone h hfound ↦ get?_overlay_barred hlayer hnone h hfound target
  case below =>
    intro names hnone hobjects
    exact getSteps?_overlay_of_leavesOut (leavesOut_of_get?_eq_none hnone hobjects) hlayer target
  case keys =>
    intro names fields h
    rw [membersAt, hobject names fields h]
    exact map_fst_overlayMembers (hlayer.inside h).nodup _

/-- New labels go behind the old ones, and a port list is replaced. -/
theorem overlay_readsLayered_labels :
    let target := object [("labels", object [("app", string "web")]), ("ports", array [null])]
    let layer := object [("ports", array []), ("labels", object [("tier", string "front")])]
    target.WellFormed ∧ layer.WellFormed ∧
      ReadsLayered target layer ∧
      (target.overlay layer).overlay layer = object [("labels", object [("app", string "web"),
        ("tier", string "front")]), ("ports", array [])] := by
  intro target layer
  have htarget : target.WellFormed := by
    simp [target, WellFormed, MembersWellFormed, ItemsWellFormed]
  have hlayer : layer.WellFormed := by
    simp [layer, WellFormed, MembersWellFormed, ItemsWellFormed]
  obtain ⟨hreads, htwice, -⟩ := overlay_readsLayered htarget hlayer
  exact ⟨htarget, hlayer, hreads, htwice⟩

end Reading

end ManifestTree.Json
