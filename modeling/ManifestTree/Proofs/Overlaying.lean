import ManifestTree.Document.Overlay
import ManifestTree.Proofs.Depth
import ManifestTree.Proofs.Leaves

/-!
# Laying values over one another

Members laid over others are found where they were looked for: a key of the layer has the layer's
value, laid over the one before where there was one, and every other key keeps its value; the keys
before keep their places. Hence a value that extends the one below is laid over it as it is, and so
is what a further layer makes of it. Layers with a repeated key are left out, which are laid over
themselves more than once.
-/

namespace ManifestTree

namespace Association

variable {κ ν : Type} [DecidableEq κ]

/-- Entries with keys of their own are determined by the keys in order and by what they look up. -/
theorem eq_of_get?_eq {entries others : Association κ ν}
    (hkeys : entries.map Prod.fst = others.map Prod.fst) (hnodup : (entries.map Prod.fst).Nodup)
    (hget : ∀ key, get? key entries = get? key others) : entries = others := by
  induction entries generalizing others with
  | nil => exact (List.map_eq_nil_iff.mp hkeys.symm).symm
  | cons entry rest ih =>
    rcases entry with ⟨name, value⟩
    cases others with
    | nil => cases hkeys
    | cons other more =>
      rcases other with ⟨_, found⟩
      rw [List.map_cons, List.map_cons, List.cons.injEq] at hkeys
      obtain ⟨rfl, hkeys⟩ := hkeys
      rw [List.map_cons, List.nodup_cons] at hnodup
      have hvalue : value = found := by simpa using hget name
      have hrest : rest = more := by
        refine ih hkeys hnodup.2 fun key ↦ ?_
        by_cases hname : name = key
        · subst hname
          rw [get?_eq_none_iff.mpr hnodup.1, get?_eq_none_iff.mpr (hkeys ▸ hnodup.1)]
        · have h := hget key
          rwa [get?_cons_of_ne hname, get?_cons_of_ne hname] at h
      rw [hvalue, hrest]

end Association

namespace Json

/-! ## What is found in laid members -/

/-- The members of the object at a path, none where there is no object. -/
def membersAt (document : Json) (path : FieldPath) : Members :=
  ((document.get? path).getD null).members

/-- A key leads into the members of a value, which has none unless it is an object. -/
theorem getSteps?_key_members (name : String) (rest : List Step) (value : Json) :
    getSteps? (.key name :: rest) value =
      (Members.get? value.members name).bind (getSteps? rest) := by
  cases value with
  | object members => exact getSteps?_key name rest members
  | _ => rfl

/-- A layer's value over the one before, if there was one. -/
def laidOver (layer : Json) : Option Json → Json
  | none => layer
  | some old => old.overlay layer

theorem overlayMembers_cons (target : Members) (key : String) (layer : Json)
    (rest : List (String × Json)) :
    overlayMembers target ((key, layer) :: rest) =
      overlayMembers (target.insert key (laidOver layer (target.get? key))) rest := by
  rw [overlayMembers]
  cases Members.get? target key <;> rfl

/-- A key of the layer has its value laid over the one before; every other key is as before. -/
theorem get?_overlayMembers {layer : Members} (hlayer : (layer.map Prod.fst).Nodup)
    (target : Members) (key : String) :
    Members.get? (overlayMembers target layer) key =
      match layer.get? key with
      | none => target.get? key
      | some value => some (laidOver value (target.get? key)) := by
  induction layer generalizing target with
  | nil => rfl
  | cons entry rest ih =>
    rcases entry with ⟨name, value⟩
    rw [List.map_cons, List.nodup_cons] at hlayer
    rw [overlayMembers_cons, ih hlayer.2]
    by_cases hname : name = key
    · subst hname
      have hrest : Members.get? rest name = none := Association.get?_eq_none_iff.mpr hlayer.1
      rw [hrest]
      simp [Members.get?, Members.insert]
    · simp only [Members.get?, Members.insert, Association.get?_insert_of_ne hname,
        Association.get?_cons_of_ne hname]

/-- The keys before keep their places, and those of the layer alone follow in its order. -/
theorem map_fst_overlayMembers {layer : Members} (hlayer : (layer.map Prod.fst).Nodup)
    (target : Members) :
    (overlayMembers target layer).map Prod.fst =
      target.map Prod.fst ++ (layer.map Prod.fst).filter (· ∉ target.map Prod.fst) := by
  induction layer generalizing target with
  | nil => simp [overlayMembers]
  | cons entry rest ih =>
    rcases entry with ⟨name, value⟩
    rw [List.map_cons, List.nodup_cons] at hlayer
    rw [overlayMembers_cons, ih hlayer.2, Members.insert, Association.map_fst_insert, List.map_cons]
    by_cases hname : name ∈ target.map Prod.fst
    · rw [if_pos hname, List.filter_cons_of_neg (by simpa using hname)]
    · rw [if_neg hname, List.filter_cons_of_pos (by simpa using hname), List.append_assoc,
        List.singleton_append]
      congr 2
      refine List.filter_congr fun key hkey ↦ ?_
      have hne : key ≠ name := fun heq ↦ hlayer.1 (heq ▸ hkey)
      simp [hne]

theorem mem_map_fst_overlayMembers {layer : Members} (hlayer : (layer.map Prod.fst).Nodup)
    (target : Members) (key : String) :
    key ∈ (overlayMembers target layer).map Prod.fst ↔
      key ∈ target.map Prod.fst ∨ key ∈ layer.map Prod.fst := by
  rw [map_fst_overlayMembers hlayer, List.mem_append, List.mem_filter, decide_eq_true_iff]
  tauto

theorem nodup_map_fst_overlayMembers {target : Members} (h : (target.map Prod.fst).Nodup)
    (layer : List (String × Json)) : ((overlayMembers target layer).map Prod.fst).Nodup := by
  induction layer generalizing target with
  | nil => exact h
  | cons entry rest ih =>
    rcases entry with ⟨name, value⟩
    rw [overlayMembers_cons]
    exact ih (Association.nodup_map_fst_insert _ _ h)

/-! ## Layers that are laid as they are -/

/-- Members that have the keys of others in front are laid over those as they are, when each of
their values is. -/
theorem overlayMembers_eq_layer {target layer : Members} (hnodup : (layer.map Prod.fst).Nodup)
    (hkeys : target.map Prod.fst <+: layer.map Prod.fst)
    (h : ∀ key old value, target.get? key = some old → layer.get? key = some value →
      old.overlay value = value) : overlayMembers target layer = layer := by
  have hmap : (overlayMembers target layer).map Prod.fst = layer.map Prod.fst := by
    obtain ⟨more, hmore⟩ := hkeys
    rw [← hmore] at hnodup
    have hold : (target.map Prod.fst).filter (· ∉ target.map Prod.fst) = [] :=
      List.filter_eq_nil_iff.mpr fun key hkey ↦ by simpa using hkey
    have hnew : more.filter (· ∉ target.map Prod.fst) = more := by
      refine List.filter_eq_self.mpr fun key hkey ↦ ?_
      have hnot : key ∉ target.map Prod.fst := fun hmem ↦
        (List.nodup_append.mp hnodup).2.2 key hmem key hkey rfl
      simpa using hnot
    rw [map_fst_overlayMembers (hmore ▸ hnodup), ← hmore, List.filter_append, hold, hnew,
      List.nil_append]
  refine Association.eq_of_get?_eq hmap (hmap ▸ hnodup) fun key ↦ ?_
  have hget := get?_overlayMembers hnodup target key
  cases hlayer : layer.get? key with
  | none =>
    have hkey : key ∉ target.map Prod.fst := fun hmem ↦
      Association.get?_eq_none_iff.mp hlayer (hkeys.subset hmem)
    rw [hlayer] at hget
    exact (hget.trans (Association.get?_eq_none_iff.mpr hkey)).trans hlayer.symm
  | some value =>
    rw [hlayer] at hget
    refine hget.trans (Eq.trans ?_ hlayer.symm)
    cases hold : target.get? key with
    | none => rfl
    | some old => exact congrArg some (h key old value hold hlayer)

/-- Members laid over none are laid as they are. -/
theorem overlayMembers_nil {fields : Members} (hfields : (fields.map Prod.fst).Nodup) :
    overlayMembers [] fields = fields :=
  overlayMembers_eq_layer hfields List.nil_prefix fun _ _ _ hold _ ↦ nomatch hold

theorem MembersExtendedBy.prefix_keys {old new : Members} (h : MembersExtendedBy old new) :
    old.map Prod.fst <+: new.map Prod.fst := by
  induction old generalizing new with
  | nil => exact List.nil_prefix
  | cons entry rest ih =>
    cases new with
    | nil => exact h.elim
    | cons other more =>
      obtain ⟨hname, -, hrest⟩ := h
      exact List.cons_prefix_cons.mpr ⟨hname, ih hrest⟩

theorem membersExtendedBy_members {old new : Json} (h : old.ExtendedBy new) :
    MembersExtendedBy old.members new.members := by
  cases old with
  | object members =>
    obtain ⟨more, rfl, hmore⟩ := extendedBy_object_iff.mp h
    exact hmore
  | _ => trivial

/-- A layer is laid as it is over a value when, wherever both have an object at the end of the same
keys, the layer's one has the keys of the other in front. -/
theorem overlay_eq_layer {target layer : Json} (hlayer : layer.WellFormed)
    (h : ∀ (names : List String) (members fields : Members),
      getSteps? (names.map Step.key) target = some (object members) →
      getSteps? (names.map Step.key) layer = some (object fields) →
      members.keys <+: fields.keys) : target.overlay layer = layer := by
  induction hheight : layer.height using Nat.strongRecOn generalizing target layer with
  | ind height ih =>
    cases layer with
    | object layer =>
      have hkeys : target.members.map Prod.fst <+: layer.map Prod.fst := by
        cases target with
        | object members => exact h [] members layer (getSteps?_nil _) (getSteps?_nil _)
        | _ => exact List.nil_prefix
      rw [overlay, overlayMembers_eq_layer hlayer.nodup hkeys]
      intro key old value hold hvalue
      have hlow : value.height < height := by
        rw [← hheight, Json.height]
        exact Nat.lt_succ_of_le (height_member_le hvalue)
      refine ih _ hlow (hlayer.member hvalue) (fun names members fields hmembers hfields ↦ ?_) rfl
      refine h (key :: names) members fields ?_ ?_
      · rw [List.map_cons, getSteps?_key_members, hold]
        exact hmembers
      · rw [List.map_cons, getSteps?_key, hvalue]
        exact hfields
    | _ => rfl

/-- A value is laid over one that it extends as it is. -/
theorem overlay_of_extendedBy {old new : Json} (h : old.ExtendedBy new) (hnew : new.WellFormed) :
    old.overlay new = new := by
  refine overlay_eq_layer hnew fun names members fields hmembers hfields ↦ ?_
  obtain ⟨found, hfound, hextends⟩ := h.getSteps? hmembers
  cases hfound.symm.trans hfields
  exact MembersExtendedBy.prefix_keys hextends

/-- What a layer makes of a value is laid as it is over everything that the value extends. -/
theorem overlay_overlay_of_extendedBy {old new layer : Json} (h : old.ExtendedBy new)
    (hnew : new.WellFormed) (hlayer : layer.WellFormed) :
    old.overlay (new.overlay layer) = new.overlay layer := by
  induction hheight : layer.height using Nat.strongRecOn generalizing old new layer with
  | ind height ih =>
    cases layer with
    | object layer =>
      have hmembers := membersExtendedBy_members h
      have hkeys := map_fst_overlayMembers hlayer.nodup new.members
      rw [overlay, overlay,
        overlayMembers_eq_layer (nodup_map_fst_overlayMembers hnew.members.nodup layer)]
      · rw [hkeys]
        exact hmembers.prefix_keys.trans (List.prefix_append _ _)
      · intro key first second hfirst hsecond
        obtain ⟨found, hfound, hextends⟩ := hmembers.get? hfirst
        rw [get?_overlayMembers hlayer.nodup, hfound] at hsecond
        cases hvalue : Members.get? layer key with
        | none =>
          rw [hvalue] at hsecond
          cases hsecond
          exact overlay_of_extendedBy hextends (hnew.members.member hfound)
        | some value =>
          rw [hvalue] at hsecond
          cases hsecond
          have hlow : value.height < height := by
            rw [← hheight, Json.height]
            exact Nat.lt_succ_of_le (height_member_le hvalue)
          exact ih _ hlow hextends (hnew.members.member hfound) (hlayer.member hvalue) rfl
    | _ => rfl

/-! ## Fields that a layer leaves out -/

/-- The value has no field at the end of the keys, although it holds objects on the way. -/
def LeavesOut : List String → Json → Prop
  | name :: rest, object members =>
    match Members.get? members name with
    | none => True
    | some inner => LeavesOut rest inner
  | _, _ => False

theorem getSteps?_of_leavesOut {names : List String} {value : Json} (h : LeavesOut names value) :
    getSteps? (names.map Step.key) value = none := by
  induction names generalizing value with
  | nil => exact h.elim
  | cons name rest ih =>
    cases value with
    | object members =>
      rw [LeavesOut] at h
      rw [List.map_cons, getSteps?_key]
      cases hvalue : Members.get? members name with
      | none => rfl
      | some inner =>
        rw [hvalue] at h
        exact ih h
    | _ => exact h.elim

/-- A field that the layer leaves out is kept. -/
theorem getSteps?_overlay_of_leavesOut {names : List String} {layer : Json}
    (h : LeavesOut names layer) (hlayer : layer.WellFormed) (target : Json) :
    getSteps? (names.map Step.key) (target.overlay layer) =
      getSteps? (names.map Step.key) target := by
  induction names generalizing layer target with
  | nil => exact h.elim
  | cons name rest ih =>
    cases layer with
    | object layer =>
      rw [List.map_cons, overlay, getSteps?_key, getSteps?_key_members _ _ target,
        get?_overlayMembers hlayer.nodup]
      rw [LeavesOut] at h
      cases hvalue : Members.get? layer name with
      | none => rfl
      | some value =>
        rw [hvalue] at h
        dsimp only at h ⊢
        rw [Option.bind_some]
        cases hold : Members.get? target.members name with
        | some old => exact ih h (hlayer.member hvalue) old
        | none => exact getSteps?_of_leavesOut h
    | _ => exact h.elim

end Json
end ManifestTree
