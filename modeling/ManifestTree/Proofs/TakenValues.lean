import ManifestTree.Proofs.FailedWrites
import ManifestTree.Proofs.TakingOut
import ManifestTree.Proofs.Visits

/-!
# What goes with a value that is taken out

Taking answers what was read at the path, and where nothing is there it changes nothing, although it
works inside the document and looks back at every value on its way. With a value at the end of keys
go the objects around it that hold nothing else, up to the first one that does, the document itself
excepted. Everything beside the path stays, keys in their order, and setting the value again gives
the document back but for the order of keys. What an index leads to is only read here: taking an
item moves the ones behind it, and an object that it empties stays.
-/

namespace ManifestTree

theorem Association.map_fst_erase {κ ν : Type} [DecidableEq κ] (key : κ)
    (entries : Association κ ν) :
    (erase key entries).map Prod.fst = (entries.map Prod.fst).erase key := by
  induction entries with
  | nil => rfl
  | cons entry rest ih =>
    by_cases hname : entry.1 = key
    · simp [erase, hname]
    · simp [erase, hname, ih]

namespace Json

/-! ## Inside the document -/

/-- Taking at the end of some steps as it goes on inside a value: what was taken, if anything, and
the value afterwards. A member is changed before its object sees whether it is empty now. -/
def removeSteps : List Step → Json → Option Json × Json
  | .key name :: rest, object members =>
    match Members.get? members name with
    | none => (none, object members)
    | some inner =>
      if rest.isEmpty then (some inner, object (Members.erase members name))
      else
        match removeSteps rest inner with
        | (none, left) => (none, object (Members.insert members name left))
        | (some taken, object []) => (some taken, object (Members.erase members name))
        | (some taken, left) => (some taken, object (Members.insert members name left))
  | .index position :: rest, array items =>
    match items[position]? with
    | none => (none, array items)
    | some inner =>
      if rest.isEmpty then (some inner, array (items.eraseIdx position))
      else
        let (taken, left) := removeSteps rest inner
        (taken, array (items.set position left))
  | _, value => (none, value)

/-- Taking at a path as it goes on inside a document. -/
def remove (document : Json) (path : FieldPath) : Option Json × Json :=
  removeSteps path.steps document

theorem set_of_getElem? {items : List Json} {position : Nat} {item : Json}
    (h : items[position]? = some item) : items.set position item = items := by
  obtain ⟨hlt, rfl⟩ := List.getElem?_eq_some_iff.mp h
  exact List.set_getElem_self hlt

/-- Where there is nothing to take, the value stays as it was. -/
theorem removeSteps_eq (steps : List Step) (value : Json) :
    removeSteps steps value =
      ((takeSteps steps value).map Prod.fst,
        ((takeSteps steps value).map Prod.snd).getD value) := by
  induction steps generalizing value with
  | nil => cases value <;> rfl
  | cons step rest ih =>
    cases step with
    | key name =>
      cases value with
      | object members =>
        rw [removeSteps, takeSteps]
        cases hget : Members.get? members name with
        | none => rfl
        | some inner =>
          by_cases hrest : rest.isEmpty
          · simp [hrest]
          · simp only [hrest, ih inner]
            cases htake : takeSteps rest inner with
            | none =>
              have hsame : Members.insert members name inner = members :=
                Association.insert_of_get? hget
              simp [hsame]
            | some result =>
              obtain ⟨taken, left⟩ := result
              cases left with
              | object fields => cases fields <;> rfl
              | _ => rfl
      | _ => rfl
    | index position =>
      cases value with
      | array items =>
        rw [removeSteps, takeSteps]
        cases hget : items[position]? with
        | none => rfl
        | some inner =>
          by_cases hrest : rest.isEmpty
          · simp [hrest]
          · simp only [hrest, ih inner]
            cases htake : takeSteps rest inner with
            | none => simp [set_of_getElem? hget]
            | some result => rfl
      | _ => rfl

/-- What is read somewhere inside a value can be taken out. -/
theorem exists_takesOut {steps : List Step} {value taken : Json} (hsteps : steps ≠ [])
    (h : getSteps? steps value = some taken) : ∃ left, TakesOut taken steps value left := by
  induction steps generalizing value with
  | nil => exact absurd rfl hsteps
  | cons step rest ih =>
    cases step with
    | key name =>
      obtain ⟨members, inner, rfl, hinner, hrest⟩ := eq_object_of_getSteps?_key h
      by_cases hend : rest = []
      · subst hend
        cases hrest
        exact ⟨_, .member hinner⟩
      · obtain ⟨left, htakes⟩ := ih hend hrest
        by_cases hempty : left = object []
        · exact ⟨_, .emptied hinner (hempty ▸ htakes)⟩
        · exact ⟨_, .within hinner htakes hempty⟩
    | index position =>
      cases value with
      | array items =>
        rw [getSteps?_index, Option.bind_eq_some_iff] at h
        obtain ⟨inner, hinner, hrest⟩ := h
        by_cases hend : rest = []
        · subst hend
          cases hrest
          exact ⟨_, .item hinner⟩
        · obtain ⟨left, htakes⟩ := ih hend hrest
          exact ⟨_, .inside hinner htakes⟩
      | _ => cases h

/-- Taking answers what is read there. -/
theorem map_fst_takeSteps {steps : List Step} (hsteps : steps ≠ []) (value : Json) :
    (takeSteps steps value).map Prod.fst = getSteps? steps value := by
  cases hget : getSteps? steps value with
  | some taken =>
    obtain ⟨left, htakes⟩ := exists_takesOut hsteps hget
    rw [takeSteps_eq_some_iff.mpr htakes]
    rfl
  | none =>
    cases htake : takeSteps steps value with
    | none => rfl
    | some result =>
      have hread := (takeSteps_eq_some_iff.mp htake).getSteps?
      cases hget.symm.trans hread

/-! ## Objects that go -/

theorem getSteps?_nested (front names : List String) (value : Json) :
    getSteps? (front.map Step.key) (nested (front ++ names) value) = some (nested names value) := by
  induction front with
  | nil => exact getSteps?_nil _
  | cons name rest ih =>
    rw [List.map_cons, List.cons_append, nested, getSteps?_key, Members.get?,
      Association.get?_cons_self, Option.bind_some, ih]

/-- Objects of one key each hold nothing apart from the path. -/
theorem getSteps?_nested_of_apart {names : List String} {other : List Step}
    (h : Apart (names.map Step.key) other) (value : Json) :
    getSteps? other (nested names value) = none := by
  induction names generalizing other with
  | nil => exact absurd List.nil_prefix h.1
  | cons name rest ih =>
    obtain ⟨step, more, rfl⟩ := List.exists_cons_of_ne_nil h.ne_nil
    refine (getSteps?_insert [] name (nested rest value) step more).trans ?_
    split
    · next hstep =>
      subst hstep
      exact ih h.of_cons
    · cases step <;> rfl

namespace TakesOut

variable {taken value left : Json} {names front more : List String} {name : String}

/-- A value that holds nothing apart from the path is empty afterwards. -/
theorem of_nested (taken : Json) : ∀ {names : List String}, names ≠ [] →
    TakesOut taken (names.map Step.key) (nested names taken) (object [])
  | [], hnames => absurd rfl hnames
  | [name], _ => by
    have hmember : TakesOut taken [.key name] (object [(name, taken)])
        (object (Members.erase [(name, taken)] name)) :=
      .member (Association.get?_cons_self name taken [])
    rwa [Members.erase, Association.erase, if_pos rfl] at hmember
  | name :: second :: rest, _ => by
    have hinner : TakesOut taken ((second :: rest).map Step.key) (nested (second :: rest) taken)
        (object []) := of_nested taken (List.cons_ne_nil second rest)
    have hmember : TakesOut taken ((name :: second :: rest).map Step.key)
        (object [(name, nested (second :: rest) taken)])
        (object (Members.erase [(name, nested (second :: rest) taken)] name)) :=
      .emptied (Association.get?_cons_self name _ []) hinner
    rwa [Members.erase, Association.erase, if_pos rfl] at hmember

/-- An object with nothing left after a key is erased had that key alone. -/
theorem eq_singleton_of_erase {members : Members} {inner : Json}
    (hinner : Members.get? members name = some inner) (h : members.erase name = []) :
    members = [(name, inner)] := by
  cases members with
  | nil => cases hinner
  | cons entry rest =>
    rcases entry with ⟨other, first⟩
    by_cases hname : other = name
    · subst hname
      rw [Members.get?, Association.get?_cons_self, Option.some.injEq] at hinner
      rw [Members.erase, Association.erase, if_pos rfl] at h
      rw [h, hinner]
    · rw [Members.erase, Association.erase, if_neg hname] at h
      cases h

/-- Behind a key, either the member goes as a whole or something is left of it. -/
theorem key_cases {rest : List Step} (h : TakesOut taken (.key name :: rest) value left) :
    ∃ (members : Members) (inner : Json), value = object members ∧ members.get? name = some inner ∧
      ((rest = [] ∧ inner = taken ∨ TakesOut taken rest inner (object [])) ∧
          left = object (members.erase name) ∨
        ∃ remains, TakesOut taken rest inner remains ∧ remains ≠ object [] ∧
          left = object (members.insert name remains)) := by
  cases h with
  | member hinner => exact ⟨_, _, rfl, hinner, .inl ⟨.inl ⟨rfl, rfl⟩, rfl⟩⟩
  | emptied hinner hrest => exact ⟨_, _, rfl, hinner, .inl ⟨.inr hrest, rfl⟩⟩
  | within hinner hrest hremains =>
    exact ⟨_, _, rfl, hinner, .inr ⟨_, hrest, hremains, rfl⟩⟩

theorem insert_ne_nil (members : Members) (name : String) (inner : Json) :
    members.insert name inner ≠ [] := by
  intro hnil
  have hget : Members.get? (members.insert name inner) name = some inner :=
    Association.get?_insert_self name inner members
  rw [hnil] at hget
  cases hget

/-- A value that is empty afterwards held nothing apart from the path. -/
theorem eq_nested (h : TakesOut taken (names.map Step.key) value (object [])) :
    value = nested names taken := by
  induction names generalizing value with
  | nil => exact absurd rfl h.steps_ne_nil
  | cons name rest ih =>
    obtain ⟨members, inner, rfl, hinner, ⟨hgoes, hleft⟩ | ⟨remains, -, -, hleft⟩⟩ := key_cases h
    · have hinside : inner = nested rest taken := by
        rcases hgoes with ⟨hend, rfl⟩ | hempties
        · rw [List.map_eq_nil_iff.mp hend]
          rfl
        · exact ih hempties
      rw [eq_singleton_of_erase hinner (Json.object.inj hleft).symm, hinside]
      rfl
    · exact absurd (Json.object.inj hleft).symm (insert_ne_nil members name remains)

/-- At a key, the member goes when it holds nothing apart from the path, and else stays in its
place. -/
theorem keys_cases (h : TakesOut taken ((name :: names).map Step.key) value left) :
    ∃ (members : Members) (inner : Json), value = object members ∧ members.get? name = some inner ∧
      (inner = nested names taken ∧ left = object (members.erase name) ∨
        ∃ remains, inner ≠ nested names taken ∧ TakesOut taken (names.map Step.key) inner remains ∧
          left = object (members.insert name remains)) := by
  obtain ⟨members, inner, rfl, hinner, ⟨hgoes, rfl⟩ | ⟨remains, hrest, hremains, rfl⟩⟩ :=
    key_cases h
  · refine ⟨members, inner, rfl, hinner, .inl ⟨?_, rfl⟩⟩
    rcases hgoes with ⟨hend, rfl⟩ | hempties
    · rw [List.map_eq_nil_iff.mp hend]
      rfl
    · exact hempties.eq_nested
  · refine ⟨members, inner, rfl, hinner, .inr ⟨remains, ?_, hrest, rfl⟩⟩
    rintro rfl
    have hnames : names ≠ [] := by
      rintro rfl
      exact hrest.steps_ne_nil rfl
    have hempty := takeSteps_eq_some_iff.mpr (of_nested taken hnames)
    rw [takeSteps_eq_some_iff.mpr hrest, Option.some.injEq, Prod.mk.injEq] at hempty
    exact hremains hempty.2

/-- What lies apart from the path is read as before. -/
theorem getSteps?_of_apart (h : TakesOut taken (names.map Step.key) value left)
    (hvalue : value.WellFormed) {other : List Step} (hother : Apart (names.map Step.key) other) :
    Json.getSteps? other left = Json.getSteps? other value := by
  induction names generalizing value left other with
  | nil => exact absurd List.nil_prefix hother.1
  | cons name rest ih =>
    obtain ⟨step, more, rfl⟩ := List.exists_cons_of_ne_nil hother.ne_nil
    obtain ⟨members, inner, rfl, hinner, hleft⟩ := keys_cases h
    by_cases hstep : step = .key name
    · subst hstep
      rw [getSteps?_key _ _ members, hinner, Option.bind_some]
      rcases hleft with ⟨rfl, rfl⟩ | ⟨remains, -, hrest, rfl⟩
      · rw [getSteps?_erase hvalue.nodup, if_pos rfl, getSteps?_nested_of_apart hother.of_cons]
      · rw [getSteps?_insert, if_pos rfl]
        exact ih hrest (hvalue.member hinner) hother.of_cons
    · rcases hleft with ⟨-, rfl⟩ | ⟨remains, -, -, rfl⟩
      · rw [getSteps?_erase hvalue.nodup, if_neg hstep]
      · rw [getSteps?_insert, if_neg hstep]

/-- On the way to the path, a value goes exactly if it stands inside the whole and holds nothing
apart from the path. -/
theorem getSteps?_eq_none_iff (h : TakesOut taken ((front ++ names).map Step.key) value left)
    (hvalue : value.WellFormed) :
    Json.getSteps? (front.map Step.key) left = none ↔
      front ≠ [] ∧ Json.getSteps? (front.map Step.key) value = some (nested names taken) := by
  induction front generalizing value left with
  | nil => simp
  | cons name rest ih =>
    obtain ⟨members, inner, rfl, hinner, hleft⟩ := keys_cases h
    rw [List.map_cons, getSteps?_key, hinner, Option.bind_some]
    rcases hleft with ⟨rfl, rfl⟩ | ⟨remains, hother, hrest, rfl⟩
    · rw [getSteps?_erase hvalue.nodup, if_pos rfl]
      simp [getSteps?_nested]
    · rw [getSteps?_insert, if_pos rfl, ih hrest (hvalue.member hinner)]
      constructor
      · rintro ⟨-, hread⟩
        exact ⟨List.cons_ne_nil name rest, hread⟩
      · rintro ⟨-, hread⟩
        refine ⟨?_, hread⟩
        rintro rfl
        cases hread
        exact hother rfl

/-- The keys of an object on the way that stays are those before, in order, except the next one on
the path where its member has gone. -/
theorem keys_of_stays {members : Members}
    (h : TakesOut taken ((front ++ name :: more).map Step.key) value left)
    (hvalue : value.WellFormed)
    (hmembers : Json.getSteps? (front.map Step.key) value = some (object members))
    (hstays : Json.getSteps? (front.map Step.key) left ≠ none) :
    ∃ fields : Members, Json.getSteps? (front.map Step.key) left = some (object fields) ∧
      fields.keys =
        if (Json.getSteps? ((front ++ [name]).map Step.key) left).isSome then members.keys
        else members.keys.erase name := by
  induction front generalizing value left with
  | nil =>
    rw [List.map_nil, getSteps?_nil] at hmembers
    cases hmembers
    obtain ⟨_, inner, heq, hinner, hleft⟩ := keys_cases h
    cases heq
    rcases hleft with ⟨-, rfl⟩ | ⟨remains, -, -, rfl⟩
    · refine ⟨members.erase name, getSteps?_nil _, ?_⟩
      rw [List.nil_append, List.map_singleton, getSteps?_erase hvalue.nodup, if_pos rfl]
      exact Association.map_fst_erase name members
    · refine ⟨members.insert name remains, getSteps?_nil _, ?_⟩
      have hkey : name ∈ members.map Prod.fst := by
        by_contra hmissing
        cases hinner.symm.trans (Association.get?_eq_none_iff.mpr hmissing)
      rw [List.nil_append, List.map_singleton, getSteps?_insert, if_pos rfl, getSteps?_nil,
        Option.isSome_some, if_pos rfl, Members.keys, Members.insert, Association.map_fst_insert,
        if_pos hkey]
      rfl
  | cons first rest ih =>
    obtain ⟨outer, inner, rfl, hinner, hleft⟩ := keys_cases h
    rw [List.map_cons, getSteps?_key, hinner, Option.bind_some] at hmembers
    rcases hleft with ⟨-, rfl⟩ | ⟨remains, -, hrest, rfl⟩
    · rw [List.map_cons, getSteps?_erase hvalue.nodup, if_pos rfl] at hstays
      exact absurd rfl hstays
    · rw [List.map_cons, getSteps?_insert, if_pos rfl] at hstays
      rw [List.map_cons, List.cons_append, List.map_cons, getSteps?_insert, getSteps?_insert,
        if_pos rfl, if_pos rfl]
      exact ih hrest (hvalue.member hinner) hmembers hstays

/-- Setting the value again at the end of the keys gives the whole back, but for the order of
keys. -/
theorem exists_set (h : TakesOut taken (names.map Step.key) value left)
    (hvalue : value.WellFormed) :
    ∃ after, left.set (.ofKeys names) taken = (.ok (), after) ∧ after.Alike value := by
  have hnames : names ≠ [] := by
    rintro rfl
    exact h.steps_ne_nil rfl
  have hread : Json.getSteps? (names.map Step.key) value = some taken := h.getSteps?
  obtain ⟨name, rest, rfl⟩ := List.exists_cons_of_ne_nil hnames
  obtain ⟨members, inner, rfl, -, -⟩ := eq_object_of_getSteps?_key hread
  obtain ⟨fields, htake, hfields, htaken⟩ := takeSteps_keys (name :: rest) hnames hvalue hread
  rw [takeSteps_eq_some_iff.mpr h, Option.some.injEq, Prod.mk.injEq] at htake
  obtain ⟨-, rfl⟩ := htake
  have hlacks : Lacks [(name :: rest).map Step.key] (object fields) (object members) :=
    (Lacks.nothing (object members)).takeOut htaken (by simp) (by simp)
  obtain ⟨after, hset, hafter, hput⟩ := set_keys (name :: rest) Json.noConfusion hfields
    (h.wellFormed hvalue).1 (hlacks.openTo hread) htaken.gone
  have hwhole : Lacks [] after (object members) :=
    hlacks.putBack hput ⟨taken, hread, fun _ ↦ rfl⟩ (by simp)
  obtain ⟨more, below, rfl, -, -⟩ := eq_object_of_getSteps?_key hput.found
  exact ⟨_, hset, alike_of_sameLeaves _ hafter hvalue hwhole.sameLeaves⟩

end TakesOut

/-! ## Taking out of a document -/

/-- What taking a value out at a path of keys makes of a document. -/
structure TakenAt (path : FieldPath) (value document left : Json) : Prop where
  gone : left.get? path = none
  /-- With the value go the values on its way, the document excepted, that hold nothing else. -/
  pruned : ∀ front names, path = front.join (.ofKeys names) → names ≠ [] →
    (left.get? front = none ↔ front ≠ .root ∧ document.get? front = some (nested names value))
  elsewhere : ∀ other : FieldPath, Apart path.steps other.steps →
    left.get? other = document.get? other
  /-- An object on the way that stays keeps its keys in order, but for the next key on the way where
  that one has gone. -/
  keys : ∀ front name more (members : Members), path = front.join (.ofKeys (name :: more)) →
    document.get? front = some (object members) → left.get? front ≠ none →
    ∃ fields : Members, left.get? front = some (object fields) ∧
      fields.keys =
        if (left.get? (front.key name)).isSome then members.keys else members.keys.erase name
  /-- Setting the value again gives the document back, but for the order of keys. -/
  restored : ∃ after, left.set path value = (.ok (), after) ∧ after.Alike document

/-- A front of a path of keys is one itself. -/
theorem exists_front_of_ofKeys {front : FieldPath} {keys names : List String}
    (h : FieldPath.ofKeys keys = front.join (.ofKeys names)) :
    ∃ first, keys = first ++ names ∧ front = .ofKeys first := by
  have hsteps : keys.map Step.key = front.steps ++ names.map Step.key := congrArg FieldPath.steps h
  obtain ⟨first, rest, rfl, hfirst, hrest⟩ := List.map_eq_append_iff.mp hsteps
  have hnames : rest = names :=
    List.map_injective_iff.mpr (fun _ _ heq ↦ Step.key.inj heq) hrest
  exact ⟨first, by rw [hnames], congrArg FieldPath.mk hfirst.symm⟩

theorem takenAt_of_takesOut {keys : List String} {value document left : Json}
    (h : TakesOut value (keys.map Step.key) document left) (hdocument : document.WellFormed) :
    TakenAt (.ofKeys keys) value document left where
  gone := by
    have hread : getSteps? (keys.map Step.key) document = some value := h.getSteps?
    have hkeys : keys ≠ [] := by
      rintro rfl
      exact h.steps_ne_nil rfl
    rw [← List.append_nil keys] at h
    exact (h.getSteps?_eq_none_iff hdocument).mpr ⟨hkeys, hread⟩
  pruned := by
    intro front names hpath _
    obtain ⟨first, rfl, rfl⟩ := exists_front_of_ofKeys hpath
    have hfirst : FieldPath.ofKeys first ≠ .root ↔ first ≠ [] := by
      simp [FieldPath.ofKeys, FieldPath.root]
    rw [hfirst]
    exact h.getSteps?_eq_none_iff hdocument
  elsewhere := fun other hother ↦ h.getSteps?_of_apart hdocument hother
  keys := by
    intro front name more members hpath hmembers hstays
    obtain ⟨first, rfl, rfl⟩ := exists_front_of_ofKeys hpath
    have hkey : (FieldPath.ofKeys first).key name = .ofKeys (first ++ [name]) := by
      simp [FieldPath.ofKeys, FieldPath.key]
    rw [hkey]
    exact h.keys_of_stays hdocument hmembers hstays
  restored := h.exists_set hdocument

/-- Taking answers what is read at the path, and changes nothing where nothing is. A value at the
end of keys goes with exactly the objects around it that held nothing else, and comes back by
setting it. -/
theorem take_removes {document : Json} (hdocument : document.WellFormed) {path : FieldPath}
    (hpath : path ≠ .root) :
    (document.take path).map Prod.fst = document.get? path ∧
      document.remove path =
        (document.get? path, ((document.take path).map Prod.snd).getD document) ∧
      (document.get? path = none → document.remove path = (none, document)) ∧
      ∀ value left, document.take path = some (value, left) → path.keysOnly →
        TakenAt path value document left := by
  have hsteps : path.steps ≠ [] := fun hnil ↦ hpath (congrArg FieldPath.mk hnil)
  have hread : (document.take path).map Prod.fst = document.get? path :=
    map_fst_takeSteps hsteps document
  have hremove : document.remove path =
      (document.get? path, ((document.take path).map Prod.snd).getD document) := by
    rw [← hread]
    exact removeSteps_eq path.steps document
  refine ⟨hread, hremove, fun hnone ↦ ?_, fun value left htake hkeys ↦ ?_⟩
  · rw [hnone, Option.map_eq_none_iff] at hread
    rw [hremove, hnone, hread]
    rfl
  · obtain ⟨keys, rfl⟩ := Decompose.exists_keys_of_keysOnly hkeys
    exact takenAt_of_takesOut (takeSteps_eq_some_iff.mp htake) hdocument

/-- The only label goes with the labels and the metadata, and comes back behind the kind. -/
theorem take_removes_label :
    let document : Json := object [("metadata", object [("labels", object
      [("app", string "web")])]), ("kind", string "Pod")]
    let path : FieldPath := .ofKeys ["metadata", "labels", "app"]
    document.WellFormed ∧ path ≠ .root ∧
      document.remove path = (some (string "web"), object [("kind", string "Pod")]) ∧
      TakenAt path (string "web") document (object [("kind", string "Pod")]) := by
  intro document path
  have hdocument : document.WellFormed := by
    simp [document, WellFormed, MembersWellFormed]
  have hpath : path ≠ .root := by decide
  obtain ⟨-, hremove, -, htaken⟩ := take_removes hdocument hpath
  exact ⟨hdocument, hpath, hremove, htaken _ _ rfl rfl⟩

end Json
end ManifestTree
