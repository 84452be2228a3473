import ManifestTree.Proofs.Leaves

/-!
# Taking out and putting back at key paths

Taking a value out of an object, emptied objects included, leaves every other leaf where it was, and
a writer that succeeds at a path of keys changes no leaf beside it. So a document that lacks some
values of another one, all at paths apart from each other, gets them back in any order. Paths with
indices are left out: taking an item out moves the ones behind it.
-/

namespace ManifestTree.Json

/-! ## Taking out -/

/-- What is left of a value when everything at and behind a path is taken out of it. -/
structure TakenOut (path : List Step) (value left : Json) : Prop where
  gone : getSteps? path left = none
  kept : ∀ steps, steps ≠ [] → ¬ path <+: steps → leaf? steps left = leaf? steps value

theorem leaf?_empty {steps : List Step} (h : steps ≠ []) : leaf? steps (object []) = none := by
  cases steps with
  | nil => exact absurd rfl h
  | cons step rest => cases step <;> rfl

/-- Steps that go on with a key lead into an object. -/
theorem eq_object_of_getSteps?_key {name : String} {rest : List Step} {value found : Json}
    (h : getSteps? (.key name :: rest) value = some found) :
    ∃ members inner, value = object members ∧ Members.get? members name = some inner ∧
      getSteps? rest inner = some found := by
  cases value with
  | object members =>
    rw [getSteps?_key, Option.bind_eq_some_iff] at h
    obtain ⟨inner, hinner, hfound⟩ := h
    exact ⟨members, inner, rfl, hinner, hfound⟩
  | _ => cases h

/-- Two objects that differ at one key only have the same leaf where steps avoid the difference. -/
theorem leaf?_eq_of_members (name : String) {xs ys : Members} {steps : List Step}
    (hsteps : steps ≠ []) (hother : ∀ key, key ≠ name → xs.get? key = ys.get? key)
    (hsame : ∀ rest, steps = .key name :: rest →
      (xs.get? name).bind (leaf? rest) = (ys.get? name).bind (leaf? rest)) :
    leaf? steps (object xs) = leaf? steps (object ys) := by
  cases steps with
  | nil => exact absurd rfl hsteps
  | cons step rest =>
    cases step with
    | index position => rfl
    | key key =>
      rw [leaf?_key, leaf?_key]
      by_cases hkey : key = name
      · subst hkey
        exact hsame rest rfl
      · rw [hother key hkey]

/-- Taking from inside a member keeps the member unless nothing is left of it. -/
theorem takeSteps_member {name : String} {rest : List Step} {members left : Members}
    {inner value : Json} (hinner : members.get? name = some inner) (hrest : rest ≠ [])
    (htake : takeSteps rest inner = some (value, object left)) :
    takeSteps (.key name :: rest) (object members) = some (value,
      object (if left.isEmpty then members.erase name else members.insert name (object left))) := by
  have hisEmpty : rest.isEmpty = false := List.isEmpty_eq_false_iff.mpr hrest
  rw [takeSteps, hinner]
  simp only [hisEmpty, htake]
  cases left <;> rfl

/-- A member that holds nothing beside what is taken goes as a whole. -/
theorem takenOut_erase {name : String} {rest : List Step} {members : Members} {inner : Json}
    (hkeys : (members.map Prod.fst).Nodup) (hinner : members.get? name = some inner)
    (hnothing : ∀ steps, ¬ rest <+: steps → leaf? steps inner = none) :
    TakenOut (.key name :: rest) (object members) (object (members.erase name)) where
  gone := by
    rw [getSteps?_key, Members.get?, Members.erase, Association.get?_erase name name hkeys,
      if_pos rfl]
    rfl
  kept := by
    intro steps hsteps hstart
    refine leaf?_eq_of_members name hsteps (fun key hkey ↦ ?_) (fun more heq ↦ ?_)
    · rw [Members.get?, Members.erase, Association.get?_erase name key hkeys,
        if_neg (Ne.symm hkey)]
      rfl
    · subst heq
      rw [List.prefix_cons_inj] at hstart
      rw [Members.get?, Members.erase, Association.get?_erase name name hkeys, if_pos rfl, hinner,
        Option.bind_some, hnothing more hstart]
      rfl

/-- Otherwise what is left of the member stays. -/
theorem takenOut_insert {name : String} {rest : List Step} {members : Members} {inner left : Json}
    (hinner : members.get? name = some inner) (h : TakenOut rest inner left)
    (hroot : leaf? [] left = leaf? [] inner) :
    TakenOut (.key name :: rest) (object members) (object (members.insert name left)) where
  gone := by
    rw [getSteps?_key, Members.get?, Members.insert, Association.get?_insert_self]
    exact h.gone
  kept := by
    intro steps hsteps hstart
    refine leaf?_eq_of_members name hsteps (fun key hkey ↦ ?_) (fun more heq ↦ ?_)
    · exact Association.get?_insert_of_ne (Ne.symm hkey) left members
    · subst heq
      rw [List.prefix_cons_inj] at hstart
      rw [Members.get?, Members.insert, Association.get?_insert_self, hinner, Option.bind_some,
        Option.bind_some]
      by_cases hmore : more = []
      · rw [hmore, hroot]
      · exact h.kept more hmore hstart

theorem takeSteps_keys : ∀ (names : List String) {members : Members} {value : Json},
    names ≠ [] → (object members).WellFormed →
    getSteps? (names.map Step.key) (object members) = some value →
    ∃ left, takeSteps (names.map Step.key) (object members) = some (value, object left) ∧
      (object left).WellFormed ∧ TakenOut (names.map Step.key) (object members) (object left)
  | [], _, _, hnames, _, _ => absurd rfl hnames
  | [name], members, value, _, hwf, hget => by
    obtain ⟨_, inner, heq, hinner, hfound⟩ := eq_object_of_getSteps?_key hget
    cases heq
    cases hfound
    refine ⟨members.erase name, ?_, hwf.erase name, ?_⟩
    · simp [takeSteps, hinner]
    · exact takenOut_erase hwf.nodup hinner fun _ hstart ↦ absurd List.nil_prefix hstart
  | name :: second :: more, members, value, _, hwf, hget => by
    obtain ⟨_, inner, heq, hinner, hfound⟩ := eq_object_of_getSteps?_key hget
    cases heq
    obtain ⟨inside, -, rfl, -, -⟩ := eq_object_of_getSteps?_key hfound
    obtain ⟨left, htake, hleft, htaken⟩ :=
      takeSteps_keys (second :: more) (by simp) (hwf.member hinner) hfound
    have hdeep : getSteps? ([] ++ (second :: more).map Step.key) (object inside) = some value :=
      hfound
    have hroot : leaf? [] (object inside) = none := leaf?_eq_none_of_getSteps? hdeep (by simp)
    refine ⟨_, takeSteps_member hinner (by simp) htake, ?_⟩
    cases left with
    | nil =>
      rw [List.isEmpty_nil, if_pos rfl]
      refine ⟨hwf.erase name, takenOut_erase hwf.nodup hinner fun steps hstart ↦ ?_⟩
      by_cases hsteps : steps = []
      · rw [hsteps, hroot]
      · rw [← htaken.kept steps hsteps hstart, leaf?_empty hsteps]
    | cons entry tail =>
      rw [List.isEmpty_cons, if_neg Bool.false_ne_true]
      exact ⟨hwf.insert hleft name, takenOut_insert hinner htaken hroot.symm⟩

/-! ## Putting in -/

/-- The value is at the path, and no leaf beside the path has changed. -/
structure PutAt (path : List Step) (value : Json) (place : Place) (after : Json) : Prop where
  found : getSteps? path after = some value
  /-- Leaves that are neither at nor behind nor before the path stay. -/
  kept : ∀ steps, ¬ path <+: steps → ¬ steps <+: path →
    leaf? steps after = place.bind (leaf? steps)

/-- Every value on the way to the end of a path is an object. -/
def OpenTo (path : List Step) (place : Place) : Prop :=
  ∀ front back value, path = front ++ back → back ≠ [] →
    place.bind (getSteps? front) = some value → value.isObject

theorem openTo_of_getSteps? {names : List String} {document found : Json}
    (h : getSteps? (names.map Step.key) document = some found) :
    OpenTo (names.map Step.key) (some document) := by
  intro front back value hpath hback hvalue
  rw [Option.bind_some] at hvalue
  rw [hpath, getSteps?_append, hvalue, Option.bind_some] at h
  obtain ⟨step, rest, rfl⟩ := List.exists_cons_of_ne_nil hback
  have hkey : step ∈ names.map Step.key := by
    rw [hpath]
    simp
  obtain ⟨key, -, rfl⟩ := List.mem_map.mp hkey
  obtain ⟨members, inner, rfl, -, -⟩ := eq_object_of_getSteps?_key h
  rfl

def Place.WellFormed (place : Place) : Prop := ∀ value, place = some value → value.WellFormed

/-- Filling a place inside a member fills the same place in the object. -/
theorem PutAt.member {name : String} {rest : List Step} {value inner : Json}
    {before after : Members} (h : PutAt rest value (before.get? name) inner)
    (hinner : after.get? name = some inner)
    (hother : ∀ key, key ≠ name → after.get? key = before.get? key) :
    PutAt (.key name :: rest) value (some (object before)) (object after) where
  found := by
    rw [getSteps?_key, hinner]
    exact h.found
  kept := by
    intro steps hstart hbefore
    have hsteps : steps ≠ [] := by
      rintro rfl
      exact hbefore List.nil_prefix
    refine leaf?_eq_of_members name hsteps hother fun more heq ↦ ?_
    subst heq
    rw [List.prefix_cons_inj] at hstart hbefore
    rw [hinner, Option.bind_some]
    exact h.kept more hstart hbefore

/-- A vacant place is filled like an empty object. -/
theorem PutAt.of_empty {path : List Step} {value after : Json}
    (h : PutAt path value (some (object [])) after) : PutAt path value none after where
  found := h.found
  kept := by
    intro steps hstart hbefore
    have hsteps : steps ≠ [] := by
      rintro rfl
      exact hbefore List.nil_prefix
    rw [h.kept steps hstart hbefore, Option.bind_some, leaf?_empty hsteps]
    rfl

theorem OpenTo.member {name : String} {rest : List Step} {members : Members}
    (h : OpenTo (.key name :: rest) (some (object members))) :
    OpenTo rest (members.get? name) := by
  intro front back value hpath hback hfound
  apply h (.key name :: front) back value (by rw [hpath, List.cons_append]) hback
  rw [Option.bind_some, getSteps?_key]
  exact hfound

theorem Place.wellFormed_none : Place.WellFormed none := by
  intro value h
  cases h

theorem openTo_none (path : List Step) : OpenTo path none := by
  intro front back value _ _ h
  cases h

/-- The walk along keys reaches the place at their end, and what its action leaves there is put
in. -/
theorem walk_keys {α : Type} (path : FieldPath) {action : Action α} {answer : α} {value : Json}
    (hvalue : value.WellFormed) : ∀ (names : List String) (taken : List Step) {place : Place},
    Place.WellFormed place → OpenTo (names.map Step.key) place →
    action (place.bind (getSteps? (names.map Step.key))) = (.ok answer, some value) →
    ∃ after, walk path action taken (names.map Step.key) place = (.ok answer, some after) ∧
      after.WellFormed ∧ PutAt (names.map Step.key) value place after
  | [], taken, place, _, _, haction => by
    have hplace : place.bind (getSteps? []) = place := by cases place <;> simp
    rw [List.map_nil, hplace] at haction
    refine ⟨value, ?_, hvalue, by simp, fun steps hstart ↦ absurd List.nil_prefix hstart⟩
    rw [List.map_nil, walk]
    exact haction
  | name :: names, taken, none, _, _, haction => by
    obtain ⟨inner, hwalk, hinner, hput⟩ :=
      walk_keys path hvalue names (taken ++ [.key name]) Place.wellFormed_none (openTo_none _)
        haction
    refine ⟨object [(name, inner)], ?_, ⟨List.nodup_singleton name, hinner, trivial⟩, ?_⟩
    · rw [List.map_cons, walk, hwalk]
      rfl
    · refine PutAt.of_empty (PutAt.member hput (Association.get?_cons_self name inner []) ?_)
      exact fun key hkey ↦ Association.get?_cons_of_ne (Ne.symm hkey) inner []
  | name :: names, taken, some old, hplace, hopen, haction => by
    have hobject : old.isObject := hopen [] _ old rfl (by simp) (by simp)
    cases old with
    | object members =>
      have hread : (some (object members)).bind (getSteps? ((name :: names).map Step.key)) =
          (Members.get? members name).bind (getSteps? (names.map Step.key)) := by
        rw [Option.bind_some, List.map_cons, getSteps?_key]
      rw [hread] at haction
      have hwf : (object members).WellFormed := hplace _ rfl
      obtain ⟨inner, hwalk, hinner, hput⟩ := walk_keys path hvalue names
        (taken ++ [.key name]) (fun value hget ↦ hwf.member hget) hopen.member haction
      refine ⟨object (Members.insert members name inner), ?_, hwf.insert hinner name, ?_⟩
      · rw [List.map_cons, walk, hwalk]
        rfl
      · refine PutAt.member hput (Association.get?_insert_self name inner members) ?_
        exact fun key hkey ↦ Association.get?_insert_of_ne (Ne.symm hkey) inner members
    | _ => cases hobject

/-- A writer at the end of open keys succeeds when its action does, and puts the value in. -/
theorem write_keys {α : Type} {names : List String} {document value : Json} {action : Action α}
    {answer : α} (hdocument : document ≠ null) (hwf : document.WellFormed)
    (hvalue : value.WellFormed) (hopen : OpenTo (names.map Step.key) (some document))
    (haction : action (getSteps? (names.map Step.key) document) = (.ok answer, some value)) :
    ∃ after, document.write (FieldPath.ofKeys names) action = (.ok answer, after) ∧
      after.WellFormed ∧ PutAt (names.map Step.key) value (some document) after := by
  obtain ⟨after, hwalk, hafter, hput⟩ := walk_keys (FieldPath.ofKeys names) hvalue names []
    (fun _ heq ↦ Option.some.inj heq ▸ hwf) hopen haction
  have hsteps : (FieldPath.ofKeys names).steps = names.map Step.key := rfl
  refine ⟨after, ?_, hafter, hput⟩
  rw [write, hsteps, Place.ofDocument_eq_some hdocument, hwalk]
  rfl

/-- The place that holds an array, vacant while it has no items. -/
def placeOfItems (items : List Json) : Place := if items.isEmpty then none else some (array items)

theorem addItem_placeOfItems (path : FieldPath) (value : Json) (items : List Json) :
    addItem path value (placeOfItems items) =
      (.ok items.length, some (array (items ++ [value]))) := by
  cases items <;> rfl

theorem set_keys (names : List String) {document value : Json} (hdocument : document ≠ null)
    (hwf : document.WellFormed) (hvalue : value.WellFormed)
    (hopen : OpenTo (names.map Step.key) (some document))
    (hvacant : getSteps? (names.map Step.key) document = none) :
    ∃ after, document.set (FieldPath.ofKeys names) value = (.ok (), after) ∧ after.WellFormed ∧
      PutAt (names.map Step.key) value (some document) after :=
  write_keys hdocument hwf hvalue hopen (by rw [hvacant]; rfl)

theorem append_keys (names : List String) {document value : Json} {items : List Json}
    (hdocument : document ≠ null) (hwf : document.WellFormed)
    (hitems : (array (items ++ [value])).WellFormed)
    (hopen : OpenTo (names.map Step.key) (some document))
    (hplace : getSteps? (names.map Step.key) document = placeOfItems items) :
    ∃ after, document.append (FieldPath.ofKeys names) value = (.ok items.length, after) ∧
      after.WellFormed ∧
      PutAt (names.map Step.key) (array (items ++ [value])) (some document) after :=
  write_keys hdocument hwf hitems hopen (by rw [hplace, addItem_placeOfItems])

/-! ## Lacking some values -/

/-- Neither path leads through the end of the other one. -/
def Apart (path other : List Step) : Prop := ¬ path <+: other ∧ ¬ other <+: path

theorem Apart.symm {path other : List Step} (h : Apart path other) : Apart other path :=
  ⟨h.2, h.1⟩

/-- Nothing behind one of two paths apart lies behind the other. -/
theorem Apart.append {path other : List Step} (h : Apart path other) (more : List Step) :
    ¬ path <+: other ++ more := by
  intro hstart
  rcases List.prefix_or_prefix_of_prefix hstart (List.prefix_append other more) with hle | hle
  · exact h.1 hle
  · exact h.2 hle

theorem Apart.ne_nil {path other : List Step} (h : Apart path other) : other ≠ [] := by
  rintro rfl
  exact h.2 List.nil_prefix

theorem Apart.of_cons {step : Step} {path other : List Step}
    (h : Apart (step :: path) (step :: other)) : Apart path other := by
  simpa [Apart] using h

/-- Apart from a path means apart from everything behind it. -/
theorem Apart.append_left {path other : List Step} (h : Apart path other) (more : List Step) :
    Apart (path ++ more) other :=
  ⟨fun hstart ↦ h.1 ((List.prefix_append path more).trans hstart), h.symm.append more⟩

/-- Of two paths, one leads nowhere and the other one somewhere: the second one does not run through
the first one. -/
theorem not_prefix_of_getSteps? {path other : List Step} {document found : Json}
    (hnone : getSteps? path document = none) (hsome : getSteps? other document = some found) :
    ¬ path <+: other := by
  rintro ⟨more, rfl⟩
  rw [getSteps?_append, hnone] at hsome
  cases hsome

/-- A document that is the whole one but for what stands at and behind some paths. -/
structure Lacks (paths : List (List Step)) (document whole : Json) : Prop where
  gone : ∀ path ∈ paths, getSteps? path document = none
  kept : ∀ steps, steps ≠ [] → (∀ path ∈ paths, ¬ path <+: steps) →
    leaf? steps document = leaf? steps whole

theorem Lacks.nothing (document : Json) : Lacks [] document document where
  gone := by simp
  kept := fun _ _ _ ↦ rfl

/-- The whole document has the value at the path, up to the order of keys. -/
def HoldsAt (path : List Step) (value whole : Json) : Prop :=
  ∃ found, getSteps? path whole = some found ∧ value.SameLeaves found

/-- A value taken out of a document that lacks others is apart from them. -/
theorem Lacks.apart {paths : List (List Step)} {document whole value : Json} {path : List Step}
    (h : Lacks paths document whole) (hvalue : getSteps? path document = some value)
    (hbefore : ∀ other ∈ paths, path <+: other → path = other) :
    ∀ other ∈ paths, Apart other path := by
  intro other hmem
  have hnot := not_prefix_of_getSteps? (h.gone other hmem) hvalue
  exact ⟨hnot, fun hstart ↦ hnot (hbefore other hmem hstart ▸ List.prefix_rfl)⟩

/-- What a document still has at a path apart from the missing ones is what the whole one has. -/
theorem Lacks.holdsAt {paths : List (List Step)} {document whole value : Json} {path : List Step}
    (h : Lacks paths document whole) (hvalue : getSteps? path document = some value)
    (hpath : path ≠ []) (hapart : ∀ other ∈ paths, Apart other path) :
    HoldsAt path value whole := by
  have hleaf (more : List Step) : leaf? (path ++ more) whole = leaf? more value := by
    have hkept := h.kept (path ++ more) (by simp [hpath]) fun other hmem ↦
      (hapart other hmem).append more
    calc
      leaf? (path ++ more) whole = leaf? (path ++ more) document := hkept.symm
      _ = (getSteps? path document).bind (leaf? more) := leaf?_append path more document
      _ = leaf? more value := by rw [hvalue, Option.bind_some]
  cases hfound : getSteps? path whole with
  | none =>
    obtain ⟨more, leaf, hmore⟩ := exists_leaf value
    have hnone := getSteps?_eq_none_iff.mp hfound more
    rw [hleaf, hmore] at hnone
    cases hnone
  | some found =>
    refine ⟨found, hfound, fun more ↦ ?_⟩
    calc
      leaf? more value = leaf? (path ++ more) whole := (hleaf more).symm
      _ = (getSteps? path whole).bind (leaf? more) := leaf?_append path more whole
      _ = leaf? more found := by rw [hfound, Option.bind_some]

/-- Taking out one value more. -/
theorem Lacks.takeOut {paths : List (List Step)} {document whole left : Json} {path : List Step}
    (h : Lacks paths document whole) (htaken : TakenOut path document left)
    (hpaths : ∀ other ∈ paths, other ≠ []) (hapart : ∀ other ∈ paths, Apart other path) :
    Lacks (paths ++ [path]) left whole where
  gone := by
    intro other hmem
    rcases List.mem_append.mp hmem with hmem | hmem
    · refine getSteps?_eq_none_iff.mpr fun more ↦ ?_
      rw [htaken.kept (other ++ more) (by simp [hpaths other hmem])
        ((hapart other hmem).symm.append more)]
      exact getSteps?_eq_none_iff.mp (h.gone other hmem) more
    · rw [List.mem_singleton.mp hmem]
      exact htaken.gone
  kept := by
    intro steps hsteps hstart
    rw [htaken.kept steps hsteps (hstart path (by simp))]
    exact h.kept steps hsteps fun other hmem ↦ hstart other (List.mem_append_left _ hmem)

/-- The keys to a missing value are open: the whole document has objects on the way to it. -/
theorem Lacks.openTo {paths : List (List Step)} {members : Members} {whole value : Json}
    {names : List String} (h : Lacks paths (object members) whole)
    (hvalue : getSteps? (names.map Step.key) whole = some value) :
    OpenTo (names.map Step.key) (some (object members)) := by
  intro front back inner hpath hback hinner
  rw [Option.bind_some] at hinner
  by_cases hfront : front = []
  · subst hfront
    rw [getSteps?_nil, Option.some.injEq] at hinner
    subst hinner
    rfl
  · by_contra hobject
    rw [Bool.not_eq_true] at hobject
    obtain ⟨more, leaf, hleaf, hnone⟩ := exists_leaf_of_not_isObject hobject
    have hdocument : leaf? (front ++ more) (object members) = some leaf := by
      rw [leaf?_append, hinner, Option.bind_some, hleaf]
    have hwhole : leaf? (front ++ more) whole = some leaf := by
      rw [← hdocument]
      refine (h.kept _ (by simp [hfront]) fun other hmem hstart ↦ ?_).symm
      obtain ⟨rest, hrest⟩ := hstart
      rw [← hrest, leaf?_append, h.gone other hmem] at hdocument
      cases hdocument
    rw [hpath, getSteps?_append, Option.bind_eq_some_iff] at hvalue
    obtain ⟨inside, hinside, hrest⟩ := hvalue
    rw [leaf?_append, hinside, Option.bind_some] at hwhole
    obtain ⟨step, rest, rfl⟩ := List.exists_cons_of_ne_nil hback
    have hkey : step ∈ names.map Step.key := by
      rw [hpath]
      simp
    obtain ⟨key, -, rfl⟩ := List.mem_map.mp hkey
    obtain ⟨ms, below, rfl, hget, -⟩ := eq_object_of_getSteps?_key hrest
    have hms : ms ≠ [] := by
      rintro rfl
      cases hget
    rw [hnone ms hms] at hwhole
    cases hwhole

/-- Putting a missing value back. -/
theorem Lacks.putBack {paths : List (List Step)} {document whole value after : Json}
    {path : List Step} (h : Lacks (path :: paths) document whole)
    (hput : PutAt path value (some document) after) (hholds : HoldsAt path value whole)
    (hapart : ∀ other ∈ paths, Apart path other) : Lacks paths after whole where
  gone := by
    intro other hmem
    refine getSteps?_eq_none_iff.mpr fun more ↦ ?_
    have hother := hapart other hmem
    have hbefore : ¬ other ++ more <+: path := fun hstart ↦
      hother.2 ((List.prefix_append other more).trans hstart)
    rw [hput.kept (other ++ more) (hother.append more) hbefore]
    exact getSteps?_eq_none_iff.mp (h.gone other (List.mem_cons_of_mem _ hmem)) more
  kept := by
    intro steps hsteps hstart
    obtain ⟨found, hfound, hsame⟩ := hholds
    by_cases hbehind : path <+: steps
    · obtain ⟨more, rfl⟩ := hbehind
      rw [leaf?_append, leaf?_append, hput.found, hfound, Option.bind_some, Option.bind_some]
      exact hsame more
    · by_cases hbefore : steps <+: path
      · obtain ⟨back, rfl⟩ := hbefore
        have hback : back ≠ [] := by
          rintro rfl
          exact hbehind (by simp)
        rw [leaf?_eq_none_of_getSteps? hput.found hback, leaf?_eq_none_of_getSteps? hfound hback]
      · rw [hput.kept steps hbehind hbefore]
        refine h.kept steps hsteps fun other hmem ↦ ?_
        rcases List.mem_cons.mp hmem with rfl | hmem
        · exact hbehind
        · exact hstart other hmem

/-- Two objects with the same leaves inside have the same leaves. -/
theorem Lacks.sameLeaves {xs ys : Members} (h : Lacks [] (object xs) (object ys)) :
    (object xs).SameLeaves (object ys) := by
  have hfirst (entry : String × Json) (rest : Members) :
      ∃ steps, steps ≠ [] ∧ leaf? steps (object (entry :: rest)) ≠ none := by
    obtain ⟨steps, leaf, hleaf⟩ := exists_leaf entry.2
    refine ⟨.key entry.1 :: steps, by simp, ?_⟩
    rw [leaf?_key, Members.get?, Association.get?_cons_self, Option.bind_some, hleaf]
    simp
  intro steps
  by_cases hsteps : steps = []
  · subst hsteps
    cases xs with
    | nil =>
      cases ys with
      | nil => rfl
      | cons entry rest =>
        obtain ⟨steps, hne, hleaf⟩ := hfirst entry rest
        exact absurd ((h.kept steps hne (by simp)).symm.trans (leaf?_empty hne)) hleaf
    | cons entry rest =>
      cases ys with
      | nil =>
        obtain ⟨steps, hne, hleaf⟩ := hfirst entry rest
        exact absurd ((h.kept steps hne (by simp)).trans (leaf?_empty hne)) hleaf
      | cons _ _ => rfl
  · exact h.kept steps hsteps (by simp)

end ManifestTree.Json
