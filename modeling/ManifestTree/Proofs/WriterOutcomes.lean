import ManifestTree.Proofs.LaidValues

/-!
# What the writers do

Every path leads into a document as far as its longest front that can be read there. From the value
that this front reaches, it is settled what a writer does: it works on the value at the whole path,
or creates the missing keys behind an object, or is stopped where a step meets a value of another
sort. What the path does not touch stays as it was, and objects keep their keys in order. The null
document counts as the empty one; the root path is left out, since there is nothing to create.
-/

namespace ManifestTree.Json

/-! ## How far a path leads -/

/-- The longest front of a path that leads to a value of the document, and that value. -/
structure ReachesTo (document : Json) (path front : FieldPath) (found : Json) : Prop where
  reads : document.get? front = some found
  isFront : front.steps <+: path.steps
  longest : ∀ other : FieldPath, other.steps <+: path.steps → (document.get? other).isSome →
    other.steps <+: front.steps

theorem exists_longest (steps : List Step) (document : Json) :
    ∃ front found, getSteps? front document = some found ∧ front <+: steps ∧
      ∀ other, other <+: steps → (getSteps? other document).isSome → other <+: front := by
  induction steps generalizing document with
  | nil => exact ⟨[], document, getSteps?_nil document, List.prefix_rfl, fun _ h _ ↦ h⟩
  | cons step rest ih =>
    cases hstep : getSteps? [step] document with
    | none =>
      refine ⟨[], document, getSteps?_nil document, List.nil_prefix, fun other hother hsome ↦ ?_⟩
      cases other with
      | nil => exact List.prefix_rfl
      | cons first more =>
        obtain ⟨rfl, -⟩ := List.cons_prefix_cons.mp hother
        rw [← List.singleton_append, getSteps?_append, hstep] at hsome
        cases hsome
    | some inner =>
      have hinner (more : List Step) :
          getSteps? (step :: more) document = getSteps? more inner := by
        rw [← List.singleton_append, getSteps?_append, hstep, Option.bind_some]
      obtain ⟨front, found, hread, hfront, hlongest⟩ := ih inner
      refine ⟨step :: front, found, (hinner front).trans hread,
        List.cons_prefix_cons.mpr ⟨rfl, hfront⟩, fun other hother hsome ↦ ?_⟩
      cases other with
      | nil => exact List.nil_prefix
      | cons first more =>
        obtain ⟨rfl, hmore⟩ := List.cons_prefix_cons.mp hother
        rw [hinner] at hsome
        exact List.cons_prefix_cons.mpr ⟨rfl, hlongest more hmore hsome⟩

theorem exists_reachesTo (document : Json) (path : FieldPath) :
    ∃ front found, document.ReachesTo path front found := by
  obtain ⟨front, found, hread, hfront, hlongest⟩ := exists_longest path.steps document
  exact ⟨⟨front⟩, found, hread, hfront, fun other ↦ hlongest other.steps⟩

section Reaching

variable {document found : Json} {path front : FieldPath}

/-- The step behind the front leads nowhere. -/
theorem ReachesTo.stops (h : document.ReachesTo path front found) {step : Step} {rest : List Step}
    (hpath : path.steps = front.steps ++ step :: rest) : getSteps? [step] found = none := by
  by_contra hsome
  have hread : document.get? ⟨front.steps ++ [step]⟩ = getSteps? [step] found := by
    have hfront : getSteps? front.steps document = some found := h.reads
    rw [Json.get?, getSteps?_append, hfront, Option.bind_some]
  have hlonger := (h.longest ⟨front.steps ++ [step]⟩ ⟨rest, by simp [hpath]⟩
    (by rw [hread]; exact Option.isSome_iff_ne_none.mpr hsome)).length_le
  rw [List.length_append, List.length_singleton] at hlonger
  exact Nat.not_succ_le_self _ hlonger

/-- Where a key leads nowhere from an object, the object lacks it. -/
theorem ReachesTo.get?_eq_none {members : Members}
    (h : document.ReachesTo path front (object members)) {name : String} {rest : List Step}
    (hpath : path.steps = front.steps ++ .key name :: rest) : Members.get? members name = none := by
  have hstops := h.stops hpath
  rw [getSteps?_key] at hstops
  cases hget : Members.get? members name with
  | none => rfl
  | some inner => simp [hget] at hstops

/-- Where an index leads nowhere from an array, it lies beyond the end. -/
theorem ReachesTo.getElem?_eq_none {items : List Json}
    (h : document.ReachesTo path front (array items)) {position : Nat} {rest : List Step}
    (hpath : path.steps = front.steps ++ .index position :: rest) : items[position]? = none := by
  have hstops := h.stops hpath
  rw [getSteps?_index] at hstops
  cases hget : items[position]? with
  | none => rfl
  | some inner => simp [hget] at hstops

/-- Keys can be created in the value that the front reaches: in an object, or in the null document
as a whole. -/
def Enterable (document : Json) (front : FieldPath) (found : Json) : Prop :=
  found.isObject ∨ front = .root ∧ document = null

/-- Nothing but keys is missing, and they can be created. -/
def CanCreate (document : Json) (path front : FieldPath) (found : Json) : Prop :=
  front ≠ path ∧ document.Enterable front found ∧ ∃ names, path = front.join (.ofKeys names)

/-- What stops a writer on its way, as it goes on from the value that the front reaches. -/
inductive Bars (document : Json) (path front : FieldPath) (found : Json) : Failure → Prop where
  | key {name : String} {rest : List Step} : path.steps = front.steps ++ .key name :: rest →
    ¬ document.Enterable front found → Bars document path front found (.occupied front)
  | index {position : Nat} {rest : List Step} :
    path.steps = front.steps ++ .index position :: rest → found.kind ≠ .array →
    Bars document path front found (.mismatch front .many found.kind)
  /-- An index meets the vacant place behind keys that are created on the way. -/
  | created {names : List String} {position : Nat} {rest : List Step} : names ≠ [] →
    path.steps = (front.join (.ofKeys names)).steps ++ .index position :: rest →
    document.Enterable front found →
    Bars document path front found (.mismatch (front.join (.ofKeys names)) .many .null)
  | outOfBounds {position : Nat} {rest : List Step} {items : List Json} :
    path.steps = front.steps ++ .index position :: rest → found = array items →
    Bars document path front found (.invalidPath path.text (.outOfBounds position items.length))

/-- Steps are keys up to their end or up to the first index. -/
theorem keys_or_index (steps : List Step) :
    (∃ names : List String, steps = names.map Step.key) ∨
      ∃ (names : List String) (position : Nat) (rest : List Step),
        steps = names.map Step.key ++ .index position :: rest := by
  induction steps with
  | nil => exact Or.inl ⟨[], rfl⟩
  | cons step rest ih =>
    cases step with
    | index position => exact Or.inr ⟨[], position, rest, rfl⟩
    | key name =>
      rcases ih with ⟨names, rfl⟩ | ⟨names, position, more, rfl⟩
      · exact Or.inl ⟨name :: names, rfl⟩
      · exact Or.inr ⟨name :: names, position, more, rfl⟩

/-- A path leads to a value, or to what can be created, or is barred. -/
theorem ReachesTo.cases (h : document.ReachesTo path front found) :
    front = path ∨ document.CanCreate path front found ∨
      ∃ failure, document.Bars path front found failure := by
  obtain ⟨back, hback⟩ := h.isFront
  by_cases hpath : front = path
  · exact Or.inl hpath
  · refine Or.inr ?_
    by_cases henter : document.Enterable front found
    · rcases keys_or_index back with ⟨names, rfl⟩ | ⟨names, position, rest, rfl⟩
      · exact Or.inl ⟨hpath, henter, names, congrArg FieldPath.mk hback.symm⟩
      · refine Or.inr ?_
        by_cases hnames : names = []
        · subst hnames
          refine ⟨_, .index hback.symm ?_⟩
          rcases henter with hobject | ⟨rfl, rfl⟩
          · cases found <;> simp_all [Json.kind, Json.isObject]
          · cases h.reads
            simp [Json.kind]
        · have hsteps : path.steps =
              (front.join (.ofKeys names)).steps ++ .index position :: rest := by
            rw [← hback, ← List.append_assoc]
            rfl
          exact ⟨_, .created hnames hsteps henter⟩
    · refine Or.inr ?_
      cases back with
      | nil => exact absurd (congrArg FieldPath.mk (by simpa using hback)) hpath
      | cons step rest =>
        cases step with
        | key name => exact ⟨_, .key hback.symm henter⟩
        | index position =>
          by_cases hkind : found.kind = .array
          · cases found with
            | array items => exact ⟨_, .outOfBounds hback.symm rfl⟩
            | _ => cases hkind
          · exact ⟨_, .index hback.symm hkind⟩

end Reaching

/-! ## The walk from there -/

section Walking

variable {α : Type} (path : FieldPath) (action : Action α)

/-- Through vacant places a walk creates what keys name. -/
theorem walk_none_keys (names : List String) (taken : List Step) :
    (walk path action taken (names.map Step.key) none).1 = (action none).1 := by
  induction names generalizing taken with
  | nil => rfl
  | cons name rest ih => exact ih (taken ++ [.key name])

/-- An index meets a vacant place behind them. -/
theorem walk_none_index (names : List String) (position : Nat) (rest taken : List Step) :
    (walk path action taken (names.map Step.key ++ .index position :: rest) none).1 =
      .error (.mismatch ⟨taken ++ names.map Step.key⟩ .many .null) := by
  induction names generalizing taken with
  | nil =>
    rw [List.map_nil, List.append_nil]
    rfl
  | cons name more ih =>
    have hwalk := ih (taken ++ [.key name])
    rw [List.append_assoc, List.singleton_append] at hwalk
    exact hwalk

end Walking

section Writing

variable {α : Type} {document found : Json} {path front : FieldPath} {back : List Step}

/-- A writer fares as its walk does from the value that a front of its path reaches. -/
theorem write_fst_of_reads (action : Action α) (hdocument : document ≠ null)
    (hreads : document.get? front = some found) (hpath : path.steps = front.steps ++ back) :
    (document.write path action).1 = (walk path action front.steps back (some found)).1 := by
  have hlead : Leads found front.steps document := leads_of_getSteps? hreads
  have hwalk := congrArg Prod.fst (hlead.walk_append path action [] back)
  rw [← hpath, List.nil_append] at hwalk
  rw [write, Place.ofDocument_eq_some hdocument]
  exact hwalk

/-- Nothing can be read inside null. -/
theorem eq_root_of_get?_null (h : null.get? front = some found) : front = .root ∧ found = null := by
  rcases front with ⟨_ | ⟨step, rest⟩⟩
  · cases h
    exact ⟨rfl, rfl⟩
  · cases step <;> cases h

theorem ne_null_of_get? (h : document.get? front = some found) (hfront : front ≠ .root) :
    document ≠ null := by
  rintro rfl
  exact hfront (eq_root_of_get?_null h).1

/-- A writer works on the value at its path. -/
theorem write_fst_of_get? (action : Action α) (hpath : path ≠ .root)
    (hreads : document.get? path = some found) :
    (document.write path action).1 = (action (some found)).1 := by
  rw [write_fst_of_reads action (ne_null_of_get? hreads hpath) hreads
    (List.append_nil path.steps).symm]
  rfl

/-- Where keys can be created, a writer walks on as through a vacant place. -/
theorem write_fst_of_enterable (action : Action α) (h : document.ReachesTo path front found)
    (henter : document.Enterable front found) {name : String} {rest : List Step}
    (hpath : path.steps = front.steps ++ .key name :: rest) :
    (document.write path action).1 =
      (walk path action front.steps (.key name :: rest) none).1 := by
  by_cases hdocument : document = null
  · subst hdocument
    obtain ⟨rfl, -⟩ := eq_root_of_get?_null h.reads
    rw [write, hpath]
    rfl
  · have hobject : found.isObject := henter.resolve_right fun hnull ↦ hdocument hnull.2
    rw [write_fst_of_reads action hdocument h.reads hpath]
    cases found with
    | object members =>
      change (walk path action _ rest (Members.get? members name)).1 = _
      rw [h.get?_eq_none hpath]
      rfl
    | _ => cases hobject

/-- A writer works on the vacant place behind the keys that it creates. -/
theorem write_fst_of_canCreate (action : Action α) (h : document.ReachesTo path front found)
    (hcreate : document.CanCreate path front found) :
    (document.write path action).1 = (action none).1 := by
  obtain ⟨hpath, henter, names, rfl⟩ := hcreate
  cases names with
  | nil => exact absurd (congrArg FieldPath.mk (List.append_nil front.steps).symm) hpath
  | cons name rest =>
    rw [write_fst_of_enterable action h henter rfl]
    exact walk_none_keys (front.join (.ofKeys (name :: rest))) action (name :: rest) front.steps

/-- What bars the way of a writer is what it fails with. -/
theorem write_fst_of_bars (action : Action α) (h : document.ReachesTo path front found)
    {failure : Failure} (hbars : document.Bars path front found failure) :
    (document.write path action).1 = .error failure := by
  cases hbars with
  | @created names position rest hnames hpath henter =>
    cases names with
    | nil => exact absurd rfl hnames
    | cons name more =>
      have hsteps : path.steps = front.steps ++
          .key name :: (more.map Step.key ++ .index position :: rest) := by
        rw [hpath, FieldPath.join, List.append_assoc]
        rfl
      rw [write_fst_of_enterable action h henter hsteps]
      exact walk_none_index path action (name :: more) position rest front.steps
  | @key name rest hpath henter =>
    have hdocument : document ≠ null := by
      rintro rfl
      exact henter (Or.inr ⟨(eq_root_of_get?_null h.reads).1, rfl⟩)
    rw [write_fst_of_reads action hdocument h.reads hpath]
    cases found with
    | object members => exact absurd (Or.inl rfl) henter
    | _ => rfl
  | @index position rest hpath hkind =>
    by_cases hdocument : document = null
    · subst hdocument
      obtain ⟨rfl, rfl⟩ := eq_root_of_get?_null h.reads
      rw [write, hpath]
      rfl
    · rw [write_fst_of_reads action hdocument h.reads hpath]
      cases found with
      | array items => exact absurd rfl hkind
      | _ => rfl
  | @outOfBounds position rest items hpath hfound =>
    subst hfound
    have hdocument : document ≠ null := by
      rintro rfl
      cases (eq_root_of_get?_null h.reads).2
    rw [write_fst_of_reads action hdocument h.reads hpath, walk, h.getElem?_eq_none hpath]

end Writing

/-! ## What stays -/

/-- An object stays an object with its keys in front, in their order. -/
def KeepsKeys (old new : Json) : Prop :=
  ∀ members : Members, old = object members →
    ∃ more : Members, new = object more ∧ members.keys <+: more.keys

theorem KeepsKeys.refl (value : Json) : value.KeepsKeys value :=
  fun members h ↦ ⟨members, h, List.prefix_rfl⟩

theorem keepsKeys_insert (members : Members) (key : String) (value : Json) :
    (object members).KeepsKeys (object (members.insert key value)) := by
  rintro _ ⟨⟩
  refine ⟨_, rfl, ?_⟩
  rw [Members.keys, Members.keys, Members.insert, Association.map_fst_insert]
  split
  · exact List.prefix_rfl
  · exact List.prefix_append _ _

/-- What was read at the end of some steps is still read there; it is the same unless a writer's
steps lead through it. -/
def Stays (steps other : List Step) (value : Json) (after : Place) : Prop :=
  ∃ left, after.bind (getSteps? other) = some left ∧ value.KeepsKeys left ∧
    (¬ other <+: steps → left = value)

namespace Stays

variable {steps rest other : List Step} {value : Json} {inner after : Place}

theorem same (h : after.bind (getSteps? other) = some value) : Stays steps other value after :=
  ⟨value, h, KeepsKeys.refl value, fun _ ↦ rfl⟩

theorem read_getD (h : inner.bind (getSteps? other) = some value) :
    getSteps? other (inner.getD null) = some value := by
  cases inner with
  | none => cases h
  | some value => exact h

theorem member (h : Stays rest other value inner) (name : String) (members : Members) :
    Stays (.key name :: rest) (.key name :: other) value
      (some (object (members.insert name (inner.getD null)))) := by
  obtain ⟨left, hleft, hkeys, hexact⟩ := h
  refine ⟨left, ?_, hkeys, fun hother ↦ hexact fun hmore ↦ hother ?_⟩
  · rw [Option.bind_some, getSteps?_insert, if_pos rfl]
    exact read_getD hleft
  · exact List.cons_prefix_cons.mpr ⟨rfl, hmore⟩

theorem item {position : Nat} {items : List Json} {item : Json} (h : Stays rest other value inner)
    (hitem : items[position]? = some item) :
    Stays (.index position :: rest) (.index position :: other) value
      (some (array (items.set position (inner.getD null)))) := by
  obtain ⟨left, hleft, hkeys, hexact⟩ := h
  refine ⟨left, ?_, hkeys, fun hother ↦ hexact fun hmore ↦ hother ?_⟩
  · rw [Option.bind_some, getSteps?_set hitem, if_pos rfl]
    exact read_getD hleft
  · exact List.cons_prefix_cons.mpr ⟨rfl, hmore⟩

/-- Around a member that has changed, the object keeps its keys and the other members. -/
theorem inObject {name : String} {members : Members}
    (hvalue : getSteps? other (object members) = some value)
    (hmember : ∀ more, other = .key name :: more → Stays rest more value inner) :
    Stays (.key name :: rest) other value
      (some (object (members.insert name (inner.getD null)))) := by
  cases other with
  | nil =>
    cases hvalue
    exact ⟨_, rfl, keepsKeys_insert members name _, fun h ↦ absurd List.nil_prefix h⟩
  | cons step more =>
    by_cases hstep : step = .key name
    · subst hstep
      exact (hmember more rfl).member name members
    · apply Stays.same
      rw [Option.bind_some, getSteps?_insert, if_neg hstep]
      exact hvalue

/-- Around an item that has changed, the array keeps the other items. -/
theorem inArray {position : Nat} {items : List Json} {item : Json}
    (hitem : items[position]? = some item) (hvalue : getSteps? other (array items) = some value)
    (hinner : ∀ more, other = .index position :: more → Stays rest more value inner) :
    Stays (.index position :: rest) other value
      (some (array (items.set position (inner.getD null)))) := by
  cases other with
  | nil =>
    cases hvalue
    exact ⟨_, rfl, nofun, fun h ↦ absurd List.nil_prefix h⟩
  | cons step more =>
    by_cases hstep : step = .index position
    · subst hstep
      exact (hinner more rfl).item hitem
    · apply Stays.same
      rw [Option.bind_some, getSteps?_set hitem, if_neg hstep]
      exact hvalue

end Stays

/-- Whatever the action, and whether the walk comes to its end or not: what the steps do not touch
stays, and the objects that they lead through keep their keys. -/
theorem walk_stays {α : Type} (path : FieldPath) (action : Action α) {steps : List Step} :
    ∀ {taken other : List Step} {place : Place} {value : Json}, ¬ steps <+: other →
      place.bind (getSteps? other) = some value →
      Stays steps other value (walk path action taken steps place).2 := by
  induction steps with
  | nil => exact fun hother ↦ absurd List.nil_prefix hother
  | cons step rest ih =>
    intro taken other place value hother hvalue
    cases place with
    | none => cases hvalue
    | some document =>
      cases step with
      | key name =>
        cases document with
        | object members =>
          rw [walk]
          refine Stays.inObject hvalue ?_
          rintro more rfl
          rw [List.prefix_cons_inj] at hother
          rw [Option.bind_some, getSteps?_key] at hvalue
          exact ih hother hvalue
        | _ => exact Stays.same hvalue
      | index position =>
        cases document with
        | array items =>
          rw [walk]
          cases hitem : items[position]? with
          | none => exact Stays.same hvalue
          | some item =>
            refine Stays.inArray hitem hvalue ?_
            rintro more rfl
            rw [List.prefix_cons_inj] at hother
            rw [Option.bind_some, getSteps?_index, hitem] at hvalue
            exact ih hother hvalue
        | _ => exact Stays.same hvalue

/-- A writer leaves what its path does not touch, and the keys of the objects on its way. -/
theorem write_stays {α : Type} {document value : Json} {path other : FieldPath} (action : Action α)
    (hother : ¬ path.steps <+: other.steps) (hvalue : document.get? other = some value) :
    Stays path.steps other.steps value (some (document.write path action).2) := by
  by_cases hdocument : document = null
  · subst hdocument
    obtain ⟨rfl, rfl⟩ := eq_root_of_get?_null hvalue
    exact ⟨_, rfl, nofun, fun h ↦ absurd List.nil_prefix h⟩
  · have hwalk : Stays path.steps other.steps value
        (walk path action [] path.steps (some document)).2 := walk_stays path action hother hvalue
    obtain ⟨left, hleft, hstays⟩ := hwalk
    refine ⟨left, ?_, hstays⟩
    rw [write, Place.ofDocument_eq_some hdocument]
    exact Stays.read_getD hleft

/-- Below a layer, too, objects that are still there have kept their keys in front. Items of arrays
are not looked at, as an array is replaced as a whole. -/
theorem keys_prefix_of_overlay {names : List String} {old layer : Json} {members more : Members}
    (hlayer : layer.WellFormed) (hold : getSteps? (names.map Step.key) old = some (object members))
    (hnew : getSteps? (names.map Step.key) (old.overlay layer) = some (object more)) :
    members.keys <+: more.keys := by
  induction names generalizing old layer with
  | nil =>
    cases hold
    cases layer with
    | object fields =>
      cases hnew
      rw [Members.keys, Members.keys, map_fst_overlayMembers hlayer.nodup]
      exact List.prefix_append _ _
    | _ => cases hnew
  | cons name rest ih =>
    obtain ⟨outer, inner, rfl, hinner, hrest⟩ := eq_object_of_getSteps?_key hold
    cases layer with
    | object fields =>
      have hlaid := get?_overlayMembers hlayer.nodup outer name
      rw [hinner] at hlaid
      rw [List.map_cons, overlay, getSteps?_key, Json.members, hlaid] at hnew
      cases hfield : Members.get? fields name with
      | none =>
        rw [hfield] at hnew
        cases hrest.symm.trans hnew
        exact List.prefix_rfl
      | some field =>
        rw [hfield] at hnew
        exact ih (hlayer.member hfield) hrest hnew
    | _ => cases hnew

/-! ## Outcomes -/

/-- The objects at a path and inside it keep their keys in front, in their order, as far as they are
still objects. -/
def KeepsInside (path : FieldPath) (document after : Json) : Prop :=
  ∀ (names : List String) (members more : Members),
    document.get? (path.join (.ofKeys names)) = some (object members) →
    after.get? (path.join (.ofKeys names)) = some (object more) → members.keys <+: more.keys

/-- What writing at a path leaves as it was. -/
structure Untouched (path : FieldPath) (document after : Json) : Prop where
  /-- What neither contains the place nor lies inside it reads the same. -/
  elsewhere : ∀ other value, document.get? other = some value → ¬ other.steps <+: path.steps →
    ¬ path.steps <+: other.steps → after.get? other = some value
  /-- Objects around the place and beside it keep their keys in front, in their order. -/
  around : ∀ (other : FieldPath) (members : Members), document.get? other = some (object members) →
    ¬ path.steps <+: other.steps →
    ∃ more : Members, after.get? other = some (object more) ∧ members.keys <+: more.keys
  inside : KeepsInside path document after

/-- What comes of writing at a path: when it succeeds, what it answers and leaves there then, and
with what it fails otherwise. -/
structure Outcome {α : Type} (document : Json) (path : FieldPath)
    (written : Except Failure α × Json) (succeeds : Prop) (leaves : α → Json → Prop)
    (failsWith : Failure → Prop) : Prop where
  ok_iff : (∃ answer, written.1 = .ok answer) ↔ succeeds
  leaves : ∀ answer, written.1 = .ok answer →
    ∃ left, written.2.get? path = some left ∧ leaves answer left
  untouched : ∀ answer, written.1 = .ok answer → Untouched path document written.2
  failsWith : ∀ failure, written.1 = .error failure → failsWith failure

section Outcomes

variable {document found value : Json} {path front : FieldPath}

/-- The failure of setting at a path that leads to a value. -/
def setFailure (path : FieldPath) (found : Json) : Failure :=
  if found.kind = .array then .mismatch path .single .array else .occupied path

theorem fill_some (path : FieldPath) (value found : Json) :
    (fill path value (some found)).1 = .error (setFailure path found) := by
  cases found <;> rfl

theorem untouched_of_write {α : Type} {action : Action α}
    (hinside : KeepsInside path document (document.write path action).2) :
    Untouched path document (document.write path action).2 where
  elsewhere := by
    intro other value hvalue hother hpath
    obtain ⟨left, hleft, -, hexact⟩ := write_stays action hpath hvalue
    rw [← hexact hother]
    exact hleft
  around := by
    intro other members hmembers hpath
    obtain ⟨left, hleft, hkeys, -⟩ := write_stays action hpath hmembers
    obtain ⟨more, rfl, hprefix⟩ := hkeys members rfl
    exact ⟨more, hleft, hprefix⟩
  inside := hinside

/-- Where the path leads to no value, nothing can be read inside it either. -/
theorem keepsInside_of_get?_eq_none (h : document.get? path = none) (after : Json) :
    KeepsInside path document after := by
  intro names members more hmembers
  rw [get?_join, h] at hmembers
  cases hmembers

/-- Where a writer is barred, keys cannot be created. -/
theorem Bars.not_canCreate {failure : Failure} (h : document.ReachesTo path front found)
    (hbars : document.Bars path front found failure) : ¬ document.CanCreate path front found := by
  intro hcreate
  have hfilled := write_fst_of_canCreate (fill path null) h hcreate
  rw [write_fst_of_bars (fill path null) h hbars] at hfilled
  cases hfilled

/-- Where a writer is barred, the path does not end at the front. -/
theorem Bars.front_ne {failure : Failure} (hbars : document.Bars path front found failure) :
    front ≠ path := by
  rintro rfl
  cases hbars with
  | created hnames hpath => simp [FieldPath.join, FieldPath.ofKeys] at hpath
  | key hpath => simp at hpath
  | index hpath => simp at hpath
  | outOfBounds hpath => simp at hpath

/-- A writer's outcome from that of its action, at the value that the path leads to or at a vacant
place. -/
theorem outcome_of_action {α : Type} {action : Action α} {succeeds : Prop}
    {leaves : α → Json → Prop} {failsWith : Failure → Prop} (hpath : path ≠ .root)
    (h : document.ReachesTo path front found)
    (hvacant : ∃ answer, (action none).1 = .ok answer)
    (hsucceeds : succeeds ↔ document.CanCreate path front found ∨
      front = path ∧ ∃ answer, (action (some found)).1 = .ok answer)
    (hfailsWith : ∀ failure, document.Bars path front found failure ∨
      front = path ∧ (action (some found)).1 = .error failure → failsWith failure)
    (hleaves : ∀ answer, (document.write path action).1 = .ok answer →
      ∃ left, (document.write path action).2.get? path = some left ∧ leaves answer left)
    (hinside : ∀ answer, (document.write path action).1 = .ok answer →
      KeepsInside path document (document.write path action).2) :
    Outcome document path (document.write path action) succeeds leaves failsWith where
  ok_iff := by
    rw [hsucceeds]
    rcases h.cases with rfl | hcreate | ⟨failure, hbars⟩
    · rw [write_fst_of_get? action hpath h.reads]
      refine ⟨fun hok ↦ Or.inr ⟨rfl, hok⟩, ?_⟩
      rintro (hcreate | ⟨-, hok⟩)
      · exact absurd rfl hcreate.1
      · exact hok
    · rw [write_fst_of_canCreate action h hcreate]
      exact ⟨fun _ ↦ Or.inl hcreate, fun _ ↦ hvacant⟩
    · rw [write_fst_of_bars action h hbars]
      refine ⟨fun ⟨_, hanswer⟩ ↦ (nomatch hanswer), ?_⟩
      rintro (hcreate | ⟨hfront, -⟩)
      · exact absurd hcreate (hbars.not_canCreate h)
      · exact absurd hfront hbars.front_ne
  leaves := hleaves
  untouched answer hanswer := untouched_of_write (hinside answer hanswer)
  failsWith failure hfailure := by
    apply hfailsWith
    rcases h.cases with rfl | hcreate | ⟨barring, hbars⟩
    · rw [write_fst_of_get? action hpath h.reads] at hfailure
      exact Or.inr ⟨rfl, hfailure⟩
    · obtain ⟨answer, hanswer⟩ := hvacant
      rw [write_fst_of_canCreate action h hcreate, hanswer] at hfailure
      cases hfailure
    · rw [write_fst_of_bars action h hbars] at hfailure
      cases hfailure
      exact Or.inl hbars

theorem set_outcome (hpath : path ≠ .root) (h : document.ReachesTo path front found)
    (value : Json) :
    Outcome document path (document.set path value) (document.CanCreate path front found)
      (fun _ left ↦ left = value)
      (fun failure ↦ document.Bars path front found failure ∨
        front = path ∧ failure = setFailure path found) := by
  have hfails : (fill path value (some found)).1 = .error (setFailure path found) :=
    fill_some path value found
  apply outcome_of_action hpath h ⟨(), rfl⟩
  · rw [hfails]
    simp
  · rw [hfails]
    rintro failure (hbars | ⟨hfront, heq⟩)
    · exact Or.inl hbars
    · cases heq
      exact Or.inr ⟨hfront, rfl⟩
  · intro answer hanswer
    have hset : document.set path value = (.ok answer, (document.set path value).2) :=
      Prod.ext hanswer rfl
    exact ⟨value, get?_of_set hset, rfl⟩
  · intro answer hanswer
    refine keepsInside_of_get?_eq_none ?_ _
    cases hget : document.get? path with
    | none => rfl
    | some old =>
      rw [write_fst_of_get? _ hpath hget, fill_some] at hanswer
      cases hanswer

/-- Only the root path finds something in the document that counts as vacant. -/
theorem bind_ofDocument (hpath : path ≠ .root) (document : Json) :
    (Place.ofDocument document).bind (getSteps? path.steps) = document.get? path := by
  by_cases hdocument : document = null
  · subst hdocument
    cases hget : null.get? path with
    | none => rfl
    | some value => exact absurd (eq_root_of_get?_null hget).1 hpath
  · rw [Place.ofDocument_eq_some hdocument]
    rfl

theorem append_outcome (hpath : path ≠ .root) (h : document.ReachesTo path front found)
    (value : Json) :
    Outcome document path (document.append path value)
      (document.CanCreate path front found ∨ front = path ∧ found.kind = .array)
      (fun answer left ↦ ∃ items, (document.get? path = none ∧ items = [] ∨
        document.get? path = some (array items)) ∧
        answer = items.length ∧ left = array (items ++ [value]))
      (fun failure ↦ document.Bars path front found failure ∨
        front = path ∧ found.kind ≠ .array ∧ failure = .mismatch path .many found.kind) := by
  have hitems (answer : Nat) (hanswer : (document.append path value).1 = .ok answer) :
      ∃ items, (document.get? path = none ∧ items = [] ∨
        document.get? path = some (array items)) ∧
        answer = items.length ∧
          (document.append path value).2.get? path = some (array (items ++ [value])) := by
    have happend : document.append path value = (.ok answer, (document.append path value).2) :=
      Prod.ext hanswer rfl
    rw [← bind_ofDocument hpath document]
    exact items_of_append happend
  apply outcome_of_action hpath h ⟨0, rfl⟩
  · cases found <;> simp [addItem, Json.kind]
  · rintro failure (hbars | ⟨hfront, heq⟩)
    · exact Or.inl hbars
    · refine Or.inr ⟨hfront, ?_⟩
      cases found with
      | array items => cases heq
      | _ =>
        cases heq
        exact ⟨by simp [Json.kind], rfl⟩
  · intro answer hanswer
    obtain ⟨items, hplace, hanswer, hleft⟩ := hitems answer hanswer
    exact ⟨_, hleft, items, hplace, hanswer, rfl⟩
  · intro answer hanswer names members more hmembers hmore
    obtain ⟨items, ⟨hnone, -⟩ | hsome, -, hleft⟩ := hitems answer hanswer
    · exact keepsInside_of_get?_eq_none hnone _ names members more hmembers hmore
    · rw [get?_join, hsome] at hmembers
      cases names <;> cases hmembers

theorem mergeAt_outcome (hpath : path ≠ .root) (h : document.ReachesTo path front found)
    (hvalue : value.WellFormed) :
    Outcome document path (document.mergeAt path value)
      (document.CanCreate path front found ∨ front = path)
      (fun _ left ↦ left = ((document.get? path).getD null).overlay value)
      (document.Bars path front found) := by
  have hlaid (answer : Unit) (hanswer : (document.mergeAt path value).1 = .ok answer) :
      (document.mergeAt path value).2.get? path =
        some (((document.get? path).getD null).overlay value) :=
    get?_of_mergeAt (Prod.ext hanswer rfl)
  apply outcome_of_action hpath h ⟨(), rfl⟩
  · simp [layOver]
  · rintro failure (hbars | ⟨-, heq⟩)
    · exact hbars
    · cases heq
  · intro answer hanswer
    exact ⟨_, hlaid answer hanswer, rfl⟩
  · intro answer hanswer names members more hmembers hmore
    rw [get?_join, Option.bind_eq_some_iff] at hmembers
    obtain ⟨old, hold, hmembers⟩ := hmembers
    have hnew : (((document.get? path).getD null).overlay value).get? (.ofKeys names) =
        some (object more) := by
      rw [← hmore, get?_join]
      change _ = ((document.mergeAt path value).2.get? path).bind _
      rw [hlaid answer hanswer, Option.bind_some]
    rw [hold] at hnew
    exact keys_prefix_of_overlay hvalue hmembers hnew

/-- The three writers, by the longest front of their path that leads to a value. Setting works
exactly where keys can be created, appending also at an array and laying over at any value. -/
theorem writers_exact {path : FieldPath} (hpath : path ≠ .root) {value : Json}
    (hvalue : value.WellFormed) (document : Json) :
    ∃ front found, document.ReachesTo path front found ∧
      Outcome document path (document.set path value) (document.CanCreate path front found)
        (fun _ left ↦ left = value)
        (fun failure ↦ document.Bars path front found failure ∨
          front = path ∧ failure = setFailure path found) ∧
      Outcome document path (document.append path value)
        (document.CanCreate path front found ∨ front = path ∧ found.kind = .array)
        (fun answer left ↦ ∃ items, (document.get? path = none ∧ items = [] ∨
          document.get? path = some (array items)) ∧
          answer = items.length ∧ left = array (items ++ [value]))
        (fun failure ↦ document.Bars path front found failure ∨
          front = path ∧ found.kind ≠ .array ∧ failure = .mismatch path .many found.kind) ∧
      Outcome document path (document.mergeAt path value)
        (document.CanCreate path front found ∨ front = path)
        (fun _ left ↦ left = ((document.get? path).getD null).overlay value)
        (document.Bars path front found) := by
  obtain ⟨front, found, h⟩ := exists_reachesTo document path
  exact ⟨front, found, h, set_outcome hpath h value, append_outcome hpath h value,
    mergeAt_outcome hpath h hvalue⟩

/-- The first label of a document can be set, and appended as the first item of a list, and its kind
laid over, each of which leaves the rest; setting the kind fails, as it is there already. -/
theorem writers_exact_label :
    let document := object [("kind", string "Pod")]
    let label := FieldPath.ofKeys ["labels", "app"]
    let kind := FieldPath.ofKeys ["kind"]
    let value := string "web"
    label ≠ .root ∧ kind ≠ .root ∧ value.WellFormed ∧
      ((document.set label value).1 = .ok () ∧
        (document.set label value).2.get? label = some value ∧
        Untouched label document (document.set label value).2) ∧
      ((document.append label value).1 = .ok 0 ∧
        (document.append label value).2.get? label = some (array [value]) ∧
        Untouched label document (document.append label value).2) ∧
      ((document.mergeAt kind value).1 = .ok () ∧
        (document.mergeAt kind value).2.get? kind = some value ∧
        Untouched kind document (document.mergeAt kind value).2) ∧
      (document.set kind value).1 = .error (.occupied kind) ∧
      ∃ front found, document.ReachesTo kind front found ∧
        (document.Bars kind front found (.occupied kind) ∨
          front = kind ∧ .occupied kind = setFailure kind found) := by
  intro document label kind value
  have hlabel : label ≠ .root := by decide
  have hkind : kind ≠ .root := by decide
  have hvalue : value.WellFormed := trivial
  obtain ⟨_, _, -, hset, happend, -⟩ := writers_exact hlabel hvalue document
  obtain ⟨front, found, hreaches, hsetKind, -, hmerge⟩ := writers_exact hkind hvalue document
  have hfirst : (document.append label value).2.get? label = some (array [value]) := by
    obtain ⟨left, hleft, items, -, hlength, rfl⟩ := happend.leaves 0 rfl
    rw [List.length_eq_zero_iff.mp hlength.symm] at hleft
    exact hleft
  have hlaid : (document.mergeAt kind value).2.get? kind = some value := by
    obtain ⟨left, hleft, rfl⟩ := hmerge.leaves () rfl
    exact hleft
  have hput : (document.set label value).2.get? label = some value := by
    obtain ⟨left, hleft, rfl⟩ := hset.leaves () rfl
    exact hleft
  exact ⟨hlabel, hkind, hvalue, ⟨rfl, hput, hset.untouched () rfl⟩,
    ⟨rfl, hfirst, happend.untouched 0 rfl⟩, ⟨rfl, hlaid, hmerge.untouched () rfl⟩, rfl,
    front, found, hreaches, hsetKind.failsWith _ rfl⟩

end Outcomes

end ManifestTree.Json
