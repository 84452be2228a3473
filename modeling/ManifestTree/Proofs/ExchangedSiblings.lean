import ManifestTree.Proofs.ArrayOrder
import ManifestTree.Proofs.EarlyPasses
import ManifestTree.Proofs.Judging
import ManifestTree.Proofs.MatchingPasses

/-!
# Siblings at places apart may be exchanged

Two elements next to each other below one element, whose relations lead to paths of which neither is
a prefix of the other, may come in either order: the tree composes or fails as before, and its
documents are the same up to the order of keys. Both writes may create objects on their way, so the
two runs go through documents with different key orders; that difference stays one in the order of
keys alone. Trees with transforms are left out, and so is which of several failures ends a pass.
-/

namespace ManifestTree

open Json

/-! ## Trees with two siblings exchanged -/

mutual

/-- The second node is the first one with two elements exchanged that stand next to each other
below an element and that the relations place apart. Outside every element there is no parent.
Components are read as they render with these supplies. -/
inductive Node.Exchanged (relations : Relations) (supplies : Supplies) :
    Option TypeName → Node → Node → Prop where
  | fragment {parent : Option TypeName} {children others : List Node}
      (h : Node.AnyExchanged relations supplies parent children others) :
      Node.Exchanged relations supplies parent (.fragment children) (.fragment others)
  | element {parent : Option TypeName} {type : TypeName} {props : Members} {tag : Option String}
      {children others : List Node}
      (h : Node.AnyExchanged relations supplies (some type) children others) :
      Node.Exchanged relations supplies parent (.element type props tag children)
        (.element type props tag others)
  | literal {parent : Option TypeName} {path : FieldPath} {value : Option Json} {isItem : Bool}
      {children others : List Node}
      (h : Node.AnyExchanged relations supplies parent children others) :
      Node.Exchanged relations supplies parent (.literal path value isItem children)
        (.literal path value isItem others)
  | component {parent : Option TypeName} {name : String} {script other : Script}
      (h : Script.Exchanged relations supplies parent script other) :
      Node.Exchanged relations supplies parent (.component name script) (.component name other)

/-- Two elements are exchanged in one of the nodes, or next to each other among them. -/
inductive Node.AnyExchanged (relations : Relations) (supplies : Supplies) :
    Option TypeName → List Node → List Node → Prop where
  | here {parent type second : TypeName} {props more : Members} {tag label : Option String}
      {children others rest : List Node} {relation other : Relation}
      (hrelation : relations.resolve parent type tag = .ok relation)
      (hother : relations.resolve parent second label = .ok other)
      (hapart : Apart relation.path.steps other.path.steps) :
      Node.AnyExchanged relations supplies (some parent)
        (.element type props tag children :: .element second more label others :: rest)
        (.element second more label others :: .element type props tag children :: rest)
  | head {parent : Option TypeName} {node other : Node} {rest : List Node}
      (h : Node.Exchanged relations supplies parent node other) :
      Node.AnyExchanged relations supplies parent (node :: rest) (other :: rest)
  | tail {parent : Option TypeName} {node : Node} {rest others : List Node}
      (h : Node.AnyExchanged relations supplies parent rest others) :
      Node.AnyExchanged relations supplies parent (node :: rest) (node :: others)

/-- Two elements are exchanged in the tree that the script yields. -/
inductive Script.Exchanged (relations : Relations) (supplies : Supplies) :
    Option TypeName → Script → Script → Prop where
  | yield {parent : Option TypeName} {node other : Node}
      (h : Node.Exchanged relations supplies parent node other) :
      Script.Exchanged relations supplies parent (.yield node) (.yield other)
  | read {parent : Option TypeName} {handle : Handle} {next other : Option Json → Script}
      (h : Script.Exchanged relations supplies parent (next (supplies.value? handle))
        (other (supplies.value? handle))) :
      Script.Exchanged relations supplies parent (.read handle next) (.read handle other)
  | require {parent : Option TypeName} {message : String} {check : Supplies → Bool}
      {next other : Script} (h : Script.Exchanged relations supplies parent next other) :
      Script.Exchanged relations supplies parent (.require message check next)
        (.require message check other)

end

/-! ## Writers at places apart -/

namespace Association

variable {κ ν : Type} [DecidableEq κ]

/-- Of two values inserted at one key, the second one stays. -/
theorem insert_insert_self (key : κ) (first second : ν) (entries : Association κ ν) :
    insert key second (insert key first entries) = insert key second entries := by
  induction entries with
  | nil => simp [insert]
  | cons entry rest ih =>
    rcases entry with ⟨name, value⟩
    by_cases hname : name = key
    · simp [insert, hname]
    · simp [insert, hname, ih]

end Association

namespace Json

/-- Members inserted at two keys match in either order. -/
theorem matches_insert_comm {members : Members} {name other : String} {value found : Json}
    (h : (object members).WellFormed) (hvalue : value.WellFormed) (hfound : found.WellFormed)
    (hname : name ≠ other) :
    (object ((members.insert name value).insert other found)).Matches
      (object ((members.insert other found).insert name value)) := by
  have hleft := (h.insert hvalue name).insert hfound other
  have hright := (h.insert hfound other).insert hvalue name
  refine matches_object_iff.mpr ⟨hleft.nodup, hright.nodup, fun key ↦ ?_⟩
  have hget : ((members.insert name value).insert other found).get? key =
      ((members.insert other found).insert name value).get? key := by
    simp only [Members.get?, Members.insert, Association.get?_insert]
    by_cases hkey : other = key
    · subst hkey
      simp [hname]
    · simp [hkey]
  rw [← hget]
  cases hread : ((members.insert name value).insert other found).get? key with
  | none => exact .none
  | some inner => exact .some (.refl (hleft.member hread))

theorem Place.WellFormed.of_holds {place : Place} {members : Members} (h : place.WellFormed)
    (hholds : place.Holds members) : (object members).WellFormed := by
  rcases hholds with ⟨-, rfl⟩ | rfl
  · exact ⟨List.nodup_nil, trivial⟩
  · exact h _ rfl

section Walk

variable {α β : Type} {path target : FieldPath} {action : Action α} {other : Action β}
  {taken rest : List Step} {answer : α} {place after : Place}

/-- A walk behind a key succeeds in an object, or where there is nothing yet. -/
theorem walk_key_eq_ok_iff (hadds : action.OnlyAdds) (name : String) :
    walk path action taken (.key name :: rest) place = (.ok answer, after) ↔
      ∃ members value, place.Holds members ∧
        walk path action (taken ++ [.key name]) rest (members.get? name) =
          (.ok answer, some value) ∧
        after = some (object (members.insert name value)) := by
  have hmember {members : Members} (hholds : place.Holds members) :
      place.member name = members.get? name := by
    rcases hholds with ⟨rfl, rfl⟩ | rfl <;> rfl
  constructor
  · intro h
    obtain ⟨members, hholds⟩ := walk_key_eq_ok h
    rw [walk_key hholds, hmember hholds] at h
    rcases hwalk : walk path action (taken ++ [.key name]) rest (members.get? name)
      with ⟨outcome, inner⟩
    rw [hwalk] at h
    cases h
    obtain ⟨value, rfl, -⟩ := walk_reached hadds hwalk
    exact ⟨members, value, hholds, hwalk, rfl⟩
  · rintro ⟨members, value, hholds, hwalk, rfl⟩
    rw [walk_key hholds, hmember hholds, hwalk]
    rfl

/-- A walk behind an index succeeds at an item of an array. -/
theorem walk_index_eq_ok_iff (hadds : action.OnlyAdds) (position : Nat) :
    walk path action taken (.index position :: rest) place = (.ok answer, after) ↔
      ∃ items item value, place = some (array items) ∧ items[position]? = some item ∧
        walk path action (taken ++ [.index position]) rest (some item) =
          (.ok answer, some value) ∧
        after = some (array (items.set position value)) := by
  constructor
  · intro h
    cases place with
    | none => cases h
    | some document =>
      cases document with
      | array items =>
        rw [walk] at h
        cases hitem : items[position]? with
        | none =>
          rw [hitem] at h
          cases h
        | some item =>
          rcases hwalk : walk path action (taken ++ [.index position]) rest (some item)
            with ⟨outcome, inner⟩
          simp only [hitem, hwalk] at h
          cases h
          obtain ⟨value, rfl, -⟩ := walk_reached hadds hwalk
          exact ⟨items, item, value, rfl, hitem, hwalk, rfl⟩
      | _ => cases h
  · rintro ⟨items, item, value, rfl, hitem, hwalk, rfl⟩
    simp only [walk, hitem, hwalk]
    rfl

end Walk

/-- From a place the second writer may as well go first: both succeed, and they leave what matches
the given place. -/
def Action.MayFollow {α β : Type} (action : Action α) (other : Action β) (place : Place)
    (answer : α) (last : β) (after : Place) : Prop :=
  ∃ between result, other place = (.ok last, between) ∧ action between = (.ok answer, result) ∧
    after.Matches result

section Exchange

variable {α β : Type} {path target : FieldPath} {action : Action α} {other : Action β}
  {taken rest more : List Step} {answer : α} {last : β}

/-- Behind one key. -/
theorem mayFollow_member (hadds : action.OnlyAdds) (hother : other.OnlyAdds) {name : String}
    {place : Place} {members : Members} {value found : Json} (hholds : place.Holds members)
    (hwf : (object members).WellFormed)
    (h : Action.MayFollow (walk path action (taken ++ [.key name]) rest)
      (walk target other (taken ++ [.key name]) more) (members.get? name) answer last
      (some found)) :
    Action.MayFollow (walk path action taken (.key name :: rest))
      (walk target other taken (.key name :: more)) place answer last
      (some (object ((members.insert name value).insert name found))) := by
  obtain ⟨between, result, hbetween, hresult, hmatches⟩ := h
  obtain ⟨inner, rfl, -⟩ := walk_reached hother hbetween
  obtain ⟨final, rfl, -⟩ := walk_reached hadds hresult
  refine ⟨_, _, (walk_key_eq_ok_iff hother name).mpr ⟨members, inner, hholds, hbetween, rfl⟩,
    (walk_key_eq_ok_iff hadds name).mpr ⟨_, final, .inr rfl, ?_, rfl⟩, .some ?_⟩
  · rw [Members.get?, Members.insert, Association.get?_insert_self]
    exact hresult
  · simp only [Members.insert, Association.insert_insert_self]
    cases hmatches with
    | some hvalues => exact (Matches.refl hwf).insert hvalues name

/-- Behind different keys. -/
theorem mayFollow_members (hadds : action.OnlyAdds) (hother : other.OnlyAdds)
    {name key : String} (hname : name ≠ key) {place : Place} {members : Members}
    {value found : Json} (hholds : place.Holds members) (hwf : (object members).WellFormed)
    (hvalue : walk path action (taken ++ [.key name]) rest (members.get? name) =
      (.ok answer, some value))
    (hfound : walk target other (taken ++ [.key key]) more (members.get? key) =
      (.ok last, some found)) (hvalueWF : value.WellFormed) (hfoundWF : found.WellFormed) :
    Action.MayFollow (walk path action taken (.key name :: rest))
      (walk target other taken (.key key :: more)) place answer last
      (some (object ((members.insert name value).insert key found))) := by
  refine ⟨_, _, (walk_key_eq_ok_iff hother key).mpr ⟨members, found, hholds, hfound, rfl⟩,
    (walk_key_eq_ok_iff hadds name).mpr ⟨_, value, .inr rfl, ?_, rfl⟩, .some ?_⟩
  · rw [Members.get?, Members.insert, Association.get?_insert_of_ne (Ne.symm hname)]
    exact hvalue
  · exact matches_insert_comm hwf hvalueWF hfoundWF hname

/-- Behind one index. -/
theorem mayFollow_item (hadds : action.OnlyAdds) (hother : other.OnlyAdds) {position : Nat}
    {items : List Json} {item value found : Json} (hitem : items[position]? = some item)
    (hwf : (array items).WellFormed)
    (h : Action.MayFollow (walk path action (taken ++ [.index position]) rest)
      (walk target other (taken ++ [.index position]) more) (some item) answer last
      (some found)) :
    Action.MayFollow (walk path action taken (.index position :: rest))
      (walk target other taken (.index position :: more)) (some (array items)) answer last
      (some (array ((items.set position value).set position found))) := by
  obtain ⟨between, result, hbetween, hresult, hmatches⟩ := h
  obtain ⟨inner, rfl, -⟩ := walk_reached hother hbetween
  obtain ⟨final, rfl, -⟩ := walk_reached hadds hresult
  refine ⟨_, _,
    (walk_index_eq_ok_iff hother position).mpr ⟨items, item, inner, rfl, hitem, hbetween, rfl⟩,
    (walk_index_eq_ok_iff hadds position).mpr
      ⟨_, inner, final, rfl, getElem?_set_of_getElem? hitem _, hresult, rfl⟩, .some ?_⟩
  rw [List.set_set, List.set_set]
  cases hmatches with
  | some hvalues =>
    exact matches_array_iff.mpr (matches_set (matches_array_iff.mp (.refl hwf)) hvalues position)

/-- Behind different indices. -/
theorem mayFollow_items (hadds : action.OnlyAdds) (hother : other.OnlyAdds)
    {position index : Nat} (hposition : position ≠ index) {items : List Json}
    {item old value found : Json} (hitem : items[position]? = some item)
    (hold : items[index]? = some old)
    (hvalue : walk path action (taken ++ [.index position]) rest (some item) =
      (.ok answer, some value))
    (hfound : walk target other (taken ++ [.index index]) more (some old) =
      (.ok last, some found))
    (hwf : (array ((items.set position value).set index found)).WellFormed) :
    Action.MayFollow (walk path action taken (.index position :: rest))
      (walk target other taken (.index index :: more)) (some (array items)) answer last
      (some (array ((items.set position value).set index found))) := by
  refine ⟨_, _,
    (walk_index_eq_ok_iff hother index).mpr ⟨items, old, found, rfl, hold, hfound, rfl⟩,
    (walk_index_eq_ok_iff hadds position).mpr ⟨_, item, value, rfl, ?_, hvalue, rfl⟩, .some ?_⟩
  · rw [List.getElem?_set_ne (Ne.symm hposition)]
    exact hitem
  · rw [List.set_comm _ _ (Ne.symm hposition)]
    exact .refl hwf

/-- Two writers that go to places apart may go in either order. -/
theorem walk_mayFollow (hadds : action.OnlyAdds) (hother : other.OnlyAdds)
    (hkeeps : action.KeepsWellFormed) (hotherKeeps : other.KeepsWellFormed) {steps : List Step} :
    ∀ {others : List Step} (taken : List Step) {place middle after : Place},
    Apart steps others → place.WellFormed →
    walk path action taken steps place = (.ok answer, middle) →
    walk target other taken others middle = (.ok last, after) →
    Action.MayFollow (walk path action taken steps) (walk target other taken others) place answer
      last after := by
  induction steps with
  | nil => exact fun _ _ _ _ hapart ↦ absurd List.nil_prefix hapart.1
  | cons step rest ih =>
    intro others taken place middle after hapart hwf hfirst hsecond
    obtain ⟨front, more, rfl⟩ := List.exists_cons_of_ne_nil hapart.ne_nil
    have hafter := walk_wellFormed hotherKeeps (walk_wellFormed hkeeps hwf hfirst) hsecond
    cases step with
    | key name =>
      obtain ⟨members, value, hholds, hvalue, rfl⟩ := (walk_key_eq_ok_iff hadds name).mp hfirst
      have hmembers := hwf.of_holds hholds
      have hmember (key : String) : Place.WellFormed (members.get? key) := fun _ ↦ hmembers.member
      cases front with
      | index position => cases hsecond
      | key key =>
        obtain ⟨inserted, found, hinserted, hfound, rfl⟩ :=
          (walk_key_eq_ok_iff hother key).mp hsecond
        have heq : inserted = members.insert name value := by
          rcases hinserted with ⟨h, -⟩ | h <;> cases h
          rfl
        subst heq
        by_cases hname : name = key
        · subst hname
          rw [Members.get?, Members.insert, Association.get?_insert_self] at hfound
          exact mayFollow_member hadds hother hholds hmembers
            (ih _ hapart.of_cons (hmember name) hvalue hfound)
        · rw [Members.get?, Members.insert, Association.get?_insert_of_ne hname] at hfound
          exact mayFollow_members hadds hother hname hholds hmembers hvalue hfound
            (walk_wellFormed hkeeps (hmember name) hvalue _ rfl)
            (walk_wellFormed hotherKeeps (hmember key) hfound _ rfl)
    | index position =>
      obtain ⟨items, item, value, rfl, hitem, hvalue, rfl⟩ :=
        (walk_index_eq_ok_iff hadds position).mp hfirst
      have hitems : (array items).WellFormed := hwf _ rfl
      cases front with
      | key key => cases hsecond
      | index index =>
        obtain ⟨_, old, found, heq, hold, hfound, rfl⟩ :=
          (walk_index_eq_ok_iff hother index).mp hsecond
        cases heq
        by_cases hposition : position = index
        · subst hposition
          rw [getElem?_set_of_getElem? hitem] at hold
          cases hold
          exact mayFollow_item hadds hother hitem hitems
            (ih _ hapart.of_cons (Place.wellFormed_some (hitems.item hitem)) hvalue hfound)
        · rw [List.getElem?_set_ne hposition] at hold
          exact mayFollow_items hadds hother hposition hitem hold hvalue hfound (hafter _ rfl)

end Exchange

/-- A walk along some step leaves a collection. -/
theorem walk_ne_null {α : Type} {path : FieldPath} {action : Action α} (hadds : action.OnlyAdds)
    {taken steps : List Step} {place : Place} {answer : α} {value : Json} (hsteps : steps ≠ [])
    (h : walk path action taken steps place = (.ok answer, some value)) : value ≠ null := by
  cases steps with
  | nil => exact absurd rfl hsteps
  | cons step rest =>
    rintro rfl
    cases step with
    | key name =>
      obtain ⟨_, _, -, -, heq⟩ := (walk_key_eq_ok_iff hadds name).mp h
      cases heq
    | index position =>
      obtain ⟨_, _, _, -, -, -, heq⟩ := (walk_index_eq_ok_iff hadds position).mp h
      cases heq

theorem write_eq_ok_iff {α : Type} {document after : Json} {path : FieldPath} {action : Action α}
    {answer : α} (hadds : action.OnlyAdds) :
    document.write path action = (.ok answer, after) ↔
      walk path action [] path.steps (Place.ofDocument document) = (.ok answer, some after) := by
  rcases hwalk : walk path action [] path.steps (Place.ofDocument document) with ⟨outcome, place⟩
  simp only [write, hwalk]
  constructor
  · intro h
    cases h
    obtain ⟨value, rfl, -⟩ := walk_reached hadds hwalk
    rfl
  · intro h
    cases h
    rfl

/-- Two writers at paths apart may write in either order. -/
theorem write_comm {α β : Type} {document middle after : Json} {path target : FieldPath}
    {action : Action α} {other : Action β} {answer : α} {last : β} (hadds : action.OnlyAdds)
    (hother : other.OnlyAdds) (hkeeps : action.KeepsWellFormed)
    (hotherKeeps : other.KeepsWellFormed) (hapart : Apart path.steps target.steps)
    (hdocument : document.WellFormed) (hfirst : document.write path action = (.ok answer, middle))
    (hsecond : middle.write target other = (.ok last, after)) :
    ∃ between result, document.write target other = (.ok last, between) ∧
      between.write path action = (.ok answer, result) ∧ after.Matches result := by
  have hplace : Place.WellFormed (Place.ofDocument document) := by
    intro value hvalue
    cases document <;> cases hvalue <;> exact hdocument
  rw [write_eq_ok_iff hadds] at hfirst
  rw [write_eq_ok_iff hother,
    Place.ofDocument_eq_some (walk_ne_null hadds hapart.symm.ne_nil hfirst)] at hsecond
  obtain ⟨place, found, hbetween, hresult, hmatches⟩ :=
    walk_mayFollow hadds hother hkeeps hotherKeeps [] hapart hplace hfirst hsecond
  obtain ⟨between, rfl, -⟩ := walk_reached hother hbetween
  obtain ⟨result, rfl, -⟩ := walk_reached hadds hresult
  refine ⟨between, result, (write_eq_ok_iff hother).mpr hbetween,
    (write_eq_ok_iff hadds).mpr ?_, ?_⟩
  · rwa [Place.ofDocument_eq_some (walk_ne_null hother hapart.ne_nil hbetween)]
  · cases hmatches with
    | some hvalues => exact hvalues

end Json

/-! ## Parts that end alike -/

namespace Weaving

variable {α β : Type}

/-- Parts each of which succeeds where the other one does end alike. -/
theorem EndsLike.of_succeedsLike {R : α → β → Prop} {S : β → α → Prop} {part : Weaving α}
    {other : Weaving β} (h : SucceedsLike R part other) (hback : SucceedsLike S other part) :
    EndsLike R part other := by
  intro log twin
  rcases hpart : exec part log with ⟨failure | answer, after⟩
  · rcases hother : exec other twin with ⟨failure' | answer', after'⟩
    · exact .failures _ _
    · obtain ⟨result, left, hresult, -⟩ := h twin log answer' after' hother
      rw [hpart] at hresult
      cases hresult
  · rcases hother : exec other twin with ⟨failure' | answer', after'⟩
    · obtain ⟨result, left, hresult, -⟩ := hback log twin answer after hpart
      rw [hother] at hresult
      cases hresult
    · obtain ⟨result, left, hresult, hR⟩ := h twin log answer' after' hother
      rw [hpart] at hresult
      cases hresult
      exact .answers hR

end Weaving

namespace Compose

open Weaving

variable {context : Context}

/-! ## Two elements exchanged -/

/-- Inside an element, a value is put by one writer. -/
theorem exists_writer (relation : Relation) (base : FieldPath) {value : Json}
    (hvalue : value.WellFormed) :
    ∃ (α : Type) (action : Action α), action.OnlyAdds ∧ action.KeepsWellFormed ∧
      ∀ document log, exec (putElement (some relation) base document value) log =
        ((document.write (base.join relation.path) action).1.map
          fun _ ↦ (document.write (base.join relation.path) action).2, log) := by
  have hwritten {α : Type} (action : Action α) (document : Json) (log : PassLog) :
      exec (do pure (← written (document.write (base.join relation.path) action)).2) log =
        ((document.write (base.join relation.path) action).1.map
          fun _ ↦ (document.write (base.join relation.path) action).2, log) := by
    rw [exec_bind, exec_written]
    rcases document.write (base.join relation.path) action with ⟨failure | answer, left⟩ <;> rfl
  unfold putElement
  dsimp only
  split
  · exact ⟨Nat, _, addItem_onlyAdds _ value, addItem_keepsWellFormed _ hvalue, hwritten _⟩
  · exact ⟨Unit, _, fill_onlyAdds _ value, fill_keepsWellFormed _ hvalue, hwritten _⟩

/-- Values put at places apart may be put in either order. -/
theorem putElement_comm {relation other : Relation} {base : FieldPath}
    {document value found middle after : Json} {log next left last : PassLog}
    (hapart : Apart relation.path.steps other.path.steps) (hdocument : document.WellFormed)
    (hvalue : value.WellFormed) (hfound : found.WellFormed)
    (hfirst : exec (putElement (some relation) base document value) log = (.ok middle, next))
    (hsecond : exec (putElement (some other) base middle found) left = (.ok after, last)) :
    ∃ between result,
      (∀ log, exec (putElement (some other) base document found) log = (.ok between, log)) ∧
      (∀ log, exec (putElement (some relation) base between value) log = (.ok result, log)) ∧
      after.Matches result := by
  obtain ⟨α, action, hadds, hkeeps, hput⟩ := exists_writer relation base hvalue
  obtain ⟨β, twin, hother, hotherKeeps, hputOther⟩ := exists_writer other base hfound
  have hwrite {γ : Type} {outcome : Except Failure γ × Json} {result : Json}
      {log after : PassLog}
      (h : (outcome.1.map fun _ ↦ outcome.2, log) = (.ok result, after)) :
      ∃ answer, outcome = (.ok answer, result) := by
    rcases outcome with ⟨failure | answer, left⟩
    · cases h
    · cases h
      exact ⟨answer, rfl⟩
  rw [hput] at hfirst
  rw [hputOther] at hsecond
  obtain ⟨answer, hfirst⟩ := hwrite hfirst
  obtain ⟨last, hsecond⟩ := hwrite hsecond
  have hplaces : Apart (base.join relation.path).steps (base.join other.path).steps := by
    simpa [Apart, FieldPath.join] using hapart
  obtain ⟨between, result, hbetween, hresult, hmatches⟩ :=
    write_comm hadds hother hkeeps hotherKeeps hplaces hdocument hfirst hsecond
  refine ⟨between, result, fun log ↦ ?_, fun log ↦ ?_, hmatches⟩
  · rw [hputOther, hbetween]
    rfl
  · rw [hput, hresult]
    rfl

theorem locate_of_resolve {enclosing : List TypeName} {parent type : TypeName}
    {tag : Option String} {relation : Relation} (henclosing : enclosing.getLast? = some parent)
    (h : context.schema.relations.resolve parent type tag = .ok relation) :
    locate context.schema enclosing type tag = .ok (some relation) := by
  rw [locate, henclosing]
  dsimp only
  rw [h]
  rfl

section Pair

variable {enclosing : List TypeName} {base : FieldPath} {document : Json}
  {type second : TypeName} {props more : Members} {tag label : Option String}
  {children others : List Node} {relation other : Relation}

/-- Where two elements compose at places apart, they do so in the other order as well. -/
theorem pair_succeedsLike
    (hlocate : locate context.schema enclosing type tag = .ok (some relation))
    (hother : locate context.schema enclosing second label = .ok (some other))
    (hapart : Apart relation.path.steps other.path.steps)
    (hwf : (Node.element type props tag children).WellFormed context.supplies)
    (hfree : (Node.element type props tag children).TransformFree context.supplies)
    (hotherWF : (Node.element second more label others).WellFormed context.supplies)
    (hotherFree : (Node.element second more label others).TransformFree context.supplies)
    (hdocument : document.WellFormed) :
    SucceedsLike Matches
      (do
        let left ← weave context enclosing base document (.element second more label others)
        weave context enclosing base left (.element type props tag children))
      (do
        let left ← weave context enclosing base document (.element type props tag children)
        weave context enclosing base left (.element second more label others)) := by
  intro log twin answer after hexec
  simp only [weave_element_eq, hlocate, hother] at hexec ⊢
  obtain ⟨middle, next, hfirst, hsecond⟩ := exec_bind_eq_ok_iff.mp hexec
  obtain ⟨_, _, hsettled, hfirst⟩ := exec_bind_eq_ok_iff.mp hfirst
  rw [exec_settleWith] at hsettled
  cases hsettled
  obtain ⟨value, _, hvalue, hput⟩ := exec_bind_eq_ok_iff.mp hfirst
  obtain ⟨_, _, hsettled, hsecond⟩ := exec_bind_eq_ok_iff.mp hsecond
  rw [exec_settleWith] at hsettled
  cases hsettled
  obtain ⟨found, _, hfound, hputOther⟩ := exec_bind_eq_ok_iff.mp hsecond
  obtain ⟨between, result, hbetween, hresult, hmatches⟩ :=
    putElement_comm hapart hdocument (element_answers hwf hfree _ _ _ hvalue)
      (element_answers hotherWF hotherFree _ _ _ hfound) hput hputOther
  have hagain {piece : Piece} {value : Json} (h : piece.Yields context enclosing value)
      (log : PassLog) : ∃ left, exec (piece.compose context enclosing) log = (.ok value, left) :=
    ⟨_, Prod.ext (h log) rfl⟩
  obtain ⟨left, hsecond⟩ := hagain (Piece.yields_of_exec hfound) twin
  obtain ⟨last, hfirst⟩ := hagain (Piece.yields_of_exec hvalue) left
  refine ⟨result, last, ?_, hmatches.symm⟩
  refine exec_bind_eq_ok_iff.mpr ⟨between, left, ?_, ?_⟩
  · rw [exec_bind_of_ok (exec_settleWith _ _), exec_bind_of_ok hsecond]
    exact hbetween left
  · rw [exec_bind_of_ok (exec_settleWith _ _), exec_bind_of_ok hfirst]
    exact hresult last

end Pair

/-! ## Trees -/

theorem bind_weave_weave {enclosing : List TypeName} {base : FieldPath} (document : Json)
    (node other : Node) (rest : List Node) :
    weaveAll context enclosing base document (node :: other :: rest) = (do
      let left ← (do
        let left ← weave context enclosing base document node
        weave context enclosing base left other)
      weaveAll context enclosing base left rest) := by
  simp only [weaveAll, bind_assoc]

mutual

/-- Exchanged siblings change what a node composes into a document in the order of keys alone. -/
theorem weave_exchanged {parent : Option TypeName} : ∀ (node : Node) {other : Node},
    Node.Exchanged context.schema.relations context.supplies parent node other →
    node.WellFormed context.supplies → node.TransformFree context.supplies →
    ∀ {enclosing : List TypeName} (base : FieldPath) {document twin : Json},
    enclosing.getLast? = parent → document.Matches twin →
    EndsLike Matches (weave context enclosing base document node)
      (weave context enclosing base twin other)
  | .fragment children, _, h, hwf, hfree, enclosing, base, _, _, henclosing, hdocument => by
    cases h with
    | fragment h =>
      rw [weave, weave]
      exact weaveAll_exchanged children h hwf hfree base henclosing hdocument
  | .element type props tag children, _, h, hwf, hfree, enclosing, base, _, _, henclosing,
      hdocument => by
    cases h with
    | element h =>
      rw [weave, weave]
      refine (EndsLike.settleWith _).bind ?_
      rintro relation _ ⟨rfl, -⟩
      refine (EndsLike.settleWith _).bind ?_
      rintro fields _ ⟨rfl, hexpand⟩
      have hfields := Matches.refl (FieldRules.expand_wellFormed hexpand hwf.1)
      exact (weaveAll_exchanged children h hwf.2 hfree .root (by simp) hfields).bind
        fun _ _ hvalue ↦ putElement_endsLike relation hdocument hvalue
  | .literal path value isItem children, _, h, hwf, hfree, enclosing, base, _, _, henclosing,
      hdocument => by
    cases h with
    | literal h =>
      rw [weave, weave]
      refine (putLiteral_endsLike isItem hdocument hwf.1).bind ?_
      rintro ⟨inner, document⟩ ⟨_, twin⟩ ⟨rfl, hinner⟩
      exact weaveAll_exchanged children h hwf.2 hfree inner henclosing hinner
  | .transform _ _, _, _, _, hfree, _, _, _, _, _, _ => hfree.elim
  | .component name script, _, h, hwf, hfree, enclosing, base, _, _, henclosing, hdocument => by
    cases h with
    | component h =>
      rw [weave, weave]
      exact (EndsLike.note _).bind fun _ _ _ ↦
        weaveScript_exchanged name script h hwf hfree base henclosing hdocument

theorem weaveAll_exchanged {parent : Option TypeName} : ∀ (nodes : List Node)
    {others : List Node},
    Node.AnyExchanged context.schema.relations context.supplies parent nodes others →
    Node.AllWellFormed context.supplies nodes → Node.AllTransformFree context.supplies nodes →
    ∀ {enclosing : List TypeName} (base : FieldPath) {document twin : Json},
    enclosing.getLast? = parent → document.Matches twin →
    EndsLike Matches (weaveAll context enclosing base document nodes)
      (weaveAll context enclosing base twin others)
  | [], _, h, _, _, _, _, _, _, _, _ => by cases h
  | node :: rest, _, h, hwf, hfree, enclosing, base, _, _, henclosing, hdocument => by
    cases h with
    | @here _ type second props more tag label children others last relation other hrelation
        hother hapart =>
      have hfirst := locate_of_resolve henclosing hrelation
      have hsecond := locate_of_resolve henclosing hother
      rw [bind_weave_weave, bind_weave_weave]
      have hforth := @pair_succeedsLike _ _ base _ _ _ _ _ _ _ _ _ _ _ hfirst hsecond hapart hwf.1
        hfree.1 hwf.2.1 hfree.2.1 hdocument.left
      have hexchange := EndsLike.of_succeedsLike (pair_succeedsLike hsecond hfirst hapart.symm
        hwf.2.1 hfree.2.1 hwf.1 hfree.1 hdocument.left) hforth
      have hagain := (weave_endsLike (.element second more label others) hwf.2.1 hfree.2.1
        enclosing base hdocument).bind fun _ _ hleft ↦
          weave_endsLike (.element type props tag children) hwf.1 hfree.1 enclosing base hleft
      have hpair : EndsLike Matches _ _ :=
        EndsLike.trans (S := Matches) (fun _ _ _ ↦ Matches.trans) hexchange hagain
      exact hpair.bind fun _ _ hleft ↦
        weaveAll_endsLike last hwf.2.2 hfree.2.2 enclosing base hleft
    | head h =>
      rw [weaveAll, weaveAll]
      exact (weave_exchanged node h hwf.1 hfree.1 base henclosing hdocument).bind fun _ _ hleft ↦
        weaveAll_endsLike rest hwf.2 hfree.2 enclosing base hleft
    | tail h =>
      rw [weaveAll, weaveAll]
      exact (weave_endsLike node hwf.1 hfree.1 enclosing base hdocument).bind fun _ _ hleft ↦
        weaveAll_exchanged rest h hwf.2 hfree.2 base henclosing hleft

theorem weaveScript_exchanged {parent : Option TypeName} (owner : String) : ∀ (script : Script)
    {other : Script},
    Script.Exchanged context.schema.relations context.supplies parent script other →
    script.WellFormed context.supplies → script.TransformFree context.supplies →
    ∀ {enclosing : List TypeName} (base : FieldPath) {document twin : Json},
    enclosing.getLast? = parent → document.Matches twin →
    EndsLike Matches (weaveScript context owner enclosing base document script)
      (weaveScript context owner enclosing base twin other)
  | .yield node, _, h, hwf, hfree, _, base, _, _, henclosing, hdocument => by
    cases h with
    | yield h =>
      rw [weaveScript, weaveScript]
      exact weave_exchanged node h hwf hfree base henclosing hdocument
  | .suspend, _, h, _, _, _, _, _, _, _, _ => by cases h
  | .read handle next, _, h, hwf, hfree, _, base, _, _, henclosing, hdocument => by
    cases h with
    | read h =>
      rw [weaveScript, weaveScript]
      exact read_endsLike (weaveScript_exchanged owner (next (context.supplies.value? handle)) h
        hwf hfree base henclosing hdocument) _ handle
  | .require _ _ next, _, h, hwf, hfree, _, base, _, _, henclosing, hdocument => by
    cases h with
    | require h =>
      rw [weaveScript, weaveScript]
      exact (EndsLike.note _).bind fun _ _ _ ↦
        weaveScript_exchanged owner next h hwf hfree base henclosing hdocument

end

mutual

theorem collect_exchanged : ∀ (node : Node) {other : Node},
    Node.Exchanged context.schema.relations context.supplies none node other →
    node.WellFormed context.supplies → node.TransformFree context.supplies →
    EndsLike (List.Forall₂ Matches) (collect context node) (collect context other)
  | .fragment children, _, h, hwf, hfree => by
    cases h with
    | fragment h =>
      rw [collect, collect]
      exact collectAll_exchanged children h hwf hfree
  | .component name script, _, h, hwf, hfree => by
    cases h with
    | component h =>
      rw [collect, collect]
      exact (EndsLike.note _).bind fun _ _ _ ↦ collectScript_exchanged name script h hwf hfree
  | .element type props tag children, _, h, hwf, hfree => by
    have hweave := @weave_exchanged _ none _ _ h hwf hfree [] .root .null .null rfl (.refl trivial)
    cases h with
    | element h =>
      rw [collect, collect]
      exact single_endsLike hweave
  | .literal path value isItem children, _, h, hwf, hfree => by
    have hweave := @weave_exchanged _ none _ _ h hwf hfree [] .root .null .null rfl (.refl trivial)
    cases h with
    | literal h =>
      rw [collect, collect]
      exact single_endsLike hweave
  | .transform _ _, _, _, _, hfree => hfree.elim

theorem collectAll_exchanged : ∀ (nodes : List Node) {others : List Node},
    Node.AnyExchanged context.schema.relations context.supplies none nodes others →
    Node.AllWellFormed context.supplies nodes → Node.AllTransformFree context.supplies nodes →
    EndsLike (List.Forall₂ Matches) (collectAll context nodes) (collectAll context others)
  | [], _, h, _, _ => by cases h
  | node :: rest, _, h, hwf, hfree => by
    cases h with
    | head h =>
      rw [collectAll, collectAll]
      exact followed_endsLike (collect_exchanged node h hwf.1 hfree.1)
        (collectAll_endsLike rest hwf.2 hfree.2)
    | tail h =>
      rw [collectAll, collectAll]
      exact followed_endsLike (collect_endsLike node hwf.1 hfree.1)
        (collectAll_exchanged rest h hwf.2 hfree.2)

theorem collectScript_exchanged (owner : String) : ∀ (script : Script) {other : Script},
    Script.Exchanged context.schema.relations context.supplies none script other →
    script.WellFormed context.supplies → script.TransformFree context.supplies →
    EndsLike (List.Forall₂ Matches) (collectScript context owner script)
      (collectScript context owner other)
  | .yield node, _, h, hwf, hfree => by
    cases h with
    | yield h =>
      rw [collectScript, collectScript]
      exact collect_exchanged node h hwf hfree
  | .suspend, _, h, _, _ => by cases h
  | .read handle next, _, h, hwf, hfree => by
    cases h with
    | read h =>
      rw [collectScript, collectScript]
      exact read_endsLike (collectScript_exchanged owner (next (context.supplies.value? handle)) h
        hwf hfree) _ handle
  | .require _ _ next, _, h, hwf, hfree => by
    cases h with
    | require h =>
      rw [collectScript, collectScript]
      exact (EndsLike.note _).bind fun _ _ _ ↦ collectScript_exchanged owner next h hwf hfree

end

end Compose

/-! ## What is judged at the end -/

/-- The same requirements in some order, and as many components that gave up. -/
structure PassLog.Balances (log other : PassLog) : Prop where
  requirements : log.requirements.Perm other.requirements
  suspended : log.suspended = other.suspended

namespace PassLog.Balances

variable {log other more twin : PassLog}

theorem refl (log : PassLog) : log.Balances log := ⟨.refl _, rfl⟩

theorem append (h : log.Balances other) (hmore : more.Balances twin) :
    (log.append more).Balances (other.append twin) where
  requirements := h.requirements.append hmore.requirements
  suspended := congrArg₂ (· + ·) h.suspended hmore.suspended

theorem exchange (log other more : PassLog) :
    (log.append (other.append more)).Balances (other.append (log.append more)) where
  requirements := by
    simp only [PassLog.append, ← List.append_assoc]
    exact List.perm_append_comm.append_right _
  suspended := by
    simp only [PassLog.append]
    omega

end PassLog.Balances

section Logged

variable {relations : Relations} {supplies : Supplies}

mutual

theorem Node.Exchanged.balances {parent : Option TypeName} : ∀ (node : Node) {other : Node},
    Node.Exchanged relations supplies parent node other →
    (node.logged supplies).Balances (other.logged supplies)
  | .fragment children, _, h => by
    cases h with
    | fragment h => exact Node.AnyExchanged.balances children h
  | .element _ _ _ children, _, h => by
    cases h with
    | element h => exact Node.AnyExchanged.balances children h
  | .literal _ _ _ children, _, h => by
    cases h with
    | literal h => exact Node.AnyExchanged.balances children h
  | .transform _ _, _, h => by cases h
  | .component name script, _, h => by
    cases h with
    | component h =>
      exact (PassLog.Balances.refl _).append (Script.Exchanged.balances name script h)

theorem Node.AnyExchanged.balances {parent : Option TypeName} : ∀ (nodes : List Node)
    {others : List Node}, Node.AnyExchanged relations supplies parent nodes others →
    (Node.allLogged supplies nodes).Balances (Node.allLogged supplies others)
  | [], _, h => by cases h
  | node :: rest, _, h => by
    cases h with
    | here _ _ _ => exact PassLog.Balances.exchange _ _ _
    | head h => exact (Node.Exchanged.balances node h).append (.refl _)
    | tail h => exact (PassLog.Balances.refl _).append (Node.AnyExchanged.balances rest h)

theorem Script.Exchanged.balances {parent : Option TypeName} (owner : String) :
    ∀ (script : Script) {other : Script},
    Script.Exchanged relations supplies parent script other →
    (script.logged supplies owner).Balances (other.logged supplies owner)
  | .yield node, _, h => by
    cases h with
    | yield h => exact Node.Exchanged.balances node h
  | .suspend, _, h => by cases h
  | .read handle next, _, h => by
    cases h with
    | read h =>
      exact (PassLog.Balances.refl _).append
        (Script.Exchanged.balances owner (next (supplies.value? handle)) h)
  | .require _ _ next, _, h => by
    cases h with
    | require h => exact (PassLog.Balances.refl _).append (Script.Exchanged.balances owner next h)

end

end Logged

namespace Compose

variable {context : Context}

/-- Finalizing depends on neither the order of the requirements nor what else was logged. -/
theorem finalize_alike {R : Json → Json → Prop} (supplies : Supplies)
    {documents others : List Json} {log other : PassLog} (h : log.Balances other)
    (hdocuments : List.Forall₂ R documents others) :
    AlikeOutcomes (List.Forall₂ R) (finalize supplies documents log)
      (finalize supplies others other) := by
  have hsettled : isSettled log = isSettled other := by simp [isSettled, h.suspended]
  have hviolations : violations supplies log.requirements = [] ↔
      violations supplies other.requirements = [] := by
    rw [violations_eq_nil_iff, violations_eq_nil_iff, h.requirements.all_eq]
  rw [finalize_eq, finalize_eq]
  rw [hsettled, Settle.batch?_eq, Settle.batch?_eq]
  cases isSettled other with
  | false => exact .failures _ _
  | true =>
    by_cases hnone : violations supplies log.requirements = []
    · rw [if_pos hnone, if_pos (hviolations.mp hnone)]
      exact .answers hdocuments
    · rw [if_neg hnone, if_neg fun hother ↦ hnone (hviolations.mpr hother)]
      exact .failures _ _

/-! ## The whole composition -/

/-- Siblings at unrelated places may be exchanged. A tree without repeated keys and transforms, and
the same tree with two adjacent elements exchanged whose relations lead to paths of which neither
is a prefix of the other, pass alike and compose alike: either both fail, or both come to as many
documents, each equal to its counterpart up to the order of keys. -/
theorem compose_exchanged {tree other : Node} (hwf : tree.WellFormed context.supplies)
    (hfree : tree.TransformFree context.supplies)
    (h : Node.Exchanged context.schema.relations context.supplies none tree other) :
    AlikeOutcomes (List.Forall₂ Alike) (pass context tree).1 (pass context other).1 ∧
      AlikeOutcomes (List.Forall₂ Alike) (compose context tree) (compose context other) := by
  have hcollect : AlikeOutcomes (List.Forall₂ Matches) (pass context tree).1
      (pass context other).1 := collect_exchanged tree h hwf hfree PassLog.empty PassLog.empty
  rcases hpass : pass context tree with ⟨outcome, log⟩
  rcases hother : pass context other with ⟨twin, last⟩
  rw [hpass, hother] at hcollect
  rw [compose, compose, hpass, hother]
  cases hcollect with
  | failures failure second => exact ⟨.failures _ _, .failures _ _⟩
  | @answers documents others hmatches =>
    have halike : List.Forall₂ Alike documents others := hmatches.imp fun _ _ h ↦ h.alike
    have hlogs : log.Balances last := by
      rw [pass_logged hpass, pass_logged hother]
      exact Node.Exchanged.balances tree h
    exact ⟨.answers halike, finalize_alike context.supplies hlogs halike⟩

/-- A selector and a template share the object that they go into, which holds a count already. -/
theorem compose_exchanged_shared_object :
    let deployment : TypeName := ⟨"Deployment"⟩
    let selector : Relation :=
      ⟨⟨"Selector"⟩, deployment, .ofKeys ["spec", "selector"], false, none⟩
    let template : Relation :=
      ⟨⟨"Template"⟩, deployment, .ofKeys ["spec", "template"], true, none⟩
    let relations : Relations := ⟨[(deployment, [selector, template])],
      [((deployment, selector.child), .only selector),
        ((deployment, template.child), .only template)]⟩
    let context : Context := ⟨⟨relations, [], default⟩, "@", []⟩
    let props : Members := [("spec", .object [("count", .bool true)])]
    let first : Node := .element selector.child [("app", .string "web")] none []
    let second : Node := .element template.child [] none []
    let deployed (children : List Node) : Node :=
      .component "app" (.yield (.element deployment props none children))
    let chosen : String × Json := ("selector", .object [("app", .string "web")])
    let listed : String × Json := ("template", .array [.object []])
    (deployed [first, second]).WellFormed context.supplies ∧
      (deployed [first, second]).TransformFree context.supplies ∧
      Node.Exchanged relations context.supplies none (deployed [first, second])
        (deployed [second, first]) ∧
      compose context (deployed [first, second]) =
        .ok [.object [("spec", .object [("count", .bool true), chosen, listed])]] ∧
      compose context (deployed [second, first]) =
        .ok [.object [("spec", .object [("count", .bool true), listed, chosen])]] ∧
      AlikeOutcomes (List.Forall₂ Alike) (compose context (deployed [first, second]))
        (compose context (deployed [second, first])) := by
  intro deployment selector template relations context props first second deployed chosen listed
  have hwf : (deployed [first, second]).WellFormed context.supplies := by
    simp [deployed, first, second, props, Node.WellFormed, Node.AllWellFormed, Script.WellFormed,
      Json.WellFormed, MembersWellFormed]
  have hfree : (deployed [first, second]).TransformFree context.supplies :=
    ⟨trivial, trivial, trivial⟩
  have hexchanged : Node.Exchanged relations context.supplies none (deployed [first, second])
      (deployed [second, first]) := by
    have hselector : relations.resolve deployment selector.child none = .ok selector := rfl
    have htemplate : relations.resolve deployment template.child none = .ok template := rfl
    exact .component (.yield (.element (.here hselector htemplate (by decide))))
  exact ⟨hwf, hfree, hexchanged, rfl, rfl, (compose_exchanged hwf hfree hexchanged).2⟩

end Compose
end ManifestTree
