import ManifestTree.Outline
import ManifestTree.Proofs.KeyPath
import ManifestTree.Proofs.Weaving

/-!
# Nodes that restore a document

Nodes restore a path of a document when weaving them where the path is vacant puts there what the
document has, up to the order of keys. An element does so for a single relation, several elements
for a relation to many, a literal for its own value. Nodes whose paths are apart restore their
document one after another. Every base here is the root of the element at hand, and the log is left
alone throughout; trees with transforms or components are left out.
-/

namespace ManifestTree

open Json Weaving

namespace Compose

/-! ## Weaving lists -/

theorem exec_weaveAll_append {context : Context} {enclosing : List TypeName} {base : FieldPath}
    {document middle : Json} {front : List Node} {log after : PassLog}
    (h : exec (weaveAll context enclosing base document front) log = (.ok middle, after))
    (back : List Node) :
    exec (weaveAll context enclosing base document (front ++ back)) log =
      exec (weaveAll context enclosing base middle back) after := by
  induction front generalizing document log with
  | nil =>
    cases h
    rfl
  | cons node rest ih =>
    rw [weaveAll, exec_bind_eq_ok_iff] at h
    obtain ⟨first, log', hnode, hrest⟩ := h
    rw [List.cons_append, weaveAll, exec_bind_of_ok hnode]
    exact ih hrest

theorem exec_weaveAll_singleton (context : Context) (enclosing : List TypeName) (base : FieldPath)
    (document : Json) (node : Node) (log : PassLog) :
    exec (weaveAll context enclosing base document [node]) log =
      exec (weave context enclosing base document node) log := by
  rw [weaveAll, exec_bind]
  rcases exec (weave context enclosing base document node) log with ⟨failure | answer, after⟩ <;>
    rfl

end Compose

namespace Outline

open Compose

theorem toNodes_eq_map (outlines : List Outline) : toNodes outlines = outlines.map toNode := by
  induction outlines with
  | nil => rfl
  | cons outline rest ih => rw [toNodes, List.map_cons, ih]

/-! ## Elements -/

/-- Composed on its own, the element is the object again, up to the order of keys. -/
def Rebuilds (context : Context) (type : TypeName) (members : Members) (outline : Outline) :
    Prop :=
  ∃ props children fields, outline = .element type props none children ∧
    (context.schema.rulesOf type).expand context.marker props = .ok fields ∧
    ∀ enclosing log, ∃ value : Members,
      exec (weaveAll context (enclosing ++ [type]) .root (.object fields) (toNodes children)) log =
          (.ok (.object value), log) ∧
        (Json.object value).WellFormed ∧ (Json.object value).SameLeaves (.object members)

/-- A rebuilt object is put where the relation of its element says. -/
theorem Rebuilds.exec_weave {context : Context} {type : TypeName} {members : Members}
    {outline : Outline} (h : outline.Rebuilds context type members) {enclosing : List TypeName}
    {tag : Option String} {relation : Option Relation}
    (hlocate : locate context.schema enclosing type tag = .ok relation) (log : PassLog) :
    ∃ value : Members, (Json.object value).WellFormed ∧
      (Json.object value).SameLeaves (.object members) ∧
      ∀ base document,
        exec (weave context enclosing base document (outline.withTag tag).toNode) log =
          exec (putElement relation base document (.object value)) log := by
  obtain ⟨props, children, fields, rfl, hexpand, hchildren⟩ := h
  obtain ⟨value, hvalue, hwf, hsame⟩ := hchildren enclosing log
  refine ⟨value, hwf, hsame, fun base document ↦ ?_⟩
  rw [withTag, toNode, weave, hlocate, hexpand]
  rw [exec_bind_of_ok (exec_settleWith (.ok relation) log),
    exec_bind_of_ok (exec_settleWith (.ok fields) log), exec_bind_of_ok hvalue]

end Outline

namespace Compose

/-! ## Restoring one path -/

/-- Where the path is vacant and open, weaving the nodes puts there what the whole has. -/
structure Restores (context : Context) (enclosing : List TypeName) (whole : Json)
    (path : List Step) (nodes : List Node) : Prop where
  keys : ∃ names : List String, path = names.map Step.key
  /-- The whole has something there, and weaving puts it there again. -/
  puts : ∃ found, getSteps? path whole = some found ∧
    ∀ (members : Members) (log : PassLog), (object members).WellFormed →
      OpenTo path (some (object members)) → getSteps? path (object members) = none →
      ∃ after value, exec (weaveAll context enclosing .root (.object members) nodes) log =
          (.ok after, log) ∧
        after.WellFormed ∧ PutAt path value (some (object members)) after ∧ value.SameLeaves found

/-- A document with something behind a key is an object. -/
theorem eq_object_of_putAt {names : List String} {value after : Json} {members : Members}
    (hput : PutAt (names.map Step.key) value (some (object members)) after)
    (hvacant : getSteps? (names.map Step.key) (object members) = none) :
    ∃ fields, after = object fields := by
  cases names with
  | nil => simp at hvacant
  | cons name rest =>
    obtain ⟨fields, -, rfl, -, -⟩ := eq_object_of_getSteps?_key hput.found
    exact ⟨fields, rfl⟩

/-- Nodes that restore paths apart from each other restore a document that lacks these paths, in
any order. -/
theorem exec_weaveAll_of_restores {context : Context} {enclosing : List TypeName} {whole : Json}
    {jobs : List (List Step × List Node)} {members : Members} (log : PassLog)
    (hjobs : ∀ job ∈ jobs, Restores context enclosing whole job.1 job.2)
    (hapart : (jobs.map Prod.fst).Pairwise Apart) (hwf : (object members).WellFormed)
    (hlacks : Lacks (jobs.map Prod.fst) (object members) whole) :
    ∃ after : Members, exec (weaveAll context enclosing .root (.object members)
        (jobs.flatMap Prod.snd)) log = (.ok (.object after), log) ∧
      (object after).WellFormed ∧ Lacks [] (object after) whole := by
  induction jobs generalizing members with
  | nil => exact ⟨members, rfl, hwf, hlacks⟩
  | cons job rest ih =>
    rcases job with ⟨path, nodes⟩
    obtain ⟨⟨names, rfl⟩, found, hfound, hput⟩ := hjobs _ List.mem_cons_self
    rw [List.map_cons, List.pairwise_cons] at hapart
    have hvacant := hlacks.gone _ List.mem_cons_self
    obtain ⟨middle, value, hexec, hmiddle, hputAt, hsame⟩ :=
      hput members log hwf (hlacks.openTo hfound) hvacant
    obtain ⟨fields, rfl⟩ := eq_object_of_putAt hputAt hvacant
    have hless : Lacks (rest.map Prod.fst) (object fields) whole :=
      hlacks.putBack hputAt ⟨found, hfound, hsame⟩ hapart.1
    obtain ⟨after, hrest, hafter, hnothing⟩ := ih
      (fun job hmem ↦ hjobs job (List.mem_cons_of_mem _ hmem)) hapart.2 hmiddle hless
    refine ⟨after, ?_, hafter, hnothing⟩
    calc
      exec (weaveAll context enclosing .root (object members)
          (((names.map Step.key, nodes) :: rest).flatMap Prod.snd)) log =
          exec (weaveAll context enclosing .root (object fields) (rest.flatMap Prod.snd)) log := by
        rw [List.flatMap_cons, exec_weaveAll_append hexec]
      _ = (.ok (object after), log) := hrest

/-! ## Literals -/

/-- A literal that sets a value at a key restores it. -/
theorem restores_literal {context : Context} {enclosing : List TypeName} {whole value : Json}
    {name : String} (hvalue : value.WellFormed) (hholds : HoldsAt [.key name] value whole) :
    Restores context enclosing whole [.key name]
      [(Outline.literal (.ofKeys [name]) (some value) false []).toNode] where
  keys := ⟨[name], rfl⟩
  puts := by
    obtain ⟨found, hfound, hsame⟩ := hholds
    refine ⟨found, hfound, fun members log hwf hopen hvacant ↦ ?_⟩
    obtain ⟨after, hset, hafter, hput⟩ := set_keys [name] (by simp) hwf hvalue hopen hvacant
    refine ⟨after, value, ?_, hafter, hput, hsame⟩
    have hwritten : exec (written ((object members).set (.ofKeys [name]) value)) log =
        (.ok ((), after), log) := by
      rw [exec_written, hset]
      rfl
    have hliteral : exec (putLiteral .root (.ofKeys [name]) (some value) false (object members))
        log = (.ok (.ofKeys [name], after), log) := exec_bind_of_ok hwritten _
    rw [exec_weaveAll_singleton, Outline.toNode, weave, exec_bind_of_ok hliteral]
    rfl

/-! ## Elements -/

theorem exec_putElement_single {relation : Relation} {names : List String}
    {document value after : Json} {log : PassLog} (hpath : relation.path = .ofKeys names)
    (hsingle : relation.isMany = false)
    (hset : document.set (.ofKeys names) value = (.ok (), after)) :
    exec (putElement (some relation) .root document value) log = (.ok after, log) := by
  have hwritten : exec (written (document.set relation.path value)) log =
      (.ok ((), after), log) := by
    rw [exec_written, hpath, hset]
    rfl
  have hput : putElement (some relation) .root document value =
      (do pure (← written (document.set relation.path value)).2) := by
    rw [putElement, hsingle]
    rfl
  rw [hput, exec_bind_of_ok hwritten]
  rfl

theorem exec_putElement_many {relation : Relation} {names : List String} {position : Nat}
    {document value after : Json} {log : PassLog} (hpath : relation.path = .ofKeys names)
    (hmany : relation.isMany)
    (happend : document.append (.ofKeys names) value = (.ok position, after)) :
    exec (putElement (some relation) .root document value) log = (.ok after, log) := by
  have hwritten : exec (written (document.append relation.path value)) log =
      (.ok (position, after), log) := by
    rw [exec_written, hpath, happend]
    rfl
  have hput : putElement (some relation) .root document value =
      (do pure (← written (document.append relation.path value)).2) := by
    rw [putElement, hmany]
    rfl
  rw [hput, exec_bind_of_ok hwritten]
  rfl

/-- The element of a single relation restores the object at its path. -/
theorem restores_element {context : Context} {enclosing : List TypeName} {whole : Json}
    {relation : Relation} {names : List String} {tag : Option String} {members : Members}
    {outline : Outline} (hpath : relation.path = .ofKeys names) (hsingle : relation.isMany = false)
    (hlocate : locate context.schema enclosing relation.child tag = .ok (some relation))
    (houtline : outline.Rebuilds context relation.child members)
    (hholds : HoldsAt (names.map Step.key) (object members) whole) :
    Restores context enclosing whole (names.map Step.key) [(outline.withTag tag).toNode] where
  keys := ⟨names, rfl⟩
  puts := by
    obtain ⟨found, hfound, hsame⟩ := hholds
    refine ⟨found, hfound, fun fields log hwf hopen hvacant ↦ ?_⟩
    obtain ⟨value, hvalue, hrebuilt, hweave⟩ := houtline.exec_weave hlocate log
    obtain ⟨after, hset, hafter, hput⟩ := set_keys names (by simp) hwf hvalue hopen hvacant
    refine ⟨after, object value, ?_, hafter, hput, fun steps ↦ (hrebuilt steps).trans (hsame steps)⟩
    calc
      exec (weaveAll context enclosing .root (object fields) [(outline.withTag tag).toNode]) log =
          exec (weave context enclosing .root (object fields) (outline.withTag tag).toNode) log :=
        exec_weaveAll_singleton context enclosing .root (object fields) _ log
      _ = exec (putElement (some relation) .root (object fields) (object value)) log :=
        hweave .root (object fields)
      _ = (.ok after, log) := exec_putElement_single hpath hsingle hset

/-- The elements of a relation to many append the objects at its path, behind the items there. -/
theorem exec_weaveAll_items {context : Context} {enclosing : List TypeName} {relation : Relation}
    {names : List String} {tag : Option String} (hpath : relation.path = .ofKeys names)
    (hmany : relation.isMany) (hnames : names ≠ [])
    (hlocate : locate context.schema enclosing relation.child tag = .ok (some relation))
    (outlines : Members → Outline) {objects : List Members}
    (houtlines : ∀ members ∈ objects,
      (outlines members).Rebuilds context relation.child members)
    {done : List Json} {document : Json} (log : PassLog) (hdocument : document.isObject)
    (hwf : document.WellFormed) (hdone : (array done).WellFormed)
    (hopen : OpenTo (names.map Step.key) (some document))
    (hplace : getSteps? (names.map Step.key) document = placeOfItems done) :
    ∃ items after, exec (weaveAll context enclosing .root document
        (objects.map fun members ↦ ((outlines members).withTag tag).toNode)) log =
          (.ok after, log) ∧
      after.WellFormed ∧
      List.Forall₂ SameLeaves items (objects.map object) ∧
      getSteps? (names.map Step.key) after = placeOfItems (done ++ items) ∧
      ∀ steps, ¬ names.map Step.key <+: steps → ¬ steps <+: names.map Step.key →
        leaf? steps after = leaf? steps document := by
  induction objects generalizing done document with
  | nil => exact ⟨[], document, rfl, hwf, .nil, by simpa using hplace, fun _ _ _ ↦ rfl⟩
  | cons members rest ih =>
    obtain ⟨value, hvalue, hrebuilt, hweave⟩ :=
      (houtlines members List.mem_cons_self).exec_weave hlocate log
    have hitems : (array (done ++ [object value])).WellFormed :=
      hdone.append (itemsWellFormed_iff.mpr (by simpa using hvalue))
    have hne : document ≠ null := by
      rintro rfl
      cases hdocument
    obtain ⟨middle, happend, hmiddle, hput⟩ := append_keys names hne hwf hitems hopen hplace
    have hplace' : getSteps? (names.map Step.key) middle =
        placeOfItems (done ++ [object value]) := by
      rw [hput.found]
      cases done <;> rfl
    have hobject : middle.isObject := by
      obtain ⟨name, more, rfl⟩ := List.exists_cons_of_ne_nil hnames
      obtain ⟨fields, -, rfl, -, -⟩ := eq_object_of_getSteps?_key hput.found
      rfl
    obtain ⟨items, after, hexec, hafter, hsame, hlast, hkept⟩ :=
      ih (fun members hmem ↦ houtlines members (List.mem_cons_of_mem _ hmem)) hobject hmiddle
        hitems (openTo_of_getSteps? hput.found) hplace'
    refine ⟨object value :: items, after, ?_, hafter, .cons hrebuilt hsame, ?_, ?_⟩
    · have hnode : exec (weave context enclosing .root document
          ((outlines members).withTag tag).toNode) log = (.ok middle, log) := by
        rw [hweave, exec_putElement_many hpath hmany happend]
      rw [List.map_cons, weaveAll, exec_bind_of_ok hnode]
      exact hexec
    · rw [hlast, List.append_assoc, List.singleton_append]
    · intro steps hstart hbefore
      calc
        leaf? steps after = leaf? steps middle := hkept steps hstart hbefore
        _ = leaf? steps document := hput.kept steps hstart hbefore

/-- The elements of a relation to many restore the array of objects at its path. -/
theorem restores_elements {context : Context} {enclosing : List TypeName} {whole : Json}
    {relation : Relation} {names : List String} {tag : Option String} {objects : List Members}
    (hpath : relation.path = .ofKeys names) (hmany : relation.isMany) (hnames : names ≠ [])
    (hlocate : locate context.schema enclosing relation.child tag = .ok (some relation))
    (outlines : Members → Outline) (hobjects : objects ≠ [])
    (houtlines : ∀ members ∈ objects,
      (outlines members).Rebuilds context relation.child members)
    (hholds : HoldsAt (names.map Step.key) (array (objects.map object)) whole) :
    Restores context enclosing whole (names.map Step.key)
      (objects.map fun members ↦ ((outlines members).withTag tag).toNode) where
  keys := ⟨names, rfl⟩
  puts := by
    obtain ⟨found, hfound, hsame⟩ := hholds
    refine ⟨found, hfound, fun fields log hwf hopen hvacant ↦ ?_⟩
    obtain ⟨items, after, hexec, hafter, hitems, hlast, hkept⟩ :=
      exec_weaveAll_items hpath hmany hnames hlocate outlines houtlines log rfl hwf
        (show (array []).WellFormed from trivial) hopen hvacant
    have hplace : placeOfItems ([] ++ items) = some (array items) := by
      cases items with
      | nil =>
        have hlength := hitems.length_eq
        rw [List.length_map] at hlength
        exact absurd (List.length_eq_zero_iff.mp hlength.symm) hobjects
      | cons _ _ => rfl
    refine ⟨after, array items, hexec, hafter, ⟨hlast.trans hplace, hkept⟩, fun steps ↦ ?_⟩
    calc
      leaf? steps (array items) = leaf? steps (array (objects.map object)) :=
        sameLeaves_array hitems steps
      _ = leaf? steps found := hsame steps

end Compose
end ManifestTree
