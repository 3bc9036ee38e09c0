import GraphQL.Proofs.Document.Relabeling
import GraphQL.Proofs.Execution.Mirrors
import GraphQL.Proofs.Execution.Positions
import GraphQL.Proofs.Execution.Submissions

/-!
What an execution does for a document with other response keys.

It does the same at other paths (`Does.relabel`). The names of fields are not touched, and neither
are values that are serialized as a whole.
-/

set_option autoImplicit false

namespace GraphQL

open Json

def PathElement.relabel (r : String → String) : PathElement → PathElement
  | index i => .index i
  | key k => .key (r k)

def Path.relabel (r : String → String) (path : Path) : Path := path.map (·.relabel r)

theorem Path.relabel_join (r : String → String) (path : Path) (e : PathElement) :
    (path.join e).relabel r = (path.relabel r).join (e.relabel r) := List.map_append

def Error.relabel (r : String → String) (e : Error) : Error :=
  { e with path := e.path.map (Path.relabel r) }

def Invocation.relabel (r : String → String) (i : Invocation) : Invocation :=
  { i with path := i.path.relabel r }

/-- What a panic is called does not depend on the path. -/
theorem Resolution.toExcept_relabel (r : String → String) (i : Invocation) (answer : Resolution) :
    answer.toExcept (i.relabel r) = answer.toExcept i := by
  cases answer <;> rfl

/-- Values at positions of the type are serialized as a whole. -/
def TypeRef.isSerialized (schema : Schema) : TypeRef → Bool
  | named name => (schema.type? name).any (·.isLeaf)
  | list _ => false
  | nonNull inner => inner.isSerialized schema
  | _ => true

theorem TypeRef.IsLeaf.isSerialized {schema : Schema} {type : TypeRef} (h : type.IsLeaf schema) :
    type.isSerialized schema = true := by
  cases type with
  | named name =>
    obtain ⟨d, hd, hleaf⟩ := h
    rw [TypeRef.isSerialized, hd, Option.any_some, hleaf]
  | list => exact h.elim
  | nonNull => exact h.elim
  | _ => rfl

namespace Json.Value

mutual

/-- The value at a path under other keys, except for what lies in leaves. -/
def relabel (r : String → String) (leaf : Path → Bool) (path : Path) : Value → Value
  | array items => if leaf path then array items else array (relabelItems r leaf path 0 items)
  | object members =>
    if leaf path then object members else object (relabelMembers r leaf path members)
  | v => v

/-- The items from an index on. -/
def relabelItems (r : String → String) (leaf : Path → Bool) (path : Path) :
    Nat → List Value → List Value
  | _, [] => []
  | i, v :: vs =>
    v.relabel r leaf (path.join (.index i)) :: relabelItems r leaf path (i + 1) vs

def relabelMembers (r : String → String) (leaf : Path → Bool) (path : Path) :
    List (String × Value) → List (String × Value)
  | [] => []
  | (k, v) :: members =>
    (r k, v.relabel r leaf (path.join (.key k))) :: relabelMembers r leaf path members

end

variable (r : String → String) {leaf : Path → Bool} {path : Path}

theorem relabel_of_leaf (h : leaf path = true) (v : Value) : v.relabel r leaf path = v := by
  cases v with
  | array => rw [relabel, if_pos h]
  | object => rw [relabel, if_pos h]
  | _ => rw [relabel] <;> nofun

theorem relabel_null : null.relabel r leaf path = null := by
  rw [relabel] <;> nofun

theorem relabel_string (text : String) : (string text).relabel r leaf path = string text := by
  rw [relabel] <;> nofun

theorem isNull_relabel (v : Value) : (v.relabel r leaf path).isNull = v.isNull := by
  cases v with
  | array | object =>
    rw [relabel]
    split <;> rfl
  | _ => rw [relabel] <;> nofun

/-- The values of parts under their elements. -/
def relabelParts (r : String → String) (leaf : Path → Bool) (path : Path)
    (elements : List PathElement) (vs : List Value) : List Value :=
  List.zipWith (fun e v => v.relabel r leaf (path.join e)) elements vs

theorem relabelItems_eq (vs : List Value) (i : Nat) :
    relabelItems r leaf path i vs =
      relabelParts r leaf path ((List.range' i vs.length).map .index) vs := by
  induction vs generalizing i with
  | nil => rfl
  | cons v vs ih =>
    rw [relabelItems, ih, List.length_cons, List.range'_succ]
    rfl

theorem relabelMembers_eq {keys : List String} {vs : List Value} (hl : keys.length = vs.length) :
    relabelMembers r leaf path (keys.zip vs) =
      (keys.map r).zip (relabelParts r leaf path (keys.map .key) vs) := by
  induction keys generalizing vs with
  | nil => rfl
  | cons k keys ih =>
    cases vs with
    | nil => cases hl
    | cons v vs =>
      rw [List.zip_cons_cons, relabelMembers, ih (Nat.succ.inj hl)]
      rfl

theorem relabel_array (h : leaf path = false) (vs : List Value) :
    (array vs).relabel r leaf path =
      array (relabelParts r leaf path ((List.range vs.length).map .index) vs) := by
  rw [relabel, h, if_neg Bool.false_ne_true, relabelItems_eq, List.range_eq_range']

theorem relabel_object (h : leaf path = false) {keys : List String} {vs : List Value}
    (hl : keys.length = vs.length) :
    (object (keys.zip vs)).relabel r leaf path =
      object ((keys.map r).zip (relabelParts r leaf path (keys.map .key) vs)) := by
  rw [relabel, h, if_neg Bool.false_ne_true, relabelMembers_eq r hl]

end Json.Value

namespace Execution

def Event.relabel (r : String → String) : Event → Event
  | reached path type => reached (path.relabel r) type
  | produced path value => produced (path.relabel r) value
  | collecting e => collecting (e.relabel r)
  | failed e endless => failed (e.relabel r) endless
  | invoked i => invoked (i.relabel r)

theorem Event.error?_relabel (r : String → String) (ev : Event) :
    (ev.relabel r).error? = ev.error?.map (Error.relabel r) := by
  cases ev <;> rfl

namespace Completion

def relabel (r : String → String) (leaf : Path → Bool) (path : Path) : Completion → Completion
  | value v => value (v.relabel r leaf path)
  | propagate => propagate

variable (r : String → String) (leaf : Path → Bool) (path : Path)

theorem isNull_relabel (c : Completion) : (c.relabel r leaf path).isNull = c.isNull := by
  cases c with
  | value v => exact v.isNull_relabel r
  | propagate => rfl

theorem relabel_null : (value .null).relabel r leaf path = value .null :=
  congrArg value (Value.relabel_null r)

theorem relabel_string (text : String) :
    (value (.string text)).relabel r leaf path = value (.string text) :=
  congrArg value (Value.relabel_string r text)

theorem absorb_relabel (c : Completion) :
    (c.relabel r leaf path).absorb = c.absorb.relabel r leaf path := by
  cases c with
  | value v => rfl
  | propagate => exact (relabel_null r leaf path).symm

theorem data_relabel (c : Completion) :
    (c.relabel r leaf path).data = c.data.relabel r leaf path := by
  cases c with
  | value v => rfl
  | propagate => exact (Value.relabel_null r).symm

theorem relabel_givenUp (type : TypeRef) : type.givenUp.relabel r leaf path = type.givenUp := by
  unfold TypeRef.givenUp
  split
  · rfl
  · exact relabel_null r leaf path

/-- The completions of parts under their elements. -/
def relabelParts (elements : List PathElement) (cs : List Completion) : List Completion :=
  List.zipWith (fun e c => c.relabel r leaf (path.join e)) elements cs

end Completion

section

variable {r : String → String} {leaf : Path → Bool} {path : Path}
  {elements elements' : List PathElement} {combine combine' : List Completion → Completion}
  {build build' : List Value → Value} {cs : List Completion}

/-- Parts under other keys make up a whole under other keys. -/
theorem Combines.relabel (hc : Combines elements combine build)
    (hc' : Combines elements' combine' build') (hl : cs.length = elements.length)
    (hl' : elements'.length = elements.length)
    (hbuild : ∀ vs, elements.length = vs.length →
      (build vs).relabel r leaf path = build' (Value.relabelParts r leaf path elements vs)) :
    combine' (Completion.relabelParts r leaf path elements cs) =
      (combine cs).relabel r leaf path := by
  have hlength : (Completion.relabelParts r leaf path elements cs).length = elements'.length := by
    rw [Completion.relabelParts, List.length_zipWith, hl, Nat.min_self, hl']
  cases h : combine cs with
  | propagate =>
    obtain ⟨i, hi⟩ := List.mem_iff_getElem?.1 ((hc.propagate_iff cs hl).1 h)
    obtain ⟨hlt, -⟩ := List.getElem?_eq_some_iff.1 hi
    have he : elements[i]? = some elements[i] := List.getElem?_eq_getElem (by omega)
    refine (hc'.propagate_iff _ hlength).2 (List.mem_of_getElem? (i := i) ?_)
    exact List.getElem?_zipWith_eq_some.2 ⟨_, _, he, hi, rfl⟩
  | value v =>
    obtain ⟨vs, rfl, rfl⟩ := (hc.value_iff cs v hl).1 h
    rw [List.length_map] at hl
    refine (hc'.value_iff _ _ hlength).2 ⟨_, ?_, hbuild vs hl.symm⟩
    rw [Completion.relabelParts, Value.relabelParts, List.zipWith_map_right, List.map_zipWith]
    rfl

theorem Completion.relabel_array (h : leaf path = false) (cs : List Completion) :
    (array cs).relabel r leaf path =
      array (relabelParts r leaf path ((List.range cs.length).map .index) cs) := by
  refine ((Combines.array cs.length).relabel (.array cs.length) (by simp) rfl fun vs hl => ?_).symm
  rw [Value.relabel_array r h, show vs.length = cs.length by simpa using hl.symm]

theorem Completion.relabel_object (hr : Function.Injective r) (h : leaf path = false)
    {keys : List String} (hk : keys.Nodup) (hl : cs.length = keys.length) :
    (object keys cs).relabel r leaf path =
      object (keys.map r) (relabelParts r leaf path (keys.map .key) cs) := by
  refine ((Combines.object hk).relabel (.object (hk.map hr)) (by simpa using hl) (by simp)
    fun vs hvs => ?_).symm
  exact Value.relabel_object r h (by simpa using hvs)

end

def Site.relabel (r : String → String) (site : Site) : Site :=
  { site with path := site.path.relabel r }

def Collected.relabel (r : String → String) (c : Collected) : Collected where
  visited := c.visited
  groups := Entries.relabel r (List.map (Field.relabel r)) c.groups
  errors := c.errors.map (Error.relabel r)

theorem Collected.addField_relabel {r : String → String} (hr : Function.Injective r)
    (f : Field Literal) (c : Collected) :
    (c.relabel r).addField (f.relabel r) = (c.addField f).relabel r := by
  have hget := Entries.get?_relabel hr (List.map (Field.relabel r)) f.head.responseKey c.groups
  have hgetD : ((Entries.get? f.head.responseKey c.groups).map (List.map (Field.relabel r))).getD
      [] ++ [f.relabel r] =
        ((Entries.get? f.head.responseKey c.groups).getD [] ++ [f]).map (Field.relabel r) := by
    cases Entries.get? f.head.responseKey c.groups <;> simp
  rw [addField, addField, relabel, relabel, Collected.mk.injEq]
  refine ⟨rfl, ?_, rfl⟩
  change Entries.insert (r f.head.responseKey) ((Entries.get? (r f.head.responseKey)
    (Entries.relabel r _ c.groups)).getD [] ++ [f.relabel r]) _ = _
  rw [hget, hgetD]
  exact Entries.insert_relabel hr _ _ _ _

theorem Collected.record_relabel (r : String → String) (e : Error) (c : Collected) :
    (c.relabel r).record (e.relabel r) = (c.record e).relabel r := by
  rw [record, record, relabel, relabel, List.map_append]
  rfl

namespace Setting

/-- The setting of the execution of the document under other keys. -/
def relabel (r : String → String) (s : Setting) : Setting :=
  s.withDocument (s.document.relabel r)

variable {r : String → String} {s : Setting} {site : Site}
  {expand expand' : List (Selection Literal) → Collected → Collected}

theorem whenIncluded_relabel (directives : List (Directive Literal))
    {inside inside' : Collected → Collected} {c : Collected}
    (hinside : inside' (c.relabel r) = (inside c).relabel r) :
    (s.relabel r).whenIncluded (site.relabel r) directives inside' (c.relabel r) =
      (s.whenIncluded site directives inside c).relabel r := by
  have hincludes : (s.relabel r).directives.includes (s.relabel r).bindings
      (site.relabel r).context directives =
        s.directives.includes s.bindings site.context directives := rfl
  rw [whenIncluded, whenIncluded, hincludes]
  split
  · exact hinside
  · rfl
  · next e _ => exact c.record_relabel r (e.locate _ site.path)

theorem spread_relabel
    (he : ∀ nodes c, expand' (Selection.relabelAll r nodes) (c.relabel r) =
      (expand nodes c).relabel r) (sp : Spread Literal) (c : Collected) :
    (s.relabel r).spread (site.relabel r) expand' sp (c.relabel r) =
      (s.spread site expand sp c).relabel r := by
  have hf : (s.relabel r).document.fragment? sp.fragment =
      (s.document.fragment? sp.fragment).map (·.relabel r) :=
    s.document.fragment?_map _ _ sp.fragment
  have hvisit : (c.relabel r).visit sp.fragment = (c.visit sp.fragment).relabel r := rfl
  simp only [spread, hf, hvisit]
  change (if sp.fragment ∈ c.visited then _ else _) = _
  split
  · rfl
  · cases s.document.fragment? sp.fragment with
    | none =>
      exact (c.visit sp.fragment).record_relabel r
        ⟨_, sp.location.toList, some site.path, []⟩
    | some f =>
      simp only [Option.map_some]
      change (if s.schema.applies site.objectType f.condition then _ else _) = _
      split
      · exact he _ _
      · rfl

mutual

theorem collectNode_relabel (hr : Function.Injective r)
    (he : ∀ nodes c, expand' (Selection.relabelAll r nodes) (c.relabel r) =
      (expand nodes c).relabel r) : ∀ (node : Selection Literal) (c : Collected),
    (s.relabel r).collectNode (site.relabel r) expand' (node.relabel r) (c.relabel r) =
      (s.collectNode site expand node c).relabel r
  | .field head selections, c => by
    rw [Selection.relabel, collectNode, collectNode]
    exact whenIncluded_relabel head.directives (c.addField_relabel hr ⟨head, selections⟩)
  | .spread sp, c => by
    rw [Selection.relabel, collectNode, collectNode]
    exact whenIncluded_relabel sp.directives (spread_relabel he sp c)
  | .inline head selections, c => by
    rw [Selection.relabel, collectNode, collectNode]
    refine whenIncluded_relabel head.directives ?_
    change (if s.applies site head.condition then _ else _) = _
    split
    · exact collectNodes_relabel hr he selections c
    · rfl

theorem collectNodes_relabel (hr : Function.Injective r)
    (he : ∀ nodes c, expand' (Selection.relabelAll r nodes) (c.relabel r) =
      (expand nodes c).relabel r) : ∀ (nodes : List (Selection Literal)) (c : Collected),
    (s.relabel r).collectNodes (site.relabel r) expand' (Selection.relabelAll r nodes)
        (c.relabel r) =
      (s.collectNodes site expand nodes c).relabel r
  | [], c => by rw [Selection.relabelAll, collectNodes, collectNodes]
  | node :: nodes, c => by
    rw [Selection.relabelAll, collectNodes, collectNodes, collectNode_relabel hr he node c]
    exact collectNodes_relabel hr he nodes _

end

theorem collectWithin_relabel (hr : Function.Injective r) : ∀ (expansions : Nat)
    (nodes : List (Selection Literal)) (c : Collected),
    (s.relabel r).collectWithin (site.relabel r) expansions (Selection.relabelAll r nodes)
        (c.relabel r) =
      (s.collectWithin site expansions nodes c).relabel r
  | 0 => collectNodes_relabel hr fun _ _ => rfl
  | expansions + 1 => collectNodes_relabel hr (collectWithin_relabel hr expansions)

/-- The fields under other keys are collected to groups under these keys. -/
theorem collect_relabel (hr : Function.Injective r) (nodes : List (Selection Literal)) :
    (s.relabel r).collect (site.relabel r) (Selection.relabelAll r nodes) =
      (s.collect site nodes).relabel r := by
  have hlength : (s.relabel r).document.fragments.length = s.document.fragments.length :=
    List.length_map _
  rw [collect, collect, hlength]
  exact collectWithin_relabel hr _ nodes .empty

end Setting

def FieldSite.relabel (r : String → String) (site : FieldSite) : FieldSite where
  parentType := site.parentType
  first := site.first.relabel r
  selections := Selection.relabelAll r site.selections

theorem FieldSite.ofFields_relabel (r : String → String) (type : ObjectType) (f : Field Literal)
    (fields : List (Field Literal)) :
    ofFields type (f.relabel r) (fields.map (Field.relabel r)) =
      (ofFields type f fields).relabel r := by
  rw [ofFields, ofFields, relabel, FieldSite.mk.injEq]
  exact ⟨rfl, rfl, Field.flatMap_relabel r (f :: fields)⟩

namespace Job

/-- The same to be done for the document under other keys. -/
def relabel (r : String → String) : Job → Job
  | object type v selections path =>
    .object type v (Selection.relabelAll r selections) (path.relabel r)
  | field type parent fields path =>
    .field type parent (fields.map (Field.relabel r)) (path.relabel r)
  | defined site d parent path => .defined (site.relabel r) d parent (path.relabel r)
  | resolved site type result path => .resolved (site.relabel r) type result (path.relabel r)
  | item site type v path => .item (site.relabel r) type v (path.relabel r)
  | position site refusesNull type v path =>
    .position (site.relabel r) refusesNull type v (path.relabel r)
  | value site type v path => .value (site.relabel r) type v (path.relabel r)

/-- The resolvers of the job have a property, and its position is a leaf if values there are
serialized as a whole. -/
def Fits (P : Resolver → Prop) (schema : Schema) (leaf : Path → Bool) : Job → Prop
  | object type _ _ path => type.Resolvers P ∧ leaf path = false
  | field type _ _ _ => type.Resolvers P
  | defined _ d _ path =>
    (∀ resolver, d.resolver = some resolver → P resolver) ∧
      leaf path = d.type.isSerialized schema
  | resolved _ type _ path => leaf path = type.isSerialized schema
  | item _ _ _ _ => True
  | position _ _ type _ path => leaf path = type.isSerialized schema
  | value _ type _ path => leaf path = type.isSerialized schema

end Job

theorem Interleaving.map {α β : Type} (f : α → β) {ls : List (List α)} {merged : List α}
    (h : Interleaving ls merged) : Interleaving (ls.map (List.map f)) (merged.map f) := by
  have hmap := h.filterMap (some ∘ f)
  simpa only [List.filterMap_eq_map] using hmap

/-- What parts end with, under other keys. -/
def relabelOuts (r : String → String) (leaf : Path → Bool) (path : Path)
    (elements : List PathElement) (outs : List (Completion × List Event)) :
    List (Completion × List Event) :=
  List.zipWith (fun e out => (out.1.relabel r leaf (path.join e), out.2.map (Event.relabel r)))
    elements outs

section

variable {r : String → String} {leaf : Path → Bool} {path : Path} {elements : List PathElement}
  {outs : List (Completion × List Event)}

theorem map_fst_relabelOuts :
    (relabelOuts r leaf path elements outs).map Prod.fst =
      Completion.relabelParts r leaf path elements (outs.map Prod.fst) := by
  rw [relabelOuts, Completion.relabelParts, List.map_zipWith, List.zipWith_map_right]

theorem map_snd_relabelOuts (hl : elements.length = outs.length) :
    (relabelOuts r leaf path elements outs).map Prod.snd =
      (outs.map Prod.snd).map (List.map (Event.relabel r)) := by
  rw [relabelOuts, List.map_zipWith, List.map_map]
  refine List.ext_getElem (by simp [hl]) fun i hi hi' => ?_
  simp

theorem length_relabelOuts (hl : elements.length = outs.length) :
    (relabelOuts r leaf path elements outs).length = outs.length := by
  rw [relabelOuts, List.length_zipWith, hl, Nat.min_self]

theorem of_getElem?_relabelOuts {i : Nat} {d : Completion} {ds : List Event}
    (h : (relabelOuts r leaf path elements outs)[i]? = some (d, ds)) :
    ∃ e c es, elements[i]? = some e ∧ outs[i]? = some (c, es) ∧
      d = c.relabel r leaf (path.join e) ∧ ds = es.map (Event.relabel r) := by
  obtain ⟨e, ⟨c, es⟩, he, hout, heq⟩ := List.getElem?_zipWith_eq_some.1 h
  cases heq
  exact ⟨e, c, es, he, hout, rfl, rfl⟩

end

namespace Does

variable {s : Setting} {w : World} {room : Nat} {job : Job} {c : Completion} {es : List Event}
  {P : Resolver → Prop} {r : String → String} {leaf : Path → Bool} {path : Path}
  {outs : List (Completion × List Event)} {merged : List Event}

theorem relabel_object (hr : Function.Injective r) (hleaf : leaf path = false) {type : ObjectType}
    {value : Value} {selections : List (Selection Literal)} {context : Context}
    {collected : Collected} (hsees : w.sees context)
    (hcol : s.collect ⟨type.name, path, context⟩ selections = collected)
    (hl : collected.groups.length = outs.length)
    (ho : ∀ (i : Nat) key fields d ds, collected.groups[i]? = some (key, fields) →
      outs[i]? = some (d, ds) →
      Does (s.relabel r) w room (Job.relabel r (.field type value fields (path.join (.key key))))
        (d.relabel r leaf (path.join (.key key))) (ds.map (Event.relabel r)))
    (hm : Interleaving (outs.map Prod.snd) merged) :
    Does (s.relabel r) w (room + 1) (Job.relabel r (.object type value selections path))
      ((Completion.object (Entries.keys collected.groups) (outs.map Prod.fst)).relabel r leaf path)
      ((collected.errors.map Event.collecting ++ merged).map (Event.relabel r)) := by
  have hnodup : (Entries.keys collected.groups).Nodup := by
    rw [← hcol]
    exact (s.collect_tidy_true _ _).nodup
  have hlength : ((Entries.keys collected.groups).map PathElement.key).length = outs.length := by
    simpa [Entries.keys] using hl
  have hcol' : (s.relabel r).collect ⟨type.name, path.relabel r, context⟩
      (Selection.relabelAll r selections) = collected.relabel r := by
    have hcollect : (s.relabel r).collect (Site.relabel r ⟨type.name, path, context⟩) _ = _ :=
      Setting.collect_relabel hr selections
    rw [← hcol]
    exact hcollect
  have herrors : (collected.errors.map Event.collecting).map (Event.relabel r) =
      (collected.relabel r).errors.map Event.collecting := by
    rw [Collected.relabel, List.map_map, List.map_map]
    rfl
  have hkeys : Entries.keys (collected.relabel r).groups = (Entries.keys collected.groups).map r :=
    Entries.keys_relabel r _ _
  rw [Completion.relabel_object hr hleaf hnodup (by simpa [Entries.keys] using hl.symm),
    List.map_append, herrors, ← hkeys, ← map_fst_relabelOuts]
  refine .object hsees hcol' ?_ (fun i key fields d ds hi hd => ?_) ?_
  · rw [length_relabelOuts hlength, ← hl]
    exact List.length_map _
  · obtain ⟨e, c, es, he, hout, rfl, rfl⟩ := of_getElem?_relabelOuts hd
    obtain ⟨k, group, hgroup, rfl⟩ := PathElement.eq_of_getElem?_keys he
    have hi' : (collected.relabel r).groups[i]? = some (r k, group.map (Field.relabel r)) := by
      rw [Collected.relabel, Entries.relabel, List.getElem?_map, hgroup]
      rfl
    obtain ⟨rfl, rfl⟩ := Prod.mk.inj (Option.some.inj (hi'.symm.trans hi))
    have hdone := ho i k group c es hgroup hout
    rw [Job.relabel, Path.relabel_join] at hdone
    exact hdone
  · rw [map_snd_relabelOuts hlength]
    exact hm.map _

theorem relabel_array (hleaf : leaf path = false) {site : FieldSite} {type : TypeRef}
    {items : List Value} (hl : items.length = outs.length)
    (ho : ∀ (i : Nat) item d ds, items[i]? = some item → outs[i]? = some (d, ds) →
      Does (s.relabel r) w room (Job.relabel r (.item site type item (path.join (.index i))))
        (d.relabel r leaf (path.join (.index i))) (ds.map (Event.relabel r)))
    (hm : Interleaving (outs.map Prod.snd) merged) :
    Does (s.relabel r) w room (Job.relabel r (.value site (.list type) (.array items) path))
      ((Completion.array (outs.map Prod.fst)).relabel r leaf path)
      (merged.map (Event.relabel r)) := by
  have hlength : ((List.range (outs.map Prod.fst).length).map PathElement.index).length =
      outs.length := by simp
  rw [Completion.relabel_array hleaf, ← map_fst_relabelOuts]
  refine .array (by rw [length_relabelOuts hlength, hl]) (fun i item d ds hi hd => ?_) ?_
  · obtain ⟨e, c, es, he, hout, rfl, rfl⟩ := of_getElem?_relabelOuts hd
    obtain ⟨-, rfl⟩ := PathElement.eq_of_getElem?_indices he
    have hdone := ho i item c es hi hout
    rw [Job.relabel, Path.relabel_join] at hdone
    exact hdone
  · rw [map_snd_relabelOuts hlength]
    exact hm.map _

/-- An execution does the same for the document under other keys, if the resolvers answer the same
at other paths. -/
theorem relabel (hr : Function.Injective r)
    (hw : ∀ resolver i answer, P resolver → w.answers ⟨resolver, i⟩ answer →
      w.answers ⟨resolver, i.relabel r⟩ answer)
    (hs : s.schema.Resolvers P) (h : Does s w room job c es) (hfits : job.Fits P s.schema leaf)
    (hleaf : ∀ p t, .reached p (some t) ∈ es → leaf p = t.isSerialized s.schema) :
    Does (s.relabel r) w room (job.relabel r) (c.relabel r leaf job.path)
      (es.map (Event.relabel r)) := by
  induction h with
  | tooDeep type value selections path => exact .tooDeep type value _ _
  | object hsees hcol hl ho hm ih =>
    refine relabel_object hr hfits.2 hsees hcol hl (fun i key fields d ds hi hd => ?_) hm
    refine ih i key fields d ds hi hd hfits.1 fun p t ht => hleaf p t (List.mem_append_right _ ?_)
    exact hm.mem_iff.2 ⟨ds, List.mem_map_of_mem (List.mem_of_getElem? hd), ht⟩
  | unselected type parent path =>
    rw [Completion.relabel_null]
    exact .unselected type parent _
  | typename parent fields path hname =>
    rw [Completion.relabel_string]
    exact .typename parent _ _ hname
  | undefined parent fields path hname hd =>
    rw [Completion.relabel_null]
    exact .undefined parent _ _ hname hd
  | field hname hd _ ih =>
    refine .field hname hd ?_
    rw [FieldSite.ofFields_relabel]
    refine ih ⟨fun resolver => hfits _ _ resolver hd, hleaf _ _ List.mem_cons_self⟩ fun p t ht => ?_
    exact hleaf p t (List.mem_cons_of_mem _ ht)
  | invalidArgument parent path ha =>
    rw [Completion.relabel_givenUp]
    exact .invalidArgument parent _ ha
  | unresolved ha hnone _ ih => exact .unresolved ha hnone (ih hfits.2 hleaf)
  | skipped parent path ha hresolver hrefused =>
    rw [Completion.relabel_givenUp]
    exact .skipped parent _ ha hresolver hrefused
  | timedOut parent path ha hresolver hrefused =>
    rw [Completion.relabel_givenUp]
    exact .timedOut parent _ ha hresolver hrefused
  | called ha hresolver hi hadmits hanswers _ ih =>
    subst hi
    refine .called ha hresolver rfl hadmits (hw _ _ _ (hfits.1 _ hresolver) hanswers) ?_
    rw [Resolution.toExcept_relabel]
    exact ih hfits.2 fun p t ht => hleaf p t (List.mem_cons_of_mem _ ht)
  | failed type path hsees he =>
    rw [Completion.relabel_givenUp]
    exact .failed type _ hsees he
  | produced hsees hv _ ih =>
    exact .produced hsees hv (ih hfits fun p t ht => hleaf p t (List.mem_cons_of_mem _ ht))
  | item _ ih =>
    refine .item (ih (hleaf _ _ List.mem_cons_self) fun p t ht => hleaf p t ?_)
    exact List.mem_cons_of_mem _ (List.mem_cons_of_mem _ ht)
  | marked _ ih => exact .marked (ih hfits hleaf)
  | absorbed hn _ ih =>
    rw [← Completion.absorb_relabel]
    exact .absorbed hn (ih hfits hleaf)
  | refused hc _ ih =>
    rw [List.map_append]
    refine .refused ((Completion.isNull_relabel _ _ _ _).trans hc) (ih hfits fun p t ht => ?_)
    exact hleaf p t (List.mem_append_left _ ht)
  | kept hc _ ih =>
    exact .kept ((Completion.isNull_relabel _ _ _ _).trans hc) (ih hfits hleaf)
  | null site type path =>
    rw [Completion.relabel_null]
    exact .null _ type _
  | unmarked hv _ ih => exact .unmarked hv (ih hfits hleaf)
  | array hl ho hm ih =>
    refine relabel_array hfits hl (fun i item d ds hi hd => ?_) hm
    refine ih i item d ds hi hd trivial fun p t ht => hleaf p t ?_
    exact hm.mem_iff.2 ⟨ds, List.mem_map_of_mem (List.mem_of_getElem? hd), ht⟩
  | notArray site type path hv ha => exact .notArray _ type _ hv ha
  | leaf site path hv hl hc =>
    rw [Completion.relabel, Job.path, Value.relabel_of_leaf r (hfits.trans hl.isSerialized)]
    exact .leaf _ _ hv hl hc
  | invalidLeaf site path hv hl hc => exact .invalidLeaf _ _ hv hl hc
  | ofObject hv ht _ ih =>
    refine .ofObject hv ht (ih ⟨hs _ _ ht, hfits.trans ?_⟩ hleaf)
    rw [TypeRef.isSerialized, ht]
    rfl
  | ofAbstract hv hd ha hc _ ih =>
    obtain ⟨claimed, -, -, hclaimed⟩ := Schema.exists_of_concreteType? hc
    refine .ofAbstract hv hd ha hc (ih ⟨hs _ _ hclaimed, hfits.trans ?_⟩ hleaf)
    rw [TypeRef.isSerialized, hd, Option.any_some, TypeDefinition.isLeaf_eq_false ha]
  | noConcrete site path hv hd ha hc => exact .noConcrete _ _ hv hd ha hc
  | unknownType site path hv hd => exact .unknownType _ _ hv hd

end Does

end Execution

end GraphQL
