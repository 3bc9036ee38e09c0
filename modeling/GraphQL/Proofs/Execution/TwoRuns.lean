import GraphQL.Proofs.Execution.Agreement
import GraphQL.Proofs.Execution.NullPropagation
import GraphQL.Proofs.Schema.Bare

/-!
Two executions in which everything is alike, except for answers at some positions, come to the same
at all other positions (`Does.compares`).

The exempt positions `Q` are closed under going down, and each of them lies at or below a position
that takes null. What happens there therefore changes neither how the positions around it end nor
which errors these record.
-/

set_option autoImplicit false

namespace GraphQL

open Json

theorem TypeRef.IsLeaf.isLeaf_eq {schema : Schema} {name : String} {d : TypeDefinition}
    (hl : (named name).IsLeaf schema) (hd : schema.type? name = some d) : d.isLeaf = true := by
  obtain ⟨d', hd', hleaf⟩ := hl
  cases hd'.symm.trans hd
  exact hleaf

theorem TypeRef.IsLeaf.of_alike {A : Resolver → Resolver → Prop} {schema schema' : Schema}
    {type : TypeRef} (h : schema.Alike A schema') (hl : type.IsLeaf schema) :
    type.IsLeaf schema' := by
  cases type with
  | named name =>
    obtain ⟨d, hd, hleaf⟩ := hl
    obtain ⟨d', hd', hbare⟩ := h.exists_type? hd
    refine ⟨d', hd', ?_⟩
    rw [← TypeDefinition.isLeaf_bare, ← hbare, TypeDefinition.isLeaf_bare, hleaf]
  | list _ | nonNull _ => exact hl.elim
  | _ => trivial

namespace Execution

/-- Outside `Q` two resolvers answer the same invocation with the same resolution. -/
def AnswersAlike (Q : Path → Prop) (w w' : World) (r r' : Resolver) : Prop :=
  ∀ i a a', ¬ Q i.path → w.answers ⟨r, i⟩ a → w'.answers ⟨r', i⟩ a' → a = a'

/-- Two settings and the worlds around them are alike outside `Q`. -/
structure Setting.Alike (Q : Path → Prop) (s s' : Setting) (w w' : World) : Prop where
  schema : s.schema.Alike (AnswersAlike Q w w') s'.schema
  document : s.document = s'.document
  bindings : s.bindings = s'.bindings
  includes : ∀ c c', w.sees c → w'.sees c' →
    s.directives.includes s.bindings c = s'.directives.includes s'.bindings c'
  transform : ∀ c c', w.sees c → w'.sees c' →
    s.directives.transform s.bindings c = s'.directives.transform s'.bindings c'
  not_skipped : ¬ w.refuses .skipped ∧ ¬ w'.refuses .skipped
  not_refuses : w.admits → ¬ w'.refuses .timedOut
  not_admits : w.refuses .timedOut → ¬ w'.admits

/-- Where the exempt positions begin, null is taken. -/
def Event.Guarded (Q : Path → Prop) (es : List Event) : Prop :=
  ∀ p element t, ¬ Q p → Q (p.join element) → .reached (p.join element) t ∈ es → TakesNull t

theorem AnswersAlike.mono {Q Q' : Path → Prop} {w w' : World} {r r' : Resolver}
    (h : AnswersAlike Q w w' r r') (hQ : ∀ p, Q p → Q' p) : AnswersAlike Q' w w' r r' :=
  fun i a a' hi => h i a a' fun hq => hi (hQ _ hq)

theorem Event.Guarded.mono {Q : Path → Prop} {es es' : List Event} (h : Guarded Q es')
    (hes : ∀ ev ∈ es, ev ∈ es') : Guarded Q es :=
  fun p element t hp hq hmem => h p element t hp hq (hes _ hmem)

theorem Event.Guarded.tail {Q : Path → Prop} {ev : Event} {es : List Event}
    (h : Guarded Q (ev :: es)) : Guarded Q es := h.mono fun _ => List.mem_cons_of_mem ev

/-- Two jobs are the same, up to resolvers. -/
inductive Job.Alike (A : Resolver → Resolver → Prop) : Job → Job → Prop where
  | object {type type' : ObjectType} (value : Value) (selections : List (Selection Literal))
      (path : Path) : type.Alike A type' →
      Alike A (.object type value selections path) (.object type' value selections path)
  | field {type type' : ObjectType} (parent : Value) (fields : List (Field Literal))
      (path : Path) : type.Alike A type' →
      Alike A (.field type parent fields path) (.field type' parent fields path)
  | defined {d d' : FieldDefinition} (site : FieldSite) (parent : Value) (path : Path) :
      d.Alike A d' → Alike A (.defined site d parent path) (.defined site d' parent path)
  | resolved (site : FieldSite) (type : TypeRef) (result : Except FieldError Value) (path : Path) :
      Alike A (.resolved site type result path) (.resolved site type result path)
  | item (site : FieldSite) (type : TypeRef) (value : Value) (path : Path) :
      Alike A (.item site type value path) (.item site type value path)
  | position (site : FieldSite) (refusesNull : Bool) (type : TypeRef) (value : Value)
      (path : Path) :
      Alike A (.position site refusesNull type value path)
        (.position site refusesNull type value path)
  | value (site : FieldSite) (type : TypeRef) (value : Value) (path : Path) :
      Alike A (.value site type value path) (.value site type value path)

def Job.TakesNull : Job → Prop
  | .field type _ fields _ => ∀ f rest d, fields = f :: rest → f.head.name ≠ "__typename" →
    Entries.get? f.head.name type.fields = some d → d.type.isNonNull = false
  | .defined _ d _ _ => d.type.isNonNull = false
  | .resolved _ type _ _ => type.isNonNull = false
  | .item _ type _ _ => type.isNonNull = false
  | .position _ refusesNull type _ _ => refusesNull = false ∧ type.isNonNull = false
  | _ => False

namespace Job.Alike

variable {A : Resolver → Resolver → Prop} {job job' : Job}

theorem path_eq (h : job.Alike A job') : job'.path = job.path := by cases h <;> rfl

theorem takesNull (h : job.Alike A job') (hj : job.TakesNull) : job'.TakesNull := by
  cases h with
  | object => exact hj.elim
  | value => exact hj.elim
  | field parent fields path ht =>
    intro f rest d' hf hname hd'
    cases hd : Entries.get? f.head.name _ with
    | none =>
      rw [ht.get?_eq_none hd] at hd'
      cases hd'
    | some d =>
      obtain ⟨d'', hd'', hd⟩ := ht.exists_get? hd
      cases hd''.symm.trans hd'
      rw [← hd.type_eq]
      exact hj f rest d hf hname ‹_›
  | defined site parent path hd =>
    rw [TakesNull, ← hd.type_eq]
    exact hj
  | resolved => exact hj
  | item => exact hj
  | position => exact hj

end Job.Alike

namespace Does

variable {s : Setting} {w : World} {room : Nat} {job : Job} {c : Completion} {es : List Event}

/-- A job at a position that takes null does not propagate. -/
theorem exists_value (h : Does s w room job c es) (hj : job.TakesNull) : ∃ v, c = .value v := by
  have hgivenUp : ∀ {type : TypeRef}, type.isNonNull = false → ∃ v, type.givenUp = .value v := by
    intro type hn
    refine ⟨.null, ?_⟩
    rw [TypeRef.givenUp, hn]
    rfl
  induction h with
  | unselected | typename | undefined => exact ⟨_, rfl⟩
  | field hname hd _ ih => exact ih (hj _ _ _ rfl hname hd)
  | invalidArgument | skipped | timedOut | failed => exact hgivenUp hj
  | unresolved _ _ _ ih => exact ih hj
  | called _ _ _ _ _ _ ih => exact ih hj
  | produced _ _ _ ih => exact ih ⟨rfl, hj⟩
  | item _ ih => exact ih ⟨rfl, hj⟩
  | marked => cases hj.2
  | @absorbed _ _ _ _ _ c =>
    cases c with
    | value v => exact ⟨v, rfl⟩
    | propagate => exact ⟨.null, rfl⟩
  | refused | kept => cases hj.1
  | _ => exact hj.elim

theorem takesNull_of_reached (h : Does s w room job c es) (hj : job.Enters)
    (ht : ∀ t, .reached job.path t ∈ es → TakesNull t) : job.TakesNull := by
  cases h with
  | unselected => nofun
  | typename _ _ _ hname =>
    rintro f rest d ⟨⟩ hne
    exact absurd hname hne
  | undefined _ _ _ _ hd =>
    rintro f rest d ⟨⟩ - hd'
    cases hd.symm.trans hd'
  | field _ hd _ =>
    rintro f rest d ⟨⟩ - hd'
    cases hd.symm.trans hd'
    exact ht _ List.mem_cons_self _ rfl
  | item => exact ht _ List.mem_cons_self _ rfl
  | _ => exact hj.elim

end Does

namespace Does

variable {s : Setting} {w : World} {room : Nat} {site : FieldSite} {name : String}
  {value : Value} {path : Path} {c : Completion} {es : List Event}

/-! How a value of a named type is done, by the type of that name. -/

theorem of_leaf {type : TypeRef} (h : Does s w room (.value site type value path) c es)
    (hv : value.isNull = false) (hl : type.IsLeaf s.schema) :
    (∃ v, type.coerceOutput s.schema value = .ok v ∧ c = .value v ∧ es = []) ∨
      ∃ e, type.coerceOutput s.schema value = .error e ∧ c = .propagate ∧
        es = [.failed (site.leafError type e path)] := by
  cases h with
  | null => cases hv
  | unmarked | array | notArray => exact hl.elim
  | leaf _ _ _ _ hc => exact .inl ⟨_, hc, rfl, rfl⟩
  | invalidLeaf _ _ _ _ hc => exact .inr ⟨_, hc, rfl, rfl⟩
  | ofObject _ hd _ => cases hl.isLeaf_eq hd
  | ofAbstract _ hd ha _ _ | noConcrete _ _ _ hd ha _ =>
    cases (hl.isLeaf_eq hd).symm.trans (TypeDefinition.isLeaf_eq_false ha)
  | unknownType _ _ _ hinput =>
    obtain ⟨d, hd, hleaf⟩ := hl
    obtain ⟨type, rfl⟩ := hinput d hd
    cases hleaf

theorem of_object {type : ObjectType}
    (h : Does s w room (.value site (.named name) value path) c es) (hv : value.isNull = false)
    (ht : s.schema.type? name = some (.object type)) :
    Does s w room (.object type value site.selections path) c es := by
  cases h with
  | null => cases hv
  | leaf _ _ _ hl _ | invalidLeaf _ _ _ hl _ => cases hl.isLeaf_eq ht
  | ofObject _ hd h =>
    cases hd.symm.trans ht
    exact h
  | ofAbstract _ hd ha _ _ | noConcrete _ _ _ hd ha _ =>
    cases hd.symm.trans ht
    cases ha
  | unknownType _ _ _ hinput =>
    obtain ⟨_, hd⟩ := hinput _ ht
    cases hd

section

variable {d : TypeDefinition} (h : Does s w room (.value site (.named name) value path) c es)
  (hv : value.isNull = false) (hd : s.schema.type? name = some d) (ha : d.isAbstract = true)

include h hv hd ha

theorem of_abstract_of_some {type : ObjectType}
    (ht : s.schema.concreteType? name value = some type) :
    Does s w room (.object type value site.selections path) c es := by
  cases h with
  | null => cases hv
  | leaf _ _ _ hl _ | invalidLeaf _ _ _ hl _ =>
    cases (hl.isLeaf_eq hd).symm.trans (TypeDefinition.isLeaf_eq_false ha)
  | ofObject _ hd' _ =>
    cases hd'.symm.trans hd
    cases ha
  | ofAbstract _ _ _ ht' h =>
    cases ht'.symm.trans ht
    exact h
  | noConcrete _ _ _ _ _ ht' => cases ht'.symm.trans ht
  | unknownType _ _ _ hinput =>
    obtain ⟨_, rfl⟩ := hinput _ hd
    cases ha

theorem of_abstract_of_none (ht : s.schema.concreteType? name value = none) :
    c = .propagate ∧ es = [.failed (site.abstractError name path)] := by
  cases h with
  | null => cases hv
  | leaf _ _ _ hl _ | invalidLeaf _ _ _ hl _ =>
    cases (hl.isLeaf_eq hd).symm.trans (TypeDefinition.isLeaf_eq_false ha)
  | ofObject _ hd' _ =>
    cases hd'.symm.trans hd
    cases ha
  | ofAbstract _ _ _ ht' _ => cases ht'.symm.trans ht
  | noConcrete => exact ⟨rfl, rfl⟩
  | unknownType _ _ _ hinput =>
    obtain ⟨_, rfl⟩ := hinput _ hd
    cases ha

end

theorem of_unknown (h : Does s w room (.value site (.named name) value path) c es)
    (hv : value.isNull = false)
    (hinput : ∀ d, s.schema.type? name = some d → ∃ type, d = .input type) :
    c = .propagate ∧ es = [.failed (site.unknownTypeError name path)] := by
  cases h with
  | null => cases hv
  | leaf _ _ _ hl _ | invalidLeaf _ _ _ hl _ =>
    obtain ⟨d, hd, hleaf⟩ := hl
    obtain ⟨_, rfl⟩ := hinput d hd
    cases hleaf
  | ofObject _ hd _ =>
    obtain ⟨_, hd⟩ := hinput _ hd
    cases hd
  | ofAbstract _ hd ha _ _ | noConcrete _ _ _ hd ha _ =>
    obtain ⟨_, rfl⟩ := hinput _ hd
    cases ha
  | unknownType => exact ⟨rfl, rfl⟩

end Does

/-! The two executions side by side, rule by rule. -/

section

variable {Q : Path → Prop} {s s' : Setting} {w w' : World} (hw : Setting.Alike Q s s' w w')

include hw

theorem Setting.Alike.coerceArguments_eq {d d' : FieldDefinition} {A : Resolver → Resolver → Prop}
    (hd : d.Alike A d') (given : List (Argument Literal)) :
    d.coerceArguments s.schema s.bindings given =
      d'.coerceArguments s'.schema s'.bindings given := by
  rw [← Schema.coerceArguments_bare, ← Schema.coerceArguments_bare s'.schema, hd.bare_eq,
    hw.schema.bare_eq, hw.bindings]

theorem Setting.Alike.collect_eq {context context' : Context} (hc : w.sees context)
    (hc' : w'.sees context') {type type' : ObjectType} (hname : type.name = type'.name)
    (path : Path) (selections : List (Selection Literal)) :
    s.collect ⟨type.name, path, context⟩ selections =
      s'.collect ⟨type'.name, path, context'⟩ selections := by
  have happlies : ∀ condition, s.schema.applies type.name condition =
      s'.schema.applies type'.name condition := by
    intro condition
    rw [← Schema.applies_bare, hw.schema.bare_eq, Schema.applies_bare, hname]
  have halike : Setting.CollectsAlike s s' ⟨type.name, path, context⟩
      ⟨type'.name, path, context'⟩ :=
    ⟨hw.document, congrFun (hw.includes context context' hc hc'), happlies, rfl⟩
  exact halike.collect_eq selections

end

/-- What a job comes to agrees, outside `Q`, with all that the job comes to in another setting,
where resolvers may differ. -/
def Compares (Q : Path → Prop) (s' : Setting) (w w' : World) (room : Nat) (job : Job)
    (c : Completion) (es : List Event) : Prop :=
  ∀ {job' : Job} {c' : Completion} {es' : List Event}, job.Alike (AnswersAlike Q w w') job' →
    ¬ Q job.path → Event.Guarded Q es → Does s' w' room job' c' es' →
    Agrees Q job.path c c' es es'

namespace Compares

variable {Q : Path → Prop} {s s' : Setting} {w w' : World} {room : Nat} {path : Path}
  {c : Completion} {es : List Event}

/-- A part is compared only as far as it is not exempt; otherwise it takes null in both. -/
theorem part {job job' : Job} {c' : Completion} {es' : List Event} {element : PathElement}
    (hup : ∀ p r, Q p → Q (p ++ r)) (hc : Compares Q s' w w' room job c es)
    (h : Does s w room job c es) (h' : Does s' w' room job' c' es')
    (hj : job.Alike (AnswersAlike Q w w') job') (henters : job.Enters)
    (hpath : job.path = path.join element) (hq : ¬ Q path) (hguard : Event.Guarded Q es) :
    Agrees Q job.path c c' es es' := by
  by_cases hjob : Q job.path
  · have hnull : job.TakesNull := h.takesNull_of_reached henters fun t hmem => by
      rw [hpath] at hjob hmem
      exact hguard path element t hq hjob hmem
    obtain ⟨v, rfl⟩ := h.exists_value hnull
    obtain ⟨v', rfl⟩ := h'.exists_value (hj.takesNull hnull)
    exact .of_exempt hup hjob h.lies_true (hj.path_eq ▸ h'.lies_true)
  · exact hc hj hjob hguard h'

theorem tooDeep {type : ObjectType} {value : Value} {selections : List (Selection Literal)} :
    Compares Q s' w w' 0 (.object type value selections path) .propagate
      [.failed (depthError path)] := by
  intro job' c' es' hj hq hguard h'
  cases hj
  cases h'
  exact .refl _ _ _ _

theorem object (hw : Setting.Alike Q s s' w w') (hup : ∀ p r, Q p → Q (p ++ r))
    {type : ObjectType} {value : Value} {selections : List (Selection Literal)}
    {context : Context} {collected : Collected} {outs : List (Completion × List Event)}
    {merged : List Event} (hc : w.sees context)
    (hcol : s.collect ⟨type.name, path, context⟩ selections = collected)
    (hl : collected.groups.length = outs.length)
    (ho : ∀ (i : Nat) key fields d ds, collected.groups[i]? = some (key, fields) →
      outs[i]? = some (d, ds) →
      Does s w room (.field type value fields (path.join (.key key))) d ds)
    (hm : Interleaving (outs.map Prod.snd) merged)
    (ih : ∀ (i : Nat) key fields d ds, collected.groups[i]? = some (key, fields) →
      outs[i]? = some (d, ds) →
      Compares Q s' w w' room (.field type value fields (path.join (.key key))) d ds) :
    Compares Q s' w w' (room + 1) (.object type value selections path)
      (.object (Entries.keys collected.groups) (outs.map Prod.fst))
      (collected.errors.map .collecting ++ merged) := by
  intro job' c' es' hj hq hguard h'
  cases hj with | object _ _ _ ht => ?_
  cases h' with
  | @object _ _ _ _ _ context' collected' outs' merged' hc' hcol' hl' ho' hm' =>
    obtain rfl : collected = collected' := by
      rw [← hcol, ← hcol', hw.collect_eq hc hc' ht.name_eq]
    have htidy := s.collect_tidy_true ⟨type.name, path, context⟩ selections
    rw [hcol] at htidy
    have hparts := Does.parts_object hcol hl ho hm
    have hparts' := Does.parts_object hcol' hl' ho' hm'
    have hagree : Agrees Q path _ _ merged merged' :=
      (Combines.object htidy.nodup).agrees hparts hparts' fun i e d ds d' ds' he hi hi' => by
        obtain ⟨key, fields, hg, rfl⟩ := PathElement.eq_of_getElem?_keys he
        have hguard' : Event.Guarded Q ds := hguard.mono fun ev hev =>
          List.mem_append_right _ (hparts.mem_merged hi hev)
        exact part hup (ih i key fields d ds hg hi) (ho i key fields d ds hg hi)
          (ho' i key fields d' ds' hg hi') (.field value fields _ ht) trivial rfl hq hguard'
    have hwhole := hagree.append (collected.errors.map .collecting) []
    rw [List.append_nil, List.append_nil] at hwhole
    exact hwhole

theorem unselected {type : ObjectType} {parent : Value} :
    Compares Q s' w w' room (.field type parent [] path) (.value .null) [] := by
  intro job' c' es' hj hq hguard h'
  cases hj
  cases h'
  exact .refl _ _ _ _

theorem typename {type : ObjectType} {f : Field Literal} {fields : List (Field Literal)}
    {parent : Value} (hname : f.head.name = "__typename") :
    Compares Q s' w w' room (.field type parent (f :: fields) path)
      (.value (.string type.name)) [] := by
  intro job' c' es' hj hq hguard h'
  cases hj with | field _ _ _ ht => ?_
  cases h' with
  | typename =>
    rw [ht.name_eq]
    exact .refl _ _ _ _
  | undefined _ _ _ hne | field hne => exact absurd hname hne

theorem undefined {type : ObjectType} {f : Field Literal} {fields : List (Field Literal)}
    {parent : Value} (hname : f.head.name ≠ "__typename")
    (hd : Entries.get? f.head.name type.fields = none) :
    Compares Q s' w w' room (.field type parent (f :: fields) path) (.value .null)
      [.reached path none, .failed ((FieldSite.ofFields type f fields).undefinedError path)] := by
  intro job' c' es' hj hq hguard h'
  cases hj with | field _ _ _ ht => ?_
  cases h' with
  | typename _ _ _ heq => exact absurd heq hname
  | undefined =>
    rw [FieldSite.ofFields, ht.name_eq]
    exact .refl _ _ _ _
  | field _ hd' _ =>
    rw [ht.get?_eq_none hd] at hd'
    cases hd'

theorem field {type : ObjectType} {f : Field Literal} {fields : List (Field Literal)}
    {d : FieldDefinition} {parent : Value} (hname : f.head.name ≠ "__typename")
    (hd : Entries.get? f.head.name type.fields = some d)
    (ih : Compares Q s' w w' room (.defined (.ofFields type f fields) d parent path) c es) :
    Compares Q s' w w' room (.field type parent (f :: fields) path) c
      (.reached path (some d.type) :: es) := by
  intro job' c' es' hj hq hguard h'
  cases hj with | field _ _ _ ht => ?_
  obtain ⟨d', hd', halike⟩ := ht.exists_get? hd
  cases h' with
  | typename _ _ _ heq => exact absurd heq hname
  | undefined _ _ _ _ hn => cases hd'.symm.trans hn
  | field _ hd'' h' =>
    cases hd'.symm.trans hd''
    rw [FieldSite.ofFields, ← ht.name_eq] at h'
    rw [← halike.type_eq]
    exact .cons (ih (.defined _ parent path halike) hq hguard.tail h') _

section

variable (hw : Setting.Alike Q s s' w w') {site : FieldSite} {d : FieldDefinition}
  {arguments : Entries Value} {parent : Value}

include hw

theorem invalidArgument {e : ArgumentError}
    (he : d.coerceArguments s.schema s.bindings site.first.arguments = .error e) :
    Compares Q s' w w' room (.defined site d parent path) d.type.givenUp
      [.failed (site.codedError e.message "INVALID_ARGUMENT" path) e.isEndless] := by
  intro job' c' es' hj hq hguard h'
  cases hj with | defined _ _ _ hd => ?_
  rw [hw.coerceArguments_eq hd] at he
  cases h' with
  | invalidArgument _ _ he' =>
    cases he'.symm.trans he
    rw [hd.type_eq]
    exact .refl _ _ _ _
  | unresolved ha | skipped _ _ ha | timedOut _ _ ha | called ha => cases ha.symm.trans he

theorem unresolved
    (ha : d.coerceArguments s.schema s.bindings site.first.arguments = .ok arguments)
    (hr : d.resolver = none)
    (ih : Compares Q s' w w' room
      (.resolved site d.type (.ok (defaultResolve parent site.first.name)) path) c es) :
    Compares Q s' w w' room (.defined site d parent path) c es := by
  intro job' c' es' hj hq hguard h'
  cases hj with | defined _ _ _ hd => ?_
  rw [hw.coerceArguments_eq hd] at ha
  have hr' := hd.resolver_eq_none hr
  cases h' with
  | invalidArgument _ _ he => cases he.symm.trans ha
  | unresolved ha' _ h' =>
    rw [← hd.type_eq] at h'
    exact ih (.resolved _ _ _ _) hq hguard h'
  | skipped _ _ _ hr'' | timedOut _ _ _ hr'' | called _ hr'' => cases hr''.symm.trans hr'

theorem timedOut {resolver : Resolver}
    (ha : d.coerceArguments s.schema s.bindings site.first.arguments = .ok arguments)
    (hr : d.resolver = some resolver) (hrefused : w.refuses .timedOut) :
    Compares Q s' w w' room (.defined site d parent path) d.type.givenUp
      [.failed (site.timeoutError path)] := by
  intro job' c' es' hj hq hguard h'
  cases hj with | defined _ _ _ hd => ?_
  rw [hw.coerceArguments_eq hd] at ha
  obtain ⟨r', hr', -⟩ := hd.exists_resolver hr
  cases h' with
  | invalidArgument _ _ he => cases he.symm.trans ha
  | unresolved _ hr'' => cases hr''.symm.trans hr'
  | skipped _ _ _ _ hrefused' => exact absurd hrefused' hw.not_skipped.2
  | timedOut =>
    rw [hd.type_eq]
    exact .refl _ _ _ _
  | called _ _ _ hadmits => exact absurd hadmits (hw.not_admits hrefused)

theorem called {resolver : Resolver} {i : Invocation} {r : Resolution}
    (ha : d.coerceArguments s.schema s.bindings site.first.arguments = .ok arguments)
    (hr : d.resolver = some resolver)
    (hi : i = ⟨parent, arguments, path, site.first.name, site.parentType⟩) (hadmits : w.admits)
    (hanswers : w.answers ⟨resolver, i⟩ r)
    (ih : Compares Q s' w w' room (.resolved site d.type (r.toExcept i) path) c es) :
    Compares Q s' w w' room (.defined site d parent path) c (.invoked i :: es) := by
  intro job' c' es' hj hq hguard h'
  cases hj with | defined _ _ _ hd => ?_
  rw [hw.coerceArguments_eq hd] at ha
  obtain ⟨r', hr', halike⟩ := hd.exists_resolver hr
  cases h' with
  | invalidArgument _ _ he => cases he.symm.trans ha
  | unresolved _ hr'' => cases hr''.symm.trans hr'
  | skipped _ _ _ _ hrefused => exact absurd hrefused hw.not_skipped.2
  | timedOut _ _ _ _ hrefused => exact absurd hrefused (hw.not_refuses hadmits)
  | called ha' hr'' hi' _ hanswers' h' =>
    cases ha'.symm.trans ha
    cases hr''.symm.trans hr'
    subst hi hi'
    -- The position is not exempt, so the answers are the same.
    cases halike _ _ _ hq hanswers hanswers'
    rw [← hd.type_eq] at h'
    exact .cons (ih (.resolved _ _ _ _) hq hguard.tail h') _

variable {type : TypeRef} {result : Except FieldError Value} {context : Context}

theorem failed {e : FieldError} (hc : w.sees context)
    (he : result.bind (s.directives.transform s.bindings context site.first.directives) =
      .error e) :
    Compares Q s' w w' room (.resolved site type result path) type.givenUp
      [.failed (e.locate site.first.location path)] := by
  intro job' c' es' hj hq hguard h'
  cases hj
  cases h' with
  | failed _ _ hc' he' =>
    rw [hw.transform _ _ hc hc'] at he
    cases he'.symm.trans he
    exact .refl _ _ _ _
  | produced hc' hv =>
    rw [hw.transform _ _ hc hc'] at he
    cases hv.symm.trans he

theorem produced {value : Value} (hc : w.sees context)
    (hv : result.bind (s.directives.transform s.bindings context site.first.directives) =
      .ok value)
    (ih : Compares Q s' w w' room (.position site false type value path) c es) :
    Compares Q s' w w' room (.resolved site type result path) c
      (.produced path value :: es) := by
  intro job' c' es' hj hq hguard h'
  cases hj
  cases h' with
  | failed _ _ hc' he =>
    rw [hw.transform _ _ hc hc'] at hv
    cases he.symm.trans hv
  | produced hc' hv' h' =>
    rw [hw.transform _ _ hc hc'] at hv
    cases hv'.symm.trans hv
    exact .cons (ih (.position _ _ _ _ _) hq hguard.tail h') _

end

section

variable {site : FieldSite} {type : TypeRef} {value : Value}

theorem item (ih : Compares Q s' w w' room (.position site false type value path) c es) :
    Compares Q s' w w' room (.item site type value path) c
      (.reached path (some type) :: .produced path value :: es) := by
  intro job' c' es' hj hq hguard h'
  cases hj
  cases h' with
  | item h' => exact .cons (.cons (ih (.position _ _ _ _ _) hq hguard.tail.tail h') _) _

theorem marked (ih : Compares Q s' w w' room (.position site true type value path) c es) :
    Compares Q s' w w' room (.position site false (.nonNull type) value path) c es := by
  intro job' c' es' hj hq hguard h'
  cases hj
  cases h' with
  | marked h' => exact ih (.position _ _ _ _ _) hq hguard h'
  | absorbed hn => cases hn

theorem absorbed (hn : type.isNonNull = false)
    (ih : Compares Q s' w w' room (.value site type value path) c es) :
    Compares Q s' w w' room (.position site false type value path) c.absorb es := by
  intro job' c' es' hj hq hguard h'
  cases hj
  cases h' with
  | marked => cases hn
  | absorbed _ h' =>
    have hagree := ih (.value _ _ _ _) hq hguard h'
    exact ⟨hagree.completion.absorb, hagree.errors⟩

theorem refused (hc : c.isNull = true)
    (ih : Compares Q s' w w' room (.value site type value path) c es) :
    Compares Q s' w w' room (.position site true type value path) .propagate
      (es ++ [.failed (site.nullError path)]) := by
  intro job' c' es' hj hq hguard h'
  cases hj
  have hguard' := hguard.mono fun ev hev => List.mem_append_left _ hev
  cases h' with
  | refused _ h' =>
    have hagree := ih (.value _ _ _ _) hq hguard' h'
    exact ⟨trivial, (hagree.append [] _).errors⟩
  | kept hc' h' =>
    have hagree := ih (.value _ _ _ _) hq hguard' h'
    rw [hagree.completion.isNull_eq hq, hc'] at hc
    cases hc

theorem kept (hc : c.isNull = false)
    (ih : Compares Q s' w w' room (.value site type value path) c es) :
    Compares Q s' w w' room (.position site true type value path) c es := by
  intro job' c' es' hj hq hguard h'
  cases hj
  cases h' with
  | refused hc' h' =>
    have hagree := ih (.value _ _ _ _) hq hguard h'
    rw [hagree.completion.isNull_eq hq, hc'] at hc
    cases hc
  | kept _ h' => exact ih (.value _ _ _ _) hq hguard h'

theorem null : Compares Q s' w w' room (.value site type .null path) (.value .null) [] := by
  intro job' c' es' hj hq hguard h'
  cases hj
  cases h' with
  | null => exact .refl _ _ _ _
  | unmarked hv | notArray _ _ _ hv | leaf _ _ hv | invalidLeaf _ _ hv | ofObject hv
    | ofAbstract hv | noConcrete _ _ hv | unknownType _ _ hv => cases hv

theorem unmarked (hv : value.isNull = false)
    (ih : Compares Q s' w w' room (.position site false type value path) c es) :
    Compares Q s' w w' room (.value site (.nonNull type) value path) c es := by
  intro job' c' es' hj hq hguard h'
  cases hj
  cases h' with
  | null => cases hv
  | unmarked _ h' => exact ih (.position _ _ _ _ _) hq hguard h'
  | leaf _ _ _ hl | invalidLeaf _ _ _ hl => exact hl.elim

theorem array (hup : ∀ p r, Q p → Q (p ++ r)) {items : List Value}
    {outs : List (Completion × List Event)} {merged : List Event}
    (hl : items.length = outs.length)
    (ho : ∀ (i : Nat) item d ds, items[i]? = some item → outs[i]? = some (d, ds) →
      Does s w room (.item site type item (path.join (.index i))) d ds)
    (hm : Interleaving (outs.map Prod.snd) merged)
    (ih : ∀ (i : Nat) item d ds, items[i]? = some item → outs[i]? = some (d, ds) →
      Compares Q s' w w' room (.item site type item (path.join (.index i))) d ds) :
    Compares Q s' w w' room (.value site (.list type) (.array items) path)
      (.array (outs.map Prod.fst)) merged := by
  intro job' c' es' hj hq hguard h'
  cases hj
  cases h' with
  | @array _ _ _ _ _ outs' merged' hl' ho' hm' =>
    have hparts := Does.parts_array hl ho hm
    have hparts' := Does.parts_array hl' ho' hm'
    refine (Combines.array items.length).agrees hparts hparts' fun i e d ds d' ds' he hi hi' => ?_
    obtain ⟨hlt, rfl⟩ := PathElement.eq_of_getElem?_indices he
    have hitem := List.getElem?_eq_getElem hlt
    have hguard' : Event.Guarded Q ds := hguard.mono fun ev hev => hparts.mem_merged hi hev
    exact part hup (ih i _ d ds hitem hi) (ho i _ d ds hitem hi) (ho' i _ d' ds' hitem hi')
      (.item site type items[i] _) trivial rfl hq hguard'
  | notArray _ _ _ _ hnot => exact absurd rfl (hnot items)
  | leaf _ _ _ hl | invalidLeaf _ _ _ hl => exact hl.elim

theorem notArray (hv : value.isNull = false) (hnot : ∀ items, value ≠ .array items) :
    Compares Q s' w w' room (.value site (.list type) value path) .propagate
      [.failed (site.listError type path)] := by
  intro job' c' es' hj hq hguard h'
  cases hj
  cases h' with
  | null => cases hv
  | array => exact absurd rfl (hnot _)
  | notArray => exact .refl _ _ _ _
  | leaf _ _ _ hl | invalidLeaf _ _ _ hl => exact hl.elim

end

section

variable (hw : Setting.Alike Q s s' w w') {site : FieldSite} {name : String} {value : Value}
  (hv : value.isNull = false)

include hw hv

theorem leaf {type : TypeRef} {v : Value} (hl : type.IsLeaf s.schema)
    (hc : type.coerceOutput s.schema value = .ok v) :
    Compares Q s' w w' room (.value site type value path) (.value v) [] := by
  intro job' c' es' hj hq hguard h'
  cases hj
  rw [hw.schema.coerceOutput_eq] at hc
  obtain ⟨v', hc', rfl, rfl⟩ | ⟨e, he, rfl, rfl⟩ := h'.of_leaf hv (hl.of_alike hw.schema)
  · cases hc'.symm.trans hc
    exact .refl _ _ _ _
  · cases he.symm.trans hc

theorem invalidLeaf {type : TypeRef} {e : InvalidValue} (hl : type.IsLeaf s.schema)
    (he : type.coerceOutput s.schema value = .error e) :
    Compares Q s' w w' room (.value site type value path) .propagate
      [.failed (site.leafError type e path)] := by
  intro job' c' es' hj hq hguard h'
  cases hj
  rw [hw.schema.coerceOutput_eq] at he
  obtain ⟨v', hc', rfl, rfl⟩ | ⟨e, he', rfl, rfl⟩ := h'.of_leaf hv (hl.of_alike hw.schema)
  · cases hc'.symm.trans he
  · cases he'.symm.trans he
    exact .refl _ _ _ _

theorem ofObject {type : ObjectType} (ht : s.schema.type? name = some (.object type))
    (ih : Compares Q s' w w' room (.object type value site.selections path) c es) :
    Compares Q s' w w' room (.value site (.named name) value path) c es := by
  intro job' c' es' hj hq hguard h'
  cases hj
  obtain ⟨type', ht', halike⟩ := hw.schema.exists_object ht
  exact ih (.object _ _ _ halike) hq hguard (h'.of_object hv ht')

theorem ofAbstract {d : TypeDefinition} {type : ObjectType} (hd : s.schema.type? name = some d)
    (ha : d.isAbstract = true) (ht : s.schema.concreteType? name value = some type)
    (ih : Compares Q s' w w' room (.object type value site.selections path) c es) :
    Compares Q s' w w' room (.value site (.named name) value path) c es := by
  intro job' c' es' hj hq hguard h'
  cases hj
  obtain ⟨d', hd', ha'⟩ := hw.schema.exists_abstract hd ha
  obtain ⟨type', ht', halike⟩ := hw.schema.exists_concrete ht
  exact ih (.object _ _ _ halike) hq hguard (h'.of_abstract_of_some hv hd' ha' ht')

theorem noConcrete {d : TypeDefinition} (hd : s.schema.type? name = some d)
    (ha : d.isAbstract = true) (ht : s.schema.concreteType? name value = none) :
    Compares Q s' w w' room (.value site (.named name) value path) .propagate
      [.failed (site.abstractError name path)] := by
  intro job' c' es' hj hq hguard h'
  cases hj
  obtain ⟨d', hd', ha'⟩ := hw.schema.exists_abstract hd ha
  have ht' := hw.schema.concreteType?_eq_none ht
  obtain ⟨rfl, rfl⟩ := h'.of_abstract_of_none hv hd' ha' ht'
  exact .refl _ _ _ _

theorem unknownType (hinput : ∀ d, s.schema.type? name = some d → ∃ type, d = .input type) :
    Compares Q s' w w' room (.value site (.named name) value path) .propagate
      [.failed (site.unknownTypeError name path)] := by
  intro job' c' es' hj hq hguard h'
  cases hj
  obtain ⟨rfl, rfl⟩ := h'.of_unknown hv (hw.schema.eq_input hinput)
  exact .refl _ _ _ _

end

end Compares

theorem Does.compares {Q : Path → Prop} {s s' : Setting} {w w' : World}
    (hw : Setting.Alike Q s s' w w') (hup : ∀ p r, Q p → Q (p ++ r)) {room : Nat} {job : Job}
    {c : Completion} {es : List Event} (h : Does s w room job c es) :
    Compares Q s' w w' room job c es := by
  induction h with
  | tooDeep => exact Compares.tooDeep
  | object hc hcol hl ho hm ih => exact Compares.object hw hup hc hcol hl ho hm ih
  | unselected => exact Compares.unselected
  | typename _ _ _ hname => exact Compares.typename hname
  | undefined _ _ _ hname hd => exact Compares.undefined hname hd
  | field hname hd _ ih => exact Compares.field hname hd ih
  | invalidArgument _ _ he => exact Compares.invalidArgument hw he
  | unresolved ha hr _ ih => exact Compares.unresolved hw ha hr ih
  | skipped _ _ _ _ hrefused => exact absurd hrefused hw.not_skipped.1
  | timedOut _ _ ha hr hrefused => exact Compares.timedOut hw ha hr hrefused
  | called ha hr hi hadmits hanswers _ ih => exact Compares.called hw ha hr hi hadmits hanswers ih
  | failed _ _ hc he => exact Compares.failed hw hc he
  | produced hc hv _ ih => exact Compares.produced hw hc hv ih
  | item _ ih => exact Compares.item ih
  | marked _ ih => exact Compares.marked ih
  | absorbed hn _ ih => exact Compares.absorbed hn ih
  | refused hc _ ih => exact Compares.refused hc ih
  | kept hc _ ih => exact Compares.kept hc ih
  | null => exact Compares.null
  | unmarked hv _ ih => exact Compares.unmarked hv ih
  | array hl ho hm ih => exact Compares.array hup hl ho hm ih
  | notArray _ _ _ hv hnot => exact Compares.notArray hv hnot
  | leaf _ _ hv hl hc => exact Compares.leaf hw hv hl hc
  | invalidLeaf _ _ hv hl he => exact Compares.invalidLeaf hw hv hl he
  | ofObject hv ht _ ih => exact Compares.ofObject hw hv ht ih
  | ofAbstract hv hd ha ht _ ih => exact Compares.ofAbstract hw hv hd ha ht ih
  | noConcrete _ _ hv hd ha ht => exact Compares.noConcrete hw hv hd ha ht
  | unknownType _ _ hv hinput => exact Compares.unknownType hw hv hinput

end Execution

end GraphQL
