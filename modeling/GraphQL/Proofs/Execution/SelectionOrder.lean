import GraphQL.Proofs.Execution.Debugging
import GraphQL.Proofs.Execution.FirstError
import GraphQL.Proofs.Execution.Scheduling
import GraphQL.Proofs.Execution.Straightening

/-!
In which order errors are returned.

The errors of a response are those that an execution with serial strategies meets, in the same order
as far as the data holds their positions (`Submission.errors_met`). Where a null stands in their
stead, less deep positions and smaller texts come first, whatever was selected first
(`Submission.not_errors_met_strict`).
-/

set_option autoImplicit false

namespace GraphQL

open Json Execution

namespace Execution

/-- The data tells that one position comes before another: it is above that, or what it lies in has
a lower place. -/
inductive Precedes (data : Value) (p q : Path) : Prop where
  | above {e : PathElement} {below : Path} : q = p ++ e :: below → Precedes data p q
  | beside {common : Path} {e f : PathElement} {p' q' : Path} {v : Value} :
      p = common ++ e :: p' → q = common ++ f :: q' → data.follow? common = some v →
      (v.place? e).compare (v.place? f) = .lt → Precedes data p q

theorem Precedes.comparePlaces_eq {data : Value} {p q : Path} (h : Precedes data p q) :
    comparePlaces (places (some data) p) (places (some data) q) = .lt := by
  cases h with
  | @above e below h =>
    have happend := comparePlaces_append [] (e :: below) p (some data)
    rw [List.append_nil, ← h, Option.bind_some] at happend
    rw [happend]
    cases data.follow? p with
    | none =>
      rw [places_none_cons]
      rfl
    | some v =>
      rw [places_cons]
      rfl
  | beside hp hq hfollow hlt =>
    rw [hp, hq, comparePlaces_append, Option.bind_some, hfollow, places_cons, places_cons,
      comparePlaces, hlt]
    rfl

theorem Precedes.not_errorLE {data : Value} {a b : Error}
    (h : Precedes data (a.path.getD []) (b.path.getD [])) : errorLE data b a = false := by
  have hcompare : (ErrorKey.ofError data b).compare (.ofError data a) =
      ((ErrorKey.ofError data a).compare (.ofError data b)).swap := Std.OrientedCmp.eq_swap
  have hlt : (ErrorKey.ofError data a).compare (.ofError data b) = .lt := by
    rw [ErrorKey.compare]
    exact congrArg (Ordering.then · _) h.comparePlaces_eq
  rw [errorLE, hcompare, hlt]
  rfl

section

variable {data : Value} {errors : List Error} {a b : Error}

/-- Of two sorted errors the one that may not stand behind the other comes first. -/
theorem pair_sublist_sortErrors_of_not (ha : a ∈ errors) (hb : b ∈ errors)
    (h : errorLE data b a = false) : [a, b].Sublist (sortErrors data errors) := by
  have hsorted := pairwise_sortErrors data errors
  have ha' : a ∈ sortErrors data errors := mem_sortErrors.2 ha
  obtain ⟨before, after, hsplit⟩ := List.append_of_mem ha'
  have hmem : b ∈ before ++ a :: after := hsplit ▸ mem_sortErrors.2 hb
  rw [hsplit] at hsorted ⊢
  rcases List.mem_append.1 hmem with hbefore | hafter
  · have hba := (List.pairwise_append.1 hsorted).2.2 b hbefore a List.mem_cons_self
    rw [h] at hba
    cases hba
  · rcases List.mem_cons.1 hafter with rfl | hafter
    · rw [errorLE_refl] at h
      cases h
    · exact (List.cons_sublist_cons.2 (List.singleton_sublist.2 hafter)).trans
        (List.sublist_append_right before _)

/-- Errors that may stand in the order in which they were recorded do. -/
theorem pair_sublist_sortErrors (h : [a, b].Sublist errors) (hle : errorLE data a b = true) :
    [a, b].Sublist (sortErrors data errors) := by
  rw [sortErrors_eq]
  refine List.sublist_mergeSort (errorLE_trans data) (errorLE_total data) ?_ h
  exact List.pairwise_pair.2 hle

theorem sortErrors_eq_self_iff :
    sortErrors data errors = errors ↔ errors.Pairwise fun a b => errorLE data a b = true := by
  constructor
  · intro h
    have hsorted := pairwise_sortErrors data errors
    rwa [h] at hsorted
  · intro h
    rw [sortErrors_eq]
    exact List.mergeSort_of_pairwise h

end

/-- Errors are returned in the order in which they were met, except for those at positions that the
data does not tell apart. -/
structure Ordered (data : Value) (met returned : List Error) : Prop where
  perm : returned.Perm met
  precedes : ∀ a ∈ met, ∀ b ∈ met, Precedes data (a.path.getD []) (b.path.getD []) →
    [a, b].Sublist returned
  stays : ∀ a b, [a, b].Sublist met →
    (Conceals data (a.path.getD []) (b.path.getD []) → (compareConcealed a b).isLE = true) →
    [a, b].Sublist returned
  turns : ∀ a b, [a, b].Sublist met → Conceals data (a.path.getD []) (b.path.getD []) →
    compareConcealed a b = .gt → [b, a].Sublist returned
  eq_iff : returned = met ↔ met.Pairwise fun a b =>
    Conceals data (a.path.getD []) (b.path.getD []) → (compareConcealed a b).isLE = true

/-- Errors that were recorded in the order of the data are returned like that. -/
theorem Recorded.ordered {data : Value} {met : List Error} (h : Recorded [] data met) :
    Ordered data met (sortErrors data met) := by
  have hranked : met.Pairwise fun a b => Ranked data (a.path.getD []) (b.path.getD []) := by
    refine h.ranked.imp_of_mem fun {a b} ha hb hab => ?_
    obtain ⟨p, hp⟩ := h.lies a ha
    obtain ⟨q, hq⟩ := h.lies b hb
    rw [hp, hq]
    exact hab p q hp hq
  have hle : ∀ {a b}, [a, b].Sublist met → (errorLE data a b = true ↔
      (Conceals data (a.path.getD []) (b.path.getD []) → (compareConcealed a b).isLE = true)) :=
    fun hab => (List.pairwise_pair.1 (hranked.sublist hab)).errorLE_iff
  refine ⟨sortErrors_perm data met, ?_, ?_, ?_, ?_⟩
  · exact fun a ha b hb hab => pair_sublist_sortErrors_of_not ha hb hab.not_errorLE
  · exact fun a b hab hconceals => pair_sublist_sortErrors hab ((hle hab).2 hconceals)
  · intro a b hab hconceals hgt
    have hmem := hab.subset
    refine pair_sublist_sortErrors_of_not (hmem (by simp)) (hmem (by simp)) ?_
    refine eq_false_of_ne_true fun htrue => ?_
    have hisLE := (hle hab).1 htrue hconceals
    rw [hgt] at hisLE
    cases hisLE
  · rw [sortErrors_eq_self_iff]
    constructor
    · intro hsorted
      exact (hsorted.and hranked).imp fun ⟨hab, hr⟩ => hr.errorLE_iff.1 hab
    · intro hmet
      exact (hmet.and hranked).imp fun ⟨hab, hr⟩ => hr.errorLE_iff.2 hab

/-- The task of an operation records errors in the order of the data when it is done with serial
strategies. -/
theorem Setting.records_serially {s : Setting} {w : World} (hs : s.schema.WellFormed)
    {strategy : Strategy} {type : ObjectType} (ht : (TypeDefinition.object type).Plain)
    (value : Value) (selections : List (Selection Literal)) :
    Task.Records w [] (s.root strategy type value selections).serially :=
  (composed_of_wellFormed (S := fun _ => True) hs trivial trivial ht value
    selections).serially.records.1

/-- Records with the same errors at each path have the same errors of each path, if no error is
without one. -/
theorem filter_eq_of_errorAt?_eq {es es' : List Event}
    (h : ∀ path, es.filterMap (Event.errorAt? path) = es'.filterMap (Event.errorAt? path))
    (hes : ∀ e ∈ es.filterMap Event.error?, e.path ≠ none)
    (hes' : ∀ e ∈ es'.filterMap Event.error?, e.path ≠ none) (path : Option Path) :
    (es.filterMap Event.error?).filter (fun e => e.path = path) =
      (es'.filterMap Event.error?).filter fun e => e.path = path := by
  cases path with
  | none =>
    rw [List.filter_eq_nil_iff.2 fun e he => by simpa using hes e he,
      List.filter_eq_nil_iff.2 fun e he => by simpa using hes' e he]
  | some x => rw [← filterMap_errorAt?, h x, filterMap_errorAt?]

end Execution

theorem Executor.serial_serially (executor : Executor) : executor.serially.Serial :=
  ⟨fun _ => rfl, rfl⟩

namespace Submission

variable {Memory : Type} {submissions : List Submission} {number : Nat} {s : Submission}

/-- The errors of a response are those that the parts of the execution meet one after the other, in
the world of the execution, and in that order except at positions that the data does not tell apart.
Where no resolver changes the context and the deadline does not pass on the way, this goes for the
errors that are recorded when everything is done one after the other. -/
theorem errors_met (schedule : Schedule Memory) (memory : Memory) (contexts : ContextStore)
    {text : String} (hparse : Document.parse text = .ok s.query.document)
    (hs : submissions[number]? = some s) (hloaded : s.query.executor.schema.Loaded)
    (hf : s.query.executor.Faithful) (hdebug : s.query.executor.configuration.debug = false)
    {plan : Plan} (hp : (s.plan contexts).1 = .ok (some plan)) :
    ∃ response c es,
      (executeAllWith schedule memory submissions contexts).result[number]? =
          some (.ok response) ∧ response.data = some c.data ∧
        Ends (world schedule memory submissions contexts number)
          (s.query.executor.task s.query.document plan).serially.inOrder c es ∧
        (∀ path, (es.filterMap Event.error?).filter (fun e => e.path = path) =
          ((run schedule memory submissions contexts).errors number).filter
            fun e => e.path = path) ∧
        Ordered c.data (es.filterMap Event.error?) response.errors ∧
        ((∀ s ∈ submissions, s.query.executor.Faithful) →
          (∀ s ∈ submissions, s.query.executor.schema.Resolvers Resolver.Quiet) →
          Steady schedule memory submissions contexts s →
          ∀ {Memory' : Type} (schedule' : Schedule Memory') (memory' : Memory'),
            Steady schedule' memory' [s.serially] contexts s.serially →
            Ordered c.data ((run schedule' memory' [s.serially] contexts).errors 0)
              response.errors) := by
  obtain ⟨c, hends, hout⟩ := exists_ends_of_live
    (.world _ _ number : (world schedule memory submissions contexts number).Covers _ _ _)
    hs hp hf.live
  obtain ⟨name, hname⟩ := Schema.exists_of_rootType? (PreparedQuery.of_plan hp).2.1
  have hdoes : Does (s.setting plan) _ s.room (s.job plan) c _ :=
    .of_selectionSet hf.nested (hf.root plan.operation.kind) hends
  have hparted : Task.Parted Strategy.Faithful (s.query.executor.task s.query.document plan) :=
    Setting.parted_root (s := s.setting plan) hloaded.wellFormed hf.nested (hf.root _)
      (hloaded.wellFormed name _ hname).2 _ _
  obtain ⟨es, hstraight, hsame⟩ := hends.exists_serially (fun _ h => h.keep_eq) hparted
  have hrecorded : Recorded [] c.data (es.filterMap Event.error?) :=
    Setting.records_serially (s := s.setting plan) hloaded.wellFormed
      (hloaded.wellFormed name _ hname).2 _ _ c es hstraight
  have hnamed := named_of_does hparse hp rfl hdoes
  have hpaths := filter_eq_of_errorAt?_eq hsame
    (fun e he => by obtain ⟨path, hpath⟩ := hrecorded.lies e he; simp [hpath])
    (fun e he => by obtain ⟨path, hpath, -⟩ := hnamed e he; simp [hpath])
  have herrors : sortErrors c.data ((run schedule memory submissions contexts).errors number) =
      sortErrors c.data (es.filterMap Event.error?) :=
    sortErrors_eq_of_filter_eq hnamed fun path => (hpaths path).symm
  have hresult : (executeAllWith schedule memory submissions contexts).result[number]? =
      some (.ok ⟨some c.data, sortErrors c.data (es.filterMap Event.error?), []⟩) := by
    rw [executeAllWith, List.getElem?_mapIdx, hs, Option.map_some, conclude, hp]
    change some (s.query.executor.conclude _) = _
    rw [Executor.conclude, hdebug, hout, Output.of, herrors]
  refine ⟨_, c, es, hresult, rfl, hstraight, hpaths, hrecorded.ordered, ?_⟩
  intro hfs hquiet hsteady Memory' schedule' memory' hsteady'
  -- The response of the serial execution is the same, and so are the data that sort its errors.
  have hresponse := (response_serially schedule memory schedule' memory' contexts hparse hs hfs
    hquiet hsteady hsteady' hdebug).1
  have hserial := recorded_serial schedule' memory' contexts
    (rfl : [s.serially][0]? = some s.serially) hloaded s.query.executor.serial_serially
  have hconclude : (executeWith schedule' memory' s.serially contexts).result =
      .ok ⟨some ((run schedule' memory' [s.serially] contexts).output 0).data,
        ((run schedule' memory' [s.serially] contexts).output 0).errors, []⟩ := by
    rw [executeWith, conclude, plan_serially, hp]
    change s.serially.query.executor.conclude _ = _
    rw [Executor.conclude, show s.serially.query.executor.configuration.debug = false from hdebug]
  rw [hresult, hconclude] at hresponse
  injection hresponse with hresponse
  injection hresponse with hresponse
  injection hresponse with hdata herrors
  rw [herrors, Option.some.inj hdata]
  exact hserial.ordered

/-- Whether what was read of a text is the operation for both fields of the strict schema. -/
def readsStrict : Except Syntax.SyntaxError (List Syntax.Item) → Bool
  | .ok [.executable (.operation ⟨none, .query, [], [],
      [.field ⟨none, "o", [], [], some ⟨1, 2⟩⟩ [.field ⟨none, "b", [], [], some ⟨1, 4⟩⟩ [],
        .field ⟨none, "a", [], [], some ⟨1, 6⟩⟩ []]], some ⟨1, 1⟩⟩)] => true
  | _ => false

theorem parse_strict (resolver : Resolver) :
    Document.parse "{o{b a}}" = .ok (strict resolver).query.document := by
  have hread : readsStrict (Syntax.Item.parse "{o{b a}}") = true := by decide +kernel
  unfold readsStrict at hread
  split at hread
  · next hitems =>
    rw [Document.parse, hitems]
    rfl
  · cases hread

theorem exists_plan_strict (resolver : Resolver) :
    ∃ plan, (((strict resolver).withDebug false).plan ⟨[[]], 0⟩).1 = .ok (some plan) :=
  ⟨_, rfl⟩

theorem errors_met_strict :
    let s := (strict (.failing (.ofMessage "boom"))).withDebug false
    Document.parse "{o{b a}}" = .ok s.query.document ∧ s.query.executor.schema.Loaded ∧
      s.query.executor.Faithful ∧ s.query.executor.configuration.debug = false ∧
      ∃ plan, (s.plan ⟨[[]], 0⟩).1 = .ok (some plan) ∧ ∃ response c es,
        (executeAllWith .first () [s] ⟨[[]], 0⟩).result[0]? = some (.ok response) ∧
          response.data = some c.data ∧
          Ends (world .first () [s] ⟨[[]], 0⟩ 0)
            (s.query.executor.task s.query.document plan).serially.inOrder c es ∧
          Ordered c.data (es.filterMap Event.error?) response.errors := by
  intro s
  have hparse := parse_strict (.failing (.ofMessage "boom"))
  have hloaded : s.query.executor.schema.Loaded := Schema.loaded_strict _
  have hfaithful : s.query.executor.Faithful :=
    ⟨fun _ => Strategy.faithful_serial, Strategy.faithful_serial⟩
  obtain ⟨plan, hp⟩ := exists_plan_strict (.failing (.ofMessage "boom"))
  obtain ⟨response, c, es, hresult, hdata, hends, -, hordered, -⟩ :=
    errors_met (s := s) .first () ⟨[[]], 0⟩ hparse (rfl : [s][0]? = some s) hloaded hfaithful rfl hp
  exact ⟨hparse, hloaded, hfaithful, rfl, plan, hp, response, c, es, hresult, hdata, hends,
    hordered⟩

/-- Of two fields of an object that is null in the end, the one with the smaller name comes first
among the errors, although the other one was selected and recorded first. -/
theorem not_errors_met_strict :
    let s := (strict (.failing (.ofMessage "boom"))).withDebug false
    let first : Error := ⟨"boom", [⟨1, 4⟩], some [.key "o", .key "b"], []⟩
    let second : Error := ⟨"Cannot return null for non-nullable field O.a.", [⟨1, 6⟩],
      some [.key "o", .key "a"], []⟩
    s.query.executor.configuration.debug = false ∧ s.query.executor.Serial ∧
      (run .first () [s] ⟨[[]], 0⟩).errors 0 = [first, second] ∧
        (executeAllWith .first () [s] ⟨[[]], 0⟩).result[0]? =
          some (.ok ⟨some (.object [("o", .null)]), [second, first], []⟩) := by
  intro s first second
  have herrors : (run .first () [s] ⟨[[]], 0⟩).errors 0 = [first, second] := by cbv
  have hresult : (executeAllWith .first () [s] ⟨[[]], 0⟩).result[0]? =
      some (.ok ⟨some (.object [("o", .null)]), [second, first], []⟩) := by cbv
  exact ⟨rfl, ⟨fun _ => rfl, rfl⟩, herrors, hresult⟩

end Submission

end GraphQL
