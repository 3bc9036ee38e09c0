import GraphQL.Proofs.Execution.Collecting
import GraphQL.Proofs.Execution.Limits
import GraphQL.Proofs.Execution.Positions
import GraphQL.Proofs.Execution.Submissions
import Mathlib.Order.WellFounded

/-!
How deep executions go.

The keys in the path of a position and the levels of selection sets that may still be entered there
always add up to the same, whatever lists lie between. So objects are not nested deeper than the
recursion limit, and nothing happens below the level after it (`Execution.Setting.bounded`).
-/

set_option autoImplicit false

namespace GraphQL

open Json

namespace Path

/-- How many response keys a path has. -/
def level (path : Path) : Nat := path.countP (!·.isIndex)

@[simp] theorem level_nil : level [] = 0 := rfl

@[simp] theorem level_join_key (path : Path) (k : String) :
    (path.join (.key k)).level = path.level + 1 := by
  simp [level, join, PathElement.isIndex]

@[simp] theorem level_join_index (path : Path) (i : Nat) :
    (path.join (.index i)).level = path.level := by
  simp [level, join, PathElement.isIndex]

end Path

/-- Values of the type are selected from. -/
def TypeRef.IsComposite (schema : Schema) : TypeRef → Prop
  | .named name =>
    ∃ d, schema.type? name = some d ∧ ((∃ type, d = .object type) ∨ d.isAbstract = true)
  | .nonNull inner => inner.IsComposite schema
  | _ => False

theorem TypeRef.IsLeaf.not_isComposite {schema : Schema} {type : TypeRef} (h : type.IsLeaf schema) :
    ¬ type.IsComposite schema := by
  cases type with
  | named name =>
    rintro ⟨d, hd, hcomposite⟩
    obtain ⟨d', hd', hleaf⟩ := h
    obtain rfl : d = d' := Option.some.inj (hd.symm.trans hd')
    rcases hcomposite with ⟨type, rfl⟩ | habstract
    · cases hleaf
    · rw [TypeDefinition.isLeaf_eq_false habstract] at hleaf
      cases hleaf
  | nonNull => exact h.elim
  | _ => exact fun h => h

/-- An object type whose only field has that type. -/
def ObjectType.loop : ObjectType :=
  ⟨"Query", [], [("me", ⟨"me", .named "Query", [], some (.constant (.object []))⟩)]⟩

namespace Execution

/-- The code of the error of a selection set that is nested too deep. -/
abbrev depthCode : String := SpecError.recursionLimitExceeded.code

/-- An event with at most so many response keys in its path, and an error of a selection set that
is nested too deep has just so many, unless a resolver or a directive answered it. -/
structure Event.WithinLevel (s : Setting) (w : World) (most : Nat) (ev : Event) : Prop where
  invoked : ∀ i, ev = .invoked i → i.path.level ≤ most
  error : ∀ e, ev.error? = some e → ∃ path, e.path = some path ∧ path.level ≤ most ∧
    (e.code? = some depthCode → path.level = most ∨
      ∃ fe location, s.Answers w fe ∧ e = fe.locate location path)

namespace Setting

variable {s : Setting} {w : World}

theorem Fails.withinLevel {room most : Nat} {path : Path} {e : Error}
    (hp : path.level + room = most) (h : s.Fails w room path e) (endless : Bool) :
    (Event.failed e endless).WithinLevel s w most := by
  refine ⟨nofun, fun e' he => ?_⟩
  cases he
  cases h with
  | tooDeep => exact ⟨path, rfl, by omega, fun _ => .inl (by omega)⟩
  | plain site message => exact ⟨path, rfl, by omega, nofun⟩
  | coded site message _ hcode =>
    refine ⟨path, rfl, by omega, fun h => absurd ?_ hcode⟩
    exact Option.some.inj h
  | @located _ fe location _ ha =>
    exact ⟨path, rfl, by omega, fun _ => .inr ⟨fe, location, ha, rfl⟩⟩

theorem limit_withinLevel (s : Setting) (w : World) (most : Nat) :
    s.Limit w (fun _ => True) (fun room path => path.level + room = most)
      (Event.WithinLevel s w most) where
  type _ := trivial
  key key hp := by
    rw [Path.level_join_key]
    omega
  index i hp := by
    rw [Path.level_join_index]
    exact hp
  reached _ _ := ⟨nofun, nofun⟩
  produced _ _ := ⟨nofun, nofun⟩
  collecting {room path} type {context selections e} hp hc he := by
    refine ⟨nofun, fun e' he' => ?_⟩
    cases he'
    rcases (s.collects_collect _ selections).error_cases e he with he | he | he
    · cases he
    · obtain ⟨fe, directives, location, hfe, rfl⟩ := he
      exact ⟨path, rfl, by omega, fun _ => .inr ⟨fe, location, .inclusion hc hfe, rfl⟩⟩
    · obtain ⟨sp, rfl⟩ := he
      exact ⟨path, rfl, by omega, nofun⟩
  failed hp h _ := h.withinLevel hp _
  invoked _ hp _ _ _ _ _ := by
    refine ⟨fun i hi => ?_, nofun⟩
    cases hi
    exact Nat.le.intro hp

end Setting

/-- In a value at a path, objects stand less deep than a bound wherever a position of a composite
type was reached. -/
def Shallow (schema : Schema) (most : Nat) (path : Path) (es : List Event) (v : Value) : Prop :=
  ∀ below members t, v.follow? below = some (.object members) →
    .reached (path ++ below) (some t) ∈ es → t.IsComposite schema →
    (path ++ below).level < most

theorem Shallow.null (schema : Schema) (most : Nat) (path : Path) (es : List Event) :
    Shallow schema most path es .null := by
  intro below members t hfollow
  cases below with
  | nil => cases hfollow
  | cons element below => cases element <;> cases hfollow

theorem Shallow.cons {schema : Schema} {most : Nat} {path : Path} {es : List Event} {v : Value}
    (h : Shallow schema most path es v) {ev : Event} (hev : ∀ p t, ev ≠ .reached p t) :
    Shallow schema most path (ev :: es) v := fun below members t hfollow hreached ht =>
  h below members t hfollow ((List.mem_cons.1 hreached).resolve_left fun heq => hev _ _ heq.symm) ht

theorem Shallow.cons_reached {schema : Schema} {most : Nat} {path : Path} {es : List Event}
    {v : Value} (h : Shallow schema most path es v) {type : TypeRef}
    (here : type.IsComposite schema → ∀ members, v = .object members → path.level < most) :
    Shallow schema most path (.reached path (some type) :: es) v := by
  intro below members t hfollow hreached ht
  rcases List.mem_cons.1 hreached with heq | hreached
  · obtain ⟨hpath, htype⟩ := Event.reached.inj heq
    obtain rfl : below = [] := by simpa using hpath
    cases htype
    rw [List.append_nil]
    exact here ht members (Option.some.inj hfollow)
  · exact h below members t hfollow hreached ht

theorem Combines.shallow {schema : Schema} {most : Nat} {path : Path} {elements : List PathElement}
    {combine : List Completion → Completion} {build : List Value → Value}
    {outs : List (Completion × List Event)} {merged : List Event}
    (hc : Combines elements combine build) (hparts : Parts path elements outs merged)
    (h : ∀ (i : Nat) e u ds, elements[i]? = some e → outs[i]? = some (.value u, ds) →
      Shallow schema most (path.join e) ds u) {v : Value}
    (hv : combine (outs.map Prod.fst) = .value v) : Shallow schema most path merged v := by
  obtain ⟨vs, hvs, rfl⟩ := (hc.value_iff _ v hparts.length_completions).1 hv
  have hlen : elements.length = vs.length := by
    rw [← hparts.length_completions, hvs, List.length_map]
  have hholds := hc.holds vs hlen
  intro below members t hfollow hreached ht
  cases below with
  | nil => exact absurd (by simp [Event.path?]) (hparts.path?_ne hreached)
  | cons e below =>
    obtain ⟨i, he⟩ := List.mem_iff_getElem?.1 (hholds.mem_of_follow? e below _ hfollow)
    obtain ⟨hlt, -⟩ := List.getElem?_eq_some_iff.1 he
    have hu : vs[i]? = some vs[i] := List.getElem?_eq_getElem (hlen ▸ hlt)
    obtain ⟨ds, hi⟩ := Completion.exists_of_map_fst hvs hu
    have hmem := hparts.mem_part he hi hreached rfl
    rw [hholds.follow?_cons i e _ below he hu] at hfollow
    rw [← Path.join_append] at hmem ⊢
    exact h i e _ ds he hi below members t hfollow hmem ht

/-- The position of the job has a composite type. -/
def Job.IsComposite (schema : Schema) : Job → Prop
  | object _ _ _ _ => True
  | field _ _ _ _ => False
  | defined _ d _ _ => d.type.IsComposite schema
  | resolved _ type _ _ => type.IsComposite schema
  | item _ _ _ _ => False
  | position _ _ type _ _ => type.IsComposite schema
  | value _ type _ _ => type.IsComposite schema

/-- Objects stand less deep than a bound in all that a job comes to, and so does the job itself if
it comes to an object of a composite type. -/
structure Job.Comes (s : Setting) (most : Nat) (job : Job) (es : List Event) (v : Value) :
    Prop where
  shallow : Shallow s.schema most job.path es v
  here : job.IsComposite s.schema → ∀ members, v = .object members → job.path.level < most

namespace Does

variable {s : Setting} {w : World} {room most : Nat} {job : Job} {c : Completion} {es : List Event}

theorem comes_of {job' : Job} {v : Value} (h : job'.Comes s most es v)
    (hp : job'.path = job.path)
    (hc : job.IsComposite s.schema → job'.IsComposite s.schema) : job.Comes s most es v :=
  ⟨hp ▸ h.shallow, fun hj members hv => hp ▸ h.here (hc hj) members hv⟩

theorem comes_null (job : Job) (es : List Event) : job.Comes s most es .null :=
  ⟨.null _ _ _ _, fun _ _ => nofun⟩

theorem comes_givenUp {type : TypeRef} {v : Value} (h : type.givenUp = .value v) (job : Job)
    (es : List Event) : job.Comes s most es v := by
  unfold TypeRef.givenUp at h
  split at h <;> cases h
  exact comes_null job es

theorem comes (h : Does s w room job c es) (hp : job.path.level + room = most) :
    ∀ v, c = .value v → job.Comes s most es v := by
  induction h with
  | tooDeep => nofun
  | @object room type value selections path context collected outs merged hc hcol hl ho hm ih =>
    intro v hv
    have hp : path.level + (room + 1) = most := hp
    have hparts := parts_object hcol hl ho hm
    have htidy := s.collect_tidy_true ⟨type.name, path, context⟩ selections
    rw [hcol] at htidy
    have hshallow : Shallow s.schema most path merged v := by
      refine (Combines.object htidy.nodup).shallow hparts (fun i e u ds he hi => ?_) hv
      obtain ⟨key, fields, hg, rfl⟩ := PathElement.eq_of_getElem?_keys he
      refine (ih i key fields _ ds hg hi ?_ u rfl).shallow
      show (path.join (.key key)).level + room = most
      rw [Path.level_join_key]
      omega
    refine ⟨fun below members t hfollow hreached => ?_, fun _ _ _ => ?_⟩
    · rcases List.mem_append.1 hreached with hreached | hreached
      · obtain ⟨e, -, he⟩ := List.mem_map.1 hreached
        cases he
      · exact hshallow below members t hfollow hreached
    · show path.level < most
      omega
  | unselected => exact fun v hv => Completion.value.inj hv ▸ comes_null _ _
  | typename =>
    rintro v ⟨⟩
    exact ⟨fun _ _ _ _ => nofun, nofun⟩
  | undefined => exact fun v hv => Completion.value.inj hv ▸ comes_null _ _
  | field _ _ _ ih =>
    exact fun v hv => ⟨(ih hp v hv).shallow.cons_reached (ih hp v hv).here, nofun⟩
  | invalidArgument => exact fun v hv => comes_givenUp hv _ _
  | unresolved _ _ _ ih => exact fun v hv => comes_of (ih hp v hv) rfl id
  | skipped => exact fun v hv => comes_givenUp hv _ _
  | timedOut => exact fun v hv => comes_givenUp hv _ _
  | called _ _ _ _ _ _ ih =>
    exact fun v hv => ⟨(ih hp v hv).shallow.cons fun _ _ => nofun, (ih hp v hv).here⟩
  | failed => exact fun v hv => comes_givenUp hv _ _
  | produced _ _ _ ih =>
    exact fun v hv => ⟨(ih hp v hv).shallow.cons fun _ _ => nofun, (ih hp v hv).here⟩
  | @item room site type value path c es _ ih =>
    intro v hv
    have hcomes := ih hp v hv
    have hproduced : Shallow s.schema most path (.produced path value :: es) v :=
      hcomes.shallow.cons fun _ _ => nofun
    exact ⟨hproduced.cons_reached hcomes.here, nofun⟩
  | marked _ ih => exact fun v hv => comes_of (ih hp v hv) rfl id
  | @absorbed _ _ _ _ _ c _ _ _ ih =>
    intro v hv
    cases c with
    | propagate => exact Completion.value.inj hv ▸ comes_null _ _
    | value u => exact comes_of (ih hp v hv) rfl id
  | refused => nofun
  | kept _ _ ih => exact fun v hv => comes_of (ih hp v hv) rfl id
  | null => exact fun v hv => Completion.value.inj hv ▸ comes_null _ _
  | unmarked _ _ ih => exact fun v hv => comes_of (ih hp v hv) rfl id
  | @array room site type items path outs merged hl ho hm ih =>
    intro v hv
    refine ⟨(Combines.array items.length).shallow (parts_array hl ho hm) (fun i e u ds he hi => ?_)
      hv, nofun⟩
    obtain ⟨hlt, rfl⟩ := PathElement.eq_of_getElem?_indices he
    refine (ih i _ _ ds (List.getElem?_eq_getElem hlt) hi ?_ u rfl).shallow
    show (path.join (.index i)).level + room = most
    rw [Path.level_join_index]
    exact hp
  | notArray => nofun
  | leaf _ _ _ hl =>
    exact fun v _ => ⟨fun _ _ _ _ => nofun, fun hc => absurd hc hl.not_isComposite⟩
  | invalidLeaf => nofun
  | ofObject _ _ _ ih => exact fun v hv => comes_of (ih hp v hv) rfl fun _ => trivial
  | ofAbstract _ _ _ _ _ ih => exact fun v hv => comes_of (ih hp v hv) rfl fun _ => trivial
  | noConcrete => nofun
  | unknownType => nofun

end Does

namespace Setting

/-- Every execution ends, also where fragments spread themselves, whatever the resolvers answer and
however much time passes between its steps.
With at most `n` levels of selection sets below the root, objects have at most `n` response keys in
their paths, and nothing is called or recorded at a path with more than `n + 1`. Selection sets are
nested too deep at just `n + 1`. -/
theorem bounded (s : Setting) {runs : List Run} {number : Nat} {strategy : Strategy}
    {root : ObjectType} {value : Value} {selections : List (Selection Literal)} {debug : Bool}
    {context : ContextRef} {permits : Nat}
    (hr : runs[number]? =
      some (.start (s.root strategy root value selections) debug context permits))
    (contexts : ContextStore) :
    (∀ states : Nat → State,
      ¬ ∀ i, ∃ time p, ((states i).elapse time).advance p = some (states (i + 1))) ∧
    (∀ site selections, Collects s site selections .empty (s.collect site selections)) ∧
    ∀ st, State.Reaches (.start runs contexts) st →
      (∀ i, .invoked i ∈ st.events number → i.path.level ≤ s.recursionLimit + 1) ∧
      (∀ e ∈ st.errors number, ∃ path, e.path = some path ∧ path.level ≤ s.recursionLimit + 1 ∧
        (e.code? = some depthCode → path.level = s.recursionLimit + 1 ∨
          ∃ fe location, s.Answers (State.world (.start runs contexts) st number) fe ∧
            e = fe.locate location path)) ∧
      (strategy.Faithful → s.nested.Faithful →
        ((∀ p ∈ st.positions, st.advance p = none) →
          ∃ run c, st.runs[number]? = some run ∧ run.task = .done c) ∧
        ∀ run c, st.runs[number]? = some run → run.task = .done c → ∀ p members t,
          .reached p (some t) ∈ st.events number → t.IsComposite s.schema →
          c.data.follow? p = some (.object members) → p.level ≤ s.recursionLimit) := by
  refine ⟨fun states h => ?_, s.collects_collect, fun st hst => ?_⟩
  · obtain ⟨i, hi⟩ := @WellFounded.not_rel_apply_succ _ _
      ⟨InvImage.wf State.tasks Task.wellFounded_stepAny⟩ states
    obtain ⟨time, p, hp⟩ := h i
    have hstep : Task.StepAny ((states i).elapse time).tasks (states (i + 1)).tasks :=
      State.stepAny_advance hp
    exact hi hstep
  · have hw := World.Covers.world (.start runs contexts) st number
    have hlimit := s.limit_withinLevel (State.world (.start runs contexts) st number)
      (s.recursionLimit + 1)
    have hsafe : Task.Safe (State.world (.start runs contexts) st number) _
        (s.root strategy root value selections) := hlimit.safe_selectionSet trivial (by simp)
    have hevents := State.forall_events_of_reaches hst hw hr hsafe nofun
    refine ⟨fun i hi => (hevents _ hi).invoked i rfl, fun e he => ?_, fun hroot hnested => ⟨?_, ?_⟩⟩
    · obtain ⟨ev, hev, hee⟩ := List.mem_filterMap.1 he
      exact (hevents ev hev).error e hee
    · intro hstuck
      have hfresh : Task.Fresh (fun _ => True) (s.root strategy root value selections) :=
        fresh_selectionSet (fun _ _ _ _ _ _ _ _ => trivial) hnested.isLive hroot.isLive
          fun _ _ _ _ _ => trivial
      obtain ⟨run, hrun, horderly⟩ := Run.Orderly.of_reaches hst hr (.start hfresh _ _ _)
      obtain ⟨c, hc⟩ := Task.exists_eq_done (State.isDone_of_stuck hrun horderly hstuck)
      exact ⟨run, c, hrun, hc⟩
    · intro run c hrun hc p members t hreached ht hfollow
      obtain ⟨es, hes, hends⟩ := State.ends_of_reaches hst hw hr hrun hc
      have hdoes := Does.of_selectionSet hnested hroot hends
      have hshallow : Shallow s.schema (s.recursionLimit + 1) [] es c.data := by
        cases c with
        | propagate => exact .null _ _ _ _
        | value v => exact (hdoes.comes (by simp [Job.path]) v rfl).shallow
      have hst : st.events number = es := hes
      rw [hst] at hreached
      exact Nat.le_of_lt_succ (hshallow p members t hfollow hreached ht)

/-- A schema whose only type has a field of that type, and a document with a fragment that spreads
itself below that field. Two levels of selection sets may be entered. -/
def loop : Setting where
  schema := ⟨[("Query", .object .loop)], ⟨some "Query", none, none⟩, []⟩
  document := ⟨[], [("F", ⟨"F", "Query", [],
    [.field ⟨none, "me", [], [], none⟩ [.spread ⟨"F", [], none⟩]], none⟩)]⟩
  bindings := []
  directives := .standard
  recursionLimit := 1
  nested := .serial

/-- The deadline passes after the resolver has been called at the first level. -/
theorem bounded_loop :
    let first := State.start [.start (loop.root .serial .loop .null [.spread ⟨"F", [], none⟩])
      false ⟨0, some 8⟩ 1] ⟨[[]], 0⟩
    let last := first.run .ticking ()
    last.invocations.map (·.path) = [[.key "me"]] ∧
      (last.errors 0).map (·.path) = [some [.key "me", .key "me"]] ∧
      (∀ i, .invoked i ∈ last.events 0 → i.path.level ≤ 2) ∧
      (∀ e ∈ last.errors 0, ∃ path, e.path = some path ∧ path.level ≤ 2) ∧
      ∃ run c, last.runs[0]? = some run ∧ run.task = .done c ∧ ∀ p members t,
        .reached p (some t) ∈ last.events 0 → t.IsComposite loop.schema →
        c.data.follow? p = some (.object members) → p.level ≤ 1 := by
  intro first last
  have hrun : first.runs[0]? = some (.start
    (loop.root .serial .loop .null [.spread ⟨"F", [], none⟩]) false ⟨0, some 8⟩ 1) := rfl
  obtain ⟨hinvoked, herrors, hdone⟩ := (bounded loop hrun ⟨[[]], 0⟩).2.2 last
    (State.reaches_run .ticking () first)
  obtain ⟨hends, hdata⟩ := hdone Strategy.faithful_serial Strategy.faithful_serial
  obtain ⟨run, c, hrun, hc⟩ := hends (State.advance_run .ticking () first)
  refine ⟨?_, ?_, hinvoked, fun e he => ?_, run, c, hrun, hc, hdata run c hrun hc⟩
  · simp only [last, first]
    cbv
  · simp only [last, first]
    cbv
  · obtain ⟨path, hpath, hlevel, -⟩ := herrors e he
    exact ⟨path, hpath, hlevel⟩

end Setting

end Execution

end GraphQL
