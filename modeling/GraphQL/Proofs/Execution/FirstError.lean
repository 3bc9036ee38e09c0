import GraphQL.Proofs.Execution.Recording
import GraphQL.Proofs.Execution.Submissions
import Mathlib.Data.List.Permutation

/-!
Which error debug mode reports.

Debug mode reports the first error in the order of the response, and serial strategies record errors
in the order of the data. The two agree unless a null conceals the positions of both errors
(`Submission.reports_first_iff`): then fields that are resolved without a call still record errors
after the first one, and less deep positions or smaller texts come first
(`Submission.not_reports_first_strict`).
-/

set_option autoImplicit false

namespace GraphQL

open Json Execution

/-- Serial strategies at all levels. -/
structure Executor.Serial (executor : Executor) : Prop where
  root : ∀ kind, executor.rootStrategy kind = .serial
  nested : executor.nested = .serial

theorem Executor.Serial.live {executor : Executor} (h : executor.Serial) : executor.Live where
  root kind := by
    rw [h.root kind]
    trivial
  nested := by
    rw [h.nested]
    trivial

/-- A schema with an object of two fields that refuse null. -/
def Schema.strict (resolver : Option Resolver) : Schema where
  types := builtin.types ++ [("Query", .object ⟨"Query", [], [("o", ⟨"o", .named "O", [], none⟩)]⟩),
    ("O", .object ⟨"O", [],
      [("b", ⟨"b", .nonNull .int, [], resolver⟩), ("a", ⟨"a", .nonNull .int, [], none⟩)]⟩)]
  roots := ⟨some "Query", none, none⟩
  typeResolvers := []

/-- Whether what was read of a text are the declarations of the strict schema. -/
def Schema.declaresStrict : Except Syntax.SyntaxError (List Syntax.Item) → Bool
  | .ok [.schema ⟨false, .object "Query" [] [⟨"o", .named "O", []⟩]⟩,
      .schema ⟨false, .object "O" [] [⟨"b", .nonNull .int, []⟩, ⟨"a", .nonNull .int, []⟩]⟩] => true
  | _ => false

theorem Schema.loaded_strict (resolver : Resolver) : (strict (some resolver)).Loaded := by
  have hparse : parse "type Query{o:O} type O{b:Int! a:Int!}" = .ok (strict none) := by
    have hread :
        declaresStrict (Syntax.Item.parse "type Query{o:O} type O{b:Int! a:Int!}") = true := by
      decide +kernel
    unfold declaresStrict at hread
    split at hread
    · next hitems =>
      rw [parse, hitems]
      rfl
    · cases hread
  exact .resolver (.parse hparse)
    (rfl : (strict none).registerResolver "O" "b" resolver = .ok (strict (some resolver)))

/-- In debug mode, with an empty object under the root. -/
def Executor.strict (resolver : Resolver) : Executor where
  schema := .strict (some resolver)
  configuration := { debug := true }
  directives := .standard
  rootValue := .object [("o", .object [])]
  rootStrategy := fun _ => .serial
  nested := .serial
  validator := none
  queryCache := none

theorem Executor.serial_strict (resolver : Resolver) : (strict resolver).Serial :=
  ⟨fun _ => rfl, rfl⟩

namespace Submission

/-- A query for both fields of the strict schema. -/
def strict (resolver : Resolver) : Submission where
  query := (Executor.strict resolver).prepare ⟨[("", ⟨none, .query, [], [],
    [.field ⟨none, "o", [], [], some ⟨1, 2⟩⟩ [.field ⟨none, "b", [], [], some ⟨1, 4⟩⟩ [],
      .field ⟨none, "a", [], [], some ⟨1, 6⟩⟩ []]], some ⟨1, 1⟩⟩)], []⟩
  variableValues := []
  context := ⟨0, none⟩
  operationName := none

variable {Memory : Type} {submissions : List Submission} {number : Nat} {s : Submission}

theorem exists_plan_or_start_eq (s : Submission) (contexts : ContextStore) :
    (∃ plan, (s.plan contexts).1 = .ok (some plan)) ∨
      (s.start contexts).task = .done .propagate := by
  cases hp : (s.plan contexts).1 with
  | error e =>
    rw [start, hp]
    exact .inr rfl
  | ok plan? =>
    cases plan? with
    | none =>
      rw [start, hp]
      exact .inr rfl
    | some plan => exact .inl ⟨plan, rfl⟩

variable (schedule : Schedule Memory) (memory : Memory) (contexts : ContextStore)

/-- Only what is planned records errors. -/
theorem exists_plan_of_errors (hs : submissions[number]? = some s)
    (hl : s.query.executor.Live)
    (he : (run schedule memory submissions contexts).errors number ≠ []) :
    ∃ plan, (s.plan contexts).1 = .ok (some plan) := by
  rcases s.exists_plan_or_start_eq contexts with hp | hstart
  · exact hp
  · obtain ⟨c, hends, -⟩ := exists_account_of_live
      (.refl (world schedule memory submissions contexts number)) (.world _ _ number) hs hl
    rw [hstart] at hends
    have hevents : (run schedule memory submissions contexts).events number = [] := hends.of_done.2
    rw [State.errors, hevents] at he
    exact absurd rfl he

/-- Serial strategies record errors in the order of the data. -/
theorem recorded_serial (hs : submissions[number]? = some s)
    (hloaded : s.query.executor.schema.Loaded) (hserial : s.query.executor.Serial) :
    Recorded [] ((run schedule memory submissions contexts).output number).data
      ((run schedule memory submissions contexts).errors number) := by
  let w := world schedule memory submissions contexts number
  obtain ⟨c, hends, hout⟩ := exists_account_of_live (Task.account_inOrder w) (.world _ _ number) hs
    hserial.live
  have hrecords : Task.Records w [] (s.start contexts).task := by
    rcases s.exists_plan_or_start_eq contexts with ⟨plan, hp⟩ | hstart
    · obtain ⟨name, hname⟩ := Schema.exists_of_rootType? (PreparedQuery.of_plan hp).2.1
      rw [task_start hp, Executor.task, hserial.root]
      exact Setting.records_root (s := s.setting plan) hloaded.wellFormed hserial.nested
        (hloaded.wellFormed name _ hname).2 _ _
    · rw [hstart]
      exact Task.records_done _
  rw [hout]
  exact hrecords c _ hends

/-- Debug mode fails with the first recorded error just if no later one, which the data does not
tell apart from it, comes before it by its depth and its texts. -/
theorem reports_first_iff (hs : submissions[number]? = some s)
    (hloaded : s.query.executor.schema.Loaded)
    (hdebug : s.query.executor.configuration.debug = true) (hserial : s.query.executor.Serial)
    {first : Error} {later : List Error}
    (hrecord : (run schedule memory submissions contexts).errors number = first :: later) :
    ∃ reported ∈ first :: later,
      (executeAllWith schedule memory submissions contexts).result[number]? =
          some (.error (.field reported)) ∧
        (reported = first ↔ ∀ e ∈ later,
          Conceals ((run schedule memory submissions contexts).output number).data
            (first.path.getD []) (e.path.getD []) → (compareConcealed first e).isLE = true) := by
  let output := (run schedule memory submissions contexts).output number
  obtain ⟨plan, hp⟩ := exists_plan_of_errors schedule memory contexts hs hserial.live
    (by simp [hrecord])
  have hrecorded := recorded_serial schedule memory contexts hs hloaded hserial
  have herrors : output.errors = sortErrors output.data (first :: later) := by
    rw [← hrecord]
    rfl
  obtain ⟨reported, rest, hsorted⟩ : ∃ reported rest,
      sortErrors output.data (first :: later) = reported :: rest := by
    refine List.exists_cons_of_ne_nil fun hnil => ?_
    have hfirst : first ∈ sortErrors output.data (first :: later) :=
      mem_sortErrors.2 List.mem_cons_self
    rw [hnil] at hfirst
    cases hfirst
  have hresult : (executeAllWith schedule memory submissions contexts).result[number]? =
      some (.error (.field reported)) := by
    have hconclude : s.query.executor.conclude output = .error (.field reported) := by
      rw [Executor.conclude, hdebug, herrors, hsorted]
    rw [executeAllWith, List.getElem?_mapIdx, hs, Option.map_some, conclude, hp]
    exact congrArg some hconclude
  refine ⟨reported, ?_, hresult, ?_⟩
  · rw [← mem_sortErrors, hsorted]
    exact List.mem_cons_self
  · rw [head_sortErrors_eq_iff hsorted]
    refine forall₂_congr fun e he => Ranked.errorLE_iff ?_
    rw [hrecord] at hrecorded
    obtain ⟨p, hfirst⟩ := hrecorded.lies first List.mem_cons_self
    obtain ⟨q, hlater⟩ := hrecorded.lies e (List.mem_cons_of_mem _ he)
    rw [hfirst, hlater]
    exact List.rel_of_pairwise_cons hrecorded.ranked he p q hfirst hlater

theorem errors_strict :
    (run .first () [strict (.failing (.ofMessage "boom"))] ⟨[[]], 0⟩).errors 0 =
      [⟨"boom", [⟨1, 4⟩], some [.key "o", .key "b"], []⟩,
        ⟨"Cannot return null for non-nullable field O.a.", [⟨1, 6⟩],
          some [.key "o", .key "a"], []⟩] := by
  cbv

theorem reports_first_iff_strict :
    let s := strict (.failing (.ofMessage "boom"))
    let first : Error := ⟨"boom", [⟨1, 4⟩], some [.key "o", .key "b"], []⟩
    let second : Error := ⟨"Cannot return null for non-nullable field O.a.", [⟨1, 6⟩],
      some [.key "o", .key "a"], []⟩
    let last := run .first () [s] ⟨[[]], 0⟩
    s.query.executor.schema.Loaded ∧ s.query.executor.configuration.debug = true ∧
      s.query.executor.Serial ∧ last.errors 0 = [first, second] ∧
      ∃ reported ∈ [first, second],
        (executeAllWith .first () [s] ⟨[[]], 0⟩).result[0]? = some (.error (.field reported)) ∧
          (reported = first ↔ ∀ e ∈ [second], Conceals (last.output 0).data
            (first.path.getD []) (e.path.getD []) → (compareConcealed first e).isLE = true) := by
  intro s first second last
  have hloaded : s.query.executor.schema.Loaded := Schema.loaded_strict _
  have hserial : s.query.executor.Serial := Executor.serial_strict _
  exact ⟨hloaded, rfl, hserial, errors_strict,
    reports_first_iff .first () ⟨[[]], 0⟩ rfl hloaded rfl hserial errors_strict⟩

/-- A later error is reported: after the first one its object is null, and the field `a` is resolved
without a call. -/
theorem not_reports_first_strict :
    let s := strict (.failing (.ofMessage "boom"))
    let first : Error := ⟨"boom", [⟨1, 4⟩], some [.key "o", .key "b"], []⟩
    let second : Error := ⟨"Cannot return null for non-nullable field O.a.", [⟨1, 6⟩],
      some [.key "o", .key "a"], []⟩
    s.query.executor.configuration.debug = true ∧ s.query.executor.Serial ∧
      (run .first () [s] ⟨[[]], 0⟩).errors 0 = [first, second] ∧
        (executeAllWith .first () [s] ⟨[[]], 0⟩).result[0]? = some (.error (.field second)) ∧
          second ≠ first := by
  intro s first second
  have hresult : (executeAllWith .first () [s] ⟨[[]], 0⟩).result[0]? =
      some (.error (.field second)) := by cbv
  exact ⟨rfl, Executor.serial_strict _, errors_strict, hresult, by simp [first, second]⟩

end Submission

end GraphQL
