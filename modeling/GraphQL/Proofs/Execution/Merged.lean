import GraphQL.Proofs.Execution.Expanded
import GraphQL.Proofs.Execution.FirstError
import GraphQL.Proofs.Execution.Lockstep
import GraphQL.Proofs.Execution.Merging
import GraphQL.Proofs.Execution.Selected
import Mathlib

/-!
What difference it makes to an execution that a field occurs twice in a row: none, unless a
directive fails on the field.

Selection sets are collected to groups of the fields that they select, so that both occurrences come
into one group (`Submission.fields_collected`).
-/

set_option autoImplicit false

namespace GraphQL

open Json

namespace Execution

/-- An error of the kind is recorded while fields are collected. -/
def Event.Collecting (K : Error → Prop) (event : Event) : Prop := ∃ e, K e ∧ event = .collecting e

theorem Task.Mirrors.until {K : Error → Prop} {t t' : Task}
    (h : Task.Mirrors (SameUpTo K) t t') : t.Until (Event.Collecting K) t' := by
  induction h with
  | done c => exact .done c
  | emit e _ ih => exact .emit e ih
  | collecting hsame _ ih =>
    rcases hsame with rfl | ⟨before, e, after, after', hk, rfl, rfl⟩
    · exact ih.emitAll _
    · rw [List.map_append, List.map_append, emitAll, emitAll, List.foldr_append, List.foldr_append]
      exact .emitAll _ (.stop _ _ ⟨e, hk, rfl⟩)
  | read _ ih => exact .read ih
  | call k stage _ ih => exact .call k stage ih
  | fork s hl _ _ ihc ih => exact .fork s hl ihc ih

end Execution

open Execution

namespace Submission

variable {Memory : Type} {submissions : List Submission} {number : Nat} {s : Submission}
  {F : FieldHead Literal → Prop} {d : Document}

/-- The error is what a directive leaves in the execution that fails on a field of a kind. -/
def FailsOn (F : FieldHead Literal → Prop) (contexts : ContextStore) (s : Submission) (e : Error) :
    Prop :=
  ∃ plan, (s.plan contexts).1 = .ok (some plan) ∧
    (s.query.executor.setting s.query.document plan.bindings).FailsOn F e

theorem conclude_congr {last last' : State} (contexts : ContextStore)
    (h : last.output number = last'.output number) :
    s.conclude contexts number last = s.conclude contexts number last' := by
  rw [conclude, conclude, h]

section

variable (hd : s.query.document.Merges F d) (contexts : ContextStore)

include hd

/-- The execution begins with a task that does the same until a directive fails. -/
theorem start_merged : (s.start contexts).Until (Event.Collecting (s.FailsOn F contexts))
    ((s.withDocument d).start contexts) := by
  rcases plan_withDocument contexts hd.operations with
    ⟨plan, nodes, hp, hnodes, hp'⟩ | ⟨hnone, hsame⟩
  · let setting := s.query.executor.setting s.query.document plan.bindings
    have hfails : s.FailsOn F contexts = setting.FailsOn F := by
      funext e
      refine propext ⟨?_, fun he => ⟨plan, hp, he⟩⟩
      rintro ⟨plan', hplan', he⟩
      obtain rfl : plan = plan' := by simpa [hp] using hplan'
      exact he
    have hmirrors : setting.Mirrors d (SameUpTo (setting.FailsOn F)) (Selection.Merges F) :=
      Setting.mirrors_of_merges hd
    have htask := (hmirrors.selectionSet (setting.recursionLimit + 1)
      (s.query.executor.rootStrategy plan.operation.kind) plan.rootType
      s.query.executor.rootValue [] _ _ hnodes).until
    rw [hfails, start, start, hp, hp']
    exact ⟨_, htask, rfl⟩
  · have hstart : (s.withDocument d).start contexts = s.start contexts := by
      rw [start, start, hsame]
      rcases hp : (s.plan contexts).1 with e | ⟨⟨⟩ | plan⟩
      · rfl
      · rfl
      · exact absurd hp (hnone plan)
    rw [hstart]
    exact ⟨_, .refl _, rfl⟩

theorem conclude_merged (number : Nat) (last : State) :
    (s.withDocument d).conclude contexts number last = s.conclude contexts number last := by
  rw [conclude, conclude]
  rcases plan_withDocument contexts hd.operations with ⟨plan, nodes, hp, -, hp'⟩ | ⟨-, hsame⟩
  · rw [hp, hp']
    rfl
  · rw [hsame]
    rfl

variable {Memory : Type}

theorem run_merged (hs : submissions[number]? = some s) {schedule : Schedule Memory}
    (hschedule : schedule.Superficial) (memory : Memory)
    (hsound : ∀ e, s.FailsOn F contexts e →
      .collecting e ∉ (run schedule memory submissions contexts).events number) :
    (run schedule memory submissions contexts).Until
      (fun n e => n = number ∧ Event.Collecting (s.FailsOn F contexts) e)
      (run schedule memory (submissions.set number (s.withDocument d)) contexts) := by
  have hstart : (State.start (submissions.map (·.start contexts)) contexts).Until
      (fun n e => n = number ∧ Event.Collecting (s.FailsOn F contexts) e)
      (State.start ((submissions.set number (s.withDocument d)).map (·.start contexts))
        contexts) := by
    refine ⟨rfl, rfl, fun i => ?_⟩
    simp only [State.start, List.getElem?_map]
    by_cases hi : number = i
    · subst hi
      have hkind : (fun e => number = number ∧ Event.Collecting (s.FailsOn F contexts) e) =
          Event.Collecting (s.FailsOn F contexts) := by simp
      rw [List.getElem?_set_self (List.getElem?_eq_some_iff.1 hs).1, hs, hkind]
      exact .some (start_merged hd contexts)
    · rw [List.getElem?_set_ne hi]
      cases submissions[i]? with
      | none => exact .none
      | some other => exact .some ⟨_, .refl _, rfl⟩
  rcases hstart.run hschedule memory with huntil | ⟨_, _, ⟨rfl, e, he, rfl⟩, hmem⟩
  · exact huntil
  · exact absurd (State.mem_events.2 hmem) (hsound e he)

theorem executeAllWith_merged (hs : submissions[number]? = some s) {schedule : Schedule Memory}
    (hschedule : schedule.Superficial) (memory : Memory)
    (hsound : ∀ e, s.FailsOn F contexts e →
      .collecting e ∉ (run schedule memory submissions contexts).events number) :
    executeAllWith schedule memory (submissions.set number (s.withDocument d)) contexts =
      executeAllWith schedule memory submissions contexts := by
  have huntil := run_merged hd contexts hs hschedule memory hsound
  have hinvocations : (run schedule memory (submissions.set number (s.withDocument d))
      contexts).invocations = (run schedule memory submissions contexts).invocations := by
    rw [State.invocations, State.invocations, huntil.trace]
  rw [executeAllWith, executeAllWith, hinvocations, huntil.contexts]
  congr 1
  refine List.ext_getElem? fun i => ?_
  rw [List.getElem?_mapIdx, List.getElem?_mapIdx, List.getElem?_set]
  split
  · next hi =>
    subst hi
    rw [if_pos (List.getElem?_eq_some_iff.1 hs).1, hs, Option.map_some, Option.map_some,
      conclude_merged hd, conclude_congr contexts (huntil.output_eq number)]
  · cases submissions[i]? with
    | none => rfl
    | some other =>
      rw [Option.map_some, Option.map_some, conclude_congr contexts (huntil.output_eq i)]

end

/-- Collecting groups exactly the fields that a selection set selects, for every document. It makes
no difference to an outcome that a field is written once which occurs twice in a row, and takes all
selections, if no directive fails on such a field: under the schedule that executions follow, and
under one that goes the way of any run whatever. -/
theorem fields_collected :
    (∀ (s : Setting) (site : Site) (nodes : List (Selection Literal)),
      (∃! fields, s.Selects site nodes fields) ∧
        ∀ fields, s.Selects site nodes fields → Groups fields (s.collect site nodes).groups) ∧
    (Schedule.rota.Superficial ∧ Schedule.replay.Superficial ∧
      ∀ {Memory : Type} (schedule : Schedule Memory) (memory : Memory)
        (submissions : List Submission) (contexts : ContextStore),
        ∃ order, run schedule memory submissions contexts =
          run .replay order submissions contexts) ∧
    ∀ {Memory : Type} (schedule : Schedule Memory) (memory : Memory) (submissions : List Submission)
      (contexts : ContextStore) (number : Nat) (s : Submission) (F : FieldHead Literal → Prop)
      (d : Document), schedule.Superficial → submissions[number]? = some s →
      s.query.document.Merges F d →
      (∀ e, s.FailsOn F contexts e →
        .collecting e ∉ (run schedule memory submissions contexts).events number) →
      executeAllWith schedule memory (submissions.set number (s.withDocument d)) contexts =
        executeAllWith schedule memory submissions contexts := by
  refine ⟨Setting.groups_collect, ⟨Schedule.superficial_rota, Schedule.superficial_replay, ?_⟩, ?_⟩
  · intro _ schedule memory submissions contexts
    exact State.exists_run_replay schedule memory _
  · intro _ schedule memory submissions contexts number s F d hschedule hs hd hsound
    exact executeAllWith_merged hd contexts hs hschedule memory hsound

/-- The query `{o {b} o {a}}` for the strict schema, with a value for `a`. -/
def doubled (resolver : Resolver) : Submission where
  query := { Executor.strict resolver with
      configuration := {}, rootValue := .object [("o", .object [("a", .int 3)])] }.prepare
    ⟨[("", ⟨none, .query, [], [],
      [.field ⟨none, "o", [], [], some ⟨1, 2⟩⟩ [.field ⟨none, "b", [], [], some ⟨1, 5⟩⟩ []],
        .field ⟨none, "o", [], [], some ⟨1, 8⟩⟩ [.field ⟨none, "a", [], [], some ⟨1, 11⟩⟩ []]],
      some ⟨1, 1⟩⟩)], []⟩
  variableValues := []
  context := ⟨0, none⟩
  operationName := none

/-- The query `{o {b a}}` has the same response. -/
theorem fields_collected_doubled :
    let s := doubled (.constant (.int 7))
    let once : Document := ⟨[("", ⟨none, .query, [], [],
      [.field ⟨none, "o", [], [], some ⟨1, 2⟩⟩ [.field ⟨none, "b", [], [], some ⟨1, 5⟩⟩ [],
        .field ⟨none, "a", [], [], some ⟨1, 11⟩⟩ []]], some ⟨1, 1⟩⟩)], []⟩
    s.query.document.Merges (· = ⟨none, "o", [], [], some ⟨1, 2⟩⟩) once ∧
      (executeAllWith .rota .start [s.withDocument once] ⟨[[]], 0⟩).result =
        [.ok ⟨some (.object [("o", .object [("b", .int 7), ("a", .int 3)])]), [], []⟩] := by
  intro s once
  have hd : s.query.document.Merges (· = ⟨none, "o", [], [], some ⟨1, 2⟩⟩) once := by
    refine ⟨.cons ⟨rfl, _, ?_, rfl⟩ .nil, .nil⟩
    refine Selection.merges_adjacent ?_ ?_ [] _ _ []
    · rfl
    · rfl
  obtain ⟨-, ⟨hrota, -⟩, hmerged⟩ := fields_collected
  have hsame := hmerged .rota .start [s] ⟨[[]], 0⟩ 0 s _ once hrota rfl hd <| by
    rintro e ⟨plan, -, head, context, path, fe, rfl, hfails, -⟩
    cases hfails
  have hresult : (executeAllWith .rota .start [s] ⟨[[]], 0⟩).result =
      [.ok ⟨some (.object [("o", .object [("b", .int 7), ("a", .int 3)])]), [], []⟩] := by cbv
  exact ⟨hd, (congrArg Outcome.result hsame).trans hresult⟩

end Submission

end GraphQL
