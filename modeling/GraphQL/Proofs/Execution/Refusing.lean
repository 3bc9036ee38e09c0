import GraphQL.Proofs.Execution.Expiring
import GraphQL.Proofs.Execution.FirstError

/-!
Executions whose calls are all refused.

Where the deadline has passed, no call is let through (`Task.Waits`), however the execution goes on,
and so nothing changes the contexts (`State.unchanged_of_refused`).
-/

set_option autoImplicit false

namespace GraphQL

open Json Execution

namespace Execution

namespace Task

/-- No call has been let through, and no invocation is noted. -/
inductive Waits : Task → Prop where
  | done (c : Completion) : Waits (.done c)
  | emit {e : Event} {next : Task} : e.invocation? = none → Waits next → Waits (.emit e next)
  | read {next : Context → Task} : (∀ context, Waits (next context)) → Waits (.read next)
  | call (k : Call) {stage : Stage} {next : Reply → Task} : stage = .fresh ∨ stage = .queued →
      (∀ r, Waits (next r)) → Waits (.call k stage next)
  | fork (s : Strategy) {children : List Task} {next : List Completion → Task} :
      (∀ t ∈ children, Waits t) → (∀ cs, Waits (next cs)) → Waits (.fork s children next)

namespace Waits

theorem bind {f : Completion → Task} (hf : ∀ c, Waits (f c)) {t : Task} (h : Waits t) :
    Waits (t.bind f) := by
  induction h with
  | done c => exact hf c
  | emit he _ ih => exact .emit he ih
  | read _ ih => exact .read ih
  | call k hstage _ ih => exact .call k hstage ih
  | fork s hc _ _ ih => exact .fork s hc ih

theorem of_reach? {path : List Nat} {whole t : Task} (hw : Waits whole)
    (hr : reach? path whole = some t) : Waits t :=
  of_reach?_of_parts (fun h => by cases h with | fork _ hs _ => exact hs) hw hr

theorem replace {t u : Task} (hu : Waits u) : ∀ {path : List Nat} {whole : Task},
    reach? path whole = some t → Waits whole → Waits (Task.replace u path whole)
  | [], whole, _, _ => by simpa [Task.replace] using hu
  | i :: path, whole, hr, hw => by
    obtain ⟨s, children, next, child, rfl, -, hi, hc⟩ := exists_of_reach?_cons hr
    cases hw with
    | fork _ hs hn =>
      have hchild := hu.replace hc (hs child (List.mem_of_getElem? hi))
      exact .fork s (forall_mem_modify hi hs hchild) hn

/-- Where a call that asks is refused, a step leaves the contexts as they are. -/
theorem of_move {st : State} {number : Nat} {run : Run} {p : Position} {t u : Task}
    {es : List Event} {change : LineChange} {contexts : ContextStore}
    (hm : State.Move st number run p t u es change contexts)
    (hrefused : st.refusal? number run ≠ none) (ht : Waits t) :
    Waits u ∧ es.filterMap Event.invocation? = [] ∧ contexts = st.contexts := by
  cases hm with
  | emit e =>
    cases ht with | emit he hn => exact ⟨hn, List.filterMap_cons_none he, rfl⟩
  | read => cases ht with | read hn => exact ⟨hn _, rfl, rfl⟩
  | join => cases ht with | fork _ _ hn => exact ⟨hn _, rfl, rfl⟩
  | ask => cases ht with | call _ _ hn => exact ⟨.call _ (.inr rfl) hn, rfl, rfl⟩
  | refuse => cases ht with | call _ _ hn => exact ⟨hn _, rfl, rfl⟩
  | grant _ _ hf => exact absurd hf hrefused
  | begin | beginAnswer | pause | answer | reply =>
    cases ht with | call _ hstage _ => rcases hstage with hstage | hstage <;> cases hstage

end Waits

end Task

open GraphQL.Execution.Task (Waits)

namespace State

theorem refusal?_ne_none {st : State} {run : Run}
    (h : (st.contexts.read run.context).isExpired = true) (number : Nat) :
    st.refusal? number run ≠ none := by
  rw [refusal?, h]
  split <;> simp

theorem invocations_after (st : State) (number : Nat) (path : List Nat) (u : Task)
    (es : List Event) (change : LineChange) (contexts : ContextStore) :
    (st.after number path u es change contexts).invocations =
      st.invocations ++ es.filterMap Event.invocation? := by
  simp only [invocations, after, List.reverse_append, List.filterMap_append, List.map_reverse,
    List.reverse_reverse, List.filterMap_map]
  rfl

/-- Executions whose deadlines have passed invoke no resolver and change no context. -/
theorem unchanged_of_refused {st last : State} (h : Reaches st last)
    (hruns : ∀ (number : Nat) (run : Run), st.runs[number]? = some run →
      (st.contexts.read run.context).isExpired = true ∧ run.task.Waits) :
    last.contexts.contexts = st.contexts.contexts ∧ last.invocations = st.invocations := by
  induction h with
  | refl st => exact ⟨rfl, rfl⟩
  | @head st st' last p ha _ ih =>
    obtain ⟨n, path, run, t, u, es, change, contexts, rfl, hn, ht, hm, rfl⟩ := advance_cases ha
    obtain ⟨hexpired, hwaits⟩ := hruns n run hn
    obtain ⟨hu, hsilent, rfl⟩ :=
      (hwaits.of_reach? ht).of_move hm (refusal?_ne_none hexpired n)
    obtain ⟨hlast, hinvocations⟩ := ih fun number run' hr' => by
      rw [runs_after] at hr'
      split at hr'
      · next hnn =>
        subst hnn
        rw [hn] at hr'
        cases hr'
        exact ⟨hexpired, hu.replace ht hwaits⟩
      · exact hruns number run' hr'
    rw [invocations_after, hsilent, List.append_nil] at hinvocations
    exact ⟨hlast, hinvocations⟩
  | @wait st last time _ ih =>
    refine ih fun number run hr => ?_
    obtain ⟨hexpired, hwaits⟩ := hruns number run hr
    exact ⟨ContextStore.isExpired_mono (Nat.le_add_right _ time) hexpired, hwaits⟩

end State

theorem Composed.waits {s : Setting} {S : Strategy → Prop} {T : ObjectType → Prop} {marks : Prop}
    {layer : Layer} {room : Nat} {path : Path} {t : Task}
    (h : Composed s .any S T marks layer room path t) : t.Waits :=
  h.closed (P := fun _ => True)
    { done := .done
      emit := .emit
      read := .read
      call := fun _ h => .call _ (.inl rfl) h
      fork := fun _ => .fork _
      bind := fun hf h => h.bind hf } fun _ _ _ _ _ _ _ => trivial

end Execution

theorem Submission.waits_start (s : Submission) (contexts : ContextStore) :
    (s.start contexts).task.Waits := by
  rcases s.exists_plan_or_start_eq contexts with ⟨plan, hp⟩ | hstart
  · have hcomposed : Composed (s.setting plan) .any (fun _ => True) (fun _ => True) True .value
        s.room [] (s.query.executor.task s.query.document plan) :=
      Setting.composed_selectionSet (fun _ => trivial) (fun _ _ => .inl trivial) trivial trivial
        trivial
    rw [task_start hp]
    exact hcomposed.waits
  · rw [hstart]
    exact .done _

end GraphQL
