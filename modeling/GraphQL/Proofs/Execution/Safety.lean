import GraphQL.Proofs.Execution.Progress
import GraphQL.Proofs.Execution.Runs

/-!
What executions never do.

A task is safe if all that it may do in a world has a property, whatever the strategies of its forks
make of completions. A step keeps that (`Task.Safe.of_move`), so all events of an execution whose
task is safe have the property, however far it has come (`State.forall_events_of_reaches`).
-/

set_option autoImplicit false

namespace GraphQL.Execution

open Json

namespace Task

/-- Whatever a task may do in a world has a property. -/
inductive Safe (w : World) (Q : Event → Prop) : Task → Prop where
  | done (c : Completion) : Safe w Q (.done c)
  | emit {e : Event} {next : Task} : Q e → Safe w Q next → Safe w Q (.emit e next)
  | read {next : Context → Task} : (∀ context, w.sees context → Safe w Q (next context)) →
      Safe w Q (.read next)
  | call {k : Call} (stage : Stage) {next : Reply → Task} :
      (∀ r, stage ≠ .answered r) → Q (.invoked k.invocation) →
      (∀ r, w.refuses r → Safe w Q (next r)) →
      (∀ r, w.answers k r → Safe w Q (next (.resolved r))) → Safe w Q (.call k stage next)
  | answered (k : Call) {r : Resolution} {next : Reply → Task} : Safe w Q (next (.resolved r)) →
      Safe w Q (.call k (.answered r) next)
  | fork (s : Strategy) {children : List Task} {next : List Completion → Task} :
      (∀ t ∈ children, Safe w Q t) → (∀ cs, Safe w Q (next cs)) →
      Safe w Q (.fork s children next)

namespace Safe

variable {w : World} {Q : Event → Prop}

theorem bind {f : Completion → Task} (hf : ∀ c, Safe w Q (f c)) {t : Task} (h : Safe w Q t) :
    Safe w Q (t.bind f) := by
  induction h with
  | done c => exact hf c
  | emit he _ ih => exact .emit he ih
  | read _ ih => exact .read ih
  | call stage hs hk _ _ ihr iha => exact .call stage hs hk ihr iha
  | answered k _ ih => exact .answered k ih
  | fork s hc _ _ ih => exact .fork s hc ih

theorem emitAll {next : Task} (h : Safe w Q next) :
    ∀ {events : List Event}, (∀ e ∈ events, Q e) → Safe w Q (Task.emitAll events next)
  | [], _ => h
  | e :: _, hes => .emit (hes e List.mem_cons_self)
      (emitAll h fun e he => hes e (List.mem_cons_of_mem _ he))

theorem of_reach? {path : List Nat} {whole t : Task} (hw : Safe w Q whole)
    (hr : reach? path whole = some t) : Safe w Q t :=
  of_reach?_of_parts (fun h => by cases h with | fork _ hs _ => exact hs) hw hr

theorem replace {u : Task} (hu : Safe w Q u) : ∀ {path : List Nat} {whole t : Task},
    reach? path whole = some t → Safe w Q whole → Safe w Q (Task.replace u path whole)
  | [], whole, t, _, _ => by simpa [Task.replace] using hu
  | i :: path, whole, t, hr, hw => by
    obtain ⟨s, children, next, child, rfl, -, hi, hc⟩ := exists_of_reach?_cons hr
    cases hw with
    | fork _ hs hn =>
      have hchild := hu.replace hc (hs child (List.mem_of_getElem? hi))
      exact .fork s (forall_mem_modify hi hs hchild) hn

/-- What a step does has the property, and what it leaves is safe again. -/
theorem of_move {st last : State} {number : Nat} {run : Run} {path : List Nat} {t u : Task}
    {es : List Event} {change : LineChange} {contexts : ContextStore}
    (hw : w.Covers st last number) (hr : st.runs[number]? = some run)
    (hreach : run.task.reach? path = some t)
    (hm : State.Move st number run (number :: path).reverse t u es change contexts)
    (ha : st.advance (number :: path).reverse = some (st.after number path u es change contexts))
    (hl : State.Reaches (st.after number path u es change contexts) last) (ht : Safe w Q t) :
    (∀ ev ∈ es, Q ev) ∧ Safe w Q u := by
  have hb : State.Between st last st := ⟨.refl st, .head _ ha hl⟩
  have hb' : State.Between st last (st.after number path u es change contexts) :=
    ⟨.head _ ha (.refl _), hl⟩
  cases hm with
  | emit e =>
    cases ht with | emit he hn => exact ⟨by simpa using he, hn⟩
  | read =>
    cases ht with | read hn => exact ⟨nofun, hn _ (hw.sees st run hb hr)⟩
  | join s =>
    cases ht with | fork _ _ hn => exact ⟨nofun, hn _⟩
  | ask =>
    cases ht with | call _ _ hk hrefused hanswer => exact ⟨nofun, .call _ nofun hk hrefused hanswer⟩
  | refuse k next hf =>
    cases ht with
    | call _ _ _ hrefused _ => exact ⟨nofun, hrefused _ (hw.refuses st run _ hb hr hf)⟩
  | grant =>
    cases ht with | call _ _ hk hrefused hanswer => exact ⟨nofun, .call _ nofun hk hrefused hanswer⟩
  | begin =>
    cases ht with
    | call _ _ hk hrefused hanswer => exact ⟨by simpa using hk, .call _ nofun hk hrefused hanswer⟩
  | beginAnswer k next =>
    have hk : st.Answers number k (st.answer run k).1 _ :=
      ⟨run, path, _, next, _, _, hr, hreach, rfl, ha, rfl⟩
    cases ht with
    | call _ _ hq _ hanswer =>
      exact ⟨by simpa using hq, .answered k (hanswer _ (hw.answers st _ k _ hb hb' hk))⟩
  | pause =>
    cases ht with | call _ _ hk hrefused hanswer => exact ⟨nofun, .call _ nofun hk hrefused hanswer⟩
  | answer k next =>
    have hk : st.Answers number k (st.answer run k).1 _ :=
      ⟨run, path, _, next, _, _, hr, hreach, rfl, ha, rfl⟩
    cases ht with
    | call _ _ _ _ hanswer =>
      exact ⟨nofun, .answered k (hanswer _ (hw.answers st _ k _ hb hb' hk))⟩
  | reply k next r =>
    cases ht with
    | call _ hs => exact absurd rfl (hs r)
    | answered _ hn => exact ⟨nofun, hn⟩

end Safe

end Task

/-- All that an execution has done has the property, if its task was safe at the beginning. -/
theorem State.forall_events_of_reaches {w : World} {Q : Event → Prop} {st last : State}
    (h : Reaches st last) {number : Nat} (hw : w.Covers st last number) {run : Run}
    (hr : st.runs[number]? = some run) (ht : run.task.Safe w Q)
    (hst : ∀ ev ∈ st.events number, Q ev) : ∀ ev ∈ last.events number, Q ev := by
  induction h generalizing run with
  | refl st => exact hst
  | @head st st' last p ha hl ih =>
    have hw' := hw.tail ha
    rcases run_cases_of_advance ha hr with
      ⟨path, t, u, es, change, contexts, rfl, hreach, hm, rfl, hruns, hevents⟩ | ⟨hruns, hevents⟩
    · obtain ⟨hes, hu⟩ := (ht.of_reach? hreach).of_move hw hr hreach hm ha hl
      refine ih hw' hruns (hu.replace hreach ht) fun ev hev => ?_
      rw [hevents] at hev
      rcases List.mem_append.1 hev with hev | hev
      · exact hst ev hev
      · exact hes ev hev
    · exact ih hw' hruns ht (hevents ▸ hst)
  | wait time _ ih => exact ih (hw.wait time) hr ht hst

end GraphQL.Execution
