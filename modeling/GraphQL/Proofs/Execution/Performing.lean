import GraphQL.Proofs.Execution.FirstError
import GraphQL.Proofs.Execution.InOrder

/-!
What executions do that have no choice.

With serial strategies only the first part that is not done can go on. In a context that stays the
same, what an execution comes to is then a function of its task, in debug mode too
(`Task.perform`), and every step leaves the rest of it to be done (`State.performs_of_reaches`).
-/

set_option autoImplicit false

namespace GraphQL

open Json Execution

namespace Execution

/-- What stays the same around an execution. -/
structure Circumstances where
  context : Context
  debug : Bool

/-- What a task comes to, after some events. -/
structure Performance where
  completion : Completion
  events : List Event

/-- A performance with events in front of it. -/
def Performance.after (es : List Event) (p : Performance) : Performance :=
  { p with events := es ++ p.events }

@[simp] theorem Performance.after_nil (p : Performance) : p.after [] = p := rfl

theorem Performance.after_append (es ds : List Event) (p : Performance) :
    p.after (es ++ ds) = (p.after ds).after es := by
  simp [Performance.after]

/-- Whether an error is recorded. -/
def Event.failing (es : List Event) : Bool := es.any fun e => e.error?.isSome

@[simp] theorem Event.failing_nil : failing [] = false := rfl

@[simp] theorem Event.failing_cons (e : Event) (es : List Event) :
    failing (e :: es) = (e.error?.isSome || failing es) := rfl

theorem Event.failing_append (es ds : List Event) :
    failing (es ++ ds) = (failing es || failing ds) := List.any_append

namespace Circumstances

/-- What becomes of a call that is not to be made, after an error or before all errors. -/
def refusal? (m : Circumstances) (failed : Bool) : Option Reply :=
  if m.debug && failed then some .skipped
  else if m.context.isExpired then some .timedOut
  else none

/-- The reply to a call that has come to a stage, and what is still done before it. -/
def reply (m : Circumstances) (k : Call) (stage : Stage) (failed : Bool) : Reply × List Event :=
  let answer := .resolved (k.resolver.answer k.invocation m.context).1
  match stage with
  | .admitted => (answer, [.invoked k.invocation])
  | .working _ => (answer, [])
  | .answered r => (.resolved r, [])
  | _ =>
    match m.refusal? failed with
    | some r => (r, [])
    | none => (answer, [.invoked k.invocation])

end Circumstances

namespace Task

open GraphQL.Execution.Event (failing)

mutual

/-- What a task does from its first part to the last, after an error or before all errors. -/
def perform (m : Circumstances) : Task → (failed : Bool) → Performance
  | done c, _ => ⟨c, []⟩
  | emit e next, failed => (perform m next (failed || e.error?.isSome)).after [e]
  | read next, failed => perform m (next m.context) failed
  | call k stage next, failed =>
    let (r, es) := m.reply k stage failed
    (perform m (next r) failed).after es
  | fork s children next, failed =>
    let (cs, es) := performAll m children failed
    (perform m (next (s.keep cs)) (failed || failing es)).after es

def performAll (m : Circumstances) : List Task → (failed : Bool) → List Completion × List Event
  | [], _ => ([], [])
  | t :: ts, failed =>
    let p := perform m t failed
    let (cs, es) := performAll m ts (failed || failing p.events)
    (p.completion :: cs, p.events ++ es)

end

/-- Siblings are done from the first to the last. -/
inductive InTurn : Task → Prop where
  | done (c : Completion) : InTurn (.done c)
  | emit (e : Event) {next : Task} : InTurn next → InTurn (.emit e next)
  | read {next : Context → Task} : (∀ context, InTurn (next context)) → InTurn (.read next)
  | call (k : Call) (stage : Stage) {next : Reply → Task} : (∀ r, InTurn (next r)) →
      InTurn (.call k stage next)
  | fork {children : List Task} {next : List Completion → Task} : (∀ t ∈ children, InTurn t) →
      (∀ cs, InTurn (next cs)) → InTurn (.fork .serial children next)

variable {m : Circumstances}

theorem perform_fork (s : Strategy) (children : List Task) (next : List Completion → Task)
    (failed : Bool) :
    (fork s children next).perform m failed =
      ((next (s.keep (performAll m children failed).1)).perform m
        (failed || failing (performAll m children failed).2)).after
          (performAll m children failed).2 := by
  rw [perform]

theorem perform_call (k : Call) (stage : Stage) (next : Reply → Task) (failed : Bool) :
    (call k stage next).perform m failed =
      ((next (m.reply k stage failed).1).perform m failed).after (m.reply k stage failed).2 := by
  rw [perform]

theorem performAll_cons (t : Task) (ts : List Task) (failed : Bool) :
    performAll m (t :: ts) failed =
      ((t.perform m failed).completion ::
          (performAll m ts (failed || failing (t.perform m failed).events)).1,
        (t.perform m failed).events ++
          (performAll m ts (failed || failing (t.perform m failed).events)).2) := by
  rw [performAll]

theorem performAll_done (ts : List Task) (failed : Bool) : ∀ cs : List Completion,
    performAll m (cs.map done ++ ts) failed =
      (cs ++ (performAll m ts failed).1, (performAll m ts failed).2)
  | [] => rfl
  | c :: cs => by
    rw [List.map_cons, List.cons_append, performAll_cons, perform]
    simp only [Event.failing_nil, Bool.or_false, performAll_done ts failed cs,
      List.cons_append, List.nil_append]

theorem perform_bind (f : Completion → Task) (t : Task) (failed : Bool) :
    (t.bind f).perform m failed =
      ((f (t.perform m failed).completion).perform m
        (failed || failing (t.perform m failed).events)).after (t.perform m failed).events := by
  fun_induction bind f t generalizing failed with
  | case1 c => simp [perform]
  | case2 e next ih =>
    rw [perform, perform, ih]
    simp [Performance.after, Bool.or_assoc]
  | case3 next ih => rw [perform, perform, ih]
  | case4 k stage next ih =>
    have hsilent : failing (m.reply k stage failed).2 = false := by
      unfold Circumstances.reply
      split
      · rfl
      · rfl
      · rfl
      · split <;> rfl
    rw [perform_call, perform_call, ih]
    simp [Performance.after, Event.failing_append, hsilent]
  | case5 s children next ih =>
    rw [perform_fork, perform_fork, ih]
    simp [Performance.after, Event.failing_append, Bool.or_assoc]

namespace InTurn

theorem bind {f : Completion → Task} (hf : ∀ c, InTurn (f c)) {t : Task} (h : InTurn t) :
    InTurn (t.bind f) := by
  induction h with
  | done c => exact hf c
  | emit e _ ih => exact .emit e ih
  | read _ ih => exact .read ih
  | call k stage _ ih => exact .call k stage ih
  | fork hc _ _ ih => exact .fork hc ih

theorem of_reach? {path : List Nat} {whole t : Task} (hw : InTurn whole)
    (hr : reach? path whole = some t) : InTurn t :=
  of_reach?_of_parts (fun h => by cases h with | fork hs _ => exact hs) hw hr

theorem replace {t u : Task} (hu : InTurn u) : ∀ {path : List Nat} {whole : Task},
    reach? path whole = some t → InTurn whole → InTurn (Task.replace u path whole)
  | [], whole, _, _ => by simpa [Task.replace] using hu
  | i :: path, whole, hr, hw => by
    obtain ⟨s, children, next, child, rfl, -, hi, hc⟩ := exists_of_reach?_cons hr
    cases hw with
    | fork hs hn =>
      have hchild := hu.replace hc (hs child (List.mem_of_getElem? hi))
      exact .fork (forall_mem_modify hi hs hchild) hn

theorem of_move {st : State} {number : Nat} {run : Run} {p : Position} {t u : Task}
    {es : List Event} {change : LineChange} {contexts : ContextStore}
    (hm : State.Move st number run p t u es change contexts) (ht : InTurn t) : InTurn u := by
  cases hm with
  | emit => cases ht with | emit _ hn => exact hn
  | read => cases ht with | read hn => exact hn _
  | join => cases ht with | fork _ hn => exact hn _
  | refuse => cases ht with | call _ _ hn => exact hn _
  | reply => cases ht with | call _ _ hn => exact hn _
  | ask | grant | begin | beginAnswer | pause | answer =>
    cases ht with | call _ _ hn => exact .call _ _ hn

end InTurn

theorem perform_emitAll (events : List Event) (next : Task) (failed : Bool) :
    (emitAll events next).perform m failed =
      (next.perform m (failed || failing events)).after events := by
  induction events generalizing failed with
  | nil => simp [emitAll]
  | cons e events ih =>
    change (emit e (emitAll events next)).perform m failed = _
    rw [perform, ih, ← Performance.after_append, Event.failing_cons, Bool.or_assoc]
    rfl

/-- Each sibling is performed. -/
theorem exists_perform_subset {t : Task} {ts : List Task} (ht : t ∈ ts) (failed : Bool) :
    ∃ failed', ∀ ev ∈ (t.perform m failed').events, ev ∈ (performAll m ts failed).2 := by
  induction ts generalizing failed with
  | nil => cases ht
  | cons u ts ih =>
    rw [performAll_cons]
    rcases List.mem_cons.1 ht with rfl | ht
    · exact ⟨failed, fun ev hev => List.mem_append_left _ hev⟩
    · obtain ⟨failed', h⟩ := ih ht (failed || failing (u.perform m failed).events)
      exact ⟨failed', fun ev hev => List.mem_append_right _ (h ev hev)⟩

/-- What a part does at once, it does as part of the whole. -/
theorem perform_replace {t u : Task} {es : List Event} {failed : Bool}
    (h : t.perform m failed = (u.perform m (failed || failing es)).after es) :
    ∀ {path : List Nat} {whole : Task}, InTurn whole → reach? path whole = some t →
      whole.perform m failed =
        ((replace u path whole).perform m (failed || failing es)).after es
  | [], whole, _, hr => by
    obtain rfl : whole = t := by simpa [reach?] using hr
    rw [replace, h]
  | i :: path, whole, hw, hr => by
    obtain ⟨s, children, next, child, rfl, hallows, hi, hc⟩ := exists_of_reach?_cons hr
    cases hw with
    | fork hs _ =>
      have hchild := perform_replace h (hs child (List.mem_of_getElem? hi)) hc
      obtain ⟨cs, rest, rfl, hmodify⟩ := Order.exists_done_of_allows hi hallows
      rw [replace, hmodify, perform_fork, perform_fork, performAll_done, performAll_done,
        performAll_cons, performAll_cons, hchild]
      simp [Performance.after, Event.failing_append, Bool.or_assoc]

end Task

open GraphQL.Execution.Event (failing)

namespace State

theorem isAborted_eq (st : State) (number : Nat) (run : Run) :
    st.isAborted number run = (run.debug && failing (st.events number)) := by
  rw [isAborted, failing, events, List.any_filterMap, List.any_reverse]
  congr 2
  funext e
  obtain ⟨n, e⟩ := e
  by_cases hn : n = number <;> simp [hn]

variable {st last : State} {number : Nat} {run : Run} {m : Circumstances}

/-- Of the performance of a task a step leaves all but its own events. -/
theorem Move.perform_eq {p : Position} {t u : Task} {es : List Event} {change : LineChange}
    {contexts : ContextStore} (hm : Move st number run p t u es change contexts)
    (hcontext : st.contexts.read run.context = m.context) (hdebug : run.debug = m.debug) :
    t.perform m (failing (st.events number)) =
      (u.perform m (failing (st.events number) || failing es)).after es := by
  have hrefusal : st.refusal? number run = m.refusal? (failing (st.events number)) := by
    rw [refusal?, isAborted_eq, hdebug, hcontext, Circumstances.refusal?]
  have hanswer : ∀ k : Call, (st.answer run k).1 =
      (k.resolver.answer k.invocation m.context).1 := fun k => by rw [← hcontext]; rfl
  cases hm with
  | emit e next => simp [Task.perform]
  | read next => simp [Task.perform, hcontext]
  | join s next hc =>
    obtain rfl := Task.eq_done_of_completions? hc
    rename_i cs
    have hall := Task.performAll_done (m := m) [] (failing (st.events number)) cs
    rw [List.append_nil] at hall
    rw [Task.perform_fork, hall]
    simp [Task.performAll]
  | ask k next => simp [Task.perform_call, Circumstances.reply]
  | refuse k next hf =>
    rw [hrefusal] at hf
    simp [Task.perform_call, Circumstances.reply, hf]
  | grant k next hf =>
    rw [hrefusal] at hf
    simp [Task.perform_call, Circumstances.reply, hf]
  | _ => simp [Task.perform_call, Circumstances.reply, hanswer, Event.error?]

/-- What an execution with no choice still does is the performance of its task. -/
theorem performs_of_reaches (h : Reaches st last) (hr : st.runs[number]? = some run)
    (hturn : run.task.InTurn) (hdebug : run.debug = m.debug)
    (hcontext : ∀ st' run', Between st last st' → st'.runs[number]? = some run' →
      st'.contexts.read run'.context = m.context) :
    ∃ run' es, last.runs[number]? = some run' ∧ last.events number = st.events number ++ es ∧
      run.task.perform m (failing (st.events number)) =
        (run'.task.perform m (failing (last.events number))).after es := by
  induction h generalizing run with
  | refl st => exact ⟨run, [], hr, by simp, rfl⟩
  | @head st st' last p ha hl ih =>
    have hcontext' : ∀ st₁ run', Between st' last st₁ → st₁.runs[number]? = some run' →
        st₁.contexts.read run'.context = m.context := fun st₁ run' hb =>
      hcontext st₁ run' ⟨.head p ha hb.1, hb.2⟩
    rcases run_cases_of_advance ha hr with
      ⟨path, t, u, es, change, contexts, rfl, ht, hm, rfl, hruns, hevents⟩ | ⟨hruns, hevents⟩
    · obtain ⟨run', rest, hr', hrest, hperform⟩ :=
        ih hruns (((hturn.of_reach? ht).of_move hm).replace ht hturn) hdebug hcontext'
      refine ⟨run', es ++ rest, hr', by rw [hrest, hevents, List.append_assoc], ?_⟩
      have hmove := hm.perform_eq (hcontext st _ ⟨.refl st, .head _ ha hl⟩ hr) hdebug
      rw [Task.perform_replace hmove hturn ht, Performance.after_append, ← hperform, hevents,
        Event.failing_append]
    · obtain ⟨run', rest, hr', hrest, hperform⟩ := ih hruns hturn hdebug hcontext'
      exact ⟨run', rest, hr', by rw [hrest, hevents], by rw [← hperform, hevents]⟩
  | wait time _ ih =>
    exact ih hr hturn hdebug fun st₁ run' hb => hcontext st₁ run' ⟨.wait time hb.1, hb.2⟩

end State

/-- With serial strategies only, siblings are done in turn. -/
theorem Composed.inTurn {s : Setting} {T : ObjectType → Prop} {marks : Prop} {layer : Layer}
    {room : Nat} {path : Path} {t : Task}
    (h : Composed s .any (· = .serial) T marks layer room path t) : t.InTurn :=
  h.closed (P := fun _ => True)
    { done := .done
      emit := fun _ h => .emit _ h
      read := .read
      call := fun _ h => .call _ _ h
      fork := by
        rintro strategy children next rfl
        exact .fork
      bind := fun hf h => h.bind hf } fun _ _ _ _ _ _ _ => trivial

end Execution

namespace Submission

variable {Memory : Type} {schedule : Schedule Memory} {memory : Memory}
  {submissions : List Submission} {contexts : ContextStore} {number : Nat} {s : Submission}

theorem inTurn_start (contexts : ContextStore) (hserial : s.query.executor.Serial) :
    (s.start contexts).task.InTurn := by
  rcases s.exists_plan_or_start_eq contexts with ⟨plan, hp⟩ | hstart
  · have hcomposed : Composed (s.setting plan) .any (· = .serial) (fun _ => True) True .value
        s.room [] (s.query.executor.task s.query.document plan) :=
      Setting.composed_selectionSet (S := (· = .serial)) (T := fun _ => True) (fun _ => trivial)
        (fun _ _ => .inl trivial) hserial.nested (hserial.root _) trivial
    rw [task_start hp]
    exact hcomposed.inTurn
  · rw [hstart]
    exact .done _

/-- With serial strategies, in a context that stays the same, what becomes of a submission is the
performance of its task. -/
theorem run_performs (hs : submissions[number]? = some s) (hserial : s.query.executor.Serial)
    {m : Circumstances} (hdebug : s.query.executor.configuration.debug = m.debug)
    (hcontext : ∀ st run', State.Between (initial submissions contexts)
      (run schedule memory submissions contexts) st → st.runs[number]? = some run' →
      st.contexts.read run'.context = m.context) :
    let p := (s.start contexts).task.perform m false
    (run schedule memory submissions contexts).events number = p.events ∧
      (run schedule memory submissions contexts).output number =
        .of p.completion (p.events.filterMap Event.error?) := by
  intro p
  have hr : (initial submissions contexts).runs[number]? = some (s.start contexts) :=
    getElem?_initial hs
  have ho := orderly_start (P := fun _ => True) contexts hserial.live
    (fun _ _ _ _ _ _ _ _ => trivial) number
  have hreaches := State.reaches_run schedule memory (initial submissions contexts)
  obtain ⟨last, c, hlast, hc⟩ := State.exists_completion_run schedule memory hr ho
  obtain ⟨run', es, hr', hes, hperform⟩ :=
    State.performs_of_reaches hreaches hr (inTurn_start contexts hserial) hdebug hcontext
  obtain rfl : last = run' := Option.some.inj (hlast.symm.trans hr')
  have hp : p = ⟨c, es⟩ := by
    refine hperform.trans ?_
    rw [hc]
    simp [Task.perform, Performance.after]
  have hevents : (run schedule memory submissions contexts).events number = es := hes
  have hcompletion : ((run schedule memory submissions contexts).runs[number]?.bind
      (·.task.completion?)) = some c := by
    rw [run, show (State.start (submissions.map (·.start contexts)) contexts) =
      initial submissions contexts from rfl, hlast]
    simp [hc, Task.completion?]
  rw [hp]
  refine ⟨hevents, ?_⟩
  rw [State.output, hcompletion, Option.getD_some, State.errors, hevents]

end Submission

end GraphQL
