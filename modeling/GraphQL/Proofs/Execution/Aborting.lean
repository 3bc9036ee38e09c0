import GraphQL.Execution.Rota
import GraphQL.Proofs.Execution.FirstError
import GraphQL.Proofs.Execution.Parted
import Mathlib

/-!
Debug mode after the first error.

An aborted execution lets no more calls through. So the resolvers that are still invoked are those
of the calls that had been let through before the error (`State.granted_perm_of_reaches`), which
with serial strategies are none, and a field whose call is skipped records nothing
(`Submission.calls_after_error`). Calls that were let through are made in spite of the error
(`Submission.invoked_after_error`).
-/

set_option autoImplicit false

namespace GraphQL

open Json Execution

namespace Execution

namespace Task

open scoped List

mutual

/-- What the resolvers of the calls that are going to be made will be told. -/
def granted : Task → List Invocation
  | done _ => []
  | emit _ _ => []
  | read _ => []
  | call k stage _ =>
    match stage with
    | .admitted => [k.invocation]
    | _ => []
  | fork _ children _ => grantedAll children

def grantedAll : List Task → List Invocation
  | [] => []
  | t :: ts => granted t ++ grantedAll ts

end

/-- What the resolver of a call that waits would be told. -/
def waiting? : Task → Option Invocation
  | call k .queued _ => some k.invocation
  | _ => none

theorem exists_of_waiting? {t : Task} {i : Invocation} (h : t.waiting? = some i) :
    ∃ k next, t = .call k .queued next ∧ k.invocation = i := by
  unfold waiting? at h
  split at h
  · next k next => exact ⟨k, next, rfl, Option.some.inj h⟩
  · cases h

theorem grantedAll_eq_flatMap (ts : List Task) : grantedAll ts = ts.flatMap granted := by
  induction ts with
  | nil => rfl
  | cons t ts ih => rw [grantedAll, ih, List.flatMap_cons]

theorem granted_fork (s : Strategy) (children : List Task) (next : List Completion → Task) :
    granted (.fork s children next) = children.flatMap granted := by
  rw [granted, grantedAll_eq_flatMap]

theorem granted_done (cs : List Completion) : (cs.map done).flatMap granted = [] := by
  rw [List.flatMap_map, List.flatMap_eq_nil_iff]
  exact fun c _ => by rw [granted]

theorem granted_call {stage : Stage} (h : stage ≠ .admitted) (k : Call) (next : Reply → Task) :
    granted (.call k stage next) = [] := by
  cases stage with
  | admitted => exact absurd rfl h
  | _ => rfl

theorem Fresh.granted_eq_nil {P : Resolver → Prop} {t : Task} (h : Fresh P t) :
    t.granted = [] := by
  induction h with
  | call => exact granted_call (by simp) _ _
  | fork _ _ _ ih _ => rw [granted_fork, List.flatMap_eq_nil_iff.2 ih]
  | _ => rw [granted]

/-- A part may be replaced together with what it has been granted. -/
theorem granted_replace_perm {t u : Task} : ∀ {path : List Nat} {whole : Task},
    reach? path whole = some t →
    ((replace u path whole).granted ++ t.granted).Perm (whole.granted ++ u.granted)
  | [], whole, hr => by
    obtain rfl : whole = t := by simpa [reach?] using hr
    rw [replace]
    exact List.perm_append_comm
  | i :: path, whole, hr => by
    obtain ⟨s, children, next, child, rfl, -, hi, hc⟩ := exists_of_reach?_cons hr
    obtain ⟨hlt, rfl⟩ := List.getElem?_eq_some_iff.1 hi
    have ih := granted_replace_perm (u := u) hc
    have hsplit : children = children.take i ++ children[i] :: children.drop (i + 1) := by simp
    rw [replace, granted_fork, granted_fork, List.modify_eq_take_cons_drop hlt]
    conv => enter [2, 1, 2]; rw [hsplit]
    simp only [List.flatMap_append, List.flatMap_cons, List.append_assoc]
    refine List.Perm.append_left _ ?_
    calc (replace u path children[i]).granted ++
          ((children.drop (i + 1)).flatMap granted ++ t.granted)
      _ ~ (replace u path children[i]).granted ++
          (t.granted ++ (children.drop (i + 1)).flatMap granted) :=
        List.perm_append_comm.append_left _
      _ = (replace u path children[i]).granted ++ t.granted ++
          (children.drop (i + 1)).flatMap granted := (List.append_assoc _ _ _).symm
      _ ~ children[i].granted ++ u.granted ++ (children.drop (i + 1)).flatMap granted :=
        ih.append_right _
      _ = children[i].granted ++ (u.granted ++ (children.drop (i + 1)).flatMap granted) :=
        List.append_assoc _ _ _
      _ ~ children[i].granted ++ ((children.drop (i + 1)).flatMap granted ++ u.granted) :=
        List.perm_append_comm.append_left _

/-- What is granted has asked. -/
theorem exists_asked_of_granted : ∀ {t : Task}, t.granted ≠ [] → ∃ path, Asked path t
  | .done _, h => absurd (by rw [granted]) h
  | .emit _ _, h => absurd (by rw [granted]) h
  | .read _, h => absurd (by rw [granted]) h
  | .call k stage next, h => by
    cases stage with
    | admitted => exact ⟨[], trivial⟩
    | _ => exact absurd (granted_call (by simp) k next) h
  | .fork s children next, h => by
    rw [granted_fork] at h
    obtain ⟨i, hi⟩ := List.exists_mem_of_ne_nil _ h
    obtain ⟨t, ht, hmem⟩ := List.mem_flatMap.1 hi
    have := List.sizeOf_lt_of_mem ht
    obtain ⟨path, hpath⟩ := exists_asked_of_granted (List.ne_nil_of_mem hmem)
    obtain ⟨i, hi⟩ := List.mem_iff_getElem?.1 ht
    exact ⟨i :: path, t, hi, hpath⟩

/-- Where everything is done one after the other, nothing but the next part can be granted. -/
theorem Parted.granted_eq {P : Resolver → Prop} {t : Task} (ht : t.isDone = false) :
    ∀ {path : List Nat} {whole : Task}, Parted (· = .serial) whole → Sound P whole →
      reach? path whole = some t → whole.granted = t.granted
  | [], whole, _, _, hr => by
    obtain rfl : whole = t := by simpa [reach?] using hr
    rfl
  | i :: path, whole, hp, hs, hr => by
    obtain ⟨s, children, next, child, rfl, hallows, hi, hc⟩ := exists_of_reach?_cons hr
    cases hs with
    | fork _ hsound hasked _ =>
      cases hp with
      | fork _ hserial _ _ _ hparts _ =>
        subst hserial
        have hmem := List.mem_of_getElem? hi
        have hchild := (hparts child hmem).granted_eq ht (hsound child hmem) hc
        have hopen := isDone_eq_false_of_reach? hc ht
        obtain ⟨cs, after, rfl, -⟩ := Order.exists_done_of_allows hi hallows
        have hafter : after.flatMap granted = [] := by
          refine List.flatMap_eq_nil_iff.2 fun u hu => ?_
          by_contra hne
          obtain ⟨path', hpath'⟩ := exists_asked_of_granted hne
          obtain ⟨j, hj⟩ := List.mem_iff_getElem?.1 hu
          have hu' : (cs.map Task.done ++ child :: after)[cs.length + 1 + j]? = some u := by
            rw [List.getElem?_append_right (by simp; omega), List.length_map,
              show cs.length + 1 + j - cs.length = j + 1 by omega, List.getElem?_cons_succ, hj]
          -- A part behind the next one has asked only if that is done.
          have hdone : ((cs.map Task.done ++ child :: after).take (cs.length + 1 + j)).all isDone =
              true := hasked _ u path' hu' hpath'
          have hnext : child ∈ (cs.map Task.done ++ child :: after).take (cs.length + 1 + j) := by
            rw [List.take_append]
            refine List.mem_append_right _ ?_
            rw [List.length_map, show cs.length + 1 + j - cs.length = j + 1 by omega,
              List.take_succ_cons]
            exact List.mem_cons_self
          rw [List.all_eq_true.1 hdone child hnext] at hopen
          cases hopen
        rw [granted_fork, List.flatMap_append, granted_done, List.nil_append, List.flatMap_cons,
          hafter, List.append_nil, hchild]

end Task

open GraphQL.Execution.Task (Safe Parted)

namespace State

variable {S : Strategy → Prop} {P : Resolver → Prop} {st st' last : State} {number : Nat}
  {run : Run}

theorem isAborted_eq_true (hd : run.debug = true) (h : st.errors number ≠ []) :
    st.isAborted number run = true := by
  obtain ⟨e, he⟩ := List.exists_mem_of_ne_nil _ h
  obtain ⟨ev, hev, herror⟩ := List.mem_filterMap.1 he
  obtain ⟨⟨n, ev'⟩, hmem, hn⟩ := List.mem_filterMap.1 hev
  obtain ⟨rfl, rfl⟩ : n = number ∧ ev' = ev := by simpa using hn
  rw [isAborted, hd, Bool.true_and, List.any_eq_true]
  exact ⟨(n, ev'), by simpa using hmem, by simp [herror]⟩

theorem refusal?_of_isAborted (h : st.isAborted number run = true) :
    st.refusal? number run = some .skipped := if_pos h

/-- In an aborted execution a call is made only if it has been granted. -/
theorem Move.granted_perm {p : Position} {t u : Task} {es : List Event} {change : LineChange}
    {contexts : ContextStore} (hm : Move st number run p t u es change contexts)
    (ht : t.Sound P) (hp : Parted S t) (ha : st.isAborted number run = true) :
    (es.filterMap Event.invocation? ++ u.granted).Perm t.granted := by
  have hcall : ∀ {k : Call} {stage : Stage} {next : Reply → Task}, stage ≠ .admitted →
      (Task.call k stage next).granted = [] := fun h => Task.granted_call h _ _
  cases hm with
  | emit e next =>
    cases ht with
    | emit _ hn =>
      cases hp with
      | emit he =>
        rw [hn.granted_eq_nil, List.append_nil, List.filterMap_cons_none he]
        exact .refl _
  | read next => cases ht with | read hn => rw [(hn _).granted_eq_nil]; exact .refl _
  | join s next hc =>
    obtain rfl := Task.eq_done_of_completions? hc
    cases ht with
    | fork _ _ _ hn =>
      rw [(hn _).granted_eq_nil, Task.granted_fork, Task.granted_done]
      exact .refl _
  | refuse k next _ =>
    cases ht with
    | call _ _ hn =>
      rw [(hn _).granted_eq_nil, hcall (by simp)]
      exact .refl _
  | reply k next r =>
    cases ht with
    | call _ _ hn =>
      rw [(hn _).granted_eq_nil, hcall (by simp)]
      exact .refl _
  | grant k next hf => cases (refusal?_of_isAborted ha).symm.trans hf
  | begin k next pauses =>
    rw [hcall (by simp), List.append_nil]
    exact .refl _
  | beginAnswer k next =>
    rw [hcall (by simp), List.append_nil]
    exact .refl _
  | ask k next =>
    rw [hcall (by simp), hcall (by simp)]
    exact .refl _
  | pause k next pauses =>
    rw [hcall (by simp), hcall (by simp)]
    exact .refl _
  | answer k next =>
    rw [hcall (by simp), hcall (by simp)]
    exact .refl _

/-- The resolvers that are invoked after an error are those of the calls that had been granted. -/
theorem granted_perm_of_reaches (h : Reaches st last) (hr : st.runs[number]? = some run)
    (ho : run.Orderly P number) (hp : Parted S run.task) (hd : run.debug = true)
    (herrors : st.errors number ≠ []) :
    ∃ run' es, last.runs[number]? = some run' ∧ last.events number = st.events number ++ es ∧
      (es.filterMap Event.invocation? ++ run'.task.granted).Perm run.task.granted := by
  induction h generalizing run with
  | refl st => exact ⟨run, [], hr, by simp, .refl _⟩
  | @head st st' last p ha _ ih =>
    rcases run_cases_of_advance ha hr with
      ⟨path, t, u, es, change, contexts, rfl, ht, hm, rfl, hruns, hevents⟩ | ⟨hruns, hevents⟩
    · have herrors' : (st.after number path u es change contexts).errors number ≠ [] := by
        rw [errors, hevents, List.filterMap_append]
        exact fun hnil => herrors (List.append_eq_nil_iff.1 hnil).1
      obtain ⟨run', rest, hr', hrest, hperm⟩ :=
        ih hruns (ho.after ht hm) (hp.after hr ht hm ha) hd herrors'
      refine ⟨run', es ++ rest, hr', by rw [hrest, hevents, List.append_assoc], ?_⟩
      have hmove := hm.granted_perm (Task.Sound.of_reach? ho.sound ht) (hp.of_reach? ht)
        (isAborted_eq_true hd herrors)
      have hreplace := (hmove.append_left _).trans (Task.granted_replace_perm (u := u) ht)
      rw [← List.append_assoc] at hreplace
      have hstep := (List.perm_append_right_iff _).1 hreplace
      rw [List.filterMap_append, List.append_assoc]
      exact (hperm.append_left _).trans (List.perm_append_comm.trans hstep)
    · obtain ⟨run', rest, hr', hrest, hperm⟩ := ih hruns ho hp hd (by rwa [errors, hevents])
      exact ⟨run', rest, hr', by rw [hrest, hevents], hperm⟩
  | wait _ _ ih => exact ih hr ho hp hd herrors

/-- Where everything is done one after the other, nothing has been granted when there is an
error. -/
theorem granted_eq_nil_of_serial (h : Reaches st last) (hr : st.runs[number]? = some run)
    (ho : run.Orderly P number) (hp : Parted (· = .serial) run.task) (hd : run.debug = true)
    (hst : st.errors number ≠ [] → run.task.granted = []) :
    ∃ run', last.runs[number]? = some run' ∧
      (last.errors number ≠ [] → run'.task.granted = []) := by
  induction h generalizing run with
  | refl st => exact ⟨run, hr, hst⟩
  | @head st st' last p ha _ ih =>
    rcases run_cases_of_advance ha hr with
      ⟨path, t, u, es, change, contexts, rfl, ht, hm, rfl, hruns, hevents⟩ | ⟨hruns, hevents⟩
    · refine ih hruns (ho.after ht hm) (hp.after hr ht hm ha) hd fun herrors => ?_
      have hreplace := Task.granted_replace_perm (u := u) ht
      rw [hp.granted_eq hm.isDone_eq_false ho.sound ht] at hreplace
      have hu := (List.perm_append_right_iff _).1 (hreplace.trans List.perm_append_comm)
      suffices hnil : u.granted = [] by
        rw [hnil] at hu
        exact hu.eq_nil
      have hsound := Task.Sound.of_reach? ho.sound ht
      cases hm with
      | emit => cases hsound with | emit _ hn => exact hn.granted_eq_nil
      | read => cases hsound with | read hn => exact (hn _).granted_eq_nil
      | join => cases hsound with | fork _ _ _ hn => exact (hn _).granted_eq_nil
      | refuse => cases hsound with | call _ _ hn => exact (hn _).granted_eq_nil
      | reply => cases hsound with | call _ _ hn => exact (hn _).granted_eq_nil
      | grant k next hf =>
        -- A call is granted only before the first error.
        rw [List.append_nil] at hevents
        rw [errors, hevents] at herrors
        cases (refusal?_of_isAborted (isAborted_eq_true hd herrors)).symm.trans hf
      | ask | begin | beginAnswer | pause | answer => exact Task.granted_call (by simp) _ _
    · refine ih hruns ho hp hd fun herrors => hst ?_
      rwa [errors, hevents] at herrors
  | wait _ _ ih => exact ih hr ho hp hd hst

/-- A call that waits after an error ends without an event, and no error has its path. -/
theorem errors_ne_of_skipped {path : List Nat} {k : Call} {next : Reply → Task}
    (hr : st.runs[number]? = some run) (hp : Parted S run.task) (hd : run.debug = true)
    (herrors : st.errors number ≠ [])
    (hspares : ∀ e ∈ st.errors number, Safe .any (Event.Spares e.path) run.task)
    (ht : run.task.reach? path = some (.call k .queued next))
    (ha : st.advance (number :: path).reverse = some st') (hl : Reaches st' last) :
    st'.events number = st.events number ∧
      ∀ e ∈ last.errors number, e.path ≠ some k.invocation.path := by
  obtain ⟨n, path', run', t, u, es, change, contexts, hpath, hn, ht', hm, rfl⟩ := advance_cases ha
  obtain ⟨rfl, rfl⟩ := List.cons.inj (List.reverse_inj.1 hpath)
  obtain rfl : run = run' := Option.some.inj (hr.symm.trans hn)
  obtain rfl := Option.some.inj (ht.symm.trans ht')
  have hrefusal := refusal?_of_isAborted (isAborted_eq_true hd herrors)
  cases hm with
  | grant _ _ hf => cases hrefusal.symm.trans hf
  | @refuse _ _ r hf =>
    obtain rfl := Option.some.inj (hrefusal.symm.trans hf)
    have hskipped : ∃ c, next .skipped = .done c := by
      cases hp.of_reach? ht with | call _ _ hskipped _ => exact hskipped
    obtain ⟨c, hc⟩ := hskipped
    let R : Event → Prop := fun ev => ∀ e, ev.error? = some e → e.path ≠ some k.invocation.path
    have hsafe : Safe .any R (Task.replace (next .skipped) path run.task) := by
      have hpath : (Event.invoked k.invocation).path? = some k.invocation.path := rfl
      refine hp.safe_replace (fun ev hev e he hpath => hev ?_) hpath
        (fun Q hQ => hQ.of_call (by simp)) (hc ▸ .done c) ht
      rw [Event.path?_of_error? he, hpath]
    have hruns := runs_after st number number path (next .skipped) [] .leaves st.contexts
    rw [if_pos rfl, hr, Option.map_some] at hruns
    have hevents := events_after st number number path (next .skipped) [] .leaves st.contexts
    rw [if_pos rfl, List.append_nil] at hevents
    have hlast := forall_events_of_reaches (Q := R) hl (World.any_covers _ _ _) hruns hsafe
      fun ev hev e he hpath => by
        rw [hevents] at hev
        have hcall := ((hspares e (List.mem_filterMap.2 ⟨ev, hev, he⟩)).of_reach? ht).of_call
          (by simp)
        exact hcall _ rfl hpath.symm
    refine ⟨hevents, fun e he => ?_⟩
    obtain ⟨ev, hev, herror⟩ := List.mem_filterMap.1 he
    exact hlast ev hev e herror

end State

end Execution

namespace Submission

variable {submissions : List Submission} {contexts : ContextStore} {number : Nat} {s : Submission}

theorem parted_start {S : Strategy → Prop} (contexts : ContextStore)
    (hloaded : s.query.executor.schema.Loaded)
    (hroot : ∀ kind, S (s.query.executor.rootStrategy kind)) (hnested : S s.query.executor.nested) :
    Task.Parted S (s.start contexts).task := by
  rcases s.exists_plan_or_start_eq contexts with ⟨plan, hp⟩ | hstart
  · obtain ⟨name, hname⟩ := Schema.exists_of_rootType? (PreparedQuery.of_plan hp).2.1
    rw [task_start hp, Executor.task]
    exact Setting.parted_root (s := s.setting plan) hloaded.wellFormed hnested (hroot _)
      (hloaded.wellFormed name _ hname).2 _ _
  · rw [hstart]
    exact .done _

/-- After an error in debug mode no call is let through any more. The resolvers that are still
invoked are those of the calls that had been let through before, of which there are none with serial
strategies, and a call that waited ends without an error at its path. -/
theorem calls_after_error (hs : submissions[number]? = some s) (hl : s.query.executor.Live)
    (hloaded : s.query.executor.schema.Loaded)
    (hdebug : s.query.executor.configuration.debug = true) {st last : State}
    (hst : State.Reaches (initial submissions contexts) st) (herrors : st.errors number ≠ [])
    (hlast : State.Reaches st last) :
    ∃ run run' es, st.runs[number]? = some run ∧ last.runs[number]? = some run' ∧
      last.events number = st.events number ++ es ∧
      (es.filterMap Event.invocation? ++ run'.task.granted).Perm run.task.granted ∧
      (s.query.executor.Serial → run.task.granted = []) ∧
      ∀ path k next, run'.task.reach? path = some (.call k .queued next) →
        ∀ st' last', last.advance (number :: path).reverse = some st' → State.Reaches st' last' →
          st'.events number = last.events number ∧
            ∀ e ∈ last'.errors number, e.path ≠ some k.invocation.path := by
  have hinitial : (initial submissions contexts).runs[number]? = some (s.start contexts) :=
    getElem?_initial hs
  have horderly := orderly_start (P := fun _ => True) contexts hl
    (fun _ _ _ _ _ _ _ _ => trivial) number
  have hparted := parted_start (S := fun _ => True) contexts hloaded (fun _ => trivial) trivial
  obtain ⟨run, hr, ho⟩ := horderly.of_reaches hst hinitial
  obtain ⟨run₁, hr₁, hp, hspares⟩ := State.parted_of_reaches hst hinitial hparted nofun
  obtain rfl : run = run₁ := Option.some.inj (hr.symm.trans hr₁)
  obtain ⟨run₂, hr₂, hd, -⟩ := State.run_of_reaches hst hinitial
  obtain rfl : run = run₂ := Option.some.inj (hr.symm.trans hr₂)
  obtain ⟨run', es, hr', hes, hperm⟩ :=
    State.granted_perm_of_reaches hlast hr ho hp (hd.trans hdebug) herrors
  refine ⟨run, run', es, hr, hr', hes, hperm, fun hserial => ?_,
    fun path k next ht st' last' ha hl' => ?_⟩
  · obtain ⟨run₃, hr₃, hnil⟩ := State.granted_eq_nil_of_serial hst hinitial horderly
      (parted_start contexts hloaded hserial.root hserial.nested) hdebug fun h => absurd rfl h
    obtain rfl : run = run₃ := Option.some.inj (hr.symm.trans hr₃)
    exact hnil herrors
  · obtain ⟨run₄, hr₄, hp', hspares'⟩ := State.parted_of_reaches hlast hr hp hspares
    obtain rfl : run' = run₄ := Option.some.inj (hr'.symm.trans hr₄)
    obtain ⟨run₅, hr₅, hd', -⟩ := State.run_of_reaches hlast hr
    obtain rfl : run' = run₅ := Option.some.inj (hr'.symm.trans hr₅)
    have hlater : last.errors number ≠ [] := by
      rw [State.errors, hes, List.filterMap_append]
      exact fun hnil => herrors (List.append_eq_nil_iff.1 hnil).1
    exact State.errors_ne_of_skipped hr' hp' (hd'.trans (hd.trans hdebug)) hlater hspares' ht ha hl'

/-- A query in debug mode for a field with a resolver and one that has no value. -/
def sparse (resolver : Resolver) : Submission where
  query := { Executor.small resolver with
    configuration := { debug := true }, rootValue := .object [] }.prepare .small
  variableValues := []
  context := ⟨0, none⟩
  operationName := none

theorem events_sparse :
    (run .rota .start [sparse (.constant (.int 7))] ⟨[[]], 0⟩).events 0 =
      [.reached [.key "a"] (some .int), .reached [.key "b"] (some (.nonNull .int)),
        .produced [.key "b"] .null,
        .failed ⟨"Cannot return null for non-nullable field Query.b.", [⟨1, 4⟩],
          some [.key "b"], []⟩,
        .invoked ⟨.object [], [], [.key "a"], "a", "Query"⟩,
        .produced [.key "a"] (.int 7)] := by
  cbv

/-- The same with the first field once more under another key, in a context with a deadline. -/
def crowded (resolver : Resolver) : Submission where
  query := (sparse resolver).query.withDocument ⟨[("", ⟨none, .query, [], [],
    [.field ⟨none, "a", [], [], some ⟨1, 2⟩⟩ [], .field ⟨none, "b", [], [], some ⟨1, 4⟩⟩ [],
      .field ⟨some "c", "a", [], [], some ⟨1, 6⟩⟩ []], some ⟨1, 1⟩⟩)], []⟩
  variableValues := []
  context := ⟨0, some 8⟩
  operationName := none

/-- The call of the first field is let through and that of the last one waits when the deadline
passes and then the field between them fails. -/
def crowdedOrder : List (Nat × Position) :=
  [[0], [0, 0], [0, 0], [0, 0], [2, 0], [2, 0], [1, 0], [1, 0], [1, 0], [1, 0]].map (1, ·)

/-- What has happened when that field has failed. -/
def crowdedEvents : List Event :=
  [.reached [.key "a"] (some .int), .reached [.key "c"] (some .int),
    .reached [.key "b"] (some (.nonNull .int)), .produced [.key "b"] .null,
    .failed ⟨"Cannot return null for non-nullable field Query.b.", [⟨1, 4⟩], some [.key "b"], []⟩]

/-- What the resolver is told of the field with a response key. -/
def crowdedCall (key : String) : Invocation := ⟨.object [], [], [.key key], "a", "Query"⟩

theorem follow_crowded :
    ((initial [crowded (.constant (.int 7))] ⟨[[]], 0⟩).follow crowdedOrder).map (fun st =>
      (st.events 0, (st.follow [(1, [0, 0])]).map fun last =>
        (last.events 0, (last.runs[0]?.bind (·.task.reach? [2])).bind Task.waiting?,
          (last.advance [2, 0]).isSome))) =
      some (crowdedEvents, some (crowdedEvents ++ [.invoked (crowdedCall "a")],
        some (crowdedCall "c"), true)) := by
  cbv

/-- One call was let through before the error, and its resolver is invoked after it. The other one
is skipped, and no error ever has its path. -/
theorem calls_after_error_crowded :
    let s := crowded (.constant (.int 7))
    s.query.executor.Live ∧ s.query.executor.schema.Loaded ∧
      s.query.executor.configuration.debug = true ∧
      ∃ st last run run' k next st',
        State.Reaches (initial [s] ⟨[[]], 0⟩) st ∧ st.errors 0 ≠ [] ∧ State.Reaches st last ∧
        st.runs[0]? = some run ∧ last.runs[0]? = some run' ∧
        last.events 0 = st.events 0 ++ [.invoked (crowdedCall "a")] ∧
        (crowdedCall "a" :: run'.task.granted).Perm run.task.granted ∧
        run'.task.reach? [2] = some (.call k .queued next) ∧ k.invocation = crowdedCall "c" ∧
        last.advance [2, 0] = some st' ∧ st'.events 0 = last.events 0 ∧
        ∀ last', State.Reaches st' last' → ∀ e ∈ last'.errors 0, e.path ≠ some [.key "c"] := by
  intro s
  have hfaithful : s.query.executor.Faithful :=
    ⟨fun _ => Strategy.faithful_concurrent 32, Strategy.faithful_concurrent 32⟩
  have hloaded : s.query.executor.schema.Loaded := Schema.loaded_small _
  obtain ⟨st, hst, hfollow⟩ := Option.map_eq_some_iff.1 follow_crowded
  obtain ⟨hevents, hfollow⟩ := Prod.mk.inj hfollow
  obtain ⟨last, hlast, hfollow⟩ := Option.map_eq_some_iff.1 hfollow
  obtain ⟨hevents', hfollow⟩ := Prod.mk.inj hfollow
  obtain ⟨hwaits, hadvance⟩ := Prod.mk.inj hfollow
  obtain ⟨t, hreach, hwaits⟩ := Option.bind_eq_some_iff.1 hwaits
  obtain ⟨run', hrun', hreach⟩ := Option.bind_eq_some_iff.1 hreach
  obtain ⟨k, next, rfl, hk⟩ := Task.exists_of_waiting? hwaits
  obtain ⟨st', hst'⟩ := Option.isSome_iff_exists.1 hadvance
  have herrors : st.errors 0 ≠ [] := by
    rw [State.errors, hevents]
    exact List.cons_ne_nil _ _
  obtain ⟨run, run'', es, hr, hr', hes, hperm, -, hskipped⟩ := calls_after_error
    (rfl : [s][0]? = some s) hfaithful.live hloaded rfl (State.reaches_of_follow hst) herrors
    (State.reaches_of_follow hlast)
  obtain rfl : run' = run'' := Option.some.inj (hrun'.symm.trans hr')
  obtain rfl : es = [.invoked (crowdedCall "a")] := by
    rw [hevents, hevents'] at hes
    exact (List.append_cancel_left hes).symm
  have hskip := hskipped [2] k next hreach st'
  refine ⟨hfaithful.live, hloaded, rfl, st, last, run, run', k, next, st',
    State.reaches_of_follow hst, herrors, State.reaches_of_follow hlast, hr, hr', hes, hperm,
    hreach, hk, hst', (hskip st' hst' (.refl st')).1, fun last' hlast' e he => ?_⟩
  have hpath := (hskip last' hst' hlast').2 e he
  rwa [hk] at hpath

/-- A call that was let through is made in spite of an error that was recorded before. -/
theorem invoked_after_error :
    let s := sparse (.constant (.int 7))
    s.query.executor.configuration.debug = true ∧
      ∃ before after e i, (run .rota .start [s] ⟨[[]], 0⟩).events 0 = before ++ .failed e :: after ∧
        .invoked i ∈ after :=
  ⟨rfl, [.reached [.key "a"] (some .int), .reached [.key "b"] (some (.nonNull .int)),
    .produced [.key "b"] .null], _, _, _, events_sparse, List.mem_cons_self⟩

end Submission

end GraphQL
