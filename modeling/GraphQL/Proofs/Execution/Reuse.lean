import GraphQL.Proofs.Execution.Blindness
import GraphQL.Proofs.Execution.Submissions
import Mathlib

/-!
Prepared queries that are executed again and again.

An execution runs in a new context of its own, for which the default context stands in if the new
one is empty. So an execution may see what earlier ones have written to the default context, and
nothing else of them (`Preparation.outcomes_eq_anew`).
-/

set_option autoImplicit false

namespace GraphQL

open Json

namespace Execution

/-- Executions change the entries of no contexts but their own. -/
theorem State.entries_of_reaches {st last : State} (h : Reaches st last) {ref : ContextRef}
    (hne : ∀ (number : Nat) (run : Run), st.runs[number]? = some run → ref.id ≠ run.context.id) :
    last.contexts.entries ref = st.contexts.entries ref := by
  induction h with
  | refl st => rfl
  | @head st st' last p ha _ ih =>
    obtain ⟨n, path, run, t, u, es, change, contexts, rfl, hr, ht, hm, rfl⟩ := advance_cases ha
    have hentries : contexts.entries ref = st.contexts.entries ref := by
      cases hm with
      | beginAnswer k next | answer k next =>
        exact congrArg ContextParts.entries
          (ContextStore.parts_write_of_ne run.context ref _ st.contexts (hne n run hr))
      | _ => rfl
    refine (ih fun number run' hr' => ?_).trans hentries
    rw [runs_after] at hr'
    split at hr'
    · obtain ⟨run'', hr'', rfl⟩ := Option.map_eq_some_iff.1 hr'
      exact hne number run'' hr''
    · exact hne number run' hr'
  | wait _ _ ih => exact ih hne

theorem State.length_contexts_of_reaches {st last : State} (h : Reaches st last) :
    last.contexts.contexts.length = st.contexts.contexts.length := by
  induction h with
  | refl st => rfl
  | @head st st' last p ha _ ih =>
    obtain ⟨n, path, run, t, u, es, change, contexts, rfl, hr, ht, hm, rfl⟩ := advance_cases ha
    refine ih.trans ?_
    cases hm with
    | beginAnswer k next | answer k next => exact List.length_set
    | _ => rfl
  | wait _ _ ih => exact ih

end Execution

open Execution

namespace ContextStore

theorem length_create (c : ContextParts) (store : ContextStore) :
    (store.create c).2.contexts.length = store.contexts.length + 1 := by
  simp [create]

theorem id_create_lt (c : ContextParts) (store : ContextStore) :
    (store.create c).1.id < (store.create c).2.contexts.length := by
  rw [length_create]
  exact Nat.lt_succ_self _

theorem parts_create_of_lt (c : ContextParts) {store : ContextStore} {ref : ContextRef}
    (h : ref.id < store.contexts.length) : (store.create c).2.parts ref = store.parts ref := by
  simp [create, parts, entries, List.getElem?_append_left h]

end ContextStore

namespace Submission

variable {Memory : Type} {schedule : Schedule Memory} {s s' : Submission}
  {contexts contexts' : ContextStore}

/-- Two submissions that are executed in different contexts, which hold the same and have the same
time left. -/
structure Twin (s s' : Submission) (contexts contexts' : ContextStore) : Prop where
  executor : s.query.executor = s'.query.executor
  document : s.query.document = s'.query.document
  plan : (s.plan contexts).1 = (s'.plan contexts').1
  parts : contexts.parts (s.plan contexts).2 = contexts'.parts (s'.plan contexts').2
  stored : (s.plan contexts).2.id < contexts.contexts.length
  stored' : (s'.plan contexts').2.id < contexts'.contexts.length

theorem Twin.alike_run (h : Twin s s' contexts contexts') (hblind : schedule.Blind)
    (memory : Memory) :
    State.Alike (run schedule memory [s] contexts) (run schedule memory [s'] contexts') ∧
      ∃ time, (run schedule memory [s] contexts).contexts.now = contexts.now + time ∧
        (run schedule memory [s'] contexts').contexts.now = contexts'.now + time := by
  have hstart :
      s'.start contexts' = { s.start contexts with context := (s'.plan contexts').2 } := by
    unfold start
    rw [h.executor, h.document, h.plan]
    rfl
  have hinitial := State.Alike.intro (s.start contexts) (s'.plan contexts').2 [] h.parts h.stored
    h.stored'
  rw [← hstart] at hinitial
  exact hinitial.run hblind memory

theorem context_of_run (schedule : Schedule Memory) (memory : Memory) (s : Submission)
    (contexts : ContextStore) {run' : Run}
    (hr : (run schedule memory [s] contexts).runs[0]? = some run') :
    run'.context = (s.plan contexts).2 := by
  obtain ⟨run₁, h₁, -, hcontext, -⟩ := State.run_of_reaches
    (State.reaches_run schedule memory (initial [s] contexts))
    (getElem?_initial (show [s][0]? = some s from rfl))
  obtain rfl : run' = run₁ := Option.some.inj (hr.symm.trans h₁)
  exact hcontext

/-- The contexts hold the same when nothing more can happen. -/
theorem Twin.parts_run (h : Twin s s' contexts contexts') (hblind : schedule.Blind)
    (memory : Memory) :
    (run schedule memory [s] contexts).contexts.parts (s.plan contexts).2 =
      (run schedule memory [s'] contexts').contexts.parts (s'.plan contexts').2 := by
  obtain ⟨run₁, ref, hr, hr', hparts⟩ := (h.alike_run hblind memory).1.exists_run
  rw [context_of_run schedule memory s contexts hr] at hparts
  obtain rfl : ref = (s'.plan contexts').2 := context_of_run schedule memory s' contexts' hr'
  exact hparts

/-- An execution changes the entries of no context but its own. -/
theorem entries_run_of_ne (schedule : Schedule Memory) (memory : Memory) (s : Submission)
    {contexts : ContextStore} {ref : ContextRef} (hne : ref.id ≠ (s.plan contexts).2.id) :
    (run schedule memory [s] contexts).contexts.entries ref = contexts.entries ref := by
  refine State.entries_of_reaches (State.reaches_run schedule memory _) fun number run' hr => ?_
  cases number with
  | zero =>
    obtain rfl : s.start contexts = run' := Option.some.inj hr
    exact hne
  | succ number => cases hr

theorem length_contexts_run (schedule : Schedule Memory) (memory : Memory)
    (submissions : List Submission) (contexts : ContextStore) :
    (run schedule memory submissions contexts).contexts.contexts.length =
      contexts.contexts.length :=
  State.length_contexts_of_reaches (State.reaches_run schedule memory _)

end Submission

/-- What is given for one execution of a prepared query in a new context. -/
structure PreparedQuery.Use where
  variableValues : Entries Value
  context : ContextParts
  operationName : Option String

namespace PreparedQuery

/-- Whether the default context stands in for the new one. -/
def Use.borrows (u : Use) : Bool := u.context.isEmpty && u.context.timeLeft.isNone

def Use.submission (u : Use) (q : PreparedQuery) (contexts : ContextStore) : Submission :=
  ⟨q, u.variableValues, (contexts.create u.context).1, u.operationName⟩

variable {Memory : Type}

/-- Executes a query in a new context. -/
def useWith (schedule : Schedule Memory) (memory : Memory) (q : PreparedQuery) (u : Use)
    (contexts : ContextStore) : Outcome (Except ExecutionError Response) :=
  Submission.executeWith schedule memory (u.submission q contexts) (contexts.create u.context).2

/-- An execution runs in its new context or in the default context. -/
theorem plan_submission (q : PreparedQuery) (u : Use) (contexts : ContextStore) :
    ((u.submission q contexts).plan (contexts.create u.context).2).2 =
      match q.defaults with
      | none => (contexts.create u.context).1
      | some d => if u.borrows then d.context else (contexts.create u.context).1 := by
  unfold Use.submission Submission.plan inputs Use.borrows
  cases q.defaults with
  | none => rfl
  | some d =>
    have hcreate := ContextStore.parts_create u.context contexts
    have hentries : (contexts.create u.context).2.entries (contexts.create u.context).1 =
        u.context.entries := congrArg ContextParts.entries hcreate
    have hdeadline : (contexts.create u.context).1.deadline.isNone = u.context.timeLeft.isNone := by
      simp [ContextStore.create]
    simp only [hentries, hdeadline]
    rfl

/-- Executes a query again and again. -/
def usesWith (schedule : Schedule Memory) (q : PreparedQuery) :
    List (Memory × Use) → ContextStore → List (Outcome (Except ExecutionError Response))
  | [], _ => []
  | (memory, u) :: uses, contexts =>
    q.useWith schedule memory u contexts ::
      q.usesWith schedule uses (q.useWith schedule memory u contexts).contexts

end PreparedQuery

/-- What an execution shows. -/
def Outcome.answer {α : Type} (o : Outcome α) : α × List Invocation := (o.result, o.invocations)

/-- What a query is prepared from: perhaps also variables and what a default context holds. -/
structure Preparation where
  executor : Executor
  document : Document
  defaults : Option (Entries Value × ContextParts)

namespace Preparation

open PreparedQuery (Use)

variable {Memory : Type}

/-- Prepares a query; the default context is a new one. -/
def prepare (p : Preparation) (contexts : ContextStore) : PreparedQuery × ContextStore :=
  match p.defaults with
  | none => (p.executor.prepare p.document, contexts)
  | some (variableValues, c) =>
    (p.executor.prepareWithDefaults p.document ⟨variableValues, (contexts.create c).1⟩,
      (contexts.create c).2)

/-- Prepares a query and executes it again and again. -/
def outcomes (schedule : Schedule Memory) (p : Preparation) (uses : List (Memory × Use))
    (contexts : ContextStore) : List (Outcome (Except ExecutionError Response)) :=
  (p.prepare contexts).1.usesWith schedule uses (p.prepare contexts).2

/-- Prepares a query and executes it for the first time. -/
def first (schedule : Schedule Memory) (p : Preparation) (memory : Memory) (u : Use)
    (contexts : ContextStore) : Outcome (Except ExecutionError Response) :=
  (p.prepare contexts).1.useWith schedule memory u (p.prepare contexts).2

/-- The preparation with the default context as a first execution leaves it. -/
def after (schedule : Schedule Memory) (p : Preparation) (memory : Memory) (u : Use)
    (contexts : ContextStore) : Preparation :=
  { p with defaults := p.defaults.map fun (variableValues, c) =>
      (variableValues, (p.first schedule memory u contexts).contexts.parts (contexts.create c).1) }

/-- Prepares a query anew for each execution. Of what an execution leaves, the next ones are given
the default context. -/
def anew (schedule : Schedule Memory) (contexts : ContextStore) :
    List (Memory × Use) → Preparation → List (Outcome (Except ExecutionError Response))
  | [], _ => []
  | (memory, u) :: uses, p =>
    p.first schedule memory u contexts ::
      anew schedule contexts uses (p.after schedule memory u contexts)

/-- The variables of an execution. -/
def variableValues (p : Preparation) (u : Use) : Entries Value :=
  match p.defaults with
  | none => u.variableValues
  | some (variableValues, _) =>
    if u.variableValues.isEmpty then variableValues else u.variableValues

/-- What the context of an execution holds. -/
def context (p : Preparation) (u : Use) : ContextParts :=
  match p.defaults with
  | none => u.context
  | some (_, c) => if u.borrows then c else u.context

theorem variableValues_eq {p p' : Preparation} {u : Use}
    (h : p.defaults.map Prod.fst = p'.defaults.map Prod.fst) :
    p.variableValues u = p'.variableValues u := by
  unfold variableValues
  match p.defaults, p'.defaults, h with
  | none, none, _ => rfl
  | some d, some d', h =>
    have hd : d.1 = d'.1 := Option.some.inj h
    simp only [hd]

theorem context_eq {p : Preparation} {u : Use} (hu : u.borrows = false) :
    p.context u = u.context := by
  unfold context
  split
  · rfl
  · rw [hu]
    rfl

/-- A query is prepared from a preparation, and its default context holds what that says. -/
inductive Stands : Preparation → PreparedQuery → ContextStore → Prop where
  | bare (executor : Executor) (document : Document) (contexts : ContextStore) :
      Stands ⟨executor, document, none⟩ (executor.prepare document) contexts
  | bound (executor : Executor) (document : Document) (variableValues : Entries Value)
      {ref : ContextRef} {contexts : ContextStore} (h : ref.id < contexts.contexts.length) :
      Stands ⟨executor, document, some (variableValues, contexts.parts ref)⟩
        (executor.prepareWithDefaults document ⟨variableValues, ref⟩) contexts

theorem stands_prepare (p : Preparation) (contexts : ContextStore) :
    p.Stands (p.prepare contexts).1 (p.prepare contexts).2 := by
  obtain ⟨executor, document, defaults⟩ := p
  cases defaults with
  | none => exact .bare executor document contexts
  | some d =>
    have hbound := Stands.bound executor document d.1 (ContextStore.id_create_lt d.2 contexts)
    rwa [ContextStore.parts_create] at hbound

variable {schedule : Schedule Memory} {p p' : Preparation} {q q' : PreparedQuery}
  {contexts contexts' : ContextStore} {u : Use}

theorem Stands.plan_eq (h : p.Stands q contexts) (u : Use) :
    ((u.submission q contexts).plan (contexts.create u.context).2).1 =
        (p.executor.prepare p.document).plan (p.variableValues u) u.operationName := by
  cases h with
  | bare => rfl
  | bound => rfl

theorem Stands.parts_plan (h : p.Stands q contexts) (u : Use) :
    (contexts.create u.context).2.parts
        ((u.submission q contexts).plan (contexts.create u.context).2).2 = p.context u ∧
      ((u.submission q contexts).plan (contexts.create u.context).2).2.id <
        (contexts.create u.context).2.contexts.length := by
  have hlt := ContextStore.id_create_lt u.context contexts
  have hparts := ContextStore.parts_create u.context contexts
  rw [PreparedQuery.plan_submission]
  cases h with
  | bare executor document contexts => exact ⟨hparts, hlt⟩
  | bound executor document variableValues h =>
    rw [context]
    dsimp only [Executor.prepareWithDefaults]
    split
    · rw [ContextStore.parts_create_of_lt _ h, ContextStore.length_create]
      exact ⟨rfl, Nat.lt_succ_of_lt h⟩
    · exact ⟨hparts, hlt⟩

/-- An execution runs in the same way if its variables and what its context holds are the same. -/
theorem Stands.twin (h : p.Stands q contexts) (h' : p'.Stands q' contexts')
    (hexecutor : p.executor = p'.executor) (hdocument : p.document = p'.document)
    (hvariables : p.variableValues u = p'.variableValues u)
    (hcontext : p.context u = p'.context u) :
    Submission.Twin (u.submission q contexts) (u.submission q' contexts')
      (contexts.create u.context).2 (contexts'.create u.context).2 where
  executor := by
    cases h <;> cases h' <;> exact hexecutor
  document := by
    cases h <;> cases h' <;> exact hdocument
  plan := by rw [h.plan_eq, h'.plan_eq, hexecutor, hdocument, hvariables]
  parts := by rw [(h.parts_plan u).1, (h'.parts_plan u).1, hcontext]
  stored := (h.parts_plan u).2
  stored' := (h'.parts_plan u).2

theorem Stands.answer_eq (hblind : schedule.Blind) (memory : Memory) (h : p.Stands q contexts)
    (h' : p'.Stands q' contexts') (hexecutor : p.executor = p'.executor)
    (hdocument : p.document = p'.document) (hvariables : p.variableValues u = p'.variableValues u)
    (hcontext : p.context u = p'.context u) :
    (q.useWith schedule memory u contexts).answer =
      (q'.useWith schedule memory u contexts').answer := by
  have htwin := h.twin h' hexecutor hdocument hvariables hcontext
  have hlast := (htwin.alike_run hblind memory).1
  refine Prod.ext ?_ hlast.invocations_eq
  change Submission.conclude _ _ 0 _ = Submission.conclude _ _ 0 _
  unfold Submission.conclude
  rw [htwin.plan, htwin.executor, hlast.output_eq]

theorem Stands.defaults_eq (h : p.Stands q contexts) {d : PreparedDefaults}
    (hd : q.defaults = some d) :
    p.defaults = some (d.variableValues, contexts.parts d.context) := by
  cases h <;> cases hd
  rfl

/-- An execution in a context of its own leaves the default context as it is. -/
theorem Stands.entries_default_of_not_borrows (schedule : Schedule Memory) (memory : Memory)
    (h : p.Stands q contexts) {d : PreparedDefaults} (hd : q.defaults = some d)
    (hu : u.borrows = false) :
    (q.useWith schedule memory u contexts).contexts.entries d.context =
      contexts.entries d.context := by
  cases h with
  | bare => cases hd
  | bound executor document variableValues h =>
    cases hd
    refine (Submission.entries_run_of_ne schedule memory _ ?_).trans
      (congrArg ContextParts.entries (ContextStore.parts_create_of_lt u.context h))
    rw [PreparedQuery.plan_submission]
    dsimp only [Executor.prepareWithDefaults]
    rw [hu]
    exact Nat.ne_of_lt h

/-- What the default context holds after an execution depends on what it held before. -/
theorem Stands.parts_default_eq (hblind : schedule.Blind) (memory : Memory)
    (h : p.Stands q contexts) (h' : p.Stands q' contexts') {d d' : PreparedDefaults}
    (hd : q.defaults = some d) (hd' : q'.defaults = some d') :
    (q.useWith schedule memory u contexts).contexts.parts d.context =
      (q'.useWith schedule memory u contexts').contexts.parts d'.context := by
  have htwin := h.twin h' rfl rfl (u := u) rfl rfl
  cases hu : u.borrows with
  | false =>
    obtain ⟨-, time, hnow, hnow'⟩ := htwin.alike_run hblind memory
    have hsame : contexts.parts d.context = contexts'.parts d'.context :=
      congrArg Prod.snd (Option.some.inj ((h.defaults_eq hd).symm.trans (h'.defaults_eq hd')))
    have hparts := ContextStore.parts_eq_of_now
      (h.entries_default_of_not_borrows schedule memory hd hu) hnow
    have hparts' := ContextStore.parts_eq_of_now
      (h'.entries_default_of_not_borrows schedule memory hd' hu) hnow'
    exact hparts.trans (hsame ▸ hparts'.symm)
  | true =>
    have hparts := htwin.parts_run hblind memory
    rw [PreparedQuery.plan_submission, PreparedQuery.plan_submission, hd, hd'] at hparts
    dsimp only at hparts
    rwa [if_pos hu, if_pos hu] at hparts

theorem Stands.after (hblind : schedule.Blind) (memory : Memory) (h : p.Stands q contexts)
    (u : Use) (contexts' : ContextStore) :
    (p.after schedule memory u contexts').Stands q
      (q.useWith schedule memory u contexts).contexts := by
  have hprepare := p.stands_prepare contexts'
  cases h with
  | bare executor document contexts => exact .bare executor document _
  | @bound executor document variableValues ref contexts hlt =>
    have hparts := (Stands.bound executor document variableValues hlt).parts_default_eq hblind
      memory hprepare (u := u) rfl rfl
    have hstored : ref.id < ((executor.prepareWithDefaults document ⟨variableValues, ref⟩).useWith
        schedule memory u contexts).contexts.contexts.length := by
      refine Nat.lt_of_lt_of_eq (Nat.lt_succ_of_lt hlt) ?_
      rw [PreparedQuery.useWith, Submission.executeWith, Submission.length_contexts_run,
        ContextStore.length_create]
    have hbound := Stands.bound executor document variableValues hstored
    rw [hparts] at hbound
    exact hbound

/-- The preparation after executions in turn. -/
def afterAll (schedule : Schedule Memory) (contexts : ContextStore) (uses : List (Memory × Use))
    (p : Preparation) : Preparation :=
  uses.foldl (fun p v => p.after schedule v.1 v.2 contexts) p

/-- How long it is until the deadline of the default context, if it has one. -/
def timeLeft (p : Preparation) : Option Nat := p.defaults.bind (·.2.timeLeft)

/-- Nobody changes the default context but who borrows it, and its time runs out only if it has a
deadline. -/
theorem after_eq_self (schedule : Schedule Memory) (memory : Memory) (contexts : ContextStore)
    (h : p.defaults = none ∨ u.borrows = false ∧
      (p.timeLeft = none ∨ ∀ memory st, schedule.lapse memory st = 0)) :
    p.after schedule memory u contexts = p := by
  have hprepare := p.stands_prepare contexts
  obtain ⟨executor, document, defaults⟩ := p
  cases defaults with
  | none => rfl
  | some d =>
    obtain ⟨hu, htime⟩ := h.resolve_left nofun
    have hentries := hprepare.entries_default_of_not_borrows schedule memory (u := u) rfl hu
    have hd : ((first schedule ⟨executor, document, some d⟩ memory u contexts).contexts.parts
        (contexts.create d.2).1) = d.2 := by
      refine .trans ?_ (ContextStore.parts_create d.2 contexts)
      rcases htime with hnone | hlapse
      · have hdeadline : (contexts.create d.2).1.deadline = none := by
          simpa [ContextStore.create, timeLeft] using hnone
        have hparts : ∀ store : ContextStore, store.parts (contexts.create d.2).1 =
            ⟨store.entries (contexts.create d.2).1, none⟩ := fun store => by
          rw [ContextStore.parts, hdeadline, Option.map_none]
        rw [hparts, hparts]
        exact congrArg (ContextParts.mk · none) hentries
      · have hnow : (first schedule ⟨executor, document, some d⟩ memory u contexts).contexts.now =
            (contexts.create d.2).2.now + 0 := State.now_run hlapse memory _
        refine (ContextStore.parts_eq_of_now hentries hnow).trans ?_
        simp only [Nat.sub_zero, Option.map_id_fun', id_eq]
        rfl
    rw [after, Option.map_some]
    dsimp only
    rw [hd]

/-- Executions change no more of a preparation than what the default context holds. -/
theorem afterAll_cases (schedule : Schedule Memory) (contexts : ContextStore)
    (uses : List (Memory × Use)) (p : Preparation) :
    ∃ defaults, afterAll schedule contexts uses p = { p with defaults } ∧
      defaults.map Prod.fst = p.defaults.map Prod.fst := by
  induction uses generalizing p with
  | nil => exact ⟨p.defaults, rfl, rfl⟩
  | cons v uses ih =>
    obtain ⟨defaults, heq, hmap⟩ := ih (p.after schedule v.1 v.2 contexts)
    refine ⟨defaults, heq, hmap.trans ?_⟩
    rw [after, Option.map_map]
    rfl

theorem afterAll_eq_self (schedule : Schedule Memory) (contexts : ContextStore)
    {uses : List (Memory × Use)}
    (h : p.defaults = none ∨ (∀ v ∈ uses, v.2.borrows = false) ∧
      (p.timeLeft = none ∨ ∀ memory st, schedule.lapse memory st = 0)) :
    afterAll schedule contexts uses p = p := by
  induction uses with
  | nil => rfl
  | cons v uses ih =>
    rw [afterAll, List.foldl_cons, after_eq_self schedule v.1 contexts
      (h.imp_right fun h => ⟨h.1 v List.mem_cons_self, h.2⟩)]
    exact ih (h.imp_right fun h => ⟨fun w hw => h.1 w (List.mem_cons_of_mem v hw), h.2⟩)

theorem getElem?_anew (schedule : Schedule Memory) (contexts : ContextStore)
    {uses : List (Memory × Use)} {p : Preparation} {i : Nat} {memory : Memory}
    (hu : uses[i]? = some (memory, u)) :
    (anew schedule contexts uses p)[i]? =
      some ((afterAll schedule contexts (uses.take i) p).first schedule memory u contexts) := by
  induction uses generalizing p i with
  | nil => cases hu
  | cons v uses ih =>
    cases i with
    | zero =>
      cases hu
      rfl
    | succ i => exact ih hu

theorem Stands.map_answer_usesWith (hblind : schedule.Blind) (contexts' : ContextStore)
    (uses : List (Memory × Use)) (h : p.Stands q contexts) :
    (q.usesWith schedule uses contexts).map Outcome.answer =
      (anew schedule contexts' uses p).map Outcome.answer := by
  induction uses generalizing p contexts with
  | nil => rfl
  | cons v uses ih =>
    rw [PreparedQuery.usesWith, anew, List.map_cons, List.map_cons,
      ih (h.after hblind v.1 v.2 contexts')]
    congr 1
    exact h.answer_eq hblind v.1 (p.stands_prepare contexts') rfl rfl rfl rfl

/-- Executing a query again and again comes to preparing it anew for each execution, with the
default context as the executions before have left it. An execution is like a first one unless it
borrows the default context and one before it has done so, or has taken of the time until the
deadline of the default context. -/
theorem outcomes_eq_anew (hblind : schedule.Blind) (p : Preparation) (uses : List (Memory × Use))
    (contexts contexts' : ContextStore) :
    (p.outcomes schedule uses contexts).map Outcome.answer =
        (anew schedule contexts' uses p).map Outcome.answer ∧
      ∀ i memory u, uses[i]? = some (memory, u) →
        (p.defaults = none ∨ u.borrows = false ∨ (∀ v ∈ uses.take i, v.2.borrows = false) ∧
          (p.timeLeft = none ∨ ∀ memory st, schedule.lapse memory st = 0)) →
        (p.outcomes schedule uses contexts)[i]?.map Outcome.answer =
          some (p.first schedule memory u contexts').answer := by
  have hanew := (p.stands_prepare contexts).map_answer_usesWith hblind contexts' uses
  refine ⟨hanew, fun i memory u hu hfree => ?_⟩
  have hi : (p.outcomes schedule uses contexts)[i]?.map Outcome.answer =
      some ((afterAll schedule contexts' (uses.take i) p).first schedule memory u
        contexts').answer := by
    rw [← List.getElem?_map]
    refine (congrArg (·[i]?) hanew).trans ?_
    rw [List.getElem?_map, getElem?_anew schedule contexts' hu, Option.map_some]
  rw [hi, Option.some_inj]
  obtain hnone | hu | hbefore := hfree
  · rw [afterAll_eq_self schedule contexts' (.inl hnone)]
  · obtain ⟨defaults, heq, hmap⟩ := afterAll_cases schedule contexts' (uses.take i) p
    rw [heq]
    refine (stands_prepare _ contexts').answer_eq hblind memory (p.stands_prepare contexts') rfl rfl
      (variableValues_eq hmap) ?_
    rw [context_eq hu, context_eq hu]
  · rw [afterAll_eq_self schedule contexts' (.inr hbefore)]

/-- The small schema, in which one field counts how often it is asked for in its context. -/
def counting : Preparation := ⟨.small (.count "n"), .small, some ([], .new)⟩

/-- A context in which the count has come to four. -/
def counted : ContextParts := ⟨[("n", .int 4)], none⟩

/-- The second execution has a context of its own. -/
def countingUses : List (Rota × Use) := [(.start, ⟨[], .new, none⟩), (.start, ⟨[], counted, none⟩)]

theorem outcomes_eq_anew_counting :
    Schedule.rota.Blind ∧
      (counting.outcomes .rota countingUses .empty).map Outcome.answer =
        (anew .rota .empty countingUses counting).map Outcome.answer ∧
      countingUses[1]? = some (.start, ⟨[], counted, none⟩) ∧
      Use.borrows ⟨[], counted, none⟩ = false ∧
      (counting.outcomes .rota countingUses .empty)[1]?.map Outcome.answer =
        some (counting.first .rota .start ⟨[], counted, none⟩ .empty).answer := by
  obtain ⟨hanew, hfirst⟩ := outcomes_eq_anew Schedule.blind_rota counting countingUses .empty .empty
  exact ⟨Schedule.blind_rota, hanew, rfl, rfl, hfirst 1 .start _ rfl (.inr (.inl rfl))⟩

/-- The data of an answer. -/
def data? (answer : Option (Except ExecutionError Response × List Invocation)) : Option Value := do
  (← (← answer).1.toOption).data

set_option maxRecDepth 8000 in
theorem data_first_counting :
    data? (some (counting.first .rota .start ⟨[], .new, none⟩ .empty).answer) =
      some (.object [("a", .int 1), ("b", .int 1)]) := by cbv

set_option maxRecDepth 8000 in
theorem data_second_counting :
    data? ((counting.outcomes .rota [(.start, ⟨[], .new, none⟩), (.start, ⟨[], .new, none⟩)]
        .empty)[1]?.map Outcome.answer) =
      some (.object [("a", .int 2), ("b", .int 1)]) := by cbv

/-- What an execution writes to the default context is seen by the next one. -/
theorem outcome_ne_first :
    ¬ ∀ (p : Preparation) (uses : List (Rota × Use)) (contexts contexts' : ContextStore) (i : Nat)
      (memory : Rota) (u : Use), uses[i]? = some (memory, u) →
      (p.outcomes .rota uses contexts)[i]?.map Outcome.answer =
        some (p.first .rota memory u contexts').answer := by
  intro h
  have hdata := congrArg data? (h counting [(.start, ⟨[], .new, none⟩), (.start, ⟨[], .new, none⟩)]
    .empty .empty 1 .start ⟨[], .new, none⟩ rfl)
  rw [data_second_counting, data_first_counting] at hdata
  cases hdata

end Preparation

end GraphQL
