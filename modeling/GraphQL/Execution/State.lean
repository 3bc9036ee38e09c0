import GraphQL.ContextStore
import GraphQL.Execution.Task

/-!
Executions under way, and the single steps by which they go on.

Several executions may be under way at once; they share nothing but contexts and the time.
`State.advance` is all that can happen at a position, `State.elapse` is the passing of time, and
every way of running executions is a sequence of these (`State.Reaches`). A call is made once it is
among the first of its execution's line, so no more calls are in flight than the execution allows.
-/

set_option autoImplicit false

namespace GraphQL.Execution

/-- A place in an execution under way: which child to take at each fork, innermost fork first, and
last the number of the execution. -/
abbrev Position := List Nat

/-- One execution. -/
structure Run where
  task : Task
  /-- Whether the first error stops further calls. -/
  debug : Bool
  context : ContextRef
  /-- How many calls may be in flight. -/
  permits : Nat
  /-- The calls that are in flight or wait for that, in the order in which they asked. -/
  line : List Position

namespace Run

/-- An execution that begins; at least one call may be in flight. -/
def start (task : Task) (debug : Bool) (context : ContextRef) (permits : Nat) : Run :=
  ⟨task, debug, context, max permits 1, []⟩

/-- Whether a call of the line may be in flight. -/
def admits (p : Position) (run : Run) : Bool := (run.line.take run.permits).contains p

/-- The call that may be in flight as soon as another one leaves the line. -/
def nextAdmitted? (run : Run) : Option Position := run.line[run.permits]?

end Run

structure State where
  runs : List Run
  contexts : ContextStore
  /-- What the executions have done, with their numbers, the latest first. -/
  trace : List (Nat × Event)

namespace State

def start (runs : List Run) (contexts : ContextStore) : State := ⟨runs, contexts, []⟩

/-- The events of one execution in the order in which they happened. -/
def events (number : Nat) (st : State) : List Event :=
  st.trace.reverse.filterMap fun (n, e) => if n = number then some e else none

/-- The errors of an execution in the order in which they were recorded. -/
def errors (number : Nat) (st : State) : List Error := (st.events number).filterMap Event.error?

/-- The calls of resolvers in the order in which they were made. -/
def invocations (st : State) : List Invocation :=
  st.trace.reverse.filterMap fun (_, e) => e.invocation?

/-- In debug mode an execution is aborted by its first error. -/
def isAborted (number : Nat) (run : Run) (st : State) : Bool :=
  run.debug && st.trace.any fun (n, e) => n = number && e.error?.isSome

/-- What becomes of a call that is not to be made. -/
def refusal? (number : Nat) (run : Run) (st : State) : Option Reply :=
  if st.isAborted number run then some .skipped
  else if (st.contexts.read run.context).isExpired then some .timedOut
  else none

/-- Lets some time pass, in which nothing else happens. -/
def elapse (time : Nat) (st : State) : State := { st with contexts := st.contexts.elapse time }

def modifyRun (number : Nat) (f : Run → Run) (st : State) : State :=
  { st with runs := st.runs.modify number f }

/-- Puts a task where a path leads in an execution. -/
def put (number : Nat) (path : List Nat) (u : Task) (st : State) : State :=
  st.modifyRun number fun run => { run with task := Task.replace u path run.task }

def note (number : Nat) (e : Event) (st : State) : State :=
  { st with trace := (number, e) :: st.trace }

def joinLine (number : Nat) (p : Position) (st : State) : State :=
  st.modifyRun number fun run => { run with line := run.line ++ [p] }

def leaveLine (number : Nat) (p : Position) (st : State) : State :=
  st.modifyRun number fun run => { run with line := run.line.erase p }

/-- Lets the resolver of a call pause, or answer if it does not pause any more. -/
def work (number : Nat) (path : List Nat) (context : ContextRef) (c : Call)
    (next : Reply → Task) (st : State) : (pauses : Nat) → State
  | pauses + 1 => st.put number path (.call c (.working pauses) next)
  | 0 =>
    let (resolution, entries) := c.resolver.answer c.invocation (st.contexts.read context)
    { st with contexts := st.contexts.write context entries }.put number path
      (.call c (.answered resolution) next)

/-- What happens next at a position, if anything can. -/
def advance (p : Position) (st : State) : Option State :=
  match p.reverse with
  | [] => none
  | number :: path => do
    let run ← st.runs[number]?
    match ← run.task.reach? path with
    | .done _ => none
    | .emit e next => return (st.put number path next).note number e
    | .read next => return st.put number path (next (st.contexts.read run.context))
    | .fork s children next =>
      return st.put number path (next (s.keep (← Task.completions? children)))
    | .call c stage next =>
      match stage with
      | .fresh => return (st.put number path (.call c .queued next)).joinLine number p
      | .queued =>
        if run.admits p then
          match st.refusal? number run with
          | some r => return (st.put number path (next r)).leaveLine number p
          | none => return st.put number path (.call c .admitted next)
        else none
      | .admitted =>
        return (st.note number (.invoked c.invocation)).work number path run.context c next
          c.resolver.pauses
      | .working pauses => return st.work number path run.context c next pauses
      | .answered r => return (st.put number path (next (.resolved r))).leaveLine number p

def tasks (st : State) : List Task := st.runs.map Run.task

/-- All positions of the executions, whether anything can happen there or not. -/
def positions (st : State) : List Position :=
  (st.runs.mapIdx fun number run =>
    run.task.paths.map fun path => (number :: path).reverse).flatten

/-- Any number of steps, with any time in between. -/
inductive Reaches : State → State → Prop where
  | refl (st : State) : Reaches st st
  | head {st st' last : State} (p : Position) : st.advance p = some st' → Reaches st' last →
      Reaches st last
  | wait {st last : State} (time : Nat) : Reaches (st.elapse time) last → Reaches st last

@[simp] theorem runs_elapse (time : Nat) (st : State) : (st.elapse time).runs = st.runs := rfl

@[simp] theorem trace_elapse (time : Nat) (st : State) : (st.elapse time).trace = st.trace := rfl

@[simp] theorem tasks_elapse (time : Nat) (st : State) : (st.elapse time).tasks = st.tasks := rfl

@[simp] theorem positions_elapse (time : Nat) (st : State) :
    (st.elapse time).positions = st.positions := rfl

/-- Whether anything can happen at a position does not depend on the time. -/
theorem advance_elapse_eq_none_iff (time : Nat) {p : Position} {st : State} :
    (st.elapse time).advance p = none ↔ st.advance p = none := by
  unfold advance
  split
  · rfl
  · next number path _ =>
    rw [runs_elapse]
    cases st.runs[number]? with
    | none => rfl
    | some run =>
      simp only [Option.bind_eq_bind, Option.bind_some]
      cases run.task.reach? path with
      | none => rfl
      | some t =>
        cases t with
        | fork s children next => cases Task.completions? children <;> simp
        | call c stage next =>
          cases stage with
          | queued =>
            -- A call is refused or let through, whether or not its deadline has passed.
            cases (st.elapse time).refusal? number run <;> cases st.refusal? number run <;> simp
          | _ => simp
        | _ => simp

theorem map_modify {α β : Type} {g : α → β} {f : α → α} {h : β → β}
    (hg : ∀ a, g (f a) = h (g a)) :
    ∀ (as : List α) (i : Nat), (as.modify i f).map g = (as.map g).modify i h
  | [], i => by simp
  | a :: as, 0 => by simp [hg]
  | a :: as, i + 1 => by simp [map_modify hg as i]

theorem tasks_put (number : Nat) (path : List Nat) (u : Task) (st : State) :
    (st.put number path u).tasks = st.tasks.modify number (Task.replace u path) :=
  map_modify (g := Run.task)
    (f := fun run => { run with task := Task.replace u path run.task }) (fun _ => rfl) st.runs
    number

theorem tasks_modifyRun {f : Run → Run} (hf : ∀ run, (f run).task = run.task) (number : Nat)
    (st : State) : (st.modifyRun number f).tasks = st.tasks := by
  have h := map_modify (g := Run.task) (f := f) (h := id) (by simp [hf]) st.runs number
  simpa [tasks, modifyRun] using h

@[simp] theorem tasks_joinLine (number : Nat) (p : Position) (st : State) :
    (st.joinLine number p).tasks = st.tasks :=
  tasks_modifyRun (f := fun run => { run with line := run.line ++ [p] }) (fun _ => rfl) _ _

@[simp] theorem tasks_leaveLine (number : Nat) (p : Position) (st : State) :
    (st.leaveLine number p).tasks = st.tasks :=
  tasks_modifyRun (f := fun run => { run with line := run.line.erase p }) (fun _ => rfl) _ _

@[simp] theorem tasks_note (number : Nat) (e : Event) (st : State) :
    (st.note number e).tasks = st.tasks := rfl

theorem stepAny_put {st : State} {number : Nat} {run : Run} {path : List Nat} {t u : Task}
    (hr : st.runs[number]? = some run) (ht : run.task.reach? path = some t) (h : Task.Step t u) :
    Task.StepAny st.tasks (st.put number path u).tasks := by
  rw [tasks_put]
  exact .modify (t := run.task) (by simp [tasks, hr]) (Task.step_replace h ht)

theorem stepAny_work {st : State} {number : Nat} {run : Run} {path : List Nat} {c : Call}
    {stage : Stage} {next : Reply → Task} (context : ContextRef) (pauses : Nat)
    (hr : st.runs[number]? = some run)
    (ht : run.task.reach? path = some (.call c stage next))
    (h : ∀ n, n < pauses → (Stage.working n).Later stage)
    (ha : ∀ r, (Stage.answered r).Later stage) :
    Task.StepAny st.tasks (st.work number path context c next pauses).tasks := by
  cases pauses with
  | succ n => exact stepAny_put hr ht (.stage c next (h n (Nat.lt_succ_self n)))
  | zero =>
    exact @stepAny_put { st with contexts := _ } _ _ _ _ _ hr ht (.stage c next (ha _))

/-- Whatever happens is a step of one of the tasks. -/
theorem stepAny_advance {p : Position} {st st' : State} (h : st.advance p = some st') :
    Task.StepAny st.tasks st'.tasks := by
  unfold advance at h
  split at h
  · simp at h
  · next number path _ =>
    simp only [Option.bind_eq_bind, Option.bind_eq_some_iff] at h
    obtain ⟨run, hr, t, ht, h⟩ := h
    split at h
    · simp at h
    · next e next =>
      simp only [Option.pure_def, Option.some.injEq] at h
      subst h
      exact stepAny_put hr ht (.emit e next)
    · next next =>
      simp only [Option.pure_def, Option.some.injEq] at h
      subst h
      exact stepAny_put hr ht (.read next _)
    · next s children next =>
      simp only [Option.pure_def, Option.bind_eq_some_iff, Option.some.injEq] at h
      obtain ⟨cs, _, h⟩ := h
      subst h
      exact stepAny_put hr ht (.join s children next _)
    · next c stage next =>
      split at h
      · simp only [Option.pure_def, Option.some.injEq] at h
        subst h
        rw [tasks_joinLine]
        exact stepAny_put hr ht (.stage c next (.left _ _ (by decide)))
      · split at h
        · split at h
          · next r _ =>
            simp only [Option.pure_def, Option.some.injEq] at h
            subst h
            rw [tasks_leaveLine]
            exact stepAny_put hr ht (.reply c _ next r)
          · simp only [Option.pure_def, Option.some.injEq] at h
            subst h
            exact stepAny_put hr ht (.stage c next (.left _ _ (by decide)))
        · simp at h
      · simp only [Option.pure_def, Option.some.injEq] at h
        subst h
        exact @stepAny_work (st.note number _) _ _ _ _ _ _ run.context c.resolver.pauses hr ht
          (fun _ _ => .left _ _ (by decide)) (fun _ => .left _ _ (by decide))
      · next pauses =>
        simp only [Option.pure_def, Option.some.injEq] at h
        subst h
        exact stepAny_work run.context pauses hr ht
          (fun n hn => .right _ (Nat.succ_lt_succ hn)) (fun _ => .right _ (Nat.succ_pos _))
      · next r =>
        simp only [Option.pure_def, Option.some.injEq] at h
        subst h
        rw [tasks_leaveLine]
        exact stepAny_put hr ht (.reply c _ next _)

instance : WellFoundedRelation State :=
  ⟨InvImage Task.AnyAfter tasks, InvImage.wf tasks Task.wellFounded_stepAny⟩

end State

end GraphQL.Execution
