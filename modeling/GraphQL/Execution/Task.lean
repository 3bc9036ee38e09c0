import GraphQL.Execution.Strategy
import GraphQL.Resolver
import GraphQL.Response.Error
import GraphQL.TypeRef

/-!
Tasks: what is left to be done at one position of a response.

A task is a tree in which only calls of resolvers wait for something; a fork holds the tasks of
sibling positions. `Task.Step` is the smallest progress that a task can make, in any of its parts.
No task can make progress for ever (`Task.wellFounded_step`), whatever the resolvers answer.
-/

set_option autoImplicit false

namespace GraphQL.Execution

open Json

/-- A resolver with what it is to be told. -/
structure Call where
  resolver : Resolver
  invocation : Invocation

/-- What becomes of a call: the resolver's answer, or that it was not made because the execution
was aborted or its deadline had passed. -/
inductive Reply where
  | resolved (r : Resolution)
  | skipped
  | timedOut

/-- How far a call has come. -/
inductive Stage where
  /-- It has not asked for a permit. -/
  | fresh
  /-- It has asked. -/
  | queued
  /-- It is going to be made. -/
  | admitted
  /-- Its resolver is at work and pauses so many more times. -/
  | working (pauses : Nat)
  | answered (r : Resolution)

namespace Stage

/-- Falls from stage to stage. -/
def rank : Stage → Nat × Nat
  | fresh => (3, 0)
  | queued => (2, 0)
  | admitted => (1, 0)
  | working pauses => (0, pauses + 1)
  | answered _ => (0, 0)

/-- The first stage comes after the second. -/
def Later : Stage → Stage → Prop := InvImage (Prod.Lex (· < ·) (· < ·)) rank

theorem wellFounded_later : WellFounded Later :=
  InvImage.wf rank (Prod.lex ⟨_, Nat.lt_wfRel.wf⟩ ⟨_, Nat.lt_wfRel.wf⟩).wf

end Stage

/-- What an execution does. -/
inductive Event where
  /-- It comes to a field or a list item of a declared type; a field that is not defined has
  none. -/
  | reached (path : Path) (type : Option TypeRef)
  /-- There is a value to be completed at a position. -/
  | produced (path : Path) (value : Value)
  /-- It records an error while it collects a selection set. -/
  | collecting (e : Error)
  /-- It records an error for a field or a list item. The error may stand in the place of a coercion
  of arguments that is endless. -/
  | failed (e : Error) (endless : Bool := false)
  | invoked (i : Invocation)
  deriving Repr

namespace Event

def error? : Event → Option Error
  | collecting e => some e
  | failed e _ => some e
  | _ => none

def invocation? : Event → Option Invocation
  | invoked i => some i
  | _ => none

/-- Whether the process is lost, since a coercion has no end. -/
def isEndless : Event → Bool
  | failed _ endless => endless
  | _ => false

end Event

inductive Task where
  | done (c : Completion)
  | emit (e : Event) (next : Task)
  | read (next : Context → Task)
  | call (c : Call) (stage : Stage) (next : Reply → Task)
  | fork (s : Strategy) (children : List Task) (next : List Completion → Task)

namespace Task

/-- Goes on with the completion of a task. -/
def bind (f : Completion → Task) : Task → Task
  | done c => f c
  | emit e next => emit e (bind f next)
  | read next => read fun c => bind f (next c)
  | call c stage next => call c stage fun r => bind f (next r)
  | fork s children next => fork s children fun cs => bind f (next cs)

/-- Emits events in their order. -/
def emitAll (events : List Event) (next : Task) : Task := events.foldr emit next

def completion? : Task → Option Completion
  | done c => some c
  | _ => none

def isDone (t : Task) : Bool := t.completion?.isSome

/-- The completions of tasks that are all done. -/
def completions? (ts : List Task) : Option (List Completion) := ts.mapM completion?

inductive Step : Task → Task → Prop where
  | emit (e : Event) (next : Task) : Step (emit e next) next
  | read (next : Context → Task) (c : Context) : Step (read next) (next c)
  | stage (c : Call) (next : Reply → Task) {s s' : Stage} : s'.Later s →
      Step (call c s next) (call c s' next)
  | reply (c : Call) (s : Stage) (next : Reply → Task) (r : Reply) : Step (call c s next) (next r)
  | join (s : Strategy) (children : List Task) (next : List Completion → Task)
      (cs : List Completion) : Step (fork s children next) (next cs)
  | child (s : Strategy) (before after : List Task) {t u : Task}
      (next : List Completion → Task) : Step t u →
      Step (fork s (before ++ t :: after) next) (fork s (before ++ u :: after) next)

/-- One member of a list makes a step. -/
inductive StepAny : List Task → List Task → Prop where
  | head {t u : Task} (ts : List Task) : Step t u → StepAny (t :: ts) (u :: ts)
  | tail (t : Task) {ts us : List Task} : StepAny ts us → StepAny (t :: ts) (t :: us)

theorem StepAny.at (before after : List Task) {t u : Task} (h : Step t u) :
    StepAny (before ++ t :: after) (before ++ u :: after) := by
  induction before with
  | nil => exact .head after h
  | cons b before ih => exact .tail b ih

/-- A relation read from the later to the earlier side, as termination needs it. -/
abbrev After (t u : Task) : Prop := Step u t

abbrev AnyAfter (ts us : List Task) : Prop := StepAny us ts

theorem acc_call (c : Call) (next : Reply → Task) (hnext : ∀ r, Acc After (next r)) (s : Stage) :
    Acc After (call c s next) := by
  induction s using Stage.wellFounded_later.induction with
  | h s ih =>
    refine ⟨_, fun u h => ?_⟩
    cases h with
    | stage _ _ hs => exact ih _ hs
    | reply _ _ _ r => exact hnext r

theorem acc_cons {t : Task} (ht : Acc After t) :
    ∀ {ts : List Task}, Acc AnyAfter ts → Acc AnyAfter (t :: ts) := by
  induction ht with
  | intro t _ iht =>
    intro ts hts
    induction hts with
    | intro ts hacc ihts =>
      refine ⟨_, fun us h => ?_⟩
      cases h with
      | head _ h => exact iht _ h ⟨_, hacc⟩
      | tail _ h => exact ihts _ h

theorem acc_fork (s : Strategy) (next : List Completion → Task)
    (hnext : ∀ cs, Acc After (next cs)) {ts : List Task} (hts : Acc AnyAfter ts) :
    Acc After (fork s ts next) := by
  induction hts with
  | intro ts _ ih =>
    refine ⟨_, fun u h => ?_⟩
    cases h with
    | join _ _ _ cs => exact hnext cs
    | child _ before after _ h => exact ih _ (.at before after h)

mutual

theorem acc : ∀ t : Task, Acc After t
  | done _ => ⟨_, fun _ h => nomatch h⟩
  | emit _ next => ⟨_, fun _ h => match h with | .emit _ _ => acc next⟩
  | read next => ⟨_, fun _ h => match h with | .read _ c => acc (next c)⟩
  | call c s next => acc_call c next (fun r => acc (next r)) s
  | fork s children next => acc_fork s next (fun cs => acc (next cs)) (acc_all children)

theorem acc_all : ∀ ts : List Task, Acc AnyAfter ts
  | [] => ⟨_, fun _ h => nomatch h⟩
  | t :: ts => acc_cons (acc t) (acc_all ts)

end

theorem wellFounded_stepAny : WellFounded AnyAfter := ⟨acc_all⟩

end Task

/-- Whether the sibling `i` may run, as far as the others have come. -/
def Order.allows (siblings : List Task) (i : Nat) : Order → Bool
  | forward => (siblings.take i).all Task.isDone
  | backward => (siblings.drop (i + 1)).all Task.isDone
  | window limit => i < (siblings.takeWhile Task.isDone).length + limit

namespace Task

/-- The part of a task to which a path leads, outermost fork first, if the strategies let it
run. -/
def reach? : List Nat → Task → Option Task
  | [], t => some t
  | i :: path, fork s children _ =>
    if s.order.allows children i then children[i]?.bind (reach? path) else none
  | _ :: _, _ => none

/-- Puts a task in place of the one to which a path leads. -/
def replace (u : Task) : List Nat → Task → Task
  | [], _ => u
  | i :: path, fork s children next => fork s (children.modify i (replace u path)) next
  | _ :: _, t => t

theorem StepAny.modify {ts : List Task} {i : Nat} {t : Task} {f : Task → Task}
    (ht : ts[i]? = some t) (h : Step t (f t)) : StepAny ts (ts.modify i f) := by
  obtain ⟨hi, rfl⟩ := List.getElem?_eq_some_iff.1 ht
  have := StepAny.at (ts.take i) (ts.drop (i + 1)) h
  rw [← List.modify_eq_take_cons_drop (f := f) hi] at this
  simpa using this

theorem step_replace {t u : Task} (h : Step t u) :
    ∀ {path : List Nat} {whole : Task}, reach? path whole = some t →
      Step whole (replace u path whole)
  | [], whole, hr => by
    simp only [reach?, Option.some.injEq] at hr
    subst hr
    exact h
  | i :: path, fork s children next, hr => by
    simp only [reach?] at hr
    split at hr
    · simp only [Option.bind_eq_some_iff] at hr
      obtain ⟨c, hc, hp⟩ := hr
      obtain ⟨hi, rfl⟩ := List.getElem?_eq_some_iff.1 hc
      have hs := Step.child s (children.take i) (children.drop (i + 1)) next (step_replace h hp)
      rw [← List.modify_eq_take_cons_drop (f := replace u path) hi] at hs
      simpa [replace] using hs
    · simp at hr
  | _ :: _, done _, hr => by simp [reach?] at hr
  | _ :: _, emit _ _, hr => by simp [reach?] at hr
  | _ :: _, read _, hr => by simp [reach?] at hr
  | _ :: _, call _ _ _, hr => by simp [reach?] at hr

mutual

/-- The paths to all parts of a task. -/
def paths : Task → List (List Nat)
  | done _ => [[]]
  | emit _ _ => [[]]
  | read _ => [[]]
  | call _ _ _ => [[]]
  | fork _ children _ => [] :: pathsFrom 0 children

def pathsFrom : Nat → List Task → List (List Nat)
  | _, [] => []
  | i, t :: ts => (paths t).map (i :: ·) ++ pathsFrom (i + 1) ts

end

end Task

end GraphQL.Execution
