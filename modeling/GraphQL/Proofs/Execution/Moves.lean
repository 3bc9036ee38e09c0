import GraphQL.Execution.Schedule
import GraphQL.Proofs.Execution.Ends

/-!
What a single step of a state can be.

A step changes one task of one execution, and with it the line of the execution and the contexts
(`State.advance_cases`).
-/

set_option autoImplicit false

namespace GraphQL.Execution

open Json

/-- What a step does to the line of its execution. -/
inductive LineChange where
  | stays
  | joins
  | leaves

def LineChange.apply (p : Position) (line : List Position) : LineChange → List Position
  | stays => line
  | joins => line ++ [p]
  | leaves => line.erase p

namespace State

/-- The answer that a call would get, with the contexts that it would leave. -/
def answer (st : State) (run : Run) (k : Call) : Resolution × ContextStore :=
  let (resolution, entries) := k.resolver.answer k.invocation (st.contexts.read run.context)
  (resolution, st.contexts.write run.context entries)

/-- A step from one task to another at a position of an execution: the events that it notes, what it
does to the line, and the contexts that it leaves. -/
inductive Move (st : State) (number : Nat) (run : Run) (p : Position) :
    Task → Task → List Event → LineChange → ContextStore → Prop where
  | emit (e : Event) (next : Task) :
      Move st number run p (.emit e next) next [e] .stays st.contexts
  | read (next : Context → Task) :
      Move st number run p (.read next) (next (st.contexts.read run.context)) [] .stays st.contexts
  | join (s : Strategy) {children : List Task} (next : List Completion → Task)
      {cs : List Completion} : Task.completions? children = some cs →
      Move st number run p (.fork s children next) (next (s.keep cs)) [] .stays st.contexts
  | ask (k : Call) (next : Reply → Task) :
      Move st number run p (.call k .fresh next) (.call k .queued next) [] .joins st.contexts
  | refuse (k : Call) (next : Reply → Task) {r : Reply} : st.refusal? number run = some r →
      Move st number run p (.call k .queued next) (next r) [] .leaves st.contexts
  | grant (k : Call) (next : Reply → Task) : st.refusal? number run = none →
      Move st number run p (.call k .queued next) (.call k .admitted next) [] .stays st.contexts
  | begin (k : Call) (next : Reply → Task) (pauses : Nat) :
      Move st number run p (.call k .admitted next) (.call k (.working pauses) next)
        [.invoked k.invocation] .stays st.contexts
  | beginAnswer (k : Call) (next : Reply → Task) :
      Move st number run p (.call k .admitted next)
        (.call k (.answered (st.answer run k).1) next) [.invoked k.invocation] .stays
        (st.answer run k).2
  | pause (k : Call) (next : Reply → Task) (pauses : Nat) :
      Move st number run p (.call k (.working (pauses + 1)) next)
        (.call k (.working pauses) next) [] .stays st.contexts
  | answer (k : Call) (next : Reply → Task) :
      Move st number run p (.call k (.working 0) next)
        (.call k (.answered (st.answer run k).1) next) [] .stays (st.answer run k).2
  | reply (k : Call) (next : Reply → Task) (r : Resolution) :
      Move st number run p (.call k (.answered r) next) (next (.resolved r)) [] .leaves st.contexts

/-- The state after a step in the execution of a number. -/
def after (st : State) (number : Nat) (path : List Nat) (u : Task) (es : List Event)
    (change : LineChange) (contexts : ContextStore) : State where
  runs := st.runs.modify number fun run =>
    { run with
      task := Task.replace u path run.task
      line := change.apply (number :: path).reverse run.line }
  contexts
  trace := es.reverse.map (number, ·) ++ st.trace

theorem after_joinLine (st : State) (number : Nat) (path : List Nat) (u : Task) :
    (st.put number path u).joinLine number (number :: path).reverse =
      st.after number path u [] .joins st.contexts := by
  simp only [put, joinLine, modifyRun, after, List.modify_modify_eq, LineChange.apply]
  rfl

theorem after_leaveLine (st : State) (number : Nat) (path : List Nat) (u : Task) :
    (st.put number path u).leaveLine number (number :: path).reverse =
      st.after number path u [] .leaves st.contexts := by
  simp only [put, leaveLine, modifyRun, after, List.modify_modify_eq, LineChange.apply]
  rfl

theorem exists_move_work {st : State} {number : Nat} {run : Run} {path : List Nat} {k : Call}
    {next : Reply → Task} {stage : Stage} {es : List Event} (pauses : Nat)
    (hb : ∀ n, n + 1 = pauses → Move st number run (number :: path).reverse (.call k stage next)
      (.call k (.working n) next) es .stays st.contexts)
    (ha : 0 = pauses → Move st number run (number :: path).reverse (.call k stage next)
      (.call k (.answered (st.answer run k).1) next) es .stays (st.answer run k).2) :
    ∃ u contexts, Move st number run (number :: path).reverse (.call k stage next) u es .stays
      contexts ∧ ({ st with trace := es.reverse.map (number, ·) ++ st.trace }).work number path
        run.context k next pauses = st.after number path u es .stays contexts := by
  cases pauses with
  | succ n => exact ⟨_, _, hb n rfl, rfl⟩
  | zero => exact ⟨_, _, ha rfl, rfl⟩

theorem advance_cases {p : Position} {st st' : State} (h : st.advance p = some st') :
    ∃ number path run t u es change contexts, p = (number :: path).reverse ∧
      st.runs[number]? = some run ∧ run.task.reach? path = some t ∧
      Move st number run p t u es change contexts ∧
      st' = st.after number path u es change contexts := by
  unfold advance at h
  split at h
  · simp at h
  · next number path hp =>
    obtain rfl : p = (number :: path).reverse := by rw [← hp, List.reverse_reverse]
    simp only [Option.bind_eq_bind, Option.bind_eq_some_iff] at h
    obtain ⟨run, hr, t, ht, h⟩ := h
    suffices hm : ∃ u es change contexts,
        Move st number run (number :: path).reverse t u es change contexts ∧
          st' = st.after number path u es change contexts by
      obtain ⟨u, es, change, contexts, hm, rfl⟩ := hm
      exact ⟨number, path, run, t, u, es, change, contexts, rfl, hr, ht, hm, rfl⟩
    split at h
    · simp at h
    · next e next =>
      simp only [Option.pure_def, Option.some.injEq] at h
      exact ⟨_, _, _, _, .emit e next, h ▸ rfl⟩
    · next next =>
      simp only [Option.pure_def, Option.some.injEq] at h
      exact ⟨_, _, _, _, .read next, h ▸ rfl⟩
    · next s children next =>
      simp only [Option.pure_def, Option.bind_eq_some_iff, Option.some.injEq] at h
      obtain ⟨cs, hc, h⟩ := h
      exact ⟨_, _, _, _, .join s next hc, h ▸ rfl⟩
    · next k stage next =>
      split at h
      · simp only [Option.pure_def, Option.some.injEq] at h
        exact ⟨_, _, _, _, .ask k next, by rw [← h, after_joinLine]⟩
      · split at h
        · split at h
          · next r hf =>
            simp only [Option.pure_def, Option.some.injEq] at h
            exact ⟨_, _, _, _, .refuse k next hf, by rw [← h, after_leaveLine]⟩
          · next hf =>
            simp only [Option.pure_def, Option.some.injEq] at h
            exact ⟨_, _, _, _, .grant k next hf, h ▸ rfl⟩
        · simp at h
      · simp only [Option.pure_def, Option.some.injEq] at h
        obtain ⟨u, contexts, hm, he⟩ := @exists_move_work st number run path k next .admitted
          [.invoked k.invocation] k.resolver.pauses (fun n _ => .begin k next n)
          fun _ => .beginAnswer k next
        exact ⟨_, _, _, _, hm, by rw [← h, ← he]; rfl⟩
      · next pauses =>
        simp only [Option.pure_def, Option.some.injEq] at h
        obtain ⟨u, contexts, hm, he⟩ := @exists_move_work st number run path k next
          (.working pauses) [] pauses (by rintro n rfl; exact .pause k next n)
          (by rintro rfl; exact .answer k next)
        exact ⟨_, _, _, _, hm, by rw [← h, ← he]; rfl⟩
      · next r =>
        simp only [Option.pure_def, Option.some.injEq] at h
        exact ⟨_, _, _, _, .reply k next r, by rw [← h, after_leaveLine]⟩

end State

end GraphQL.Execution
