import GraphQL.Execution.Rota

/-!
Schedules that see of tasks only what can happen at once.

The schedule that executions follow is of this kind (`Schedule.superficial_rota`), and every run is
one under such a schedule (`State.exists_run_replay`).
-/

set_option autoImplicit false

namespace GraphQL.Execution

namespace Task

mutual

/-- A task without what comes after the next thing that happens in each of its parts. -/
def surface : Task → Task
  | done c => done c
  | emit e _ => emit e (done .propagate)
  | read _ => read fun _ => done .propagate
  | call c stage _ => call c stage fun _ => done .propagate
  | fork s children _ => fork s (surfaceAll children) fun _ => done .propagate

def surfaceAll : List Task → List Task
  | [] => []
  | t :: ts => t.surface :: surfaceAll ts

end

theorem surfaceAll_eq (ts : List Task) : surfaceAll ts = ts.map surface := by
  induction ts with
  | nil => rfl
  | cons t ts ih => rw [surfaceAll, ih, List.map_cons]

@[simp] theorem completion?_surface (t : Task) : t.surface.completion? = t.completion? := by
  cases t <;> rfl

@[simp] theorem isDone_surface (t : Task) : t.surface.isDone = t.isDone := by
  rw [isDone, isDone, completion?_surface]

theorem completions?_map_surface (ts : List Task) :
    completions? (ts.map surface) = completions? ts := by
  rw [completions?, completions?, List.mapM_map]
  simp [Function.comp_def]

theorem allows_map_surface (order : Order) (ts : List Task) (i : Nat) :
    order.allows (ts.map surface) i = order.allows ts i := by
  have hcomp : isDone ∘ surface = isDone := funext isDone_surface
  cases order with
  | forward => simp [Order.allows, ← List.map_take, List.all_map, hcomp]
  | backward => simp [Order.allows, ← List.map_drop, List.all_map, hcomp]
  | window limit => simp [Order.allows, List.takeWhile_map, hcomp]

theorem reach?_surface (path : List Nat) (t : Task) :
    reach? path t.surface = (reach? path t).map surface := by
  induction path generalizing t with
  | nil => rfl
  | cons i path ih =>
    cases t with
    | fork s children next =>
      simp only [surface, surfaceAll_eq, reach?, allows_map_surface, List.getElem?_map]
      split
      · cases children[i]? with
        | none => rfl
        | some child => exact ih child
      · rfl
    | _ => rfl

mutual

theorem paths_surface : ∀ t : Task, t.surface.paths = t.paths
  | done _ | emit _ _ | read _ | call _ _ _ => rfl
  | fork _ children _ => congrArg (List.cons []) (pathsFrom_surfaceAll 0 children)

theorem pathsFrom_surfaceAll : ∀ (i : Nat) (ts : List Task),
    pathsFrom i (surfaceAll ts) = pathsFrom i ts
  | _, [] => rfl
  | i, t :: ts => by
    rw [surfaceAll, pathsFrom, pathsFrom, paths_surface t, pathsFrom_surfaceAll (i + 1) ts]

end

end Task

namespace State

/-- A state with the surfaces of its tasks. -/
def surface (st : State) : State :=
  { st with runs := st.runs.map fun run => { run with task := run.task.surface } }

theorem getElem?_runs_surface (number : Nat) (st : State) :
    st.surface.runs[number]? =
      st.runs[number]?.map fun run => { run with task := run.task.surface } :=
  List.getElem?_map

theorem positions_surface (st : State) : st.surface.positions = st.positions := by
  refine congrArg List.flatten (List.ext_getElem? fun number => ?_)
  simp [surface, Function.comp_def, Task.paths_surface]

theorem taskAt?_surface (p : Position) (st : State) :
    st.surface.taskAt? p = (st.taskAt? p).map Task.surface := by
  unfold taskAt?
  split
  · rfl
  · next number path _ =>
    rw [getElem?_runs_surface]
    cases st.runs[number]? with
    | none => rfl
    | some run => exact Task.reach?_surface path run.task

theorem answersNext_surface (p : Position) (st : State) :
    st.surface.answersNext p = st.answersNext p := by
  rw [answersNext, answersNext, taskAt?_surface]
  cases st.taskAt? p with
  | none => rfl
  | some t =>
    cases t with
    | call c stage next => cases stage <;> rfl
    | done | emit | read | fork => rfl

end State

/-- A schedule sees nothing of tasks but their surfaces. How it goes on depends on the gist of its
memory, in which there is nothing else of tasks either. -/
def Schedule.Superficial {Memory : Type} (schedule : Schedule Memory) : Prop :=
  ∃ gist : Memory → Memory, ∀ memory st,
    schedule.lapse (gist memory) st.surface = schedule.lapse memory st ∧
    schedule.choose (gist memory) st.surface =
      (schedule.choose memory st).map (Prod.map id gist)

/-- Goes on at the given positions, one after the other, each time after the given time. -/
def Schedule.replay : Schedule (List (Nat × Position)) where
  lapse
    | [], _ => 0
    | (time, _) :: _, _ => time
  choose
    | [], _ => none
    | (_, p) :: order, _ => some (p, order)

theorem Schedule.superficial_replay : Schedule.replay.Superficial := by
  refine ⟨id, fun memory st => ?_⟩
  cases memory with
  | nil => exact ⟨rfl, rfl⟩
  | cons next order => exact ⟨rfl, rfl⟩

def Focus.surface : Focus → Focus
  | .position p known => .position p (known.map Task.surface)
  | focus => focus

def Rota.refocus (focus : Focus) (r : Rota) : Rota := { r with focus }

/-- All that a rota knows of tasks is in its focus. -/
def Rota.gist (r : Rota) : Rota := r.refocus r.focus.surface

def Choice.gist : Choice → Choice
  | .advance p r => .advance p r.gist
  | .turnTo r => .turnTo r.gist
  | .nothing => .nothing

namespace Rota

/-! Nothing but the next look depends on the focus. -/

theorem setWindow_refocus (focus : Focus) (r : Rota) (n : Nat) (w : Window) :
    (r.refocus focus).setWindow n w = (r.setWindow n w).refocus focus := rfl

theorem wake_refocus (focus : Focus) (r : Rota) (alarm : Alarm) :
    (r.refocus focus).wake alarm = (r.wake alarm).refocus focus := by
  have hwindow : ∀ (r : Rota) n, (r.refocus focus).window n = r.window n := fun _ _ => rfl
  fun_induction wake alarm r with
  | case1 r number =>
    rw [wake]
    rfl
  | case2 r n i w h =>
    rw [wake]
    exact if_pos h
  | case3 r n i w h r' number hw =>
    rw [wake]
    simp only [hwindow, setWindow_refocus]
    rw [if_neg h]
    split
    · rfl
    · next hw' => cases hw.symm.trans hw'
  | case4 r n i w h r' m j hw hlt ih =>
    rw [wake]
    simp only [hwindow, setWindow_refocus]
    rw [if_neg h]
    split
    · next hw' => cases hw.symm.trans hw'
    · next hw' =>
      cases hw.symm.trans hw'
      exact (if_pos hlt).trans ih
  | case5 r n i w h r' m j hw hlt =>
    rw [wake]
    simp only [hwindow, setWindow_refocus]
    rw [if_neg h]
    split
    · next hw' => cases hw.symm.trans hw'
    · next hw' =>
      cases hw.symm.trans hw'
      exact if_neg hlt

theorem notify_refocus (focus : Focus) (r : Rota) (p : Position) :
    (r.refocus focus).notify p = (r.notify p).refocus focus := by
  have hexpecting : (r.refocus focus).expecting = r.expecting := rfl
  rw [notify, notify, hexpecting]
  cases r.expecting.lookup p with
  | none => rfl
  | some alarm =>
    exact wake_refocus focus { r with expecting := r.expecting.filter (·.1 != p) } alarm

theorem passPermit_refocus (focus : Focus) (r : Rota) (run : Run) :
    (r.refocus focus).passPermit run = (r.passPermit run).refocus focus := by
  rw [passPermit, passPermit]
  split
  · exact notify_refocus focus r _
  · rfl

theorem setOpen_refocus (focus : Focus) (r : Rota)
    (change : Nat → List (Nat × Nat) → List (Nat × Nat)) :
    (r.refocus focus).setOpen change = (r.setOpen change).refocus focus := by
  have halarm : (r.refocus focus).alarm = r.alarm := rfl
  rw [setOpen, setOpen, halarm]
  split <;> rfl

theorem openWindow_refocus (focus : Focus) (r : Rota) :
    (r.refocus focus).openWindow = (r.openWindow.1, r.openWindow.2.refocus focus) := by
  have hopen : (r.refocus focus).openWindow? = r.openWindow? := rfl
  rw [openWindow, openWindow, hopen]
  split
  · rfl
  · simp only [setOpen_refocus]
    rfl

theorem pick_refocus (focus : Focus) (r : Rota) (passage : Passage) (q : Position)
    (known : Nat → Option Task) :
    (r.refocus focus).pick passage q known = r.pick passage q known := by
  have hwindow : (r.refocus focus).window passage.window = r.window passage.window := rfl
  simp only [pick, hwindow]
  split <;> rfl

/-! Tasks come into the focus only where a fork is looked at. -/

theorem gist_of_focus {r : Rota} (h : r.focus.surface = r.focus) : r.gist = r := by
  rw [gist, h]
  rfl

theorem focus_notify (p : Position) (r : Rota) : (r.notify p).focus = r.focus := by
  have hfocus := congrArg focus (notify_refocus r.focus r p)
  exact hfocus

theorem gist_pick (passage : Passage) (q : Position) (known : Nat → Option Task) (r : Rota) :
    (r.pick passage q known).gist = r.pick passage q fun i => (known i).map Task.surface := by
  unfold pick
  dsimp only
  split <;> rfl

theorem gist_leaveSibling (limit : Nat) (passage : Passage) (i : Nat) (q : Position)
    (ended : Bool) (r : Rota) :
    (r.leaveSibling limit passage i q ended).gist = r.leaveSibling limit passage i q ended := by
  cases ended with
  | true =>
    simp only [leaveSibling, if_true, apply_ite Choice.gist, gist_pick]
    rfl
  | false =>
    simp only [leaveSibling, Bool.false_eq_true, if_false, apply_ite Choice.gist, gist_pick]
    rfl

theorem gist_leave (p : Position) (ended : Bool) (r : Rota) :
    (r.leave p ended).gist = r.leave p ended := by
  unfold leave
  split
  · split
    · exact gist_leaveSibling _ _ _ _ _ _
    · cases ended <;> rfl
  · rfl
  · rfl

theorem gist_nextRound (r : Rota) : r.nextRound.gist = r.nextRound := by
  simp only [nextRound, apply_ite Choice.gist]
  rfl

theorem gist_takeTurn (st : State) (turns : Nat) (r : Rota) :
    (r.takeTurn st turns).gist = r.takeTurn st turns := by
  unfold takeTurn
  split
  · refine congrArg (Choice.advance _) (gist_of_focus ?_)
    split
    · rw [focus_notify]
      rfl
    · rfl
  · exact gist_nextRound r

/-! The next look sees surfaces only. -/

theorem takeTurn_surface (st : State) (turns : Nat) (r : Rota) :
    r.takeTurn st.surface turns = r.takeTurn st turns := by
  simp only [takeTurn, State.answersNext_surface]

theorem lookAtFork_surface (order : Order) (children : List Task) (p : Position) (r : Rota)
    (focus : Focus) :
    (r.refocus focus).lookAtFork order (children.map Task.surface) p =
      (r.lookAtFork order children p).gist := by
  have hdone : Task.isDone ∘ Task.surface = Task.isDone := funext Task.isDone_surface
  unfold lookAtFork
  simp only [List.all_map, hdone, apply_ite Choice.gist]
  split
  · rw [closeWindow, closeWindow, setOpen_refocus]
    rfl
  · cases order with
    | forward =>
      simp only [List.takeWhile_map, hdone, List.length_map, List.getElem?_map]
      rfl
    | backward =>
      simp only [← List.map_reverse, List.takeWhile_map, hdone, List.length_map, List.getElem?_map]
      rfl
    | window limit =>
      simp only [openWindow_refocus, List.length_map, List.getElem?_map, gist_pick]
      exact pick_refocus focus ((r.openWindow.2.setWindow r.openWindow.1 _).enter _) _ p _

theorem lookAtCall_surface (st : State) (number : Nat) (run : Run) (stage : Stage) (p : Position)
    (r : Rota) (focus : Focus) :
    (r.refocus focus).lookAtCall st.surface number { run with task := run.task.surface } stage p =
      (r.lookAtCall st number run stage p).gist := by
  have hbudget : (r.refocus focus).budget = r.budget := rfl
  have hspent : { r.refocus focus with budget := r.budget - 1 } =
      refocus focus { r with budget := r.budget - 1 } := rfl
  have hadmits : Run.admits p { run with task := run.task.surface } = run.admits p := rfl
  have hrefusal : st.surface.refusal? number { run with task := run.task.surface } =
      st.refusal? number run := rfl
  have hpass : ∀ r : Rota, (r.refocus focus).passPermit { run with task := run.task.surface } =
      (r.passPermit run).refocus focus := fun r => passPermit_refocus focus r run
  simp only [lookAtCall, hbudget, hspent, hadmits, hrefusal, hpass, apply_ite Choice.gist]
  split
  · rfl
  · cases stage with
    | queued =>
      cases st.refusal? number run with
      | none | some r =>
        simp only [apply_ite Choice.gist]
        rfl
    | fresh | admitted | working | answered => rfl

theorem lookAt_surface (st : State) (p : Position) (t : Task) (r : Rota) (focus : Focus) :
    (r.refocus focus).lookAt st.surface p t.surface = (r.lookAt st p t).gist := by
  cases t with
  | call c stage next =>
    simp only [Task.surface, lookAt]
    cases p.getLast? with
    | none => rfl
    | some number =>
      simp only [Option.bind_some, State.getElem?_runs_surface]
      cases st.runs[number]? with
      | none => rfl
      | some run => exact lookAtCall_surface st number run stage p r focus
  | fork s children next =>
    simp only [Task.surface, lookAt, Task.surfaceAll_eq]
    exact lookAtFork_surface s.order children p r focus
  | done | emit | read => rfl

theorem next_surface (st : State) (r : Rota) : r.gist.next st.surface = (r.next st).gist := by
  have hfocus : r.gist.focus = r.focus.surface := rfl
  have hself : r.focus.surface = r.focus → r.gist = r := gist_of_focus
  rw [next, next, hfocus]
  cases hr : r.focus with
  | runs number =>
    simp only [Focus.surface, State.getElem?_runs_surface]
    cases st.runs[number]? with
    | none => rfl
    | some run =>
      simp only [Option.map_some, Task.isDone_surface, apply_ite Choice.gist]
      rfl
  | position p known =>
    cases known with
    | some t => exact lookAt_surface st p t r _
    | none =>
      simp only [Focus.surface, Option.map_none, State.taskAt?_surface]
      cases st.taskAt? p with
      | none => rfl
      | some t => exact lookAt_surface st p t r _
  | left p ended =>
    rw [hself (by rw [hr]; rfl)]
    exact (gist_leave p ended r).symm
  | resolvers turns =>
    rw [hself (by rw [hr]; rfl)]
    exact (takeTurn_surface st turns r).trans (gist_takeTurn st turns r).symm

theorem choose_surface (st : State) : ∀ (patience : Nat) (r : Rota),
    choose st.surface patience r.gist = (choose st patience r).map (Prod.map id gist)
  | 0, _ => rfl
  | patience + 1, r => by
    rw [choose, choose, next_surface]
    cases r.next st with
    | advance p r => rfl
    | turnTo r => exact choose_surface st patience r
    | nothing => rfl

end Rota

theorem Schedule.superficial_rota : Schedule.rota.Superficial :=
  ⟨Rota.gist, fun r st => ⟨rfl, Rota.choose_surface st Rota.patience r⟩⟩

/-- Every run goes through some positions at some times, and is the run that goes through these. -/
theorem State.exists_run_replay {Memory : Type} (schedule : Schedule Memory) (memory : Memory)
    (st : State) : ∃ order, st.run schedule memory = st.run .replay order := by
  fun_induction State.run schedule memory st with
  | case1 memory st next m hstep ih =>
    obtain ⟨order, hrun⟩ := ih
    obtain ⟨p, hp⟩ := advance_of_step hstep
    let time := schedule.lapse memory st
    have hreplay : st.step .replay ((time, p) :: order) = some (next, order) := by
      simp [step, proceed, advanceChosen, Schedule.replay, time, hp]
    have hstart : st.run .replay ((time, p) :: order) = next.run .replay order := by
      rw [State.run, hreplay]
    exact ⟨(time, p) :: order, hrun.trans hstart.symm⟩
  | case2 memory st hstep =>
    have hfirst : (st.elapse 0).advanceFirst = none :=
      List.findSome?_eq_none_iff.2 fun p hp => advance_of_step_eq_none hstep hp
    have hreplay : st.step .replay [] = none := by
      simp [step, proceed, advanceChosen, Schedule.replay, hfirst]
    refine ⟨[], ?_⟩
    rw [State.run, hreplay]

end GraphQL.Execution
