import GraphQL.Execution.Schedule

/-!
The schedule that executions follow: looks at the executions take turns with the resolvers.

A look goes through the executions and takes each as far as it goes without waiting. It passes a
fork in the order of its strategy. A window keeps a list of the siblings that are to be looked at:
a sibling comes onto it when it enters the window, and again when it is woken, which happens to a
call when its permit or its answer has come, and with it to all that is around it. A look leaves a
window when its list is empty, and also, waking it for the next look, when every sibling has been
looked at or several have been woken while they were looked at.
-/

set_option autoImplicit false

namespace GraphQL.Execution

/-- How long one thing goes on before others have their turn. -/
structure Pace where
  /-- How many permits and answers one look may take. -/
  budget : Nat
  /-- How many turns resolvers have between two looks. -/
  turns : Nat
  /-- How many siblings of a window may be woken while they are looked at. -/
  restless : Nat

def pace : Pace := ⟨128, 61, 2⟩

/-- Whom to wake for something to be looked at again: the execution of a number, or a sibling in a
window. -/
inductive Alarm where
  | run (number : Nat)
  | sibling (window : Nat) (i : Nat)
  deriving DecidableEq, Repr

/-- What is remembered of a fork whose strategy is a window. -/
structure Window where
  alarm : Alarm
  /-- The siblings that are to be looked at, in order. -/
  ready : List Nat := []
  /-- How many siblings have entered. -/
  entered : Nat := 0
  /-- How many siblings have ended together with all that are in front of them. -/
  settled : Nat := 0
  /-- The other siblings that have ended. -/
  early : List Nat := []
  /-- How many siblings may still be looked at before the window is left. -/
  looks : Nat := 0
  /-- How many siblings were woken while they were looked at. -/
  restless : Nat := 0
  /-- The open windows within siblings. -/
  inner : List (Nat × Nat) := []

namespace Window

def hasEnded (i : Nat) (w : Window) : Bool := i < w.settled || w.early.contains i

/-- Lets siblings enter as far as the limit allows. -/
def fill (limit siblings : Nat) (w : Window) : Window :=
  let entered := max w.entered (min siblings (w.settled + limit))
  { w with ready := w.ready ++ List.range' w.entered (entered - w.entered), entered }

/-- Begins to look at siblings. -/
def begin (w : Window) : Window :=
  { w with looks := w.entered - w.settled - w.early.length, restless := 0 }

/-- Takes note that a sibling has ended. -/
def finish (i : Nat) (w : Window) : Window :=
  if i = w.settled then
    let following := (List.range' (i + 1) w.early.length).takeWhile w.early.contains
    let settled := i + 1 + following.length
    { w with settled, early := w.early.filter (settled ≤ ·) }
  else { w with early := i :: w.early }

end Window

/-- A fork that a look is passing. -/
structure Passage where
  order : Order
  siblings : Nat
  alarm : Alarm
  /-- The number of its window, if it has one. -/
  window : Nat

/-- What the next thing to do is about. -/
inductive Focus where
  /-- The executions from a number on. -/
  | runs (number : Nat)
  /-- A position, perhaps with the task that is known to be there. -/
  | position (p : Position) (known : Option Task)
  /-- A position that has been looked at; `ended` tells whether it is done. -/
  | left (p : Position) (ended : Bool)
  /-- The resolvers, which have so many turns left. -/
  | resolvers (turns : Nat)

/-- What is put off until the resolvers have had their turns. -/
inductive Deferral where
  /-- Another turn of a resolver that has paused. -/
  | turn (p : Position)
  /-- Another look. -/
  | look (alarm : Alarm)

structure Rota where
  focus : Focus
  /-- Whom to wake for another look at what is in the focus. -/
  alarm : Alarm
  /-- The forks around it, innermost first. -/
  passages : List Passage
  /-- How much the look may still take. -/
  budget : Nat
  /-- Whether there is to be another look. -/
  awake : Bool
  /-- In the order in which they were opened. -/
  windows : Array Window
  /-- The open windows of the executions that are in no other window. -/
  outer : List (Nat × Nat)
  /-- The calls whose resolvers wait for a turn, in order. -/
  working : List Position
  /-- Whom to wake when a call gets its permit or its answer. -/
  expecting : List (Position × Alarm)
  /-- The latest first. -/
  deferred : List Deferral

/-- What comes next: something happens at a position, or only the rota changes, or nothing is to be
done. -/
inductive Choice where
  | advance (p : Position) (r : Rota)
  | turnTo (r : Rota)
  | nothing

namespace State

/-- The task at a position. -/
def taskAt? (p : Position) (st : State) : Option Task :=
  match p.reverse with
  | [] => none
  | number :: path => st.runs[number]?.bind fun run => run.task.reach? path

/-- Whether the resolver of the call at a position answers at its next turn. -/
def answersNext (p : Position) (st : State) : Bool :=
  match st.taskAt? p with
  | some (.call c .admitted _) => c.resolver.pauses = 0
  | some (.call _ (.working pauses) _) => pauses = 0
  | _ => false

end State

namespace Rota

def start : Rota := ⟨.runs 0, .run 0, [], pace.budget, false, #[], [], [], [], []⟩

def window (number : Nat) (r : Rota) : Window := r.windows[number]?.getD { alarm := r.alarm }

def setWindow (number : Nat) (w : Window) (r : Rota) : Rota :=
  { r with windows := r.windows.setIfInBounds number w }

/-- The number of the window that is open for what is in the focus. -/
def openWindow? (r : Rota) : Option Nat :=
  match r.alarm with
  | .run number => r.outer.lookup number
  | .sibling n i => (r.window n).inner.lookup i

def setOpen (change : Nat → List (Nat × Nat) → List (Nat × Nat)) (r : Rota) : Rota :=
  match r.alarm with
  | .run number => { r with outer := change number r.outer }
  | .sibling n i =>
    let w := r.window n
    r.setWindow n { w with inner := change i w.inner }

def closeWindow (r : Rota) : Rota := r.setOpen fun i => List.filter (·.1 != i)

/-- Opens a window for what is in the focus, unless there is one; answers its number. -/
def openWindow (r : Rota) : Nat × Rota :=
  match r.openWindow? with
  | some number => (number, r)
  | none =>
    let number := r.windows.size
    let r := r.setOpen fun i opened => (i, number) :: opened
    (number, { r with windows := r.windows.push { alarm := r.alarm } })

/-- Sees to it that something is looked at again. A window lies in none that was opened later. -/
def wake (alarm : Alarm) (r : Rota) : Rota :=
  match alarm with
  | .run _ => { r with awake := true }
  | .sibling n i =>
    let w := r.window n
    if w.ready.contains i || w.hasEnded i then r
    else
      let r := r.setWindow n { w with ready := w.ready ++ [i] }
      match w.alarm with
      | .run _ => { r with awake := true }
      | .sibling m j => if m < n then wake (.sibling m j) r else r
termination_by match alarm with
  | .run _ => 0
  | .sibling n _ => n

def turnTo (focus : Focus) (r : Rota) : Choice := .turnTo { r with focus }

/-- Goes on outside a fork that was passed. -/
def leavePassage (passage : Passage) (focus : Focus) (r : Rota) : Choice :=
  { r with passages := r.passages.drop 1, alarm := passage.alarm }.turnTo focus

def enter (passage : Passage) (r : Rota) : Rota := { r with passages := passage :: r.passages }

/-- Looks at the next sibling of a window. -/
def pick (passage : Passage) (q : Position) (known : Nat → Option Task) (r : Rota) : Choice :=
  let w := r.window passage.window
  match w.ready with
  | [] => r.leavePassage passage (.left q false)
  | i :: ready =>
    { r.setWindow passage.window { w with ready } with
      alarm := .sibling passage.window i }.turnTo (.position (i :: q) (known i))

/-- Looks at a fork. -/
def lookAtFork (order : Order) (children : List Task) (p : Position) (r : Rota) : Choice :=
  let known (i : Nat) : Option Task := children[i]?
  if children.all Task.isDone then .advance p { r.closeWindow with focus := .position p none }
  else
    let lookAt (i : Nat) : Choice :=
      (r.enter ⟨order, children.length, r.alarm, 0⟩).turnTo (.position (i :: p) (known i))
    match order with
    | .forward => lookAt (children.takeWhile Task.isDone).length
    | .backward =>
      lookAt (children.length - 1 - (children.reverse.takeWhile Task.isDone).length)
    | .window limit =>
      let (number, r) := r.openWindow
      let r := r.setWindow number ((r.window number).fill limit children.length).begin
      let passage : Passage := ⟨order, children.length, r.alarm, number⟩
      (r.enter passage).pick passage p known

def expect (p : Position) (r : Rota) : Rota :=
  { r with expecting := (p, r.alarm) :: r.expecting.filter (·.1 != p) }

/-- Wakes a call that is expected to be. -/
def notify (p : Position) (r : Rota) : Rota :=
  match r.expecting.lookup p with
  | some alarm => wake alarm { r with expecting := r.expecting.filter (·.1 != p) }
  | none => r

/-- Wakes the call that gets the permit of a call that leaves the line. -/
def passPermit (run : Run) (r : Rota) : Rota :=
  match run.nextAdmitted? with
  | some p => r.notify p
  | none => r

/-- Looks at a call. Once the budget is spent, nothing more is taken in the same look. -/
def lookAtCall (st : State) (number : Nat) (run : Run) (stage : Stage) (p : Position) (r : Rota) :
    Choice :=
  let happen (r : Rota) : Choice := .advance p { r with focus := .position p none }
  if r.budget = 0 then { r with deferred := .look r.alarm :: r.deferred }.turnTo (.left p false)
  else
    let spent := { r with budget := r.budget - 1 }
    match stage with
    | .fresh => happen r
    | .queued =>
      if run.admits p then
        match st.refusal? number run with
        | some _ => happen (spent.passPermit run)
        | none => happen { spent with working := spent.working ++ [p] }
      else (r.expect p).turnTo (.left p false)
    | .answered _ => happen (spent.passPermit run)
    | _ => (r.expect p).turnTo (.left p false)

def lookAt (st : State) (p : Position) (task : Task) (r : Rota) : Choice :=
  match task with
  | .done _ => r.turnTo (.left p true)
  | .emit _ _ => .advance p { r with focus := .position p none }
  | .read _ => .advance p { r with focus := .position p none }
  | .fork s children _ => r.lookAtFork s.order children p
  | .call _ stage _ =>
    match p.getLast?.bind fun number => st.runs[number]?.map (number, ·) with
    | some (number, run) => r.lookAtCall st number run stage p
    | none => .nothing

/-- Goes on after the look at a sibling of a window. -/
def leaveSibling (limit : Nat) (passage : Passage) (i : Nat) (q : Position) (ended : Bool)
    (r : Rota) : Choice :=
  let w := r.window passage.window
  if ended then
    let w := ((w.finish i).fill limit passage.siblings).begin
    let r := r.setWindow passage.window w
    if w.settled = passage.siblings then r.leavePassage passage (.position q none)
    else r.pick passage q fun _ => none
  else
    let restless := if w.ready.contains i then w.restless + 1 else w.restless
    let w := { w with looks := w.looks - 1, restless }
    let r := r.setWindow passage.window w
    if pace.restless ≤ w.restless || w.looks = 0 then
      (r.wake w.alarm).leavePassage passage (.left q false)
    else r.pick passage q fun _ => none

/-- Goes on after the look at a position. -/
def leave (p : Position) (ended : Bool) (r : Rota) : Choice :=
  match p, r.passages with
  | i :: q, passage :: _ =>
    match passage.order with
    | .window limit => r.leaveSibling limit passage i q ended
    | _ => r.leavePassage passage (if ended then .position q none else .left q false)
  | number :: _, [] => r.turnTo (.runs (number + 1))
  | [], _ => .nothing

/-- Begins another round, unless nothing is left to be done. -/
def nextRound (r : Rota) : Choice :=
  let resume (r : Rota) : Deferral → Rota
    | .turn p => { r with working := r.working ++ [p] }
    | .look alarm => r.wake alarm
  let r := r.deferred.foldl resume { r with deferred := [] }
  if r.awake then { r with awake := false, budget := pace.budget }.turnTo (.runs 0)
  else if r.working.isEmpty then .nothing
  else r.turnTo (.resolvers pace.turns)

/-- Gives a resolver its turn. -/
def takeTurn (st : State) (turns : Nat) (r : Rota) : Choice :=
  match r.working, turns with
  | p :: working, turns + 1 =>
    let r := { r with working, focus := .resolvers turns }
    .advance p (if st.answersNext p then r.notify p
      else { r with deferred := .turn p :: r.deferred })
  | _, _ => r.nextRound

def next (st : State) (r : Rota) : Choice :=
  match r.focus with
  | .runs number =>
    match st.runs[number]? with
    | none => r.turnTo (.resolvers pace.turns)
    | some run =>
      if run.task.isDone then r.turnTo (.runs (number + 1))
      else { r with alarm := .run number }.turnTo (.position [number] run.task)
  | .position p (some task) => r.lookAt st p task
  | .position p none =>
    match st.taskAt? p with
    | some task => r.lookAt st p task
    | none => .nothing
  | .left p ended => r.leave p ended
  | .resolvers turns => r.takeTurn st turns

/-- The next position at which something happens, if there is one before `patience` is over. -/
def choose (st : State) : (patience : Nat) → Rota → Option (Position × Rota)
  | 0, _ => none
  | patience + 1, r =>
    match r.next st with
    | .advance p r => some (p, r)
    | .turnTo r => choose st patience r
    | .nothing => none

/-- So often the rota may change without anything happening; much more than it ever does. -/
def patience : Nat := 1000000

end Rota

/-- The schedule that executions follow, as long as no time passes. -/
def Schedule.rota : Schedule Rota := ⟨fun _ _ => 0, fun r st => r.choose st Rota.patience⟩

end GraphQL.Execution
