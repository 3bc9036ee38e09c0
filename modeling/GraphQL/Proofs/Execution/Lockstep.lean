import GraphQL.Executor
import GraphQL.Proofs.Execution.Moves
import GraphQL.Proofs.Execution.Superficial

/-!
Executions of tasks that do the same until an event of a kind happens.

Under a schedule that sees of tasks only what can happen at once, such executions go on in lockstep
until then (`State.Until.run`).
-/

set_option autoImplicit false

namespace GraphQL

open Json

namespace Execution

namespace Task

/-- Two tasks that do the same, at least until an event of a kind happens. -/
inductive Until (K : Event → Prop) : Task → Task → Prop where
  | done (c : Completion) : Until K (.done c) (.done c)
  | emit (e : Event) {next next' : Task} : Until K next next' →
      Until K (.emit e next) (.emit e next')
  | stop {e : Event} (next next' : Task) : K e → Until K (.emit e next) (.emit e next')
  | read {next next' : Context → Task} : (∀ context, Until K (next context) (next' context)) →
      Until K (.read next) (.read next')
  | call (k : Call) (stage : Stage) {next next' : Reply → Task} :
      (∀ r, Until K (next r) (next' r)) → Until K (.call k stage next) (.call k stage next')
  | fork (s : Strategy) {children children' : List Task} {next next' : List Completion → Task} :
      children.length = children'.length →
      (∀ (i : Nat) t t', children[i]? = some t → children'[i]? = some t' → Until K t t') →
      (∀ cs, Until K (next cs) (next' cs)) →
      Until K (.fork s children next) (.fork s children' next')

namespace Until

variable {K : Event → Prop} {t t' u u' : Task}

mutual

theorem refl : ∀ t : Task, Until K t t
  | .done c => .done c
  | .emit e next => .emit e (refl next)
  | .read next => .read fun context => refl (next context)
  | .call k stage next => .call k stage fun r => refl (next r)
  | .fork s children next => .fork s rfl
      (fun i _ _ ht ht' => Option.some.inj (ht.symm.trans ht') ▸ refl_getElem? children i ht)
      fun cs => refl (next cs)

theorem refl_getElem? : ∀ (ts : List Task) (i : Nat) {t : Task}, ts[i]? = some t → Until K t t
  | t :: _, 0, _, ht => Option.some.inj ht ▸ refl t
  | _ :: ts, i + 1, _, ht => refl_getElem? ts i ht

end

theorem emitAll (events : List Event) (h : Until K t t') :
    Until K (emitAll events t) (emitAll events t') := by
  induction events with
  | nil => exact h
  | cons e events ih => exact .emit e ih

theorem map_surface_eq {children children' : List Task} (hl : children.length = children'.length)
    (h : ∀ (i : Nat) t t', children[i]? = some t → children'[i]? = some t' →
      t.surface = t'.surface) : children.map surface = children'.map surface := by
  refine List.ext_getElem (by simpa using hl) fun i hi hi' => ?_
  simp only [List.length_map] at hi hi'
  simpa using h i _ _ (List.getElem?_eq_getElem hi) (List.getElem?_eq_getElem hi')

theorem surface_eq (h : Until K t t') : t.surface = t'.surface := by
  induction h with
  | done => rfl
  | emit => rfl
  | stop => rfl
  | read => rfl
  | call => rfl
  | fork s hl _ _ ihc =>
    simp only [surface, surfaceAll_eq, map_surface_eq hl ihc]

theorem completion?_eq (h : Until K t t') : t.completion? = t'.completion? := by
  rw [← completion?_surface t, h.surface_eq, completion?_surface]

theorem reach? (path : List Nat) (h : Until K t t') :
    Option.Rel (Until K) (reach? path t) (reach? path t') := by
  induction path generalizing t t' with
  | nil => exact .some h
  | cons i path ih =>
    cases h with
    | @fork s children children' _ _ hl hc _ =>
      have hchildren := map_surface_eq hl fun i t t' ht ht' => (hc i t t' ht ht').surface_eq
      rw [Task.reach?, Task.reach?, ← allows_map_surface s.order children, hchildren,
        allows_map_surface]
      split
      · by_cases hi : i < children.length
        · have hi' : i < children'.length := hl ▸ hi
          rw [List.getElem?_eq_getElem hi, List.getElem?_eq_getElem hi']
          exact ih (hc i _ _ (List.getElem?_eq_getElem hi) (List.getElem?_eq_getElem hi'))
        · rw [List.getElem?_eq_none (by omega), List.getElem?_eq_none (by omega)]
          exact .none
      · exact .none
    | _ => exact .none

theorem replace (hu : Until K u u') (path : List Nat) (h : Until K t t') :
    Until K (replace u path t) (replace u' path t') := by
  induction path generalizing t t' with
  | nil => exact hu
  | cons i path ih =>
    cases h with
    | fork s hl hc hnext =>
      refine .fork s (by simpa using hl) (fun j t t' ht ht' => ?_) hnext
      rw [List.getElem?_modify, Option.map_eq_map, Option.map_eq_some_iff] at ht ht'
      obtain ⟨child, hchild, rfl⟩ := ht
      obtain ⟨child', hchild', rfl⟩ := ht'
      have hsame := hc j child child' hchild hchild'
      split
      · exact ih hsame
      · exact hsame
    | done c => exact .done c
    | emit e h => exact .emit e h
    | stop next next' hk => exact .stop next next' hk
    | read h => exact .read h
    | call k stage h => exact .call k stage h

end Until

end Task

/-- One execution, with two tasks that do the same until an event of a kind happens. -/
def Run.Until (K : Event → Prop) (run run' : Run) : Prop :=
  ∃ t, run.task.Until K t ∧ run' = { run with task := t }

/-- Executions of which each does the same until one of its events of a kind happens. -/
structure State.Until (K : Nat → Event → Prop) (st st' : State) : Prop where
  contexts : st.contexts = st'.contexts
  trace : st.trace = st'.trace
  runs : ∀ number, Option.Rel (Run.Until (K number)) st.runs[number]? st'.runs[number]?

/-- An event of the kind has happened. -/
def State.Stopped (K : Nat → Event → Prop) (st : State) : Prop :=
  ∃ number e, K number e ∧ (number, e) ∈ st.trace

namespace State.Until

variable {K : Nat → Event → Prop} {st st' : State} {number : Nat}

theorem modifyRun {f f' : Run → Run}
    (hf : ∀ run run', Run.Until (K number) run run' → Run.Until (K number) (f run) (f' run'))
    (h : Until K st st') : Until K (st.modifyRun number f) (st'.modifyRun number f') := by
  refine ⟨h.contexts, h.trace, fun i => ?_⟩
  have hi := h.runs i
  simp only [State.modifyRun, List.getElem?_modify]
  generalize st.runs[i]? = found at hi ⊢
  generalize st'.runs[i]? = found' at hi ⊢
  cases hi with
  | none => exact .none
  | some hrun =>
    by_cases hnumber : number = i
    · subst hnumber
      simpa using Option.Rel.some (hf _ _ hrun)
    · simpa [hnumber] using Option.Rel.some hrun

theorem put {path : List Nat} {u u' : Task} (hu : u.Until (K number) u') (h : Until K st st') :
    Until K (st.put number path u) (st'.put number path u') := by
  refine h.modifyRun fun run run' hrun => ?_
  obtain ⟨t, ht, rfl⟩ := hrun
  exact ⟨_, hu.replace path ht, rfl⟩

theorem joinLine (p : Position) (h : Until K st st') :
    Until K (st.joinLine number p) (st'.joinLine number p) := by
  refine h.modifyRun fun run run' hrun => ?_
  obtain ⟨t, ht, rfl⟩ := hrun
  exact ⟨t, ht, rfl⟩

theorem leaveLine (p : Position) (h : Until K st st') :
    Until K (st.leaveLine number p) (st'.leaveLine number p) := by
  refine h.modifyRun fun run run' hrun => ?_
  obtain ⟨t, ht, rfl⟩ := hrun
  exact ⟨t, ht, rfl⟩

theorem note (number : Nat) (e : Event) (h : Until K st st') :
    Until K (st.note number e) (st'.note number e) :=
  ⟨h.contexts, congrArg ((number, e) :: ·) h.trace, h.runs⟩

theorem elapse (time : Nat) (h : Until K st st') : Until K (st.elapse time) (st'.elapse time) :=
  ⟨congrArg (ContextStore.elapse time) h.contexts, h.trace, h.runs⟩

theorem refusal?_eq (h : Until K st st') (run : Run) (t : Task) :
    st.refusal? number run = st'.refusal? number { run with task := t } := by
  rw [refusal?, refusal?, isAborted, isAborted, h.contexts, h.trace]

theorem work {path : List Nat} (context : ContextRef) (c : Call) {next next' : Reply → Task}
    (hnext : ∀ r, (next r).Until (K number) (next' r)) (h : Until K st st') (pauses : Nat) :
    Until K (st.work number path context c next pauses)
      (st'.work number path context c next' pauses) := by
  cases pauses with
  | succ pauses => exact h.put (.call c _ hnext)
  | zero =>
    simp only [State.work, h.contexts]
    exact put (.call c _ hnext) ⟨rfl, h.trace, h.runs⟩

/-- The same happens at a position, unless it is an event of the kind. -/
theorem advance (h : Until K st st') (p : Position) :
    Option.Rel (fun next next' => Until K next next' ∨ Stopped K next) (st.advance p)
      (st'.advance p) := by
  unfold State.advance
  split
  · exact .none
  · next number path hp =>
    have hr := h.runs number
    generalize st.runs[number]? = found at hr ⊢
    generalize st'.runs[number]? = found' at hr ⊢
    cases hr with
    | none => exact .none
    | @some run _ hrun =>
      obtain ⟨t, htask, rfl⟩ := hrun
      have hreach := htask.reach? path
      simp only [Option.bind_eq_bind, Option.bind_some]
      generalize run.task.reach? path = reached at hreach ⊢
      generalize Task.reach? path _ = reached' at hreach ⊢
      cases hreach with
      | none => exact .none
      | some ht =>
        cases ht with
        | done c => exact .none
        | emit e hnext => exact .some (.inl ((h.put hnext).note number e))
        | @stop e _ _ hk => exact .some (.inr ⟨number, e, hk, List.mem_cons_self⟩)
        | read hnext =>
          dsimp only [Option.bind_some]
          rw [← h.contexts]
          exact .some (.inl (h.put (hnext _)))
        | @fork s children children' _ _ hl hc hnext =>
          have hsurfaces := Task.Until.map_surface_eq hl
            fun i t t' ht ht' => (hc i t t' ht ht').surface_eq
          dsimp only [Option.bind_some]
          rw [← Task.completions?_map_surface children, hsurfaces, Task.completions?_map_surface]
          cases Task.completions? children' with
          | none => exact .none
          | some cs => exact .some (.inl (h.put (hnext _)))
        | call k stage hnext =>
          cases stage with
          | fresh => exact .some (.inl ((h.put (.call k _ hnext)).joinLine p))
          | queued =>
            dsimp only [Option.bind_some]
            rw [← h.refusal?_eq run]
            change Option.Rel _ (if run.admits p then _ else _) (if run.admits p then _ else _)
            split
            · split
              · exact .some (.inl ((h.put (hnext _)).leaveLine p))
              · exact .some (.inl (h.put (.call k _ hnext)))
            · exact .none
          | admitted =>
            exact .some (.inl ((h.note number _).work run.context k hnext k.resolver.pauses))
          | working pauses => exact .some (.inl (h.work run.context k hnext pauses))
          | answered r => exact .some (.inl ((h.put (hnext _)).leaveLine p))

theorem surface_eq (h : Until K st st') : st.surface = st'.surface := by
  have hruns : st.surface.runs = st'.surface.runs := by
    refine List.ext_getElem? fun i => ?_
    have hi := h.runs i
    simp only [surface, List.getElem?_map]
    generalize st.runs[i]? = found at hi ⊢
    generalize st'.runs[i]? = found' at hi ⊢
    cases hi with
    | none => rfl
    | some hrun =>
      obtain ⟨t, ht, rfl⟩ := hrun
      simp only [Option.map_some, ht.surface_eq]
  have hstates := congr (congrArg₂ State.mk hruns h.contexts) h.trace
  exact hstates

theorem positions_eq (h : Until K st st') : st.positions = st'.positions := by
  rw [← State.positions_surface st, h.surface_eq, State.positions_surface]

theorem output_eq (h : Until K st st') (number : Nat) : st.output number = st'.output number := by
  have hruns := h.runs number
  rw [output, output, errors, errors, events, events, h.trace]
  generalize st.runs[number]? = found at hruns ⊢
  generalize st'.runs[number]? = found' at hruns ⊢
  cases hruns with
  | none => rfl
  | some hrun =>
    obtain ⟨t, ht, rfl⟩ := hrun
    rw [Option.bind_some, Option.bind_some, ht.completion?_eq]

end State.Until

namespace State

variable {K : Nat → Event → Prop} {st st' : State}

theorem Stopped.advance (h : Stopped K st) {p : Position} (hp : st.advance p = some st') :
    Stopped K st' := by
  obtain ⟨number, e, hk, hmem⟩ := h
  obtain ⟨_, _, _, _, _, es, _, _, _, _, _, _, rfl⟩ := advance_cases hp
  exact ⟨number, e, hk, List.mem_append_right _ hmem⟩

theorem Stopped.reaches (h : Stopped K st) (hr : Reaches st st') : Stopped K st' := by
  induction hr with
  | refl => exact h
  | head p hp _ ih => exact ih (h.advance hp)
  | wait _ _ ih => exact ih h

end State

namespace State.Until

variable {K : Nat → Event → Prop} {st st' : State} {Memory : Type} {schedule : Schedule Memory}
  {gist : Memory → Memory}

theorem advanceFirst (h : Until K st st') :
    Option.Rel (fun next next' => Until K next next' ∨ Stopped K next) st.advanceFirst
      st'.advanceFirst := by
  rw [State.advanceFirst, State.advanceFirst, h.positions_eq]
  induction st'.positions with
  | nil => exact .none
  | cons p ps ih =>
    rw [List.findSome?_cons, List.findSome?_cons]
    have hp := h.advance p
    generalize st.advance p = advanced at hp ⊢
    generalize st'.advance p = advanced' at hp ⊢
    cases hp with
    | none => exact ih
    | some hp => exact .some hp

section

variable (hgist : ∀ memory st,
  schedule.lapse (gist memory) st.surface = schedule.lapse memory st ∧
  schedule.choose (gist memory) st.surface = (schedule.choose memory st).map (Prod.map id gist))

include hgist

theorem advanceChosen (h : Until K st st') {memory memory' : Memory}
    (hm : gist memory = gist memory') :
    Option.Rel (fun next next' => (Until K next.1 next'.1 ∨ Stopped K next.1) ∧
        gist next.2 = gist next'.2)
      (st.advanceChosen schedule memory) (st'.advanceChosen schedule memory') := by
  have hchoice : (schedule.choose memory st).map (Prod.map id gist) =
      (schedule.choose memory' st').map (Prod.map id gist) := by
    rw [← (hgist _ _).2, ← (hgist _ _).2, hm, h.surface_eq]
  rw [State.advanceChosen, State.advanceChosen]
  cases hc : schedule.choose memory st with
  | none =>
    rw [hc, Option.map_none, eq_comm, Option.map_eq_none_iff] at hchoice
    rw [hchoice]
    exact .none
  | some choice =>
    obtain ⟨p, m⟩ := choice
    rw [hc, Option.map_some, eq_comm, Option.map_eq_some_iff] at hchoice
    obtain ⟨⟨p', m'⟩, hc', hsame⟩ := hchoice
    obtain ⟨rfl, hm⟩ : p' = p ∧ gist m' = gist m := by simpa using hsame
    have hp := h.advance p'
    simp only [hc', Option.bind_eq_bind, Option.bind_some]
    generalize st.advance p' = advanced at hp ⊢
    generalize st'.advance p' = advanced' at hp ⊢
    cases hp with
    | none => exact .none
    | some hp => exact .some ⟨hp, hm.symm⟩

theorem proceed (h : Until K st st') {memory memory' : Memory} (hm : gist memory = gist memory') :
    Option.Rel (fun next next' => (Until K next.1 next'.1 ∨ Stopped K next.1) ∧
        gist next.2 = gist next'.2)
      (st.proceed schedule memory) (st'.proceed schedule memory') := by
  have hchosen := h.advanceChosen hgist hm
  have hfirst := h.advanceFirst
  rw [State.proceed, State.proceed]
  generalize st.advanceChosen schedule memory = chosen at hchosen ⊢
  generalize st'.advanceChosen schedule memory' = chosen' at hchosen ⊢
  cases hchosen with
  | some hnext => exact .some hnext
  | none =>
    generalize st.advanceFirst = first at hfirst ⊢
    generalize st'.advanceFirst = first' at hfirst ⊢
    cases hfirst with
    | none => exact .none
    | some hnext => exact .some ⟨hnext, hm⟩

theorem step (h : Until K st st') {memory memory' : Memory} (hm : gist memory = gist memory') :
    Option.Rel (fun next next' => (Until K next.1 next'.1 ∨ Stopped K next.1) ∧
        gist next.2 = gist next'.2)
      (st.step schedule memory) (st'.step schedule memory') := by
  have hlapse : schedule.lapse memory st = schedule.lapse memory' st' := by
    rw [← (hgist _ _).1, hm, h.surface_eq, (hgist _ _).1]
  rw [State.step, State.step, hlapse]
  exact (h.elapse _).proceed hgist hm

theorem run_of_gist (h : Until K st st') {memory memory' : Memory}
    (hm : gist memory = gist memory') :
    Until K (st.run schedule memory) (st'.run schedule memory') ∨
      Stopped K (st.run schedule memory) := by
  induction memory, st using State.run.induct schedule generalizing st' memory' with
  | case1 memory st next m hstep ih =>
    have hrel := h.step hgist hm
    rw [hstep] at hrel
    generalize hstep' : st'.step schedule memory' = stepped at hrel
    cases hrel with
    | some hrel =>
      obtain ⟨hnext | hstopped, hm⟩ := hrel
      · rw [State.run, hstep, State.run, hstep']
        exact ih hnext hm
      · rw [State.run, hstep]
        exact .inr (hstopped.reaches (reaches_run schedule m next))
  | case2 memory st hstep =>
    have hrel := h.step hgist hm
    rw [hstep] at hrel
    generalize hstep' : st'.step schedule memory' = stepped at hrel
    cases hrel with
    | none =>
      rw [State.run, hstep, State.run, hstep']
      exact .inl h

end

/-- Under a superficial schedule executions end in lockstep, or an event of the kind happens. -/
theorem run (hs : schedule.Superficial) (memory : Memory) (h : Until K st st') :
    Until K (st.run schedule memory) (st'.run schedule memory) ∨
      Stopped K (st.run schedule memory) := by
  obtain ⟨gist, hgist⟩ := hs
  exact h.run_of_gist hgist rfl

end State.Until

end Execution

end GraphQL
