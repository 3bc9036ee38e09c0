import GraphQL.Proofs.Execution.Moves

/-!
Executions from their beginning to their end.

Whatever the steps that lead from one state to another in which an execution is done, its task ends
with the events that were noted on the way (`State.ends_of_reaches`). The world in which it ends is
that of the states on the way (`State.world`). Where more is known about the order of the steps, the
task may be told by another one that accounts for them (`State.account_of_reaches`).
-/

set_option autoImplicit false

namespace GraphQL.Execution

open Json

namespace State

def Between (first last st : State) : Prop := Reaches first st ∧ Reaches st last

theorem refusal?_ne_resolved (number : Nat) (run : Run) (st : State) (r : Resolution) :
    st.refusal? number run ≠ some (.resolved r) := by
  unfold refusal?
  split
  · simp
  · split <;> simp

/-- A step by which a call gets its answer. -/
def Answers (st : State) (number : Nat) (k : Call) (r : Resolution) (st' : State) : Prop :=
  ∃ run path stage next es change, st.runs[number]? = some run ∧
    run.task.reach? path = some (.call k stage next) ∧ (st.answer run k).1 = r ∧
    st.advance (number :: path).reverse = some st' ∧
    st' = st.after number path (.call k (.answered r) next) es change (st.answer run k).2

/-- What happens around an execution between two states. -/
def world (first last : State) (number : Nat) : World where
  sees context := ∃ st run, Between first last st ∧ st.runs[number]? = some run ∧
    st.contexts.read run.context = context
  admits := ∃ st run, Between first last st ∧ st.runs[number]? = some run ∧
    st.refusal? number run = none
  refuses r := ∃ st run, Between first last st ∧ st.runs[number]? = some run ∧
    st.refusal? number run = some r
  answers k r := ∃ st st', Between first last st ∧ Between first last st' ∧
    st.Answers number k r st'
  not_refuses_resolved := by
    rintro r ⟨st, run, -, -, h⟩
    exact refusal?_ne_resolved number run st r h

end State

/-- Whether all that happens to an execution between two states may happen in a world. -/
structure World.Covers (w : World) (first last : State) (number : Nat) : Prop where
  sees : ∀ st run, State.Between first last st → st.runs[number]? = some run →
    w.sees (st.contexts.read run.context)
  admits : ∀ st run, State.Between first last st → st.runs[number]? = some run →
    st.refusal? number run = none → w.admits
  refuses : ∀ st run r, State.Between first last st → st.runs[number]? = some run →
    st.refusal? number run = some r → w.refuses r
  answers : ∀ st st' k r, State.Between first last st → State.Between first last st' →
    st.Answers number k r st' → w.answers k r

namespace World.Covers

theorem world (first last : State) (number : Nat) :
    (State.world first last number).Covers first last number where
  sees st run hb hr := ⟨st, run, hb, hr, rfl⟩
  admits st run hb hr h := ⟨st, run, hb, hr, h⟩
  refuses st run _ hb hr h := ⟨st, run, hb, hr, h⟩
  answers st st' _ _ hb hb' h := ⟨st, st', hb, hb', h⟩

theorem of_between {w : World} {first st last : State} {number : Nat}
    (h : w.Covers first last number)
    (hb : ∀ {st'}, State.Between st last st' → State.Between first last st') :
    w.Covers st last number where
  sees st' run h' := h.sees st' run (hb h')
  admits st' run h' := h.admits st' run (hb h')
  refuses st' run r h' := h.refuses st' run r (hb h')
  answers st₁ st₂ k r h₁ h₂ := h.answers st₁ st₂ k r (hb h₁) (hb h₂)

variable {w : World} {first st last : State} {number : Nat} (h : w.Covers first last number)

include h

theorem tail {p : Position} (ha : first.advance p = some st) : w.Covers st last number :=
  h.of_between fun hb => ⟨.head p ha hb.1, hb.2⟩

theorem wait (time : Nat) : w.Covers (first.elapse time) last number :=
  h.of_between fun hb => ⟨.wait time hb.1, hb.2⟩

end World.Covers

theorem Task.eq_done_of_completions? {children : List Task} {cs : List Completion}
    (h : Task.completions? children = some cs) :
    children = cs.map Task.done := by
  induction children generalizing cs with
  | nil => simpa [Task.completions?, eq_comm] using h
  | cons t ts ih =>
    simp only [Task.completions?, List.mapM_cons, Option.bind_eq_bind, Option.bind_eq_some_iff,
      Option.pure_def, Option.some.injEq] at h
    obtain ⟨c, hc, ds, hd, rfl⟩ := h
    cases t <;> simp only [Task.completion?, Option.some.injEq, reduceCtorEq] at hc
    simp [hc, ih hd]

namespace Ends

variable {w : World} {c : Completion} {es : List Event}

/-- Children that are all done are joined without an event. -/
theorem join {s : Strategy} {next : List Completion → Task} {cs : List Completion}
    (h : Ends w (next (s.keep cs)) c es) : Ends w (.fork s (cs.map .done) next) c es := by
  refine @fork w s _ next (cs.map (·, [])) c [] es (by simp) ?_ ?_
    (by simpa [Function.comp_def] using h)
  · intro i t d ds ht hd
    simp only [List.getElem?_map, Option.map_eq_some_iff, Prod.mk.injEq] at ht hd
    obtain ⟨c, hc, rfl⟩ := ht
    obtain ⟨d', hd', rfl, rfl⟩ := hd
    obtain rfl : c = d' := Option.some.inj (hc.symm.trans hd')
    exact .done c
  · exact .nil (by simp)

/-- What a child has done comes before all that is still to be done. -/
theorem fork_modify {s : Strategy} {children : List Task} {next : List Completion → Task} {i : Nat}
    {t : Task} {f : Task → Task} {rest : List Event} (hi : children[i]? = some t)
    (hs : ∀ {d ds}, Ends w (f t) d ds → Ends w t d (es ++ ds))
    (h : Ends w (.fork s (children.modify i f) next) c rest) :
    Ends w (.fork s children next) c (es ++ rest) := by
  obtain ⟨outs, merged, rest, hl, ho, hm, hn, rfl⟩ := of_fork h
  obtain ⟨hlt, rfl⟩ := List.getElem?_eq_some_iff.1 hi
  have hlo : i < outs.length := by rwa [← hl, List.length_modify]
  have hout : outs[i]? = some (outs[i].1, outs[i].2) := List.getElem?_eq_getElem hlo
  have hchild := hs (ho i _ _ _ (by simp [hi]) hout)
  have hsplit : outs = outs.take i ++ outs[i] :: outs.drop (i + 1) := by simp
  rw [← List.append_assoc]
  refine @fork w s children next (outs.set i (outs[i].1, es ++ outs[i].2)) c _ rest
    (by simpa using hl) ?_ ?_ ?_
  · intro j t' d ds ht hd
    rw [List.getElem?_set] at hd
    split at hd
    · next hij =>
      subst hij
      simp only [Option.some.injEq, Prod.mk.injEq] at hd
      obtain ⟨rfl, rfl⟩ := hd
      obtain rfl : t' = children[i] := Option.some.inj (ht.symm.trans hi)
      exact hchild
    · next hij => exact ho j t' d ds (by simp [hij, ht]) hd
  · rw [hsplit, List.map_append, List.map_cons] at hm
    have := Interleaving.prepend es hm
    rw [List.set_eq_take_append_cons_drop]
    simpa [hlo] using this
  · have hfst : (outs.set i (outs[i].1, es ++ outs[i].2)).map Prod.fst = outs.map Prod.fst := by
      have hlt : i < (outs.map Prod.fst).length := by simpa using hlo
      have hget : outs[i].1 = (outs.map Prod.fst)[i] := by simp
      rw [List.map_set, hget, List.set_getElem_self]
    rwa [hfst]

end Ends

/-- Other tasks that account for all steps of tasks: they may end, in a world, in every way in which
the steps let the tasks end. -/
structure Account (w : World) (F : Task → Task) : Prop where
  done : ∀ c, F (.done c) = .done c
  emit : ∀ e next, F (.emit e next) = .emit e (F next)
  read : ∀ next, F (.read next) = .read fun context => F (next context)
  call : ∀ k stage next, F (.call k stage next) = .call k stage fun r => F (next r)
  join : ∀ {s next cs c es}, Ends w (F (next (s.keep cs))) c es →
    Ends w (F (.fork s (cs.map .done) next)) c es
  child : ∀ {s children next i t f c es rest}, children[i]? = some t →
    s.order.allows children i = true →
    (∀ {d ds}, Ends w (F (f t)) d ds → Ends w (F t) d (es ++ ds)) →
    Ends w (F (.fork s (children.modify i f) next)) c rest →
    Ends w (F (.fork s children next)) c (es ++ rest)

namespace Account

variable {w : World} {F : Task → Task} {c : Completion}

/-- A task accounts for its own steps. -/
theorem refl (w : World) : Account w id where
  done _ := rfl
  emit _ _ := rfl
  read _ := rfl
  call _ _ _ := rfl
  join := .join
  child hi _ := .fork_modify hi

variable (hF : Account w F)

include hF

theorem of_move {st last : State} {number : Nat} {run : Run} {path : List Nat} {t u : Task}
    {es rest : List Event} {change : LineChange} {contexts : ContextStore}
    (hw : w.Covers st last number) (hr : st.runs[number]? = some run)
    (ht : run.task.reach? path = some t)
    (hm : State.Move st number run (number :: path).reverse t u es change contexts)
    (ha : st.advance (number :: path).reverse = some (st.after number path u es change contexts))
    (hl : State.Reaches (st.after number path u es change contexts) last)
    (h : Ends w (F u) c rest) : Ends w (F t) c (es ++ rest) := by
  have hb : State.Between st last st := ⟨.refl st, .head _ ha hl⟩
  have hb' : State.Between st last (st.after number path u es change contexts) :=
    ⟨.head _ ha (.refl _), hl⟩
  cases hm with
  | emit e next =>
    rw [hF.emit]
    exact .emit e h
  | read next =>
    rw [hF.read]
    exact .read (hw.sees st run hb hr) h
  | @join s children next cs hc =>
    obtain rfl := Task.eq_done_of_completions? hc
    exact hF.join h
  | ask k next =>
    rw [hF.call] at h ⊢
    obtain ⟨r, hr, hnext⟩ | ⟨r, rest, ha, hk, rfl, hnext⟩ := h.of_call trivial
    · exact .refused trivial hr hnext
    · exact .called trivial ha hk hnext
  | refuse k next hf =>
    rw [hF.call]
    exact .refused trivial (hw.refuses st run _ hb hr hf) h
  | grant k next hf =>
    rw [hF.call] at h ⊢
    obtain ⟨r, rest, hk, rfl, hnext⟩ := h.of_admitted
    exact .called trivial (hw.admits st run hb hr hf) hk hnext
  | begin k next pauses =>
    rw [hF.call] at h ⊢
    obtain ⟨r, hk, hnext⟩ := h.of_working
    exact .admitted hk hnext
  | beginAnswer k next =>
    rw [hF.call] at h ⊢
    have hk : st.Answers number k (st.answer run k).1 _ :=
      ⟨run, path, _, next, _, _, hr, ht, rfl, ha, rfl⟩
    exact .admitted (hw.answers st _ k _ hb hb' hk) h.of_answered
  | pause k next pauses =>
    rw [hF.call] at h ⊢
    obtain ⟨r, hk, hnext⟩ := h.of_working
    exact .working hk hnext
  | answer k next =>
    rw [hF.call] at h ⊢
    have hk : st.Answers number k (st.answer run k).1 _ :=
      ⟨run, path, _, next, _, _, hr, ht, rfl, ha, rfl⟩
    exact .working (hw.answers st _ k _ hb hb' hk) h.of_answered
  | reply k next r =>
    rw [hF.call]
    exact .answered h

theorem of_replace {t u : Task} {es : List Event}
    (hs : ∀ {d ds}, Ends w (F u) d ds → Ends w (F t) d (es ++ ds)) :
    ∀ {path : List Nat} {whole : Task} {c : Completion} {rest : List Event},
      Task.reach? path whole = some t → Ends w (F (Task.replace u path whole)) c rest →
      Ends w (F whole) c (es ++ rest)
  | [], whole, c, rest, hr, h => by
    obtain rfl : whole = t := by simpa [Task.reach?] using hr
    exact hs (by simpa [Task.replace] using h)
  | i :: path, .fork s children next, c, rest, hr, h => by
    simp only [Task.reach?] at hr
    split at hr
    · next hallows =>
      obtain ⟨child, hi, hc⟩ := Option.bind_eq_some_iff.1 hr
      exact hF.child hi hallows (fun hd => of_replace hs hc hd) h
    · simp at hr
  | _ :: _, .done _, _, _, hr, _ => by simp [Task.reach?] at hr
  | _ :: _, .emit _ _, _, _, hr, _ => by simp [Task.reach?] at hr
  | _ :: _, .read _, _, _, hr, _ => by simp [Task.reach?] at hr
  | _ :: _, .call _ _ _, _, _, hr, _ => by simp [Task.reach?] at hr

end Account

namespace State

theorem mem_events {st : State} {number : Nat} {ev : Event} :
    ev ∈ st.events number ↔ (number, ev) ∈ st.trace := by
  simp [events]

theorem events_after (st : State) (number other : Nat) (path : List Nat) (u : Task)
    (es : List Event) (change : LineChange) (contexts : ContextStore) :
    (st.after number path u es change contexts).events other =
      st.events other ++ if number = other then es else [] := by
  simp only [events, after, List.reverse_append, List.filterMap_append, List.map_reverse,
    List.reverse_reverse, List.filterMap_map]
  congr 1
  split
  · next h => induction es <;> simp_all
  · next h => induction es <;> simp_all

theorem runs_after (st : State) (number other : Nat) (path : List Nat) (u : Task)
    (es : List Event) (change : LineChange) (contexts : ContextStore) :
    (st.after number path u es change contexts).runs[other]? =
      if number = other then st.runs[other]?.map fun run =>
        { run with
          task := Task.replace u path run.task
          line := change.apply (number :: path).reverse run.line }
      else st.runs[other]? := by
  simp only [after, List.getElem?_modify]
  split <;> simp

/-- A step is one of an execution's own, or leaves the execution as it is. -/
theorem run_cases_of_advance {p : Position} {st st' : State} (h : st.advance p = some st')
    {number : Nat} {run : Run} (hr : st.runs[number]? = some run) :
    (∃ path t u es change contexts, p = (number :: path).reverse ∧
      run.task.reach? path = some t ∧
      Move st number run (number :: path).reverse t u es change contexts ∧
      st' = st.after number path u es change contexts ∧
      st'.runs[number]? = some { run with
        task := Task.replace u path run.task
        line := change.apply (number :: path).reverse run.line } ∧
      st'.events number = st.events number ++ es) ∨
    (st'.runs[number]? = some run ∧ st'.events number = st.events number) := by
  obtain ⟨n, path, run₀, t, u, es, change, contexts, rfl, hn, ht, hm, rfl⟩ := advance_cases h
  have hruns := runs_after st n number path u es change contexts
  have hevents := events_after st n number path u es change contexts
  split at hruns
  · next hnn =>
    subst hnn
    obtain rfl : run₀ = run := Option.some.inj (hn.symm.trans hr)
    rw [hr, Option.map_some] at hruns
    rw [if_pos rfl] at hevents
    exact .inl ⟨path, t, u, es, change, contexts, rfl, ht, hm, rfl, hruns, hevents⟩
  · next hnn =>
    rw [if_neg hnn, List.append_nil] at hevents
    exact .inr ⟨hruns.trans hr, hevents⟩

theorem run_of_reaches {st last : State} (h : Reaches st last) {number : Nat} {run : Run}
    (hr : st.runs[number]? = some run) :
    ∃ run', last.runs[number]? = some run' ∧ run'.debug = run.debug ∧
      run'.context = run.context ∧ run'.permits = run.permits := by
  induction h generalizing run with
  | refl st => exact ⟨run, hr, rfl, rfl, rfl⟩
  | @head st st' last p ha _ ih =>
    rcases run_cases_of_advance ha hr with
      ⟨_, _, _, _, _, _, -, -, -, -, hruns, -⟩ | ⟨hruns, -⟩
    · obtain ⟨run', hr', hd, hc, hp⟩ := ih hruns
      exact ⟨run', hr', hd, hc, hp⟩
    · exact ih hruns
  | wait _ _ ih => exact ih hr

/-- What an execution has done stays done. -/
theorem events_of_reaches {st last : State} (h : Reaches st last) (number : Nat) :
    ∃ es, last.events number = st.events number ++ es := by
  induction h with
  | refl st => exact ⟨[], by simp⟩
  | @head st st' last p ha _ ih =>
    obtain ⟨n, path, _, t, u, es, change, contexts, -, -, -, -, rfl⟩ := advance_cases ha
    obtain ⟨rest, hrest⟩ := ih
    rw [events_after, List.append_assoc] at hrest
    exact ⟨_, hrest⟩
  | wait _ _ ih => exact ih

/-- The state after going on at some positions, each time after some time. -/
def follow : List (Nat × Position) → State → Option State
  | [], st => some st
  | (time, p) :: order, st => ((st.elapse time).advance p).bind (follow order)

theorem reaches_of_follow {order : List (Nat × Position)} {st last : State}
    (h : follow order st = some last) : Reaches st last := by
  induction order generalizing st with
  | nil =>
    cases h
    exact .refl last
  | cons next order ih =>
    obtain ⟨st', ha, hlast⟩ := Option.bind_eq_some_iff.1 h
    exact .wait next.1 (.head next.2 ha (ih hlast))

/-- Nothing happens in an execution that there is not. -/
theorem events_of_reaches_of_none {st last : State} (h : Reaches st last) {number : Nat}
    (hr : st.runs[number]? = none) : last.events number = st.events number := by
  induction h with
  | refl st => rfl
  | @head st st' last p ha _ ih =>
    obtain ⟨n, path, _, t, u, es, change, contexts, -, hn, -, -, rfl⟩ := advance_cases ha
    have hne : n ≠ number := by
      rintro rfl
      cases hn.symm.trans hr
    rw [events_after, runs_after, if_neg hne, if_neg hne, List.append_nil] at ih
    exact ih hr
  | wait _ _ ih => exact ih hr

/-- An execution that is done has done what its task, as it was in an earlier state, ends with, in
every account of it. -/
theorem account_of_reaches {w : World} {F : Task → Task} (hF : Account w F) {st last : State}
    (h : Reaches st last) {number : Nat} (hw : w.Covers st last number) {run run' : Run}
    (hr : st.runs[number]? = some run) (hr' : last.runs[number]? = some run') {c : Completion}
    (hd : run'.task = .done c) :
    ∃ es, last.events number = st.events number ++ es ∧ Ends w (F run.task) c es := by
  induction h generalizing run with
  | refl st =>
    obtain rfl : run = run' := Option.some.inj (hr.symm.trans hr')
    refine ⟨[], by simp, ?_⟩
    rw [hd, hF.done]
    exact .done c
  | @head st st' last p ha hl ih =>
    have hw' := hw.tail ha
    rcases run_cases_of_advance ha hr with
      ⟨path, t, u, es, change, contexts, rfl, ht, hm, rfl, hruns, hevents⟩ | ⟨hruns, hevents⟩
    · obtain ⟨rest, he, hends⟩ := ih hw' hruns hr'
      exact ⟨es ++ rest, by rw [he, hevents, List.append_assoc],
        hF.of_replace (fun h => hF.of_move hw hr ht hm ha hl h) ht hends⟩
    · obtain ⟨rest, he, hends⟩ := ih hw' hruns hr'
      exact ⟨rest, by rw [he, hevents], hends⟩
  | wait time _ ih => exact ih (hw.wait time) hr hr'

/-- An execution that is done has done what its task, as it was in an earlier state, ends with. -/
theorem ends_of_reaches {w : World} {st last : State} (h : Reaches st last) {number : Nat}
    (hw : w.Covers st last number) {run run' : Run} (hr : st.runs[number]? = some run)
    (hr' : last.runs[number]? = some run') {c : Completion} (hd : run'.task = .done c) :
    ∃ es, last.events number = st.events number ++ es ∧ Ends w run.task c es :=
  account_of_reaches (.refl w) h hw hr hr' hd

end State

end GraphQL.Execution
