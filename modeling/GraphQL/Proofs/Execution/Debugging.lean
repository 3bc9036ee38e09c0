import GraphQL.Proofs.Execution.Skipping

/-!
Debug mode, next to the same execution without it.

Until an execution has recorded an error, debug mode changes nothing, and after that it only skips
calls. So it fails just when errors are recorded without it, and with one of these
(`Executor.debug_agrees`).
-/

set_option autoImplicit false

namespace GraphQL

open Json Execution

namespace Execution

/-- A record without errors has not aborted its execution. -/
theorem State.isAborted_eq_false {number : Nat} {run : Run} {st : State}
    (h : st.errors number = []) : st.isAborted number run = false := by
  rw [State.isAborted, Bool.and_eq_false_iff, List.any_eq_false]
  right
  rintro ⟨n, ev⟩ hmem habort
  obtain ⟨hn, herror⟩ : n = number ∧ ev.error?.isSome = true := by simpa using habort
  obtain ⟨e, he⟩ := Option.isSome_iff_exists.1 herror
  have hev : ev ∈ st.events number := State.mem_events.2 (hn ▸ hmem)
  have hrecorded : e ∈ st.errors number := List.mem_filterMap.2 ⟨ev, hev, he⟩
  simp [h] at hrecorded

theorem Ends.aborting {context : Context} {t : Task} {c : Completion} {es : List Event}
    (h : Ends (.still context) t c es) : Ends (.aborting context) t c es := by
  refine Ends.mono ?_ ?_ ?_ ?_ h
  · exact fun _ => id
  · exact id
  · exact fun _ => Or.inl
  · exact fun _ _ => id

end Execution

/-- What debug mode makes of a result: of errors a failure with one of them. -/
structure DebugsTo (normal debug : Except ExecutionError Response) : Prop where
  fails_iff : (∃ e, debug = .error (.field e)) ↔ ∃ r, normal = .ok r ∧ r.errors ≠ []
  mem_errors : ∀ e, debug = .error (.field e) → ∃ r, normal = .ok r ∧ e ∈ r.errors
  eq_of_no_errors : (∀ r, normal = .ok r → r.errors = []) → debug = normal

theorem DebugsTo.refl {result : Except ExecutionError Response}
    (herror : ∀ e, result ≠ .error (.field e)) (hok : ∀ r, result = .ok r → r.errors = []) :
    DebugsTo result result where
  fails_iff := by
    constructor
    · rintro ⟨e, h⟩
      exact absurd h (herror e)
    · rintro ⟨r, h, hne⟩
      exact absurd (hok r h) hne
  mem_errors e h := absurd h (herror e)
  eq_of_no_errors _ := rfl

namespace Executor

/-- The executor with debug mode on or off. -/
def withDebug (debug : Bool) (executor : Executor) : Executor :=
  { executor with configuration := { executor.configuration with debug } }

theorem conclude_withDebug {executor : Executor} {context : Context} {t : Task}
    {c c' : Completion} {es es' : List Event} (ht : t.Abortable)
    (h : Ends (.still context) t c es) (h' : Ends (.aborting context) t c' es')
    (hstill : es'.filterMap Event.error? = [] → Ends (.still context) t c' es') :
    DebugsTo ((executor.withDebug false).conclude (.of c (es.filterMap Event.error?)))
      ((executor.withDebug true).conclude (.of c' (es'.filterMap Event.error?))) := by
  have hsub : es'.filterMap Event.error? ⊆ es.filterMap Event.error? :=
    List.filterMap_subset _ (ht.subset h h')
  have hnormal : (executor.withDebug false).conclude (.of c (es.filterMap Event.error?)) =
      .ok ⟨some c.data, sortErrors c.data (es.filterMap Event.error?), []⟩ := rfl
  rw [hnormal]
  cases hfirst : sortErrors c'.data (es'.filterMap Event.error?) with
  | nil =>
    have hnone : es'.filterMap Event.error? = [] := by
      have hperm := sortErrors_perm c'.data (es'.filterMap Event.error?)
      rw [hfirst] at hperm
      exact hperm.nil_eq.symm
    -- Nothing is skipped, so that the two have done the same.
    have hends := hstill hnone
    have hnone' : es.filterMap Event.error? = [] := by
      have hback := List.filterMap_subset Event.error? (ht.subset hends h.aborting)
      rw [hnone] at hback
      exact List.subset_nil.1 hback
    obtain rfl := h.completion_unique hends
    have hdebug : (executor.withDebug true).conclude (.of c (es'.filterMap Event.error?)) =
        .ok ⟨some c.data, [], []⟩ := by
      rw [Output.of, hfirst]
      rfl
    have hsorted : sortErrors c.data [] = [] := (sortErrors_perm c.data []).eq_nil
    rw [hdebug, hnone', hsorted]
    refine .refl (by simp) fun r hr => ?_
    cases hr
    rfl
  | cons e errors =>
    have hdebug : (executor.withDebug true).conclude (.of c' (es'.filterMap Event.error?)) =
        .error (.field e) := by
      rw [Output.of, hfirst]
      rfl
    have hmem : e ∈ sortErrors c.data (es.filterMap Event.error?) := by
      have he : e ∈ sortErrors c'.data (es'.filterMap Event.error?) := by
        rw [hfirst]
        exact List.mem_cons_self
      exact mem_sortErrors.2 (hsub (mem_sortErrors.1 he))
    rw [hdebug]
    refine ⟨⟨fun _ => ⟨_, rfl, List.ne_nil_of_mem hmem⟩, fun _ => ⟨e, rfl⟩⟩, fun e' h => ?_, ?_⟩
    · cases h
      exact ⟨_, rfl, hmem⟩
    · intro hnone
      have hnil : sortErrors c.data (es.filterMap Event.error?) = [] := hnone _ rfl
      rw [hnil] at hmem
      cases hmem

end Executor

theorem PreparedQuery.plan_ne_field (q : PreparedQuery) (variableValues : Entries Value)
    {operationName : Option String} (e : Error) :
    q.plan variableValues operationName ≠ .error (.field e) := by
  intro h
  have hplanned := q.planned_plan variableValues operationName
  rw [h] at hplanned
  cases hplanned

namespace Submission

variable {Memory : Type} {schedule : Schedule Memory} {memory : Memory}
  {submissions : List Submission} {contexts : ContextStore} {number : Nat} {s : Submission}

def withDebug (debug : Bool) (s : Submission) : Submission :=
  { s with query := { s.query with executor := s.query.executor.withDebug debug } }

section

variable (hl : ∀ s ∈ submissions, s.query.executor.Live)
  (hquiet : ∀ s ∈ submissions, s.query.executor.schema.Resolvers Resolver.Quiet)
  (hs : submissions[number]? = some s) (hsteady : Steady schedule memory submissions contexts s)

include hl hquiet hs hsteady

theorem covers_aborting :
    (World.aborting (s.firstContext contexts)).Covers (initial submissions contexts)
      (run schedule memory submissions contexts) number := by
  constructor
  · intro st run' hb hr
    exact read_of_between hl hquiet hs hsteady hb hr
  · intro st run' hb hr h
    rw [State.refusal?, read_of_between hl hquiet hs hsteady hb hr] at h
    split at h
    · cases h
    · split at h
      · cases h
      · next hahead => exact eq_false_of_ne_true hahead
  · intro st run' r hb hr h
    rw [State.refusal?, read_of_between hl hquiet hs hsteady hb hr] at h
    split at h
    · exact .inr (Option.some.inj h).symm
    · split at h
      · next hexpired => exact .inl ⟨hexpired, (Option.some.inj h).symm⟩
      · cases h
  · rintro st st' k r hb - ⟨run', path, stage, next, es, change, hr, -, rfl, -, -⟩
    change (k.resolver.answer k.invocation (s.firstContext contexts)).1 = (st.answer run' k).1
    rw [State.answer, read_of_between hl hquiet hs hsteady hb hr]

/-- An execution that ends without errors was never aborted. -/
theorem covers_still_of_no_errors
    (hnone : (run schedule memory submissions contexts).errors number = []) :
    (World.still (s.firstContext contexts)).Covers (initial submissions contexts)
      (run schedule memory submissions contexts) number := by
  refine covers_still_of_live hl hquiet hs hsteady fun st run' hb _ => State.isAborted_eq_false ?_
  obtain ⟨es, hes⟩ := State.events_of_reaches hb.2 number
  rw [State.errors, hes, List.filterMap_append, List.append_eq_nil_iff] at hnone
  exact hnone.1

theorem exists_ends_still {plan : Plan} (hp : (s.plan contexts).1 = .ok (some plan))
    (hdebug : s.query.executor.configuration.debug = false) :
    ∃ c es, Ends (.still (s.firstContext contexts))
        (s.query.executor.task s.query.document plan) c es ∧
      (run schedule memory submissions contexts).output number =
        .of c (es.filterMap Event.error?) := by
  have hcovers : (World.still (s.firstContext contexts)).Covers (initial submissions contexts)
      (run schedule memory submissions contexts) number := by
    refine covers_still_of_live hl hquiet hs hsteady fun st run' hb hr => ?_
    rw [State.isAborted, (run_of_between hs hb hr).1, hdebug, Bool.false_and]
  obtain ⟨c, hends, hout⟩ := exists_ends_of_live hcovers hs hp (hl s (List.mem_of_getElem? hs))
  exact ⟨c, _, hends, hout⟩

theorem exists_ends_aborting {plan : Plan} (hp : (s.plan contexts).1 = .ok (some plan)) :
    ∃ c es, Ends (.aborting (s.firstContext contexts))
        (s.query.executor.task s.query.document plan) c es ∧
      (es.filterMap Event.error? = [] → Ends (.still (s.firstContext contexts))
        (s.query.executor.task s.query.document plan) c es) ∧
      (run schedule memory submissions contexts).output number =
        .of c (es.filterMap Event.error?) := by
  have hlive := hl s (List.mem_of_getElem? hs)
  by_cases hnone : (run schedule memory submissions contexts).errors number = []
  · obtain ⟨c, hends, hout⟩ := exists_ends_of_live
      (covers_still_of_no_errors hl hquiet hs hsteady hnone) hs hp hlive
    exact ⟨c, _, hends.aborting, fun _ => hends, hout⟩
  · obtain ⟨c, hends, hout⟩ := exists_ends_of_live
      (covers_aborting hl hquiet hs hsteady) hs hp hlive
    exact ⟨c, _, hends, fun h => absurd h hnone, hout⟩

end

/-- Debug mode next to the same execution without it, under any schedules, and each next to any
other executions. -/
theorem conclude_withDebug {Memory' : Type} (schedule : Schedule Memory) (memory : Memory)
    (schedule' : Schedule Memory') (memory' : Memory') {submissions' : List Submission}
    {number' : Nat} (contexts : ContextStore) (hloaded : s.query.executor.schema.Loaded)
    (hs : submissions[number]? = some (s.withDebug false))
    (hs' : submissions'[number']? = some (s.withDebug true))
    (hl : ∀ s ∈ submissions, s.query.executor.Live)
    (hl' : ∀ s ∈ submissions', s.query.executor.Live)
    (hquiet : ∀ s ∈ submissions, s.query.executor.schema.Resolvers Resolver.Quiet)
    (hquiet' : ∀ s ∈ submissions', s.query.executor.schema.Resolvers Resolver.Quiet)
    (hsteady : Steady schedule memory submissions contexts (s.withDebug false))
    (hsteady' : Steady schedule' memory' submissions' contexts (s.withDebug true)) :
    DebugsTo
      ((s.withDebug false).conclude contexts number
        (run schedule memory submissions contexts))
      ((s.withDebug true).conclude contexts number'
        (run schedule' memory' submissions' contexts)) := by
  have hplan : ∀ debug, (s.withDebug debug).plan contexts = s.plan contexts := fun _ => rfl
  rw [conclude, conclude, hplan, hplan]
  split
  · next e he =>
    refine .refl (fun error h => ?_) (by simp)
    cases h
    exact PreparedQuery.plan_ne_field _ _ error he
  · refine .refl (by simp) fun r hr => ?_
    cases hr
    rfl
  · next plan hp =>
    obtain ⟨name, hname⟩ := Schema.exists_of_rootType? (PreparedQuery.of_plan hp).2.1
    have htask : (s.query.executor.task s.query.document plan).Abortable :=
      Setting.abortable_root (s := s.setting plan) hloaded.wellFormed _
        (hloaded.wellFormed name _ hname).2 _ _
    obtain ⟨c, es, hends, hout⟩ := exists_ends_still hl hquiet hs hsteady hp rfl
    obtain ⟨c', es', hends', hstill, hout'⟩ := exists_ends_aborting hl' hquiet' hs' hsteady' hp
    rw [hout, hout']
    exact Executor.conclude_withDebug htask hends hends' hstill

end Submission

namespace Executor

theorem document_ne_field (executor : Executor) (request : Request) (e : Error) :
    executor.document request ≠ .error (.field e) := by
  unfold document
  repeat' split
  all_goals simp

end Executor

end GraphQL
