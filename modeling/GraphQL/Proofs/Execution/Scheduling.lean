import GraphQL.Proofs.Execution.Outputs
import GraphQL.Proofs.Execution.TwoRuns

/-!
Responses do not show how executions are scheduled.

Where no resolver changes the context, all executions of a plan take place in the same world
(`World.still`), and there all of them agree with the one that does everything one after the other.
-/

set_option autoImplicit false

namespace GraphQL

open Json Execution

/-- Leaves the context as it is. -/
def Resolver.Quiet (r : Resolver) : Prop := ∀ i c, (r.answer i c).2 = c.entries

theorem ContextStore.write_read (ref : ContextRef) (store : ContextStore) :
    store.write ref (store.read ref).entries = store := by
  have hset : store.contexts.set ref.id (store.contexts[ref.id]?.getD []) = store.contexts := by
    refine List.ext_getElem? fun i => ?_
    rw [List.getElem?_set]
    by_cases hi : ref.id = i
    · subst hi
      by_cases hlt : ref.id < store.contexts.length
      · simp [hlt]
      · simp [hlt]
    · simp [hi]
  exact congrArg (ContextStore.mk · store.now) hset

namespace Execution

/-- A world in which the context stays the same and calls are refused only if its deadline has
passed. -/
def World.still (context : Context) : World where
  sees c := c = context
  admits := context.isExpired = false
  refuses r := context.isExpired = true ∧ r = .timedOut
  answers k r := (k.resolver.answer k.invocation context).1 = r
  not_refuses_resolved := by
    rintro r ⟨-, h⟩
    cases h

namespace State

theorem Move.contexts_eq {st : State} {number : Nat} {run : Run} {p : Position} {t u : Task}
    {es : List Event} {change : LineChange} {contexts : ContextStore}
    (h : Move st number run p t u es change contexts) (ht : t.Sound Resolver.Quiet) :
    contexts = st.contexts := by
  have hanswer : ∀ k : Call, k.resolver.Quiet → (st.answer run k).2 = st.contexts := by
    intro k hk
    have hentries := hk k.invocation (st.contexts.read run.context)
    change st.contexts.write run.context _ = st.contexts
    rw [hentries, ContextStore.write_read]
  cases h with
  | beginAnswer k next => cases ht with | call _ hk _ => exact hanswer k hk
  | answer k next => cases ht with | call _ hk _ => exact hanswer k hk
  | _ => rfl

theorem contexts_of_reaches {st last : State} (h : Reaches st last)
    (ho : ∀ number (run : Run), st.runs[number]? = some run → run.Orderly Resolver.Quiet number) :
    last.contexts.contexts = st.contexts.contexts := by
  induction h with
  | refl st => rfl
  | wait _ _ ih => exact ih ho
  | @head st st' last p ha _ ih =>
    obtain ⟨n, path, run, t, u, es, change, contexts, rfl, hn, ht, hm, rfl⟩ := advance_cases ha
    have hcontexts : contexts = st.contexts :=
      hm.contexts_eq (Task.Sound.of_reach? (ho n run hn).sound ht)
    have hlast := ih fun number run' hr' => ?_
    · exact hlast.trans (congrArg ContextStore.contexts hcontexts)
    · rw [runs_after] at hr'
      split at hr'
      · next hnn =>
        subst hnn
        rw [hn] at hr'
        cases hr'
        exact (ho n run hn).after ht hm
      · exact ho number run' hr'

end State

theorem Setting.alike_still (s : Setting) (nested : Strategy) (context : Context) :
    Setting.Alike (fun _ => False) s { s with nested } (.still context) (.still context) where
  schema := .refl (fun _ _ _ _ _ ha ha' => ha.symm.trans ha') _
  document := rfl
  bindings := rfl
  includes := by
    rintro c c' rfl rfl
    rfl
  transform := by
    rintro c c' rfl rfl
    rfl
  not_skipped := by
    constructor <;> · rintro ⟨-, h⟩; cases h
  not_refuses := by
    rintro hahead ⟨hexpired, -⟩
    cases hexpired.symm.trans hahead
  not_admits := by
    rintro ⟨hexpired, -⟩ hahead
    cases hexpired.symm.trans hahead

/-- In a still world all executions agree, whatever the strategy for nested selection sets. -/
theorem Does.agrees_still {s : Setting} {nested : Strategy} {context : Context} {room : Nat}
    {type : ObjectType} {value : Value} {selections : List (Selection Literal)}
    {c c' : Completion} {es es' : List Event}
    (h : Does s (.still context) room (.object type value selections []) c es)
    (h' : Does { s with nested } (.still context) room (.object type value selections []) c' es') :
    Agrees (fun _ => False) [] c c' es es' := by
  have htype : type.Alike (AnswersAlike (fun _ => False) (.still context) (.still context)) type :=
    .refl (fun _ _ _ _ _ ha ha' => ha.symm.trans ha') _
  exact h.compares (s.alike_still nested context) (fun _ _ => id) (.object _ _ _ htype) id
    (fun _ _ _ _ hq => hq.elim) h'

end Execution

/-- The executor with everything done one after the other. -/
def Executor.serially (executor : Executor) : Executor :=
  { executor with
    configuration :=
      { executor.configuration with maxConcurrency := 1, maxInFlightResolvers := 1 }
    rootStrategy := fun _ => .serial
    nested := .serial }

theorem Executor.faithful_serially (executor : Executor) : executor.serially.Faithful :=
  ⟨fun _ => Strategy.faithful_serial, Strategy.faithful_serial⟩

namespace Submission

def serially (s : Submission) : Submission :=
  { s with query := { s.query with executor := s.query.executor.serially } }

theorem plan_serially (s : Submission) (contexts : ContextStore) :
    s.serially.plan contexts = s.plan contexts := rfl

variable {Memory : Type} {schedule : Schedule Memory} {memory : Memory}
  {submissions : List Submission} {contexts : ContextStore} {number : Nat} {s : Submission}
  {plan : Plan}

/-- The context in which a submission is executed, as long as nobody changes it and its deadline
does not pass. -/
def firstContext (s : Submission) (contexts : ContextStore) : Context :=
  contexts.read (s.plan contexts).2

section

variable (hl : ∀ s ∈ submissions, s.query.executor.Live)
  (hquiet : ∀ s ∈ submissions, s.query.executor.schema.Resolvers Resolver.Quiet)
  (hs : submissions[number]? = some s) (hsteady : Steady schedule memory submissions contexts s)

include hl hquiet hs hsteady

theorem read_of_between {st : State} {run' : Run}
    (hb : State.Between (initial submissions contexts)
      (run schedule memory submissions contexts) st)
    (hr : st.runs[number]? = some run') :
    st.contexts.read run'.context = s.firstContext contexts := by
  have horderly : ∀ n (run' : Run), (initial submissions contexts).runs[n]? = some run' →
      run'.Orderly Resolver.Quiet n := by
    intro n run' hr
    simp only [initial, State.start, List.getElem?_map, Option.map_eq_some_iff] at hr
    obtain ⟨s', hs', rfl⟩ := hr
    have hmem := List.mem_of_getElem? hs'
    exact orderly_start contexts (hl s' hmem) (hquiet s' hmem) n
  rw [(run_of_between hs hb hr).2]
  exact ContextStore.read_eq_of_isExpired_eq (State.contexts_of_reaches hb.1 horderly)
    (State.isExpired_eq_of_between hb hsteady)

/-- Around an execution in which nothing is skipped, the world is still. -/
theorem covers_still_of_live
    (hskip : ∀ st run', State.Between (initial submissions contexts)
      (run schedule memory submissions contexts) st → st.runs[number]? = some run' →
      st.isAborted number run' = false) :
    (World.still (s.firstContext contexts)).Covers (initial submissions contexts)
      (run schedule memory submissions contexts) number := by
  have hrefusal : ∀ st run', State.Between (initial submissions contexts)
      (run schedule memory submissions contexts) st → st.runs[number]? = some run' →
      st.refusal? number run' =
        if (s.firstContext contexts).isExpired then some .timedOut else none := by
    intro st run' hb hr
    simp [State.refusal?, hskip st run' hb hr, read_of_between hl hquiet hs hsteady hb hr]
  constructor
  · intro st run' hb hr
    exact read_of_between hl hquiet hs hsteady hb hr
  · intro st run' hb hr h
    rw [hrefusal st run' hb hr] at h
    cases he : (s.firstContext contexts).isExpired with
    | false => exact he
    | true => simp [he] at h
  · intro st run' r hb hr h
    rw [hrefusal st run' hb hr] at h
    cases he : (s.firstContext contexts).isExpired with
    | false => simp [he] at h
    | true =>
      simp only [he, if_true, Option.some.injEq] at h
      exact ⟨he, h.symm⟩
  · rintro st st' k r hb - ⟨run', path, stage, next, es, change, hr, -, rfl, -, -⟩
    change (k.resolver.answer k.invocation (s.firstContext contexts)).1 = (st.answer run' k).1
    rw [State.answer, read_of_between hl hquiet hs hsteady hb hr]

end

section

variable (hf : ∀ s ∈ submissions, s.query.executor.Faithful)
  (hquiet : ∀ s ∈ submissions, s.query.executor.schema.Resolvers Resolver.Quiet)
  (hs : submissions[number]? = some s) (hsteady : Steady schedule memory submissions contexts s)

include hf hquiet hs hsteady

theorem eq_firstContext_of_sees {c : Context}
    (h : (world schedule memory submissions contexts number).sees c) :
    c = s.firstContext contexts := by
  obtain ⟨st, run', hb, hr, rfl⟩ := h
  exact read_of_between (fun s hs => (hf s hs).live) hquiet hs hsteady hb hr

variable (hdebug : s.query.executor.configuration.debug = false)

include hdebug

theorem covers_still :
    (World.still (s.firstContext contexts)).Covers (initial submissions contexts)
      (run schedule memory submissions contexts) number := by
  refine covers_still_of_live (fun s hs => (hf s hs).live) hquiet hs hsteady fun st run' hb hr => ?_
  rw [State.isAborted, (run_of_between hs hb hr).1, hdebug, Bool.false_and]

theorem answer_eq_of_answers {k : Call} {r : Resolution}
    (h : (world schedule memory submissions contexts number).answers k r) :
    (k.resolver.answer k.invocation (s.firstContext contexts)).1 = r := by
  obtain ⟨st, st', hb, hb', hanswers⟩ := h
  exact (covers_still hf hquiet hs hsteady hdebug).answers st st' k r hb hb' hanswers

end

theorem named_of_does {setting : Setting} {w : World} {room : Nat} {text : String}
    {c : Completion} {es : List Event} (hparse : Document.parse text = .ok s.query.document)
    (hp : (s.plan contexts).1 = .ok (some plan)) (hd : setting.document = s.query.document)
    (h : Does setting w room (s.job plan) c es) :
    ∀ e ∈ es.filterMap Event.error?, e.Named := by
  have hnamed := Document.named_of_parse hparse
  have hkeys := hnamed.of_select (PreparedQuery.of_plan hp).1
  exact h.named_of_error (hd ▸ hnamed.fragments) hkeys rfl

/-- Whatever an execution in a still world comes to, doing everything one after the other comes to
the same. -/
theorem output_eq_serially {Memory' : Type} (schedule' : Schedule Memory') (memory' : Memory')
    {text : String} (hparse : Document.parse text = .ok s.query.document)
    (hp : (s.plan contexts).1 = .ok (some plan))
    (hquiet : s.query.executor.schema.Resolvers Resolver.Quiet)
    (hsteady' : Steady schedule' memory' [s.serially] contexts s.serially)
    (hdebug : s.query.executor.configuration.debug = false) {c : Completion} {es : List Event}
    (h : Does (s.setting plan) (.still (s.firstContext contexts)) s.room (s.job plan) c es) :
    Output.of c (es.filterMap Event.error?) =
      (run schedule' memory' [s.serially] contexts).output 0 := by
  have hf' : ∀ s' ∈ [s.serially], s'.query.executor.Faithful := by
    intro s' hs'
    rw [List.mem_singleton.1 hs']
    exact Executor.faithful_serially _
  have hquiet' : ∀ s' ∈ [s.serially], s'.query.executor.schema.Resolvers Resolver.Quiet := by
    intro s' hs'
    rw [List.mem_singleton.1 hs']
    exact hquiet
  have hcovers : (World.still (s.serially.firstContext contexts)).Covers
      (initial [s.serially] contexts) (run schedule' memory' [s.serially] contexts) 0 :=
    covers_still hf' hquiet' rfl hsteady' hdebug
  obtain ⟨c', hdoes', hout'⟩ := exists_does_of_covers hcovers rfl hp (Executor.faithful_serially _)
  rw [hout']
  exact (Does.agrees_still h hdoes').output_eq (named_of_does hparse hp rfl h)
    (named_of_does hparse hp rfl hdoes')

/-- The response of an execution is that of doing everything one after the other: under any schedule
and any strategies, next to any other executions, and however the events of its parts are
interleaved, as long as its deadline does not pass meanwhile. All records of its errors that differ
only in how errors at different paths follow each other come into the same order. -/
theorem response_serially {Memory' : Type} (schedule : Schedule Memory) (memory : Memory)
    (schedule' : Schedule Memory') (memory' : Memory') (contexts : ContextStore) {text : String}
    (hparse : Document.parse text = .ok s.query.document) (hs : submissions[number]? = some s)
    (hf : ∀ s ∈ submissions, s.query.executor.Faithful)
    (hquiet : ∀ s ∈ submissions, s.query.executor.schema.Resolvers Resolver.Quiet)
    (hsteady : Steady schedule memory submissions contexts s)
    (hsteady' : Steady schedule' memory' [s.serially] contexts s.serially)
    (hdebug : s.query.executor.configuration.debug = false) :
    (executeAllWith schedule memory submissions contexts).result[number]? =
        some (executeWith schedule' memory' s.serially contexts).result ∧
      ∀ plan, (s.plan contexts).1 = .ok (some plan) →
        (∀ c es, Ends (.still (s.firstContext contexts))
            (s.query.executor.task s.query.document plan) c es →
          Output.of c (es.filterMap Event.error?) =
            (run schedule' memory' [s.serially] contexts).output 0) ∧
        ∀ errors : List Error,
          errors.Perm ((run schedule memory submissions contexts).errors number) →
          (∀ path, errors.filter (fun e => e.path = path) =
            ((run schedule memory submissions contexts).errors number).filter
              fun e => e.path = path) →
          sortErrors ((run schedule memory submissions contexts).output number).data errors =
            ((run schedule' memory' [s.serially] contexts).output 0).errors := by
  have hmem := List.mem_of_getElem? hs
  have hcovers : (World.still (s.firstContext contexts)).Covers (initial submissions contexts)
      (run schedule memory submissions contexts) number :=
    covers_still hf hquiet hs hsteady hdebug
  have hone : ∀ plan, (s.plan contexts).1 = .ok (some plan) → ∀ c es,
      Does (s.setting plan) (.still (s.firstContext contexts)) s.room (s.job plan) c es →
      Output.of c (es.filterMap Event.error?) =
        (run schedule' memory' [s.serially] contexts).output 0 := fun plan hp c es h =>
    output_eq_serially schedule' memory' hparse hp (hquiet s hmem) hsteady' hdebug h
  refine ⟨?_, fun plan hp => ⟨fun c es h => ?_, fun errors hperm hfilter => ?_⟩⟩
  · have hresult : (executeAllWith schedule memory submissions contexts).result[number]? =
        some (s.conclude contexts number (run schedule memory submissions contexts)) := by
      simp [executeAllWith, List.getElem?_mapIdx, hs]
    rw [hresult, executeWith, conclude, conclude, plan_serially]
    split
    · rfl
    · rfl
    · next plan hp =>
      obtain ⟨c, hdoes, hout⟩ := exists_does_of_covers hcovers hs hp (hf s hmem)
      rw [hout, State.errors, hone plan hp c _ hdoes]
      rfl
  · exact hone plan hp c es (Does.of_selectionSet (hf s hmem).nested
      ((hf s hmem).root plan.operation.kind) h)
  · obtain ⟨c, hdoes, hout⟩ := exists_does_of_covers hcovers hs hp (hf s hmem)
    have hnamed := named_of_does hparse hp rfl hdoes
    have hsort : sortErrors c.data errors =
        sortErrors c.data ((run schedule memory submissions contexts).errors number) :=
      sortErrors_eq_of_filter_eq (fun e he => hnamed e (hperm.mem_iff.1 he)) hfilter
    rw [← hone plan hp c _ hdoes, hout]
    exact hsort

theorem response_serially_small :
    let s := small (.failing (.ofMessage "no"))
    Document.parse "{a b}" = .ok s.query.document ∧
      s.query.executor.schema.Resolvers Resolver.Quiet ∧
        Steady .rota .start [s, s] ⟨[[]], 0⟩ s ∧ Steady .first () [s.serially] ⟨[[]], 0⟩ s.serially ∧
        (executeAllWith .rota .start [s, s] ⟨[[]], 0⟩).result[1]? =
          some (executeWith .first () s.serially ⟨[[]], 0⟩).result := by
  intro s
  have hquiet : s.query.executor.schema.Resolvers Resolver.Quiet :=
    Executor.resolvers_small fun _ _ => rfl
  have hboth : ∀ s' ∈ [s, s], s' = s := by simp
  have hsteady : Steady .rota .start [s, s] ⟨[[]], 0⟩ s := steady_of_lapse fun _ _ => rfl
  have hsteady' : Steady .first () [s.serially] ⟨[[]], 0⟩ s.serially := steady_of_no_deadline rfl
  have hresponse := response_serially .rota .start .first () ⟨[[]], 0⟩ Document.parse_small
    (rfl : [s, s][1]? = some s) (fun s' hs' => hboth s' hs' ▸ Executor.faithful_small _)
    (fun s' hs' => hboth s' hs' ▸ hquiet) hsteady hsteady' rfl
  exact ⟨Document.parse_small, hquiet, hsteady, hsteady', hresponse.1⟩

end Submission

end GraphQL
