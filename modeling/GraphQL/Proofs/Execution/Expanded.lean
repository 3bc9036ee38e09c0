import GraphQL.Proofs.Execution.Absorption
import GraphQL.Proofs.Execution.Scheduling

/-!
What difference it makes to a response that a fragment is expanded once in a selection set: none but
that errors of collecting are not repeated.

An execution of a document can be followed in the document with all spreads replaced
(`Task.Mirrors.exists_ends`), and in a world that stands still all executions of the latter agree
(`Submission.execution_expanded`).
-/

set_option autoImplicit false

namespace GraphQL

open Json

namespace Execution

/-- Events, and the same in some order, with errors of collecting repeated. -/
def Event.Repeats (es es' : List Event) : Prop :=
  ∃ repeated : List Error, es'.Perm (es ++ repeated.map .collecting) ∧
    ∀ e ∈ repeated, .collecting e ∈ es

namespace Event.Repeats

variable {es es' : List Event}

theorem refl (es : List Event) : Repeats es es := ⟨[], by simp, nofun⟩

theorem of_perm {fs : List Event} (h : Repeats es es') (hp : fs.Perm es) : Repeats fs es' := by
  obtain ⟨repeated, hperm, hmem⟩ := h
  exact ⟨repeated, hperm.trans (hp.symm.append_right _), fun e he => hp.mem_iff.2 (hmem e he)⟩

theorem append {fs fs' : List Event} (h : Repeats es es') (hf : Repeats fs fs') :
    Repeats (es ++ fs) (es' ++ fs') := by
  obtain ⟨repeated, hperm, hmem⟩ := h
  obtain ⟨repeated', hperm', hmem'⟩ := hf
  refine ⟨repeated ++ repeated', ?_, ?_⟩
  · refine (hperm.append hperm').trans ?_
    rw [List.map_append, List.append_assoc, List.append_assoc]
    refine List.Perm.append_left es ?_
    rw [← List.append_assoc, ← List.append_assoc]
    exact List.perm_append_comm.append_right _
  · intro e he
    rcases List.mem_append.1 he with he | he
    · exact List.mem_append_left _ (hmem e he)
    · exact List.mem_append_right _ (hmem' e he)

theorem cons (h : Repeats es es') (ev : Event) : Repeats (ev :: es) (ev :: es') :=
  (refl [ev]).append h

theorem flatten {ls ls' : List (List Event)} (h : List.Forall₂ Repeats ls ls') :
    Repeats ls.flatten ls'.flatten := by
  induction h with
  | nil => exact refl []
  | cons hl _ ih => exact hl.append ih

theorem of_echo {errors errors' : List Error} (h : Echo errors errors') :
    Repeats (errors.map .collecting) (errors'.map .collecting) := by
  obtain ⟨repeated, hperm, hmem⟩ := h.exists_perm
  refine ⟨repeated, ?_, fun e he => List.mem_map_of_mem (hmem e he)⟩
  rw [← List.map_append]
  exact hperm.map _

/-- What is repeated are errors. -/
theorem exists_perm_errors (h : Repeats es es') : ∃ repeated : List Error,
    (es'.filterMap Event.error?).Perm (es.filterMap Event.error? ++ repeated) ∧
      ∀ e ∈ repeated, .collecting e ∈ es := by
  obtain ⟨repeated, hperm, hmem⟩ := h
  refine ⟨repeated, ?_, hmem⟩
  have herrors : (repeated.map Event.collecting).filterMap Event.error? = repeated := by
    rw [List.filterMap_map]
    exact List.filterMap_some
  have hfilter := hperm.filterMap Event.error?
  rwa [List.filterMap_append, herrors] at hfilter

end Event.Repeats

open Event (Repeats)

/-- What the parts of a fork end with, if each of them can be followed. -/
theorem exists_ends_all {w : World} : ∀ {children children' : List Task}
    {outs : List (Completion × List Event)}, children.length = children'.length →
    children.length = outs.length →
    (∀ (i : Nat) t t', children[i]? = some t → children'[i]? = some t' → ∀ c es, Ends w t c es →
      ∃ es', Ends w t' c es' ∧ Repeats es es') →
    (∀ (i : Nat) t d ds, children[i]? = some t → outs[i]? = some (d, ds) → Ends w t d ds) →
    ∃ outs' : List (Completion × List Event), children'.length = outs'.length ∧
      (∀ (i : Nat) t d ds, children'[i]? = some t → outs'[i]? = some (d, ds) → Ends w t d ds) ∧
      outs'.map Prod.fst = outs.map Prod.fst ∧
      List.Forall₂ Repeats (outs.map Prod.snd) (outs'.map Prod.snd)
  | [], [], [], _, _, _, _ => ⟨[], rfl, nofun, rfl, .nil⟩
  | t :: children, t' :: children', (d, ds) :: outs, hl, ho, hfollow, hends => by
    obtain ⟨ds', hds', hrepeats⟩ := hfollow 0 t t' rfl rfl d ds (hends 0 t d ds rfl rfl)
    obtain ⟨outs', hl', hends', hfst, hsnd⟩ := exists_ends_all (Nat.succ.inj hl) (Nat.succ.inj ho)
      (fun i t t' ht ht' => hfollow (i + 1) t t' ht ht')
      (fun i t d ds ht hd => hends (i + 1) t d ds ht hd)
    refine ⟨(d, ds') :: outs', congrArg Nat.succ hl', fun i t d ds ht hd => ?_,
      congrArg (d :: ·) hfst, .cons hrepeats hsnd⟩
    cases i with
    | zero =>
      cases ht
      cases hd
      exact hds'
    | succ i => exact hends' i t d ds ht hd

/-- A task ends as one does that it mirrors, and repeats some of its errors of collecting. -/
theorem Task.Mirrors.exists_ends {w : World} {t t' : Task} (h : Task.Mirrors Echo t t') :
    ∀ {c : Completion} {es : List Event}, Ends w t c es →
      ∃ es', Ends w t' c es' ∧ Repeats es es' := by
  induction h with
  | done d =>
    intro c es hends
    exact ⟨es, hends, .refl es⟩
  | emit e _ ih =>
    intro c es hends
    obtain ⟨rest, rfl, hrest⟩ := hends.of_emit
    obtain ⟨rest', hrest', hrepeats⟩ := ih hrest
    exact ⟨_, .emit e hrest', hrepeats.cons e⟩
  | collecting hecho _ ih =>
    intro c es hends
    obtain ⟨rest, rfl, hrest⟩ := hends.of_emitAll
    obtain ⟨rest', hrest', hrepeats⟩ := ih hrest
    exact ⟨_, hrest'.emitAll _, (Repeats.of_echo hecho).append hrepeats⟩
  | read _ ih =>
    intro c es hends
    obtain ⟨context, hcontext, hnext⟩ := hends.of_read
    obtain ⟨es', hes', hrepeats⟩ := ih context hnext
    exact ⟨es', .read hcontext hes', hrepeats⟩
  | call k stage _ ih =>
    intro c es hends
    cases hends with
    | refused ho hr hnext =>
      obtain ⟨es', hes', hrepeats⟩ := ih _ hnext
      exact ⟨es', .refused ho hr hes', hrepeats⟩
    | called ho ha hr hnext =>
      obtain ⟨es', hes', hrepeats⟩ := ih _ hnext
      exact ⟨_, .called ho ha hr hes', hrepeats.cons _⟩
    | admitted hr hnext =>
      obtain ⟨es', hes', hrepeats⟩ := ih _ hnext
      exact ⟨_, .admitted hr hes', hrepeats.cons _⟩
    | working hr hnext =>
      obtain ⟨es', hes', hrepeats⟩ := ih _ hnext
      exact ⟨es', .working hr hes', hrepeats⟩
    | answered hnext =>
      obtain ⟨es', hes', hrepeats⟩ := ih _ hnext
      exact ⟨es', .answered hes', hrepeats⟩
  | fork strategy hl _ _ ihc ih =>
    intro c es hends
    obtain ⟨outs, merged, rest, ho, hparts, hm, hnext, rfl⟩ := hends.of_fork
    obtain ⟨outs', ho', hparts', hfst, hsnd⟩ := exists_ends_all hl ho
      (fun i t t' ht ht' _ _ => ihc i t t' ht ht') hparts
    obtain ⟨rest', hrest', hrepeats⟩ := ih _ (hfst ▸ hnext)
    exact ⟨_, .fork ho' hparts' (.flatten _) hrest',
      ((Repeats.flatten hsnd).of_perm hm.perm).append hrepeats⟩

theorem perm_of_filter_eq {errors errors' : List Error}
    (h : ∀ path, errors.filter (fun e => e.path = path) = errors'.filter fun e => e.path = path) :
    errors.Perm errors' := by
  classical
  refine List.perm_iff_count.2 fun e => ?_
  have hcount : ∀ l : List Error, (l.filter fun a => a.path = e.path).count e = l.count e :=
    fun l => List.count_filter (decide_eq_true rfl)
  rw [← hcount errors, ← hcount errors', h]

/-- Executions that agree everywhere record the same errors, in some order. -/
theorem Agrees.perm_errors {c c' : Completion} {es es' : List Event}
    (h : Agrees (fun _ => False) [] c c' es es')
    (hes : ∀ e ∈ es.filterMap Event.error?, e.path ≠ none)
    (hes' : ∀ e ∈ es'.filterMap Event.error?, e.path ≠ none) :
    (es.filterMap Event.error?).Perm (es'.filterMap Event.error?) := by
  refine perm_of_filter_eq fun path => ?_
  cases path with
  | some x =>
    rw [← filterMap_errorAt?, ← filterMap_errorAt?]
    exact h.errors x id
  | none =>
    have hnil : ∀ errors : List Error, (∀ e ∈ errors, e.path ≠ none) →
        errors.filter (fun e => e.path = none) = [] := fun errors he =>
      List.filter_eq_nil_iff.2 fun e hmem => by simpa using he e hmem
    rw [hnil _ hes, hnil _ hes']

theorem Does.path_ne_none {s : Setting} {w : World} {room : Nat} {job : Job} {c : Completion}
    {es : List Event} (h : Does s w room job c es) :
    ∀ e ∈ es.filterMap Event.error?, e.path ≠ none := by
  intro e he hnone
  obtain ⟨ev, hev, herror⟩ := List.mem_filterMap.1 he
  obtain ⟨below, hb, -⟩ := h.lies_true ev hev
  rw [Event.path?_of_error? herror, hnone] at hb
  cases hb

end Execution

open Execution

/-- Two responses, of which the second one repeats some errors of the first one. -/
structure Response.Repeats (collected : Error → Prop) (r r' : Response) : Prop where
  data : r'.data = r.data
  extensions : r'.extensions = r.extensions
  mem_errors : ∀ e, e ∈ r'.errors ↔ e ∈ r.errors
  repeated : ∃ repeated, r'.errors.Perm (r.errors ++ repeated) ∧ ∀ e ∈ repeated, collected e

theorem Response.Repeats.refl (collected : Error → Prop) (r : Response) :
    r.Repeats collected r := ⟨rfl, rfl, fun _ => .rfl, [], by simp, nofun⟩

/-- The task of an execution mirrors its task where all spreads are replaced. -/
theorem Executor.mirrors_expanded (executor : Executor) {document d : Document}
    (hd : document.ExpandsTo d) (plan : Plan) {expanded : List (Selection Literal)}
    (h : document.Expands plan.operation.selections expanded) :
    Task.Mirrors Echo (executor.task document plan) (executor.task d
      { plan with operation := { plan.operation with selections := expanded } }) :=
  (Setting.mirrors_of_expandsTo (s := executor.setting document plan.bindings) hd).selectionSet _ _
    plan.rootType executor.rootValue [] _ _ ⟨expanded, h, .refl expanded⟩

namespace Submission

variable {Memory Memory' : Type}

def withDocument (d : Document) (s : Submission) : Submission :=
  { s with query := s.query.withDocument d }

variable (schedule : Schedule Memory) (memory : Memory) (schedule' : Schedule Memory')
  (memory' : Memory') (contexts : ContextStore) {submissions submissions' : List Submission}
  {number number' : Nat} {s : Submission} {d : Document}

theorem plan_withDocument {P : List (Selection Literal) → List (Selection Literal) → Prop}
    (h : Entries.Alike (fun o o' =>
      ∃ nodes, P o.selections nodes ∧ o' = { o with selections := nodes })
      s.query.document.operations d.operations) :
    (∃ plan nodes, (s.plan contexts).1 = .ok (some plan) ∧ P plan.operation.selections nodes ∧
        ((s.withDocument d).plan contexts).1 = .ok (some
          { plan with operation := { plan.operation with selections := nodes } })) ∨
      (∀ plan, (s.plan contexts).1 ≠ .ok (some plan)) ∧
        ((s.withDocument d).plan contexts).1 = (s.plan contexts).1 :=
  PreparedQuery.plan_of_alike h _

theorem conclude_of_plan {plan : Plan} (hp : (s.plan contexts).1 = .ok (some plan))
    (hdebug : s.query.executor.configuration.debug = false) (number : Nat) (last : State) :
    s.conclude contexts number last =
      .ok ⟨some (last.output number).data, (last.output number).errors, []⟩ := by
  rw [conclude, hp]
  simp only [Executor.conclude, hdebug]

theorem result_eq (hs : submissions[number]? = some s) :
    (executeAllWith schedule memory submissions contexts).result[number]? =
      some (s.conclude contexts number (run schedule memory submissions contexts)) := by
  simp [executeAllWith, List.getElem?_mapIdx, hs]

section

variable (hd : s.query.document.ExpandsTo d) (hs : submissions[number]? = some s)
  (hf : ∀ s ∈ submissions, s.query.executor.Faithful)
  (hquiet : ∀ s ∈ submissions, s.query.executor.schema.Resolvers Resolver.Quiet)
  (hsteady : Steady schedule memory submissions contexts s)
  (hs' : submissions'[number']? = some (s.withDocument d))
  (hf' : ∀ s ∈ submissions', s.query.executor.Faithful)
  (hquiet' : ∀ s ∈ submissions', s.query.executor.schema.Resolvers Resolver.Quiet)
  (hsteady' : Steady schedule' memory' submissions' contexts (s.withDocument d))
  (hdebug : s.query.executor.configuration.debug = false)

include hd hs hf hquiet hsteady hs' hf' hquiet' hsteady' hdebug

theorem output_expanded {plan : Plan} {expanded : List (Selection Literal)}
    (hp : (s.plan contexts).1 = .ok (some plan))
    (hexpands : s.query.document.Expands plan.operation.selections expanded)
    (hp' : ((s.withDocument d).plan contexts).1 = .ok (some
      { plan with operation := { plan.operation with selections := expanded } })) :
    ((run schedule' memory' submissions' contexts).output number').data =
        ((run schedule memory submissions contexts).output number).data ∧
      ∃ repeated, ((run schedule' memory' submissions' contexts).output number').errors.Perm
          (((run schedule memory submissions contexts).output number).errors ++ repeated) ∧
        ∀ e ∈ repeated,
          .collecting e ∈ (run schedule memory submissions contexts).events number := by
  have hmem := List.mem_of_getElem? hs
  have hmem' := List.mem_of_getElem? hs'
  obtain ⟨c, hends, hout⟩ := exists_ends_of_covers (covers_still hf hquiet hs hsteady hdebug) hs hp
    (hf s hmem)
  -- The execution is followed in the other document, in the same world.
  obtain ⟨es, hfollowed, hrepeats⟩ :=
    (s.query.executor.mirrors_expanded hd plan hexpands).exists_ends hends
  have hdoes : Does ((s.withDocument d).setting _) (.still (s.firstContext contexts)) s.room
      ((s.withDocument d).job _) c es := Does.of_selectionSet (hf s hmem).nested
    ((hf s hmem).root plan.operation.kind) hfollowed
  -- There it agrees with whatever happens to the other submission.
  obtain ⟨c', hdoes', hout'⟩ := exists_does_of_covers
    (covers_still hf' hquiet' hs' hsteady' hdebug) hs' hp' (hf' _ hmem')
  have hagrees : Agrees (fun _ => False) [] c c' es
    ((run schedule' memory' submissions' contexts).events number') := hdoes.agrees_still hdoes'
  have hdata : c.data = c'.data := Option.some.inj (hagrees.data.whole [] fun _ => id)
  obtain ⟨repeated, hperm, hrepeated⟩ := hrepeats.exists_perm_errors
  have herrors := hagrees.perm_errors hdoes.path_ne_none hdoes'.path_ne_none
  rw [hout, hout']
  refine ⟨hdata.symm, repeated, ?_, hrepeated⟩
  have hsorted : ((Output.of c _).errors ++ repeated).Perm
      ((run schedule memory submissions contexts).errors number ++ repeated) :=
    (sortErrors_perm c.data _).append_right repeated
  have hsorted' := sortErrors_perm c'.data
    ((run schedule' memory' submissions' contexts).errors number')
  exact hsorted'.trans (herrors.symm.trans (hperm.trans hsorted.symm))

theorem conclude_expanded :
    (∀ e, s.conclude contexts number (run schedule memory submissions contexts) = .error e →
      (s.withDocument d).conclude contexts number'
        (run schedule' memory' submissions' contexts) = .error e) ∧
    ∀ r, s.conclude contexts number (run schedule memory submissions contexts) = .ok r →
      ∃ r', (s.withDocument d).conclude contexts number'
          (run schedule' memory' submissions' contexts) = .ok r' ∧
        r.Repeats (fun e => .collecting e ∈
          (run schedule memory submissions contexts).events number) r' := by
  rcases plan_withDocument contexts hd.operations with
    ⟨plan, expanded, hp, hexpands, hp'⟩ | ⟨hnone, hsame⟩
  · obtain ⟨hdata, repeated, hperm, hrepeated⟩ := output_expanded schedule memory schedule' memory'
      contexts hd hs hf hquiet hsteady hs' hf' hquiet' hsteady' hdebug hp hexpands hp'
    have hmem : ∀ e ∈ repeated, e ∈ ((run schedule memory submissions contexts).output
        number).errors := fun e he =>
      mem_sortErrors.2 (List.mem_filterMap.2 ⟨_, hrepeated e he, rfl⟩)
    rw [conclude_of_plan contexts hp hdebug, conclude_of_plan contexts hp' hdebug]
    refine ⟨nofun, fun r hr => ?_⟩
    cases hr
    refine ⟨_, rfl, congrArg some hdata, rfl, fun e => ?_, repeated, hperm, hrepeated⟩
    rw [hperm.mem_iff, List.mem_append]
    exact ⟨fun he => he.elim id (hmem e), .inl⟩
  · have hconclude : (s.withDocument d).conclude contexts number'
        (run schedule' memory' submissions' contexts) =
          s.conclude contexts number (run schedule memory submissions contexts) := by
      rw [conclude, conclude, hsame]
      split
      · rfl
      · rfl
      · next plan hp => exact absurd hp (hnone plan)
    rw [hconclude]
    exact ⟨fun _ => id, fun r hr => ⟨r, hr, .refl _ r⟩⟩

end

/-- A query for both fields of the small schema. A fragment for the first one is spread twice, also
inside of another fragment. -/
def spreading (resolver : Resolver) : Submission where
  query := (Executor.small resolver).prepare
    ⟨[("", ⟨none, .query, [], [], [.spread ⟨"Both", [], none⟩, .spread ⟨"One", [], none⟩], none⟩)],
      [("Both", ⟨"Both", "Query", [],
          [.spread ⟨"One", [], none⟩, .field ⟨none, "b", [], [], none⟩ []], none⟩),
        ("One", ⟨"One", "Query", [], [.field ⟨none, "a", [], [], none⟩ []], none⟩)]⟩
  variableValues := []
  context := ⟨0, none⟩
  operationName := none

theorem acyclic_spreading (resolver : Resolver) :
    (spreading resolver).query.document.Acyclic := by
  have hspreads : ∀ a b, (spreading resolver).query.document.Spreads a b →
      a = "Both" ∧ b = "One" := by
    rintro a b ⟨f, hf, hb⟩
    have hmem := Entries.mem_of_get? hf
    simp only [spreading, Executor.prepare, List.mem_cons, Prod.mk.injEq, List.not_mem_nil,
      or_false] at hmem
    rcases hmem with ⟨rfl, rfl⟩ | ⟨rfl, rfl⟩
    · simpa [Selection.spreadsAll, Selection.spreads] using hb
    · simp [Selection.spreadsAll, Selection.spreads] at hb
  intro name hcycle
  obtain ⟨_, hfirst, -⟩ := Relation.TransGen.head'_iff.1 hcycle
  obtain ⟨_, -, hlast⟩ := Relation.TransGen.tail'_iff.1 hcycle
  have hone := (hspreads _ _ hlast).2
  rw [(hspreads _ _ hfirst).1] at hone
  exact absurd hone (by decide)

end Submission

end GraphQL
