import GraphQL.Proofs.Execution.Scheduling
import Mathlib.Data.List.Permutation

/-!
A failure stays where it happens.

Two executions whose resolvers answer alike everywhere but at one path come to the same, except at
the nearest position above that path that takes null, and below that position.
-/

set_option autoImplicit false

namespace GraphQL

open Json Execution

/-- The error is at a path or below it. -/
def Error.isBelow (q : Path) (e : Error) : Bool := e.path.any q.isPrefixOf

theorem Error.isBelow_eq_of_path {q x : Path} {e : Error} (hx : e.path = some x) :
    e.isBelow q = true ↔ q <+: x := by
  rw [isBelow, hx, Option.any_some, List.isPrefixOf_iff_prefix]

/-- Two submissions of one operation with the same variables to executors that are alike, as far as
their executions show in two worlds. Resolvers of the same field are related by `A`. -/
structure Submission.Alike (A : Resolver → Resolver → Prop) (w w' : World)
    (contexts contexts' : ContextStore) (s s' : Submission) : Prop where
  schema : s.query.executor.schema.Alike A s'.query.executor.schema
  document : s.query.document = s'.query.document
  operationName : s.operationName = s'.operationName
  variableValues : (s.query.inputs s.variableValues s.context contexts).1 =
    (s'.query.inputs s'.variableValues s'.context contexts').1
  rootValue : s.query.executor.rootValue = s'.query.executor.rootValue
  recursionLimit : s.query.executor.configuration.recursionLimit =
    s'.query.executor.configuration.recursionLimit
  isExpired : ∀ c c', w.sees c → w'.sees c' → c.isExpired = c'.isExpired
  includes : ∀ c c', w.sees c → w'.sees c' → ∀ bindings,
    s.query.executor.directives.includes bindings c =
      s'.query.executor.directives.includes bindings c'
  transform : ∀ c c', w.sees c → w'.sees c' → ∀ bindings,
    s.query.executor.directives.transform bindings c =
      s'.query.executor.directives.transform bindings c'

theorem Submission.Alike.mono {A B : Resolver → Resolver → Prop} {w w' : World}
    {contexts contexts' : ContextStore} {s s' : Submission}
    (h : Alike A w w' contexts contexts' s s') (hAB : ∀ r r', A r r' → B r r') :
    Alike B w w' contexts contexts' s s' :=
  { h with schema := h.schema.mono hAB }

namespace Submission

variable {Memory Memory' : Type} {schedule : Schedule Memory} {memory : Memory}
  {schedule' : Schedule Memory'} {memory' : Memory'} {submissions submissions' : List Submission}
  {contexts contexts' : ContextStore} {number number' : Nat} {s s' : Submission} {plan plan' : Plan}

theorem Alike.plan_alike {A : Resolver → Resolver → Prop} {w w' : World}
    (h : Alike A w w' contexts contexts' s s') (hp : (s.plan contexts).1 = .ok (some plan))
    (hp' : (s'.plan contexts').1 = .ok (some plan')) :
    plan.operation = plan'.operation ∧ plan.bindings = plan'.bindings ∧
      plan.rootType.Alike A plan'.rootType := by
  have hplan : s.query.plan (s.query.inputs s.variableValues s.context contexts).1
      s.operationName = .ok (some plan) := hp
  have hplan' : s'.query.plan (s'.query.inputs s'.variableValues s'.context contexts').1
      s'.operationName = .ok (some plan') := hp'
  obtain ⟨ho, hr, hb⟩ := PreparedQuery.of_plan hplan
  obtain ⟨ho', hr', hb'⟩ := PreparedQuery.of_plan hplan'
  rw [← h.document, ← h.operationName] at ho'
  have hoperation : plan.operation = plan'.operation :=
    Option.some.inj (Except.ok.inj (ho.symm.trans ho'))
  rw [← hoperation] at hr' hb'
  rw [← h.variableValues, ← Schema.coerceVariables_bare, ← h.schema.bare_eq,
    Schema.coerceVariables_bare] at hb'
  exact ⟨hoperation, Except.ok.inj (hb.symm.trans hb'), h.schema.rootType_alike hr hr'⟩

theorem Alike.setting {Q : Path → Prop}
    (h : Alike (AnswersAlike Q (world schedule memory submissions contexts number)
        (world schedule' memory' submissions' contexts' number'))
      (world schedule memory submissions contexts number)
      (world schedule' memory' submissions' contexts' number') contexts contexts' s s')
    (hs : submissions[number]? = some s) (hs' : submissions'[number']? = some s')
    (hbindings : plan.bindings = plan'.bindings)
    (hdebug : s.query.executor.configuration.debug = false)
    (hdebug' : s'.query.executor.configuration.debug = false) :
    Setting.Alike Q (s.setting plan) (s'.setting plan')
      (world schedule memory submissions contexts number)
      (world schedule' memory' submissions' contexts' number') := by
  refine ⟨h.schema, h.document, hbindings, ?_, ?_, ?_, ?_, ?_⟩
  · intro c c' hc hc'
    change s.query.executor.directives.includes plan.bindings c = _
    rw [h.includes c c' hc hc', hbindings]
    rfl
  · intro c c' hc hc'
    change s.query.executor.directives.transform plan.bindings c = _
    rw [h.transform c c' hc hc', hbindings]
    rfl
  · constructor
    · intro hr
      cases (expired_of_refuses hs hdebug hr).1
    · intro hr
      cases (expired_of_refuses hs' hdebug' hr).1
  · intro ha hr
    obtain ⟨c, hc, hahead⟩ := sees_ahead_of_admits ha
    obtain ⟨-, c', hc', hexpired⟩ := sees_expired_of_refuses hs' hdebug' hr
    cases hahead.symm.trans ((h.isExpired c c' hc hc').trans hexpired)
  · intro hr ha
    obtain ⟨-, c, hc, hexpired⟩ := sees_expired_of_refuses hs hdebug hr
    obtain ⟨c', hc', hahead⟩ := sees_ahead_of_admits ha
    cases hexpired.symm.trans ((h.isExpired c c' hc hc').trans hahead)

end Submission

namespace Submission

theorem alike_small (p : Path) (r r' : Resolver) (hr : r.Quiet) (hr' : r'.Quiet)
    (h : ∀ i c, i.path ≠ p → (r.answer i c).1 = (r'.answer i c).1) :
    Alike (AnswersAlike (· = p) (world .first () [small r] ⟨[[]], 0⟩ 0)
        (world .first () [small r'] ⟨[[]], 0⟩ 0))
      (world .first () [small r] ⟨[[]], 0⟩ 0) (world .first () [small r'] ⟨[[]], 0⟩ 0)
      ⟨[[]], 0⟩ ⟨[[]], 0⟩ (small r) (small r') := by
  have hf : ∀ r, ∀ s ∈ [small r], s.query.executor.Faithful := fun r s hs =>
    List.mem_singleton.1 hs ▸ Executor.faithful_small r
  have hquiet : ∀ {r}, r.Quiet → ∀ s ∈ [small r],
      s.query.executor.schema.Resolvers Resolver.Quiet := fun hr s hs =>
    List.mem_singleton.1 hs ▸ Executor.resolvers_small hr
  have hsees : ∀ {r c}, r.Quiet → (world .first () [small r] ⟨[[]], 0⟩ 0).sees c →
      c = (small r).firstContext ⟨[[]], 0⟩ := fun hr hc =>
    eq_firstContext_of_sees (hf _) (hquiet hr) rfl (steady_of_no_deadline rfl) hc
  refine ⟨⟨rfl, ?_⟩, rfl, rfl, rfl, rfl, rfl, ?_, ?_, ?_⟩
  · intro name type type' ht ht' field d d' r₁ r₂ hd hd' hr₁ hr₂ i a a' hi ha ha'
    obtain rfl := Executor.resolvers_small (P := (· = r)) rfl _ _ ht _ _ _ hd hr₁
    obtain rfl := Executor.resolvers_small (P := (· = r')) rfl _ _ ht' _ _ _ hd' hr₂
    rw [← answer_eq_of_answers (hf _) (hquiet hr) rfl (steady_of_no_deadline rfl) rfl ha,
      ← answer_eq_of_answers (hf _) (hquiet hr') rfl (steady_of_no_deadline rfl) rfl ha']
    exact h i _ hi
  · intro c c' hc hc'
    rw [hsees hr hc, hsees hr' hc']
    rfl
  · intro c c' hc hc' bindings
    rw [hsees hr hc, hsees hr' hc']
    rfl
  · intro c c' hc hc' bindings
    rw [hsees hr hc, hsees hr' hc']
    rfl

end Submission

end GraphQL
