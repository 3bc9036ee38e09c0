import GraphQL.Executor
import GraphQL.Proofs.Execution.NullPropagation

/-!
Nulls that propagate come after an error, whichever completions the strategies hand back.
-/

set_option autoImplicit false

namespace GraphQL

open Json Execution

/-- Hands back no completions but those of the siblings. -/
def Execution.Strategy.Honest (s : Strategy) : Prop := ∀ cs, ∀ c ∈ s.keep cs, c ∈ cs

namespace Execution

/-- Propagates only after an error. -/
def Task.Explains (w : World) (t : Task) : Prop := ∀ es, Ends w t .propagate es → HasError es

namespace Task.Explains

variable {w : World}

theorem value (v : Value) : Explains w (.done (.value v)) := by
  intro es h
  cases h.of_done.1

theorem emit (e : Event) {next : Task} (h : Explains w next) : Explains w (.emit e next) := by
  intro es hends
  obtain ⟨rest, rfl, hrest⟩ := hends.of_emit
  exact (h rest hrest).mono fun ev hev => List.mem_cons_of_mem _ hev

theorem failed (e : Error) {endless : Bool} (next : Task) :
    Explains w (.emit (.failed e endless) next) := by
  intro es hends
  obtain ⟨rest, rfl, -⟩ := hends.of_emit
  exact ⟨_, List.mem_cons_self, rfl⟩

theorem emitAll (events : List Event) {next : Task} (h : Explains w next) :
    Explains w (Task.emitAll events next) := by
  intro es hends
  obtain ⟨rest, rfl, hrest⟩ := hends.of_emitAll
  exact (h rest hrest).mono fun ev hev => List.mem_append_right _ hev

theorem read {next : Context → Task} (h : ∀ context, Explains w (next context)) :
    Explains w (.read next) := by
  intro es hends
  obtain ⟨context, -, hrest⟩ := hends.of_read
  exact h context es hrest

/-- A call that is not skipped. -/
theorem call (hw : ¬ w.refuses .skipped) {k : Call} {next : Reply → Task}
    (h : ∀ r, r ≠ .skipped → Explains w (next r)) : Explains w (.call k .fresh next) := by
  intro es hends
  obtain ⟨r, hr, hrest⟩ | ⟨r, rest, -, -, rfl, hrest⟩ := hends.of_call trivial
  · exact h r (fun hs => hw (hs ▸ hr)) es hrest
  · exact (h (.resolved r) nofun rest hrest).mono fun ev hev => List.mem_cons_of_mem _ hev

theorem bind {f : Completion → Task} {t : Task} (ht : Explains w t)
    (hf : ∀ v, Explains w (f (.value v))) : Explains w (t.bind f) := by
  intro es hends
  obtain ⟨d, front, back, hfront, hback, rfl⟩ := hends.of_bind
  cases d with
  | propagate => exact (ht front hfront).mono fun ev hev => List.mem_append_left _ hev
  | value v => exact (hf v back hback).mono fun ev hev => List.mem_append_right _ hev

theorem fork {s : Strategy} (hs : s.Honest) {children : List Task} {next : List Completion → Task}
    (hchildren : ∀ t ∈ children, Explains w t)
    (hnext : ∀ cs, .propagate ∉ cs → Explains w (next cs)) :
    Explains w (.fork s children next) := by
  intro es hends
  obtain ⟨outs, merged, rest, hlength, hparts, hmerged, hrest, rfl⟩ := hends.of_fork
  by_cases hpropagate : .propagate ∈ s.keep (outs.map Prod.fst)
  · obtain ⟨⟨d, ds⟩, hout, rfl⟩ := List.mem_map.1 (hs _ _ hpropagate)
    obtain ⟨i, hi⟩ := List.mem_iff_getElem?.1 hout
    obtain ⟨t, ht⟩ : ∃ t, children[i]? = some t := by
      have hlt : i < outs.length := (List.getElem?_eq_some_iff.1 hi).1
      exact ⟨_, List.getElem?_eq_getElem (hlength ▸ hlt)⟩
    have herror := hchildren t (List.mem_of_getElem? ht) ds (hparts i t _ ds ht hi)
    exact herror.mono fun ev hev => List.mem_append_left _
      (hmerged.mem_iff.2 ⟨ds, List.mem_map.2 ⟨_, hout, rfl⟩, hev⟩)
  · exact (hnext _ hpropagate rest hrest).mono fun ev hev => List.mem_append_right _ hev

end Task.Explains

theorem Task.Explains.array {w : World} {cs : List Completion} (h : .propagate ∉ cs) :
    Explains w (.done (.array cs)) := by
  unfold Completion.array
  split
  · exact value _
  · next hnone => exact absurd (Completion.values?_eq_none_iff.1 hnone) h

theorem Task.Explains.object {w : World} (keys : List String) {cs : List Completion}
    (h : .propagate ∉ cs) : Explains w (.done (.object keys cs)) := by
  unfold Completion.object
  split
  · exact value _
  · next hnone =>
    exact absurd (List.mem_of_mem_take (Completion.values?_eq_none_iff.1 hnone)) h

namespace Setting

variable {s : Setting} {w : World} {object : ObjectTask}

theorem explains_settle (site : FieldSite) (refusesNull : Bool) (path : Path) {t : Task}
    (h : t.Explains w) : (site.settle refusesNull path t).Explains w := by
  refine .bind h fun v => ?_
  split
  · split
    · exact .failed _ _
    · exact .value v
  · exact .value v

theorem explains_completeLeaf (site : FieldSite) (type : TypeRef) (value : Value) (path : Path) :
    (s.completeLeaf site type value path).Explains w := by
  unfold completeLeaf
  split
  · exact .value _
  · exact .failed _ _

section

variable (hnested : s.nested.Honest)
  (hobject : ∀ type value selections path, (object type value selections path).Explains w)

include hobject

theorem explains_completeNamed (site : FieldSite) (name : String) (value : Value) (path : Path) :
    (s.completeNamed object site name value path).Explains w := by
  have habstract : (completeNamed.abstract s object site name value path).Explains w := by
    unfold completeNamed.abstract
    split
    · exact hobject _ _ _ _
    · exact .failed _ _
  unfold completeNamed
  split
  · exact explains_completeLeaf site _ value path
  · exact explains_completeLeaf site _ value path
  · exact hobject _ _ _ _
  · exact habstract
  · exact habstract
  · exact .failed _ _

include hnested

theorem explains_complete (site : FieldSite) : ∀ (type : TypeRef) (refusesNull : Bool)
    (value : Value) (path : Path),
    (s.complete object site refusesNull type value path).Explains w := by
  have hif : ∀ {b : Bool} {t : Task}, t.Explains w →
      Task.Explains w (if b then .done (.value .null) else t) := by
    intro b t ht
    split
    · exact .value _
    · exact ht
  intro type
  induction type with
  | nonNull inner ih =>
    intro refusesNull value path
    cases refusesNull with
    | false =>
      rw [complete]
      exact ih true value path
    | true =>
      rw [complete]
      exact explains_settle site true path (hif (ih false value path))
  | list inner ih =>
    intro refusesNull value path
    cases value with
    | null =>
      rw [complete]
      exact explains_settle site refusesNull path (.value _)
    | array items =>
      rw [complete]
      refine explains_settle site refusesNull path (.fork hnested (fun t ht => ?_) fun _ => .array)
      obtain ⟨i, item, hi, rfl⟩ := List.mem_mapIdx.1 ht
      exact .emit _ (.emit _ (ih false _ _))
    | _ =>
      rw [complete]
      · exact explains_settle site refusesNull path (.failed _ _)
      all_goals simp
  | named name =>
    intro refusesNull value path
    rw [complete]
    exact explains_settle site refusesNull path
      (hif (explains_completeNamed hobject site name value path))
  | _ =>
    intro refusesNull value path
    rw [complete]
    · exact explains_settle site refusesNull path (hif (explains_completeLeaf site _ value path))
    all_goals simp

theorem explains_afterResolution (site : FieldSite) (type : TypeRef) (giveUp : Task) (path : Path)
    (resolved : Except FieldError Value) :
    (s.afterResolution object site type giveUp path resolved).Explains w := by
  refine .read fun context => ?_
  split
  · exact .emit _ (explains_complete hnested hobject site type false _ path)
  · exact .failed _ _

variable (hw : ¬ w.refuses .skipped)

include hw

theorem explains_resolveField (site : FieldSite) (d : FieldDefinition) (parent : Value)
    (path : Path) : (s.resolveField object site d parent path).Explains w := by
  unfold resolveField
  dsimp only
  split
  · exact .failed _ _
  · split
    · exact explains_afterResolution hnested hobject site _ _ path _
    · refine .call hw fun r hr => ?_
      cases r with
      | skipped => exact absurd rfl hr
      | timedOut => exact .failed _ _
      | resolved r => exact explains_afterResolution hnested hobject site _ _ path _

theorem explains_field (type : ObjectType) (parent : Value) (fields : List (Field Literal))
    (path : Path) : (s.field object type parent fields path).Explains w := by
  unfold field
  split
  · exact .value _
  · dsimp only
    split
    · exact .value _
    · split
      · exact .emit _ (.failed _ _)
      · exact .emit _ (explains_resolveField hnested hobject hw _ _ parent path)

end

/-- Unless calls are skipped, a null at the root of a selection set comes after an error. -/
theorem explains_selectionSet (hnested : s.nested.Honest) (hw : ¬ w.refuses .skipped) :
    ∀ (room : Nat) {strategy : Strategy}, strategy.Honest →
      ∀ (type : ObjectType) (value : Value) (selections : List (Selection Literal)) (path : Path),
        (s.selectionSet room strategy type value selections path).Explains w
  | 0, _, _, _, _, _, _ => .failed _ _
  | room + 1, strategy, hstrategy, type, value, selections, path => by
    refine .read fun context => .emitAll _ (.fork hstrategy (fun t ht => ?_) fun _ => .object _)
    obtain ⟨group, -, rfl⟩ := List.mem_map.1 ht
    exact explains_field hnested (explains_selectionSet hnested hw room hnested) hw type value _ _

/-- The data of an object is never null by itself. -/
theorem ends_selectionSet_ne_null {room : Nat} {strategy : Strategy} {type : ObjectType}
    {value v : Value} {selections : List (Selection Literal)} {path : Path} {es : List Event}
    (h : Ends w (s.selectionSet room strategy type value selections path) (.value v) es) :
    v ≠ .null := by
  cases room with
  | zero =>
    obtain ⟨rest, -, hrest⟩ := h.of_emit
    cases hrest.of_done.1
  | succ room =>
    obtain ⟨context, -, hrest⟩ := Ends.of_read h
    obtain ⟨rest, -, hrest⟩ := Ends.of_emitAll hrest
    obtain ⟨outs, merged, rest, -, -, -, hrest, -⟩ := hrest.of_fork
    have hobject := hrest.of_done.1
    unfold Completion.object at hobject
    split at hobject
    · cases hobject
      exact nofun
    · cases hobject

end Setting

end Execution

end GraphQL
