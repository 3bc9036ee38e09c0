import GraphQL.Proofs.Execution.Composition
import GraphQL.Proofs.Execution.Safety

/-!
Limits on what the tasks of a response may do.

A limit says which positions may be completed with how many levels of selection sets left, and which
events may happen there. What a selection set does keeps within any limit that its parts keep to
(`Setting.Limit.safe_selectionSet`).
-/

set_option autoImplicit false

namespace GraphQL.Execution

open Json

namespace Setting

/-- Which positions may be completed with how many levels left, and which events may happen there,
as far as objects have types of a kind. -/
structure Limit (s : Setting) (w : World) (T : ObjectType → Prop) (At : Nat → Path → Prop)
    (Q : Event → Prop) : Prop where
  type : ∀ {name type}, s.schema.type? name = some (.object type) → T type
  key : ∀ {room path} (key : String), At (room + 1) path → At room (path.join (.key key))
  index : ∀ {room path} (i : Nat), At room path → At room (path.join (.index i))
  reached : ∀ {room path} (t : Option TypeRef), At room path → Q (.reached path t)
  produced : ∀ {room path} (value : Value), At room path → Q (.produced path value)
  collecting : ∀ {room path} (type : ObjectType) {context : Context}
    {selections : List (Selection Literal)} {e : Error}, At (room + 1) path → w.sees context →
    e ∈ (s.collect ⟨type.name, path, context⟩ selections).errors → Q (.collecting e)
  failed : ∀ {room path e endless}, At room path → s.Fails w room path e →
    (endless = true → s.CoercesEndlessly) → Q (.failed e endless)
  invoked : ∀ {room path type} {site : FieldSite} {d : FieldDefinition} {resolver : Resolver}
    {arguments : Entries Value} (parent : Value), At room path → T type →
    site.parentType = type.name → Entries.get? site.first.name type.fields = some d →
    d.coerceArguments s.schema s.bindings site.first.arguments = .ok arguments →
    d.resolver = some resolver →
    Q (.invoked ⟨parent, arguments, path, site.first.name, site.parentType⟩)

open GraphQL.Execution.Task (Safe)

variable {s : Setting} {w : World} {S : Strategy → Prop} {T : ObjectType → Prop}
  {At : Nat → Path → Prop} {Q : Event → Prop}

theorem Limit.safe_of_composed (h : s.Limit w T At Q) {layer : Layer} {room : Nat} {path : Path}
    {t : Task} (ht : Composed s w S T True layer room path t) (hp : At room path) :
    Safe w Q t := by
  induction ht with
  | done => exact .done _
  | fail he => exact .emit (h.failed hp he nofun) (.done _)
  | giveUp _ he hendless => exact .emit (h.failed hp he hendless) (.done _)
  | reached _ _ ih => exact .emit (h.reached _ hp) (ih hp)
  | produced _ _ ih => exact .emit (h.produced _ hp) (ih hp)
  | read _ ih => exact .read fun context hc => ih context hc hp
  | call ht hsite hd ha hr hskipped _ _ iht ihr =>
    refine .call _ (by simp) (h.invoked _ hp ht hsite hd ha hr) (fun r hrefused => ?_)
      fun r hanswer => ihr r hanswer hp
    cases r with
    | skipped =>
      obtain ⟨c, hc⟩ := hskipped
      rw [hc]
      exact .done c
    | timedOut => exact iht hp
    | resolved r => exact absurd hrefused (w.not_refuses_resolved r)
  | settle site refusesNull _ ih =>
    refine (ih hp).bind fun c => ?_
    split
    · split
      · exact .emit (h.failed hp (.plain site _ _) nofun) (.done _)
      · exact .done _
    · exact .done _
  | unmarked _ _ ih => exact ih hp
  | items _ _ ih =>
    refine .fork _ (fun t ht => ?_) fun cs => .done _
    obtain ⟨i, hi⟩ := List.mem_iff_getElem?.1 ht
    exact ih i t hi (h.index i hp)
  | object type selections _ _ ih =>
    refine .read fun context hc => .emitAll (.fork _ (fun t ht => ?_) fun cs => .done _)
      fun ev hev => ?_
    · obtain ⟨group, -, rfl⟩ := List.mem_map.1 ht
      exact ih group.1 group.2 (h.key group.1 hp)
    · obtain ⟨e, he, rfl⟩ := List.mem_map.1 hev
      exact h.collecting type hp hc he

/-- The task of a selection set keeps within a limit. -/
theorem Limit.safe_selectionSet (h : s.Limit w T At Q) {room : Nat} {strategy : Strategy}
    {type : ObjectType} {value : Value} {selections : List (Selection Literal)} {path : Path}
    (ht : T type) (hp : At room path) :
    Safe w Q (s.selectionSet room strategy type value selections path) :=
  have hcomposed : Composed s w (fun _ => True) T True .value room path
      (s.selectionSet room strategy type value selections path) :=
    composed_selectionSet h.type (fun _ _ => .inl trivial) trivial trivial ht
  h.safe_of_composed hcomposed hp

end Setting

end GraphQL.Execution
