import GraphQL.Directives
import GraphQL.Proofs.Document.Mapping

/-!
Documents without the nodes that `skip` and `include` exclude.

Pruning deletes the excluded nodes and takes these two directives off all others. Operations and
fragments are found under the same names as before (`Document.select_prune`,
`Document.fragment?_prune`).
-/

set_option autoImplicit false

namespace GraphQL

open Json

/-- Whether the standard directives decide on the node. -/
def Directive.isConditional (d : Directive Literal) : Bool :=
  d.name == "skip" || d.name == "include"

def Directive.unconditional (directives : List (Directive Literal)) : List (Directive Literal) :=
  directives.filter (!·.isConditional)

namespace DirectiveChain

theorem handler_standard (d : Directive Literal) : standard.handler d =
    if d.name = "skip" then .skip else if d.name = "include" then .only else .neutral := by
  simp only [handler, standard, empty, register, Entries.insert, Entries.get?,
    String.reduceEq, if_false, eq_comm (b := d.name)]
  split
  · rfl
  · split <;> rfl

/-- The standard directives look at no context. -/
theorem includes_standard (bindings : Entries Value) (context context' : Context)
    (directives : List (Directive Literal)) :
    standard.includes bindings context directives =
      standard.includes bindings context' directives := by
  induction directives with
  | nil => rfl
  | cons d directives ih =>
    have hd : (standard.handler d).includes (d.evaluateArguments bindings) context =
        (standard.handler d).includes (d.evaluateArguments bindings) context' := by
      rw [handler_standard]
      split
      · rfl
      · split <;> rfl
    rw [includes, includes, hd, ih]

theorem handler_standard_of_not_conditional {d : Directive Literal}
    (h : d.isConditional = false) : standard.handler d = .neutral := by
  rw [Directive.isConditional, Bool.or_eq_false_iff, beq_eq_false_iff_ne, beq_eq_false_iff_ne] at h
  rw [handler_standard, if_neg h.1, if_neg h.2]

theorem includes_unconditional (bindings : Entries Value) (context : Context)
    (directives : List (Directive Literal)) :
    standard.includes bindings context (Directive.unconditional directives) = .ok true := by
  have hneutral : ∀ d ∈ Directive.unconditional directives, standard.handler d = .neutral :=
    fun d hd => handler_standard_of_not_conditional (by simpa using (List.mem_filter.1 hd).2)
  generalize Directive.unconditional directives = ds at hneutral ⊢
  induction ds with
  | nil => rfl
  | cons d ds ih =>
    rw [includes, hneutral d List.mem_cons_self]
    exact ih fun d hd => hneutral d (List.mem_cons_of_mem _ hd)

/-- The standard directives leave values alone. -/
theorem transform_standard (bindings : Entries Value) (context : Context)
    (directives : List (Directive Literal)) (value : Value) :
    standard.transform bindings context directives value = .ok value := by
  induction directives with
  | nil => rfl
  | cons d directives ih =>
    have hd : (standard.handler d).transform (d.evaluateArguments bindings) value context =
        .ok value := by
      rw [handler_standard]
      split
      · rfl
      · split <;> rfl
    rw [transform, hd]
    exact ih

end DirectiveChain

namespace Selection

/-- Whether the directives of the node exclude it. -/
def excluded (bindings : Entries Value) (node : Selection Literal) : Bool :=
  match DirectiveChain.standard.includes bindings .new node.directives with
  | .ok included => !included
  | .error _ => false

mutual

/-- The directives fail neither on the node nor on any inside of it. -/
def Decided (bindings : Entries Value) : Selection Literal → Prop
  | .field head selections =>
    (∃ included, DirectiveChain.standard.includes bindings .new head.directives = .ok included) ∧
      AllDecided bindings selections
  | .spread sp =>
    ∃ included, DirectiveChain.standard.includes bindings .new sp.directives = .ok included
  | .inline head selections =>
    (∃ included, DirectiveChain.standard.includes bindings .new head.directives = .ok included) ∧
      AllDecided bindings selections

def AllDecided (bindings : Entries Value) : List (Selection Literal) → Prop
  | [] => True
  | node :: nodes => node.Decided bindings ∧ AllDecided bindings nodes

end

mutual

/-- The node without its conditions and without the excluded nodes inside of it. -/
def prune (bindings : Entries Value) : Selection Literal → Selection Literal
  | .field head selections =>
    .field { head with directives := Directive.unconditional head.directives }
      (pruneAll bindings selections)
  | .spread sp => .spread { sp with directives := Directive.unconditional sp.directives }
  | .inline head selections =>
    .inline { head with directives := Directive.unconditional head.directives }
      (pruneAll bindings selections)

def pruneAll (bindings : Entries Value) : List (Selection Literal) → List (Selection Literal)
  | [] => []
  | node :: nodes =>
    if node.excluded bindings then pruneAll bindings nodes
    else node.prune bindings :: pruneAll bindings nodes

end

theorem exists_includes {bindings : Entries Value} {node : Selection Literal}
    (h : node.Decided bindings) :
    ∃ included, DirectiveChain.standard.includes bindings .new node.directives = .ok included := by
  cases node with
  | field => exact h.1
  | spread => exact h
  | inline => exact h.1

theorem allDecided_append {bindings : Entries Value} {nodes later : List (Selection Literal)} :
    AllDecided bindings (nodes ++ later) ↔
      AllDecided bindings nodes ∧ AllDecided bindings later := by
  induction nodes with
  | nil => simp [AllDecided]
  | cons node nodes ih => simp [AllDecided, ih, and_assoc]

theorem pruneAll_append (bindings : Entries Value) (nodes later : List (Selection Literal)) :
    pruneAll bindings (nodes ++ later) = pruneAll bindings nodes ++ pruneAll bindings later := by
  induction nodes with
  | nil => rfl
  | cons node nodes ih =>
    rw [List.cons_append, pruneAll, pruneAll, ih]
    split <;> rfl

end Selection

def Field.prune (bindings : Entries Value) (f : Field Literal) : Field Literal :=
  ⟨{ f.head with directives := Directive.unconditional f.head.directives },
    Selection.pruneAll bindings f.selections⟩

def Operation.prune (bindings : Entries Value) (o : Operation Literal) : Operation Literal :=
  { o with selections := Selection.pruneAll bindings o.selections }

def Fragment.prune (bindings : Entries Value) (f : Fragment Literal) : Fragment Literal :=
  { f with selections := Selection.pruneAll bindings f.selections }

namespace Document

/-- The document without the nodes that are excluded under the values of the variables. -/
def prune (bindings : Entries Value) (d : Document) : Document where
  operations := d.operations.map fun (name, o) => (name, o.prune bindings)
  fragments := d.fragments.map fun (name, f) => (name, f.prune bindings)

theorem fragment?_prune (bindings : Entries Value) (d : Document) (name : String) :
    (d.prune bindings).fragment? name = (d.fragment? name).map (·.prune bindings) :=
  d.fragment?_map (·.prune bindings) (·.prune bindings) name

theorem select_prune (bindings : Entries Value) (d : Document) (requested : Option String) :
    (d.prune bindings).select requested =
      (d.select requested).map (Option.map (·.prune bindings)) :=
  d.select_map (·.prune bindings) (·.prune bindings) requested

end Document

end GraphQL
