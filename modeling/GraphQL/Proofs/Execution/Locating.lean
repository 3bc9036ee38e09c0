import GraphQL.Proofs.Directives
import GraphQL.Proofs.Execution.Collecting
import GraphQL.Schema.Build

/-!
Where the failure of a directive is located: at the first directive of its node, which need not be
the one that has failed (`Setting.directive_failure_located_iff`).
-/

set_option autoImplicit false

namespace GraphQL.Execution.Setting

section

variable {s : Setting} {site : Site} {node : Selection Literal} {e : FieldError}
  (h : s.directives.includes s.bindings site.context node.directives = .error e)

include h

theorem collectNode_of_error (expand : List (Selection Literal) → Collected → Collected)
    (c : Collected) : s.collectNode site expand node c =
      c.record (e.locate (node.directives.head?.bind (·.location)) site.path) := by
  have hinside (inside : Collected → Collected) : s.whenIncluded site node.directives inside c =
      c.record (e.locate (node.directives.head?.bind (·.location)) site.path) := by
    rw [whenIncluded, h]
  cases node with
  | field | spread | inline =>
    rw [collectNode]
    exact hinside _

/-- No node before or after it takes the error back. -/
theorem mem_errors_collect_of_error (nodes later : List (Selection Literal)) :
    e.locate (node.directives.head?.bind (·.location)) site.path ∈
      (s.collect site (nodes ++ node :: later)).errors := by
  obtain ⟨c, -, hlater⟩ := (s.collects_collect site (nodes ++ node :: later)).exists_of_append
  obtain ⟨d, hnode, hrest⟩ := hlater.exists_of_cons
  refine hrest.errors_prefix.subset ?_
  cases hnode with
  | failed hi hnil =>
    cases hnil
    cases h.symm.trans hi
    exact List.mem_append_right _ (List.mem_singleton_self _)
  | excluded hi | field hi | visited hi | unknown hi | inapplicable hi | expanded hi
  | inlineInapplicable _ hi | inline hi => cases h.symm.trans hi

/-- A node whose directives fail has an error recorded, with the message of the directive that has
failed and the place of the first one: it is located at the former just if that is the first, or has
the same location. -/
theorem directive_failure_located_iff :
    ∃ before d after location, node.directives = before ++ d :: after ∧
      s.directives.FailsAt s.bindings site.context before d e ∧
      node.directives.head?.map (·.location) = some location ∧
      (location = d.location ↔ ∀ first ∈ before.head?, first.location = d.location) ∧
      (∀ expand c, s.collectNode site expand node c = c.record (e.locate location site.path)) ∧
      ∀ nodes later,
        e.locate location site.path ∈ (s.collect site (nodes ++ node :: later)).errors := by
  obtain ⟨before, d, after, hsplit, hfails⟩ := DirectiveChain.includes_eq_error_iff.1 h
  refine ⟨before, d, after, _, hsplit, hfails, ?first, ?iff, collectNode_of_error h,
    mem_errors_collect_of_error h⟩
  case first => cases before <;> simp [hsplit]
  case iff => cases before <;> simp [hsplit]

end

/-- The standard directives, and nothing to select from. -/
def blank : Setting := ⟨.builtin, .empty, [], .standard, 0, .serial⟩

def included : Directive Literal := ⟨"include", [⟨"if", .boolean true⟩], some ⟨1, 4⟩⟩

/-- Its condition is no boolean. -/
def misconditioned : Directive Literal := ⟨"skip", [⟨"if", .int 1⟩], some ⟨1, 22⟩⟩

def conditioned : Selection Literal :=
  .field ⟨none, "a", [], [included, misconditioned], some ⟨1, 2⟩⟩ []

theorem directive_failure_located_iff_misconditioned :
    let site : Site := ⟨"Query", [], .new⟩
    let e : FieldError := .ofMessage "directive @skip requires a Boolean 'if' argument"
    blank.directives.includes blank.bindings site.context conditioned.directives = .error e ∧
      ∃ location ≠ misconditioned.location,
        e.locate location site.path ∈ (blank.collect site [conditioned]).errors := by
  intro site e
  have hfails : blank.directives.includes blank.bindings site.context conditioned.directives =
      .error e := rfl
  obtain ⟨before, d, after, location, hsplit, ⟨-, hfailure⟩, -, hiff, -, hmem⟩ :=
    directive_failure_located_iff hfails
  change [included, misconditioned] = before ++ d :: after at hsplit
  refine ⟨hfails, location, ?_, hmem [] []⟩
  rcases before with _ | ⟨first, _ | ⟨_, before⟩⟩
  · cases hsplit
    cases hfailure
  · cases hsplit
    rw [Ne, hiff]
    exact fun hsame => absurd (hsame included rfl) (by decide)
  · simp at hsplit

/-- The failure of a directive may be located at another one: it is `@skip` that fails here, and
`@include` where the error is. -/
theorem not_directive_failure_located :
    ¬ ∀ (s : Setting) (site : Site) (expand : List (Selection Literal) → Collected → Collected)
      (node : Selection Literal) (c : Collected) (before : List (Directive Literal))
      (d : Directive Literal) (after : List (Directive Literal)) (e : FieldError),
      s.directives.includes s.bindings site.context node.directives = .error e →
      node.directives = before ++ d :: after →
      s.directives.FailsAt s.bindings site.context before d e →
      s.collectNode site expand node c = c.record (e.locate d.location site.path) := by
  intro h
  have hlocated := h blank ⟨"Query", [], .new⟩ (fun _ c => c) conditioned .empty [included]
    misconditioned [] _ rfl rfl ⟨List.forall_mem_singleton.2 rfl, rfl⟩
  have hlocations : [[⟨1, 4⟩]] = [[(⟨1, 22⟩ : Location)]] :=
    congrArg (fun c => c.errors.map Error.locations) hlocated
  exact absurd hlocations (by decide)

end GraphQL.Execution.Setting
