import GraphQL.Execution.Collect
import GraphQL.Proofs.Entries
import Mathlib.Data.Finset.SDiff
import Mathlib.Data.Finset.Card

/-!
Collecting told by rules, without a bound on the expansions of fragments.

A spread is expanded only if its fragment was not visited before, so as many nested expansions as
there are fragments are enough for every document, also where fragments spread themselves
(`Setting.collects_collect`).
-/

set_option autoImplicit false

namespace GraphQL.Execution

/-- What the rules make of selections: one rule for each way in which the first of them can go. -/
inductive Collects (s : Setting) (site : Site) :
    List (Selection Literal) → Collected → Collected → Prop where
  | nil (c : Collected) : Collects s site [] c c
  | excluded {node : Selection Literal} {nodes : List (Selection Literal)} {c d : Collected} :
      s.directives.includes s.bindings site.context node.directives = .ok false →
      Collects s site nodes c d → Collects s site (node :: nodes) c d
  | failed {node : Selection Literal} {nodes : List (Selection Literal)} {c d : Collected}
      {e : FieldError} :
      s.directives.includes s.bindings site.context node.directives = .error e →
      Collects s site nodes
        (c.record (e.locate (node.directives.head?.bind (·.location)) site.path)) d →
      Collects s site (node :: nodes) c d
  | field {head : FieldHead Literal} {selections nodes : List (Selection Literal)}
      {c d : Collected} :
      s.directives.includes s.bindings site.context head.directives = .ok true →
      Collects s site nodes (c.addField ⟨head, selections⟩) d →
      Collects s site (.field head selections :: nodes) c d
  | visited {sp : Spread Literal} {nodes : List (Selection Literal)} {c d : Collected} :
      s.directives.includes s.bindings site.context sp.directives = .ok true →
      sp.fragment ∈ c.visited → Collects s site nodes c d →
      Collects s site (.spread sp :: nodes) c d
  | unknown {sp : Spread Literal} {nodes : List (Selection Literal)} {c d : Collected} :
      s.directives.includes s.bindings site.context sp.directives = .ok true →
      sp.fragment ∉ c.visited → s.document.fragment? sp.fragment = none →
      Collects s site nodes ((c.visit sp.fragment).record
        ⟨"Unknown fragment \"" ++ sp.fragment ++ "\".", sp.location.toList, some site.path, []⟩) d →
      Collects s site (.spread sp :: nodes) c d
  | inapplicable {sp : Spread Literal} {f : Fragment Literal} {nodes : List (Selection Literal)}
      {c d : Collected} :
      s.directives.includes s.bindings site.context sp.directives = .ok true →
      sp.fragment ∉ c.visited → s.document.fragment? sp.fragment = some f →
      s.schema.applies site.objectType f.condition = false →
      Collects s site nodes (c.visit sp.fragment) d → Collects s site (.spread sp :: nodes) c d
  | expanded {sp : Spread Literal} {f : Fragment Literal} {nodes : List (Selection Literal)}
      {c inner d : Collected} :
      s.directives.includes s.bindings site.context sp.directives = .ok true →
      sp.fragment ∉ c.visited → s.document.fragment? sp.fragment = some f →
      s.schema.applies site.objectType f.condition = true →
      Collects s site f.selections (c.visit sp.fragment) inner → Collects s site nodes inner d →
      Collects s site (.spread sp :: nodes) c d
  | inlineInapplicable {head : InlineHead Literal} {nodes : List (Selection Literal)}
      {c d : Collected} (selections : List (Selection Literal)) :
      s.directives.includes s.bindings site.context head.directives = .ok true →
      s.applies site head.condition = false → Collects s site nodes c d →
      Collects s site (.inline head selections :: nodes) c d
  | inline {head : InlineHead Literal} {selections nodes : List (Selection Literal)}
      {c inner d : Collected} :
      s.directives.includes s.bindings site.context head.directives = .ok true →
      s.applies site head.condition = true → Collects s site selections c inner →
      Collects s site nodes inner d → Collects s site (.inline head selections :: nodes) c d

namespace Collects

variable {s : Setting} {site : Site} {nodes : List (Selection Literal)} {c d : Collected}

theorem append {later : List (Selection Literal)} {last : Collected}
    (h : Collects s site nodes c d) (hl : Collects s site later d last) :
    Collects s site (nodes ++ later) c last := by
  induction h with
  | nil => exact hl
  | excluded hi _ ih => exact .excluded hi (ih hl)
  | failed hi _ ih => exact .failed hi (ih hl)
  | field hi _ ih => exact .field hi (ih hl)
  | visited hi hv _ ih => exact .visited hi hv (ih hl)
  | unknown hi hv hf _ ih => exact .unknown hi hv hf (ih hl)
  | inapplicable hi hv hf ha _ ih => exact .inapplicable hi hv hf ha (ih hl)
  | expanded hi hv hf ha hin _ _ ih => exact .expanded hi hv hf ha hin (ih hl)
  | inlineInapplicable selections hi ha _ ih => exact .inlineInapplicable selections hi ha (ih hl)
  | inline hi ha hin _ _ ih => exact .inline hi ha hin (ih hl)

theorem exists_of_cons {node : Selection Literal} (h : Collects s site (node :: nodes) c d) :
    ∃ mid, Collects s site [node] c mid ∧ Collects s site nodes mid d := by
  cases h with
  | excluded hi h => exact ⟨_, .excluded hi (.nil _), h⟩
  | failed hi h => exact ⟨_, .failed hi (.nil _), h⟩
  | field hi h => exact ⟨_, .field hi (.nil _), h⟩
  | visited hi hv h => exact ⟨_, .visited hi hv (.nil _), h⟩
  | unknown hi hv hf h => exact ⟨_, .unknown hi hv hf (.nil _), h⟩
  | inapplicable hi hv hf ha h => exact ⟨_, .inapplicable hi hv hf ha (.nil _), h⟩
  | expanded hi hv hf ha hin h => exact ⟨_, .expanded hi hv hf ha hin (.nil _), h⟩
  | inlineInapplicable selections hi ha h =>
    exact ⟨_, .inlineInapplicable selections hi ha (.nil _), h⟩
  | inline hi ha hin h => exact ⟨_, .inline hi ha hin (.nil _), h⟩

theorem exists_of_append {later : List (Selection Literal)}
    (h : Collects s site (nodes ++ later) c d) :
    ∃ mid, Collects s site nodes c mid ∧ Collects s site later mid d := by
  induction nodes generalizing c with
  | nil => exact ⟨c, .nil c, h⟩
  | cons node nodes ih =>
    obtain ⟨first, hfirst, hrest⟩ := h.exists_of_cons
    obtain ⟨mid, hmid, hlater⟩ := ih hrest
    exact ⟨mid, hfirst.append hmid, hlater⟩

theorem visited_subset (h : Collects s site nodes c d) : c.visited ⊆ d.visited := by
  induction h with
  | nil => exact fun _ => id
  | excluded _ _ ih => exact ih
  | failed _ _ ih => exact ih
  | field _ _ ih => exact ih
  | visited _ _ _ ih => exact ih
  | unknown _ _ _ _ ih => exact List.Subset.trans (List.subset_cons_self _ _) ih
  | inapplicable _ _ _ _ _ ih => exact List.Subset.trans (List.subset_cons_self _ _) ih
  | expanded _ _ _ _ _ _ ihin ih =>
    exact List.Subset.trans (List.subset_cons_self _ _) (List.Subset.trans ihin ih)
  | inlineInapplicable _ _ _ _ ih => exact ih
  | inline _ _ _ _ ihin ih => exact List.Subset.trans ihin ih

theorem errors_prefix (h : Collects s site nodes c d) : c.errors <+: d.errors := by
  induction h with
  | nil => exact List.prefix_rfl
  | excluded _ _ ih => exact ih
  | failed _ _ ih => exact (List.prefix_append _ _).trans ih
  | field _ _ ih => exact ih
  | visited _ _ _ ih => exact ih
  | unknown _ _ _ _ ih => exact (List.prefix_append _ _).trans ih
  | inapplicable _ _ _ _ _ ih => exact ih
  | expanded _ _ _ _ _ _ ihin ih => exact ihin.trans ih
  | inlineInapplicable _ _ _ _ ih => exact ih
  | inline _ _ _ _ ihin ih => exact ihin.trans ih

/-- The errors that are added are those of directives and of unknown fragments. -/
theorem error_cases (h : Collects s site nodes c d) : ∀ e ∈ d.errors, e ∈ c.errors ∨
    (∃ (fe : FieldError) (directives : List (Directive Literal)) (location : Option Location),
      s.directives.includes s.bindings site.context directives = .error fe ∧
        e = fe.locate location site.path) ∨
    ∃ sp : Spread Literal, e =
      ⟨"Unknown fragment \"" ++ sp.fragment ++ "\".", sp.location.toList, some site.path, []⟩ := by
  induction h with
  | nil => exact fun e he => .inl he
  | excluded _ _ ih => exact ih
  | failed hi _ ih =>
    intro e he
    rcases ih e he with he | he
    · rcases List.mem_append.1 he with he | he
      · exact .inl he
      · exact .inr (.inl ⟨_, _, _, hi, List.mem_singleton.1 he⟩)
    · exact .inr he
  | field _ _ ih => exact ih
  | visited _ _ _ ih => exact ih
  | unknown _ _ _ _ ih =>
    intro e he
    rcases ih e he with he | he
    · rcases List.mem_append.1 he with he | he
      · exact .inl he
      · exact .inr (.inr ⟨_, List.mem_singleton.1 he⟩)
    · exact .inr he
  | inapplicable _ _ _ _ _ ih => exact ih
  | expanded _ _ _ _ _ _ ihin ih => exact fun e he => (ih e he).elim (ihin e) .inr
  | inlineInapplicable _ _ _ _ ih => exact ih
  | inline _ _ _ _ ihin ih => exact fun e he => (ih e he).elim (ihin e) .inr

end Collects

/-- How many fragments have not been visited. -/
def Setting.unvisited (s : Setting) (c : Collected) : Nat :=
  ((Entries.keys s.document.fragments).toFinset \ c.visited.toFinset).card

namespace Setting

variable {s : Setting} {site : Site}

theorem unvisited_mono {c d : Collected} (h : c.visited ⊆ d.visited) :
    s.unvisited d ≤ s.unvisited c :=
  Finset.card_le_card (Finset.sdiff_subset_sdiff (Finset.Subset.refl _) fun _ hc =>
    List.mem_toFinset.2 (h (List.mem_toFinset.1 hc)))

theorem unvisited_visit_lt {c : Collected} {name : String} {f : Fragment Literal}
    (hf : s.document.fragment? name = some f) (hv : name ∉ c.visited) :
    s.unvisited (c.visit name) < s.unvisited c := by
  have hmem : name ∈ Entries.keys s.document.fragments :=
    List.mem_map.2 ⟨_, Entries.mem_of_get? hf, rfl⟩
  unfold unvisited Collected.visit
  rw [List.toFinset_cons, Finset.sdiff_insert]
  refine Finset.card_erase_lt_of_mem (Finset.mem_sdiff.2 ⟨?_, ?_⟩)
  · exact List.mem_toFinset.2 hmem
  · exact fun h => hv (List.mem_toFinset.1 h)

theorem collects_whenIncluded {node : Selection Literal} {inside : Collected → Collected}
    {c : Collected}
    (h : s.directives.includes s.bindings site.context node.directives = .ok true →
      Collects s site [node] c (inside c)) :
    Collects s site [node] c (s.whenIncluded site node.directives inside c) := by
  unfold whenIncluded
  split
  · next hi => exact h hi
  · next hi => exact .excluded hi (.nil c)
  · next hi => exact .failed hi (.nil _)

variable {n : Nat} {expand : List (Selection Literal) → Collected → Collected}

theorem collects_spread
    (he : ∀ selections c, s.unvisited c < n → Collects s site selections c (expand selections c))
    {sp : Spread Literal} {c : Collected}
    (hi : s.directives.includes s.bindings site.context sp.directives = .ok true)
    (hc : s.unvisited c ≤ n) : Collects s site [.spread sp] c (s.spread site expand sp c) := by
  unfold spread
  split
  · next hv => exact .visited hi hv (.nil c)
  · next hv =>
    simp only
    split
    · next hf => exact .unknown hi hv hf (.nil _)
    · next f hf =>
      split
      · next ha =>
        have hlt := Nat.lt_of_lt_of_le (unvisited_visit_lt hf hv) hc
        exact .expanded hi hv hf ha (he _ _ hlt) (.nil _)
      · next ha => exact .inapplicable hi hv hf (by simpa using ha) (.nil _)

mutual

theorem collects_collectNode
    (he : ∀ selections c, s.unvisited c < n → Collects s site selections c (expand selections c)) :
    ∀ (node : Selection Literal) (c : Collected), s.unvisited c ≤ n →
      Collects s site [node] c (s.collectNode site expand node c)
  | .field head selections, c, _ => by
    rw [collectNode]
    exact collects_whenIncluded fun hi => .field hi (.nil _)
  | .spread sp, c, hc => by
    rw [collectNode]
    exact collects_whenIncluded fun hi => collects_spread he hi hc
  | .inline head selections, c, hc => by
    rw [collectNode]
    refine collects_whenIncluded fun hi => ?_
    split
    · next ha => exact .inline hi ha (collects_collectNodes he selections c hc) (.nil _)
    · next ha => exact .inlineInapplicable selections hi (by simpa using ha) (.nil c)

theorem collects_collectNodes
    (he : ∀ selections c, s.unvisited c < n → Collects s site selections c (expand selections c)) :
    ∀ (nodes : List (Selection Literal)) (c : Collected), s.unvisited c ≤ n →
      Collects s site nodes c (s.collectNodes site expand nodes c)
  | [], c, _ => by
    rw [collectNodes]
    exact .nil c
  | node :: nodes, c, hc => by
    rw [collectNodes]
    have hnode := collects_collectNode he node c hc
    exact hnode.append (collects_collectNodes he nodes _
      (Nat.le_trans (unvisited_mono hnode.visited_subset) hc))

end

theorem collects_collectWithin : ∀ (n : Nat) (selections : List (Selection Literal))
    (c : Collected), s.unvisited c ≤ n →
      Collects s site selections c (s.collectWithin site n selections c)
  | 0 => collects_collectNodes fun _ _ h => absurd h (Nat.not_lt_zero _)
  | n + 1 => collects_collectNodes fun selections c h =>
      collects_collectWithin n selections c (Nat.le_of_lt_succ h)

/-- Collecting never runs out of expansions. -/
theorem collects_collect (s : Setting) (site : Site) (selections : List (Selection Literal)) :
    Collects s site selections .empty (s.collect site selections) := by
  refine collects_collectWithin _ selections .empty ?_
  refine (Finset.card_le_card Finset.sdiff_subset).trans ?_
  have hlength : (Entries.keys s.document.fragments).length = s.document.fragments.length :=
    List.length_map _
  exact hlength ▸ List.toFinset_card_le _

end Setting

end GraphQL.Execution
