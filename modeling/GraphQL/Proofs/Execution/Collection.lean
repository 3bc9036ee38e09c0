import GraphQL.Execution.Collect
import GraphQL.Proofs.Document.Keys
import GraphQL.Proofs.Entries

/-!
What collecting the fields of a selection set can leave.

Collecting adds fields, records errors and visits fragments, so what these three keep holds of all
that is collected (`Setting.collect_induction`). What is collected depends on the directives and
fragments that apply, and on nothing else (`Setting.CollectsAlike.collect_eq`). Response keys are
collected once, each with at least one field, and they are keys of the document
(`Setting.collect_tidy`).
-/

set_option autoImplicit false

namespace GraphQL

namespace Execution

/-- A property that adding fields, recording errors and visiting fragments keep. -/
structure Collected.Kept (K : String → Prop) (path : Path) (I : Collected → Prop) : Prop where
  addField : ∀ {f c}, f.Keys K → I c → I (c.addField f)
  record : ∀ {e c}, e.path = some path → I c → I (c.record e)
  visit : ∀ {name c}, I c → I (c.visit name)

namespace Setting

variable {s : Setting} {site : Site} {K : String → Prop} {I : Collected → Prop}
  {expand : List (Selection Literal) → Collected → Collected}

theorem whenIncluded_induction (h : Collected.Kept K site.path I)
    {directives : List (Directive Literal)} {inside : Collected → Collected}
    (hi : ∀ c, I c → I (inside c)) {c : Collected} (hc : I c) :
    I (s.whenIncluded site directives inside c) := by
  unfold whenIncluded
  split
  · exact hi c hc
  · exact hc
  · exact h.record rfl hc

theorem spread_induction (h : Collected.Kept K site.path I) (hd : s.document.FragmentKeys K)
    (he : ∀ selections c, Selection.AllKeys K selections → I c → I (expand selections c))
    (sp : Spread Literal) {c : Collected} (hc : I c) : I (s.spread site expand sp c) := by
  unfold spread
  split
  · exact hc
  · split
    · exact h.record rfl (h.visit hc)
    · next f hf =>
      split
      · exact he _ _ (hd _ f hf) (h.visit hc)
      · exact h.visit hc

mutual

theorem collectNode_induction (h : Collected.Kept K site.path I)
    (hd : s.document.FragmentKeys K)
    (he : ∀ selections c, Selection.AllKeys K selections → I c → I (expand selections c)) :
    ∀ (node : Selection Literal) (c : Collected), node.Keys K → I c →
      I (s.collectNode site expand node c)
  | .field head selections, c, hk, hc => by
    rw [collectNode]
    exact whenIncluded_induction h (fun c hc => h.addField (f := ⟨head, selections⟩) hk hc) hc
  | .spread sp, c, _, hc => by
    rw [collectNode]
    exact whenIncluded_induction h (fun c hc => spread_induction h hd he sp hc) hc
  | .inline head selections, c, hk, hc => by
    rw [collectNode]
    refine whenIncluded_induction h (fun c hc => ?_) hc
    split
    · exact collectNodes_induction h hd he selections c hk hc
    · exact hc

theorem collectNodes_induction (h : Collected.Kept K site.path I)
    (hd : s.document.FragmentKeys K)
    (he : ∀ selections c, Selection.AllKeys K selections → I c → I (expand selections c)) :
    ∀ (nodes : List (Selection Literal)) (c : Collected), Selection.AllKeys K nodes → I c →
      I (s.collectNodes site expand nodes c)
  | [], c, _, hc => by
    rw [collectNodes]
    exact hc
  | node :: nodes, c, hk, hc => by
    rw [collectNodes]
    exact collectNodes_induction h hd he nodes _ hk.2
      (collectNode_induction h hd he node c hk.1 hc)

end

theorem collectWithin_induction (h : Collected.Kept K site.path I)
    (hd : s.document.FragmentKeys K) : ∀ (expansions : Nat)
      (selections : List (Selection Literal)) (c : Collected), Selection.AllKeys K selections →
      I c → I (s.collectWithin site expansions selections c)
  | 0 => collectNodes_induction h hd fun _ _ _ hc => hc
  | expansions + 1 => collectNodes_induction h hd (collectWithin_induction h hd expansions)

/-- What holds at the beginning, and is kept, holds of all that is collected. -/
theorem collect_induction (h : Collected.Kept K site.path I) (hd : s.document.FragmentKeys K)
    (hempty : I .empty) {selections : List (Selection Literal)}
    (hk : Selection.AllKeys K selections) : I (s.collect site selections) :=
  collectWithin_induction h hd _ selections _ hk hempty

/-- Two selection sets are collected alike: at the same place, with the same directives, and with
the same fragments, which apply alike. -/
structure CollectsAlike (s s' : Setting) (site site' : Site) : Prop where
  document : s.document = s'.document
  includes : ∀ directives, s.directives.includes s.bindings site.context directives =
    s'.directives.includes s'.bindings site'.context directives
  applies : ∀ condition, s.schema.applies site.objectType condition =
    s'.schema.applies site'.objectType condition
  path : site.path = site'.path

namespace CollectsAlike

variable {s' : Setting} {site' : Site}

theorem whenIncluded_eq (h : CollectsAlike s s' site site') :
    s.whenIncluded site = s'.whenIncluded site' := by
  funext directives inside c
  rw [whenIncluded, whenIncluded, h.includes, h.path]

theorem spread_eq (h : CollectsAlike s s' site site') :
    s.spread site expand = s'.spread site' expand := by
  funext sp c
  simp only [spread, h.document, h.applies, h.path]

mutual

theorem collectNode_eq (h : CollectsAlike s s' site site') : ∀ node : Selection Literal,
    s.collectNode site expand node = s'.collectNode site' expand node
  | .field head selections => by
    funext c
    rw [collectNode, collectNode, h.whenIncluded_eq]
  | .spread sp => by
    funext c
    rw [collectNode, collectNode, h.whenIncluded_eq, h.spread_eq]
  | .inline head selections => by
    have happlies : s.applies site head.condition = s'.applies site' head.condition :=
      congrArg (fun f => head.condition.all f) (funext h.applies)
    funext c
    rw [collectNode, collectNode, h.whenIncluded_eq, happlies, h.collectNodes_eq selections]

theorem collectNodes_eq (h : CollectsAlike s s' site site') :
    ∀ nodes : List (Selection Literal),
      s.collectNodes site expand nodes = s'.collectNodes site' expand nodes
  | [] => by
    funext c
    rw [collectNodes, collectNodes]
  | node :: nodes => by
    funext c
    rw [collectNodes, collectNodes, h.collectNode_eq node, h.collectNodes_eq nodes]

end

theorem collectWithin_eq (h : CollectsAlike s s' site site') (expansions : Nat) :
    s.collectWithin site expansions = s'.collectWithin site' expansions := by
  induction expansions with
  | zero => exact funext h.collectNodes_eq
  | succ expansions ih =>
    rw [collectWithin, collectWithin, ih]
    exact funext h.collectNodes_eq

theorem collect_eq (h : CollectsAlike s s' site site') (selections : List (Selection Literal)) :
    s.collect site selections = s'.collect site' selections := by
  rw [collect, collect, h.document, h.collectWithin_eq]

end CollectsAlike

end Setting

/-- Keys stand once, each with fields of its own, and errors lie at the site. -/
structure Collected.Tidy (K : String → Prop) (path : Path) (c : Collected) : Prop where
  nodup : (Entries.keys c.groups).Nodup
  groups : ∀ key fields, (key, fields) ∈ c.groups → fields ≠ [] ∧ K key ∧ ∀ f ∈ fields, f.Keys K
  errors : ∀ e ∈ c.errors, e.path = some path

namespace Collected.Tidy

variable {K : String → Prop} {path : Path} {c : Collected}

theorem addField (h : c.Tidy K path) {f : Field Literal} (hf : f.Keys K) :
    (c.addField f).Tidy K path where
  nodup := Entries.nodup_keys_insert _ _ h.nodup
  groups key fields hmem := by
    rcases Entries.mem_insert hmem with heq | hmem
    · cases heq
      refine ⟨by simp, hf.1, fun g hg => ?_⟩
      rcases List.mem_append.1 hg with hg | hg
      · cases hget : Entries.get? f.head.responseKey c.groups with
        | none => simp [hget] at hg
        | some fields =>
          rw [hget, Option.getD_some] at hg
          exact (h.groups _ fields (Entries.mem_of_get? hget)).2.2 g hg
      · rw [List.mem_singleton.1 hg]
        exact hf
    · exact h.groups key fields hmem
  errors := h.errors

theorem record (h : c.Tidy K path) {e : Error} (he : e.path = some path) :
    (c.record e).Tidy K path where
  nodup := h.nodup
  groups := h.groups
  errors e' hmem := by
    rcases List.mem_append.1 hmem with hmem | hmem
    · exact h.errors e' hmem
    · rw [List.mem_singleton.1 hmem]
      exact he

end Collected.Tidy

theorem Setting.collect_tidy {s : Setting} {K : String → Prop} (hd : s.document.FragmentKeys K)
    (site : Site) {selections : List (Selection Literal)} (hk : Selection.AllKeys K selections) :
    (s.collect site selections).Tidy K site.path :=
  collect_induction (I := Collected.Tidy K site.path)
    { addField := fun hf hc => hc.addField hf
      record := fun he hc => hc.record he
      visit := fun hc => ⟨hc.nodup, hc.groups, hc.errors⟩ }
    hd ⟨.nil, nofun, nofun⟩ hk

theorem Setting.collect_tidy_true (s : Setting) (site : Site)
    (selections : List (Selection Literal)) :
    (s.collect site selections).Tidy (fun _ => True) site.path :=
  collect_tidy (fun _ f _ => Selection.allKeys_of_forall (fun _ => trivial) f.selections) site
    (Selection.allKeys_of_forall (fun _ => trivial) selections)

end Execution

end GraphQL
