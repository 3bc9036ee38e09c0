import GraphQL.Document.Definition
import GraphQL.Proofs.Except
import Mathlib.Data.List.Forall2

/-!
Definitions that are alike but for locations, over values of two kinds.

If values are carried over by a function that makes of each the value it is related to, definitions
are carried over to what they are alike, locations aside (`Definition.traverse_of_alike`).
-/

set_option autoImplicit false

namespace GraphQL

section

variable {V W : Type} (Q : V → W → Prop)

structure Argument.Alike (a : Argument V) (b : Argument W) : Prop where
  name : a.name = b.name
  value : Q a.value b.value

structure Directive.Alike (d : Directive V) (e : Directive W) : Prop where
  name : d.name = e.name
  arguments : List.Forall₂ (Argument.Alike Q) d.arguments e.arguments

structure FieldHead.Alike (h : FieldHead V) (k : FieldHead W) : Prop where
  alias? : h.alias? = k.alias?
  name : h.name = k.name
  arguments : List.Forall₂ (Argument.Alike Q) h.arguments k.arguments
  directives : List.Forall₂ (Directive.Alike Q) h.directives k.directives

structure Spread.Alike (s : Spread V) (t : Spread W) : Prop where
  fragment : s.fragment = t.fragment
  directives : List.Forall₂ (Directive.Alike Q) s.directives t.directives

structure InlineHead.Alike (h : InlineHead V) (k : InlineHead W) : Prop where
  condition : h.condition = k.condition
  directives : List.Forall₂ (Directive.Alike Q) h.directives k.directives

inductive Selection.Alike : Selection V → Selection W → Prop where
  | field {h : FieldHead V} {k : FieldHead W} {ss : List (Selection V)} {ts : List (Selection W)} :
      h.Alike Q k → List.Forall₂ Alike ss ts → Alike (.field h ss) (.field k ts)
  | spread {s : Spread V} {t : Spread W} : s.Alike Q t → Alike (.spread s) (.spread t)
  | inline {h : InlineHead V} {k : InlineHead W} {ss : List (Selection V)}
      {ts : List (Selection W)} : h.Alike Q k → List.Forall₂ Alike ss ts →
      Alike (.inline h ss) (.inline k ts)

structure VariableDefinition.Alike (d : VariableDefinition V) (e : VariableDefinition W) :
    Prop where
  name : d.name = e.name
  type : d.type = e.type
  default : Option.Rel Q d.default e.default

structure Operation.Alike (o : Operation V) (p : Operation W) : Prop where
  name : o.name = p.name
  kind : o.kind = p.kind
  variableDefinitions : List.Forall₂ (VariableDefinition.Alike Q) o.variableDefinitions
    p.variableDefinitions
  directives : List.Forall₂ (Directive.Alike Q) o.directives p.directives
  selections : List.Forall₂ (Selection.Alike Q) o.selections p.selections

structure Fragment.Alike (f : Fragment V) (g : Fragment W) : Prop where
  name : f.name = g.name
  condition : f.condition = g.condition
  directives : List.Forall₂ (Directive.Alike Q) f.directives g.directives
  selections : List.Forall₂ (Selection.Alike Q) f.selections g.selections

inductive Definition.Alike : Definition V → Definition W → Prop where
  | operation {o : Operation V} {p : Operation W} : o.Alike Q p →
      Alike (.operation o) (.operation p)
  | fragment {f : Fragment V} {g : Fragment W} : f.Alike Q g → Alike (.fragment f) (.fragment g)

end

/-! Without locations. -/

section

variable {V : Type}

def Directive.unlocated (d : Directive V) : Directive V := { d with location := none }

def FieldHead.unlocated (h : FieldHead V) : FieldHead V :=
  { h with directives := h.directives.map (·.unlocated), location := none }

def Spread.unlocated (s : Spread V) : Spread V :=
  { s with directives := s.directives.map (·.unlocated), location := none }

def InlineHead.unlocated (h : InlineHead V) : InlineHead V :=
  { h with directives := h.directives.map (·.unlocated), location := none }

mutual

def Selection.unlocated : Selection V → Selection V
  | .field head selections => .field head.unlocated (unlocatedAll selections)
  | .spread s => .spread s.unlocated
  | .inline head selections => .inline head.unlocated (unlocatedAll selections)

def Selection.unlocatedAll : List (Selection V) → List (Selection V)
  | [] => []
  | s :: rest => s.unlocated :: unlocatedAll rest

end

def VariableDefinition.unlocated (d : VariableDefinition V) : VariableDefinition V :=
  { d with location := none }

def Operation.unlocated (o : Operation V) : Operation V :=
  { o with
    variableDefinitions := o.variableDefinitions.map (·.unlocated)
    directives := o.directives.map (·.unlocated)
    selections := Selection.unlocatedAll o.selections
    location := none }

def Fragment.unlocated (f : Fragment V) : Fragment V :=
  { f with
    directives := f.directives.map (·.unlocated)
    selections := Selection.unlocatedAll f.selections
    location := none }

def Definition.unlocated : Definition V → Definition V
  | .operation o => .operation o.unlocated
  | .fragment f => .fragment f.unlocated

end

section

variable {V W E : Type} {f : String → W → Except E V} {Q : V → W → Prop}
  (hf : ∀ name v w, Q v w → f name w = .ok v)

/-- The first thing is made of the second, locations aside. -/
def Recovers {A B C : Type} (traverse : B → Except E A) (unlocated : A → C) (a : A) (b : B) :
    Prop :=
  ∃ a', traverse b = .ok a' ∧ unlocated a' = unlocated a

theorem mapM_of_recovers {A B C : Type} {traverse : B → Except E A} {unlocated : A → C}
    {as : List A} {bs : List B} (h : List.Forall₂ (Recovers traverse unlocated) as bs) :
    Recovers (List.mapM traverse) (List.map unlocated) as bs := by
  induction h with
  | nil => exact ⟨[], rfl, rfl⟩
  | cons hab _ ih =>
    obtain ⟨a', ha', hua⟩ := hab
    obtain ⟨as', has', huas⟩ := ih
    refine ⟨a' :: as', ?_, by rw [List.map_cons, List.map_cons, hua, huas]⟩
    rw [List.mapM_cons, ha', has']
    rfl

include hf

theorem Argument.mapM_traverse_of_alike {as : List (Argument V)} {bs : List (Argument W)}
    (h : List.Forall₂ (Argument.Alike Q) as bs) : bs.mapM (Argument.traverse f) = .ok as := by
  induction h with
  | nil => rfl
  | @cons a b _ _ hab _ ih =>
    obtain ⟨name, value⟩ := a
    have hvalue := hf b.name _ _ hab.value
    have hb : Argument.traverse f b = .ok ⟨name, value⟩ := by
      rw [traverse, hvalue, ← hab.name]
      rfl
    rw [List.mapM_cons, hb, ih]
    rfl

theorem Directive.traverse_of_alike {d : Directive V} {e : Directive W} (h : d.Alike Q e) :
    Recovers (Directive.traverse f) Directive.unlocated d e := by
  refine ⟨⟨d.name, d.arguments, e.location⟩, ?_, rfl⟩
  rw [traverse, Argument.mapM_traverse_of_alike hf h.arguments, h.name]
  rfl

theorem Directive.mapM_traverse_of_alike {ds : List (Directive V)} {es : List (Directive W)}
    (h : List.Forall₂ (Directive.Alike Q) ds es) :
    Recovers (List.mapM (Directive.traverse f)) (List.map Directive.unlocated) ds es :=
  mapM_of_recovers (h.imp fun _ _ hde => traverse_of_alike hf hde)

theorem FieldHead.traverse_of_alike {h : FieldHead V} {k : FieldHead W} (hk : h.Alike Q k) :
    Recovers (FieldHead.traverse f) FieldHead.unlocated h k := by
  obtain ⟨directives, hds, hunlocated⟩ := Directive.mapM_traverse_of_alike hf hk.directives
  refine ⟨⟨h.alias?, h.name, h.arguments, directives, k.location⟩, ?_, ?_⟩
  · rw [traverse, Argument.mapM_traverse_of_alike hf hk.arguments]
    simp only [bind, Except.bind, hds, hk.alias?, hk.name]
    rfl
  · simp only [unlocated, hunlocated]

theorem Spread.traverse_of_alike {s : Spread V} {t : Spread W} (h : s.Alike Q t) :
    Recovers (Spread.traverse f) Spread.unlocated s t := by
  obtain ⟨directives, hds, hunlocated⟩ := Directive.mapM_traverse_of_alike hf h.directives
  refine ⟨⟨s.fragment, directives, t.location⟩, ?_, ?_⟩
  · rw [traverse, hds, h.fragment]
    rfl
  · simp only [unlocated, hunlocated]

theorem InlineHead.traverse_of_alike {h : InlineHead V} {k : InlineHead W} (hk : h.Alike Q k) :
    Recovers (InlineHead.traverse f) InlineHead.unlocated h k := by
  obtain ⟨directives, hds, hunlocated⟩ := Directive.mapM_traverse_of_alike hf hk.directives
  refine ⟨⟨h.condition, directives, k.location⟩, ?_, ?_⟩
  · rw [traverse, hds, hk.condition]
    rfl
  · simp only [unlocated, hunlocated]

omit hf

mutual

theorem Selection.traverse_of_alike (hf : ∀ name v w, Q v w → f name w = .ok v) :
    ∀ {s : Selection V} {t : Selection W}, s.Alike Q t →
      Recovers (Selection.traverse f) Selection.unlocated s t
  | .field _ _, _, .field hhead hselections => by
    obtain ⟨head, htraverse, hunlocated⟩ := FieldHead.traverse_of_alike hf hhead
    obtain ⟨selections, hts, huts⟩ := traverseAll_of_alike hf hselections
    refine ⟨.field head selections, ?_, ?_⟩
    · rw [traverse, htraverse]
      simp only [bind, Except.bind, hts]
      rfl
    · simp only [unlocated, hunlocated, huts]
  | .spread _, _, .spread h => by
    obtain ⟨s, htraverse, hunlocated⟩ := Spread.traverse_of_alike hf h
    refine ⟨.spread s, ?_, ?_⟩
    · rw [traverse, htraverse]
      rfl
    · simp only [unlocated, hunlocated]
  | .inline _ _, _, .inline hhead hselections => by
    obtain ⟨head, htraverse, hunlocated⟩ := InlineHead.traverse_of_alike hf hhead
    obtain ⟨selections, hts, huts⟩ := traverseAll_of_alike hf hselections
    refine ⟨.inline head selections, ?_, ?_⟩
    · rw [traverse, htraverse]
      simp only [bind, Except.bind, hts]
      rfl
    · simp only [unlocated, hunlocated, huts]

theorem Selection.traverseAll_of_alike (hf : ∀ name v w, Q v w → f name w = .ok v) :
    ∀ {ss : List (Selection V)} {ts : List (Selection W)},
      List.Forall₂ (Selection.Alike Q) ss ts →
      Recovers (Selection.traverseAll f) Selection.unlocatedAll ss ts
  | [], _, .nil => ⟨[], rfl, rfl⟩
  | _ :: _, _, .cons hs hss => by
    obtain ⟨s, hs, hus⟩ := traverse_of_alike hf hs
    obtain ⟨ss, hss, huss⟩ := traverseAll_of_alike hf hss
    refine ⟨s :: ss, ?_, ?_⟩
    · rw [traverseAll, hs]
      simp only [bind, Except.bind, hss]
      rfl
    · simp only [unlocatedAll, hus, huss]

end

include hf

theorem VariableDefinition.traverse_of_alike {d : VariableDefinition V} {e : VariableDefinition W}
    (h : d.Alike Q e) :
    Recovers (VariableDefinition.traverse f) VariableDefinition.unlocated d e := by
  have hdefault : e.default.mapM (f e.name) = .ok d.default := by
    have hrel := h.default
    cases hd : d.default <;> cases he : e.default <;> rw [hd, he] at hrel
    · rfl
    · cases hrel
    · cases hrel
    · cases hrel with
      | some hvalue =>
        simp only [Option.mapM_some, hf _ _ _ hvalue]
        rfl
  refine ⟨⟨d.name, d.type, d.default, e.location⟩, ?_, rfl⟩
  rw [traverse, hdefault, h.name, h.type]
  rfl

theorem Operation.traverse_of_alike {o : Operation V} {p : Operation W} (h : o.Alike Q p) :
    Recovers (Operation.traverse f) Operation.unlocated o p := by
  obtain ⟨definitions, hdefinitions, hudefinitions⟩ :=
    mapM_of_recovers (h.variableDefinitions.imp fun _ _ => VariableDefinition.traverse_of_alike hf)
  obtain ⟨directives, hdirectives, hudirectives⟩ := Directive.mapM_traverse_of_alike hf h.directives
  obtain ⟨selections, hselections, huselections⟩ :=
    Selection.traverseAll_of_alike hf h.selections
  refine ⟨⟨o.name, o.kind, definitions, directives, selections, p.location⟩, ?_, ?_⟩
  · rw [traverse, hdefinitions]
    simp only [bind, Except.bind, hdirectives, hselections, h.name, h.kind]
    rfl
  · simp only [unlocated, hudefinitions, hudirectives, huselections]

theorem Fragment.traverse_of_alike {fr : Fragment V} {g : Fragment W} (h : fr.Alike Q g) :
    Recovers (Fragment.traverse f) Fragment.unlocated fr g := by
  obtain ⟨directives, hdirectives, hudirectives⟩ := Directive.mapM_traverse_of_alike hf h.directives
  obtain ⟨selections, hselections, huselections⟩ :=
    Selection.traverseAll_of_alike hf h.selections
  refine ⟨⟨fr.name, fr.condition, directives, selections, g.location⟩, ?_, ?_⟩
  · rw [traverse, hdirectives]
    simp only [bind, Except.bind, hselections, h.name, h.condition]
    rfl
  · simp only [unlocated, hudirectives, huselections]

/-- Definitions are recovered from those that are alike. -/
theorem Definition.traverse_of_alike {d : Definition V} {e : Definition W} (h : d.Alike Q e) :
    Recovers (Definition.traverse f) Definition.unlocated d e := by
  cases h with
  | operation h =>
    obtain ⟨o, ho, hunlocated⟩ := Operation.traverse_of_alike hf h
    refine ⟨.operation o, ?_, congrArg Definition.operation hunlocated⟩
    rw [traverse, ho]
    rfl
  | fragment h =>
    obtain ⟨fr, hfr, hunlocated⟩ := Fragment.traverse_of_alike hf h
    refine ⟨.fragment fr, ?_, congrArg Definition.fragment hunlocated⟩
    rw [traverse, hfr]
    rfl

end

end GraphQL
