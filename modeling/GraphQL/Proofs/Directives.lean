import GraphQL.Directives
import GraphQL.Proofs.Entries
import Mathlib.Data.List.Perm.Basic

/-!
Whether a node with several directives takes part.

The first directive whose handler does not say yes settles it, and nothing that comes after it is
asked. Of the standard directives the order does not matter, as long as their conditions are
booleans (`DirectiveChain.includes_settled`).
-/

set_option autoImplicit false

namespace GraphQL

open Json

namespace DirectiveChain

variable (chain : DirectiveChain) (bindings : Entries Value) (context : Context)

/-- What the handler of a directive says of its node, if the directive has a handler. -/
def answer? (d : Directive Literal) : Option (Except FieldError Bool) :=
  (Entries.get? d.name chain.handlers).map fun handler =>
    handler.includes (d.evaluateArguments bindings) context

/-- The directive has a handler, which does not say yes. -/
def settles (d : Directive Literal) : Bool :=
  match chain.answer? bindings context d with
  | none => false
  | some (.ok true) => false
  | some _ => true

/-- A directive without a handler says yes. -/
theorem includes_handler (d : Directive Literal) :
    (chain.handler d).includes (d.evaluateArguments bindings) context =
      (chain.answer? bindings context d).getD (.ok true) := by
  unfold handler answer?
  cases Entries.get? d.name chain.handlers <;> rfl

theorem includes_cons (d : Directive Literal) (directives : List (Directive Literal)) :
    chain.includes bindings context (d :: directives) =
      if chain.settles bindings context d
      then (chain.answer? bindings context d).getD (.ok true)
      else chain.includes bindings context directives := by
  rw [includes, includes_handler, settles]
  cases chain.answer? bindings context d with
  | none => simp
  | some answer =>
    cases answer with
    | error e => simp
    | ok b => cases b <;> simp

theorem includes_eq_find? (directives : List (Directive Literal)) :
    chain.includes bindings context directives =
      ((directives.find? (chain.settles bindings context)).bind
        (chain.answer? bindings context)).getD (.ok true) := by
  induction directives with
  | nil => rfl
  | cons d directives ih =>
    rw [includes_cons, List.find?_cons]
    cases chain.settles bindings context d <;> simp [ih]

variable {chain bindings context}

/-- Only the handlers of the directives up to the one that settles it are asked. -/
theorem includes_append_cons {chain' : DirectiveChain}
    {before after after' : List (Directive Literal)} {d : Directive Literal}
    (hd : chain.settles bindings context d = true)
    (h : ∀ e ∈ d :: before, chain'.answer? bindings context e = chain.answer? bindings context e) :
    chain'.includes bindings context (before ++ d :: after') =
      chain.includes bindings context (before ++ d :: after) := by
  have hsettles : ∀ e ∈ d :: before,
      chain'.settles bindings context e = chain.settles bindings context e := by
    intro e he
    rw [settles, settles, h e he]
  induction before with
  | nil => simp [includes_cons, hsettles d, hd, h d]
  | cons e before ih =>
    have hbefore : d :: before ⊆ d :: e :: before := by simp
    have hrest := ih (fun e he => h e (hbefore he)) (fun e he => hsettles e (hbefore he))
    simp [includes_cons, hsettles e, h e, hrest]

variable (chain bindings context) in
/-- The handler of `d` fails, after the directives before it have said yes. -/
structure FailsAt (before : List (Directive Literal)) (d : Directive Literal) (e : FieldError) :
    Prop where
  before : ∀ b ∈ before,
    (chain.handler b).includes (b.evaluateArguments bindings) context = .ok true
  failure : (chain.handler d).includes (d.evaluateArguments bindings) context = .error e

/-- The directives fail at the first of them that does not say yes. -/
theorem includes_eq_error_iff {directives : List (Directive Literal)} {e : FieldError} :
    chain.includes bindings context directives = .error e ↔
      ∃ before d after, directives = before ++ d :: after ∧
        chain.FailsAt bindings context before d e := by
  constructor
  · intro h
    induction directives with
    | nil => cases h
    | cons d directives ih =>
      rw [includes] at h
      split at h
      · next hyes =>
        obtain ⟨before, failing, after, rfl, hfails⟩ := ih h
        exact ⟨d :: before, failing, after, rfl,
          List.forall_mem_cons.2 ⟨hyes, hfails.before⟩, hfails.failure⟩
      · exact ⟨[], d, directives, rfl, nofun, h⟩
  · rintro ⟨before, d, after, rfl, hbefore, hd⟩
    induction before with
    | nil => rw [List.nil_append, includes, hd]
    | cons b before ih =>
      obtain ⟨hb, hbefore⟩ := List.forall_mem_cons.1 hbefore
      rw [List.cons_append, includes, hb]
      exact ih hbefore

end DirectiveChain

/-- The value of the argument `if`, which may be left out. -/
def Directive.condition? (bindings : Entries Value) (d : Directive Literal) : Option Value :=
  Entries.get? "if" (d.evaluateArguments bindings)

/-- If a directive is a standard one, its condition is a boolean. -/
def Directive.Conditioned (bindings : Entries Value) (d : Directive Literal) : Prop :=
  d.name = "skip" ∨ d.name = "include" → ∃ b, d.condition? bindings = some (.bool b)

/-- A node with the directive is left out: it is skipped, or it is not included. -/
def Directive.Excludes (bindings : Entries Value) (d : Directive Literal) : Prop :=
  d.name = "skip" ∧ d.condition? bindings = some (.bool true) ∨
    d.name = "include" ∧ d.condition? bindings = some (.bool false)

namespace DirectiveChain

variable (bindings : Entries Value) (context : Context)

theorem answer?_skip {d : Directive Literal} {b : Bool} (hname : d.name = "skip")
    (h : d.condition? bindings = some (.bool b)) :
    standard.answer? bindings context d = some (.ok !b) := by
  have hhandler : Entries.get? "skip" standard.handlers = some .skip := rfl
  rw [Directive.condition?] at h
  simp [answer?, hname, hhandler, DirectiveHandler.skip, DirectiveHandler.condition, h, Except.map]

theorem answer?_include {d : Directive Literal} {b : Bool} (hname : d.name = "include")
    (h : d.condition? bindings = some (.bool b)) :
    standard.answer? bindings context d = some (.ok b) := by
  have hhandler : Entries.get? "include" standard.handlers = some .only := rfl
  rw [Directive.condition?] at h
  simp [answer?, hname, hhandler, DirectiveHandler.only, DirectiveHandler.condition, h]

theorem answer?_unknown {d : Directive Literal} (hskip : d.name ≠ "skip")
    (hinclude : d.name ≠ "include") : standard.answer? bindings context d = none := by
  simp [answer?, standard, register, empty, Entries.insert, Entries.get?, Ne.symm hskip,
    Ne.symm hinclude]

/-- A standard directive with a boolean condition excludes its node, or says yes. -/
theorem answer?_standard {d : Directive Literal} (h : d.Conditioned bindings) :
    (d.Excludes bindings ∧ standard.answer? bindings context d = some (.ok false)) ∨
      (¬ d.Excludes bindings ∧ standard.settles bindings context d = false) := by
  by_cases hskip : d.name = "skip"
  · obtain ⟨b, hb⟩ := h (.inl hskip)
    have hanswer := answer?_skip bindings context hskip hb
    cases b <;> simp [Directive.Excludes, settles, hskip, hb, hanswer]
  by_cases hinclude : d.name = "include"
  · obtain ⟨b, hb⟩ := h (.inr hinclude)
    have hanswer := answer?_include bindings context hinclude hb
    cases b <;> simp [Directive.Excludes, settles, hinclude, hb, hanswer]
  · have hanswer := answer?_unknown bindings context hskip hinclude
    simp [Directive.Excludes, settles, hskip, hinclude, hanswer]

theorem includes_of_conditioned {directives : List (Directive Literal)}
    (h : ∀ d ∈ directives, d.Conditioned bindings) :
    ∃ b, standard.includes bindings context directives = .ok b ∧
      (b = true ↔ ∀ d ∈ directives, ¬ d.Excludes bindings) := by
  induction directives with
  | nil => exact ⟨true, rfl, by simp⟩
  | cons d directives ih =>
    obtain ⟨hd, hrest⟩ := List.forall_mem_cons.1 h
    obtain ⟨b, hb, hiff⟩ := ih hrest
    rw [includes_cons]
    rcases answer?_standard bindings context hd with ⟨hexcludes, hanswer⟩ | ⟨hkeeps, hsettles⟩
    · exact ⟨false, by simp [settles, hanswer], by simp [hexcludes]⟩
    · exact ⟨b, by simp [hsettles, hb], by simp [hkeeps, hiff]⟩

theorem includes_perm_of_conditioned {directives directives' : List (Directive Literal)}
    (h : ∀ d ∈ directives, d.Conditioned bindings) (hperm : directives.Perm directives') :
    standard.includes bindings context directives' =
      standard.includes bindings context directives := by
  obtain ⟨b, hb, hiff⟩ := includes_of_conditioned bindings context h
  obtain ⟨b', hb', hiff'⟩ := includes_of_conditioned bindings context
    fun d hd => h d (hperm.mem_iff.2 hd)
  have hsame : b' = true ↔ b = true := by
    simp only [hiff, hiff', hperm.mem_iff]
  rw [hb, hb', Bool.eq_iff_iff.2 hsame]

/-- Whether a node takes part is what the first directive says that does not say yes, whatever
follows it. With the standard directives it does so unless one of them excludes it, in whichever
order they stand. -/
theorem includes_settled (chain : DirectiveChain) (bindings : Entries Value) (context : Context)
    (directives : List (Directive Literal)) :
    (chain.includes bindings context directives =
      match directives.find? (chain.settles bindings context) with
      | some d => (chain.handler d).includes (d.evaluateArguments bindings) context
      | none => .ok true) ∧
    (∀ before d after, directives = before ++ d :: after → chain.settles bindings context d = true →
      ∀ (chain' : DirectiveChain) (after' : List (Directive Literal)),
        (∀ e ∈ d :: before,
          Entries.get? e.name chain'.handlers = Entries.get? e.name chain.handlers) →
        chain'.includes bindings context (before ++ d :: after') =
          chain.includes bindings context directives) ∧
    ((∀ d ∈ directives, d.Conditioned bindings) →
      (∃ b, standard.includes bindings context directives = .ok b ∧
        (b = true ↔ ∀ d ∈ directives, ¬ d.Excludes bindings)) ∧
      ∀ directives', directives.Perm directives' →
        standard.includes bindings context directives' =
          standard.includes bindings context directives) := by
  refine ⟨?first, ?after, ?conditioned⟩
  case first =>
    rw [includes_eq_find?]
    cases hfind : directives.find? (chain.settles bindings context) with
    | none => rfl
    | some d => simp [includes_handler]
  case after =>
    rintro before d after rfl hd chain' after' hsame
    exact includes_append_cons hd fun e he => by rw [answer?, answer?, hsame e he]
  case conditioned =>
    intro h
    exact ⟨includes_of_conditioned bindings context h,
      fun _ => includes_perm_of_conditioned bindings context h⟩

/-- An unknown directive, one that does not skip and one that does not include. -/
def mixed : List (Directive Literal) :=
  [⟨"deprecated", [], none⟩, ⟨"skip", [⟨"if", .boolean false⟩], none⟩,
    ⟨"include", [⟨"if", .variable "no"⟩], none⟩]

theorem includes_settled_mixed :
    (∀ d ∈ mixed, d.Conditioned [("no", .bool false)]) ∧
      standard.includes [("no", .bool false)] .new mixed = .ok false ∧
      standard.includes [("no", .bool false)] .new mixed.reverse = .ok false := by
  have hconditioned : ∀ d ∈ mixed, d.Conditioned [("no", .bool false)] := by
    simp only [mixed, List.forall_mem_cons, Directive.Conditioned]
    exact ⟨by simp, fun _ => ⟨false, rfl⟩, fun _ => ⟨false, rfl⟩, by simp⟩
  obtain ⟨hfirst, -, hstandard⟩ := includes_settled standard [("no", .bool false)] .new mixed
  have hexcluded : standard.includes [("no", .bool false)] .new mixed = .ok false := hfirst
  have hreverse := (hstandard hconditioned).2 mixed.reverse (List.reverse_perm mixed).symm
  exact ⟨hconditioned, hexcluded, hreverse.trans hexcluded⟩

end DirectiveChain

end GraphQL
