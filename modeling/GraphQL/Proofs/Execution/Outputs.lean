import GraphQL.Proofs.Execution.Agreement
import GraphQL.Proofs.Execution.ErrorOrder
import GraphQL.Proofs.Syntax.Names

/-!
What executions that agree put out.

The order of the errors of a response depends on the data, but for the errors that two executions
agree on it is the same (`Agrees.filter_errors_eq`). It does not depend on the order in which errors
at different paths were recorded (`sortErrors_eq_of_filter_eq`).
-/

set_option autoImplicit false

namespace GraphQL

open Json

def Error.Named (e : Error) : Prop := ∃ path, e.path = some path ∧ path.Named

namespace Execution

theorem path_eq_of_pathText_eq {a b : Error} (ha : a.Named) (hb : b.Named)
    (h : pathText a = pathText b) : a.path = b.path := by
  obtain ⟨p, hp, hnamed⟩ := ha
  obtain ⟨q, hq, hnamed'⟩ := hb
  rw [pathText, pathText, hp, hq] at h
  rw [hp, hq, Path.eq_of_render_eq hnamed hnamed' h]

/-- Sorted errors do not show the order in which those at different paths were recorded. -/
theorem sortErrors_eq_of_filter_eq {data : Value} {errors errors' : List Error}
    (hnamed : ∀ e ∈ errors, e.Named)
    (h : ∀ path, errors.filter (fun e => e.path = path) = errors'.filter fun e => e.path = path) :
    sortErrors data errors = sortErrors data errors' := by
  have hmem : ∀ e ∈ errors', e ∈ errors := by
    intro e he
    have hat : e ∈ errors'.filter fun a => a.path = e.path :=
      List.mem_filter.2 ⟨he, decide_eq_true rfl⟩
    rw [← h] at hat
    exact (List.mem_filter.1 hat).1
  have hall : ∀ e, e ∈ errors ∨ e ∈ errors' → e.Named := fun e he =>
    hnamed e (he.elim id (hmem e))
  have hfilter : (sortErrors data errors).filter (fun _ => true) =
      (sortErrors data errors').filter fun _ => true :=
    filter_sortErrors_eq (fun _ _ _ => rfl)
      (fun a b ha hb _ _ => path_eq_of_pathText_eq (hall a ha) (hall b hb)) fun e _ _ => h e.path
  rwa [List.filter_true, List.filter_true] at hfilter

theorem Does.named_of_error {s : Setting} {w : World} {room : Nat} {job : Job} {c : Completion}
    {es : List Event} (hd : s.document.FragmentKeys IsName) (h : Does s w room job c es)
    (hk : job.Keys IsName) (hpath : job.path = []) :
    ∀ e ∈ es.filterMap Event.error?, e.Named := by
  intro e he
  obtain ⟨ev, hev, herror⟩ := List.mem_filterMap.1 he
  obtain ⟨below, hb, hkeys⟩ := h.lies hd hk ev hev
  rw [hpath, List.nil_append] at hb
  refine ⟨below, Event.path?_of_error? herror ▸ hb, fun element hmem key hkey => ?_⟩
  subst hkey
  exact hkeys key hmem

theorem filterMap_errorAt? (es : List Event) (x : Path) :
    es.filterMap (Event.errorAt? x) =
      (es.filterMap Event.error?).filter fun e => e.path = some x := by
  rw [List.filter_filterMap]
  rfl

namespace Agrees

variable {Q : Path → Prop} {c c' : Completion} {es es' : List Event}

theorem data (h : Agrees Q [] c c' es es') : Value.AgreeOff Q [] c.data c'.data := by
  have hc := h.completion
  cases c with
  | value v =>
    cases c' with
    | value v' => exact hc
    | propagate => exact hc.elim
  | propagate =>
    cases c' with
    | value v' => exact hc.elim
    | propagate => exact .refl Q [] .null

theorem filter_errors_eq (hup : ∀ p r, Q p → Q (p ++ r)) (h : Agrees Q [] c c' es es')
    (hes : ∀ e ∈ es.filterMap Event.error?, e.Named)
    (hes' : ∀ e ∈ es'.filterMap Event.error?, e.Named) {keep : Error → Bool}
    (hkeep : ∀ e x, keep e → e.path = some x → ¬ Q x) :
    (Output.of c (es.filterMap Event.error?)).errors.filter keep =
      (Output.of c' (es'.filterMap Event.error?)).errors.filter keep := by
  have hnamed : ∀ e, e ∈ es.filterMap Event.error? ∨ e ∈ es'.filterMap Event.error? → e.Named :=
    fun e he => he.elim (hes e) (hes' e)
  refine filter_sortErrors_eq ?_ ?_ ?_
  · intro e he hk
    obtain ⟨x, hx, -⟩ := hnamed e he
    have hplaces := h.data.places_eq hup (x := x) (hkeep e x hk hx)
    simp only [ErrorKey.ofError, hx, Option.getD_some, hplaces]
  · exact fun a b ha hb _ _ => path_eq_of_pathText_eq (hnamed a ha) (hnamed b hb)
  · intro e he hk
    obtain ⟨x, hx, -⟩ := hnamed e he
    rw [hx, ← filterMap_errorAt?, ← filterMap_errorAt?]
    exact h.errors x (hkeep e x hk hx)

theorem output_eq (h : Agrees (fun _ => False) [] c c' es es')
    (hes : ∀ e ∈ es.filterMap Event.error?, e.Named)
    (hes' : ∀ e ∈ es'.filterMap Event.error?, e.Named) :
    Output.of c (es.filterMap Event.error?) = Output.of c' (es'.filterMap Event.error?) := by
  have hdata : c.data = c'.data := by
    have hwhole := h.data.whole [] fun _ => id
    exact Option.some.inj hwhole
  have herrors : (Output.of c (es.filterMap Event.error?)).errors.filter (fun _ => true) =
      (Output.of c' (es'.filterMap Event.error?)).errors.filter fun _ => true :=
    h.filter_errors_eq (fun _ _ => id) hes hes' fun _ _ _ _ => id
  rw [List.filter_true, List.filter_true] at herrors
  rw [Output.of, Output.of, Output.mk.injEq]
  exact ⟨hdata, herrors⟩

end Agrees

end Execution

end GraphQL
