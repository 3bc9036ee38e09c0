import GraphQL.Execution.Errors
import GraphQL.Proofs.Execution.Positions

/-!
Agreement of what two executions come to, except at some positions.

Completions of lists and objects agree if those of their parts do (`Combines.agrees`). Errors
are ordered by the data on the way to them, so data that agree order them alike
(`Value.AgreeOff.places_eq`).
-/

set_option autoImplicit false

namespace GraphQL

open Json Execution

namespace Json.Value

theorem cases_of_outline_eq {v v' : Value} (h : v.outline = v'.outline) :
    v = v' ∨
      (∃ items items', v = array items ∧ v' = array items') ∨
        ∃ members members', v = object members ∧ v' = object members' ∧
          Entries.keys members = Entries.keys members' := by
  cases v with
  | array items =>
    cases v' with
    | array items' => exact .inr (.inl ⟨items, items', rfl, rfl⟩)
    | _ => cases h
  | object members =>
    cases v' with
    | object members' => exact .inr (.inr ⟨members, members', rfl, rfl, Outline.object.inj h⟩)
    | _ => cases h
  | _ =>
    cases v' with
    | array _ => cases h
    | object _ => cases h
    | _ => exact .inl (Outline.leaf.inj h)

theorem isNull_eq_of_outline_eq {v v' : Value} (h : v.outline = v'.outline) :
    v.isNull = v'.isNull := by
  rcases cases_of_outline_eq h with rfl | ⟨_, _, rfl, rfl⟩ | ⟨_, _, rfl, rfl, -⟩ <;> rfl

/-- Two values that stand at a path agree outside `Q`: they have the same outline at each position
there, and they are equal where all below is outside. -/
structure AgreeOff (Q : Path → Prop) (path : Path) (v v' : Value) : Prop where
  outline : ∀ below, ¬ Q (path ++ below) →
    (v.follow? below).map Value.outline = (v'.follow? below).map Value.outline
  whole : ∀ below, (∀ r, ¬ Q (path ++ (below ++ r))) → v.follow? below = v'.follow? below

end Json.Value

theorem Execution.memberAt?_eq (key : String) (i : Nat) (members : Entries Value) :
    memberAt? key i members =
      (Entries.get? key members).map fun v => (i + (Entries.keys members).idxOf key, v) := by
  induction members generalizing i with
  | nil => rfl
  | cons e members ih =>
    obtain ⟨k, v⟩ := e
    by_cases hk : k = key
    · simp [memberAt?, Entries.get?, Entries.keys, hk]
    · have hidx : (Entries.keys ((k, v) :: members)).idxOf key =
          (Entries.keys members).idxOf key + 1 := List.idxOf_cons_ne _ hk
      simp only [memberAt?, Entries.get?, if_neg hk, ih, hidx]
      simp only [Nat.add_assoc, Nat.add_comm 1]

namespace Json.Value.AgreeOff

variable {Q : Path → Prop} {path : Path} {v v' : Value}

theorem refl (Q : Path → Prop) (path : Path) (v : Value) : AgreeOff Q path v v :=
  ⟨fun _ _ => rfl, fun _ _ => rfl⟩

theorem of_exempt (hup : ∀ p r, Q p → Q (p ++ r)) (hq : Q path) : AgreeOff Q path v v' :=
  ⟨fun below h => absurd (hup path below hq) h, fun below h => by
    have h := h []
    rw [List.append_nil] at h
    exact absurd (hup path below hq) h⟩

theorem outline_eq (h : AgreeOff Q path v v') (hq : ¬ Q path) : v.outline = v'.outline := by
  have hout := h.outline [] (by rwa [List.append_nil])
  exact Option.some.inj hout

theorem step (h : AgreeOff Q path v v') {e : PathElement} {u u' : Value}
    (hu : v.follow? [e] = some u) (hu' : v'.follow? [e] = some u') :
    AgreeOff Q (path.join e) u u' := by
  have hcons : ∀ below, v.follow? (e :: below) = u.follow? below := fun below => by
    rw [follow?_cons, hu, Option.bind_some]
  have hcons' : ∀ below, v'.follow? (e :: below) = u'.follow? below := fun below => by
    rw [follow?_cons, hu', Option.bind_some]
  constructor
  · intro below hq
    rw [← hcons, ← hcons']
    exact h.outline (e :: below) (by rwa [Path.join_append] at hq)
  · intro below hq
    rw [← hcons, ← hcons']
    refine h.whole (e :: below) fun r => ?_
    have hr := hq r
    rwa [Path.join_append] at hr

theorem step_eq_none (h : AgreeOff Q path v v') {e : PathElement} (hq : ¬ Q (path.join e))
    (hn : v.follow? [e] = none) : v'.follow? [e] = none := by
  have hout := h.outline [e] hq
  rw [hn] at hout
  exact Option.map_eq_none_iff.1 hout.symm

theorem exists_step (h : AgreeOff Q path v v') {e : PathElement} (hq : ¬ Q (path.join e))
    {u : Value} (hu : v.follow? [e] = some u) : ∃ u', v'.follow? [e] = some u' := by
  have hout := h.outline [e] hq
  rw [hu] at hout
  obtain ⟨u', hu', -⟩ := Option.map_eq_some_iff.1 hout.symm
  exact ⟨u', hu'⟩

/-- Data that agree lead to a position outside `Q` by the same places. -/
theorem places_eq (hup : ∀ p r, Q p → Q (p ++ r)) {x : Path} : ∀ {path : Path} {v v' : Value},
    AgreeOff Q path v v' → ¬ Q (path ++ x) → places (some v) x = places (some v') x := by
  induction x with
  | nil => intros; rfl
  | cons e x ih =>
    intro path v v' h hq
    rw [← Path.join_append] at hq
    have hjoin : ¬ Q (path.join e) := fun hj => hq (hup _ x hj)
    have hpath : ¬ Q path := fun hp => hjoin (hup _ [e] hp)
    -- What stands under the element: nothing on both sides, or values that agree.
    have hstep : (v.follow? [e] = none ∧ v'.follow? [e] = none) ∨ ∃ u u', v.follow? [e] = some u ∧
        v'.follow? [e] = some u' ∧ places (some u) x = places (some u') x := by
      cases hu : v.follow? [e] with
      | none => exact .inl ⟨rfl, h.step_eq_none hjoin hu⟩
      | some u =>
        obtain ⟨u', hu'⟩ := h.exists_step hjoin hu
        exact .inr ⟨u, u', rfl, hu', ih (h.step hu hu') hq⟩
    rcases cases_of_outline_eq (h.outline_eq hpath) with rfl | ⟨items, items', rfl, rfl⟩ |
      ⟨members, members', rfl, rfl, hkeys⟩
    · rfl
    · cases e with
      | key k => rfl
      | index i =>
        rw [follow?_index, follow?_index] at hstep
        rw [places, places]
        rcases hstep with ⟨hn, hn'⟩ | ⟨u, u', hu, hu', heq⟩
        · rw [hn, hn']
        · rw [hu, hu', heq]
    · cases e with
      | index i => rfl
      | key k =>
        rw [follow?_key, follow?_key] at hstep
        rw [places, places, memberAt?_eq, memberAt?_eq, hkeys]
        rcases hstep with ⟨hn, hn'⟩ | ⟨u, u', hu, hu', heq⟩
        · rw [hn, hn']
        · rw [hu, hu']
          simp only [Option.map_some, heq]

theorem isNull_eq (h : AgreeOff Q path v v') (hq : ¬ Q path) : v.isNull = v'.isNull :=
  isNull_eq_of_outline_eq (h.outline_eq hq)

end Json.Value.AgreeOff

namespace Execution

variable {Q : Path → Prop} {path : Path}

theorem Holds.agreeOff {elements : List PathElement} {vs vs' : List Value} {v v' : Value}
    (hv : Holds elements vs v) (hv' : Holds elements vs' v') (hl : elements.length = vs.length)
    (hl' : elements.length = vs'.length) (hout : v.outline = v'.outline) (heq : vs = vs' → v = v')
    (h : ∀ (i : Nat) e u u', elements[i]? = some e → vs[i]? = some u → vs'[i]? = some u' →
      Value.AgreeOff Q (path.join e) u u') : Value.AgreeOff Q path v v' := by
  have hpart : ∀ {i : Nat} {e : PathElement}, elements[i]? = some e →
      ∃ u u', vs[i]? = some u ∧ vs'[i]? = some u' ∧ Value.AgreeOff Q (path.join e) u u' := by
    intro i e he
    obtain ⟨hlt, -⟩ := List.getElem?_eq_some_iff.1 he
    have hu : vs[i]? = some vs[i] := List.getElem?_eq_getElem (hl ▸ hlt)
    have hu' : vs'[i]? = some vs'[i] := List.getElem?_eq_getElem (hl' ▸ hlt)
    exact ⟨_, _, hu, hu', h i e _ _ he hu hu'⟩
  -- Under an element the values lead to parts that agree, and under others nowhere.
  have hstep : ∀ (e : PathElement) (below : Path),
      (v.follow? (e :: below) = none ∧ v'.follow? (e :: below) = none) ∨
        ∃ u u', v.follow? (e :: below) = u.follow? below ∧
          v'.follow? (e :: below) = u'.follow? below ∧ Value.AgreeOff Q (path.join e) u u' := by
    intro e below
    by_cases he : e ∈ elements
    · obtain ⟨i, hi⟩ := List.mem_iff_getElem?.1 he
      obtain ⟨u, u', hu, hu', hagree⟩ := hpart hi
      exact .inr ⟨u, u', hv.follow?_cons i e u below hi hu, hv'.follow?_cons i e u' below hi hu',
        hagree⟩
    · refine .inl ⟨?_, ?_⟩ <;> refine Option.eq_none_iff_forall_ne_some.2 fun u hu => he ?_
      · exact hv.mem_of_follow? e below u hu
      · exact hv'.mem_of_follow? e below u hu
  constructor
  · intro below hq
    cases below with
    | nil => exact congrArg some hout
    | cons e below =>
      rcases hstep e below with ⟨hn, hn'⟩ | ⟨u, u', hu, hu', hagree⟩
      · rw [hn, hn']
      · rw [hu, hu']
        exact hagree.outline below (by rwa [Path.join_append])
  · intro below hq
    cases below with
    | nil =>
      refine congrArg some (heq (List.ext_getElem? fun i => ?_))
      cases he : elements[i]? with
      | none =>
        have hle := List.getElem?_eq_none_iff.1 he
        rw [List.getElem?_eq_none (hl ▸ hle), List.getElem?_eq_none (hl' ▸ hle)]
      | some e =>
        obtain ⟨u, u', hu, hu', hagree⟩ := hpart he
        rw [hu, hu']
        refine hagree.whole [] fun r => ?_
        rw [List.nil_append, Path.join_append]
        exact hq (e :: r)
    | cons e below =>
      rcases hstep e below with ⟨hn, hn'⟩ | ⟨u, u', hu, hu', hagree⟩
      · rw [hn, hn']
      · rw [hu, hu']
        refine hagree.whole below fun r => ?_
        rw [Path.join_append]
        exact hq r

def Completion.AgreeOff (Q : Path → Prop) (path : Path) : Completion → Completion → Prop
  | value v, value v' => Value.AgreeOff Q path v v'
  | propagate, propagate => True
  | _, _ => False

namespace Completion.AgreeOff

variable {c c' : Completion}

theorem refl (Q : Path → Prop) (path : Path) (c : Completion) : AgreeOff Q path c c := by
  cases c with
  | value v => exact Value.AgreeOff.refl Q path v
  | propagate => trivial

theorem eq_propagate_iff (h : AgreeOff Q path c c') : c = .propagate ↔ c' = .propagate := by
  cases c <;> cases c' <;> simp_all [AgreeOff]

theorem isNull_eq (h : AgreeOff Q path c c') (hq : ¬ Q path) : c.isNull = c'.isNull := by
  cases c with
  | value v =>
    cases c' with
    | value v' => exact Value.AgreeOff.isNull_eq h hq
    | propagate => exact h.elim
  | propagate =>
    cases c' with
    | value v' => exact h.elim
    | propagate => rfl

theorem absorb (h : AgreeOff Q path c c') : AgreeOff Q path c.absorb c'.absorb := by
  cases c with
  | value v =>
    cases c' with
    | value v' => exact h
    | propagate => exact h.elim
  | propagate =>
    cases c' with
    | value v' => exact h.elim
    | propagate => exact Value.AgreeOff.refl Q path .null

end Completion.AgreeOff

/-- The error that an event records at a path. -/
def Event.errorAt? (x : Path) (ev : Event) : Option Error := ev.error?.filter (·.path = some x)

theorem Event.path?_of_errorAt? {x : Path} {ev : Event} {e : Error}
    (h : ev.errorAt? x = some e) : ev.path? = some x := by
  obtain ⟨he, hx⟩ := Option.filter_eq_some_iff.1 h
  exact (Event.path?_of_error? he).trans (of_decide_eq_true hx)

/-- Two executions agree at a path: on the completion, and on the errors at each position outside
`Q`. -/
structure Agrees (Q : Path → Prop) (path : Path) (c c' : Completion) (es es' : List Event) :
    Prop where
  completion : c.AgreeOff Q path c'
  errors : ∀ x, ¬ Q x →
    es.filterMap (Event.errorAt? x) = es'.filterMap (Event.errorAt? x)

theorem Agrees.refl (Q : Path → Prop) (path : Path) (c : Completion) (es : List Event) :
    Agrees Q path c c es es := ⟨.refl Q path c, fun _ _ => rfl⟩

namespace Agrees

variable {c c' : Completion} {es es' : List Event}

theorem append (h : Agrees Q path c c' es es') (front back : List Event) :
    Agrees Q path c c' (front ++ es ++ back) (front ++ es' ++ back) where
  completion := h.completion
  errors x hx := by simp only [List.filterMap_append, h.errors x hx]

theorem cons (h : Agrees Q path c c' es es') (ev : Event) :
    Agrees Q path c c' (ev :: es) (ev :: es') := by simpa using h.append [ev] []

/-- Of what happens at an exempt position nothing is asked but that it does not propagate. -/
theorem of_exempt {v v' : Value} (hup : ∀ p r, Q p → Q (p ++ r)) (hq : Q path)
    (hes : ∀ ev ∈ es, ev.Lies (fun _ => True) path)
    (hes' : ∀ ev ∈ es', ev.Lies (fun _ => True) path) :
    Agrees Q path (.value v) (.value v') es es' := by
  have hnil : ∀ {es : List Event} {x : Path}, (∀ ev ∈ es, ev.Lies (fun _ => True) path) →
      ¬ Q x → es.filterMap (Event.errorAt? x) = [] := by
    intro es x hes hx
    refine List.filterMap_eq_nil_iff.2 fun ev hev => ?_
    by_contra hne
    obtain ⟨e, he⟩ := Option.ne_none_iff_exists'.1 hne
    obtain ⟨below, hb, -⟩ := hes ev hev
    obtain rfl : path ++ below = x :=
      Option.some.inj (hb.symm.trans (Event.path?_of_errorAt? he))
    exact hx (hup path below hq)
  exact ⟨Value.AgreeOff.of_exempt hup hq, fun x hx => by rw [hnil hes hx, hnil hes' hx]⟩

end Agrees

section

variable {elements : List PathElement} {outs outs' : List (Completion × List Event)}
  {merged merged' : List Event}

/-- If a part propagates, so does any part in its place. -/
theorem Parts.propagate_mem (hparts : Parts path elements outs merged)
    (hparts' : Parts path elements outs' merged')
    (h : ∀ (i : Nat) e ds d' ds', elements[i]? = some e → outs[i]? = some (.propagate, ds) →
      outs'[i]? = some (d', ds') → d' = .propagate) (hmem : .propagate ∈ outs.map Prod.fst) :
    .propagate ∈ outs'.map Prod.fst := by
  obtain ⟨i, e, ds, he, hi⟩ := hparts.exists_of_mem_completions hmem
  obtain ⟨⟨d', ds'⟩, hi'⟩ := hparts'.exists_out he
  exact List.mem_map.2 ⟨_, List.mem_of_getElem? hi', h i e ds d' ds' he hi hi'⟩

theorem Parts.filterMap_errorAt?_eq (hparts : Parts path elements outs merged)
    (hparts' : Parts path elements outs' merged') {x : Path}
    (h : ∀ (i : Nat) e d ds d' ds', elements[i]? = some e → outs[i]? = some (d, ds) →
      outs'[i]? = some (d', ds') →
      ds.filterMap (Event.errorAt? x) = ds'.filterMap (Event.errorAt? x)) :
    merged.filterMap (Event.errorAt? x) = merged'.filterMap (Event.errorAt? x) := by
  have hf : ∀ ev b, Event.errorAt? x ev = some b → ev.path? = some x := fun _ _ =>
    Event.path?_of_errorAt?
  by_cases hbelow : ∃ e ∈ elements, ∃ below, x = path ++ e :: below
  · obtain ⟨e, he, below, hxe⟩ := hbelow
    obtain ⟨i, hi⟩ := List.mem_iff_getElem?.1 he
    obtain ⟨⟨d, ds⟩, hd⟩ := hparts.exists_out hi
    obtain ⟨⟨d', ds'⟩, hd'⟩ := hparts'.exists_out hi
    rw [hparts.filterMap_eq hf hi hd hxe, hparts'.filterMap_eq hf hi hd' hxe]
    exact h i e d ds d' ds' hi hd hd'
  · have hnot : ∀ e ∈ elements, ∀ below, x ≠ path ++ e :: below := fun e he below heq =>
      hbelow ⟨e, he, below, heq⟩
    rw [hparts.filterMap_eq_nil hf hnot, hparts'.filterMap_eq_nil hf hnot]

variable {combine : List Completion → Completion} {build : List Value → Value}

theorem Combines.agreeOff (hc : Combines elements combine build)
    (hparts : Parts path elements outs merged) (hparts' : Parts path elements outs' merged')
    (h : ∀ (i : Nat) e d ds d' ds', elements[i]? = some e → outs[i]? = some (d, ds) →
      outs'[i]? = some (d', ds') → d.AgreeOff Q (path.join e) d') :
    (combine (outs.map Prod.fst)).AgreeOff Q path (combine (outs'.map Prod.fst)) := by
  have hl := hparts.length_completions
  have hl' := hparts'.length_completions
  have hpropagate : combine (outs.map Prod.fst) = .propagate ↔
      combine (outs'.map Prod.fst) = .propagate := by
    rw [hc.propagate_iff _ hl, hc.propagate_iff _ hl']
    constructor
    · exact hparts.propagate_mem hparts' fun i e ds d' ds' he hi hi' =>
        (h i e _ ds d' ds' he hi hi').eq_propagate_iff.1 rfl
    · exact hparts'.propagate_mem hparts fun i e ds' d ds he hi' hi =>
        (h i e d ds _ ds' he hi hi').eq_propagate_iff.2 rfl
  cases hcase : combine (outs.map Prod.fst) with
  | propagate =>
    rw [hpropagate.1 hcase]
    trivial
  | value v =>
    cases hcase' : combine (outs'.map Prod.fst) with
    | propagate =>
      have hnot := hpropagate.2 hcase'
      rw [hcase] at hnot
      cases hnot
    | value v' =>
      obtain ⟨vs, hvs, rfl⟩ := (hc.value_iff _ v hl).1 hcase
      obtain ⟨vs', hvs', rfl⟩ := (hc.value_iff _ v' hl').1 hcase'
      have hlen : elements.length = vs.length := by rw [← hl, hvs, List.length_map]
      have hlen' : elements.length = vs'.length := by rw [← hl', hvs', List.length_map]
      refine Holds.agreeOff (hc.holds vs hlen) (hc.holds vs' hlen') hlen hlen'
        (hc.outline vs vs' hlen hlen') (congrArg build) fun i e u u' he hu hu' => ?_
      obtain ⟨ds, hi⟩ := Completion.exists_of_map_fst hvs hu
      obtain ⟨ds', hi'⟩ := Completion.exists_of_map_fst hvs' hu'
      exact h i e _ ds _ ds' he hi hi'

theorem Combines.agrees (hc : Combines elements combine build)
    (hparts : Parts path elements outs merged) (hparts' : Parts path elements outs' merged')
    (h : ∀ (i : Nat) e d ds d' ds', elements[i]? = some e → outs[i]? = some (d, ds) →
      outs'[i]? = some (d', ds') → Agrees Q (path.join e) d d' ds ds') :
    Agrees Q path (combine (outs.map Prod.fst)) (combine (outs'.map Prod.fst)) merged merged' where
  completion := hc.agreeOff hparts hparts' fun i e d ds d' ds' he hi hi' =>
    (h i e d ds d' ds' he hi hi').completion
  errors x hx := hparts.filterMap_errorAt?_eq hparts' fun i e d ds d' ds' he hi hi' =>
    (h i e d ds d' ds' he hi hi').errors x hx

end

end Execution

end GraphQL
