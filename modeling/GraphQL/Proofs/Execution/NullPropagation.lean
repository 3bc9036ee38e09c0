import GraphQL.Proofs.Execution.Data
import GraphQL.Proofs.Execution.ErrorOrder
import GraphQL.Proofs.Execution.Positions
import GraphQL.Proofs.Execution.Submissions
import Mathlib.Data.List.Induction

/-!
Nulls and errors account for each other.

An error of a position leads to a null at it or around it, at a position that takes null, and a null
that was not produced comes from an error at it or below it. The invariant is `Accounted`; a job
that propagates has failed (`Does.accounts`).
-/

set_option autoImplicit false

namespace GraphQL.Execution

open Json

/-- A position of the type takes null; a field that is not defined does. -/
def TakesNull (type : Option TypeRef) : Prop := ∀ t, type = some t → t.isNonNull = false

def Event.failure? : Event → Option Error
  | failed e _ => some e
  | _ => none

theorem Event.failure?_eq_some {ev : Event} {e : Error} (h : ev.failure? = some e) :
    ∃ endless, ev = .failed e endless := by
  cases ev <;> cases h
  exact ⟨_, rfl⟩

def HasError (es : List Event) : Prop := ∃ ev ∈ es, ev.error?.isSome = true

/-- A null at a path was produced there, where null is taken, or there is an error at the path or
below it. -/
def Explained (N : Path → Prop) (path : Path) (es : List Event) : Prop :=
  N path ∧ .produced path .null ∈ es ∨
    ∃ ev ∈ es, ∃ e p, ev.error? = some e ∧ e.path = some p ∧ path <+: p

/-- On the way along a path there is a null in a value at a position that takes it. The value stands
at the first path. -/
def MeetsNull (N : Path → Prop) (path : Path) (v : Value) (p : Path) : Prop :=
  ∃ r, v.follow? r = some .null ∧ path ++ r <+: p ∧ N (path ++ r)

/-- In a value at a path, errors and nulls account for each other. The positions that take null have
the property `N`. -/
structure Accounted (N : Path → Prop) (path : Path) (v : Value) (es : List Event) : Prop where
  failed : ∀ e endless p, .failed e endless ∈ es → e.path = some p → MeetsNull N path v p
  collecting : ∀ e p, .collecting e ∈ es → e.path = some p →
    MeetsNull N path v p ∨ ∃ below u, p = path ++ below ∧ v.follow? below = some u
  nulls : ∀ below t, below ≠ [] → v.follow? below = some .null →
    .reached (path ++ below) t ∈ es → Explained N (path ++ below) es

theorem Explained.mono {N : Path → Prop} {path : Path} {es es' : List Event}
    (h : Explained N path es) (hes : ∀ ev ∈ es, ev ∈ es') : Explained N path es' :=
  h.imp (fun h => ⟨h.1, hes _ h.2⟩) fun ⟨ev, hev, h⟩ => ⟨ev, hes ev hev, h⟩

theorem HasError.mono {es es' : List Event} (h : HasError es) (hes : ∀ ev ∈ es, ev ∈ es') :
    HasError es' :=
  let ⟨ev, hev, h⟩ := h
  ⟨ev, hes ev hev, h⟩

theorem Event.error?_eq_some {ev : Event} {e : Error} (h : ev.error? = some e) :
    (∃ endless, ev = .failed e endless) ∨ ev = .collecting e := by
  cases ev <;> cases h
  · exact .inr rfl
  · exact .inl ⟨_, rfl⟩

theorem HasError.explained {N : Path → Prop} {path : Path} {es : List Event} (h : HasError es)
    (hl : ∀ ev ∈ es, ev.Lies (fun _ => True) path) : Explained N path es := by
  obtain ⟨ev, hev, hsome⟩ := h
  obtain ⟨e, he⟩ := Option.isSome_iff_exists.1 hsome
  obtain ⟨below, hb, -⟩ := hl ev hev
  have hp : e.path = some (path ++ below) := by
    rcases Event.error?_eq_some he with ⟨_, rfl⟩ | rfl <;> exact hb
  exact .inr ⟨ev, hev, e, _, he, hp, List.prefix_append _ _⟩

namespace Accounted

variable {N : Path → Prop} {path : Path} {v : Value} {es : List Event}

theorem nil (N : Path → Prop) (path : Path) (v : Value) : Accounted N path v [] :=
  ⟨nofun, nofun, fun _ _ _ _ h => nomatch h⟩

/-- A null at a path accounts for all that happened there. -/
theorem null (hN : N path) (hl : ∀ ev ∈ es, ev.Lies (fun _ => True) path) :
    Accounted N path .null es := by
  have hmeets : ∀ {ev : Event} {p : Path}, ev ∈ es → ev.path? = some p →
      MeetsNull N path .null p := by
    intro ev p hev hp
    obtain ⟨below, hb, -⟩ := hl ev hev
    cases hb.symm.trans hp
    exact ⟨[], rfl, by simp, by simpa using hN⟩
  refine ⟨fun e _ p he hp => hmeets he hp, fun e p he hp => .inl (hmeets he hp), ?_⟩
  intro below t hne hnull
  cases below with
  | nil => exact absurd rfl hne
  | cons => simp [Value.follow?] at hnull

/-- An event that is no error, and that reaches nothing below, changes nothing. -/
theorem cons (h : Accounted N path v es) {ev : Event} (he : ev.error? = none)
    (hr : ∀ below t, below ≠ [] → ev ≠ .reached (path ++ below) t) :
    Accounted N path v (ev :: es) where
  failed e endless p hmem := by
    rcases List.mem_cons.1 hmem with rfl | hmem
    · cases he
    · exact h.failed e endless p hmem
  collecting e p hmem := by
    rcases List.mem_cons.1 hmem with rfl | hmem
    · cases he
    · exact h.collecting e p hmem
  nulls below t hne hnull hmem := by
    rcases List.mem_cons.1 hmem with rfl | hmem
    · exact absurd rfl (hr below t hne)
    · exact (h.nulls below t hne hnull hmem).mono fun ev hev => List.mem_cons_of_mem _ hev

theorem append_collecting (h : Accounted N path v es) {errors : List Error}
    (he : ∀ e ∈ errors, e.path = some path) :
    Accounted N path v (errors.map .collecting ++ es) where
  failed e endless p hmem := by
    rcases List.mem_append.1 hmem with hmem | hmem
    · obtain ⟨_, -, hmem⟩ := List.mem_map.1 hmem
      cases hmem
    · exact h.failed e endless p hmem
  collecting e p hmem hp := by
    rcases List.mem_append.1 hmem with hmem | hmem
    · obtain ⟨_, he', hmem⟩ := List.mem_map.1 hmem
      cases hmem
      cases (he e he').symm.trans hp
      exact .inr ⟨[], v, by simp, rfl⟩
    · exact h.collecting e p hmem hp
  nulls below t hne hnull hmem := by
    rcases List.mem_append.1 hmem with hmem | hmem
    · obtain ⟨_, -, hmem⟩ := List.mem_map.1 hmem
      cases hmem
    · exact (h.nulls below t hne hnull hmem).mono fun ev hev => List.mem_append_right _ hev

theorem of_parts {elements : List PathElement} {outs : List (Completion × List Event)}
    {merged : List Event} {vs : List Value} (hparts : Parts path elements outs merged)
    (hvs : outs.map Prod.fst = vs.map .value) (hv : Holds elements vs v)
    (hpart : ∀ (i : Nat) e u ds, elements[i]? = some e → outs[i]? = some (.value u, ds) →
      Accounted N (path.join e) u ds ∧ (u = .null → Explained N (path.join e) ds)) :
    Accounted N path v merged := by
  have hvalue : ∀ {i : Nat} {d : Completion} {ds : List Event}, outs[i]? = some (d, ds) →
      ∃ u, d = .value u ∧ vs[i]? = some u := by
    intro i d ds hi
    have hd : (vs.map Completion.value)[i]? = some d := by
      rw [← hvs, List.getElem?_map, hi, Option.map_some]
    rw [List.getElem?_map] at hd
    obtain ⟨u, hu, rfl⟩ := Option.map_eq_some_iff.1 hd
    exact ⟨u, rfl, hu⟩
  have hmeets : ∀ {i : Nat} {e : PathElement} {u : Value} {p : Path}, elements[i]? = some e →
      vs[i]? = some u → MeetsNull N (path.join e) u p → MeetsNull N path v p := by
    rintro i e u p he hu ⟨r, hr, hpre, hN⟩
    rw [Path.join_append] at hpre hN
    exact ⟨e :: r, by rw [hv.follow?_cons i e u r he hu, hr], hpre, hN⟩
  refine ⟨fun e endless p hev hp => ?_, fun e p hev hp => ?_, fun below t hne hnull hev => ?_⟩
  · obtain ⟨i, el, d, ds, -, he, hi, hmem, -⟩ := hparts.exists_part hev
    obtain ⟨u, rfl, hu⟩ := hvalue hi
    exact hmeets he hu ((hpart i el u ds he hi).1.failed e endless p hmem hp)
  · obtain ⟨i, el, d, ds, -, he, hi, hmem, -⟩ := hparts.exists_part hev
    obtain ⟨u, rfl, hu⟩ := hvalue hi
    refine ((hpart i el u ds he hi).1.collecting e p hmem hp).imp (hmeets he hu) ?_
    rintro ⟨below, x, rfl, hx⟩
    have hfollow : v.follow? (el :: below) = some x := by
      rw [hv.follow?_cons i el u below he hu, hx]
    exact ⟨el :: below, x, path.join_append el below, hfollow⟩
  · cases below with
    | nil => exact absurd rfl hne
    | cons el below =>
      obtain ⟨i, he⟩ := List.mem_iff_getElem?.1 (hv.mem_of_follow? el below _ hnull)
      obtain ⟨⟨d, ds⟩, hi⟩ := hparts.exists_out he
      obtain ⟨u, rfl, hu⟩ := hvalue hi
      have hmem := hparts.mem_part he hi hev rfl
      obtain ⟨hacc, hown⟩ := hpart i el u ds he hi
      rw [hv.follow?_cons i el u below he hu] at hnull
      have hex : Explained N (path ++ el :: below) ds := by
        cases below with
        | nil =>
          cases hnull
          simpa [Path.join] using hown rfl
        | cons el' below =>
          rw [← Path.join_append] at hmem ⊢
          exact hacc.nulls _ t (List.cons_ne_nil _ _) hnull hmem
      exact hex.mono fun ev hev => hparts.mem_merged hi hev

end Accounted

/-- Errors and nulls account for each other in a completion at a path. It is null only if that is
explained, and it propagates only after an error. -/
def Completion.Accounts (N : Path → Prop) (path : Path) (nullExplained : Prop) (es : List Event) :
    Completion → Prop
  | propagate => HasError es
  | value v => Accounted N path v es ∧ (v = .null → nullExplained)

theorem Completion.Accounts.mono {N : Path → Prop} {path : Path} {E E' : Prop} {es : List Event}
    {c : Completion} (h : c.Accounts N path E es) (hE : E → E') : c.Accounts N path E' es := by
  cases c with
  | propagate => exact h
  | value v => exact ⟨h.1, fun hv => hE (h.2 hv)⟩

theorem Completion.Accounts.append_collecting {N : Path → Prop} {path : Path} {E : Prop}
    {es : List Event} {c : Completion} (h : c.Accounts N path E es) {errors : List Error}
    (he : ∀ e ∈ errors, e.path = some path) :
    c.Accounts N path E (errors.map .collecting ++ es) := by
  cases c with
  | propagate => exact HasError.mono h fun ev hev => List.mem_append_right _ hev
  | value v => exact ⟨h.1.append_collecting he, h.2⟩

/-- What is known of parts is known of the list or object that they make up. -/
theorem Combines.accounts {N : Path → Prop} {path : Path} {elements : List PathElement}
    {combine : List Completion → Completion} {build : List Value → Value}
    {outs : List (Completion × List Event)} {merged : List Event}
    (hc : Combines elements combine build) (hne : ∀ vs, build vs ≠ .null)
    (hparts : Parts path elements outs merged)
    (h : ∀ (i : Nat) e d ds, elements[i]? = some e → outs[i]? = some (d, ds) →
      d.Accounts N (path.join e) (Explained N (path.join e) ds) ds) :
    (combine (outs.map Prod.fst)).Accounts N path False merged := by
  have hl := hparts.length_completions
  cases hcase : combine (outs.map Prod.fst) with
  | propagate =>
    obtain ⟨i, e, ds, he, hi⟩ := hparts.exists_of_mem_completions ((hc.propagate_iff _ hl).1 hcase)
    exact HasError.mono (h i e _ ds he hi) fun ev hev => hparts.mem_merged hi hev
  | value v =>
    obtain ⟨vs, hvs, rfl⟩ := (hc.value_iff _ v hl).1 hcase
    have hlen : elements.length = vs.length := by rw [← hl, hvs, List.length_map]
    exact ⟨.of_parts hparts hvs (hc.holds vs hlen) fun i e u ds he hi => h i e _ ds he hi, hne vs⟩

namespace Job

/-- If the position of the job takes null, it has the property `N`; for a job that begins with
reaching its position that is told there. -/
def Grants (N : Path → Prop) : Job → Prop
  | defined _ d _ path => d.type.isNonNull = false → N path
  | resolved _ type _ path => type.isNonNull = false → N path
  | position _ refusesNull type _ path => refusesNull = false → type.isNonNull = false → N path
  | _ => True

/-- Why the job may come to null. An object does not, and a value does only if it was null. -/
def NullExplained (N : Path → Prop) (es : List Event) : Job → Prop
  | object _ _ _ _ => False
  | position _ _ _ v path => N path ∧ v = .null ∨ HasError es
  | value _ _ v _ => v = .null
  | job => Explained N job.path es

def Accounts (N : Path → Prop) (job : Job) (es : List Event) (c : Completion) : Prop :=
  c.Accounts N job.path (job.NullExplained N es) es

end Job

namespace Does

variable {s : Setting} {w : World} {N : Path → Prop} {room : Nat} {job : Job} {c : Completion}
  {es : List Event}

theorem hasError_failed (e : Error) (endless : Bool) : HasError [.failed e endless] :=
  ⟨_, List.mem_singleton_self _, rfl⟩

theorem accounts_givenUp {type : TypeRef} {e : Error} {endless : Bool} {path : Path}
    (he : e.path = some path) (hN : type.isNonNull = false → N path)
    (hj : Explained N path [.failed e endless] → job.NullExplained N [.failed e endless])
    (hp : job.path = path) : job.Accounts N [.failed e endless] type.givenUp := by
  subst hp
  unfold TypeRef.givenUp
  split
  · exact hasError_failed e endless
  · next hn =>
    have hl : ∀ ev ∈ [Event.failed e endless], ev.Lies (fun _ => True) job.path := by
      intro ev hev
      rw [List.mem_singleton.1 hev]
      exact .here he
    exact ⟨.null (hN (by simpa using hn)) hl, fun _ =>
      hj ((hasError_failed e endless).explained hl)⟩

theorem accounts_cons {job' : Job} {ev : Event} (h : job.Accounts N es c)
    (hp : job'.path = job.path) (he : ev.error? = none) (hev : ev.path? = some job.path)
    (hj : c = .value .null → job.NullExplained N es → job'.NullExplained N (ev :: es)) :
    job'.Accounts N (ev :: es) c := by
  cases c with
  | propagate => exact HasError.mono h fun ev hev => List.mem_cons_of_mem _ hev
  | value v =>
    refine ⟨hp ▸ h.1.cons he fun below t hne hr => ?_, ?_⟩
    · subst hr
      exact hne (by simpa using Option.some.inj hev)
    · rintro rfl
      exact hj rfl (h.2 rfl)

theorem accounts_produced {site : FieldSite} {type : TypeRef} {value : Value} {path : Path}
    (result : Except FieldError Value)
    (h : Does s w room (.position site false type value path) c es)
    (haccounts : (Job.position site false type value path).Accounts N es c) :
    (Job.resolved site type result path).Accounts N (.produced path value :: es) c := by
  refine accounts_cons haccounts rfl rfl rfl ?_
  rintro - (⟨hN, rfl⟩ | herror)
  · exact .inl ⟨hN, List.mem_cons_self⟩
  · exact (herror.explained h.lies_true).mono fun ev hev => List.mem_cons_of_mem _ hev

theorem accounts (hs : s.schema.WellFormed) (hw : ¬ w.refuses .skipped)
    (h : Does s w room job c es) (hj : job.Regular)
    (hN : ∀ q t, .reached q t ∈ es → TakesNull t → N q) (hg : job.Grants N) :
    job.Accounts N es c := by
  induction h with
  | tooDeep => exact hasError_failed _ _
  | @object room type value selections path context collected outs merged hc hcol hl ho hm ih =>
    have hparts := parts_object hcol hl ho hm
    have htidy := s.collect_tidy_true ⟨type.name, path, context⟩ selections
    rw [hcol] at htidy
    refine ((Combines.object htidy.nodup).accounts (fun _ => nofun) hparts
      fun i e d ds he hi => ?_).append_collecting htidy.errors
    obtain ⟨key, fields, hg, rfl⟩ := PathElement.eq_of_getElem?_keys he
    refine ih i key fields d ds hg hi
      ⟨(htidy.groups _ _ (List.mem_of_getElem? hg)).1, hj⟩ (fun q t hmem => ?_) trivial
    exact hN q t (List.mem_append_right _ (hparts.mem_merged hi hmem))
  | unselected => exact absurd rfl hj.1
  | typename => exact ⟨.nil _ _ _, nofun⟩
  | @undefined room type f parent fields path hname hd =>
    have hdoes : Does s w room (.field type parent (f :: fields) path) _ _ :=
      undefined parent fields path hname hd
    have hl := hdoes.lies_true
    refine ⟨.null (hN path none List.mem_cons_self nofun) hl, fun _ => ?_⟩
    exact HasError.explained ⟨_, List.mem_cons_of_mem _ (List.mem_singleton_self _), rfl⟩ hl
  | @field room type f d parent fields path c es hname hd h ih =>
    refine accounts_cons (ih (hj.2 _ (Entries.mem_of_get? hd)) ?_ ?_) rfl rfl rfl ?_
    · exact fun q t hmem => hN q t (List.mem_cons_of_mem _ hmem)
    · exact fun hn => hN path (some d.type) List.mem_cons_self fun t ht => Option.some.inj ht ▸ hn
    · exact fun _ hex => Explained.mono hex fun ev hev => List.mem_cons_of_mem _ hev
  | invalidArgument => exact accounts_givenUp rfl hg id rfl
  | unresolved _ _ _ ih => exact ih hj hN hg
  | skipped _ _ _ _ hr => exact absurd hr hw
  | timedOut => exact accounts_givenUp rfl hg id rfl
  | called _ _ hi _ _ _ ih =>
    subst hi
    refine accounts_cons (ih hj (fun q t hmem => hN q t (List.mem_cons_of_mem _ hmem)) hg)
      rfl rfl rfl ?_
    exact fun _ hex => Explained.mono hex fun ev hev => List.mem_cons_of_mem _ hev
  | failed => exact accounts_givenUp rfl hg id rfl
  | @produced room site result context value type path c es hc hv h ih =>
    refine accounts_produced result h (ih ⟨hj, nofun⟩ (fun q t hmem => ?_) fun _ => hg)
    exact hN q t (List.mem_cons_of_mem _ hmem)
  | @item room site type value path c es h ih =>
    have hN' : ∀ q t, .reached q t ∈ es → TakesNull t → N q := fun q t hmem =>
      hN q t (List.mem_cons_of_mem _ (List.mem_cons_of_mem _ hmem))
    have hNp : type.isNonNull = false → N path := fun hn =>
      hN path (some type) List.mem_cons_self fun t ht => Option.some.inj ht ▸ hn
    refine accounts_cons
      (accounts_produced (.ok value) h (ih ⟨hj, nofun⟩ hN' fun _ => hNp)) rfl rfl rfl ?_
    exact fun _ hex => Explained.mono hex fun ev hev => List.mem_cons_of_mem _ hev
  | marked _ ih =>
    have haccounts := ih ⟨hj.1.2, fun _ => hj.1.1⟩ hN nofun
    exact haccounts
  | @absorbed room site type value path c es hn h ih =>
    have haccounts := ih ⟨hj.1, hn⟩ hN trivial
    cases c with
    | propagate => exact ⟨.null (hg rfl hn) h.lies_true, fun _ => .inr haccounts⟩
    | value v => exact ⟨haccounts.1, fun hv => .inl ⟨hg rfl hn, haccounts.2 hv⟩⟩
  | refused hc h _ => exact ⟨_, List.mem_append_right _ (List.mem_singleton_self _), rfl⟩
  | @kept room site type value path c es hc h ih =>
    have haccounts := ih ⟨hj.1, hj.2 rfl⟩ hN trivial
    cases c with
    | propagate => exact haccounts
    | value v =>
      refine ⟨haccounts.1, ?_⟩
      rintro rfl
      cases hc
  | null => exact ⟨.nil _ _ _, fun _ => rfl⟩
  | unmarked => exact absurd hj.2 nofun
  | @array room site type items path outs merged hl ho hm ih =>
    have hparts := parts_array hl ho hm
    refine ((Combines.array items.length).accounts (fun _ => nofun) hparts
      fun i e d ds he hi => ?_).mono False.elim
    obtain ⟨hlt, rfl⟩ := PathElement.eq_of_getElem?_indices he
    exact ih i _ d ds (List.getElem?_eq_getElem hlt) hi hj.1
      (fun q t hmem => hN q t (hparts.mem_merged hi hmem)) trivial
  | leaf site path hv hl hv' =>
    refine ⟨.nil _ _ _, ?_⟩
    rintro rfl
    cases TypeRef.isNull_of_coerceOutput hv hv'
  | @ofObject room site name type value path c es hv ht h ih =>
    exact (ih (hs _ _ ht).2 hN trivial).mono False.elim
  | @ofAbstract room site name d type value path c es hv hd ha ht h ih =>
    obtain ⟨claimed, -, -, hclaimed⟩ := Schema.exists_of_concreteType? ht
    exact (ih (hs _ _ hclaimed).2 hN trivial).mono False.elim
  | notArray | invalidLeaf | noConcrete | unknownType => exact hasError_failed _ _

end Does

/-- Null may stand at a path: at the root, or at a position that takes it. -/
def NullableAt (es : List Event) (path : Path) : Prop :=
  path = [] ∨ ∃ t, .reached path t ∈ es ∧ TakesNull t

/-- The longest beginning of a path at which null may stand. -/
structure NearestNullable (es : List Event) (p q : Path) : Prop where
  begins : q <+: p
  nullable : NullableAt es q
  longest : ∀ r, r <+: p → NullableAt es r → r <+: q

theorem exists_nearestNullable (es : List Event) (p : Path) : ∃ q, NearestNullable es p q := by
  induction p using List.reverseRecOn with
  | nil => exact ⟨[], List.prefix_rfl, .inl rfl, fun r hr _ => hr⟩
  | append_singleton p element ih =>
    by_cases hn : NullableAt es (p ++ [element])
    · exact ⟨_, List.prefix_rfl, hn, fun r hr _ => hr⟩
    · obtain ⟨q, hq⟩ := ih
      refine ⟨q, hq.begins.trans (List.prefix_append _ _), hq.nullable, fun r hr hrn => ?_⟩
      rcases List.prefix_concat_iff.1 hr with rfl | hr
      · exact absurd hrn hn
      · exact hq.longest r hr hrn

theorem MeetsNull.exists_nearest {es : List Event} {v : Value} {p : Path}
    (h : MeetsNull (NullableAt es) [] v p) :
    ∃ q r, NearestNullable es p q ∧ r <+: q ∧ v.follow? r = some .null := by
  obtain ⟨r, hnull, hr, hn⟩ := h
  obtain ⟨q, hq⟩ := exists_nearestNullable es p
  exact ⟨q, r, hq, hq.longest r hr hn, hnull⟩

/-- What an execution has done and the data and errors that it comes to account for each other. -/
structure NullsAccounted (es : List Event) (out : Output) : Prop where
  recorded : out.errors.Perm (es.filterMap Event.error?)
  /-- A path leads to an error only through positions that were reached. -/
  traced : Event.Traced [] es
  /-- Along the path of an error of a field or an item there is a null, at the nearest position that
  takes it or before that. -/
  failed : ∀ e endless, .failed e endless ∈ es → ∃ p q r, e.path = some p ∧
    NearestNullable es p q ∧ r <+: q ∧ out.data.follow? r = some .null
  /-- The path of an error of a selection set is in the data, or there is such a null. -/
  collecting : ∀ e, .collecting e ∈ es → ∃ p, e.path = some p ∧
    ((∃ v, out.data.follow? p = some v) ∨
      ∃ q r, NearestNullable es p q ∧ r <+: q ∧ out.data.follow? r = some .null)
  /-- A null was produced where it is taken, or there is an error at its path or below. -/
  nulls : ∀ p t, .reached p t ∈ es → out.data.follow? p = some .null →
    TakesNull t ∧ .produced p .null ∈ es ∨
      ∃ e ∈ out.errors, ∃ below, e.path = some (p ++ below)
  root : out.data = .null → out.errors ≠ []
  /-- A position has one error of its own at most, and then none of its selection set. -/
  once : ((es.filterMap Event.failure?).map Error.path).Nodup
  apart : ∀ e endless e', .failed e endless ∈ es → .collecting e' ∈ es → e.path ≠ e'.path

namespace Does

variable {s : Setting} {w : World} {room : Nat} {c : Completion} {es : List Event}
  {type : ObjectType} {value : Value} {selections : List (Selection Literal)}

theorem nullsAccounted (hs : s.schema.WellFormed) (hw : ¬ w.refuses .skipped)
    (h : Does s w room (.object type value selections []) c es)
    (htype : ∀ e ∈ type.fields, e.2.type.Plain) :
    NullsAccounted es (.of c (es.filterMap Event.error?)) := by
  have hclash := h.pairwise_not_clash hs htype
  have haccounts := h.accounts hs hw htype
    (fun q t hmem ht => (.inr ⟨t, hmem, ht⟩ : NullableAt es q)) trivial
  have hdata : Accounted (NullableAt es) [] c.data es ∧ (c.data = .null → HasError es) := by
    cases c with
    | propagate => exact ⟨.null (.inl rfl) h.lies_true, fun _ => haccounts⟩
    | value v => exact ⟨haccounts.1, fun hv => (haccounts.2 hv).elim⟩
  have hpath : ∀ {ev}, ev ∈ es → ∃ p, ev.path? = some p := fun hev =>
    let ⟨below, hb, _⟩ := h.lies_true _ hev
    ⟨_, hb⟩
  have herror : ∀ {ev e}, ev ∈ es → ev.error? = some e →
      e ∈ (Output.of c (es.filterMap Event.error?)).errors := fun hev he =>
    mem_sortErrors.2 (List.mem_filterMap.2 ⟨_, hev, he⟩)
  refine
    { recorded := sortErrors_perm _ _
      traced := h.traced
      failed := fun e endless he => ?_
      collecting := fun e he => ?_
      nulls := fun p t hmem hnull => ?_
      root := fun hnull => ?_
      once := ?_
      apart := fun e endless e' he he' => ?_ }
  · obtain ⟨p, hp⟩ := hpath he
    obtain ⟨q, r, hq, hr, hnull⟩ := (hdata.1.failed e endless p he hp).exists_nearest
    exact ⟨p, q, r, hp, hq, hr, hnull⟩
  · obtain ⟨p, hp⟩ := hpath he
    refine ⟨p, hp, (hdata.1.collecting e p he hp).symm.imp ?_ MeetsNull.exists_nearest⟩
    rintro ⟨below, v, rfl, hv⟩
    exact ⟨v, hv⟩
  · have hne : p ≠ [] := by
      rintro rfl
      exact h.not_reached nofun t hmem
    refine (hdata.1.nulls p t hne hnull hmem).imp ?_ ?_
    · rintro ⟨hn | ⟨t', hmem', ht'⟩, hproduced⟩
      · exact absurd hn hne
      · cases reached_unique hclash hmem hmem'
        exact ⟨ht', hproduced⟩
    · rintro ⟨ev, hev, e, _, he, hp, below, rfl⟩
      exact ⟨e, herror hev he, below, hp⟩
  · obtain ⟨ev, hev, hsome⟩ := hdata.2 hnull
    obtain ⟨e, he⟩ := Option.isSome_iff_exists.1 hsome
    exact List.ne_nil_of_mem (herror hev he)
  · refine List.pairwise_map.2 (List.pairwise_filterMap.2 (hclash.imp fun hab e he e' he' => ?_))
    obtain ⟨_, rfl⟩ := Event.failure?_eq_some he
    obtain ⟨_, rfl⟩ := Event.failure?_eq_some he'
    exact hab
  · exact forall_not_clash hclash he he' nofun

end Does

end GraphQL.Execution

namespace GraphQL.Submission

open Json Execution

variable {Memory : Type}

end GraphQL.Submission
