import GraphQL.Proofs.Execution.Collection
import GraphQL.Proofs.Execution.Composition
import GraphQL.Proofs.Execution.Data
import GraphQL.Proofs.Execution.Positions
import GraphQL.Proofs.Execution.Safety

/-!
Tasks whose parts keep to places of their own.

What the parts of a fork do has paths in zones that are apart, and no call has the path of an error
that came before it (`Task.Parted`). So where one part is put in place of another, nothing else in
the task has its path (`Task.Parted.safe_replace`). The tasks of operations are of this kind
(`Setting.parted_root`), and they stay so in all that can happen (`State.parted_of_reaches`).
-/

set_option autoImplicit false

namespace GraphQL

open Json

namespace Execution

/-- The path of an event, if it has one, is of some kind. -/
def Event.In (Z : Path → Prop) (ev : Event) : Prop := ∀ p, ev.path? = some p → Z p

/-- An event is not a call at a path. -/
def Event.Spares (path : Option Path) (ev : Event) : Prop :=
  ∀ i, ev = .invoked i → some i.path ≠ path

theorem Event.In.mono {Z Z' : Path → Prop} {ev : Event} (h : ev.In Z) (hZ : ∀ p, Z p → Z' p) :
    ev.In Z' := fun p hp => hZ p (h p hp)

theorem Event.spares_of_path?_ne {p : Path} {ev : Event} (h : ev.path? ≠ some p) :
    ev.Spares (some p) := by
  rintro i rfl
  exact h

theorem World.any_covers (first last : State) (number : Nat) :
    World.any.Covers first last number where
  sees _ _ _ _ := trivial
  admits _ _ _ _ _ := trivial
  refuses st run _ _ _ h resolution hr :=
    State.refusal?_ne_resolved number run st resolution (hr ▸ h)
  answers _ _ _ _ _ _ _ := trivial

namespace Task

theorem bind_done (t : Task) : t.bind .done = t := by
  fun_induction bind done t with
  | case1 c => rfl
  | case2 e next ih => exact congrArg (emit e) ih
  | case3 next ih => exact congrArg read (funext ih)
  | case4 k stage next ih => exact congrArg (call k stage) (funext ih)
  | case5 s children next ih => exact congrArg (fork s children) (funext ih)

theorem Safe.mono {w : World} {Q Q' : Event → Prop} (hQ : ∀ ev, Q ev → Q' ev) {t : Task}
    (h : Safe w Q t) : Safe w Q' t := by
  induction h with
  | done c => exact .done c
  | emit he _ ih => exact .emit (hQ _ he) ih
  | read _ ih => exact .read ih
  | call stage hs hk _ _ ihr iha => exact .call stage hs (hQ _ hk) ihr iha
  | answered k _ ih => exact .answered k ih
  | fork s _ _ ihc ih => exact .fork s ihc ih

/-- A call that has no answer yet may be made. -/
theorem Safe.of_call {w : World} {Q : Event → Prop} {k : Call} {stage : Stage}
    {next : Reply → Task} (h : Safe w Q (.call k stage next)) (hs : ∀ r, stage ≠ .answered r) :
    Q (.invoked k.invocation) := by
  cases h with
  | call _ _ hk => exact hk
  | answered => exact absurd rfl (hs _)

theorem Safe.of_emit {w : World} {Q : Event → Prop} {e : Event} {next : Task}
    (h : Safe w Q (.emit e next)) : Q e := by
  cases h with | emit he _ => exact he

/-- The parts of every fork have zones of their own, and no call has the path of an earlier error.
A call that is skipped leaves nothing to be done. The strategies are of some kind. -/
inductive Parted (S : Strategy → Prop) : Task → Prop where
  | done (c : Completion) : Parted S (.done c)
  | emit {e : Event} {next : Task} : e.invocation? = none →
      (∀ error, e.error? = some error →
        ∃ p, error.path = some p ∧ Safe .any (Event.Spares (some p)) next) →
      Parted S next → Parted S (.emit e next)
  | read {next : Context → Task} : (∀ context, Parted S (next context)) → Parted S (.read next)
  | call (k : Call) (stage : Stage) {next : Reply → Task} : (∃ c, next .skipped = .done c) →
      (∀ r, Parted S (next r)) → Parted S (.call k stage next)
  | fork {s : Strategy} {children : List Task} {next : List Completion → Task}
      (zone : Nat → Path → Prop) : S s → (∀ i j p, zone i p → zone j p → i = j) →
      (∀ i t, children[i]? = some t → Safe .any (Event.In (zone i)) t) →
      (∀ cs, Safe .any (Event.In fun p => ∀ i, ¬ zone i p) (next cs)) →
      (∀ t ∈ children, Parted S t) → (∀ cs, Parted S (next cs)) →
      Parted S (.fork s children next)

namespace Parted

variable {S : Strategy → Prop}

theorem failed {e : Error} {p : Path} (he : e.path = some p) (endless : Bool) (c : Completion) :
    Parted S (.emit (.failed e endless) (.done c)) := by
  refine .emit rfl (fun error herror => ?_) (.done c)
  cases herror
  exact ⟨p, he, .done c⟩

theorem of_reach? {path : List Nat} {whole t : Task} (hw : Parted S whole)
    (hr : reach? path whole = some t) : Parted S t :=
  of_reach?_of_parts (fun h => by cases h with | fork _ _ _ _ _ hs _ => exact hs) hw hr

/-- A part may be replaced by one that does nothing new. -/
theorem replace {t u : Task} (hu : Parted S u) (hsafe : ∀ Q, Safe .any Q t → Safe .any Q u) :
    ∀ {path : List Nat} {whole : Task}, reach? path whole = some t → Parted S whole →
      Parted S (Task.replace u path whole)
  | [], whole, _, _ => by simpa [Task.replace] using hu
  | i :: path, whole, hr, hw => by
    obtain ⟨s, children, next, child, rfl, -, hi, hc⟩ := exists_of_reach?_cons hr
    cases hw with
    | fork zone hS hzone hsafes hnext hs hn =>
      have hchild := hu.replace hsafe hc (hs child (List.mem_of_getElem? hi))
      refine .fork zone hS hzone ?_ hnext (forall_mem_modify hi hs hchild) hn
      refine forall_getElem?_modify (Q := fun j => Safe .any (Event.In (zone j))) hi
        (fun j t hj _ => hsafes j t hj) ?_
      exact (hsafe _ ((hsafes i child hi).of_reach? hc)).replace hc (hsafes i child hi)

/-- Where a part may do something at a path, nothing outside of that part is done at the path. -/
theorem safe_replace {R : Event → Prop} {p : Path} (hR : ∀ ev : Event, ev.path? ≠ some p → R ev)
    {t u : Task} {ev : Event} (hev : ev.path? = some p) (ht : ∀ Q, Safe .any Q t → Q ev)
    (hu : Safe .any R u) : ∀ {path : List Nat} {whole : Task}, Parted S whole →
      reach? path whole = some t → Safe .any R (Task.replace u path whole)
  | [], whole, _, _ => by simpa [Task.replace] using hu
  | i :: path, whole, hw, hr => by
    obtain ⟨s, children, next, child, rfl, -, hi, hc⟩ := exists_of_reach?_cons hr
    cases hw with
    | fork zone _ hzone hsafes hnext hs _ =>
      have hp : zone i p := ht _ ((hsafes i child hi).of_reach? hc) p hev
      have hchild := (hs child (List.mem_of_getElem? hi)).safe_replace hR hev ht hu hc
      refine .fork s (fun t' ht' => ?_) fun cs => (hnext cs).mono fun ev hev => hR ev fun h =>
        hev p h i hp
      obtain ⟨j, hj⟩ := List.mem_iff_getElem?.1 ht'
      refine forall_getElem?_modify (Q := fun _ => Safe .any R) hi (fun j v hv hij => ?_) hchild
        j t' hj
      exact (hsafes j v hv).mono fun ev hev => hR ev fun h => hij (hzone i j p hp (hev p h))

theorem of_move {st : State} {number : Nat} {run : Run} {p : Position} {t u : Task}
    {es : List Event} {change : LineChange} {contexts : ContextStore}
    (hm : State.Move st number run p t u es change contexts) (ht : Parted S t) : Parted S u := by
  cases hm with
  | emit => cases ht with | emit _ _ hn => exact hn
  | read => cases ht with | read hn => exact hn _
  | join => cases ht with | fork _ _ _ _ _ _ hn => exact hn _
  | refuse => cases ht with | call _ _ _ hn => exact hn _
  | reply => cases ht with | call _ _ _ hn => exact hn _
  | ask | grant | begin | beginAnswer | pause | answer =>
    cases ht with | call _ _ hskipped hn => exact .call _ _ hskipped hn

/-- A step leaves the parts apart. -/
theorem after {st : State} {number : Nat} {run : Run} {path : List Nat} {t u : Task}
    {es : List Event} {change : LineChange} {contexts : ContextStore} (hp : Parted S run.task)
    (hr : st.runs[number]? = some run) (ht : run.task.reach? path = some t)
    (hm : State.Move st number run (number :: path).reverse t u es change contexts)
    (ha : st.advance (number :: path).reverse =
      some (st.after number path u es change contexts)) :
    Parted S (Task.replace u path run.task) :=
  ((hp.of_reach? ht).of_move hm).replace
    (fun _ hQ => (hQ.of_move (World.any_covers _ _ _) hr ht hm ha (.refl _)).2) ht hp

end Parted

/-- The task of a value at a path: its calls are all made in the parts of a fork. -/
inductive Rooted (S : Strategy → Prop) (path : Path) : Task → Prop where
  | done (c : Completion) : Rooted S path (.done c)
  | emit {e : Event} {next : Task} : e.invocation? = none → e.path? = some path →
      Rooted S path next → Rooted S path (.emit e next)
  | read {next : Context → Task} : (∀ context, Rooted S path (next context)) →
      Rooted S path (.read next)
  | fork {s : Strategy} {children : List Task} {next : List Completion → Task}
      (elements : List PathElement) : S s → elements.Nodup →
      children.length = elements.length → (∀ t ∈ children, Parted S t) →
      (∀ (i : Nat) t e, children[i]? = some t → elements[i]? = some e →
        Safe .any (Event.In (path.join e <+: ·)) t) →
      (∀ cs, ∃ c, next cs = .done c) → Rooted S path (.fork s children next)

namespace Rooted

variable {S : Strategy → Prop} {path : Path}

theorem emitAll {next : Task} (h : Rooted S path next) {errors : List Error}
    (herrors : ∀ e ∈ errors, e.path = some path) :
    Rooted S path (Task.emitAll (errors.map .collecting) next) := by
  induction errors with
  | nil => exact h
  | cons e errors ih =>
    obtain ⟨he, herrors⟩ := List.forall_mem_cons.1 herrors
    exact .emit rfl he (ih herrors)

/-- Whatever is done at the path afterwards, without a call, is apart from the parts of the value. -/
theorem bind {f : Completion → Task} (hf : ∀ c, Parted S (f c) ∧
      Safe .any (fun ev => ev.path? = some path ∧ ev.Spares (some path)) (f c)) {t : Task}
    (h : Rooted S path t) : Parted S (t.bind f) ∧
      Safe .any (fun ev => ev.In (path <+: ·) ∧ ev.Spares (some path)) (t.bind f) := by
  have hhere : ∀ ev : Event, ev.path? = some path → ev.In (path <+: ·) := by
    intro ev hev p hp
    rw [hev, Option.some.injEq] at hp
    exact hp ▸ List.prefix_rfl
  induction h with
  | done c => exact ⟨(hf c).1, (hf c).2.mono fun ev hev => ⟨hhere ev hev.1, hev.2⟩⟩
  | @emit e next he hpath _ ih =>
    refine ⟨.emit he (fun error herror => ⟨path, ?_, ih.2.mono fun ev hev => hev.2⟩) ih.1,
      .emit ⟨hhere e hpath, ?_⟩ ih.2⟩
    · rw [← Event.path?_of_error? herror, hpath]
    · rintro i rfl
      cases he
  | read _ ih => exact ⟨.read fun c => (ih c).1, .read fun c _ => (ih c).2⟩
  | @fork s children next elements hS hnodup hl hs hsafe hnext =>
    have hlong : ∀ (e : PathElement), ¬ path.join e <+: path := by
      intro e h
      have hlength := h.length_le
      rw [Path.join, List.length_append] at hlength
      exact Nat.not_succ_le_self _ hlength
    have hdone : ∀ cs, ∃ c, (next cs).bind f = f c := fun cs => by
      obtain ⟨c, hc⟩ := hnext cs
      exact ⟨c, by rw [hc, Task.bind]⟩
    constructor
    · refine .fork (fun i p => ∃ e, elements[i]? = some e ∧ path.join e <+: p) hS ?_ ?_ ?_ hs ?_
      · rintro i j p ⟨e, he, hp⟩ ⟨e', he', hp'⟩
        have heq : path.join e = path.join e' := by
          refine (List.prefix_of_prefix_length_le hp hp' ?_).eq_of_length ?_ <;>
            simp [Path.join]
        obtain rfl : e = e' := by simpa [Path.join] using heq
        obtain ⟨hlt, -⟩ := List.getElem?_eq_some_iff.1 he
        exact (List.getElem?_inj hlt hnodup).1 (he.trans he'.symm)
      · intro i t ht
        obtain ⟨hlt, -⟩ := List.getElem?_eq_some_iff.1 ht
        have he : elements[i]? = some elements[i] := List.getElem?_eq_getElem (by omega)
        exact (hsafe i t _ ht he).mono fun ev hev => hev.mono fun p hp => ⟨_, he, hp⟩
      · intro cs
        obtain ⟨c, hc⟩ := hdone cs
        refine hc ▸ (hf c).2.mono fun ev hev p hp i => ?_
        rintro ⟨e, -, hbelow⟩
        rw [hev.1, Option.some.injEq] at hp
        exact hlong e (hp ▸ hbelow)
      · intro cs
        obtain ⟨c, hc⟩ := hdone cs
        exact hc ▸ (hf c).1
    · refine .fork s (fun t ht => ?_) fun cs => ?_
      · obtain ⟨i, hi⟩ := List.mem_iff_getElem?.1 ht
        obtain ⟨hlt, -⟩ := List.getElem?_eq_some_iff.1 hi
        refine (hsafe i t _ hi (List.getElem?_eq_getElem (by omega))).mono fun ev hev =>
          ⟨hev.mono fun p hp => (List.prefix_append path _).trans hp, ?_⟩
        rintro i rfl hpath
        exact hlong _ (hev path hpath)
      · obtain ⟨c, hc⟩ := hdone cs
        exact hc ▸ (hf c).2.mono fun ev hev => ⟨hhere ev hev.1, hev.2⟩

end Rooted

end Task

open GraphQL.Execution.Task (Safe Parted Rooted)

namespace FieldSite

/-- What settles a position makes no call. -/
theorem parted_settled (S : Strategy → Prop) (site : FieldSite) (refusesNull : Bool) (path : Path)
    (c : Completion) :
    let settled : Task :=
      if refusesNull then
        if c.isNull then
          site.fail ("Cannot return null for non-nullable field " ++ site.qualifiedName ++ ".") path
        else .done c
      else .done c.absorb
    Parted S settled ∧
      Safe .any (fun ev => ev.path? = some path ∧ ev.Spares (some path)) settled := by
  intro settled
  simp only [settled]
  split
  · split
    · exact ⟨.failed rfl _ _, .emit ⟨rfl, nofun⟩ (.done _)⟩
    · exact ⟨.done _, .done _⟩
  · exact ⟨.done _, .done _⟩

end FieldSite

/-- Positions keep to the paths below their own. -/
theorem Composed.parted {s : Setting} {S : Strategy → Prop} {T : ObjectType → Prop} {layer : Layer}
    {room : Nat} {path : Path} {t : Task} (h : Composed s .any S T False layer room path t) :
    (layer = .position → Parted S t ∧ Safe .any (Event.In (path <+: ·)) t) ∧
      (layer = .value → Rooted S path t) := by
  have hposition : ∀ {path : Path} {t : Task},
      Parted S t ∧ Safe .any (Event.In (path <+: ·)) t →
      (Layer.position = .position → Parted S t ∧ Safe .any (Event.In (path <+: ·)) t) ∧
        (Layer.position = .value → Rooted S path t) := fun ht => ⟨fun _ => ht, nofun⟩
  have hvalue : ∀ {path : Path} {t : Task}, Rooted S path t →
      (Layer.value = .position → Parted S t ∧ Safe .any (Event.In (path <+: ·)) t) ∧
        (Layer.value = .value → Rooted S path t) := fun ht => ⟨nofun, fun _ => ht⟩
  have hin : ∀ {ev : Event} {path : Path}, ev.path? = some path → ev.In (path <+: ·) := by
    intro ev path hev p hp
    rw [hev, Option.some.injEq] at hp
    exact hp ▸ List.prefix_rfl
  induction h with
  | done layer room path c => exact ⟨fun _ => ⟨.done c, .done c⟩, fun _ => .done c⟩
  | fail he => exact hvalue (.emit rfl he.path_eq (.done _))
  | giveUp c he =>
    exact hposition ⟨.failed he.path_eq _ c, .emit (hin he.path_eq) (.done _)⟩
  | reached type _ ih =>
    exact hposition ⟨.emit rfl nofun (ih.1 rfl).1, .emit (hin rfl) (ih.1 rfl).2⟩
  | produced value _ ih =>
    exact hposition ⟨.emit rfl nofun (ih.1 rfl).1, .emit (hin rfl) (ih.1 rfl).2⟩
  | read _ ih =>
    exact hposition ⟨.read fun context => ((ih context trivial).1 rfl).1,
      .read fun context hc => ((ih context hc).1 rfl).2⟩
  | @call room path type site d resolver arguments parent next _ _ _ _ _ hskipped _ _ iht ihr =>
    obtain ⟨c, hc⟩ := hskipped
    refine hposition ⟨.call _ _ ⟨c, hc⟩ fun r => ?_,
      .call _ nofun (hin rfl) (fun r hr => ?_) fun r hr => ((ihr r hr).1 rfl).2⟩
    · cases r with
      | skipped => exact hc ▸ .done c
      | timedOut => exact (iht.1 rfl).1
      | resolved r => exact ((ihr r trivial).1 rfl).1
    · cases r with
      | skipped => exact hc ▸ .done c
      | timedOut => exact (iht.1 rfl).2
      | resolved r => exact absurd rfl (hr r)
  | settle site refusesNull _ ih =>
    have hsettle := (ih.2 rfl).bind fun c => site.parted_settled S refusesNull _ c
    exact hposition ⟨hsettle.1, hsettle.2.mono fun ev hev => hev.1⟩
  | unmarked hmarks => exact hmarks.elim
  | @items room path strategy children hS _ ih =>
    refine hvalue (.fork ((List.range children.length).map .index) hS
      (List.nodup_range.map fun i j hij => ?_) (by simp) (fun t ht => ?_) (fun i t e ht he => ?_)
      fun cs => ⟨_, rfl⟩)
    · cases hij
      rfl
    · obtain ⟨i, hi⟩ := List.mem_iff_getElem?.1 ht
      exact ((ih i t hi).1 rfl).1
    · obtain ⟨-, rfl⟩ := PathElement.eq_of_getElem?_indices he
      exact ((ih i t ht).1 rfl).2
  | @object room path strategy type selections field hS _ ih =>
    refine hvalue (.read fun context => ?_)
    have htidy := s.collect_tidy_true ⟨type.name, path, context⟩ selections
    refine .emitAll (.fork ((Entries.keys (s.collect ⟨type.name, path, context⟩ selections).groups).map
      .key) hS (htidy.nodup.map fun k l hkl => ?_) (by simp [Entries.keys]) (fun t ht => ?_)
      (fun i t e ht he => ?_) fun cs => ⟨_, rfl⟩) htidy.errors
    · cases hkl
      rfl
    · obtain ⟨group, -, rfl⟩ := List.mem_map.1 ht
      exact ((ih group.1 group.2).1 rfl).1
    · obtain ⟨key, fields, hgroup, rfl⟩ := PathElement.eq_of_getElem?_keys he
      rw [List.getElem?_map, hgroup, Option.map_some, Option.some.injEq] at ht
      exact ht ▸ ((ih key fields).1 rfl).2

/-- The task of an operation keeps its parts apart. -/
theorem Setting.parted_root {s : Setting} {S : Strategy → Prop} (hs : s.schema.WellFormed)
    (hnested : S s.nested) {strategy : Strategy} (hstrategy : S strategy) {type : ObjectType}
    (ht : (TypeDefinition.object type).Plain) (value : Value)
    (selections : List (Selection Literal)) :
    Parted S (s.root strategy type value selections) := by
  have hcomposed : Composed s .any S (fun type => (TypeDefinition.object type).Plain) False .value
      (s.recursionLimit + 1) [] (s.root strategy type value selections) :=
    composed_of_wellFormed hs hnested hstrategy ht value selections
  have hrooted := hcomposed.parted.2 rfl
  have hdone := hrooted.bind (f := .done) fun c => ⟨.done c, .done c⟩
  rw [Task.bind_done] at hdone
  exact hdone.1

namespace State

/-- An execution keeps its parts apart, and no call is left at the path of an error. -/
theorem parted_of_reaches {S : Strategy → Prop} {st last : State} (h : Reaches st last)
    {number : Nat} {run : Run} (hr : st.runs[number]? = some run) (hp : Parted S run.task)
    (hspares : ∀ e ∈ st.errors number, Safe .any (Event.Spares e.path) run.task) :
    ∃ run', last.runs[number]? = some run' ∧ Parted S run'.task ∧
      ∀ e ∈ last.errors number, Safe .any (Event.Spares e.path) run'.task := by
  induction h generalizing run with
  | refl st => exact ⟨run, hr, hp, hspares⟩
  | @head st st' last p ha _ ih =>
    rcases run_cases_of_advance ha hr with
      ⟨path, t, u, es, change, contexts, rfl, ht, hm, rfl, hruns, hevents⟩ | ⟨hruns, hevents⟩
    · have hsafe : ∀ Q, Safe .any Q t → Safe .any Q u := fun Q hQ =>
        (hQ.of_move (World.any_covers _ _ _) hr ht hm ha (.refl _)).2
      refine ih hruns (hp.after hr ht hm ha) fun e he => ?_
      rw [errors, hevents, List.filterMap_append] at he
      rcases List.mem_append.1 he with he | he
      · exact (hsafe _ ((hspares e he).of_reach? ht)).replace ht (hspares e he)
      · cases hm with
        | emit ev next =>
          have herror : ev.error? = some e := by simpa using he
          cases hp.of_reach? ht with
          | emit _ hspare _ =>
            obtain ⟨p, hpath, hnext⟩ := hspare e herror
            rw [hpath]
            exact hp.safe_replace (fun ev hev => Event.spares_of_path?_ne hev)
              ((Event.path?_of_error? herror).trans hpath) (fun Q hQ => hQ.of_emit) hnext ht
        | _ => cases he
    · refine ih hruns hp ?_
      rwa [errors, hevents]
  | wait _ _ ih => exact ih hr hp hspares

end State

end Execution

end GraphQL
