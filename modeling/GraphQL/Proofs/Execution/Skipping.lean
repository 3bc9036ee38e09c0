import GraphQL.Proofs.Execution.Scheduling

/-!
Executions that skip calls.

Calls that are skipped leave gaps in the data, but nothing is recorded about a gap: the part with
the call ends without a word, and what is joined from such parts is never a null of its own
(`Task.Abortable`). So all that an execution does in which calls are skipped is also done by the one
in which none are (`Task.Abortable.subset`), and the tasks of operations are of this kind as long as
no non-null mark stands right inside another one (`Setting.abortable_root`).
-/

set_option autoImplicit false

namespace GraphQL

open Json Execution

namespace Execution

/-- The still world, but for calls that are skipped. -/
def World.aborting (context : Context) : World where
  sees := (World.still context).sees
  admits := (World.still context).admits
  refuses r := (World.still context).refuses r ∨ r = .skipped
  answers := (World.still context).answers
  not_refuses_resolved := by
    rintro r (⟨-, h⟩ | h) <;> cases h

variable {context : Context}

namespace Ends

theorem map_fst_eq {outs outs' : List (Completion × List Event)}
    (hl : outs.length = outs'.length)
    (h : ∀ (i : Nat) d ds d' ds', outs[i]? = some (d, ds) → outs'[i]? = some (d', ds') → d = d') :
    outs.map Prod.fst = outs'.map Prod.fst := by
  refine List.ext_getElem? fun i => ?_
  rw [List.getElem?_map, List.getElem?_map]
  cases ho : outs[i]? with
  | none =>
    have hlen := List.getElem?_eq_none_iff.1 ho
    rw [List.getElem?_eq_none (by omega)]
  | some out =>
    obtain ⟨hi, -⟩ := List.getElem?_eq_some_iff.1 ho
    obtain ⟨out', ho'⟩ : ∃ out', outs'[i]? = some out' :=
      ⟨_, List.getElem?_eq_getElem (by omega)⟩
    rw [ho', Option.map_some, Option.map_some]
    exact congrArg some (h i _ _ _ _ ho ho')

/-- In a still world a task has one completion. -/
theorem completion_unique {t : Task} {c c' : Completion} {es es' : List Event}
    (h : Ends (.still context) t c es) (h' : Ends (.still context) t c' es') : c = c' := by
  induction h generalizing c' es' with
  | done c => exact h'.of_done.1.symm
  | emit e _ ih =>
    obtain ⟨rest, -, h'⟩ := h'.of_emit
    exact ih h'
  | read hc _ ih =>
    obtain ⟨context', hc', h'⟩ := h'.of_read
    rw [hc.trans hc'.symm] at ih
    exact ih h'
  | refused ho hr _ ih =>
    obtain ⟨hexpired, rfl⟩ := hr
    rcases h'.of_call ho with ⟨r', ⟨-, rfl⟩, h'⟩ | ⟨r', rest, hahead, -, -, -⟩
    · exact ih h'
    · cases hexpired.symm.trans hahead
  | called ho hahead hr _ ih =>
    rcases h'.of_call ho with ⟨r', ⟨hexpired, -⟩, -⟩ | ⟨r', rest, -, hr', -, h'⟩
    · cases hexpired.symm.trans hahead
    · rw [← hr.symm.trans hr'] at h'
      exact ih h'
  | admitted hr _ ih =>
    obtain ⟨r', rest, hr', -, h'⟩ := h'.of_admitted
    rw [← hr.symm.trans hr'] at h'
    exact ih h'
  | working hr _ ih =>
    obtain ⟨r', hr', h'⟩ := h'.of_working
    rw [← hr.symm.trans hr'] at h'
    exact ih h'
  | answered _ ih => exact ih h'.of_answered
  | @fork s children next outs c merged es hl hc _ _ ihc ih =>
    obtain ⟨outs', merged', rest', hl', hc', -, h', -⟩ := h'.of_fork
    have hmap : outs.map Prod.fst = outs'.map Prod.fst := by
      refine map_fst_eq (hl.symm.trans hl') fun i d ds d' ds' hd hd' => ?_
      obtain ⟨hi, -⟩ := List.getElem?_eq_some_iff.1 hd
      obtain ⟨t, ht⟩ : ∃ t, children[i]? = some t := ⟨_, List.getElem?_eq_getElem (by omega)⟩
      exact ihc i _ d ds ht hd (hc' i _ d' ds' ht hd')
    rw [← hmap] at h'
    exact ih h'

end Ends

namespace Task

/-- What becomes of a call that is skipped is not looked at any more: the part of the task with the
call is done, and so is what its parts are joined to. -/
inductive Abortable : Task → Prop where
  | done (c : Completion) : Abortable (.done c)
  | emit (e : Event) {next : Task} : Abortable next → Abortable (.emit e next)
  | read {next : Context → Task} : (∀ c, Abortable (next c)) → Abortable (.read next)
  | call (k : Call) {next : Reply → Task} : (∃ c, next .skipped = .done c) →
      Abortable (next .timedOut) → (∀ r, Abortable (next (.resolved r))) →
      Abortable (.call k .fresh next)
  | fork (s : Strategy) {children : List Task} {next : List Completion → Task} :
      (∀ t ∈ children, Abortable t) → (∀ cs, ∃ c, next cs = .done c) →
      Abortable (.fork s children next)

/-- A task whose calls are all made in parts of it, and which has no null from these. -/
inductive Solid : Task → Prop where
  | done (c : Completion) : Solid (.done c)
  | emit (e : Event) {next : Task} : Solid next → Solid (.emit e next)
  | read {next : Context → Task} : (∀ c, Solid (next c)) → Solid (.read next)
  | fork (s : Strategy) {children : List Task} {next : List Completion → Task} :
      (∀ t ∈ children, Abortable t) → (∀ cs, ∃ c, next cs = .done c ∧ c.isNull = false) →
      Solid (.fork s children next)

theorem Solid.emitAll {next : Task} (h : Solid next) (events : List Event) :
    Solid (Task.emitAll events next) := by
  induction events with
  | nil => exact h
  | cons e events ih => exact .emit e ih

theorem Solid.abortable {t : Task} (h : Solid t) : Abortable t := by
  induction h with
  | done c => exact .done c
  | emit e _ ih => exact .emit e ih
  | read _ ih => exact .read ih
  | fork s hc hnext => exact .fork s hc fun cs => (hnext cs).imp fun _ h => h.1

/-- Whatever is done about nulls, a solid task may be continued with it. -/
theorem Solid.abortable_bind {f : Completion → Task} (hf : ∀ c, Abortable (f c))
    (hdone : ∀ c, c.isNull = false → ∃ d, f c = .done d) {t : Task} (h : Solid t) :
    Abortable (t.bind f) := by
  induction h with
  | done c => exact hf c
  | emit e _ ih => exact .emit e ih
  | read _ ih => exact .read ih
  | @fork s children next hc hnext =>
    refine .fork s hc fun cs => ?_
    obtain ⟨c, hcs, hnull⟩ := hnext cs
    rw [hcs]
    exact hdone c hnull

/-- All that is done while calls are skipped is also done while none are. -/
theorem Abortable.subset {t : Task} (h : Abortable t) {c c' : Completion} {es es' : List Event}
    (he : Ends (.still context) t c es) (he' : Ends (.aborting context) t c' es') : es' ⊆ es := by
  induction h generalizing c c' es es' with
  | done d =>
    rw [he'.of_done.2]
    exact List.nil_subset _
  | emit e _ ih =>
    obtain ⟨rest, rfl, hnext⟩ := he.of_emit
    obtain ⟨rest', rfl, hnext'⟩ := he'.of_emit
    exact List.cons_subset_cons e (ih hnext hnext')
  | read _ ih =>
    obtain ⟨context₁, rfl, he⟩ := he.of_read
    obtain ⟨context₂, rfl, he'⟩ := he'.of_read
    exact ih _ he he'
  | call k hskipped _ _ iht ihr =>
    rcases he'.of_call trivial with ⟨r', hr' | rfl, hnext'⟩ | ⟨r', rest', hahead, hr', rfl, hnext'⟩
    · obtain ⟨hexpired, rfl⟩ := hr'
      rcases he.of_call trivial with ⟨r, ⟨-, rfl⟩, hnext⟩ | ⟨r, rest, hahead, -, -, -⟩
      · exact iht hnext hnext'
      · cases hexpired.symm.trans hahead
    · obtain ⟨d, hd⟩ := hskipped
      rw [hd] at hnext'
      rw [hnext'.of_done.2]
      exact List.nil_subset _
    · rcases he.of_call trivial with ⟨r, ⟨hexpired, -⟩, -⟩ | ⟨r, rest, -, hr, rfl, hnext⟩
      · cases hexpired.symm.trans hahead
      · rw [← hr.symm.trans hr'] at hnext'
        exact List.cons_subset_cons _ (ihr r hnext hnext')
  | @fork s children next _ hnext ihc =>
    obtain ⟨outs, merged, rest, hl, hc, hm, -, rfl⟩ := he.of_fork
    obtain ⟨outs', merged', rest', hl', hc', hm', hjoined, rfl⟩ := he'.of_fork
    obtain ⟨d, hd⟩ := hnext (s.keep (outs'.map Prod.fst))
    rw [hd] at hjoined
    rw [hjoined.of_done.2, List.append_nil]
    intro ev hev
    obtain ⟨events', hevents', hev⟩ := hm'.mem_iff.1 hev
    obtain ⟨⟨d', ds'⟩, hmem, rfl⟩ := List.mem_map.1 hevents'
    obtain ⟨i, hi'⟩ := List.mem_iff_getElem?.1 hmem
    obtain ⟨hlt, -⟩ := List.getElem?_eq_some_iff.1 hi'
    obtain ⟨t, ht⟩ : ∃ t, children[i]? = some t := ⟨_, List.getElem?_eq_getElem (by omega)⟩
    obtain ⟨⟨d₁, ds⟩, hi⟩ : ∃ out, outs[i]? = some out := ⟨_, List.getElem?_eq_getElem (by omega)⟩
    have hpart := ihc _ (List.mem_of_getElem? ht) (hc i _ _ _ ht hi) (hc' i _ d' ds' ht hi')
    exact List.mem_append_left _
      (hm.mem_iff.2 ⟨_, List.mem_map_of_mem (List.mem_of_getElem? hi), hpart hev⟩)

end Task

open GraphQL.Execution.Task (Abortable Solid)

/-- Positions may be aborted, and values are solid. -/
theorem Composed.abortable {s : Setting} {S : Strategy → Prop} {T : ObjectType → Prop}
    {layer : Layer} {room : Nat} {path : Path} {t : Task}
    (h : Composed s .any S T False layer room path t) :
    Abortable t ∧ (layer = .value → Solid t) := by
  have hsolid : ∀ {layer : Layer} {t : Task}, Solid t →
      Abortable t ∧ (layer = .value → Solid t) := fun ht => ⟨ht.abortable, fun _ => ht⟩
  have hposition : ∀ {t : Task}, Abortable t →
      Abortable t ∧ (Layer.position = .value → Solid t) := fun ht => ⟨ht, by simp⟩
  induction h with
  | done => exact hsolid (.done _)
  | fail => exact hsolid (.emit _ (.done _))
  | giveUp => exact hposition (.emit _ (.done _))
  | reached _ _ ih => exact hposition (.emit _ ih.1)
  | produced _ _ ih => exact hposition (.emit _ ih.1)
  | read _ ih => exact hposition (.read fun context => (ih context trivial).1)
  | call _ _ _ _ _ hskipped _ _ iht ihr =>
    exact hposition (.call _ hskipped iht.1 fun r => (ihr r trivial).1)
  | settle site refusesNull _ ih =>
    refine hposition ((ih.2 rfl).abortable_bind (fun c => ?_) fun c hc => ?_)
    · split
      · split
        · exact .emit _ (.done _)
        · exact .done _
      · exact .done _
    · cases refusesNull with
      | false => exact ⟨_, rfl⟩
      | true => exact ⟨c, by simp [hc]⟩
  | unmarked hmarks => exact hmarks.elim
  | items _ _ ih =>
    refine hsolid (.fork _ (fun t ht => ?_) fun cs => ⟨_, rfl, Completion.isNull_array cs⟩)
    obtain ⟨i, hi⟩ := List.mem_iff_getElem?.1 ht
    exact (ih i t hi).1
  | object type selections _ _ ih =>
    refine hsolid (.read fun context => .emitAll (.fork _ (fun t ht => ?_) fun cs => ?_) _)
    · obtain ⟨group, -, rfl⟩ := List.mem_map.1 ht
      exact (ih group.1 group.2).1
    · exact ⟨_, rfl, Completion.isNull_object _ cs⟩

/-- The task of an operation may be aborted. -/
theorem Setting.abortable_root {s : Setting} (hs : s.schema.WellFormed) (strategy : Strategy)
    {type : ObjectType} (ht : (TypeDefinition.object type).Plain) (value : Value)
    (selections : List (Selection Literal)) :
    Abortable (s.root strategy type value selections) :=
  have hcomposed : Composed s .any (fun _ => True) (fun type => (TypeDefinition.object type).Plain)
      False .value (s.recursionLimit + 1) [] (s.root strategy type value selections) :=
    composed_of_wellFormed hs trivial trivial ht value selections
  hcomposed.abortable.1

end Execution

end GraphQL
