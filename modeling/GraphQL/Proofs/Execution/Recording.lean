import GraphQL.Proofs.Execution.Completions
import GraphQL.Proofs.Execution.Composition
import GraphQL.Proofs.Execution.InOrder
import GraphQL.Proofs.Execution.Places

/-!
In which order errors are recorded when everything is done one after the other.

Errors of a selection set come before those of its fields, and those of a field or list item before
those of the next. So each error stands in front of the later ones as far as the data tells their
positions apart (`Recorded`), and the task of an operation records its errors like that
(`Setting.records_root`).
-/

set_option autoImplicit false

namespace GraphQL

open Json Execution

namespace Execution

/-- Errors at positions below a path, each in front of the later ones in the data of the path. -/
structure Recorded (path : Path) (data : Value) (errors : List Error) : Prop where
  lies : ∀ e ∈ errors, ∃ below, e.path = some (path ++ below)
  ranked : errors.Pairwise fun a b => ∀ p q, a.path = some (path ++ p) →
    b.path = some (path ++ q) → Ranked data p q

namespace Recorded

variable {path : Path} {data : Value} {errors : List Error}

theorem nil (path : Path) (data : Value) : Recorded path data [] := ⟨by simp, .nil⟩

/-- Errors of the path itself come first. -/
theorem append {front : List Error} (hfront : ∀ e ∈ front, e.path = some path)
    (h : Recorded path data errors) : Recorded path data (front ++ errors) where
  lies := by
    intro e he
    rcases List.mem_append.1 he with he | he
    · exact ⟨[], by rw [hfront e he, List.append_nil]⟩
    · exact h.lies e he
  ranked := by
    have hhere : ∀ a ∈ front, ∀ p q, a.path = some (path ++ p) → Ranked data p q := by
      intro a ha p q hp
      rw [hfront a ha, Option.some.injEq, List.self_eq_append_right] at hp
      subst hp
      exact .within List.nil_prefix
    refine List.pairwise_append.2 ⟨?_, h.ranked, fun a ha b _ p q hp _ => hhere a ha p q hp⟩
    exact List.pairwise_of_forall_mem_list fun a ha b _ p q hp _ => hhere a ha p q hp

theorem singleton {e : Error} (he : e.path = some path) : Recorded path data [e] := by
  have hfront : ∀ e' ∈ [e], e'.path = some path := by simpa using he
  exact (nil path data).append hfront

variable {elements : List PathElement} {combine : List Completion → Completion}
  {build : List Value → Value} {outs : List (Completion × List Event)}

section

variable (hc : Combines elements combine build) (hl : elements.length = outs.length)

include hc hl

/-- Positions in a part are ranked in the whole as they are in the part. -/
theorem ranked_part {i : Nat} {e : PathElement} {out : Completion × List Event} {p q : Path}
    (he : elements[i]? = some e) (hi : outs[i]? = some out) (h : Ranked out.1.data p q) :
    Ranked (combine (outs.map Prod.fst)).data (e :: p) (e :: q) := by
  have hlength : (outs.map Prod.fst).length = elements.length := by rw [List.length_map, hl]
  cases hcombine : combine (outs.map Prod.fst) with
  | propagate => exact h.null_cons e
  | value v =>
    obtain ⟨vs, hvs, rfl⟩ := (hc.value_iff _ v hlength).1 hcombine
    have hvalue : (vs.map Completion.value)[i]? = some out.1 := by
      rw [← hvs, List.getElem?_map, hi, Option.map_some]
    rw [List.getElem?_map, Option.map_eq_some_iff] at hvalue
    obtain ⟨u, hu, hout⟩ := hvalue
    rw [← hout] at h
    have hvslength : elements.length = vs.length := by
      rw [← hlength, hvs, List.length_map]
    exact h.cons fun below => (hc.holds vs hvslength).follow?_cons i e u below he hu

/-- Positions in two parts are ranked as the parts are. -/
theorem ranked_parts (hn : elements.Nodup)
    (hplace : ∀ vs (i : Nat) e, elements.length = vs.length → elements[i]? = some e →
      (build vs).place? e = some i) {i j : Nat} {e f : PathElement} (hij : i < j)
    (he : elements[i]? = some e) (hf : elements[j]? = some f) (p q : Path) :
    Ranked (combine (outs.map Prod.fst)).data (e :: p) (f :: q) := by
  have hlength : (outs.map Prod.fst).length = elements.length := by rw [List.length_map, hl]
  have hef : e ≠ f := by
    rintro rfl
    obtain ⟨hlt, -⟩ := List.getElem?_eq_some_iff.1 he
    exact Nat.ne_of_lt hij ((List.getElem?_inj hlt hn).1 (he.trans hf.symm))
  refine @Ranked.apart _ _ _ [] e f p q rfl rfl hef fun v hv hnull => ?_
  cases hv
  cases hcombine : combine (outs.map Prod.fst) with
  | propagate =>
    rw [hcombine] at hnull
    cases hnull
  | value v =>
    obtain ⟨vs, hvs, rfl⟩ := (hc.value_iff _ v hlength).1 hcombine
    have hvslength : elements.length = vs.length := by
      rw [← hlength, hvs, List.length_map]
    rw [Completion.data, hplace vs i e hvslength he, hplace vs j f hvslength hf]
    exact Nat.compare_eq_lt.2 hij

/-- The parts of a list or an object, one after the other. -/
theorem parts (hn : elements.Nodup)
    (hplace : ∀ vs (i : Nat) e, elements.length = vs.length → elements[i]? = some e →
      (build vs).place? e = some i)
    (hparts : ∀ (i : Nat) e d ds, elements[i]? = some e → outs[i]? = some (d, ds) →
      Recorded (path.join e) d.data (ds.filterMap Event.error?)) :
    Recorded path (combine (outs.map Prod.fst)).data
      ((outs.map Prod.snd).flatten.filterMap Event.error?) := by
  have hpart : ∀ {i : Nat} {out : Completion × List Event}, outs[i]? = some out →
      ∃ e, elements[i]? = some e ∧
        Recorded (path.join e) out.1.data (out.2.filterMap Event.error?) := by
    rintro i ⟨d, ds⟩ hi
    obtain ⟨hlt, -⟩ := List.getElem?_eq_some_iff.1 hi
    have he : elements[i]? = some elements[i] := List.getElem?_eq_getElem (by omega)
    exact ⟨_, he, hparts i _ d ds he hi⟩
  have hbelow : ∀ {e : PathElement} {a : Error} {p below : Path},
      a.path = some (path.join e ++ below) → a.path = some (path ++ p) → p = e :: below := by
    intro e a p below hjoin hp
    rw [hjoin, Path.join_append, Option.some.injEq] at hp
    exact (List.append_cancel_left hp).symm
  rw [List.filterMap_flatten, List.map_map]
  refine ⟨fun a ha => ?_, List.pairwise_flatten.2 ⟨fun errors herrors => ?_, ?_⟩⟩
  · obtain ⟨errors, herrors, ha⟩ := List.mem_flatten.1 ha
    obtain ⟨out, hout, rfl⟩ := List.mem_map.1 herrors
    obtain ⟨i, hi⟩ := List.mem_iff_getElem?.1 hout
    obtain ⟨e, -, hrecorded⟩ := hpart hi
    obtain ⟨below, ha⟩ := hrecorded.lies a ha
    exact ⟨e :: below, by rw [ha, Path.join_append]⟩
  · obtain ⟨out, hout, rfl⟩ := List.mem_map.1 herrors
    obtain ⟨i, hi⟩ := List.mem_iff_getElem?.1 hout
    obtain ⟨e, he, hrecorded⟩ := hpart hi
    refine hrecorded.ranked.imp_of_mem fun {a b} ha hb hranked p q hp hq => ?_
    obtain ⟨below, ha⟩ := hrecorded.lies a ha
    obtain ⟨below', hb⟩ := hrecorded.lies b hb
    rw [hbelow ha hp, hbelow hb hq]
    exact ranked_part hc hl he hi (hranked below below' ha hb)
  · refine List.pairwise_map.2 (List.pairwise_iff_getElem.2 fun i j hi hj hij => ?_)
    intro a ha b hb p q hp hq
    obtain ⟨e, he, hrecorded⟩ := hpart (List.getElem?_eq_getElem hi)
    obtain ⟨f, hf, hrecorded'⟩ := hpart (List.getElem?_eq_getElem hj)
    obtain ⟨below, ha⟩ := hrecorded.lies a ha
    obtain ⟨below', hb⟩ := hrecorded'.lies b hb
    rw [hbelow ha hp, hbelow hb hq]
    exact ranked_parts hc hl hn hplace hij he hf below below'

end

end Recorded

namespace Task

/-- However a task ends with its parts in a row, it records its errors in the order of its data. -/
def Records (w : World) (path : Path) (t : Task) : Prop :=
  ∀ c es, Ends w t.inOrder c es → Recorded path c.data (es.filterMap Event.error?)

/-- A task that ends with a null of its own records nothing. -/
def Clean (w : World) (t : Task) : Prop :=
  ∀ c es, Ends w t.inOrder c es → c.isNull = true → es.filterMap Event.error? = []

variable {w : World} {path : Path} {t : Task}

theorem records_done (c : Completion) : Records w path (.done c) := by
  intro d es h
  rw [inOrder] at h
  obtain ⟨rfl, rfl⟩ := h.of_done
  exact .nil path _

theorem clean_done (c : Completion) : Clean w (.done c) := by
  intro d es h _
  rw [inOrder] at h
  obtain ⟨-, rfl⟩ := h.of_done
  rfl

theorem records_failed {e : Error} (he : e.path = some path) (endless : Bool) (c : Completion) :
    Records w path (.emit (.failed e endless) (.done c)) := by
  intro d es h
  rw [inOrder, inOrder] at h
  obtain ⟨rest, rfl, hrest⟩ := h.of_emit
  obtain ⟨rfl, rfl⟩ := hrest.of_done
  exact .singleton he

theorem clean_failed (e : Error) : Clean w (.emit (.failed e) (.done .propagate)) := by
  intro c es h hnull
  rw [inOrder, inOrder] at h
  obtain ⟨rest, -, hrest⟩ := h.of_emit
  obtain ⟨rfl, -⟩ := hrest.of_done
  cases hnull

theorem Records.emit {e : Event} (he : e.error? = none) (h : Records w path t) :
    Records w path (.emit e t) := by
  intro c es hends
  rw [inOrder] at hends
  obtain ⟨rest, rfl, hrest⟩ := hends.of_emit
  rw [List.filterMap_cons_none he]
  exact h c rest hrest

theorem Records.read {next : Context → Task}
    (h : ∀ context, w.sees context → Records w path (next context)) :
    Records w path (.read next) := by
  intro c es hends
  rw [inOrder] at hends
  obtain ⟨context, hc, hnext⟩ := hends.of_read
  exact h context hc c es hnext

theorem Records.call {k : Call} {next : Reply → Task} (hskipped : ∃ c, next .skipped = .done c)
    (htimedOut : Records w path (next .timedOut))
    (hresolved : ∀ r, w.answers k r → Records w path (next (.resolved r))) :
    Records w path (.call k .fresh next) := by
  intro c es hends
  rw [inOrder] at hends
  rcases hends.of_call trivial with ⟨r, hr, hnext⟩ | ⟨r, rest, -, hr, rfl, hnext⟩
  · cases r with
    | skipped =>
      obtain ⟨d, hd⟩ := hskipped
      rw [hd] at hnext
      exact records_done d c es hnext
    | timedOut => exact htimedOut c es hnext
    | resolved r => exact absurd hr (w.not_refuses_resolved r)
  · exact hresolved r hr c rest hnext

/-- A position that refuses a null has nothing else to tell about it. -/
theorem Records.settle (h : Records w path t) (hclean : Clean w t) (site : FieldSite)
    (refusesNull : Bool) : Records w path (site.settle refusesNull path t) := by
  intro c es hends
  have hsettle : (site.settle refusesNull path t).inOrder =
      site.settle refusesNull path t.inOrder := by
    rw [FieldSite.settle, inOrder_bind]
    refine congrArg t.inOrder.bind (funext fun d => ?_)
    split
    · split
      · rw [FieldSite.fail, inOrder, inOrder]
      · rw [inOrder]
    · rw [inOrder]
  rw [hsettle] at hends
  obtain ⟨d, ds, hd, ⟨-, hc, rfl⟩ | ⟨-, hnull, hc, rfl⟩ | ⟨-, -, hc, rfl⟩⟩ :=
    FieldSite.ends_settle hends
  · have hrecorded := h d _ hd
    rw [hc]
    cases d <;> exact hrecorded
  · rw [List.filterMap_append, hclean d ds hd hnull]
    exact .singleton rfl
  · rw [hc]
    exact h d _ hd

theorem records_items {children : List Task}
    (h : ∀ (i : Nat) t, children[i]? = some t → Records w (path.join (.index i)) t) {c : Completion}
    {es : List Event}
    (hends : Ends w (fork .serial children fun cs => .done (.array cs)).inOrder c es) :
    Recorded path c.data (es.filterMap Event.error?) ∧ c.isNull = false := by
  obtain ⟨outs, rest, hl, ho, hn, rfl⟩ := Ends.of_serial hends
  rw [inOrder] at hn
  obtain ⟨rfl, rfl⟩ := hn.of_done
  refine ⟨?_, Completion.isNull_array _⟩
  rw [List.append_nil]
  refine .parts (.array outs.length) (by simp) (List.nodup_range.map fun i j hij => ?_)
    (fun vs i e _ he => Value.place?_array vs he) fun i e d ds he hi => ?_
  · cases hij
    rfl
  · obtain ⟨hlt, rfl⟩ := PathElement.eq_of_getElem?_indices he
    have hchild : children[i]? = some children[i] := List.getElem?_eq_getElem (by omega)
    exact h i _ hchild d ds (ho i _ d ds hchild hi)

theorem records_fields {groups : Entries (List (Field Literal))}
    {field : String → List (Field Literal) → Task} (hk : (Entries.keys groups).Nodup)
    (h : ∀ key fields, Records w (path.join (.key key)) (field key fields)) {c : Completion}
    {es : List Event}
    (hends : Ends w (fork .serial (groups.map fun group => field group.1 group.2)
      fun cs => .done (.object (Entries.keys groups) cs)).inOrder c es) :
    Recorded path c.data (es.filterMap Event.error?) ∧ c.isNull = false := by
  obtain ⟨outs, rest, hl, ho, hn, rfl⟩ := Ends.of_serial hends
  rw [inOrder] at hn
  obtain ⟨rfl, rfl⟩ := hn.of_done
  rw [List.length_map] at hl
  have hkeys : (Entries.keys groups).length = outs.length := by
    rw [Entries.keys, List.length_map, hl]
  refine ⟨?_, Completion.isNull_object _ _⟩
  rw [List.append_nil]
  refine .parts (.object hk) (by rw [List.length_map, hkeys]) (hk.map fun k l hkl => ?_)
    (fun vs i e hvs he => Value.place?_object hk (by rwa [List.length_map] at hvs) he)
    fun i e d ds he hi => ?_
  · cases hkl
    rfl
  · obtain ⟨key, fields, hgroup, rfl⟩ := PathElement.eq_of_getElem?_keys he
    exact h key fields d ds (ho i _ d ds (by rw [List.getElem?_map, hgroup]; rfl) hi)

theorem records_object {s : Setting} {type : ObjectType} {selections : List (Selection Literal)}
    {field : String → List (Field Literal) → Task}
    (h : ∀ key fields, Records w (path.join (.key key)) (field key fields)) {c : Completion}
    {es : List Event}
    (hends : Ends w (read fun context =>
      let collected := s.collect ⟨type.name, path, context⟩ selections
      emitAll (collected.errors.map .collecting) <|
        fork .serial (collected.groups.map fun group => field group.1 group.2)
          fun cs => .done (.object (Entries.keys collected.groups) cs)).inOrder c es) :
    Recorded path c.data (es.filterMap Event.error?) ∧ c.isNull = false := by
  rw [inOrder] at hends
  obtain ⟨context, -, hends⟩ := hends.of_read
  rw [inOrder_emitAll] at hends
  obtain ⟨rest, rfl, hrest⟩ := hends.of_emitAll
  have htidy := s.collect_tidy_true ⟨type.name, path, context⟩ selections
  obtain ⟨hrecorded, hnull⟩ := records_fields htidy.nodup h hrest
  have hcollecting : ∀ errors : List Error,
      (errors.map Event.collecting).filterMap Event.error? = errors := by
    intro errors
    rw [List.filterMap_map]
    exact List.filterMap_some
  rw [List.filterMap_append, hcollecting]
  exact ⟨hrecorded.append htidy.errors, hnull⟩

end Task

open GraphQL.Execution.Task (Records Clean)

/-- With serial strategies errors are recorded in the order of the data. -/
theorem Composed.records {s : Setting} {w : World} {T : ObjectType → Prop} {layer : Layer}
    {room : Nat} {path : Path} {t : Task}
    (h : Composed s w (· = .serial) T False layer room path t) :
    Records w path t ∧ (layer = .value → Clean w t) := by
  have hposition : ∀ {path : Path} {t : Task}, Records w path t →
      Records w path t ∧ (Layer.position = .value → Clean w t) := fun ht => ⟨ht, by simp⟩
  have hclean : ∀ {t : Task}, (∀ c es, Ends w t.inOrder c es → c.isNull = false) → Clean w t := by
    intro t ht c es hends hnull
    rw [ht c es hends] at hnull
    cases hnull
  induction h with
  | done _ _ _ c => exact ⟨Task.records_done c, fun _ => Task.clean_done c⟩
  | fail he => exact ⟨Task.records_failed he.path_eq _ _, fun _ => Task.clean_failed _⟩
  | giveUp c he => exact hposition (Task.records_failed he.path_eq _ c)
  | reached _ _ ih => exact hposition (ih.1.emit rfl)
  | produced _ _ ih => exact hposition (ih.1.emit rfl)
  | read _ ih => exact hposition (.read fun context hc => (ih context hc).1)
  | call _ _ _ _ _ hskipped _ _ iht ihr =>
    exact hposition (.call hskipped iht.1 fun r hr => (ihr r hr).1)
  | settle site refusesNull _ ih => exact hposition (ih.1.settle (ih.2 rfl) site refusesNull)
  | unmarked hmarks => exact hmarks.elim
  | items hstrategy _ ih =>
    subst hstrategy
    have hitems := fun c es => @Task.records_items w _ _ (fun i t ht => (ih i t ht).1) c es
    exact ⟨fun c es h => (hitems c es h).1, fun _ => hclean fun c es h => (hitems c es h).2⟩
  | object type selections hstrategy _ ih =>
    subst hstrategy
    have hobject := fun c es => @Task.records_object w _ s type selections _
      (fun key fields => (ih key fields).1) c es
    exact ⟨fun c es h => (hobject c es h).1, fun _ => hclean fun c es h => (hobject c es h).2⟩

/-- The task of an operation under serial strategies records errors in the order of the data. -/
theorem Setting.records_root {s : Setting} {w : World} (hs : s.schema.WellFormed)
    (hnested : s.nested = .serial) {type : ObjectType} (ht : (TypeDefinition.object type).Plain)
    (value : Value) (selections : List (Selection Literal)) :
    Records w [] (s.root .serial type value selections) :=
  (composed_of_wellFormed (S := (· = .serial)) hs hnested rfl ht value selections).records.1

end Execution

end GraphQL
