import GraphQL.Proofs.Execution.Collection
import GraphQL.Proofs.Execution.Completions
import GraphQL.Proofs.Execution.Data
import GraphQL.Proofs.Execution.Rules
import GraphQL.Proofs.Schema.Loaded
import GraphQL.Proofs.Schema.Types
import Mathlib.Data.List.Nodup
import Mathlib.Data.List.Pairwise

/-!
Where in the response things happen.

What a job does lies at its path or below it (`Does.lies`). The parts of a list or an object have
elements of their own, so what is done at a position is done by one part only (`Parts.mem_part`),
and each position is reached once and fails once at most (`Does.pairwise_not_clash`).
-/

set_option autoImplicit false

namespace GraphQL.Execution

open Json

def Event.path? : Event → Option Path
  | reached path _ => some path
  | produced path _ => some path
  | collecting e => e.path
  | failed e _ => e.path
  | invoked i => some i.path

theorem Event.path?_of_error? {ev : Event} {e : Error} (h : ev.error? = some e) :
    ev.path? = e.path := by
  cases ev <;> cases h <;> rfl

/-- An event happens at a path or below it, where keys have a property. -/
def Event.Lies (K : String → Prop) (path : Path) (ev : Event) : Prop :=
  ∃ below, ev.path? = some (path ++ below) ∧ ∀ k, .key k ∈ below → K k

theorem Event.Lies.here {K : String → Prop} {path : Path} {ev : Event}
    (h : ev.path? = some path) : ev.Lies K path := ⟨[], by simpa using h, nofun⟩

theorem Event.Lies.of_join {K : String → Prop} {path : Path} {element : PathElement} {ev : Event}
    (h : ev.Lies K (path.join element)) (he : ∀ k, element = .key k → K k) : ev.Lies K path := by
  obtain ⟨below, hb, hk⟩ := h
  refine ⟨element :: below, by simpa [Path.join] using hb, fun k hmem => ?_⟩
  rcases List.mem_cons.1 hmem with hk' | hmem
  · exact he k hk'.symm
  · exact hk k hmem

/-- Between a path and an event below it every position is reached. -/
def Event.Traced (path : Path) (es : List Event) : Prop :=
  ∀ ev ∈ es, ∀ element below r, ev.path? = some (path ++ element :: below) → r <+: below →
    ∃ t, .reached (path ++ element :: r) t ∈ es

namespace Job

def path : Job → Path
  | object _ _ _ path => path
  | field _ _ _ path => path
  | defined _ _ _ path => path
  | resolved _ _ _ path => path
  | item _ _ _ path => path
  | position _ _ _ _ path => path
  | value _ _ _ path => path

/-- The response keys below the position of a job have a property. -/
def Keys (K : String → Prop) : Job → Prop
  | object _ _ selections _ => Selection.AllKeys K selections
  | field _ _ fields _ => ∀ f ∈ fields, f.Keys K
  | defined site _ _ _ => Selection.AllKeys K site.selections
  | resolved site _ _ _ => Selection.AllKeys K site.selections
  | item site _ _ _ => Selection.AllKeys K site.selections
  | position site _ _ _ _ => Selection.AllKeys K site.selections
  | value site _ _ _ => Selection.AllKeys K site.selections

theorem keys_of_forall {K : String → Prop} (h : ∀ key, K key) : ∀ job : Job, job.Keys K
  | object _ _ selections _ => Selection.allKeys_of_forall h selections
  | field _ _ _ _ => fun f _ => ⟨h _, Selection.allKeys_of_forall h f.selections⟩
  | defined site _ _ _ => Selection.allKeys_of_forall h site.selections
  | resolved site _ _ _ => Selection.allKeys_of_forall h site.selections
  | item site _ _ _ => Selection.allKeys_of_forall h site.selections
  | position site _ _ _ _ => Selection.allKeys_of_forall h site.selections
  | value site _ _ _ => Selection.allKeys_of_forall h site.selections

end Job

namespace Does

variable {s : Setting} {w : World} {K : String → Prop} {room : Nat} {job : Job} {c : Completion}
  {es : List Event}

theorem lies (hd : s.document.FragmentKeys K) (h : Does s w room job c es) (hk : job.Keys K) :
    ∀ ev ∈ es, ev.Lies K job.path := by
  have hone : ∀ {ev : Event} {path : Path}, ev.path? = some path →
      ∀ ev' ∈ [ev], ev'.Lies K path := by
    intro ev path h ev' hev'
    rw [List.mem_singleton.1 hev']
    exact .here h
  have hcons : ∀ {ev : Event} {es : List Event} {path : Path}, ev.path? = some path →
      (∀ ev ∈ es, ev.Lies K path) → ∀ ev' ∈ ev :: es, ev'.Lies K path :=
    fun h hes => List.forall_mem_cons.2 ⟨.here h, hes⟩
  induction h with
  | tooDeep => exact hone rfl
  | @object room type value selections path context collected outs merged hc hcol hl ho hm ih =>
    intro ev hev
    have htidy := Setting.collect_tidy hd ⟨type.name, path, context⟩ hk
    rw [hcol] at htidy
    rcases List.mem_append.1 hev with hev | hev
    · obtain ⟨e, he, rfl⟩ := List.mem_map.1 hev
      exact .here (htidy.errors e he)
    · obtain ⟨ds, hds, hev⟩ := hm.mem_iff.1 hev
      obtain ⟨⟨d, ds⟩, hout, rfl⟩ := List.mem_map.1 hds
      obtain ⟨i, hi⟩ := List.mem_iff_getElem?.1 hout
      obtain ⟨hlt, -⟩ := List.getElem?_eq_some_iff.1 hi
      have hg : collected.groups[i]? = some collected.groups[i] :=
        List.getElem?_eq_getElem (by omega)
      obtain ⟨-, hkey, hfields⟩ := htidy.groups _ _ (List.mem_of_getElem? hg)
      refine (ih i _ _ d ds hg hi hfields ev hev).of_join fun k hk => ?_
      cases hk
      exact hkey
  | unselected => nofun
  | typename => nofun
  | undefined => exact hcons rfl (hone rfl)
  | field _ _ _ ih => exact hcons rfl (ih (Selection.allKeys_flatMap hk))
  | invalidArgument => exact hone rfl
  | unresolved _ _ _ ih => exact ih hk
  | skipped => nofun
  | timedOut => exact hone rfl
  | called _ _ hi _ _ _ ih =>
    subst hi
    exact hcons rfl (ih hk)
  | failed => exact hone rfl
  | produced _ _ _ ih => exact hcons rfl (ih hk)
  | item _ ih => exact hcons rfl (hcons rfl (ih hk))
  | marked _ ih => exact ih hk
  | absorbed _ _ ih => exact ih hk
  | refused _ _ ih =>
    intro ev hev
    rcases List.mem_append.1 hev with hev | hev
    · exact ih hk ev hev
    · exact hone rfl ev hev
  | kept _ _ ih => exact ih hk
  | null => nofun
  | unmarked _ _ ih => exact ih hk
  | @array room site type items path outs merged hl ho hm ih =>
    intro ev hev
    obtain ⟨ds, hds, hev⟩ := hm.mem_iff.1 hev
    obtain ⟨⟨d, ds⟩, hout, rfl⟩ := List.mem_map.1 hds
    obtain ⟨i, hi⟩ := List.mem_iff_getElem?.1 hout
    obtain ⟨hlt, -⟩ := List.getElem?_eq_some_iff.1 hi
    exact (ih i _ d ds (List.getElem?_eq_getElem (by omega)) hi hk ev hev).of_join nofun
  | notArray => exact hone rfl
  | leaf => nofun
  | invalidLeaf => exact hone rfl
  | ofObject _ _ _ ih => exact ih hk
  | ofAbstract _ _ _ _ _ ih => exact ih hk
  | noConcrete => exact hone rfl
  | unknownType => exact hone rfl

theorem lies_true (h : Does s w room job c es) : ∀ ev ∈ es, ev.Lies (fun _ => True) job.path :=
  h.lies (fun _ f _ => Selection.allKeys_of_forall (fun _ => trivial) f.selections)
    (Job.keys_of_forall (fun _ => trivial) job)

end Does

/-- The parts of a list or an object: each has an element of its own, and what it has done lies
below that. -/
structure Parts (path : Path) (elements : List PathElement)
    (outs : List (Completion × List Event)) (merged : List Event) : Prop where
  nodup : elements.Nodup
  length_eq : elements.length = outs.length
  interleaving : Interleaving (outs.map Prod.snd) merged
  lies : ∀ (i : Nat) e d ds, elements[i]? = some e → outs[i]? = some (d, ds) →
    ∀ ev ∈ ds, ∃ below, ev.path? = some (path ++ e :: below)

namespace Parts

variable {path : Path} {elements : List PathElement} {outs : List (Completion × List Event)}
  {merged : List Event}

theorem mem_merged (h : Parts path elements outs merged) {i : Nat} {d : Completion}
    {ds : List Event} (hi : outs[i]? = some (d, ds)) {ev : Event} (hev : ev ∈ ds) :
    ev ∈ merged :=
  h.interleaving.mem_iff.2 ⟨ds, List.mem_map.2 ⟨_, List.mem_of_getElem? hi, rfl⟩, hev⟩

theorem exists_element (h : Parts path elements outs merged) {i : Nat} {d : Completion}
    {ds : List Event} (hi : outs[i]? = some (d, ds)) : ∃ e, elements[i]? = some e := by
  obtain ⟨hlt, -⟩ := List.getElem?_eq_some_iff.1 hi
  exact ⟨_, List.getElem?_eq_getElem (h.length_eq ▸ hlt)⟩

theorem exists_out (h : Parts path elements outs merged) {i : Nat} {e : PathElement}
    (hi : elements[i]? = some e) : ∃ out, outs[i]? = some out := by
  obtain ⟨hlt, -⟩ := List.getElem?_eq_some_iff.1 hi
  exact ⟨_, List.getElem?_eq_getElem (h.length_eq ▸ hlt)⟩

theorem length_completions (h : Parts path elements outs merged) :
    (outs.map Prod.fst).length = elements.length := by
  rw [List.length_map, h.length_eq]

theorem exists_of_mem_completions (h : Parts path elements outs merged) {d : Completion}
    (hd : d ∈ outs.map Prod.fst) :
    ∃ (i : Nat) (e : PathElement) (ds : List Event), elements[i]? = some e ∧
      outs[i]? = some (d, ds) := by
  obtain ⟨⟨_, ds⟩, hout, rfl⟩ := List.mem_map.1 hd
  obtain ⟨i, hi⟩ := List.mem_iff_getElem?.1 hout
  obtain ⟨e, he⟩ := h.exists_element hi
  exact ⟨i, e, ds, he, hi⟩

theorem exists_part (h : Parts path elements outs merged) {ev : Event} (hev : ev ∈ merged) :
    ∃ (i : Nat) (e : PathElement) (d : Completion) (ds : List Event) (below : Path),
      elements[i]? = some e ∧ outs[i]? = some (d, ds) ∧ ev ∈ ds ∧
        ev.path? = some (path ++ e :: below) := by
  obtain ⟨ds, hds, hmem⟩ := h.interleaving.mem_iff.1 hev
  obtain ⟨⟨d, ds⟩, hout, rfl⟩ := List.mem_map.1 hds
  obtain ⟨i, hi⟩ := List.mem_iff_getElem?.1 hout
  obtain ⟨e, he⟩ := h.exists_element hi
  obtain ⟨below, hb⟩ := h.lies i e d ds he hi ev hmem
  exact ⟨i, e, d, ds, below, he, hi, hmem, hb⟩

/-- What is done below an element is done by the part that it belongs to. -/
theorem mem_part (h : Parts path elements outs merged) {i : Nat} {e : PathElement}
    {d : Completion} {ds : List Event} (he : elements[i]? = some e)
    (hi : outs[i]? = some (d, ds)) {ev : Event} (hev : ev ∈ merged) {below : Path}
    (hp : ev.path? = some (path ++ e :: below)) : ev ∈ ds := by
  obtain ⟨j, e', d', ds', below', he', hj, hmem, hp'⟩ := h.exists_part hev
  have hcons := List.append_cancel_left (Option.some.inj (hp.symm.trans hp'))
  obtain ⟨rfl, -⟩ := List.cons.inj hcons
  obtain ⟨hlt, -⟩ := List.getElem?_eq_some_iff.1 he
  obtain rfl : i = j := (List.getElem?_inj hlt h.nodup).1 (he.trans he'.symm)
  cases hi.symm.trans hj
  exact hmem

theorem path?_ne (h : Parts path elements outs merged) {ev : Event} (hev : ev ∈ merged) :
    ev.path? ≠ some path := by
  obtain ⟨i, e, d, ds, below, -, -, -, hp⟩ := h.exists_part hev
  intro hpath
  have := Option.some.inj (hp.symm.trans hpath)
  simp at this

variable {β : Type} {f : Event → Option β} {target : Path}

/-- What is kept of a position below an element is kept of the part that it belongs to. -/
theorem filterMap_eq (h : Parts path elements outs merged)
    (hf : ∀ ev b, f ev = some b → ev.path? = some target) {i : Nat} {e : PathElement}
    {d : Completion} {ds : List Event} (he : elements[i]? = some e)
    (hi : outs[i]? = some (d, ds)) {below : Path} (ht : target = path ++ e :: below) :
    merged.filterMap f = ds.filterMap f := by
  have hother : ∀ {j : Nat} {d' : Completion} {ds' : List Event}, outs[j]? = some (d', ds') →
      j ≠ i → ds'.filterMap f = [] := by
    intro j d' ds' hj hne
    refine List.filterMap_eq_nil_iff.2 fun ev hev => ?_
    by_contra hsome
    obtain ⟨b, hb⟩ := Option.ne_none_iff_exists'.1 hsome
    have hmem := h.mem_part he hi (h.mem_merged hj hev) (ht ▸ hf ev b hb)
    obtain ⟨e', he'⟩ := h.exists_element hj
    obtain ⟨below', hp⟩ := h.lies j e' d' ds' he' hj ev hev
    have hcons := List.append_cancel_left
      (Option.some.inj (hp.symm.trans ((hf ev b hb).trans (congrArg some ht))))
    obtain ⟨rfl, -⟩ := List.cons.inj hcons
    obtain ⟨hlt, -⟩ := List.getElem?_eq_some_iff.1 he'
    exact hne ((List.getElem?_inj hlt h.nodup).1 (he'.trans he.symm))
  obtain ⟨hlt, hget⟩ := List.getElem?_eq_some_iff.1 hi
  have hsplit : outs = outs.take i ++ (d, ds) :: outs.drop (i + 1) := by
    rw [← hget]
    simp
  have hm := h.interleaving.filterMap f
  rw [hsplit] at hm
  simp only [List.map_append, List.map_cons, List.map_map] at hm
  refine hm.eq_of_singleton ?_ ?_
  · intro l hl
    obtain ⟨⟨d', ds'⟩, hout, rfl⟩ := List.mem_map.1 hl
    obtain ⟨j, hj⟩ := List.mem_iff_getElem?.1 hout
    rw [List.getElem?_take] at hj
    split at hj
    · next hji => exact hother hj (Nat.ne_of_lt hji)
    · cases hj
  · intro l hl
    obtain ⟨⟨d', ds'⟩, hout, rfl⟩ := List.mem_map.1 hl
    obtain ⟨j, hj⟩ := List.mem_iff_getElem?.1 hout
    rw [List.getElem?_drop] at hj
    exact hother hj (by omega)

theorem filterMap_eq_nil (h : Parts path elements outs merged)
    (hf : ∀ ev b, f ev = some b → ev.path? = some target)
    (ht : ∀ e ∈ elements, ∀ below, target ≠ path ++ e :: below) : merged.filterMap f = [] := by
  refine List.filterMap_eq_nil_iff.2 fun ev hev => ?_
  by_contra hsome
  obtain ⟨b, hb⟩ := Option.ne_none_iff_exists'.1 hsome
  obtain ⟨i, e, d, ds, below, he, -, -, hp⟩ := h.exists_part hev
  exact ht e (List.mem_of_getElem? he) below (Option.some.inj ((hf ev b hb).symm.trans hp))

/-- A relation that only events at one position can violate holds throughout if it does in each
part. -/
theorem pairwise (h : Parts path elements outs merged) {R : Event → Event → Prop}
    (hsymm : ∀ {a b}, R a b → R b a) (hR : ∀ {a b : Event}, a.path? ≠ b.path? → R a b)
    (hd : ∀ (i : Nat) d ds, outs[i]? = some (d, ds) → ds.Pairwise R) : merged.Pairwise R := by
  refine (h.interleaving.perm.pairwise_iff hsymm).2 (List.pairwise_flatten.2 ⟨?_, ?_⟩)
  · intro ds hds
    obtain ⟨⟨d, ds⟩, hout, rfl⟩ := List.mem_map.1 hds
    obtain ⟨i, hi⟩ := List.mem_iff_getElem?.1 hout
    exact hd i d ds hi
  · refine List.pairwise_map.2 (List.pairwise_iff_getElem.2 fun i j hi hj hij a ha b hb => hR ?_)
    intro hab
    have hi' := List.getElem?_eq_getElem hi
    have hj' := List.getElem?_eq_getElem hj
    obtain ⟨e, he⟩ := h.exists_element hi'
    obtain ⟨e', he'⟩ := h.exists_element hj'
    obtain ⟨below, hp⟩ := h.lies i e _ _ he hi' a ha
    obtain ⟨below', hp'⟩ := h.lies j e' _ _ he' hj' b hb
    rw [hab, hp'] at hp
    obtain ⟨rfl, -⟩ := List.cons.inj (List.append_cancel_left (Option.some.inj hp))
    obtain ⟨hlt, -⟩ := List.getElem?_eq_some_iff.1 he
    exact Nat.ne_of_lt hij ((List.getElem?_inj hlt h.nodup).1 (he.trans he'.symm))

/-- The positions on the way to an event are reached if that is so in each part. -/
theorem reached_below (h : Parts path elements outs merged)
    (hself : ∀ (i : Nat) e d ds, elements[i]? = some e → outs[i]? = some (d, ds) → ds ≠ [] →
      ∃ t, .reached (path.join e) t ∈ ds)
    (hbelow : ∀ (i : Nat) e d ds, elements[i]? = some e → outs[i]? = some (d, ds) →
      Event.Traced (path.join e) ds) : Event.Traced path merged := by
  intro ev hev element below r hp hr
  obtain ⟨i, e, d, ds, below', he, hi, hmem, hp'⟩ := h.exists_part hev
  obtain ⟨rfl, rfl⟩ := List.cons.inj (List.append_cancel_left (Option.some.inj (hp.symm.trans hp')))
  obtain ⟨t, ht⟩ : ∃ t, .reached (path.join element ++ r) t ∈ ds := by
    cases r with
    | nil =>
      rw [List.append_nil]
      exact hself i element d ds he hi (List.ne_nil_of_mem hmem)
    | cons element' r =>
      obtain ⟨below'', rfl⟩ := hr
      have hpre : r <+: r ++ below'' := List.prefix_append _ _
      refine hbelow i element d ds he hi ev hmem element' (r ++ below'') r ?_ hpre
      rw [hp, Path.join_append, List.cons_append]
  rw [Path.join_append] at ht
  exact ⟨t, h.mem_merged hi ht⟩

end Parts

namespace Does

variable {s : Setting} {w : World} {room : Nat} {path : Path}
  {outs : List (Completion × List Event)} {merged : List Event}

theorem exists_below {job : Job} {c : Completion} {es : List Event} (h : Does s w room job c es)
    {element : PathElement} (hp : job.path = path.join element) :
    ∀ ev ∈ es, ∃ below, ev.path? = some (path ++ element :: below) := by
  intro ev hev
  obtain ⟨below, hb, -⟩ := h.lies_true ev hev
  exact ⟨below, by rw [hb, hp, Path.join, List.append_assoc, List.singleton_append]⟩

theorem parts_object {type : ObjectType} {value : Value} {site : Site}
    {selections : List (Selection Literal)} {collected : Collected}
    (hcol : s.collect site selections = collected)
    (hl : collected.groups.length = outs.length)
    (ho : ∀ (i : Nat) key fields d ds, collected.groups[i]? = some (key, fields) →
      outs[i]? = some (d, ds) →
      Does s w room (.field type value fields (path.join (.key key))) d ds)
    (hm : Interleaving (outs.map Prod.snd) merged) :
    Parts path ((Entries.keys collected.groups).map .key) outs merged where
  nodup := by
    refine List.Nodup.map (fun _ _ h => PathElement.key.inj h) ?_
    rw [← hcol]
    exact (s.collect_tidy_true site selections).nodup
  length_eq := by simpa [Entries.keys] using hl
  interleaving := hm
  lies i e d ds he hi := by
    obtain ⟨key, fields, hg, rfl⟩ := PathElement.eq_of_getElem?_keys he
    exact (ho i key fields d ds hg hi).exists_below rfl

theorem parts_array {site : FieldSite} {type : TypeRef} {items : List Value}
    (hl : items.length = outs.length)
    (ho : ∀ (i : Nat) item d ds, items[i]? = some item → outs[i]? = some (d, ds) →
      Does s w room (.item site type item (path.join (.index i))) d ds)
    (hm : Interleaving (outs.map Prod.snd) merged) :
    Parts path ((List.range items.length).map .index) outs merged where
  nodup := List.Nodup.map (fun _ _ h => PathElement.index.inj h) List.nodup_range
  length_eq := by simpa using hl
  interleaving := hm
  lies i e d ds he hi := by
    obtain ⟨hlt, rfl⟩ := PathElement.eq_of_getElem?_indices he
    exact (ho i _ d ds (List.getElem?_eq_getElem hlt) hi).exists_below rfl

end Does

/-- Two events that do not both happen: a position is reached once, and an error of its own is the
only one there. -/
def Event.Clash : Event → Event → Prop
  | reached p _, reached q _ => p = q
  | failed e _, failed e' _ => e.path = e'.path
  | failed e _, collecting e' => e.path = e'.path
  | collecting e, failed e' _ => e.path = e'.path
  | _, _ => False

theorem Event.Clash.symm {a b : Event} (h : a.Clash b) : b.Clash a := by
  cases a <;> cases b <;> first | exact h.elim | exact Eq.symm h

theorem Event.Clash.path?_eq {a b : Event} (h : a.Clash b) : a.path? = b.path? := by
  cases a <;> cases b <;> first | exact h.elim | exact congrArg some h | exact h

theorem forall_not_clash {es : List Event} (h : es.Pairwise fun a b => ¬ a.Clash b) {a b : Event}
    (ha : a ∈ es) (hb : b ∈ es) (hne : a ≠ b) : ¬ a.Clash b := by
  have hsymm : Std.Symm fun a b : Event => ¬ a.Clash b := ⟨fun _ _ h hc => h hc.symm⟩
  exact h.forall ha hb hne

theorem reached_unique {es : List Event} (h : es.Pairwise fun a b => ¬ a.Clash b) {p : Path}
    {t t' : Option TypeRef} (ht : .reached p t ∈ es) (ht' : .reached p t' ∈ es) : t = t' := by
  by_contra hne
  exact forall_not_clash h ht ht' (fun heq => hne (Event.reached.inj heq).2) rfl

namespace Job

/-- The job begins with reaching its position. -/
def Enters : Job → Prop
  | field _ _ _ _ => True
  | item _ _ _ _ => True
  | _ => False

/-- The types in the job are plain, a mark that was taken off is not followed by another, and fields
are those that were selected. -/
def Regular : Job → Prop
  | object type _ _ _ => ∀ e ∈ type.fields, e.2.type.Plain
  | field type _ fields _ => fields ≠ [] ∧ ∀ e ∈ type.fields, e.2.type.Plain
  | defined _ d _ _ => d.type.Plain
  | resolved _ type _ _ => type.Plain
  | item _ type _ _ => type.Plain
  | position _ refusesNull type _ _ => type.Plain ∧ (refusesNull = true → type.isNonNull = false)
  | value _ type _ _ => type.Plain ∧ type.isNonNull = false

end Job

namespace Does

variable {s : Setting} {w : World} {room : Nat} {job : Job} {c : Completion} {es : List Event}

/-- Inside a position it is not reached again. -/
theorem not_reached (h : Does s w room job c es) (hj : ¬ job.Enters) (t : Option TypeRef) :
    .reached job.path t ∉ es := by
  induction h with
  | object _ hcol hl ho hm _ =>
    intro hmem
    rcases List.mem_append.1 hmem with hmem | hmem
    · obtain ⟨e, -, he⟩ := List.mem_map.1 hmem
      cases he
    · exact (parts_object hcol hl ho hm).path?_ne hmem rfl
  | array hl ho hm _ => exact fun hmem => (parts_array hl ho hm).path?_ne hmem rfl
  | unselected | typename | undefined | field => exact absurd trivial hj
  | item => exact absurd trivial hj
  | unresolved _ _ _ ih => exact ih nofun
  | called _ _ hi _ _ _ ih =>
    intro hmem
    rcases List.mem_cons.1 hmem with hmem | hmem
    · cases hmem
    · exact ih nofun hmem
  | produced _ _ _ ih =>
    intro hmem
    rcases List.mem_cons.1 hmem with hmem | hmem
    · cases hmem
    · exact ih nofun hmem
  | marked _ ih => exact ih nofun
  | absorbed _ _ ih => exact ih nofun
  | refused _ _ ih =>
    intro hmem
    rcases List.mem_append.1 hmem with hmem | hmem
    · exact ih nofun hmem
    · cases List.mem_singleton.1 hmem
  | kept _ _ ih => exact ih nofun
  | unmarked _ _ ih => exact ih nofun
  | ofObject _ _ _ ih => exact ih nofun
  | ofAbstract _ _ _ _ _ ih => exact ih nofun
  | skipped | null | leaf => nofun
  | tooDeep | invalidArgument | timedOut | failed | notArray | invalidLeaf | noConcrete
    | unknownType => exact fun hmem => nomatch List.mem_singleton.1 hmem

theorem reached_self (h : Does s w room job c es) (hj : job.Enters) (hne : es ≠ []) :
    ∃ t, .reached job.path t ∈ es := by
  cases h with
  | unselected | typename => exact absurd rfl hne
  | undefined => exact ⟨none, List.mem_cons_self⟩
  | @field _ _ _ d => exact ⟨some d.type, List.mem_cons_self⟩
  | @item _ _ type => exact ⟨some type, List.mem_cons_self⟩
  | _ => exact hj.elim

theorem traced (h : Does s w room job c es) : Event.Traced job.path es := by
  have hone : ∀ {ev : Event} {path : Path}, ev.path? = some path → Event.Traced path [ev] := by
    intro ev path h ev' hev' element below r hp
    rw [List.mem_singleton.1 hev', h] at hp
    simp at hp
  have hcons : ∀ {ev : Event} {es : List Event} {path : Path}, ev.path? = some path →
      Event.Traced path es → Event.Traced path (ev :: es) := by
    intro ev es path h hes ev' hev' element below r hp hr
    rcases List.mem_cons.1 hev' with rfl | hev'
    · rw [h] at hp
      simp at hp
    · obtain ⟨t, ht⟩ := hes ev' hev' element below r hp hr
      exact ⟨t, List.mem_cons_of_mem _ ht⟩
  induction h with
  | @object room type value selections path context collected outs merged hc hcol hl ho hm ih =>
    have hparts := parts_object hcol hl ho hm
    have htidy := s.collect_tidy_true ⟨type.name, path, context⟩ selections
    rw [hcol] at htidy
    have hmerged : Event.Traced path merged := by
      refine hparts.reached_below ?_ ?_
      · intro i e d ds he hi hne
        obtain ⟨key, fields, hg, rfl⟩ := PathElement.eq_of_getElem?_keys he
        exact (ho i key fields d ds hg hi).reached_self trivial hne
      · intro i e d ds he hi
        obtain ⟨key, fields, hg, rfl⟩ := PathElement.eq_of_getElem?_keys he
        exact ih i key fields d ds hg hi
    intro ev hev element below r hp hr
    rcases List.mem_append.1 hev with hev | hev
    · obtain ⟨e, he, rfl⟩ := List.mem_map.1 hev
      exact absurd ((htidy.errors e he).symm.trans hp) (by simp [Job.path])
    · obtain ⟨t, ht⟩ := hmerged ev hev element below r hp hr
      exact ⟨t, List.mem_append_right _ ht⟩
  | array hl ho hm ih =>
    refine (parts_array hl ho hm).reached_below ?_ ?_
    · intro i e d ds he hi hne
      obtain ⟨hlt, rfl⟩ := PathElement.eq_of_getElem?_indices he
      exact (ho i _ d ds (List.getElem?_eq_getElem hlt) hi).reached_self trivial hne
    · intro i e d ds he hi
      obtain ⟨hlt, rfl⟩ := PathElement.eq_of_getElem?_indices he
      exact ih i _ d ds (List.getElem?_eq_getElem hlt) hi
  | undefined => exact hcons rfl (hone rfl)
  | field _ _ _ ih => exact hcons rfl ih
  | unresolved _ _ _ ih => exact ih
  | called _ _ hi _ _ _ ih =>
    subst hi
    exact hcons rfl ih
  | produced _ _ _ ih => exact hcons rfl ih
  | item _ ih => exact hcons rfl (hcons rfl ih)
  | marked _ ih => exact ih
  | absorbed _ _ ih => exact ih
  | refused _ _ ih =>
    intro ev hev element below r hp hr
    rcases List.mem_append.1 hev with hev | hev
    · obtain ⟨t, ht⟩ := ih ev hev element below r hp hr
      exact ⟨t, List.mem_append_left _ ht⟩
    · exact absurd hp (by simp [List.mem_singleton.1 hev, Event.path?, FieldSite.nullError,
        FieldSite.error, Job.path])
  | kept _ _ ih => exact ih
  | unmarked _ _ ih => exact ih
  | ofObject _ _ _ ih => exact ih
  | ofAbstract _ _ _ _ _ ih => exact ih
  | unselected | typename | skipped | null | leaf => nofun
  | tooDeep | invalidArgument | timedOut | failed | notArray | invalidLeaf | noConcrete
    | unknownType => exact hone rfl

theorem isNull_object {type : ObjectType} {value : Value}
    {selections : List (Selection Literal)} {path : Path}
    (h : Does s w room (.object type value selections path) c es) : c.isNull = false := by
  cases h with
  | tooDeep => rfl
  | object => exact Completion.isNull_object _ _

theorem eq_nil_of_isNull {site : FieldSite} {type : TypeRef} {value : Value} {path : Path}
    (h : Does s w room (.value site type value path) c es) (hn : type.isNonNull = false)
    (hc : c.isNull = true) : value = .null ∧ es = [] := by
  cases h with
  | null => exact ⟨rfl, rfl⟩
  | unmarked => cases hn
  | array => simp [Completion.isNull_array] at hc
  | leaf _ _ hv _ hv' =>
    have hnull := TypeRef.isNull_of_coerceOutput hv hv'
    rw [Completion.isNull, hnull] at hc
    cases hc
  | ofObject _ _ h => simp [h.isNull_object] at hc
  | ofAbstract _ _ _ _ h => simp [h.isNull_object] at hc
  | notArray | invalidLeaf | noConcrete | unknownType => cases hc

/-- Nothing happens twice that may happen once only. -/
theorem pairwise_not_clash (hs : s.schema.WellFormed) (h : Does s w room job c es)
    (hp : job.Regular) : es.Pairwise fun a b => ¬ a.Clash b := by
  have hsymm : ∀ {a b : Event}, ¬ a.Clash b → ¬ b.Clash a := fun h hc => h hc.symm
  have hne : ∀ {a b : Event}, a.path? ≠ b.path? → ¬ a.Clash b := fun h hc => h hc.path?_eq
  induction h with
  | @object room type value selections path context collected outs merged hc hcol hl ho hm ih =>
    have hparts := parts_object hcol hl ho hm
    have htidy := s.collect_tidy_true ⟨type.name, path, context⟩ selections
    rw [hcol] at htidy
    refine List.pairwise_append.2 ⟨?_, ?_, ?_⟩
    · exact List.pairwise_map.2 (List.pairwise_of_forall fun _ _ => nofun)
    · refine hparts.pairwise hsymm hne fun i d ds hi => ?_
      obtain ⟨hlt, -⟩ := List.getElem?_eq_some_iff.1 hi
      have hg : collected.groups[i]? = some collected.groups[i] :=
        List.getElem?_eq_getElem (by omega)
      exact ih i _ _ d ds hg hi ⟨(htidy.groups _ _ (List.mem_of_getElem? hg)).1, hp⟩
    · intro a ha b hb
      obtain ⟨e, he, rfl⟩ := List.mem_map.1 ha
      refine hne fun hab => hparts.path?_ne hb ?_
      rw [← hab]
      exact htidy.errors e he
  | array hl ho hm ih =>
    refine (parts_array hl ho hm).pairwise hsymm hne fun i d ds hi => ?_
    obtain ⟨hlt, -⟩ := List.getElem?_eq_some_iff.1 hi
    exact ih i _ d ds (List.getElem?_eq_getElem (by omega)) hi hp.1
  | undefined => simp [Event.Clash]
  | @field room type f d parent fields path c es hname hd h ih =>
    refine List.pairwise_cons.2 ⟨fun b hb hc => ?_, ih (hp.2 _ (Entries.mem_of_get? hd))⟩
    cases b with
    | reached q t =>
      cases hc
      exact h.not_reached nofun t hb
    | _ => exact hc
  | unresolved _ _ _ ih => exact ih hp
  | called _ _ hi _ _ _ ih => exact List.pairwise_cons.2 ⟨fun _ _ hc => hc, ih hp⟩
  | produced _ _ _ ih => exact List.pairwise_cons.2 ⟨fun _ _ hc => hc, ih ⟨hp, nofun⟩⟩
  | item h ih =>
    refine List.pairwise_cons.2 ⟨fun b hb hc => ?_,
      List.pairwise_cons.2 ⟨fun _ _ hc => hc, ih ⟨hp, nofun⟩⟩⟩
    rcases List.mem_cons.1 hb with rfl | hb
    · exact hc
    · cases b with
      | reached q t =>
        cases hc
        exact h.not_reached nofun t hb
      | _ => exact hc
  | marked _ ih => exact ih ⟨hp.1.2, fun _ => hp.1.1⟩
  | absorbed hn _ ih => exact ih ⟨hp.1, hn⟩
  | refused hc h _ =>
    obtain ⟨-, rfl⟩ := h.eq_nil_of_isNull (hp.2 rfl) hc
    exact List.pairwise_singleton _ _
  | kept _ _ ih => exact ih ⟨hp.1, hp.2 rfl⟩
  | unmarked => exact absurd hp.2 nofun
  | ofObject _ ht _ ih => exact ih (hs _ _ ht).2
  | ofAbstract _ _ _ ht _ ih =>
    obtain ⟨claimed, -, -, hclaimed⟩ := Schema.exists_of_concreteType? ht
    exact ih (hs _ _ hclaimed).2
  | unselected | typename | skipped | null | leaf => exact .nil
  | tooDeep | invalidArgument | timedOut | failed | notArray | invalidLeaf | noConcrete
    | unknownType => exact List.pairwise_singleton _ _

end Does

end GraphQL.Execution
