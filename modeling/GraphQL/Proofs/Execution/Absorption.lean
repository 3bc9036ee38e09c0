import GraphQL.Proofs.Document.Expansion
import GraphQL.Proofs.Execution.Collecting
import GraphQL.Proofs.Execution.Mirrors

/-!
Fragments that are expanded once, next to fragments that are expanded wherever they are spread.

Selections without spreads of fragments are collected item by item, and to collect an item again
only repeats a field or an error (`Collected.Echoes.put_again`). A fragment that was visited has
left all of its items behind (`Setting.Absorbed`), so what is skipped at its other spreads are
repetitions, in the selection set and in those of the fields that are merged
(`Setting.mirrors_of_expandsTo`).
-/

set_option autoImplicit false

namespace GraphQL

open Json

/-- A list in which members of another one are repeated, at any place behind their first one. -/
inductive Echo {α : Type} : List α → List α → Prop where
  | nil : Echo [] []
  | next (x : α) {xs ys : List α} : Echo xs ys → Echo (xs ++ [x]) (ys ++ [x])
  | again {y : α} {xs ys : List α} : Echo xs ys → y ∈ ys → Echo xs (ys ++ [y])

namespace Echo

variable {α β : Type} {xs ys : List α}

theorem nexts (h : Echo xs ys) (zs : List α) : Echo (xs ++ zs) (ys ++ zs) := by
  induction zs generalizing xs ys with
  | nil => simpa using h
  | cons z zs ih => simpa using ih (h.next z)

theorem refl (xs : List α) : Echo xs xs := nil.nexts xs

theorem agains (h : Echo xs ys) {zs : List α} (hz : ∀ z ∈ zs, z ∈ ys) : Echo xs (ys ++ zs) := by
  induction zs generalizing ys with
  | nil => simpa using h
  | cons z zs ih =>
    obtain ⟨hy, hz⟩ := List.forall_mem_cons.1 hz
    simpa using ih (h.again hy) fun z' hz' => List.mem_append_left _ (hz z' hz')

theorem flatMap (h : Echo xs ys) (f : α → List β) : Echo (xs.flatMap f) (ys.flatMap f) := by
  induction h with
  | nil => exact .nil
  | next x _ ih => simpa using ih.nexts (f x)
  | @again y xs ys _ hy ih =>
    have hin : ∀ z ∈ f y, z ∈ ys.flatMap f := fun z hz => List.mem_flatMap.2 ⟨y, hy, hz⟩
    simpa using ih.agains hin

theorem mem_of_mem (h : Echo xs ys) {y : α} (hy : y ∈ ys) : y ∈ xs := by
  induction h with
  | nil => exact hy
  | next x _ ih =>
    rcases List.mem_append.1 hy with hy | hy
    · exact List.mem_append_left _ (ih hy)
    · exact List.mem_append_right _ hy
  | again _ hz ih =>
    rcases List.mem_append.1 hy with hy | hy
    · exact ih hy
    · exact ih (List.mem_singleton.1 hy ▸ hz)

theorem eq_nil (h : Echo [] ys) : ys = [] :=
  List.eq_nil_iff_forall_not_mem.2 fun _ hy => List.not_mem_nil (h.mem_of_mem hy)

theorem exists_of_cons {x : α} (h : Echo (x :: xs) ys) : ∃ ys', ys = x :: ys' := by
  generalize hall : x :: xs = all at h
  induction h generalizing xs with
  | nil => cases hall
  | @next z front ys hfront ih =>
    cases front with
    | nil =>
      cases hall
      rw [hfront.eq_nil]
      exact ⟨[], rfl⟩
    | cons x' front =>
      cases hall
      obtain ⟨ys', rfl⟩ := ih rfl
      exact ⟨ys' ++ [z], rfl⟩
  | @again y _ ys _ _ ih =>
    obtain ⟨ys', rfl⟩ := ih hall
    exact ⟨ys' ++ [y], rfl⟩

/-- All that is added are repetitions. -/
theorem exists_perm (h : Echo xs ys) : ∃ repeated, ys.Perm (xs ++ repeated) ∧
    ∀ z ∈ repeated, z ∈ xs := by
  induction h with
  | nil => exact ⟨[], .nil, nofun⟩
  | @next x xs ys _ ih =>
    obtain ⟨repeated, hperm, hmem⟩ := ih
    refine ⟨repeated, ?_, fun z hz => List.mem_append_left _ (hmem z hz)⟩
    refine (hperm.append_right [x]).trans ?_
    rw [List.append_assoc, List.append_assoc]
    exact List.perm_append_comm.append_left xs
  | @again y xs ys h hy ih =>
    obtain ⟨repeated, hperm, hmem⟩ := ih
    refine ⟨repeated ++ [y], ?_, ?_⟩
    · rw [← List.append_assoc]
      exact hperm.append_right [y]
    · intro z hz
      rcases List.mem_append.1 hz with hz | hz
      · exact hmem z hz
      · exact List.mem_singleton.1 hz ▸ h.mem_of_mem hy

end Echo

namespace Execution

/-- What selections without spreads of fragments are made up of. -/
inductive Item where
  | field (f : Field Literal)
  | error (e : Error)
  /-- A spread of a fragment that there is not. -/
  | unknown (name : String) (e : Error)

namespace Collected

def put (c : Collected) : Item → Collected
  | .field f => c.addField f
  | .error e => c.record e
  | .unknown name e => if name ∈ c.visited then c else (c.visit name).record e

/-- Whether the item has been collected. -/
def Has (c : Collected) : Item → Prop
  | .field f => ∃ fields, Entries.get? f.head.responseKey c.groups = some fields ∧ f ∈ fields
  | .error e => e ∈ c.errors
  | .unknown name _ => name ∈ c.visited

theorem has_put (c : Collected) (item : Item) : (c.put item).Has item := by
  cases item with
  | field f =>
    refine ⟨(Entries.get? f.head.responseKey c.groups).getD [] ++ [f], ?_, ?_⟩
    · rw [put, addField, Entries.get?_insert, if_pos rfl]
    · exact List.mem_append_right _ List.mem_cons_self
  | error e => exact List.mem_append_right _ List.mem_cons_self
  | unknown name e =>
    rw [put]
    split
    · next hv => exact hv
    · exact List.mem_cons_self

namespace Has

variable {c : Collected} {item : Item}

theorem addField (h : c.Has item) (g : Field Literal) : (c.addField g).Has item := by
  cases item with
  | field f =>
    obtain ⟨fields, hget, hf⟩ := h
    simp only [Has, Collected.addField, Entries.get?_insert]
    split
    · next hkey => exact ⟨_, rfl, List.mem_append_left _ (by rwa [← hkey, hget])⟩
    · exact ⟨fields, hget, hf⟩
  | error e => exact h
  | unknown name e => exact h

theorem record (h : c.Has item) (e : Error) : (c.record e).Has item := by
  cases item with
  | field f => exact h
  | error e' => exact List.mem_append_left _ h
  | unknown name e' => exact h

theorem visit (h : c.Has item) (name : String) : (c.visit name).Has item := by
  cases item with
  | field f => exact h
  | error e => exact h
  | unknown name' e => exact List.mem_cons_of_mem _ h

theorem put (h : c.Has item) (new : Item) : (c.put new).Has item := by
  cases new with
  | field g => exact h.addField g
  | error e => exact h.record e
  | unknown name e =>
    rw [Collected.put]
    split
    · exact h
    · exact (h.visit name).record e

theorem foldl (h : c.Has item) (items : List Item) : (items.foldl Collected.put c).Has item := by
  induction items generalizing c with
  | nil => exact h
  | cons new items ih => exact ih (h.put new)

end Has

theorem has_foldl (c : Collected) (items : List Item) :
    ∀ item ∈ items, (items.foldl put c).Has item := by
  induction items generalizing c with
  | nil => exact nofun
  | cons first items ih =>
    intro item hitem
    rcases List.mem_cons.1 hitem with rfl | hitem
    · exact (has_put c _).foldl items
    · exact ih (c.put first) item hitem

end Collected

namespace Setting

section

variable (s : Setting) (site : Site)

def itemsWhen (directives : List (Directive Literal)) (inside : List Item) : List Item :=
  match s.directives.includes s.bindings site.context directives with
  | .ok true => inside
  | .ok false => []
  | .error e => [.error (e.locate (directives.head?.bind (·.location)) site.path)]

mutual

/-- The items of a node in the order in which they are collected. -/
def items : Selection Literal → List Item
  | .field head selections => s.itemsWhen site head.directives [.field ⟨head, selections⟩]
  | .spread sp => s.itemsWhen site sp.directives [.unknown sp.fragment
      ⟨"Unknown fragment \"" ++ sp.fragment ++ "\".", sp.location.toList, some site.path, []⟩]
  | .inline head selections => s.itemsWhen site head.directives
      (if s.applies site head.condition then itemsAll selections else [])

def itemsAll : List (Selection Literal) → List Item
  | [] => []
  | node :: nodes => items node ++ itemsAll nodes

end

end

variable {s : Setting} {site : Site}

theorem itemsAll_append (nodes later : List (Selection Literal)) :
    s.itemsAll site (nodes ++ later) = s.itemsAll site nodes ++ s.itemsAll site later := by
  induction nodes with
  | nil => rfl
  | cons node nodes ih => rw [List.cons_append, itemsAll, itemsAll, ih, List.append_assoc]

theorem mem_itemsAll {nodes : List (Selection Literal)} {node : Selection Literal}
    (hnode : node ∈ nodes) {item : Item} (h : item ∈ s.items site node) :
    item ∈ s.itemsAll site nodes := by
  obtain ⟨front, back, rfl⟩ := List.append_of_mem hnode
  rw [itemsAll_append, itemsAll]
  exact List.mem_append_right _ (List.mem_append_left _ h)

theorem itemsWhen_of_true {directives : List (Directive Literal)}
    (h : s.directives.includes s.bindings site.context directives = .ok true)
    (inside : List Item) : s.itemsWhen site directives inside = inside := by
  rw [itemsWhen, h]

theorem items_of_excluded {node : Selection Literal}
    (h : s.directives.includes s.bindings site.context node.directives = .ok false) :
    s.items site node = [] := by
  cases node <;>
  · rw [Selection.directives] at h
    rw [items, itemsWhen, h]

theorem items_of_failed {node : Selection Literal} {e : FieldError}
    (h : s.directives.includes s.bindings site.context node.directives = .error e) :
    s.items site node =
      [.error (e.locate (node.directives.head?.bind (·.location)) site.path)] := by
  cases node <;>
  · rw [Selection.directives] at h
    rw [items, itemsWhen, h, Selection.directives]

variable {d : Document}

theorem whenIncluded_eq_foldl {directives : List (Directive Literal)} {inside : List Item}
    {insideOf : Collected → Collected} (h : ∀ c, insideOf c = inside.foldl Collected.put c)
    (c : Collected) : (s.withDocument d).whenIncluded site directives insideOf c =
      (s.itemsWhen site directives inside).foldl Collected.put c := by
  unfold whenIncluded itemsWhen
  rw [withDocument_directives, withDocument_bindings]
  cases s.directives.includes s.bindings site.context directives with
  | error e => rfl
  | ok included =>
    cases included with
    | true => exact h c
    | false => rfl

variable {expand : List (Selection Literal) → Collected → Collected}
  {nodes nodes' : List (Selection Literal)}

/-- Nodes are collected by their items if each of them is. -/
theorem collectNodes_eq_foldl
    (h : ∀ node ∈ nodes, ∀ c, (s.withDocument d).collectNode site expand node c =
      (s.items site node).foldl Collected.put c) (c : Collected) :
    (s.withDocument d).collectNodes site expand nodes c =
      (s.itemsAll site nodes).foldl Collected.put c := by
  induction nodes generalizing c with
  | nil => rw [collectNodes, itemsAll, List.foldl_nil]
  | cons node nodes ih =>
    obtain ⟨hnode, hnodes⟩ := List.forall_mem_cons.1 h
    rw [collectNodes, itemsAll, List.foldl_append, hnode, ih hnodes]

theorem collectNode_inline_eq_foldl (head : InlineHead Literal)
    (h : ∀ node ∈ nodes, ∀ c, (s.withDocument d).collectNode site expand node c =
      (s.items site node).foldl Collected.put c) (c : Collected) :
    (s.withDocument d).collectNode site expand (.inline head nodes) c =
      (s.items site (.inline head nodes)).foldl Collected.put c := by
  rw [collectNode, items]
  refine whenIncluded_eq_foldl (fun c => ?_) c
  change (if s.applies site head.condition then _ else _) = _
  split
  · exact collectNodes_eq_foldl h c
  · rfl

/-- Where all spreads of fragments are replaced, nodes are collected by their items. -/
theorem collectNode_of_expands (hd : s.document.ExpandsTo d)
    (h : s.document.Expands nodes nodes') :
    ∀ node ∈ nodes', ∀ c, (s.withDocument d).collectNode site expand node c =
      (s.items site node).foldl Collected.put c := by
  induction h with
  | nil => exact nofun
  | field head _ _ _ ih =>
    refine List.forall_mem_cons.2 ⟨fun c => ?_, ih⟩
    rw [collectNode, items]
    exact whenIncluded_eq_foldl (fun _ => by rfl) c
  | spread _ _ _ _ ihin ih =>
    exact List.forall_mem_cons.2 ⟨collectNode_inline_eq_foldl _ ihin, ih⟩
  | unknown _ hf _ ih =>
    refine List.forall_mem_cons.2 ⟨fun c => ?_, ih⟩
    rw [collectNode, items]
    refine whenIncluded_eq_foldl (fun c => ?_) c
    have hunknown := hd.fragment?_eq_none_iff.2 hf
    rw [Setting.spread, withDocument, hunknown]
    rfl
  | inline head _ _ ihin ih =>
    exact List.forall_mem_cons.2 ⟨collectNode_inline_eq_foldl head ihin, ih⟩

end Setting

/-- A field, and the same with its selections expanded. -/
def FieldExpands (d : Document) (f f' : Field Literal) : Prop :=
  f.head = f'.head ∧ d.Expands f.selections f'.selections

/-- Fields with one response key, and the same, expanded, with repetitions. -/
def FieldsEcho (d : Document) (fields fields' : List (Field Literal)) : Prop :=
  ∃ expanded, List.Forall₂ (FieldExpands d) fields expanded ∧ Echo expanded fields'

/-- Two collections, of which the second one has the expanded fields of the first one and repeats
some of its fields and errors. -/
structure Collected.Echoes (d : Document) (c c' : Collected) : Prop where
  visited : ∀ name, d.fragment? name = none → (name ∈ c.visited ↔ name ∈ c'.visited)
  groups : Entries.Alike (FieldsEcho d) c.groups c'.groups
  errors : Echo c.errors c'.errors

namespace Collected.Echoes

variable {d : Document} {c c' : Collected}

theorem empty (d : Document) : Collected.empty.Echoes d .empty := ⟨fun _ _ => .rfl, .nil, .nil⟩

theorem addField (h : c.Echoes d c') {f f' : Field Literal} (hf : FieldExpands d f f') :
    (c.addField f).Echoes d (c'.addField f') where
  visited := h.visited
  groups := by
    obtain ⟨expanded, hexpanded, hecho⟩ := h.groups.getD_get? f.head.responseKey
      (⟨[], .nil, .nil⟩ : FieldsEcho d [] [])
    unfold Collected.addField
    rw [← hf.1]
    exact h.groups.insert _ ⟨expanded ++ [f'], List.rel_append hexpanded (.cons hf .nil),
      hecho.next f'⟩
  errors := h.errors

theorem record (h : c.Echoes d c') (e : Error) : (c.record e).Echoes d (c'.record e) :=
  ⟨h.visited, h.groups, h.errors.next e⟩

theorem visit (h : c.Echoes d c') (name : String) :
    (c.visit name).Echoes d (c'.visit name) where
  visited other hother := by
    simp only [Collected.visit, List.mem_cons, h.visited other hother]
  groups := h.groups
  errors := h.errors

/-- To visit a fragment of the document is nothing where its spreads are replaced. -/
theorem visit_left (h : c.Echoes d c') {name : String} {f : Fragment Literal}
    (hf : d.fragment? name = some f) : (c.visit name).Echoes d c' where
  visited other hother := by
    have hne : other ≠ name := by
      rintro rfl
      cases hother.symm.trans hf
    simp only [Collected.visit, List.mem_cons, hne, false_or, h.visited other hother]
  groups := h.groups
  errors := h.errors

/-- To collect an item again only repeats it. -/
theorem put_again (h : c.Echoes d c') {item : Item} (hitem : c'.Has item) :
    c.Echoes d (c'.put item) := by
  cases item with
  | field f =>
    obtain ⟨fields, hget, hf⟩ := hitem
    refine ⟨h.visited, ?_, h.errors⟩
    rw [put, Collected.addField, hget]
    refine h.groups.insert_right hget fun fields₀ hfields => ?_
    obtain ⟨expanded, hexpanded, hecho⟩ := hfields
    exact ⟨expanded, hexpanded, hecho.again hf⟩
  | error e => exact ⟨h.visited, h.groups, h.errors.again hitem⟩
  | unknown name e =>
    have hvisited : name ∈ c'.visited := hitem
    rw [put, if_pos hvisited]
    exact h

theorem puts_again {items : List Item} (h : c.Echoes d c') (hitems : ∀ item ∈ items, c'.Has item) :
    c.Echoes d (items.foldl put c') := by
  induction items generalizing c' with
  | nil => exact h
  | cons item items ih =>
    obtain ⟨hitem, hitems⟩ := List.forall_mem_cons.1 hitems
    exact ih (h.put_again hitem) fun other hother => (hitems other hother).put item

end Collected.Echoes

namespace Setting

section

variable (s : Setting) (site : Site)

/-- All that a fragment holds has been collected, unless its expansion has as many as `n` nodes. -/
def Absorbed (c : Collected) (n : Nat) (name : String) : Prop :=
  ∀ f expanded, s.document.fragment? name = some f →
    s.schema.applies site.objectType f.condition = true →
    s.document.Expands f.selections expanded → Selection.sizeAll expanded < n →
    ∀ item ∈ s.itemsAll site expanded, c.Has item

/-- Collecting has led to `d`, and to `d'` where the spreads are replaced, and the fragments visited
since have been absorbed. -/
structure Absorbs (visited : List String) (d d' : Collected) : Prop where
  echoes : d.Echoes s.document d'
  visited : ∀ name ∈ d.visited, name ∈ visited ∨ ∀ n, s.Absorbed site d' n name

end

variable {s : Setting} {site : Site} {c d d' : Collected}

namespace Absorbed

variable {n : Nat} {name : String} {f : Fragment Literal} {expanded : List (Selection Literal)}

theorem foldl (h : s.Absorbed site c n name) (items : List Item) :
    s.Absorbed site (items.foldl Collected.put c) n name :=
  fun f expanded hf ha he hlt item hitem => (h f expanded hf ha he hlt item hitem).foldl items

theorem mono {m : Nat} (h : s.Absorbed site c n name) (hm : m ≤ n) : s.Absorbed site c m name :=
  fun f expanded hf ha he hlt => h f expanded hf ha he (Nat.lt_of_lt_of_le hlt hm)

theorem of_unknown (hf : s.document.fragment? name = none) (c : Collected) (n : Nat) :
    s.Absorbed site c n name := by
  intro f expanded hf'
  cases hf.symm.trans hf'

section

variable (hf : s.document.fragment? name = some f)

include hf

theorem of_inapplicable (ha : s.schema.applies site.objectType f.condition = false)
    (c : Collected) (n : Nat) : s.Absorbed site c n name := by
  intro f' expanded hf' ha'
  cases hf.symm.trans hf'
  cases ha.symm.trans ha'

variable (he : s.document.Expands f.selections expanded)

include he

/-- Of a fragment that is as large as that nothing is asked. -/
theorem of_size (c : Collected) : s.Absorbed site c (Selection.sizeAll expanded) name := by
  intro f' expanded' hf' _ he' hlt
  cases hf.symm.trans hf'
  cases he.unique he'
  exact absurd hlt (Nat.lt_irrefl _)

theorem of_expands (c : Collected) (n : Nat) :
    s.Absorbed site ((s.itemsAll site expanded).foldl Collected.put c) n name := by
  intro f' expanded' hf' _ he' _
  cases hf.symm.trans hf'
  cases he.unique he'
  exact Collected.has_foldl c _

theorem has_inside (h : s.Absorbed site c n name) (hlt : Selection.sizeAll expanded < n) :
    ∀ item ∈ (if s.applies site (some f.condition) then s.itemsAll site expanded else []),
      c.Has item := by
  split
  · next ha => exact h f expanded hf ha he hlt
  · exact nofun

end

end Absorbed

namespace Absorbs

variable {visited : List String}

theorem trans {e : Collected} {items : List Item} (h : s.Absorbs site visited d d')
    (he : s.Absorbs site d.visited e (items.foldl Collected.put d')) :
    s.Absorbs site visited e (items.foldl Collected.put d') where
  echoes := he.echoes
  visited name hname := by
    rcases he.visited name hname with hd | habsorbed
    · exact (h.visited name hd).imp id fun habsorbed n => (habsorbed n).foldl items
    · exact .inr habsorbed

theorem of_cons {name : String} (h : s.Absorbs site (name :: visited) d d')
    (hname : ∀ n, s.Absorbed site d' n name) : s.Absorbs site visited d d' where
  echoes := h.echoes
  visited other hother := by
    rcases h.visited other hother with hmem | habsorbed
    · rcases List.mem_cons.1 hmem with rfl | hmem
      · exact .inr hname
      · exact .inl hmem
    · exact .inr habsorbed

/-- What was absorbed before stays so. -/
theorem forall_absorbed {n : Nat} {items : List Item}
    (h : s.Absorbs site visited d (items.foldl Collected.put c))
    (hc : ∀ name ∈ visited, s.Absorbed site c n name) :
    ∀ name ∈ d.visited, s.Absorbed site (items.foldl Collected.put c) n name := by
  intro name hname
  rcases h.visited name hname with hmem | habsorbed
  · exact (hc name hmem).foldl items
  · exact habsorbed n

end Absorbs

/-- Selections are collected alike from the document and from where all spreads are replaced, as
long as the fragments visited before have been absorbed. Fragments that are just being expanded have
not been, but these are larger than the selections inside of them. -/
theorem absorbs_of_collects {nodes : List (Selection Literal)} (h : Collects s site nodes c d) :
    ∀ {nodes' : List (Selection Literal)} {c' : Collected} {n : Nat},
      s.document.Expands nodes nodes' → Selection.sizeAll nodes' ≤ n → c.Echoes s.document c' →
      (∀ name ∈ c.visited, s.Absorbed site c' n name) →
      s.Absorbs site c.visited d ((s.itemsAll site nodes').foldl Collected.put c') := by
  induction h with
  | nil c =>
    intro nodes' c' n hexpands _ hc _
    cases hexpands
    exact ⟨hc, fun name hname => .inl hname⟩
  | excluded hi _ ih =>
    intro nodes' c' n hexpands hn hc hdone
    obtain ⟨node', rest', rfl, hdirectives, hrest⟩ := hexpands.exists_of_cons
    rw [itemsAll, items_of_excluded (hdirectives ▸ hi)]
    exact ih hrest (Nat.le_trans (Nat.le_add_left _ _) hn) hc hdone
  | failed hi _ ih =>
    intro nodes' c' n hexpands hn hc hdone
    obtain ⟨node', rest', rfl, hdirectives, hrest⟩ := hexpands.exists_of_cons
    rw [itemsAll, items_of_failed (hdirectives ▸ hi), hdirectives]
    exact ih hrest (Nat.le_trans (Nat.le_add_left _ _) hn) (hc.record _) fun name hname =>
      (hdone name hname).foldl [.error _]
  | @field head selections nodes c d hi _ ih =>
    intro nodes' c' n hexpands hn hc hdone
    cases hexpands with
    | @field _ _ expanded _ rest' hinner hrest =>
      have hfield : FieldExpands s.document ⟨head, selections⟩ ⟨head, expanded⟩ := ⟨rfl, hinner⟩
      rw [itemsAll, items, itemsWhen_of_true hi]
      exact ih hrest (Nat.le_trans (Nat.le_add_left _ _) hn) (hc.addField hfield) fun name hname =>
        (hdone name hname).foldl [.field _]
  | visited hi hv _ ih =>
    intro nodes' c' n hexpands hn hc hdone
    cases hexpands with
    | @spread _ f expanded _ rest' hf hinner hrest =>
      rw [itemsAll, items, itemsWhen_of_true hi, List.foldl_append]
      rw [Selection.sizeAll, Selection.size] at hn
      have hhas := (hdone _ hv).has_inside hf hinner (by omega)
      exact ih hrest (by omega) (hc.puts_again hhas) fun name hname =>
        (hdone name hname).foldl _
    | unknown _ hf hrest =>
      rw [itemsAll, items, itemsWhen_of_true hi, List.foldl_append, List.foldl_cons,
        Collected.put, if_pos ((hc.visited _ hf).1 hv)]
      exact ih hrest (Nat.le_trans (Nat.le_add_left _ _) hn) hc hdone
  | @unknown sp nodes c d hi hv hf _ ih =>
    intro nodes' c' n hexpands hn hc hdone
    cases hexpands with
    | spread _ hf' => cases hf.symm.trans hf'
    | unknown _ _ hrest =>
      have hv' : sp.fragment ∉ c'.visited := fun hv' => hv ((hc.visited _ hf).2 hv')
      rw [itemsAll, items, itemsWhen_of_true hi, List.foldl_append]
      refine (ih hrest (Nat.le_trans (Nat.le_add_left _ _) hn) ?_ ?_).of_cons (.of_unknown hf _)
      · rw [List.foldl_cons, Collected.put, if_neg hv']
        exact (hc.visit _).record _
      · exact List.forall_mem_cons.2 ⟨.of_unknown hf _ n, fun name hname =>
          (hdone name hname).foldl _⟩
  | @inapplicable sp f nodes c d hi hv hf ha _ ih =>
    intro nodes' c' n hexpands hn hc hdone
    cases hexpands with
    | unknown _ hf' => cases hf.symm.trans hf'
    | spread _ hf' hinner hrest =>
      cases hf.symm.trans hf'
      have happlies : s.applies site (some f.condition) = false := ha
      rw [itemsAll, items, itemsWhen_of_true hi, happlies]
      exact (ih hrest (Nat.le_trans (Nat.le_add_left _ _) hn) (hc.visit_left hf)
        (List.forall_mem_cons.2 ⟨.of_inapplicable hf ha _ n, hdone⟩)).of_cons
          (.of_inapplicable hf ha _)
  | @expanded sp f nodes c inner d hi hv hf ha _ _ ihin ih =>
    intro nodes' c' n hexpands hn hc hdone
    cases hexpands with
    | unknown _ hf' => cases hf.symm.trans hf'
    | @spread _ _ expanded _ rest' hf' hinner hrest =>
      cases hf.symm.trans hf'
      have happlies : s.applies site (some f.condition) = true := ha
      rw [itemsAll, items, itemsWhen_of_true hi, happlies, if_pos rfl, List.foldl_append]
      rw [Selection.sizeAll, Selection.size] at hn
      -- Inside of the fragment only those smaller than itself need to have been absorbed.
      have hsmaller : ∀ name ∈ (c.visit sp.fragment).visited,
          s.Absorbed site c' (Selection.sizeAll expanded) name :=
        List.forall_mem_cons.2 ⟨.of_size hf hinner c', fun name hname =>
          (hdone name hname).mono (by omega)⟩
      have hinside := (ihin hinner (Nat.le_refl _) (hc.visit_left hf) hsmaller).of_cons
        (.of_expands hf hinner c')
      exact hinside.trans (ih hrest (by omega) hinside.echoes (hinside.forall_absorbed hdone))
  | inlineInapplicable selections hi ha _ ih =>
    intro nodes' c' n hexpands hn hc hdone
    cases hexpands with
    | inline head hinner hrest =>
      rw [itemsAll, items, itemsWhen_of_true hi, ha]
      exact ih hrest (Nat.le_trans (Nat.le_add_left _ _) hn) hc hdone
  | inline hi ha _ _ ihin ih =>
    intro nodes' c' n hexpands hn hc hdone
    cases hexpands with
    | inline head hinner hrest =>
      rw [itemsAll, items, itemsWhen_of_true hi, ha, if_pos rfl, List.foldl_append]
      rw [Selection.sizeAll, Selection.size] at hn
      have hinside := ihin hinner (n := n) (by omega) hc hdone
      exact hinside.trans (ih hrest (by omega) hinside.echoes (hinside.forall_absorbed hdone))

/-- Selections of which some are repeated are collected like those of the document. -/
theorem echoes_of_collects {nodes expanded nodes' : List (Selection Literal)}
    (hexpands : s.document.Expands nodes expanded) (hecho : Echo expanded nodes') :
    Collects s site nodes .empty d →
      s.Absorbs site [] d ((s.itemsAll site nodes').foldl Collected.put .empty) := by
  induction hecho generalizing nodes d with
  | nil =>
    intro h
    cases hexpands
    cases h
    exact ⟨.empty _, nofun⟩
  | next x _ ih =>
    intro h
    obtain ⟨front, back, rfl, hfront, hback⟩ := hexpands.exists_of_append
    obtain ⟨c, hc, hd⟩ := h.exists_of_append
    have hbefore := ih hfront hc
    have hdone : ∀ name ∈ c.visited, ∀ n, s.Absorbed site _ n name := fun name hname =>
      (hbefore.visited name hname).resolve_left List.not_mem_nil
    rw [itemsAll_append, List.foldl_append]
    exact hbefore.trans (absorbs_of_collects hd hback (Nat.le_refl _) hbefore.echoes
      fun name hname => hdone name hname _)
  | @again y _ ys _ hy ih =>
    intro h
    have hbefore := ih hexpands h
    have hhas : ∀ item ∈ s.itemsAll site [y],
        ((s.itemsAll site ys).foldl Collected.put .empty).Has item := by
      intro item hitem
      rw [itemsAll, itemsAll, List.append_nil] at hitem
      exact Collected.has_foldl _ _ item (mem_itemsAll hy hitem)
    rw [itemsAll_append, List.foldl_append]
    exact ⟨hbefore.echoes.puts_again hhas, fun name hname =>
      (hbefore.visited name hname).imp id fun habsorbed n => (habsorbed n).foldl _⟩

/-- Selections, and the same with all spreads replaced, with repetitions. -/
def SelectionsEcho (d : Document) (nodes nodes' : List (Selection Literal)) : Prop :=
  ∃ expanded, d.Expands nodes expanded ∧ Echo expanded nodes'

theorem collect_echoes {d' : Document} (hd : s.document.ExpandsTo d')
    {nodes nodes' : List (Selection Literal)} (h : SelectionsEcho s.document nodes nodes') :
    (s.collect site nodes).Echoes s.document ((s.withDocument d').collect site nodes') := by
  obtain ⟨expanded, hexpands, hecho⟩ := h
  have hnode : ∀ expand, ∀ node ∈ nodes', ∀ c,
      (s.withDocument d').collectNode site expand node c =
        (s.items site node).foldl Collected.put c := fun expand node hmem =>
    collectNode_of_expands hd hexpands node (hecho.mem_of_mem hmem)
  have hcollect : (s.withDocument d').collect site nodes' =
      (s.itemsAll site nodes').foldl Collected.put .empty := by
    rw [collect]
    cases (s.withDocument d').document.fragments.length with
    | zero => exact collectNodes_eq_foldl (hnode _) _
    | succ _ => exact collectNodes_eq_foldl (hnode _) _
  rw [hcollect]
  exact (echoes_of_collects hexpands hecho (collects_collect s site nodes)).echoes

end Setting

theorem fieldsMirror_of_echo {s : Setting} {fields fields' : List (Field Literal)}
    (h : FieldsEcho s.document fields fields') :
    FieldsMirror s (Setting.SelectionsEcho s.document) fields fields' := by
  obtain ⟨expanded, hfields, hecho⟩ := h
  have hexpands : s.document.Expands (fields.flatMap (·.selections))
      (expanded.flatMap (·.selections)) := by
    clear hecho
    induction hfields with
    | nil => exact .nil
    | cons hf _ ih =>
      rw [List.flatMap_cons, List.flatMap_cons]
      exact hf.2.append ih
  have hselections := hecho.flatMap (·.selections)
  cases hfields with
  | nil =>
    rw [hecho.eq_nil]
    exact .nil
  | cons hf _ =>
    obtain ⟨rest', rfl⟩ := hecho.exists_of_cons
    refine .cons ?_ ⟨_, hexpands, hselections⟩
    rw [hf.1]
    exact ⟨rfl, rfl, rfl, fun _ => rfl⟩

/-- An execution goes the same way where all spreads are replaced, and only repeats errors of
collecting. -/
theorem Setting.mirrors_of_expandsTo {s : Setting} {d : Document} (hd : s.document.ExpandsTo d) :
    s.Mirrors d Echo (Setting.SelectionsEcho s.document) where
  errors h := (Setting.collect_echoes hd h).errors
  groups h := (Setting.collect_echoes hd h).groups.imp fun _ _ => fieldsMirror_of_echo

end Execution

end GraphQL
