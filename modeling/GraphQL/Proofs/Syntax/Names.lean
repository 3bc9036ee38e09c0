import GraphQL.Path
import GraphQL.Proofs.Entries
import GraphQL.Proofs.Syntax.Grammar
import Mathlib.Data.List.TakeWhile

/-!
Names in a text, and paths that are made of them.

The response keys of a document that was read from a text are names (`Document.named_of_parse`).
Names begin with no digit and have no slash, so a path of names and indices is known by its text
(`Path.eq_of_render_eq`).
-/

set_option autoImplicit false

namespace GraphQL

open Syntax Syntax.Lexeme

def IsName (text : String) : Prop :=
  ∃ c cs, text.toList = c :: cs ∧ isNameStart c = true ∧ ∀ d ∈ cs, isNamePart d = true

instance (text : String) : Decidable (IsName text) :=
  match h : text.toList with
  | [] => isFalse fun ⟨_, _, htext, _⟩ => nomatch h.symm.trans htext
  | c :: cs => decidable_of_iff (isNameStart c = true ∧ cs.all isNamePart = true)
      ⟨fun ⟨hc, hcs⟩ => ⟨c, cs, h, hc, List.all_eq_true.1 hcs⟩, fun ⟨_, _, htext, hname⟩ => by
        cases h.symm.trans htext
        exact ⟨hname.1, List.all_eq_true.2 hname.2⟩⟩

namespace Syntax

def Token.Named (t : Token) : Prop := ∀ text, t.lexeme = .name text → IsName text

theorem Lexeme.number?_ne_name {cs : List Char} {text : String} :
    number? cs ≠ some (.name text) := by
  unfold number?
  intro h
  dsimp only at h
  split at h
  · cases h
  · split at h <;> cases h

theorem Token.named_of_map {x : Except SyntaxError (List Token)} {t : Token}
    {tokens : List Token} (h : x.map (t :: ·) = .ok tokens) (ht : t.Named)
    (hx : ∀ rest, x = .ok rest → ∀ t ∈ rest, t.Named) : ∀ t ∈ tokens, t.Named := by
  cases x with
  | error e => cases h
  | ok rest =>
    cases h
    exact List.forall_mem_cons.2 ⟨ht, hx rest rfl⟩

theorem Token.named_of_scan {index : LineIndex} {offset : Nat} {comma : Bool} {cs : List Char} :
    ∀ {tokens : List Token}, scan index offset comma cs = .ok tokens →
      ∀ t ∈ tokens, t.Named := by
  fun_induction scan index offset comma cs 
  case case1 =>
    rintro _ ⟨⟩
    nofun
  case case2 ih => exact ih
  case case3 ih => exact ih
  case case4 ih | case5 ih | case10 ih | case12 ih =>
    exact fun h => named_of_map h nofun fun _ => ih
  case case6 | case9 | case11 | case13 | case14 => nofun
  case case7 c cs _ _ _ _ hstart _ _ ih =>
    refine fun h => named_of_map h ?_ fun _ => ih
    rintro _ ⟨⟩
    refine ⟨c, cs.takeWhile isNamePart, String.toList_ofList, hstart, fun d hd => ?_⟩
    exact List.mem_takeWhile_imp hd
  case case8 lexeme hnumber _ ih =>
    refine fun h => named_of_map h ?_ fun _ => ih
    rintro text ⟨⟩
    exact absurd hnumber number?_ne_name

theorem Token.named_of_ofText {text : String} {tokens : List Token}
    (h : ofText text = .ok tokens) : ∀ t ∈ tokens, t.Named := named_of_scan h

end Syntax

namespace Selection

variable {V W E : Type} {K : String → Prop} {f : String → V → Except E W}

mutual

theorem keys_of_traverse : ∀ {s : Selection V} {s' : Selection W},
    s.traverse f = .ok s' → s.Keys K → s'.Keys K
  | .field head selections, s', h, hk => by
    rw [traverse] at h
    obtain ⟨head', hhead, h⟩ := bind_eq_ok_iff.1 h
    obtain ⟨selections', hselections, h⟩ := bind_eq_ok_iff.1 h
    cases h
    obtain ⟨arguments, -, hhead⟩ := bind_eq_ok_iff.1 hhead
    obtain ⟨directives, -, hhead⟩ := bind_eq_ok_iff.1 hhead
    cases hhead
    exact ⟨hk.1, allKeys_of_traverseAll hselections hk.2⟩
  | .spread sp, s', h, _ => by
    rw [traverse] at h
    obtain ⟨sp', -, h⟩ := bind_eq_ok_iff.1 h
    cases h
    trivial
  | .inline head selections, s', h, hk => by
    rw [traverse] at h
    obtain ⟨head', -, h⟩ := bind_eq_ok_iff.1 h
    obtain ⟨selections', hselections, h⟩ := bind_eq_ok_iff.1 h
    cases h
    exact allKeys_of_traverseAll hselections hk

theorem allKeys_of_traverseAll : ∀ {selections : List (Selection V)}
    {selections' : List (Selection W)}, traverseAll f selections = .ok selections' →
    AllKeys K selections → AllKeys K selections'
  | [], _, h, _ => by
    cases h
    trivial
  | s :: rest, _, h, hk => by
    rw [traverseAll] at h
    obtain ⟨s', hs, h⟩ := bind_eq_ok_iff.1 h
    obtain ⟨rest', hrest, h⟩ := bind_eq_ok_iff.1 h
    cases h
    exact ⟨keys_of_traverse hs hk.1, allKeys_of_traverseAll hrest hk.2⟩

end

end Selection

theorem Definition.keys_of_traverse {V W E : Type} {K : String → Prop}
    {f : String → V → Except E W} {d : Definition V} {d' : Definition W}
    (h : d.traverse f = .ok d') (hk : d.Keys K) : d'.Keys K := by
  cases d with
  | operation o =>
    obtain ⟨o', ho, h⟩ := bind_eq_ok_iff.1 h
    cases h
    obtain ⟨_, -, ho⟩ := bind_eq_ok_iff.1 ho
    obtain ⟨_, -, ho⟩ := bind_eq_ok_iff.1 ho
    obtain ⟨selections, hs, ho⟩ := bind_eq_ok_iff.1 ho
    cases ho
    exact Selection.allKeys_of_traverseAll hs hk
  | fragment fr =>
    obtain ⟨fr', hfr, h⟩ := bind_eq_ok_iff.1 h
    cases h
    obtain ⟨_, -, hfr⟩ := bind_eq_ok_iff.1 hfr
    obtain ⟨selections, hs, hfr⟩ := bind_eq_ok_iff.1 hfr
    cases hfr
    exact Selection.allKeys_of_traverseAll hs hk

namespace Document

/-- The response keys in a document are names. -/
structure Named (d : Document) : Prop where
  operations : ∀ e ∈ d.operations, Selection.AllKeys IsName e.2.selections
  fragments : d.FragmentKeys IsName

theorem named_add {d : Document} (h : d.Named) {definition : Definition Literal}
    (hk : definition.Keys IsName) : (d.add definition).Named := by
  cases definition with
  | operation o =>
    refine ⟨fun e he => ?_, h.fragments⟩
    rcases Entries.mem_insert he with rfl | he
    · exact hk
    · exact h.operations e he
  | fragment f =>
    refine ⟨h.operations, fun name f' hf' => ?_⟩
    rw [fragment?, add, Entries.get?_insert] at hf'
    split at hf'
    · cases hf'
      exact hk
    · exact h.fragments name f' hf'

theorem named_ofDefinitions {definitions : List (Definition Literal)}
    (h : ∀ d ∈ definitions, d.Keys IsName) : (ofDefinitions definitions).Named := by
  have hfold : ∀ (ds : List (Definition Literal)) (d : Document), (∀ d ∈ ds, d.Keys IsName) →
      d.Named → (ds.foldl add d).Named := by
    intro ds
    induction ds with
    | nil => exact fun d _ hd => hd
    | cons definition ds ih =>
      intro d hds hd
      obtain ⟨hdefinition, hds⟩ := List.forall_mem_cons.1 hds
      exact ih _ hds (named_add hd hdefinition)
  exact hfold definitions empty h ⟨nofun, nofun⟩

theorem named_of_parse {text : String} {d : Document} (h : parse text = .ok d) : d.Named := by
  unfold parse at h
  split at h
  · next items hitems =>
    obtain ⟨tokens, htokens, -⟩ := bind_eq_ok_iff.1 hitems
    have hsound := Item.sound_of_parse htokens (Token.named_of_ofText htokens) hitems
    obtain ⟨definitions, hdefinitions, h⟩ := bind_eq_ok_iff.1 h
    cases h
    refine named_ofDefinitions fun d hd => ?_
    obtain ⟨written, hwritten, hd⟩ := exists_of_mem_mapM hdefinitions hd
    obtain ⟨item, hitem, hexecutable⟩ := List.mem_filterMap.1 hwritten
    cases item with
    | schema i => cases hexecutable
    | executable d' =>
      cases hexecutable
      exact Definition.keys_of_traverse hd (hsound _ hitem)
  · cases h

theorem Named.of_select {d : Document} (h : d.Named) {name : Option String}
    {o : Operation Literal} (hs : d.select name = .ok (some o)) :
    Selection.AllKeys IsName o.selections := by
  unfold select at hs
  split at hs
  · cases hs
  · next key o' ho =>
    cases hs
    exact h.operations (key, o) (by simp [ho])
  · split at hs
    · next o' ho =>
      cases hs
      obtain ⟨key, -, hget⟩ := Option.bind_eq_some_iff.1 ho
      exact h.operations _ (Entries.mem_of_get? hget)
    · cases hs

end Document

namespace PathElement

/-- A key that is a name, or an index. -/
def Named (e : PathElement) : Prop := ∀ k, e = .key k → IsName k

theorem slash_not_mem_render {e : PathElement} (h : e.Named) : '/' ∉ e.render.toList := by
  cases e with
  | index i =>
    intro hmem
    have hdigit : '/' ∈ Nat.toDigits 10 i := by simpa [render, Nat.toList_repr] using hmem
    have := Nat.isDigit_of_mem_toDigits (by decide) (by decide) hdigit
    simp at this
  | key k =>
    obtain ⟨c, cs, hk, hc, hcs⟩ := h k rfl
    intro hmem
    rw [render, hk] at hmem
    rcases List.mem_cons.1 hmem with rfl | hmem
    · simp [isNameStart] at hc
    · have := hcs _ hmem
      simp [isNamePart] at this

theorem not_isNameStart_of_isDigit {c : Char} (h : c.isDigit = true) : isNameStart c = false := by
  have hle : c.val.toNat ≤ 57 := by
    simp only [Char.isDigit, Bool.and_eq_true, decide_eq_true_eq, UInt32.le_iff_toNat_le] at h
    exact h.2
  have hunderscore : c ≠ '_' := by
    rintro rfl
    exact absurd hle (by decide)
  have hupper : 'A'.val.toNat = 65 := rfl
  have hlower : 'a'.val.toNat = 97 := rfl
  have hbounds : isNameStart c =
      ((decide (c.val ≥ 'A'.val ∧ c.val ≤ 'Z'.val) ||
        decide (c.val ≥ 'a'.val) && decide (c.val ≤ 'z'.val)) || c == '_') := rfl
  simp only [hbounds, ge_iff_le, UInt32.le_iff_toNat_le, Bool.or_eq_false_iff,
    Bool.and_eq_false_iff, decide_eq_false_iff_not, beq_eq_false_iff_ne]
  exact ⟨⟨by omega, by omega⟩, hunderscore⟩

theorem eq_of_render_eq {e e' : PathElement} (h : e.Named) (h' : e'.Named)
    (heq : e.render = e'.render) : e = e' := by
  have hne : ∀ (i : Nat) k, IsName k → (PathElement.index i).render ≠ k := by
    rintro i _ ⟨c, cs, hk, hc, -⟩ rfl
    have hmem : c ∈ Nat.toDigits 10 i := by
      rw [← Nat.toList_repr]
      exact hk ▸ List.mem_cons_self
    have hdigit := Nat.isDigit_of_mem_toDigits (by decide) (by decide) hmem
    rw [not_isNameStart_of_isDigit hdigit] at hc
    cases hc
  cases e with
  | index i =>
    cases e' with
    | index j =>
      have hdigits : Nat.toDigits 10 i = Nat.toDigits 10 j := by
        rw [← Nat.toList_repr, ← Nat.toList_repr]
        exact congrArg String.toList heq
      have hi := Nat.ofDigitChars_toDigits (b := 10) (n := i) (by decide) (by decide)
      have hj := Nat.ofDigitChars_toDigits (b := 10) (n := j) (by decide) (by decide)
      rw [← hi, ← hj, hdigits]
    | key k => exact absurd heq (hne i k (h' k rfl))
  | key k =>
    cases e' with
    | index j => exact absurd heq.symm (hne j k (h k rfl))
    | key k' => exact congrArg key heq

end PathElement

namespace Path

/-- The keys of the path are names. -/
def Named (path : Path) : Prop := ∀ e ∈ path, e.Named

theorem toList_render (path : Path) :
    path.render.toList = path.flatMap fun e => '/' :: e.render.toList := by
  have hfold : ∀ (path : Path) (text : String),
      (path.foldl (fun text e => text ++ "/" ++ e.render) text).toList =
        text.toList ++ path.flatMap fun e => '/' :: e.render.toList := by
    intro path
    induction path with
    | nil => simp
    | cons e path ih => simp [ih]
  rw [render, hfold]
  simp

/-- A path of names and indices is known by its text. -/
theorem eq_of_render_eq : ∀ {p q : Path}, p.Named → q.Named → p.render = q.render → p = q := by
  have hsplit : ∀ {e : PathElement} {p : Path}, e.Named →
      (e.render.toList ++ p.flatMap fun e => '/' :: e.render.toList).takeWhile (· ≠ '/') =
        e.render.toList := by
    intro e p he
    have hrest : (p.flatMap fun e => '/' :: e.render.toList).takeWhile (· ≠ '/') = [] := by
      cases p <;> simp
    rw [List.takeWhile_append_of_pos, hrest, List.append_nil]
    intro c hc
    have hslash := PathElement.slash_not_mem_render he
    exact decide_eq_true fun heq => hslash (heq ▸ hc)
  have hlists : ∀ {p q : Path}, p.Named → q.Named →
      (p.flatMap fun e => '/' :: e.render.toList) = q.flatMap (fun e => '/' :: e.render.toList) →
      p = q := by
    intro p
    induction p with
    | nil =>
      intro q _ _ h
      cases q with
      | nil => rfl
      | cons e q => simp at h
    | cons e p ih =>
      intro q hp hq h
      cases q with
      | nil => simp at h
      | cons e' q =>
        obtain ⟨he, hps⟩ := List.forall_mem_cons.1 hp
        obtain ⟨he', hqs⟩ := List.forall_mem_cons.1 hq
        rw [List.flatMap_cons, List.flatMap_cons, List.cons_append, List.cons_append] at h
        have h := (List.cons.inj h).2
        have hrender : e.render.toList = e'.render.toList := by
          rw [← hsplit (p := p) he, ← hsplit (p := q) he']
          exact congrArg _ h
        cases PathElement.eq_of_render_eq he he' (String.toList_inj.1 hrender)
        have hpq : p = q := ih hps hqs (List.append_cancel_left h)
        rw [hpq]
  intro p q hp hq h
  exact hlists hp hq (by rw [← toList_render, ← toList_render, h])

end Path

end GraphQL
