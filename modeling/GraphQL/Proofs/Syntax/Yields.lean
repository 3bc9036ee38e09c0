import GraphQL.Proofs.Except
import GraphQL.Syntax.Grammar.Schema

/-!
What parsers make of tokens with a property: a property of the result, if there is one, while the
tokens that are left still have theirs. There is one lemma for each way of putting parsers together.
-/

set_option autoImplicit false

namespace GraphQL.Syntax.Parser

variable {T : Token → Prop} {α β : Type} {P : α → Prop} {Q : β → Prop}

/-- From tokens that have a property the parser makes a result that has another one. -/
def Yields (T : Token → Prop) (p : Parser α) (P : α → Prop) : Prop :=
  ∀ tokens a rest, (∀ t ∈ tokens, T t) → p tokens = .ok (a, rest) → P a ∧ ∀ t ∈ rest, T t

namespace Yields

theorem pure {a : α} (h : P a) : Yields T (pure a) P := by
  intro tokens b rest ht hb
  cases hb
  exact ⟨h, ht⟩

theorem bind {p : Parser α} {f : α → Parser β} (hp : Yields T p P)
    (hf : ∀ a, P a → Yields T (f a) Q) : Yields T (p >>= f) Q := by
  intro tokens b rest ht h
  obtain ⟨⟨a, left⟩, ha, hb⟩ := bind_eq_ok_iff.1 h
  obtain ⟨hPa, hleft⟩ := hp tokens a left ht ha
  exact hf a hPa left b rest hleft hb

/-- Nothing is asked of the first result. -/
theorem seq {p : Parser α} {f : α → Parser β} (hp : Yields T p fun _ => True)
    (hf : ∀ a, Yields T (f a) Q) : Yields T (p >>= f) Q :=
  hp.bind fun a _ => hf a

theorem mono {P' : α → Prop} {p : Parser α} (hp : Yields T p P) (h : ∀ a, P a → P' a) :
    Yields T p P' := by
  intro tokens a rest ht ha
  obtain ⟨hPa, hrest⟩ := hp tokens a rest ht ha
  exact ⟨h a hPa, hrest⟩

theorem any {p : Parser α} (hp : Yields T p P) : Yields T p fun _ => True :=
  hp.mono fun _ _ => trivial

theorem ite {c : Prop} [Decidable c] {p q : Parser α} (hp : c → Yields T p P)
    (hq : ¬ c → Yields T q P) : Yields T (if c then p else q) P := by
  split
  · next h => exact hp h
  · next h => exact hq h

theorem unexpected : Yields T (Parser.unexpected : Parser α) P := by
  intro tokens a rest _ h
  unfold Parser.unexpected at h
  split at h <;> cases h

/-- The next lexeme is that of a token. -/
theorem peek? : Yields T Parser.peek? fun l => ∀ lexeme, l = some lexeme →
    ∃ t, T t ∧ t.lexeme = lexeme := by
  intro tokens a rest ht h
  cases h
  refine ⟨fun lexeme hl => ?_, ht⟩
  obtain ⟨t, hmem, hlexeme⟩ := Option.map_eq_some_iff.1 hl
  exact ⟨t, ht t (List.mem_of_head? hmem), hlexeme⟩

theorem location : Yields T Parser.location fun _ => True := by
  intro tokens a rest ht h
  cases h
  exact ⟨trivial, ht⟩

theorem skip : Yields T Parser.skip fun _ => True := by
  intro tokens a rest ht h
  cases h
  exact ⟨trivial, fun t hmem => ht t (List.mem_of_mem_drop hmem)⟩

theorem noComma : Yields T Parser.noComma fun _ => True := by
  have hget : Yields T (get : Parser (List Token)) fun _ => True := by
    intro tokens a rest ht h
    cases h
    exact ⟨trivial, ht⟩
  exact hget.seq fun _ => .ite (fun _ => .unexpected) fun _ => .pure trivial

theorem punctuator (p : Punctuator) : Yields T (Parser.punctuator p) fun _ => True :=
  peek?.any.seq fun _ => .ite (fun _ => .skip) fun _ => .unexpected

theorem punctuator? (p : Punctuator) : Yields T (Parser.punctuator? p) fun _ => True :=
  peek?.any.seq fun _ => .ite (fun _ => skip.seq fun _ => .pure trivial) fun _ => .pure trivial

theorem keyword (word : String) : Yields T (Parser.keyword word) fun _ => True :=
  peek?.any.seq fun _ => .ite (fun _ => .skip) fun _ => .unexpected

theorem keyword? (word : String) : Yields T (Parser.keyword? word) fun _ => True :=
  peek?.any.seq fun _ => .ite (fun _ => skip.seq fun _ => .pure trivial) fun _ => .pure trivial

theorem anyName : Yields T Parser.anyName fun text => ∃ t, T t ∧ t.lexeme = .name text := by
  refine peek?.bind fun l hl => ?_
  split
  · next text => exact skip.seq fun _ => .pure (hl _ rfl)
  · exact .unexpected

theorem name? : Yields T Parser.name? fun _ => True := by
  refine peek?.any.seq fun l => ?_
  split
  · exact skip.seq fun _ => .pure trivial
  · exact .pure trivial

theorem whenNext {item : Parser α} (first : Lexeme) (hi : Yields T item P) :
    Yields T (Parser.whenNext first item) fun o => ∀ a, o = some a → P a := by
  refine peek?.any.seq fun _ => .ite (fun _ => hi.bind fun a ha => .pure ?_) fun _ => .pure nofun
  rintro _ ⟨⟩
  exact ha

theorem manyUntil {item : Parser α} (stop : Option Lexeme → Bool) (hi : Yields T item P) :
    Yields T (Parser.manyUntil stop item) fun as => ∀ a ∈ as, P a := by
  intro tokens as rest ht h
  fun_induction Parser.manyUntil stop item tokens generalizing as rest with
  | case1 tokens _ =>
    cases h
    exact ⟨nofun, ht⟩
  | case2 tokens _ ih =>
    obtain ⟨⟨a, left⟩, ha, h⟩ := bind_eq_ok_iff.1 h
    obtain ⟨hPa, hleft⟩ := hi tokens a left ht ha
    dsimp only at h
    split at h
    · next hlt =>
      obtain ⟨⟨others, last⟩, ho, h⟩ := bind_eq_ok_iff.1 h
      cases h
      obtain ⟨hothers, hlast⟩ := ih left hlt others last hleft ho
      exact ⟨List.forall_mem_cons.2 ⟨hPa, hothers⟩, hlast⟩
    · exact absurd h (by unfold Parser.unexpected; split <;> nofun)

theorem upTo {item : Parser α} (close : Punctuator) (hi : Yields T item P) :
    Yields T (Parser.upTo close item) fun as => ∀ a ∈ as, P a :=
  (manyUntil _ hi).bind fun _ has => (punctuator close).seq fun _ => .pure has

theorem someUpTo {item : Parser α} (close : Punctuator) (hi : Yields T item P) :
    Yields T (Parser.someUpTo close item) fun as => ∀ a ∈ as, P a :=
  hi.bind fun _ ha => (upTo close hi).bind fun _ has =>
    .pure (List.forall_mem_cons.2 ⟨ha, has⟩)

theorem whileNext {item : Parser α} (first : Lexeme) (hi : Yields T item P) :
    Yields T (Parser.whileNext first item) fun as => ∀ a ∈ as, P a :=
  manyUntil _ hi

theorem separatedBy {item : Parser α} (separator : Punctuator) (hi : Yields T item P) :
    Yields T (Parser.separatedBy separator item) fun as => ∀ a ∈ as, P a :=
  (punctuator? separator).seq fun _ => hi.bind fun _ ha =>
    (whileNext _ ((punctuator separator).seq fun _ => hi)).bind fun _ has =>
      .pure (List.forall_mem_cons.2 ⟨ha, has⟩)

end Yields

end GraphQL.Syntax.Parser
