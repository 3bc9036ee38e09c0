import GraphQL.Proofs.Except
import GraphQL.SpecError
import GraphQL.Syntax.Parser

/-!
What parsers take off the front of the tokens, and how it is related to what they make of it.

A token may have a defect, which the grammar lets pass. There is one lemma for each way of putting
parsers together.
-/

set_option autoImplicit false

namespace GraphQL.Syntax

/-- What the grammar lets pass and the reader of a document refuses. -/
inductive Defect where
  /-- An integer that does not have 64 bits. -/
  | integer (text : String)
  /-- The name of an argument without a value. -/
  | argument (name : String)
  /-- The name of an object field without a value. -/
  | field (name : String)
  deriving DecidableEq, Repr

/-- A token, and what is wrong at it. -/
structure Spot where
  token : Token
  defect? : Option Defect

namespace Spot

/-- The token is this lexeme, and nothing is wrong with it. -/
structure Is (s : Spot) (l : Lexeme) : Prop where
  lexeme : s.token.lexeme = l
  fine : s.defect? = none

/-- What is wrong at a token does not matter where nothing reads it. -/
def unread (s : Spot) : Spot := ⟨s.token, none⟩

@[simp] theorem token_unread (s : Spot) : s.unread.token = s.token := rfl

@[simp] theorem defect?_unread (s : Spot) : s.unread.defect? = none := rfl

theorem Is.unread_eq {s : Spot} {l : Lexeme} (h : s.Is l) : s.unread = s := by
  cases s
  cases h.fine
  rfl

end Spot

namespace Parser

variable {α β : Type} {R : α → List Spot → Prop} {S : β → List Spot → Prop}

/-- Where the next lexeme is known, what the parser takes is related to its result. -/
def TakesAt (next : Option Lexeme) (p : Parser α) (R : α → List Spot → Prop) : Prop :=
  ∀ tokens a rest, tokens.head?.map Token.lexeme = next → p tokens = .ok (a, rest) →
    ∃ spots, tokens = spots.map Spot.token ++ rest ∧ R a spots

def Takes (p : Parser α) (R : α → List Spot → Prop) : Prop := ∀ next, TakesAt next p R

/-- The parser takes nothing. -/
def Looks (p : Parser α) : Prop := ∀ tokens a rest, p tokens = .ok (a, rest) → rest = tokens

/-- Results one after the other, with what is taken for each. -/
def Rows (R : α → List Spot → Prop) (as : List α) (spots : List Spot) : Prop :=
  ∃ parts, List.Forall₂ R as parts ∧ spots = parts.flatten

/-- The same between brackets. -/
inductive Enclosed (opening closing : Punctuator) (R : α → List Spot → Prop) :
    List α → List Spot → Prop where
  | mk {o c : Spot} {as : List α} {parts : List (List Spot)} : o.Is (.punctuator opening) →
      List.Forall₂ R as parts → c.Is (.punctuator closing) →
      Enclosed opening closing R as (o :: (parts.flatten ++ [c]))

theorem exists_of_forall₂ {as : List α} {parts : List (List Spot)} (h : List.Forall₂ R as parts)
    {a : α} (ha : a ∈ as) : ∃ part ∈ parts, R a part := by
  induction h with
  | nil => cases ha
  | cons hR _ ih =>
    rcases List.mem_cons.1 ha with rfl | ha
    · exact ⟨_, List.mem_cons_self, hR⟩
    · obtain ⟨part, hmem, hpart⟩ := ih ha
      exact ⟨part, List.mem_cons_of_mem _ hmem, hpart⟩

theorem Enclosed.exists_isInfix {opening closing : Punctuator} {as : List α} {spots : List Spot}
    (h : Enclosed opening closing R as spots) {a : α} (ha : a ∈ as) :
    ∃ part, R a part ∧ part <:+: spots := by
  obtain ⟨-, hparts, -⟩ := h
  obtain ⟨part, hmem, hpart⟩ := exists_of_forall₂ hparts ha
  exact ⟨part, hpart, (List.infix_of_mem_flatten hmem).trans ⟨[_], [_], rfl⟩⟩

theorem unexpected_ne_ok {tokens : List Token} {r : α × List Token} :
    (unexpected : Parser α) tokens ≠ .ok r := by
  unfold unexpected
  split <;> nofun

namespace TakesAt

variable {next : Option Lexeme} {l : Lexeme}

theorem unexpected : TakesAt next (Parser.unexpected : Parser α) R :=
  fun _ _ _ _ h => absurd h unexpected_ne_ok

theorem ite {c : Prop} [Decidable c] {p q : Parser α} (hp : c → TakesAt next p R)
    (hq : ¬ c → TakesAt next q R) : TakesAt next (if c then p else q) R := by
  split
  · next h => exact hp h
  · next h => exact hq h

theorem mono {R' : α → List Spot → Prop} {p : Parser α} (hp : TakesAt next p R)
    (h : ∀ a spots, R a spots → R' a spots) : TakesAt next p R' := by
  intro tokens a rest hnext ha
  obtain ⟨spots, htokens, hR⟩ := hp tokens a rest hnext ha
  exact ⟨spots, htokens, h a spots hR⟩

theorem look {p : Parser α} {f : α → Parser β} (hp : Looks p) (hf : ∀ a, TakesAt next (f a) S) :
    TakesAt next (p >>= f) S := by
  intro tokens b rest hnext h
  obtain ⟨⟨a, left⟩, ha, hb⟩ := bind_eq_ok_iff.1 h
  rw [hp tokens a left ha] at hb
  exact hf a tokens b rest hnext hb

theorem skip : TakesAt (some l) Parser.skip fun _ spots => ∃ s : Spot, s.Is l ∧ spots = [s] := by
  intro tokens a rest hnext h
  obtain ⟨t, ht, hlexeme⟩ := Option.map_eq_some_iff.1 hnext
  cases tokens with
  | nil => cases ht
  | cons t' tokens =>
    cases ht
    cases h
    exact ⟨[⟨t, none⟩], rfl, ⟨t, none⟩, ⟨hlexeme, rfl⟩, rfl⟩

/-- The next token is taken; what is wrong at it is known by what is taken after it. -/
theorem skip_then {q : Parser α}
    (h : ∀ t, t.lexeme = l → Takes q fun a spots => ∃ s, s.token = t ∧ R a (s :: spots)) :
    TakesAt (some l) (Parser.skip >>= fun _ => q) R := by
  intro tokens a rest hnext hq
  obtain ⟨t, ht, hlexeme⟩ := Option.map_eq_some_iff.1 hnext
  cases tokens with
  | nil => simp at ht
  | cons t' tokens =>
    cases ht
    obtain ⟨spots, rfl, s, rfl, hR⟩ := h t hlexeme _ tokens a rest rfl hq
    exact ⟨s :: spots, rfl, hR⟩

/-- Nothing is wrong at the next token. -/
theorem skipped {q : Parser α} (h : ∀ s : Spot, s.Is l → Takes q fun a spots => R a (s :: spots)) :
    TakesAt (some l) (Parser.skip >>= fun _ => q) R := by
  refine skip_then fun t ht next tokens a rest hnext hq => ?_
  obtain ⟨spots, htokens, hR⟩ := h ⟨t, none⟩ ⟨ht, rfl⟩ next tokens a rest hnext hq
  exact ⟨spots, htokens, ⟨t, none⟩, rfl, hR⟩

end TakesAt

namespace Takes

theorem unexpected : Takes (Parser.unexpected : Parser α) R := fun _ => .unexpected

theorem pure {a : α} (h : R a []) : Takes (pure a) R := by
  intro _ tokens b rest _ hb
  cases hb
  exact ⟨[], rfl, h⟩

theorem bind {p : Parser α} {f : α → Parser β} (hp : Takes p R)
    (hf : ∀ a spots, R a spots → Takes (f a) fun b spots' => S b (spots ++ spots')) :
    Takes (p >>= f) S := by
  intro _ tokens b rest _ h
  obtain ⟨⟨a, left⟩, ha, hb⟩ := bind_eq_ok_iff.1 h
  obtain ⟨spots, rfl, hR⟩ := hp _ tokens a left rfl ha
  obtain ⟨spots', rfl, hS⟩ := hf a spots hR _ left b rest rfl hb
  exact ⟨spots ++ spots', by simp, hS⟩

theorem mono {R' : α → List Spot → Prop} {p : Parser α} (hp : Takes p R)
    (h : ∀ a spots, R a spots → R' a spots) : Takes p R' :=
  fun next => (hp next).mono h

/-- Nothing is said of what is taken. -/
theorem any {p : Parser α} (hp : Takes p R) : Takes p fun _ _ => True :=
  hp.mono fun _ _ _ => trivial

/-- Nothing is said of what is taken first. -/
theorem seq {P : β → Prop} {p : Parser α} {f : α → Parser β} (hp : Takes p R)
    (hf : ∀ a, Takes (f a) fun b _ => P b) : Takes (p >>= f) fun b _ => P b :=
  hp.bind fun a _ _ => hf a

/-- Nothing reads what is taken. -/
theorem unread {p : Parser α} (hp : Takes p R) :
    Takes p fun a spots => ∃ read, R a read ∧ spots = read.map Spot.unread := by
  intro next tokens a rest hnext ha
  obtain ⟨spots, htokens, hR⟩ := hp next tokens a rest hnext ha
  refine ⟨spots.map Spot.unread, ?_, spots, hR, rfl⟩
  rwa [List.map_map]

theorem ite {c : Prop} [Decidable c] {p q : Parser α} (hp : c → Takes p R) (hq : ¬ c → Takes q R) :
    Takes (if c then p else q) R :=
  fun next => .ite (fun h => hp h next) fun h => hq h next

theorem peek {f : Option Lexeme → Parser β} (h : ∀ next, TakesAt next (f next) S) :
    Takes (peek? >>= f) S :=
  fun _ tokens b rest _ hb => h _ tokens b rest rfl hb

theorem look {p : Parser α} {f : α → Parser β} (hp : Looks p) (hf : ∀ a, Takes (f a) S) :
    Takes (p >>= f) S :=
  fun next => .look hp fun a => hf a next

end Takes

theorem looks_location : Looks location := by
  intro tokens a rest h
  cases h
  rfl

theorem looks_noComma : Looks noComma := by
  intro tokens a rest h
  change (if tokens.head?.any Token.afterComma = true then unexpected else pure () : Parser Unit)
    tokens = .ok (a, rest) at h
  split at h
  · exact absurd h unexpected_ne_ok
  · cases h
    rfl

/-! One token, and what comes after it. -/

namespace Takes

variable {l : Lexeme} {p : Punctuator} {text : String} {f g : Parser β}

theorem exactly (l : Lexeme) :
    Takes (do if (← peek?) = some l then skip else Parser.unexpected : Parser Unit)
      fun _ spots => ∃ s : Spot, s.Is l ∧ spots = [s] := by
  refine peek fun next => .ite (fun hnext => ?_) fun _ => .unexpected
  subst hnext
  exact .skip

theorem optionally (l : Lexeme) :
    Takes (do
      if (← peek?) = some l then
        skip
        return true
      else return false : Parser Bool)
      fun b spots => b = true ∧ (∃ s : Spot, s.Is l ∧ spots = [s]) ∨ b = false ∧ spots = [] := by
  refine peek fun next => .ite (fun hnext => ?_) fun _ => pure (.inr ⟨rfl, rfl⟩) next
  subst hnext
  exact .skipped fun s hs => pure (.inl ⟨rfl, s, hs, rfl⟩)

theorem one_then {q : Parser Unit}
    (hq : Takes q fun _ spots => ∃ s : Spot, s.Is l ∧ spots = [s])
    (h : ∀ s : Spot, s.Is l → Takes f fun b spots => S b (s :: spots)) :
    Takes (q >>= fun _ => f) S := by
  refine hq.bind ?_
  rintro _ _ ⟨s, hs, rfl⟩
  exact h s hs

theorem one_or {q : Parser Bool}
    (hq : Takes q fun b spots =>
      b = true ∧ (∃ s : Spot, s.Is l ∧ spots = [s]) ∨ b = false ∧ spots = [])
    (hf : ∀ s : Spot, s.Is l → Takes f fun b spots => S b (s :: spots)) (hg : Takes g S) :
    Takes (do if ← q then f else g) S := by
  refine hq.bind ?_
  rintro _ _ (⟨rfl, s, hs, rfl⟩ | ⟨rfl, rfl⟩)
  · exact hf s hs
  · exact hg

theorem punctuator_then
    (h : ∀ s : Spot, s.Is (.punctuator p) → Takes f fun b spots => S b (s :: spots)) :
    Takes (Parser.punctuator p >>= fun _ => f) S :=
  one_then (exactly _) h

theorem keyword_then
    (h : ∀ s : Spot, s.Is (.name text) → Takes f fun b spots => S b (s :: spots)) :
    Takes (Parser.keyword text >>= fun _ => f) S :=
  one_then (exactly _) h

theorem punctuator_or
    (hf : ∀ s : Spot, s.Is (.punctuator p) → Takes f fun b spots => S b (s :: spots))
    (hg : Takes g S) : Takes (do if ← Parser.punctuator? p then f else g) S :=
  one_or (optionally _) hf hg

theorem keyword_or
    (hf : ∀ s : Spot, s.Is (.name text) → Takes f fun b spots => S b (s :: spots))
    (hg : Takes g S) : Takes (do if ← Parser.keyword? text then f else g) S :=
  one_or (optionally _) hf hg

theorem anyName :
    Takes Parser.anyName fun text spots => ∃ s : Spot, s.Is (.name text) ∧ spots = [s] := by
  refine peek fun next => ?_
  split
  · exact .skipped fun s hs => .pure ⟨s, hs, rfl⟩
  · exact .unexpected

theorem named {next : String → Parser β}
    (h : ∀ (s : Spot) text, s.Is (.name text) → Takes (next text) fun b spots => S b (s :: spots)) :
    Takes (Parser.anyName >>= next) S := by
  refine anyName.bind ?_
  rintro text _ ⟨s, hs, rfl⟩
  exact h s text hs

/-- What is wrong at a name is known by what comes after it. -/
theorem labeled {next : String → Parser β}
    (h : ∀ t text, t.lexeme = .name text →
      Takes (next text) fun b spots => ∃ s : Spot, s.token = t ∧ S b (s :: spots)) :
    Takes (Parser.anyName >>= next) S := by
  intro _ tokens b rest _ hall
  obtain ⟨⟨text, left⟩, hname, hb⟩ := bind_eq_ok_iff.1 hall
  obtain ⟨_, rfl, s, hs, rfl⟩ := anyName _ tokens text left rfl hname
  obtain ⟨spots, rfl, s', hs', hS⟩ := h s.token text hs.lexeme _ left b rest rfl hb
  exact ⟨s' :: spots, by simp [hs'], hS⟩

theorem name? : Takes Parser.name? fun found spots =>
    (∃ (s : Spot) (text : String), found = some text ∧ s.Is (.name text) ∧ spots = [s]) ∨
      found = none ∧ spots = [] := by
  refine peek fun next => ?_
  split
  · exact .skipped fun s hs => .pure (.inl ⟨s, _, rfl, hs, rfl⟩)
  · exact pure (.inr ⟨rfl, rfl⟩) _

/-! Repetitions. -/

variable {item : Parser α}

theorem manyUntil (stop : Option Lexeme → Bool) (hi : Takes item R) :
    Takes (Parser.manyUntil stop item) (Rows R) := by
  rintro _ tokens as rest - h
  fun_induction Parser.manyUntil stop item tokens generalizing as rest with
  | case1 tokens _ =>
    cases h
    exact ⟨[], rfl, [], .nil, rfl⟩
  | case2 tokens _ ih =>
    obtain ⟨⟨a, left⟩, ha, h⟩ := bind_eq_ok_iff.1 h
    obtain ⟨spots, rfl, hR⟩ := hi _ tokens a left rfl ha
    dsimp only at h
    split at h
    · next hlt =>
      obtain ⟨⟨others, last⟩, ho, h⟩ := bind_eq_ok_iff.1 h
      cases h
      obtain ⟨spots', rfl, parts, hparts, rfl⟩ := ih left hlt others last ho
      exact ⟨spots ++ parts.flatten, by simp, spots :: parts, .cons hR hparts, rfl⟩
    · exact absurd h unexpected_ne_ok

theorem whileNext (first : Lexeme) (hi : Takes item R) :
    Takes (Parser.whileNext first item) (Rows R) :=
  manyUntil _ hi

/-- The bracket that opens comes before the parser. -/
theorem upTo {opening : Punctuator} (close : Punctuator) {o : Spot}
    (ho : o.Is (.punctuator opening)) (hi : Takes item R) :
    Takes (Parser.upTo close item) fun as spots => Enclosed opening close R as (o :: spots) := by
  refine (manyUntil _ hi).bind ?_
  rintro as _ ⟨parts, hparts, rfl⟩
  exact punctuator_then fun c hc => .pure (.mk ho hparts hc)

theorem someUpTo {opening : Punctuator} (close : Punctuator) {o : Spot}
    (ho : o.Is (.punctuator opening)) (hi : Takes item R) :
    Takes (Parser.someUpTo close item) fun as spots =>
      Enclosed opening close R as (o :: spots) := by
  refine hi.bind fun a spots hR => (upTo close ho hi).bind ?_
  rintro as _ (@⟨_, _, _, parts, -, hparts, hc⟩)
  have hall : Enclosed opening close R (a :: as) (o :: ((spots :: parts).flatten ++ [_])) :=
    .mk ho (.cons hR hparts) hc
  exact .pure (by simpa using hall)

theorem separatedBy (separator : Punctuator) (hi : Takes item R) :
    Takes (Parser.separatedBy separator item) fun _ _ => True :=
  (optionally _).seq fun _ => hi.seq fun _ =>
    (whileNext _ ((exactly _).seq fun _ => hi.any)).seq fun _ => .pure trivial

theorem whenNext (first : Lexeme) (hi : Takes item R) :
    Takes (Parser.whenNext first item) fun found spots =>
      (∃ a, found = some a ∧ R a spots) ∨ found = none ∧ spots = [] := by
  refine peek fun next => .ite (fun _ => ?_) fun _ => pure (.inr ⟨rfl, rfl⟩) next
  exact hi.bind (fun a spots hR => .pure (.inl ⟨a, rfl, by simpa using hR⟩)) next

end Takes

end Parser

end GraphQL.Syntax
