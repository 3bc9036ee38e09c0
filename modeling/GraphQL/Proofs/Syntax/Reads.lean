import GraphQL.Proofs.Except
import GraphQL.Proofs.Syntax.Written
import GraphQL.Syntax.Parser

/-!
What parsers read off words: the tokens of some words are taken, whatever words come after them,
and the result has a property. There is one lemma for each way of putting parsers together.
-/

set_option autoImplicit false

namespace GraphQL.Syntax

/-- The next word is none of these punctuators. -/
def Clear (ps : List Punctuator) (us : List Word) : Prop :=
  ∀ p ∈ ps, us.head?.map Word.lexeme ≠ some (.punctuator p)

namespace Clear

variable {ps qs : List Punctuator} {us : List Word}

theorem sign {p : Punctuator} (h : p ∉ ps) : Clear ps (sign p :: us) := by
  rintro q hq ⟨⟩
  exact h hq

theorem name {text : String} {joined : Bool} : Clear ps (⟨.name text, joined⟩ :: us) := nofun

theorem mono (h : Clear qs us) (hps : ps ⊆ qs) : Clear ps us := fun p hp => h p (hps hp)

end Clear

namespace Parser

variable {α β γ : Type} {P : α → Prop} {Q : γ → Prop} {ws vs us : List Word} {w : Word}

/-- Of tokens for the words `ws` and `us`, the parser takes those for `ws`. Its result has a
property. -/
def Reads (p : Parser α) (ws us : List Word) (P : α → Prop) : Prop :=
  ∀ tokens, List.Forall₂ Token.Bears tokens (ws ++ us) →
    ∃ a rest, p tokens = .ok (a, rest) ∧ List.Forall₂ Token.Bears rest us ∧ P a

/-- The lexeme of the first token is that of the first word. -/
theorem head?_lexeme {tokens : List Token} (h : List.Forall₂ Token.Bears tokens us) :
    tokens.head?.map Token.lexeme = us.head?.map Word.lexeme := by
  cases h with
  | nil => rfl
  | cons hbears _ => exact congrArg some hbears.1

namespace Reads

theorem pure {a : α} (h : P a) : Reads (pure a) [] us P :=
  fun tokens ht => ⟨a, tokens, rfl, ht, h⟩

theorem bind {p : Parser α} {f : α → Parser γ} (hp : Reads p ws (vs ++ us) P)
    (hf : ∀ a, P a → Reads (f a) vs us Q) : Reads (p >>= f) (ws ++ vs) us Q := by
  intro tokens ht
  rw [List.append_assoc] at ht
  obtain ⟨a, left, ha, hleft, hPa⟩ := hp tokens ht
  obtain ⟨b, rest, hb, hrest, hQb⟩ := hf a hPa left hleft
  exact ⟨b, rest, bind_eq_ok_iff.2 ⟨(a, left), ha, hb⟩, hrest, hQb⟩

/-- The first parser takes one word. -/
theorem cons {p : Parser α} {f : α → Parser γ} (hp : Reads p [w] (vs ++ us) P)
    (hf : ∀ a, P a → Reads (f a) vs us Q) : Reads (p >>= f) (w :: vs) us Q :=
  hp.bind hf

/-- The first parser takes nothing. -/
theorem look {p : Parser α} {f : α → Parser γ} (hp : Reads p [] (ws ++ us) P)
    (hf : ∀ a, P a → Reads (f a) ws us Q) : Reads (p >>= f) ws us Q :=
  hp.bind hf

/-- The second parser takes nothing. -/
theorem last {p : Parser α} {f : α → Parser γ} (hp : Reads p ws us P)
    (hf : ∀ a, P a → Reads (f a) [] us Q) : Reads (p >>= f) ws us Q := by
  have h : Reads (p >>= f) (ws ++ []) us Q := hp.bind hf
  rwa [List.append_nil] at h

theorem mono {P' : α → Prop} {p : Parser α} (hp : Reads p ws us P) (h : ∀ a, P a → P' a) :
    Reads p ws us P' := by
  intro tokens ht
  obtain ⟨a, rest, ha, hrest, hPa⟩ := hp tokens ht
  exact ⟨a, rest, ha, hrest, h a hPa⟩

theorem peek? : Reads Parser.peek? [] us (· = us.head?.map Word.lexeme) :=
  fun tokens ht => ⟨_, tokens, rfl, ht, head?_lexeme ht⟩

theorem location : Reads Parser.location [] us fun _ => True :=
  fun tokens ht => ⟨_, tokens, rfl, ht, trivial⟩

theorem skip : Reads Parser.skip [w] us fun _ => True := by
  rintro tokens (_ | ⟨_, hrest⟩)
  exact ⟨(), _, rfl, hrest, trivial⟩

theorem ite_pos {c : Prop} [Decidable c] {p q : Parser α} (h : c) (hp : Reads p ws us P) :
    Reads (if c then p else q) ws us P := by
  rwa [if_pos h]

theorem ite_neg {c : Prop} [Decidable c] {p q : Parser α} (h : ¬ c) (hq : Reads q ws us P) :
    Reads (if c then p else q) ws us P := by
  rwa [if_neg h]

theorem noComma (h : ∀ w ∈ us.head?, w.joined = true) :
    Reads Parser.noComma [] us fun _ => True := by
  have hget : Reads (get : Parser (List Token)) [] us fun tokens =>
      tokens.head?.any Token.afterComma = false := by
    intro tokens ht
    refine ⟨tokens, tokens, rfl, ht, ?_⟩
    cases ht with
    | nil => rfl
    | cons hbears _ => exact hbears.2 (h _ rfl)
  exact hget.look fun _ hcomma => .ite_neg (by simp [hcomma]) (.pure trivial)

/-- The first word is looked at, and taken. -/
theorem skipped {f : Unit → Parser γ} (hf : Reads (f ()) vs us Q) :
    Reads (Parser.skip >>= f) (w :: vs) us Q :=
  skip.cons fun _ _ => hf

theorem punctuator (p : Punctuator) (joined : Bool) :
    Reads (Parser.punctuator p) [⟨.punctuator p, joined⟩] us fun _ => True :=
  peek?.look fun _ h => .ite_pos h skip

theorem punctuator?_pos (p : Punctuator) (joined : Bool) :
    Reads (Parser.punctuator? p) [⟨.punctuator p, joined⟩] us (· = true) :=
  peek?.look fun _ h => .ite_pos h (skipped (.pure rfl))

theorem punctuator?_neg {p : Punctuator} (h : Clear [p] us) :
    Reads (Parser.punctuator? p) [] us (· = false) := by
  refine peek?.look fun l hl => .ite_neg ?_ (.pure rfl)
  rw [hl]
  exact h p List.mem_cons_self

theorem anyName (text : String) (joined : Bool) :
    Reads Parser.anyName [⟨.name text, joined⟩] us (text = ·) := by
  refine peek?.look ?_
  rintro _ rfl
  exact skipped (.pure rfl)

theorem keyword (text : String) (joined : Bool) :
    Reads (Parser.keyword text) [⟨.name text, joined⟩] us fun _ => True :=
  peek?.look fun _ h => .ite_pos h skip

theorem keyword?_pos (text : String) (joined : Bool) :
    Reads (Parser.keyword? text) [⟨.name text, joined⟩] us (· = true) :=
  peek?.look fun _ h => .ite_pos h (skipped (.pure rfl))

theorem keyword?_neg {text other : String} {joined : Bool} (h : other ≠ text) :
    Reads (Parser.keyword? text) [] (⟨.name other, joined⟩ :: us) (· = false) := by
  refine peek?.look fun l hl => .ite_neg ?_ (.pure rfl)
  rw [hl]
  exact fun heq => h (Lexeme.name.inj (Option.some.inj heq))

theorem name?_some (text : String) (joined : Bool) :
    Reads Parser.name? [⟨.name text, joined⟩] us (some text = ·) := by
  refine peek?.look ?_
  rintro _ rfl
  exact skipped (.pure rfl)

theorem name?_none (h : ∀ text, us.head?.map Word.lexeme ≠ some (.name text)) :
    Reads Parser.name? [] us (· = none) := by
  refine peek?.look fun l hl => ?_
  split
  · next text => exact absurd hl.symm (h text)
  · exact .pure rfl

/-! The first word is taken, or tells which branch is read. -/

section

variable {p : Punctuator} {text other : String} {joined : Bool} {f g : Parser γ}

theorem named {next : String → Parser γ} (h : Reads (next text) vs us Q) :
    Reads (Parser.anyName >>= next) (⟨.name text, joined⟩ :: vs) us Q :=
  (anyName text joined).cons fun _ htext => htext ▸ h

theorem punctuator_then (hf : Reads f vs us Q) : Reads
    (do if ← Parser.punctuator? p then f else g) (⟨.punctuator p, joined⟩ :: vs) us Q :=
  (punctuator?_pos p joined).cons fun _ h => .ite_pos h hf

theorem punctuator_else (h : Clear [p] (ws ++ us)) (hg : Reads g ws us Q) :
    Reads (do if ← Parser.punctuator? p then f else g) ws us Q :=
  (punctuator?_neg h).look fun _ h => .ite_neg (Bool.eq_false_iff.1 h) hg

theorem keyword_then (hf : Reads f vs us Q) :
    Reads (do if ← Parser.keyword? text then f else g) (⟨.name text, joined⟩ :: vs) us Q :=
  (keyword?_pos text joined).cons fun _ h => .ite_pos h hf

theorem keyword_else (h : other ≠ text) (hg : Reads g (⟨.name other, joined⟩ :: vs) us Q) :
    Reads (do if ← Parser.keyword? text then f else g) (⟨.name other, joined⟩ :: vs) us Q :=
  (keyword?_neg h).look fun _ h => .ite_neg (Bool.eq_false_iff.1 h) hg

end

/-! Repetitions. None of the punctuators `ps` may come after an item. -/

section

variable {R : β → List Word → Prop} {B : β → α → Prop} {item : Parser α} {bs : List β}
  (ps : List Punctuator) {close : Punctuator}

theorem manyUntil {stop : Option Lexeme → Bool} (h : Many R bs ws)
    (hitem : ∀ b ∈ bs, ∀ ws us, R b ws → Clear ps us → Reads item ws us (B b))
    (hnext : ∀ b ws us, R b ws → Clear ps (ws ++ us))
    (hgo : ∀ b ws us, R b ws → stop ((ws ++ us).head?.map Word.lexeme) = false)
    (hus : Clear ps us) (hstop : stop (us.head?.map Word.lexeme) = true) :
    Reads (Parser.manyUntil stop item) ws us fun as => List.Forall₂ B bs as := by
  induction h with
  | nil =>
    intro tokens ht
    refine ⟨[], tokens, ?_, ht, .nil⟩
    rw [Parser.manyUntil, if_pos (by rw [head?_lexeme ht]; exact hstop)]
  | @cons b bs ws vs hb hbs ih =>
    intro tokens ht
    obtain ⟨hitemb, hitems⟩ := List.forall_mem_cons.1 hitem
    have hafter : Clear ps (vs ++ us) := by
      cases hbs with
      | nil => exact hus
      | cons hb' _ =>
        rw [List.append_assoc]
        exact hnext _ _ _ hb'
    have hne : ws ≠ [] := by
      rintro rfl
      have := hgo b [] us hb
      rw [List.nil_append, hstop] at this
      cases this
    rw [List.append_assoc] at ht
    obtain ⟨a, left, ha, hleft, hBa⟩ := hitemb ws (vs ++ us) hb hafter tokens ht
    obtain ⟨as, rest, has, hrest, hBas⟩ := ih hitems left hleft
    have hlt : left.length < tokens.length := by
      have hws := List.length_pos_of_ne_nil hne
      have h₁ := ht.length_eq
      have h₂ := hleft.length_eq
      rw [List.length_append] at h₁
      omega
    refine ⟨a :: as, rest, ?_, hrest, .cons hBa hBas⟩
    rw [Parser.manyUntil, head?_lexeme ht, hgo b ws _ hb, if_neg Bool.false_ne_true]
    refine bind_eq_ok_iff.2 ⟨(a, left), ha, ?_⟩
    dsimp only
    rw [dif_pos hlt]
    exact bind_eq_ok_iff.2 ⟨(as, rest), has, rfl⟩

theorem whileNext {first : Punctuator} (h : Many R bs ws)
    (hitem : ∀ b ∈ bs, ∀ ws us, R b ws → Clear ps us → Reads item ws us (B b))
    (hfirst : ∀ b ws, R b ws → ∃ vs, ws = sign first :: vs) (hps : first ∉ ps)
    (hus : Clear (first :: ps) us) :
    Reads (Parser.whileNext (.punctuator first) item) ws us fun as => List.Forall₂ B bs as := by
  refine manyUntil ps h hitem (fun b ws us hb => ?_) (fun b ws us hb => ?_)
    (hus.mono (List.subset_cons_self _ _)) ?_
  · obtain ⟨vs, rfl⟩ := hfirst b ws hb
    exact .sign hps
  · obtain ⟨vs, rfl⟩ := hfirst b ws hb
    exact bne_self_eq_false _
  · exact bne_iff_ne.2 (hus first List.mem_cons_self)

section

variable (hitem : ∀ b ∈ bs, ∀ ws us, R b ws → Clear ps us → Reads item ws us (B b))
  (hstart : ∀ b ws us, R b ws → Clear (close :: ps) (ws ++ us)) (hclose : close ∉ ps)

include hitem hstart hclose

theorem upTo (h : Many R bs ws) :
    Reads (Parser.upTo close item) (ws ++ [sign close]) us fun as => List.Forall₂ B bs as := by
  refine Reads.bind (manyUntil ps h hitem (fun b ws us hb => ?_) (fun b ws us hb => ?_)
    (.sign hclose) ?_) fun as has => (punctuator close false).last fun _ _ => .pure has
  · exact (hstart b ws us hb).mono (List.subset_cons_self _ _)
  · exact beq_false_of_ne (hstart b ws us hb close List.mem_cons_self)
  · exact beq_self_eq_true _

theorem someUpTo (h : Many R bs ws) (hne : bs ≠ []) :
    Reads (Parser.someUpTo close item) (ws ++ [sign close]) us fun as => List.Forall₂ B bs as := by
  cases h with
  | nil => exact absurd rfl hne
  | @cons b bs ws vs hb hbs =>
    obtain ⟨hitemb, hitems⟩ := List.forall_mem_cons.1 hitem
    have hafter : Clear ps (vs ++ [sign close] ++ us) := by
      cases hbs with
      | nil => exact .sign hclose
      | cons hb' _ =>
        rw [List.append_assoc, List.append_assoc]
        exact (hstart _ _ _ hb').mono (List.subset_cons_self _ _)
    rw [List.append_assoc]
    exact Reads.bind (hitemb ws _ hb hafter) fun a ha =>
      (upTo ps hitems hstart hclose hbs).last fun as has => .pure (.cons ha has)

/-- Items in brackets, or nothing. -/
theorem group {opening : Punctuator} (h : Group opening close R bs ws)
    (hus : Clear [opening] us) :
    Reads (do if ← Parser.punctuator? opening then Parser.someUpTo close item else return []) ws us
      fun as => List.Forall₂ B bs as := by
  cases h with
  | none => exact punctuator_else hus (.pure .nil)
  | some hmany =>
    exact punctuator_then (someUpTo ps hitem hstart hclose hmany (List.cons_ne_nil _ _))

end

end

end Reads

end Parser

end GraphQL.Syntax
