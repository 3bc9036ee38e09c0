import GraphQL.Proofs.Syntax.Layout

/-!
How the tokens of a text arise: what stands between tokens is passed over, and each token is taken
with characters of its own. So the tokens stand in the order of their offsets.
-/

set_option autoImplicit false

namespace GraphQL.Syntax

namespace StringValue

theorem quoted_suffix {cs contents rest : List Char} (h : quoted cs = some (contents, rest)) :
    rest <:+ cs := by
  fun_induction quoted cs generalizing contents rest with
  | case1 => cases h
  | case2 =>
    cases h
    exact List.suffix_cons _ _
  | case3 text ih =>
    simp only [Option.bind_eq_bind, Option.bind_eq_some_iff] at h
    obtain ⟨⟨c, length⟩, -, ⟨_, _⟩, hq, ⟨⟩⟩ := h
    exact (ih length hq).trans ((List.drop_suffix _ _).trans ⟨['\\', 'u'], rfl⟩)
  | case4 c text _ ih =>
    simp only [Option.bind_eq_bind, Option.bind_eq_some_iff] at h
    obtain ⟨_, -, ⟨_, _⟩, hq, ⟨⟩⟩ := h
    exact (ih hq).trans ⟨['\\', c], rfl⟩
  | case5 => cases h
  | case6 c text _ _ _ _ ih =>
    simp only [Option.bind_eq_bind, Option.bind_eq_some_iff] at h
    obtain ⟨⟨_, _⟩, hq, ⟨⟩⟩ := h
    exact (ih hq).trans (List.suffix_cons _ _)

theorem afterQuote_suffix {cs contents rest : List Char}
    (h : afterQuote cs = some (contents, rest)) : rest <:+ cs := by
  cases cs with
  | nil => cases h
  | cons c cs =>
    by_cases hc : isLineEnd c
    · simp only [afterQuote, hc, if_true, Option.map_eq_some_iff] at h
      obtain ⟨⟨_, _⟩, hq, ⟨⟩⟩ := h
      exact (quoted_suffix hq).trans (List.suffix_cons _ _)
    · simp only [afterQuote, hc] at h
      exact quoted_suffix h

theorem blockRaw_suffix {cs raw rest : List Char} (h : blockRaw cs = some (raw, rest)) :
    rest <:+ cs := by
  fun_induction blockRaw cs generalizing raw rest with
  | case1 => cases h
  | case2 text ih =>
    simp only [Option.bind_eq_bind, Option.bind_eq_some_iff] at h
    obtain ⟨⟨_, _⟩, hq, ⟨⟩⟩ := h
    exact (ih hq).trans ⟨['\\', '"', '"', '"'], rfl⟩
  | case3 text =>
    cases h
    exact ⟨['"', '"', '"'], rfl⟩
  | case4 c text _ _ ih =>
    simp only [Option.bind_eq_bind, Option.bind_eq_some_iff] at h
    obtain ⟨⟨_, _⟩, hq, ⟨⟩⟩ := h
    exact (ih hq).trans (List.suffix_cons _ _)

end StringValue

/-- Punctuators and names, whose characters are known from the lexeme. -/
def Lexeme.IsWord : Lexeme → Prop
  | punctuator _ | name _ => True
  | _ => False

/-- From an offset on the tokens are those of the text. After each of them reading goes on. -/
inductive Scans (index : LineIndex) : (offset : Nat) → (text : List Char) → List Token → Prop where
  | nil {offset : Nat} : Scans index offset [] []
  | blank {c : Char} {offset next : Nat} {text : List Char} {tokens : List Token} :
      Lexeme.isIgnored c = true → offset ≤ next → Scans index next text tokens →
      Scans index offset (c :: text) tokens
  | comment {body text : List Char} {offset next : Nat} {tokens : List Token} :
      (∀ c ∈ body, StringValue.isLineEnd c = false) →
      (∀ c ∈ text.head?, StringValue.isLineEnd c = true) → offset ≤ next →
      Scans index next text tokens → Scans index offset ('#' :: (body ++ text)) tokens
  | token {t : Token} {own rest : List Char} {next : Nat} {tokens : List Token} :
      (t.lexeme.IsWord → t.lexeme.Spelled own rest) → t.offset < next →
      scan index next false rest = .ok tokens → Scans index next rest tokens →
      Scans index t.offset (own ++ rest) (t :: tokens)

/-- The spelling of a word depends on no more than the next character. -/
theorem Lexeme.Spelled.of_append {l : Lexeme} {own rest post : List Char} (hl : l.IsWord)
    (h : l.Spelled own (rest ++ post)) : l.Spelled own rest := by
  cases h with
  | punctuator => exact .punctuator
  | name hname hrest =>
    exact .name hname fun c hc => hrest c (List.mem_head?_append_of_mem_head? hc)
  | int | float | quoted | block => cases hl

theorem Lexeme.not_isWord_of_number? {cs : List Char} {l : Lexeme} (h : number? cs = some l) :
    ¬ l.IsWord := by
  unfold number? at h
  dsimp only at h
  split at h
  · cases h
  · split at h <;> cases h <;> exact id

theorem Punctuator.chars_of_ofChar? {c : Char} {p : Punctuator} (h : ofChar? c = some p) :
    p.chars = [c] := by
  unfold ofChar? at h
  split at h <;> cases h <;> rfl

theorem drop_length_takeWhile (P : Char → Bool) (cs : List Char) :
    cs.drop (cs.takeWhile P).length = cs.dropWhile P := by
  have h : (cs.takeWhile P ++ cs.dropWhile P).drop (cs.takeWhile P).length = cs.dropWhile P :=
    List.drop_left
  rwa [List.takeWhile_append_dropWhile] at h

theorem head?_dropWhile (P : Char → Bool) (cs : List Char) :
    ∀ c ∈ (cs.dropWhile P).head?, P c = false := by
  intro c hc
  have h := List.head?_dropWhile_not P cs
  rwa [hc] at h

namespace Scans

theorem of_map {index : LineIndex} {offset next : Nat} {comma : Bool} {l : Lexeme}
    {text rest : List Char} (own : List Char) {tokens : List Token} (htext : text = own ++ rest)
    (hl : l.IsWord → l.Spelled own rest) (hlt : offset < next)
    (ih : ∀ {tokens}, scan index next false rest = .ok tokens → Scans index next rest tokens)
    (h : (scan index next false rest).map (⟨l, offset, index.location offset, comma⟩ :: ·) =
      .ok tokens) :
    Scans index offset text tokens := by
  obtain ⟨tokens, htokens, rfl⟩ := map_eq_ok_iff.1 h
  subst htext
  exact @token _ ⟨l, offset, index.location offset, comma⟩ _ _ _ _ hl hlt htokens (ih htokens)

theorem of_scan {index : LineIndex} {offset : Nat} {comma : Bool} {text : List Char} :
    ∀ {tokens : List Token}, scan index offset comma text = .ok tokens →
      Scans index offset text tokens := by
  fun_induction scan index offset comma text
  case case1 =>
    rintro _ ⟨⟩
    exact .nil
  case case2 hc ih => exact fun h => .blank hc (by omega) (ih h)
  case case3 cs _ _ ih =>
    intro tokens h
    have hbody : ∀ c ∈ cs.takeWhile (!StringValue.isLineEnd ·), StringValue.isLineEnd c = false :=
      fun c hc => by simpa using List.mem_takeWhile_imp (p := (!StringValue.isLineEnd ·)) hc
    have hend : ∀ c ∈ (cs.dropWhile (!StringValue.isLineEnd ·)).head?,
        StringValue.isLineEnd c = true :=
      fun c hc => by simpa using head?_dropWhile (!StringValue.isLineEnd ·) cs c hc
    have htokens := ih h
    rw [drop_length_takeWhile] at htokens
    have hscans := Scans.comment hbody hend (Nat.le_add_right_of_le (Nat.le_succ _)) htokens
    rwa [List.takeWhile_append_dropWhile] at hscans
  case case4 c cs _ _ _ p hp ih =>
    have hchars : c :: cs = p.chars ++ cs := by rw [Punctuator.chars_of_ofChar? hp]; rfl
    intro tokens h
    exact of_map p.chars hchars (fun _ => .punctuator) (by omega) ih h
  case case5 ih =>
    intro tokens h
    exact of_map ['.', '.', '.'] rfl (fun _ => .punctuator) (by omega) ih h
  case case7 c cs _ _ _ _ hstart rest _ ih =>
    have hname : IsName (String.ofList (c :: rest)) :=
      ⟨c, rest, String.toList_ofList, hstart, fun d hd => List.mem_takeWhile_imp hd⟩
    have hend : ∀ d ∈ (cs.drop rest.length).head?, Lexeme.isNamePart d = false := by
      rw [drop_length_takeWhile]
      exact head?_dropWhile _ cs
    have htext : c :: cs = (String.ofList (c :: rest)).toList ++ cs.drop rest.length := by
      rw [String.toList_ofList, List.cons_append, drop_length_takeWhile,
        List.takeWhile_append_dropWhile]
    intro tokens h
    exact of_map _ htext (fun _ => .name hname hend) (by omega) ih h
  case case8 c cs _ _ _ _ _ _ tail l hl _ ih =>
    have htext : c :: cs = (c :: cs.take tail.length) ++ cs.drop tail.length := by simp
    have hword := Lexeme.not_isWord_of_number? hl
    intro tokens h
    exact of_map _ htext (fun hl => absurd hl hword) (by omega) ih h
  case case10 body _ _ hblock _ size _ _ _ _ _ _ ih =>
    obtain ⟨own, rfl⟩ := StringValue.blockRaw_suffix hblock
    intro tokens h
    exact of_map ('"' :: '"' :: '"' :: own) rfl False.elim (by omega) ih h
  case case12 hquoted _ size _ _ _ _ _ _ ih =>
    obtain ⟨own, rfl⟩ := StringValue.afterQuote_suffix hquoted
    intro tokens h
    exact of_map ('"' :: own) rfl False.elim (by omega) ih h
  case case6 | case9 | case11 | case13 | case14 =>
    intro _ h
    cases h

section

variable {index : LineIndex} {offset : Nat} {text : List Char}

theorem offset_le {tokens : List Token} (h : Scans index offset text tokens) :
    ∀ t ∈ tokens, offset ≤ t.offset := by
  induction h with
  | nil => nofun
  | blank _ hle _ ih => exact fun t ht => hle.trans (ih t ht)
  | comment _ _ hle _ ih => exact fun t ht => hle.trans (ih t ht)
  | token _ hlt _ _ ih =>
    exact List.forall_mem_cons.2 ⟨le_rfl, fun t ht => hlt.le.trans (ih t ht)⟩

/-- Tokens stand in the order of their offsets. -/
theorem pairwise {tokens : List Token} (h : Scans index offset text tokens) :
    tokens.Pairwise (·.offset < ·.offset) := by
  induction h with
  | nil => exact .nil
  | blank _ _ _ ih => exact ih
  | comment _ _ _ _ ih => exact ih
  | token _ hlt _ h ih => exact .cons (fun t ht => hlt.trans_le (h.offset_le t ht)) ih

/-- After some tokens the rest of the text is read by itself. -/
theorem split {tokens after : List Token} {t : Token} (h : Scans index offset text tokens) :
    ∀ {before : List Token}, tokens = before ++ t :: after →
      ∃ pre rest next, text = pre ++ rest ∧ scan index next false rest = .ok after := by
  induction h with
  | nil =>
    exact fun heq => absurd heq.symm (List.append_ne_nil_of_right_ne_nil _ (List.cons_ne_nil _ _))
  | @blank c _ _ text _ _ _ _ ih =>
    intro before heq
    obtain ⟨pre, rest, next, rfl, hrest⟩ := ih heq
    exact ⟨c :: pre, rest, next, rfl, hrest⟩
  | @comment body text _ _ _ _ _ _ _ ih =>
    intro before heq
    obtain ⟨pre, rest, next, rfl, hrest⟩ := ih heq
    exact ⟨'#' :: (body ++ pre), rest, next, by simp, hrest⟩
  | @token t' own rest next _ _ _ hscan _ ih =>
    intro before heq
    cases before with
    | nil =>
      cases heq
      exact ⟨own, rest, next, rfl, hscan⟩
    | cons _ before =>
      cases heq
      obtain ⟨pre, rest, next, rfl, hrest⟩ := ih rfl
      exact ⟨own ++ pre, rest, next, by simp, hrest⟩

/-- Words at the front are laid out in the text up to where the last of them ends. -/
theorem exists_laid {tokens after : List Token} (h : Scans index offset text tokens) :
    ∀ {ws : List Word} {part : List Token}, (∀ w ∈ ws, w.lexeme.IsWord ∧ w.joined = false) →
      ws ≠ [] → part.map Token.lexeme = ws.map Word.lexeme → tokens = part ++ after →
        ∃ source post next, text = source ++ post ∧ Laid ws source ∧
          scan index next false post = .ok after := by
  induction h with
  | nil =>
    intro ws part _ hne hpart heq
    obtain ⟨rfl, -⟩ := List.append_eq_nil_iff.1 heq.symm
    exact absurd (List.map_eq_nil_iff.1 hpart.symm) hne
  | @blank c _ _ text _ hc _ _ ih =>
    intro ws part hws hne hpart heq
    obtain ⟨source, post, next, rfl, hlaid, hscan⟩ := ih hws hne hpart heq
    refine ⟨c :: source, post, next, rfl, ?_, hscan⟩
    by_cases hcomma : c = ','
    · subst hcomma
      exact .comma (fun w hw => (hws w (List.mem_of_mem_head? hw)).2) hlaid
    · exact .blank hc hcomma hlaid
  | @comment body text _ _ _ hbody hend _ _ ih =>
    intro ws part hws hne hpart heq
    obtain ⟨source, post, next, rfl, hlaid, hscan⟩ := ih hws hne hpart heq
    refine ⟨'#' :: (body ++ source), post, next, by simp, .comment hbody ?_ hlaid, hscan⟩
    exact fun c hc => hend c (List.mem_head?_append_of_mem_head? hc)
  | @token t own rest next tokens hown _ hscan _ ih =>
    intro ws part hws hne hpart heq
    obtain ⟨w, ws, rfl⟩ := List.exists_cons_of_ne_nil hne
    obtain ⟨_, part, rfl, hlexeme, hrest⟩ := List.map_eq_cons_iff.1 hpart
    cases heq
    obtain ⟨hw, hws⟩ := List.forall_mem_cons.1 hws
    have hspelled := hown (hlexeme ▸ hw.1)
    rw [hlexeme] at hspelled
    cases ws with
    | nil =>
      cases List.map_eq_nil_iff.1 hrest
      have hlast : w.lexeme.Spelled own [] := hspelled.of_append hw.1
      exact ⟨own, rest, next, rfl, by simpa using Laid.word hlast .nil, hscan⟩
    | cons w' ws =>
      obtain ⟨source, post, next', rfl, hlaid, hpost⟩ :=
        ih hws (List.cons_ne_nil _ _) hrest rfl
      exact ⟨own ++ source, post, next', by simp, .word (hspelled.of_append hw.1) hlaid, hpost⟩

end

end Scans

end GraphQL.Syntax
