import GraphQL.Proofs.Execution.Runs

/-!
Executions come to their end.

A call in the line is one that has asked and that its strategies let run, so the first of the line
can always go on (`Run.Orderly`). Where nothing can happen any more the line is therefore empty, and
an execution that is not done would still have a part that can go on (`Task.Sound.exists_ready`).
-/

set_option autoImplicit false

namespace GraphQL.Execution

/-- Lets a sibling run unless all are done. -/
def Order.IsLive : Order → Prop
  | window limit => 0 < limit
  | _ => True

def Stage.HasAsked : Stage → Prop
  | fresh => False
  | _ => True

/-- Runs all siblings, and hands back all of their completions in order. -/
structure Strategy.Faithful (s : Strategy) : Prop where
  isLive : s.order.IsLive
  keep_eq : ∀ cs, s.keep cs = cs

namespace Strategy

theorem faithful_serial : serial.Faithful := ⟨trivial, fun _ => rfl⟩

theorem faithful_concurrent (limit : Nat) : (concurrent limit).Faithful :=
  ⟨Nat.lt_of_lt_of_le Nat.zero_lt_one (Nat.le_max_right limit 1), fun _ => rfl⟩

end Strategy

namespace Task

/-- Nothing has been asked for; the calls are of resolvers with a property. -/
inductive Fresh (P : Resolver → Prop) : Task → Prop where
  | done (c : Completion) : Fresh P (.done c)
  | emit (e : Event) {next : Task} : Fresh P next → Fresh P (.emit e next)
  | read {next : Context → Task} : (∀ c, Fresh P (next c)) → Fresh P (.read next)
  | call {k : Call} {next : Reply → Task} : P k.resolver → (∀ r, Fresh P (next r)) →
      Fresh P (.call k .fresh next)
  | fork {s : Strategy} {children : List Task} {next : List Completion → Task} :
      s.order.IsLive → (∀ t ∈ children, Fresh P t) → (∀ cs, Fresh P (next cs)) →
      Fresh P (.fork s children next)

/-- A path leads to a call that has asked for a permit. -/
def Asked : List Nat → Task → Prop
  | [], .call _ stage _ => stage.HasAsked
  | i :: path, .fork _ children _ => ∃ t, children[i]? = some t ∧ Asked path t
  | _, _ => False

/-- What has asked is what the strategies let run, and nothing that is still to come has asked. -/
inductive Sound (P : Resolver → Prop) : Task → Prop where
  | done (c : Completion) : Sound P (.done c)
  | emit (e : Event) {next : Task} : Fresh P next → Sound P (.emit e next)
  | read {next : Context → Task} : (∀ c, Fresh P (next c)) → Sound P (.read next)
  | call {k : Call} (stage : Stage) {next : Reply → Task} : P k.resolver →
      (∀ r, Fresh P (next r)) → Sound P (.call k stage next)
  | fork {s : Strategy} {children : List Task} {next : List Completion → Task} :
      s.order.IsLive → (∀ t ∈ children, Sound P t) →
      (∀ i t path, children[i]? = some t → Asked path t → s.order.allows children i = true) →
      (∀ cs, Fresh P (next cs)) → Sound P (.fork s children next)

variable {P : Resolver → Prop}

theorem Fresh.not_asked {t : Task} (h : Fresh P t) : ∀ path, ¬ Asked path t := by
  induction h with
  | done _ => intro path; cases path <;> simp [Asked]
  | emit _ _ _ => intro path; cases path <;> simp [Asked]
  | read _ _ => intro path; cases path <;> simp [Asked]
  | call _ _ _ => intro path; cases path <;> simp [Asked, Stage.HasAsked]
  | fork _ _ _ ih _ =>
    intro path
    cases path with
    | nil => simp [Asked]
    | cons i path =>
      rintro ⟨t, ht, ha⟩
      exact ih t (List.mem_of_getElem? ht) path ha

theorem Fresh.sound {t : Task} (h : Fresh P t) : Sound P t := by
  induction h with
  | done c => exact .done c
  | emit e hn _ => exact .emit e hn
  | read hn _ => exact .read hn
  | call hk hn _ => exact .call _ hk hn
  | fork hl hc hn ih _ =>
    exact .fork hl ih
      (fun i t path ht ha => absurd ha ((hc t (List.mem_of_getElem? ht)).not_asked path)) hn

theorem Fresh.bind {f : Completion → Task} (hf : ∀ c, Fresh P (f c)) {t : Task} (h : Fresh P t) :
    Fresh P (t.bind f) := by
  induction h with
  | done c => exact hf c
  | emit e _ ih => exact .emit e ih
  | read _ ih => exact .read ih
  | call hk _ ih => exact .call hk ih
  | fork hl hc _ _ ih => exact .fork hl hc ih

end Task

theorem length_takeWhile_modify {f : Task → Task} :
    ∀ {ts : List Task} {i : Nat}, (∀ t, ts[i]? = some t → t.isDone = false) →
      (ts.takeWhile Task.isDone).length ≤ ((ts.modify i f).takeWhile Task.isDone).length
  | [], i, _ => by simp
  | t :: ts, 0, h => by
    have ht : t.isDone = false := h t rfl
    simp [List.takeWhile_cons, ht]
  | t :: ts, i + 1, h => by
    have ih := @length_takeWhile_modify f ts i fun t ht => h t (by simpa using ht)
    cases ht : t.isDone <;> simp [ht, ih]

theorem Order.allows_modify {o : Order} {children : List Task} {i : Nat} {f : Task → Task}
    (h : ∀ t, children[i]? = some t → t.isDone = false) {j : Nat}
    (ha : o.allows children j = true) : o.allows (children.modify i f) j = true := by
  have hkeep : ∀ (k : Nat) (t : Task), (children.modify i f)[k]? = some t →
      (∀ u, children[k]? = some u → u.isDone = true) → t.isDone = true := by
    intro k t ht hd
    rw [List.getElem?_modify] at ht
    obtain ⟨u, hu, hut⟩ := Option.map_eq_some_iff.1 ht
    split at hut
    · next hik =>
      subst hik
      exact absurd (hd u hu) (by simp [h u hu])
    · next hik => exact hut ▸ hd u hu
  cases o with
  | forward =>
    simp only [allows, List.all_eq_true] at ha ⊢
    intro t ht
    obtain ⟨k, hk⟩ := List.mem_iff_getElem?.1 ht
    rw [List.getElem?_take] at hk
    split at hk
    · next hkj =>
      refine hkeep k t hk fun u hu => ha u (List.mem_iff_getElem?.2 ⟨k, ?_⟩)
      rw [List.getElem?_take, if_pos hkj, hu]
    · cases hk
  | backward =>
    simp only [allows, List.all_eq_true] at ha ⊢
    intro t ht
    obtain ⟨k, hk⟩ := List.mem_iff_getElem?.1 ht
    rw [List.getElem?_drop] at hk
    refine hkeep _ t hk fun u hu => ha u (List.mem_iff_getElem?.2 ⟨k, ?_⟩)
    rw [List.getElem?_drop, hu]
  | window limit =>
    simp only [allows, decide_eq_true_eq] at ha ⊢
    have := length_takeWhile_modify (f := f) h
    omega

theorem Order.exists_allowed {o : Order} (ho : o.IsLive) {children : List Task}
    (h : children.all Task.isDone = false) :
    ∃ i t, children[i]? = some t ∧ t.isDone = false ∧ o.allows children i = true := by
  have hfirst : ∀ ts : List Task, ts.all Task.isDone = false →
      ∃ before t after, ts = before ++ t :: after ∧ before.all Task.isDone = true ∧
        t.isDone = false := by
    intro ts hts
    induction ts with
    | nil => simp at hts
    | cons t ts ih =>
      cases ht : t.isDone with
      | false => exact ⟨[], t, ts, rfl, rfl, ht⟩
      | true =>
        obtain ⟨before, u, after, rfl, hb, hu⟩ := ih (by simpa [ht] using hts)
        exact ⟨t :: before, u, after, rfl, by simp [ht, hb], hu⟩
  cases o with
  | forward =>
    obtain ⟨before, t, after, rfl, hb, ht⟩ := hfirst children h
    exact ⟨before.length, t, by simp, ht, by simpa [allows] using hb⟩
  | backward =>
    obtain ⟨after, t, before, hr, hb, ht⟩ := hfirst children.reverse (by simpa using h)
    obtain rfl : children = before.reverse ++ t :: after.reverse := by
      rw [← List.reverse_reverse children, hr]; simp
    refine ⟨before.reverse.length, t, by simp, ht, ?_⟩
    rw [allows, List.drop_length_add_append]
    simpa using hb
  | window limit =>
    obtain ⟨before, t, after, rfl, hb, ht⟩ := hfirst children h
    have hw : ((before ++ t :: after).takeWhile Task.isDone).length = before.length := by
      rw [List.takeWhile_append_of_pos (by simpa using hb)]
      simp [ht]
    refine ⟨before.length, t, by simp, ht, ?_⟩
    simp only [allows, hw, decide_eq_true_eq]
    exact Nat.lt_add_of_pos_right ho

namespace Task

variable {P : Resolver → Prop}

theorem exists_of_reach?_cons {i : Nat} {path : List Nat} {whole t : Task}
    (h : reach? (i :: path) whole = some t) :
    ∃ s children next child, whole = .fork s children next ∧ s.order.allows children i = true ∧
      children[i]? = some child ∧ reach? path child = some t := by
  cases whole <;> simp only [reach?, reduceCtorEq] at h
  · next s children next =>
    split at h
    · next ha =>
      obtain ⟨child, hi, hc⟩ := Option.bind_eq_some_iff.1 h
      exact ⟨s, children, next, child, rfl, ha, hi, hc⟩
    · cases h

/-- What passes from forks to their parts passes to all that is reached. -/
theorem of_reach?_of_parts {C : Task → Prop}
    (hparts : ∀ {s children next}, C (.fork s children next) → ∀ t ∈ children, C t) :
    ∀ {path : List Nat} {whole t : Task}, C whole → reach? path whole = some t → C t
  | [], whole, t, hw, hr => by
    obtain rfl : whole = t := by simpa [reach?] using hr
    exact hw
  | i :: path, whole, t, hw, hr => by
    obtain ⟨s, children, next, child, rfl, -, hi, hc⟩ := exists_of_reach?_cons hr
    exact of_reach?_of_parts hparts (hparts hw child (List.mem_of_getElem? hi)) hc

theorem forall_getElem?_modify {Q : Nat → Task → Prop} {ts : List Task} {i : Nat} {t : Task}
    {f : Task → Task} (hi : ts[i]? = some t) (hts : ∀ j u, ts[j]? = some u → i ≠ j → Q j u)
    (hf : Q i (f t)) : ∀ j u, (ts.modify i f)[j]? = some u → Q j u := by
  intro j u hj
  rw [List.getElem?_modify] at hj
  obtain ⟨v, hv, rfl⟩ := Option.map_eq_some_iff.1 hj
  split
  · next hij =>
    subst hij
    obtain rfl : t = v := Option.some.inj (hi.symm.trans hv)
    exact hf
  · next hij => exact hts j v hv hij

theorem forall_mem_modify {Q : Task → Prop} {ts : List Task} {i : Nat} {t : Task}
    {f : Task → Task} (hi : ts[i]? = some t) (hts : ∀ u ∈ ts, Q u) (hf : Q (f t)) :
    ∀ u ∈ ts.modify i f, Q u := by
  intro u hu
  obtain ⟨j, hj⟩ := List.mem_iff_getElem?.1 hu
  exact forall_getElem?_modify (Q := fun _ => Q) hi
    (fun _ v hv _ => hts v (List.mem_of_getElem? hv)) hf j u hj

theorem isDone_eq_false_of_reach? {path : List Nat} {whole t : Task}
    (h : reach? path whole = some t) (ht : t.isDone = false) : whole.isDone = false := by
  cases path with
  | nil =>
    obtain rfl : whole = t := by simpa [reach?] using h
    exact ht
  | cons i path =>
    obtain ⟨s, children, next, child, rfl, -, -, -⟩ := exists_of_reach?_cons h
    rfl

theorem Sound.of_reach? {path : List Nat} {whole t : Task} (hw : Sound P whole)
    (hr : reach? path whole = some t) : Sound P t :=
  of_reach?_of_parts (fun h => by cases h with | fork _ hs _ _ => exact hs) hw hr

theorem Sound.replace {t u : Task} (ht : t.isDone = false) (hu : Sound P t → Sound P u) :
    ∀ {path : List Nat} {whole : Task}, reach? path whole = some t → Sound P whole →
      Sound P (Task.replace u path whole)
  | [], whole, hr, hw => by
    obtain rfl : whole = t := by simpa [reach?] using hr
    exact hu hw
  | i :: path, whole, hr, hw => by
    obtain ⟨s, children, next, child, rfl, hai, hi, hc⟩ := exists_of_reach?_cons hr
    cases hw with
    | fork hl hs ha hn =>
      have hopen : ∀ t, children[i]? = some t → t.isDone = false := by
        intro t' ht'
        obtain rfl : child = t' := Option.some.inj (hi.symm.trans ht')
        exact isDone_eq_false_of_reach? hc ht
      refine .fork hl (forall_mem_modify hi hs ?_) ?_ hn
      · exact Sound.replace ht hu hc (hs child (List.mem_of_getElem? hi))
      · intro j t' path' hj hasked
        refine Order.allows_modify hopen ?_
        by_cases hij : i = j
        · exact hij ▸ hai
        · have hj' : children[j]? = some t' := by simpa [hij] using hj
          exact ha j t' path' hj' hasked

theorem asked_replace_iff {t u : Task} (ht : ∀ path, Asked path t → path = [])
    (hu : ∀ path, Asked path u → path = []) :
    ∀ {path : List Nat} {whole : Task}, reach? path whole = some t → ∀ path',
      Asked path' (Task.replace u path whole) ↔
        path' = path ∧ Asked [] u ∨ path' ≠ path ∧ Asked path' whole
  | [], whole, hr, path' => by
    obtain rfl : whole = t := by simpa [reach?] using hr
    cases path' with
    | nil => simp [Task.replace]
    | cons j path' =>
      have h₁ : ¬ Asked (j :: path') whole := fun h => by simpa using ht _ h
      have h₂ : ¬ Asked (j :: path') u := fun h => by simpa using hu _ h
      simp [Task.replace, h₁, h₂]
  | i :: path, whole, hr, path' => by
    obtain ⟨s, children, next, child, rfl, -, hi, hc⟩ := exists_of_reach?_cons hr
    cases path' with
    | nil => simp [Task.replace, Asked]
    | cons j path' =>
      simp only [Task.replace, Asked, List.getElem?_modify, List.cons.injEq]
      by_cases hij : i = j
      · subst hij
        have ih := asked_replace_iff ht hu hc path'
        simp [hi, ih]
      · simp [hij, Ne.symm hij]

theorem asked_iff_of_reach? : ∀ {path : List Nat} {whole t : Task}, reach? path whole = some t →
    (Asked path whole ↔ Asked [] t)
  | [], whole, t, hr => by
    obtain rfl : whole = t := by simpa [reach?] using hr
    rfl
  | i :: path, whole, t, hr => by
    obtain ⟨s, children, next, child, rfl, -, hi, hc⟩ := exists_of_reach?_cons hr
    simp [Asked, hi, asked_iff_of_reach? hc]

theorem Sound.exists_call {whole : Task} (h : Sound P whole) :
    ∀ {path : List Nat}, Asked path whole →
      ∃ k stage next, reach? path whole = some (.call k stage next) := by
  induction h with
  | done c => intro path ha; cases path <;> exact ha.elim
  | emit e _ => intro path ha; cases path <;> exact ha.elim
  | read _ => intro path ha; cases path <;> exact ha.elim
  | @call k stage next _ _ =>
    intro path ha
    cases path with
    | nil => exact ⟨k, stage, next, rfl⟩
    | cons => exact ha.elim
  | fork hl hs ha hn ih =>
    intro path hasked
    cases path with
    | nil => exact hasked.elim
    | cons i path =>
      obtain ⟨t, ht, hasked⟩ := hasked
      obtain ⟨k, stage, next, hk⟩ := ih t (List.mem_of_getElem? ht) hasked
      exact ⟨k, stage, next, by simp [reach?, ha i t path ht hasked, ht, hk]⟩

/-- Can go on, unless it is a call that waits for its permit. -/
def Ready : Task → Prop
  | .done _ => False
  | .fork _ children _ => children.all isDone = true
  | _ => True

theorem Sound.exists_ready {t : Task} (h : Sound P t) (hd : t.isDone = false) :
    ∃ path leaf, reach? path t = some leaf ∧ leaf.Ready := by
  induction h with
  | done c => simp [isDone, completion?] at hd
  | emit e _ => exact ⟨[], _, rfl, trivial⟩
  | read _ => exact ⟨[], _, rfl, trivial⟩
  | call stage _ _ => exact ⟨[], _, rfl, trivial⟩
  | @fork s children next hl hs _ _ ih =>
    cases hall : children.all isDone with
    | true => exact ⟨[], _, rfl, hall⟩
    | false =>
      obtain ⟨i, t, ht, htd, hallow⟩ := Order.exists_allowed hl hall
      obtain ⟨path, leaf, hr, hl⟩ := ih t (List.mem_of_getElem? ht) htd
      exact ⟨i :: path, leaf, by simp [reach?, hallow, ht, hr], hl⟩

theorem exists_eq_done {t : Task} (h : t.isDone = true) : ∃ c, t = .done c := by
  cases t with
  | done c => exact ⟨c, rfl⟩
  | _ => simp [isDone, completion?] at h

theorem exists_completions? {ts : List Task} (h : ts.all isDone = true) :
    ∃ cs, completions? ts = some cs := by
  induction ts with
  | nil => exact ⟨[], rfl⟩
  | cons t ts ih =>
    rw [List.all_cons, Bool.and_eq_true] at h
    obtain ⟨c, rfl⟩ := exists_eq_done h.1
    obtain ⟨cs, hcs⟩ := ih h.2
    rw [completions?] at hcs
    exact ⟨c :: cs, by simp [completions?, completion?, hcs]⟩

theorem mem_pathsFrom {ts : List Task} {i : Nat} {t : Task} {path : List Nat}
    (ht : ts[i]? = some t) (hp : path ∈ t.paths) : ∀ k, (k + i) :: path ∈ pathsFrom k ts := by
  induction ts generalizing i with
  | nil => simp at ht
  | cons u ts ih =>
    intro k
    cases i with
    | zero =>
      obtain rfl : u = t := by simpa using ht
      exact List.mem_append_left _ (List.mem_map_of_mem hp)
    | succ i =>
      have := ih (by simpa using ht) (k + 1)
      rw [Nat.add_right_comm] at this
      exact List.mem_append_right _ this

theorem mem_paths : ∀ {path : List Nat} {whole t : Task}, reach? path whole = some t →
    path ∈ whole.paths
  | [], whole, t, _ => by cases whole <;> simp [paths]
  | i :: path, whole, t, hr => by
    obtain ⟨s, children, next, child, rfl, -, hi, hc⟩ := exists_of_reach?_cons hr
    have := mem_pathsFrom hi (mem_paths hc) 0
    rw [Nat.zero_add] at this
    exact List.mem_cons_of_mem _ this

end Task

/-- How something changes that is to hold just of what is in the line. -/
def LineChange.Turns (before after : Prop) : LineChange → Prop
  | stays => after ↔ before
  | joins => ¬ before ∧ after
  | leaves => before ∧ ¬ after

namespace State.Move

variable {st : State} {number : Nat} {run : Run} {p : Position} {t u : Task} {es : List Event}
  {change : LineChange} {contexts : ContextStore} {P : Resolver → Prop}

theorem isDone_eq_false (h : Move st number run p t u es change contexts) : t.isDone = false := by
  cases h <;> rfl

theorem sound (h : Move st number run p t u es change contexts) (ht : t.Sound P) : u.Sound P := by
  cases h with
  | emit e => cases ht with | emit _ hn => exact hn.sound
  | read => cases ht with | read hn => exact (hn _).sound
  | join s next _ => cases ht with | fork _ _ _ hn => exact (hn _).sound
  | ask k next => cases ht with | call _ hk hn => exact .call _ hk hn
  | refuse k next _ => cases ht with | call _ _ hn => exact (hn _).sound
  | grant k next _ => cases ht with | call _ hk hn => exact .call _ hk hn
  | begin k next _ => cases ht with | call _ hk hn => exact .call _ hk hn
  | beginAnswer k next => cases ht with | call _ hk hn => exact .call _ hk hn
  | pause k next _ => cases ht with | call _ hk hn => exact .call _ hk hn
  | answer k next => cases ht with | call _ hk hn => exact .call _ hk hn
  | reply k next r => cases ht with | call _ _ hn => exact (hn _).sound

/-- Nothing but the whole of what a step changes has asked. -/
theorem asked_only (h : Move st number run p t u es change contexts) (ht : t.Sound P) :
    (∀ path, t.Asked path → path = []) ∧ ∀ path, u.Asked path → path = [] := by
  have hfresh : ∀ {v : Task}, v.Fresh P → ∀ path, v.Asked path → path = [] :=
    fun hv path ha => absurd ha (hv.not_asked path)
  have hcall : ∀ {k stage next} path, (Task.call k stage next).Asked path → path = [] := by
    intro k stage next path ha
    cases path with
    | nil => rfl
    | cons => exact ha.elim
  cases h with
  | emit e =>
    cases ht with
    | emit _ hn => exact ⟨hfresh (.emit e hn), hfresh hn⟩
  | read =>
    cases ht with
    | read hn => exact ⟨hfresh (.read hn), hfresh (hn _)⟩
  | @join s children next cs hc =>
    cases ht with
    | fork hl _ _ hn =>
      obtain rfl := Task.eq_done_of_completions? hc
      refine ⟨hfresh (.fork hl ?_ hn), hfresh (hn _)⟩
      intro t ht
      obtain ⟨c, -, rfl⟩ := List.mem_map.1 ht
      exact .done c
  | refuse k next _ => cases ht with | call _ _ hn => exact ⟨hcall, hfresh (hn _)⟩
  | reply k next r => cases ht with | call _ _ hn => exact ⟨hcall, hfresh (hn _)⟩
  | ask | grant | begin | beginAnswer | pause | answer => exact ⟨hcall, hcall⟩

theorem turns (h : Move st number run p t u es change contexts) (ht : t.Sound P) :
    change.Turns (t.Asked []) (u.Asked []) := by
  cases h with
  | emit e => cases ht with | emit _ hn => simp [LineChange.Turns, hn.not_asked, Task.Asked]
  | read => cases ht with | read hn => simp [LineChange.Turns, (hn _).not_asked, Task.Asked]
  | join s next _ =>
    cases ht with | fork _ _ _ hn => simp [LineChange.Turns, (hn _).not_asked, Task.Asked]
  | refuse k next _ =>
    cases ht with
    | call _ _ hn => simp [LineChange.Turns, (hn _).not_asked, Task.Asked, Stage.HasAsked]
  | reply k next r =>
    cases ht with
    | call _ _ hn => simp [LineChange.Turns, (hn _).not_asked, Task.Asked, Stage.HasAsked]
  | ask | grant | begin | beginAnswer | pause | answer =>
    simp [LineChange.Turns, Task.Asked, Stage.HasAsked]

end State.Move

/-- The line holds what has asked, each once. -/
structure Run.Orderly (P : Resolver → Prop) (number : Nat) (run : Run) : Prop where
  sound : run.task.Sound P
  permits_pos : 0 < run.permits
  nodup : run.line.Nodup
  own : ∀ p ∈ run.line, ∃ path : List Nat, p = (number :: path).reverse
  mem_line_iff : ∀ path : List Nat, (number :: path).reverse ∈ run.line ↔ run.task.Asked path

namespace Run.Orderly

variable {P : Resolver → Prop} {number : Nat} {run : Run}

theorem start {task : Task} (h : task.Fresh P) (debug : Bool) (context : ContextRef)
    (permits : Nat) : Orderly P number (.start task debug context permits) where
  sound := h.sound
  permits_pos := Nat.lt_of_lt_of_le Nat.one_pos (Nat.le_max_right _ _)
  nodup := .nil
  own := by simp [Run.start]
  mem_line_iff path := by simp [Run.start, h.not_asked path]

theorem after {st : State} {path : List Nat} {t u : Task} {es : List Event} {change : LineChange}
    {contexts : ContextStore} (h : Orderly P number run) (hr : run.task.reach? path = some t)
    (hm : State.Move st number run (number :: path).reverse t u es change contexts) :
    Orderly P number { run with
      task := Task.replace u path run.task
      line := change.apply (number :: path).reverse run.line } := by
  have ht : t.Sound P := Task.Sound.of_reach? h.sound hr
  have hasked := Task.asked_replace_iff (hm.asked_only ht).1 (hm.asked_only ht).2 hr
  have hself := Task.asked_iff_of_reach? hr
  have hinj : ∀ path' : List Nat,
      (number :: path').reverse = (number :: path).reverse ↔ path' = path := by simp
  have hturns := hm.turns ht
  refine ⟨h.sound.replace hm.isDone_eq_false hm.sound hr, h.permits_pos, ?_, ?_, ?_⟩
  · cases change with
    | stays => exact h.nodup
    | joins =>
      refine List.nodup_append.2 ⟨h.nodup, by simp, fun p hp q hq => ?_⟩
      rintro rfl
      obtain rfl := List.mem_singleton.1 hq
      exact hturns.1 (hself.1 ((h.mem_line_iff path).1 hp))
    | leaves => exact h.nodup.erase _
  · intro p hp
    cases change with
    | stays => exact h.own p hp
    | joins =>
      rcases List.mem_append.1 hp with hp | hp
      · exact h.own p hp
      · exact ⟨path, List.mem_singleton.1 hp⟩
    | leaves => exact h.own p (List.mem_of_mem_erase hp)
  · intro path'
    rw [hasked]
    cases change with
    | stays =>
      rw [LineChange.apply, h.mem_line_iff, show u.Asked [] ↔ t.Asked [] from hturns, ← hself]
      by_cases hp : path' = path <;> simp [hp]
    | joins =>
      rw [LineChange.apply, List.mem_append, h.mem_line_iff, List.mem_singleton, hinj]
      by_cases hp : path' = path <;> simp [hp, hturns.2]
    | leaves =>
      rw [LineChange.apply, h.nodup.mem_erase_iff, h.mem_line_iff, ne_eq, hinj]
      by_cases hp : path' = path <;> simp [hp, hturns.2]

theorem of_reaches {st last : State} (h : State.Reaches st last) (hr : st.runs[number]? = some run)
    (ho : Orderly P number run) :
    ∃ run', last.runs[number]? = some run' ∧ Orderly P number run' := by
  induction h generalizing run with
  | refl st => exact ⟨run, hr, ho⟩
  | @head st st' last p ha _ ih =>
    rcases State.run_cases_of_advance ha hr with
      ⟨path, t, u, es, change, contexts, rfl, ht, hm, -, hruns, -⟩ | ⟨hruns, -⟩
    · exact ih hruns (ho.after ht hm)
    · exact ih hruns ho
  | wait _ _ ih => exact ih hr ho

end Run.Orderly

namespace State

variable {P : Resolver → Prop} {st : State} {number : Nat} {run : Run}

theorem mem_positions {path : List Nat} (hr : st.runs[number]? = some run)
    (hp : path ∈ run.task.paths) : (number :: path).reverse ∈ st.positions := by
  refine List.mem_flatten.2 ⟨_, ?_, List.mem_map_of_mem (f := fun path =>
    (number :: path).reverse) hp⟩
  refine List.mem_iff_getElem?.2 ⟨number, ?_⟩
  rw [List.getElem?_mapIdx, hr]
  rfl

theorem advance_ne_none {path : List Nat} {leaf : Task} (hr : st.runs[number]? = some run)
    (hreach : run.task.reach? path = some leaf) (hleaf : leaf.Ready)
    (hq : ∀ k next, leaf = .call k .queued next → run.admits (number :: path).reverse = true) :
    st.advance (number :: path).reverse ≠ none := by
  unfold advance
  simp only [List.reverse_reverse, hr, hreach, Option.bind_eq_bind, Option.bind_some]
  cases leaf with
  | done c => exact hleaf.elim
  | emit e next => simp
  | read next => simp
  | fork s children next =>
    obtain ⟨cs, hcs⟩ := Task.exists_completions? hleaf
    simp [hcs]
  | call k stage next =>
    cases stage with
    | queued =>
      simp only [hq k next rfl, if_true]
      cases st.refusal? number run <;> simp
    | _ => simp

/-- Where nothing can happen any more, an execution in order is done. -/
theorem isDone_of_stuck (hr : st.runs[number]? = some run) (ho : run.Orderly P number)
    (hstuck : ∀ p ∈ st.positions, st.advance p = none) : run.task.isDone = true := by
  by_contra hd
  rw [Bool.not_eq_true] at hd
  cases hline : run.line with
  | cons p line =>
    obtain ⟨path, rfl⟩ := ho.own p (by simp [hline])
    have hasked := (ho.mem_line_iff path).1 (by simp [hline])
    obtain ⟨k, stage, next, hk⟩ := ho.sound.exists_call hasked
    refine advance_ne_none hr hk trivial (fun _ _ _ => ?_)
      (hstuck _ (mem_positions hr (Task.mem_paths hk)))
    obtain ⟨n, hn⟩ := Nat.exists_eq_add_of_le' ho.permits_pos
    simp [Run.admits, hline, hn]
  | nil =>
    obtain ⟨path, leaf, hreach, hready⟩ := ho.sound.exists_ready hd
    refine advance_ne_none hr hreach hready ?_
      (hstuck _ (mem_positions hr (Task.mem_paths hreach)))
    rintro k next rfl
    have hasked : run.task.Asked path := (Task.asked_iff_of_reach? hreach).2 trivial
    have := (ho.mem_line_iff path).2 hasked
    simp [hline] at this

variable {Memory : Type}

/-- Whatever a schedule chooses, an execution that begins with a fresh task ends. -/
theorem exists_completion_run (schedule : Schedule Memory) (memory : Memory)
    (hr : st.runs[number]? = some run) (ho : run.Orderly P number) :
    ∃ run' c, (st.run schedule memory).runs[number]? = some run' ∧ run'.task = .done c := by
  obtain ⟨run', hr', ho'⟩ := ho.of_reaches (reaches_run schedule memory st) hr
  have hd := isDone_of_stuck hr' ho' (advance_run schedule memory st)
  obtain ⟨c, hc⟩ := Task.exists_eq_done hd
  exact ⟨run', c, hr', hc⟩

end State

end GraphQL.Execution
