import GraphQL.Proofs.Execution.Runs

/-!
Tasks whose parts are done one after the other.

Where a strategy lets no sibling begin before the ones in front of it have ended, a fork is as good
as its children in a row (`Task.inOrder`). That still accounts for all that can happen
(`Task.account_inOrder`), and the events of the children follow each other (`Ends.of_serial`).
-/

set_option autoImplicit false

namespace GraphQL.Execution

namespace Task

theorem bind_bind (f g : Completion → Task) (t : Task) :
    (t.bind f).bind g = t.bind fun c => (f c).bind g := by
  fun_induction bind f t with
  | case1 c => rfl
  | case2 e next ih => exact congrArg (emit e) ih
  | case3 next ih => exact congrArg read (funext ih)
  | case4 k stage next ih => exact congrArg (call k stage) (funext ih)
  | case5 s children next ih => exact congrArg (fork s children) (funext ih)

/-- Tasks in a row, and then what is made of their completions. -/
def chain : List Task → (List Completion → Task) → Task
  | [], next => next []
  | t :: ts, next => t.bind fun c => chain ts fun cs => next (c :: cs)

theorem chain_bind (f : Completion → Task) : ∀ (ts : List Task) (next : List Completion → Task),
    (chain ts next).bind f = chain ts fun cs => (next cs).bind f
  | [], _ => rfl
  | t :: ts, next => by
    rw [chain, bind_bind]
    exact congrArg t.bind (funext fun c => chain_bind f ts _)

/-- Tasks that are done have no part in what is left of a row. -/
theorem chain_done (ts : List Task) : ∀ (cs : List Completion) (next : List Completion → Task),
    chain (cs.map done ++ ts) next = chain ts fun ds => next (cs ++ ds)
  | [], _ => rfl
  | c :: cs, next => chain_done ts cs fun ds => next (c :: ds)

mutual

/-- The task with the children of a fork in a row, if they are done from the first to the last. -/
def inOrder : Task → Task
  | done c => done c
  | emit e next => emit e (inOrder next)
  | read next => read fun context => inOrder (next context)
  | call k stage next => call k stage fun r => inOrder (next r)
  | fork s children next =>
    if s.order = .forward then chain (inOrderAll children) fun cs => inOrder (next (s.keep cs))
    else fork s (inOrderAll children) fun cs => inOrder (next cs)

def inOrderAll : List Task → List Task
  | [] => []
  | t :: ts => inOrder t :: inOrderAll ts

end

theorem inOrderAll_eq_map (ts : List Task) : inOrderAll ts = ts.map inOrder := by
  induction ts with
  | nil => rfl
  | cons t ts ih => rw [inOrderAll, ih, List.map_cons]

theorem inOrderAll_done (ts : List Task) : ∀ cs : List Completion,
    inOrderAll (cs.map done ++ ts) = cs.map done ++ inOrderAll ts
  | [] => rfl
  | c :: cs => by
    rw [List.map_cons, List.cons_append, inOrderAll, inOrderAll_done ts cs, inOrder]
    rfl

theorem inOrderAll_modify {ts : List Task} {i : Nat} {t : Task} (hi : ts[i]? = some t)
    (f : Task → Task) :
    inOrderAll (ts.modify i f) = (inOrderAll ts).modify i fun _ => inOrder (f t) := by
  rw [inOrderAll_eq_map, inOrderAll_eq_map]
  refine List.ext_getElem? fun j => ?_
  rw [List.getElem?_map, List.getElem?_modify, List.getElem?_modify, List.getElem?_map]
  by_cases hij : i = j
  · subst hij
    simp [hi]
  · simp [hij]

theorem inOrder_serial (children : List Task) (next : List Completion → Task) :
    (fork .serial children next).inOrder =
      chain (children.map inOrder) fun cs => inOrder (next cs) := by
  rw [← inOrderAll_eq_map, inOrder]
  exact if_pos rfl

theorem inOrder_bind (f : Completion → Task) (t : Task) :
    (t.bind f).inOrder = t.inOrder.bind fun c => (f c).inOrder := by
  fun_induction bind f t with
  | case1 c => rw [inOrder, bind]
  | case2 e next ih => rw [inOrder, inOrder, bind, ih]
  | case3 next ih =>
    rw [inOrder, inOrder, bind]
    exact congrArg read (funext ih)
  | case4 k stage next ih =>
    rw [inOrder, inOrder, bind]
    exact congrArg (call k stage) (funext ih)
  | case5 s children next ih =>
    rw [inOrder, inOrder]
    split
    · rw [chain_bind]
      exact congrArg (chain _) (funext fun cs => ih (s.keep cs))
    · rw [bind]
      exact congrArg (fork s _) (funext ih)

theorem inOrder_emitAll (events : List Event) (next : Task) :
    (emitAll events next).inOrder = emitAll events next.inOrder := by
  induction events with
  | nil => rfl
  | cons e events ih =>
    change (emit e (emitAll events next)).inOrder = emit e (emitAll events next.inOrder)
    rw [inOrder, ih]

theorem exists_map_done {ts : List Task} (h : ts.all isDone = true) :
    ∃ cs : List Completion, ts = cs.map done := by
  induction ts with
  | nil => exact ⟨[], rfl⟩
  | cons t ts ih =>
    rw [List.all_cons, Bool.and_eq_true] at h
    obtain ⟨cs, rfl⟩ := ih h.2
    cases t with
    | done c => exact ⟨c :: cs, rfl⟩
    | _ => cases h.1

end Task

namespace Ends

variable {w : World} {c : Completion} {es : List Event}

theorem bind {f : Completion → Task} {t : Task} {d : Completion} {front : List Event}
    (h : Ends w t d front) (hf : Ends w (f d) c es) : Ends w (t.bind f) c (front ++ es) := by
  induction h with
  | done => exact hf
  | emit e _ ih => exact .emit e (ih hf)
  | read hs _ ih => exact .read hs (ih hf)
  | refused ho hr _ ih => exact .refused ho hr (ih hf)
  | called ho ha hr _ ih => exact .called ho ha hr (ih hf)
  | admitted hr _ ih => exact .admitted hr (ih hf)
  | working hr _ ih => exact .working hr (ih hf)
  | answered _ ih => exact .answered (ih hf)
  | fork hl hc hm _ _ ih =>
    rw [List.append_assoc]
    exact .fork hl hc hm (ih hf)

/-- Tasks in a row end one after the other. -/
theorem of_chain {ts : List Task} {next : List Completion → Task}
    (h : Ends w (Task.chain ts next) c es) :
    ∃ (outs : List (Completion × List Event)) (rest : List Event), ts.length = outs.length ∧
      (∀ (i : Nat) t d ds, ts[i]? = some t → outs[i]? = some (d, ds) → Ends w t d ds) ∧
      Ends w (next (outs.map Prod.fst)) c rest ∧ es = (outs.map Prod.snd).flatten ++ rest := by
  induction ts generalizing next es with
  | nil => exact ⟨[], es, rfl, by simp, h, rfl⟩
  | cons t ts ih =>
    obtain ⟨d, front, back, ht, hback, rfl⟩ := of_bind h
    obtain ⟨outs, rest, hl, ho, hn, rfl⟩ := ih hback
    refine ⟨(d, front) :: outs, rest, congrArg (· + 1) hl, ?_, hn, by simp⟩
    intro i u d' ds hi hd
    cases i with
    | zero =>
      cases hi
      cases hd
      exact ht
    | succ i => exact ho i u d' ds hi hd

/-- The children of a serial fork end one after the other. -/
theorem of_serial {children : List Task} {next : List Completion → Task}
    (h : Ends w (Task.fork .serial children next).inOrder c es) :
    ∃ (outs : List (Completion × List Event)) (rest : List Event),
      children.length = outs.length ∧
      (∀ (i : Nat) t d ds, children[i]? = some t → outs[i]? = some (d, ds) →
        Ends w t.inOrder d ds) ∧
      Ends w (next (outs.map Prod.fst)).inOrder c rest ∧
        es = (outs.map Prod.snd).flatten ++ rest := by
  rw [Task.inOrder_serial] at h
  obtain ⟨outs, rest, hl, ho, hn, rfl⟩ := of_chain h
  refine ⟨outs, rest, by simpa using hl, fun i t d ds hi hd => ?_, hn, rfl⟩
  exact ho i _ d ds (by rw [List.getElem?_map, hi, Option.map_some]) hd

end Ends

/-- The children that a forward order lets run are the first of those that are not done. -/
theorem Order.exists_done_of_allows {children : List Task} {i : Nat} {t : Task}
    (hi : children[i]? = some t) (h : Order.forward.allows children i = true) :
    ∃ (cs : List Completion) (after : List Task), children = cs.map .done ++ t :: after ∧
      ∀ f : Task → Task, children.modify i f = cs.map .done ++ f t :: after := by
  obtain ⟨cs, hcs⟩ := Task.exists_map_done h
  obtain ⟨hlt, rfl⟩ := List.getElem?_eq_some_iff.1 hi
  refine ⟨cs, children.drop (i + 1), ?_, fun f => ?_⟩
  · rw [← hcs]
    simp
  · rw [← hcs, List.modify_eq_take_cons_drop hlt]

/-- The task with its parts in a row accounts for all steps that can happen. -/
theorem Task.account_inOrder (w : World) : Account w Task.inOrder where
  done _ := by rw [inOrder]
  emit _ _ := by rw [inOrder]
  read _ := by rw [inOrder]
  call _ _ _ := by rw [inOrder]
  join := by
    intro s next cs c es h
    have hdone := inOrderAll_done [] cs
    rw [List.append_nil, inOrderAll, List.append_nil] at hdone
    rw [inOrder, hdone]
    split
    · have hchain := chain_done [] cs fun ds => inOrder (next (s.keep ds))
      rw [List.append_nil] at hchain
      rw [hchain, chain, List.append_nil]
      exact h
    · exact .join h
  child := by
    intro s children next i t f c es rest hi hallows hs h
    rw [inOrder] at h ⊢
    split at h
    · next hforward =>
      rw [hforward] at hallows
      obtain ⟨cs, after, rfl, hmodify⟩ := Order.exists_done_of_allows hi hallows
      rw [hmodify, inOrderAll_done, chain_done, inOrderAll, chain] at h
      rw [if_pos hforward, inOrderAll_done, chain_done, inOrderAll, chain]
      obtain ⟨d, front, back, ht, hback, rfl⟩ := Ends.of_bind h
      rw [← List.append_assoc]
      exact (hs ht).bind hback
    · next hforward =>
      rw [inOrderAll_modify hi] at h
      rw [if_neg hforward]
      have hchild : (inOrderAll children)[i]? = some (inOrder t) := by
        rw [inOrderAll_eq_map, List.getElem?_map, hi, Option.map_some]
      exact Ends.fork_modify hchild hs h

end GraphQL.Execution
