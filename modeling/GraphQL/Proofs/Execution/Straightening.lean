import GraphQL.Proofs.Execution.Agreement
import GraphQL.Proofs.Execution.InOrder
import GraphQL.Proofs.Execution.Parted

/-!
Executions put in order.

The same task with serial strategies (`Task.serially`) can come to whatever the task comes to, if
its parts keep to places of their own. Of the errors only those at different paths change places
(`Ends.exists_serially`).
-/

set_option autoImplicit false

namespace GraphQL.Execution

open Json

/-- What can be had for each two members in the same place can be had in a list. -/
theorem exists_list_of_getElem? {α β γ : Type} {R : α → β → γ → Prop} :
    ∀ {as : List α} {bs : List β}, as.length = bs.length →
      (∀ (i : Nat) a b, as[i]? = some a → bs[i]? = some b → ∃ c, R a b c) →
      ∃ cs : List γ, cs.length = bs.length ∧ ∀ (i : Nat) a b c, as[i]? = some a →
        bs[i]? = some b → cs[i]? = some c → R a b c
  | [], [], _, _ => ⟨[], rfl, by simp⟩
  | a :: as, b :: bs, hl, h => by
    obtain ⟨c, hc⟩ := h 0 a b rfl rfl
    obtain ⟨cs, hcs, hR⟩ := exists_list_of_getElem? (Nat.succ.inj hl) fun i a b hi hi' =>
      h (i + 1) a b hi hi'
    refine ⟨c :: cs, congrArg (· + 1) hcs, fun i a' b' c' hi hi' hc' => ?_⟩
    cases i with
    | zero =>
      cases hi
      cases hi'
      cases hc'
      exact hc
    | succ i => exact hR i a' b' c' hi hi' hc'

namespace Interleaving

variable {α : Type} {ls : List (List α)} {merged merged' : List α}

/-- If at most one list has members, there is one way only to interleave them. -/
theorem eq_of_apart (h : Interleaving ls merged) (h' : Interleaving ls merged')
    (hapart : ∀ (i j : Nat) a l b l', ls[i]? = some (a :: l) → ls[j]? = some (b :: l') → i = j) :
    merged = merged' := by
  by_cases hnil : ∀ l ∈ ls, l = []
  · have hflatten : ls.flatten = [] := List.flatten_eq_nil_iff.2 hnil
    have hperm := h.perm
    have hperm' := h'.perm
    rw [hflatten] at hperm hperm'
    rw [hperm.eq_nil, hperm'.eq_nil]
  · simp only [not_forall] at hnil
    obtain ⟨l, hl, hne⟩ := hnil
    obtain ⟨a, l, rfl⟩ := List.exists_cons_of_ne_nil hne
    obtain ⟨before, after, rfl⟩ := List.append_of_mem hl
    have hothers : ∀ (i : Nat) m, (before ++ (a :: l) :: after)[i]? = some m →
        i ≠ before.length → m = [] := by
      intro i m hi hib
      cases m with
      | nil => rfl
      | cons b m => exact absurd (hapart i before.length b m a l hi (by simp)) hib
    have hbefore : ∀ m ∈ before, m = [] := by
      intro m hm
      obtain ⟨i, hi⟩ := List.mem_iff_getElem?.1 hm
      obtain ⟨hlt, -⟩ := List.getElem?_eq_some_iff.1 hi
      exact hothers i m (by rw [List.getElem?_append_left hlt, hi]) (by omega)
    have hafter : ∀ m ∈ after, m = [] := by
      intro m hm
      obtain ⟨i, hi⟩ := List.mem_iff_getElem?.1 hm
      refine hothers (before.length + (i + 1)) m ?_ (by omega)
      rw [List.getElem?_append_right (by omega), Nat.add_sub_cancel_left,
        List.getElem?_cons_succ, hi]
    rw [h.eq_of_singleton hbefore hafter, h'.eq_of_singleton hbefore hafter]

end Interleaving

namespace Task

mutual

/-- The task with serial strategies. -/
def serially : Task → Task
  | done c => done c
  | emit e next => emit e (serially next)
  | read next => read fun context => serially (next context)
  | call k stage next => call k stage fun r => serially (next r)
  | fork _ children next => fork .serial (seriallyAll children) fun cs => serially (next cs)

def seriallyAll : List Task → List Task
  | [] => []
  | t :: ts => serially t :: seriallyAll ts

end

theorem seriallyAll_eq_map (ts : List Task) : seriallyAll ts = ts.map serially := by
  induction ts with
  | nil => rfl
  | cons t ts ih => rw [seriallyAll, ih, List.map_cons]

theorem serially_done (c : Completion) : (done c).serially = done c := by rw [serially]

theorem serially_fork (s : Strategy) (children : List Task) (next : List Completion → Task) :
    (fork s children next).serially =
      fork .serial (children.map serially) fun cs => serially (next cs) := by
  rw [serially, seriallyAll_eq_map]

theorem serially_bind (f : Completion → Task) (t : Task) :
    (t.bind f).serially = t.serially.bind fun c => (f c).serially := by
  fun_induction bind f t with
  | case1 c => rw [serially, bind]
  | case2 e next ih => rw [serially, serially, bind, ih]
  | case3 next ih =>
    rw [serially, serially, bind]
    exact congrArg read (funext ih)
  | case4 k stage next ih =>
    rw [serially, serially, bind]
    exact congrArg (call k stage) (funext ih)
  | case5 s children next ih =>
    rw [serially, serially, bind]
    exact congrArg (fork .serial _) (funext ih)

theorem serially_emitAll (events : List Event) (next : Task) :
    (emitAll events next).serially = emitAll events next.serially := by
  induction events with
  | nil => rfl
  | cons e events ih =>
    change (emit e (emitAll events next)).serially = emit e (emitAll events next.serially)
    rw [serially, ih]

/-- Whatever happens in some world is what a task may do at all. -/
theorem Safe.forall_of_ends {w : World} {Q : Event → Prop} {t : Task} {c : Completion}
    {es : List Event} (h : Ends w t c es) (ht : Safe .any Q t) : ∀ ev ∈ es, Q ev := by
  induction h with
  | done => simp
  | emit e _ ih => cases ht with | emit he hn => exact List.forall_mem_cons.2 ⟨he, ih hn⟩
  | read _ _ ih => cases ht with | read hn => exact ih (hn _ trivial)
  | @refused _ _ _ r _ _ ho hr _ ih =>
    cases ht with
    | call _ _ _ hrefused _ =>
      exact ih (hrefused r fun resolution h => w.not_refuses_resolved resolution (h ▸ hr))
    | answered => exact ho.elim
  | called ho _ _ _ ih =>
    cases ht with
    | call _ _ hk _ hanswer => exact List.forall_mem_cons.2 ⟨hk, ih (hanswer _ trivial)⟩
    | answered => exact ho.elim
  | admitted _ _ ih =>
    cases ht with
    | call _ _ hk _ hanswer => exact List.forall_mem_cons.2 ⟨hk, ih (hanswer _ trivial)⟩
  | working _ _ ih => cases ht with | call _ _ _ _ hanswer => exact ih (hanswer _ trivial)
  | answered _ ih =>
    cases ht with
    | call _ hs => exact absurd rfl (hs _)
    | answered _ hn => exact ih hn
  | @fork s children next outs c merged es hl _ hm _ ihc ih =>
    cases ht with
    | fork _ hs hn =>
      intro ev hev
      rcases List.mem_append.1 hev with hev | hev
      · obtain ⟨ds, hds, hev⟩ := hm.mem_iff.1 hev
        obtain ⟨⟨d, ds⟩, hout, rfl⟩ := List.mem_map.1 hds
        obtain ⟨i, hi⟩ := List.mem_iff_getElem?.1 hout
        obtain ⟨hlt, -⟩ := List.getElem?_eq_some_iff.1 hi
        have hchild : children[i]? = some children[i] := List.getElem?_eq_getElem (by omega)
        exact ihc i _ d ds hchild hi (hs _ (List.mem_of_getElem? hchild)) ev hev
      · exact ih (hn _) ev hev

end Task

namespace Ends

variable {w : World} {c : Completion} {es : List Event}

/-- Tasks in a row end as each of them may end. -/
theorem chain {ts : List Task} {next : List Completion → Task} {rest : List Event} :
    ∀ {outs : List (Completion × List Event)}, ts.length = outs.length →
      (∀ (i : Nat) t d ds, ts[i]? = some t → outs[i]? = some (d, ds) → Ends w t d ds) →
      Ends w (next (outs.map Prod.fst)) c rest →
      Ends w (Task.chain ts next) c ((outs.map Prod.snd).flatten ++ rest) := by
  induction ts generalizing next with
  | nil =>
    intro outs hl _ hn
    obtain rfl := List.length_eq_zero_iff.1 hl.symm
    exact hn
  | cons t ts ih =>
    intro outs hl ho hn
    cases outs with
    | nil => cases hl
    | cons out outs =>
      rw [List.map_cons, List.flatten_cons, List.append_assoc]
      refine (ho 0 t out.1 out.2 rfl rfl).bind (ih (Nat.succ.inj hl) (fun i u d ds hu hd => ?_) hn)
      exact ho (i + 1) u d ds hu hd

/-- Where each of some parts does what it does in a zone of its own, the order in which they do it
makes no difference to the errors at a path. -/
theorem filterMap_flatten_eq {zone : Nat → Path → Prop}
    (hzone : ∀ i j p, zone i p → zone j p → i = j) {parts straight : List (List Event)}
    {merged : List Event} (hm : Interleaving parts merged)
    (hin : ∀ (i : Nat) es, parts[i]? = some es → ∀ ev ∈ es, Event.In (zone i) ev) {path : Path}
    (hsame : straight.map (List.filterMap (Event.errorAt? path)) =
      parts.map (List.filterMap (Event.errorAt? path))) :
    straight.flatten.filterMap (Event.errorAt? path) =
      merged.filterMap (Event.errorAt? path) := by
  have hzones : ∀ (i : Nat) a l,
      (parts.map (List.filterMap (Event.errorAt? path)))[i]? = some (a :: l) → zone i path := by
    intro i a l hi
    rw [List.getElem?_map, Option.map_eq_some_iff] at hi
    obtain ⟨es, hes, heq⟩ := hi
    have ha : a ∈ es.filterMap (Event.errorAt? path) := heq ▸ List.mem_cons_self
    obtain ⟨ev, hev, herror⟩ := List.mem_filterMap.1 ha
    exact hin i es hes ev hev path (Event.path?_of_errorAt? herror)
  have hflatten := (Interleaving.flatten straight).filterMap (Event.errorAt? path)
  rw [hsame] at hflatten
  exact hflatten.eq_of_apart (hm.filterMap (Event.errorAt? path)) fun i j a l b l' hi hj =>
    hzone i j path (hzones i a l hi) (hzones j b l' hj)

/-- What a task comes to it comes to as well with its parts one after the other, and then it records
the same errors at each path. -/
theorem exists_serially {S : Strategy → Prop} (hS : ∀ s, S s → ∀ cs, s.keep cs = cs) {t : Task}
    (h : Ends w t c es) (ht : t.Parted S) :
    ∃ ds, Ends w t.serially.inOrder c ds ∧
      ∀ path, ds.filterMap (Event.errorAt? path) = es.filterMap (Event.errorAt? path) := by
  induction h with
  | done c =>
    rw [Task.serially, Task.inOrder]
    exact ⟨[], .done c, fun _ => rfl⟩
  | emit e _ ih =>
    cases ht with
    | emit _ _ hn =>
      obtain ⟨ds, hends, hsame⟩ := ih hn
      rw [Task.serially, Task.inOrder]
      exact ⟨e :: ds, .emit e hends, fun path => by
        rw [List.filterMap_cons, List.filterMap_cons, hsame path]⟩
  | read hs _ ih =>
    cases ht with
    | read hn =>
      obtain ⟨ds, hends, hsame⟩ := ih (hn _)
      rw [Task.serially, Task.inOrder]
      exact ⟨ds, .read hs hends, hsame⟩
  | refused ho hr _ ih =>
    cases ht with
    | call _ _ _ hn =>
      obtain ⟨ds, hends, hsame⟩ := ih (hn _)
      rw [Task.serially, Task.inOrder]
      exact ⟨ds, .refused ho hr hends, hsame⟩
  | called ho ha hr _ ih =>
    cases ht with
    | call _ _ _ hn =>
      obtain ⟨ds, hends, hsame⟩ := ih (hn _)
      rw [Task.serially, Task.inOrder]
      exact ⟨_ :: ds, .called ho ha hr hends, fun path => by
        rw [List.filterMap_cons, List.filterMap_cons, hsame path]⟩
  | admitted hr _ ih =>
    cases ht with
    | call _ _ _ hn =>
      obtain ⟨ds, hends, hsame⟩ := ih (hn _)
      rw [Task.serially, Task.inOrder]
      exact ⟨_ :: ds, .admitted hr hends, fun path => by
        rw [List.filterMap_cons, List.filterMap_cons, hsame path]⟩
  | working hr _ ih =>
    cases ht with
    | call _ _ _ hn =>
      obtain ⟨ds, hends, hsame⟩ := ih (hn _)
      rw [Task.serially, Task.inOrder]
      exact ⟨ds, .working hr hends, hsame⟩
  | answered _ ih =>
    cases ht with
    | call _ _ _ hn =>
      obtain ⟨ds, hends, hsame⟩ := ih (hn _)
      rw [Task.serially, Task.inOrder]
      exact ⟨ds, .answered hends, hsame⟩
  | @fork s children next outs c merged es hl ho hm _ ihc ih =>
    cases ht with
    | fork zone hs hzone hsafes _ hparts hn =>
      rw [hS s hs] at ih
      obtain ⟨rest, hrest, hsame⟩ := ih (hn _)
      obtain ⟨straight, hlength, hstraight⟩ := exists_list_of_getElem? hl
        fun i t out hi hout => ihc i t out.1 out.2 hi hout (hparts t (List.mem_of_getElem? hi))
      have hfst : ((outs.map Prod.fst).zip straight).map Prod.fst = outs.map Prod.fst :=
        List.map_fst_zip (by simp [hlength])
      have hsnd : ((outs.map Prod.fst).zip straight).map Prod.snd = straight :=
        List.map_snd_zip (by simp [hlength])
      refine ⟨straight.flatten ++ rest, ?_, fun path => ?_⟩
      · rw [Task.serially_fork, Task.inOrder_serial, List.map_map, ← hsnd]
        refine .chain (by simp [hl, hlength]) (fun i t d ds ht hd => ?_) (hfst.symm ▸ hrest)
        obtain ⟨child, hi, rfl⟩ := Option.map_eq_some_iff.1 (List.getElem?_map.symm.trans ht)
        obtain ⟨hd, hds⟩ := List.getElem?_zip_eq_some.1 hd
        obtain ⟨out, hout, rfl⟩ := Option.map_eq_some_iff.1 (List.getElem?_map.symm.trans hd)
        exact (hstraight i child out ds hi hout hds).1
      · have hlists : straight.map (List.filterMap (Event.errorAt? path)) =
            (outs.map Prod.snd).map (List.filterMap (Event.errorAt? path)) := by
          refine List.ext_getElem (by simp [hlength]) fun i hi hi' => ?_
          simp only [List.length_map] at hi hi'
          simp only [List.getElem_map]
          exact (hstraight i _ _ _ (List.getElem?_eq_getElem (by omega))
            (List.getElem?_eq_getElem hi') (List.getElem?_eq_getElem hi)).2 path
        have hin : ∀ (i : Nat) ds, (outs.map Prod.snd)[i]? = some ds →
            ∀ ev ∈ ds, Event.In (zone i) ev := by
          intro i ds hi
          obtain ⟨out, hout, rfl⟩ := Option.map_eq_some_iff.1 (List.getElem?_map.symm.trans hi)
          obtain ⟨hlt, -⟩ := List.getElem?_eq_some_iff.1 hout
          have hchild : children[i]? = some children[i] := List.getElem?_eq_getElem (by omega)
          exact (hsafes i _ hchild).forall_of_ends (ho i _ out.1 out.2 hchild hout)
        rw [List.filterMap_append, List.filterMap_append, hsame path,
          filterMap_flatten_eq hzone hm hin hlists]

end Ends

theorem FieldSite.serially_settle (site : FieldSite) (refusesNull : Bool) (path : Path) (t : Task) :
    (site.settle refusesNull path t).serially = site.settle refusesNull path t.serially := by
  rw [settle, Task.serially_bind]
  refine congrArg t.serially.bind (funext fun c => ?_)
  split
  · split
    · rw [fail, Task.serially, Task.serially_done]
    · exact Task.serially_done c
  · exact Task.serially_done _

/-- With serial strategies a task is composed of the same parts. -/
theorem Composed.serially {s : Setting} {w : World} {S : Strategy → Prop} {T : ObjectType → Prop}
    {marks : Prop} {layer : Layer} {room : Nat} {path : Path} {t : Task}
    (h : Composed s w S T marks layer room path t) :
    Composed s w (· = .serial) T marks layer room path t.serially := by
  induction h with
  | done =>
    rw [Task.serially]
    exact .done _ _ _ _
  | fail he =>
    rw [Task.serially, Task.serially]
    exact .fail he
  | giveUp c he hendless =>
    rw [Task.serially, Task.serially]
    exact .giveUp c he hendless
  | reached type _ ih =>
    rw [Task.serially]
    exact .reached type ih
  | produced value _ ih =>
    rw [Task.serially]
    exact .produced value ih
  | read _ ih =>
    rw [Task.serially]
    exact .read ih
  | call ht hsite hd ha hr hskipped _ _ iht ihr =>
    rw [Task.serially]
    obtain ⟨c, hc⟩ := hskipped
    exact .call ht hsite hd ha hr ⟨c, by rw [hc, Task.serially]⟩ iht ihr
  | settle site refusesNull _ ih =>
    rw [FieldSite.serially_settle]
    exact .settle site refusesNull ih
  | unmarked hmarks _ ih => exact .unmarked hmarks ih
  | items _ _ ih =>
    rw [Task.serially_fork]
    simp only [Task.serially_done]
    refine .items rfl fun i t ht => ?_
    obtain ⟨child, hi, rfl⟩ := Option.map_eq_some_iff.1 (List.getElem?_map.symm.trans ht)
    exact ih i child hi
  | object type selections _ _ ih =>
    rw [Task.serially]
    simp only [Task.serially_emitAll, Task.serially_fork, Task.serially_done, List.map_map]
    exact .object (S := (· = .serial)) type selections rfl ih

end GraphQL.Execution
