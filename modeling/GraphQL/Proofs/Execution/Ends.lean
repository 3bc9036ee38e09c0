import GraphQL.Execution.Task
import Mathlib.Data.List.Basic

/-!
How tasks end, told without steps: with which completion, and after which events.

A task ends in a world, which says what may happen around it. The events of the children of a fork
are interleaved in any way that keeps the events of each child in their order. A task that is bound
ends as its parts do one after the other (`Ends.of_bind`).
-/

set_option autoImplicit false

namespace GraphQL.Execution

/-- A list that is made up of the members of some lists, those of each list in their order. -/
inductive Interleaving {α : Type} : List (List α) → List α → Prop where
  | nil {ls : List (List α)} : (∀ l ∈ ls, l = []) → Interleaving ls []
  | cons {before after : List (List α)} {a : α} {l merged : List α} :
      Interleaving (before ++ l :: after) merged →
      Interleaving (before ++ (a :: l) :: after) (a :: merged)

namespace Interleaving

variable {α β : Type}

theorem perm {ls : List (List α)} {merged : List α} (h : Interleaving ls merged) :
    merged.Perm ls.flatten := by
  induction h with
  | nil h => simp [List.flatten_eq_nil_iff.2 h]
  | cons _ ih =>
    refine (List.Perm.cons _ ih).trans ?_
    simp only [List.flatten_append, List.flatten_cons, List.cons_append]
    exact List.perm_middle.symm

theorem mem_iff {ls : List (List α)} {merged : List α} (h : Interleaving ls merged) {a : α} :
    a ∈ merged ↔ ∃ l ∈ ls, a ∈ l := by
  rw [h.perm.mem_iff, List.mem_flatten]

/-- The members that a function keeps are interleaved in the same way. -/
theorem filterMap (f : α → Option β) {ls : List (List α)} {merged : List α}
    (h : Interleaving ls merged) :
    Interleaving (ls.map (List.filterMap f)) (merged.filterMap f) := by
  induction h with
  | nil h =>
    refine .nil fun l hl => ?_
    obtain ⟨m, hm, rfl⟩ := List.mem_map.1 hl
    simp [h m hm]
  | @cons before after a l merged _ ih =>
    cases ha : f a with
    | none => simpa [ha] using ih
    | some b =>
      simp only [List.map_append, List.map_cons, List.filterMap_cons, ha] at ih ⊢
      exact .cons ih

theorem eq_of_singleton {before after : List (List α)} {l merged : List α}
    (h : Interleaving (before ++ l :: after) merged) (hb : ∀ m ∈ before, m = [])
    (ha : ∀ m ∈ after, m = []) : merged = l := by
  generalize hls : before ++ l :: after = ls at h
  induction h generalizing l with
  | nil h => exact (h l (hls ▸ by simp)).symm
  | @cons b a x m merged _ ih =>
    obtain ⟨rfl, rfl, rfl⟩ : before = b ∧ l = x :: m ∧ after = a := by
      rcases List.append_eq_append_iff.1 hls with ⟨c, rfl, hc⟩ | ⟨c, rfl, hc⟩
      · cases c with
        | nil => simpa using hc
        | cons y c =>
          obtain ⟨-, rfl⟩ := List.cons.inj hc
          exact absurd (ha (x :: m) (by simp)) (by simp)
      · cases c with
        | nil => simpa [eq_comm] using hc
        | cons y c =>
          obtain ⟨rfl, -⟩ := List.cons.inj hc
          exact absurd (hb (x :: m) (by simp)) (by simp)
    rw [ih rfl]

/-- Members put in front of one list may come first of all. -/
theorem prepend (front : List α) {before after : List (List α)} {l merged : List α}
    (h : Interleaving (before ++ l :: after) merged) :
    Interleaving (before ++ (front ++ l) :: after) (front ++ merged) := by
  induction front with
  | nil => exact h
  | cons a front ih => exact .cons ih

theorem nil_cons {ls : List (List α)} {merged : List α} (h : Interleaving ls merged) :
    Interleaving ([] :: ls) merged := by
  induction h with
  | nil h => exact .nil (List.forall_mem_cons.2 ⟨rfl, h⟩)
  | @cons before after a l merged _ ih => exact @cons _ ([] :: before) after a l merged ih

/-- The lists may also come one after the other. -/
theorem flatten (ls : List (List α)) : Interleaving ls ls.flatten := by
  induction ls with
  | nil => exact .nil nofun
  | cons l ls ih =>
    have hfirst : Interleaving ([] ++ (l ++ []) :: ls) (l ++ ls.flatten) := ih.nil_cons.prepend l
    simpa using hfirst

end Interleaving

/-- Whether the call has neither been made nor is going to be. -/
def Stage.IsOpen : Stage → Prop
  | fresh => True
  | queued => True
  | _ => False

/-- What may happen around a task. -/
structure World where
  /-- The contexts that it may read. -/
  sees : Context → Prop
  /-- Whether calls may be made. -/
  admits : Prop
  /-- What may become of calls that are not made. -/
  refuses : Reply → Prop
  /-- What the resolvers of calls may answer. -/
  answers : Call → Resolution → Prop
  not_refuses_resolved : ∀ r, ¬ refuses (.resolved r)

/-- A task may end in a world with a completion after some events. -/
inductive Ends (w : World) : Task → Completion → List Event → Prop where
  | done (c : Completion) : Ends w (.done c) c []
  | emit (e : Event) {next : Task} {c : Completion} {es : List Event} :
      Ends w next c es → Ends w (.emit e next) c (e :: es)
  | read {context : Context} {next : Context → Task} {c : Completion} {es : List Event} :
      w.sees context → Ends w (next context) c es → Ends w (.read next) c es
  | refused {k : Call} {stage : Stage} {next : Reply → Task} {r : Reply} {c : Completion}
      {es : List Event} :
      stage.IsOpen → w.refuses r → Ends w (next r) c es → Ends w (.call k stage next) c es
  | called {k : Call} {stage : Stage} {next : Reply → Task} {r : Resolution} {c : Completion}
      {es : List Event} :
      stage.IsOpen → w.admits → w.answers k r → Ends w (next (.resolved r)) c es →
      Ends w (.call k stage next) c (.invoked k.invocation :: es)
  | admitted {k : Call} {next : Reply → Task} {r : Resolution} {c : Completion}
      {es : List Event} :
      w.answers k r → Ends w (next (.resolved r)) c es →
      Ends w (.call k .admitted next) c (.invoked k.invocation :: es)
  | working {k : Call} {pauses : Nat} {next : Reply → Task} {r : Resolution} {c : Completion}
      {es : List Event} :
      w.answers k r → Ends w (next (.resolved r)) c es →
      Ends w (.call k (.working pauses) next) c es
  | answered {k : Call} {r : Resolution} {next : Reply → Task} {c : Completion}
      {es : List Event} :
      Ends w (next (.resolved r)) c es → Ends w (.call k (.answered r) next) c es
  | fork {s : Strategy} {children : List Task} {next : List Completion → Task}
      {outs : List (Completion × List Event)} {c : Completion} {merged es : List Event} :
      children.length = outs.length →
      (∀ (i : Nat) t d ds, children[i]? = some t → outs[i]? = some (d, ds) → Ends w t d ds) →
      Interleaving (outs.map Prod.snd) merged →
      Ends w (next (s.keep (outs.map Prod.fst))) c es →
      Ends w (.fork s children next) c (merged ++ es)

namespace Ends

variable {w : World} {c : Completion} {es : List Event}

theorem of_done {d : Completion} (h : Ends w (.done d) c es) : c = d ∧ es = [] := by
  cases h; exact ⟨rfl, rfl⟩

theorem of_emit {e : Event} {next : Task} (h : Ends w (.emit e next) c es) :
    ∃ rest, es = e :: rest ∧ Ends w next c rest := by
  cases h with | emit _ h => exact ⟨_, rfl, h⟩

theorem of_read {next : Context → Task} (h : Ends w (.read next) c es) :
    ∃ context, w.sees context ∧ Ends w (next context) c es := by
  cases h with | read hc h => exact ⟨_, hc, h⟩

theorem of_call {k : Call} {stage : Stage} {next : Reply → Task}
    (h : Ends w (.call k stage next) c es) (ho : stage.IsOpen) :
    (∃ r, w.refuses r ∧ Ends w (next r) c es) ∨
      ∃ r rest, w.admits ∧ w.answers k r ∧ es = .invoked k.invocation :: rest ∧
        Ends w (next (.resolved r)) c rest := by
  cases h with
  | refused _ hr h => exact .inl ⟨_, hr, h⟩
  | called _ ha hr h => exact .inr ⟨_, _, ha, hr, rfl, h⟩
  | admitted | working | answered => exact ho.elim

theorem of_admitted {k : Call} {next : Reply → Task} (h : Ends w (.call k .admitted next) c es) :
    ∃ r rest, w.answers k r ∧ es = .invoked k.invocation :: rest ∧
      Ends w (next (.resolved r)) c rest := by
  cases h with
  | admitted hr h => exact ⟨_, _, hr, rfl, h⟩
  | refused ho | called ho => exact ho.elim

theorem of_working {k : Call} {pauses : Nat} {next : Reply → Task}
    (h : Ends w (.call k (.working pauses) next) c es) :
    ∃ r, w.answers k r ∧ Ends w (next (.resolved r)) c es := by
  cases h with
  | working hr h => exact ⟨_, hr, h⟩
  | refused ho | called ho => exact ho.elim

theorem of_answered {k : Call} {r : Resolution} {next : Reply → Task}
    (h : Ends w (.call k (.answered r) next) c es) : Ends w (next (.resolved r)) c es := by
  cases h with
  | answered h => exact h
  | refused ho | called ho => exact ho.elim

theorem of_fork {s : Strategy} {children : List Task} {next : List Completion → Task}
    (h : Ends w (.fork s children next) c es) :
    ∃ (outs : List (Completion × List Event)) (merged rest : List Event),
      children.length = outs.length ∧
      (∀ (i : Nat) t d ds, children[i]? = some t → outs[i]? = some (d, ds) → Ends w t d ds) ∧
      Interleaving (outs.map Prod.snd) merged ∧
      Ends w (next (s.keep (outs.map Prod.fst))) c rest ∧ es = merged ++ rest := by
  cases h with | fork hl hc hm h => exact ⟨_, _, _, hl, hc, hm, h, rfl⟩

theorem of_emitAll {events : List Event} {next : Task}
    (h : Ends w (Task.emitAll events next) c es) :
    ∃ rest, es = events ++ rest ∧ Ends w next c rest := by
  induction events generalizing es with
  | nil => exact ⟨es, rfl, h⟩
  | cons e events ih =>
    obtain ⟨_, rfl, he⟩ := of_emit h
    obtain ⟨rest, rfl, hr⟩ := ih he
    exact ⟨rest, rfl, hr⟩

theorem emitAll (events : List Event) {next : Task} (h : Ends w next c es) :
    Ends w (Task.emitAll events next) c (events ++ es) := by
  induction events with
  | nil => exact h
  | cons e events ih => exact .emit e ih

theorem of_bind {f : Completion → Task} {t : Task} (h : Ends w (t.bind f) c es) :
    ∃ d front back, Ends w t d front ∧ Ends w (f d) c back ∧ es = front ++ back := by
  generalize hu : t.bind f = u at h
  induction h generalizing t with
  | done c =>
    cases t <;> simp only [Task.bind, reduceCtorEq] at hu
    exact ⟨_, _, _, .done _, hu ▸ .done _, rfl⟩
  | emit e h ih =>
    cases t <;> simp only [Task.bind, reduceCtorEq, Task.emit.injEq] at hu
    · exact ⟨_, _, _, .done _, hu ▸ .emit e h, rfl⟩
    · obtain ⟨rfl, rfl⟩ := hu
      obtain ⟨d, front, back, h₁, h₂, rfl⟩ := ih rfl
      exact ⟨d, _, back, .emit _ h₁, h₂, rfl⟩
  | read hs h ih =>
    cases t <;> simp only [Task.bind, reduceCtorEq, Task.read.injEq] at hu
    · exact ⟨_, _, _, .done _, hu ▸ .read hs h, rfl⟩
    · subst hu
      obtain ⟨d, front, back, h₁, h₂, rfl⟩ := ih rfl
      exact ⟨d, front, back, .read hs h₁, h₂, rfl⟩
  | refused ho hr h ih =>
    cases t <;> simp only [Task.bind, reduceCtorEq, Task.call.injEq] at hu
    · exact ⟨_, _, _, .done _, hu ▸ .refused ho hr h, rfl⟩
    · obtain ⟨rfl, rfl, rfl⟩ := hu
      obtain ⟨d, front, back, h₁, h₂, rfl⟩ := ih rfl
      exact ⟨d, front, back, .refused ho hr h₁, h₂, rfl⟩
  | called ho ha hr h ih =>
    cases t <;> simp only [Task.bind, reduceCtorEq, Task.call.injEq] at hu
    · exact ⟨_, _, _, .done _, hu ▸ .called ho ha hr h, rfl⟩
    · obtain ⟨rfl, rfl, rfl⟩ := hu
      obtain ⟨d, front, back, h₁, h₂, rfl⟩ := ih rfl
      exact ⟨d, _, back, .called ho ha hr h₁, h₂, rfl⟩
  | admitted hr h ih =>
    cases t <;> simp only [Task.bind, reduceCtorEq, Task.call.injEq] at hu
    · exact ⟨_, _, _, .done _, hu ▸ .admitted hr h, rfl⟩
    · obtain ⟨rfl, rfl, rfl⟩ := hu
      obtain ⟨d, front, back, h₁, h₂, rfl⟩ := ih rfl
      exact ⟨d, _, back, .admitted hr h₁, h₂, rfl⟩
  | working hr h ih =>
    cases t <;> simp only [Task.bind, reduceCtorEq, Task.call.injEq] at hu
    · exact ⟨_, _, _, .done _, hu ▸ .working hr h, rfl⟩
    · obtain ⟨rfl, rfl, rfl⟩ := hu
      obtain ⟨d, front, back, h₁, h₂, rfl⟩ := ih rfl
      exact ⟨d, front, back, .working hr h₁, h₂, rfl⟩
  | answered h ih =>
    cases t <;> simp only [Task.bind, reduceCtorEq, Task.call.injEq] at hu
    · exact ⟨_, _, _, .done _, hu ▸ .answered h, rfl⟩
    · obtain ⟨rfl, rfl, rfl⟩ := hu
      obtain ⟨d, front, back, h₁, h₂, rfl⟩ := ih rfl
      exact ⟨d, front, back, .answered h₁, h₂, rfl⟩
  | fork hl hc hm h _ ih =>
    cases t <;> simp only [Task.bind, reduceCtorEq, Task.fork.injEq] at hu
    · exact ⟨_, _, _, .done _, hu ▸ .fork hl hc hm h, rfl⟩
    · obtain ⟨rfl, rfl, rfl⟩ := hu
      obtain ⟨d, front, back, h₁, h₂, rfl⟩ := ih rfl
      exact ⟨d, _, back, .fork hl hc hm h₁, h₂, (List.append_assoc _ _ _).symm⟩

/-- A task may end in the same way where more may happen. -/
theorem mono {w' : World} (hsees : ∀ context, w.sees context → w'.sees context)
    (hadmits : w.admits → w'.admits) (hrefuses : ∀ r, w.refuses r → w'.refuses r)
    (hanswers : ∀ k r, w.answers k r → w'.answers k r) {t : Task} (h : Ends w t c es) :
    Ends w' t c es := by
  induction h with
  | done c => exact .done c
  | emit e _ ih => exact .emit e ih
  | read hs _ ih => exact .read (hsees _ hs) ih
  | refused ho hr _ ih => exact .refused ho (hrefuses _ hr) ih
  | called ho ha hr _ ih => exact .called ho (hadmits ha) (hanswers _ _ hr) ih
  | admitted hr _ ih => exact .admitted (hanswers _ _ hr) ih
  | working hr _ ih => exact .working (hanswers _ _ hr) ih
  | answered _ ih => exact .answered ih
  | fork hl _ hm _ ihc ih => exact .fork hl ihc hm ih

end Ends

end GraphQL.Execution
