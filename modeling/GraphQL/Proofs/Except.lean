import Mathlib.Data.List.Basic

/-!
What is known of the parts of a computation that did not fail.
-/

set_option autoImplicit false

namespace GraphQL

variable {E α β : Type}

theorem bind_eq_ok_iff {x : Except E α} {f : α → Except E β} {b : β} :
    x >>= f = .ok b ↔ ∃ a, x = .ok a ∧ f a = .ok b := by
  cases x <;> simp [bind, Except.bind]

theorem map_eq_ok_iff {x : Except E α} {f : α → β} {b : β} :
    x.map f = .ok b ↔ ∃ a, x = .ok a ∧ f a = b := by
  cases x <;> simp [Except.map]

theorem pure_eq_ok_iff {a b : α} : (pure a : Except E α) = .ok b ↔ a = b := by
  simp [pure, Except.pure]

theorem exists_of_mem_mapM {f : α → Except E β} {as : List α} {bs : List β}
    (h : as.mapM f = .ok bs) {b : β} (hb : b ∈ bs) : ∃ a ∈ as, f a = .ok b := by
  induction as generalizing bs with
  | nil =>
    rw [List.mapM_nil, pure_eq_ok_iff] at h
    subst h
    cases hb
  | cons a as ih =>
    simp only [List.mapM_cons, bind_eq_ok_iff, pure_eq_ok_iff] at h
    obtain ⟨b', hb', bs', hbs', rfl⟩ := h
    rcases List.mem_cons.1 hb with rfl | hb
    · exact ⟨a, List.mem_cons_self, hb'⟩
    · obtain ⟨a', ha', hf⟩ := ih hbs' hb
      exact ⟨a', List.mem_cons_of_mem _ ha', hf⟩

theorem foldlM_induction {f : β → α → Except E β} {P : β → Prop} {as : List α}
    (hf : ∀ a ∈ as, ∀ b b', P b → f b a = .ok b' → P b') :
    ∀ {b b' : β}, P b → as.foldlM f b = .ok b' → P b' := by
  induction as with
  | nil =>
    intro b b' hb h
    rw [List.foldlM_nil, pure_eq_ok_iff] at h
    exact h ▸ hb
  | cons a as ih =>
    intro b b' hb h
    rw [List.foldlM_cons, bind_eq_ok_iff] at h
    obtain ⟨b₁, h₁, h₂⟩ := h
    exact ih (fun a' ha' => hf a' (List.mem_cons_of_mem _ ha'))
      (hf a List.mem_cons_self b b₁ hb h₁) h₂

end GraphQL
