import Mathlib.Data.List.Forall2
import Mathlib.Data.List.Perm.Basic

/-! # Lists that grow by one element, and lists that are related element by element -/

namespace WasmBackend

theorem getElem?_concat_eq_some {α : Type} {as : List α} {a b : α} {i : Nat} :
    (as ++ [a])[i]? = some b ↔ as[i]? = some b ∨ (i = as.length ∧ a = b) := by
  rcases Nat.lt_trichotomy i as.length with hlt | rfl | hgt
  · have hne : i ≠ as.length := Nat.ne_of_lt hlt
    simp [List.getElem?_append_left hlt, hne]
  · simp
  · have hne : i ≠ as.length := Nat.ne_of_gt hgt
    have hold : as[i]? = none := List.getElem?_eq_none (Nat.le_of_lt hgt)
    have hlength : (as ++ [a]).length ≤ i := by
      rw [List.length_append]
      exact hgt
    simp [hold, List.getElem?_eq_none hlength, hne]

section Related

variable {α β γ : Type} {R : α → β → Prop} {as : List α} {bs : List β}

theorem exists_right_of_mem (h : List.Forall₂ R as bs) {a : α} (ha : a ∈ as) :
    ∃ b ∈ bs, R a b := by
  induction h with
  | nil => cases ha
  | cons hhead _ ih =>
    rcases List.mem_cons.mp ha with rfl | hrest
    · exact ⟨_, List.mem_cons_self, hhead⟩
    · obtain ⟨b, hb, hrelated⟩ := ih hrest
      exact ⟨b, List.mem_cons_of_mem _ hb, hrelated⟩

theorem exists_left_of_mem (h : List.Forall₂ R as bs) {b : β} (hb : b ∈ bs) :
    ∃ a ∈ as, R a b :=
  exists_right_of_mem h.flip hb

theorem exists_forall₂ (h : ∀ a ∈ as, ∃ b, R a b) : ∃ bs, List.Forall₂ R as bs := by
  induction as with
  | nil => exact ⟨[], .nil⟩
  | cons a rest ih =>
    obtain ⟨b, hb⟩ := h a List.mem_cons_self
    obtain ⟨others, hothers⟩ := ih fun a' ha' => h a' (List.mem_cons_of_mem _ ha')
    exact ⟨b :: others, .cons hb hothers⟩

theorem forall₂_comp {S : β → γ → Prop} {T : α → γ → Prop} (h : ∀ a b c, R a b → S b c → T a c)
    {cs : List γ} (hR : List.Forall₂ R as bs) (hS : List.Forall₂ S bs cs) :
    List.Forall₂ T as cs := by
  induction hR generalizing cs with
  | nil =>
    cases hS
    exact .nil
  | cons hab _ ih =>
    cases hS with
    | cons hbc hrest => exact .cons (h _ _ _ hab hbc) (ih hrest)

theorem map_eq_map_of_forall₂ {f : α → γ} {g : β → γ} (h : List.Forall₂ R as bs)
    (hR : ∀ a b, R a b → f a = g b) : as.map f = bs.map g := by
  induction h with
  | nil => rfl
  | cons hhead _ ih => rw [List.map_cons, List.map_cons, hR _ _ hhead, ih]

theorem perm_of_forall₂ {R' : α → β → Prop} {as' : List α} {bs' : List β} (hperm : as.Perm as')
    (h : List.Forall₂ R as bs) (h' : List.Forall₂ R' as' bs')
    (hsame : ∀ a b b', R a b → R' a b' → b = b') : bs.Perm bs' := by
  obtain ⟨cs, hcs, hperm'⟩ := List.perm_comp_forall₂ hperm h'
  have heq : bs = cs := by
    refine List.forall₂_eq_eq_eq ▸ ?_
    exact forall₂_comp (fun b a c hab hac => hsame a b c hab hac) h.flip hcs
  exact heq ▸ hperm'

end Related

end WasmBackend
