import Mathlib.Data.List.Perm.Basic

/-! # Matched lists

Lists whose elements are paired off by a relation, whatever their order. What treats the
elements one by one, and does not look at their order, takes matched lists to matched lists.
-/

namespace ShardedSearch

variable {α β γ δ : Type} {R R' : α → β → Prop} {S : γ → δ → Prop}
variable {a : α} {b : β} {as as' : List α} {bs bs' : List β}

theorem exists_right_of_forall₂ (hr : List.Forall₂ R as bs) :
    ∀ a ∈ as, ∃ b ∈ bs, R a b := by
  induction hr with
  | nil => exact fun a ha => absurd ha List.not_mem_nil
  | cons h _ ih =>
    refine List.forall_mem_cons.mpr ⟨⟨_, List.mem_cons_self, h⟩, fun a ha => ?_⟩
    obtain ⟨b, hb, hab⟩ := ih a ha
    exact ⟨b, List.mem_cons_of_mem _ hb, hab⟩

/-- Some order of the second list has its elements related to those of the first, one by one. -/
def Matched (R : α → β → Prop) (as : List α) (bs : List β) : Prop :=
  ∃ cs, List.Forall₂ R as cs ∧ cs.Perm bs

namespace Matched

theorem of_forall₂ (h : List.Forall₂ R as bs) : Matched R as bs := ⟨bs, h, .refl _⟩

theorem nil : Matched R [] [] := .of_forall₂ .nil

theorem singleton (h : R a b) : Matched R [a] [b] := .of_forall₂ (.cons h .nil)

theorem refl {R : α → α → Prop} (h : ∀ a, R a a) (as : List α) : Matched R as as :=
  .of_forall₂ (List.forall₂_same.mpr fun a _ => h a)

theorem perm_right (h : Matched R as bs) (hp : bs.Perm bs') : Matched R as bs' := by
  obtain ⟨cs, hr, hcs⟩ := h
  exact ⟨cs, hr, hcs.trans hp⟩

theorem append (h : Matched R as bs) (h' : Matched R as' bs') :
    Matched R (as ++ as') (bs ++ bs') := by
  obtain ⟨cs, hr, hp⟩ := h
  obtain ⟨cs', hr', hp'⟩ := h'
  exact ⟨cs ++ cs', List.rel_append hr hr', hp.append hp'⟩

theorem mono (h : Matched R as bs) (hR : ∀ a b, R a b → R' a b) : Matched R' as bs := by
  obtain ⟨cs, hr, hp⟩ := h
  exact ⟨cs, hr.imp hR, hp⟩

/-! ### What goes along with matching -/

theorem map {f : α → γ} {g : β → δ} (h : Matched R as bs)
    (hfg : ∀ a b, R a b → S (f a) (g b)) : Matched S (as.map f) (bs.map g) := by
  obtain ⟨cs, hr, hp⟩ := h
  exact ⟨cs.map g, List.rel_map (@hfg) hr, hp.map g⟩

theorem flatMap {f : α → List γ} {g : β → List δ} (h : Matched R as bs)
    (hfg : ∀ a b, R a b → Matched S (f a) (g b)) : Matched S (as.flatMap f) (bs.flatMap g) := by
  obtain ⟨cs, hr, hp⟩ := h
  refine perm_right ?_ (hp.flatMap_right g)
  clear hp
  induction hr with
  | nil => exact nil
  | cons hab _ ih => exact (hfg _ _ hab).append ih

theorem filter {p : α → Bool} {q : β → Bool} (h : Matched R as bs)
    (hpq : ∀ a b, R a b → p a = q b) : Matched R (as.filter p) (bs.filter q) := by
  obtain ⟨cs, hr, hp⟩ := h
  refine ⟨cs.filter q, ?_, hp.filter q⟩
  clear hp
  induction hr with
  | nil => exact .nil
  | cons hab _ ih =>
    rw [List.filter_cons, List.filter_cons, hpq _ _ hab]
    split
    · exact .cons hab ih
    · exact ih

theorem filterMap {f : α → Option γ} {g : β → Option δ} (h : Matched R as bs)
    (hfg : ∀ a b, R a b → Option.Rel S (f a) (g b)) :
    Matched S (as.filterMap f) (bs.filterMap g) := by
  obtain ⟨cs, hr, hp⟩ := h
  exact ⟨cs.filterMap g, List.rel_filterMap (@hfg) hr, hp.filterMap g⟩

theorem along {T : α → γ → Prop} {T' : β → δ → Prop} {cs : List γ} {ds : List δ}
    (h : Matched R as bs) (hc : List.Forall₂ T as cs) (hd : List.Forall₂ T' bs ds)
    (hS : ∀ a ∈ as, ∀ b c d, R a b → T a c → T' b d → S c d) : Matched S cs ds := by
  obtain ⟨bs', hr, hp⟩ := h
  obtain ⟨ds', hd', hp'⟩ := List.perm_comp_forall₂ hp hd
  refine ⟨ds', ?_, hp'⟩
  clear hd hp hp'
  induction hr generalizing cs ds' with
  | nil =>
    cases hc
    cases hd'
    exact .nil
  | cons hab _ ih =>
    cases hc with
    | cons hac hc =>
      cases hd' with
      | cons hbd hd' =>
        exact .cons (hS _ List.mem_cons_self _ _ _ hab hac hbd)
          (ih hc (fun a ha => hS a (List.mem_cons_of_mem _ ha)) _ hd')

theorem mono_of_mem (h : Matched R as bs) (hR : ∀ a ∈ as, ∀ b, R a b → R' a b) :
    Matched R' as bs := by
  have heq : ∀ {γ : Type} (cs : List γ), List.Forall₂ Eq cs cs := fun cs =>
    List.forall₂_same.mpr fun _ _ => rfl
  refine h.along (heq as) (heq bs) ?_
  rintro a ha b _ _ hab rfl rfl
  exact hR a ha b hab

/-! ### What matched lists have in common -/

theorem length_eq (h : Matched R as bs) : as.length = bs.length := by
  obtain ⟨cs, hr, hp⟩ := h
  rw [hr.length_eq, hp.length_eq]

theorem isEmpty_eq (h : Matched R as bs) : as.isEmpty = bs.isEmpty := by
  rw [Bool.eq_iff_iff, List.isEmpty_iff_length_eq_zero, List.isEmpty_iff_length_eq_zero,
    h.length_eq]

theorem rel_of_singleton (h : Matched R [a] [b]) : R a b := by
  obtain ⟨cs, hr, hp⟩ := h
  rw [List.perm_singleton.mp hp] at hr
  exact (List.forall₂_cons.mp hr).1

theorem exists_right (h : Matched R as bs) (ha : a ∈ as) : ∃ b ∈ bs, R a b := by
  obtain ⟨cs, hr, hp⟩ := h
  obtain ⟨b, hb, hab⟩ := exists_right_of_forall₂ hr a ha
  exact ⟨b, hp.subset hb, hab⟩

theorem exists_left (h : Matched R as bs) (hb : b ∈ bs) : ∃ a ∈ as, R a b := by
  obtain ⟨cs, hr, hp⟩ := h
  exact exists_right_of_forall₂ hr.flip b (hp.symm.subset hb)

theorem forall_iff {P : α → Prop} {Q : β → Prop} (h : Matched R as bs)
    (hPQ : ∀ a b, R a b → (P a ↔ Q b)) : (∀ a ∈ as, P a) ↔ ∀ b ∈ bs, Q b := by
  constructor
  · intro hP b hb
    obtain ⟨a, ha, hab⟩ := h.exists_left hb
    exact (hPQ a b hab).mp (hP a ha)
  · intro hQ a ha
    obtain ⟨b, hb, hab⟩ := h.exists_right ha
    exact (hPQ a b hab).mpr (hQ b hb)

theorem all_eq {p : α → Bool} {q : β → Bool} (h : Matched R as bs)
    (hpq : ∀ a b, R a b → p a = q b) : as.all p = bs.all q := by
  rw [Bool.eq_iff_iff, List.all_eq_true, List.all_eq_true]
  exact h.forall_iff fun a b hab => by rw [hpq a b hab]

theorem any_eq {p : α → Bool} {q : β → Bool} (h : Matched R as bs)
    (hpq : ∀ a b, R a b → p a = q b) : as.any p = bs.any q := by
  rw [List.any_eq_not_all_not, List.any_eq_not_all_not]
  exact congrArg _ (h.all_eq fun a b hab => congrArg _ (hpq a b hab))

theorem perm_map {f : α → γ} {g : β → γ} (h : Matched R as bs)
    (hfg : ∀ a b, R a b → f a = g b) : (as.map f).Perm (bs.map g) := by
  obtain ⟨cs, heq, hp⟩ := h.map hfg
  rw [List.forall₂_eq_eq_eq] at heq
  exact heq ▸ hp

end Matched

end ShardedSearch
