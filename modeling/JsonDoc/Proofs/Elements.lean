import Mathlib.Tactic
import JsonDoc.Elements

/-!
# Related elements

Lists whose elements are related one by one, and options that are both empty or related.  The
operations on elements keep lists related.
-/

namespace JsonDoc

variable {α β γ : Type} {R S : α → β → Prop} {T : α → γ → Prop} {f : β → γ} {xs : List α}
  {ys : List β} {x : α} {y : β}

/-! ### Options -/

theorem isSome_eq_of_rel {x? : Option α} {y? : Option β} (h : Option.Rel R x? y?) :
    x?.isSome = y?.isSome := by
  cases h <;> rfl

theorem eq_map_of_rel {x? : Option α} {y? : Option β} {z? : Option γ} (h : Option.Rel R x? y?)
    (h' : Option.Rel T x? z?) (heq : ∀ x, ∀ y ∈ y?, ∀ z, R x y → T x z → z = f y) :
    z? = y?.map f := by
  cases h with
  | none =>
    cases h'
    rfl
  | some hxy =>
    cases h' with
    | some hxz => rw [heq _ _ rfl _ hxy hxz, Option.map_some]

/-! ### Lists -/

theorem exists_mem_of_forall₂ (h : List.Forall₂ R xs ys) {x : α} (hx : x ∈ xs) :
    ∃ y ∈ ys, R x y := by
  induction h with
  | nil => cases hx
  | @cons a b xs ys hab _ ih =>
    rcases List.mem_cons.mp hx with rfl | hx
    · exact ⟨b, List.mem_cons_self, hab⟩
    · obtain ⟨y, hy, hxy⟩ := ih hx
      exact ⟨y, List.mem_cons_of_mem _ hy, hxy⟩

theorem forall₂_imp_of_mem (h : List.Forall₂ R xs ys)
    (hRS : ∀ x ∈ xs, ∀ y ∈ ys, R x y → S x y) : List.Forall₂ S xs ys := by
  induction h with
  | nil => exact .nil
  | cons hxy _ ih =>
    exact .cons (hRS _ List.mem_cons_self _ List.mem_cons_self hxy) (ih fun x hx y hy =>
      hRS x (List.mem_cons_of_mem _ hx) y (List.mem_cons_of_mem _ hy))

theorem forall₂_congr_of_mem (h : ∀ x ∈ xs, ∀ y ∈ ys, R x y ↔ S x y) :
    List.Forall₂ R xs ys ↔ List.Forall₂ S xs ys :=
  ⟨fun hR => forall₂_imp_of_mem hR fun x hx y hy => (h x hx y hy).mp,
    fun hS => forall₂_imp_of_mem hS fun x hx y hy => (h x hx y hy).mpr⟩

theorem exists_forall₂ (h : ∀ y ∈ ys, ∃ x, R x y) : ∃ xs, List.Forall₂ R xs ys := by
  induction ys with
  | nil => exact ⟨[], .nil⟩
  | cons y ys ih =>
    obtain ⟨x, hxy⟩ := h y List.mem_cons_self
    obtain ⟨xs, hxs⟩ := ih fun y hy => h y (List.mem_cons_of_mem _ hy)
    exact ⟨x :: xs, .cons hxy hxs⟩

theorem eq_map_of_forall₂ {zs : List γ} (h : List.Forall₂ R xs ys) (h' : List.Forall₂ T xs zs)
    (heq : ∀ x, ∀ y ∈ ys, ∀ z, R x y → T x z → z = f y) : zs = ys.map f := by
  induction h generalizing zs with
  | nil =>
    cases h'
    rfl
  | cons hxy _ ih =>
    cases h' with
    | cons hxz hrest =>
      rw [List.map_cons, heq _ _ List.mem_cons_self _ hxy hxz,
        ih hrest fun x y hy => heq x y (List.mem_cons_of_mem _ hy)]

/-! ### Positions -/

theorem rel_getElem? (h : List.Forall₂ R xs ys) (i : ℕ) : Option.Rel R xs[i]? ys[i]? := by
  induction h generalizing i with
  | nil => exact .none
  | cons hxy _ ih =>
    cases i with
    | zero => exact .some hxy
    | succ i => exact ih i

theorem forall₂_set (h : List.Forall₂ R xs ys) (i : ℕ) (hxy : R x y) :
    List.Forall₂ R (xs.set i x) (ys.set i y) := by
  induction h generalizing i with
  | nil => exact .nil
  | cons hab hrest ih =>
    cases i with
    | zero => exact .cons hxy hrest
    | succ i => exact .cons hab (ih i)

theorem forall₂_eraseIdx (h : List.Forall₂ R xs ys) (i : ℕ) :
    List.Forall₂ R (xs.eraseIdx i) (ys.eraseIdx i) := by
  rw [List.eraseIdx_eq_take_drop_succ, List.eraseIdx_eq_take_drop_succ]
  exact List.rel_append (List.forall₂_take i h) (List.forall₂_drop (i + 1) h)

theorem rel_getD (h : List.Forall₂ R xs ys) (i : ℕ) (hxy : R x y) :
    R (xs.getD i x) (ys.getD i y) := by
  rw [List.getD_eq_getElem?_getD, List.getD_eq_getElem?_getD]
  have hrel := rel_getElem? h i
  generalize xs[i]? = a? at hrel ⊢
  generalize ys[i]? = b? at hrel ⊢
  cases hrel with
  | some hab => exact hab
  | none => exact hxy

namespace Elements

theorem forall₂_insertAt (h : List.Forall₂ R xs ys) (i : ℕ) (hxy : R x y) :
    List.Forall₂ R (insertAt i x xs) (insertAt i y ys) :=
  List.rel_append (List.forall₂_take i h) (.cons hxy (List.forall₂_drop i h))

theorem forall₂_removeRange (h : List.Forall₂ R xs ys) (start stop : ℕ) :
    List.Forall₂ R (removeRange start stop xs) (removeRange start stop ys) :=
  List.rel_append (List.forall₂_take start h) (List.forall₂_drop stop h)

theorem forall₂_extendTo (h : List.Forall₂ R xs ys) (length : ℕ) (hxy : R x y) :
    List.Forall₂ R (extendTo length x xs) (extendTo length y ys) := by
  have hreplicate : ∀ n, List.Forall₂ R (List.replicate n x) (List.replicate n y) := fun n => by
    induction n with
    | zero => exact .nil
    | succ n ih => exact .cons hxy ih
  rw [extendTo, extendTo, h.length_eq]
  exact List.rel_append h (hreplicate _)

end Elements

end JsonDoc
