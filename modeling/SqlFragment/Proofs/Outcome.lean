import Mathlib.Data.List.Basic
import SqlFragment.Error

/-!
When an outcome is a result and when it is an error: for the steps that outcomes are made of.
-/
namespace SqlFragment

variable {ε α β : Type}

@[simp] theorem bind_eq_ok {x : Except ε α} {f : α → Except ε β} {b : β} :
    (x >>= f) = .ok b ↔ ∃ a, x = .ok a ∧ f a = .ok b := by
  cases x <;> simp [bind, Except.bind]

@[simp] theorem ok_bind (a : α) (f : α → Except ε β) : ((.ok a : Except ε α) >>= f) = f a := rfl

@[simp] theorem error_bind (e : ε) (f : α → Except ε β) :
    ((.error e : Except ε α) >>= f) = .error e := rfl

@[simp] theorem map_eq_ok {x : Except ε α} {f : α → β} {b : β} :
    x.map f = .ok b ↔ ∃ a, x = .ok a ∧ f a = b := by
  cases x <;> simp [Except.map]

theorem bind_eq_error {e : ε} {x : Except ε α} {f : α → Except ε β} :
    (x >>= f) = .error e ↔ x = .error e ∨ ∃ a, x = .ok a ∧ f a = .error e := by
  cases x <;> simp [bind, Except.bind]

theorem map_eq_error {e : ε} {x : Except ε α} {f : α → β} : x.map f = .error e ↔ x = .error e := by
  cases x <;> simp [Except.map]

@[simp] theorem pure_eq_ok {a b : α} : (pure a : Except ε α) = .ok b ↔ a = b := by
  simp [pure, Except.pure]

@[simp] theorem ite_error_eq_ok {p : Prop} [Decidable p] {e : ε} {x : Except ε β} {b : β} :
    (if p then .error e else x) = .ok b ↔ ¬p ∧ x = .ok b := by
  split <;> simp_all

theorem ite_error_eq_error {p : Prop} [Decidable p] {e e' : ε} {x : Except ε β} :
    (if p then .error e else x) = .error e' ↔ p ∧ e = e' ∨ ¬p ∧ x = .error e' := by
  split <;> simp_all

@[simp] theorem elim_error_eq_ok {o : Option α} {e : ε} {f : α → Except ε β} {b : β} :
    o.elim (.error e) f = .ok b ↔ ∃ a, o = some a ∧ f a = .ok b := by
  cases o <;> simp

@[simp] theorem ofFault_eq_ok {x : Except Fault α} {a : α} :
    Error.ofFault x = .ok a ↔ x = .ok a := by
  cases x <;> simp [Error.ofFault]

theorem ofFault_eq_error {x : Except Fault α} {e : Error} :
    Error.ofFault x = .error e ↔ ∃ f, x = .error f ∧ .fault f = e := by
  cases x <;> simp [Error.ofFault]

theorem exists_of_toOption {x : Except ε α} {f : α → β} {b : β}
    (h : x.toOption.map f = some b) : ∃ a, x = .ok a ∧ f a = b := by
  cases x with
  | error e => cases h
  | ok a => exact ⟨a, rfl, Option.some.inj h⟩

/-- A walk that cannot fail at any element gives what it gives at each. -/
theorem mapM_eq_ok {f : α → Except ε β} {g : α → β} {xs : List α}
    (h : ∀ x ∈ xs, f x = .ok (g x)) : xs.mapM f = .ok (xs.map g) := by
  induction xs with
  | nil => rfl
  | cons x xs ih =>
    rw [List.mapM_cons, h x (by simp), ih fun y hy => h y (by simp [hy])]
    rfl

theorem mem_of_mapM_eq_ok {f : α → Except ε β} {xs : List α} {ys : List β}
    (h : xs.mapM f = .ok ys) : ∀ x ∈ xs, ∃ y, f x = .ok y := by
  induction xs generalizing ys with
  | nil => simp
  | cons x xs ih =>
    simp only [List.mapM_cons, bind_eq_ok] at h
    obtain ⟨y, hy, zs, hzs, -⟩ := h
    exact List.forall_mem_cons.mpr ⟨⟨y, hy⟩, ih hzs⟩

/-- A walk fails where its first step fails. -/
theorem mapM_eq_error {f : α → Except ε β} {x : α} {e : ε} (hx : f x = .error e) (xs : List α)
    {before : List α} (h : ∀ y ∈ before, ∃ b, f y = .ok b) :
    (before ++ x :: xs).mapM f = .error e := by
  induction before with
  | nil =>
    rw [List.nil_append, List.mapM_cons, hx]
    rfl
  | cons y before ih =>
    obtain ⟨⟨b, hb⟩, h⟩ := List.forall_mem_cons.mp h
    rw [List.cons_append, List.mapM_cons, hb, ih h]
    rfl

/-- A walk fails as one of its steps does. -/
theorem exists_of_mapM_eq_error {f : α → Except ε β} {xs : List α} {e : ε}
    (h : xs.mapM f = .error e) : ∃ x ∈ xs, f x = .error e := by
  induction xs with
  | nil => cases h
  | cons x xs ih =>
    rw [List.mapM_cons, bind_eq_error] at h
    rcases h with h | ⟨y, -, h⟩
    · exact ⟨x, List.mem_cons_self, h⟩
    · rcases bind_eq_error.mp h with h | ⟨ys, -, h⟩
      · obtain ⟨x', hx', h⟩ := ih h
        exact ⟨x', List.mem_cons_of_mem x hx', h⟩
      · cases h

theorem exists_of_mem_mapM {f : α → Except ε β} {xs : List α} {ys : List β}
    (h : xs.mapM f = .ok ys) : ∀ y ∈ ys, ∃ x ∈ xs, f x = .ok y := by
  induction xs generalizing ys with
  | nil =>
    obtain rfl := Except.ok.inj h
    exact nofun
  | cons x xs ih =>
    simp only [List.mapM_cons, bind_eq_ok, pure_eq_ok] at h
    obtain ⟨y, hy, zs, hzs, rfl⟩ := h
    refine List.forall_mem_cons.mpr ⟨⟨x, List.mem_cons_self, hy⟩, fun z hz => ?_⟩
    obtain ⟨x', hx', hz⟩ := ih hzs z hz
    exact ⟨x', List.mem_cons_of_mem x hx', hz⟩

/-- Where one step has a result, so has another; then one walk has results that go with those of
the other. -/
theorem exists_mapM_of_mapM {γ : Type} {f : α → Except ε β} {g : α → Except ε γ} {R : β → γ → Prop}
    (h : ∀ x y, f x = .ok y → ∃ z, g x = .ok z ∧ R y z) {xs : List α} {ys : List β}
    (hf : xs.mapM f = .ok ys) : ∃ zs, xs.mapM g = .ok zs ∧ List.Forall₂ R ys zs := by
  induction xs generalizing ys with
  | nil =>
    obtain rfl := Except.ok.inj hf
    exact ⟨[], rfl, .nil⟩
  | cons x xs ih =>
    simp only [List.mapM_cons, bind_eq_ok, pure_eq_ok] at hf
    obtain ⟨y, hy, ys, hys, rfl⟩ := hf
    obtain ⟨z, hz, hyz⟩ := h x y hy
    obtain ⟨zs, hzs, hall⟩ := ih hys
    refine ⟨z :: zs, ?_, .cons hyz hall⟩
    rw [List.mapM_cons, hz, hzs]
    rfl

/-- Outcomes that fail with one error, or give what is related. -/
inductive Alike {ε α β : Type} (R : α → β → Prop) : Except ε α → Except ε β → Prop
  | ok {a : α} {b : β} (h : R a b) : Alike R (.ok a) (.ok b)
  | error (e : ε) : Alike R (.error e) (.error e)

namespace Alike

variable {ε α β γ δ : Type} {R : α → β → Prop} {S : γ → δ → Prop}

theorem refl (x : Except ε α) : Alike Eq x x := by
  cases x with
  | ok a => exact .ok rfl
  | error e => exact .error e

theorem bind {x : Except ε α} {y : Except ε β} {f : α → Except ε γ} {g : β → Except ε δ}
    (h : Alike R x y) (hf : ∀ a b, R a b → Alike S (f a) (g b)) : Alike S (x >>= f) (y >>= g) := by
  cases h with
  | ok h => exact hf _ _ h
  | error e => exact .error e

theorem map_eq {f : α → γ} {x y : Except ε α} (h : Alike (fun a b => f a = f b) x y) :
    x.map f = y.map f := by
  cases h with
  | ok h => exact congrArg Except.ok h
  | error e => rfl

end Alike

end SqlFragment
