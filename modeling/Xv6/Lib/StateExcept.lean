import Mathlib.Logic.Basic
import Mathlib.Order.Defs.Unbundled

/-!
# State-and-error computations

Lemmas for running a computation of `StateT σ (Except ε)` on a state: how the
results of `pure`, `throw`, `get`, `set`, `modify` and bind look, and the
inversion of a bind that returned.  They let a proof about a function of that
monad follow the function's own `do` block step by step.
-/

namespace StateExcept

variable {σ ε α β : Type}

@[simp] theorem pure_eq_ok (a : α) : (pure a : Except ε α) = .ok a := rfl

@[simp] theorem ok_bind (a : α) (f : α → Except ε β) : (Except.ok a >>= f) = f a := rfl

@[simp] theorem error_bind (e : ε) (f : α → Except ε β) :
    (Except.error e >>= f) = .error e := rfl

@[simp] theorem throw_eq_error (e : ε) : (throw e : Except ε α) = .error e := rfl

@[simp] theorem run_throw (e : ε) (s : σ) :
    (throw e : StateT σ (Except ε) α).run s = .error e := rfl

@[simp] theorem run_pure_eq_ok {a b : α} {s s' : σ} :
    (pure a : StateT σ (Except ε) α).run s = .ok (b, s') ↔ a = b ∧ s = s' := by
  simp [StateT.run_pure, pure_eq_ok]

/-- A bind returned exactly when its first part returned and the rest returned
from there. -/
theorem bind_eq_ok {x : Except ε α} {f : α → Except ε β} {b : β} :
    x >>= f = .ok b ↔ ∃ a, x = .ok a ∧ f a = .ok b := by
  cases x <;> simp

theorem run_bind_eq_ok {x : StateT σ (Except ε) α} {f : α → StateT σ (Except ε) β}
    {s s'' : σ} {b : β} :
    (x >>= f).run s = .ok (b, s'') ↔
      ∃ a s', x.run s = .ok (a, s') ∧ (f a).run s' = .ok (b, s'') := by
  rw [StateT.run_bind, bind_eq_ok]
  constructor
  · rintro ⟨⟨a, s'⟩, hx, hf⟩
    exact ⟨a, s', hx, hf⟩
  · rintro ⟨a, s', hx, hf⟩
    exact ⟨(a, s'), hx, hf⟩

theorem run_map_eq_ok {x : StateT σ (Except ε) α} {g : α → β} {s s' : σ} {b : β}
    (h : (g <$> x).run s = .ok (b, s')) : ∃ a, x.run s = .ok (a, s') ∧ g a = b := by
  rw [StateT.run_map] at h
  cases hx : x.run s with
  | error e =>
    rw [hx] at h
    cases h
  | ok res =>
    rw [hx] at h
    obtain ⟨hb, hs⟩ := Prod.mk.inj (Except.ok.inj h)
    exact ⟨res.1, by rw [← hs], hb⟩

/-- A bind panicked exactly when its first part panicked, or returned and the
rest panicked from there. -/
theorem run_bind_eq_error {x : StateT σ (Except ε) α} {f : α → StateT σ (Except ε) β}
    {s : σ} {e : ε} :
    (x >>= f).run s = .error e ↔
      x.run s = .error e ∨ ∃ a s', x.run s = .ok (a, s') ∧ (f a).run s' = .error e := by
  rw [StateT.run_bind]
  cases x.run s with
  | error e' => simp
  | ok p =>
    obtain ⟨a, s'⟩ := p
    simp only [ok_bind, reduceCtorEq, Except.ok.injEq, Prod.mk.injEq, false_or]
    constructor
    · intro h
      exact ⟨a, s', ⟨rfl, rfl⟩, h⟩
    · rintro ⟨a, s', ⟨rfl, rfl⟩, h⟩
      exact h

/-- Whether a run returned, with a result and a state that pass `p`.  A
counterexample computes a run once, as a Boolean, and takes its facts from
this test. -/
def returnsWith (r : Except ε (α × σ)) (p : α → σ → Bool) : Bool :=
  match r with
  | .ok (a, s) => p a s
  | .error _ => false

theorem exists_of_returnsWith {r : Except ε (α × σ)} {p : α → σ → Bool}
    (h : returnsWith r p = true) : ∃ a s, r = .ok (a, s) ∧ p a s = true := by
  cases r with
  | error m => simp [returnsWith] at h
  | ok res =>
    obtain ⟨a, s⟩ := res
    exact ⟨a, s, rfl, h⟩

/-! ## Frame rules -/

/-- Every run of `m` that returns relates its first and last state by `R`. -/
def Keeps (R : σ → σ → Prop) (m : StateT σ (Except ε) α) : Prop :=
  ∀ s a s', m.run s = .ok (a, s') → R s s'

section Keeps

variable {R : σ → σ → Prop}

theorem keeps_pure [IsPreorder σ R] (a : α) : Keeps R (pure a : StateT σ (Except ε) α) := by
  intro s b s' h
  rw [run_pure_eq_ok] at h
  rw [← h.2]
  exact refl_of R s

theorem keeps_get [IsPreorder σ R] : Keeps R (get : StateT σ (Except ε) σ) := by
  intro s b s' h
  simp only [StateT.run_get, pure_eq_ok, Except.ok.injEq, Prod.mk.injEq] at h
  rw [← h.2]
  exact refl_of R s

theorem keeps_modify {f : σ → σ} (hf : ∀ s, R s (f s)) :
    Keeps R (modify f : StateT σ (Except ε) Unit) := by
  intro s b s' h
  simp only [StateT.run_modify, pure_eq_ok, Except.ok.injEq, Prod.mk.injEq] at h
  rw [← h.2]
  exact hf s

theorem keeps_throw (e : ε) : Keeps R (throw e : StateT σ (Except ε) α) := by
  intro s b s' h
  simp at h

theorem keeps_ite {c : Prop} [Decidable c] {t e : StateT σ (Except ε) α} (ht : Keeps R t)
    (he : Keeps R e) : Keeps R (if c then t else e) := by
  split
  · exact ht
  · exact he

theorem keeps_bind [IsPreorder σ R] {m : StateT σ (Except ε) α} {f : α → StateT σ (Except ε) β}
    (hm : Keeps R m) (hf : ∀ a, Keeps R (f a)) : Keeps R (m >>= f) := by
  intro s b s'' h
  obtain ⟨a, s', hrun, hrest⟩ := run_bind_eq_ok.mp h
  exact trans_of R (hm s a s' hrun) (hf a s' b s'' hrest)

theorem Keeps.mono {R' : σ → σ → Prop} {m : StateT σ (Except ε) α} (h : Keeps R m)
    (hR : ∀ s s', R s s' → R' s s') : Keeps R' m :=
  fun s a s' hrun => hR s s' (h s a s' hrun)

theorem keeps_map [IsPreorder σ R] {m : StateT σ (Except ε) α} (g : α → β) (hm : Keeps R m) :
    Keeps R (g <$> m) := by
  rw [map_eq_pure_bind]
  exact keeps_bind hm fun a => keeps_pure _

end Keeps

end StateExcept
