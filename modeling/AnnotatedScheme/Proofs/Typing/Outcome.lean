import AnnotatedScheme.Typing.Checker

/-!
# Outcomes of checks

`check s = .ok a s'` says that a check succeeds from the supply `s`, with the result `a`, and leaves
the supply `s'`. Each way to put checks together gets the equivalence that takes it apart.

`Check.Ensures p q check` says what holds of both outcomes: a result has `p`, an error has `q`. It
goes through a check step by step.
-/

namespace AnnotatedScheme

namespace Check

variable {α β : Type}

/-- the result of a check that succeeds, and the supply that it leaves -/
def run? (check : Check α) (s : Supply) : Option (α × Supply) :=
  match check s with
  | .ok a s' => some (a, s')
  | .error _ _ => none

theorem run?_eq_some_iff {check : Check α} {s s' : Supply} {a : α} :
    run? check s = some (a, s') ↔ check s = .ok a s' := by
  unfold run?
  cases check s <;> simp

theorem bind_eq_ok_iff {check : Check α} {next : α → Check β} {s s' : Supply} {b : β} :
    (check >>= next) s = .ok b s' ↔ ∃ a s₁, check s = .ok a s₁ ∧ next a s₁ = .ok b s' := by
  show EStateM.bind check next s = _ ↔ _
  unfold EStateM.bind
  cases h : check s with
  | ok a s₁ =>
    refine ⟨fun hnext => ⟨a, s₁, rfl, hnext⟩, fun h => ?_⟩
    obtain ⟨_, _, ⟨rfl, rfl⟩, hnext⟩ := h
    exact hnext
  | error e s₁ => simp

theorem pure_eq_ok_iff {a b : α} {s s' : Supply} :
    (pure a : Check α) s = .ok b s' ↔ a = b ∧ s = s' := by
  show EStateM.Result.ok a s = _ ↔ _
  simp

theorem discard_eq_ok_iff {check : Check α} {u : Unit} {s s' : Supply} :
    discard check s = .ok u s' ↔ ∃ a, check s = .ok a s' := by
  show EStateM.map (fun _ => ()) check s = _ ↔ _
  unfold EStateM.map
  cases check s with
  | ok a s₁ => simp
  | error e s₁ => simp

theorem throw_ne_ok {e : TypingError} {a : α} {s s' : Supply} :
    ¬ (throw e : Check α) s = .ok a s' := nofun

theorem ofExcept_eq_ok_iff {x : Except TypingError α} {a : α} {s s' : Supply} :
    ofExcept x s = .ok a s' ↔ x = .ok a ∧ s = s' := by
  cases x with
  | ok b => simp [ofExcept, pure_eq_ok_iff]
  | error e => simp [ofExcept, throw_ne_ok]

theorem requireEqual_eq_ok_iff {left right : Ty} {site : Exp} {u : Unit} {s s' : Supply} :
    requireEqual left right site s = .ok u s' ↔ left = right ∧ s = s' := by
  rw [requireEqual, ofExcept_eq_ok_iff, AnnotatedScheme.requireEqual_eq_ok_iff]

theorem declare_eq_ok_iff {decl site : Exp} {t : Ty} {entry : String × Ty} {s s' : Supply} :
    declare decl t site s = .ok entry s' ↔ decl.declared? = some entry ∧ entry.2 = t ∧ s = s' := by
  unfold declare
  cases h : decl.declared? with
  | none => simp [throw_ne_ok]
  | some p =>
    simp only [bind_eq_ok_iff, requireEqual_eq_ok_iff, pure_eq_ok_iff, Option.some.injEq]
    refine ⟨fun h => ?_, fun h => ?_⟩
    · obtain ⟨_, _, ⟨rfl, rfl⟩, rfl, rfl⟩ := h
      exact ⟨rfl, rfl, rfl⟩
    · obtain ⟨rfl, rfl, rfl⟩ := h
      exact ⟨(), _, ⟨rfl, rfl⟩, rfl, rfl⟩

/-! ## both outcomes -/

/-- from every supply, a result has `p` and an error has `q` -/
def Ensures (p : α → Prop) (q : TypingError → Prop) (check : Check α) : Prop :=
  ∀ s, match check s with
    | .ok a _ => p a
    | .error e _ => q e

namespace Ensures

variable {p : α → Prop} {r : β → Prop} {q : TypingError → Prop}

theorem bind {check : Check α} {next : α → Check β} (h : Ensures p q check)
    (hnext : ∀ a, p a → Ensures r q (next a)) : Ensures r q (check >>= next) := by
  intro s
  have hs := h s
  show match EStateM.bind check next s with | .ok b _ => r b | .error e _ => q e
  unfold EStateM.bind
  cases hcheck : check s with
  | ok a s₁ =>
    rw [hcheck] at hs
    exact hnext a hs s₁
  | error e s₁ =>
    rw [hcheck] at hs
    exact hs

theorem pure {a : α} (h : p a) : Ensures p q (Pure.pure a : Check α) := fun _ => h

theorem throw {e : TypingError} (h : q e) : Ensures p q (MonadExcept.throw e : Check α) :=
  fun _ => h

theorem ofExcept {x : Except TypingError α} (hok : ∀ a, x = .ok a → p a)
    (herror : ∀ e, x = .error e → q e) : Ensures p q (Check.ofExcept x) := by
  cases x with
  | ok a => exact .pure (hok a rfl)
  | error e => exact .throw (herror e rfl)

theorem requireEqual {left right : Ty} {site : Exp} (h : q (.incompatible left right site)) :
    Ensures (fun _ => True) q (Check.requireEqual left right site) := by
  refine .ofExcept (fun _ _ => trivial) fun e he => ?_
  unfold AnnotatedScheme.requireEqual at he
  split at he
  · cases he
  · exact Except.error.inj he ▸ h

theorem declare {decl site : Exp} {entry : String × Ty} {t : Ty} (hd : decl.declared? = some entry)
    (h : q (.incompatible entry.2 t site)) :
    Ensures (· = entry) q (Check.declare decl t site) := by
  rw [Check.declare, hd]
  exact (requireEqual h).bind fun _ _ => .pure rfl

theorem discarded {check : Check α} (h : Ensures p q check) :
    Ensures (fun _ => True) q (discard check) := by
  intro s
  have hs := h s
  have hdiscard : discard check s = EStateM.map (fun _ => ()) check s := rfl
  rw [hdiscard, EStateM.map]
  cases hcheck : check s with
  | ok a s₁ => trivial
  | error e s₁ =>
    rw [hcheck] at hs
    exact hs

end Ensures

end Check

end AnnotatedScheme
