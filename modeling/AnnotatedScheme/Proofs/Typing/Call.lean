import AnnotatedScheme.Proofs.Typing.Rule

/-!
# The calls of a check

The type of an expression can depend on where the supply stands when it is computed. A `Call` is an
expression together with the environment and the supply for it:

* `Call.Yields`    the call computes a type;
* `Call.Makes i`   the call for the part number `i` of the expression, from the supply that the
                   parts before it leave; there is one at most (`Call.Makes.unique`);
* `Call.Reaches`   all calls inside of a call.

A call that yields a type makes a call for every part, and they yield types as well
(`Call.Yields.makes`), so that everything within the expression is reached.
-/

namespace AnnotatedScheme

structure Call where
  env : Env
  exp : Exp
  supply : Supply

namespace Runs

variable {cs : List (Env × Exp)} {ts us : List Ty} {s s' s'' : Supply}

theorem unique (h : Runs cs s ts s') (h' : Runs cs s us s'') : ts = us ∧ s' = s'' := by
  induction h generalizing us with
  | nil =>
    obtain ⟨rfl, rfl⟩ := nil_iff.mp h'
    exact ⟨rfl, rfl⟩
  | cons head _ ih =>
    obtain ⟨u, us, s₁, rfl, head', tail'⟩ := cons_left_iff.mp h'
    obtain ⟨rfl, rfl⟩ := EStateM.Result.ok.inj (head.symm.trans head')
    obtain ⟨rfl, rfl⟩ := ih tail'
    exact ⟨rfl, rfl⟩

/-- the check number `i` of a run, with the runs in front of it and behind it -/
theorem check (h : Runs cs s ts s') {i : Nat} {env : Env} {e : Exp}
    (hi : cs[i]? = some (env, e)) :
    ∃ t s₁ s₂, ts[i]? = some t ∧ Runs (cs.take i) s (ts.take i) s₁ ∧
      e.typeOf env s₁ = .ok t s₂ ∧ Runs (cs.drop (i + 1)) s₂ (ts.drop (i + 1)) s' := by
  induction h generalizing i with
  | nil => simp at hi
  | @cons env' e' t s s₁ s' rest ts head tail ih =>
    cases i with
    | zero =>
      obtain ⟨rfl, rfl⟩ := Prod.mk.inj (Option.some.inj hi)
      exact ⟨t, s, s₁, rfl, .nil s, head, tail⟩
    | succ i =>
      obtain ⟨u, s₂, s₃, hu, front, hcheck, back⟩ := ih hi
      exact ⟨u, s₂, s₃, hu, .cons head front, hcheck, back⟩

end Runs

namespace Call

open Exp

def Yields (c : Call) (t : Ty) : Prop := ∃ s', c.exp.typeOf c.env c.supply = .ok t s'

/-- the call that `typeIn` starts with -/
def start (env : Env) (e : Exp) : Call := ⟨env, e, .start (e.names ++ env.names)⟩

def Makes (c : Call) (i : Nat) (c' : Call) : Prop :=
  (c.exp.checks c.env)[i]? = some (c'.env, c'.exp) ∧
    ∃ ts, Runs ((c.exp.checks c.env).take i) c.supply ts c'.supply

inductive Reaches : Call → Call → Prop
  | refl (c : Call) : Reaches c c
  | step {c next c' : Call} {i : Nat} (h : c.Makes i next) (reach : Reaches next c') : Reaches c c'

variable {c c' c'' : Call} {i : Nat} {t u : Ty}

theorem Yields.unique (h : c.Yields t) (h' : c.Yields u) : t = u := by
  obtain ⟨_, h⟩ := h
  obtain ⟨_, h'⟩ := h'
  exact (EStateM.Result.ok.inj (h.symm.trans h')).1

theorem Makes.unique (h : c.Makes i c') (h' : c.Makes i c'') : c' = c'' := by
  obtain ⟨hcheck, ts, runs⟩ := h
  obtain ⟨hcheck', us, runs'⟩ := h'
  obtain ⟨-, hsupply⟩ := runs.unique runs'
  obtain ⟨henv, hexp⟩ := Prod.mk.inj (Option.some.inj (hcheck.symm.trans hcheck'))
  cases c'
  cases c''
  exact (Call.mk.injEq ..).mpr ⟨henv, hexp, hsupply⟩

theorem start_yields_iff {env : Env} {e : Exp} : (start env e).Yields t ↔ e.typeIn env = .ok t := by
  rw [typeIn, Check.outcome, EStateM.run, Yields, start]
  cases e.typeOf env (.start (e.names ++ env.names)) <;> simp

/-- The checks in a successful one run through. -/
theorem Yields.runs (h : c.Yields t) : ∃ ts s', Runs (c.exp.checks c.env) c.supply ts s' := by
  obtain ⟨s', h⟩ := h
  rcases primitive_or_not c.exp with ⟨name, hname⟩ | hprim
  · rw [hname]
    exact ⟨[], c.supply, .nil _⟩
  · obtain ⟨ts, runs, -⟩ := (typeOf_eq_ok_iff hprim).mp h
    exact ⟨ts, s', runs⟩

theorem makes_of_runs {ts : List Ty} {s' : Supply}
    (runs : Runs (c.exp.checks c.env) c.supply ts s') {part : Exp}
    (hpart : c.exp.parts[i]? = some part) :
    ∃ c' t, c.Makes i c' ∧ c'.exp = part ∧ ts[i]? = some t ∧ c'.Yields t := by
  rw [← map_snd_checks c.env, List.getElem?_map, Option.map_eq_some_iff] at hpart
  obtain ⟨⟨env, e⟩, hcheck, rfl⟩ := hpart
  obtain ⟨t, s₁, s₂, ht, front, hyields, -⟩ := runs.check hcheck
  exact ⟨⟨env, e, s₁⟩, t, ⟨hcheck, _, front⟩, rfl, ht, s₂, hyields⟩

theorem Yields.makes (h : c.Yields t) {part : Exp} (hpart : c.exp.parts[i]? = some part) :
    ∃ c' u, c.Makes i c' ∧ c'.exp = part ∧ c'.Yields u := by
  obtain ⟨ts, s', runs⟩ := h.runs
  obtain ⟨c', u, hmakes, hexp, -, hyields⟩ := makes_of_runs runs hpart
  exact ⟨c', u, hmakes, hexp, hyields⟩

theorem Makes.part (h : c.Makes i c') : c.exp.parts[i]? = some c'.exp := by
  rw [← map_snd_checks c.env, List.getElem?_map, h.1]
  rfl

theorem Makes.yields (h : c.Makes i c') (hc : c.Yields t) : ∃ u, c'.Yields u := by
  obtain ⟨next, u, hnext, -, hyields⟩ := hc.makes h.part
  exact ⟨u, h.unique hnext ▸ hyields⟩

/-- Every call inside of a successful one is successful. -/
theorem Reaches.yields (reach : c.Reaches c') (h : c.Yields t) : ∃ u, c'.Yields u := by
  induction reach generalizing t with
  | refl => exact ⟨t, h⟩
  | step hmakes _ ih =>
    obtain ⟨u, hu⟩ := hmakes.yields h
    exact ih hu

theorem Reaches.within (reach : c.Reaches c') : Within c'.exp c.exp := by
  induction reach with
  | refl => exact .refl
  | step hmakes _ ih => exact .part (List.mem_of_getElem? hmakes.part) ih

/-- A successful call reaches all that is within its expression. -/
theorem Yields.reaches (h : c.Yields t) {part : Exp} (within : Within part c.exp) :
    ∃ c', c.Reaches c' ∧ c'.exp = part := by
  -- the induction goes down from the whole, and the call goes along
  generalize hexp : c.exp = whole at within
  induction within generalizing c t with
  | refl => exact ⟨c, .refl c, hexp⟩
  | @part next whole hnext _ ih =>
    subst hexp
    obtain ⟨i, hi⟩ := List.mem_iff_getElem?.mp hnext
    obtain ⟨c₁, u, hmakes, hexp, hyields⟩ := h.makes hi
    obtain ⟨c', reach, hc'⟩ := ih hyields hexp
    exact ⟨c', .step hmakes reach, hc'⟩

end Call

end AnnotatedScheme
