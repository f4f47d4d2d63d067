import AnnotatedScheme.Proofs.Ty.Calls
import AnnotatedScheme.Proofs.Typing.Outcome

/-!
# What a check draws

The supply that a check leaves, whether it fails or not, is the one that calls on some bases leave
(`Check.Draws`). So names can be drawn before, between and behind checks on one supply: all that is
returned is still different, and not reserved (`fresh_names_distinct`).
-/

namespace AnnotatedScheme

open Supply

namespace Check

variable {α β : Type}

/-! ## checks as calls -/

/-- whatever comes out, the supply is the one that some calls leave -/
def Draws (check : Check α) : Prop := ∀ s, ∃ bases, (check.outcome s).2 = (freshEach bases s).2

theorem outcome_bind (check : Check α) (next : α → Check β) (s : Supply) :
    (check >>= next).outcome s =
      match check.outcome s with
      | (.ok a, s₁) => (next a).outcome s₁
      | (.error e, s₁) => (.error e, s₁) := by
  show outcome (EStateM.bind check next) s = _
  unfold outcome EStateM.run EStateM.bind
  cases check s <;> rfl

namespace Draws

theorem pure (a : α) : Draws (Pure.pure a : Check α) := fun _ => ⟨[], rfl⟩

theorem throw (e : TypingError) : Draws (MonadExcept.throw e : Check α) := fun _ => ⟨[], rfl⟩

theorem bind {check : Check α} {next : α → Check β} (h : check.Draws)
    (hnext : ∀ a, (next a).Draws) : (check >>= next).Draws := by
  intro s
  obtain ⟨bases, hs⟩ := h s
  rw [outcome_bind]
  cases hcheck : check.outcome s with
  | mk result s₁ =>
    rw [hcheck] at hs
    cases result with
    | error e => exact ⟨bases, hs⟩
    | ok a =>
      obtain ⟨more, hs₁⟩ := hnext a s₁
      refine ⟨bases ++ more, ?_⟩
      rw [freshEach_append]
      exact hs ▸ hs₁

theorem discarded {check : Check α} (h : check.Draws) : (discard check).Draws := by
  intro s
  obtain ⟨bases, hs⟩ := h s
  refine ⟨bases, ?_⟩
  rw [← hs]
  show (outcome (EStateM.map (fun _ => ()) check) s).2 = _
  unfold outcome EStateM.run EStateM.map
  cases check s <;> rfl

theorem ofExcept (x : Except TypingError α) : (Check.ofExcept x).Draws := by
  cases x with
  | ok a => exact .pure a
  | error e => exact .throw e

theorem requireEqual (left right : Ty) (site : Exp) :
    (Check.requireEqual left right site).Draws :=
  .ofExcept _

theorem declare (decl : Exp) (t : Ty) (site : Exp) : (Check.declare decl t site).Draws := by
  unfold Check.declare
  split
  · exact .throw _
  · exact (requireEqual _ _ _).bind fun _ => .pure _

/-- The step: a type with variables draws on each of them. -/
theorem instantiate (t : Ty) : (Check.instantiate t).Draws := fun _ => ⟨t.names.eraseDups, rfl⟩

end Draws

end Check

/-! ## expressions -/

namespace Exp

open Check (Draws)

theorem draws_typeOfPrimitive (name : String) : (typeOfPrimitive name).Draws := by
  unfold typeOfPrimitive
  split
  · exact .instantiate _
  · exact .throw _

mutual
theorem draws_typeOf (env : Env) : (e : Exp) → (typeOf env e).Draws
  | .number _ | .boolean _ | .string _ => .pure _
  | .primitive name => draws_typeOfPrimitive name
  | .var name => by
    rw [typeOf]
    split
    · exact .pure _
    · exact .throw _
  | .conditional test consequent alternative => by
    rw [typeOf]
    refine (draws_typeOf env test).bind fun _ => (Draws.requireEqual _ _ _).bind fun _ => ?_
    refine (draws_typeOf env consequent).bind fun _ => ?_
    refine (draws_typeOf env alternative).bind fun _ => ?_
    exact (Draws.requireEqual _ _ _).bind fun _ => .pure _
  | .lambda params result body => by
    rw [typeOf]
    split
    · exact .throw _
    · refine (draws_typeOfBody _ body).bind fun _ => ?_
      exact (Draws.requireEqual _ _ _).bind fun _ => .pure _
  | .app operator operands => by
    rw [typeOf]
    split
    · exact draws_typeOfCons env _ operands
    · exact draws_typeOfAccess env _ _ operands
    · refine (draws_typeOf env operator).bind fun t => ?_
      split
      · rename_i params result
        have hoperands : Draws (checkOperands env (.app operator operands) operands params >>=
            fun _ => pure result) :=
          (draws_checkOperands env _ operands params).bind fun _ => .pure _
        split
        · exact (Draws.throw _).bind fun _ => hoperands
        · exact hoperands
      · exact .throw _
  | .letIn bindings body => by
    rw [typeOf]
    exact (draws_frameOfLet env _ bindings).bind fun _ => draws_typeOfBody _ body
  | .letrec bindings body => by
    rw [typeOf]
    split
    · exact .throw _
    · exact (draws_checkLambdas _ _ bindings).bind fun _ => draws_typeOfBody _ body
  | .quote value => .ofExcept _
  | .define d value => by
    rw [typeOf]
    refine (draws_typeOf env value).bind fun _ => ?_
    exact (Draws.declare _ _ _).discarded.bind fun _ => .pure _
  | .program forms => draws_typeOfForms env forms
  | .decl _ _ | .binding _ _ | .gap => .throw _
termination_by structural x => x

theorem draws_typeOfBody (env : Env) : (es : List Exp) → (typeOfBody env es).Draws
  | [] => .throw _
  | e :: rest => by
    rw [typeOfBody]
    refine (draws_typeOf env e).bind fun _ => ?_
    split
    · exact .pure _
    · exact draws_typeOfBody env rest
termination_by structural x => x

theorem draws_typeOfForms (env : Env) : (es : List Exp) → (typeOfForms env es).Draws
  | [] => .throw _
  | e :: rest => by
    rw [typeOfForms]
    refine (draws_typeOf env e).bind fun _ => (Draws.ofExcept _).bind fun _ => ?_
    split
    · exact .pure _
    · exact draws_typeOfForms _ rest
termination_by structural x => x

theorem draws_typeOfCons (env : Env) (site : Exp) :
    (es : List Exp) → (typeOfCons env site es).Draws
  | [] | [_] => .throw _
  | [first, second] => by
    rw [typeOfCons]
    exact (draws_typeOf env first).bind fun _ => (draws_typeOf env second).bind fun _ => .pure _
  | _ :: _ :: _ :: _ => .throw _
termination_by structural x => x

theorem draws_typeOfAccess (env : Env) (access : PairOperator) (site : Exp) :
    (es : List Exp) → (typeOfAccess env access site es).Draws
  | [] => .throw _
  | [operand] => by
    rw [typeOfAccess]
    refine (draws_typeOf env operand).bind fun _ => ?_
    split
    · exact .pure _
    · exact .throw _
  | _ :: _ :: _ => .throw _
termination_by structural x => x

theorem draws_checkOperands (env : Env) (site : Exp) :
    (es : List Exp) → (params : List Ty) → (checkOperands env site es params).Draws
  | e :: operands, t :: params => by
    rw [checkOperands]
    refine (draws_typeOf env e).bind fun _ => (Draws.requireEqual _ _ _).bind fun _ => ?_
    exact draws_checkOperands env site operands params
  | [], _ | _ :: _, [] => .pure _
termination_by structural x => x

theorem draws_frameOfLet (env : Env) (site : Exp) :
    (es : List Exp) → (frameOfLet env site es).Draws
  | [] => .pure _
  | e :: rest => by
    cases e with
    | binding d value =>
      rw [frameOfLet]
      refine (draws_typeOf env value).bind fun _ => (Draws.declare _ _ _).bind fun _ => ?_
      exact (draws_frameOfLet env site rest).bind fun _ => .pure _
    | define d value =>
      rw [frameOfLet]
      refine (draws_typeOf env value).bind fun _ => (Draws.declare _ _ _).bind fun _ => ?_
      exact (draws_frameOfLet env site rest).bind fun _ => .pure _
    | quote value => cases value <;> exact .throw _
    | _ => exact .throw _
termination_by structural x => x

theorem draws_checkLambdas (env : Env) (site : Exp) :
    (es : List Exp) → (checkLambdas env site es).Draws
  | [] => .pure _
  | e :: rest => by
    cases e with
    | binding d value =>
      rw [checkLambdas]
      exact (draws_checkLambda env site value).bind fun _ => draws_checkLambdas env site rest
    | define d value =>
      rw [checkLambdas]
      exact (draws_checkLambda env site value).bind fun _ => draws_checkLambdas env site rest
    | _ => exact draws_checkLambdas env site rest
termination_by structural x => x

theorem draws_checkLambda (env : Env) (site : Exp) : (e : Exp) → (checkLambda env site e).Draws
  | .lambda params result body => by
    rw [checkLambda]
    split
    · exact .throw _
    · exact (draws_typeOfBody _ body).bind fun _ => .requireEqual _ _ _
  | .number _ | .boolean _ | .string _ | .primitive _ | .var _ | .conditional _ _ _ | .app _ _
  | .letIn _ _ | .letrec _ _ | .quote _ | .define _ _ | .program _ | .decl _ _ | .binding _ _
  | .gap => .pure _
termination_by structural x => x
end

end Exp

/-! ## names for a caller -/

/-- From a supply, a caller asks for names, and has expressions checked in between, whatever comes
out of that. The names are those that the caller is given. -/
inductive Uses : Supply → List String → Supply → Prop
  | nil (s : Supply) : Uses s [] s
  | call {s s' : Supply} {names : List String} (base : String)
      (rest : Uses (s.fresh base).2 names s') : Uses s ((s.fresh base).1 :: names) s'
  | check {s s' : Supply} {names : List String} (env : Env) (e : Exp)
      (rest : Uses ((e.typeOf env).outcome s).2 names s') : Uses s names s'

/-- The names for the caller are some of those that calls return. -/
theorem Uses.exists_calls {s s' : Supply} {names : List String} (h : Uses s names s') :
    ∃ bases all, names.Sublist all ∧ Calls s bases all s' := by
  induction h with
  | nil s => exact ⟨[], [], .slnil, .nil s⟩
  | @call s s' names base rest ih =>
    obtain ⟨bases, all, hsub, hcalls⟩ := ih
    refine ⟨base :: bases, (s.fresh base).1 :: all, hsub.cons_cons _, ?_⟩
    exact .cons (search_freeIndex base s.reserved s.next) hcalls
  | @check s s' names env e rest ih =>
    obtain ⟨bases, all, hsub, hcalls⟩ := ih
    obtain ⟨bases', hcheck⟩ := Exp.draws_typeOf env e s
    rw [hcheck] at hcalls
    exact ⟨_, _, hsub.trans (List.sublist_append_right _ all),
      (calls_freshEach bases' s).append hcalls⟩

/-- All names drawn from one supply are different. Calls on any bases end, in one way, with names
that are not reserved and all different, and the index has grown by one a call and by one for each
reserved name at most. Checks in between, failed ones too, change nothing about that. -/
theorem fresh_names_distinct (reserved : List String) :
    (∀ bases, (∀ names s', Calls (start reserved) bases names s' ↔
        names = (freshEach bases (start reserved)).1.map Prod.snd ∧
          s' = (freshEach bases (start reserved)).2) ∧
      (∀ name ∈ (freshEach bases (start reserved)).1.map Prod.snd, name ∉ reserved) ∧
      ((freshEach bases (start reserved)).1.map Prod.snd).Nodup ∧
      (freshEach bases (start reserved)).2.next ≤ 1 + bases.length + reserved.toFinset.card) ∧
    ∀ names s', Uses (start reserved) names s' →
      (∀ name ∈ names, name ∉ reserved) ∧ names.Nodup ∧
        ∃ bases all, names.Sublist all ∧ Calls (start reserved) bases all s' := by
  have hnames : ∀ bases names s', Calls (start reserved) bases names s' →
      (∀ name ∈ names, name ∉ reserved) ∧ names.Nodup := by
    intro bases names s' h
    exact ⟨fun name hname => (h.drawn name hname).1, h.nodup⟩
  refine ⟨fun bases => ⟨fun names s' => calls_iff, ?_⟩, fun names s' h => ?_⟩
  · have hcalls := calls_freshEach bases (start reserved)
    obtain ⟨hreserved, hnodup⟩ := hnames _ _ _ hcalls
    have hcost := hcalls.cost
    have hahead : (ahead reserved 1).card ≤ reserved.toFinset.card := Finset.card_filter_le _ _
    refine ⟨hreserved, hnodup, ?_⟩
    dsimp only [start] at hcost ⊢
    omega
  · obtain ⟨bases, all, hsub, hcalls⟩ := h.exists_calls
    obtain ⟨hreserved, hnodup⟩ := hnames _ _ _ hcalls
    exact ⟨fun name hname => hreserved name (hsub.subset hname), hnodup.sublist hsub,
      bases, all, hsub, hcalls⟩

end AnnotatedScheme
