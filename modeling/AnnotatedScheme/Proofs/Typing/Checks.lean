import AnnotatedScheme.Proofs.Exp.Nodes
import AnnotatedScheme.Proofs.Typing.Outcome

/-!
# The checks inside of a check

To type an expression, the expressions in it are typed, each in an environment of its own:

* `Exp.parts`    the expressions directly in an expression, in the order in which they are typed;
                 the operator `car`, `cdr` or `cons` of an application is not typed, and no part;
* `Exp.checks`   the parts with their environments, if every one of them has a type;
* `Exp.Within`   the parts, their parts and so on; `Exp.NoProgram` says that none is a program;
* `Runs`         expressions typed one after the other, each with the supply that the one before
                 it leaves.
-/

namespace AnnotatedScheme

/-! ## operators -/

namespace PairOperator

theorem ofExp?_eq_some_iff {e : Exp} {op : PairOperator} :
    ofExp? e = some op ↔ e = .primitive op.name := by
  refine ⟨fun h => ?_, fun h => ?_⟩
  · cases e with
    | primitive name =>
      simp only [ofExp?] at h
      split at h
      · cases h
        subst name
        rfl
      split at h
      · cases h
        subst name
        rfl
      split at h
      · cases h
        subst name
        rfl
      · cases h
    | _ => cases h
  · subst h
    cases op <;> rfl

theorem ofExp?_eq_none_iff {e : Exp} :
    ofExp? e = none ↔ ∀ name ∈ ["car", "cdr", "cons"], e ≠ .primitive name := by
  refine ⟨fun h name hname he => ?_, fun h => ?_⟩
  · subst he
    have hall : ∀ name ∈ ["car", "cdr", "cons"], (ofExp? (.primitive name)).isSome := by decide
    have hsome := hall name hname
    rw [h] at hsome
    cases hsome
  · cases hop : ofExp? e with
    | none => rfl
    | some op =>
      have hname : op.name ∈ ["car", "cdr", "cons"] := by cases op <;> decide
      exact absurd (ofExp?_eq_some_iff.mp hop) (h op.name hname)

end PairOperator

namespace Exp

/-! ## parts -/

/-- the values of bindings -/
def values (bindings : List Exp) : List Exp := bindings.filterMap fun b => b.bound?.map Prod.snd

def parts : Exp → List Exp
  | .conditional test consequent alternative => [test, consequent, alternative]
  | .lambda _ _ body => body
  | .app operator operands =>
    if (PairOperator.ofExp? operator).isSome then operands else operator :: operands
  | .letIn bindings body => values bindings ++ body
  | .letrec bindings body => values bindings ++ body
  | .define _ value => [value]
  | .program forms => forms
  | .number _ | .boolean _ | .string _ | .primitive _ | .var _ | .quote _ => []
  | .decl _ _ | .binding _ _ | .gap => []

/-- `part` is the whole, or in one of its parts -/
inductive Within (part : Exp) : Exp → Prop
  | refl : Within part part
  | part {next whole : Exp} (h : next ∈ whole.parts) (within : Within part next) :
      Within part whole

theorem mem_values_iff {bindings : List Exp} {value : Exp} :
    value ∈ values bindings ↔ ∃ b ∈ bindings, ∃ d, b.bound? = some (d, value) := by
  simp [values]

theorem mem_parts_app {part operator : Exp} {operands : List Exp}
    (h : part ∈ (Exp.app operator operands).parts) : part = operator ∨ part ∈ operands := by
  rw [parts] at h
  split at h
  · exact .inr h
  · exact List.mem_cons.mp h

theorem nodeOf_of_mem_values {bindings : List Exp} {value : Exp} (h : value ∈ values bindings) :
    ∃ b ∈ bindings, NodeOf value b := by
  obtain ⟨b, hb, d, hbound⟩ := mem_values_iff.mp h
  refine ⟨b, hb, .child ?_ .root⟩
  cases b with
  | binding | define =>
    obtain ⟨rfl, rfl⟩ := Prod.mk.inj (Option.some.inj hbound)
    simp [children]
  | _ => cases hbound

/-- a part is a child, or inside of one -/
theorem exists_child_of_mem_parts {part whole : Exp} (h : part ∈ whole.parts) :
    ∃ child ∈ whole.children, NodeOf part child := by
  cases whole with
  | conditional => exact ⟨part, h, .root⟩
  | lambda => exact ⟨part, List.mem_append_right _ h, .root⟩
  | app operator operands =>
    rcases mem_parts_app h with rfl | h
    · exact ⟨part, List.mem_cons_self, .root⟩
    · exact ⟨part, List.mem_cons_of_mem _ h, .root⟩
  | letIn bindings body | letrec bindings body =>
    rcases List.mem_append.mp h with h | h
    · obtain ⟨b, hb, below⟩ := nodeOf_of_mem_values h
      exact ⟨b, List.mem_append_left _ hb, below⟩
    · exact ⟨part, List.mem_append_right _ h, .root⟩
  | define d value => exact ⟨part, List.mem_cons_of_mem _ h, .root⟩
  | program => exact ⟨part, h, .root⟩
  | _ => exact absurd h List.not_mem_nil

theorem nodeOf_of_mem_parts {part whole : Exp} (h : part ∈ whole.parts) : NodeOf part whole := by
  obtain ⟨child, hchild, below⟩ := exists_child_of_mem_parts h
  exact .child hchild below

theorem Within.nodeOf {part whole : Exp} (h : Within part whole) : NodeOf part whole := by
  induction h with
  | refl => exact .root
  | part hnext _ ih => exact ih.trans (nodeOf_of_mem_parts hnext)

/-- induction on the parts of expressions -/
@[elab_as_elim]
theorem partsInduct {motive : Exp → Prop}
    (step : ∀ e : Exp, (∀ part ∈ e.parts, motive part) → motive e) (e : Exp) : motive e := by
  -- a part may lie deeper than the children, so the claim is for all nodes at once
  have hnodes : ∀ node, NodeOf node e → motive node := by
    induction e using childrenInduct with
    | step e ih =>
      intro node hnode
      cases hnode with
      | root =>
        refine step e fun part hpart => ?_
        obtain ⟨child, hchild, below⟩ := exists_child_of_mem_parts hpart
        exact ih child hchild part below
      | child hchild below => exact ih _ hchild node below
  exact hnodes e .root

/-! ### programs inside of expressions -/

/-- neither a program, nor is there one in the parts -/
def NoProgram (e : Exp) : Prop := ∀ forms, ¬ Within (.program forms) e

theorem NoProgram.part {e part : Exp} (h : e.NoProgram) (hpart : part ∈ e.parts) :
    part.NoProgram :=
  fun forms within => h forms (.part hpart within)

theorem NoProgram.ne {e : Exp} (h : e.NoProgram) (forms : List Exp) : e ≠ .program forms := by
  rintro rfl
  exact h forms .refl

theorem noProgram_of_parts {e : Exp} (h : ∀ forms, e ≠ .program forms)
    (hparts : ∀ part ∈ e.parts, part.NoProgram) : e.NoProgram := by
  intro forms within
  cases within with
  | refl => exact h forms rfl
  | part hpart within => exact hparts _ hpart forms within

theorem noProgram_leaf {e : Exp} (h : ∀ forms, e ≠ .program forms) (hparts : e.parts = []) :
    e.NoProgram := by
  refine noProgram_of_parts h ?_
  rw [hparts]
  exact List.forall_mem_nil _

/-! ## checks -/

/-- the variables that bindings declare, if each of them declares one -/
def boundFrame? (bindings : List Exp) : Option Frame :=
  bindings.mapM fun b => b.bound?.bind fun p => p.1.declared?

/-- the environment behind a form, which stays as it is if the form may not stand there -/
def behind (env : Env) (e : Exp) : Env :=
  match scopeBehind env e with
  | .ok env' => env'
  | .error _ => env

/-- the forms of a program, each in the environment behind the ones before it -/
def scopes (env : Env) : List Exp → List (Env × Exp)
  | [] => []
  | e :: rest => (env, e) :: scopes (behind env e) rest

def inEnv (env : Env) (es : List Exp) : List (Env × Exp) := es.map (Prod.mk env)

def checks (env : Env) : Exp → List (Env × Exp)
  | .conditional test consequent alternative => inEnv env [test, consequent, alternative]
  | .lambda params _ body => inEnv (env.extend ((frame? params).getD [])) body
  | .app operator operands =>
    inEnv env (if (PairOperator.ofExp? operator).isSome then operands else operator :: operands)
  | .letIn bindings body =>
    inEnv env (values bindings) ++ inEnv (env.extend ((boundFrame? bindings).getD [])) body
  | .letrec bindings body =>
    inEnv (env.extend ((lambdaFrame? bindings).getD [])) (values bindings ++ body)
  | .define _ value => inEnv env [value]
  | .program forms => scopes env forms
  | .number _ | .boolean _ | .string _ | .primitive _ | .var _ | .quote _ => []
  | .decl _ _ | .binding _ _ | .gap => []

theorem behind_of_ok {env env' : Env} {e : Exp} (h : scopeBehind env e = .ok env') :
    behind env e = env' := by
  rw [behind, h]

theorem behind_of_not_ok {env : Env} {e : Exp} (h : ¬∃ env', scopeBehind env e = .ok env') :
    behind env e = env := by
  unfold behind
  split
  · rename_i env' hscope
    exact absurd ⟨env', hscope⟩ h
  · rfl

theorem map_snd_inEnv (env : Env) (es : List Exp) : (inEnv env es).map Prod.snd = es := by
  rw [inEnv, List.map_map]
  exact List.map_id es

theorem map_snd_scopes (env : Env) (forms : List Exp) :
    (scopes env forms).map Prod.snd = forms := by
  induction forms generalizing env with
  | nil => rfl
  | cons e rest ih => rw [scopes, List.map_cons, ih]

theorem map_snd_checks (env : Env) (e : Exp) : (e.checks env).map Prod.snd = e.parts := by
  cases e <;> simp [checks, parts, map_snd_inEnv, map_snd_scopes]

theorem mem_parts_of_mem_checks {env : Env} {e : Exp} {c : Env × Exp} (h : c ∈ e.checks env) :
    c.2 ∈ e.parts :=
  map_snd_checks env e ▸ List.mem_map_of_mem h

end Exp

/-! ## runs -/

inductive Runs : List (Env × Exp) → Supply → List Ty → Supply → Prop
  | nil (s : Supply) : Runs [] s [] s
  | cons {env : Env} {e : Exp} {t : Ty} {s s₁ s' : Supply} {rest : List (Env × Exp)}
      {ts : List Ty} (head : e.typeOf env s = .ok t s₁) (tail : Runs rest s₁ ts s') :
      Runs ((env, e) :: rest) s (t :: ts) s'

namespace Runs
variable {cs ds : List (Env × Exp)} {ts us : List Ty} {s s' : Supply}

theorem cons_iff {env : Env} {e : Exp} {t : Ty} :
    Runs ((env, e) :: cs) s (t :: ts) s' ↔
      ∃ s₁, e.typeOf env s = .ok t s₁ ∧ Runs cs s₁ ts s' := by
  refine ⟨fun h => ?_, fun h => ?_⟩
  · cases h with
    | cons head tail => exact ⟨_, head, tail⟩
  · obtain ⟨s₁, head, tail⟩ := h
    exact .cons head tail

theorem nil_iff : Runs [] s ts s' ↔ ts = [] ∧ s = s' := by
  refine ⟨fun h => ?_, fun h => ?_⟩
  · cases h with
    | nil => exact ⟨rfl, rfl⟩
  · obtain ⟨rfl, rfl⟩ := h
    exact .nil s

theorem exists_nil_iff {p : List Ty → Prop} :
    (∃ ts, Runs [] s ts s' ∧ p ts) ↔ p [] ∧ s = s' := by
  refine ⟨fun h => ?_, fun h => ?_⟩
  · obtain ⟨_, runs, hp⟩ := h
    obtain ⟨rfl, rfl⟩ := nil_iff.mp runs
    exact ⟨hp, rfl⟩
  · obtain ⟨hp, rfl⟩ := h
    exact ⟨[], .nil s, hp⟩

theorem cons_left_iff {env : Env} {e : Exp} :
    Runs ((env, e) :: cs) s ts s' ↔
      ∃ t rest s₁, ts = t :: rest ∧ e.typeOf env s = .ok t s₁ ∧ Runs cs s₁ rest s' := by
  refine ⟨fun h => ?_, fun h => ?_⟩
  · cases h with
    | cons head tail => exact ⟨_, _, _, rfl, head, tail⟩
  · obtain ⟨t, rest, s₁, rfl, head, tail⟩ := h
    exact .cons head tail

theorem length_eq (h : Runs cs s ts s') : ts.length = cs.length := by
  induction h with
  | nil => rfl
  | cons _ _ ih => rw [List.length_cons, List.length_cons, ih]

theorem append {s₁ : Supply} (h : Runs cs s ts s₁) (h' : Runs ds s₁ us s') :
    Runs (cs ++ ds) s (ts ++ us) s' := by
  induction h with
  | nil => exact h'
  | cons head _ ih => exact .cons head (ih h')

theorem append_iff : Runs (cs ++ ds) s ts s' ↔
    ∃ us vs s₁, ts = us ++ vs ∧ Runs cs s us s₁ ∧ Runs ds s₁ vs s' := by
  refine ⟨fun h => ?_, fun h => ?_⟩
  · induction cs generalizing s ts with
    | nil => exact ⟨[], ts, s, rfl, .nil s, h⟩
    | cons c cs ih =>
      obtain ⟨t, rest, s₁, rfl, head, tail⟩ := cons_left_iff.mp h
      obtain ⟨us, vs, s₂, rfl, front, back⟩ := ih tail
      exact ⟨t :: us, vs, s₂, rfl, .cons head front, back⟩
  · obtain ⟨us, vs, s₁, rfl, front, back⟩ := h
    exact front.append back

theorem append_iff_of_length (h : us.length = cs.length) :
    Runs (cs ++ ds) s (us ++ ts) s' ↔ ∃ s₁, Runs cs s us s₁ ∧ Runs ds s₁ ts s' := by
  rw [append_iff]
  refine ⟨fun h => ?_, fun h => ?_⟩
  · obtain ⟨us', ts', s₁, heq, front, back⟩ := h
    obtain ⟨rfl, rfl⟩ := List.append_inj heq (h.trans front.length_eq.symm)
    exact ⟨s₁, front, back⟩
  · obtain ⟨s₁, front, back⟩ := h
    exact ⟨us, ts, s₁, rfl, front, back⟩

end Runs

end AnnotatedScheme
