import AnnotatedScheme.Proofs.Typing.Call
import AnnotatedScheme.Proofs.Typing.Names

/-!
# Fresh variables meet no argument

A call is covered if the supply reserves all type variables in its environment and in its
annotations (`Call.Covered`). The first call is, and so is every call inside of a covered one. In a
covered call a type has reserved variables, `literal`, and names that were drawn while it was
computed (`Call.Covered.runs`).

The parameter of a predicate is a name drawn before the types of the arguments are computed, so no
argument has it as its type: `Exp.anyTypePrimitives` are never applied
(`no_application_of_anyTypePrimitives`).
-/

namespace AnnotatedScheme

open Supply

/-! ## the primitives -/

namespace Exp

/-- the primitives whose signatures take arguments of any type, as one name each -/
def anyTypePrimitives : List String :=
  ["number?", "boolean?", "string?", "list?", "pair?", "symbol?", "eq?", "string=?", "display"]

theorem mem_anyTypePrimitives_iff {name : String} :
    name ∈ anyTypePrimitives ↔ ∃ signature, Primitive.signature? name = some signature ∧
      signature.names ≠ [] ∧ PairOperator.ofExp? (.primitive name) = none := by
  refine ⟨fun h => ?_, fun h => ?_⟩
  · have hall : ∀ name ∈ anyTypePrimitives, ∃ signature ∈ Primitive.signature? name,
        signature.names ≠ [] ∧ PairOperator.ofExp? (.primitive name) = none := by decide
    exact hall name h
  · obtain ⟨signature, hsig, hnames, hop⟩ := h
    have hall : ∀ p ∈ Primitive.signatures, p.2.names ≠ [] →
        PairOperator.ofExp? (.primitive p.1) = none → p.1 ∈ anyTypePrimitives := by decide
    exact hall (name, signature) (mem_of_lookup_eq_some hsig) hnames hop

theorem signature_of_mem_anyTypePrimitives {name : String} (h : name ∈ anyTypePrimitives) :
    ∃ x params result, Primitive.signature? name = some (.proc (.var x :: params) result) := by
  simp only [anyTypePrimitives, List.mem_cons, List.not_mem_nil, or_false] at h
  rcases h with rfl | rfl | rfl | rfl | rfl | rfl | rfl | rfl | rfl <;> exact ⟨_, _, _, rfl⟩

end Exp

/-! ## accounting for variables -/

/-- the supply reserves the type variables around and in an expression -/
def Call.Covered (c : Call) : Prop :=
  ∀ name, name ∈ c.env.names ∨ name ∈ c.exp.names → name ∈ c.supply.reserved

/-- the variables of a type that was computed between two supplies -/
def Accounted (s s' : Supply) (t : Ty) : Prop :=
  ∀ name ∈ t.names, name ∈ s.reserved ∨ name = "literal" ∨ Drawn s s' name

theorem Call.Covered.check {c : Call} (h : c.Covered) {check : Env × Exp}
    (hcheck : check ∈ c.exp.checks c.env) {s : Supply} (hs : s.reserved = c.supply.reserved) :
    (Call.mk check.1 check.2 s).Covered := by
  intro name hname
  rw [hs]
  rcases hname with hname | hname
  · exact h name (Exp.names_env_of_mem_checks hcheck hname)
  · exact h name (.inr (Exp.names_of_mem_parts (Exp.mem_parts_of_mem_checks hcheck) hname))

/-! ## calls -/

namespace Call

theorem covered_start (env : Env) (e : Exp) : (start env e).Covered :=
  fun _ h => List.mem_append.mpr h.symm

/-- a run through some of the checks of a covered call -/
theorem Covered.runs {c : Call} (h : c.Covered) {cs : List (Env × Exp)}
    (hcs : ∀ check ∈ cs, check ∈ c.exp.checks c.env) {ts : List Ty} {s s' : Supply}
    (hs : s.reserved = c.supply.reserved) (runs : Runs cs s ts s') :
    Grows s s' ∧ ∀ t ∈ ts, Accounted s s' t := by
  have hknown : ∀ check ∈ cs, ∀ s₁ t s₂, check.2.typeOf check.1 s₁ = .ok t s₂ →
      Grows s₁ s₂ ∧ ∀ name ∈ t.names,
        (name ∈ s.reserved ∨ name = "literal") ∨ Drawn s₁ s₂ name := by
    intro check hcheck s₁ t s₂ htype
    obtain ⟨hgrows, hnames⟩ := Exp.typeOf_traced htype
    have hcovered : ∀ name, name ∈ check.1.names ∨ name ∈ check.2.names → name ∈ s.reserved :=
      h.check (hcs check hcheck) hs
    refine ⟨hgrows, fun name hname => (hnames name hname).imp_left fun hname => ?_⟩
    exact (or_assoc.mpr hname).imp_left (hcovered name)
  obtain ⟨hgrows, hnames⟩ := runs.traced hknown
  exact ⟨hgrows, fun t ht name hname => or_assoc.mp (hnames t ht name hname)⟩

theorem Covered.makes {c c' : Call} {i : Nat} (h : c.Covered) (hmakes : c.Makes i c') :
    c'.Covered := by
  obtain ⟨hcheck, ts, runs⟩ := hmakes
  obtain ⟨hgrows, -⟩ := h.runs (fun _ => List.mem_of_mem_take) rfl runs
  exact h.check (List.mem_of_getElem? hcheck) hgrows.reserved

theorem Covered.reaches {c c' : Call} (h : c.Covered) (reach : c.Reaches c') : c'.Covered := by
  induction reach with
  | refl => exact h
  | step hmakes _ ih => exact ih (h.makes hmakes)

/-- A drawn name is not among the variables of what is computed after the drawing. -/
theorem not_mem_names_of_drawn {s s₁ s' : Supply} {t : Ty} {name : String}
    (drawn : Drawn s s₁ name) (hgrows : Grows s s₁) (h : Accounted s₁ s' t) :
    name ∉ t.names := by
  intro hname
  rcases h name hname with h | rfl | h
  · exact drawn.1 (hgrows.reserved ▸ h)
  · exact drawn.ne_literal rfl
  · exact drawn.not_later h

theorem Covered.not_yields_application {c : Call} (h : c.Covered) {name : String}
    (hname : name ∈ Exp.anyTypePrimitives) {operands : List Exp}
    (hexp : c.exp = .app (.primitive name) operands) {t : Ty} : ¬ c.Yields t := by
  intro hyields
  obtain ⟨s', hyields⟩ := hyields
  obtain ⟨-, -, -, hop⟩ := Exp.mem_anyTypePrimitives_iff.mp hname
  obtain ⟨x, params, result, hsig⟩ := Exp.signature_of_mem_anyTypePrimitives hname
  have hchecks : c.exp.checks c.env =
      (c.env, .primitive name) :: Exp.inEnv c.env operands := by
    rw [hexp, Exp.checks, hop]
    rfl
  obtain ⟨ts, runs, hrule⟩ := (Exp.typeOf_eq_ok_iff (by simp [hexp])).mp hyields
  rw [hchecks] at runs
  rw [hexp] at hrule
  cases hrule with
  | app _ types =>
    -- the operator is renamed first, and its first parameter is a drawn name
    obtain ⟨s₁, hoperator, runs⟩ := Runs.cons_iff.mp runs
    obtain ⟨signature, hsig', hrename⟩ := Exp.typeOf_primitive_eq_ok_iff.mp hoperator
    obtain rfl := Option.some.inj (hsig.symm.trans hsig')
    obtain ⟨hgrows, f, hf, hdrawn⟩ := rename_spec (.proc (.var x :: params) result) c.supply
    rw [hrename] at hgrows hf hdrawn
    obtain ⟨rfl, -⟩ := Ty.proc.inj hf
    -- the operands are computed behind it
    obtain ⟨-, haccounted⟩ :=
      h.runs (fun check hcheck => hchecks ▸ List.mem_cons_of_mem _ hcheck) hgrows.reserved runs
    refine not_mem_names_of_drawn (hdrawn x List.mem_cons_self).1 hgrows
      (haccounted _ List.mem_cons_self) ?_
    exact List.mem_singleton.mpr rfl
  | cons hop' | car hop' | cdr hop' =>
    rw [hop] at hop'
    cases hop'

end Call

/-- Where a type comes out, none of the primitives that take arguments of any type is applied. -/
theorem no_application_of_anyTypePrimitives {env : Env} {e : Exp} {t : Ty}
    (typed : e.typeIn env = .ok t) {name : String} (hname : name ∈ Exp.anyTypePrimitives)
    (operands : List Exp) : ¬ Exp.Within (.app (.primitive name) operands) e := by
  intro within
  have h := Call.start_yields_iff.mpr typed
  obtain ⟨c, reach, hexp⟩ := h.reaches within
  obtain ⟨u, hu⟩ := reach.yields h
  exact ((Call.covered_start env e).reaches reach).not_yields_application hname hexp hu

/-- a procedure that mentions a predicate beside names of the kind that is drawn -/
def numberedNames : Exp :=
  .lambda [.decl "x" (.var "T_1")] (.var "T_1")
    [.primitive "number?", .quote (.atom (.symbol "T_2")), .var "x"]

theorem no_application_in_numberedNames :
    numberedNames.typeIn ⟨[[("y", .var "T1_2")]]⟩ = .ok (.proc [.var "T_1"] (.var "T_1")) ∧
      ∀ operands, ¬ Exp.Within (.app (.primitive "number?") operands) numberedNames := by
  have typed :
      numberedNames.typeIn ⟨[[("y", .var "T1_2")]]⟩ = .ok (.proc [.var "T_1"] (.var "T_1")) :=
    rfl
  exact ⟨typed, no_application_of_anyTypePrimitives typed (by decide)⟩

end AnnotatedScheme
