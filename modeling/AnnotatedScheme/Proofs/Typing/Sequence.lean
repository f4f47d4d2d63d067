import AnnotatedScheme.Proofs.Env.Combine
import AnnotatedScheme.Proofs.Typing.Total

/-!
# Definitions in a sequence

A sequence of forms is typed from left to right, each form in the environment behind the ones
before it (`Exp.scopes`). What one form adds to the environment is `Exp.lookup_of_scopeBehind`;
along a sequence, the first definition of a variable stays in force (`Exp.lookup_scopes`).

A definition whose type mentions its own variable is refused only where something is bound already:
`Exp.HasLateSelfNaming` says that a sequence has one there, and `Exp.forall_scopeBehind_isOk_iff`
that the environments behind all of its forms exist just if it has none.
-/

namespace AnnotatedScheme.Exp

/-- the variable that a form defines, with its type -/
def definition? : Exp → Option (String × Ty)
  | .define d _ => d.declared?
  | _ => none

/-- the variables that forms define, the earliest first; a gap gives a variable no type -/
def definitions (forms : List Exp) : Frame :=
  (forms.filterMap definition?).filter fun entry => entry.2 ≠ .gap

variable {env env' : Env} {e : Exp} {x : String} {t : Ty}

theorem definitions_cons (e : Exp) (forms : List Exp) :
    definitions (e :: forms) = definitions [e] ++ definitions forms := by
  unfold definitions
  rw [← List.filter_append, ← List.filterMap_append, List.singleton_append]

theorem definitions_of_none (h : e.definition? = none) : definitions [e] = [] := by
  simp [definitions, h]

/-- a form defines what a frame with its definition alone binds -/
theorem lookup_definitions_of_some (h : e.definition? = some (x, t)) (name : String) :
    (definitions [e]).lookup name = (Env.empty.extend [(x, t)]).lookup name := by
  rw [Env.lookup_extend, Env.lookup_empty, List.lookup_cons]
  by_cases hgap : t = .gap
  · have hnone : definitions [e] = [] := by simp [definitions, h, hgap]
    rw [hnone, List.lookup_nil]
    cases name == x <;> simp [hgap]
  · have hone : definitions [e] = [(x, t)] := by simp [definitions, h, hgap]
    rw [hone, List.lookup_cons, List.lookup_nil]
    cases name == x <;> simp [hgap]

/-! ## behind a form -/

theorem scopeBehind_of_none (h : e.definition? = none) : scopeBehind env e = .ok env := by
  cases e with
  | define d value =>
    cases d with
    | decl name type => cases h
    | _ => rfl
  | _ => rfl

theorem scopeBehind_of_some (h : e.definition? = some (x, t)) :
    scopeBehind env e = (env.combine (env.extend [(x, t)])).mapError .recursive := by
  cases e with
  | define d value =>
    cases d with
    | decl name type =>
      obtain ⟨rfl, rfl⟩ := Prod.mk.inj (Option.some.inj h)
      rfl
    | _ => cases h
  | _ => cases h

/-- What is bound already stays as it is, and the definition counts for the rest. -/
theorem lookup_of_scopeBehind (h : scopeBehind env e = .ok env') (name : String) :
    env'.lookup name = (env.lookup name).or ((definitions [e]).lookup name) := by
  cases hdef : e.definition? with
  | none =>
    rw [scopeBehind_of_none hdef] at h
    obtain rfl := Except.ok.inj h
    rw [definitions_of_none hdef, List.lookup_nil, Option.or_none]
  | some entry =>
    obtain ⟨x, t⟩ := entry
    rw [scopeBehind_of_some hdef, Except.mapError_eq_ok_iff] at h
    rw [Env.lookup_combine_extend h, lookup_definitions_of_some hdef]

/-! ## along a sequence -/

variable {forms : List Exp}

/-- The environment of a form binds what was bound before all of them, and then the first
definitions before the form. -/
theorem lookup_scopes (h : ∀ c ∈ scopes env forms, ∃ env', scopeBehind c.1 c.2 = .ok env')
    {k : Nat} {c : Env × Exp} (hk : (scopes env forms)[k]? = some c) (name : String) :
    c.1.lookup name = (env.lookup name).or ((definitions (forms.take k)).lookup name) := by
  induction forms generalizing env k with
  | nil => cases hk
  | cons e rest ih =>
    obtain ⟨⟨env', hscope⟩, hrest⟩ := List.forall_mem_cons.mp h
    cases k with
    | zero =>
      obtain rfl := Option.some.inj hk
      show env.lookup name = (env.lookup name).or none
      rw [Option.or_none]
    | succ k =>
      rw [ih hrest hk, behind_of_ok hscope, lookup_of_scopeBehind hscope, Option.or_assoc, ← List.lookup_append,
        ← definitions_cons, List.take_succ_cons]

/-! ## definitions of their own names -/

/-- a definition of a variable whose type mentions a type variable of the same name -/
def SelfNaming (e : Exp) : Prop := ∃ x t, e.definition? = some (x, t) ∧ t.occurs x = true

/-- a definition of its own name stands where something is bound, in the environment of the
sequence or by a definition before it -/
def HasLateSelfNaming (env : Env) (forms : List Exp) : Prop :=
  ∃ front e back, forms = front ++ e :: back ∧ e.SelfNaming ∧
    (env ≠ .empty ∨ ∃ d ∈ front, d.definition? ≠ none)

theorem scopeBehind_isOk_iff :
    (∃ env', scopeBehind env e = .ok env') ↔ (e.SelfNaming → env = .empty) := by
  cases hdef : e.definition? with
  | none =>
    have hnot : ¬e.SelfNaming := by
      rintro ⟨x, t, h, -⟩
      rw [hdef] at h
      cases h
    exact iff_of_true ⟨env, scopeBehind_of_none hdef⟩ fun h => absurd h hnot
  | some entry =>
    obtain ⟨x, t⟩ := entry
    have hself : e.SelfNaming ↔ t.occurs x = true := by
      unfold SelfNaming
      rw [hdef]
      refine ⟨fun h => ?_, fun h => ⟨x, t, rfl, h⟩⟩
      obtain ⟨_, _, heq, h⟩ := h
      obtain ⟨rfl, rfl⟩ := Prod.mk.inj (Option.some.inj heq)
      exact h
    simp only [scopeBehind_of_some hdef, Except.mapError_eq_ok_iff]
    rw [Env.combine_binding_isOk_iff, hself]

theorem behind_eq_empty_iff : behind env e = .empty ↔ env = .empty ∧ e.definition? = none := by
  unfold behind
  cases hdef : e.definition? with
  | none => simp [scopeBehind_of_none hdef]
  | some entry =>
    obtain ⟨x, t⟩ := entry
    refine iff_of_false ?_ fun h => by cases h.2
    split
    · rename_i env' h
      rw [scopeBehind_of_some hdef, Except.mapError_eq_ok_iff] at h
      exact Env.ne_empty_of_combine_extend h
    · rename_i h
      intro hempty
      obtain ⟨env', hok⟩ := scopeBehind_isOk_iff (e := e).mpr fun _ => hempty
      rw [hok] at h
      cases h

theorem hasLateSelfNaming_cons {rest : List Exp} :
    HasLateSelfNaming env (e :: rest) ↔
      (e.SelfNaming ∧ env ≠ .empty) ∨ HasLateSelfNaming (behind env e) rest := by
  unfold HasLateSelfNaming
  rw [Ne, Ne, behind_eq_empty_iff, not_and_or]
  constructor
  · rintro ⟨front, e', back, hforms, hself, hbound⟩
    cases front with
    | nil =>
      obtain ⟨rfl, rfl⟩ := List.cons.inj hforms
      have hne : env ≠ .empty := hbound.resolve_right (by simp)
      exact .inl ⟨hself, hne⟩
    | cons d front =>
      obtain ⟨rfl, rfl⟩ := List.cons.inj hforms
      refine .inr ⟨front, e', back, rfl, hself, ?_⟩
      rw [List.exists_mem_cons_iff] at hbound
      tauto
  · rintro (⟨hself, hne⟩ | ⟨front, e', back, rfl, hself, hbound⟩)
    · exact ⟨[], e, rest, rfl, hself, .inl hne⟩
    · refine ⟨e :: front, e', back, rfl, hself, ?_⟩
      rw [List.exists_mem_cons_iff]
      tauto

theorem forall_scopeBehind_isOk_iff :
    (∀ c ∈ scopes env forms, ∃ env', scopeBehind c.1 c.2 = .ok env') ↔
      ¬HasLateSelfNaming env forms := by
  induction forms generalizing env with
  | nil =>
    refine iff_of_true (List.forall_mem_nil _) ?_
    rintro ⟨front, e, back, h, -⟩
    cases front <;> cases h
  | cons e rest ih =>
    rw [scopes, List.forall_mem_cons, ih, scopeBehind_isOk_iff, hasLateSelfNaming_cons]
    tauto

theorem typeOfForms_eq_ok_iff_not_late {s s' : Supply} :
    typeOfForms env forms s = .ok t s' ↔
      (∃ ts, Runs (scopes env forms) s ts s' ∧ ts.getLast? = some t) ∧
        ¬HasLateSelfNaming env forms := by
  rw [typeOfForms_eq_ok_iff, ← forall_scopeBehind_isOk_iff]
  refine ⟨fun h => ?_, fun h => ?_⟩
  · obtain ⟨ts, runs, hscopes, ht⟩ := h
    exact ⟨⟨ts, runs, ht⟩, hscopes⟩
  · obtain ⟨⟨ts, runs, ht⟩, hscopes⟩ := h
    exact ⟨ts, runs, hscopes, ht⟩

end AnnotatedScheme.Exp

namespace AnnotatedScheme

open Exp

variable {env : Env} {forms : List Exp} {ts : List Ty} {t : Ty} {s s' : Supply}

/-- the last check of a run gives the last type -/
theorem Runs.last {cs : List (Env × Exp)} (h : Runs cs s ts s') {env : Env} {e : Exp}
    (hlast : cs.getLast? = some (env, e)) (ht : ts.getLast? = some t) :
    ∃ s₁ s₂, e.typeOf env s₁ = .ok t s₂ := by
  rw [List.getLast?_eq_getElem?] at hlast ht
  obtain ⟨u, s₁, s₂, hu, -, hcheck, -⟩ := h.check hlast
  rw [h.length_eq, hu] at ht
  obtain rfl := Option.some.inj ht
  exact ⟨s₁, s₂, hcheck⟩

/-- In a sequence that has a type, each form is typed in an environment where a variable has the
type that it had before the sequence, or else that of its first definition before the form. The
type of the sequence is that of the last form, and void if this is a definition. -/
theorem first_definition_in_force (accepted : typeOfForms env forms s = .ok t s') :
    (scopes env forms).map Prod.snd = forms ∧
      (∃ ts, Runs (scopes env forms) s ts s' ∧ ts.getLast? = some t) ∧
      (∀ k c, (scopes env forms)[k]? = some c → ∀ name,
        c.1.lookup name = (env.lookup name).or ((definitions (forms.take k)).lookup name)) ∧
      ∀ d value, forms.getLast? = some (.define d value) → t = .void := by
  obtain ⟨ts, runs, hscopes, ht⟩ := typeOfForms_eq_ok_iff.mp accepted
  refine ⟨map_snd_scopes env forms, ⟨ts, runs, ht⟩, fun k c hk => lookup_scopes hscopes hk,
    fun d value hlast => ?_⟩
  rw [← map_snd_scopes env forms, List.getLast?_map, Option.map_eq_some_iff] at hlast
  obtain ⟨⟨env', e⟩, hlast, rfl⟩ := hlast
  obtain ⟨s₁, s₂, hcheck⟩ := runs.last hlast ht
  obtain ⟨_, _, -, -, rfl⟩ := typeOf_define_eq_ok_iff.mp hcheck
  rfl

/-- a variable is defined as a string, and then again as a boolean -/
def redefinition : List Exp :=
  [.define (.decl "x" .string) (.string "a"), .define (.decl "x" .boolean) (.boolean true),
    .var "x"]

theorem first_definition_in_force_redefinition :
    typeOfForms .empty redefinition (.start []) = .ok .string (.start []) ∧
      ∀ c, (scopes .empty redefinition)[2]? = some c → c.1.lookup "x" = some .string := by
  have accepted : typeOfForms .empty redefinition (.start []) = .ok .string (.start []) := rfl
  obtain ⟨-, -, hlookup, -⟩ := first_definition_in_force accepted
  exact ⟨accepted, fun c hc => hlookup 2 c hc "x"⟩

/-- A sequence has a type just if its forms have types, each in its environment, and no definition
of its own name comes late; with one that does, it ends with an error, and so does the text of a
program of these forms. -/
theorem late_selfNaming_rejected (env : Env) (forms : List Exp) (s : Supply) :
    (∀ t s', typeOfForms env forms s = .ok t s' ↔
      (∃ ts, Runs (scopes env forms) s ts s' ∧ ts.getLast? = some t) ∧
        ¬HasLateSelfNaming env forms) ∧
    (HasLateSelfNaming env forms → ∃ error s', typeOfForms env forms s = .error error s') ∧
    ∀ text, ofText .program text = .ok (.program forms) → HasLateSelfNaming .empty forms →
      ∃ error message, typeOfText .program text = .error (.typing error) ∧
        error.message = .ok message := by
  refine ⟨fun t s' => typeOfForms_eq_ok_iff_not_late, fun hlate => ?_, fun text built hlate => ?_⟩
  · cases h : typeOfForms env forms s with
    | ok t s' => exact absurd hlate (typeOfForms_eq_ok_iff_not_late.mp h).2
    | error error s' => exact ⟨error, s', rfl⟩
  · have htext : typeOfText .program text =
        ((Exp.program forms).typeIn .empty).mapError .typing := by
      unfold typeOfText
      rw [built]
    cases h : (Exp.program forms).typeIn .empty with
    | ok t =>
      obtain ⟨s', typed⟩ := Call.start_yields_iff.mpr h
      exact absurd hlate (typeOfForms_eq_ok_iff_not_late.mp typed).2
    | error error =>
      rw [h] at htext
      -- the text is read, so no numeral stops the scanner
      have ordinary : (Failure.typing error).IsOrdinary := by
        refine (isOrdinary_of_typeOfText htext).resolve_right fun ⟨numeral, overlong⟩ => ?_
        cases htext.symm.trans (typeOfText_of_overlong overlong .program)
      obtain ⟨message, hmessage⟩ := ordinary.message
      exact ⟨error, message, htext, hmessage⟩

/-- `(define (x : (x -> x)) (lambda ((a : x)) : x a))` -/
def ownNameDefinition : Exp :=
  .define (.decl "x" (.proc [.var "x"] (.var "x")))
    (.lambda [.decl "a" (.var "x")] (.var "x") [.var "a"])

theorem late_selfNaming_rejected_ownName :
    typeOfForms .empty [ownNameDefinition, .boolean true] (.start []) =
        .ok .boolean (.start []) ∧
      (∃ error s', typeOfForms .empty
        [.define (.decl "y" .boolean) (.boolean true), ownNameDefinition, .boolean true]
          (.start []) = .error error s') ∧
      ∃ error, typeOfText .program "(L5 (define (y : T) #t) (define (x : x) #t))" =
        .error (.typing error) := by
  have self : ownNameDefinition.SelfNaming := ⟨"x", _, rfl, rfl⟩
  refine ⟨rfl, ?_, ?_⟩
  · exact (late_selfNaming_rejected _ _ _).2.1
      ⟨[_], _, [_], rfl, self, .inr ⟨_, List.mem_singleton.mpr rfl, Option.some_ne_none _⟩⟩
  · let opening : Token := ⟨.leftParen, 0, "("⟩
    let closing : Token := ⟨.rightParen, 0, ")"⟩
    let yes : Token := ⟨.atom (.boolean true), 0, "#t"⟩
    let name (x : String) : Token := ⟨.atom (.symbol x), 0, x⟩
    have scanned : Token.scan "(L5 (define (y : T) #t) (define (x : x) #t))" =
        .ok [opening, name "L5", opening, name "define", opening, name "y", name ":", name "T",
          closing, yes, closing, opening, name "define", opening, name "x", name ":", name "x",
          closing, yes, closing, closing] := by decide +kernel
    have built : ofText .program "(L5 (define (y : T) #t) (define (x : x) #t))" =
        .ok (.program [.define (.decl "y" (.var "T")) (.boolean true),
          .define (.decl "x" (.var "x")) (.boolean true)]) := by
      rw [ofText, Datum.read, Datum.readAll, scanned]
      rfl
    have self : (Exp.define (.decl "x" (.var "x")) (.boolean true)).SelfNaming :=
      ⟨"x", _, rfl, rfl⟩
    obtain ⟨error, _, rejected, _⟩ := (late_selfNaming_rejected .empty _ (.start [])).2.2 _ built
      ⟨[_], _, [], rfl, self, .inr ⟨_, List.mem_singleton.mpr rfl, Option.some_ne_none _⟩⟩
    exact ⟨error, rejected⟩

end AnnotatedScheme
