import AnnotatedScheme.Proofs.Exp.Builder

/-!
# Errors in the form of data

An error in the form of a datum shows that datum or one inside of it, and the rule on atoms is
broken by a gap only (`FormError.Within`). Data that were read have no gaps, so each error on them
has a message (`Datum.Over.message_of_within`).

`Except.FailsWith q x` says what holds of the error of `x`; it goes through `x` step by step.
-/

namespace AnnotatedScheme

variable {α β ε : Type}

/-! ## errors in sequence -/

/-- an error of `x` has `q` -/
def Except.FailsWith (q : ε → Prop) (x : Except ε α) : Prop := ∀ e, x = .error e → q e

namespace Except.FailsWith

variable {q q' : ε → Prop}

theorem ok (a : α) : FailsWith q (.ok a) := nofun

theorem error {e : ε} (h : q e) : FailsWith q (.error e : Except ε α) :=
  fun _ he => Except.error.inj he ▸ h

theorem bind {x : Except ε α} {f : α → Except ε β} (hx : FailsWith q x)
    (hf : ∀ a, FailsWith q (f a)) : FailsWith q (x >>= f) := by
  cases x with
  | ok a => exact hf a
  | error e => exact error (hx e rfl)

theorem map {x : Except ε α} {f : α → β} (hx : FailsWith q x) : FailsWith q (f <$> x) := by
  cases x with
  | ok a => exact ok (f a)
  | error e => exact error (hx e rfl)

theorem mono {x : Except ε α} (hx : FailsWith q x) (h : ∀ e, q e → q' e) : FailsWith q' x :=
  fun e he => h e (hx e he)

theorem mapM {f : α → Except ε β} {as : List α} (h : ∀ a ∈ as, FailsWith q (f a)) :
    FailsWith q (as.mapM f) := by
  induction as with
  | nil => exact ok []
  | cons a as ih =>
    rw [List.mapM_cons]
    refine (h a List.mem_cons_self).bind fun b => ?_
    exact (ih fun a ha => h a (List.mem_cons_of_mem _ ha)).bind fun bs => ok (b :: bs)

end Except.FailsWith

variable {Q : String → Prop}

/-! ## errors -/

/-- the error is about a datum in `d`, and an unknown atom is a gap -/
structure FormError.Within (d : Datum) (e : FormError) : Prop where
  datum : e.datum.Within d
  knownAtom : e.rule = .knownAtom → e.datum = .gap

namespace FormError

/-- another rule than that on atoms, broken by the datum as a whole -/
theorem within_self {rule : Form} (h : rule ≠ .knownAtom) (d : Datum) :
    FormError.Within d ⟨rule, d⟩ := ⟨.refl, fun hrule => absurd hrule h⟩

theorem Within.trans {d whole : Datum} {e : FormError} (h : e.Within d) (hd : d.Within whole) :
    e.Within whole := ⟨h.datum.trans hd, h.knownAtom⟩

end FormError

/-- what fails with an error on `d`, in data around it -/
theorem Except.FailsWith.around {x : Except FormError α} {d whole : Datum}
    (h : FailsWith (FormError.Within d) x) (hd : d.Within whole) :
    Except.FailsWith (FormError.Within whole) x := h.mono fun _ he => he.trans hd

/-! ## types and values -/

theorem Ty.failsWith_ofDatum (d : Datum) :
    Except.FailsWith (FormError.Within d) (Ty.ofDatum d) := by
  induction d using Datum.induct with
  | atom value =>
    rw [ofDatum]
    cases value with
    | symbol name =>
      rw [ofAtom]
      split
      · exact .ok _
      · exact .error (FormError.within_self (by decide) _)
    | _ => exact .error (FormError.within_self (by decide) _)
  | list items ih =>
    have each : ∀ d ∈ items, Except.FailsWith (FormError.Within (.list items)) (ofDatum d) :=
      fun d hd => (ih d hd).around (Datum.within_of_mem hd)
    have hparts : ∀ x ∈ items.map ofDatum, Except.FailsWith (FormError.Within (.list items)) x :=
      List.forall_mem_map.mpr each
    rw [ofDatum, ofEach_eq_map]
    unfold ofItems
    split
    · rename_i heq
      rw [heq] at hparts
      refine (hparts _ (by simp)).bind fun first => ?_
      exact (hparts _ (by simp)).bind fun second => .ok _
    · split
      · split
        · rename_i rule hrule
          refine .error (FormError.within_self ?_ _)
          rintro rfl
          unfold brokenRule? at hrule
          dsimp only at hrule
          repeat' split at hrule
          all_goals cases hrule
        · refine .bind (.mapM fun x hx => ?_) fun parts => .ok _
          exact hparts x ((everySecond_sublist _).subset hx)
      · exact .error (FormError.within_self (by decide) _)
  | gap => exact .error (FormError.within_self (by decide) _)

theorem Value.failsWith_ofItems {whole : Datum} {items : List Datum}
    (each : ∀ d ∈ items, Except.FailsWith (FormError.Within whole) (Value.ofDatum d)) :
    Except.FailsWith (FormError.Within whole) (Value.ofItems items) := by
  induction items with
  | nil => exact .ok _
  | cons d rest ih =>
    unfold Value.ofItems
    split
    · exact (each _ (by simp)).map
    · refine (each d List.mem_cons_self).bind fun first => ?_
      exact (ih fun d hd => each d (List.mem_cons_of_mem _ hd)).bind fun second => .ok _

theorem Value.failsWith_ofDatum (d : Datum) :
    Except.FailsWith (FormError.Within d) (Value.ofDatum d) := by
  induction d using Datum.induct with
  | atom value =>
    rw [ofDatum]
    split
    · exact .error (FormError.within_self (by decide) _)
    · exact .ok _
  | list items ih =>
    exact failsWith_ofItems fun d hd => (ih d hd).around (Datum.within_of_mem hd)
  | gap => exact .ok _

/-! ## expressions -/

namespace Exp

theorem failsWith_ofDecl (d : Datum) : Except.FailsWith (FormError.Within d) (ofDecl d) := by
  unfold ofDecl
  split
  · split
    · split
      · refine .bind ?_ fun t => .ok _
        exact (Ty.failsWith_ofDatum _).around (Datum.within_of_mem (by simp))
      · exact .error (FormError.within_self (by decide) _)
    · exact .error (FormError.within_self (by decide) _)
  · exact .error (FormError.within_self (by decide) _)

theorem failsWith_ofAtom (value : Atom) :
    Except.FailsWith (FormError.Within (.atom value)) (ofAtom value) := by
  cases value with
  | symbol name =>
    rw [ofAtom]
    split
    · exact .ok _
    split
    · exact .ok _
    · exact .error (FormError.within_self (by decide) _)
  | _ => exact .ok _

theorem failsWith_ofBinding {d : Datum} (each : ∀ part : Datum, part.Within d →
      Except.FailsWith (FormError.Within part) (ofDatum part)) :
    Except.FailsWith (FormError.Within d) (ofBinding d) := by
  unfold ofBinding
  split
  · rename_i decl value
    have hdecl : decl.Within (.list [decl, value]) := Datum.within_of_mem (by simp)
    have hvalue : value.Within (.list [decl, value]) := Datum.within_of_mem (by simp)
    refine .bind ((failsWith_ofDecl decl).around hdecl) fun e => ?_
    exact .bind ((each value hvalue).around hvalue) fun v => .ok _
  · exact .error (FormError.within_self (by decide) _)

/-! The errors on a list of data: those on its items, and on the datum around it. -/

section

variable {whole : Datum} {ds : List Datum} (hds : ∀ d ∈ ds, d.Within whole)
include hds

theorem failsWith_ofQuoted : Except.FailsWith (FormError.Within whole) (ofQuoted whole ds) := by
  unfold ofQuoted
  split
  · exact ((Value.failsWith_ofDatum _).around (hds _ List.mem_cons_self)).map
  · exact .error (FormError.within_self (by decide) _)

variable (each : ∀ d ∈ ds, ∀ part : Datum, part.Within d →
  Except.FailsWith (FormError.Within part) (ofDatum part))
include each

theorem failsWith_of_mem {d : Datum} (hd : d ∈ ds) :
    Except.FailsWith (FormError.Within whole) (ofDatum d) :=
  (each d hd d .refl).around (hds d hd)

theorem failsWith_ofBody : Except.FailsWith (FormError.Within whole) (ofBody whole ds) := by
  cases ds with
  | nil => exact .error (FormError.within_self (by decide) _)
  | cons d rest =>
    rw [ofBody_cons]
    exact .mapM fun d hd => failsWith_of_mem hds each hd

theorem failsWith_ofConditional :
    Except.FailsWith (FormError.Within whole) (ofConditional whole ds) := by
  unfold ofConditional
  split
  · refine (failsWith_of_mem hds each (by simp)).bind fun test => ?_
    refine (failsWith_of_mem hds each (by simp)).bind fun consequent => ?_
    exact (failsWith_of_mem hds each (by simp)).bind fun alternative => .ok _
  · exact .error (FormError.within_self (by decide) _)

theorem failsWith_ofLambda : Except.FailsWith (FormError.Within whole) (ofLambda whole ds) := by
  unfold ofLambda
  split
  · rename_i params colon result body
    split
    · have hparams : ∀ d ∈ params, d.Within whole := fun d hd =>
        (Datum.within_of_mem hd).trans (hds _ List.mem_cons_self)
      have hbody : Except.FailsWith (FormError.Within whole) (ofBody whole body) :=
        failsWith_ofBody (fun d hd => hds d (by simp [hd])) fun d hd => each d (by simp [hd])
      refine .bind (.mapM fun d hd => (failsWith_ofDecl d).around (hparams d hd)) fun frame => ?_
      refine .bind ((Ty.failsWith_ofDatum result).around (hds _ (by simp))) fun t => ?_
      exact hbody.bind fun es => .ok _
    · exact .error (FormError.within_self (by decide) _)
  · exact .error (FormError.within_self (by decide) _)

theorem failsWith_ofScope {form : Form} (hform : form ≠ .knownAtom)
    {scope : List Exp → List Exp → Exp} :
    Except.FailsWith (FormError.Within whole) (ofScope form scope whole ds) := by
  unfold ofScope
  split
  · rename_i bindings body
    have hbindings : Except.FailsWith (FormError.Within whole) (ofBindings bindings) := by
      rw [ofBindings_eq_mapM]
      refine .mapM fun b hb => Except.FailsWith.around (failsWith_ofBinding fun part hpart => ?_)
        ((Datum.within_of_mem hb).trans (hds _ List.mem_cons_self))
      exact each _ List.mem_cons_self part (.item hb hpart)
    have hbody : Except.FailsWith (FormError.Within whole) (ofBody whole body) :=
      failsWith_ofBody (fun d hd => hds d (List.mem_cons_of_mem _ hd))
        fun d hd => each d (List.mem_cons_of_mem _ hd)
    exact hbindings.bind fun es => hbody.bind fun body => .ok _
  · exact .error (FormError.within_self hform _)

end

theorem failsWith_ofDatum (d : Datum) : Except.FailsWith (FormError.Within d) (ofDatum d) := by
  induction d using Datum.deepInduct with
  | atom value => exact failsWith_ofAtom value
  | gap => exact .error ⟨.refl, fun _ => rfl⟩
  | list items ih =>
    cases items with
    | nil => exact .error (FormError.within_self (by decide) _)
    | cons head rest =>
      have hhead := failsWith_of_mem (fun d hd => Datum.within_of_mem hd) ih List.mem_cons_self
      have hds : ∀ d ∈ rest, d.Within (.list (head :: rest)) := fun d hd =>
        Datum.within_of_mem (List.mem_cons_of_mem _ hd)
      have each : ∀ d ∈ rest, ∀ part : Datum, part.Within d →
          Except.FailsWith (FormError.Within part) (ofDatum part) := fun d hd =>
        ih d (List.mem_cons_of_mem _ hd)
      rw [ofDatum]
      split
      · exact .error (FormError.within_self (by decide) _)
      split
      · exact failsWith_ofConditional hds each
      split
      · exact failsWith_ofLambda hds each
      split
      · exact failsWith_ofScope hds each (by decide)
      split
      · exact failsWith_ofScope hds each (by decide)
      split
      · exact failsWith_ofQuoted hds
      · rw [ofEach_eq_mapM]
        refine hhead.bind fun operator => ?_
        exact .bind (.mapM fun d hd => failsWith_of_mem hds each hd) fun operands => .ok _

/-! ## forms, programs and texts -/

theorem failsWith_ofForm (d : Datum) : Except.FailsWith (FormError.Within d) (ofForm d) := by
  unfold ofForm
  split
  · rename_i head rest
    split
    · unfold ofDefine
      split
      · rename_i d value
        have hd : d.Within (.list [head, d, value]) := Datum.within_of_mem (by simp)
        have hvalue : value.Within (.list [head, d, value]) := Datum.within_of_mem (by simp)
        refine .bind ((failsWith_ofDecl d).around hd) fun e => ?_
        exact .bind ((failsWith_ofDatum value).around hvalue) fun v => .ok _
      · exact .error (FormError.within_self (by decide) _)
    · exact failsWith_ofDatum _
  · exact failsWith_ofDatum _

theorem failsWith_ofProgram (d : Datum) : Except.FailsWith (FormError.Within d) (ofProgram d) := by
  unfold ofProgram
  split
  · rename_i head forms
    split
    · exact .error (FormError.within_self (by decide) _)
    split
    · exact .error (FormError.within_self (by decide) _)
    · refine .bind (.mapM fun d hd => ?_) fun es => .ok _
      exact (failsWith_ofForm d).around (Datum.within_of_mem (List.mem_cons_of_mem _ hd))
  · exact .error (FormError.within_self (by decide) _)

theorem error_of_mapError_form {x : Except FormError Exp} {e : FormError}
    (h : x.mapError SourceError.form = .error (.form e)) : x = .error e := by
  obtain ⟨error, herror, he⟩ := Except.mapError_eq_error_iff.mp h
  obtain rfl := SourceError.form.inj he
  exact herror

/-- A text that is not read is no source text for the same reason. -/
theorem read_of_ofText {kind : Kind} {text : String} {reason : Unread ReadError}
    (h : ofText kind text = .error (.read reason)) : Datum.read text = .error reason := by
  unfold ofText at h
  cases hread : Datum.read text with
  | error reason' =>
    rw [hread] at h
    rw [SourceError.read.inj (Except.error.inj h)]
  | ok d =>
    rw [hread] at h
    -- an error in the form is no error of the reader
    cases kind with
    | form | program =>
      obtain ⟨e, -, he⟩ := Except.mapError_eq_error_iff.mp h
      cases he

/-- A text that is read and is still no source text breaks a rule with a datum in what was read. -/
theorem within_of_ofText {kind : Kind} {text : String} {e : FormError}
    (h : ofText kind text = .error (.form e)) : ∃ d, Datum.read text = .ok d ∧ e.Within d := by
  unfold ofText at h
  cases hread : Datum.read text with
  | error error =>
    rw [hread] at h
    cases h
  | ok d =>
    rw [hread] at h
    refine ⟨d, rfl, ?_⟩
    cases kind with
    | form => exact failsWith_ofForm d e (error_of_mapError_form h)
    | program => exact failsWith_ofProgram d e (error_of_mapError_form h)

end Exp

end AnnotatedScheme
