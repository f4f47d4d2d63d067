import AnnotatedScheme.Proofs.Typing.Call
import AnnotatedScheme.Typing.Verdict

/-!
# Declared types

A let, a letrec and a definition write a type beside each variable they bind
(`Exp.annotations`). A call honours these types if its calls for the values yield exactly them
(`Call.Honours`).

For a let and a definition this is what the check compares. A letrec takes the type of a variable
from the annotations of its lambda and does not look at the declared one, so there it holds just if
the two agree (`Exp.LambdasAgree`).
-/

namespace AnnotatedScheme

namespace Exp

/-- the types declared for the values among the parts, in the order of the parts -/
def annotations : Exp → List (Option Ty)
  | .letIn bindings _ | .letrec bindings _ =>
    (bindings.filterMap bound?).map fun (d, _) => d.declared?.map Prod.snd
  | .define d _ => [d.declared?.map Prod.snd]
  | _ => []

/-- in a letrec, the annotations of each lambda say the type that is declared for its variable -/
def LambdasAgree : Exp → Prop
  | .letrec bindings _ => ∀ b ∈ bindings, ∀ d value, b.bound? = some (d, value) →
      ∀ name t, d.declared? = some (name, t) → value.lambdaType? = some t
  | _ => True

theorem values_eq_map (bindings : List Exp) :
    values bindings = (bindings.filterMap bound?).map Prod.snd := by
  rw [values, List.map_filterMap]

theorem length_annotations_le (e : Exp) : e.annotations.length ≤ e.parts.length := by
  cases e <;> simp [annotations, parts, values_eq_map]

/-- the types in the frame of a let are the declared ones -/
theorem annotations_of_boundFrame? {bindings : List Exp} {frame : Frame}
    (h : boundFrame? bindings = some frame) :
    (bindings.filterMap bound?).map (fun (d, _) => d.declared?.map Prod.snd) =
      (frame.map Prod.snd).map some := by
  induction bindings generalizing frame with
  | nil =>
    obtain rfl := Option.some.inj h
    rfl
  | cons b rest ih =>
    obtain ⟨d, value, entry, tail, hb, hd, htail, rfl⟩ := boundFrame?_cons_eq_some_iff.mp h
    rw [List.filterMap_cons_some hb, List.map_cons, ih htail]
    simp [hd]

/-- the type of a lambda, in the place of the binding -/
theorem lambdaType?_of_map_values {bindings : List Exp} {types : List Ty}
    (htypes : (values bindings).map lambdaType? = types.map some) {i : Nat} {d value : Exp}
    (hi : (bindings.filterMap bound?)[i]? = some (d, value)) :
    ∃ t, types[i]? = some t ∧ value.lambdaType? = some t := by
  have h := congrArg (·[i]?) htypes
  simp only [values_eq_map, List.getElem?_map, hi, Option.map_some] at h
  cases htype : types[i]? with
  | none => simp [htype] at h
  | some t =>
    rw [htype] at h
    exact ⟨t, rfl, Option.some.inj h⟩

/-- Where the rule of a form holds, its parts have the declared types just if lambdas agree. -/
theorem Rule.annotations_iff {env : Env} {e : Exp} {ts : List Ty} {t : Ty} (h : Rule env e ts t) :
    (∀ (i : Nat) u, e.annotations[i]? = some (some u) → ts[i]? = some u) ↔ e.LambdasAgree := by
  cases h with
  | letIn hframe hlast =>
    refine iff_of_true (fun i u hu => ?_) trivial
    rw [annotations, annotations_of_boundFrame? hframe, List.getElem?_map, Option.map_eq_some_iff]
      at hu
    obtain ⟨u', hi, hu⟩ := hu
    obtain rfl := Option.some.inj hu
    rw [List.getElem?_append_left (List.getElem?_eq_some_iff.mp hi).1]
    exact hi
  | @letrec bindings _ _ types ts _ hframe htypes hlast =>
    -- the types of the values are those of the lambdas, whatever is declared
    have hlambda : ∀ {i : Nat} {d value : Exp},
        (bindings.filterMap bound?)[i]? = some (d, value) →
          (types ++ ts)[i]? = value.lambdaType? := by
      intro i d value hi
      obtain ⟨t, ht, hlambda⟩ := lambdaType?_of_map_values htypes hi
      rw [List.getElem?_append_left (List.getElem?_eq_some_iff.mp ht).1, ht, hlambda]
    refine ⟨fun h b hb d value hbound name u hd => ?_, fun h i u hu => ?_⟩
    · have hmem : (d, value) ∈ bindings.filterMap bound? :=
        List.mem_filterMap.mpr ⟨b, hb, hbound⟩
      obtain ⟨i, hi⟩ := List.mem_iff_getElem?.mp hmem
      rw [← hlambda hi]
      exact h i u (by simp [annotations, hi, hd])
    · simp only [annotations, List.getElem?_map, Option.map_eq_some_iff] at hu
      obtain ⟨⟨d, value⟩, hi, ⟨name, u⟩, hd, rfl⟩ := hu
      obtain ⟨b, hb, hbound⟩ := List.mem_filterMap.mp (List.mem_of_getElem? hi)
      rw [hlambda hi]
      exact h b hb d value hbound name u hd
  | define hd =>
    refine iff_of_true (fun i u hu => ?_) trivial
    cases i with
    | zero => simpa [annotations, hd] using hu
    | succ i => simp [annotations] at hu
  | _ => exact iff_of_true (fun i u hu => by simp [annotations] at hu) trivial

end Exp

namespace Call

open Exp

/-- the calls for the values of bindings yield the declared types -/
def Honours (c : Call) : Prop :=
  ∀ (i : Nat) t, c.exp.annotations[i]? = some (some t) → ∃ c', c.Makes i c' ∧ c'.Yields t

theorem honours_iff_of_runs {c : Call} {ts : List Ty} {s' : Supply}
    (runs : Runs (c.exp.checks c.env) c.supply ts s') :
    c.Honours ↔ ∀ (i : Nat) t, c.exp.annotations[i]? = some (some t) → ts[i]? = some t := by
  refine forall₃_congr fun i t hi => ?_
  have hlt : i < c.exp.parts.length :=
    Nat.lt_of_lt_of_le (List.getElem?_eq_some_iff.mp hi).1 (length_annotations_le c.exp)
  obtain ⟨c', u, hmakes, -, hu, hyields⟩ := makes_of_runs runs (List.getElem?_eq_getElem hlt)
  refine ⟨fun h => ?_, fun ht => ?_⟩
  · obtain ⟨c'', hmakes', hyields'⟩ := h
    obtain rfl := hmakes.unique hmakes'
    have htype := hyields.unique hyields'
    rw [hu, htype]
  · obtain rfl := Option.some.inj (hu.symm.trans ht)
    exact ⟨c', hmakes, hyields⟩

theorem Yields.honours_iff {c : Call} {t : Ty} (h : c.Yields t) :
    c.Honours ↔ c.exp.LambdasAgree := by
  rcases primitive_or_not c.exp with ⟨name, hname⟩ | hprim
  · rw [Honours, hname]
    exact iff_of_true (fun i u hu => by simp [annotations] at hu) trivial
  · obtain ⟨s', h⟩ := h
    obtain ⟨ts, runs, hrule⟩ := (typeOf_eq_ok_iff hprim).mp h
    rw [honours_iff_of_runs runs, hrule.annotations_iff]

end Call

/-- Every part of a typed expression is checked, and each check of a let, a letrec or a definition
honours the declared types, but that of a letrec only if they are those of its lambdas. -/
theorem declared_types_honoured_iff {env : Env} {e : Exp} {t : Ty} (typed : e.typeIn env = .ok t) :
    (∀ part, Exp.Within part e → ∃ c, (Call.start env e).Reaches c ∧ c.exp = part) ∧
      ∀ c, (Call.start env e).Reaches c →
        Exp.Within c.exp e ∧ (c.Honours ↔ c.exp.LambdasAgree) := by
  have h := Call.start_yields_iff.mpr typed
  refine ⟨fun part within => h.reaches within, fun c reach => ⟨reach.within, ?_⟩⟩
  obtain ⟨u, hu⟩ := reach.yields h
  exact hu.honours_iff

/-- the data of `(letrec (((f : string) (lambda ((x : number)) : number x))) f)` -/
def misdeclared : Datum :=
  .list [.symbol "letrec",
    .list [.list [.list [.symbol "f", .symbol ":", .symbol "string"],
      .list [.symbol "lambda", .list [.list [.symbol "x", .symbol ":", .symbol "number"]],
        .symbol ":", .symbol "number", .symbol "x"]]],
    .symbol "f"]

def misdeclaredExp : Exp :=
  .letrec [.binding (.decl "f" .string) (.lambda [.decl "x" .number] .number [.var "x"])]
    [.var "f"]

theorem declared_types_not_honoured_misdeclared :
    Exp.ofForm misdeclared = .ok misdeclaredExp ∧
      misdeclaredExp.typeIn .empty = .ok (.proc [.number] .number) ∧
      ¬ (Call.start .empty misdeclaredExp).Honours := by
  have typed : misdeclaredExp.typeIn .empty = .ok (.proc [.number] .number) := rfl
  have hiff := ((declared_types_honoured_iff typed).2 _ (.refl _)).2
  refine ⟨rfl, typed, fun honours => ?_⟩
  have agree : misdeclaredExp.LambdasAgree := hiff.mp honours
  have h := agree _ (List.mem_singleton.mpr rfl) _ _ rfl _ _ rfl
  cases h

end AnnotatedScheme
