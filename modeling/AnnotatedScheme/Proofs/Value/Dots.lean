import AnnotatedScheme.Proofs.Exp.Grammar

/-!
# Dots in quoted data

A datum can be quoted just if each dot in it is an item in front of the last one of its list, which
has no other dot: `Value.exists_derives_iff`.
-/

namespace AnnotatedScheme

namespace Datum

/-- each dot is second to last, and no other item is a dot -/
def DotsBeforeLast (items : List Datum) : Prop :=
  ∀ i : Nat, items[i]? = some dot →
    i + 2 = items.length ∧ ∀ j : Nat, items[j]? = some dot → j = i

/-- all dots in a datum are items of lists, where they stand before the last item and alone -/
structure DotsInPlace (d : Datum) : Prop where
  ne_dot : d ≠ dot
  lists : ∀ items, (Datum.list items).Within d → DotsBeforeLast items

variable {d : Datum} {items rest : List Datum}

/-- two dots would both be second to last -/
theorem dotsBeforeLast_iff :
    DotsBeforeLast items ↔ ∀ i : Nat, items[i]? = some dot → i + 2 = items.length := by
  refine ⟨fun h i hi => (h i hi).1, fun h i hi => ⟨h i hi, fun j hj => ?_⟩⟩
  have hplace := h i hi
  have hother := h j hj
  omega

theorem dotsBeforeLast_cons_of_ne (hd : d ≠ dot) :
    DotsBeforeLast (d :: rest) ↔ DotsBeforeLast rest := by
  rw [dotsBeforeLast_iff, dotsBeforeLast_iff]
  constructor
  · intro h i hi
    have hplace : i + 1 + 2 = rest.length + 1 := h (i + 1) hi
    omega
  · intro h i hi
    cases i with
    | zero => exact absurd (Option.some.inj hi) hd
    | succ i =>
      have hplace := h i hi
      show i + 1 + 2 = rest.length + 1
      omega

theorem dotsBeforeLast_dot_cons :
    DotsBeforeLast (dot :: rest) ↔ ∃ last, rest = [last] ∧ last ≠ dot := by
  rw [dotsBeforeLast_iff]
  constructor
  · intro h
    have hlen : 0 + 2 = rest.length + 1 := h 0 rfl
    obtain ⟨last, rfl⟩ := List.length_eq_one_iff.mp (show rest.length = 1 by omega)
    refine ⟨last, rfl, ?_⟩
    rintro rfl
    have hsecond : 1 + 2 = 2 := h 1 rfl
    omega
  · rintro ⟨last, rfl, hlast⟩ i hi
    match i with
    | 0 => rfl
    | 1 => exact absurd (Option.some.inj hi) hlast
    | i + 2 => cases hi

theorem dotsBeforeLast_append {front : List Datum} (h : ∀ d ∈ front, d ≠ dot) :
    DotsBeforeLast (front ++ rest) ↔ DotsBeforeLast rest := by
  induction front with
  | nil => exact Iff.rfl
  | cons d front ih =>
    rw [List.forall_mem_cons] at h
    rw [List.cons_append, dotsBeforeLast_cons_of_ne h.1, ih h.2]

/-- behind a quote there is no room for a dot -/
theorem dotsBeforeLast_quote_iff : DotsBeforeLast [symbol "quote", d] ↔ d ≠ dot := by
  have hquote : symbol "quote" ≠ dot := fun heq =>
    absurd (Atom.symbol.inj (Datum.atom.inj heq)) (by decide)
  rw [dotsBeforeLast_cons_of_ne hquote]
  constructor
  · rintro h rfl
    obtain ⟨last, hlast, -⟩ := dotsBeforeLast_dot_cons.mp h
    cases hlast
  · intro hd
    rw [dotsBeforeLast_cons_of_ne hd]
    exact nofun

theorem dotsInPlace_list_iff :
    (Datum.list items).DotsInPlace ↔
      DotsBeforeLast items ∧ ∀ d ∈ items, d ≠ dot → d.DotsInPlace := by
  constructor
  · intro h
    refine ⟨h.lists items .refl, fun d hd hne => ⟨hne, fun inner within => ?_⟩⟩
    exact h.lists inner (.item hd within)
  · rintro ⟨hitems, hall⟩
    refine ⟨nofun, fun inner within => ?_⟩
    cases within with
    | refl => exact hitems
    | @item d _ hd within =>
      by_cases hne : d = dot
      · subst hne
        cases within
      · exact (hall d hd hne).lists inner within

end Datum

namespace Value

open Datum

theorem Derives.dotsInPlace {d : Datum} {v : Value} (h : Derives d v) : d.DotsInPlace := by
  induction h with
  | atom h => exact ⟨fun heq => h (Datum.atom.inj heq), fun items within => nomatch within⟩
  | gap => exact ⟨nofun, fun items within => nomatch within⟩
  | empty => exact dotsInPlace_list_iff.mpr ⟨nofun, List.forall_mem_nil _⟩
  | tail _ ih =>
    refine dotsInPlace_list_iff.mpr ⟨dotsBeforeLast_dot_cons.mpr ⟨_, rfl, ih.ne_dot⟩, ?_⟩
    exact List.forall_mem_cons.mpr
      ⟨fun hne => absurd rfl hne, List.forall_mem_singleton.mpr fun _ => ih⟩
  | cell _ _ ihf ihs =>
    obtain ⟨hrest, hall⟩ := dotsInPlace_list_iff.mp ihs
    refine dotsInPlace_list_iff.mpr ⟨(dotsBeforeLast_cons_of_ne ihf.ne_dot).mpr hrest, ?_⟩
    exact List.forall_mem_cons.mpr ⟨fun _ => ihf, hall⟩

theorem exists_derives_of_items {items : List Datum}
    (each : ∀ d ∈ items, d.DotsInPlace → ∃ v, Derives d v)
    (h : (Datum.list items).DotsInPlace) : ∃ v, Derives (.list items) v := by
  induction items with
  | nil => exact ⟨.empty, .empty⟩
  | cons d rest ih =>
    obtain ⟨hdots, hall⟩ := dotsInPlace_list_iff.mp h
    rw [List.forall_mem_cons] at each hall
    by_cases hd : d = dot
    · subst hd
      obtain ⟨last, rfl, hlast⟩ := dotsBeforeLast_dot_cons.mp hdots
      have hmem : last ∈ [last] := List.mem_singleton.mpr rfl
      obtain ⟨v, hv⟩ := each.2 last hmem (hall.2 last hmem hlast)
      exact ⟨_, .tail hv⟩
    · have hrest := dotsInPlace_list_iff.mpr ⟨(dotsBeforeLast_cons_of_ne hd).mp hdots, hall.2⟩
      obtain ⟨first, hfirst⟩ := each.1 (hall.1 hd)
      obtain ⟨second, hsecond⟩ := ih each.2 hrest
      exact ⟨_, .cell hfirst hsecond⟩

/-- Just the data with all dots in place are values. -/
theorem exists_derives_iff {d : Datum} : (∃ v, Derives d v) ↔ d.DotsInPlace := by
  constructor
  · rintro ⟨v, h⟩
    exact h.dotsInPlace
  · intro h
    induction d using Datum.induct with
    | atom value => exact ⟨_, .atom fun heq => h.ne_dot (congrArg Datum.atom heq)⟩
    | list items ih => exact exists_derives_of_items ih h
    | gap => exact ⟨_, .gap⟩

end Value

end AnnotatedScheme
