import AnnotatedScheme.Proofs.Ty.Supply
import Mathlib.Data.Finset.Card

/-!
# Calls on one supply

Names are drawn from one supply, call after call, on any bases:

* `Supply.Calls s bases names s'`   calls on these bases return these names, and leave `s'`: each
                                    call is a search from the index on where the supply stands;
* `Supply.calls_iff`                the calls end, and there is one outcome only;
* `Supply.ahead`                    the reserved names that can still be met. Each of them that is
                                    passed over is behind from then on, so that the index and the
                                    names ahead grow together by one a call at most (`Calls.cost`);
* `Calls.nodup`, `Calls.not_later`  no name is returned twice, in these calls or in later ones.
-/

namespace AnnotatedScheme

namespace Supply

variable {base : String} {reserved : List String} {i j : Nat}

/-! ## the cost of a search -/

/-- the reserved names whose number is not behind the index -/
def ahead (reserved : List String) (index : Nat) : Finset String :=
  reserved.toFinset.filter fun name => index ≤ numberOf name

theorem ahead_succ_subset (reserved : List String) (index : Nat) :
    ahead reserved (index + 1) ⊆ ahead reserved index := by
  refine Finset.monotone_filter_right _ ?_
  intro name _ hnumber
  exact Nat.le_of_succ_le hnumber

/-- a reserved candidate is passed over once -/
theorem card_ahead_succ_lt (h : candidate base i ∈ reserved) :
    (ahead reserved (i + 1)).card < (ahead reserved i).card := by
  have hnumber := numberOf_candidate base i
  have hsubset := ahead_succ_subset reserved i
  refine Finset.card_lt_card ((Finset.ssubset_iff_of_subset hsubset).mpr ⟨candidate base i, ?_, ?_⟩)
  · rw [ahead, Finset.mem_filter, List.mem_toFinset]
    exact ⟨h, hnumber.ge⟩
  · rw [ahead, Finset.mem_filter, hnumber]
    omega

theorem Search.cost (h : Search base reserved i j) :
    j + (ahead reserved j).card ≤ i + (ahead reserved i).card := by
  induction h with
  | free => exact Nat.le_refl _
  | pass h _ ih =>
    have hpassed := card_ahead_succ_lt h
    omega

/-- A search has one end. -/
theorem Search.unique {k : Nat} (h : Search base reserved i j) (h' : Search base reserved i k) :
    j = k := by
  induction h with
  | free h =>
    cases h' with
    | free => rfl
    | pass h' => exact absurd h' h
  | pass h _ ih =>
    cases h' with
    | free h' => exact absurd h h'
    | pass _ rest => exact ih rest

/-! ## calls -/

inductive Calls : Supply → List String → List String → Supply → Prop
  | nil (s : Supply) : Calls s [] [] s
  | cons {s s' : Supply} {base : String} {bases names : List String} {index : Nat}
      (search : Search base s.reserved s.next index)
      (rest : Calls { s with next := index + 1 } bases names s') :
      Calls s (base :: bases) (candidate base index :: names) s'

theorem calls_freshEach (bases : List String) (s : Supply) :
    Calls s bases ((freshEach bases s).1.map Prod.snd) (freshEach bases s).2 := by
  induction bases generalizing s with
  | nil => exact .nil s
  | cons base rest ih =>
    have hsearch := search_freeIndex base s.reserved s.next
    have hrest := ih (s.fresh base).2
    exact .cons hsearch hrest

namespace Calls

variable {s s₁ s' : Supply} {bases bases' names names' : List String}

theorem append (h : Calls s bases names s₁) (h' : Calls s₁ bases' names' s') :
    Calls s (bases ++ bases') (names ++ names') s' := by
  induction h with
  | nil => exact h'
  | cons search _ ih => exact .cons search (ih h')

theorem unique (h : Calls s bases names s₁) (h' : Calls s bases names' s') :
    names' = names ∧ s' = s₁ := by
  induction h generalizing names' with
  | nil =>
    cases h'
    exact ⟨rfl, rfl⟩
  | cons search _ ih =>
    cases h' with
    | cons search' rest' =>
      obtain rfl := search.unique search'
      obtain ⟨rfl, rfl⟩ := ih rest'
      exact ⟨rfl, rfl⟩

theorem grows (h : Calls s bases names s') : Grows s s' := by
  induction h with
  | nil => exact .refl _
  | @cons s s' base bases names index search rest ih =>
    have hstep : Grows s { s with next := index + 1 } := ⟨rfl, Nat.le_succ_of_le search.le⟩
    exact hstep.trans ih

/-- The names that are returned were drawn between the two supplies. -/
theorem drawn (h : Calls s bases names s') : ∀ name ∈ names, Drawn s s' name := by
  induction h with
  | nil => exact List.forall_mem_nil _
  | @cons s s' base bases names index search rest ih =>
    have hstep : Grows s { s with next := index + 1 } := ⟨rfl, Nat.le_succ_of_le search.le⟩
    have hfirst : Drawn s { s with next := index + 1 } (candidate base index) :=
      ⟨search.not_mem, base, index, rfl, search.le, Nat.lt_succ_self index⟩
    refine List.forall_mem_cons.mpr ⟨hfirst.of_front rest.grows, fun name hname => ?_⟩
    exact .of_back hstep (ih name hname)

/-- A name that was returned is not returned in later calls. -/
theorem not_later (h : Calls s bases names s₁) (h' : Calls s₁ bases' names' s') :
    ∀ name ∈ names, name ∉ names' := by
  intro name hname hname'
  exact (h.drawn name hname).not_later (h'.drawn name hname')

theorem nodup (h : Calls s bases names s') : names.Nodup := by
  induction h with
  | nil => exact List.nodup_nil
  | @cons s s' base bases names index search rest ih =>
    have hfirst : Calls s [base] [candidate base index] { s with next := index + 1 } :=
      .cons search (.nil _)
    exact List.nodup_cons.mpr ⟨hfirst.not_later rest _ List.mem_cons_self, ih⟩

theorem cost (h : Calls s bases names s') :
    s'.next + (ahead s.reserved s'.next).card ≤
      s.next + bases.length + (ahead s.reserved s.next).card := by
  induction h with
  | nil => exact Nat.le_refl _
  | @cons s s' base bases names index search rest ih =>
    have hsearch := search.cost
    have hstep := Finset.card_le_card (ahead_succ_subset s.reserved index)
    dsimp only at ih
    rw [List.length_cons]
    omega

end Calls

/-- Calls on any bases end, and in one way only. -/
theorem calls_iff {s s' : Supply} {bases names : List String} :
    Calls s bases names s' ↔
      names = (freshEach bases s).1.map Prod.snd ∧ s' = (freshEach bases s).2 := by
  refine ⟨fun h => (calls_freshEach bases s).unique h, ?_⟩
  rintro ⟨rfl, rfl⟩
  exact calls_freshEach bases s

end Supply

end AnnotatedScheme
