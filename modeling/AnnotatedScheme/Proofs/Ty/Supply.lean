import AnnotatedScheme.Ty.Supply
import AnnotatedScheme.Proofs.Ty.Basic

/-!
# Fresh names are fresh

* `Supply.candidate_inj`   a numbered name determines its number, and so its base;
* `Supply.Search`          the search for a free index, one index at a time, and that it comes to an
                           end (`search_freeIndex`);
* `Supply.Grows`           what drawing does to a supply: the reserved names stay and the index
                           does not fall;
* `Supply.Drawn s s'`      the names that can be drawn between two supplies: none of them is
                           reserved, and none can be drawn later on (`Drawn.not_later`);
* `Supply.rename_spec`     a renamed type has such names only.
-/

namespace AnnotatedScheme

namespace Supply

/-! ## numbered names -/

theorem toList_candidate (base : String) (index : Nat) :
    (candidate base index).toList = base.toList ++ '_' :: Nat.toDigits 10 index := by
  simp [candidate, Nat.toString_eq_repr, Nat.toList_repr]

theorem underscore_mem_candidate (base : String) (index : Nat) :
    '_' ∈ (candidate base index).toList := by
  simp [toList_candidate]

theorem candidate_ne_literal (base : String) (index : Nat) : candidate base index ≠ "literal" := by
  intro h
  have hunderscore := underscore_mem_candidate base index
  rw [h] at hunderscore
  exact absurd hunderscore (by decide)

/-- the digits behind the last underscore -/
def numberOf (name : String) : Nat :=
  Nat.ofDigitChars 10 (name.toList.reverse.takeWhile (· ≠ '_')).reverse 0

theorem numberOf_candidate (base : String) (index : Nat) :
    numberOf (candidate base index) = index := by
  have hdigits : ∀ c ∈ (Nat.toDigits 10 index).reverse, decide (c ≠ '_') = true := by
    intro c hc
    refine decide_eq_true fun heq => Nat.underscore_not_in_toDigits (n := index) ?_
    exact heq ▸ List.mem_reverse.mp hc
  have hback : (candidate base index).toList.reverse =
      (Nat.toDigits 10 index).reverse ++ '_' :: base.toList.reverse := by
    rw [toList_candidate, List.reverse_append, List.reverse_cons, List.append_assoc,
      List.singleton_append]
  rw [numberOf, hback, List.takeWhile_append_of_pos hdigits, List.takeWhile_cons_of_neg (by simp),
    List.append_nil, List.reverse_reverse, Nat.ofDigitChars_ten_toDigits]

theorem candidate_inj {base base' : String} {index index' : Nat}
    (h : candidate base index = candidate base' index') : index = index' := by
  rw [← numberOf_candidate base index, h, numberOf_candidate]

theorem candidate_base_inj {base base' : String} {index index' : Nat}
    (h : candidate base index = candidate base' index') : base = base' := by
  obtain rfl := candidate_inj h
  have hlist := congrArg String.toList h
  rw [toList_candidate, toList_candidate] at hlist
  exact String.toList_inj.mp (List.append_cancel_right hlist)

/-! ## the search -/

/-- From the index `i` on, reserved candidates are passed over, one after the other, up to the free
one at `j`. -/
inductive Search (base : String) (reserved : List String) : Nat → Nat → Prop
  | free {i : Nat} (h : candidate base i ∉ reserved) : Search base reserved i i
  | pass {i j : Nat} (h : candidate base i ∈ reserved) (rest : Search base reserved (i + 1) j) :
      Search base reserved i j

section

variable {base : String} {reserved : List String} {i j : Nat}

theorem Search.le (h : Search base reserved i j) : i ≤ j := by
  induction h with
  | free => exact Nat.le_refl _
  | pass _ _ ih => omega

theorem Search.not_mem (h : Search base reserved i j) : candidate base j ∉ reserved := by
  induction h with
  | free h => exact h
  | pass _ _ ih => exact ih

theorem Search.congr {reserved' : List String} (h : Search base reserved i j)
    (hsame : ∀ k, i ≤ k → (candidate base k ∈ reserved ↔ candidate base k ∈ reserved')) :
    Search base reserved' i j := by
  induction h with
  | free h => exact .free (mt (hsame _ (Nat.le_refl _)).mpr h)
  | @pass i j h _ ih =>
    exact .pass ((hsame i (Nat.le_refl _)).mp h) (ih fun k hk => hsame k (Nat.le_of_succ_le hk))

theorem candidate_mem_erase_iff (h : i < j) :
    candidate base j ∈ reserved.erase (candidate base i) ↔ candidate base j ∈ reserved := by
  refine List.mem_erase_of_ne fun heq => ?_
  have hindex := candidate_inj heq
  omega

end

/-- What is erased on the way has smaller numbers, and would not be met again. -/
theorem search_freeIndex (base : String) (reserved : List String) (index : Nat) :
    Search base reserved index (freeIndex base reserved index) := by
  fun_induction freeIndex base reserved index with
  | case1 reserved index h ih => exact .pass h (ih.congr fun _ => candidate_mem_erase_iff)
  | case2 reserved index h => exact .free h

/-! ## drawing -/

/-- what drawing names leaves of a supply -/
structure Grows (s s' : Supply) : Prop where
  reserved : s'.reserved = s.reserved
  next : s.next ≤ s'.next

/-- a name that can be drawn between two supplies -/
def Drawn (s s' : Supply) (name : String) : Prop :=
  name ∉ s.reserved ∧
    ∃ base index, name = candidate base index ∧ s.next ≤ index ∧ index < s'.next

variable {s s₁ s' : Supply}

theorem Grows.refl (s : Supply) : Grows s s := ⟨rfl, Nat.le_refl _⟩

theorem Grows.trans (h : Grows s s₁) (h' : Grows s₁ s') : Grows s s' :=
  ⟨h'.reserved.trans h.reserved, Nat.le_trans h.next h'.next⟩

theorem Drawn.of_front {name : String} (h : Drawn s s₁ name) (h' : Grows s₁ s') :
    Drawn s s' name := by
  obtain ⟨hres, base, index, hname, hle, hlt⟩ := h
  exact ⟨hres, base, index, hname, hle, Nat.lt_of_lt_of_le hlt h'.next⟩

theorem Drawn.of_back {name : String} (h : Grows s s₁) (h' : Drawn s₁ s' name) :
    Drawn s s' name := by
  obtain ⟨hres, base, index, hname, hle, hlt⟩ := h'
  exact ⟨h.reserved ▸ hres, base, index, hname, Nat.le_trans h.next hle, hlt⟩

theorem Drawn.ne_literal {name : String} (h : Drawn s s' name) : name ≠ "literal" := by
  obtain ⟨-, base, index, rfl, -⟩ := h
  exact candidate_ne_literal base index

/-- A drawn name is not drawn again. -/
theorem Drawn.not_later {name : String} (h : Drawn s s₁ name) : ¬ Drawn s₁ s' name := by
  obtain ⟨-, base, index, rfl, -, hlt⟩ := h
  intro h'
  obtain ⟨-, base', index', hname, hle, -⟩ := h'
  have hindex := candidate_inj hname
  omega

theorem fresh_spec (base : String) (s : Supply) :
    Grows s (s.fresh base).2 ∧ Drawn s (s.fresh base).2 (s.fresh base).1 := by
  have hsearch := search_freeIndex base s.reserved s.next
  refine ⟨⟨rfl, Nat.le_succ_of_le hsearch.le⟩, hsearch.not_mem, ?_⟩
  exact ⟨base, _, rfl, hsearch.le, Nat.lt_succ_self _⟩

theorem freshEach_spec (names : List String) (s : Supply) :
    Grows s (freshEach names s).2 ∧
      ∀ name ∈ names, ∃ index,
        (freshEach names s).1.lookup name = some (candidate name index) ∧
          Drawn s (freshEach names s).2 (candidate name index) := by
  induction names generalizing s with
  | nil => exact ⟨.refl s, nofun⟩
  | cons first rest ih =>
    obtain ⟨hgrows, hnew⟩ := fresh_spec first s
    obtain ⟨hgrows', hrest⟩ := ih (s.fresh first).2
    refine ⟨hgrows.trans hgrows', fun name hname => ?_⟩
    by_cases heq : name = first
    · subst heq
      exact ⟨_, List.lookup_cons_self, hnew.of_front hgrows'⟩
    · obtain ⟨index, hlookup, hdrawn⟩ := hrest name (List.mem_of_ne_of_mem heq hname)
      refine ⟨index, ?_, .of_back hgrows hdrawn⟩
      rw [freshEach, List.lookup_cons, beq_false_of_ne heq]
      exact hlookup

theorem freshEach_cons (name : String) (rest : List String) (s : Supply) :
    freshEach (name :: rest) s =
      ((name, (s.fresh name).1) :: (freshEach rest (s.fresh name).2).1,
        (freshEach rest (s.fresh name).2).2) :=
  rfl

theorem freshEach_append (names more : List String) (s : Supply) :
    freshEach (names ++ more) s =
      ((freshEach names s).1 ++ (freshEach more (freshEach names s).2).1,
        (freshEach more (freshEach names s).2).2) := by
  induction names generalizing s with
  | nil => rfl
  | cons name rest ih => rw [List.cons_append, freshEach_cons, freshEach_cons, ih, List.cons_append]

theorem map_fst_freshEach (names : List String) (s : Supply) :
    (freshEach names s).1.map Prod.fst = names := by
  induction names generalizing s with
  | nil => rfl
  | cons name rest ih => rw [freshEach_cons, List.map_cons, ih]

/-- A renamed type has the shape of the type, with a drawn name for each variable. -/
theorem rename_spec (t : Ty) (s : Supply) :
    Grows s (rename t s).2 ∧ ∃ f : String → String, (rename t s).1 = t.substitute (.var ∘ f) ∧
      ∀ name ∈ t.names, Drawn s (rename t s).2 (f name) ∧
        ∃ index, f name = candidate name index := by
  obtain ⟨hgrows, hdrawn⟩ := freshEach_spec t.names.eraseDups s
  refine ⟨hgrows, renamed (freshEach t.names.eraseDups s).1, rfl, fun name hname => ?_⟩
  obtain ⟨index, hlookup, hnew⟩ := hdrawn name (List.mem_eraseDups.mpr hname)
  rw [renamed, hlookup]
  exact ⟨hnew, index, rfl⟩

theorem drawn_of_mem_names_rename {t : Ty} {name : String} (h : name ∈ (rename t s).1.names) :
    Drawn s (rename t s).2 name := by
  obtain ⟨-, f, hf, hdrawn⟩ := rename_spec t s
  rw [hf, Ty.mem_names_substitute] at h
  obtain ⟨n, hn, h⟩ := h
  obtain rfl := List.mem_singleton.mp h
  exact (hdrawn n hn).1

end Supply

end AnnotatedScheme
