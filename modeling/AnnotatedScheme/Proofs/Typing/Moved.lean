import AnnotatedScheme.Proofs.Typing.Twins

/-!
# A check from another supply

Two checks of one expression can draw different names, since the supply stands elsewhere or reserves
other names. Of the reserved names, only the numbered ones matter: `Supply.Concur` says that two
lists have the same ones.

* `Exp.typeOf_reserving`     with a list that concurs, the same type comes out;
* `Runs.moved`               from a supply that concurs and reserves the names around and in the
                             expressions, a run goes through as well, and `Redraws` says which
                             permutation of names takes the one types to the other;
* `Runs.anywhere`            types without drawn names stay as they are;
* `exists_runs_map_iff`      if all types of a run are of this kind, its checks can be made in any
                             order, since each of them can be made first.
-/

namespace AnnotatedScheme

namespace Supply

/-! ## reserved names -/

/-- the same numbered names are reserved -/
def Concur (reserved reserved' : List String) : Prop :=
  ∀ base index, candidate base index ∈ reserved ↔ candidate base index ∈ reserved'

/-- a supply with other reserved names -/
def reserving (reserved : List String) (s : Supply) : Supply := ⟨reserved, s.next⟩

theorem Concur.of_eq {reserved reserved' : List String} (h : reserved = reserved') :
    Concur reserved reserved' :=
  fun _ _ => h ▸ Iff.rfl

variable {s : Supply} {reserved : List String}

/-- What is erased on the way has smaller numbers, so that the lists agree on the rest. -/
theorem freeIndex_congr {base : String} {reserved reserved' : List String} {index : Nat}
    (h : ∀ j, index ≤ j → (candidate base j ∈ reserved ↔ candidate base j ∈ reserved')) :
    freeIndex base reserved index = freeIndex base reserved' index := by
  fun_induction freeIndex base reserved index generalizing reserved' with
  | case1 reserved index hmem ih =>
    have hmem' : candidate base index ∈ reserved' := (h index (Nat.le_refl _)).mp hmem
    rw [freeIndex.eq_def base reserved' index, if_pos hmem']
    refine ih fun j hj => ?_
    rw [candidate_mem_erase_iff hj, candidate_mem_erase_iff hj]
    exact h j (Nat.le_of_succ_le hj)
  | case2 reserved index hmem =>
    have hmem' : candidate base index ∉ reserved' := mt (h index (Nat.le_refl _)).mpr hmem
    rw [freeIndex.eq_def base reserved' index, if_neg hmem']

theorem fresh_reserving (h : Concur s.reserved reserved) (base : String) :
    (s.reserving reserved).fresh base =
      ((s.fresh base).1, (s.fresh base).2.reserving reserved) := by
  have hindex : freeIndex base reserved s.next = freeIndex base s.reserved s.next :=
    freeIndex_congr fun j _ => (h base j).symm
  unfold fresh reserving
  rw [hindex]

theorem freshEach_reserving (h : Concur s.reserved reserved) (names : List String) :
    freshEach names (s.reserving reserved) =
      ((freshEach names s).1, (freshEach names s).2.reserving reserved) := by
  induction names generalizing s with
  | nil => rfl
  | cons first rest ih =>
    have hrest : Concur (s.fresh first).2.reserved reserved := h
    rw [freshEach, freshEach, fresh_reserving h]
    dsimp only
    rw [ih hrest]

theorem rename_reserving (h : Concur s.reserved reserved) (t : Ty) :
    rename t (s.reserving reserved) = ((rename t s).1, (rename t s).2.reserving reserved) := by
  unfold rename
  rw [freshEach_reserving h]

end Supply

open Supply

/-! ## other reserved names -/

variable {cs : List (Env × Exp)} {ts : List Ty} {s s' s₁ : Supply}

/-- The step: a run goes through with other reserved names if each check does. -/
theorem Runs.reserving {reserved : List String} (runs : Runs cs s ts s')
    (hall : ∀ c ∈ cs, ∀ s₁ t s₂, s₁.reserved = s.reserved → c.2.typeOf c.1 s₁ = .ok t s₂ →
      c.2.typeOf c.1 (s₁.reserving reserved) = .ok t (s₂.reserving reserved)) :
    Runs cs (s.reserving reserved) ts (s'.reserving reserved) := by
  have hsame : List.Forall₂ Eq cs cs := List.forall₂_same.mpr fun _ _ => rfl
  have runs' := runs.simulated id (Supply.reserving reserved) hsame ?_
  · rwa [List.map_id] at runs'
  · rintro c hc _ rfl s₁ t s₂ hs hcheck
    exact hall c hc s₁ t s₂ hs hcheck

theorem Exp.typeOf_reserving {e : Exp} {env : Env} {t : Ty} {reserved : List String}
    (h : e.typeOf env s = .ok t s') (concur : Concur s.reserved reserved) :
    e.typeOf env (s.reserving reserved) = .ok t (s'.reserving reserved) := by
  induction e using Exp.partsInduct generalizing env s t s' with
  | step e ih =>
    rcases primitive_or_not e with ⟨name, rfl⟩ | hprim
    · obtain ⟨signature, hsig, hrename⟩ := typeOf_primitive_eq_ok_iff.mp h
      refine typeOf_primitive_eq_ok_iff.mpr ⟨signature, hsig, ?_⟩
      rw [rename_reserving concur, hrename]
    · obtain ⟨ts, runs, hrule⟩ := (typeOf_eq_ok_iff hprim).mp h
      refine (typeOf_eq_ok_iff hprim).mpr ⟨ts, runs.reserving ?_, hrule⟩
      intro c hc s₁ u s₂ hs hcheck
      exact ih c.2 (mem_parts_of_mem_checks hc) hcheck (hs ▸ concur)

/-! ## runs from other supplies -/

/-- a permutation that comes of drawing other names: it moves none but numbered names, no reserved
ones and not `literal` -/
structure Redraws (reserved : List String) (σ : Equiv.Perm String) : Prop where
  fixes : ∀ name, name ∈ reserved ∨ name = "literal" → σ name = name
  moves : ∀ name, σ name ≠ name → ∃ base index, name = candidate base index

theorem Runs.moved (runs : Runs cs s ts s₁) (concur : Concur s.reserved s'.reserved)
    (covered : ∀ c ∈ cs, (Call.mk c.1 c.2 s').Covered) :
    ∃ σ, Redraws s'.reserved σ ∧ ∃ s₂, Runs cs s' (ts.map (Ty.rename σ)) s₂ := by
  have runs' : Runs cs (s.reserving s'.reserved) ts (s₁.reserving s'.reserved) := by
    refine runs.reserving fun c _ s₂ t s₃ hs hcheck => ?_
    exact Exp.typeOf_reserving hcheck (hs ▸ concur)
  have hsame : List.Forall₂ Eq cs cs := List.forall₂_same.mpr fun _ _ => rfl
  have hfollow : ∀ c ∈ cs, ∀ d, c = d → ∀ (w : Twins s'.reserved) t s₂,
      c.2.typeOf c.1 w.first = .ok t s₂ → w.Follow d t s₂ := by
    rintro c hc _ rfl w t s₂ hcheck
    have hcovered : (Call.mk c.1 c.2 w.first).Covered := fun name hname =>
      w.reserved_first.symm ▸ covered c hc name hname
    exact Exp.typeOf_twins hcovered hcheck
  obtain ⟨w, -, -, -, runs''⟩ :=
    runs'.twins hsame hfollow (w := Twins.start s'.reserved s.next s'.next) rfl
  exact ⟨w.σ, ⟨w.fixes, w.moves⟩, w.second, runs''⟩

theorem Runs.anywhere (runs : Runs cs s ts s₁) (concur : Concur s.reserved s'.reserved)
    (covered : ∀ c ∈ cs, (Call.mk c.1 c.2 s').Covered)
    (known : ∀ t ∈ ts, ∀ name ∈ t.names, name ∈ s'.reserved ∨ name = "literal") :
    ∃ s₂, Runs cs s' ts s₂ := by
  obtain ⟨σ, redraws, s₂, runs'⟩ := runs.moved concur covered
  have hsame : ts.map (Ty.rename σ) = ts :=
    Ty.map_rename_eq_self fun t ht name hname => redraws.fixes name (known t ht name hname)
  rw [hsame] at runs'
  exact ⟨s₂, runs'⟩

theorem Exp.typeOf_anywhere {e : Exp} {env : Env} {t : Ty} (h : e.typeOf env s = .ok t s₁)
    (concur : Concur s.reserved s'.reserved) (covered : (Call.mk env e s').Covered)
    (known : ∀ name ∈ t.names, name ∈ s'.reserved ∨ name = "literal") :
    ∃ s₂, e.typeOf env s' = .ok t s₂ := by
  have runs : Runs [(env, e)] s [t] s₁ := .cons h (.nil s₁)
  obtain ⟨s₂, runs'⟩ := runs.anywhere concur (List.forall_mem_singleton.mpr covered)
    (List.forall_mem_singleton.mpr known)
  obtain ⟨s₃, head, -⟩ := Runs.cons_iff.mp runs'
  exact ⟨s₃, head⟩

/-! ## bodies -/

theorem Exp.typeOfBody_moved {env : Env} {body : List Exp} {t : Ty}
    (h : typeOfBody env body s = .ok t s₁) (concur : Concur s.reserved s'.reserved)
    (covered : ∀ c ∈ inEnv env body, (Call.mk c.1 c.2 s').Covered) :
    ∃ σ, Redraws s'.reserved σ ∧ ∃ s₂, typeOfBody env body s' = .ok (t.rename σ) s₂ := by
  obtain ⟨ts, runs, hlast⟩ := typeOfBody_eq_ok_iff.mp h
  obtain ⟨σ, redraws, s₂, runs'⟩ := runs.moved concur covered
  refine ⟨σ, redraws, s₂, typeOfBody_eq_ok_iff.mpr ⟨_, runs', ?_⟩⟩
  exact getLast?_map_rename hlast

theorem Exp.typeOfBody_anywhere {env : Env} {body : List Exp} {t : Ty}
    (h : typeOfBody env body s = .ok t s₁) (concur : Concur s.reserved s'.reserved)
    (covered : ∀ c ∈ inEnv env body, (Call.mk c.1 c.2 s').Covered)
    (known : ∀ name ∈ t.names, name ∈ s'.reserved ∨ name = "literal") :
    ∃ s₂, typeOfBody env body s' = .ok t s₂ := by
  obtain ⟨σ, redraws, s₂, h'⟩ := typeOfBody_moved h concur covered
  rw [Ty.rename_eq_self fun name hname => redraws.fixes name (known name hname)] at h'
  exact ⟨s₂, h'⟩

/-! ## checks in any order -/

/-- A run with types that hold no drawn names goes through just if each of its checks does so by
itself. -/
theorem exists_runs_map_iff {α : Type} {items : List α} {check : α → Env × Exp} {type : α → Ty}
    (covered : ∀ a ∈ items, (Call.mk (check a).1 (check a).2 s).Covered)
    (known : ∀ a ∈ items, ∀ name ∈ (type a).names, name ∈ s.reserved ∨ name = "literal") :
    (∃ s', Runs (items.map check) s (items.map type) s') ↔
      ∀ a ∈ items, (Call.mk (check a).1 (check a).2 s).Yields (type a) := by
  induction items with
  | nil => exact iff_of_true ⟨s, .nil s⟩ (List.forall_mem_nil _)
  | cons a items ih =>
    rw [List.forall_mem_cons] at covered known ⊢
    rw [← ih covered.2 known.2]
    -- the rest of the run can start in front of the first check and behind it
    have hrest : ∀ s₁ s₂, s₁.reserved = s.reserved → s₂.reserved = s.reserved →
        (∃ s', Runs (items.map check) s₁ (items.map type) s') →
          ∃ s', Runs (items.map check) s₂ (items.map type) s' := by
      intro s₁ s₂ hs₁ hs₂ hruns
      obtain ⟨s', runs⟩ := hruns
      have hsame : s₁.reserved = s₂.reserved := hs₁.trans hs₂.symm
      refine runs.anywhere (.of_eq hsame) ?_ ?_
      · refine List.forall_mem_map.mpr fun b hb name hname => ?_
        exact hs₂.symm ▸ covered.2 b hb name hname
      · refine List.forall_mem_map.mpr fun b hb name hname => ?_
        exact hs₂.symm ▸ known.2 b hb name hname
    constructor
    · rintro ⟨s', runs⟩
      obtain ⟨s₁, head, tail⟩ := Runs.cons_iff.mp runs
      have hreserved : s₁.reserved = s.reserved := (Exp.typeOf_traced head).1.reserved
      exact ⟨⟨s₁, head⟩, hrest s₁ s hreserved rfl ⟨s', tail⟩⟩
    · rintro ⟨⟨s₁, head⟩, hruns⟩
      have hreserved : s₁.reserved = s.reserved := (Exp.typeOf_traced head).1.reserved
      obtain ⟨s', tail⟩ := hrest s s₁ rfl hreserved hruns
      exact ⟨s', .cons head tail⟩

end AnnotatedScheme
