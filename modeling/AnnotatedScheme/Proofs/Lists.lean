import AnnotatedScheme.Exp.Builder

/-!
# Outcomes in sequence

What is read from left to right comes out well if every part does; the results are those of the
parts, in their order.
-/

namespace AnnotatedScheme

variable {α β ε : Type}

theorem Except.bind_eq_ok_iff {x : Except ε α} {f : α → Except ε β} {b : β} :
    x >>= f = .ok b ↔ ∃ a, x = .ok a ∧ f a = .ok b := by
  cases x <;> simp [bind, Except.bind]

theorem Except.bind_eq_error_iff {x : Except ε α} {f : α → Except ε β} {e : ε} :
    x >>= f = .error e ↔ x = .error e ∨ ∃ a, x = .ok a ∧ f a = .error e := by
  cases x <;> simp [bind, Except.bind]

theorem Except.pure_eq_ok_iff {a b : α} : (pure a : Except ε α) = .ok b ↔ a = b := by
  simp [pure, Except.pure]

theorem Except.mapError_eq_ok_iff {ε' : Type} {x : Except ε α} {f : ε → ε'} {a : α} :
    x.mapError f = .ok a ↔ x = .ok a := by
  cases x with
  | ok b =>
    show Except.ok b = .ok a ↔ _
    rw [Except.ok.injEq, Except.ok.injEq]
  | error e =>
    show Except.error (f e) = .ok a ↔ _
    exact iff_of_false (fun h => by cases h) fun h => by cases h

theorem Except.mapError_eq_error_iff {ε' : Type} {x : Except ε α} {f : ε → ε'} {e' : ε'} :
    x.mapError f = .error e' ↔ ∃ e, x = .error e ∧ f e = e' := by
  cases x with
  | ok b =>
    show Except.ok b = .error e' ↔ _
    constructor
    · intro h
      cases h
    · rintro ⟨e, h, -⟩
      cases h
  | error e =>
    show Except.error (f e) = .error e' ↔ _
    simp only [Except.error.injEq, exists_eq_left']

theorem Except.toOption_eq_some_iff {x : Except ε α} {a : α} :
    x.toOption = some a ↔ x = .ok a := by
  cases x with
  | ok b =>
    show some b = some a ↔ _
    rw [Option.some.injEq, Except.ok.injEq]
  | error e =>
    show none = some a ↔ _
    exact iff_of_false (fun h => by cases h) fun h => by cases h

theorem mapM_eq_some_iff {f : α → Option β} {as : List α} {bs : List β} :
    as.mapM f = some bs ↔ as.map f = bs.map some := by
  induction as generalizing bs with
  | nil => cases bs <;> simp
  | cons a as ih =>
    simp only [List.mapM_cons, Option.bind_eq_bind, Option.bind_eq_some_iff, Option.pure_def,
      Option.some.injEq, ih]
    rw [List.map_cons, eq_comm, List.map_eq_cons_iff]
    refine ⟨fun h => ?_, fun h => ?_⟩
    · obtain ⟨b, hb, tail, htail, rfl⟩ := h
      exact ⟨b, tail, rfl, hb.symm, htail.symm⟩
    · obtain ⟨b, tail, rfl, hb, htail⟩ := h
      exact ⟨b, hb.symm, tail, htail.symm, rfl⟩

theorem mapM_eq_ok_iff {f : α → Except ε β} {as : List α} {bs : List β} :
    as.mapM f = .ok bs ↔ as.map f = bs.map .ok := by
  induction as generalizing bs with
  | nil => cases bs <;> simp [Except.pure_eq_ok_iff]
  | cons a as ih =>
    simp only [List.mapM_cons, Except.bind_eq_ok_iff, Except.pure_eq_ok_iff, ih]
    rw [List.map_cons, eq_comm (b := bs.map _), List.map_eq_cons_iff]
    refine ⟨fun h => ?_, fun h => ?_⟩
    · obtain ⟨b, hb, tail, htail, rfl⟩ := h
      exact ⟨b, tail, rfl, hb.symm, htail.symm⟩
    · obtain ⟨b, tail, rfl, hb, htail⟩ := h
      exact ⟨b, hb.symm, tail, htail.symm, rfl⟩

/-- lists with the same images, as a list of pairs with the same image -/
theorem map_eq_map_iff_pairs {γ : Type} {f : α → γ} {g : β → γ} {as : List α} {bs : List β} :
    as.map f = bs.map g ↔ ∃ ps : List (α × β),
      as = ps.map Prod.fst ∧ bs = ps.map Prod.snd ∧ ∀ p ∈ ps, f p.1 = g p.2 := by
  refine ⟨fun h => ?_, fun h => ?_⟩
  · induction as generalizing bs with
    | nil =>
      obtain rfl := List.map_eq_nil_iff.mp h.symm
      exact ⟨[], rfl, rfl, List.forall_mem_nil _⟩
    | cons a as ih =>
      obtain ⟨b, bs, rfl, hb, hbs⟩ := List.map_eq_cons_iff.mp h.symm
      obtain ⟨ps, rfl, rfl, hps⟩ := ih hbs.symm
      exact ⟨(a, b) :: ps, rfl, rfl, List.forall_mem_cons.mpr ⟨hb.symm, hps⟩⟩
  · obtain ⟨ps, rfl, rfl, hps⟩ := h
    rw [List.map_map, List.map_map]
    exact List.map_congr_left hps

/-- the results stand beside the items that they come from -/
theorem mapM_eq_ok_iff_pairs {f : α → Except ε β} {as : List α} {bs : List β} :
    as.mapM f = .ok bs ↔ ∃ ps : List (α × β),
      as = ps.map Prod.fst ∧ bs = ps.map Prod.snd ∧ ∀ p ∈ ps, f p.1 = .ok p.2 := by
  rw [mapM_eq_ok_iff, map_eq_map_iff_pairs]

/-- what is computed from images is the image of what is computed -/
theorem mapM_map_of_comm {α' β' : Type} {f : α → Option β} {f' : α' → Option β'} {g : α → α'}
    {h : β → β'} (comm : ∀ a, f' (g a) = (f a).map h) (as : List α) :
    (as.map g).mapM f' = (as.mapM f).map (List.map h) := by
  induction as with
  | nil => rfl
  | cons a as ih =>
    rw [List.map_cons, List.mapM_cons, List.mapM_cons, comm, ih]
    cases f a with
    | none => rfl
    | some b => cases as.mapM f <;> rfl

/-- what can be computed from results can be computed from the items -/
theorem filterMap_of_mapM {γ : Type} {f : α → Option β} {g : α → Option γ} {k : β → γ}
    {as : List α} {bs : List β} (h : as.mapM f = some bs)
    (hg : ∀ a b, f a = some b → g a = some (k b)) : as.filterMap g = bs.map k := by
  rw [mapM_eq_some_iff] at h
  induction as generalizing bs with
  | nil =>
    obtain rfl := List.map_eq_nil_iff.mp h.symm
    rfl
  | cons a as ih =>
    obtain ⟨b, bs, rfl, hb, hbs⟩ := List.map_eq_cons_iff.mp h.symm
    rw [List.filterMap_cons_some (hg a b hb.symm), ih hbs.symm, List.map_cons]

/-- a list of images is the image of a list -/
theorem exists_map_of_forall {f : α → β} {P : α → Prop} {bs : List β}
    (h : ∀ b ∈ bs, ∃ a, b = f a ∧ P a) : ∃ as : List α, bs = as.map f ∧ ∀ a ∈ as, P a := by
  induction bs with
  | nil => exact ⟨[], rfl, List.forall_mem_nil _⟩
  | cons b bs ih =>
    rw [List.forall_mem_cons] at h
    obtain ⟨⟨a, rfl, ha⟩, hbs⟩ := h
    obtain ⟨as, rfl, has⟩ := ih hbs
    exact ⟨a :: as, rfl, List.forall_mem_cons.mpr ⟨ha, has⟩⟩

theorem mem_of_lookup_eq_some [BEq α] [LawfulBEq α] {as : List (α × β)} {a : α} {b : β}
    (h : as.lookup a = some b) : (a, b) ∈ as := by
  obtain ⟨front, back, rfl, -⟩ := List.lookup_eq_some_iff.mp h
  exact List.mem_append_right front List.mem_cons_self

theorem lookup_eq_none_iff_not_mem [BEq α] [LawfulBEq α] {as : List (α × β)} {a : α} :
    as.lookup a = none ↔ a ∉ as.map Prod.fst := by
  rw [List.lookup_eq_none_iff]
  constructor
  · rintro h hmem
    obtain ⟨p, hp, rfl⟩ := List.mem_map.mp hmem
    exact bne_iff_ne.mp (h p hp) rfl
  · intro h p hp
    refine bne_iff_ne.mpr ?_
    rintro rfl
    exact h (List.mem_map_of_mem hp)

/-- where each key stands once, a look-up finds whatever is there, in any order -/
theorem lookup_eq_some_iff_mem [BEq α] [LawfulBEq α] {as : List (α × β)}
    (h : (as.map Prod.fst).Nodup) {a : α} {b : β} : as.lookup a = some b ↔ (a, b) ∈ as := by
  refine ⟨mem_of_lookup_eq_some, fun hmem => ?_⟩
  obtain ⟨front, back, rfl⟩ := List.append_of_mem hmem
  rw [List.map_append, List.map_cons, List.nodup_append] at h
  refine List.lookup_eq_some_iff.mpr ⟨front, back, rfl, fun p hp => bne_iff_ne.mpr ?_⟩
  exact (h.2.2 p.1 (List.mem_map_of_mem hp) a List.mem_cons_self).symm

theorem lookup_eq_of_perm [BEq α] [LawfulBEq α] {as bs : List (α × β)} (perm : as.Perm bs)
    (h : (as.map Prod.fst).Nodup) (a : α) : as.lookup a = bs.lookup a := by
  have h' : (bs.map Prod.fst).Nodup := (perm.map Prod.fst).nodup_iff.mp h
  apply Option.ext
  intro b
  rw [lookup_eq_some_iff_mem h, lookup_eq_some_iff_mem h', perm.mem_iff]

theorem lookup_map_prodMap {γ : Type} [BEq α] (f : β → γ) (as : List (α × β)) (a : α) :
    (as.map (Prod.map id f)).lookup a = (as.lookup a).map f := by
  induction as with
  | nil => rfl
  | cons p rest ih =>
    rw [List.map_cons, List.lookup_cons, List.lookup_cons, ih]
    show (match a == p.1 with | true => some (f p.2) | false => _) = _
    cases a == p.1 <;> rfl

/-- each result comes from an item -/
theorem exists_of_map_eq {γ : Type} {f : α → γ} {g : β → γ} {as : List α} {bs : List β}
    (h : as.map f = bs.map g) {b : β} (hb : b ∈ bs) : ∃ a ∈ as, f a = g b :=
  List.mem_map.mp (h ▸ List.mem_map_of_mem hb)

end AnnotatedScheme
