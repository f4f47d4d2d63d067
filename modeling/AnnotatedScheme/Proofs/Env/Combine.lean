import AnnotatedScheme.Proofs.Env.Basic

/-!
# A frame on top of what is bound

Of a second environment, a combination sees the innermost frame only. It is refused if a variable
in that frame has a type that mentions it; otherwise a look-up in the result is one in the first
environment, and then one in that frame (`Env.combine_resolves`).

The variables of a form come into force by `env.combine (env.extend frame)`:

* `Env.combine_extend_eq_ok_iff`  when this has a result, and which one;
* `Env.lookup_combine_extend`     a look-up in the result finds what `env` binds, and then what the
                                  frame binds;
* `Env.combine_binding_isOk_iff`  a single binding is refused if its type mentions its variable,
                                  but never on top of the empty environment.
-/

namespace AnnotatedScheme.Env

variable {env env' first second : Env} {frame : Frame} {outer : List Frame} {name : String}

theorem eq_empty_iff : env = .empty ↔ env.frames = [] := by
  cases env
  exact Env.mk.injEq _ _ ▸ Iff.rfl

theorem extend_ne_empty (frame : Frame) (env : Env) : env.extend frame ≠ .empty :=
  fun h => List.cons_ne_nil frame env.frames (eq_empty_iff.mp h)

theorem combine_eq_error_iff (hfirst : first ≠ .empty) (hsecond : second.frames = frame :: outer) :
    first.combine second = .error name ↔ recursive? frame = some name := by
  obtain ⟨inner, rest, hframes⟩ := List.exists_cons_of_ne_nil (mt eq_empty_iff.mpr hfirst)
  rw [combine, hframes, hsecond]
  cases hrec : recursive? frame <;> simp [hrec]

theorem combine_eq_ok_iff (hfirst : first ≠ .empty) (hsecond : second.frames = frame :: outer) :
    first.combine second = .ok env ↔
      recursive? frame = none ∧ env = first.extend (first.unbound frame) := by
  obtain ⟨inner, rest, hframes⟩ := List.exists_cons_of_ne_nil (mt eq_empty_iff.mpr hfirst)
  rw [combine, hframes, hsecond]
  cases hrec : recursive? frame <;> simp [hrec, eq_comm]

theorem combine_extend_eq_ok_iff :
    env.combine (env.extend frame) = .ok env' ↔
      (env = .empty ∧ env' = env.extend frame) ∨
        (env ≠ .empty ∧ recursive? frame = none ∧ env' = env.extend (env.unbound frame)) := by
  by_cases hempty : env = .empty
  · subst hempty
    simp [combine, empty, eq_comm]
  · have hframes : (env.extend frame).frames = frame :: env.frames := rfl
    simp [combine_eq_ok_iff hempty hframes, hempty]

theorem ne_empty_of_combine_extend (h : env.combine (env.extend frame) = .ok env') :
    env' ≠ .empty := by
  rcases combine_extend_eq_ok_iff.mp h with ⟨-, rfl⟩ | ⟨-, -, rfl⟩
  · exact extend_ne_empty _ _
  · exact extend_ne_empty _ _

theorem recursive?_eq_none_iff :
    recursive? frame = none ↔ ∀ entry ∈ frame, entry.2.occurs entry.1 = false := by
  simp [recursive?]

/-! ## look-up -/

/-- what stays of a frame if its variables are picked by their names -/
theorem lookup_filter_fst (keep : String → Bool) (frame : Frame) (name : String) :
    (frame.filter fun entry => keep entry.1).lookup name =
      if keep name then frame.lookup name else none := by
  induction frame with
  | nil => simp
  | cons entry rest ih =>
    obtain ⟨x, t⟩ := entry
    by_cases hx : name = x
    · subst hx
      by_cases hkeep : keep name = true
      · simp [hkeep]
      · simpa [hkeep] using ih
    · have hne : (name == x) = false := beq_false_of_ne hx
      by_cases hkeep : keep x = true
      · simpa [hkeep, List.lookup_cons, hne] using ih
      · simpa [hkeep, List.lookup_cons, hne] using ih

theorem lookup_extend_unbound (env : Env) (frame : Frame) (name : String) :
    (env.extend (env.unbound frame)).lookup name =
      (env.lookup name).or ((Env.empty.extend frame).lookup name) := by
  rw [lookup_extend, lookup_extend, lookup_empty, unbound,
    lookup_filter_fst fun x => (env.lookup x).isNone]
  cases env.lookup name with
  | some t => rfl
  | none => rfl

theorem lookup_combine_extend (h : env.combine (env.extend frame) = .ok env') (name : String) :
    env'.lookup name = (env.lookup name).or ((Env.empty.extend frame).lookup name) := by
  rcases combine_extend_eq_ok_iff.mp h with ⟨rfl, rfl⟩ | ⟨-, -, rfl⟩
  · rw [lookup_empty, Option.none_or]
  · exact lookup_extend_unbound env frame name

/-! ## a single binding -/

theorem recursive?_binding_eq_none_iff {t : Ty} :
    recursive? [(name, t)] = none ↔ t.occurs name = false := by
  rw [recursive?_eq_none_iff, List.forall_mem_singleton]

theorem combine_binding_isOk_iff {t : Ty} :
    (∃ env', env.combine (env.extend [(name, t)]) = .ok env') ↔
      (t.occurs name = true → env = .empty) := by
  simp only [combine_extend_eq_ok_iff, recursive?_binding_eq_none_iff]
  by_cases hempty : env = .empty
  · exact iff_of_true ⟨_, .inl ⟨hempty, rfl⟩⟩ fun _ => hempty
  · cases hocc : t.occurs name with
    | true => simp [hempty]
    | false => simp [hempty]

/-! ## two environments -/

theorem recursive?_isSome_iff :
    (recursive? frame).isSome = true ↔ ∃ entry ∈ frame, entry.1 ∈ entry.2.names := by
  rw [recursive?, Option.isSome_map, List.find?_isSome]
  exact exists_congr fun entry => and_congr_right fun _ => Ty.occurs_iff_mem_names

theorem combine_of_plain (hfirst : first ≠ .empty) (hsecond : second.frames = frame :: outer)
    (plain : ∀ entry ∈ frame, entry.1 ∉ entry.2.names) :
    first.combine second = .ok (first.extend (first.unbound frame)) := by
  have hrec : recursive? frame = none := recursive?_eq_none_iff.mpr fun entry hentry =>
    Bool.eq_false_iff.mpr (mt Ty.occurs_iff_mem_names.mp (plain entry hentry))
  exact (combine_eq_ok_iff hfirst hsecond).mpr ⟨hrec, rfl⟩

theorem lookup_empty_extend (frame : Frame) (name : String) :
    (Env.empty.extend frame).lookup name = (frame.lookup name).filter (· ≠ .gap) := by
  rw [lookup, extend, empty, List.findSome?_cons]
  cases frame.lookup name <;> rfl

/-- Of two environments with frames, the second one is refused just if a variable in its innermost
frame has a type that mentions it, bound already or not. Otherwise a frame comes on top of the first
environment: a look-up finds what it finds there, or else the first type in the frame of the second
one. Doing it again does not show. -/
theorem combine_resolves (hfirst : first ≠ .empty) (hsecond : second.frames = frame :: outer) :
    ((∃ x, first.combine second = .error x) ↔ ∃ entry ∈ frame, entry.1 ∈ entry.2.names) ∧
      ((∀ entry ∈ frame, entry.1 ∉ entry.2.names) →
        ∃ env, first.combine second = .ok env ∧ (∃ kept, env = first.extend kept) ∧
          (∀ x t, first.lookup x = some t → env.lookup x = some t) ∧
          (∀ x, first.lookup x = none → env.lookup x = (frame.lookup x).filter (· ≠ .gap)) ∧
          ∃ env', env.combine second = .ok env' ∧ ∀ x, env'.lookup x = env.lookup x) := by
  refine ⟨?_, fun plain => ?_⟩
  · rw [← recursive?_isSome_iff, Option.isSome_iff_exists]
    exact exists_congr fun x => combine_eq_error_iff hfirst hsecond
  · have again := combine_of_plain (extend_ne_empty (first.unbound frame) first) hsecond plain
    refine ⟨_, combine_of_plain hfirst hsecond plain, ⟨_, rfl⟩, fun x t hx => ?_, fun x hx => ?_,
      _, again, fun x => ?_⟩
    · rw [lookup_extend_unbound, hx, Option.some_or]
    · rw [lookup_extend_unbound, hx, Option.none_or, lookup_empty_extend]
    · rw [lookup_extend_unbound, lookup_extend_unbound, Option.or_assoc, Option.or_self]

/-- `x` is hidden in the second frame, `z` is bound further out -/
def layered : Env := ⟨[[], [("x", .string), ("x", .void)], [("x", .number), ("z", .boolean)]]⟩

/-- `y` stands twice, with a type variable of the name of another variable -/
def overlapping : Env :=
  ⟨[[("z", .var "x"), ("y", .pair .number (.var "x")), ("y", .void)], [("w", .number)]]⟩

theorem layered_combine_overlapping :
    layered ≠ .empty ∧
      ∃ env, layered.combine overlapping = .ok env ∧ env.lookup "x" = some .string ∧
        env.lookup "z" = some .boolean ∧ env.lookup "y" = some (.pair .number (.var "x")) ∧
        env.lookup "w" = none ∧
        ∃ env', env.combine overlapping = .ok env' ∧ ∀ x, env'.lookup x = env.lookup x := by
  have hfirst : layered ≠ .empty := by decide
  have hsecond : overlapping.frames =
      [("z", .var "x"), ("y", .pair .number (.var "x")), ("y", .void)] :: [[("w", .number)]] := rfl
  obtain ⟨env, combined, -, found, notFound, again⟩ :=
    (combine_resolves hfirst hsecond).2 (by decide)
  refine ⟨hfirst, env, combined, found _ _ (by decide), found _ _ (by decide), ?_, ?_, again⟩
  · exact (notFound "y" (by decide)).trans (by decide)
  · exact (notFound "w" (by decide)).trans (by decide)

end AnnotatedScheme.Env
