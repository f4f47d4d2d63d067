import AnnotatedScheme.Env.Register
import AnnotatedScheme.Proofs.Env.Combine

/-!
# What a register says of its environments

`Register.Step` is all that makes an environment, and `Register.Later` a number of such steps. A
step puts one entry behind the others: a new environment, whose identity is its number, or what is
there under another number (`Step.adds`). So

* `Later.find`          a number keeps its environment, whatever is built on it;
* `Later.identified`    in a register that began empty, an environment is found under its identity;
* `compare_of_same`     so what is one is built alike;
* `combine_agrees`      the environment that a combination makes is that of `Env.combine`;
* `combine_identity`    it is an operand itself if the other one is empty, and none of those that
                        were there if both have frames.
-/

namespace AnnotatedScheme.Env.Register

variable {register next : Register} {made : Option Made} {a b : Made} {number : Nat}

/-! ## entries -/

theorem find_add_of_lt (h : number < register.size) :
    (register.add made).find (some number) = register.find (some number) :=
  congrArg Option.join (Array.getElem?_push_lt h |>.trans (Array.getElem?_eq_getElem h).symm)

theorem find_add_size : (register.add made).find (some register.size) = made :=
  congrArg Option.join Array.getElem?_push_size

theorem lt_size_of_find (h : register.find (some number) = some a) : number < register.size := by
  refine Nat.not_le.mp fun hle => ?_
  have hnone : register.entries[number]? = none := Array.getElem?_eq_none hle
  rw [find, Option.bind_some, hnone] at h
  cases h

theorem size_add : (register.add made).size = register.size + 1 := Array.size_push made

/-! ## steps -/

inductive Step (register : Register) : Register → Prop
  | empty : Step register register.addEmpty
  | extend (number : Option Nat) (frame : Frame) : Step register (register.extend number frame)
  | combine {first second : Option Nat} {next : Register}
      (h : register.combine first second = .ok next) : Step register next

/-- nothing but steps is between two registers -/
inductive Later (register : Register) : Register → Prop
  | refl : Later register register
  | step {between next : Register} (later : Later register between) (h : Step between next) :
      Later register next

/-- one entry more: an environment that is no other one, or what is found under a number -/
inductive Adds (register : Register) : Register → Prop
  | new (env : Env) (ends : Bool) : Adds register (register.addNew env ends)
  | again (number : Option Nat) : Adds register (register.add (register.find number))

theorem adds_of_combine {first second : Option Nat}
    (h : register.combine first second = .ok next) : Adds register next := by
  unfold combine at h
  -- an operand that is handed out is what is found under its number, also if nothing is found there
  cases ha : register.find first with
  | none =>
    cases hb : register.find second with
    | none =>
      simp only [ha, hb] at h
      cases h
    | some b =>
      simp only [ha, hb] at h
      split at h
      · obtain rfl := Except.ok.inj h
        exact ha ▸ .again first
      · split at h
        · obtain rfl := Except.ok.inj h
          exact .new _ _
        · cases h
  | some a =>
    simp only [ha] at h
    split at h
    · obtain rfl := Except.ok.inj h
      exact .again second
    · cases hb : register.find second with
      | none =>
        simp only [hb] at h
        cases h
      | some b =>
        simp only [hb] at h
        split at h
        · obtain rfl := Except.ok.inj h
          exact ha ▸ .again first
        · split at h
          · obtain rfl := Except.ok.inj h
            exact .new _ _
          · cases h

theorem Step.adds (h : Step register next) : Adds register next := by
  cases h with
  | empty => exact .new _ _
  | extend => exact .new _ _
  | combine h => exact adds_of_combine h

theorem Adds.exists_add (h : Adds register next) : ∃ made, next = register.add made := by
  cases h with
  | new => exact ⟨_, rfl⟩
  | again => exact ⟨_, rfl⟩

/-- What stands under a number stays there, and numbers are never given away twice. -/
theorem Later.find (later : Later register next) :
    register.size ≤ next.size ∧
      ∀ number < register.size, next.find (some number) = register.find (some number) := by
  induction later with
  | refl => exact ⟨Nat.le_refl _, fun _ _ => rfl⟩
  | step _ h ih =>
    obtain ⟨made, rfl⟩ := h.adds.exists_add
    obtain ⟨hsize, hfind⟩ := ih
    refine ⟨?_, fun number hnumber => ?_⟩
    · rw [size_add]
      omega
    · rw [find_add_of_lt (Nat.lt_of_lt_of_le hnumber hsize), hfind number hnumber]

/-! ## identities -/

/-- each environment stands under the number that is its identity -/
def Identified (register : Register) : Prop :=
  ∀ n a, register.find n = some a → register.find (some a.identity) = some a

theorem identified_empty : Identified empty := by
  rintro (_ | n) a h
  · cases h
  · exact absurd (lt_size_of_find h) (Nat.not_lt_zero n)

/-- Environments that are found under their identities still are when an entry is added that is one
of them, or has its number for its identity. -/
theorem Identified.add (identified : Identified register)
    (h : ∀ a, made = some a → a.identity = register.size ∨ ∃ n, register.find n = some a) :
    Identified (register.add made) := by
  have before : ∀ n a, register.find n = some a →
      (register.add made).find (some a.identity) = some a := by
    intro n a ha
    have hself := identified n a ha
    rw [find_add_of_lt (lt_size_of_find hself), hself]
  rintro (_ | n) a ha
  · cases ha
  · have hlt := lt_size_of_find ha
    rw [size_add] at hlt
    by_cases hold : n < register.size
    · rw [find_add_of_lt hold] at ha
      exact before (some n) a ha
    · obtain rfl : n = register.size := by omega
      rw [find_add_size] at ha
      rcases h a ha with hidentity | ⟨n, hfound⟩
      · rw [hidentity, find_add_size, ha]
      · exact before n a hfound

theorem Adds.identified (h : Adds register next) (identified : Identified register) :
    Identified next := by
  cases h with
  | new env ends =>
    apply identified.add
    intro a ha
    obtain rfl := Option.some.inj ha
    exact .inl rfl
  | again number => exact identified.add fun a ha => .inr ⟨number, ha⟩

theorem Later.identified (later : Later empty register) : Identified register := by
  induction later with
  | refl => exact identified_empty
  | step _ h ih => exact h.adds.identified ih

theorem Identified.eq_of_identity_eq (identified : Identified register) {first second : Option Nat}
    (ha : register.find first = some a) (hb : register.find second = some b)
    (h : a.identity = b.identity) : a = b := by
  have hself := identified first a ha
  rw [h, identified second b hb] at hself
  exact (Option.some.inj hself).symm

/-- environments that are one are built alike -/
theorem compare_of_same (later : Later empty register) {first second : Option Nat}
    (same : (register.compare first second).2 = true) :
    (register.compare first second).1 = true := by
  have hidentity := of_decide_eq_true same
  refine decide_eq_true ?_
  cases ha : register.find first with
  | none =>
    rw [ha, Option.map_none, eq_comm, Option.map_eq_none_iff] at hidentity
    rw [hidentity]
  | some a =>
    rw [ha, Option.map_some, eq_comm, Option.map_eq_some_iff] at hidentity
    obtain ⟨b, hb, h⟩ := hidentity
    rw [hb, later.identified.eq_of_identity_eq ha hb h.symm]

/-! ## combinations -/

section
variable {first second : Option Nat}

/-- Under the next number stands what the combination of the two environments is, or its error
comes. -/
theorem combine_agrees (ha : register.find first = some a) (hb : register.find second = some b) :
    (fun next => envOf (next.find (some register.size))) <$> register.combine first second =
      (a.env.combine b.env).mapError fun name => .typing (.recursive name) := by
  have found : ∀ made : Made,
      (fun next => envOf (next.find (some register.size))) <$>
        (.ok (register.add (some made)) : Except Fault Register) = .ok made.env := by
    intro made
    change Except.ok (envOf ((register.add (some made)).find (some register.size))) = _
    rw [find_add_size]
    rfl
  simp only [combine, ha, hb]
  by_cases hfirst : a.env = .empty
  · rw [if_pos hfirst, hfirst]
    exact found b
  · obtain ⟨frame, outer, hframes⟩ := List.exists_cons_of_ne_nil (mt eq_empty_iff.mpr hfirst)
    rw [if_neg hfirst]
    by_cases hsecond : b.env = .empty
    · rw [if_pos hsecond, hsecond, Env.combine, hframes]
      exact found a
    · rw [if_neg hsecond]
      cases a.env.combine b.env with
      | ok env => exact found _
      | error name => rfl

/-- An empty operand gives way to the other one, as it is; otherwise an environment is made that is
none of those before. -/
theorem combine_identity (later : Later empty register) (ha : register.find first = some a)
    (hb : register.find second = some b) (h : register.combine first second = .ok next) :
    (a.env = .empty → next.find (some register.size) = some b) ∧
      (a.env ≠ .empty → b.env = .empty → next.find (some register.size) = some a) ∧
      (a.env ≠ .empty → b.env ≠ .empty → ∀ number < register.size,
        (next.compare (some number) (some register.size)).2 = false) := by
  simp only [combine, ha, hb] at h
  refine ⟨fun hfirst => ?_, fun hfirst hsecond => ?_, fun hfirst hsecond number hnumber => ?_⟩
  · rw [if_pos hfirst] at h
    rw [← Except.ok.inj h, find_add_size]
  · rw [if_neg hfirst, if_pos hsecond] at h
    rw [← Except.ok.inj h, find_add_size]
  · rw [if_neg hfirst, if_neg hsecond] at h
    split at h
    · obtain rfl := Except.ok.inj h
      refine decide_eq_false ?_
      rw [addAbove, addNew, find_add_size, find_add_of_lt hnumber, Option.map_some]
      intro hsame
      obtain ⟨c, hc, hidentity⟩ := Option.map_eq_some_iff.mp hsame
      -- an identity that is in use is a number that was given away
      exact absurd hidentity (Nat.ne_of_lt (lt_size_of_find (later.identified _ c hc)))
    · cases h

end

end AnnotatedScheme.Env.Register
