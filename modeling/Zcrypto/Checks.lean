import Mathlib.Data.List.Basic

/- Checks made in order. Each passes or refuses, and one may raise an error of its own where it is made. The
   first that does not pass decides, so an error is raised unless every check that would raise one stands
   behind one that refuses. -/
namespace Checks

structure Check where
  what : String
  raises : Option String
  passes : Bool
  deriving DecidableEq, Repr

inductive Outcome where
  | passed
  | refused (what : String)
  | raised (error : String)
  deriving DecidableEq, Repr

def Check.Passes (c : Check) : Prop := c.raises = none ∧ c.passes = true

def Check.Refuses (c : Check) : Prop := c.raises = none ∧ c.passes = false

instance (c : Check) : Decidable c.Passes := inferInstanceAs (Decidable (_ ∧ _))

instance (c : Check) : Decidable c.Refuses := inferInstanceAs (Decidable (_ ∧ _))

def run : List Check → Outcome
  | [] => .passed
  | c :: rest => match c.raises with
    | some error => .raised error
    | none => if c.passes then run rest else .refused c.what

/-- A check that raises nothing. -/
def refuse (what : String) (passes : Bool) : Check := ⟨what, none, passes⟩

/-- Each check that raises stands behind one that refuses. -/
def Guarded (cs : List Check) : Prop :=
  ∀ before c after, cs = before ++ c :: after → c.raises ≠ none → ∃ d ∈ before, d.Refuses

section
variable {c : Check} {cs ds : List Check} {what error : String}

theorem run_passed : run cs = .passed ↔ ∀ c ∈ cs, c.Passes := by
  induction cs with
  | nil =>
    constructor
    · intro _ c mem
      cases mem
    · intro _
      rfl
  | cons c rest ih =>
    rw [List.forall_mem_cons, ← ih, run]
    cases raises : c.raises with
    | some error => simp [Check.Passes, raises]
    | none => cases passes : c.passes <;> simp [Check.Passes, raises, passes]

theorem run_append : run (cs ++ ds) = if run cs = .passed then run ds else run cs := by
  induction cs with
  | nil => rfl
  | cons c rest ih =>
    rw [List.cons_append, run, run]
    cases c.raises with
    | some error => rfl
    | none =>
      cases c.passes with
      | true => exact ih
      | false => rfl

theorem run_append_of_passed (passed : run cs = .passed) : run (cs ++ ds) = run ds := by
  rw [run_append, if_pos passed]

theorem run_append_of_not (failed : run cs ≠ .passed) : run (cs ++ ds) = run cs := by
  rw [run_append, if_neg failed]

theorem guarded_nil : Guarded [] := by
  intro before c after same
  exact absurd same.symm (List.append_ne_nil_of_right_ne_nil _ (List.cons_ne_nil _ _))

theorem guarded_cons : Guarded (c :: cs) ↔ c.raises = none ∧ (c.passes = false ∨ Guarded cs) := by
  constructor
  · intro guarded
    have quiet : c.raises = none := by
      by_contra raises
      obtain ⟨d, mem, _⟩ := guarded [] c cs rfl raises
      cases mem
    refine ⟨quiet, ?_⟩
    cases passes : c.passes with
    | false => exact Or.inl rfl
    | true =>
      right
      intro before d after same raises
      have split : c :: cs = (c :: before) ++ d :: after := by rw [same]; rfl
      obtain ⟨other, mem, refuses⟩ := guarded (c :: before) d after split raises
      rcases List.mem_cons.mp mem with first | later
      · rw [first, Check.Refuses, passes] at refuses
        cases refuses.2
      · exact ⟨other, later, refuses⟩
  · rintro ⟨quiet, rest⟩ before d after same raises
    cases before with
    | nil =>
      injection same with same
      rw [← same] at raises
      exact absurd quiet raises
    | cons first before =>
      injection same with head tail
      rw [← head]
      rcases rest with refuses | guarded
      · exact ⟨c, List.mem_cons_self, quiet, refuses⟩
      · obtain ⟨other, mem, refuses⟩ := guarded before d after tail raises
        exact ⟨other, List.mem_cons_of_mem c mem, refuses⟩

/-- The run raises nothing just where each check that raises stands behind one that refuses. -/
theorem guarded_iff : Guarded cs ↔ ∀ error, run cs ≠ .raised error := by
  induction cs with
  | nil =>
    constructor
    · intro _ error raised
      cases raised
    · intro _
      exact guarded_nil
  | cons c rest ih =>
    rw [guarded_cons, ih, run]
    cases raises : c.raises with
    | some error => simp
    | none => cases passes : c.passes <;> simp

end

end Checks
