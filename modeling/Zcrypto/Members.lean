import Mathlib.Data.List.Forall2
import Mathlib.Data.List.Perm.Basic
import Mathlib.Logic.Relation

/- Members that go on: each of the members before is found after, changed as a relation allows, and those
   that are found besides have joined. In what order they are found is not said, so none is lost or
   found twice. -/
namespace Members
variable {α κ : Type} {R : α → α → Prop} {key : α → κ}

/-- The members after are those before, gone on, and others whose keys are the joined. -/
def Onward (R : α → α → Prop) (key : α → κ) (before : List α) (joined : List κ) (after : List α) : Prop :=
  ∃ gone others, after.Perm (gone ++ others) ∧ List.Forall₂ R before gone ∧ (others.map key).Perm joined

section
variable {before middle after : List α} {joined more : List κ}

theorem forall₂_append_left {xs ys zs : List α} (all : List.Forall₂ R (xs ++ ys) zs) :
    ∃ first second, zs = first ++ second ∧ List.Forall₂ R xs first ∧ List.Forall₂ R ys second := by
  induction xs generalizing zs with
  | nil => exact ⟨[], zs, rfl, .nil, all⟩
  | cons x xs ih =>
    obtain ⟨z, rest, here, others, rfl⟩ := List.forall₂_cons_left_iff.mp all
    obtain ⟨first, second, rfl, head, tail⟩ := ih others
    exact ⟨z :: first, second, rfl, .cons here head, tail⟩

theorem of_joined [Std.Refl R] (others : List α) : Onward R key before (others.map key) (before ++ others) :=
  ⟨before, others, List.Perm.refl _, List.forall₂_refl before, List.Perm.refl _⟩

theorem of_perm [Std.Refl R] (perm : after.Perm before) : Onward R key before [] after :=
  ⟨before, [], by simpa using perm, List.forall₂_refl before, List.Perm.nil⟩

theorem of_forall₂ (all : List.Forall₂ R before after) : Onward R key before [] after :=
  ⟨after, [], by simp, all, List.Perm.nil⟩

theorem forall₂_trans [IsTrans α R] {xs ys zs : List α} (first : List.Forall₂ R xs ys)
    (second : List.Forall₂ R ys zs) : List.Forall₂ R xs zs := by
  induction first generalizing zs with
  | nil => exact second
  | cons here _ ih =>
    obtain ⟨z, rest, there, others, rfl⟩ := List.forall₂_cons_left_iff.mp second
    exact .cons (IsTrans.trans _ _ _ here there) (ih others)

/-- Two that go with one list, as pairs. -/
theorem forall₂_both {β : Type} {S : α → β → Prop} {xs : List α} {ys zs : List β} (first : List.Forall₂ S xs ys)
    (second : List.Forall₂ S xs zs) : ∃ pairs : List (β × β), pairs.map Prod.fst = ys ∧
      pairs.map Prod.snd = zs ∧ List.Forall₂ (fun x pair => S x pair.1 ∧ S x pair.2) xs pairs := by
  induction first generalizing zs with
  | nil =>
    cases second
    exact ⟨[], rfl, rfl, .nil⟩
  | @cons x y _ _ here _ ih =>
    obtain ⟨z, rest, there, others, rfl⟩ := List.forall₂_cons_left_iff.mp second
    obtain ⟨pairs, rfl, rfl, both⟩ := ih others
    exact ⟨(y, z) :: pairs, rfl, rfl, .cons ⟨here, there⟩ both⟩

/-- Members that stand still beside those that go on. -/
theorem beside [Std.Refl R] (rest : List α) (onward : Onward R key before joined after) :
    Onward R key (rest ++ before) joined (rest ++ after) := by
  obtain ⟨gone, others, perm, all, keys⟩ := onward
  refine ⟨rest ++ gone, others, ?_, List.rel_append (List.forall₂_refl rest) all, keys⟩
  rw [List.append_assoc]
  exact perm.append_left rest

variable (keeps : ∀ x y, R x y → key y = key x)
include keeps

theorem forall₂_keys {xs ys : List α} (all : List.Forall₂ R xs ys) : ys.map key = xs.map key := by
  induction all with
  | nil => rfl
  | cons here _ ih => rw [List.map_cons, List.map_cons, keeps _ _ here, ih]

theorem trans [IsTrans α R] (first : Onward R key before joined middle)
    (second : Onward R key middle more after) : Onward R key before (joined ++ more) after := by
  obtain ⟨gone, others, perm, all, keys⟩ := first
  obtain ⟨gone', others', perm', all', keys'⟩ := second
  -- what has gone on twice, and what joined first and then went on
  obtain ⟨twice, both, perm_both⟩ := List.perm_comp_forall₂ perm.symm all'
  obtain ⟨far, near, rfl, far_all, near_all⟩ := forall₂_append_left both
  refine ⟨far, near ++ others', ?_, ?_, ?_⟩
  · rw [← List.append_assoc]
    exact perm'.trans (perm_both.symm.append_right others')
  · exact forall₂_trans all far_all
  · rw [List.map_append, forall₂_keys keeps near_all]
    exact keys.append keys'

/-- Nothing is lost, and nothing is found twice. -/
theorem keys (onward : Onward R key before joined after) :
    (after.map key).Perm (before.map key ++ joined) := by
  obtain ⟨gone, others, perm, all, keys⟩ := onward
  have mapped := perm.map key
  rw [List.map_append, forall₂_keys keeps all] at mapped
  exact mapped.trans (keys.append_left _)

end

end Members
