import Mathlib.Data.List.Induction

/- Chains of records, each of which holds the digest of the one before it. Where records of one digest
   are the same, a chain is known by the digest of its last record. -/
namespace HashChain

section
variable {R H : Type} (digest prev : R → H) (opens : R → Prop)

/-- Only the first record opens a chain. -/
inductive Chained : List R → Prop where
  | nil : Chained []
  | first {r : R} (opening : opens r) : Chained [r]
  | next {rs : List R} {r s : R} (chained : Chained (rs ++ [r])) (later : ¬ opens s)
      (link : prev s = digest r) : Chained (rs ++ [r] ++ [s])

variable {digest prev opens}

theorem chained_concat {rs : List R} {s : R} (chained : Chained digest prev opens rs)
    (opening : rs = [] → opens s) (link : ∀ r, rs.getLast? = some r → ¬ opens s ∧ prev s = digest r) :
    Chained digest prev opens (rs ++ [s]) := by
  induction rs using List.reverseRecOn with
  | nil => exact .first (opening rfl)
  | append_singleton rs r _ =>
    obtain ⟨later, same⟩ := link r List.getLast?_concat
    exact .next chained later same

/-- Chains of one head are one chain. -/
theorem head_determines {rs ss : List R} (left : Chained digest prev opens rs)
    (right : Chained digest prev opens ss)
    (free : ∀ r ∈ rs, ∀ s ∈ ss, digest r = digest s → r = s)
    (same : rs.getLast?.map digest = ss.getLast?.map digest) : rs = ss := by
  induction left generalizing ss with
  | nil =>
    cases right with
    | nil => rfl
    | first => cases same
    | next => simp at same
  | @first r opening =>
    cases right with
    | nil => cases same
    | @first s _ => rw [free r (by simp) s (by simp) (by simpa using same)]
    | @next ss q s _ later _ =>
      have heads : r = s := free r (by simp) s (by simp) (by simpa using same)
      exact absurd (heads ▸ opening) later
  | @next rs q r _ later link ih =>
    cases right with
    | nil => simp at same
    | @first s opening =>
      have heads : r = s := free r (by simp) s (by simp) (by simpa using same)
      exact absurd (heads ▸ opening) later
    | @next ss p s below _ link' =>
      have heads : r = s := free r (by simp) s (by simp) (by simpa using same)
      subst heads
      have rest : rs ++ [q] = ss ++ [p] := by
        apply ih below
        · intro a a_mem b b_mem
          exact free a (List.mem_append_left _ a_mem) b (List.mem_append_left _ b_mem)
        · simp [← link, ← link']
      rw [rest]

end

end HashChain
