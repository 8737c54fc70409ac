import Mathlib.Data.Int.Interval
import Mathlib.Data.Prod.Lex
import Zcrypto.Keyed

/- Spans of whole instants, each from its start to before its stop: the instants that a list of them covers,
   the same covered by spans that do not meet, and how many of them a span has. A span whose stop is not after
   its start covers nothing. -/
namespace Spans

def Covers (ws : List (Int × Int)) (t : Int) : Prop := ∃ w ∈ ws, w.1 ≤ t ∧ t < w.2

instance (ws : List (Int × Int)) (t : Int) : Decidable (Covers ws t) := inferInstanceAs (Decidable (∃ w ∈ ws, _))

/-- The span under way, drawn out by those that begin in it, and what is made of the rest. -/
def mergeFrom (lo hi : Int) : List (Int × Int) → List (Int × Int)
  | [] => [(lo, hi)]
  | (start, stop) :: rest =>
    if start ≤ hi then mergeFrom lo (max hi stop) rest else (lo, hi) :: mergeFrom start stop rest

/-- The spans by their starts, those that meet made into one. -/
def merged (ws : List (Int × Int)) : List (Int × Int) :=
  match Keyed.arrange (fun w : Int × Int => toLex w) ws with
  | [] => []
  | (lo, hi) :: rest => mergeFrom lo hi rest

/-- The instants of a span that are covered. -/
def covered (span : Int × Int) (ws : List (Int × Int)) : Finset Int :=
  (@Finset.Ico Int Int.instLinearOrder.toPreorder Int.instLocallyFiniteOrder span.1 span.2).filter (Covers ws)

/-- How far two spans run together, less than nothing for spans that do not meet. -/
def common (span w : Int × Int) : Int := min span.2 w.2 - max span.1 w.1

section
variable {ws rest : List (Int × Int)} {w span : Int × Int} {lo hi t : Int}

theorem mergeFrom_start (ordered : ∀ w ∈ rest, lo ≤ w.1) (ascending : rest.Pairwise fun v w => v.1 ≤ w.1) :
    ∀ w ∈ mergeFrom lo hi rest, lo ≤ w.1 := by
  induction rest generalizing lo hi with
  | nil =>
    intro w mem
    rw [List.mem_singleton.mp mem]
  | cons v rest ih =>
    obtain ⟨start, stop⟩ := v
    obtain ⟨least, ascending⟩ := List.pairwise_cons.mp ascending
    intro w mem
    unfold mergeFrom at mem
    split at mem
    · exact ih (fun v there => ordered v (List.mem_cons_of_mem _ there)) ascending w mem
    · rcases List.mem_cons.mp mem with rfl | later
      · exact le_rfl
      · exact (ordered _ List.mem_cons_self).trans (ih least ascending w later)

theorem mergeFrom_covers (ordered : ∀ w ∈ rest, lo ≤ w.1) (ascending : rest.Pairwise fun v w => v.1 ≤ w.1) :
    Covers (mergeFrom lo hi rest) t ↔ (lo ≤ t ∧ t < hi) ∨ Covers rest t := by
  induction rest generalizing lo hi with
  | nil => simp [mergeFrom, Covers]
  | cons v rest ih =>
    obtain ⟨start, stop⟩ := v
    obtain ⟨least, ascending⟩ := List.pairwise_cons.mp ascending
    have low : lo ≤ start := ordered _ List.mem_cons_self
    have step : Covers ((start, stop) :: rest) t ↔ (start ≤ t ∧ t < stop) ∨ Covers rest t := by
      simp [Covers]
    rw [step, mergeFrom]
    split
    · rename_i meets
      rw [ih (fun v there => ordered v (List.mem_cons_of_mem _ there)) ascending, ← or_assoc]
      refine or_congr_left ?_
      constructor
      · rintro ⟨above, below⟩
        rcases lt_max_iff.mp below with first | second
        · exact .inl ⟨above, first⟩
        · by_cases before : t < hi
          · exact .inl ⟨above, before⟩
          · exact .inr ⟨by omega, second⟩
      · rintro (⟨above, below⟩ | ⟨above, below⟩)
        · exact ⟨above, lt_max_of_lt_left below⟩
        · exact ⟨low.trans above, lt_max_of_lt_right below⟩
    · have split_ : Covers ((lo, hi) :: mergeFrom start stop rest) t ↔
          (lo ≤ t ∧ t < hi) ∨ Covers (mergeFrom start stop rest) t := by
        simp [Covers]
      rw [split_, ih least ascending]

theorem mergeFrom_apart (ordered : ∀ w ∈ rest, lo ≤ w.1) (ascending : rest.Pairwise fun v w => v.1 ≤ w.1) :
    (mergeFrom lo hi rest).Pairwise fun v w => v.2 ≤ w.1 := by
  induction rest generalizing lo hi with
  | nil => exact List.pairwise_singleton _ _
  | cons v rest ih =>
    obtain ⟨start, stop⟩ := v
    obtain ⟨least, ascending⟩ := List.pairwise_cons.mp ascending
    unfold mergeFrom
    split
    · exact ih (fun v there => ordered v (List.mem_cons_of_mem _ there)) ascending
    · rename_i beyond
      refine List.pairwise_cons.mpr ⟨fun w mem => ?_, ih least ascending⟩
      exact (not_le.mp beyond).le.trans (mergeFrom_start least ascending w mem)

theorem arranged (ws : List (Int × Int)) :
    (Keyed.arrange (fun w : Int × Int => toLex w) ws).Pairwise fun v w => v.1 ≤ w.1 := by
  have total : Std.Total (fun v w : Int × Int => toLex v ≤ toLex w) := ⟨fun v w => le_total (toLex v) (toLex w)⟩
  have trans : IsTrans (Int × Int) fun v w => toLex v ≤ toLex w := ⟨fun _ _ _ => le_trans⟩
  refine (List.pairwise_insertionSort (fun v w : Int × Int => toLex v ≤ toLex w) ws).imp fun {v w} le => ?_
  rcases Prod.Lex.le_iff.mp le with less | ⟨same, -⟩
  · exact less.le
  · exact same.le

/-- The merged spans cover what the spans do, and no two of them meet inside. -/
theorem merged_covers (ws : List (Int × Int)) :
    (∀ t, Covers (merged ws) t ↔ Covers ws t) ∧ (merged ws).Pairwise fun v w => v.2 ≤ w.1 := by
  have same : ∀ t, Covers (Keyed.arrange (fun w : Int × Int => toLex w) ws) t ↔ Covers ws t := by
    intro t
    unfold Covers
    simp only [Keyed.mem_arrange]
  have ascending := arranged ws
  unfold merged
  cases sorted : Keyed.arrange (fun w : Int × Int => toLex w) ws with
  | nil =>
    rw [sorted] at same
    exact ⟨same, .nil⟩
  | cons v rest =>
    rw [sorted] at same ascending
    obtain ⟨lo, hi⟩ := v
    obtain ⟨ordered, ascending⟩ := List.pairwise_cons.mp ascending
    refine ⟨fun t => ?_, mergeFrom_apart ordered ascending⟩
    rw [← same, mergeFrom_covers ordered ascending]
    simp [Covers]

/-- Spans that do not meet cover of a span what each runs together with it. -/
theorem covered_card (apart : ws.Pairwise fun v w => v.2 ≤ w.1) (span : Int × Int) :
    (covered span ws).card = (ws.map fun w => (common span w).toNat).sum := by
  induction ws with
  | nil =>
    rw [covered, Finset.filter_false_of_mem fun t _ => by simp [Covers]]
    rfl
  | cons v rest ih =>
    obtain ⟨first, apart⟩ := List.pairwise_cons.mp apart
    have parts : covered span (v :: rest) =
        Finset.Ico (max span.1 v.1) (min span.2 v.2) ∪ covered span rest := by
      ext t
      simp only [covered, Covers, Finset.mem_filter, Finset.mem_union, Finset.mem_Ico, List.mem_cons,
        exists_eq_or_imp]
      constructor
      · rintro ⟨within, here | later⟩
        · exact .inl (by omega)
        · exact .inr ⟨within, later⟩
      · rintro (here | ⟨within, later⟩)
        · exact ⟨by omega, .inl (by omega)⟩
        · exact ⟨within, .inr later⟩
    have disjoint : Disjoint (Finset.Ico (max span.1 v.1) (min span.2 v.2)) (covered span rest) := by
      rw [Finset.disjoint_left]
      intro t here later
      obtain ⟨w, mem, low, -⟩ := (Finset.mem_filter.mp later).2
      have after := first w mem
      have within := Finset.mem_Ico.mp here
      omega
    rw [parts, Finset.card_union_of_disjoint disjoint, Int.card_Ico, ih apart, List.map_cons, List.sum_cons]
    rfl

end

end Spans
