import Zcrypto.Engine.DraftTrim

/- What dealing the placed legs into plans and trimming them to the cap do to a table: the plans hold each
   placed leg once, sells first and within the bounds, and the trim carries legs from the smallest, the
   sells without regard to the buys. -/
namespace DraftPlans
open ProbePlans Orders

section
variable {most : Option Nat} {cap : Option ℚ} {legs : List LegDecision} {plans result : List (List LegDecision)}
  {sum : ℚ}

/- Dealing. -/

/-- No leg is lost, repeated or moved. -/
theorem deal_flatten (ok : deal most cap legs plans sum = .ok result) :
    result.flatten = plans.reverse.flatten ++ legs := by
  induction legs generalizing plans sum with
  | nil =>
    simp only [deal, Except.ok.injEq] at ok
    rw [← ok, List.append_nil]
  | cons leg rest ih =>
    unfold deal at ok
    split at ok
    · cases ok
    · split at ok
      · rw [ih ok]
        simp
      · split at ok
        · rw [ih ok]
          simp
        · rw [ih ok]
          simp

theorem deal_count {n : Nat} (some_ : most = some n) (pos : 0 < n) (counted : ∀ plan ∈ plans, plan.length ≤ n)
    (ok : deal most cap legs plans sum = .ok result) : ∀ plan ∈ result, plan.length ≤ n := by
  induction legs generalizing plans sum with
  | nil =>
    simp only [deal, Except.ok.injEq] at ok
    subst ok
    exact fun plan mem => counted plan (List.mem_reverse.mp mem)
  | cons leg rest ih =>
    unfold deal at ok
    split at ok
    · cases ok
    · split at ok
      · exact ih (by simpa using Nat.succ_le_of_lt pos) ok
      · rename_i current done
        have under := counted current List.mem_cons_self
        split at ok
        · apply ih _ ok
          intro plan mem
          rcases List.mem_cons.mp mem with rfl | older
          · exact Nat.succ_le_of_lt pos
          · exact counted plan older
        · rename_i room
          have less : current.length ≠ n := by
            rintro rfl
            exact room (.inl some_)
          apply ih _ ok
          intro plan mem
          rcases List.mem_cons.mp mem with rfl | older
          · rw [List.length_append, List.length_singleton]
            omega
          · exact counted plan (List.mem_cons_of_mem current older)

theorem deal_filled (filled : ∀ plan ∈ plans, plan ≠ []) (ok : deal most cap legs plans sum = .ok result) :
    ∀ plan ∈ result, plan ≠ [] := by
  induction legs generalizing plans sum with
  | nil =>
    simp only [deal, Except.ok.injEq] at ok
    subst ok
    exact fun plan mem => filled plan (List.mem_reverse.mp mem)
  | cons leg rest ih =>
    unfold deal at ok
    split at ok
    · cases ok
    · split at ok
      · exact ih (by simp) ok
      · rename_i current done
        split at ok
        · exact ih (List.forall_mem_cons.mpr ⟨by simp, filled⟩) ok
        · have others := (List.forall_mem_cons.mp filled).2
          exact ih (List.forall_mem_cons.mpr ⟨by simp, others⟩) ok

theorem over_cap {leg : LegDecision} :
    cap.any (· < leg.eur) = true ↔ ∃ c, cap = some c ∧ c < leg.eur := by
  cases cap <;> simp

theorem deal_within (ok : deal most cap legs plans sum = .ok result) :
    ∀ leg ∈ legs, ∀ c, cap = some c → leg.eur ≤ c := by
  induction legs generalizing plans sum with
  | nil => simp
  | cons leg rest ih =>
    unfold deal at ok
    split at ok
    · cases ok
    · rename_i fits
      rw [List.forall_mem_cons]
      constructor
      · intro c same
        by_contra less
        exact fits (over_cap.mpr ⟨c, same, not_le.mp less⟩)
      · split at ok
        · exact ih ok
        · split at ok
          · exact ih ok
          · exact ih ok

/-- It refuses nothing but a leg over the cap on its own. -/
theorem deal_deals (under : ∀ leg ∈ legs, ∀ c, cap = some c → leg.eur ≤ c) :
    ∃ result, deal most cap legs plans sum = .ok result := by
  induction legs generalizing plans sum with
  | nil => exact ⟨plans.reverse, rfl⟩
  | cons leg rest ih =>
    obtain ⟨first, others⟩ := List.forall_mem_cons.mp under
    have fits : ¬ cap.any (· < leg.eur) = true := by
      intro above
      obtain ⟨c, same, less⟩ := over_cap.mp above
      exact absurd (first c same) (not_le.mpr less)
    unfold deal
    rw [if_neg fits]
    split
    · exact ih others
    · split
      · exact ih others
      · exact ih others

theorem planOrder_total (a b : LegDecision) : PlanOrder a b ∨ PlanOrder b a := by
  unfold PlanOrder
  rcases lt_trichotomy a.eur b.eur with less | same | more
  · cases isSell a <;> cases isSell b <;> simp [less]
  · have names := le_total a.symbol.name b.symbol.name
    cases isSell a <;> cases isSell b <;> simp [same, names]
  · cases isSell a <;> cases isSell b <;> simp [more]

theorem PlanOrder.trans {a b c : LegDecision} (one : PlanOrder a b) (other : PlanOrder b c) :
    PlanOrder a c := by
  have step : ∀ x y : LegDecision, PlanOrder x y → isSell x = isSell y →
      (y.eur < x.eur ∨ (x.eur = y.eur ∧ x.symbol.name ≤ y.symbol.name)) := by
    rintro x y (⟨sell, buy⟩ | ⟨-, rest⟩) same
    · rw [sell, buy] at same
      cases same
    · exact rest
  rcases one with ⟨sell, buy⟩ | ⟨same, near⟩
  · rcases other with ⟨sell', -⟩ | ⟨same', -⟩
    · rw [buy] at sell'
      cases sell'
    · exact .inl ⟨sell, same' ▸ buy⟩
  · rcases other with ⟨sell', buy'⟩ | ⟨same', near'⟩
    · exact .inl ⟨same.trans sell', buy'⟩
    · refine .inr ⟨same.trans same', ?_⟩
      rcases near with less | ⟨equal, before⟩
      · rcases near' with less' | ⟨equal', -⟩
        · exact .inl (less'.trans less)
        · exact .inl (equal' ▸ less)
      · rcases near' with less' | ⟨equal', before'⟩
        · exact .inl (equal.symm ▸ less')
        · exact .inr ⟨equal.trans equal', before.trans before'⟩

/-- The placed legs, the sells first. -/
theorem planOrder_pairwise (ds : List LegDecision) : (ds.insertionSort PlanOrder).Pairwise PlanOrder := by
  have sorts : Std.Total PlanOrder := ⟨planOrder_total⟩
  have chains : IsTrans LegDecision PlanOrder := ⟨fun _ _ _ => PlanOrder.trans⟩
  exact List.pairwise_insertionSort PlanOrder ds

/- The trim. -/

variable {ds : List LegDecision} {d : LegDecision} {limit beside : ℚ}

/-- A leg is dropped only where it and the larger ones do not fit. -/
theorem fit_dropped (mem : d ∈ ds) (gone : d ∉ fit limit beside ds) :
    ∃ rest, d :: rest <:+ ds ∧ limit < beside + total (d :: rest) := by
  induction ds with
  | nil => cases mem
  | cons leg rest ih =>
    unfold fit at gone
    split at gone
    · rename_i above
      rcases List.mem_cons.mp mem with rfl | later
      · exact ⟨rest, List.suffix_rfl, above⟩
      · obtain ⟨more, suffix_, less⟩ := ih later gone
        exact ⟨more, suffix_.trans (List.suffix_cons leg rest), less⟩
    · exact absurd mem gone

/-- A leg that the cap carried keeps none of its size. -/
def Carries (d t : LegDecision) : Prop := t = d ∨ d.outcome = .placed ∧ t = d.carry

theorem trimToPlanCap_carries (ds : List LegDecision) (limit : ℚ) :
    List.Forall₂ Carries ds (trimToPlanCap ds limit) := by
  unfold trimToPlanCap
  rw [List.forall₂_map_right_iff]
  apply List.forall₂_same.mpr
  intro d _
  split
  · rename_i dropped
    exact .inr ⟨dropped.1, rfl⟩
  · exact .inl rfl

theorem trimToPlanCap_total (apart : Apart ds) (limit : ℚ) :
    total ((trimToPlanCap ds limit).filter (·.outcome = .placed)) ≤ max limit 0 := by
  have kept : total ((trimToPlanCap ds limit).filter (·.outcome = .placed)) =
      total (keptSells ds limit) + total (keptBuys ds limit) := by
    rw [← total_append]
    apply total_perm
    exact (List.perm_insertionSort PlanOrder _).symm.trans (placed_perm_kept apart limit)
  rw [kept]
  rcases fit_total limit (total (keptSells ds limit)) (smallestFirst (ds.filter (·.isPlaced .buy)))
    with none_left | fits
  · have empty : keptBuys ds limit = [] := none_left
    rw [empty]
    rcases fit_total limit 0 (smallestFirst (ds.filter (·.isPlaced .sell))) with none_left | fits
    · have empty : keptSells ds limit = [] := none_left
      rw [empty]
      simp [total]
    · have fits : 0 + total (keptSells ds limit) ≤ limit := fits
      apply le_max_of_le_left
      simpa [total] using fits
  · exact le_max_of_le_left fits

theorem placed_sell (sell : d.isPlaced .sell) : d.outcome = .placed := (isPlaced_iff.mp sell).1

theorem sell_kept_iff (apart : Apart ds) (sell : d.isPlaced .sell) :
    d ∈ trimToPlanCap ds limit ↔ d ∈ keptSells ds limit := by
  rw [placed_mem_trimToPlanCap apart (placed_sell sell), List.mem_append]
  constructor
  · rintro (kept | buy)
    · exact kept
    · have side := (isPlaced_iff.mp (mem_keptBuys buy).2).2
      rw [(isPlaced_iff.mp sell).2] at side
      cases side
  · exact .inl

theorem buy_kept_iff (apart : Apart ds) (buy : d.isPlaced .buy) :
    d ∈ trimToPlanCap ds limit ↔ d ∈ keptBuys ds limit := by
  rw [placed_mem_trimToPlanCap apart (isPlaced_iff.mp buy).1, List.mem_append]
  constructor
  · rintro (sell | kept)
    · have side := (isPlaced_iff.mp (mem_keptSells sell).2).2
      rw [(isPlaced_iff.mp buy).2] at side
      cases side
    · exact kept
  · exact .inr

theorem keptSells_alone (ds : List LegDecision) (limit : ℚ) :
    keptSells (ds.filter (·.isPlaced .sell)) limit = keptSells ds limit := by
  unfold keptSells
  rw [List.filter_filter]
  simp

/-- What the trim makes of a table: a leg stands or is carried whole, the smallest first, and the sells
    that stand are those that would without the buys. -/
structure CapTrim (ds : List LegDecision) (limit : ℚ) : Prop where
  each : List.Forall₂ Carries ds (trimToPlanCap ds limit)
  within : total ((trimToPlanCap ds limit).filter (·.outcome = .placed)) ≤ max limit 0
  sells_first : ∀ d ∈ ds, d.isPlaced .sell →
    (d ∈ trimToPlanCap ds limit ↔ d ∈ trimToPlanCap (ds.filter (·.isPlaced .sell)) limit)
  sells : ∀ d ∈ ds, d.isPlaced .sell → d ∉ trimToPlanCap ds limit →
    ∃ rest, d :: rest <:+ smallestFirst (ds.filter (·.isPlaced .sell)) ∧ limit < total (d :: rest)
  buys : ∀ d ∈ ds, d.isPlaced .buy → d ∉ trimToPlanCap ds limit →
    ∃ rest, d :: rest <:+ smallestFirst (ds.filter (·.isPlaced .buy)) ∧
      limit < total ((trimToPlanCap ds limit).filter (·.isPlaced .sell)) + total (d :: rest)

theorem placedSells_total (apart : Apart ds) :
    total ((trimToPlanCap ds limit).filter (·.isPlaced .sell)) = total (keptSells ds limit) := by
  apply total_perm
  have nodup := (trimToPlanCap_apart apart limit).nodup.filter (·.isPlaced .sell)
  have kept : (keptSells ds limit).Nodup := (List.nodup_append.mp (kept_nodup apart)).1
  rw [List.perm_ext_iff_of_nodup nodup kept]
  intro d
  rw [List.mem_filter]
  constructor
  · rintro ⟨mem, sell⟩
    exact (sell_kept_iff apart sell).mp mem
  · intro mem
    have sell := (mem_keptSells mem).2
    exact ⟨(sell_kept_iff apart sell).mpr mem, sell⟩

theorem capTrim (apart : Apart ds) (limit : ℚ) : CapTrim ds limit := by
  refine ⟨trimToPlanCap_carries ds limit, trimToPlanCap_total apart limit, ?_, ?_, ?_⟩
  · intro d _ sell
    have alone : Apart (ds.filter (·.isPlaced .sell)) := apart.sublist (List.filter_sublist.map _)
    rw [sell_kept_iff apart sell, sell_kept_iff alone sell, keptSells_alone]
  · intro d mem sell gone
    rw [sell_kept_iff apart sell] at gone
    have inside : d ∈ smallestFirst (ds.filter (·.isPlaced .sell)) :=
      mem_smallestFirst.mpr (List.mem_filter.mpr ⟨mem, sell⟩)
    obtain ⟨rest, suffix_, above⟩ := fit_dropped inside gone
    exact ⟨rest, suffix_, by simpa using above⟩
  · intro d mem buy gone
    rw [buy_kept_iff apart buy] at gone
    have inside : d ∈ smallestFirst (ds.filter (·.isPlaced .buy)) :=
      mem_smallestFirst.mpr (List.mem_filter.mpr ⟨mem, buy⟩)
    rw [placedSells_total apart]
    exact fit_dropped inside gone

/-- The plans of some legs: each placed one is in one of them, the sells come first, and each plan is
    within its bounds. Only a leg over the cap on its own is refused. -/
structure Assembled (ds : List LegDecision) (most : Option Nat) (cap : Option ℚ)
    (plans : List (List LegDecision)) : Prop where
  parts : plans.flatten.Perm (ds.filter (·.outcome = .placed))
  sells_first : plans.flatten.Pairwise fun a b => isSell b = true → isSell a = true
  within : ∀ plan ∈ plans, ∀ c, cap = some c → total plan ≤ c
  count : ∀ plan ∈ plans, ∀ n, most = some n → 0 < n → plan.length ≤ n
  filled : ∀ plan ∈ plans, plan ≠ []

theorem sells_before {a b : LegDecision} (order : PlanOrder a b) (sell : isSell b = true) :
    isSell a = true := by
  rcases order with ⟨first, -⟩ | ⟨same, -⟩
  · exact first
  · rw [same, sell]

theorem assemblePlans_ok (ok : assemblePlans ds most cap = .ok plans) : Assembled ds most cap plans := by
  have flat : plans.flatten = (ds.filter (·.outcome = .placed)).insertionSort PlanOrder := deal_flatten ok
  refine ⟨?_, ?_, ?_, ?_, ?_⟩
  · rw [flat]
    exact List.perm_insertionSort PlanOrder _
  · rw [flat]
    exact (planOrder_pairwise _).imp sells_before
  · rintro plan mem c rfl
    have dealt : ∀ plan ∈ plans, Dealt c (fun _ => True) plan :=
      deal_dealt (fun _ _ => trivial) (by simp) (by simp) ok
    exact (dealt plan mem).under
  · exact fun plan mem n some_ pos => deal_count some_ pos (by simp) ok plan mem
  · exact deal_filled (by simp) ok

/-- Of any table the plans hold each placed leg once, the sells first and within both bounds, unless one
    leg is over the cap on its own; and of a table with one leg a symbol the trim carries whole legs, from
    the smallest, until what is placed is within the cap, the sells without regard to the buys. -/
theorem plans_partition (ds : List LegDecision) :
    (∀ most cap, ((∃ plans, assemblePlans ds most cap = .ok plans) ↔
        ∀ d ∈ ds, d.outcome = .placed → ∀ c, cap = some c → d.eur ≤ c) ∧
      ∀ plans, assemblePlans ds most cap = .ok plans → Assembled ds most cap plans) ∧
    (Apart ds → ∀ limit, CapTrim ds limit) := by
  refine ⟨fun most cap => ⟨?_, fun plans => assemblePlans_ok⟩, fun apart => capTrim apart⟩
  constructor
  · rintro ⟨plans, ok⟩ d mem placed
    apply deal_within ok
    rw [List.mem_insertionSort, List.mem_filter]
    exact ⟨mem, by simpa using placed⟩
  · intro under
    apply deal_deals
    intro leg mem
    rw [List.mem_insertionSort, List.mem_filter] at mem
    exact under leg mem.1 (by simpa using mem.2)

end

end DraftPlans
