import Zcrypto.Portfolio.SleevesPast
import Zcrypto.Risk.Cadence

/- The builder looks back: what a row of a result is made of. -/
namespace Portfolio
open Alpha Prefixes Fallible Risk
open Engine (held_bookOf nocFrom_bars grossReturn turnoverInto validateConfig_distinct)

/- The layout of the daily books. -/

/-- What two daily grids share of the days that have closed before an end. -/
structure DaysAlike (e : Int) (d d' : Grid) : Prop where
  stamps : (d.ts.map (· + 86400)).takeWhile (· < e) = (d'.ts.map (· + 86400)).takeWhile (· < e)
  rows : ∀ i < closedBy (d.ts.map (· + 86400)) e, (i + 1 < d.ts.length ↔ i + 1 < d'.ts.length) ∧
    (i + 1 < d.ts.length → AllAlike i d.prices d'.prices)

theorem closedBy_sooner {ts ts' : List Int} {e e' : Int} (le : e ≤ e')
    (same : ts.takeWhile (· < e') = ts'.takeWhile (· < e')) : ts.takeWhile (· < e) = ts'.takeWhile (· < e) := by
  have nested : ∀ us : List Int, us.takeWhile (· < e) = (us.takeWhile (· < e')).takeWhile (· < e) := by
    intro us
    induction us with
    | nil => rfl
    | cons u rest ih =>
      by_cases here : u < e
      · rw [List.takeWhile_cons_of_pos (by simpa using here), List.takeWhile_cons_of_pos (by simpa using (by omega)),
          List.takeWhile_cons_of_pos (by simpa using here), ih]
      · rw [List.takeWhile_cons_of_neg (by simpa using here)]
        by_cases there : u < e'
        · rw [List.takeWhile_cons_of_pos (by simpa using there), List.takeWhile_cons_of_neg (by simpa using here)]
        · rw [List.takeWhile_cons_of_neg (by simpa using there), List.takeWhile_nil]
  rw [nested ts, same, ← nested]

theorem DaysAlike.sooner {e e' : Int} {d d' : Grid} (alike : DaysAlike e' d d') (le : e ≤ e')
    (order : (d.ts.map (· + 86400)).Pairwise (· < ·)) : DaysAlike e d d' where
  stamps := closedBy_sooner le alike.stamps
  rows := by
    intro i inside
    have more := closedBy_mono order le
    exact alike.rows i (by omega)

theorem expand_run {daily out : Positions} {dailyTs intradayTs : List Int}
    (run : expandDailyPositions daily dailyTs intradayTs = .ok out) :
    ∃ days, (daily.head?.map fun item => item.2.length).getD 0 = days ∧ dailyTs.length = days + 1 ∧
      dailyTs.Pairwise (· < ·) ∧ intradayTs.Pairwise (· < ·) ∧
      out = daily.map fun item => (item.1, (intradayTs.tail.map (rowOf dailyTs days)).map fun row =>
        (row.map fun k => item.2.getD k 0).getD 0) := by
  unfold expandDailyPositions at run
  simp only at run
  split at run
  · cases run
  split at run
  · cases run
  split at run
  · cases run
  rename_i long
  split at run
  · cases run
  rename_i order
  split at run
  · cases run
  rename_i ordered
  injection run with same
  have long := Decidable.not_not.mp long
  have order := List.isChain_iff_pairwise.mp (Decidable.not_not.mp order)
  have ordered := List.isChain_iff_pairwise.mp (Decidable.not_not.mp ordered)
  refine ⟨_, rfl, long, order, ordered, ?_⟩
  rw [← same, dailyRows_eq order long ordered]

variable {k : Nat}

/-- A bar is laid out with the same row of the same daily book. -/
theorem expand_same {d d' : Grid} {daily daily' out out' : Positions} {intradayTs intradayTs' : List Int} {e : Int}
    (run : expandDailyPositions daily (d.ts.map (· + 86400)) intradayTs = .ok out)
    (run' : expandDailyPositions daily' (d'.ts.map (· + 86400)) intradayTs' = .ok out')
    (here : intradayTs[k + 1]? = some e) (here' : intradayTs'[k + 1]? = some e) (alike : DaysAlike e d d')
    (keys : List.Forall₂ (fun x y => x.1 = y.1) daily daily')
    (rows : ∀ i, i + 1 < d.ts.length → i + 1 < d'.ts.length → AllAlike i d.prices d'.prices → SameAt i daily daily') :
    SameAt k out out' := by
  obtain ⟨days, _, long, order, _, rfl⟩ := expand_run run
  obtain ⟨days', _, long', order', _, rfl⟩ := expand_run run'
  rw [List.length_map] at long long'
  have count : closedBy (d.ts.map (· + 86400)) e = closedBy (d'.ts.map (· + 86400)) e :=
    congrArg List.length alike.stamps
  have bound := closedBy_le (d.ts.map (· + 86400)) e
  rw [List.length_map] at bound
  have row : rowOf (d.ts.map (· + 86400)) days e = rowOf (d'.ts.map (· + 86400)) days' e := by
    unfold rowOf
    rw [← count]
    by_cases none_ : closedBy (d.ts.map (· + 86400)) e = 0
    · rw [if_pos (.inl none_), if_pos (.inl none_)]
    · have lives := (alike.rows (closedBy (d.ts.map (· + 86400)) e - 1) (by omega)).1
      by_cases outside : days ≤ closedBy (d.ts.map (· + 86400)) e - 1
      · rw [if_pos (.inr outside), if_pos (.inr (by omega))]
      · rw [if_neg (by omega), if_neg (by omega)]
  have pairs : List.Forall₂ (fun x y => x.1 = y.1 ∧ ∀ i, rowOf (d.ts.map (· + 86400)) days e = some i →
      x.2[i]? = y.2[i]?) daily daily' := by
    cases there : rowOf (d.ts.map (· + 86400)) days e with
    | none => exact keys.imp fun x y one => ⟨one, fun i same => by cases same⟩
    | some i =>
      unfold rowOf at there
      split at there
      · cases there
      rename_i alive
      injection there with there
      obtain ⟨lives, share⟩ := alike.rows i (by omega)
      have same := rows i (by omega) (lives.mp (by omega)) (share (by omega))
      refine same.imp fun x y one => ⟨one.1, fun j at_j => ?_⟩
      injection at_j with at_j
      rw [← at_j]
      exact one.2
  unfold SameAt
  rw [List.forall₂_map_left_iff, List.forall₂_map_right_iff]
  refine pairs.imp fun x y one => ⟨one.1, ?_⟩
  rw [List.map_map, List.map_map, List.getElem?_map, List.getElem?_map, List.getElem?_tail, List.getElem?_tail, here, here',
    Option.map_some, Option.map_some]
  simp only [Function.comp]
  rw [← row]
  cases there : rowOf (d.ts.map (· + 86400)) days e with
  | none => rfl
  | some i =>
    simp only [Option.map_some, Option.getD_some]
    rw [List.getD_eq_getElem?_getD, List.getD_eq_getElem?_getD, one.2 i there]

/- The sleeves. -/

/-- What two pairs of grids share, with the bars that are forming, as far as a row of a result goes. -/
structure Known (k : Nat) (d h d' h' : Grid) : Prop where
  closes : AllAlike k h.prices h'.prices
  stamps : Agree (k + 2) h.ts h'.ts
  days : ∀ e, h.ts[k + 1]? = some e → DaysAlike (e + 14400) d d'
  left : k + 1 < h.ts.length
  right : k + 1 < h'.ts.length

structure SleevesSame (k : Nat) (s s' : Sleeves) : Prop where
  b : SameAt k s.b s'.b
  a1 : SameAt k s.a1 s'.a1
  a2 : SameAt k s.a2 s'.a2

theorem rows_keys (assets : List String) (f g : String → List ℚ) :
    List.Forall₂ (fun x y : String × List ℚ => x.1 = y.1) (assets.map fun a => (a, f a)) (assets.map fun a => (a, g a)) := by
  rw [List.forall₂_map_left_iff, List.forall₂_map_right_iff, List.forall₂_same]
  intro a _
  rfl

theorem sleeveB_keys {sqrt : ℚ → ℚ} {cost : ℚ} {prices : Closes} {assets : List String} {n : Nat} {b : Positions}
    (run : sleeveB sqrt cost prices assets n = .ok b) : ∃ f : String → List ℚ, b = assets.map fun a => (a, f a) := by
  obtain ⟨⟨basket, l3⟩, _, run⟩ := bind_ok.mp run
  obtain ⟨_, _, run⟩ := bind_ok.mp run
  split at run
  · cases run
  injection run with run
  exact ⟨_, run.symm⟩

theorem sleeveA1_keys {sqrt : ℚ → ℚ} {prices : Closes} {assets : List String} {n : Nat} {b : Positions}
    (run : sleeveA1 sqrt prices assets n = .ok b) : ∃ f : String → List ℚ, b = assets.map fun a => (a, f a) := by
  obtain ⟨book, _, run⟩ := bind_ok.mp run
  injection run with run
  exact ⟨_, run.symm⟩

theorem sleeves_same {sqrt : ℚ → ℚ} {c : CrossfreqSystemConfig} {d h d' h' : Grid} {s s' : Sleeves}
    (run : verifiedSleeves sqrt c d h = .ok s) (run' : verifiedSleeves sqrt c d' h' = .ok s')
    (known : Known k d h d' h') (keys : (d.prices.map Prod.fst).Nodup) : SleevesSame k s s' := by
  obtain ⟨bDaily, madeB, run⟩ := bind_ok.mp run
  obtain ⟨a1Daily, madeA1, run⟩ := bind_ok.mp run
  obtain ⟨a2, madeA2, run⟩ := bind_ok.mp run
  obtain ⟨b, laidB, run⟩ := bind_ok.mp run
  obtain ⟨a1, laidA1, run⟩ := bind_ok.mp run
  injection run with run
  obtain ⟨bDaily', madeB', run'⟩ := bind_ok.mp run'
  obtain ⟨a1Daily', madeA1', run'⟩ := bind_ok.mp run'
  obtain ⟨a2', madeA2', run'⟩ := bind_ok.mp run'
  obtain ⟨b', laidB', run'⟩ := bind_ok.mp run'
  obtain ⟨a1', laidA1', run'⟩ := bind_ok.mp run'
  injection run' with run'
  obtain ⟨e, there⟩ : ∃ e, h.ts[k + 1]? = some e := ⟨_, List.getElem?_eq_getElem known.left⟩
  have there' := known.stamps.at_ (Nat.lt_succ_self (k + 1))
  rw [there] at there'
  have days := known.days e there
  have ends : (h.ts.map (· + 14400))[k + 1]? = some (e + 14400) := by
    rw [List.getElem?_map, there]
    rfl
  have ends' : (h'.ts.map (· + 14400))[k + 1]? = some (e + 14400) := by
    rw [List.getElem?_map, ← there']
    rfl
  rw [← run, ← run']
  constructor
  · apply expand_same laidB laidB' ends ends' days
    · obtain ⟨f, rfl⟩ := sleeveB_keys madeB
      obtain ⟨g, rfl⟩ := sleeveB_keys madeB'
      exact rows_keys c.assets f g
    · intro i left right alike
      exact sleeveB_same madeB madeB' alike (by omega) (by omega)
  · apply expand_same laidA1 laidA1' ends ends' days
    · obtain ⟨f, rfl⟩ := sleeveA1_keys madeA1
      obtain ⟨g, rfl⟩ := sleeveA1_keys madeA1'
      exact rows_keys c.assets f g
    · intro i left right alike
      refine sleeveA1_same madeA1 madeA1' (allAlike_ffill alike) ?_ (by omega) (by omega)
      rw [ffillBtc_keys]
      exact keys
  · have left := known.left
    have right := known.right
    exact sleeveA2_same madeA2 madeA2' (allAlike_ffill known.closes) (by omega) (by omega)

/- From the sleeves on. -/

theorem combine_same {s s' : Sleeves} {assets : List String} {n m : Nat} {book book' : Positions}
    (run : combine s assets n = .ok book) (run' : combine s' assets m = .ok book') (same : SleevesSame k s s') (left : k < n)
    (right : k < m) : SameAt k book book' := by
  unfold combine at run run'
  split at run
  · split at run'
    · injection run with run
      injection run' with run'
      rw [← run, ← run']
      apply sameAt_rows left right
      intro a _
      rw [held_same same.b, held_same same.a1, held_same same.a2]
    · cases run'
  · cases run

theorem caps_run {book capped : Positions} {longCap shortCap : ℚ} (run : applyPositionCaps book longCap shortCap = .ok capped) :
    validatePositions book = .ok () ∧
      capped = book.map fun item => (item.1, item.2.map fun p => if 0 ≤ p then min p longCap else max p (-shortCap)) := by
  unfold applyPositionCaps at run
  split at run
  · cases run
  split at run
  · cases run
  split at run
  · cases run
  obtain ⟨valid, run⟩ := then_ok.mp run
  injection run with same
  exact ⟨valid, same.symm⟩

theorem caps_same {book book' capped capped' : Positions} {longCap shortCap : ℚ}
    (run : applyPositionCaps book longCap shortCap = .ok capped) (run' : applyPositionCaps book' longCap shortCap = .ok capped')
    (same : SameAt k book book') : SameAt k capped capped' := by
  rw [(caps_run run).2, (caps_run run').2]
  unfold SameAt
  rw [List.forall₂_map_left_iff, List.forall₂_map_right_iff]
  apply same.imp
  intro x y one
  refine ⟨one.1, ?_⟩
  rw [List.getElem?_map, List.getElem?_map, one.2]

theorem held_bar {book book' : Positions} (keys : book.map Prod.fst = book'.map Prod.fst) (bars : barAt book k = barAt book' k)
    (a : String) : held book a k = held book' a k := by
  unfold held
  induction book generalizing book' with
  | nil =>
    cases book' with
    | nil => rfl
    | cons y rest => cases keys
  | cons x rest ih =>
    cases book' with
    | nil => cases keys
    | cons y rest' =>
      obtain ⟨key, keys⟩ := List.cons.inj keys
      obtain ⟨bar, bars⟩ := List.cons.inj bars
      by_cases here : a = x.1
      · rw [here, List.lookup_cons_self, key, List.lookup_cons_self]
        exact bar
      · rw [List.lookup_cons, beq_false_of_ne here, List.lookup_cons, ← key, beq_false_of_ne here]
        exact ih keys bars

theorem shapeOf_keys {book book' : Positions} (same : shapeOf book = shapeOf book') :
    book.map Prod.fst = book'.map Prod.fst := by
  have fst : ∀ ps : Positions, ps.map Prod.fst = (shapeOf ps).map Prod.fst := by
    intro ps
    unfold shapeOf
    rw [List.map_map]
    rfl
  rw [fst, fst, same]

/-- The limits scale a bar by what is in it. -/
theorem limits_same {capped capped' limited limited' : Positions} (run : applyWholeBookLimits capped = .ok limited)
    (run' : applyWholeBookLimits capped' = .ok limited') (valid : validatePositions capped = .ok ())
    (valid' : validatePositions capped' = .ok ()) (left : k < barsOf capped) (right : k < barsOf capped')
    (same : SameAt k capped capped') (a : String) : held limited a k = held limited' a k := by
  obtain ⟨out, made, shape, bars⟩ := applyWholeBookLimits_ok valid
  obtain ⟨out', made', shape', bars'⟩ := applyWholeBookLimits_ok valid'
  obtain rfl := Except.ok.inj (made.symm.trans run)
  obtain rfl := Except.ok.inj (made'.symm.trans run')
  apply held_bar
  · rw [shapeOf_keys shape, shapeOf_keys shape']
    exact map_same (same.imp fun _ _ one => one.1)
  · rw [bars k left, bars' k right, sameAt_bar same]

/- The governor at the cadence of days. -/

theorem days_ordered {days : List Int} (ok : validateDays days = .ok ()) : days.Pairwise (· ≤ ·) := by
  apply List.isChain_iff_pairwise.mp
  induction days with
  | nil => exact .nil
  | cons day rest ih =>
    cases rest with
    | nil => exact .singleton day
    | cons next rest =>
      obtain ⟨steps, more⟩ := validateDays_ok ok
      refine .cons_cons ?_ (ih more)
      omega

/-- Bars from a place on, of its day or a later one, bear on no day before. -/
theorem compound_before {bars : List (Int × ℚ)} {day : Int} (later : ∀ bar ∈ bars.drop k, day < bar.1) :
    compound bars day = compound (bars.take k) day := by
  have none_ : (bars.drop k).filter (fun bar => bar.1 = day) = [] := by
    rw [List.filter_eq_nil_iff]
    intro bar mem
    have := later bar mem
    simp only [decide_eq_true_eq]
    omega
  have parted : bars.filter (fun bar => bar.1 = day) = (bars.take k).filter fun bar => bar.1 = day := by
    conv_lhs => rw [← List.take_append_drop k bars]
    rw [List.filter_append, none_, List.append_nil]
  unfold compound
  rw [parted]

theorem later_days {days : List Int} {rs : List ℚ} (order : days.Pairwise (· ≤ ·)) {day D : Int} (here : days[k]? = some D)
    (before : day < D) : ∀ bar ∈ (days.zip rs).drop k, day < bar.1 := by
  intro bar mem
  obtain ⟨i, at_i⟩ := List.mem_iff_getElem?.mp mem
  rw [List.getElem?_drop] at at_i
  have dated := (List.getElem?_zip_eq_some.mp at_i).1
  obtain ⟨inside, value⟩ := List.getElem?_eq_some_iff.mp here
  obtain ⟨inside', value'⟩ := List.getElem?_eq_some_iff.mp dated
  rcases Nat.eq_zero_or_pos i with rfl | more
  · rw [Nat.add_zero] at dated
    have same := Option.some.inj (here.symm.trans dated)
    omega
  · have le := List.pairwise_iff_getElem.mp order k (k + i) inside inside' (by omega)
    omega

theorem pair_at {α β : Type} {R : α → β → Prop} {xs : List α} {ys : List β} (pairs : List.Forall₂ R xs ys) {x : α}
    (here : xs[k]? = some x) : ∃ y, ys[k]? = some y ∧ R x y := by
  induction pairs generalizing k with
  | nil => cases here
  | @cons a b _ _ one _ ih =>
    cases k with
    | zero =>
      obtain rfl := Option.some.inj here
      exact ⟨b, rfl, one⟩
    | succ k => exact ih here

theorem day_within {first D : Int} {count : Nat} {rs : List ℚ} {days : List Int} {b : DayBook}
    (w : Gathered first (days.zip rs) b count) (valid : validateIntraday rs days = .ok ()) (here : days[k]? = some D) :
    first ≤ D ∧ D ≤ first + count := by
  apply (w.days D).mp
  have even := (validateIntraday_ok valid).2.1
  have inside := (List.getElem?_eq_some_iff.mp here).1
  have there := List.getElem?_eq_getElem (show k < rs.length by omega)
  exact ⟨(D, _), List.mem_of_getElem? (List.getElem?_zip_eq_some.mpr ⟨here, there⟩), rfl⟩

/-- A multiplier of a bar is of the returns of earlier days. -/
theorem cadence_same {config : GovernorConfig} {rs rs' : List ℚ} {days days' : List Int} {mults mults' : List ℚ}
    (run : dailyCadenceGovernor config rs days = .ok mults) (run' : dailyCadenceGovernor config rs' days' = .ok mults')
    (agree : Agree k rs rs') (dated : Agree (k + 1) days days') (left : k < days.length) : mults[k]? = mults'[k]? := by
  have valid := (then_ok.mp run).1
  have valid' := (then_ok.mp run').1
  obtain ⟨first, count, head, w⟩ := gathered valid
  obtain ⟨first', count', head', w'⟩ := gathered valid'
  obtain ⟨gov, governed, _⟩ := bind_ok.mp (then_ok.mp run).2
  obtain ⟨gov', governed', _⟩ := bind_ok.mp (then_ok.mp run').2
  have snd : (daysOf days rs).map Prod.snd = dayReturns (days.zip rs) first count := by
    rw [daysOf, w.daysOf, List.map_map]
    rfl
  have snd' : (daysOf days' rs').map Prod.snd = dayReturns (days'.zip rs') first' count' := by
    rw [daysOf, w'.daysOf, List.map_map]
    rfl
  rw [snd] at governed
  rw [snd'] at governed'
  obtain ⟨_, ran, each⟩ := cadence valid w governed
  obtain rfl := Except.ok.inj (ran.symm.trans run)
  obtain ⟨_, ran', each'⟩ := cadence valid' w' governed'
  obtain rfl := Except.ok.inj (ran'.symm.trans run')
  have heads : first = first' := by
    have same := dated.at_ (Nat.succ_pos k)
    rw [← List.head?_eq_getElem?, ← List.head?_eq_getElem?, head, head'] at same
    exact Option.some.inj same
  subst heads
  obtain ⟨D, here⟩ : ∃ D, days[k]? = some D := ⟨_, List.getElem?_eq_getElem left⟩
  have here' := dated.at_ (Nat.lt_succ_self k)
  rw [here] at here'
  obtain ⟨mult, at_k, found⟩ := pair_at each here
  obtain ⟨mult', at_k', found'⟩ := pair_at each' here'.symm
  obtain ⟨low, high⟩ := day_within w valid here
  obtain ⟨_, high'⟩ := day_within w' valid' here'.symm
  have order := days_ordered (validateIntraday_ok valid).2.2.2
  have order' := days_ordered (validateIntraday_ok valid').2.2.2
  have bars : (days.zip rs).take k = (days'.zip rs').take k := (dated.sooner (Nat.le_succ k)).zip agree
  have earlier : (dayReturns (days.zip rs) first count).take (D - first).toNat =
      (dayReturns (days'.zip rs') first count').take (D - first).toNat := by
    apply agree_rows
    · intro j before
      have one : ∀ bar ∈ (days.zip rs).drop k, first + (j : Int) < bar.1 := later_days order here (by omega)
      have two : ∀ bar ∈ (days'.zip rs').drop k, first + (j : Int) < bar.1 := later_days order' here'.symm (by omega)
      rw [compound_before one, compound_before two, bars]
    · omega
    · omega
  have lengths : (dayReturns (days.zip rs) first count).length = count + 1 ∧
      (dayReturns (days'.zip rs') first count').length = count' + 1 := by
    unfold dayReturns
    rw [List.length_map, List.length_map, List.length_range, List.length_range]
    exact ⟨rfl, rfl⟩
  have same := multipliers_congr governed governed' (by omega) (by omega) earlier
  rw [at_k, at_k', ← found, ← found', same]

/- The builder. -/

theorem dayRanks_take (seen : List Int) (days : List Int) (n : Nat) :
    (dayRanks seen days).take n = dayRanks seen (days.take n) := by
  induction days generalizing seen n with
  | nil => simp [dayRanks]
  | cons day rest ih =>
    cases n with
    | zero => rfl
    | succ n =>
      unfold dayRanks
      rw [List.take_succ_cons]
      split
      · rename_i known
        rw [List.take_succ_cons, ih]
        exact (if_pos known).symm
      · rename_i fresh
        rw [List.take_succ_cons, ih]
        exact (if_neg fresh).symm

theorem dayRanks_length (seen : List Int) (days : List Int) : (dayRanks seen days).length = days.length := by
  induction days generalizing seen with
  | nil => rfl
  | cons day rest ih =>
    unfold dayRanks
    split
    · rw [List.length_cons, List.length_cons, ih]
    · rw [List.length_cons, List.length_cons, ih]

theorem extended_keys (g : Grid) (assets : List String) (step : Int) : (g.extended assets step).prices.map Prod.fst = assets := by
  unfold Grid.extended
  rw [List.map_map]
  exact List.map_id assets

theorem validateGrid_ordered {name : String} {g : Grid} {assets : List String}
    (valid : validateGrid name g assets = .ok ()) : g.ts.Pairwise (· < ·) := by
  unfold validateGrid at valid
  split at valid
  · cases valid
  split at valid
  · cases valid
  split at valid
  · cases valid
  split at valid
  · cases valid
  rename_i order
  exact List.isChain_iff_pairwise.mp (Decidable.not_not.mp order)

/-- The stamp of the bar that is forming comes after the others. -/
theorem extended_ordered {g : Grid} {assets : List String} {step : Int} (order : g.ts.Pairwise (· < ·)) (ahead : 0 < step) :
    (g.extended assets step).ts.Pairwise (· < ·) := by
  unfold Grid.extended
  rw [List.pairwise_append]
  refine ⟨order, List.pairwise_singleton _ _, ?_⟩
  intro t mem u only
  rw [List.mem_singleton.mp only]
  obtain ⟨i, inside, rfl⟩ := List.mem_iff_getElem.mp mem
  have some_ : g.ts ≠ [] := List.ne_nil_of_length_pos (by omega)
  rw [List.getLastD_eq_getLast?, List.getLast?_eq_some_getLast some_, Option.getD_some, List.getLast_eq_getElem]
  rcases Nat.lt_or_ge i (g.ts.length - 1) with before | last
  · have le := List.pairwise_iff_getElem.mp order i (g.ts.length - 1) inside (by omega) before
    omega
  · have same : i = g.ts.length - 1 := by omega
    subst same
    omega

theorem Known.sooner {d h d' h' : Grid} (known : Known k d h d' h') (order : d.ts.Pairwise (· < ·))
    (ordered : h.ts.Pairwise (· < ·)) {j : Nat} (le : j ≤ k) : Known j d h d' h' where
  closes := known.closes.sooner le
  stamps := known.stamps.sooner (by omega)
  days := by
    intro e here
    obtain ⟨last, there⟩ : ∃ last, h.ts[k + 1]? = some last := ⟨_, List.getElem?_eq_getElem known.left⟩
    have before : e ≤ last := by
      obtain ⟨inside, value⟩ := List.getElem?_eq_some_iff.mp here
      obtain ⟨inside', value'⟩ := List.getElem?_eq_some_iff.mp there
      rcases Nat.lt_or_eq_of_le le with less | same
      · have := List.pairwise_iff_getElem.mp ordered (j + 1) (k + 1) inside inside' (by omega)
        omega
      · subst same
        omega
    apply (known.days last there).sooner (by omega)
    rw [List.pairwise_map]
    exact order.imp fun less => by omega
  left := by have := known.left; omega
  right := by have := known.right; omega

/-- Rows of two results that are the same. -/
structure RowSame (k : Nat) (r r' : CrossfreqSystemResult) : Prop where
  targets : SameAt k r.finalTargets r'.finalTargets
  multipliers : r.multipliers[k]? = r'.multipliers[k]?
  sleeves : SleevesSame k r.sleevePositions r'.sleevePositions

theorem capped_shape {book capped : Positions} {longCap shortCap : ℚ}
    (run : applyPositionCaps book longCap shortCap = .ok capped) : shapeOf capped = shapeOf book := by
  rw [(caps_run run).2]
  unfold shapeOf
  rw [List.map_map]
  apply List.map_congr_left
  intro item _
  simp only [Function.comp, List.length_map]

theorem combine_shape {s : Sleeves} {assets : List String} {n : Nat} {book : Positions}
    (run : combine s assets n = .ok book) : shapeOf book = assets.map fun a => (a, n) := by
  unfold combine at run
  split at run
  · injection run with run
    rw [← run]
    unfold shapeOf
    rw [List.map_map]
    apply List.map_congr_left
    intro a _
    simp only [Function.comp, List.length_map, List.length_range]
  · cases run

theorem shape_bars {book : Positions} {assets : List String} {n : Nat} (shape : shapeOf book = assets.map fun a => (a, n))
    (some_ : assets ≠ []) : barsOf book = n := by
  obtain ⟨a, rest, rfl⟩ := List.exists_cons_of_ne_nil some_
  cases book with
  | nil => cases shape
  | cons item rest' =>
    obtain ⟨first, _⟩ := List.cons.inj shape
    exact congrArg Prod.snd first

theorem validateConfig_some {c : CrossfreqSystemConfig} (valid : validateConfig c = .ok ()) : c.assets ≠ [] := by
  unfold validateConfig at valid
  split at valid
  · cases valid
  · rename_i some_assets
    push Not at some_assets
    exact some_assets.1

/-- What the assets of the limited book hold over a bar, from sleeves that are the same there. -/
theorem limited_same {s s' : Sleeves} {assets : List String} {n m : Nat} {longCap shortCap : ℚ}
    {book book' capped capped' limited limited' : Positions} (some_ : assets ≠ [])
    (combined : combine s assets n = .ok book) (combined' : combine s' assets m = .ok book')
    (caps : applyPositionCaps book longCap shortCap = .ok capped)
    (caps' : applyPositionCaps book' longCap shortCap = .ok capped')
    (limits : applyWholeBookLimits capped = .ok limited) (limits' : applyWholeBookLimits capped' = .ok limited')
    (same : SleevesSame k s s') (left : k < n) (right : k < m) (a : String) : held limited a k = held limited' a k := by
  have shape := (capped_shape caps).trans (combine_shape combined)
  have shape' := (capped_shape caps').trans (combine_shape combined')
  apply limits_same limits limits'
  · rw [validatePositions_shape (capped_shape caps)]
    exact (caps_run caps).1
  · rw [validatePositions_shape (capped_shape caps')]
    exact (caps_run caps').1
  · rw [shape_bars shape some_]
    exact left
  · rw [shape_bars shape' some_]
    exact right
  · exact caps_same caps caps' (combine_same combined combined' same left right)

theorem retH_same {h h' : Grid} {assets : List String} {j : Nat} (alike : AllAlike k h.prices h'.prices) (before : j < k) :
    SameAt j (retH h assets) (retH h' assets) := by
  unfold SameAt retH
  rw [List.forall₂_map_left_iff, List.forall₂_map_right_iff, List.forall₂_same]
  intro a _
  refine ⟨rfl, ?_⟩
  rw [List.getElem?_map, List.getElem?_map]
  unfold Grid.closes
  rcases lookup_same (R := Alike k) (a := a) (allAlike_ffill alike) with ⟨none_, none_'⟩ | ⟨x, y, one, two, found⟩
  · rw [none_, none_']
  · rw [one, two, Option.getD_some, Option.getD_some, found.returns.at_ before]

theorem nocFrom_same {limited limited' ret ret' : Positions} {assets : List String} {cost : ℚ} {n m : Nat}
    (distinct : assets.Nodup) (left : k ≤ n) (right : k ≤ m)
    (books : ∀ j < k, ∀ a, held limited a j = held limited' a j) (earned : ∀ j < k, SameAt j ret ret') :
    Agree k (nocFrom limited ret assets cost (List.range n) fun _ => 0)
      (nocFrom limited' ret' assets cost (List.range m) fun _ => 0) := by
  have one := nocFrom_bars limited ret distinct cost n 0 (fun _ => 0) fun _ _ => rfl
  have two := nocFrom_bars limited' ret' distinct cost m 0 (fun _ => 0) fun _ _ => rfl
  rw [← List.range_eq_range'] at one two
  rw [one, two]
  apply agree_rows _ left right
  intro j before
  have gross : grossReturn limited ret assets j = grossReturn limited' ret' assets j := by
    unfold grossReturn
    congr 1
    apply List.map_congr_left
    intro a _
    rw [books j before a, held_same (earned j before)]
  have turnover : turnoverInto limited assets j = turnoverInto limited' assets j := by
    unfold turnoverInto
    congr 1
    apply List.map_congr_left
    intro a _
    rw [books j before a, books (j - 1) (by omega) a]
  rw [gross, turnover]

theorem nocFrom_length (limited ret : Positions) (assets : List String) (cost : ℚ) (ks : List Nat) (prev : String → ℚ) :
    (nocFrom limited ret assets cost ks prev).length = ks.length := by
  induction ks generalizing prev with
  | nil => rfl
  | cons k rest ih => rw [nocFrom, List.length_cons, List.length_cons, ih]

/-- Three bars of the one asset, the last close as it comes. -/
def btcBars (last : ℚ) : Grid := ⟨[("BTC", [some 100, some 10, some last])], [57600, 72000, 86400]⟩

end Portfolio
