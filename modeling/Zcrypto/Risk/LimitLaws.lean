import Mathlib.Tactic.Ring
import Mathlib.Tactic.Positivity
import Mathlib.Tactic.NormNum
import Zcrypto.Fallible
import Zcrypto.Risk.Limits

/- Scaling a bar keeps it inside every limit it is inside of, so that the limits hold together after the
   last of them, and a book that they have been applied to is left as it is. -/
namespace Risk

section
variable {factorOf : List ℚ → Option ℚ} {positions out : Positions} {bar : List ℚ} {f : ℚ} {k j : Nat}

/- One bar of many. -/

theorem barAt_scaleBar (j k : Nat) (f : ℚ) (positions : Positions) :
    barAt (scaleBar k f positions) j = if j = k then (barAt positions j).map (· * f) else barAt positions j := by
  unfold barAt scaleBar
  rw [List.map_map]
  split
  · rename_i same
    rw [same, List.map_map]
    apply List.map_congr_left
    intro item mem
    simp only [Function.comp_apply, List.getD_eq_getElem?_getD, List.getElem?_modify_eq]
    cases item.2[k]? with
    | none => exact (zero_mul f).symm
    | some w => rfl
  · rename_i other
    apply List.map_congr_left
    intro item mem
    simp only [Function.comp_apply, List.getD_eq_getElem?_getD]
    rw [List.getElem?_modify_ne _ _ fun same => other same.symm]

/-- What a positions' shape is: the assets, and how long their series are. -/
def shapeOf (positions : Positions) : List (String × Nat) := positions.map fun item => (item.1, item.2.length)

theorem shapeOf_scaleBar (k : Nat) (f : ℚ) (positions : Positions) :
    shapeOf (scaleBar k f positions) = shapeOf positions := by
  unfold shapeOf scaleBar
  rw [List.map_map]
  apply List.map_congr_left
  intro item mem
  simp only [Function.comp_apply, List.length_modify]

theorem validatePositions_shape (same : shapeOf out = shapeOf positions) :
    validatePositions out = validatePositions positions := by
  have none : ∀ ps : Positions, ps = [] ↔ shapeOf ps = [] := fun ps => List.map_eq_nil_iff.symm
  have empty : ∀ ps : Positions, (ps.any fun item => item.2.isEmpty) = (shapeOf ps).any fun item => item.2 = 0 := by
    intro ps
    unfold shapeOf
    rw [List.any_map]
    congr 1
    funext item
    simp only [Function.comp_apply]
    cases item.2 with
    | nil => rfl
    | cons w rest => rfl
  have lengths : ∀ ps : Positions, (ps.map fun item => item.2.length) = (shapeOf ps).map Prod.snd := by
    intro ps
    unfold shapeOf
    rw [List.map_map]
    rfl
  unfold validatePositions
  rw [empty, empty, lengths, lengths, same]
  simp only [none out, none positions, same]

theorem barsOf_shape (same : shapeOf out = shapeOf positions) : barsOf out = barsOf positions := by
  have first : ∀ ps : Positions, barsOf ps = ((shapeOf ps).head?.map Prod.snd).getD 0 := by
    intro ps
    cases ps with
    | nil => rfl
    | cons item rest => rfl
  rw [first, first, same]

/-- The factor a limit has for a bar, and one where it has none. -/
def factorAt (factorOf : List ℚ → Option ℚ) (bar : List ℚ) : ℚ := (factorOf bar).getD 1

def scaledBar (factorOf : List ℚ → Option ℚ) (bar : List ℚ) : List ℚ :=
  bar.map (· * factorAt factorOf bar)

theorem map_one (bar : List ℚ) : bar.map (· * 1) = bar := by
  simp only [mul_one, List.map_id']

/-- One bar scaled by its own factor. -/
def scaleOwn (factorOf : List ℚ → Option ℚ) (out : Positions) (k : Nat) : Positions :=
  match factorOf (barAt out k) with
  | some factor => scaleBar k factor out
  | none => out

theorem scaleEach_own (factorOf : List ℚ → Option ℚ) (positions : Positions) :
    scaleEach factorOf positions = (List.range (barsOf positions)).foldl (scaleOwn factorOf) positions := rfl

/-- Each bar is scaled by its own factor. -/
theorem scaleEach_bars (factorOf : List ℚ → Option ℚ) (positions : Positions) :
    shapeOf (scaleEach factorOf positions) = shapeOf positions ∧
      ∀ k < barsOf positions, barAt (scaleEach factorOf positions) k = scaledBar factorOf (barAt positions k) := by
  have step : ∀ m, ∀ out, out = (List.range m).foldl (scaleOwn factorOf) positions → shapeOf out = shapeOf positions ∧
      ∀ k, barAt out k = if k < m then scaledBar factorOf (barAt positions k) else barAt positions k := by
    intro m
    induction m with
    | zero =>
      rintro out rfl
      exact ⟨rfl, fun k => (if_neg (Nat.not_lt_zero k)).symm⟩
    | succ m ih =>
      rintro out rfl
      rw [List.range_succ, List.foldl_append]
      obtain ⟨shape, bars⟩ := ih _ rfl
      generalize (List.range m).foldl (scaleOwn factorOf) positions = before at shape bars
      have own : barAt before m = barAt positions m := by rw [bars m, if_neg (Nat.lt_irrefl m)]
      simp only [List.foldl_cons, List.foldl_nil, scaleOwn, own]
      cases factor : factorOf (barAt positions m) with
      | none =>
        refine ⟨shape, ?_⟩
        intro k
        rw [bars k]
        rcases Nat.lt_trichotomy k m with less | rfl | more
        · rw [if_pos less, if_pos (by omega)]
        · rw [if_neg (Nat.lt_irrefl k), if_pos (by omega), scaledBar, factorAt, factor, Option.getD_none, map_one]
        · rw [if_neg (by omega), if_neg (by omega)]
      | some f =>
        refine ⟨(shapeOf_scaleBar m f before).trans shape, ?_⟩
        intro k
        rw [barAt_scaleBar, bars k]
        rcases Nat.lt_trichotomy k m with less | rfl | more
        · rw [if_neg (by omega), if_pos less, if_pos (by omega)]
        · rw [if_pos rfl, if_neg (Nat.lt_irrefl k), if_pos (by omega), scaledBar, factorAt, factor,
            Option.getD_some]
        · rw [if_neg (by omega), if_neg (by omega), if_neg (by omega)]
  obtain ⟨shape, bars⟩ := step (barsOf positions) _ (scaleEach_own factorOf positions)
  exact ⟨shape, fun k less => (bars k).trans (if_pos less)⟩

end

/- What a bar comes to. -/

section
variable {bar : List ℚ} {f L S L' S' floor : ℚ}

theorem longGross_nonneg (bar : List ℚ) : 0 ≤ longGross bar := by
  apply List.sum_nonneg
  intro w mem
  have long : 0 < w := by simpa using (List.mem_filter.mp mem).2
  exact long.le

theorem longGross_cons (w : ℚ) (bar : List ℚ) :
    longGross (w :: bar) = (if 0 < w then w else 0) + longGross bar := by
  unfold longGross
  by_cases long : 0 < w
  · rw [List.filter_cons_of_pos (by simpa using long), List.sum_cons, if_pos long]
  · rw [List.filter_cons_of_neg (by simpa using long), if_neg long, zero_add]

theorem shortGross_cons (w : ℚ) (bar : List ℚ) :
    shortGross (w :: bar) = (if w < 0 then -w else 0) + shortGross bar := by
  unfold shortGross
  by_cases short : w < 0
  · rw [List.filter_cons_of_pos (by simpa using short), List.sum_cons, if_pos short, neg_add]
  · rw [List.filter_cons_of_neg (by simpa using short), if_neg short, zero_add]

theorem shortGross_nonneg (bar : List ℚ) : 0 ≤ shortGross bar := by
  induction bar with
  | nil => exact neg_zero.ge
  | cons w rest ih =>
    rw [shortGross_cons]
    split
    · linarith
    · linarith

theorem gross_net (bar : List ℚ) :
    grossOf bar = longGross bar + shortGross bar ∧ netOf bar = longGross bar - shortGross bar := by
  induction bar with
  | nil => simp [grossOf, netOf, longGross, shortGross]
  | cons w rest ih =>
    obtain ⟨gross, net⟩ := ih
    have gross_cons : grossOf (w :: rest) = |w| + grossOf rest := by
      rw [grossOf, List.map_cons, List.sum_cons, grossOf]
    have net_cons : netOf (w :: rest) = w + netOf rest := List.sum_cons
    rw [longGross_cons, shortGross_cons, gross_cons, net_cons, gross, net]
    rcases lt_trichotomy w 0 with short | rfl | long
    · rw [abs_of_neg short, if_neg short.le.not_gt, if_pos short]
      constructor <;> ring
    · rw [abs_zero, if_neg (lt_irrefl _), if_neg (lt_irrefl _)]
      constructor <;> ring
    · rw [abs_of_pos long, if_pos long, if_neg long.le.not_gt]
      constructor <;> ring

/-- A bar times a factor has its longs and its shorts times the factor. -/
theorem gross_scaled (bar : List ℚ) (pos : 0 < f) :
    longGross (bar.map (· * f)) = longGross bar * f ∧ shortGross (bar.map (· * f)) = shortGross bar * f := by
  induction bar with
  | nil => exact ⟨(zero_mul f).symm, by simp [shortGross]⟩
  | cons w rest ih =>
    have long : 0 < w * f ↔ 0 < w := mul_pos_iff_of_pos_right pos
    have short : w * f < 0 ↔ w < 0 := by
      rw [mul_neg_iff]
      constructor
      · rintro (⟨-, low⟩ | ⟨low, -⟩)
        · exact absurd low pos.le.not_gt
        · exact low
      · exact fun low => .inr ⟨low, pos⟩
    rw [List.map_cons, longGross_cons, longGross_cons, shortGross_cons, shortGross_cons, ih.1, ih.2]
    simp only [long, short]
    constructor
    · split <;> ring
    · split <;> ring

/- Margin. -/

theorem marginUsed_mono (long : L ≤ L') (short : S ≤ S') : marginUsed L S ≤ marginUsed L' S' := by
  have cash : max 0 (1 - S') ≤ max 0 (1 - S) := max_le_max le_rfl (by linarith)
  exact add_le_add short (max_le_max le_rfl (by linarith))

theorem marginUsed_nonneg (short : 0 ≤ S) : 0 ≤ marginUsed L S :=
  add_nonneg short (le_max_left 0 _)

/-- A bar is at the floor where its margin is no more than the floor's own share of it. -/
theorem at_floor (positive : 0 < floor) (short : 0 ≤ S) :
    (marginUsed L S = 0 ∨ 1 / marginUsed L S ≥ floor) ↔ marginUsed L S ≤ 1 / floor := by
  rcases (marginUsed_nonneg (L := L) short).eq_or_lt with none | used
  · rw [← none]
    exact ⟨fun _ => (one_div_pos.mpr positive).le, fun _ => .inl rfl⟩
  · rw [or_iff_right used.ne', ge_iff_le, le_one_div positive used]

theorem at_level (positive : 0 < floor) (bar : List ℚ) :
    (floor : WithTop ℚ) ≤ marginLevel bar ↔ marginUsed (longGross bar) (shortGross bar) ≤ 1 / floor := by
  rw [← at_floor positive (shortGross_nonneg bar), marginLevel]
  split
  · rename_i none
    exact ⟨fun _ => .inl none, fun _ => le_top⟩
  · rename_i some_
    rw [or_iff_right some_, WithTop.coe_le_coe]

theorem marginUsed_short (L S : ℚ) : S ≤ marginUsed L S := le_add_of_nonneg_right (le_max_left 0 _)

theorem marginUsed_long (within : S ≤ 1) : L + 2 * S - 1 ≤ marginUsed L S := by
  unfold marginUsed
  rw [max_eq_right (by linarith : 0 ≤ 1 - S)]
  have := le_max_right 0 (L - (1 - S))
  linarith

/-- Longs that the cash covers: the shorts alone use margin. -/
theorem scale_covered {t : ℚ} (whole : t ≤ 1) (short : 0 < S)
    (covered : t * (L + S) ≤ S) : marginUsed (L * (t / S)) (S * (t / S)) = t ∧
      ∀ s, t / S < s → t < marginUsed (L * s) (S * s) := by
  have shorts : S * (t / S) = t := mul_div_cancel₀ t short.ne'
  constructor
  · have longs : L * (t / S) ≤ 1 - t := by
      rw [← mul_div_assoc, div_le_iff₀ short]
      linarith
    rw [shorts, marginUsed, max_eq_right (by linarith : 0 ≤ 1 - t), max_eq_left (by linarith), add_zero]
  · intro s more
    have larger := (div_lt_iff₀' short).mp more
    exact larger.trans_le (marginUsed_short _ _)

/-- A bar below the floor has shorts where the cash covers its longs. -/
theorem covered_short {t : ℚ} (long : 0 ≤ L) (short : 0 ≤ S) (positive : 0 < t)
    (below : t < marginUsed L S) (covered : t * (L + S) ≤ S) : 0 < S := by
  rcases short.eq_or_lt with none | some_
  · have none' : L = 0 := by
      rw [← none, add_zero] at covered
      exact le_antisymm (not_lt.mp fun some_ => (mul_pos positive some_).not_ge covered) long
    rw [← none, none', marginUsed] at below
    norm_num at below
    linarith
  · exact some_

theorem drawn_long {t : ℚ} (short : 0 ≤ S) (positive : 0 < t) (drawn : S < t * (L + S)) : 0 < L + 2 * S := by
  have both : 0 < L + S := (mul_pos_iff_of_pos_left positive).mp (short.trans_lt drawn)
  linarith

/-- Longs that draw margin beyond the cash. -/
theorem scale_drawn {t : ℚ} (positive : 0 < t) (whole : t ≤ 1) (short : 0 ≤ S)
    (drawn : S < t * (L + S)) :
    marginUsed (L * ((1 + t) / (L + 2 * S))) (S * ((1 + t) / (L + 2 * S))) = t ∧
      ∀ s, (1 + t) / (L + 2 * S) < s → t < marginUsed (L * s) (S * s) := by
  have some_ := drawn_long short positive drawn
  have factor : 0 < (1 + t) / (L + 2 * S) := div_pos (by linarith) some_
  have total : (L + 2 * S) * ((1 + t) / (L + 2 * S)) = 1 + t := mul_div_cancel₀ _ some_.ne'
  generalize (1 + t) / (L + 2 * S) = s at factor total
  have shorts : S * s < t := by
    have scaled := mul_lt_mul_of_pos_right drawn factor
    nlinarith
  constructor
  · rw [marginUsed, max_eq_right (by linarith : 0 ≤ 1 - S * s), max_eq_right (by linarith)]
    linarith
  · intro s' more
    have larger := mul_lt_mul_of_pos_left more some_
    rcases le_or_gt (S * s') 1 with within | beyond
    · have := marginUsed_long (L := L * s') within
      linarith
    · have := marginUsed_short (L * s') (S * s')
      linarith

/-- The factor of a bar below the floor brings it to the floor, and any larger one leaves it below. -/
theorem marginFloorScale_spec (long : 0 ≤ L) (short : 0 ≤ S) (floored : 1 ≤ floor)
    (below : 1 / floor < marginUsed L S) :
    0 < marginFloorScale L S floor ∧ marginFloorScale L S floor < 1 ∧
      marginUsed (L * marginFloorScale L S floor) (S * marginFloorScale L S floor) = 1 / floor ∧
      ∀ s, marginFloorScale L S floor < s → 1 / floor < marginUsed (L * s) (S * s) := by
  have positive : 0 < 1 / floor := by positivity
  have whole : 1 / floor ≤ 1 := (div_le_one (by linarith)).mpr floored
  have reached : 0 < marginFloorScale L S floor ∧
      marginUsed (L * marginFloorScale L S floor) (S * marginFloorScale L S floor) = 1 / floor ∧
      ∀ s, marginFloorScale L S floor < s → 1 / floor < marginUsed (L * s) (S * s) := by
    simp only [marginFloorScale]
    split
    · rename_i covered
      have shorts := covered_short long short positive below covered
      exact ⟨div_pos positive shorts, scale_covered whole shorts covered⟩
    · rename_i drawn
      have longs := drawn_long short positive (not_le.mp drawn)
      exact ⟨div_pos (by linarith) longs, scale_drawn positive whole short (not_le.mp drawn)⟩
  obtain ⟨some_, at_, larger⟩ := reached
  refine ⟨some_, ?_, at_, larger⟩
  by_contra whole_
  have more := marginUsed_mono (le_mul_of_one_le_right long (not_lt.mp whole_))
    (le_mul_of_one_le_right short (not_lt.mp whole_))
  exact absurd (below.trans_le more) (by rw [at_]; exact lt_irrefl _)

end

/-- A limit whose factors bring every bar inside it, and that no later scaling breaches. -/
structure Tames (factorOf : List ℚ → Option ℚ) (holds : List ℚ → Prop) : Prop where
  positive : ∀ bar, 0 < factorAt factorOf bar
  shrinks : ∀ bar, factorAt factorOf bar ≤ 1
  one : ∀ bar, factorAt factorOf bar = 1 ↔ holds bar
  inside : ∀ bar, holds (scaledBar factorOf bar)
  scales : ∀ bar f, 0 < f → f ≤ 1 → holds bar → holds (bar.map (· * f))

section
variable {cap low high floor f : ℚ} {bar : List ℚ}

theorem grossOf_scaled (bar : List ℚ) (positive : 0 < f) : grossOf (bar.map (· * f)) = grossOf bar * f := by
  rw [(gross_net _).1, (gross_scaled bar positive).1, (gross_scaled bar positive).2, (gross_net bar).1]
  ring

theorem netOf_scaled (bar : List ℚ) (positive : 0 < f) : netOf (bar.map (· * f)) = netOf bar * f := by
  rw [(gross_net _).2, (gross_scaled bar positive).1, (gross_scaled bar positive).2, (gross_net bar).2]
  ring

/-- A quotient of a bound by what exceeds it. -/
theorem bound_factor {bound sum : ℚ} (positive : 0 < bound) (more : bound < sum) :
    0 < bound / sum ∧ bound / sum < 1 ∧ sum * (bound / sum) = bound :=
  ⟨div_pos positive (positive.trans more), (div_lt_one (positive.trans more)).mpr more,
    mul_div_cancel₀ _ (positive.trans more).ne'⟩

/-- It is enough to know of each bar that it holds and is left, or is brought to hold by less than one. -/
theorem tames_of {factorOf : List ℚ → Option ℚ} {holds : List ℚ → Prop}
    (each : ∀ bar, (holds bar ∧ factorOf bar = none) ∨ (¬ holds bar ∧ ∃ f, factorOf bar = some f ∧
      0 < f ∧ f < 1 ∧ holds (bar.map (· * f))))
    (scales : ∀ bar f, 0 < f → f ≤ 1 → holds bar → holds (bar.map (· * f))) : Tames factorOf holds := by
  constructor
  case scales => exact scales
  all_goals
    intro bar
    rcases each bar with ⟨already, none⟩ | ⟨breaches, f, factor, positive, less, brought⟩
  · rw [factorAt, none, Option.getD_none]
    exact one_pos
  · rw [factorAt, factor, Option.getD_some]
    exact positive
  · rw [factorAt, none, Option.getD_none]
  · rw [factorAt, factor, Option.getD_some]
    exact less.le
  · rw [factorAt, none, Option.getD_none]
    exact iff_of_true rfl already
  · rw [factorAt, factor, Option.getD_some]
    exact iff_of_false less.ne breaches
  · rw [scaledBar, factorAt, none, Option.getD_none, map_one]
    exact already
  · rw [scaledBar, factorAt, factor, Option.getD_some]
    exact brought

theorem gross_tames (positive : 0 < cap) : Tames (grossFactor cap) fun bar => grossOf bar ≤ cap := by
  apply tames_of
  · intro bar
    by_cases more : grossOf bar > cap
    · obtain ⟨some_, less, brought⟩ := bound_factor positive more
      exact .inr ⟨more.not_ge, _, if_pos more, some_, less, by rw [grossOf_scaled bar some_, brought]⟩
    · exact .inl ⟨not_lt.mp more, if_neg more⟩
  · intro bar f some_ most holds
    have nonneg : 0 ≤ grossOf bar := by
      rw [(gross_net bar).1]
      exact add_nonneg (longGross_nonneg bar) (shortGross_nonneg bar)
    rw [grossOf_scaled bar some_]
    exact (mul_le_of_le_one_right nonneg most).trans holds

theorem net_tames (below : low < 0) (above : 0 < high) :
    Tames (netFactor low high) fun bar => low ≤ netOf bar ∧ netOf bar ≤ high := by
  apply tames_of
  · intro bar
    by_cases more : netOf bar > high
    · obtain ⟨some_, less, brought⟩ := bound_factor above more
      refine .inr ⟨fun holds => more.not_ge holds.2, _, if_pos more, some_, less, ?_⟩
      rw [netOf_scaled bar some_, brought]
      exact ⟨(below.trans above).le, le_rfl⟩
    · by_cases short : netOf bar < low
      · obtain ⟨some_, less, brought⟩ := bound_factor (neg_pos.mpr below) (neg_lt_neg short)
        rw [neg_div_neg_eq] at some_ less brought
        refine .inr ⟨fun holds => short.not_ge holds.1, _, (if_neg more).trans (if_pos short), some_, less, ?_⟩
        rw [netOf_scaled bar some_]
        constructor <;> linarith
      · exact .inl ⟨⟨not_lt.mp short, not_lt.mp more⟩, (if_neg more).trans (if_neg short)⟩
  · intro bar f some_ most holds
    rw [netOf_scaled bar some_]
    constructor
    · nlinarith
    · nlinarith

theorem margin_tames (floored : 1 ≤ floor) :
    Tames (marginFactor floor) fun bar => (floor : WithTop ℚ) ≤ marginLevel bar := by
  have positive : 0 < floor := by linarith
  apply tames_of
  · intro bar
    rw [at_level positive]
    by_cases holds : marginUsed (longGross bar) (shortGross bar) ≤ 1 / floor
    · exact .inl ⟨holds, if_pos ((at_floor positive (shortGross_nonneg bar)).mpr holds)⟩
    · obtain ⟨some_, less, brought, -⟩ := marginFloorScale_spec (longGross_nonneg bar)
        (shortGross_nonneg bar) floored (not_le.mp holds)
      refine .inr ⟨holds, _, if_neg fun fits => holds
        ((at_floor positive (shortGross_nonneg bar)).mp fits), some_, less, ?_⟩
      rw [at_level positive, (gross_scaled bar some_).1, (gross_scaled bar some_).2, brought]
  · intro bar f some_ most holds
    rw [at_level positive] at holds ⊢
    rw [(gross_scaled bar some_).1, (gross_scaled bar some_).2]
    exact (marginUsed_mono (mul_le_of_le_one_right (longGross_nonneg bar) most)
      (mul_le_of_le_one_right (shortGross_nonneg bar) most)).trans holds

end

/- One limit after another. -/

section
variable {first second : List ℚ → Option ℚ} {P Q : List ℚ → Prop}

/-- The factor of one limit times that of the next, on the bar as the first leaves it. -/
def stacked (first second : List ℚ → Option ℚ) (bar : List ℚ) : Option ℚ :=
  some (factorAt first bar * factorAt second (scaledBar first bar))

theorem scaledBar_stacked (first second : List ℚ → Option ℚ) (bar : List ℚ) :
    scaledBar (stacked first second) bar = scaledBar second (scaledBar first bar) := by
  simp only [scaledBar, stacked, factorAt, Option.getD_some, List.map_map]
  apply List.map_congr_left
  intro w mem
  exact (mul_assoc _ _ _).symm

/-- Two limits stacked are one, which holds where both do. -/
theorem Tames.stack (one : Tames first P) (two : Tames second Q) :
    Tames (stacked first second) fun bar => P bar ∧ Q bar where
  positive bar := mul_pos (one.positive bar) (two.positive _)
  shrinks bar := mul_le_one₀ (one.shrinks bar) (two.positive _).le (two.shrinks _)
  one bar := by
    have left : P bar → scaledBar first bar = bar := by
      intro holds
      rw [scaledBar, (one.one bar).mpr holds, map_one]
    constructor
    · intro whole
      have whole : factorAt first bar * factorAt second (scaledBar first bar) = 1 := whole
      have least := two.positive (scaledBar first bar)
      have most := two.shrinks (scaledBar first bar)
      have holds : P bar := by
        rw [← one.one bar]
        refine le_antisymm (one.shrinks bar) ?_
        rw [← whole]
        exact mul_le_of_le_one_right (one.positive bar).le most
      rw [(one.one bar).mpr holds, one_mul, left holds] at whole
      exact ⟨holds, (two.one bar).mp whole⟩
    · rintro ⟨holds, also⟩
      show factorAt first bar * factorAt second (scaledBar first bar) = 1
      rw [(one.one bar).mpr holds, left holds, (two.one bar).mpr also, one_mul]
  inside bar := by
    rw [scaledBar_stacked]
    exact ⟨one.scales _ _ (two.positive _) (two.shrinks _) (one.inside bar), two.inside _⟩
  scales bar f positive most holds := ⟨one.scales bar f positive most holds.1, two.scales bar f positive most holds.2⟩

end

/-- The whole book's limits as one. -/
def bookFactor : List ℚ → Option ℚ :=
  stacked (stacked (grossFactor softCap) (netFactor shortBound longBound)) (marginFactor marginFloor)

theorem book_tames : Tames bookFactor Within := by
  have gross : Tames (grossFactor softCap) _ := gross_tames (by norm_num [softCap])
  have net : Tames (netFactor shortBound longBound) _ :=
    net_tames (by norm_num [shortBound]) (by norm_num [longBound])
  have margin : Tames (marginFactor marginFloor) _ := margin_tames (by norm_num [marginFloor])
  have all := (gross.stack net).stack margin
  have same : (fun bar => (grossOf bar ≤ softCap ∧ shortBound ≤ netOf bar ∧ netOf bar ≤ longBound) ∧
      (marginFloor : WithTop ℚ) ≤ marginLevel bar) = Within := by
    funext bar
    apply propext
    constructor
    · rintro ⟨⟨gross, low, high⟩, level⟩
      exact ⟨gross, low, high, level⟩
    · rintro ⟨gross, low, high, level⟩
      exact ⟨⟨gross, low, high⟩, level⟩
  rw [← same]
  exact all

section
variable {positions : Positions}

theorem scaleEach_validated (factorOf : List ℚ → Option ℚ) (valid : validatePositions positions = .ok ()) :
    validatePositions (scaleEach factorOf positions) = .ok () := by
  rw [validatePositions_shape (scaleEach_bars factorOf positions).1, valid]

theorem applied_gross (valid : validatePositions positions = .ok ()) :
    applyGrossLeverageCap softCap hardCap positions = .ok (scaleEach (grossFactor softCap) positions) := by
  unfold applyGrossLeverageCap
  rw [valid]
  exact (if_neg (by norm_num [softCap])).trans ((if_neg (by norm_num [hardCap])).trans
    (if_neg (by norm_num [softCap, hardCap])))

theorem applied_net (valid : validatePositions positions = .ok ()) :
    applyNetExposureBand shortBound longBound positions =
      .ok (scaleEach (netFactor shortBound longBound) positions) := by
  unfold applyNetExposureBand
  rw [valid]
  exact (if_neg (by norm_num [shortBound])).trans (if_neg (by norm_num [longBound]))

theorem applied_margin (valid : validatePositions positions = .ok ()) :
    applyMarginFloor marginFloor positions = .ok (scaleEach (marginFactor marginFloor) positions) := by
  unfold applyMarginFloor
  rw [valid]
  exact if_neg (by norm_num [marginFloor])

/-- The three limits are applied to every book whose shape is valid, each bar by its own factor. -/
theorem applyWholeBookLimits_ok (valid : validatePositions positions = .ok ()) :
    ∃ out, applyWholeBookLimits positions = .ok out ∧ shapeOf out = shapeOf positions ∧
      ∀ k < barsOf positions, barAt out k = scaledBar bookFactor (barAt positions k) := by
  have gross := scaleEach_validated (grossFactor softCap) valid
  have net := scaleEach_validated (netFactor shortBound longBound) gross
  have one := applied_gross valid
  have two := applied_net gross
  have three := applied_margin net
  obtain ⟨shape₁, bars₁⟩ := scaleEach_bars (grossFactor softCap) positions
  obtain ⟨shape₂, bars₂⟩ := scaleEach_bars (netFactor shortBound longBound)
    (scaleEach (grossFactor softCap) positions)
  obtain ⟨shape₃, bars₃⟩ := scaleEach_bars (marginFactor marginFloor)
    (scaleEach (netFactor shortBound longBound) (scaleEach (grossFactor softCap) positions))
  refine ⟨_, Fallible.bind_ok.mpr ⟨_, one, Fallible.bind_ok.mpr ⟨_, two, three⟩⟩,
    shape₃.trans (shape₂.trans shape₁), ?_⟩
  · intro k less
    have less₂ : k < barsOf (scaleEach (grossFactor softCap) positions) := by rwa [barsOf_shape shape₁]
    have less₃ : k < barsOf (scaleEach (netFactor shortBound longBound)
        (scaleEach (grossFactor softCap) positions)) := by rwa [barsOf_shape shape₂]
    rw [bars₃ k less₃, bars₂ k less₂, bars₁ k less, bookFactor, scaledBar_stacked, scaledBar_stacked]

theorem scaleBar_one (k : Nat) (positions : Positions) : scaleBar k 1 positions = positions := by
  have id_ : ∀ series : List ℚ, series.modify k (· * 1) = series := by
    intro series
    simp only [mul_one]
    exact List.modify_id k series
  simp only [scaleBar, id_, List.map_id']

/-- A book whose bars are all inside a limit is left as it is. -/
theorem scaleEach_left {factorOf : List ℚ → Option ℚ}
    (inside : ∀ k < barsOf positions, factorAt factorOf (barAt positions k) = 1) :
    scaleEach factorOf positions = positions := by
  have left : ∀ ks : List Nat, (∀ k ∈ ks, k < barsOf positions) →
      ks.foldl (scaleOwn factorOf) positions = positions := by
    intro ks
    induction ks with
    | nil => exact fun _ => rfl
    | cons k rest ih =>
      intro within
      have own := inside k (within k List.mem_cons_self)
      have later := ih fun j mem => within j (List.mem_cons_of_mem k mem)
      rw [List.foldl_cons, scaleOwn]
      cases factor : factorOf (barAt positions k) with
      | none => exact later
      | some f =>
        rw [factorAt, factor, Option.getD_some] at own
        simp only [own, scaleBar_one]
        exact later
  rw [scaleEach_own]
  exact left _ fun k mem => List.mem_range.mp mem

/-- A book inside all the limits is left as it is. -/
theorem applyWholeBookLimits_left (valid : validatePositions positions = .ok ())
    (inside : ∀ k < barsOf positions, Within (barAt positions k)) :
    applyWholeBookLimits positions = .ok positions := by
  have gross : Tames (grossFactor softCap) _ := gross_tames (by norm_num [softCap])
  have net : Tames (netFactor shortBound longBound) _ :=
    net_tames (by norm_num [shortBound]) (by norm_num [longBound])
  have margin : Tames (marginFactor marginFloor) _ := margin_tames (by norm_num [marginFloor])
  have one := applied_gross valid
  have two := applied_net valid
  have three := applied_margin valid
  rw [scaleEach_left fun k less => (gross.one _).mpr (inside k less).gross] at one
  rw [scaleEach_left fun k less => (net.one _).mpr ⟨(inside k less).low, (inside k less).high⟩] at two
  rw [scaleEach_left fun k less => (margin.one _).mpr (inside k less).level] at three
  exact Fallible.bind_ok.mpr ⟨_, one, Fallible.bind_ok.mpr ⟨_, two, three⟩⟩

end

/-- After the limits of the whole book every bar is inside all of them at once. It is the bar before
    times one factor, which is one just where that bar was inside them already; the limits leave the book
    so made as it is; and the margin floor's factor is the largest that reaches the floor. -/
theorem limits_hold :
    (∀ positions : Positions, validatePositions positions = .ok () → ∃ out,
      applyWholeBookLimits positions = .ok out ∧ shapeOf out = shapeOf positions ∧
      (∀ k < barsOf positions, Within (barAt out k) ∧ ∃ factor, 0 < factor ∧ factor ≤ 1 ∧
        barAt out k = (barAt positions k).map (· * factor) ∧
        (factor = 1 ↔ Within (barAt positions k))) ∧
      applyWholeBookLimits out = .ok out) ∧
    ∀ long short floor : ℚ, 0 ≤ long → 0 ≤ short → 1 ≤ floor →
      ¬ (marginUsed long short = 0 ∨ 1 / marginUsed long short ≥ floor) →
      (if 1 / floor * (long + short) ≤ short then short ≠ 0 else long + 2 * short ≠ 0) ∧
      ∃ factor, marginFloorScale long short floor = factor ∧ 0 < factor ∧ factor < 1 ∧
        1 / marginUsed (long * factor) (short * factor) = floor ∧
        ∀ more, factor < more → ¬ (marginUsed (long * more) (short * more) = 0 ∨
          1 / marginUsed (long * more) (short * more) ≥ floor) := by
  constructor
  · intro positions valid
    obtain ⟨out, applied, shape, bars⟩ := applyWholeBookLimits_ok valid
    have within : ∀ k < barsOf positions, Within (barAt out k) := by
      intro k less
      rw [bars k less]
      exact book_tames.inside _
    refine ⟨out, applied, shape, ?_, ?_⟩
    · intro k less
      exact ⟨within k less, factorAt bookFactor (barAt positions k), book_tames.positive _,
        book_tames.shrinks _, bars k less, book_tames.one _⟩
    · apply applyWholeBookLimits_left
      · rw [validatePositions_shape shape, valid]
      · intro k less
        rw [barsOf_shape shape] at less
        exact within k less
  · intro long short floor longs shorts floored below
    have positive : 0 < floor := by linarith
    rw [at_floor positive shorts, not_le] at below
    obtain ⟨some_, less, reached, larger⟩ := marginFloorScale_spec longs shorts floored below
    refine ⟨?_, _, rfl, some_, less, ?_, ?_⟩
    · have share := one_div_pos.mpr positive
      split
      · rename_i covered
        exact (covered_short longs shorts share below covered).ne'
      · rename_i drawn
        exact (drawn_long shorts share (not_le.mp drawn)).ne'
    · rw [reached, one_div_one_div]
    · intro more exceeds
      rw [at_floor positive (mul_nonneg shorts (some_.trans exceeds).le), not_le]
      exact larger more exceeds

/-- A book that breaches all three limits at its first bar, and none at its second. -/
def wideBook : Positions := [("BTC", [2, 1 / 2]), ("ETH", [1, -1 / 4])]

theorem wideBook_limits_hold :
    (∃ out, applyWholeBookLimits wideBook = .ok out ∧ Within (barAt out 0) ∧ Within (barAt out 1) ∧
      applyWholeBookLimits out = .ok out) ∧
    marginUsed (3 * marginFloorScale 3 1 marginFloor) (1 * marginFloorScale 3 1 marginFloor) ≠ 0 := by
  constructor
  · obtain ⟨out, applied, -, bars, again⟩ := limits_hold.1 wideBook (by decide +kernel)
    exact ⟨out, applied, (bars 0 (by decide)).1, (bars 1 (by decide)).1, again⟩
  · obtain ⟨-, factor, same, -, -, reached, -⟩ :=
      limits_hold.2 3 1 marginFloor (by norm_num) (by norm_num) (by norm_num [marginFloor]) (by decide +kernel)
    intro none
    rw [← same, none, div_zero, marginFloor] at reached
    norm_num at reached

end Risk
