import Zcrypto.Portfolio.CrossfreqSystem
import Zcrypto.Risk.LimitLaws

/- A system's net on the live cost convention, recomputed from its result, against the builder that made it. -/
namespace Engine
open Portfolio Risk

/-- What a book trades into a bar. -/
def turnoverInto (positions : Positions) (assets : List String) (k : Nat) : ℚ :=
  (assets.map fun a => |held positions a k - if 0 < k then held positions a (k - 1) else 0|).sum

structure NetLive where
  netLive : List ℚ
  reconcileOk : Bool
  capBreach : List ℚ
  deriving DecidableEq, Repr

/-- The recomputation once the books are rebuilt: combined, capped, limited. -/
def netLiveOf (result : CrossfreqSystemResult) (feeBuilder fee : ℚ) (assets : List String)
    (combined capped limited : Positions) : NetLive :=
  let n := result.nPeriods
  let mult := result.multipliers
  let final := result.finalTargets
  let netLive := (List.range n).map fun k =>
    result.governedNet.getD k 0 + mult.getD k 0 * feeBuilder * turnoverInto limited assets k -
      fee * turnoverInto final assets k
  let capBreach := (List.range n).map fun k => if breached assets capped combined k then (1 : ℚ) else 0
  let reconcileOk := (assets.all fun a => (List.range (n + 1)).all fun k =>
      |mult.getD k 0 * held limited a k - held final a k| ≤ 1 / 10 ^ 9) &&
    capBreach.sum = result.capBreachBars
  ⟨netLive, reconcileOk, capBreach⟩

def netLiveFromResult (result : CrossfreqSystemResult) (feeBuilder fee longCap shortCap : ℚ) :
    Except String NetLive := do
  let assets := result.finalTargets.map Prod.fst
  let combined ← combine result.sleevePositions assets (result.nPeriods + 1)
  let capped ← applyPositionCaps combined longCap shortCap
  let limited ← applyWholeBookLimits capped
  .ok (netLiveOf result feeBuilder fee assets combined capped limited)

/-- What the assets of a book return over a bar. -/
def grossReturn (positions ret : Positions) (assets : List String) (k : Nat) : ℚ :=
  (assets.map fun a => held positions a k * held ret a k).sum

section
variable {limited ret : Positions} {assets : List String} {k : Nat}

theorem costing_bar (distinct : assets.Nodup) (s : Costing) :
    assets.foldl (Costing.add limited ret k) s =
      ⟨s.gross + grossReturn limited ret assets k, s.turnover + (assets.map fun a => |held limited a k - s.prev a|).sum,
        fun a => if a ∈ assets then held limited a k else s.prev a⟩ := by
  unfold grossReturn
  induction assets generalizing s with
  | nil => simp
  | cons a assets ih =>
    obtain ⟨apart, distinct⟩ := List.nodup_cons.mp distinct
    have others : (assets.map fun b => |held limited b k - (s.add limited ret k a).prev b|) =
        assets.map fun b => |held limited b k - s.prev b| := by
      apply List.map_congr_left
      intro b mem
      have other : b ≠ a := fun same => apart (same ▸ mem)
      simp [Costing.add, Function.update_of_ne other]
    rw [List.foldl_cons, ih distinct, others]
    simp only [Costing.add, List.map_cons, List.sum_cons, List.mem_cons, Costing.mk.injEq]
    refine ⟨by ring, by ring, ?_⟩
    funext b
    by_cases here : b = a
    · subst here
      simp [apart]
    · simp [here, Function.update_of_ne here]

/-- Bar by bar, a book's gross return less the cost of what it trades. -/
theorem nocFrom_bars (limited ret : Positions) (distinct : assets.Nodup) (cost : ℚ) (m k : Nat) (prev : String → ℚ)
    (left : ∀ a ∈ assets, prev a = if 0 < k then held limited a (k - 1) else 0) :
    nocFrom limited ret assets cost (List.range' k m) prev =
      (List.range' k m).map fun k => grossReturn limited ret assets k - turnoverInto limited assets k * cost := by
  induction m generalizing k prev with
  | zero => rfl
  | succ m ih =>
    have traded : (assets.map fun a => |held limited a k - prev a|).sum = turnoverInto limited assets k := by
      unfold turnoverInto
      congr 1
      apply List.map_congr_left
      intro a mem
      rw [left a mem]
    rw [List.range'_succ, nocFrom, costing_bar distinct, traded, List.map_cons]
    simp only [zero_add]
    rw [ih]
    intro a mem
    simp [mem]

end

/-- A book of the assets, a row a bar. -/
def bookOf (assets : List String) (rows : Nat) (value : String → Nat → ℚ) : Positions :=
  assets.map fun a => (a, (List.range rows).map (value a))

theorem held_bookOf {assets : List String} {rows : Nat} {value : String → Nat → ℚ} {a : String} {k : Nat}
    (mem : a ∈ assets) (row : k < rows) : held (bookOf assets rows value) a k = value a k := by
  have found : (bookOf assets rows value).lookup a = some ((List.range rows).map (value a)) := by
    unfold bookOf
    induction assets with
    | nil => cases mem
    | cons b assets ih =>
      rw [List.map_cons, List.lookup_cons]
      by_cases here : a = b
      · simp [here]
      · have other : (a == b) = false := by simpa using here
        rw [other]
        exact ih (List.mem_of_ne_of_mem here mem)
  unfold held
  rw [found, Option.getD_some, List.getD_eq_getElem?_getD, List.getElem?_map, List.getElem?_range row]
  rfl

theorem validateConfig_distinct {c : CrossfreqSystemConfig} (valid : validateConfig c = .ok ()) : c.assets.Nodup := by
  unfold validateConfig at valid
  split at valid
  · cases valid
  · rename_i some_assets
    push Not at some_assets
    exact some_assets.2

/-- The book that a result's positions leave after the caps and the limits. -/
def limitedBook (sleeves : Sleeves) (assets : List String) (rows : Nat) (longCap shortCap : ℚ) :
    Except String Positions := do
  let combined ← combine sleeves assets rows
  let capped ← applyPositionCaps combined longCap shortCap
  applyWholeBookLimits capped

theorem bookOf_assets (assets : List String) (rows : Nat) (value : String → Nat → ℚ) :
    (bookOf assets rows value).map Prod.fst = assets := by
  unfold bookOf
  rw [List.map_map]
  exact List.map_id assets

theorem sum_flags (ks : List Nat) (flag : Nat → Bool) :
    (ks.map fun k => if flag k then (1 : ℚ) else 0).sum = (ks.countP flag : Nat) := by
  induction ks with
  | nil => simp
  | cons k ks ih =>
    rw [List.map_cons, List.sum_cons, ih, List.countP_cons]
    by_cases here : flag k = true
    · simp [here, add_comm]
    · simp [here]

theorem getD_rows {n k : Nat} (value : Nat → ℚ) (row : k < n) : ((List.range n).map value).getD k 0 = value k := by
  rw [List.getD_eq_getElem?_getD, List.getElem?_map, List.getElem?_range row]
  rfl

/-- What a builder returns, from the book it multiplied. -/
structure Built (daily h4 : Grid) (c : CrossfreqSystemConfig) (limited : Positions) (result : CrossfreqSystemResult) :
    Prop where
  distinct : c.assets.Nodup
  limits : limitedBook result.sleevePositions c.assets (result.nPeriods + 1) c.longCap c.shortCap = .ok limited
  final : result.finalTargets =
    bookOf c.assets (result.nPeriods + 1) fun a k => result.multipliers.getD k 0 * held limited a k
  governed : ∀ k < result.nPeriods, result.governedNet.getD k 0 = result.multipliers.getD k 0 *
    (grossReturn limited (retH (h4.extended c.assets 14400) c.assets) c.assets k -
      turnoverInto limited c.assets k * c.costPerSide)
  breaches : ∀ combined capped, combine result.sleevePositions c.assets (result.nPeriods + 1) = .ok combined →
    applyPositionCaps combined c.longCap c.shortCap = .ok capped →
      result.capBreachBars = (List.range result.nPeriods).countP (breached c.assets capped combined)

theorem validateGrid_stamps {name : String} {g : Grid} {assets : List String}
    (valid : validateGrid name g assets = .ok ()) : 2 ≤ g.ts.length := by
  unfold validateGrid at valid
  split at valid
  · cases valid
  split at valid
  · cases valid
  split at valid
  · cases valid
  · omega

theorem built_of {sleevesOf : CrossfreqSystemConfig → Grid → Grid → Except String Sleeves} {daily h4 : Grid}
    {c : CrossfreqSystemConfig} {result : CrossfreqSystemResult}
    (built : buildCrossfreqSystem sleevesOf daily h4 c = .ok result) : ∃ limited, Built daily h4 c limited result := by
  unfold buildCrossfreqSystem at built
  obtain ⟨valid, built⟩ := Fallible.then_ok.mp built
  obtain ⟨_, built⟩ := Fallible.then_ok.mp built
  obtain ⟨valid_h4, built⟩ := Fallible.then_ok.mp built
  obtain ⟨sleeves, _, built⟩ := Fallible.bind_ok.mp built
  obtain ⟨combined, combines, built⟩ := Fallible.bind_ok.mp built
  obtain ⟨capped, caps, built⟩ := Fallible.bind_ok.mp built
  obtain ⟨limited, limits, built⟩ := Fallible.bind_ok.mp built
  obtain ⟨multipliers, governs, built⟩ := Fallible.bind_ok.mp built
  injection built with same
  have distinct := validateConfig_distinct valid
  have stamps := validateGrid_stamps valid_h4
  have rows : (h4.extended c.assets 14400).ts.length - 1 = h4.ts.length - 1 + 1 := by
    unfold Grid.extended
    rw [List.length_append, List.length_singleton]
    omega
  rw [rows] at same combines
  subst same
  refine ⟨limited, distinct, ?_, rfl, ?_, ?_⟩
  · exact Fallible.bind_ok.mpr ⟨combined, combines, Fallible.bind_ok.mpr ⟨capped, caps, limits⟩⟩
  · intro k period
    simp only at period ⊢
    have bars := nocFrom_bars limited (retH (h4.extended c.assets 14400) c.assets) distinct
      c.costPerSide (h4.ts.length - 1) 0 (fun _ => 0) fun _ _ => rfl
    rw [← List.range_eq_range'] at bars
    rw [getD_rows _ period, bars, getD_rows _ period]
  · intro combined' capped' combines' caps'
    cases combines.symm.trans combines'
    cases caps.symm.trans caps'
    rfl

/-- Recomputed from what a builder returned, at its own costs and caps: the book it multiplied, and a bar's net
    as the live convention has it. -/
theorem net_live_agrees (sleevesOf : CrossfreqSystemConfig → Grid → Grid → Except String Sleeves) (daily h4 : Grid)
    (c : CrossfreqSystemConfig) (fee : ℚ) {result : CrossfreqSystemResult}
    (built : buildCrossfreqSystem sleevesOf daily h4 c = .ok result) :
    ∃ out limited, netLiveFromResult result c.costPerSide fee c.longCap c.shortCap = .ok out ∧
      out.reconcileOk = true ∧ out.netLive.length = result.nPeriods ∧
      limitedBook result.sleevePositions c.assets (result.nPeriods + 1) c.longCap c.shortCap = .ok limited ∧
      ∀ k < result.nPeriods, out.netLive[k]? = some
        (result.multipliers.getD k 0 * grossReturn limited (retH (h4.extended c.assets 14400) c.assets) c.assets k -
          fee * turnoverInto result.finalTargets c.assets k) := by
  obtain ⟨limited, made⟩ := built_of built
  have assets : result.finalTargets.map Prod.fst = c.assets := by
    rw [made.final]
    exact bookOf_assets _ _ _
  obtain ⟨combined, combines, rest⟩ := Fallible.bind_ok.mp made.limits
  obtain ⟨capped, caps, limits⟩ := Fallible.bind_ok.mp rest
  refine ⟨netLiveOf result c.costPerSide fee c.assets combined capped limited, limited, ?_, ?_, ?_, made.limits, ?_⟩
  · unfold netLiveFromResult
    rw [assets]
    exact Fallible.bind_ok.mpr ⟨combined, combines, Fallible.bind_ok.mpr ⟨capped, caps,
      Fallible.bind_ok.mpr ⟨limited, limits, rfl⟩⟩⟩
  · unfold netLiveOf
    simp only [Bool.and_eq_true, List.all_eq_true, decide_eq_true_eq]
    constructor
    · intro a mem k row
      rw [made.final, held_bookOf mem (List.mem_range.mp row), sub_self, abs_zero]
      norm_num
    · rw [sum_flags, made.breaches combined capped combines caps]
  · unfold netLiveOf
    rw [List.length_map, List.length_range]
  · intro k period
    unfold netLiveOf
    rw [List.getElem?_map, List.getElem?_range period, Option.map_some, made.governed k period]
    congr 1
    ring

/- Two bars of one asset that falls to a tenth in the first: the caps bind, and after it the multiplier is zero. -/

def btcOnly : CrossfreqSystemConfig := { CrossfreqSystemConfig.defaults with assets := ["BTC"] }

def btcDaily : Grid := ⟨[("BTC", [some 100, some 10])], [0, 86400]⟩

def btcH4 : Grid := ⟨[("BTC", [some 100, some 10, some 12])], [57600, 72000, 86400]⟩

def btcSleeves : Sleeves := ⟨[("BTC", [3, 3, 3])], [("BTC", [3, 3, 3])], [("BTC", [3, 3, 3])]⟩

theorem btc_net_live_agrees : ∃ result out,
    buildCrossfreqSystem (fun _ _ _ => .ok btcSleeves) btcDaily btcH4 btcOnly = .ok result ∧
      netLiveFromResult result btcOnly.costPerSide (6 / 1000) btcOnly.longCap btcOnly.shortCap = .ok out ∧
        out.reconcileOk = true := by
  obtain ⟨result, built⟩ : ∃ result, buildCrossfreqSystem (fun _ _ _ => .ok btcSleeves) btcDaily btcH4 btcOnly = .ok result :=
    Fallible.ok_of_toBool (by decide +kernel)
  obtain ⟨out, _, recomputed, reconciled, _⟩ :=
    net_live_agrees (fun _ _ _ => .ok btcSleeves) btcDaily btcH4 btcOnly (6 / 1000) built
  exact ⟨result, out, built, recomputed, reconciled⟩

end Engine
