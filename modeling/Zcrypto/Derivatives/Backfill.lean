import Zcrypto.Fallible
import Zcrypto.LastByKey
import Zcrypto.Rolling.Index
import Zcrypto.Tick.Bars

/- Open interest of daily files and funding of monthly ones, backfilled: which absent files are before the
   listing, which are not yet out and which are a hole, and which row stays of those with one stamp. A row's
   values are any; stamps are in milliseconds, days are numbered from the epoch. -/
namespace Derivatives
open LastByKey
open Rolling (isoDay)
open ProbePlans (padded)

structure Row (V : Type) where
  ts : Int
  values : V
  deriving DecidableEq, Repr

def dayMs : Int := 86400000

def maxTrailingLagDays : Nat := 4

/-- So many days from one on. -/
def daysFrom (day : Int) (n : Nat) : List Int := (List.range n).map fun i : Nat => day + i

/-- The days from that of `start` until that of `now`, which is not among them. -/
def iterDays (start now : Int) : List Int := daysFrom (start / dayMs) (now / dayMs - start / dayMs).toNat

section
variable {V : Type} (perp : String)

/-- What a pass over the days has come to: absent days since the last published one may yet be a hole. -/
structure Scan (V : Type) where
  allRows : List (Row V) := []
  dataBegun : Bool := false
  pendingGap : List Int := []
  deriving DecidableEq, Repr

def gapText (gap : List Int) : String := isoDay (gap.headD 0) ++ ".." ++ isoDay (gap.getLastD 0)

def scanDay (fetchOiDay : Int → Option (List (Row V))) (s : Scan V) (day : Int) : Except String (Scan V) :=
  match fetchOiDay day with
  | none => .ok (if s.dataBegun then { s with pendingGap := s.pendingGap ++ [day] } else s)
  | some rows =>
    if s.pendingGap ≠ [] then
      .error ("404 hole inside the listed OI series for " ++ perp ++ ": " ++ gapText s.pendingGap ++
        " (data resumes " ++ isoDay day ++ ")")
    else .ok { s with dataBegun := true, allRows := s.allRows ++ rows }

/-- Rows by their stamps, the last of each stamp kept. -/
def backfillOi (start now : Int) (fetchOiDay : Int → Option (List (Row V))) : Except String (List (Row V)) := do
  let s ← (iterDays start now).foldlM (scanDay perp fetchOiDay) {}
  if s.pendingGap.length > maxTrailingLagDays then
    .error ("trailing gap of " ++ toString s.pendingGap.length ++ " days for " ++ perp ++ " (" ++
      gapText s.pendingGap ++ ") exceeds the " ++ toString maxTrailingLagDays ++
      "-day publication-lag tolerance -- this is an outage or a delisted symbol, not the unpublished frontier")
  else if s.allRows.isEmpty then .ok []
  else .ok (keepLast Row.ts (Keyed.arrange Row.ts s.allRows))

/- Funding. -/

def nextMonth (m : Int × Int) : Int × Int := if m.2 + 1 > 12 then (m.1 + 1, 1) else (m.1, m.2 + 1)

def monthsFrom (m : Int × Int) : Nat → List (Int × Int)
  | 0 => []
  | n + 1 => m :: monthsFrom (nextMonth m) n

/-- The months from `start` until `end_`, which is not among them, both with a month of twelve. -/
def iterMonths (start end_ : Int × Int) : List (Int × Int) :=
  monthsFrom start ((end_.1 - start.1) * 12 + (end_.2 - start.2)).toNat

def scanMonth (fetchFundingMonth : Int × Int → Option (List (Row V))) (s : Bool × List (Row V)) (m : Int × Int) :
    Except String (Bool × List (Row V)) :=
  match fetchFundingMonth m with
  | none =>
    if s.1 then
      .error ("404 for " ++ perp ++ " " ++ padded 4 m.1 ++ "-" ++ padded 2 m.2 ++
        ": a hole inside the listed funding series")
    else .ok s
  | some rows => .ok (true, s.2 ++ rows)

/-- The sort is one by the stamps that may leave rows of one stamp in any order. -/
def backfillFunding (sort : List (Row V) → List (Row V)) (start now : Int × Int)
    (fetchFundingMonth : Int × Int → Option (List (Row V))) : Except String (List (Row V)) := do
  let (_, rows) ← (iterMonths start now).foldlM (scanMonth perp fetchFundingMonth) (false, [])
  if rows.isEmpty then .ok [] else .ok (keepLast Row.ts (sort rows))

end

/- What is published. -/

section
variable {V : Type} (fetchOiDay : Int → Option (List (Row V))) (start now : Int)

/-- A day of the run whose file is out. -/
def Seen (d : Int) : Prop := d ∈ iterDays start now ∧ fetchOiDay d ≠ none

/-- The rows of the days in their order, each day's as its file has them. -/
def fileRows : List (Row V) := (iterDays start now).flatMap fun d => (fetchOiDay d).getD []

/-- An absent day between two that are out. -/
def Hole : Prop := ∃ a b c, Seen fetchOiDay start now a ∧ fetchOiDay b = none ∧ Seen fetchOiDay start now c ∧ a < b ∧ b < c

/-- More absent days after the last one that is out than its files may be late. -/
def Late : Prop := ∃ last, Seen fetchOiDay start now last ∧ (∀ d, Seen fetchOiDay start now d → d ≤ last) ∧
  maxTrailingLagDays < ((iterDays start now).filter fun d => last < d).length

end

section
variable {V : Type} {perp : String} {fetch fetch' : Int → Option (List (Row V))} {start now now' : Int}
  {first : Int} {n : Nat} {s s' : Scan V} {d : Int}

/- Days. -/

theorem daysFrom_succ (day : Int) (n : Nat) : daysFrom day (n + 1) = daysFrom day n ++ [day + n] := by
  unfold daysFrom
  rw [List.range_succ, List.map_append]
  rfl

theorem daysFrom_length (day : Int) (n : Nat) : (daysFrom day n).length = n := by
  unfold daysFrom
  rw [List.length_map, List.length_range]

theorem mem_daysFrom : d ∈ daysFrom first n ↔ first ≤ d ∧ d < first + n := by
  unfold daysFrom
  rw [List.mem_map]
  constructor
  · rintro ⟨i, mem, rfl⟩
    have less := List.mem_range.mp mem
    omega
  · rintro ⟨from_, until_⟩
    exact ⟨(d - first).toNat, List.mem_range.mpr (by omega), by omega⟩

theorem mem_iterDays : d ∈ iterDays start now ↔ start / dayMs ≤ d ∧ d < now / dayMs := by
  unfold iterDays
  rw [mem_daysFrom]
  omega

theorem daysFrom_append (day : Int) (n k : Nat) : daysFrom day (n + k) = daysFrom day n ++ daysFrom (day + n) k := by
  induction k with
  | zero => simp [daysFrom]
  | succ k ih =>
    rw [← Nat.add_assoc, daysFrom_succ, ih, daysFrom_succ, List.append_assoc]
    have last : day + ((n + k : Nat) : Int) = day + n + k := by omega
    rw [last]

/-- The days after one of them. -/
theorem daysFrom_after {last : Int} (from_ : first ≤ last) (until_ : last < first + n) :
    ((daysFrom first n).filter fun d => last < d).length = (first + n - 1 - last).toNat := by
  induction n with
  | zero => omega
  | succ n ih =>
    rw [daysFrom_succ, List.filter_append, List.length_append]
    by_cases newest : last = first + n
    · have none : (daysFrom first n).filter (fun d => last < d) = [] := by
        refine List.filter_eq_nil_iff.mpr fun d mem => ?_
        have bounds := mem_daysFrom.mp mem
        simp only [decide_eq_true_eq]
        omega
      have least : ¬ last < first + n := by omega
      simp only [none, List.filter_cons, least, decide_false, List.filter_nil, List.length_nil, Bool.false_eq_true,
        if_false]
      omega
    · rw [ih (by omega)]
      have less : last < first + n := by omega
      simp only [List.filter_cons, less, decide_true, if_true, List.filter_nil, List.length_singleton]
      omega

/- A pass over the days. -/

/-- The rows of so many days in their order. -/
def rowsOf (fetch : Int → Option (List (Row V))) (days : List Int) : List (Row V) :=
  days.flatMap fun d => (fetch d).getD []

/-- No day is absent between two that are out. -/
def Unbroken (fetch : Int → Option (List (Row V))) (first : Int) (n : Nat) : Prop :=
  ∀ a b c, first ≤ a → a < b → b < c → c < first + n → fetch a ≠ none → fetch c ≠ none → fetch b ≠ none

/-- What a pass has come to says which day was the last to be out, if any was. -/
structure Scanned (fetch : Int → Option (List (Row V))) (first : Int) (n : Nat) (s : Scan V) : Prop where
  rows : s.allRows = rowsOf fetch (daysFrom first n)
  unbroken : Unbroken fetch first n
  state : (s.dataBegun = false ∧ s.pendingGap = [] ∧ ∀ d, first ≤ d → d < first + n → fetch d = none) ∨
    (s.dataBegun = true ∧ ∃ last, first ≤ last ∧ last < first + n ∧ fetch last ≠ none ∧
      (∀ d, last < d → d < first + n → fetch d = none) ∧
      s.pendingGap = daysFrom (last + 1) (first + n - 1 - last).toNat)

theorem Scanned.none_yet (fetch : Int → Option (List (Row V))) (first : Int) : Scanned fetch first 0 {} where
  rows := rfl
  unbroken := fun a b c _ _ _ _ => by omega
  state := .inl ⟨rfl, rfl, fun d _ _ => by omega⟩

theorem rowsOf_next (fetch : Int → Option (List (Row V))) (first : Int) (n : Nat) :
    rowsOf fetch (daysFrom first (n + 1)) = rowsOf fetch (daysFrom first n) ++ (fetch (first + n)).getD [] := by
  unfold rowsOf
  rw [daysFrom_succ, List.flatMap_append, List.flatMap_singleton]

/-- A day that is absent is one more of the gap, if there is a day before it that is out. -/
theorem Scanned.absent (scanned : Scanned fetch first n s) (none : fetch (first + n) = none) :
    Scanned fetch first (n + 1) (if s.dataBegun then { s with pendingGap := s.pendingGap ++ [first + n] } else s) := by
  have rows : s.allRows = rowsOf fetch (daysFrom first (n + 1)) := by
    rw [rowsOf_next, none, scanned.rows]
    exact (List.append_nil _).symm
  have unbroken : Unbroken fetch first (n + 1) := by
    intro a b c least ab bc bound outA outC
    by_cases newest : c = first + n
    · rw [newest] at outC
      exact absurd none outC
    · exact scanned.unbroken a b c least ab bc (by omega) outA outC
  rcases scanned.state with ⟨waiting, gap, absent⟩ | ⟨begun, last, from_, until_, out, absent, gap⟩
  · rw [waiting]
    refine ⟨rows, unbroken, .inl ⟨waiting, gap, fun d least bound => ?_⟩⟩
    by_cases newest : d = first + n
    · rw [newest]
      exact none
    · exact absent d least (by omega)
  · rw [if_pos begun]
    refine ⟨rows, unbroken, .inr ⟨begun, last, from_, by omega, out, fun d after bound => ?_, ?_⟩⟩
    · by_cases newest : d = first + n
      · rw [newest]
        exact none
      · exact absent d after (by omega)
    · have longer : (first + (n + 1 : Nat) - 1 - last).toNat = (first + n - 1 - last).toNat + 1 := by omega
      have next : last + 1 + ((first + n - 1 - last).toNat : Int) = first + n := by omega
      rw [longer, daysFrom_succ, next]
      exact congrArg (· ++ [first + (n : Int)]) gap

/-- A day that is out after no gap is the last one so far. -/
theorem Scanned.out {rows : List (Row V)} (scanned : Scanned fetch first n s) (some_ : fetch (first + n) = some rows)
    (noGap : s.pendingGap = []) :
    Scanned fetch first (n + 1) { s with dataBegun := true, allRows := s.allRows ++ rows } := by
  have published : fetch (first + n) ≠ none := by
    rw [some_]
    exact Option.some_ne_none rows
  refine ⟨?_, ?_, .inr ⟨rfl, first + n, by omega, by omega, published, fun d _ _ => by omega, ?_⟩⟩
  · rw [rowsOf_next, some_, scanned.rows]
    rfl
  · intro a b c least ab bc bound outA outC
    by_cases newest : c = first + n
    · rcases scanned.state with ⟨-, -, absent⟩ | ⟨-, last, from_, until_, out, -, gap⟩
      · exact absurd (absent a least (by omega)) outA
      · have whole : (first + n - 1 - last).toNat = 0 := by
          have count := congrArg List.length (gap.symm.trans noGap)
          rw [daysFrom_length] at count
          exact count
        by_cases own : b = last
        · rw [own]
          exact out
        · exact scanned.unbroken a b last least ab (by omega) until_ outA out
    · exact scanned.unbroken a b c least ab bc (by omega) outA outC
  · have none_left : (first + ((n + 1 : Nat) : Int) - 1 - (first + n)).toNat = 0 := by omega
    rw [none_left]
    exact noGap

/-- A pass over the days ends where no day is absent between two that are out, and only there. -/
theorem scan_days (perp : String) (fetch : Int → Option (List (Row V))) (first : Int) (n : Nat) :
    (∃ s, (daysFrom first n).foldlM (scanDay perp fetch) {} = .ok s ∧ Scanned fetch first n s) ∨
    ((∃ e, (daysFrom first n).foldlM (scanDay perp fetch) {} = .error e) ∧ ¬ Unbroken fetch first n) := by
  induction n with
  | zero => exact .inl ⟨{}, rfl, .none_yet fetch first⟩
  | succ n ih =>
    rw [daysFrom_succ, List.foldlM_append]
    rcases ih with ⟨s, done, scanned⟩ | ⟨⟨e, failed⟩, broken⟩
    · rw [done]
      simp only [List.foldlM_cons, List.foldlM_nil, bind_pure]
      show (∃ s', scanDay perp fetch s (first + n) = .ok s' ∧ _) ∨ ((∃ e, scanDay perp fetch s (first + n) = .error e) ∧ _)
      unfold scanDay
      split
      · rename_i none
        exact .inl ⟨_, rfl, scanned.absent none⟩
      · rename_i rows some_
        split
        · rename_i gap_some
          refine .inr ⟨⟨_, rfl⟩, fun unbroken => ?_⟩
          rcases scanned.state with ⟨-, gap, -⟩ | ⟨-, last, from_, until_, out, absent, gap⟩
          · exact gap_some gap
          · have some_gap : 0 < (first + n - 1 - last).toNat := by
              rw [← daysFrom_length (last + 1) (first + n - 1 - last).toNat, ← gap]
              exact List.length_pos_of_ne_nil gap_some
            have published : fetch (first + n) ≠ none := by
              rw [some_]
              exact Option.some_ne_none rows
            exact unbroken last (last + 1) (first + n) from_ (by omega) (by omega) (by omega) out published
              (absent (last + 1) (by omega) (by omega))
        · rename_i noGap
          exact .inl ⟨_, rfl, scanned.out some_ (not_not.mp noGap)⟩
    · rw [failed]
      refine .inr ⟨⟨e, rfl⟩, fun unbroken => broken fun a b c least ab bc bound => ?_⟩
      exact unbroken a b c least ab bc (by omega)

/- The open interest of a run. -/

theorem unbroken_iff : Unbroken fetch (start / dayMs) (now / dayMs - start / dayMs).toNat ↔ ¬ Hole fetch start now := by
  unfold Hole Seen
  simp only [mem_iterDays]
  generalize start / dayMs = first
  generalize now / dayMs = stop
  constructor
  · rintro unbroken ⟨a, b, c, ⟨⟨least, -⟩, outA⟩, none, ⟨⟨-, bound⟩, outC⟩, ab, bc⟩
    exact unbroken a b c least ab bc (by omega) outA outC none
  · intro whole a b c least ab bc bound outA outC none
    exact whole ⟨a, b, c, ⟨⟨least, by omega⟩, outA⟩, none, ⟨⟨by omega, by omega⟩, outC⟩, ab, bc⟩

theorem late_iff (scanned : Scanned fetch (start / dayMs) (now / dayMs - start / dayMs).toNat s) :
    Late fetch start now ↔ maxTrailingLagDays < s.pendingGap.length := by
  have state := scanned.state
  unfold Late Seen
  simp only [mem_iterDays]
  unfold iterDays
  generalize start / dayMs = first at *
  generalize now / dayMs = stop at *
  rcases state with ⟨-, gap, absent⟩ | ⟨-, last, from_, until_, out, absent, gap⟩
  · rw [gap]
    constructor
    · rintro ⟨last, ⟨⟨least, bound⟩, out⟩, -⟩
      exact absurd (absent last least (by omega)) out
    · intro less
      cases less
  · rw [gap, daysFrom_length, ← daysFrom_after from_ until_]
    constructor
    · rintro ⟨last', ⟨⟨least, bound⟩, out'⟩, most, late⟩
      have before : last ≤ last' := most last ⟨⟨from_, by omega⟩, out⟩
      have after : last' ≤ last := by
        by_contra later
        exact out' (absent last' (by omega) (by omega))
      rw [le_antisymm before after]
      exact late
    · intro late
      refine ⟨last, ⟨⟨from_, by omega⟩, out⟩, fun d seen => ?_, late⟩
      by_contra later
      exact seen.2 (absent d (by omega) (by omega))

/-- What a run comes to: nothing where there is a hole or the last day is too long ago, and else its frame. -/
theorem backfillOi_cases (perp : String) (fetch : Int → Option (List (Row V))) (start now : Int) :
    ((∃ e, backfillOi perp start now fetch = .error e) ∧ (Hole fetch start now ∨ Late fetch start now)) ∨
    (backfillOi perp start now fetch = .ok (keepLast Row.ts (Keyed.arrange Row.ts (fileRows fetch start now))) ∧
      ¬ Hole fetch start now ∧ ¬ Late fetch start now) := by
  unfold backfillOi iterDays
  rcases scan_days perp fetch (start / dayMs) (now / dayMs - start / dayMs).toNat with
    ⟨s, done, scanned⟩ | ⟨⟨e, failed⟩, broken⟩
  · have whole := unbroken_iff.mp scanned.unbroken
    have rows : s.allRows = fileRows fetch start now := scanned.rows
    rw [done]
    by_cases late : s.pendingGap.length > maxTrailingLagDays
    · exact .inl ⟨⟨_, if_pos late⟩, .inr ((late_iff scanned).mpr late)⟩
    · refine .inr ⟨(if_neg late).trans ?_, whole, fun is_late => late ((late_iff scanned).mp is_late)⟩
      rw [← rows]
      cases s.allRows with
      | nil => rfl
      | cons row rest => rfl
  · rw [failed]
    exact .inl ⟨⟨e, rfl⟩, .inl (not_not.mp fun whole => broken (unbroken_iff.mpr whole))⟩

theorem oi_raises_iff (perp : String) (fetch : Int → Option (List (Row V))) (start now : Int) :
    (∃ e, backfillOi perp start now fetch = .error e) ↔ Hole fetch start now ∨ Late fetch start now := by
  rcases backfillOi_cases perp fetch start now with ⟨raised, why⟩ | ⟨done, whole, timely⟩
  · exact iff_of_true raised why
  · refine iff_of_false ?_ (not_or.mpr ⟨whole, timely⟩)
    rintro ⟨e, raised⟩
    rw [done] at raised
    cases raised

theorem oi_frame {frame : List (Row V)} (done : backfillOi perp start now fetch = .ok frame) :
    Lasts Row.ts (fileRows fetch start now) frame := by
  rcases backfillOi_cases perp fetch start now with ⟨⟨e, raised⟩, -⟩ | ⟨same, -⟩
  · rw [done] at raised
    cases raised
  · rw [done] at same
    injection same with same
    rw [same]
    exact keepLast_arrange _

/- Two runs. -/

/-- A file's stamps lie in its day, the midnights at both its ends included. -/
def InDays (fetch : Int → Option (List (Row V))) : Prop :=
  ∀ d rows, fetch d = some rows → ∀ r ∈ rows, d * dayMs ≤ r.ts ∧ r.ts ≤ (d + 1) * dayMs

/-- The later run sees what the earlier one saw, and besides it only days after all of those. -/
structure Grows (fetch fetch' : Int → Option (List (Row V))) (start now now' : Int) : Prop where
  later : now ≤ now'
  keeps : ∀ d, Seen fetch start now d → fetch' d = fetch d
  after : ∀ d, Seen fetch' start now' d → ¬ Seen fetch start now d → ∀ old, Seen fetch start now old → old < d

/-- The first day that the later run sees and the earlier one did not. -/
def FirstNew (fetch fetch' : Int → Option (List (Row V))) (start now now' : Int) (d : Int) : Prop :=
  (Seen fetch' start now' d ∧ ¬ Seen fetch start now d) ∧
    ∀ e, Seen fetch' start now' e → ¬ Seen fetch start now e → d ≤ e

theorem lastOf_rows_congr {t : Int} {days : List Int}
    (same : ∀ d ∈ days, ((fetch d).getD []).filter (fun r => r.ts = t) = ((fetch' d).getD []).filter fun r => r.ts = t) :
    (rowsOf fetch days).filter (fun r => r.ts = t) = (rowsOf fetch' days).filter fun r => r.ts = t := by
  unfold rowsOf
  rw [List.filter_flatMap, List.filter_flatMap]
  exact List.flatMap_congr fun d mem => same d mem

theorem iterDays_append (start : Int) (later : now ≤ now') : ∃ more, iterDays start now' = iterDays start now ++ more ∧
    ∀ d ∈ more, d ∉ iterDays start now := by
  have wide : 0 < dayMs := by decide
  have le : now / dayMs ≤ now' / dayMs := Int.ediv_le_ediv wide later
  simp only [mem_iterDays]
  unfold iterDays
  generalize start / dayMs = first
  generalize now / dayMs = stop at *
  generalize now' / dayMs = stop' at *
  have count : (stop' - first).toNat = (stop - first).toNat + ((stop' - first).toNat - (stop - first).toNat) := by omega
  rw [count]
  refine ⟨_, daysFrom_append first _ _, fun d mem => ?_⟩
  have bounds := mem_daysFrom.mp mem
  omega

/-- Before the midnight of the first new day the two runs saw the same rows of each stamp. -/
theorem rows_before {first t : Int} (stamps : InDays fetch') (grows : Grows fetch fetch' start now now')
    (new : FirstNew fetch fetch' start now now' first) (before : t < first * dayMs) :
    (fileRows fetch start now).filter (fun r => r.ts = t) = (fileRows fetch' start now').filter fun r => r.ts = t := by
  have late : ∀ d, first ≤ d → ((fetch' d).getD []).filter (fun r => r.ts = t) = [] := by
    intro d after
    refine List.filter_eq_nil_iff.mpr fun r mem => ?_
    cases out : fetch' d with
    | none =>
      rw [out] at mem
      cases mem
    | some rows =>
      rw [out] at mem
      have least := (stamps d rows out r mem).1
      have wide : first * dayMs ≤ d * dayMs := Int.mul_le_mul_of_nonneg_right after (by decide)
      simp only [decide_eq_true_eq]
      omega
  have unseen : ∀ d, d ∈ iterDays start now' → ¬ Seen fetch start now d → d < first → fetch' d = none := by
    intro d mem hidden less
    by_contra out
    exact absurd (new.2 d ⟨mem, out⟩ hidden) (not_le.mpr less)
  obtain ⟨more, whole, others⟩ := iterDays_append start grows.later
  have common : ∀ d ∈ iterDays start now, ((fetch d).getD []).filter (fun r => r.ts = t) =
      ((fetch' d).getD []).filter fun r => r.ts = t := by
    intro d mem
    by_cases out : fetch d = none
    · by_cases less : d < first
      · have hidden : ¬ Seen fetch start now d := fun seen => seen.2 out
        have there : d ∈ iterDays start now' := by
          rw [whole]
          exact List.mem_append_left _ mem
        rw [out, unseen d there hidden less]
      · rw [out, late d (not_lt.mp less)]
        rfl
    · rw [grows.keeps d ⟨mem, out⟩]
  have rest : ∀ d ∈ more, ((fetch' d).getD []).filter (fun r => r.ts = t) = [] := by
    intro d mem
    by_cases less : d < first
    · have hidden : ¬ Seen fetch start now d := fun seen => others d mem seen.1
      have there : d ∈ iterDays start now' := by
        rw [whole]
        exact List.mem_append_right _ mem
      rw [unseen d there hidden less]
      rfl
    · exact late d (not_lt.mp less)
  have tail : (rowsOf fetch' more).filter (fun r => r.ts = t) = [] := by
    unfold rowsOf
    rw [List.filter_flatMap]
    exact List.flatMap_eq_nil_iff.mpr rest
  calc (fileRows fetch start now).filter (fun r => r.ts = t)
      = (rowsOf fetch' (iterDays start now)).filter fun r => r.ts = t := lastOf_rows_congr common
    _ = (rowsOf fetch' (iterDays start now)).filter (fun r => r.ts = t) ++
          (rowsOf fetch' more).filter fun r => r.ts = t := by rw [tail, List.append_nil]
    _ = (fileRows fetch' start now').filter fun r => r.ts = t := by
        unfold fileRows
        rw [whole, List.flatMap_append, List.filter_append]
        rfl

/-- The frame of the earlier run is that of the later one before the midnight of the first new day. -/
theorem oi_grows {first : Int} {frame frame' : List (Row V)} (stamps : InDays fetch')
    (grows : Grows fetch fetch' start now now') (new : FirstNew fetch fetch' start now now' first)
    (done : backfillOi perp start now fetch = .ok frame) (done' : backfillOi perp start now' fetch' = .ok frame') :
    frame.filter (fun r => r.ts < first * dayMs) = frame'.filter fun r => r.ts < first * dayMs := by
  obtain ⟨up, lasts⟩ := oi_frame done
  obtain ⟨up', lasts'⟩ := oi_frame done'
  refine ascending_ext Row.ts (up.filter _) (up'.filter _) fun x => ?_
  simp only [List.mem_filter, decide_eq_true_eq]
  refine and_congr_left fun before => ?_
  rw [lasts, lasts']
  unfold lastOf
  rw [rows_before stamps grows new before]

end

/- Funding. -/

section
variable {V : Type} (perp : String) (fetch : Int × Int → Option (List (Row V))) (start now : Int × Int)

/-- The rows of the months in their order, each month's as its file has them. -/
def monthRows : List (Row V) := (iterMonths start now).flatMap fun m => (fetch m).getD []

/-- Once a month's file is out, so is that of every later one. -/
def Listed : Prop := (iterMonths start now).Pairwise fun a b => fetch a ≠ none → fetch b ≠ none

/-- No stamp is carried by rows that differ. -/
def Agreed (rows : List (Row V)) : Prop := ∀ r ∈ rows, ∀ s ∈ rows, r.ts = s.ts → r = s

/-- Whatever the sort does with rows of one stamp, the frame has the last of each. -/
def Determined : Prop := ∀ sort, Tick.SortsByTs Row.ts sort → ∀ frame,
  backfillFunding perp sort start now fetch = .ok frame → Lasts Row.ts (monthRows fetch start now) frame

variable {perp fetch start now} {sort : List (Row V) → List (Row V)} {months : List (Int × Int)}

/-- A pass over the months ends where none is absent after one that is out, and only there. -/
theorem scan_months (perp : String) (fetch : Int × Int → Option (List (Row V))) (months : List (Int × Int))
    (begun : Bool) (rows : List (Row V)) :
    (∃ done, months.foldlM (scanMonth perp fetch) (begun, rows) =
        .ok (done, rows ++ months.flatMap fun m => (fetch m).getD []) ∧
      (begun = true → ∀ m ∈ months, fetch m ≠ none) ∧ months.Pairwise fun a b => fetch a ≠ none → fetch b ≠ none) ∨
    ((∃ e, months.foldlM (scanMonth perp fetch) (begun, rows) = .error e) ∧
      ¬ ((begun = true → ∀ m ∈ months, fetch m ≠ none) ∧ months.Pairwise fun a b => fetch a ≠ none → fetch b ≠ none)) := by
  induction months generalizing begun rows with
  | nil =>
    refine .inl ⟨begun, ?_, ?_, List.Pairwise.nil⟩
    · rw [List.flatMap_nil, List.append_nil]
      rfl
    · intro _ m mem
      cases mem
  | cons m rest ih =>
    rw [List.foldlM_cons]
    cases out : fetch m with
    | none =>
      cases begun with
      | true =>
        have fails : ∃ e, scanMonth perp fetch (true, rows) m = .error e := by
          unfold scanMonth
          rw [out]
          exact ⟨_, rfl⟩
        obtain ⟨e, failed⟩ := fails
        rw [failed]
        exact .inr ⟨⟨e, rfl⟩, fun listed => listed.1 rfl m List.mem_cons_self out⟩
      | false =>
        have step : scanMonth perp fetch (false, rows) m = .ok (false, rows) := by simp [scanMonth, out]
        have before : ∀ b ∈ rest, fetch m ≠ none → fetch b ≠ none := fun b _ some_ => absurd out some_
        rw [step, List.flatMap_cons, out]
        rcases ih false rows with ⟨done, ended, -, listed⟩ | ⟨failed, broken⟩
        · refine .inl ⟨done, ended, fun waits => ?_, List.pairwise_cons.mpr ⟨before, listed⟩⟩
          cases waits
        · refine .inr ⟨failed, fun whole => broken ⟨fun waits => ?_, (List.pairwise_cons.mp whole.2).2⟩⟩
          cases waits
    | some more =>
      have step : scanMonth perp fetch (begun, rows) m = .ok (true, rows ++ more) := by simp [scanMonth, out]
      have here : fetch m ≠ none := by
        rw [out]
        exact Option.some_ne_none more
      rw [step, List.flatMap_cons, out]
      rcases ih true (rows ++ more) with ⟨done, ended, others, listed⟩ | ⟨failed, broken⟩
      · refine .inl ⟨done, ?_, fun _ b mem => ?_, List.pairwise_cons.mpr ⟨fun b mem _ => others rfl b mem, listed⟩⟩
        · rw [Option.getD_some, ← List.append_assoc]
          exact ended
        · rcases List.mem_cons.mp mem with rfl | later
          · exact here
          · exact others rfl b later
      · refine .inr ⟨failed, fun whole => broken ?_⟩
        obtain ⟨next, listed⟩ := List.pairwise_cons.mp whole.2
        exact ⟨fun _ b mem => next b mem here, listed⟩

theorem backfillFunding_cases (sorts : Tick.SortsByTs Row.ts sort) (perp : String)
    (fetch : Int × Int → Option (List (Row V))) (start now : Int × Int) :
    ((∃ e, backfillFunding perp sort start now fetch = .error e) ∧ ¬ Listed fetch start now) ∨
    (backfillFunding perp sort start now fetch = .ok (keepLast Row.ts (sort (monthRows fetch start now))) ∧
      Listed fetch start now) := by
  unfold backfillFunding
  rcases scan_months perp fetch (iterMonths start now) false [] with ⟨done, ended, -, listed⟩ | ⟨⟨e, failed⟩, broken⟩
  · refine .inr ⟨?_, listed⟩
    rw [ended, List.nil_append]
    show (if (monthRows fetch start now).isEmpty then _ else Except.ok (keepLast Row.ts (sort (monthRows fetch start now)))) = _
    cases rows : monthRows fetch start now with
    | nil =>
      rw [sorts.nil]
      rfl
    | cons row rest => rfl
  · rw [failed]
    refine .inl ⟨⟨e, rfl⟩, fun listed => broken ⟨fun waits => ?_, listed⟩⟩
    cases waits

/-- A sort that leaves one row behind those of its stamp. -/
noncomputable def lastly (x : Row V) (l : List (Row V)) : List (Row V) := by
  classical exact if x ∈ l then Keyed.arrange Row.ts (l.erase x ++ [x]) else Keyed.arrange Row.ts l

theorem lastly_sorts (x : Row V) : Tick.SortsByTs Row.ts (lastly x) := by
  classical
  have arranged := Tick.arrange_sorts (Row.ts (V := V))
  constructor
  · intro l
    unfold lastly
    split
    · rename_i there
      exact (arranged.perm _).trans ((List.perm_append_singleton x _).trans (List.perm_cons_erase there).symm)
    · exact arranged.perm l
  · intro l
    unfold lastly
    split
    · exact arranged.ordered _
    · exact arranged.ordered l

theorem lastOf_lastly {x : Row V} {l : List (Row V)} (there : x ∈ l) : lastOf Row.ts (lastly x l) x.ts = some x := by
  classical
  have sorted : lastly x l = Keyed.arrange Row.ts (l.erase x ++ [x]) := if_pos there
  rw [sorted, lastOf_arrange]
  unfold lastOf
  rw [List.filter_append]
  simp

/-- The frame is one for all sorts where rows of one stamp do not differ or a month is a hole, and only there. -/
theorem determined_iff : Determined perp fetch start now ↔
    ¬ Listed fetch start now ∨ Agreed (monthRows fetch start now) := by
  constructor
  · intro determined
    by_cases listed : Listed fetch start now
    · have last : ∀ r ∈ monthRows fetch start now, lastOf Row.ts (monthRows fetch start now) r.ts = some r := by
        intro r mem
        rcases backfillFunding_cases (lastly_sorts r) perp fetch start now with ⟨-, hole⟩ | ⟨done, -⟩
        · exact absurd listed hole
        · refine ((determined _ (lastly_sorts r) _ done).2 r).mp (mem_keepLast.mpr ?_)
          exact lastOf_lastly mem
      refine .inr fun r memR s memS same => ?_
      have both := last r memR
      rw [same, last s memS] at both
      exact (Option.some.inj both).symm
    · exact .inl listed
  · intro holds sort sorts frame done
    rcases backfillFunding_cases sorts perp fetch start now with ⟨⟨e, raised⟩, -⟩ | ⟨same, listed⟩
    · rw [done] at raised
      cases raised
    · have agreed := holds.resolve_left (not_not.mpr listed)
      rw [done] at same
      injection same with same
      rw [same]
      refine ⟨keepLast_ascending (sorts.ordered _), fun x => ?_⟩
      -- rows of a stamp being one row, it is the last of them in any order
      have alone : ∀ l : List (Row V), (∀ y, y ∈ l ↔ y ∈ monthRows fetch start now) →
          (lastOf Row.ts l x.ts = some x ↔ x ∈ monthRows fetch start now) := by
        intro l members
        constructor
        · intro found
          exact (members x).mp (lastOf_some found).1
        · intro mem
          obtain ⟨y, found⟩ := lastOf_isSome Row.ts ((members x).mpr mem)
          rw [found, agreed y ((members y).mp (lastOf_some found).1) x mem (lastOf_some found).2]
      rw [mem_keepLast, alone _ fun y => (sorts.perm _).mem_iff, alone _ fun y => Iff.rfl]

end

/-- Open interest is backfilled in full or not at all, and grows behind its last day; a frame of funding is
    determined where no stamp has rows that differ, and only there. -/
theorem backfills_exact {V : Type} :
    (∀ (perp : String) (fetch : Int → Option (List (Row V))) (start now : Int), InDays fetch →
      ((∃ e, backfillOi perp start now fetch = .error e) ↔ Hole fetch start now ∨ Late fetch start now) ∧
      ∀ frame, backfillOi perp start now fetch = .ok frame →
        Lasts Row.ts (fileRows fetch start now) frame ∧ ∀ r ∈ fileRows fetch start now, ∃ x ∈ frame, x.ts = r.ts) ∧
    (∀ (perp : String) (fetch fetch' : Int → Option (List (Row V))) (start now now' first : Int)
      (frame frame' : List (Row V)), InDays fetch' → Grows fetch fetch' start now now' →
      FirstNew fetch fetch' start now now' first → backfillOi perp start now fetch = .ok frame →
      backfillOi perp start now' fetch' = .ok frame' →
      frame.filter (fun r => r.ts < first * dayMs) = frame'.filter fun r => r.ts < first * dayMs) ∧
    ∀ (perp : String) (fetch : Int × Int → Option (List (Row V))) (start now : Int × Int),
      Determined perp fetch start now ↔ ¬ Listed fetch start now ∨ Agreed (monthRows fetch start now) := by
  refine ⟨fun perp fetch start now _ => ⟨oi_raises_iff perp fetch start now, fun frame done => ?_⟩, ?_, ?_⟩
  · exact ⟨oi_frame done, fun r mem => (oi_frame done).covers mem⟩
  · intro perp fetch fetch' start now now' first frame frame' stamps grows new done done'
    exact oi_grows stamps grows new done done'
  · intro perp fetch start now
    exact determined_iff

/-- Two days of which the first also has the midnight between them, with another value. -/
def earlierDays (d : Int) : Option (List (Row ℚ)) :=
  if d = 1 then some [⟨dayMs, 1⟩, ⟨2 * dayMs, 5⟩] else if d = 2 then some [⟨2 * dayMs, 7⟩] else none

/-- The same with the day after them. -/
def laterDays (d : Int) : Option (List (Row ℚ)) :=
  if d = 3 then some [⟨3 * dayMs, 9⟩, ⟨3 * dayMs + 300000, 10⟩] else earlierDays d

theorem midnight_backfilled :
    [(⟨dayMs, 1⟩ : Row ℚ), ⟨2 * dayMs, 7⟩].filter (fun r => r.ts < 3 * dayMs) =
      [(⟨dayMs, 1⟩ : Row ℚ), ⟨2 * dayMs, 7⟩, ⟨3 * dayMs, 9⟩, ⟨3 * dayMs + 300000, 10⟩].filter
        fun r => r.ts < 3 * dayMs := by
  have stamps : InDays laterDays := by
    intro d rows out
    unfold laterDays earlierDays at out
    split at out
    · rename_i third
      injection out with same
      rw [← same, third]
      decide
    · split at out
      · rename_i one
        injection out with same
        rw [← same, one]
        decide
      · split at out
        · rename_i two
          injection out with same
          rw [← same, two]
          decide
        · cases out
  have seen : ∀ d, Seen earlierDays 0 (4 * dayMs) d → d = 1 ∨ d = 2 := by
    intro d is_seen
    have among : ∀ e ∈ iterDays 0 (4 * dayMs), earlierDays e ≠ none → e = 1 ∨ e = 2 := by decide +kernel
    exact among d is_seen.1 is_seen.2
  have seen' : ∀ d, Seen laterDays 0 (4 * dayMs) d → d = 1 ∨ d = 2 ∨ d = 3 := by
    intro d is_seen
    have among : ∀ e ∈ iterDays 0 (4 * dayMs), laterDays e ≠ none → e = 1 ∨ e = 2 ∨ e = 3 := by decide +kernel
    exact among d is_seen.1 is_seen.2
  have out : Seen earlierDays 0 (4 * dayMs) 1 ∧ Seen earlierDays 0 (4 * dayMs) 2 ∧ Seen laterDays 0 (4 * dayMs) 3 ∧
      ¬ Seen earlierDays 0 (4 * dayMs) 3 := by
    unfold Seen
    decide +kernel
  have new : ∀ d, Seen laterDays 0 (4 * dayMs) d → ¬ Seen earlierDays 0 (4 * dayMs) d → d = 3 := by
    intro d is_seen unseen
    rcases seen' d is_seen with rfl | rfl | rfl
    · exact absurd out.1 unseen
    · exact absurd out.2.1 unseen
    · rfl
  have grows : Grows earlierDays laterDays 0 (4 * dayMs) (4 * dayMs) := by
    refine ⟨le_rfl, fun d is_seen => ?_, fun d is_seen unseen old is_old => ?_⟩
    · rcases seen d is_seen with rfl | rfl
      · rfl
      · rfl
    · have third := new d is_seen unseen
      rcases seen old is_old with rfl | rfl
      · omega
      · omega
  have first : FirstNew earlierDays laterDays 0 (4 * dayMs) (4 * dayMs) 3 :=
    ⟨out.2.2, fun e is_seen unseen => (new e is_seen unseen).ge⟩
  exact backfills_exact.2.1 "BTCUSDT" earlierDays laterDays 0 (4 * dayMs) (4 * dayMs) 3 _ _ stamps grows first
    (by decide +kernel) (by decide +kernel)

/-- Two months that both have the midnight between them, with other rates. -/
def twoMonths (m : Int × Int) : Option (List (Row ℚ)) :=
  if m = (2020, 1) then some [⟨1580515200000, 1⟩] else if m = (2020, 2) then some [⟨1580515200000, 2⟩] else none

/-- A sort by the stamps that turns rows of one stamp around. -/
def turned (l : List (Row ℚ)) : List (Row ℚ) := Keyed.arrange Row.ts l.reverse

/-- The midnight's rate is that of the month before, though the owning month's row is the last. -/
theorem midnight_undetermined : Tick.SortsByTs Row.ts turned ∧
    backfillFunding "BTCUSDT" turned (2020, 1) (2020, 3) twoMonths = .ok [⟨1580515200000, 1⟩] ∧
    lastOf Row.ts (monthRows twoMonths (2020, 1) (2020, 3)) 1580515200000 = some ⟨1580515200000, 2⟩ := by
  have arranged := Tick.arrange_sorts (Row.ts (V := ℚ))
  refine ⟨⟨fun l => (arranged.perm _).trans (List.reverse_perm l), fun l => arranged.ordered _⟩, ?_, ?_⟩
  · decide +kernel
  · decide +kernel

end Derivatives
