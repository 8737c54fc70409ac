import Mathlib.Algebra.Order.Ring.Rat
import Mathlib.Algebra.Order.Group.Abs
import Mathlib.Tactic.Ring
import Zcrypto.Engine.ExecLedger

/- What the mutators of the execution ledger do to its rows and its plan entries, and
   the filings: the changes every function of the executor makes to it. -/
namespace LedgerLaws
open ProbePlans ExecGate ExecLedger
variable {l l' : Ledger} {b : Int} {v : GateVerdict} {t : Int}

-- the first element of a list changed in place

theorem changeFirst_mem {α : Type} {p : α → Bool} {f : α → α} {xs ys : List α}
    (h : changeFirst p f xs = some ys) {y : α} (mem : y ∈ ys) :
    y ∈ xs ∨ ∃ x ∈ xs, p x = true ∧ y = f x := by
  induction xs generalizing ys with
  | nil => cases h
  | cons a rest ih =>
    simp only [changeFirst] at h
    split at h
    · obtain rfl := Option.some.inj h
      rcases List.mem_cons.mp mem with rfl | later
      · exact .inr ⟨a, by simp, ‹_›, rfl⟩
      · exact .inl (List.mem_cons_of_mem a later)
    · obtain ⟨tail, found, rfl⟩ := Option.map_eq_some_iff.mp h
      rcases List.mem_cons.mp mem with rfl | later
      · exact .inl (by simp)
      · rcases ih found later with old | ⟨x, hx, hp, rfl⟩
        · exact .inl (List.mem_cons_of_mem a old)
        · exact .inr ⟨x, List.mem_cons_of_mem a hx, hp, rfl⟩

theorem changeFirst_map {α β : Type} {p : α → Bool} {f : α → α} {g : α → β} {xs ys : List α}
    (same : ∀ x, g (f x) = g x) (h : changeFirst p f xs = some ys) : ys.map g = xs.map g := by
  induction xs generalizing ys with
  | nil => cases h
  | cons a rest ih =>
    simp only [changeFirst] at h
    split at h
    · obtain rfl := Option.some.inj h
      simp [same]
    · obtain ⟨tail, found, rfl⟩ := Option.map_eq_some_iff.mp h
      simp [ih found]

-- the records a store leaves

@[simp] theorem rows_store (b' : Int) (r : ExecRecord) :
    (store l b r).rows b' = if b' = b then r.submitted else l.rows b' := by
  by_cases same : b' = b <;> simp [Ledger.rows, store, Function.update, same]

@[simp] theorem entries_store (b' : Int) (r : ExecRecord) :
    (store l b r).entries b' = if b' = b then r.plans else l.entries b' := by
  by_cases same : b' = b <;> simp [Ledger.entries, store, Function.update, same]

theorem rows_of_loadOrNew {r : ExecRecord} (h : loadOrNew l b v t = some r) :
    r.submitted = l.rows b ∧ r.plans = l.entries b := by
  unfold loadOrNew at h
  unfold Ledger.rows Ledger.entries
  rcases hb : l b with _ | (r' | _) <;> simp only [hb] at h
  · obtain rfl := Option.some.inj h
    exact ⟨rfl, rfl⟩
  · obtain rfl := Option.some.inj h
    exact ⟨rfl, rfl⟩
  · cases h

theorem rows_of_readExisting {r : ExecRecord} (h : readExisting l b = some r) :
    r.submitted = l.rows b ∧ r.plans = l.entries b := by
  unfold readExisting at h
  unfold Ledger.rows Ledger.entries
  rcases hb : l b with _ | (r' | _) <;> simp only [hb] at h
  · cases h
  · obtain rfl := Option.some.inj h
    exact ⟨rfl, rfl⟩
  · cases h

theorem writeExecRecord_keeps (h : writeExecRecord b v t l = some l') :
    l'.rows = l.rows ∧ l'.entries = l.entries := by
  obtain ⟨r, read, rfl⟩ := Option.map_eq_some_iff.mp h
  obtain ⟨rows, entries⟩ := rows_of_loadOrNew read
  constructor <;> funext b' <;> by_cases same : b' = b <;> simp [same, rows, entries]

theorem appendSubmittedRow_rows {row : Row} (h : appendSubmittedRow b row v t l = some l') :
    (∀ b', l'.rows b' = if b' = b then l.rows b ++ [row] else l.rows b') ∧
      l'.entries = l.entries := by
  obtain ⟨r, read, rfl⟩ := Option.map_eq_some_iff.mp h
  obtain ⟨rows, entries⟩ := rows_of_loadOrNew read
  constructor
  · intro b'
    simp [rows]
  · funext b'
    by_cases same : b' = b <;> simp [same, entries]

theorem appendPlanEntry_entries {entry : PlanEntry} (h : appendPlanEntry b entry v t l = some l') :
    l'.rows = l.rows ∧
      ∀ b', l'.entries b' = if b' = b then l.entries b ++ [entry] else l.entries b' := by
  obtain ⟨r, read, rfl⟩ := Option.map_eq_some_iff.mp h
  obtain ⟨rows, entries⟩ := rows_of_loadOrNew read
  constructor
  · funext b'
    by_cases same : b' = b <;> simp [same, rows]
  · intro b'
    simp [entries]

theorem updateSubmittedRow_rows {c : OrderId} {u : RowUpdate}
    (h : updateSubmittedRow b c u l = some l') :
    (∃ rows, changeFirst (fun row => row.clientOrderId = c) u.apply (l.rows b) = some rows ∧
      ∀ b', l'.rows b' = if b' = b then rows else l.rows b') ∧ l'.entries = l.entries := by
  simp only [updateSubmittedRow, Option.pure_def, Option.bind_eq_bind, Option.bind_eq_some_iff,
    Option.some.injEq] at h
  obtain ⟨r, read, changed, found, rfl⟩ := h
  obtain ⟨rows, entries⟩ := rows_of_readExisting read
  refine ⟨⟨changed, rows ▸ found, fun b' => by simp⟩, ?_⟩
  funext b'
  by_cases same : b' = b <;> simp [same, entries]

theorem updatePlanIntent_entries {planId : PlanId} {index : Nat} {outcome : IntentOutcome}
    {reasons : List String} {filledQty : ℚ}
    (h : updatePlanIntent b planId index outcome reasons filledQty l = some l') :
    l'.rows = l.rows ∧
      ∃ entry intents entries,
        (l.entries b).find? (fun entry => entry.planId = planId) = some entry ∧
        changeFirst (fun i => i.index = index) (fun i => { i with outcome, reasons, filledQty })
          entry.intents = some intents ∧
        changeFirst (fun entry => entry.planId = planId) (fun entry => { entry with intents })
          (l.entries b) = some entries ∧
        ∀ b', l'.entries b' = if b' = b then entries else l.entries b' := by
  simp only [updatePlanIntent, Option.pure_def, Option.bind_eq_bind, Option.bind_eq_some_iff,
    Option.some.injEq] at h
  obtain ⟨r, read, changed, ⟨entry, found, intents, edited, placed⟩, rfl⟩ := h
  obtain ⟨rows, entries⟩ := rows_of_readExisting read
  constructor
  · funext b'
    by_cases same : b' = b <;> simp [same, rows]
  · exact ⟨entry, intents, changed, entries ▸ found, edited, entries ▸ placed, fun b' => by simp⟩

-- filings

/- An update whose event says exactly what it moves the figure by. -/
def LineBalanced (u : RowUpdate) : Prop := u.addFilledQty = (u.event.map credited).getD 0

inductive Filing : Ledger → Ledger → Prop
  | verdict {l l' : Ledger} {b : Int} {v : GateVerdict} {t : Int}
      (h : writeExecRecord b v t l = some l') : Filing l l'
  | row {l l' : Ledger} {b : Int} {row : Row} {v : GateVerdict} {t : Int}
      (unfilled : row.filledQty = 0) (bare : row.events = [])
      (h : appendSubmittedRow b row v t l = some l') : Filing l l'
  | entry {l l' : Ledger} {b : Int} {entry : PlanEntry} {v : GateVerdict} {t : Int}
      (h : appendPlanEntry b entry v t l = some l') : Filing l l'
  | update {l l' : Ledger} {b : Int} {c : OrderId} {u : RowUpdate} (balanced : LineBalanced u)
      (h : updateSubmittedRow b c u l = some l') : Filing l l'
  | intent {l l' : Ledger} {b : Int} {planId : PlanId} {index : Nat} {outcome : IntentOutcome}
      {reasons : List String} {filledQty : ℚ}
      (h : updatePlanIntent b planId index outcome reasons filledQty l = some l') : Filing l l'

/- How far a row's figure stands from what its events say moved it. -/
def gap (row : Row) : ℚ := row.filledQty - row.creditedTotal

theorem gap_apply {u : RowUpdate} (balanced : LineBalanced u) (row : Row) :
    gap (u.apply row) = gap row := by
  have moved : (u.apply row).creditedTotal = row.creditedTotal + u.addFilledQty := by
    rw [balanced]
    cases hu : u.event <;> simp [RowUpdate.apply, Row.creditedTotal, hu]
  have raised : (u.apply row).filledQty = row.filledQty + u.addFilledQty := rfl
  unfold gap
  rw [moved, raised]
  ring

/- A filing appends bare rows, and moves no other row's gap. -/
theorem Filing.gap_rows (h : Filing l l') {b : Int} {row : Row} (mem : row ∈ l'.rows b) :
    gap row = 0 ∨ ∃ old ∈ l.rows b, gap row = gap old := by
  cases h with
  | verdict h => exact .inr ⟨row, (writeExecRecord_keeps h).1 ▸ mem, rfl⟩
  | row unfilled bare h =>
    rw [(appendSubmittedRow_rows h).1] at mem
    split at mem
    · subst b
      rcases List.mem_append.mp mem with old | new
      · exact .inr ⟨row, old, rfl⟩
      · obtain rfl := List.mem_singleton.mp new
        left
        simp [gap, Row.creditedTotal, unfilled, bare]
    · exact .inr ⟨row, mem, rfl⟩
  | entry h => exact .inr ⟨row, (appendPlanEntry_entries h).1 ▸ mem, rfl⟩
  | update balanced h =>
    obtain ⟨⟨rows, changed, stored⟩, -⟩ := updateSubmittedRow_rows h
    rw [stored] at mem
    split at mem
    · subst b
      rcases changeFirst_mem changed mem with old | ⟨old, hold, -, rfl⟩
      · exact .inr ⟨row, old, rfl⟩
      · exact .inr ⟨old, hold, gap_apply balanced old⟩
    · exact .inr ⟨row, mem, rfl⟩
  | intent h => exact .inr ⟨row, (updatePlanIntent_entries h).1 ▸ mem, rfl⟩

/- The plan ids a boundary's record names. -/
def planIdsAt (l : Ledger) (b : Int) : List PlanId :=
  (l.entries b).map PlanEntry.planId ++ (l.rows b).map Row.planId

/- A filing takes no plan id out of any record. -/
theorem Filing.planIds (h : Filing l l') (b : Int) : planIdsAt l b ⊆ planIdsAt l' b := by
  intro p mem
  simp only [planIdsAt, List.mem_append] at mem ⊢
  cases h with
  | verdict h =>
    obtain ⟨rows, entries⟩ := writeExecRecord_keeps h
    rwa [rows, entries]
  | row unfilled bare h =>
    obtain ⟨rows, entries⟩ := appendSubmittedRow_rows h
    rw [entries, rows]
    refine mem.imp_right fun held => ?_
    split
    · subst b
      simp [List.mem_map.mp held]
    · exact held
  | entry h =>
    obtain ⟨rows, entries⟩ := appendPlanEntry_entries h
    rw [rows, entries]
    refine mem.imp_left fun held => ?_
    split
    · subst b
      simp [List.mem_map.mp held]
    · exact held
  | update balanced h =>
    obtain ⟨⟨rows, changed, stored⟩, entries⟩ := updateSubmittedRow_rows h
    rw [entries, stored]
    refine mem.imp_right fun held => ?_
    split
    · subst b
      have same := changeFirst_map (f := RowUpdate.apply _) (g := Row.planId) (fun _ => rfl) changed
      rwa [same]
    · exact held
  | intent h =>
    obtain ⟨rows, entry, intents, entries, -, -, placed, stored⟩ := updatePlanIntent_entries h
    rw [rows, stored]
    refine mem.imp_left fun held => ?_
    split
    · subst b
      have same := changeFirst_map (g := PlanEntry.planId) (fun entry => by simp) placed
      rwa [same]
    · exact held

-- the scanned window

theorem mem_readAll {bs : List Int} {docs : List (Int × ExecRecord)}
    (h : readAll l bs = some docs) {r : ExecRecord} (mem : b ∈ bs) (held : l b = some (.doc r)) :
    (b, r) ∈ docs := by
  induction bs generalizing docs with
  | nil => cases mem
  | cons c rest ih =>
    unfold readAll at h
    rcases List.mem_cons.mp mem with rfl | later
    · simp only [held] at h
      obtain ⟨tail, -, rfl⟩ := Option.map_eq_some_iff.mp h
      exact List.mem_cons_self
    · rcases hc : l c with _ | (r' | _) <;> simp only [hc] at h
      · exact ih h later
      · obtain ⟨tail, read, rfl⟩ := Option.map_eq_some_iff.mp h
        exact List.mem_cons_of_mem _ (ih read later)
      · cases h

theorem mem_boundariesOf (b : Int) : b ∈ boundariesOf (dayOfBoundary b) := by
  unfold boundariesOf
  rw [List.mem_map]
  refine ⟨(b % 24).toNat, List.mem_range.mpr (by omega), ?_⟩
  simp only [dayOfBoundary, hoursPerDay]
  omega

theorem mem_dayDirs {day : Int} {since : Option Int}
    (lower : dayOf (min (since.getD t) t) - 1 ≤ day) (upper : day ≤ dayOf t) :
    day ∈ dayDirs t since := by
  refine List.mem_map.mpr ⟨(dayOf t - day).toNat, List.mem_range.mpr ?_, by omega⟩
  cases since with
  | none =>
    simp only [Option.getD_none, min_self] at lower ⊢
    omega
  | some u =>
    simp only [Option.getD_some] at lower ⊢
    omega

/- From the day before the earlier of the two instants through today. -/
theorem mem_window {since : Option Int} (lower : dayOf (min (since.getD t) t) - 1 ≤ dayOfBoundary b)
    (upper : dayOfBoundary b ≤ dayOf t) : b ∈ (dayDirs t since).flatMap boundariesOf :=
  List.mem_flatMap.mpr ⟨_, mem_dayDirs lower upper, mem_boundariesOf b⟩

/- An open row of a record in the window is among the rows the scan answers. -/
theorem mem_openSubmittedRows {since : Option Int} {rows : List (Int × Row)}
    (read : openSubmittedRows t since l = some rows) {row : Row} (held : row ∈ l.rows b)
    (isOpen : row.state.isOpen = true)
    (lower : dayOf (min (since.getD t) t) - 1 ≤ dayOfBoundary b)
    (upper : dayOfBoundary b ≤ dayOf t) : (b, row) ∈ rows := by
  obtain ⟨docs, window, rfl⟩ := Option.map_eq_some_iff.mp read
  unfold Ledger.rows at held
  rcases hb : l b with _ | (r | _) <;> simp only [hb] at held
  · cases held
  · refine List.mem_flatMap.mpr ⟨(b, r), mem_readAll window (mem_window lower upper) hb, ?_⟩
    exact List.mem_map.mpr ⟨row, List.mem_filter.mpr ⟨held, isOpen⟩, rfl⟩
  · cases held

end LedgerLaws
