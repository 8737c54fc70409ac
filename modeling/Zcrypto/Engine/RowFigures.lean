import Zcrypto.Engine.Runs
import Zcrypto.Engine.Tracking

/- A row's figure is what its events say moved it, in every record a run leaves. -/
namespace RowFigures
open ProbePlans ExecGate ExecLedger LedgerLaws Effects Effects.Prog Controller Orders
  OrderEvents Sweeps Timer Footprint Tracking

/- Every row's figure stands within the tolerance of its events' total. -/
def Folded (l : Ledger) : Prop := ∀ b, ∀ row ∈ l.rows b, |gap row| ≤ tolerance

theorem tolerance_pos : 0 < tolerance := by
  unfold tolerance
  positivity

theorem folded_filing {l l' : Ledger} (h : Filing l l') (start : Folded l) : Folded l' := by
  intro b row mem
  rcases h.gap_rows mem with zero | ⟨old, held, same⟩
  · rw [zero, abs_zero]
    exact tolerance_pos.le
  · rw [same]
    exact start b old held

/- The record is the disk's, so a crash leaves it as a return does. -/
def FoldedDisk (s : St) : Prop := Folded s.disk.ledger

theorem folded_routine : Routine FoldedDisk FoldedDisk where
  ask := fun _ h => h
  dies := fun _ h => h
  blind := fun s t same h => by rwa [FoldedDisk, ledger_of_trading same]
  watched := fun _ _ _ h => h
  note := fun _ _ _ h => h
  run := fun _ _ _ h => h
  latch := fun _ h => h
  file := fun _ _ filed h => folded_filing filed h

theorem folded_lasting (e : Env) : Lasting e FoldedDisk FoldedDisk where
  toRoutine := folded_routine
  cleared := fun _ h => h
  edited := fun _ _ _ h => h
  submits := folded_routine.submits (fun _ _ h => h) (fun _ _ h => h)
  pulls := fun _ _ _ h => h
  accepted := fun _ _ _ _ _ _ _ h => h
  armed := fun _ _ h => h
  started := fun _ h => h.elim id id
  operated := folded_routine.blind

/- The report of a list of rows, against the figures the rows carry. -/
theorem credited_near_figures {l : Ledger} (h : Folded l) (rows : List (Int × Row))
    (held : ∀ x ∈ rows, x.2 ∈ l.rows x.1) {fills : List Fill} (read : extractFills rows = some fills) :
    |(rows.map fun x => x.2.filledQty).sum - creditedSum fills| ≤ rows.length * tolerance := by
  obtain ⟨parts, found, rfl⟩ := Option.map_eq_some_iff.mp read
  clear read
  induction rows generalizing parts with
  | nil =>
    simp only [List.mapM_nil, Option.pure_def, Option.some.injEq] at found
    subst found
    simp [creditedSum]
  | cons x rest ih =>
    simp only [List.mapM_cons, Option.pure_def, Option.bind_eq_bind, Option.bind_eq_some_iff,
      Option.some.injEq] at found
    obtain ⟨head, first, tail, later, rfl⟩ := found
    have near : |x.2.filledQty - creditedSum head| ≤ tolerance := by
      rw [credited_fillsOfRow first]
      exact h x.1 x.2 (held x (by simp))
    have far := ih (fun y mem => held y (List.mem_cons_of_mem x mem)) tail later
    rw [List.flatten_cons, creditedSum_append, List.map_cons, List.sum_cons, List.length_cons]
    push_cast
    calc |x.2.filledQty + (rest.map fun x => x.2.filledQty).sum
            - (creditedSum head + creditedSum tail.flatten)|
        = |(x.2.filledQty - creditedSum head)
            + ((rest.map fun x => x.2.filledQty).sum - creditedSum tail.flatten)| := by ring_nf
      _ ≤ |x.2.filledQty - creditedSum head|
            + |(rest.map fun x => x.2.filledQty).sum - creditedSum tail.flatten| := abs_add_le _ _
      _ ≤ tolerance + rest.length * tolerance := add_le_add near far
      _ = (rest.length + 1) * tolerance := by ring

def filledRow : Row := { blankRow with
  state := .filled, filledQty := 1
  events := [.fill
    { recordedAt := 0, qty := 1, px := 10, fee := none, feeCurrency := none, liquidity := "MAKER"
      tradeId := "t", venueOrderId := none, credited := none }] }

def filledLedger : Ledger :=
  store (fun _ => none) 0
    { evaluatedAt := 0, verdict := ExecGate.evaluate true false ⟨true, false, false, true, true⟩
      submitted := [filledRow], plans := [] }

end RowFigures
