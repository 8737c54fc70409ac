import Zcrypto.Panel.State
import Mathlib.Data.List.Dedup
import Mathlib.Data.List.Induction

/- Sweeps that are killed and taken up again. What a pair's outputs are is one fold over its hours, and what
   a panel holds of a pair, after any runs and kills, is the writes of that fold up to some point. -/
namespace Panel

section
variable {Sample Bytes : Type} (sampler : Sampler Sample Bytes)

def Output.carry (o : Output Sample) : Carry := ⟨some o.hour, some o.book, o.lastMsgTs⟩

def Output.writes (o : Output Sample) : List (Write Bytes) :=
  writeState o.hour o.book o.lastMsgTs :: writeHour sampler o.hour o.frame

def Verdict.output : Verdict Sample → Option (Output Sample)
  | .written output => some output
  | _ => none

/-- What a pair's hours come to from a carry. -/
def outputsFrom (carry : Carry) : List Segment → List (Output Sample)
  | [] => []
  | seg :: rest =>
    let next := processHour sampler carry seg
    next.2.output.toList ++ outputsFrom next.1 rest

def Carry.none : Carry := ⟨Option.none, Option.none, Option.none⟩

def Carry.Sound (carry : Carry) : Prop := ∀ b ∈ carry.book, b.Sound sampler.depth

def Ascending (segs : List Segment) : Prop := segs.Pairwise fun a b => a.hour < b.hour

variable {sampler} {carry : Carry} {seg : Segment} {segs rest : List Segment} {o : Output Sample}

theorem Verdict.writes_output (v : Verdict Sample) :
    v.writes sampler = v.output.toList.flatMap (Output.writes sampler) := by
  cases v with
  | written output => exact (List.append_nil _).symm
  | passed => rfl
  | outOfScope => rfl
  | skipped => rfl
  | unsettled => rfl
  | unanchored => rfl
  | failed error => rfl

/-- An hour is written and carried on, or nothing is carried on from it. -/
theorem processHour_cases (carry : Carry) (seg : Segment) :
    (∃ o, processHour sampler carry seg = (o.carry, .written o) ∧ o.hour = seg.hour ∧
      (carry.Sound sampler → o.book.Sound sampler.depth)) ∨
    ∃ v, processHour sampler carry seg = (⟨some seg.hour, none, none⟩, v) ∧ v.output = none := by
  unfold processHour
  dsimp only
  split
  · exact .inr ⟨_, rfl, rfl⟩
  · exact .inr ⟨_, rfl, rfl⟩
  · rename_i frame book lastMsgTs made
    refine .inl ⟨⟨seg.hour, frame, book, lastMsgTs⟩, rfl, rfl, fun sound => ?_⟩
    apply materializeHour_sound _ made
    intro b mem
    unfold Carry.upTo at mem
    split at mem
    · exact sound b mem
    · cases mem

/-- A pair's outputs hour by hour: the first one with what follows it, or those of the hours behind. -/
theorem outputsFrom_cons (carry : Carry) (seg : Segment) (rest : List Segment) :
    (∃ o, outputsFrom sampler carry (seg :: rest) = o :: outputsFrom sampler o.carry rest ∧
      o.hour = seg.hour ∧ (carry.Sound sampler → o.book.Sound sampler.depth)) ∨
    outputsFrom sampler carry (seg :: rest) = outputsFrom sampler ⟨some seg.hour, none, none⟩ rest := by
  rcases processHour_cases carry seg with ⟨o, made, hour, kept⟩ | ⟨v, made, empty⟩
  · refine .inl ⟨o, ?_, hour, kept⟩
    rw [outputsFrom, made]
    rfl
  · refine .inr ?_
    rw [outputsFrom, made, empty]
    rfl

theorem outputsFrom_hours (carry : Carry) (segs : List Segment) :
    ((outputsFrom sampler carry segs).map Output.hour).Sublist (segs.map Continuity.Segment.hour) := by
  induction segs generalizing carry with
  | nil => exact List.Sublist.refl _
  | cons seg rest ih =>
    rw [List.map_cons]
    rcases outputsFrom_cons carry seg rest with ⟨o, first, hour, -⟩ | later
    · rw [first, List.map_cons, hour]
      exact (ih o.carry).cons_cons _
    · rw [later]
      exact (ih _).cons _

theorem outputsFrom_sound (sound : carry.Sound sampler) (mem : o ∈ outputsFrom sampler carry segs) :
    o.book.Sound sampler.depth := by
  induction segs generalizing carry with
  | nil => cases mem
  | cons seg rest ih =>
    rcases outputsFrom_cons carry seg rest with ⟨w, first, -, kept⟩ | later
    · rw [first] at mem
      rcases List.mem_cons.mp mem with here | behind
      · exact here ▸ kept sound
      · refine ih ?_ behind
        intro b mem
        injection mem with same
        exact same ▸ kept sound
    · rw [later] at mem
      refine ih ?_ mem
      intro b none
      cases none

/-- What follows an output comes from its own carry and the hours behind it. -/
theorem outputs_after {done after : List (Output Sample)} (ascending : Ascending segs)
    (parted : outputsFrom sampler carry segs = done ++ o :: after) :
    outputsFrom sampler o.carry (segs.filter fun seg => o.hour < seg.hour) = after := by
  induction segs generalizing carry done with
  | nil =>
    cases done with
    | nil => cases parted
    | cons first others => cases parted
  | cons seg rest ih =>
    obtain ⟨above, ascending⟩ := List.pairwise_cons.mp ascending
    -- an output behind this hour is above it
    have passed : ∀ {carry : Carry} {done : List (Output Sample)},
        outputsFrom sampler carry rest = done ++ o :: after →
        outputsFrom sampler o.carry ((seg :: rest).filter fun seg => o.hour < seg.hour) = after := by
      intro carry done parted
      have mem : o.hour ∈ rest.map Continuity.Segment.hour := by
        apply (outputsFrom_hours carry rest).subset
        rw [parted]
        exact List.mem_map_of_mem (List.mem_append_right _ List.mem_cons_self)
      obtain ⟨other, inside, hour⟩ := List.mem_map.mp mem
      have below : ¬ o.hour < seg.hour := by
        have := above other inside
        omega
      rw [List.filter_cons_of_neg (by simpa using below)]
      exact ih ascending parted
    rcases outputsFrom_cons carry seg rest with ⟨w, first, hour, -⟩ | later
    · rw [first] at parted
      cases done with
      | nil =>
        injection parted with same behind
        subst same
        have all : (seg :: rest).filter (fun seg => w.hour < seg.hour) = rest := by
          rw [List.filter_cons_of_neg (by simp [hour]), List.filter_eq_self]
          intro other inside
          rw [hour]
          exact decide_eq_true (above other inside)
        rw [all]
        exact behind
      | cons head others =>
        injection parted with _ behind
        exact passed behind
    · rw [later] at parted
      exact passed parted

theorem outputsFrom_front {segs more : List Segment} (front : segs <+: more) (carry : Carry) :
    outputsFrom sampler carry segs <+: outputsFrom sampler carry more := by
  obtain ⟨rest, rfl⟩ := front
  induction segs generalizing carry with
  | nil => exact List.nil_prefix
  | cons seg segs ih =>
    rw [List.cons_append, outputsFrom, outputsFrom]
    exact (List.prefix_append_right_inj _).mpr (ih _)

/- The writes. -/

theorem writes_keys (o : Output Sample) :
    (o.writes sampler).map Prod.fst = [.state o.hour, .sidecar o.hour, .final o.hour] := rfl

theorem writes_distinct {outputs : List (Output Sample)}
    (ascending : (outputs.map Output.hour).Pairwise (· < ·)) :
    ((outputs.flatMap (Output.writes sampler)).map Prod.fst).Nodup := by
  rw [List.map_flatMap, List.nodup_flatMap]
  constructor
  · intro o _
    rw [writes_keys]
    simp
  · apply (List.pairwise_map.mp ascending).imp
    intro a b below file left right
    have left : file ∈ [.state a.hour, .sidecar a.hour, .final a.hour] := left
    have right : file ∈ [.state b.hour, .sidecar b.hour, .final b.hour] := right
    simp only [List.mem_cons, List.not_mem_nil, or_false] at left right
    rcases left with rfl | rfl | rfl
    · simp at right
      omega
    · simp at right
      omega
    · simp at right
      omega

/-- The writes as far as some point: those of whole outputs, and the beginning of the next one's. -/
theorem take_writes (outputs : List (Output Sample)) (n : Nat) :
    (outputs.flatMap (Output.writes sampler)).take n =
      (outputs.take (n / 3)).flatMap (Output.writes sampler) ++
        ((outputs.drop (n / 3)).flatMap (Output.writes sampler)).take (n % 3) := by
  induction outputs generalizing n with
  | nil => simp
  | cons o rest ih =>
    by_cases short : n < 3
    · rw [Nat.div_eq_of_lt short, Nat.mod_eq_of_lt short]
      rfl
    · obtain ⟨m, rfl⟩ : ∃ m, n = m + 3 := ⟨n - 3, by omega⟩
      have div : (m + 3) / 3 = m / 3 + 1 := by omega
      have mod : (m + 3) % 3 = m % 3 := by omega
      rw [div, mod, List.take_succ_cons, List.drop_succ_cons, List.flatMap_cons, List.flatMap_cons,
        List.append_assoc, ← ih]
      rfl

theorem replaceDurably_held {tree : Tree Bytes} {item : Write Bytes} (distinct : (tree.map Prod.fst).Nodup)
    (mem : item ∈ tree) : replaceDurably tree item = tree := by
  have there : (tree.any fun old => old.1 = item.1) = true := List.any_eq_true.mpr ⟨item, mem, by simp⟩
  rw [replaceDurably, if_pos there]
  calc
    (tree.map fun old => if old.1 = item.1 then item else old) = tree.map id := by
      apply List.map_congr_left
      intro old inside
      by_cases same : old.1 = item.1
      · rw [if_pos same]
        exact List.inj_on_of_nodup_map distinct mem inside same.symm
      · rw [if_neg same]
        rfl
    _ = tree := List.map_id _

theorem replaceDurably_new {tree : Tree Bytes} {item : Write Bytes} (absent : item.1 ∉ tree.map Prod.fst) :
    replaceDurably tree item = tree ++ [item] := by
  rw [replaceDurably, if_neg]
  intro there
  obtain ⟨old, mem, same⟩ := List.any_eq_true.mp there
  exact absent (of_decide_eq_true same ▸ List.mem_map_of_mem mem)

/-- Writes that were made up to a point, made again from before it, come to the same writes up to a later
    point. -/
theorem replace_take {S : List (Write Bytes)} (distinct : (S.map Prod.fst).Nodup) {n k : Nat} (below : k ≤ n)
    (m : Nat) : ((S.drop k).take m).foldl replaceDurably (S.take n) = S.take (max n (k + m)) := by
  induction m with
  | zero => rw [List.take_zero, List.foldl_nil, Nat.add_zero, Nat.max_eq_left below]
  | succ m ih =>
    rw [List.take_add_one, List.foldl_append, ih, List.getElem?_drop]
    cases next : S[k + m]? with
    | none =>
      have short := List.getElem?_eq_none_iff.mp next
      rw [List.take_of_length_le (by omega), List.take_of_length_le (by omega)]
      rfl
    | some item =>
      rw [Option.toList_some, List.foldl_cons, List.foldl_nil]
      have part : ((S.take (max n (k + m))).map Prod.fst).Nodup :=
        distinct.sublist ((List.take_sublist _ _).map _)
      by_cases inside : k + m < n
      · have mem : item ∈ S.take (max n (k + m)) := by
          apply List.mem_of_getElem? (i := k + m)
          rw [List.getElem?_take_of_lt (by omega), next]
        have same : max n (k + (m + 1)) = max n (k + m) := by omega
        rw [replaceDurably_held part mem, same]
      · have here : max n (k + m) = k + m := by omega
        have there : max n (k + (m + 1)) = k + m + 1 := by omega
        have whole : S.take (k + m + 1) = S.take (k + m) ++ [item] := by
          rw [List.take_add_one, next, Option.toList_some]
        have absent : item.1 ∉ (S.take (k + m)).map Prod.fst := by
          have longer : ((S.take (k + m + 1)).map Prod.fst).Nodup :=
            distinct.sublist ((List.take_sublist _ _).map _)
          rw [whole, List.map_append, List.nodup_append] at longer
          intro mem
          exact longer.2.2 _ mem item.1 (by simp) rfl
        rw [here, there, whole, replaceDurably_new absent]

/- Where a sweep takes a pair up. -/

theorem finals_writes (outputs : List (Output Sample)) :
    (outputs.flatMap (Output.writes sampler)).filterMap finalHour = outputs.map Output.hour := by
  induction outputs with
  | nil => rfl
  | cons o rest ih =>
    rw [List.flatMap_cons, List.filterMap_append, ih]
    rfl

/-- The first two writes of an output leave no final. -/
theorem finals_partial (outputs : List (Output Sample)) (n : Nat) :
    ((outputs.flatMap (Output.writes sampler)).take (n % 3)).filterMap finalHour = [] := by
  have few : n % 3 = 0 ∨ n % 3 = 1 ∨ n % 3 = 2 := by omega
  cases outputs with
  | nil => simp
  | cons o rest =>
    rcases few with none | one | two
    · rw [none]
      rfl
    · rw [one]
      rfl
    · rw [two]
      rfl

theorem max?_ascending {hours : List Int} {last : Int} (ascending : (hours ++ [last]).Pairwise (· < ·)) :
    (hours ++ [last]).max? = some last := by
  rw [List.max?_eq_some_iff]
  refine ⟨by simp, ?_⟩
  intro hour mem
  rcases List.mem_append.mp mem with before | here
  · have below := (List.pairwise_append.mp ascending).2.2 hour before last (by simp)
    omega
  · rw [List.mem_singleton.mp here]

/-- The writes of a pair's outputs, in a sweep over all of its hours. -/
def wholeWrites (sampler : Sampler Sample Bytes) (segs : List Segment) : List (Write Bytes) :=
  (outputsFrom sampler Carry.none segs).flatMap (Output.writes sampler)

/-- What a tree holds of a pair is the writes of its outputs up to some point. -/
def Held (sampler : Sampler Sample Bytes) (segs : List Segment) (tree : Tree Bytes) : Prop :=
  ∃ n, tree = (wholeWrites sampler segs).take n

/-- The hours that a sweep takes from where it takes a pair up. -/
def ahead (memory : Memory) (segs : List Segment) : List Segment :=
  segs.filter fun seg => !memory.watermark.any (seg.hour ≤ ·)

theorem none_sound : Carry.none.Sound sampler := by
  intro b mem
  cases mem

/-- A pair is taken up with what a sweep over all of its hours would carry there. -/
theorem resume_spec {outputs : List (Output Sample)} (ascending : Ascending segs)
    (whole : outputsFrom sampler Carry.none segs = outputs) (n : Nat) :
    outputsFrom sampler (resume sampler ((outputs.flatMap (Output.writes sampler)).take n)).carry
      (ahead (resume sampler ((outputs.flatMap (Output.writes sampler)).take n)) segs) =
        outputs.drop (n / 3) := by
  have hours : (outputs.map Output.hour).Pairwise (· < ·) := by
    rw [← whole]
    exact (List.pairwise_map.mpr ascending).sublist (outputsFrom_hours Carry.none segs)
  have finals : panelWatermark ((outputs.flatMap (Output.writes sampler)).take n) =
      ((outputs.take (n / 3)).map Output.hour).max? := by
    rw [panelWatermark, take_writes, List.filterMap_append, finals_writes, finals_partial, List.append_nil]
  cases reached : outputs.take (n / 3) using List.reverseRecOn with
  | nil =>
    have fresh : resume sampler ((outputs.flatMap (Output.writes sampler)).take n) =
        ⟨none, none, none, none⟩ := by
      rw [resume, finals, reached]
      rfl
    have all : ahead ⟨none, none, none, none⟩ segs = segs := by
      rw [ahead, List.filter_eq_self]
      exact fun _ _ => rfl
    have rest : outputs.drop (n / 3) = outputs := by
      have parted := List.take_append_drop (n / 3) outputs
      rw [reached] at parted
      exact parted
    rw [fresh, all, rest]
    exact whole
  | append_singleton before o =>
    have parted : outputs = before ++ o :: outputs.drop (n / 3) := by
      have parted := List.take_append_drop (n / 3) outputs
      rw [reached, List.append_assoc] at parted
      exact parted.symm
    have newest : panelWatermark ((outputs.flatMap (Output.writes sampler)).take n) = some o.hour := by
      rw [finals, reached, List.map_append]
      apply max?_ascending
      rw [← List.map_singleton, ← List.map_append, ← reached]
      exact hours.sublist ((List.take_sublist _ _).map _)
    have sound : o.book.Sound sampler.depth := by
      have mem : o ∈ outputsFrom sampler Carry.none segs := by
        rw [whole, parted]
        exact List.mem_append_right _ List.mem_cons_self
      exact outputsFrom_sound none_sound mem
    have kept : loadState sampler ((outputs.flatMap (Output.writes sampler)).take n) o.hour =
        (some o.book, o.lastMsgTs) := by
      apply loadState_written sound
      have distinct : (((outputs.flatMap (Output.writes sampler)).take n).map Prod.fst).Nodup :=
        (writes_distinct hours).sublist ((List.take_sublist _ _).map _)
      rw [Keyed.lookup_iff distinct, take_writes, reached, List.flatMap_append]
      apply List.mem_append_left
      apply List.mem_append_right
      exact List.mem_cons_self
    have taken : resume sampler ((outputs.flatMap (Output.writes sampler)).take n) =
        ⟨some o.hour, o.carry⟩ := by
      rw [resume, newest]
      simp only [kept]
      rfl
    have later : ahead ⟨some o.hour, o.carry⟩ segs = segs.filter fun seg => o.hour < seg.hour := by
      apply List.filter_congr
      intro seg _
      by_cases below : seg.hour ≤ o.hour
      · simp [below]
      · simp [below]
        omega
    rw [taken, later]
    apply outputs_after ascending
    rw [whole]
    exact parted

/- One pair's part of a sweep. -/

/-- What becomes of one pair's hours. -/
def pairSweep (sampler : Sampler Sample Bytes) (run : Run) (memory : Memory) :
    List Segment → List (Output Sample)
  | [] => []
  | seg :: rest =>
    let next := visitHour sampler run memory seg
    next.2.output.toList ++ pairSweep sampler run next.1 rest

section
variable {run : Run} {memory : Memory} {next : Carry} {v : Verdict Sample}

theorem visitHour_behind (behind : memory.watermark.any (seg.hour ≤ ·) = true) :
    visitHour sampler run memory seg = (memory, .skipped) := by
  rw [visitHour, if_pos behind]

theorem visitHour_unsettled (ahead : ¬ memory.watermark.any (seg.hour ≤ ·) = true)
    (early : ¬ settled run seg.hour = true) : visitHour sampler run memory seg = (memory, .unsettled) := by
  rw [visitHour, if_neg ahead, if_pos (by simpa using early)]

theorem visitHour_written (ahead : ¬ memory.watermark.any (seg.hour ≤ ·) = true)
    (ready : settled run seg.hour = true) (made : processHour sampler memory.carry seg = (next, .written o)) :
    visitHour sampler run memory seg = (⟨some seg.hour, next⟩, .written o) := by
  rw [visitHour, if_neg ahead, if_neg (by simpa using ready), made]

theorem visitHour_other (ahead : ¬ memory.watermark.any (seg.hour ≤ ·) = true)
    (ready : settled run seg.hour = true) (made : processHour sampler memory.carry seg = (next, v))
    (empty : v.output = none) : visitHour sampler run memory seg = (⟨memory.watermark, next⟩, v) := by
  rw [visitHour, if_neg ahead, if_neg (by simpa using ready), made]
  cases v with
  | written o => cases empty
  | _ => rfl

/-- The hours a run takes are the settled ones ahead of its watermark. -/
theorem pairSweep_eq (run : Run) (memory : Memory) (ascending : Ascending segs) :
    pairSweep sampler run memory segs =
      outputsFrom sampler memory.carry ((ahead memory segs).filter fun seg => settled run seg.hour) := by
  induction segs generalizing memory with
  | nil => rfl
  | cons seg rest ih =>
    obtain ⟨above, ascending⟩ := List.pairwise_cons.mp ascending
    rw [pairSweep]
    by_cases behind : memory.watermark.any (seg.hour ≤ ·) = true
    · have left : ahead memory (seg :: rest) = ahead memory rest :=
        List.filter_cons_of_neg (by simpa using behind)
      rw [visitHour_behind behind, left]
      exact ih memory ascending
    · have taken : ahead memory (seg :: rest) = seg :: ahead memory rest :=
        List.filter_cons_of_pos (by simpa using behind)
      rw [taken]
      by_cases ready : settled run seg.hour = true
      · rw [List.filter_cons_of_pos (p := fun seg : Segment => settled run seg.hour) ready, outputsFrom]
        rcases @processHour_cases _ _ sampler memory.carry seg with ⟨o, made, -⟩ | ⟨v, made, empty⟩
        · have same : ahead ⟨some seg.hour, o.carry⟩ rest = ahead memory rest := by
            apply List.filter_congr
            intro other inside
            have later := above other inside
            cases mark : memory.watermark with
            | none => simpa using later
            | some watermark =>
              rw [mark] at behind
              simp at behind ⊢
              omega
          rw [visitHour_written behind ready made, made]
          dsimp only
          rw [ih _ ascending, same]
        · rw [visitHour_other behind ready made empty, made]
          dsimp only
          rw [ih _ ascending]
          rfl
      · rw [List.filter_cons_of_neg (p := fun seg : Segment => settled run seg.hour) ready,
          visitHour_unsettled behind ready]
        exact ih memory ascending

/-- The settled hours come first. -/
theorem settled_front (run : Run) (ascending : Ascending segs) :
    (segs.filter fun seg => settled run seg.hour) <+: segs := by
  induction segs with
  | nil => exact List.nil_prefix
  | cons seg rest ih =>
    obtain ⟨above, ascending⟩ := List.pairwise_cons.mp ascending
    by_cases ready : settled run seg.hour = true
    · rw [List.filter_cons_of_pos (p := fun seg : Segment => settled run seg.hour) ready]
      exact (List.prefix_cons_inj seg).mpr (ih ascending)
    · have none : (seg :: rest).filter (fun seg => settled run seg.hour) = [] := by
        rw [List.filter_eq_nil_iff]
        intro other mem later
        apply ready
        unfold settled startOf at *
        rcases List.mem_cons.mp mem with here | behind
        · rw [← here]
          exact later
        · have := above other behind
          simp only [decide_eq_true_eq] at later ⊢
          omega
      rw [none]
      exact List.nil_prefix

end

/- The sweep, pair by pair. -/

/-- A run sweeps a pair that it names, or every pair where it names none. -/
def Run.covers (run : Run) (pair : String) : Bool := run.pair.all (· = pair)

/-- A pair's hours of an archive, as far as a run looks at them. -/
def Run.hours (run : Run) (pair : String) (segs : List Segment) : List Segment :=
  segs.filter fun seg => seg.pair = pair && !run.since.any (seg.hour < ·)

def writesOf (sampler : Sampler Sample Bytes) (pair : String) (verdicts : List (Segment × Verdict Sample)) :
    List (Write Bytes) :=
  (verdicts.filter fun item => item.1.pair = pair).flatMap fun item => item.2.writes sampler

theorem replaceAll_nil (root : Root Bytes) (pair : String) : root.replaceAll pair [] = root :=
  Function.update_eq_self pair root

theorem replaceAll_other {root : Root Bytes} {pair other : String} (differs : other ≠ pair)
    (writes : List (Write Bytes)) : root.replaceAll pair writes other = root other :=
  Function.update_of_ne differs _ _

theorem writesOf_cons (pair : String) (seg : Segment) (v : Verdict Sample)
    (rest : List (Segment × Verdict Sample)) :
    writesOf sampler pair ((seg, v) :: rest) =
      (if seg.pair = pair then v.writes sampler else []) ++ writesOf sampler pair rest := by
  unfold writesOf
  by_cases same : seg.pair = pair
  · rw [List.filter_cons_of_pos (by simpa using same), if_pos same, List.flatMap_cons]
  · rw [List.filter_cons_of_neg (by simpa using same), if_neg same, List.nil_append]

/-- An hour is passed over, or its pair's memory is moved on. -/
theorem visit_cases (run : Run) (root : Root Bytes) (memories : String → Option Memory) (seg : Segment) :
    (∃ v, visit sampler run root memories seg = (memories, v) ∧ v.output = none ∧
      ((run.covers seg.pair && inScope seg.pair) = true → run.since.any (seg.hour < ·) = true)) ∨
    ((run.covers seg.pair && inScope seg.pair) = true ∧ run.since.any (seg.hour < ·) = false ∧
      visit sampler run root memories seg =
        let next := visitHour sampler run ((memories seg.pair).getD (resume sampler (root seg.pair))) seg
        (Function.update memories seg.pair (some next.1), next.2)) := by
  unfold visit
  split
  · rename_i other
    refine .inl ⟨.passed, rfl, rfl, fun covers => ?_⟩
    have same := (Bool.and_eq_true_iff.mp covers).1
    unfold Run.covers at same
    cases asked : run.pair with
    | none =>
      rw [asked] at other
      cases other
    | some named =>
      rw [asked] at same other
      simp at same other
      exact absurd same other
  · rename_i covered
    have covers : run.covers seg.pair = true := by
      unfold Run.covers
      cases asked : run.pair with
      | none => rfl
      | some named =>
        rw [asked] at covered
        simpa using covered
    split
    · rename_i outside
      refine .inl ⟨.outOfScope, rfl, rfl, fun handled => ?_⟩
      rw [(Bool.and_eq_true_iff.mp handled).2] at outside
      cases outside
    · rename_i scope
      split
      · rename_i early
        exact .inl ⟨.passed, rfl, rfl, fun _ => early⟩
      · rename_i late
        refine .inr ⟨?_, by simpa using late, rfl⟩
        rw [covers]
        simpa using scope

/-- A sweep writes of a pair what the pair's own hours come to. -/
theorem sweep_pair (run : Run) (root : Root Bytes) (memories : String → Option Memory) (pair : String)
    (segs : List Segment) :
    writesOf sampler pair (sweep sampler run root memories segs) =
      if run.covers pair && inScope pair then
        (pairSweep sampler run ((memories pair).getD (resume sampler (root pair)))
          (run.hours pair segs)).flatMap (Output.writes sampler)
      else [] := by
  induction segs generalizing root memories with
  | nil =>
    split
    · rfl
    · rfl
  | cons seg rest ih =>
    rw [sweep]
    rcases @visit_cases _ _ sampler run root memories seg with ⟨v, visited, empty, early⟩ |
      ⟨handled, late, visited⟩
    · have idle : v.writes sampler = [] := by
        rw [Verdict.writes_output, empty]
        rfl
      rw [visited]
      dsimp only
      rw [idle, replaceAll_nil, writesOf_cons, idle, ite_self, List.nil_append, ih]
      split
      · rename_i handled
        have left : run.hours pair (seg :: rest) = run.hours pair rest := by
          apply List.filter_cons_of_neg
          by_cases same : seg.pair = pair
          · rw [← same] at handled
            simp [early handled]
          · simp [same]
        rw [left]
      · rfl
    · rw [visited]
      dsimp only
      rw [writesOf_cons, ih]
      by_cases same : seg.pair = pair
      · have taken : run.hours pair (seg :: rest) = seg :: run.hours pair rest :=
          List.filter_cons_of_pos (by simp [same, late])
        rw [← same] at taken ⊢
        rw [if_pos rfl, if_pos handled, if_pos handled, Function.update_self, Option.getD_some, taken,
          pairSweep, List.flatMap_append, Verdict.writes_output]
      · have left : run.hours pair (seg :: rest) = run.hours pair rest :=
          List.filter_cons_of_neg (by simp [same])
        have other : pair ≠ seg.pair := fun there => same there.symm
        rw [if_neg same, List.nil_append, left, Function.update_of_ne other, replaceAll_other other]

/- A panel. -/

theorem leave_pair (root : Root Bytes) (writes : List (String × Write Bytes)) (pair : String) :
    leave root writes pair =
      ((writes.filter fun item => item.1 = pair).map Prod.snd).foldl replaceDurably (root pair) := by
  induction writes generalizing root with
  | nil => rfl
  | cons item rest ih =>
    have step : leave root (item :: rest) pair = leave (root.replaceAll item.1 [item.2]) rest pair := rfl
    rw [step, ih]
    by_cases same : item.1 = pair
    · rw [List.filter_cons_of_pos (by simpa using same), List.map_cons, List.foldl_cons, ← same]
      unfold Root.replaceAll
      rw [Function.update_self]
      rfl
    · rw [List.filter_cons_of_neg (by simpa using same), replaceAll_other fun there => same there.symm]

theorem writes_pair (run : Run) (archive : Archive) (root : Root Bytes) (pair : String) :
    ((run.writes sampler archive root).filter fun item => item.1 = pair).map Prod.snd =
      if accepted archive root run then writesOf sampler pair (materialize sampler run archive root) else [] := by
  unfold Run.writes
  split
  · generalize materialize sampler run archive root = verdicts
    induction verdicts with
    | nil => rfl
    | cons item rest ih =>
      obtain ⟨seg, v⟩ := item
      rw [List.flatMap_cons, List.filter_append, List.map_append, ih, writesOf_cons]
      by_cases same : seg.pair = pair
      · rw [if_pos same, List.filter_map, List.map_map]
        have all : (v.writes sampler).filter ((fun item : String × Write Bytes => decide (item.1 = pair)) ∘
            fun write => (seg.pair, write)) = v.writes sampler := by
          rw [List.filter_eq_self]
          exact fun _ _ => decide_eq_true same
        rw [all]
        congr 1
        exact List.map_id _
      · have none : (v.writes sampler).filter ((fun item : String × Write Bytes => decide (item.1 = pair)) ∘
            fun write => (seg.pair, write)) = [] := by
          rw [List.filter_eq_nil_iff]
          exact fun _ _ here => same (of_decide_eq_true here)
        rw [if_neg same, List.filter_map, none]
        rfl
  · rfl

/-- The hours of a pair in an archive. -/
def hoursOf (archive : Archive) (pair : String) : List Segment :=
  archive.segments.filter fun seg => seg.pair = pair

theorem hoursOf_ascending (archive : Archive) (pair : String) : Ascending (hoursOf archive pair) := by
  have ordered := archive.ordered.sublist (List.filter_sublist (p := fun seg => seg.pair = pair))
  apply ordered.imp_of_mem
  intro a b left right order
  have first : a.pair = pair := of_decide_eq_true (List.mem_filter.mp left).2
  have second : b.pair = pair := of_decide_eq_true (List.mem_filter.mp right).2
  rcases order with ⟨-, below⟩ | before
  · exact below
  · rw [first, second] at before
    exact absurd before (String.lt_irrefl pair)

theorem resume_watermark (tree : Tree Bytes) : (resume sampler tree).watermark = panelWatermark tree := by
  unfold resume
  split
  · rename_i none
    exact none.symm
  · rename_i some
    exact some.symm

/-- An hour ahead of a pair's watermark is not before the hour its panel goes on from. -/
theorem openFrom_le {archive : Archive} {root : Root Bytes} {pair : String} {seg : Segment} {first : Int}
    (mem : seg ∈ hoursOf archive pair)
    (open_ : ¬ (resume sampler (root pair)).watermark.any (seg.hour ≤ ·) = true)
    (goes : openFrom archive root pair = some first) : first ≤ seg.hour := by
  rw [resume_watermark] at open_
  unfold openFrom at goes
  split at goes
  · rename_i watermark mark
    injection goes with same
    rw [mark] at open_
    simp at open_
    omega
  · exact (List.min?_eq_some_iff.mp goes).2 _ (List.mem_map_of_mem mem)

/-- A run that is accepted leaves no hour out that is ahead. -/
theorem hours_ahead {run : Run} {archive : Archive} {root : Root Bytes} {pair : String}
    (handled : (run.covers pair && inScope pair) = true) (fine : accepted archive root run = true) :
    ahead (resume sampler (root pair)) (run.hours pair archive.segments) =
      ahead (resume sampler (root pair)) (hoursOf archive pair) := by
  unfold ahead Run.hours hoursOf
  rw [List.filter_filter, List.filter_filter]
  apply List.filter_congr
  intro seg inside
  by_cases same : seg.pair = pair
  · by_cases behind : (resume sampler (root pair)).watermark.any (seg.hour ≤ ·) = true
    · simp [behind]
    · have late : run.since.any (seg.hour < ·) = false := by
        cases asked : run.since with
        | none => rfl
        | some since =>
          have mem : seg ∈ hoursOf archive pair := List.mem_filter.mpr ⟨inside, decide_eq_true same⟩
          have affected : pair ∈ affectedPairs archive run.pair := by
            unfold affectedPairs
            cases named : run.pair with
            | none =>
              rw [List.mem_dedup, List.mem_filter, ← same]
              exact ⟨List.mem_map_of_mem inside, by rw [same]; exact (Bool.and_eq_true_iff.mp handled).2⟩
            | some other =>
              have covers := (Bool.and_eq_true_iff.mp handled).1
              rw [Run.covers, named] at covers
              simp at covers
              simp [covers]
          have closed := (Bool.and_eq_true_iff.mp fine).2
          rw [opensHole, asked] at closed
          simp only [Option.any_some, Bool.not_eq_true', List.any_eq_false] at closed
          cases goes : openFrom archive root pair with
          | none =>
            unfold openFrom at goes
            split at goes
            · cases goes
            · have none := List.min?_eq_none_iff.mp goes
              rw [List.map_eq_nil_iff] at none
              have mem : seg ∈ archive.segments.filter fun seg => seg.pair = pair := mem
              rw [none] at mem
              cases mem
          | some first =>
            have le := openFrom_le mem behind goes
            have above := closed pair affected
            rw [goes] at above
            simp at above ⊢
            omega
      simp [same, late]
  · simp [same]

theorem wholeWrites_distinct (ascending : Ascending segs) :
    ((wholeWrites sampler segs).map Prod.fst).Nodup :=
  writes_distinct ((List.pairwise_map.mpr ascending).sublist (outputsFrom_hours Carry.none segs))

theorem drop_writes (outputs : List (Output Sample)) (k : Nat) :
    (outputs.flatMap (Output.writes sampler)).drop (3 * k) =
      (outputs.drop k).flatMap (Output.writes sampler) := by
  induction outputs generalizing k with
  | nil => simp
  | cons o rest ih =>
    cases k with
    | zero => rfl
    | succ k =>
      have more : 3 * (k + 1) = 3 * k + 3 := by omega
      rw [more, List.drop_succ_cons, ← ih]
      rfl

/-- What a run writes of a pair begins as the sweep over all of its hours goes on, and is all of it once
    every hour has settled. -/
theorem writesOf_rest {run : Run} {archive : Archive} {root : Root Bytes} {pair : String} {n : Nat}
    (held : root pair = (wholeWrites sampler (hoursOf archive pair)).take n)
    (handled : (run.covers pair && inScope pair) = true) (fine : accepted archive root run = true) :
    writesOf sampler pair (materialize sampler run archive root) <+:
        (wholeWrites sampler (hoursOf archive pair)).drop (3 * (n / 3)) ∧
      ((∀ seg ∈ hoursOf archive pair, settled run seg.hour = true) →
        writesOf sampler pair (materialize sampler run archive root) =
          (wholeWrites sampler (hoursOf archive pair)).drop (3 * (n / 3))) := by
  have ascending := hoursOf_ascending archive pair
  have looked : Ascending (run.hours pair archive.segments) := by
    have part : (run.hours pair archive.segments).Sublist (hoursOf archive pair) := by
      unfold Run.hours hoursOf
      apply List.monotone_filter_right
      intro seg both
      exact (Bool.and_eq_true_iff.mp both).1
    exact ascending.sublist part
  have written : writesOf sampler pair (materialize sampler run archive root) =
      (outputsFrom sampler (resume sampler (root pair)).carry
        ((ahead (resume sampler (root pair)) (hoursOf archive pair)).filter
          fun seg => settled run seg.hour)).flatMap (Output.writes sampler) := by
    rw [materialize, sweep_pair, if_pos handled, Option.getD_none, pairSweep_eq run _ looked,
      hours_ahead handled fine]
  have rest : outputsFrom sampler (resume sampler (root pair)).carry
      (ahead (resume sampler (root pair)) (hoursOf archive pair)) =
        (outputsFrom sampler Carry.none (hoursOf archive pair)).drop (n / 3) := by
    rw [held]
    exact resume_spec ascending rfl n
  have above : Ascending (ahead (resume sampler (root pair)) (hoursOf archive pair)) :=
    ascending.sublist List.filter_sublist
  rw [written, wholeWrites, drop_writes, ← rest]
  constructor
  · have front := @outputsFrom_front _ _ sampler _ _ (settled_front run above)
      (resume sampler (root pair)).carry
    obtain ⟨more, same⟩ := front
    rw [← same, List.flatMap_append]
    exact List.prefix_append _ _
  · intro all
    rw [List.filter_eq_self.mpr]
    intro seg mem
    exact all seg (List.mem_filter.mp mem).1

/-- A run, and after how many of its writes it is killed. -/
structure Session where
  run : Run
  kill : Nat

def Session.leaves (sampler : Sampler Sample Bytes) (archive : Archive) (root : Root Bytes) (s : Session) :
    Root Bytes := leave root ((s.run.writes sampler archive root).take s.kill)

/-- The panel after some runs, from an empty one. -/
def panelAfter (sampler : Sampler Sample Bytes) (archive : Archive) (sessions : List Session) : Root Bytes :=
  sessions.foldl (fun root s => s.leaves sampler archive root) fun _ => []

/-- The panel that a run leaves when nothing kills it. -/
def Run.finish (sampler : Sampler Sample Bytes) (archive : Archive) (run : Run) (root : Root Bytes) :
    Root Bytes := leave root (run.writes sampler archive root)

variable {archive : Archive} {root : Root Bytes} {pair : String}

/-- The writes of a run to a pair, made from where they were made up to before. -/
theorem held_replace {n : Nat} {writes : List (Write Bytes)}
    (held : root pair = (wholeWrites sampler (hoursOf archive pair)).take n)
    (front : writes <+: (wholeWrites sampler (hoursOf archive pair)).drop (3 * (n / 3))) :
    writes.foldl replaceDurably (root pair) =
      (wholeWrites sampler (hoursOf archive pair)).take (max n (3 * (n / 3) + writes.length)) := by
  have distinct := @wholeWrites_distinct _ _ sampler _ (hoursOf_ascending archive pair)
  rw [held, List.prefix_iff_eq_take.mp front, replace_take distinct (by omega)]
  congr 3
  rw [← List.prefix_iff_eq_take.mp front]

/-- A run killed anywhere leaves of each pair the writes of a whole sweep up to some point. -/
theorem held_leaves (held : Held sampler (hoursOf archive pair) (root pair)) (s : Session) :
    Held sampler (hoursOf archive pair) (s.leaves sampler archive root pair) := by
  obtain ⟨n, held⟩ := held
  have front : (((s.run.writes sampler archive root).take s.kill).filter fun item => item.1 = pair).map
      Prod.snd <+: (wholeWrites sampler (hoursOf archive pair)).drop (3 * (n / 3)) := by
    have cut : (((s.run.writes sampler archive root).take s.kill).filter fun item => item.1 = pair).map
        Prod.snd <+: ((s.run.writes sampler archive root).filter fun item => item.1 = pair).map Prod.snd := by
      have taken : (s.run.writes sampler archive root).take s.kill <+: s.run.writes sampler archive root :=
        List.take_prefix _ _
      exact (taken.filter _).map _
    apply cut.trans
    rw [writes_pair]
    split
    · rename_i fine
      by_cases handled : (s.run.covers pair && inScope pair) = true
      · exact (writesOf_rest held handled fine).1
      · rw [materialize, sweep_pair, if_neg handled]
        exact List.nil_prefix
    · exact List.nil_prefix
  have next := held_replace held front
  rw [← leave_pair] at next
  exact ⟨_, next⟩

theorem panelAfter_held (sampler : Sampler Sample Bytes) (archive : Archive) (sessions : List Session)
    (pair : String) : Held sampler (hoursOf archive pair) (panelAfter sampler archive sessions pair) := by
  have each : ∀ root : Root Bytes, Held sampler (hoursOf archive pair) (root pair) →
      Held sampler (hoursOf archive pair)
        (sessions.foldl (fun root s => s.leaves sampler archive root) root pair) := by
    induction sessions with
    | nil => exact fun _ held => held
    | cons s rest ih => exact fun root held => ih _ (held_leaves held s)
  exact each _ ⟨0, rfl⟩

/-- A run that is not killed, once every hour has settled, completes what was begun of each pair. -/
theorem finish_whole {run : Run} (held : Held sampler (hoursOf archive pair) (root pair))
    (settles : ∀ seg ∈ archive.segments, settled run seg.hour = true)
    (handled : (run.covers pair && inScope pair) = true) (fine : accepted archive root run = true) :
    run.finish sampler archive root pair = wholeWrites sampler (hoursOf archive pair) := by
  obtain ⟨n, held⟩ := held
  obtain ⟨front, rest⟩ := writesOf_rest held handled fine
  have all := rest fun seg mem => settles seg (List.mem_filter.mp mem).1
  rw [Run.finish, leave_pair, writes_pair, if_pos fine, held_replace held front, all]
  apply List.take_of_length_le
  rw [List.length_drop]
  omega

/-- A pair without a ladder is never written. -/
theorem writes_outside (run : Run) (root : Root Bytes) (outside : ¬ inScope pair = true) :
    ((run.writes sampler archive root).filter fun item => item.1 = pair).map Prod.snd = [] := by
  rw [writes_pair]
  split
  · rw [materialize, sweep_pair, if_neg fun handled => outside (Bool.and_eq_true_iff.mp handled).2]
  · rfl

theorem finish_outside (run : Run) (root : Root Bytes) (outside : ¬ inScope pair = true) :
    run.finish sampler archive root pair = root pair := by
  rw [Run.finish, leave_pair, writes_outside run root outside]
  rfl

theorem panelAfter_outside (sampler : Sampler Sample Bytes) (archive : Archive) (sessions : List Session)
    (outside : ¬ inScope pair = true) : panelAfter sampler archive sessions pair = [] := by
  have each : ∀ root : Root Bytes, root pair = [] →
      sessions.foldl (fun root s => s.leaves sampler archive root) root pair = [] := by
    induction sessions with
    | nil => exact fun _ empty => empty
    | cons s rest ih =>
      intro root empty
      apply ih
      have none := @writes_outside _ _ sampler archive _ s.run root outside
      have taken : (s.run.writes sampler archive root).take s.kill <+: s.run.writes sampler archive root :=
        List.take_prefix _ _
      have cut : (((s.run.writes sampler archive root).take s.kill).filter fun item => item.1 = pair).map
          Prod.snd <+: [] := none ▸ (taken.filter _).map _
      calc
        s.leaves sampler archive root pair = ([] : List (Write Bytes)).foldl replaceDurably (root pair) := by
          rw [Session.leaves, leave_pair, List.prefix_nil.mp cut]
        _ = [] := empty
  exact each _ rfl

/-- A run over every pair and every hour. -/
def Run.over (now settle : Int) : Run := ⟨now, settle, none, none⟩

/-- Once every hour has settled and a run has completed, the panel of every pair that the run covers is the
    one that a single sweep leaves in an empty panel, whatever runs came before and wherever they were
    killed. -/
theorem panel_resumed (sampler : Sampler Sample Bytes) (archive : Archive) (sessions : List Session)
    (last : Run) (now settle : Int) (fine : accepted archive (panelAfter sampler archive sessions) last = true)
    (settles : ∀ seg ∈ archive.segments, settled last seg.hour = true)
    (once : ∀ seg ∈ archive.segments, settled (Run.over now settle) seg.hour = true) (pair : String)
    (covers : last.covers pair = true) :
    last.finish sampler archive (panelAfter sampler archive sessions) pair =
      (Run.over now settle).finish sampler archive (fun _ => []) pair := by
  by_cases scope : inScope pair = true
  · have handled : (last.covers pair && inScope pair) = true := Bool.and_eq_true_iff.mpr ⟨covers, scope⟩
    rw [finish_whole (panelAfter_held sampler archive sessions pair) settles handled fine]
    exact (finish_whole ⟨0, rfl⟩ once scope rfl).symm
  · rw [finish_outside last _ scope, finish_outside (Run.over now settle) _ scope,
      panelAfter_outside sampler archive sessions scope]

end

/- Two anchored hours, and one behind a gap that opens with an update. -/

section

def aRow (type : String) (ts : Int) : Row :=
  ⟨ts, "A/EUR", type, none, "bid", some (.finite false 10 (-1)), some (.finite false 2 0)⟩

def threeHours : Archive :=
  ⟨[⟨"A/EUR", 0, [aRow "snapshot" 5], none⟩, ⟨"A/EUR", 1, [aRow "update" 3600000005], none⟩,
    ⟨"A/EUR", 3, [aRow "update" 10800000005], none⟩], by decide⟩

def countRows : Sampler Nat Nat :=
  ⟨fun bids _ _ _ _ => .ok (some bids.length), List.length, fun _ => "digest", 100⟩

theorem panel_resumed_killed :
    (Run.over 90000000000 0).finish countRows threeHours
        (panelAfter countRows threeHours [⟨Run.over 3600000000 0, 2⟩, ⟨Run.over 7200000000 0, 4⟩]) "A/EUR" =
      (Run.over 90000000000 0).finish countRows threeHours (fun _ => []) "A/EUR" :=
  panel_resumed countRows threeHours _ _ _ _ rfl (by decide) (by decide) "A/EUR" rfl

end

end Panel
