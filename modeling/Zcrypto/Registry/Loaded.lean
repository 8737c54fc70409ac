import Zcrypto.Registry.Torn

/- What is read of a text is canonical, so its own text says what was read. -/
namespace Registry
open JsonText JsonText.Scan Fallible

section
variable {F : Type} {floats : Floats F}

def TidyFrame : Frame F → Prop
  | .arr earlier => ∀ v ∈ earlier, v.Canonical
  | .obj members | .member members _ => Sorted members

/-- A scan that has read canonical values. -/
structure Tidy (s : Scan F) : Prop where
  stack : ∀ frame ∈ s.stack, TidyFrame frame
  done : ∀ v, s.mode = .done v → v.Canonical

theorem allCanonical_iff {items : List (Value F)} : AllCanonical items ↔ ∀ v ∈ items, v.Canonical := by
  induction items with
  | nil => simp [AllCanonical]
  | cons v items ih => simp [AllCanonical, ih]

theorem tidy_mode {m : Mode F} {stack : List (Frame F)} {lossy : Bool}
    (tidy : ∀ frame ∈ stack, TidyFrame frame) (reading : ∀ v, m ≠ .done v) :
    Tidy (⟨m, stack, lossy⟩ : Scan F) :=
  ⟨tidy, fun v done => absurd done (reading v)⟩

theorem tidy_tail {frame : Frame F} {stack : List (Frame F)}
    (tidy : ∀ f ∈ frame :: stack, TidyFrame f) : ∀ f ∈ stack, TidyFrame f :=
  fun f mem => tidy f (List.mem_cons_of_mem _ mem)

theorem tidy_push {frame : Frame F} {stack : List (Frame F)} (first : TidyFrame frame)
    (tidy : ∀ f ∈ stack, TidyFrame f) : ∀ f ∈ frame :: stack, TidyFrame f := by
  intro f mem
  rcases List.mem_cons.mp mem with rfl | mem
  · exact first
  · exact tidy f mem

theorem deliver_tidy {stack : List (Frame F)} {lossy : Bool} {v : Value F}
    (tidy : ∀ frame ∈ stack, TidyFrame frame) (canonical : v.Canonical) :
    Tidy (deliver stack lossy v) := by
  unfold deliver
  rcases stack with _ | ⟨earlier | members | ⟨members, key⟩, outer⟩
  · refine ⟨tidy, ?_⟩
    rintro _ ⟨⟩
    exact canonical
  · refine tidy_mode (tidy_push ?_ (tidy_tail tidy)) (by simp)
    intro w mem
    rcases List.mem_cons.mp mem with rfl | mem
    · exact canonical
    · exact tidy (.arr earlier) List.mem_cons_self w mem
  · exact tidy_mode tidy (by simp)
  · have sorted : Sorted members := tidy (.member members key) List.mem_cons_self
    exact tidy_mode (tidy_push (sorted_put canonical sorted) (tidy_tail tidy)) (by simp)

theorem numberRead_canonical {phase : Phase} {read : List Char} {v : Value F}
    (number : numberRead floats phase read = some (some v)) : v.Canonical := by
  unfold numberRead at number
  split at number
  · cases number
    exact trivial
  · cases number
    exact trivial
  · simp only [Option.some.injEq, Option.map_eq_some_iff] at number
    obtain ⟨x, -, rfl⟩ := number
    exact trivial
  · simp only [Option.some.injEq, Option.map_eq_some_iff] at number
    obtain ⟨x, -, rfl⟩ := number
    exact trivial
  · cases number

theorem deliverNumber_tidy {stack : List (Frame F)} {lossy : Bool} {v : Option (Value F)}
    (tidy : ∀ frame ∈ stack, TidyFrame frame) (canonical : ∀ w, v = some w → w.Canonical) :
    Tidy (deliverNumber stack lossy v) := by
  cases v with
  | some v => exact deliver_tidy tidy (canonical v rfl)
  | none => exact deliver_tidy tidy trivial

theorem close_tidy {s : Scan F} (role : Role) (read : List Char)
    (tidy : ∀ frame ∈ s.stack, TidyFrame frame) : Tidy (s.close role read) := by
  cases role with
  | key => exact tidy_mode tidy (by simp)
  | value => exact deliver_tidy tidy trivial

theorem stepText_tidy {s t : Scan F} {role : Role} {read : List Char} {c : Char}
    (tidy : ∀ frame ∈ s.stack, TidyFrame frame) (stepped : s.stepText role read c = .ok t) : Tidy t := by
  unfold stepText at stepped
  repeat' split at stepped
  all_goals cases stepped
  · exact close_tidy role read tidy
  · exact tidy_mode tidy (by simp)
  · exact tidy_mode tidy (by simp)

theorem stepEscape_tidy {s t : Scan F} {role : Role} {read : List Char} {c : Char}
    (tidy : ∀ frame ∈ s.stack, TidyFrame frame) (stepped : s.stepEscape role read c = .ok t) : Tidy t := by
  unfold stepEscape at stepped
  repeat' split at stepped
  all_goals cases stepped
  all_goals exact tidy_mode tidy (by simp)

theorem unitRead_tidy {s : Scan F} (role : Role) (read : List Char) (high : Option Nat) (u : Nat)
    (tidy : ∀ frame ∈ s.stack, TidyFrame frame) : Tidy (s.unitRead role read high u) := by
  unfold unitRead
  repeat' split
  all_goals exact tidy_mode tidy (by simp)

theorem stepUnit_tidy {s t : Scan F} {role : Role} {read : List Char} {high : Option Nat}
    {digits : List Nat} {c : Char} (tidy : ∀ frame ∈ s.stack, TidyFrame frame)
    (stepped : s.stepUnit role read high digits c = .ok t) : Tidy t := by
  unfold stepUnit at stepped
  repeat' split at stepped
  all_goals cases stepped
  · exact unitRead_tidy role read high _ tidy
  · exact tidy_mode tidy (by simp)

theorem opens_tidy {s t : Scan F} {c : Char} (tidy : ∀ frame ∈ s.stack, TidyFrame frame)
    (stepped : s.opens c = .ok t) : Tidy t := by
  have object : TidyFrame (.obj [] : Frame F) := ⟨List.Pairwise.nil, trivial⟩
  have array : TidyFrame (.arr [] : Frame F) := fun _ mem => nomatch mem
  unfold opens at stepped
  repeat' split at stepped
  all_goals cases stepped
  all_goals first
    | exact tidy_mode tidy (by simp)
    | exact tidy_mode (tidy_push object tidy) (by simp)
    | exact tidy_mode (tidy_push array tidy) (by simp)

theorem stepAfter_tidy {s t : Scan F} {c : Char} (tidy : ∀ frame ∈ s.stack, TidyFrame frame)
    (stepped : s.stepAfter c = .ok t) : Tidy t := by
  unfold stepAfter at stepped
  split at stepped
  · rename_i earlier outer opened
    have items : ∀ v ∈ earlier, v.Canonical := tidy (.arr earlier) (by rw [opened]; exact List.mem_cons_self)
    repeat' split at stepped
    all_goals cases stepped
    · exact tidy_mode tidy (by simp)
    · refine deliver_tidy (tidy_tail (opened ▸ tidy)) ?_
      exact allCanonical_iff.mpr fun v mem => items v (List.mem_reverse.mp mem)
  · rename_i members outer opened
    have sorted : Sorted members := tidy (.obj members) (by rw [opened]; exact List.mem_cons_self)
    repeat' split at stepped
    all_goals cases stepped
    · exact tidy_mode tidy (by simp)
    · exact deliver_tidy (tidy_tail (opened ▸ tidy)) sorted
  · cases stepped

theorem stepRest_tidy {s t : Scan F} {c : Char} (tidy : Tidy s) (stepped : s.stepRest c = .ok t) :
    Tidy t := by
  unfold stepRest at stepped
  repeat' split at stepped
  · cases stepped
    exact tidy
  · exact stepAfter_tidy tidy.stack stepped
  · cases stepped
    exact tidy
  · cases stepped

theorem stepNumber_tidy {s t : Scan F} {phase : Phase} {read : List Char} {c : Char}
    (tidy : ∀ frame ∈ s.stack, TidyFrame frame) (stepped : s.stepNumber floats phase read c = .ok t) :
    Tidy t := by
  unfold stepNumber at stepped
  repeat' split at stepped
  · cases stepped
    exact tidy_mode tidy (by simp)
  · cases stepped
    exact tidy_mode tidy (by simp)
  · rename_i v number
    refine stepRest_tidy (deliverNumber_tidy tidy ?_) stepped
    rintro w rfl
    exact numberRead_canonical number
  · cases stepped

theorem stepLiteral_tidy {s t : Scan F} {rest : List Char} {what : Literal} {c : Char}
    (tidy : ∀ frame ∈ s.stack, TidyFrame frame) (stepped : s.stepLiteral rest what c = .ok t) : Tidy t := by
  unfold stepLiteral at stepped
  repeat' split at stepped
  all_goals cases stepped
  all_goals first
    | exact tidy_mode tidy (by simp)
    | exact deliver_tidy tidy trivial

theorem tidy_step {s t : Scan F} {c : Char} (tidy : Tidy s) (stepped : s.step floats c = .ok t) :
    Tidy t := by
  have opened := tidy.stack
  have below : ∀ frame ∈ s.stack.tail, TidyFrame frame :=
    fun frame mem => opened frame (List.mem_of_mem_tail mem)
  unfold step at stepped
  split at stepped
  case h_6 => exact stepRest_tidy tidy stepped
  case h_7 => exact stepRest_tidy tidy stepped
  case h_8 => exact stepText_tidy opened stepped
  case h_9 => exact stepEscape_tidy opened stepped
  case h_10 => exact stepUnit_tidy opened stepped
  case h_13 => exact stepNumber_tidy opened stepped
  case h_14 => exact stepLiteral_tidy opened stepped
  case h_1 mode =>
    split at stepped
    · cases stepped
      exact tidy
    · exact opens_tidy opened stepped
  case h_2 mode =>
    repeat' split at stepped
    · cases stepped
      exact tidy
    · cases stepped
      exact deliver_tidy below trivial
    · exact opens_tidy opened stepped
  case h_3 mode =>
    repeat' split at stepped
    all_goals cases stepped
    · exact tidy
    · exact deliver_tidy below ⟨List.Pairwise.nil, trivial⟩
    · exact tidy_mode opened (by simp)
  case h_4 mode =>
    repeat' split at stepped
    all_goals cases stepped
    · exact tidy
    · exact tidy_mode opened (by simp)
  case h_5 key mode =>
    repeat' split at stepped
    all_goals cases stepped
    · exact tidy
    · rename_i members outer opening
      have sorted : TidyFrame (.obj members) := opened _ (by rw [opening]; exact List.mem_cons_self)
      exact tidy_mode (tidy_push sorted (tidy_tail (opening ▸ opened))) (by simp)
  case h_11 =>
    split at stepped
    · cases stepped
      exact tidy_mode opened (by simp)
    · exact stepText_tidy (s := s.halved) opened stepped
  case h_12 =>
    split at stepped
    · cases stepped
      exact tidy_mode opened (by simp)
    · exact stepEscape_tidy (s := s.halved) opened stepped

theorem tidy_run {s t : Scan F} {text : List Char} (tidy : Tidy s) (ran : s.run floats text = .ok t) :
    Tidy t := by
  induction text generalizing s with
  | nil =>
    cases ran
    exact tidy
  | cons c rest ih =>
    rw [run_cons] at ran
    obtain ⟨mid, stepped, ran⟩ := bind_ok.mp ran
    exact ih (tidy_step tidy stepped) ran

theorem whole_canonical {s : Scan F} {v : Value F} (tidy : Tidy s) (whole : s.whole = .ok v) :
    v.Canonical := by
  unfold Scan.whole at whole
  split at whole
  · rename_i w mode
    split at whole
    · cases whole
    · cases whole
      exact tidy.done v mode
  · cases whole

theorem loads_canonical {text : List Char} {v : Value F} (read : loads floats text = .ok v) :
    v.Canonical := by
  unfold loads at read
  obtain ⟨s, ran, finished⟩ := bind_ok.mp read
  have started : Tidy (Scan.start : Scan F) := tidy_mode (by simp) (by simp)
  have tidy := tidy_run started ran
  unfold finish at finished
  split at finished
  · split at finished
    · rename_i number
      refine whole_canonical (deliverNumber_tidy tidy.stack ?_) finished
      rintro w rfl
      exact numberRead_canonical number
    · cases finished
  · exact whole_canonical tidy finished

/-- Canonical values of one text are the same. -/
theorem dumps_injective {v w : Value F} (left : v.Canonical) (right : w.Canonical)
    (same : dumps floats v = dumps floats w) : v = w := by
  have read : loads floats (dumps floats v) = .ok v := loads_dumps left
  rw [same, loads_dumps right] at read
  exact (Except.ok.inj read).symm

/- A record by its body and what the body leaves out. -/

theorem fieldOf_mem {members : List (String × Value F)} {key : String} {v : Value F}
    (is : fieldOf members key = some v) : (key, v) ∈ members := by
  obtain ⟨⟨k, w⟩, found, rfl⟩ := Option.map_eq_some_iff.mp is
  have same : k = key := by simpa using List.find?_some found
  rw [← same]
  exact List.mem_of_find?_eq_some found

theorem filter_above {members : List (String × Value F)} {key : String}
    (above : ∀ m ∈ members, Precedes key m.1) : members.filter (fun m => m.1 ≠ key) = members := by
  rw [List.filter_eq_self]
  intro m mem
  exact decide_eq_true (precedes_other (above m mem)).1

theorem put_above {members : List (String × Value F)} {key : String} (v : Value F)
    (above : ∀ m ∈ members, Precedes key m.1) : put key v members = (key, v) :: members := by
  cases members with
  | nil => rfl
  | cons m members =>
    obtain ⟨k, w⟩ := m
    have less := above (k, w) List.mem_cons_self
    rw [put, if_neg (precedes_other less).1.symm, if_pos less]

theorem put_filter {members : List (String × Value F)} {key : String} {v : Value F}
    (ascending : members.Pairwise fun a b => Precedes a.1 b.1) (is : fieldOf members key = some v) :
    put key v (members.filter fun m => m.1 ≠ key) = members := by
  induction members with
  | nil => cases is
  | cons m members ih =>
    obtain ⟨k, w⟩ := m
    obtain ⟨above, tail⟩ := List.pairwise_cons.mp ascending
    by_cases here : k = key
    · subst here
      have same : w = v := by simpa [fieldOf] using is
      rw [List.filter_cons_of_neg (by simp), filter_above above, put_above v above, same]
    · have there : fieldOf members key = some v := by simpa [fieldOf, here] using is
      have less : Precedes k key := above (key, v) (fieldOf_mem there)
      rw [List.filter_cons_of_pos (by simp [here]), put, if_neg (Ne.symm here),
        if_neg (precedes_other less).2, ih tail there]

theorem membersCanonical_filter {members : List (String × Value F)} (keep : String × Value F → Bool)
    (all : MembersCanonical members) : MembersCanonical (members.filter keep) := by
  induction members with
  | nil => exact trivial
  | cons m members ih =>
    obtain ⟨head, tail⟩ := all
    rw [List.filter_cons]
    split
    · exact ⟨head, ih tail⟩
    · exact ih tail

theorem sorted_filter {members : List (String × Value F)} (keep : String × Value F → Bool)
    (sorted : Sorted members) : Sorted (members.filter keep) :=
  ⟨sorted.1.filter keep, membersCanonical_filter keep sorted.2⟩

/-- Two records of one body, with the same under the key it leaves out, are the same. -/
theorem body_determines {members members' : List (String × Value F)} {key : String} {v : Value F}
    (sorted : Sorted members) (sorted' : Sorted members') (is : fieldOf members key = some v)
    (is' : fieldOf members' key = some v)
    (same : dumps floats (.obj (members.filter fun m => m.1 ≠ key)) =
      dumps floats (.obj (members'.filter fun m => m.1 ≠ key))) : members = members' := by
  have bodies := dumps_injective (sorted_filter _ sorted) (sorted_filter _ sorted') same
  have filtered : (members.filter fun m => m.1 ≠ key) = members'.filter fun m => m.1 ≠ key :=
    Value.obj.inj bodies
  rw [← put_filter sorted.1 is, filtered, put_filter sorted'.1 is']

end

end Registry
