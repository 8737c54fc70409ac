import Mathlib.Logic.Relation

/- Programs that read an environment, thread a state, and may raise or die. A raise
   keeps the state it happened in, so a handler sees every write made before it; a
   death is seen by no handler. The rules below are weakest preconditions over the
   three exits, and the assertions a program keeps whatever way it ends. -/
namespace Effects

inductive Outcome (α : Type) where
  | ok (a : α)
  | raised
  | died
  deriving DecidableEq, Repr

def Prog (ρ σ α : Type) := ρ → σ → Outcome α × σ

/- What is asked of each exit. -/
structure Post (σ α : Type) where
  ok : α → σ → Prop
  raised : σ → Prop
  died : σ → Prop

/- One assertion of a return and of a raise, and another of a death. -/
def Post.leaving {σ α : Type} (i d : σ → Prop) : Post σ α := ⟨fun _ => i, i, d⟩

abbrev Post.always {σ α : Type} (i : σ → Prop) : Post σ α := Post.leaving i i

namespace Prog
variable {ρ σ α β : Type}

def ret (a : α) : Prog ρ σ α := fun _ s => (.ok a, s)

def andThen (m : Prog ρ σ α) (k : α → Prog ρ σ β) : Prog ρ σ β := fun e s =>
  match m e s with
  | (.ok a, t) => k a e t
  | (.raised, t) => (.raised, t)
  | (.died, t) => (.died, t)

instance : Monad (Prog ρ σ) where
  pure := ret
  bind := andThen

def raise : Prog ρ σ α := fun _ s => (.raised, s)

/- The handler runs in the state the raise left. -/
def attempt (m handler : Prog ρ σ α) : Prog ρ σ α := fun e s =>
  match m e s with
  | (.ok a, t) => (.ok a, t)
  | (.raised, t) => handler e t
  | (.died, t) => (.died, t)

def get : Prog ρ σ σ := fun _ s => (.ok s, s)
def gets (f : σ → α) : Prog ρ σ α := fun _ s => (.ok (f s), s)
def env (f : ρ → α) : Prog ρ σ α := fun e s => (.ok (f e), s)
def modify (f : σ → σ) : Prog ρ σ Unit := fun _ s => (.ok (), f s)

def orRaise : Option α → Prog ρ σ α
  | some a => pure a
  | none => raise

def when (c : Prop) [Decidable c] (m : Prog ρ σ Unit) : Prog ρ σ Unit := if c then m else pure ()

def forSome : Option α → (α → Prog ρ σ Unit) → Prog ρ σ Unit
  | some a, f => f a
  | none, _ => pure ()

def forEach : List α → (α → Prog ρ σ Unit) → Prog ρ σ Unit
  | [], _ => pure ()
  | a :: rest, f => do
      f a
      forEach rest f

def collect : List α → (α → Prog ρ σ β) → Prog ρ σ (List β)
  | [], _ => pure []
  | a :: rest, f => do
      let b ← f a
      let more ← collect rest f
      pure (b :: more)

def final (m : Prog ρ σ α) (e : ρ) (s : σ) : σ := (m e s).2

def wp (e : ρ) (m : Prog ρ σ α) (Q : Post σ α) (s : σ) : Prop :=
  match m e s with
  | (.ok a, t) => Q.ok a t
  | (.raised, t) => Q.raised t
  | (.died, t) => Q.died t

section
variable {e : ρ} {Q : Post σ α} {s : σ}

@[simp] theorem wp_pure (a : α) : wp e (pure a : Prog ρ σ α) Q s ↔ Q.ok a s := Iff.rfl
@[simp] theorem wp_raise : wp e (raise : Prog ρ σ α) Q s ↔ Q.raised s := Iff.rfl
@[simp] theorem wp_get {Q : Post σ σ} : wp e get Q s ↔ Q.ok s s := Iff.rfl
@[simp] theorem wp_gets (f : σ → α) : wp e (gets f) Q s ↔ Q.ok (f s) s := Iff.rfl
@[simp] theorem wp_env (f : ρ → α) : wp e (env f) Q s ↔ Q.ok (f e) s := Iff.rfl
@[simp] theorem wp_modify (f : σ → σ) {Q : Post σ Unit} :
    wp e (modify f) Q s ↔ Q.ok () (f s) := Iff.rfl

@[simp] theorem wp_bind (m : Prog ρ σ α) (k : α → Prog ρ σ β) {Q : Post σ β} :
    wp e (m >>= k) Q s ↔ wp e m ⟨fun a t => wp e (k a) Q t, Q.raised, Q.died⟩ s := by
  show wp e (andThen m k) Q s ↔ _
  unfold wp andThen
  rcases m e s with ⟨_ | _ | _, t⟩ <;> rfl

@[simp] theorem wp_attempt (m h : Prog ρ σ α) :
    wp e (attempt m h) Q s ↔ wp e m ⟨Q.ok, fun t => wp e h Q t, Q.died⟩ s := by
  unfold wp attempt
  rcases m e s with ⟨_ | _ | _, t⟩ <;> rfl

@[simp] theorem wp_ite (c : Prop) [Decidable c] (m n : Prog ρ σ α) :
    wp e (if c then m else n) Q s ↔ if c then wp e m Q s else wp e n Q s := by
  split <;> rfl

@[simp] theorem wp_when (c : Prop) [Decidable c] (m : Prog ρ σ Unit) {Q : Post σ Unit} :
    wp e (when c m) Q s ↔ if c then wp e m Q s else Q.ok () s := by
  unfold when
  split <;> rfl

@[simp] theorem wp_orRaise (o : Option α) :
    wp e (orRaise o : Prog ρ σ α) Q s ↔
      (∀ a, o = some a → Q.ok a s) ∧ (o = none → Q.raised s) := by
  cases o <;> simp [orRaise]

@[simp] theorem wp_forSome (o : Option β) (f : β → Prog ρ σ Unit) {Q : Post σ Unit} :
    wp e (forSome o f) Q s ↔
      (∀ a, o = some a → wp e (f a) Q s) ∧ (o = none → Q.ok () s) := by
  cases o <;> simp [forSome]

/- A program that reads its environment once more to say which program it is. -/
theorem wp_reader (m : ρ → Prog ρ σ α) : wp e (fun r => m r r) Q s ↔ wp e (m e) Q s := Iff.rfl

theorem wp_mono {m : Prog ρ σ α} {Q' : Post σ α} (h : wp e m Q s)
    (onReturn : ∀ a t, Q.ok a t → Q'.ok a t) (onRaise : ∀ t, Q.raised t → Q'.raised t)
    (onDeath : ∀ t, Q.died t → Q'.died t) : wp e m Q' s := by
  unfold wp at *
  generalize m e s = x at *
  rcases x with ⟨a | _ | _, t⟩
  · exact onReturn a t h
  · exact onRaise t h
  · exact onDeath t h

/- What a run came to, as the run itself. -/
theorem wp_runs (m : Prog ρ σ α) : wp e m ⟨fun a t => m e s = (.ok a, t),
    fun t => m e s = (.raised, t), fun t => m e s = (.died, t)⟩ s := by
  unfold wp
  rcases m e s with ⟨_ | _ | _, t⟩ <;> rfl

theorem wp_both {m : Prog ρ σ α} {Q' : Post σ α} (h : wp e m Q s) (h' : wp e m Q' s) :
    wp e m ⟨fun a t => Q.ok a t ∧ Q'.ok a t, fun t => Q.raised t ∧ Q'.raised t,
      fun t => Q.died t ∧ Q'.died t⟩ s := by
  unfold wp at *
  generalize m e s = x at *
  rcases x with ⟨a | _ | _, t⟩ <;> exact ⟨h, h'⟩

theorem wp_always {m : Prog ρ σ α} {i : σ → Prop} :
    wp e m (Post.always i) s ↔ i (final m e s) := by
  unfold wp final Post.always Post.leaving
  generalize m e s = x
  rcases x with ⟨a | _ | _, t⟩ <;> rfl

end

/- An assertion kept by every run of a program that returns or raises, and one left by
   every run that dies. -/
def Leaves (e : ρ) (i d : σ → Prop) (m : Prog ρ σ α) : Prop :=
  ∀ s, i s → wp e m (Post.leaving i d) s

abbrev Keeps (e : ρ) (i : σ → Prop) (m : Prog ρ σ α) : Prop := Leaves e i i m

section
variable {e : ρ} {i d : σ → Prop}

theorem Leaves.elim {m : Prog ρ σ α} {Q : Post σ α} {s : σ} (h : Leaves e i d m) (start : i s)
    (onReturn : ∀ a t, i t → Q.ok a t) (onRaise : ∀ t, i t → Q.raised t)
    (onDeath : ∀ t, d t → Q.died t) : wp e m Q s :=
  wp_mono (h s start) onReturn onRaise onDeath

theorem Keeps.final {m : Prog ρ σ α} {s : σ} (h : Keeps e i m) (start : i s) :
    i (final m e s) :=
  wp_always.mp (h s start)

theorem keeps_pure (a : α) : Leaves e i d (pure a : Prog ρ σ α) := fun _ start => start
theorem keeps_raise : Leaves e i d (raise : Prog ρ σ α) := fun _ start => start
theorem keeps_get : Leaves e i d (get : Prog ρ σ σ) := fun _ start => start
theorem keeps_gets (f : σ → α) : Leaves e i d (gets f : Prog ρ σ α) := fun _ start => start
theorem keeps_env (f : ρ → α) : Leaves e i d (env f : Prog ρ σ α) := fun _ start => start

theorem keeps_orRaise (o : Option α) : Leaves e i d (orRaise o : Prog ρ σ α) := by
  intro s start
  cases o <;> exact start

theorem keeps_modify {f : σ → σ} (h : ∀ s, i s → i (f s)) :
    Leaves e i d (modify f : Prog ρ σ Unit) :=
  fun s start => h s start

theorem keeps_bind {m : Prog ρ σ α} {k : α → Prog ρ σ β}
    (first : Leaves e i d m) (rest : ∀ a, Leaves e i d (k a)) : Leaves e i d (m >>= k) := by
  intro s start
  rw [wp_bind]
  exact first.elim start (fun a t h => rest a t h) (fun _ h => h) (fun _ h => h)

theorem keeps_attempt {m h : Prog ρ σ α}
    (body : Leaves e i d m) (handler : Leaves e i d h) : Leaves e i d (attempt m h) := by
  intro s start
  rw [wp_attempt]
  exact body.elim start (fun _ _ h => h) (fun t h => handler t h) (fun _ h => h)

theorem keeps_ite {c : Prop} [Decidable c] {m n : Prog ρ σ α}
    (yes : c → Leaves e i d m) (no : ¬c → Leaves e i d n) : Leaves e i d (if c then m else n) := by
  split
  · exact yes ‹_›
  · exact no ‹_›

theorem keeps_when {c : Prop} [Decidable c] {m : Prog ρ σ Unit} (yes : Leaves e i d m) :
    Leaves e i d (when c m) :=
  keeps_ite (fun _ => yes) (fun _ => keeps_pure ())

theorem keeps_forSome {o : Option α} {f : α → Prog ρ σ Unit} (each : ∀ a, Leaves e i d (f a)) :
    Leaves e i d (forSome o f) := by
  cases o with
  | none => exact keeps_pure ()
  | some a => exact each a

theorem keeps_forEach {xs : List α} {f : α → Prog ρ σ Unit}
    (each : ∀ a, Leaves e i d (f a)) : Leaves e i d (forEach xs f) := by
  induction xs with
  | nil => exact keeps_pure ()
  | cons a rest ih => exact keeps_bind (each a) fun _ => ih

theorem keeps_forEach_mem {xs : List α} {f : α → Prog ρ σ Unit}
    (each : ∀ a ∈ xs, Leaves e i d (f a)) : Leaves e i d (forEach xs f) := by
  induction xs with
  | nil => exact keeps_pure ()
  | cons a rest ih =>
    apply keeps_bind (each a List.mem_cons_self)
    intro _
    exact ih fun b mem => each b (List.mem_cons_of_mem a mem)

theorem keeps_gets_bind {g : σ → α} {k : α → Prog ρ σ β}
    (rest : ∀ s, i s → wp e (k (g s)) (Post.leaving i d) s) : Leaves e i d (gets g >>= k) := by
  intro s start
  rw [wp_bind, wp_gets]
  exact rest s start

theorem keeps_collect {xs : List α} {f : α → Prog ρ σ β}
    (each : ∀ a, Leaves e i d (f a)) : Leaves e i d (collect xs f) := by
  induction xs with
  | nil => exact keeps_pure []
  | cons a rest ih =>
    exact keeps_bind (each a) fun _ => keeps_bind ih fun _ => keeps_pure _

theorem keeps_reader (m : ρ → Prog ρ σ α) (h : Leaves e i d (m e)) : Leaves e i d (fun r => m r r) :=
  fun s start => (wp_reader m).mpr (h s start)

/- From one assertion to another: `j` on a return, `r` on a raise, `d` on a death. -/
def Leads (e : ρ) (i j r d : σ → Prop) (m : Prog ρ σ α) : Prop :=
  ∀ s, i s → wp e m ⟨fun _ => j, r, d⟩ s

variable {j r : σ → Prop}

theorem Leaves.leads {m : Prog ρ σ α} (h : Leaves e i d m) (onReturn : ∀ s, i s → j s)
    (onRaise : ∀ s, i s → r s) : Leads e i j r d m :=
  fun _ start => h.elim start (fun _ t kept => onReturn t kept) onRaise (fun _ dead => dead)

theorem Leads.weaken {m : Prog ρ σ α} {i' j' r' : σ → Prop} (h : Leads e i j r d m)
    (start : ∀ s, i' s → i s) (onReturn : ∀ s, j s → j' s) (onRaise : ∀ s, r s → r' s) :
    Leads e i' j' r' d m :=
  fun s held => wp_mono (h s (start s held)) (fun _ => onReturn) onRaise (fun _ dead => dead)

theorem leads_bind {m : Prog ρ σ α} {k : α → Prog ρ σ β} {i' : σ → Prop}
    (first : Leads e i i' r d m) (rest : ∀ a, Leads e i' j r d (k a)) :
    Leads e i j r d (m >>= k) := by
  intro s start
  rw [wp_bind]
  exact wp_mono (first s start) (fun a t held => rest a t held) (fun _ held => held)
    (fun _ dead => dead)

theorem leads_attempt {m h : Prog ρ σ α} {r' : σ → Prop} (body : Leads e i j r' d m)
    (handler : Leads e r' j r d h) : Leads e i j r d (attempt m h) := by
  intro s start
  rw [wp_attempt]
  exact wp_mono (body s start) (fun _ _ held => held) (fun t held => handler t held)
    (fun _ dead => dead)

theorem leads_ite {c : Prop} [Decidable c] {m n : Prog ρ σ α} (yes : c → Leads e i j r d m)
    (no : ¬c → Leads e i j r d n) : Leads e i j r d (if c then m else n) := by
  split
  · exact yes ‹_›
  · exact no ‹_›

theorem leads_when {c : Prop} [Decidable c] {m : Prog ρ σ Unit} (yes : c → Leads e i j r d m)
    (no : ¬c → ∀ s, i s → j s) : Leads e i j r d (when c m) :=
  leads_ite yes fun not s start => no not s start

theorem leads_forEach {xs : List α} {f : α → Prog ρ σ Unit} (each : ∀ a, Leads e i i r d (f a)) :
    Leads e i i r d (forEach xs f) := by
  induction xs with
  | nil => exact fun _ start => start
  | cons a rest ih => exact leads_bind (each a) fun _ => ih

theorem leads_forEach_mem {xs : List α} {f : α → Prog ρ σ Unit}
    (each : ∀ a ∈ xs, Leads e i i r d (f a)) : Leads e i i r d (forEach xs f) := by
  induction xs with
  | nil => exact fun _ start => start
  | cons a rest ih =>
    apply leads_bind (each a List.mem_cons_self)
    intro _
    exact ih fun b mem => each b (List.mem_cons_of_mem a mem)

theorem leads_modify {f : σ → σ} (h : ∀ s, i s → j (f s)) :
    Leads e i j r d (modify f : Prog ρ σ Unit) :=
  fun s start => h s start

theorem leads_gets_bind {f : σ → α} {k : α → Prog ρ σ β}
    (rest : ∀ s, i s → wp e (k (f s)) ⟨fun _ => j, r, d⟩ s) : Leads e i j r d (gets f >>= k) := by
  intro s start
  rw [wp_bind, wp_gets]
  exact rest s start

theorem leads_get_bind {k : σ → Prog ρ σ β}
    (rest : ∀ s, i s → wp e (k s) ⟨fun _ => j, r, d⟩ s) : Leads e i j r d (get >>= k) := by
  intro s start
  rw [wp_bind, wp_get]
  exact rest s start

/- What each step of a loop brings about and no other undoes. -/
theorem wp_forEach_each {xs : List α} {f : α → Prog ρ σ Unit} {P : α → σ → Prop}
    (each : ∀ a ∈ xs, ∀ s, i s → wp e (f a) ⟨fun _ t => i t ∧ P a t ∧ ∀ b, P b s → P b t, r, d⟩ s)
    {s : σ} (start : i s) :
    wp e (forEach xs f) ⟨fun _ t => i t ∧ (∀ a ∈ xs, P a t) ∧ ∀ b, P b s → P b t, r, d⟩ s := by
  induction xs generalizing s with
  | nil => exact ⟨start, by simp, fun _ h => h⟩
  | cons a rest ih =>
    unfold forEach
    rw [wp_bind]
    apply wp_mono (each a List.mem_cons_self s start)
    · rintro _ t ⟨kept, own, others⟩
      apply wp_mono (ih (fun x mem => each x (List.mem_cons_of_mem a mem)) kept)
      · rintro _ t' ⟨kept', all, still⟩
        refine ⟨kept', ?_, fun b h => still b (others b h)⟩
        intro x mem
        rcases List.mem_cons.mp mem with rfl | later
        · exact still x own
        · exact all x later
      · exact fun _ h => h
      · exact fun _ h => h
    · exact fun _ h => h
    · exact fun _ h => h

/- What is collected is related to what it was collected for, either way. -/
theorem wp_collect {xs : List α} {f : α → Prog ρ σ β} {P : α → β → Prop}
    (each : ∀ a ∈ xs, ∀ s, i s → wp e (f a) ⟨fun b t => i t ∧ P a b, r, d⟩ s) {s : σ} (start : i s) :
    wp e (collect xs f) ⟨fun bs t => i t ∧ (∀ b ∈ bs, ∃ a ∈ xs, P a b) ∧ ∀ a ∈ xs, ∃ b ∈ bs, P a b,
      r, d⟩ s := by
  induction xs generalizing s with
  | nil => exact ⟨start, by simp, by simp⟩
  | cons a rest ih =>
    unfold collect
    rw [wp_bind]
    apply wp_mono (each a List.mem_cons_self s start)
    · rintro b t ⟨kept, related⟩
      dsimp only
      rw [wp_bind]
      apply wp_mono (ih (fun x mem => each x (List.mem_cons_of_mem a mem)) kept)
      · rintro bs t ⟨kept, back, forth⟩
        refine ⟨kept, ?_, ?_⟩
        · intro x mem
          rcases List.mem_cons.mp mem with rfl | later
          · exact ⟨a, List.mem_cons_self, related⟩
          · obtain ⟨y, inside, holds⟩ := back x later
            exact ⟨y, List.mem_cons_of_mem a inside, holds⟩
        · intro y mem
          rcases List.mem_cons.mp mem with rfl | later
          · exact ⟨b, List.mem_cons_self, related⟩
          · obtain ⟨x, inside, holds⟩ := forth y later
            exact ⟨x, List.mem_cons_of_mem b inside, holds⟩
      · exact fun _ h => h
      · exact fun _ h => h
    · exact fun _ h => h
    · exact fun _ h => h

/- A program whose result the rest reads: the state it read is the current one. -/
theorem keeps_get_bind {k : σ → Prog ρ σ β}
    (rest : ∀ s, i s → wp e (k s) (Post.leaving i d) s) : Leaves e i d (get >>= k) := by
  intro s start
  rw [wp_bind, wp_get]
  exact rest s start

end

end Prog
end Effects
