import Zcrypto.Capture.Moves

/- The pull of one stream's segments: files are copied one by one from a tree that its writer works
   on, nothing is ever deleted by a copy, every final is hashed or left to a later cycle, and the
   parts beside a final that verified are unlinked. A digest is the content it is of, and what a
   pull neither hashes nor unlinks (spills, merging files, files set aside) is left out. -/
namespace Pull
open Segments

/-- The mirrored files of one hour. -/
structure MirrorHour where
  parts : List File
  final : Option (List Row)
  sidecar : Option (List Row)
  deriving DecidableEq, Repr

def MirrorHour.blank : MirrorHour := ⟨[], none, none⟩

abbrev Mirror := Int → MirrorHour

/-- A file by its name. -/
inductive Name where
  | part (hour : Int) (seq : Nat)
  | final (hour : Int)
  | sidecar (hour : Int)
  deriving DecidableEq, Repr

/-- One file as it is at the source now, in the place of the one of its name. One that vanished
    leaves what was there. -/
def Mirror.copy (m : Mirror) (d : Disk) : Name → Mirror
  | .part hour seq =>
    match (d.files hour).parts.find? fun f => f.seq = seq with
    | some f => Function.update m hour
        { m hour with parts := (m hour).parts.filter (fun old => old.seq ≠ seq) ++ [f] }
    | none => m
  | .final hour =>
    match (d.files hour).final with
    | some rows => Function.update m hour { m hour with final := some rows }
    | none => m
  | .sidecar hour =>
    match (d.files hour).manifest with
    | some rows => Function.update m hour { m hour with sidecar := some rows }
    | none => m

/-- The finals that are hashed: all of them, or the transferred ones and one slice. -/
structure Scope where
  hashOnly : Option (List Int)
  rotationSlice : Nat

def Scope.hashes (scope : Scope) (sliceOf : Int → Nat) (hour : Int) : Bool :=
  scope.hashOnly.all fun names => hour ∈ names || sliceOf hour = scope.rotationSlice

def verifyManifest (h : MirrorHour) : Bool := h.final.isSome && h.sidecar = h.final

def verified (m : Mirror) (sliceOf : Int → Nat) (scope : Scope) (hour : Int) : Bool :=
  scope.hashes sliceOf hour && verifyManifest (m hour)

/-- An unlink that fails leaves its part. -/
def pruneStaleParts (m : Mirror) (finals : Int → Bool) (unlinks : Int → File → Bool) : Mirror :=
  fun hour => { m hour with parts := (m hour).parts.filter fun f => !(finals hour && unlinks hour f) }

/-- What a pull does after its copies. -/
structure Cycle where
  sliceOf : Int → Nat
  scope : Scope
  unlinks : Int → File → Bool

def Mirror.prune (m : Mirror) (c : Cycle) : Mirror :=
  pruneStaleParts m (verified m c.sliceOf c.scope) c.unlinks

/-- The writer's host and the mirror. -/
structure Setup where
  host : System
  mirror : Mirror

def Setup.blank : Setup := ⟨System.blank, fun _ => MirrorHour.blank⟩

/-- A pull is at work between any two changes of the tree. -/
inductive Meanwhile : Tape × Mirror → Tape × Mirror → Prop where
  | change {t t' : Tape} (m : Mirror) (move : Move t t') : Meanwhile (t, m) (t', m)
  | copy (t : Tape) (m : Mirror) (name : Name) : Meanwhile (t, m) (t, m.copy t.disk name)
  | prune (t : Tape) (m : Mirror) (c : Cycle) : Meanwhile (t, m) (t, m.prune c)

abbrev Interleaves := Relation.ReflTransGen Meanwhile

/-- A call of the writer, pulled from while it runs, or a pull between two calls. -/
inductive Course : Setup → Setup → Prop where
  | call (s : Setup) (w : World) (input : Input) (m : Mirror)
      (chain : Interleaves (s.host.tape, s.mirror) ((step w s.host input).tape, m)) :
      Course s ⟨step w s.host input, m⟩
  | copy (s : Setup) (name : Name) : Course s { s with mirror := s.mirror.copy s.host.tape.disk name }
  | prune (s : Setup) (c : Cycle) : Course s { s with mirror := s.mirror.prune c }

/-- A tree and a mirror that a history comes to, between two calls or within one. -/
inductive Passes (s : Setup) : Tape → Mirror → Prop where
  | between : Passes s s.host.tape s.mirror
  | within (w : World) (input : Input) {t : Tape} {m m' : Mirror}
      (before : Interleaves (s.host.tape, s.mirror) (t, m))
      (after : Interleaves (t, m) ((step w s.host input).tape, m')) : Passes s t m

end Pull
