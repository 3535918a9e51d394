/-
The prelude: programs that are evaluated before a session begins.

A prelude is a directory. Every entry whose name ends in `.lisp` is read as one program text, in the order of
the names, and its forms are evaluated in the session's frame. Loading stops at the first fault, and what was
evaluated until then stays. The files are asked for the directory and for every entry, and each lookup may be refused.
-/
import FrameLisp.Files.Tree
import FrameLisp.Program
import FrameLisp.Settings

namespace FrameLisp

/-- a cause for which a prelude is not loaded to its end -/
inductive LoadFault where
  /-- the setting is not empty and names no directory -/
  | noPath
  | missing (path : Path)
  /-- the system does not look the path up -/
  | refused (path : Path) (refusal : Refusal)
  | isDirectory (entry : Path)
  /-- the bytes of a file are no text -/
  | undecodable (file : Path)
  /-- a fault of the prelude's programs -/
  | program (fault : Fault)

def LoadFault.message : LoadFault → String
  | .noPath => "list index out of range"
  | .missing path => "Prelude directory not found: " ++ path.text
  | .refused path refusal => refusal.message ++ ": " ++ path.text
  | .isDirectory entry => "Is a directory: " ++ entry.text
  | .undecodable file => "Not a text: " ++ file.text
  | .program fault => fault.message

/-- loading, which can fail in more ways than evaluating -/
abbrev Load := Effect LoadFault

/-- what a session finds around it -/
structure Surroundings where
  settings : Settings
  files : Files
  /-- the prelude that is loaded when no other is set -/
  standardPrelude : Path
  limits : Limits := .standard

namespace Prelude

/-- the text of the standard prelude's only file -/
def standardText : String :=
  "(define identity (lambda (x) x))\n(define second (lambda (xs) (first (rest xs))))\n"

/-- the path that is set for the prelude: the first one -/
def path (s : Surroundings) : Except LoadFault Path :=
  match Settings.pathsOr [s.standardPrelude] s.settings.preludePath with
  | [] => .error .noPath
  | p :: _ => .ok p

/-- what is at a path of the files around a session -/
def lookup (s : Surroundings) (p : Path) : Except LoadFault (Option FileTree) :=
  match s.files.find p with
  | .ok found => .ok found
  | .error refusal => .error (.refused p refusal)

theorem lookup_eq_ok_iff {s : Surroundings} {p : Path} {found : Option FileTree} :
    lookup s p = .ok found ↔ s.files.find p = .ok found := by
  rw [lookup]
  cases s.files.find p <;> simp

theorem lookup_eq_error_iff {s : Surroundings} {p : Path} {fault : LoadFault} :
    lookup s p = .error fault ↔ ∃ refusal, s.files.find p = .error refusal ∧ .refused p refusal = fault := by
  rw [lookup]
  cases s.files.find p <;> simp

/-- the directory of the prelude: the path that is set, or its parent when there is something else than a directory -/
def directory (s : Surroundings) : Except LoadFault Path := do
  let p ← path s
  match ← lookup s p with
  | some (.file _) => return p.parent
  | _ => return p

/-- whether an entry of this name is part of a prelude -/
def isProgramName (name : String) : Bool := ".lisp".toList.isSuffixOf name.toList

/-- the names of the entries that are part of the prelude, in their order -/
def programs (entries : List (String × FileTree)) : List String :=
  ((entries.map Prod.fst).filter isProgramName).mergeSort fun a b => decide (a ≤ b)

/-- evaluates a program text in a frame -/
def evaluate (limits : Limits) (frame : FrameId) (source : String) : Load Unit :=
  (do
    let _ ← Program.run limits frame source
    pure ()).mapFault .program

/-- the program text of a file -/
def sourceOf (s : Surroundings) (file : Path) : Except LoadFault String := do
  match ← lookup s file with
  | none => .error (.missing file)
  | some (.directory ..) => .error (.isDirectory file)
  | some (.file bytes) =>
    match String.fromUTF8? bytes with
    | none => .error (.undecodable file)
    | some source => .ok source

/-- what a fault of a lookup says of the files; the other faults say nothing of them -/
def OfFiles (s : Surroundings) : LoadFault → Prop
  | .noPath | .program _ => False
  | .missing p =>
    ∃ found, s.files.find p = .ok found ∧ ∀ entries searchable, found ≠ some (.directory entries searchable)
  | .refused p refusal => s.files.find p = .error refusal
  | .isDirectory p => ∃ entries searchable, s.files.find p = .ok (some (.directory entries searchable))
  | .undecodable p => ∃ bytes, s.files.find p = .ok (some (.file bytes)) ∧ String.fromUTF8? bytes = none

theorem ofFiles_of_lookup {s : Surroundings} {p : Path} {fault : LoadFault} (h : lookup s p = .error fault) :
    OfFiles s fault := by
  obtain ⟨refusal, hfind, rfl⟩ := lookup_eq_error_iff.1 h
  exact hfind

/-- a directory is not found for want of a path or because a lookup is refused -/
theorem noPath_or_ofFiles_of_directory {s : Surroundings} {fault : LoadFault} (h : directory s = .error fault) :
    fault = .noPath ∨ OfFiles s fault := by
  rw [directory, path] at h
  split at h
  · cases h
    exact Or.inl rfl
  · next p _ _ =>
    simp only [bind, Except.bind] at h
    split at h
    · next e hlookup =>
      cases h
      exact Or.inr (ofFiles_of_lookup hlookup)
    · split at h <;> cases h

theorem ofFiles_of_sourceOf {s : Surroundings} {file : Path} {fault : LoadFault} (h : sourceOf s file = .error fault) :
    OfFiles s fault := by
  rw [sourceOf] at h
  cases hlookup : lookup s file with
  | error e =>
    rw [hlookup] at h
    cases h
    exact ofFiles_of_lookup hlookup
  | ok found =>
    have hfind := lookup_eq_ok_iff.1 hlookup
    simp only [hlookup, bind, Except.bind] at h
    split at h
    · cases h
      exact ⟨none, hfind, by simp⟩
    · next entries searchable =>
      cases h
      exact ⟨entries, searchable, hfind⟩
    · next bytes =>
      split at h
      · next hdecode =>
        cases h
        exact ⟨bytes, hfind, hdecode⟩
      · cases h

/-- evaluates the programs of a directory one after another -/
def loadEach (s : Surroundings) (frame : FrameId) (directory : Path) : List String → Load Unit
  | [] => pure ()
  | name :: names => do
    let file := directory.entry name
    Effect.note (.loading file)
    let source ← Effect.ofExcept (sourceOf s file)
    evaluate s.limits frame source
    loadEach s frame directory names

/-- loads the prelude into a frame -/
def load (s : Surroundings) (frame : FrameId) : Load Unit := do
  let directory ← Effect.ofExcept (directory s)
  match ← Effect.ofExcept (lookup s directory) with
  | some (.directory entries _) => loadEach s frame directory (programs entries)
  | _ => Effect.fail (.missing directory)

/-- loads the prelude into a frame if its directory is there -/
def loadIfPresent (s : Surroundings) (frame : FrameId) : Load Unit := fun w =>
  match load s frame w with
  | (.error (.missing path), w') => (.ok (), w'.note (.noPrelude (LoadFault.missing path).message))
  | other => other

section

variable {s : Surroundings} {frame : FrameId} {w w' : World}

/-- what is loaded where the directory is there -/
theorem load_eq {p : Path} {entries : List (String × FileTree)} {searchable : Bool} (hdirectory : directory s = .ok p)
    (hfind : s.files.find p = .ok (some (.directory entries searchable))) :
    load s frame = loadEach s frame p (programs entries) := by
  rw [load, hdirectory, Effect.ofExcept_ok, pure_bind, lookup, hfind]
  rfl

/-- a fault of the programs comes after the directory is found -/
theorem load_eq_program {fault : Fault} (h : load s frame w = (.error (.program fault), w')) :
    ∃ p entries searchable, directory s = .ok p ∧ s.files.find p = .ok (some (.directory entries searchable)) ∧
      loadEach s frame p (programs entries) w = (.error (.program fault), w') := by
  cases hdirectory : directory s with
  | error e =>
    rw [load, hdirectory] at h
    cases h
    rcases noPath_or_ofFiles_of_directory hdirectory with hpath | hfiles
    · cases hpath
    · exact hfiles.elim
  | ok p =>
    rw [load, hdirectory, Effect.ofExcept_ok, pure_bind] at h
    cases hlookup : lookup s p with
    | error e =>
      rw [hlookup] at h
      cases h
      exact (ofFiles_of_lookup hlookup).elim
    | ok found =>
      rw [hlookup, Effect.ofExcept_ok, pure_bind] at h
      split at h
      · next entries searchable => exact ⟨p, entries, searchable, rfl, lookup_eq_ok_iff.1 hlookup, h⟩
      · cases h

theorem loadIfPresent_ok (h : load s frame w = (.ok (), w')) : loadIfPresent s frame w = (.ok (), w') := by
  rw [loadIfPresent, h]

theorem loadIfPresent_missing {path : Path} (h : load s frame w = (.error (.missing path), w')) :
    loadIfPresent s frame w = (.ok (), w'.note (.noPrelude (LoadFault.missing path).message)) := by
  rw [loadIfPresent, h]

/-- every fault but a missing path ends the loading -/
theorem loadIfPresent_eq_error_iff {fault : LoadFault} :
    loadIfPresent s frame w = (.error fault, w') ↔
      load s frame w = (.error fault, w') ∧ ∀ path, fault ≠ .missing path := by
  rw [loadIfPresent]
  split
  · next path w₁ h =>
    rw [h]
    constructor
    · rintro ⟨⟩
    · rintro ⟨⟨⟩, hfault⟩
      exact absurd rfl (hfault path)
  · next hother =>
    refine ⟨fun h => ⟨h, ?_⟩, And.left⟩
    rintro path rfl
    exact hother path w' h

end

end Prelude

end FrameLisp
