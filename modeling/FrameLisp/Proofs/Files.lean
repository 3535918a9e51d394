/-
What a lookup of a path comes to.

A walk takes one step for each name (`FileTree.walk_step`) and goes on from where the names have led so far
(`FileTree.walk_concat`), so what is at the path of an entry depends only on what is at the path of the directory
(`Files.find_entry`). It never leaves the tree (`FileTree.Encloses`), and it can be refused for two reasons only: a name
or the whole path is too long, or a directory of the tree may not be searched (`Files.refuses_of_find`).
-/
import FrameLisp.Files.Tree
import Mathlib.Tactic

namespace FrameLisp

namespace FileTree

/-- `tree` is the first tree or lies in it at any depth -/
inductive Holds : FileTree → FileTree → Prop
  | refl {tree} : Holds tree tree
  | entry {entries searchable name inner tree} (hinner : (name, inner) ∈ entries) (h : Holds inner tree) :
    Holds (.directory entries searchable) tree

theorem Holds.trans {here inner tree : FileTree} (h : here.Holds inner) (h' : inner.Holds tree) : here.Holds tree := by
  induction h with
  | refl => exact h'
  | entry hinner _ ih => exact .entry hinner (ih h')

theorem holds_of_lookup {here inner : FileTree} {name : String} (h : here.entries.lookup name = some inner) :
    here.Holds inner := by
  cases here with
  | file bytes => cases h
  | directory entries searchable =>
    obtain ⟨front, back, hentries, -⟩ := List.lookup_eq_some_iff.1 h
    exact .entry (hentries ▸ List.mem_append_right _ List.mem_cons_self) .refl

variable {limit : Nat} {here tree : FileTree} {above : List FileTree} {names : List String}

/-- what one name does to a walk, whatever names follow it -/
inductive Step (limit : Nat) (here : FileTree) (above : List FileTree) (name : String) : Prop
  /-- nothing is there -/
  | absent (h : ∀ names, here.walk limit above (name :: names) = .ok none)
  | closed (hclosed : here.searchable = false) (h : ∀ names, here.walk limit above (name :: names) = .error .closed)
  | tooLong (hlong : limit < name.utf8ByteSize)
    (h : ∀ names, here.walk limit above (name :: names) = .error .tooLong)
  /-- the walk goes down to an entry -/
  | down {inner} (hinner : here.entries.lookup name = some inner)
    (h : ∀ names, here.walk limit above (name :: names) = inner.walk limit (here :: above) names)
  /-- the walk goes up, or stays at the root -/
  | up {outer rest} (houter : outer = here ∨ outer ∈ above) (hrest : ∀ t ∈ rest, t ∈ above)
    (h : ∀ names, here.walk limit above (name :: names) = outer.walk limit rest names)

theorem walk_step (limit : Nat) (here : FileTree) (above : List FileTree) (name : String) :
    Step limit here above name := by
  by_cases hdirectory : here.isDirectory = true
  · by_cases hsearchable : here.searchable = true
    · by_cases hup : name = ".."
      · cases above with
        | nil =>
          refine .up (Or.inl rfl) (List.forall_mem_nil _) fun names => ?_
          simp [walk, hdirectory, hsearchable, hup]
        | cons outer rest =>
          refine .up (Or.inr List.mem_cons_self) (fun t ht => List.mem_cons_of_mem _ ht) fun names => ?_
          simp [walk, hdirectory, hsearchable, hup]
      · by_cases hlong : limit < name.utf8ByteSize
        · exact .tooLong hlong fun names => by simp [walk, hdirectory, hsearchable, hup, hlong]
        · cases hinner : here.entries.lookup name with
          | none => exact .absent fun names => by simp [walk, hdirectory, hsearchable, hup, hlong, hinner]
          | some inner => exact .down hinner fun names => by simp [walk, hdirectory, hsearchable, hup, hlong, hinner]
    · have hclosed := Bool.eq_false_iff.2 hsearchable
      exact .closed hclosed fun names => by simp [walk, hdirectory, hclosed]
  · exact .absent fun names => by simp [walk, hdirectory]

/-- a walk goes on from where it has come to -/
theorem walk_concat {name : String} (hname : name ≠ "..") (h : here.walk limit above names = .ok (some tree)) :
    here.walk limit above (names ++ [name]) = tree.walk limit [] [name] := by
  induction names generalizing here above with
  | nil =>
    cases h
    simp [walk, hname]
  | cons next names ih =>
    rw [List.cons_append]
    cases walk_step limit here above next with
    | absent hstep | closed _ hstep | tooLong _ hstep =>
      rw [hstep] at h
      cases h
    | down _ hstep | up _ _ hstep =>
      rw [hstep] at h ⊢
      exact ih h

/-- every closed directory of `tree` lies in `root` -/
def Encloses (root tree : FileTree) : Prop := ∀ inner, tree.Holds inner → inner.searchable = false → root.Holds inner

theorem Encloses.inner {root : FileTree} (h : root.Encloses here) {name : String} {inner : FileTree}
    (hinner : here.entries.lookup name = some inner) : root.Encloses inner :=
  fun tree htree => h tree ((holds_of_lookup hinner).trans htree)

/-- the directory of a session and those above it lie in the tree, as far as they are there -/
theorem encloses_enter {root : FileTree} (hhere : root.Encloses here) (habove : ∀ outer ∈ above, root.Encloses outer) :
    root.Encloses (here.enter above names).1 ∧ ∀ outer ∈ (here.enter above names).2, root.Encloses outer := by
  induction names generalizing here above with
  | nil => exact ⟨hhere, habove⟩
  | cons name names ih =>
    refine ih ?_ (List.forall_mem_cons.2 ⟨hhere, habove⟩)
    cases hinner : here.entries.lookup name with
    | some inner => exact hhere.inner hinner
    | none =>
      -- an empty directory stands for one that is not there
      rintro tree (_ | ⟨hmem, -⟩) hclosed
      · cases hclosed
      · cases hmem

/-- what refuses a walk through trees that `root` encloses -/
def Refuses (root : FileTree) (limit : Nat) (names : List String) : Refusal → Prop
  | .tooLong => ∃ name ∈ names, limit < name.utf8ByteSize
  | .closed => ∃ tree, root.Holds tree ∧ tree.searchable = false

theorem Refuses.cons {root : FileTree} {refusal : Refusal} (h : root.Refuses limit names refusal) (name : String) :
    root.Refuses limit (name :: names) refusal := by
  cases refusal with
  | tooLong => exact List.exists_mem_cons_of_exists h
  | closed => exact h

/-- a walk is refused for a name that is too long or a directory that is closed -/
theorem refuses_of_walk {root : FileTree} {refusal : Refusal} (hhere : root.Encloses here)
    (habove : ∀ outer ∈ above, root.Encloses outer) (h : here.walk limit above names = .error refusal) :
    root.Refuses limit names refusal := by
  induction names generalizing here above with
  | nil => cases h
  | cons name names ih =>
    cases walk_step limit here above name with
    | absent hstep =>
      rw [hstep] at h
      cases h
    | closed hclosed hstep =>
      rw [hstep] at h
      cases h
      exact ⟨here, hhere here .refl hclosed, hclosed⟩
    | tooLong hlong hstep =>
      rw [hstep] at h
      cases h
      exact ⟨name, List.mem_cons_self, hlong⟩
    | down hinner hstep =>
      rw [hstep] at h
      exact (ih (hhere.inner hinner) (List.forall_mem_cons.2 ⟨hhere, habove⟩) h).cons name
    | up houter hrest hstep =>
      rw [hstep] at h
      have houter : root.Encloses _ := houter.elim (fun heq => heq ▸ hhere) (habove _)
      exact (ih houter (fun t ht => habove t (hrest t ht)) h).cons name

end FileTree

namespace Files

variable {files : Files} {p : Path}

/-- what is at the path of an entry of a directory -/
theorem find_entry {entries : List (String × FileTree)} {searchable : Bool} {name : String}
    (hfind : files.find p = .ok (some (.directory entries searchable))) (hname : name ≠ "..") :
    files.find (p.entry name) =
      if files.pathLimit < (p.entry name).text.utf8ByteSize then .error .tooLong
      else if searchable = false then .error .closed
      else if files.nameLimit < name.utf8ByteSize then .error .tooLong
      else .ok (entries.lookup name) := by
  rw [find] at hfind ⊢
  split at hfind
  · cases hfind
  · have hwalk : (files.origin p.anchor).1.walk files.nameLimit (files.origin p.anchor).2 (p.entry name).names = _ :=
      FileTree.walk_concat hname hfind
    have hanchor : (p.entry name).anchor = p.anchor := rfl
    rw [hanchor, hwalk]
    simp only [FileTree.walk, FileTree.isDirectory, FileTree.searchable, FileTree.entries, hname, if_false]
    cases searchable <;> cases entries.lookup name <;> rfl

/-- what refuses the lookup of a path -/
def Refuses (files : Files) (p : Path) : Refusal → Prop
  | .tooLong => files.pathLimit < p.text.utf8ByteSize ∨ ∃ name ∈ p.names, files.nameLimit < name.utf8ByteSize
  | .closed => ∃ tree, files.root.Holds tree ∧ tree.searchable = false

/-- **Lookups are refused for two reasons only**: the path or a name of it is too long, or a directory is closed -/
theorem refuses_of_find {refusal : Refusal} (h : files.find p = .error refusal) : files.Refuses p refusal := by
  rw [find] at h
  split at h
  · next hlong =>
    cases h
    exact Or.inl hlong
  · have henclosed : files.root.Encloses (files.origin p.anchor).1 ∧
        ∀ outer ∈ (files.origin p.anchor).2, files.root.Encloses outer := by
      have hroot : files.root.Encloses files.root := fun tree htree _ => htree
      cases p.anchor with
      | relative => exact FileTree.encloses_enter hroot (List.forall_mem_nil _)
      | root | doubleRoot => exact ⟨hroot, List.forall_mem_nil _⟩
    have hwalk := FileTree.refuses_of_walk henclosed.1 henclosed.2 h
    cases refusal with
    | tooLong => exact Or.inr hwalk
    | closed => exact hwalk

end Files

end FrameLisp
