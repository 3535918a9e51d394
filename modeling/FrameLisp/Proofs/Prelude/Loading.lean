/-
The files of the prelude.

The prelude is meant to be the files of its directory whose names end in `.lisp`, each once and in the order of their
names (`Prelude.Collects`). Loading picks its entries by their names alone, so that a directory of such a name is picked
as well (`Prelude.HasDirectory`), and a directory has no text to evaluate. Nor has an entry that is not looked up; at
either of them loading stops (`Prelude.Stops`).

Results:
- `exists_collects`: every directory whose files are texts has such a list of files, and it is the only one
  (`Collects.unique`).
- `Prelude.stops_iff`: where all entries are looked up, loading stops at the directories alone.
- `prelude_runs_files_up_to_a_directory`: where loading does not stop, to load the prelude is to evaluate the texts of
  its files in turn. Where it does, it is to evaluate the texts in front of the first entry that stops it and then to
  fail with that, so that the outcome is another one unless a text in front of it has failed.
Refutation:
- `directory_in_the_prelude_is_not_passed_over`: a prelude with a directory of such a name and nothing else.
-/
import FrameLisp.Proofs.Prelude.Directory
import FrameLisp.Proofs.Reading.Joined

namespace FrameLisp

open Effect

/-! ## Lists in the order of names -/

/-- in the order of the names, each of which comes once -/
def ByName {α : Type} (name : α → String) (l : List α) : Prop := l.Pairwise fun a b => name a < name b

namespace ByName

variable {α : Type} {name : α → String} {l l' : List α}

theorem filter (h : ByName name l) (p : α → Bool) : ByName name (l.filter p) := h.sublist List.filter_sublist

/-- the names themselves -/
theorem map (h : ByName name l) : ByName id (l.map name) := List.pairwise_map.2 h

/-- the members determine the list -/
theorem eq_of_mem_iff (h : ByName name l) (h' : ByName name l') (hmem : ∀ a, a ∈ l ↔ a ∈ l') : l = l' := by
  have hnodup : ∀ {l : List α}, ByName name l → l.Nodup := fun h => h.imp fun hab heq => by
    rw [heq] at hab
    exact lt_irrefl _ hab
  have hperm : l.Perm l' := (List.perm_ext_iff_of_nodup (hnodup h) (hnodup h')).2 hmem
  exact hperm.eq_of_pairwise (fun a b _ _ hab hba => absurd hab (lt_asymm hba)) h h'

/-- the members with smaller names than a given one come first -/
theorem split (h : ByName name l) (n : String) : l = l.filter (name · < n) ++ l.filter (n ≤ name ·) := by
  refine h.eq_of_mem_iff (List.pairwise_append.2 ⟨h.filter _, h.filter _, fun a ha b hb => ?_⟩) fun a => ?_
  · have hfront := of_decide_eq_true (List.mem_filter.1 ha).2
    have hback := of_decide_eq_true (List.mem_filter.1 hb).2
    exact lt_of_lt_of_le hfront hback
  · have hside := lt_or_ge (name a) n
    simp only [List.mem_append, List.mem_filter, decide_eq_true_eq]
    tauto

/-- what stands in front of a member are the members with smaller names -/
theorem eq_append (h : ByName name l) {a : α} (ha : a ∈ l) :
    ∃ back, l = l.filter (name · < name a) ++ a :: back := by
  obtain ⟨front, back, rfl⟩ := List.append_of_mem ha
  obtain ⟨-, htail, hacross⟩ := List.pairwise_append.1 h
  have hfront : front.filter (name · < name a) = front :=
    List.filter_eq_self.2 fun b hb => decide_eq_true (hacross b hb a List.mem_cons_self)
  have hback : (a :: back).filter (name · < name a) = [] := by
    refine List.filter_eq_nil_iff.2 fun b hb => ?_
    rw [decide_eq_true_eq, not_lt]
    rcases List.mem_cons.1 hb with rfl | hb
    · exact le_rfl
    · exact le_of_lt ((List.pairwise_cons.1 htail).1 b hb)
  refine ⟨back, ?_⟩
  rw [List.filter_append, hfront, hback, List.append_nil]

/-- sorting names that are distinct -/
theorem mergeSort {names : List String} (h : names.Nodup) :
    ByName id (names.mergeSort fun a b => decide (a ≤ b)) := by
  have hsorted := @List.pairwise_mergeSort _ (fun a b : String => decide (a ≤ b))
    (by simpa using fun _ _ _ => le_trans) (by simpa using le_total) names
  have hne : (names.mergeSort fun a b => decide (a ≤ b)).Pairwise fun a b => a ≠ b :=
    ((List.mergeSort_perm names _).pairwise_iff fun hab => hab.symm).2 h
  exact (hsorted.and hne).imp fun hab => lt_of_le_of_ne (of_decide_eq_true hab.1) hab.2

end ByName

/-- names that come once lead to their own entry -/
theorem lookup_of_mem {α : Type} {entries : List (String × α)} (h : (entries.map Prod.fst).Nodup) {name : String}
    {a : α} (hmem : (name, a) ∈ entries) : entries.lookup name = some a := by
  obtain ⟨front, back, rfl⟩ := List.append_of_mem hmem
  refine List.lookup_eq_some_iff.2 ⟨front, back, rfl, fun e he => ?_⟩
  rw [List.map_append, List.map_cons] at h
  have hne := (List.nodup_append.1 h).2.2 e.1 (List.mem_map_of_mem he) name List.mem_cons_self
  exact bne_iff_ne.2 hne.symm

namespace Prelude

variable {s : Surroundings} {entries : List (String × FileTree)} {searchable : Bool} {files : List (String × String)}
  {path : Path} {frame : FrameId} {name : String}

/-! ## The files that are meant -/

/-- `files` are the files of a directory whose names end in `.lisp`, with their texts and in the order of their names -/
structure Collects (entries : List (String × FileTree)) (files : List (String × String)) : Prop where
  byName : ByName Prod.fst files
  mem_iff : ∀ name bytes, ((name, .file bytes) ∈ entries ∧ ∃ stem, name = stem ++ ".lisp") ↔
    ∃ text, (name, text) ∈ files ∧ bytes = text.toUTF8

/-- a directory with an entry that is a directory itself and has a name of a program -/
def HasDirectory (entries : List (String × FileTree)) (name : String) : Prop :=
  (∃ inner searchable, (name, .directory inner searchable) ∈ entries) ∧ ∃ stem, name = stem ++ ".lisp"

/-- loading stops with a fault at an entry that has a name of a program: the entry is not looked up, or it is a
directory -/
inductive Stops (s : Surroundings) (path : Path) (entries : List (String × FileTree)) (name : String) : LoadFault → Prop
  | refused {tree refusal} (hentry : (name, tree) ∈ entries) (hstem : ∃ stem, name = stem ++ ".lisp")
    (hfind : s.files.find (path.entry name) = .error refusal) :
    Stops s path entries name (.refused (path.entry name) refusal)
  | directory {found} (hentry : HasDirectory entries name) (hfind : s.files.find (path.entry name) = .ok found) :
    Stops s path entries name (.isDirectory (path.entry name))

theorem isProgramName_iff {name : String} : isProgramName name = true ↔ ∃ stem, name = stem ++ ".lisp" := by
  rw [isProgramName, List.isSuffixOf_iff_suffix]
  constructor
  · rintro ⟨stem, hstem⟩
    refine ⟨String.ofList stem, String.toList_inj.1 ?_⟩
    rw [String.toList_append, String.toList_ofList, hstem]
  · rintro ⟨stem, rfl⟩
    exact ⟨stem.toList, String.toList_append.symm⟩

theorem fromUTF8?_eq_some_iff {bytes : ByteArray} {text : String} :
    String.fromUTF8? bytes = some text ↔ bytes = text.toUTF8 := by
  rw [String.fromUTF8?]
  constructor
  · intro h
    split at h
    · cases h
      rfl
    · cases h
  · rintro rfl
    exact dif_pos text.isValidUTF8

theorem mem_programs : name ∈ programs entries ↔ (∃ tree, (name, tree) ∈ entries) ∧ ∃ stem, name = stem ++ ".lisp" := by
  rw [programs, List.mem_mergeSort, List.mem_filter, isProgramName_iff, List.mem_map]
  refine and_congr_left fun _ => ⟨?_, ?_⟩
  · rintro ⟨⟨name', tree⟩, hmem, rfl⟩
    exact ⟨tree, hmem⟩
  · rintro ⟨tree, hmem⟩
    exact ⟨(name, tree), hmem, rfl⟩

theorem programs_byName (h : (entries.map Prod.fst).Nodup) : ByName id (programs entries) :=
  ByName.mergeSort (h.sublist List.filter_sublist)

/-- the names that are loaded, where no directory is among them, are those of the files -/
theorem filter_programs (hnames : (entries.map Prod.fst).Nodup) (h : Collects entries files) (p : String → Bool)
    (hp : ∀ name, HasDirectory entries name → p name = false) :
    (programs entries).filter p = (files.filter (p ·.1)).map Prod.fst := by
  refine ((programs_byName hnames).filter _).eq_of_mem_iff (h.byName.filter _).map fun name => ?_
  rw [List.mem_filter, mem_programs, List.mem_map]
  constructor
  · rintro ⟨⟨⟨tree, hmem⟩, hname⟩, hkept⟩
    cases tree with
    | directory inner searchable =>
      rw [hp name ⟨⟨inner, searchable, hmem⟩, hname⟩] at hkept
      cases hkept
    | file bytes =>
      obtain ⟨text, htext, -⟩ := (h.mem_iff name bytes).1 ⟨hmem, hname⟩
      exact ⟨(name, text), List.mem_filter.2 ⟨htext, hkept⟩, rfl⟩
  · rintro ⟨⟨name', text⟩, hfile, rfl⟩
    obtain ⟨htext, hkept⟩ := List.mem_filter.1 hfile
    obtain ⟨hmem, hname⟩ := (h.mem_iff _ _).2 ⟨text, htext, rfl⟩
    exact ⟨⟨⟨_, hmem⟩, hname⟩, hkept⟩

/-- the files of a directory are in one list only -/
theorem Collects.unique {files' : List (String × String)} (h : Collects entries files) (h' : Collects entries files') :
    files = files' := by
  have hsub : ∀ {l l' : List (String × String)}, Collects entries l → Collects entries l' → ∀ a ∈ l, a ∈ l' := by
    rintro l l' hl hl' ⟨name, text⟩ hmem
    obtain ⟨text', htext', heq⟩ := (hl'.mem_iff name _).1 ((hl.mem_iff name _).2 ⟨text, hmem, rfl⟩)
    rwa [String.toByteArray_inj.1 heq]
  exact h.byName.eq_of_mem_iff h'.byName fun a => ⟨hsub h h' a, hsub h' h a⟩

/-- the text of the file with a name, if there is such a file and it is a text -/
def textAt? (entries : List (String × FileTree)) (name : String) : Option (String × String) :=
  match entries.lookup name with
  | some (.file bytes) => (String.fromUTF8? bytes).map (name, ·)
  | _ => none

theorem textAt?_eq_some_iff (hnames : (entries.map Prod.fst).Nodup) {file : String × String} :
    textAt? entries name = some file ↔ file.1 = name ∧ (name, .file file.2.toUTF8) ∈ entries := by
  obtain ⟨name', text⟩ := file
  constructor
  · intro h
    rw [textAt?] at h
    split at h
    · next bytes hlookup =>
      obtain ⟨text', hdecode, hfile⟩ := Option.map_eq_some_iff.1 h
      cases hfile
      obtain rfl := fromUTF8?_eq_some_iff.1 hdecode
      obtain ⟨front, back, rfl, -⟩ := List.lookup_eq_some_iff.1 hlookup
      exact ⟨rfl, List.mem_append_right _ List.mem_cons_self⟩
    · cases h
  · rintro ⟨rfl, hmem⟩
    rw [textAt?, lookup_of_mem hnames hmem]
    exact Option.map_eq_some_iff.2 ⟨text, fromUTF8?_eq_some_iff.2 rfl, rfl⟩

/-- the files of a directory are listed if they are texts -/
theorem exists_collects (hnames : (entries.map Prod.fst).Nodup)
    (htexts : ∀ name bytes, (name, .file bytes) ∈ entries → ∃ text : String, bytes = text.toUTF8) :
    ∃ files, Collects entries files := by
  refine ⟨(programs entries).filterMap (textAt? entries), ?_, fun name bytes => ?_⟩
  · refine List.Pairwise.filterMap _ ?_ (programs_byName hnames)
    rintro name name' hlt file hfile file' hfile'
    rw [(textAt?_eq_some_iff hnames).1 hfile |>.1, (textAt?_eq_some_iff hnames).1 hfile' |>.1]
    exact hlt
  · simp only [List.mem_filterMap, textAt?_eq_some_iff hnames, mem_programs]
    constructor
    · rintro ⟨hmem, hname⟩
      obtain ⟨text, rfl⟩ := htexts name bytes hmem
      exact ⟨text, ⟨name, ⟨⟨_, hmem⟩, hname⟩, rfl, hmem⟩, rfl⟩
    · rintro ⟨text, ⟨name', ⟨-, hname⟩, rfl, hmem⟩, rfl⟩
      exact ⟨hmem, hname⟩

/-! ## What is looked up -/

section

variable {fault : LoadFault} (hfind : s.files.find path = .ok (some (.directory entries searchable)))
  (hnames : (entries.map Prod.fst).Nodup)

include hfind

/-- an entry with the name of a program is not looked up, or it is found -/
theorem find_program (hstem : ∃ stem, name = stem ++ ".lisp") :
    (∃ refusal, s.files.find (path.entry name) = .error refusal) ∨
      s.files.find (path.entry name) = .ok (entries.lookup name) := by
  have hname : name ≠ ".." := by
    rintro rfl
    exact absurd (isProgramName_iff.2 hstem) (by decide)
  rw [Files.find_entry hfind hname]
  split_ifs
  · exact Or.inl ⟨_, rfl⟩
  · exact Or.inl ⟨_, rfl⟩
  · exact Or.inl ⟨_, rfl⟩
  · exact Or.inr rfl

theorem exists_stops (h : HasDirectory entries name) : ∃ fault, Stops s path entries name fault := by
  rcases find_program hfind h.2 with ⟨refusal, hrefused⟩ | hfound
  · obtain ⟨⟨inner, searchable, hmem⟩, hstem⟩ := h
    exact ⟨_, .refused hmem hstem hrefused⟩
  · exact ⟨_, .directory h hfound⟩

/-- **Where all entries are looked up, loading stops at the directories alone**: where the directory may be searched and
neither names nor paths are too long -/
theorem stops_iff (hsearchable : searchable = true)
    (hshort : ∀ e ∈ entries, e.1.utf8ByteSize ≤ s.files.nameLimit ∧
      (path.entry e.1).text.utf8ByteSize ≤ s.files.pathLimit) :
    Stops s path entries name fault ↔ HasDirectory entries name ∧ fault = .isDirectory (path.entry name) := by
  have hfound : ∀ {tree}, (name, tree) ∈ entries → (∃ stem, name = stem ++ ".lisp") →
      s.files.find (path.entry name) = .ok (entries.lookup name) := by
    intro tree hmem hstem
    have hname : name ≠ ".." := by
      rintro rfl
      exact absurd (isProgramName_iff.2 hstem) (by decide)
    obtain ⟨hlength, hpath⟩ := hshort _ hmem
    rw [Files.find_entry hfind hname, if_neg (Nat.not_lt.2 hpath), if_neg (by simp [hsearchable]),
      if_neg (Nat.not_lt.2 hlength)]
  constructor
  · rintro (⟨hmem, hstem, hrefused⟩ | ⟨hentry, -⟩)
    · rw [hfound hmem hstem] at hrefused
      cases hrefused
    · exact ⟨hentry, rfl⟩
  · rintro ⟨hentry, rfl⟩
    obtain ⟨inner, searchable, hmem⟩ := hentry.1
    exact .directory hentry (hfound hmem hentry.2)

include hnames

/-- there is no text where loading stops -/
theorem Stops.sourceOf_eq (h : Stops s path entries name fault) : sourceOf s (path.entry name) = .error fault := by
  cases h with
  | refused hentry hstem hrefused =>
    have hlookup := lookup_eq_error_iff.2 ⟨_, hrefused, rfl⟩
    simp only [sourceOf, hlookup, bind, Except.bind]
  | directory hentry hfound =>
    obtain ⟨⟨inner, searchable, hmem⟩, hstem⟩ := hentry
    rcases find_program hfind hstem with ⟨refusal, hrefused⟩ | hlookup
    · rw [hrefused] at hfound
      cases hfound
    · rw [lookup_of_mem hnames hmem] at hlookup
      simp only [sourceOf, lookup_eq_ok_iff.2 hlookup, bind, Except.bind]

/-- the path of a file leads to its text, where loading does not stop -/
theorem holds_of_not_stops (hfiles : Collects entries files) {file : String × String} (hfile : file ∈ files)
    (hstops : ∀ fault, ¬ Stops s path entries file.1 fault) : Holds s path file.1 file.2 := by
  obtain ⟨hmem, hstem⟩ := (hfiles.mem_iff file.1 _).2 ⟨file.2, hfile, rfl⟩
  rcases find_program hfind hstem with ⟨refusal, hrefused⟩ | hfound
  · exact absurd (.refused hmem hstem hrefused) (hstops _)
  · rw [lookup_of_mem hnames hmem] at hfound
    simp only [Holds, sourceOf, lookup_eq_ok_iff.2 hfound, fromUTF8?_eq_some_iff.2 rfl, bind, Except.bind]

end

/-! ## What is loaded -/

theorem loadEach_append (front back : List String) :
    loadEach s frame path (front ++ back) = (do
      loadEach s frame path front
      loadEach s frame path back) := by
  induction front with
  | nil => rfl
  | cons name front ih => simp only [List.cons_append, loadEach, ih, bind_assoc]

theorem evaluateInTurn_append (limits : Limits) (front back : List String) :
    evaluateInTurn limits frame (front ++ back) = (do
      evaluateInTurn limits frame front
      evaluateInTurn limits frame back) := by
  induction front with
  | nil => rfl
  | cons source front ih => simp only [List.cons_append, evaluateInTurn, ih, bind_assoc]

/-- to load files is to evaluate their texts -/
theorem loadEach_files {files : List (String × String)} (h : ∀ file ∈ files, Holds s path file.1 file.2) :
    Agree (loadEach s frame path (files.map Prod.fst)) (evaluateInTurn s.limits frame (files.map Prod.snd)) := by
  refine loadEach_agree frame (List.forall₂_map_left_iff.2 (List.forall₂_map_right_iff.2 ?_))
  exact List.forall₂_same.2 h

/-- an entry without a text is not loaded, and nothing is after it -/
theorem loadEach_error_agree {fault : LoadFault} (h : sourceOf s (path.entry name) = .error fault)
    (back : List String) : Agree (loadEach s frame path (name :: back)) (fail fault) := by
  rw [loadEach]
  simp only [h, ofExcept_error, fail_bind]
  exact agree_note _ (agree_fail _)

/-- texts fail with a fault of the language -/
theorem evaluateInTurn_ne {limits : Limits} {sources : List String} {w : World} {fault : LoadFault}
    (h : Stops s path entries name fault) : (evaluateInTurn limits frame sources w).1 ≠ .error fault := by
  intro herror
  rw [evaluateInTurn_eq] at herror
  obtain ⟨cause, -, rfl⟩ := mapFault_eq_error (Prod.ext herror rfl)
  cases h

end Prelude

/-! ## Main statement -/

/-- **The prelude runs its files up to a directory.** Let the files of the prelude's directory be texts. If loading
stops at no entry, to load the prelude is to evaluate in turn the texts of the files whose names end in `.lisp`, in the
order of the names, up to the first fault: with the same outcome, the same frames and the same printed text. If it stops
at an entry, and `name` is the least of their names, the texts of the files with smaller names are evaluated, and then loading
fails with the fault of that entry. The outcome is then the one of all the texts just if one of those in front has
failed. Where the directory may be searched and nothing is too long, loading stops at the directories whose names end in
`.lisp` and at nothing else. -/
theorem prelude_runs_files_up_to_a_directory {s : Surroundings} {path : Path} {entries : List (String × FileTree)}
    {searchable : Bool} {files : List (String × String)} (hdirectory : Prelude.directory s = .ok path)
    (hfind : s.files.find path = .ok (some (.directory entries searchable))) (hnames : (entries.map Prod.fst).Nodup)
    (hfiles : Prelude.Collects entries files) (frame : FrameId) :
    let texts := Prelude.evaluateInTurn s.limits frame (files.map Prod.snd)
    ((∀ name fault, ¬ Prelude.Stops s path entries name fault) → Agree (Prelude.load s frame) texts) ∧
      (∀ name fault, Prelude.Stops s path entries name fault →
        (∀ other fault', Prelude.Stops s path entries other fault' → name ≤ other) →
        let front := Prelude.evaluateInTurn s.limits frame ((files.filter (·.1 < name)).map Prod.snd)
        Agree (Prelude.load s frame) (do
          front
          fail fault) ∧
        ∀ w, (Prelude.load s frame w).1 = (texts w).1 ↔ (front w).1 ≠ .ok ()) ∧
      (searchable = true → (∀ e ∈ entries, e.1.utf8ByteSize ≤ s.files.nameLimit ∧
          (path.entry e.1).text.utf8ByteSize ≤ s.files.pathLimit) →
        ∀ name fault, Prelude.Stops s path entries name fault ↔
          Prelude.HasDirectory entries name ∧ fault = .isDirectory (path.entry name)) := by
  intro texts
  have hload : Prelude.load s frame = Prelude.loadEach s frame path (Prelude.programs entries) :=
    Prelude.load_eq hdirectory hfind
  refine ⟨fun hnone => ?_, fun name fault hstops hleast => ?_, fun hsearchable hshort name fault =>
    Prelude.stops_iff hfind hsearchable hshort⟩
  · have hall := Prelude.filter_programs hnames hfiles (fun _ => true) fun name h => by
      obtain ⟨fault, hfault⟩ := Prelude.exists_stops hfind h
      exact absurd hfault (hnone name fault)
    rw [List.filter_true, List.filter_true] at hall
    rw [hload, hall]
    exact Prelude.loadEach_files fun file hfile => Prelude.holds_of_not_stops hfind hnames hfiles hfile (hnone file.1)
  · intro front
    have hmem : name ∈ Prelude.programs entries := by
      cases hstops with
      | refused hentry hstem => exact Prelude.mem_programs.2 ⟨⟨_, hentry⟩, hstem⟩
      | directory hentry =>
        obtain ⟨inner, searchable, hinner⟩ := hentry.1
        exact Prelude.mem_programs.2 ⟨⟨_, hinner⟩, hentry.2⟩
    obtain ⟨back, hback⟩ := (Prelude.programs_byName hnames).eq_append hmem
    have hfront := Prelude.filter_programs hnames hfiles (decide <| · < name) fun other h => by
      obtain ⟨fault', hfault'⟩ := Prelude.exists_stops hfind h
      exact decide_eq_false (not_lt.2 (hleast other fault' hfault'))
    have hagree : Agree (Prelude.load s frame) (do
        front
        fail fault) := by
      have hholds : ∀ file ∈ files.filter (·.1 < name), Prelude.Holds s path file.1 file.2 := by
        intro file hfile
        obtain ⟨hfile, hlt⟩ := List.mem_filter.1 hfile
        refine Prelude.holds_of_not_stops hfind hnames hfiles hfile fun fault' hfault' => ?_
        exact absurd (of_decide_eq_true hlt) (not_lt.2 (hleast file.1 fault' hfault'))
      rw [hload, hback]
      simp only [id_eq]
      rw [hfront, Prelude.loadEach_append]
      exact (Prelude.loadEach_files hholds).bind fun _ =>
        Prelude.loadEach_error_agree (hstops.sourceOf_eq hfind hnames) back
    refine ⟨hagree, fun w => ?_⟩
    -- the texts in front come first among all the texts as well
    have htexts : texts = (do
        front
        Prelude.evaluateInTurn s.limits frame ((files.filter (name ≤ ·.1)).map Prod.snd)) := by
      rw [← Prelude.evaluateInTurn_append, ← List.map_append, ← hfiles.byName.split]
    rw [(Agree.iff_forall.1 hagree w w (.refl w)).1, htexts, bind_fail, bind_apply]
    cases hw : front w with
    | mk r w' =>
      cases r with
      | error e => simp [Except.bind]
      | ok u => simpa [Except.bind] using (Prelude.evaluateInTurn_ne hstops).symm

/-- surroundings where nothing is set and the standard prelude has these entries -/
def Surroundings.withEntries (entries : List (String × FileTree)) : Surroundings where
  settings := .unset
  files := { root := .directory [("prelude", .directory entries)], working := [] }
  standardPrelude := ⟨.root, ["prelude"]⟩

/-- the entry of a file with a text -/
def Prelude.textEntry (file : String × String) : String × FileTree := (file.1, .file file.2.toUTF8)

/-- two files come before a directory, one after it, and one that is no text has another name -/
theorem files_in_front_of_a_directory_are_loaded :
    let entries := [Prelude.textEntry ("b.lisp", "(define b a)"), ("d.lisp", .directory []), ("notes", .file ⟨#[255]⟩),
      Prelude.textEntry ("a.lisp", "(define a 1)"), Prelude.textEntry ("e.lisp", "(print")]
    let s := Surroundings.withEntries entries
    let files := [("a.lisp", "(define a 1)"), ("b.lisp", "(define b a)"), ("e.lisp", "(print")]
    Prelude.directory s = .ok ⟨.root, ["prelude"]⟩ ∧
      s.files.find ⟨.root, ["prelude"]⟩ = .ok (some (.directory entries)) ∧
      (entries.map Prod.fst).Nodup ∧ Prelude.Collects entries files ∧
      Agree (Prelude.load s 0) (do
        Prelude.evaluateInTurn .standard 0 ["(define a 1)", "(define b a)"]
        fail (.isDirectory ⟨.root, ["prelude", "d.lisp"]⟩)) := by
  intro entries s files
  have hdirectory : Prelude.directory s = .ok ⟨.root, ["prelude"]⟩ := rfl
  have hfind : s.files.find ⟨.root, ["prelude"]⟩ = .ok (some (.directory entries)) := rfl
  have hnames : (entries.map Prod.fst).Nodup := by decide
  have hstem : ∀ {name}, Prelude.isProgramName name = true → ∃ stem, name = stem ++ ".lisp" :=
    Prelude.isProgramName_iff.1
  have hfiles : Prelude.Collects entries files := by
    refine ⟨by simp only [files, ByName]; decide, fun name bytes => ⟨?_, ?_⟩⟩
    · rintro ⟨hmem, hname⟩
      simp only [entries, Prelude.textEntry, List.mem_cons, Prod.mk.injEq, FileTree.file.injEq, reduceCtorEq, and_false,
        List.not_mem_nil, or_false, false_or] at hmem
      rcases hmem with ⟨rfl, rfl⟩ | ⟨rfl, -⟩ | ⟨rfl, rfl⟩ | ⟨rfl, rfl⟩
      · exact ⟨_, by simp [files], rfl⟩
      · exact absurd (Prelude.isProgramName_iff.2 hname) (by decide)
      · exact ⟨_, by simp [files], rfl⟩
      · exact ⟨_, by simp [files], rfl⟩
    · rintro ⟨text, hmem, rfl⟩
      simp only [files, List.mem_cons, Prod.mk.injEq, List.not_mem_nil, or_false] at hmem
      rcases hmem with ⟨rfl, rfl⟩ | ⟨rfl, rfl⟩ | ⟨rfl, rfl⟩ <;>
        exact ⟨by simp [entries, Prelude.textEntry], hstem (by decide)⟩
  obtain ⟨-, hstop, hstops⟩ := prelude_runs_files_up_to_a_directory hdirectory hfind hnames hfiles 0
  have hdir : Prelude.Stops s ⟨.root, ["prelude"]⟩ entries "d.lisp" (.isDirectory ⟨.root, ["prelude", "d.lisp"]⟩) :=
    .directory ⟨⟨[], true, by simp [entries]⟩, hstem (by decide)⟩ rfl
  have hleast : ∀ other fault, Prelude.Stops s ⟨.root, ["prelude"]⟩ entries other fault → "d.lisp" ≤ other := by
    intro other fault h
    obtain ⟨⟨⟨inner, searchable, hinner⟩, -⟩, -⟩ := (hstops rfl (by decide) other fault).1 h
    simp only [entries, Prelude.textEntry, List.mem_cons, Prod.mk.injEq, FileTree.directory.injEq, reduceCtorEq,
      and_false, List.not_mem_nil, or_false, false_or] at hinner
    exact le_of_eq hinner.1.symm
  have hload := (hstop "d.lisp" _ hdir hleast).1
  have hfront : files.filter (·.1 < "d.lisp") = [("a.lisp", "(define a 1)"), ("b.lisp", "(define b a)")] := by
    simp only [files]
    decide
  rw [hfront] at hload
  exact ⟨hdirectory, hfind, hnames, hfiles, hload⟩

/-- a directory that is no file is not passed over: there is no text to evaluate, and loading fails -/
theorem directory_in_the_prelude_is_not_passed_over :
    ¬ ∀ (s : Surroundings) (path : Path) (entries : List (String × FileTree)) (files : List (String × String))
      (frame : FrameId), Prelude.directory s = .ok path → s.files.find path = .ok (some (.directory entries)) →
      (entries.map Prod.fst).Nodup → Prelude.Collects entries files →
      Agree (Prelude.load s frame) (Prelude.evaluateInTurn s.limits frame (files.map Prod.snd)) := by
  intro h
  have hfiles : Prelude.Collects [("d.lisp", .directory [])] [] := ⟨List.Pairwise.nil, fun name bytes => by simp⟩
  have hagree := h (.withEntries [("d.lisp", .directory [])]) _ _ _ 0 rfl rfl (by simp) hfiles
  have houtcome := (Agree.iff_forall.1 hagree _ _ (.refl World.empty)).1
  have hok : ((Prelude.load (.withEntries [("d.lisp", .directory [])]) 0 World.empty).1).toBool = true := by
    rw [houtcome]
    rfl
  revert hok
  decide +kernel

end FrameLisp
