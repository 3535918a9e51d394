/-
What a session does, step by step.

A session evaluates texts in its frame, shows their values, takes a text for a prelude, or loads the prelude of its
surroundings (`Session.Step`). All that any of this does to the store is to evaluate what was read, so a relation
between stores that every such evaluation keeps (`Session.Keeps`) is kept by every step and by every sequence of steps
(`Keeps.after`), and from its fresh root frame on by the start of a session (`Keeps.start`).
-/
import FrameLisp.Proofs.Datum.Closures
import FrameLisp.Session

namespace FrameLisp

/-! ## What is read -/

namespace Datum

theorem parsed_closeAll {items : List Datum} {outers : List (List Datum)} (hitems : ∀ d ∈ items, d.Parsed)
    (houters : ∀ outer ∈ outers, ∀ d ∈ outer, Parsed d) : (closeAll items outers).Parsed := by
  have hlist : ∀ {items : List Datum}, (∀ d ∈ items, d.Parsed) → (Datum.list items.reverse).Parsed := by
    intro items h
    exact .list fun d hd => h d (List.mem_reverse.1 hd)
  induction outers generalizing items with
  | nil => exact hlist hitems
  | cons outer outers ih =>
    rw [List.forall_mem_cons] at houters
    exact ih (List.forall_mem_cons.2 ⟨hlist hitems, houters.1⟩) houters.2

theorem parsed_readList {items : List Datum} {outers : List (List Datum)} (ts : List String)
    (hitems : ∀ d ∈ items, d.Parsed) (houters : ∀ outer ∈ outers, ∀ d ∈ outer, Parsed d) :
    (readList items outers ts).1.Parsed := by
  induction ts generalizing items outers with
  | nil => exact parsed_closeAll hitems houters
  | cons t ts ih =>
    have hlist : (Datum.list items.reverse).Parsed := .list fun d hd => hitems d (List.mem_reverse.1 hd)
    simp only [readList]
    split
    · cases outers with
      | nil => exact hlist
      | cons outer outers =>
        rw [List.forall_mem_cons] at houters
        exact ih (List.forall_mem_cons.2 ⟨hlist, houters.1⟩) houters.2
    · split
      · exact ih (by simp) (List.forall_mem_cons.2 ⟨hitems, houters⟩)
      · exact ih (List.forall_mem_cons.2 ⟨.atom _, hitems⟩) houters

/-- what is read from a text are atoms and lists of what is read -/
theorem parsed_of_mem_readAll {ts : List String} {d : Datum} (h : d ∈ readAll ts) : d.Parsed := by
  have hread : ∀ {ts rest : List String} {d : Datum}, read? ts = some (d, rest) → d.Parsed := by
    intro ts rest d h
    induction ts with
    | nil => cases h
    | cons t ts ih =>
      simp only [read?] at h
      split at h
      · exact ih h
      · split at h
        · have hlist : (readList [] [] ts).1.Parsed := parsed_readList ts (by simp) (by simp)
          rw [Option.some.inj h] at hlist
          exact hlist
        · cases h
          exact .atom _
  induction ts using readAll.induct with
  | case1 ts hnone =>
    rw [readAll_of_none hnone] at h
    exact absurd h List.not_mem_nil
  | case2 ts e rest hsome ih =>
    rw [readAll_of_some hsome] at h
    rcases List.mem_cons.1 h with rfl | h
    · exact hread hsome
    · exact ih h

end Datum

namespace Program

variable {limits : Limits} {source : String} {w w' : World} {forms : List Datum} {fault : Fault}

/-- a text is read or refused, and notes are all that reading it leaves -/
theorem read_cases (limits : Limits) (source : String) (w : World) :
    (∃ notes, read limits source w = (.ok (Datum.readAll (Token.scan source)), { w with notes := notes })) ∨
      ∃ notes, read limits source w = (.error .tooDeep, { w with notes := notes }) := by
  unfold read
  dsimp only
  -- the tokens are not to be computed here
  generalize Token.scan source = tokens
  split
  · refine Or.inl ⟨(w.notes ++ (mismatches tokens).toArray).push (.parsed (Datum.readAll tokens)), ?_⟩
    rw [Effect.bind_ok (Effect.noteAll_apply _ _), Effect.bind_ok (Effect.note_apply _ _)]
    rfl
  · refine Or.inr ⟨_, Effect.bind_ok (Effect.noteAll_apply _ _) _⟩

theorem parsed_of_read (h : read limits source w = (.ok forms, w')) : ∀ d ∈ forms, d.Parsed := by
  obtain ⟨notes, hread⟩ | ⟨notes, hread⟩ := read_cases limits source w
  · rw [hread] at h
    cases h
    exact fun d hd => Datum.parsed_of_mem_readAll hd
  · rw [hread] at h
    cases h

/-- reading prints nothing and leaves the frames as they are -/
theorem read_keeps (h : read limits source w = (.ok forms, w')) : w'.store = w.store ∧ w'.printed = w.printed := by
  obtain ⟨notes, hread⟩ | ⟨notes, hread⟩ := read_cases limits source w
  · rw [hread] at h
    cases h
    exact ⟨rfl, rfl⟩
  · rw [hread] at h
    cases h

theorem read_error (h : read limits source w = (.error fault, w')) : fault = .tooDeep := by
  obtain ⟨notes, hread⟩ | ⟨notes, hread⟩ := read_cases limits source w
  · rw [hread] at h
    cases h
  · rw [hread] at h
    cases h
    rfl

end Program

namespace Session

/-! ## Steps -/

/-- what a session is asked to do: to evaluate a text, to show its values, to take it for a prelude, to load the
prelude of the surroundings -/
inductive Step where
  | eval (source : String)
  | display (source : String)
  | prelude (source : String)
  | load

/-- the world that a step leaves, whether it fails or not -/
def Step.perform (s : Surroundings) (root : FrameId) (w : World) : Step → World
  | .eval source => (Program.run s.limits root source w).2
  | .display source => (Program.runDisplayed s.limits root source w).2
  | .prelude source => (Prelude.evaluate s.limits root source w).2
  | .load => (Prelude.load s root w).2

/-- the world after some steps -/
def after (s : Surroundings) (root : FrameId) (w : World) (steps : List Step) : World :=
  steps.foldl (Step.perform s root) w

theorem after_append (s : Surroundings) (root : FrameId) (w : World) (steps later : List Step) :
    after s root w (steps ++ later) = after s root (after s root w steps) later :=
  List.foldl_append

/-! ## What steps keep -/

/-- a relation between stores that the evaluation of what is read keeps, in the frame of a session -/
structure Keeps (R : Store → Store → Prop) (limits : Limits) (root : FrameId) : Prop where
  refl : ∀ s, R s s
  trans : ∀ s t u, R s t → R t u → R s u
  value : ∀ d : Datum, d.Parsed → (d.value limits root).Moves R

namespace Keeps

variable {R : Store → Store → Prop} {limits : Limits} {root : FrameId}

section

variable (h : Keeps R limits root)

include h

theorem of_store_eq {ε α : Type} {x : Effect ε α} (hx : ∀ w, (x w).2.store = w.store) : x.Moves R :=
  Effect.moves_of_store_eq h.refl hx

theorem bind {ε α β : Type} {x : Effect ε α} {next : α → Effect ε β} (hx : x.Moves R)
    (hnext : ∀ a, (next a).Moves R) : (x >>= next).Moves R :=
  hx.bind hnext h.trans

theorem each {forms : List Datum} (hforms : ∀ d ∈ forms, d.Parsed) :
    ((Datum.value limits).each root forms).Moves R := by
  induction forms with
  | nil => exact h.of_store_eq fun _ => rfl
  | cons d forms ih =>
    rw [List.forall_mem_cons] at hforms
    refine h.bind (h.value d hforms.1) ?_
    intro value
    exact h.bind (ih hforms.2) fun values => h.of_store_eq fun _ => rfl

theorem read (source : String) : (Program.read limits source).Moves R := by
  refine h.of_store_eq fun w => ?_
  obtain ⟨notes, hread⟩ | ⟨notes, hread⟩ := Program.read_cases limits source w <;> rw [hread]

theorem run (source : String) : (Program.run limits root source).Moves R :=
  (h.read source).bind_of_ok (fun _ _ _ hread => h.each (Program.parsed_of_read hread)) h.trans

theorem displayed (d : Datum) : (d.displayed limits).Moves R := by
  unfold Datum.displayed
  split <;> exact h.of_store_eq fun _ => rfl

theorem runDisplayed (source : String) : (Program.runDisplayed limits root source).Moves R := by
  refine h.bind (h.run source) ?_
  intro values
  induction values with
  | nil => exact h.of_store_eq fun _ => rfl
  | cons value values ih =>
    rw [List.mapM_cons]
    refine h.bind (h.displayed value) ?_
    intro text
    exact h.bind ih fun texts => h.of_store_eq fun _ => rfl

theorem evaluate (source : String) : (Prelude.evaluate limits root source).Moves R :=
  (h.bind (h.run source) fun _ => h.of_store_eq fun _ => rfl).mapFault _

end

section

variable {s : Surroundings} (h : Keeps R s.limits root)

include h

theorem loadEach (directory : Path) (names : List String) : (Prelude.loadEach s root directory names).Moves R := by
  induction names with
  | nil => exact h.of_store_eq fun _ => rfl
  | cons name names ih =>
    refine h.bind (h.of_store_eq fun _ => rfl) fun _ => ?_
    refine h.bind (h.of_store_eq fun _ => rfl) fun source => ?_
    exact h.bind (h.evaluate source) fun _ => ih

theorem load : (Prelude.load s root).Moves R := by
  unfold Prelude.load
  refine h.bind (h.of_store_eq fun _ => rfl) fun directory => ?_
  refine h.bind (h.of_store_eq fun _ => rfl) fun found => ?_
  split
  · exact h.loadEach _ _
  · exact h.of_store_eq fun _ => rfl

theorem loadIfPresent : (Prelude.loadIfPresent s root).Moves R := by
  intro w
  have hload := h.load w
  unfold Prelude.loadIfPresent
  split
  · next path w' hw => rwa [hw] at hload
  · exact hload

theorem perform (w : World) (step : Step) : R w.store (step.perform s root w).store := by
  cases step with
  | eval source =>
    rw [Step.perform]
    exact h.run source w
  | display source =>
    rw [Step.perform]
    exact h.runDisplayed source w
  | prelude source =>
    rw [Step.perform]
    exact h.evaluate source w
  | load =>
    rw [Step.perform]
    exact h.load w

/-- what every evaluation keeps, every sequence of steps keeps -/
theorem after (w : World) (steps : List Step) : R w.store (after s root w steps).store := by
  induction steps generalizing w with
  | nil => exact h.refl _
  | cons step steps ih => exact h.trans _ _ _ (h.perform w step) (ih _)

end

end Keeps

/-- a session begins with a new root frame, and whatever it evaluates there comes after that -/
theorem Keeps.start {R : Store → Store → Prop} {s : Surroundings} {w : World} (h : Keeps R s.limits w.store.size)
    (beginning : Beginning) : R (w.store.push Builtin.bindings none) (start s beginning w).2.store := by
  have hroot : (Effect.newRoot : Load FrameId) w
      = (.ok w.store.size, { w with store := w.store.push Builtin.bindings none }) := rfl
  unfold Session.start
  rw [Effect.bind_ok hroot]
  have hmoves : ∀ x : Load Unit, x.Moves R → ((do x; pure w.store.size) : Load FrameId).Moves R :=
    fun x hx => h.bind hx fun _ => h.of_store_eq fun _ => rfl
  cases beginning with
  | nothing => exact h.refl _
  | prelude => exact hmoves _ h.loadIfPresent ⟨w.store.push Builtin.bindings none, w.printed, w.notes⟩
  | program source =>
    have hx := h.evaluate source
    dsimp only
    -- the program is not to be computed here
    generalize Prelude.evaluate s.limits w.store.size source = x at hx ⊢
    exact hmoves x hx ⟨w.store.push Builtin.bindings none, w.printed, w.notes⟩

end Session

end FrameLisp
