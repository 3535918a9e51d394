/-
Computations over frames, printed text and notes.

A world is the store of frames, the text printed so far and the notes made so far. A computation goes from a
world to a result or a fault and to the world that it leaves. When it fails, what it did before stays done
(`bind_error`).
-/
import FrameLisp.Fault
import FrameLisp.Note
import FrameLisp.Store.Frame

namespace FrameLisp

/-- what computations read and change -/
structure World where
  store : Store
  printed : String
  notes : Array Note

namespace World

/-- no frames, nothing printed and nothing noted -/
def empty : World := ⟨.empty, "", #[]⟩

def print (w : World) (text : String) : World := { w with printed := w.printed ++ text }

def note (w : World) (n : Note) : World := { w with notes := w.notes.push n }

end World

/-- a computation that ends with a result or with a fault of type `ε`, and leaves a world either way -/
def Effect (ε α : Type) : Type := World → Except ε α × World

/-- the computations of the language -/
abbrev Run := Effect Fault

namespace Effect

variable {ε ε' α β : Type}

instance : Monad (Effect ε) where
  pure a := fun w => (.ok a, w)
  bind x next := fun w =>
    match x w with
    | (.ok a, w') => next a w'
    | (.error e, w') => (.error e, w')

/-- stops with a fault -/
def fail (e : ε) : Effect ε α := fun w => (.error e, w)

/-- something read off the world -/
def view (f : World → α) : Effect ε α := fun w => (.ok (f w), w)

/-- a change of the world -/
def change (f : World → World) : Effect ε Unit := fun w => (.ok (), f w)

/-- a result or a fault that does not depend on the world -/
def ofExcept (r : Except ε α) : Effect ε α := fun w => (r, w)

/-- the same computation with its faults renamed -/
def mapFault (rename : ε → ε') (x : Effect ε α) : Effect ε' α := fun w =>
  match x w with
  | (.ok a, w') => (.ok a, w')
  | (.error e, w') => (.error (rename e), w')

@[simp] theorem pure_apply (a : α) (w : World) : (pure a : Effect ε α) w = (.ok a, w) := rfl

@[simp] theorem fail_apply (e : ε) (w : World) : (fail e : Effect ε α) w = (.error e, w) := rfl

theorem bind_apply (x : Effect ε α) (next : α → Effect ε β) (w : World) :
    (x >>= next) w = match x w with
      | (.ok a, w') => next a w'
      | (.error e, w') => (.error e, w') := rfl

theorem bind_ok {x : Effect ε α} {w w' : World} {a : α} (h : x w = (.ok a, w')) (next : α → Effect ε β) :
    (x >>= next) w = next a w' := by
  rw [bind_apply, h]

/-- a fault ends a computation, and the world stays as it was left -/
theorem bind_error {x : Effect ε α} {w w' : World} {e : ε} (h : x w = (.error e, w')) (next : α → Effect ε β) :
    (x >>= next) w = (.error e, w') := by
  rw [bind_apply, h]

instance : LawfulMonad (Effect ε) := LawfulMonad.mk' _
  (fun x => by
    funext w
    change (x >>= fun a => pure (id a)) w = x w
    rw [bind_apply]
    split <;> simp_all)
  (fun _ _ => rfl)
  (fun x _ _ => by
    funext w
    simp only [bind_apply]
    cases x w with
    | mk r w' => cases r <;> rfl)

/-- renaming faults goes step by step -/
theorem mapFault_bind (rename : ε → ε') (x : Effect ε α) (next : α → Effect ε β) :
    (x >>= next).mapFault rename = x.mapFault rename >>= fun a => (next a).mapFault rename := by
  funext w
  simp only [mapFault, bind_apply]
  cases x w with
  | mk r w' => cases r <;> rfl

theorem fail_bind (e : ε) (next : α → Effect ε β) : (fail e >>= next) = fail e := rfl

theorem mapFault_fail (rename : ε → ε') (e : ε) : (fail e : Effect ε α).mapFault rename = fail (rename e) := rfl

theorem mapFault_pure (rename : ε → ε') (a : α) : (pure a : Effect ε α).mapFault rename = pure a := rfl

/-! ## What computations do to a world -/

/-- makes a frame and gives its number -/
def newFrame (bindings : Bindings) (outer : Option FrameId) : Effect ε FrameId := fun w =>
  (.ok w.store.size, { w with store := w.store.push bindings outer })

/-- binds a name in a frame -/
def define (frame : FrameId) (name : String) (value : Datum) : Effect ε Unit :=
  change fun w => { w with store := w.store.define frame name value }

/-- binds one name after another in a frame -/
def defineAll (frame : FrameId) (pairs : List (String × Datum)) : Effect ε Unit :=
  change fun w => { w with store := w.store.update frame fun bindings => bindings.assignAll pairs }

def print (text : String) : Effect ε Unit := change fun w => w.print text

def note (n : Note) : Effect ε Unit := change fun w => w.note n

def noteAll (notes : List Note) : Effect ε Unit := change fun w => notes.foldl World.note w

@[simp] theorem view_apply (f : World → α) (w : World) : (view f : Effect ε α) w = (.ok (f w), w) := rfl

theorem ofExcept_ok (a : α) : (ofExcept (.ok a) : Effect ε α) = pure a := rfl

theorem ofExcept_error (e : ε) : (ofExcept (.error e) : Effect ε α) = fail e := rfl

@[simp] theorem ofExcept_apply (r : Except ε α) (w : World) : ofExcept r w = (r, w) := rfl

@[simp] theorem newFrame_apply (bindings : Bindings) (outer : Option FrameId) (w : World) :
    (newFrame bindings outer : Effect ε FrameId) w
      = (.ok w.store.size, { w with store := w.store.push bindings outer }) := rfl

@[simp] theorem define_apply (frame : FrameId) (name : String) (value : Datum) (w : World) :
    (define frame name value : Effect ε Unit) w
      = (.ok (), { w with store := w.store.define frame name value }) := rfl

@[simp] theorem print_apply (text : String) (w : World) : (print text : Effect ε Unit) w = (.ok (), w.print text) := rfl

@[simp] theorem note_apply (n : Note) (w : World) : (note n : Effect ε Unit) w = (.ok (), w.note n) := rfl

/-- notes are all that taking notes changes -/
theorem noteAll_apply (notes : List Note) (w : World) :
    (noteAll notes : Effect ε Unit) w = (.ok (), { w with notes := w.notes ++ notes.toArray }) := by
  have hfold : ∀ w : World, notes.foldl World.note w = { w with notes := w.notes ++ notes.toArray } := by
    induction notes with
    | nil => intro w; simp
    | cons n notes ih => intro w; rw [List.foldl_cons, ih]; simp [World.note]
  exact congrArg (Prod.mk _) (hfold w)

end Effect

/-- the value of a name as a frame sees it -/
def Run.lookup (frame : FrameId) (name : String) : Run Datum := fun w =>
  match w.store.lookup? frame name with
  | some value => (.ok value, w)
  | none => (.error (.unbound name), w)

end FrameLisp
