/-
Code with one name in place of another.

A `Renaming` puts a name in the place of another one in the code that runs in some of the frames: in its variables and
parameters, and where it defines names. What runs in other frames keeps its names, so the two names have to be told
apart only inside. A value is renamed in the functions that captured a frame inside (`Renaming.value`); a value without
such functions stays as it is (`value_eq_self`). What is printed of a renamed value is the same text but for parameter
lists (`sameText_displayAt`).
-/
import FrameLisp.Proofs.Datum.Mapping

namespace FrameLisp

namespace Datum

mutual

/-- the code in which the identifier `x` is `σ x` -/
def mapNames (σ : String → String) : Datum → Datum
  | .atom (.identifier x) => .atom (.identifier (σ x))
  | .list items => .list (mapNamesAll σ items)
  | d => d

def mapNamesAll (σ : String → String) : List Datum → List Datum
  | [] => []
  | d :: ds => mapNames σ d :: mapNamesAll σ ds

end

theorem mapNamesAll_eq_map (σ : String → String) (ds : List Datum) : mapNamesAll σ ds = ds.map (mapNames σ) := by
  induction ds with
  | nil => rfl
  | cons d ds ih => rw [mapNamesAll, ih, List.map_cons]

theorem mapNames_list (σ : String → String) (items : List Datum) :
    (Datum.list items).mapNames σ = .list (items.map (mapNames σ)) := by
  rw [mapNames, mapNamesAll_eq_map]

theorem recoding_mapNames {σ : String → String}
    (hσ : ∀ x, SpecialForm.ofKeyword? (σ x) = SpecialForm.ofKeyword? x) : Recoding σ (mapNames σ) := by
  refine ⟨fun x => rfl, fun x => rfl, fun s => rfl, fun x => rfl, fun s => rfl, mapNames_list σ, ?_, hσ⟩
  intro d hatom hlist
  cases d with
  | atom a => exact absurd rfl (hatom a)
  | list items => exact absurd rfl (hlist items)
  | _ => exact ⟨by simp [mapNames], by simp [mapNames]⟩

theorem recoding_id : Recoding id id :=
  ⟨fun _ => rfl, fun _ => rfl, fun _ => rfl, fun _ => rfl, fun _ => rfl, fun items => by rw [List.map_id]; rfl,
    fun _ hatom hlist => ⟨hatom, hlist⟩, fun _ => rfl⟩

end Datum

/-- the name `y` in place of `x` -/
def replacing (x y z : String) : String := if z = x then y else z

/-- one name in place of another, in the code that runs in the frames inside -/
structure Renaming where
  old : String
  new : String
  inside : FrameId → Bool

namespace Renaming

variable (r : Renaming)

def replace : String → String := replacing r.old r.new

/-- a name of the code that runs in frame `g` -/
def nameIn (g : FrameId) (x : String) : String := if r.inside g then r.replace x else x

/-- code that runs in frame `g` -/
def codeIn (g : FrameId) (d : Datum) : Datum := if r.inside g then d.mapNames r.replace else d

mutual

/-- the value in which the functions are renamed that captured a frame inside -/
def value : Datum → Datum
  | .list items => .list (valueAll items)
  | .closure params body g => .closure (params.map (r.nameIn g)) (body.map (r.codeIn g)) g
  | d => d

def valueAll : List Datum → List Datum
  | [] => []
  | d :: ds => value d :: valueAll ds

end

/-- what frame `g` is in place of `frame` -/
def frame (g : FrameId) (frame : Frame) : Frame := ⟨frame.bindings.recode (r.nameIn g) r.value, frame.outer⟩

theorem valueAll_eq_map (ds : List Datum) : r.valueAll ds = ds.map r.value := by
  induction ds with
  | nil => rfl
  | cons d ds ih => rw [valueAll, ih, List.map_cons]

theorem value_list (items : List Datum) : r.value (.list items) = .list (items.map r.value) := by
  rw [value, valueAll_eq_map]

theorem value_closure (params : List String) (body : List Datum) (g : FrameId) :
    r.value (.closure params body g) = .closure (params.map (r.nameIn g)) (body.map (r.codeIn g)) g := by
  rw [value]

theorem transport_value : Datum.Transport r.value :=
  ⟨fun _ => rfl, r.value_list, rfl, fun _ => rfl, fun _ => rfl,
    fun params body g => ⟨_, _, _, r.value_closure params body g⟩, fun _ => rfl⟩

variable {r}

theorem nameIn_inside {g : FrameId} (h : r.inside g = true) : r.nameIn g = r.replace := by
  funext x
  rw [nameIn, if_pos h]

theorem nameIn_outside {g : FrameId} (h : r.inside g = false) : r.nameIn g = id := by
  funext x
  rw [nameIn, h]
  rfl

theorem codeIn_inside {g : FrameId} (h : r.inside g = true) : r.codeIn g = Datum.mapNames r.replace := by
  funext d
  rw [codeIn, if_pos h]

theorem codeIn_outside {g : FrameId} (h : r.inside g = false) : r.codeIn g = id := by
  funext d
  rw [codeIn, h]
  rfl

theorem recoding_codeIn (hold : SpecialForm.ofKeyword? r.old = none) (hnew : SpecialForm.ofKeyword? r.new = none)
    (g : FrameId) : Datum.Recoding (r.nameIn g) (r.codeIn g) := by
  cases h : r.inside g with
  | true =>
    rw [nameIn_inside h, codeIn_inside h]
    refine Datum.recoding_mapNames fun x => ?_
    rw [replace, replacing]
    split
    · next hx => rw [hx, hold, hnew]
    · rfl
  | false =>
    rw [nameIn_outside h, codeIn_outside h]
    exact Datum.recoding_id

/-- names stay apart, unless the new name was there already -/
theorem injOn_nameIn (r : Renaming) (g : FrameId) : Set.InjOn (r.nameIn g) {x | r.inside g = true → x ≠ r.new} := by
  intro a ha b hb hab
  cases h : r.inside g with
  | false =>
    rw [nameIn_outside h] at hab
    exact hab
  | true =>
    rw [nameIn_inside h, replace, replacing, replacing] at hab
    split at hab
    · next hold =>
      split at hab
      · next hold' => exact hold.trans hold'.symm
      · exact absurd hab.symm (hb h)
    · split at hab
      · exact absurd hab (ha h)
      · exact hab

/-- a value is renamed in functions that captured a frame inside, and in nothing else -/
theorem value_eq_self {v : Datum} (h : v.AllClosures fun _ _ g => r.inside g = false) : r.value v = v := by
  induction v using Datum.induct with
  | list items ih =>
    rw [Datum.allClosures_list] at h
    have hitems : items.map r.value = items.map id := List.map_congr_left fun d hd => ih d hd (h d hd)
    rw [value_list, hitems, List.map_id]
  | closure params body g =>
    have hg := (Datum.allClosures_closure.1 h).1
    rw [value_closure, nameIn_outside hg, codeIn_outside hg, List.map_id, List.map_id]
  | _ => rfl

/-- it matters only whether the captured frames are inside -/
theorem value_congr {inside : FrameId → Bool} {v : Datum} (h : v.AllClosures fun _ _ g => inside g = r.inside g) :
    value { r with inside := inside } v = r.value v := by
  induction v using Datum.induct with
  | list items ih =>
    rw [Datum.allClosures_list] at h
    rw [value_list, value_list]
    exact congrArg Datum.list (List.map_congr_left fun d hd => ih d hd (h d hd))
  | closure params body g =>
    have hg := (Datum.allClosures_closure.1 h).1
    have hname : nameIn { r with inside := inside } g = r.nameIn g := by
      funext x
      simp only [nameIn, hg, replace]
    have hcode : codeIn { r with inside := inside } g = r.codeIn g := by
      have hreplace : replace { r with inside := inside } = r.replace := rfl
      funext d
      simp only [codeIn, hg, hreplace]
    rw [value_closure, value_closure, hname, hcode]
  | _ => rfl

/-! ## What is printed -/

/-- the same text, but that the parameter lists of some functions are renamed -/
inductive SameText (r : Renaming) : String → String → Prop
  | same (text : String) : SameText r text text
  | params (params : List String) : SameText r (Datum.closureText params) (Datum.closureText (params.map r.replace))
  | append {front front' back back' : String} (hfront : SameText r front front') (hback : SameText r back back') :
    SameText r (front ++ back) (front' ++ back')

theorem sameText_items {items : List Datum}
    (h : ∀ d ∈ items, SameText r (d.displayAt true) ((r.value d).displayAt true)) :
    SameText r (" ".intercalate (items.map (Datum.displayAt true)))
      (" ".intercalate ((items.map r.value).map (Datum.displayAt true))) := by
  induction items with
  | nil => exact .same _
  | cons d items ih =>
    rw [List.forall_mem_cons] at h
    cases items with
    | nil => simpa using h.1
    | cons e items =>
      simp only [List.map_cons, String.intercalate_cons_cons]
      exact (h.1.append (.same " ")).append (ih h.2)

theorem sameText_displayAt (nested : Bool) (v : Datum) :
    SameText r (v.displayAt nested) ((r.value v).displayAt nested) := by
  induction v using Datum.induct generalizing nested with
  | list items ih =>
    simp only [value_list, Datum.displayAt, Datum.displayItems_eq_map]
    exact ((SameText.same "(").append (sameText_items fun d hd => ih d hd true)).append (.same ")")
  | closure params body g =>
    simp only [value_closure, Datum.displayAt]
    cases h : r.inside g with
    | true =>
      rw [nameIn_inside h]
      exact .params params
    | false =>
      rw [nameIn_outside h, List.map_id]
      exact .same _
  | _ => exact .same _

/-- the lines that show values -/
def lines : List Datum → String
  | [] => ""
  | v :: vs => v.display ++ "\n" ++ lines vs

theorem lines_append (vs us : List Datum) : lines (vs ++ us) = lines vs ++ lines us := by
  induction vs with
  | nil => rw [List.nil_append, lines, String.empty_append]
  | cons v vs ih => simp only [List.cons_append, lines, ih, String.append_assoc]

/-- **Lines of renamed values** are the same but for parameter lists -/
theorem sameText_lines (vs : List Datum) : SameText r (lines vs) (lines (vs.map r.value)) := by
  induction vs with
  | nil => exact .same ""
  | cons v vs ih => exact ((sameText_displayAt false v).append (.same "\n")).append ih

end Renaming

end FrameLisp
