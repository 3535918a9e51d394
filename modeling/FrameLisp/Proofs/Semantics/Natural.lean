/-
The natural semantics of the language.

`Evaluates s f d r t out` says what it means to evaluate the datum `d` in the frame `f` of the store `s`: it comes to
`r`, a value or a fault, leaves the store `t` and prints `out`. There is a rule for every shape of data and for every
way in which its evaluation can go or fail, and what was done before a fault stays done. Lists of data, the bodies of
functions and the bindings of let forms have rules of their own (`EvaluatesEach`, `EvaluatesBody`, `Fills`).

The rules know nothing about limits. They say by themselves where a name is found (`Sees`) and which conditions fail
(`Falsy`); that the program looks names up and tests conditions in this way is `sees_iff` and `falsy_iff`.
-/
import FrameLisp.Proofs.Evaluation.Reachable

namespace FrameLisp.Semantics

open Datum (identifier)

/-- where a name is found: in the frame at hand if it binds it, else where the frame around it finds it -/
inductive Sees (s : Store) (x : String) : FrameId → Datum → Prop
  | here {g : FrameId} {frame : Frame} {v : Datum} (hg : s.frame? g = some frame)
      (hv : frame.bindings.value? x = some v) : Sees s x g v
  | around {g outer : FrameId} {frame : Frame} {v : Datum} (hg : s.frame? g = some frame)
      (hnone : frame.bindings.value? x = none) (houter : frame.outer = some outer) (h : Sees s x outer v) : Sees s x g v

/-- the values with which a condition fails: the two zeros, the empty text, the empty list and the absent value -/
inductive Falsy : Datum → Prop
  | zero {x : Float} (h : x.toBits = 0) : Falsy (.number x)
  | negativeZero {x : Float} (h : x.toBits = 0x8000000000000000) : Falsy (.number x)
  | text : Falsy (.text "")
  | list : Falsy (.list [])
  | absent : Falsy .absent

/-- a value that is neither a closure nor a builtin -/
def NotCallable (v : Datum) : Prop :=
  (∀ params body captured, v ≠ .closure params body captured) ∧ ∀ b, v ≠ .builtin b

/-- parameters with their arguments: one that has none is bound to the absent value, and further ones are ignored -/
def bound (params : List String) (args : List Datum) : Bindings :=
  Bindings.ofPairs (params.zip (args ++ List.replicate params.length .absent))

mutual

/-- `d`, evaluated in the frame `f` of `s`, comes to `r`, leaves `t` and prints `out` -/
inductive Evaluates : Store → FrameId → Datum → Except Fault Datum → Store → String → Prop
  | value {s f d v} (hd : d.HasShape (.value v)) : Evaluates s f d (.ok v) s ""
  | name {s f d x v} (hd : d.HasShape (.name x)) (hx : Sees s x f v) : Evaluates s f d (.ok v) s ""
  | unbound {s f d x} (hd : d.HasShape (.name x)) (hx : ∀ v, ¬ Sees s x f v) :
    Evaluates s f d (.error (.unbound x)) s ""
  | malformed {s f d fault} (hd : d.HasShape (.malformed fault)) : Evaluates s f d (.error fault) s ""
  | define {s f d x body v t out} (hd : d.HasShape (.define x body)) (hbody : Evaluates s f body (.ok v) t out) :
    Evaluates s f d (.ok v) (t.define f x v) out
  | defineFault {s f d x body fault t out} (hd : d.HasShape (.define x body))
    (hbody : Evaluates s f body (.error fault) t out) : Evaluates s f d (.error fault) t out
  | consequent {s f d condition consequent alternative v t out r u out'}
    (hd : d.HasShape (.conditional condition consequent alternative))
    (hcondition : Evaluates s f condition (.ok v) t out) (hv : ¬ Falsy v)
    (hbranch : Evaluates t f consequent r u out') :
    Evaluates s f d r u (out ++ out')
  | alternative {s f d condition consequent alternative v t out r u out'}
    (hd : d.HasShape (.conditional condition consequent (some alternative)))
    (hcondition : Evaluates s f condition (.ok v) t out) (hv : Falsy v) (hbranch : Evaluates t f alternative r u out') :
    Evaluates s f d r u (out ++ out')
  | noAlternative {s f d condition consequent v t out} (hd : d.HasShape (.conditional condition consequent none))
    (hcondition : Evaluates s f condition (.ok v) t out) (hv : Falsy v) : Evaluates s f d (.ok .absent) t out
  | conditionFault {s f d condition consequent alternative fault t out}
    (hd : d.HasShape (.conditional condition consequent alternative))
    (hcondition : Evaluates s f condition (.error fault) t out) : Evaluates s f d (.error fault) t out
  | block {s f d bindings body t out r u out'} (hd : d.HasShape (.block bindings body))
    (hbindings : Fills (s.push [] (some f)) s.size bindings (.ok ()) t out) (hbody : Evaluates t s.size body r u out') :
    Evaluates s f d r u (out ++ out')
  | blockFault {s f d bindings body fault t out} (hd : d.HasShape (.block bindings body))
    (hbindings : Fills (s.push [] (some f)) s.size bindings (.error fault) t out) :
    Evaluates s f d (.error fault) t out
  | function {s f d params body} (hd : d.HasShape (.function params body)) :
    Evaluates s f d (.ok (.closure params body f)) s ""
  | callClosure {s f d head args params body captured values t out r u out'} (hd : d.HasShape (.items head args))
    (hitems : EvaluatesEach s f (head :: args) (.ok (.closure params body captured :: values)) t out)
    (hbody : EvaluatesBody (t.push (bound params values) (some captured)) t.size .absent body r u out') :
    Evaluates s f d r u (out ++ out')
  | callBuiltin {s f d head args b values t out} (hd : d.HasShape (.items head args))
    (hitems : EvaluatesEach s f (head :: args) (.ok (.builtin b :: values)) t out) :
    Evaluates s f d (b.result values) t (out ++ b.output values)
  | items {s f d head args v values t out} (hd : d.HasShape (.items head args))
    (hitems : EvaluatesEach s f (head :: args) (.ok (v :: values)) t out) (hv : NotCallable v) :
    Evaluates s f d (.ok (.list (v :: values))) t out
  | itemsFault {s f d head args fault t out} (hd : d.HasShape (.items head args))
    (hitems : EvaluatesEach s f (head :: args) (.error fault) t out) : Evaluates s f d (.error fault) t out

/-- the data of a list are evaluated once each, from left to right -/
inductive EvaluatesEach : Store → FrameId → List Datum → Except Fault (List Datum) → Store → String → Prop
  | nil {s f} : EvaluatesEach s f [] (.ok []) s ""
  | cons {s f d ds v values t out u out'} (hd : Evaluates s f d (.ok v) t out)
    (hds : EvaluatesEach t f ds (.ok values) u out') : EvaluatesEach s f (d :: ds) (.ok (v :: values)) u (out ++ out')
  | headFault {s f d ds fault t out} (hd : Evaluates s f d (.error fault) t out) :
    EvaluatesEach s f (d :: ds) (.error fault) t out
  | tailFault {s f d ds v fault t out u out'} (hd : Evaluates s f d (.ok v) t out)
    (hds : EvaluatesEach t f ds (.error fault) u out') : EvaluatesEach s f (d :: ds) (.error fault) u (out ++ out')

/-- the forms of a body are evaluated one after another, and the last value counts; `last` is the value so far -/
inductive EvaluatesBody : Store → FrameId → Datum → List Datum → Except Fault Datum → Store → String → Prop
  | nil {s f last} : EvaluatesBody s f last [] (.ok last) s ""
  | cons {s f last d ds v t out r u out'} (hd : Evaluates s f d (.ok v) t out) (hds : EvaluatesBody t f v ds r u out') :
    EvaluatesBody s f last (d :: ds) r u (out ++ out')
  | fault {s f last d ds fault t out} (hd : Evaluates s f d (.error fault) t out) :
    EvaluatesBody s f last (d :: ds) (.error fault) t out

/-- a frame is filled binding by binding, each value evaluated in the frame as it is by then -/
inductive Fills : Store → FrameId → List Datum → Except Fault Unit → Store → String → Prop
  | nil {s f} : Fills s f [] (.ok ()) s ""
  | cons {s f x body bs v t out r u out'} (hbody : Evaluates s f body (.ok v) t out)
    (hbs : Fills (t.define f x v) f bs r u out') : Fills s f (.list [identifier x, body] :: bs) r u (out ++ out')
  | fault {s f x body bs fault t out} (hbody : Evaluates s f body (.error fault) t out) :
    Fills s f (.list [identifier x, body] :: bs) (.error fault) t out
  | malformed {s f b bs} (hb : ∀ x body, b ≠ .list [identifier x, body]) :
    Fills s f (b :: bs) (.error (.malformedBinding b)) s ""

end

/-! ## What the program does instead -/

theorem sees_iff {s : Store} (hs : s.WellFormed) {f : FrameId} (hf : f < s.size) {x : String} {v : Datum} :
    Sees s x f v ↔ s.lookup? f x = some v := by
  refine ⟨?_, ?_⟩
  · intro h
    induction h with
    | here hg hv => exact Store.lookup?_here hg hv
    | around hg hnone houter _ ih =>
      rw [Store.lookup?_eq hg (hs.outer_lt _ _ · hg), hnone, houter, Option.none_or, Option.bind_some]
      exact ih ((hs.outer_lt _ _ _ hg houter).trans (Store.lt_size hg))
  · refine hs.induct (motive := fun g => s.lookup? g x = some v → Sees s x g v) ?_ hf
    intro g frame hg ih h
    rw [Store.lookup?_eq hg (hs.outer_lt _ _ · hg)] at h
    rcases Option.or_eq_some_iff.1 h with hhere | ⟨hnone, haround⟩
    · exact .here hg hhere
    · obtain ⟨outer, houter, hv⟩ := Option.bind_eq_some_iff.1 haround
      exact .around hg hnone houter (ih outer houter hv)

theorem isZero_iff {x : Float} :
    Number.isZero x = true ↔ x.toBits = 0 ∨ x.toBits = 0x8000000000000000 := by
  have hlt : x.toBits.toNat < 0x10000000000000000 := x.toBits.toNat_lt
  have hbits : ∀ {negative : Bool} {scale : Int}, Binary.ofFloat x = .finite negative 0 scale →
      x.toBits = 0 ∨ x.toBits = 0x8000000000000000 := by
    intro negative scale h
    have hzero := ((Binary.ofBits_eq_zero hlt).1 h).2
    cases negative with
    | false => exact Or.inl (UInt64.toNat_inj.1 hzero)
    | true => exact Or.inr (UInt64.toNat_inj.1 hzero)
  refine ⟨?_, ?_⟩
  · intro h
    unfold Number.isZero at h
    split at h
    · next hfinite => exact hbits hfinite
    · cases h
  · intro h
    unfold Number.isZero Binary.ofFloat
    rcases h with h | h
    · rw [h]
      decide
    · rw [h]
      decide

theorem falsy_iff {v : Datum} : Falsy v ↔ v.holds = false := by
  refine ⟨?_, ?_⟩
  · intro h
    cases h with
    | zero h => simp [Datum.holds, isZero_iff.2 (Or.inl h)]
    | negativeZero h => simp [Datum.holds, isZero_iff.2 (Or.inr h)]
    | text => rfl
    | list => rfl
    | absent => rfl
  · intro h
    cases v with
    | number x =>
      simp only [Datum.holds, Bool.not_eq_false'] at h
      rcases isZero_iff.1 h with h | h
      · exact .zero h
      · exact .negativeZero h
    | text s =>
      simp only [Datum.holds, bne_eq_false_iff_eq] at h
      rw [h]
      exact .text
    | list items =>
      simp only [Datum.holds, Bool.not_eq_false', List.isEmpty_iff] at h
      rw [h]
      exact .list
    | absent => exact .absent
    | atom | closure | builtin => simp [Datum.holds] at h

theorem notCallable_iff {v : Datum} : NotCallable v ↔ v.isFunction = false := by
  refine ⟨?_, ?_⟩
  · rintro ⟨hclosure, hbuiltin⟩
    cases v with
    | closure params body captured => exact absurd rfl (hclosure params body captured)
    | builtin b => exact absurd rfl (hbuiltin b)
    | _ => rfl
  · intro h
    refine ⟨?_, ?_⟩
    · rintro params body captured rfl
      cases h
    · rintro b rfl
      cases h

theorem zip_replicate_eq (params : List String) (args : List Datum) (n : Nat) (h : params.length ≤ n) :
    params.zip (args ++ List.replicate n .absent) = Bindings.ofParams params args := by
  induction params generalizing args n with
  | nil => simp [Bindings.ofParams]
  | cons param params ih =>
    have hlen : params.length + 1 ≤ n := by simpa using h
    cases args with
    | nil =>
      obtain ⟨n, rfl⟩ : ∃ m, n = m + 1 := ⟨n - 1, by omega⟩
      have htail := ih [] n (by omega)
      rw [List.nil_append] at htail
      simp [Bindings.ofParams, List.replicate_succ, htail]
    | cons arg args => simp [Bindings.ofParams, ih args n (by omega)]

theorem bound_eq (params : List String) (args : List Datum) :
    bound params args = Bindings.ofPairs (Bindings.ofParams params args) := by
  rw [bound, zip_replicate_eq params args params.length le_rfl]

end FrameLisp.Semantics
