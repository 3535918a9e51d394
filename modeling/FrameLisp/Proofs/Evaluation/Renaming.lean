/-
The name of a parameter does not matter.

A function is called, and so is the function that has another name in place of one of its parameters, where the new
name occurs nowhere in it. The two runs hold different code and bind different names, and both give functions away that
other code may keep and call. Every step of the two runs leaves stores that mirror each other and makes them print the
lines of values that correspond (`World.Mirrors`), and a value or a fault of the one goes with a value or a fault of the
other (`Mirrored`). This goes step by step, through the shapes of data (`perform_mirrored`), and for
all of an evaluation (`Datum.evaluate_mirrored`).

So the two calls end in the same way, with the same value but for the names in functions that were made during the call,
or with faults of one kind (`parameter_name_does_not_matter`).
-/
import Mathlib
import FrameLisp.Proofs.Evaluation.Reachable
import FrameLisp.Proofs.Store.Mirrors

namespace FrameLisp

/-- the stores mirror each other, and since `p` was printed both printed the lines of values that correspond -/
structure World.Mirrors (c : FrameId) (x y p : String) (w v : World) : Prop where
  store : w.store.Mirrors c x y v.store
  printed : ∃ shown : List Datum, (∀ u ∈ shown, u.Tame w.store c y) ∧ w.printed = p ++ Renaming.lines shown ∧
    v.printed = p ++ Renaming.lines (shown.map (w.store.renamed c x y).value)

variable {c : FrameId} {x y p : String}

/-- a later store mirrors as well, where nothing was printed since -/
theorem World.Mirrors.later {w w' v v' : World} (h : World.Mirrors c x y p w v) (hst : w.store.Extends w'.store)
    (hstore : w'.store.Mirrors c x y v'.store) (hw : w'.printed = w.printed) (hv : v'.printed = v.printed) :
    World.Mirrors c x y p w' v' := by
  obtain ⟨shown, hshown, hpw, hpv⟩ := h.printed
  have hs := h.store.wellFormed
  refine ⟨hstore, shown, fun u hu => (hshown u hu).mono hst hs, hw.trans hpw, ?_⟩
  have hvalues : shown.map (w'.store.renamed c x y).value = shown.map (w.store.renamed c x y).value :=
    List.map_congr_left fun u hu => Store.value_of_extends hst hs (hshown u hu).within
  rw [hvalues]
  exact hv.trans hpv

/-- builtins print the lines of values that correspond -/
theorem World.Mirrors.print_builtin {w v : World} (h : World.Mirrors c x y p w v) (b : Builtin) {args : List Datum}
    (hargs : ∀ a ∈ args, a.Tame w.store c y) :
    World.Mirrors c x y p (w.print (b.output args)) (v.print (b.output (args.map (w.store.renamed c x y).value))) := by
  have houtput : ∃ shown : List Datum, (∀ u ∈ shown, u.Tame w.store c y) ∧ b.output args = Renaming.lines shown ∧
      b.output (args.map (w.store.renamed c x y).value)
        = Renaming.lines (shown.map (w.store.renamed c x y).value) := by
    by_cases hb : b = .print
    · subst hb
      refine ⟨[Builtin.operand args 0], ?_, ?_, ?_⟩
      · intro u hu
        rw [List.mem_singleton.1 hu]
        exact Datum.allClosures_operand hargs 0
      · simp [Builtin.output, Renaming.lines]
      · simp [Builtin.output, Renaming.lines, (w.store.renamed c x y).transport_value.operand_eq]
    · exact ⟨[], by simp, Builtin.output_eq_empty hb _, Builtin.output_eq_empty hb _⟩
  obtain ⟨shown, hshown, hpw, hpv⟩ := h.printed
  obtain ⟨more, hmore, hout, hout'⟩ := houtput
  refine ⟨h.store, shown ++ more, fun u hu => (List.mem_append.1 hu).elim (hshown u) (hmore u), ?_, ?_⟩
  · rw [World.print, hpw, hout, Renaming.lines_append, String.append_assoc]
  · rw [World.print, hpv, hout', List.map_append, Renaming.lines_append, String.append_assoc]
    rfl

/-- code that is its own value -/
theorem Store.Mirrors.value_fits {s t : Store} (h : s.Mirrors c x y t) {f : FrameId} {d u : Datum}
    (hd : s.Fits c y f d) (hu : d.shape = .value u) :
    u.Tame s c y ∧ (s.renamed c x y).codeIn f u = (s.renamed c x y).value u := by
  by_cases hin : c ∈ s.chain f
  · -- what was read and is its own value is a number, a text or the empty list
    have hread := hd.parsed hin
    have hshape := d.hasShape_shape
    rw [hu] at hshape
    rw [Renaming.codeIn_inside (Store.inside_renamed.2 hin)]
    cases hshape with
    | number z => exact ⟨Datum.allClosures_number z, rfl⟩
    | string s => exact ⟨Datum.allClosures_text s, rfl⟩
    | empty => exact ⟨hread.allClosures, rfl⟩
    | value hatom hlist =>
      cases hread with
      | atom a => exact absurd rfl (hatom a)
      | @list items _ => exact absurd rfl (hlist items)
  · have hold : u.Within c := Datum.AllClosures.of_value (hd.older hin) hu
    rw [Renaming.codeIn_outside (Store.inside_renamed_false.2 hin)]
    refine ⟨hold.tame h.wellFormed h.lt.le, (Renaming.value_eq_self ?_).symm⟩
    refine Datum.AllClosures.mono hold fun _ _ g hg => Store.inside_renamed_false.2 fun hin => ?_
    exact Nat.not_le.2 hg (Store.le_of_mem_chain h.wellFormed (hg.trans h.lt) hin)

namespace Evaluator

variable {α β : Type} {w v : World}

/-! ## Two runs side by side -/

/-- started in `w` and `v`, `a` and `b` both end with results that `ok` relates or both with faults of one kind, in
worlds that mirror each other -/
abbrev Mirrored (c : FrameId) (x y p : String) (a : Run α) (b : Run β) (w v : World) (ok : Store → α → β → Prop) :
    Prop :=
  Effect.CoupledAt (w.After (World.Mirrors c x y p)) (fun e e' => e'.kind = e.kind) ok a b w v

/-- `u` may be held by code that runs anywhere, and `u'` is the same but for the names -/
def Corresponds (c : FrameId) (x y : String) (s : Store) (u u' : Datum) : Prop :=
  u.Tame s c y ∧ u' = (s.renamed c x y).value u

/-- lists of values that correspond -/
def AllCorrespond (c : FrameId) (x y : String) (s : Store) (us us' : List Datum) : Prop :=
  (∀ u ∈ us, u.Tame s c y) ∧ us' = us.map (s.renamed c x y).value

theorem Corresponds.later {s t : Store} {u u' : Datum} (h : Corresponds c x y s u u') (hst : s.Extends t)
    (hs : s.WellFormed) : Corresponds c x y t u u' :=
  ⟨h.1.mono hst hs, h.2.trans (Store.value_of_extends hst hs h.1.within).symm⟩

theorem AllCorrespond.cons {s : Store} {u u' : Datum} {us us' : List Datum} (h : Corresponds c x y s u u')
    (hs : AllCorrespond c x y s us us') : AllCorrespond c x y s (u :: us) (u' :: us') := by
  refine ⟨List.forall_mem_cons.2 ⟨h.1, hs.1⟩, ?_⟩
  rw [List.map_cons, h.2, hs.2]

theorem mirrored_noteAll (h : World.Mirrors c x y p w v) (notes notes' : List Note) :
    Mirrored c x y p (Effect.noteAll notes) (Effect.noteAll notes') w v fun _ _ _ => True :=
  Effect.coupledAt_noteAll ⟨.refl _, h.store, h.printed⟩ trivial

theorem mirrored_define (h : World.Mirrors c x y p w v) {f : FrameId} (hf : f < w.store.size) {z : String}
    (hz : c ∈ w.store.chain f → z ≠ y) {u u' : Datum} (hu : Corresponds c x y w.store u u') :
    Mirrored c x y p (Effect.define f z u) (Effect.define f ((w.store.renamed c x y).nameIn f z) u') w v
      fun _ _ _ => True := by
  have hst : w.store.Extends (w.store.define f z u) := (Store.changesOnly_define w.store f z u).extends
  have hstore := h.store.define hf hz hu.1
  rw [← hu.2] at hstore
  exact Or.inl ⟨_, _, _, _, rfl, rfl, ⟨hst, h.later hst hstore rfl rfl⟩, trivial⟩

theorem mirrored_newFrame (h : World.Mirrors c x y p w v) {pairs : List (String × Datum)} {outer : FrameId}
    (hpairs : ∀ pair ∈ pairs, pair.2.Tame w.store c y) (houter : outer < w.store.size)
    (hnames : c ∈ w.store.chain outer → ∀ pair ∈ pairs, pair.1 ≠ y) :
    Mirrored c x y p (Effect.newFrame (Bindings.ofPairs pairs) (some outer))
      (Effect.newFrame (Bindings.ofPairs
        (Bindings.recode ((w.store.renamed c x y).nameIn outer) (w.store.renamed c x y).value pairs)) (some outer)) w v
      fun s g g' => g = w.store.size ∧ g' = w.store.size ∧ s = w.store.push (Bindings.ofPairs pairs) (some outer) := by
  have hst := Store.extends_push w.store (Bindings.ofPairs pairs) (some outer)
  have hstore := h.store.push hpairs houter hnames
  exact Or.inl ⟨_, _, _, _, rfl, rfl, ⟨hst, h.later hst hstore rfl rfl⟩, rfl, h.store.size, rfl⟩

theorem mirrored_lookup (h : World.Mirrors c x y p w v) {f : FrameId} (hf : f < w.store.size) {z : String}
    (hz : c ∈ w.store.chain f → z ≠ y) :
    Mirrored c x y p (Run.lookup f z) (Run.lookup f ((w.store.renamed c x y).nameIn f z)) w v (Corresponds c x y) :=
  Run.lookup_coupledAt (.refl h) (h.store.lookup? hf hz) (fun _ hu => ⟨h.store.tame.lookup hu, rfl⟩) rfl

theorem mirrored_builtin (h : World.Mirrors c x y p w v) (room : Nat) (b : Builtin) {args args' : List Datum}
    (hargs : AllCorrespond c x y w.store args args') :
    Mirrored c x y p (b.call room args) (b.call room args') w v (Corresponds c x y) := by
  obtain ⟨htame, rfl⟩ := hargs
  have htransport := (w.store.renamed c x y).transport_value
  refine htransport.call_coupledAt room b args (.refl h) ?_ (fun u hu => ?_) fun fault => ?_
  · exact ⟨.refl _, h.print_builtin b htame⟩
  · exact ⟨Datum.allClosures_result htame hu, rfl⟩
  · exact Fault.kind_map _ fault

/-! ## One level of evaluation -/

section

variable {ev : Evaluator} (hx : SpecialForm.ofKeyword? x = none) (hy : SpecialForm.ofKeyword? y = none)
  (hev : ∀ d f w v, World.Mirrors c x y p w v → f < w.store.size → w.store.Fits c y f d →
    Mirrored c x y p (ev d f) (ev ((w.store.renamed c x y).codeIn f d) f) w v (Corresponds c x y))

include hev

theorem each_mirrored (h : World.Mirrors c x y p w v) {f : FrameId} (hf : f < w.store.size) {ds : List Datum}
    (hds : ∀ d ∈ ds, w.store.Fits c y f d) :
    Mirrored c x y p (ev.each f ds) (ev.each f (ds.map ((w.store.renamed c x y).codeIn f))) w v
      (AllCorrespond c x y) := by
  induction ds generalizing w v with
  | nil => exact Effect.coupledAt_pure (.refl h) ⟨by simp, rfl⟩
  | cons d ds ih =>
    rw [List.forall_mem_cons] at hds
    refine (hev d f w v h hf hds.1).bind_after ?_
    intro u u' w₁ v₁ h₁ hmirrors hu
    have hs := h.store.wellFormed
    have hrest := ih hmirrors (hf.trans_le h₁.size_le) fun d hd => (hds.2 d hd).later h₁ hs hf
    rw [Store.codeIn_of_extends h₁ hs hf] at hrest
    refine hrest.bind_after ?_
    intro us us' w₂ v₂ h₂ hmirrors₂ hus
    have hu₂ : Corresponds c x y w₂.store u u' := hu.later h₂ hmirrors.store.wellFormed
    exact Effect.coupledAt_pure (.refl hmirrors₂) (AllCorrespond.cons hu₂ hus)

theorem sequence_mirrored (h : World.Mirrors c x y p w v) {f : FrameId} (hf : f < w.store.size) {ds : List Datum}
    (hds : ∀ d ∈ ds, w.store.Fits c y f d) {last last' : Datum} (hlast : Corresponds c x y w.store last last') :
    Mirrored c x y p (ev.sequence f last ds) (ev.sequence f last' (ds.map ((w.store.renamed c x y).codeIn f))) w v
      (Corresponds c x y) := by
  induction ds generalizing w v last last' with
  | nil => exact Effect.coupledAt_pure (.refl h) hlast
  | cons d ds ih =>
    rw [List.forall_mem_cons] at hds
    refine (hev d f w v h hf hds.1).bind_after ?_
    intro u u' w₁ v₁ h₁ hmirrors hu
    have hs := h.store.wellFormed
    have hrest := ih hmirrors (hf.trans_le h₁.size_le) (fun d hd => (hds.2 d hd).later h₁ hs hf) hu
    rwa [Store.codeIn_of_extends h₁ hs hf] at hrest

include hx hy

theorem fill_mirrored (h : World.Mirrors c x y p w v) {f : FrameId} (hf : f < w.store.size) {bindings : List Datum}
    (hbindings : ∀ b ∈ bindings, w.store.Fits c y f b) :
    Mirrored c x y p (ev.fill f bindings) (ev.fill f (bindings.map ((w.store.renamed c x y).codeIn f))) w v
      fun _ _ _ => True := by
  induction bindings generalizing w v with
  | nil => exact Effect.coupledAt_pure (.refl h) trivial
  | cons b bindings ih =>
    rw [List.forall_mem_cons] at hbindings
    have hs := h.store.wellFormed
    have hrecoding := Renaming.recoding_codeIn (r := w.store.renamed c x y) hx hy f
    simp only [List.map_cons, Evaluator.fill, hrecoding.binding?_eq]
    cases hb : binding? b with
    | none => exact Effect.coupledAt_fail (.refl h) (Fault.kind_map _ (.malformedBinding b))
    | some binding =>
      have hlist := binding?_eq_some_iff.1 hb
      have hbody : binding.2.Inside b := by
        rw [hlist]
        exact .item (by simp) .self
      have hname : (Datum.identifier binding.1).Inside b := by
        rw [hlist]
        exact .item List.mem_cons_self .self
      refine (hev binding.2 f w v h hf (hbindings.1.of_inside hbody)).bind_after ?_
      intro u u' w₁ v₁ h₁ hmirrors hu
      have hf₁ := hf.trans_le h₁.size_le
      have hz : c ∈ w₁.store.chain f → binding.1 ≠ y := by
        rw [Store.chain_of_extends h₁ hs hf]
        rintro hin rfl
        exact hbindings.1.fresh hin hname
      have hdefine := mirrored_define hmirrors hf₁ hz hu
      rw [Store.nameIn_of_extends h₁ hs hf] at hdefine
      refine hdefine.bind_after ?_
      intro _ _ w₂ v₂ h₂ hmirrors₂ _
      have h₁₂ := h₁.trans h₂
      have hrest := ih hmirrors₂ (hf.trans_le h₁₂.size_le) fun b hb => (hbindings.2 b hb).later h₁₂ hs hf
      rwa [Store.codeIn_of_extends h₁₂ hs hf] at hrest

omit hx hy in
theorem call_mirrored (room : Nat) (h : World.Mirrors c x y p w v) {function function' : Datum}
    {args args' : List Datum} (hfunction : Corresponds c x y w.store function function')
    (hargs : AllCorrespond c x y w.store args args') :
    Mirrored c x y p (ev.call room function args) (ev.call room function' args') w v (Corresponds c x y) := by
  obtain ⟨hfunction, rfl⟩ := hfunction
  cases function with
  | closure params body captured =>
    obtain ⟨⟨hcaptured, hparams, hbody⟩, -⟩ := Datum.allClosures_closure.1 hfunction
    obtain ⟨htame, rfl⟩ := hargs
    have hs := h.store.wellFormed
    have hc := h.store.lt
    have hpairs := Bindings.all_ofParams Datum.allClosures_absent htame params
    have hnames : c ∈ w.store.chain captured → ∀ pair ∈ Bindings.ofParams params args, pair.1 ≠ y := by
      rintro hin pair hpair rfl
      refine hparams hin ?_
      rw [← Bindings.map_fst_ofParams params args]
      exact List.mem_map_of_mem hpair
    have hnew := mirrored_newFrame h hpairs hcaptured hnames
    rw [← Bindings.ofParams_recode rfl] at hnew
    rw [Renaming.value_closure]
    refine hnew.bind_after ?_
    rintro _ _ w₁ v₁ h₁ hmirrors ⟨rfl, rfl, hw₁⟩
    have hlt : w.store.size < w₁.store.size := by rw [hw₁, Store.size_push]; exact Nat.lt_succ_self _
    have hfits : ∀ d ∈ body, w₁.store.Fits c y w.store.size d := by
      rw [hw₁]
      exact fun d hd => (hbody d hd).congr (Store.mem_chain_push hs hcaptured hc)
    have hforms := sequence_mirrored hev hmirrors hlt hfits ⟨Datum.allClosures_absent, rfl⟩
    rwa [hw₁, Store.codeIn_push hs hcaptured hc, ← hw₁] at hforms
  | builtin b => exact mirrored_builtin h room b hargs
  | list items =>
    rw [Renaming.value_list]
    have hkind : (Fault.notFunction (.list (items.map (w.store.renamed c x y).value))).kind
        = (Fault.notFunction (.list items)).kind := rfl
    exact Effect.coupledAt_fail (.refl h) hkind
  | atom | absent | number | text => exact Effect.coupledAt_fail (.refl h) rfl

omit hx hy in
theorem combine_mirrored (room : Nat) (h : World.Mirrors c x y p w v) {us us' : List Datum}
    (hus : AllCorrespond c x y w.store us us') :
    Mirrored c x y p (ev.combine room us) (ev.combine room us') w v (Corresponds c x y) := by
  obtain ⟨htame, rfl⟩ := hus
  cases us with
  | nil => exact Effect.coupledAt_pure (.refl h) ⟨Datum.allClosures_list.2 (by simp), (Renaming.value_list _ []).symm⟩
  | cons function values =>
    have hall := htame
    rw [List.forall_mem_cons] at htame
    simp only [List.map_cons, Evaluator.combine, (w.store.renamed c x y).transport_value.isFunction_eq]
    split
    · exact call_mirrored hev room h ⟨htame.1, rfl⟩ ⟨htame.2, rfl⟩
    · have hlist := (Renaming.value_list (w.store.renamed c x y) (function :: values)).symm
      exact Effect.coupledAt_pure (.refl h) ⟨Datum.allClosures_list.2 hall, hlist⟩

theorem perform_mirrored (room : Nat) (h : World.Mirrors c x y p w v) {f : FrameId} (hf : f < w.store.size) {d : Datum}
    (hd : w.store.Fits c y f d) :
    Mirrored c x y p (d.shape.perform room ev f)
      ((d.shape.map ((w.store.renamed c x y).nameIn f) ((w.store.renamed c x y).codeIn f)).perform room ev f) w v
      (Corresponds c x y) := by
  have hs := h.store.wellFormed
  have hpart : ∀ e ∈ d.shape.parts, w.store.Fits c y f e := fun e he => hd.part he
  have hname : ∀ z ∈ d.shape.names, c ∈ w.store.chain f → z ≠ y := fun z hz => hd.name_ne hz
  cases hshape : d.shape with
  | value u =>
    obtain ⟨hu, hcode⟩ := h.store.value_fits hd hshape
    rw [Shape.map, hcode]
    exact Effect.coupledAt_pure (.refl h) ⟨hu, rfl⟩
  | name z =>
    rw [hshape] at hname
    exact mirrored_lookup h hf (hname z (by simp [Shape.names]))
  | items head args =>
    rw [hshape] at hpart
    rw [Shape.map, perform_items, perform_items, ← List.map_cons]
    refine (each_mirrored hev h hf hpart).bind_after ?_
    intro us us' w₁ v₁ _ hmirrors hus
    exact combine_mirrored hev room hmirrors hus
  | define z body =>
    rw [hshape] at hpart hname
    refine (hev body f w v h hf (hpart body (by simp [Shape.parts]))).bind_after ?_
    intro u u' w₁ v₁ h₁ hmirrors hu
    have hz : c ∈ w₁.store.chain f → z ≠ y := by
      rw [Store.chain_of_extends h₁ hs hf]
      exact hname z (by simp [Shape.names])
    have hdefine := mirrored_define hmirrors (hf.trans_le h₁.size_le) hz hu
    rw [Store.nameIn_of_extends h₁ hs hf] at hdefine
    refine hdefine.bind_after ?_
    intro _ _ w₂ v₂ h₂ hmirrors₂ _
    exact Effect.coupledAt_pure (.refl hmirrors₂) (hu.later h₂ hmirrors.store.wellFormed)
  | conditional condition consequent alternative =>
    rw [hshape] at hpart
    refine (hev condition f w v h hf (hpart condition (by simp [Shape.parts]))).bind_after ?_
    intro u u' w₁ v₁ h₁ hmirrors hu
    have hf₁ := hf.trans_le h₁.size_le
    have hbranch : ∀ e ∈ d.shape.parts, Mirrored c x y p (ev e f) (ev ((w.store.renamed c x y).codeIn f e) f) w₁ v₁
        (Corresponds c x y) := by
      intro e he
      have hrun := hev e f w₁ v₁ hmirrors hf₁ ((hd.part he).later h₁ hs hf)
      rwa [Store.codeIn_of_extends h₁ hs hf] at hrun
    rw [hshape] at hbranch
    rw [hu.2, (w₁.store.renamed c x y).transport_value.holds_eq]
    split
    · exact hbranch consequent (by simp [Shape.parts])
    · cases alternative with
      | none => exact Effect.coupledAt_pure (.refl hmirrors) ⟨Datum.allClosures_absent, rfl⟩
      | some alternative => exact hbranch alternative (by simp [Shape.parts])
  | block bindings body =>
    rw [hshape] at hpart
    have hc := h.store.lt
    have hnew := mirrored_newFrame h (fun pair hpair => absurd hpair List.not_mem_nil) hf
      (fun _ pair hpair => absurd hpair List.not_mem_nil)
    refine hnew.bind_after ?_
    rintro _ _ w₁ v₁ h₁ hmirrors ⟨rfl, rfl, hw₁⟩
    have hlt : w.store.size < w₁.store.size := by rw [hw₁, Store.size_push]; exact Nat.lt_succ_self _
    have hfits : ∀ e ∈ body :: bindings, w₁.store.Fits c y w.store.size e := by
      rw [hw₁]
      exact fun e he => (hpart e he).congr (Store.mem_chain_push hs hf hc)
    have hcode : (w₁.store.renamed c x y).codeIn w.store.size = (w.store.renamed c x y).codeIn f := by
      rw [hw₁, Store.codeIn_push hs hf hc]
    have hfill := fill_mirrored hx hy hev hmirrors hlt fun b hb => hfits b (List.mem_cons_of_mem _ hb)
    rw [hcode] at hfill
    refine hfill.bind_after ?_
    intro _ _ w₂ v₂ h₂ hmirrors₂ _
    have hbody := hev body w.store.size w₂ v₂ hmirrors₂ (hlt.trans_le h₂.size_le)
      ((hfits body List.mem_cons_self).later h₂ hmirrors.store.wellFormed hlt)
    rwa [Store.codeIn_of_extends h₂ hmirrors.store.wellFormed hlt, hcode] at hbody
  | function params body =>
    rw [hshape] at hpart hname
    have hparams : c ∈ w.store.chain f → y ∉ params := fun hin hy => hname y hy hin rfl
    have hclosure := Store.Fits.closure_tame hs h.store.lt.le hf hparams hpart
    exact Effect.coupledAt_pure (.refl h) ⟨hclosure, (Renaming.value_closure _ params body f).symm⟩
  | malformed fault => exact Effect.coupledAt_fail (.refl h) (Fault.kind_map _ fault)

end

end Evaluator

/-- **Code with the new name does the same**: wherever it may run, it comes to what the code with the old name comes to,
but for the names -/
theorem Datum.evaluate_mirrored (hx : SpecialForm.ofKeyword? x = none) (hy : SpecialForm.ofKeyword? y = none)
    (room depth : Nat) (d : Datum) (f : FrameId) (w v : World) (h : World.Mirrors c x y p w v) (hf : f < w.store.size)
    (hd : w.store.Fits c y f d) :
    Evaluator.Mirrored c x y p (d.evaluate room depth f)
      (((w.store.renamed c x y).codeIn f d).evaluate room depth f) w v (Evaluator.Corresponds c x y) := by
  induction depth generalizing d f w v with
  | zero => exact Effect.coupledAt_fail (.refl h) rfl
  | succ depth ih =>
    have hrecoding := Renaming.recoding_codeIn (r := w.store.renamed c x y) hx hy f
    rw [evaluate_succ, evaluate_succ, evaluateWith_eq, evaluateWith_eq, hrecoding.shape_eq]
    refine (Evaluator.mirrored_noteAll h _ _).bind_after ?_
    intro _ _ w₁ v₁ h₁ hmirrors _
    have hs := h.store.wellFormed
    have hperform := Evaluator.perform_mirrored hx hy ih room hmirrors (hf.trans_le h₁.size_le) (hd.later h₁ hs hf)
    rwa [Store.nameIn_of_extends h₁ hs hf, Store.codeIn_of_extends h₁ hs hf] at hperform

/-- the forms of a function, and those of the function with the new name in place of a parameter, in the frames that
calls make -/
theorem Store.WellFormed.forms_mirrored {s : Store} (hs : s.WellFormed) {f : FrameId} (hf : f < s.size)
    {params : List String} {body : List Datum} (hbody : ∀ d ∈ body, d.Parsed) (hx : x ∈ params) (hparams : y ∉ params)
    (hfresh : ∀ d ∈ body, ¬ (Datum.identifier y).Inside d) (hold : SpecialForm.ofKeyword? x = none)
    (hnew : SpecialForm.ofKeyword? y = none) {args : List Datum} (hargs : ∀ a ∈ args, a.Within s.size)
    (room depth : Nat) (printed : String) (notes : Array Note) :
    Evaluator.Mirrored s.size x y printed ((Datum.evaluate room depth).sequence s.size .absent body)
      ((Datum.evaluate room depth).sequence s.size .absent (body.map (Datum.mapNames (replacing x y))))
      ⟨s.push (Bindings.ofPairs (Bindings.ofParams params args)) (some f), printed, notes⟩
      ⟨s.push (Bindings.ofPairs (Bindings.ofParams (params.map (replacing x y)) args)) (some f), printed, notes⟩
      (Evaluator.Corresponds s.size x y) := by
  have hstore := hs.mirrors_call hf hx hparams hargs
  have hself : s.size ∈ (s.push (Bindings.ofPairs (Bindings.ofParams params args)) (some f)).chain s.size := by
    rw [Store.mem_chain_inner hstore.wellFormed (by rw [Store.frame?_push, if_pos rfl]) rfl]
    exact Or.inl rfl
  have hfits : ∀ d ∈ body,
      (s.push (Bindings.ofPairs (Bindings.ofParams params args)) (some f)).Fits s.size y s.size d :=
    fun d hd => ⟨fun _ => hbody d hd, fun _ => hfresh d hd, fun hout => absurd hself hout⟩
  have hmirrors : World.Mirrors s.size x y printed
      ⟨s.push (Bindings.ofPairs (Bindings.ofParams params args)) (some f), printed, notes⟩
      ⟨s.push (Bindings.ofPairs (Bindings.ofParams (params.map (replacing x y)) args)) (some f), printed, notes⟩ :=
    ⟨hstore, [], by simp, String.append_empty.symm, String.append_empty.symm⟩
  have hrun := Evaluator.sequence_mirrored (Datum.evaluate_mirrored hold hnew room depth) hmirrors hstore.lt hfits
    ⟨Datum.allClosures_absent, rfl⟩
  rwa [Renaming.codeIn_inside (Store.inside_renamed.2 hself)] at hrun

/-- **The name of a parameter does not matter.** A function of a reachable store is called, and the function with `y` in
place of the parameter `x`, where `y` occurs nowhere in it. The calls end with the same value, but that functions made
during the call have `y` for `x` and captured frames that bind `y` for `x`, or with faults of one kind. They print the
lines of values that correspond, which differ in parameter lists at most. -/
theorem parameter_name_does_not_matter {s : Store} (hs : s.Reachable) {f : FrameId} (hf : f < s.size)
    {params : List String} {body : List Datum} (hbody : ∀ d ∈ body, d.Parsed) {x y : String} (hx : x ∈ params)
    (hparams : y ∉ params) (hfresh : ∀ d ∈ body, ¬ (Datum.identifier y).Inside d)
    (hold : SpecialForm.ofKeyword? x = none) (hnew : SpecialForm.ofKeyword? y = none) {args : List Datum}
    (hargs : ∀ a ∈ args, a.Within s.size) (room depth : Nat) (printed : String) (notes : Array Note) :
    let first := (Datum.evaluate room depth).call room (.closure params body f) args ⟨s, printed, notes⟩
    let second := (Datum.evaluate room depth).call room
      (.closure (params.map (replacing x y)) (body.map (Datum.mapNames (replacing x y))) f) args ⟨s, printed, notes⟩
    let r := first.2.store.renamed s.size x y
    (∀ v, first.1 = .ok v →
      second.1 = .ok (r.value v) ∧ (v.AllClosures (fun _ _ _ => False) → second.1 = .ok v)) ∧
    (∀ fault, first.1 = .error fault → ∃ fault', second.1 = .error fault' ∧ fault'.kind = fault.kind) ∧
    (∃ shown : List Datum, first.2.printed = printed ++ Renaming.lines shown ∧
      second.2.printed = printed ++ Renaming.lines (shown.map r.value) ∧
      r.SameText (Renaming.lines shown) (Renaming.lines (shown.map r.value))) ∧
    (∀ g, second.2.store.frame? g = (first.2.store.frame? g).map (r.frame g)) ∧
    (∀ v : Datum, v.Within s.size → r.value v = v) := by
  intro first second r
  have hsize : (s.push (Bindings.ofPairs (Bindings.ofParams params args)) (some f)).size = s.size + 1 :=
    Store.size_push ..
  -- what relates the ends of the two calls
  have hends : ∀ w' v', (s.push (Bindings.ofPairs (Bindings.ofParams params args)) (some f)).Extends w'.store →
      World.Mirrors s.size x y printed w' v' → first.2 = w' → second.2 = v' →
      (∃ shown : List Datum, first.2.printed = printed ++ Renaming.lines shown ∧
        second.2.printed = printed ++ Renaming.lines (shown.map r.value) ∧
        r.SameText (Renaming.lines shown) (Renaming.lines (shown.map r.value))) ∧
      (∀ g, second.2.store.frame? g = (first.2.store.frame? g).map (r.frame g)) ∧
      (∀ v : Datum, v.Within s.size → r.value v = v) := by
    rintro w' v' hst hmirrors rfl rfl
    obtain ⟨shown, -, hfirst, hsecond⟩ := hmirrors.printed
    have hgrown := hst.size_le
    rw [hsize] at hgrown
    have hle : s.size ≤ first.2.store.size := Nat.le_of_succ_le hgrown
    exact ⟨⟨shown, hfirst, hsecond, Renaming.sameText_lines shown⟩, hmirrors.store.frames,
      fun v hv => Store.value_older hmirrors.store.wellFormed hle hv⟩
  rcases hs.wellFormed.forms_mirrored hf hbody hx hparams hfresh hold hnew hargs room depth printed notes with
    ⟨u, w', u', v', hu, hu', ⟨hst, hmirrors⟩, -, hvalue⟩ | ⟨e, w', e', v', he, he', ⟨hst, hmirrors⟩, hkind⟩
  · have hfirst : first = (.ok u, w') := hu
    have hsecond : second = (.ok u', v') := hu'
    have hr : r.value u = u' := by rw [hvalue]; simp only [r, hfirst]
    refine ⟨fun v hv => ?_, fun fault hfault => ?_, ?_⟩
    · rw [hfirst] at hv
      cases hv
      rw [hsecond, hr]
      refine ⟨rfl, fun hnone => ?_⟩
      rw [← hr, Renaming.value_eq_self (Datum.AllClosures.mono hnone fun _ _ _ => False.elim)]
    · rw [hfirst] at hfault
      cases hfault
    · exact hends w' v' hst hmirrors (by rw [hfirst]) (by rw [hsecond])
  · have hfirst : first = (.error e, w') := he
    have hsecond : second = (.error e', v') := he'
    refine ⟨fun v hv => ?_, fun fault hfault => ?_, ?_⟩
    · rw [hfirst] at hv
      cases hv
    · rw [hfirst] at hfault
      cases hfault
      exact ⟨e', by rw [hsecond], hkind⟩
    · exact hends w' v' hst hmirrors (by rw [hfirst]) (by rw [hsecond])

/-- a function whose parameter comes twice and has the name of a builtin: it defines a function with this parameter
again, prints another one, binds the name in a let form, and gives a function away that sees this binding; the new name
is bound in the frame around -/
theorem repeated_parameter_is_renamed :
    let body : List Datum :=
      [.ofForm .define [.identifier "k", .ofForm .function [.list [.identifier "first"], .identifier "first"]],
        .list [.identifier "print", .ofForm .function [.list [.identifier "first", .identifier "z"]]],
        .ofForm .block [.list [.list [.identifier "first", .list [.identifier "k", .identifier "first"]]],
          .ofForm .function [.list [], .identifier "first"]]]
    let s := (Store.empty.push Builtin.bindings none).define 0 "y" (.text "outer")
    let args : List Datum := [.text "a", .text "b"]
    let first := (Datum.evaluate 1 6).call 1 (.closure ["first", "first"] body 0) args ⟨s, "", #[]⟩
    let second := (Datum.evaluate 1 6).call 1
      (.closure ["y", "y"] (body.map (Datum.mapNames (replacing "first" "y"))) 0) args ⟨s, "", #[]⟩
    s.Reachable ∧ 0 < s.size ∧ (∀ d ∈ body, d.Parsed) ∧ (∀ d ∈ body, ¬ (Datum.identifier "y").Inside d) ∧
      (∀ a ∈ args, a.Within s.size) ∧ first.1 = .ok (.closure [] [.identifier "first"] 2) ∧
      second.1 = .ok (.closure [] [.identifier "y"] 2) ∧ first.2.printed = "<lambda (first z)>\n" ∧
      second.2.printed = "<lambda (y z)>\n" := by
  intro body s args first second
  have hs : s.Reachable := Store.Reachable.empty.newRoot.define 0 "y" (Datum.allClosures_text _)
  have hsize : 0 < s.size := by decide
  have hbody : ∀ d ∈ body, d.Parsed := by
    simp [body, Datum.ofForm, Datum.identifier, Datum.parsed_list, Datum.Parsed.atom]
  have hfresh : ∀ d ∈ body, ¬ (Datum.identifier "y").Inside d := by
    simp [body, Datum.ofForm, Datum.identifier, Datum.inside_list, Datum.inside_atom, SpecialForm.keyword]
  have hargs : ∀ a ∈ args, a.Within s.size := by simp [args, Datum.Within]
  have hfirst : first.1 = .ok (.closure [] [.identifier "first"] 2) := by
    simp only [first, s, body, args]
    cbv
  have hprinted : first.2.printed = "<lambda (first z)>\n" := by decide +kernel
  have hprinted' : second.2.printed = "<lambda (y z)>\n" := by decide +kernel
  have hparam : "first" ∈ ["first", "first"] := by decide
  have hother : "y" ∉ ["first", "first"] := by decide
  obtain ⟨hvalue, -⟩ := parameter_name_does_not_matter hs hsize hbody hparam hother hfresh (by decide) (by decide)
    hargs 1 6 "" #[]
  have hinside : (first.2.store.renamed s.size "first" "y").inside 2 = true := by decide +kernel
  have hsecond := (hvalue _ hfirst).1
  rw [Renaming.value_closure, Renaming.codeIn_inside hinside] at hsecond
  exact ⟨hs, hsize, hbody, hfresh, hargs, hfirst, hsecond, hprinted, hprinted'⟩

end FrameLisp
