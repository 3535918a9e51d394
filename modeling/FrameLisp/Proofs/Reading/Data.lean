/-
Printed data reads back as itself.

Data are finite numbers, texts that can stand between quotation marks, and lists of data (`Datum.IsData`). What is
printed for a list of them is a tree laid out with single spaces: a leaf for each number and text, a node for each list.
The form of that tree evaluates to the same data again, since nothing in it is an identifier: no list is a special form,
and no value is a function that could be called.

Results:
- `Tree.Sound.laid`: a tree laid out with single spaces has its tokens for its tokens.
- `Datum.chars_tree`: that layout of the tree of a datum is what is printed for it.
- `Datum.IsData.evaluates`: the form of data evaluates to the same data, and nothing else happens.
- `printed_data_reads_back`: from what is printed for a list of data, one form is read, and its value is the list.
- `displayed_data_reads_back`: where less may be shown than read and evaluated, all that a program prints of data reads
  back.
-/
import FrameLisp.Datum.Display
import FrameLisp.Proofs.Number.Printed
import FrameLisp.Proofs.Reading.Tree

namespace FrameLisp

/-! ## Single spaces -/

namespace Tree

mutual

/-- the pieces of a tree: nothing but a space between two children -/
def pieces (gap : String) : Tree → List Token.Piece
  | .leaf t => [⟨gap, t⟩]
  | .node children => ⟨gap, "("⟩ :: (piecesAll "" children ++ [⟨"", ")"⟩])

/-- the pieces of trees one after another, the first one after a gap -/
def piecesAll (gap : String) : List Tree → List Token.Piece
  | [] => []
  | tree :: trees => pieces gap tree ++ piecesAll " " trees

end

/-- what makes pieces a layout of tokens, the first one after a gap -/
structure Laid (gap : String) (pieces : List Token.Piece) (tokens : List String) : Prop where
  tokens_eq : pieces.map (·.token) = tokens
  gaps : ∀ p ∈ pieces, Text.IsGap p.gap
  apart : pieces.IsChain Token.Piece.Apart
  head_gap : ∀ p ∈ pieces.head?, p.gap = gap

namespace Laid

variable {gap : String} {pieces others : List Token.Piece} {tokens more : List String}

theorem nil : Laid gap [] [] := ⟨rfl, by simp, .nil, by simp⟩

theorem single {t : String} (hgap : Text.IsGap gap) : Laid gap [⟨gap, t⟩] [t] :=
  ⟨rfl, by simpa using hgap, .singleton _, by simp⟩

/-- a space keeps pieces apart -/
theorem append (h : Laid gap pieces tokens) (hne : pieces ≠ []) (hothers : Laid " " others more) :
    Laid gap (pieces ++ others) (tokens ++ more) where
  tokens_eq := by rw [List.map_append, h.tokens_eq, hothers.tokens_eq]
  gaps := List.forall_mem_append.2 ⟨h.gaps, hothers.gaps⟩
  apart := by
    refine h.apart.append hothers.apart fun p _ q hq => .inr (.inr ?_)
    rw [hothers.head_gap q hq]
    decide
  head_gap := by
    intro p hp
    rw [List.head?_append_of_ne_nil _ hne] at hp
    exact h.head_gap p hp

/-- and a parenthesis does -/
theorem enclose (h : Laid "" pieces tokens) (hgap : Text.IsGap gap) :
    Laid gap (⟨gap, "("⟩ :: (pieces ++ [⟨"", ")"⟩])) ("(" :: (tokens ++ [")"])) where
  tokens_eq := by rw [List.map_cons, List.map_append, h.tokens_eq]; rfl
  gaps := by
    have hclose : Text.IsGap "" := Text.isGap_empty
    exact List.forall_mem_cons.2 ⟨hgap, List.forall_mem_append.2 ⟨h.gaps, List.forall_mem_singleton.2 hclose⟩⟩
  apart := by
    have hclose : List.IsChain Token.Piece.Apart (pieces ++ [⟨"", ")"⟩]) := by
      refine h.apart.append (.singleton _) fun p _ q hq => .inr (.inl ?_)
      obtain rfl : Token.Piece.mk "" ")" = q := by simpa using hq
      exact .inr rfl
    exact List.isChain_cons.2 ⟨fun _ _ => .inl (.inl rfl), hclose⟩
  head_gap := by
    intro p hp
    obtain rfl : Token.Piece.mk gap "(" = p := by simpa using hp
    rfl

end Laid

theorem pieces_ne_nil (gap : String) (tree : Tree) : pieces gap tree ≠ [] := by
  cases tree <;> simp [pieces]

theorem laid_all {forest : List Tree}
    (h : ∀ tree ∈ forest, ∀ gap, Text.IsGap gap → Laid gap (pieces gap tree) tree.tokens) {gap : String}
    (hgap : Text.IsGap gap) : Laid gap (piecesAll gap forest) (tokensAll forest) := by
  induction forest generalizing gap with
  | nil => exact .nil
  | cons tree forest ih =>
    have hhead := h tree List.mem_cons_self gap hgap
    have htail : Laid " " (piecesAll " " forest) (tokensAll forest) :=
      ih (fun tree ht => h tree (List.mem_cons_of_mem _ ht)) (by decide)
    rw [piecesAll, tokensAll]
    exact hhead.append (pieces_ne_nil gap tree) htail

/-- the pieces of a tree lay out its tokens -/
theorem Sound.laid {tree : Tree} (h : tree.Sound) {gap : String} (hgap : Text.IsGap gap) :
    Laid gap (pieces gap tree) tree.tokens := by
  induction h generalizing gap with
  | leaf _ =>
    rw [pieces, tokens]
    exact .single hgap
  | node _ ih =>
    have hchildren := laid_all (fun tree ht _ hgap => ih tree ht hgap) Text.isGap_empty
    rw [pieces, tokens]
    exact hchildren.enclose hgap

/-- the layout of a tree with single spaces -/
def Sound.layout {tree : Tree} (h : tree.Sound) : Token.Layout where
  pieces := pieces "" tree
  trail := ""
  gaps := (h.laid Text.isGap_empty).gaps
  trail_gap := Text.isGap_empty
  apart := (h.laid Text.isGap_empty).apart

theorem Sound.tokens_layout {tree : Tree} (h : tree.Sound) : h.layout.tokens = tokensAll [tree] := by
  have htokens := (h.laid Text.isGap_empty).tokens_eq
  rw [tokensAll, tokensAll, List.append_nil, ← htokens]
  rfl

end Tree

/-! ## What is printed -/

namespace Datum

mutual

/-- what is printed for a datum inside a list, as a tree of tokens -/
def tree : Datum → Tree
  | .list items => .node (trees items)
  | d => .leaf (displayAt true d)

def trees : List Datum → List Tree
  | [] => []
  | d :: ds => tree d :: trees ds

end

theorem trees_eq_map (items : List Datum) : trees items = items.map tree := by
  induction items with
  | nil => rfl
  | cons d ds ih => rw [trees, ih, List.map_cons]

theorem tree_list (items : List Datum) : (list items).tree = .node (items.map tree) := by
  rw [tree, trees_eq_map]

theorem form_tree_list (items : List Datum) : (list items).tree.form = .list (items.map fun d => d.tree.form) := by
  rw [tree_list, Tree.form_node, List.map_map]
  rfl

theorem displayAt_list (items : List Datum) :
    displayAt true (.list items) = "(" ++ " ".intercalate (items.map (displayAt true)) ++ ")" := by
  rw [displayAt, displayItems_eq_map]

/-! ## What is printed is the layout -/

open Token.Layout

theorem chars_append (front back : List Token.Piece) : chars (front ++ back) "" = chars front "" ++ chars back "" := by
  simp [chars]

/-- the items of a list, one space apart -/
theorem chars_trees {d : Datum} {ds : List Datum}
    (h : ∀ e ∈ d :: ds, ∀ gap, chars (e.tree.pieces gap) "" = gap.toList ++ (displayAt true e).toList) (gap : String) :
    chars (Tree.piecesAll gap ((d :: ds).map tree)) ""
      = gap.toList ++ (" ".intercalate ((d :: ds).map (displayAt true))).toList := by
  induction ds generalizing d gap with
  | nil =>
    have hone := h d List.mem_cons_self gap
    simpa [Tree.piecesAll] using hone
  | cons e es ih =>
    have hhead := h d List.mem_cons_self gap
    have htail := ih (fun e he => h e (List.mem_cons_of_mem _ he)) " "
    rw [List.map_cons, Tree.piecesAll, chars_append, hhead, htail, List.map_cons, List.map_cons, List.map_cons,
      String.intercalate_cons_cons]
    simp

/-- laid out with single spaces, the tree of a datum is what is printed for it -/
theorem chars_tree (d : Datum) (gap : String) :
    chars (d.tree.pieces gap) "" = gap.toList ++ (displayAt true d).toList := by
  induction d using Datum.induct generalizing gap with
  | list items ih =>
    have hitems : chars (Tree.piecesAll "" (items.map tree)) ""
        = (" ".intercalate (items.map (displayAt true))).toList := by
      cases items with
      | nil => rfl
      | cons d ds => exact chars_trees ih ""
    rw [tree_list, Tree.pieces, chars_cons, chars_append, hitems, displayAt_list]
    simp [chars]
  | _ => simp [tree, Tree.pieces, chars]

theorem text_layout {items : List Datum} (h : (list items).tree.Sound) : h.layout.text = (list items).display := by
  have hchars := chars_tree (list items) ""
  have hdisplay : displayAt true (list items) = (list items).display := by rw [displayAt_list, display_list]
  rw [hdisplay] at hchars
  exact String.toList_injective (by rw [Token.Layout.text, String.toList_ofList]; exact hchars)

/-- a datum and the form of its tree are nested equally deep -/
theorem nestedWithin_form (d : Datum) (limit : Nat) : d.tree.form.nestedWithin limit = d.nestedWithin limit := by
  induction d using Datum.induct generalizing limit with
  | list items ih =>
    rw [form_tree_list]
    cases limit with
    | zero => rw [nestedWithin_list_zero, nestedWithin_list_zero]
    | succ limit =>
      rw [nestedWithin_list_succ, nestedWithin_list_succ, List.all_map]
      rw [Bool.eq_iff_iff, List.all_eq_true, List.all_eq_true]
      exact forall₂_congr fun d hd => iff_of_eq (congrArg (· = true) (ih d hd limit))
  | _ => rfl

end Datum

/-! ## Data -/

/-- whether a number is neither an infinity nor not a number -/
def Number.IsFinite (x : Float) : Prop := ∃ negative m q, Binary.ofFloat x = .finite negative m q

/-- the token of a finite number is a word, and stands for a number equal to it -/
theorem Number.IsFinite.token {x : Float} (h : IsFinite x) :
    Token.IsWord (displayText x) ∧ ∃ y, Atom.ofToken (displayText x) = .number y ∧ (y == x) = true := by
  obtain ⟨negative, m, q, hx⟩ := h
  obtain ⟨n, htext, hread⟩ := displayText_reads_back hx
  refine ⟨Numeral.isWord_of_ofChars? htext, n.toFloat, ?_, hread⟩
  rw [Atom.ofToken, htext]

namespace Datum

/-- finite numbers, texts that can stand between quotation marks, and lists of data -/
inductive IsData : Datum → Prop
  | number {x : Float} : Number.IsFinite x → IsData (.number x)
  | text {s : String} : Token.Quotable s → IsData (.text s)
  | list {items : List Datum} : (∀ d ∈ items, IsData d) → IsData (.list items)

/-- equal data: equal numbers, the same texts, and lists of equal data -/
inductive SameData : Datum → Datum → Prop
  | number {x y : Float} : (x == y) = true → SameData (.number x) (.number y)
  | text (s : String) : SameData (.text s) (.text s)
  | list {items others : List Datum} : List.Forall₂ SameData items others → SameData (.list items) (.list others)

theorem SameData.isFunction {u v : Datum} (h : SameData u v) : u.isFunction = false := by
  cases h <;> rfl

/-! ## Evaluation -/

/-- whether a run comes to `a`, unless it gets too deep, and nothing else happens -/
def Settles {α : Type} (x : Run α) (a : α) (w : World) : Prop := x w = (.ok a, w) ∨ x w = (.error .tooDeep, w)

theorem Settles.bind {α β : Type} {x : Run α} {next : α → Run β} {a : α} {b : β} {w : World} (h : Settles x a w)
    (hnext : Settles (next a) b w) : Settles (x >>= next) b w := by
  rcases h with hok | hdeep
  · rw [Settles, Effect.bind_ok hok]
    exact hnext
  · rw [Settles, Effect.bind_error hdeep]
    exact .inr rfl

/-- whether a form evaluates to `value` in every frame and world, unless it gets too deep; and it does not for a datum
`v` that is nested less deeply than the evaluation may go -/
structure Denotes (form value v : Datum) : Prop where
  settles : ∀ room depth frame w, Settles (evaluate room depth form frame) value w
  within : ∀ room depth frame w, v.nestedWithin depth = true → evaluate room (depth + 1) form frame w = (.ok value, w)

/-- a form that evaluates at once -/
theorem Denotes.of_leaf {form value v : Datum}
    (h : ∀ room depth frame w, evaluate room (depth + 1) form frame w = (.ok value, w)) : Denotes form value v where
  settles room depth frame w := by
    cases depth with
    | zero => exact .inr rfl
    | succ depth => exact .inl (h room depth frame w)
  within room depth frame w _ := h room depth frame w

/-- forms one after another -/
theorem each_evaluates {items : List Datum} (h : ∀ d ∈ items, ∃ u, SameData u d ∧ Denotes d.tree.form u d) :
    ∃ us, List.Forall₂ SameData us items ∧
      (∀ room depth frame w, Settles ((evaluate room depth).each frame (items.map fun d => d.tree.form)) us w) ∧
      ∀ room depth frame w, items.all (nestedWithin depth) = true →
        (evaluate room (depth + 1)).each frame (items.map fun d => d.tree.form) w = (.ok us, w) := by
  induction items with
  | nil => exact ⟨[], .nil, fun _ _ _ _ => .inl rfl, fun _ _ _ _ _ => rfl⟩
  | cons d ds ih =>
    obtain ⟨u, hsame, hu⟩ := h d List.mem_cons_self
    obtain ⟨us, hall, hsettles, hwithin⟩ := ih fun e he => h e (List.mem_cons_of_mem _ he)
    refine ⟨u :: us, .cons hsame hall, fun room depth frame w => ?_, fun room depth frame w hdepth => ?_⟩
    · rw [List.map_cons, Evaluator.each]
      refine (hu.settles room depth frame w).bind ?_
      refine (hsettles room depth frame w).bind ?_
      exact .inl rfl
    · rw [List.all_cons, Bool.and_eq_true] at hdepth
      rw [List.map_cons, Evaluator.each, Effect.bind_ok (hu.within room depth frame w hdepth.1),
        Effect.bind_ok (hwithin room depth frame w hdepth.2)]
      rfl

/-- a list whose first value is no function is the list of its values -/
theorem denotes_list {d : Datum} {ds : List Datum} (hhead : d.tree.form.specialForm? = none) {u : Datum}
    {us : List Datum} (hu : Denotes d.tree.form u d) (hfunction : u.isFunction = false)
    (hsettles : ∀ room depth frame w, Settles ((evaluate room depth).each frame (ds.map fun d => d.tree.form)) us w)
    (hwithin : ∀ room depth frame w, ds.all (nestedWithin depth) = true →
      (evaluate room (depth + 1)).each frame (ds.map fun d => d.tree.form) w = (.ok us, w)) :
    Denotes (.list ((d :: ds).map fun d => d.tree.form)) (.list (u :: us)) (.list (d :: ds)) where
  settles room depth frame w := by
    cases depth with
    | zero => exact .inr rfl
    | succ depth =>
      rw [List.map_cons, evaluate_succ, evaluateWith_items hhead]
      refine (hu.settles room depth frame w).bind ?_
      refine (hsettles room depth frame w).bind ?_
      rw [hfunction]
      exact .inl rfl
  within room depth frame w hdepth := by
    cases depth with
    | zero => rw [nestedWithin_list_zero] at hdepth; cases hdepth
    | succ depth =>
      rw [nestedWithin_list_succ, List.all_cons, Bool.and_eq_true] at hdepth
      rw [List.map_cons, evaluate_succ, evaluateWith_items hhead,
        Effect.bind_ok (hu.within room depth frame w hdepth.1),
        Effect.bind_ok (hwithin room depth frame w hdepth.2), hfunction]
      rfl

/-- the form of a text is the text -/
theorem form_text (s : String) : (Datum.text s).tree.form = .atom (.string s) := by
  have htoken := Atom.ofToken_quoted s
  have hmarks : String.ofList ('"' :: (s.toList ++ ['"'])) = "\"" ++ s ++ "\"" :=
    String.toList_injective (by simp)
  rw [hmarks] at htoken
  exact congrArg Datum.atom htoken

namespace IsData

variable {v : Datum}

theorem sound (h : v.IsData) : v.tree.Sound := by
  induction h with
  | number h => exact .leaf (.word h.token.1)
  | text h => exact .leaf (.literal h)
  | list _ ih =>
    rw [tree_list]
    exact .node (List.forall_mem_map.2 ih)

/-- no data starts a special form -/
theorem specialForm?_form (h : v.IsData) : v.tree.form.specialForm? = none := by
  cases h with
  | @number x h =>
    obtain ⟨-, y, htoken, -⟩ := h.token
    have hform : (Datum.number x).tree.form = .atom (.number y) := congrArg Datum.atom htoken
    rw [hform]
    rfl
  | @text s h =>
    rw [form_text]
    rfl
  | @list items h =>
    rw [form_tree_list]
    rfl

/-- the form of data evaluates to the same data, and nothing else happens -/
theorem evaluates (h : v.IsData) : ∃ u, SameData u v ∧ Denotes v.tree.form u v := by
  induction h with
  | @number x h =>
    obtain ⟨-, y, htoken, hsame⟩ := h.token
    have hform : (Datum.number x).tree.form = .atom (.number y) := congrArg Datum.atom htoken
    refine ⟨.number y, .number hsame, .of_leaf fun room depth frame w => ?_⟩
    rw [hform]
    rfl
  | @text s h =>
    refine ⟨.text s, .text s, .of_leaf fun room depth frame w => ?_⟩
    rw [form_text]
    rfl
  | @list items h ih =>
    cases items with
    | nil =>
      refine ⟨.list [], .list .nil, .of_leaf fun room depth frame w => ?_⟩
      rw [form_tree_list]
      rfl
    | cons d ds =>
      obtain ⟨u, hsame, hu⟩ := ih d List.mem_cons_self
      obtain ⟨us, hall, hsettles, hwithin⟩ := each_evaluates fun e he => ih e (List.mem_cons_of_mem _ he)
      have hhead := specialForm?_form (h d List.mem_cons_self)
      rw [form_tree_list]
      exact ⟨.list (u :: us), .list (.cons hsame hall), denotes_list hhead hu hsame.isFunction hsettles hwithin⟩

theorem scan_display {items : List Datum} (h : (Datum.list items).IsData) :
    Token.scan (Datum.list items).display = Tree.tokensAll [(Datum.list items).tree] := by
  have hscan := Token.Layout.scan_forest (List.forall_mem_singleton.2 h.sound) h.sound.tokens_layout
  rwa [text_layout] at hscan

/-- what is printed for a list of data is read as one form, or refused -/
theorem read_display {items : List Datum} (h : (Datum.list items).IsData) (limits : Limits) (w : World) :
    Program.read limits (Datum.list items).display w =
      if (Datum.list items).nestedWithin limits.reading then
        (.ok [(Datum.list items).tree.form], w.note (.parsed [(Datum.list items).tree.form]))
      else (.error .tooDeep, w) := by
  have hall : ([(Datum.list items).tree].map Tree.form).all (nestedWithin limits.reading)
      = (Datum.list items).nestedWithin limits.reading := by
    rw [List.map_singleton, List.all_cons, List.all_nil, nestedWithin_form, Bool.and_true]
  rw [Program.read_forest (List.forall_mem_singleton.2 h.sound) h.scan_display, hall, List.map_singleton]

end IsData

end Datum

/-- **Printed data reads back as itself.** From what is printed for a list of data exactly one form is read, with no
note about parentheses, unless the list is nested beyond the limit of reading. In every frame and world the value of the
form is the same list, and nothing is printed or noted and no frame changes, unless the evaluation gets too deep; and it
does not if it may go one level deeper than the list is nested. -/
theorem printed_data_reads_back {items : List Datum} (h : (Datum.list items).IsData) :
    ∃ form value, Datum.ofSource (Datum.list items).display = [form] ∧ Datum.SameData value (.list items) ∧
      (∀ limits w, Program.read limits (Datum.list items).display w =
        if (Datum.list items).nestedWithin limits.reading then (.ok [form], w.note (.parsed [form]))
        else (.error .tooDeep, w)) ∧
      (∀ room depth frame w, Datum.evaluate room depth form frame w = (.ok value, w) ∨
        Datum.evaluate room depth form frame w = (.error .tooDeep, w)) ∧
      ∀ room depth frame w, (Datum.list items).nestedWithin depth = true →
        Datum.evaluate room (depth + 1) form frame w = (.ok value, w) := by
  obtain ⟨value, hsame, hvalue⟩ := h.evaluates
  refine ⟨(Datum.list items).tree.form, value, ?_, hsame, h.read_display, hvalue.settles, hvalue.within⟩
  rw [Datum.ofSource, h.scan_display, Tree.Sound.readAll_tokens (List.forall_mem_singleton.2 h.sound),
    List.map_singleton]

/-- texts with blanks and parentheses in them, an empty list and a negative zero -/
theorem nested_data_reads_back :
    ∃ v, v = Datum.list [.text "a  (b", .list [], .list [.number (-2.5), .number (-0.0), .text "if"]] ∧
      v.display = "(\"a  (b\" () (-2.5 0 \"if\"))" ∧
      ∃ form value, Datum.ofSource v.display = [form] ∧ Datum.SameData value v ∧
        ∀ frame w, form.value .standard frame w = (.ok value, w) := by
  let v := Datum.list [.text "a  (b", .list [], .list [.number (-2.5), .number (-0.0), .text "if"]]
  have hfraction : Number.IsFinite (-2.5) := ⟨true, 0x14000000000000, -51, by decide +kernel⟩
  have hzero : Number.IsFinite (-0.0) := ⟨true, 0, -1074, by decide +kernel⟩
  have hinner : (Datum.list [.number (-2.5), .number (-0.0), .text "if"]).IsData :=
    .list (List.forall_mem_cons.2 ⟨.number hfraction, List.forall_mem_cons.2 ⟨.number hzero,
      List.forall_mem_singleton.2 (.text (by decide))⟩⟩)
  have hdata : v.IsData :=
    .list (List.forall_mem_cons.2 ⟨.text (by decide), List.forall_mem_cons.2 ⟨.list (by simp),
      List.forall_mem_singleton.2 hinner⟩⟩)
  obtain ⟨form, value, hread, hsame, -, -, hvalue⟩ := printed_data_reads_back hdata
  have hdisplay : v.display = "(\"a  (b\" () (-2.5 0 \"if\"))" := by decide +kernel
  exact ⟨v, rfl, hdisplay, form, value, hread, hsame, fun frame w =>
    hvalue Limits.standard.display (Limits.standard.evaluation - 1) frame w (by decide)⟩

/-- what a program prints of data it also reads and evaluates, if less may be shown than read and evaluated -/
theorem displayed_data_reads_back {items : List Datum} {limits : Limits} (h : (Datum.list items).IsData)
    (hreads : limits.display ≤ limits.reading) (hevaluates : limits.display < limits.evaluation)
    (hlimit : (Datum.list items).nestedWithin limits.display = true) (frame : FrameId) (w : World) :
    ∃ text form value, (Datum.list items).displayed limits w = (.ok text, w) ∧ Datum.SameData value (.list items) ∧
      Program.run limits frame text w = (.ok [value], w.note (.parsed [form])) := by
  obtain ⟨value, hsame, hvalue⟩ := h.evaluates
  refine ⟨(Datum.list items).display, (Datum.list items).tree.form, value, ?_, hsame, ?_⟩
  · rw [Datum.displayed, if_pos hlimit]
    rfl
  · set form := (Datum.list items).tree.form
    have hread : Program.read limits (Datum.list items).display w = (.ok [form], w.note (.parsed [form])) := by
      rw [h.read_display, if_pos (Datum.nestedWithin_mono hreads hlimit)]
    have hform : form.value limits frame (w.note (.parsed [form])) = (.ok value, w.note (.parsed [form])) := by
      obtain ⟨depth, hdepth⟩ := Nat.exists_eq_succ_of_ne_zero (Nat.ne_zero_of_lt hevaluates)
      rw [Datum.value, hdepth]
      exact hvalue.within limits.display depth frame _ (Datum.nestedWithin_mono (by omega) hlimit)
    rw [Program.run, Effect.bind_ok hread, Evaluator.each, Effect.bind_ok hform]
    rfl

end FrameLisp
