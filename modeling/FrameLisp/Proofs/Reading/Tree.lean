/-
Reading undoes writing.

A tree is a nested list whose leaves are tokens. A forest is written by laying out its tokens, with a parenthesis
at either end of each list; what it stands for is the same nesting with an atom for each leaf.

Results:
- `Tree.readAll_tokens`: the forms of a forest's tokens are the forms of its trees.
- `Tree.nestedWithin_tokens`: its tokens nest as deeply as those forms do.
- `reading_undoes_writing`: from a laid out text of the forest, whatever the blanks, exactly those forms are read
  when no list is nested beyond the limit of the reader, and otherwise the text is refused and nothing happens.
Refutation:
- `deep_list_is_not_read`: without a bound on the nesting, a written forest need not be read at all.
-/
import FrameLisp.Datum.Nesting
import FrameLisp.Program
import FrameLisp.Proofs.Reading.Writing

namespace FrameLisp

/-- a nested list of tokens -/
inductive Tree where
  | leaf (token : String)
  | node (children : List Tree)

namespace Tree

mutual

/-- the tokens of a tree, in the order of the text -/
def tokens : Tree → List String
  | .leaf t => [t]
  | .node children => "(" :: (tokensAll children ++ [")"])

/-- the tokens of a forest -/
def tokensAll : List Tree → List String
  | [] => []
  | tree :: trees => tokens tree ++ tokensAll trees

end

mutual

/-- what a tree stands for -/
def form : Tree → Datum
  | .leaf t => .atom (.ofToken t)
  | .node children => .list (formAll children)

/-- what the trees of a forest stand for -/
def formAll : List Tree → List Datum
  | [] => []
  | tree :: trees => form tree :: formAll trees

end

/-- whether the leaves of a tree are no parentheses -/
inductive Sound : Tree → Prop
  | leaf {t : String} : Token.IsLeaf t → Sound (.leaf t)
  | node {children : List Tree} : (∀ tree ∈ children, Sound tree) → Sound (.node children)

theorem formAll_eq_map (forest : List Tree) : formAll forest = forest.map form := by
  induction forest with
  | nil => rfl
  | cons tree forest ih => rw [formAll, ih, List.map_cons]

theorem form_node (children : List Tree) : (node children).form = .list (children.map form) := by
  rw [form, formAll_eq_map]

theorem tokensAll_eq_flatMap (forest : List Tree) : tokensAll forest = forest.flatMap tokens := by
  induction forest with
  | nil => rfl
  | cons tree forest ih => rw [tokensAll, ih, List.flatMap_cons]

theorem mem_tokensAll {forest : List Tree} {t : String} : t ∈ tokensAll forest ↔ ∃ tree ∈ forest, t ∈ tree.tokens := by
  rw [tokensAll_eq_flatMap, List.mem_flatMap]

namespace Sound

variable {tree : Tree} {forest : List Tree}

theorem isParen_or_isLeaf (h : tree.Sound) : ∀ t ∈ tree.tokens, Token.IsParen t ∨ Token.IsLeaf t := by
  induction h with
  | leaf h => simpa [tokens] using Or.inr h
  | node _ ih =>
    intro t ht
    rw [tokens, List.mem_cons, List.mem_append, List.mem_singleton] at ht
    rcases ht with rfl | ht | rfl
    · exact .inl (.inl rfl)
    · obtain ⟨tree, htree, ht⟩ := mem_tokensAll.1 ht
      exact ih tree htree t ht
    · exact .inl (.inr rfl)

/-! ## Reading -/

theorem signs_tokensAll_of (h : ∀ tree ∈ forest, tree.tokens.map Sign.ofToken = tree.form.signs) :
    (tokensAll forest).map Sign.ofToken = Datum.signsAll (forest.map form) := by
  induction forest with
  | nil => rfl
  | cons tree forest ih =>
    rw [tokensAll, List.map_append, h tree List.mem_cons_self, ih fun t ht => h t (List.mem_cons_of_mem _ ht),
      List.map_cons, Datum.signsAll]

/-- the tokens of a tree write out its form -/
theorem signs_tokens (h : tree.Sound) : tree.tokens.map Sign.ofToken = tree.form.signs := by
  induction h with
  | leaf h =>
    rw [tokens, form, List.map_singleton, Sign.ofToken_atom h.not_paren]
    rfl
  | node _ ih =>
    rw [tokens, form_node, Datum.signs, List.map_cons, List.map_append, signs_tokensAll_of ih]
    rfl

theorem readAll_tokens (h : ∀ tree ∈ forest, tree.Sound) : Datum.readAll (tokensAll forest) = forest.map form :=
  Datum.readAll_of_signs (signs_tokensAll_of fun tree ht => (h tree ht).signs_tokens)

/-! ## Nesting -/

theorem balanced_all (h : ∀ tree ∈ forest, Token.Balanced tree.tokens) : Token.Balanced (tokensAll forest) := by
  induction forest with
  | nil => exact .nil
  | cons tree forest ih =>
    exact (h tree List.mem_cons_self).append (ih fun t ht => h t (List.mem_cons_of_mem _ ht))

theorem balanced (h : tree.Sound) : Token.Balanced tree.tokens := by
  induction h with
  | leaf h => exact .single (fun heq => h.not_paren (.inl heq)) fun heq => h.not_paren (.inr heq)
  | node _ ih => exact (balanced_all ih).enclose

theorem within_tokensAll (h : ∀ tree ∈ forest, tree.Sound) {limit depth : Nat} :
    Token.within limit depth (tokensAll forest) = tokensAll forest
      ↔ ∀ tree ∈ forest, Token.within limit depth tree.tokens = tree.tokens := by
  induction forest with
  | nil => simp [tokensAll, Token.within]
  | cons tree forest ih =>
    rw [tokensAll, Token.within_append_eq_iff, (h tree List.mem_cons_self).balanced.depth,
      ih fun t ht => h t (List.mem_cons_of_mem _ ht), List.forall_mem_cons]

/-- with some lists open around it, a tree leaves room for fewer of its own -/
theorem within_tokens (h : tree.Sound) {limit depth : Nat} (hdepth : depth ≤ limit) :
    Token.within limit depth tree.tokens = tree.tokens ↔ tree.form.nestedWithin (limit - depth) = true := by
  induction h generalizing depth with
  | @leaf t h =>
    have hstep : Token.depthStep depth t = depth := by
      rw [Token.depthStep, if_neg fun heq => h.not_paren (.inl heq), if_neg fun heq => h.not_paren (.inr heq)]
    have hform : (Tree.leaf t).form.nestedWithin (limit - depth) = true := by simp [form, Datum.nestedWithin]
    rw [tokens, Token.within_cons_eq_iff, hstep, Token.within, hform]
    exact ⟨fun _ => rfl, fun _ => ⟨hdepth, rfl⟩⟩
  | @node children hsound ih =>
    have hbalanced := balanced_all fun tree ht => (hsound tree ht).balanced
    have hopen : Token.depthStep depth "(" = depth + 1 := by simp [Token.depthStep]
    have hclose : Token.depthStep (depth + 1) ")" = depth := by simp [Token.depthStep]
    rw [tokens, form_node, Token.within_cons_eq_iff, hopen, Token.within_append_eq_iff, hbalanced.depth,
      Token.within_cons_eq_iff, hclose, within_tokensAll hsound]
    by_cases hroom : depth + 1 ≤ limit
    · have hsub : limit - depth = limit - (depth + 1) + 1 := by omega
      rw [hsub, Datum.nestedWithin_list_succ, List.all_map, List.all_eq_true]
      simp only [Function.comp_apply, Token.within, hroom, hdepth, and_self, and_true, true_and]
      exact forall₂_congr fun tree ht => ih tree ht hroom
    · have hsub : limit - depth = 0 := by omega
      simp [hsub, Datum.nestedWithin_list_zero, hroom]

/-- the tokens of a forest nest as deeply as its forms -/
theorem nestedWithin_tokens (h : ∀ tree ∈ forest, tree.Sound) (limit : Nat) :
    Token.nestedWithin limit (tokensAll forest) = (forest.map form).all (Datum.nestedWithin limit) := by
  rw [Bool.eq_iff_iff, Token.nestedWithin_iff, within_tokensAll h, List.all_map, List.all_eq_true]
  exact forall₂_congr fun tree ht => within_tokens (h tree ht) (Nat.zero_le limit)

end Sound

end Tree

/-! ## Reading a written forest -/

namespace Program

/-- a text without stray parentheses and lists left open is read without a note about parentheses, or refused -/
theorem read_balanced {source : String} (h : Token.Balanced (Token.scan source)) (limits : Limits) (w : World) :
    read limits source w =
      if Token.nestedWithin limits.reading (Token.scan source) then
        (.ok (Datum.ofSource source), w.note (.parsed (Datum.ofSource source)))
      else (.error .tooDeep, w) := by
  have hnone : mismatches (Token.scan source) = [] := by rw [mismatches, h.strays, h.depth]; rfl
  have hwithin : Token.strays 0 0 (Token.within limits.reading 0 (Token.scan source)) = [] :=
    Token.strays_within (h.strays 0 0)
  have hnotes (w : World) : (Effect.noteAll [] : Effect Fault Unit) w = (.ok (), w) := rfl
  rw [read]
  by_cases hnested : Token.nestedWithin limits.reading (Token.scan source) = true
  · rw [if_pos hnested, if_pos hnested, hnone, Effect.bind_ok (hnotes w)]
    rfl
  · rw [if_neg hnested, if_neg hnested, hwithin, List.map_nil, Effect.bind_ok (hnotes w)]
    rfl

end Program

theorem Token.Layout.scan_forest {forest : List Tree} (hforest : ∀ tree ∈ forest, tree.Sound) {l : Token.Layout}
    (hl : l.tokens = Tree.tokensAll forest) : Token.scan l.text = Tree.tokensAll forest := by
  rw [← hl]
  refine l.scan_text fun t ht => ?_
  obtain ⟨tree, htree, ht⟩ := Tree.mem_tokensAll.1 (hl ▸ ht)
  exact (hforest tree htree).isParen_or_isLeaf t ht

/-- a laid out forest is read, or refused, whole -/
theorem Program.read_forest {forest : List Tree} (hforest : ∀ tree ∈ forest, tree.Sound) {source : String}
    (hscan : Token.scan source = Tree.tokensAll forest) (limits : Limits) (w : World) :
    Program.read limits source w =
      if (forest.map Tree.form).all (Datum.nestedWithin limits.reading) then
        (.ok (forest.map Tree.form), w.note (.parsed (forest.map Tree.form)))
      else (.error .tooDeep, w) := by
  have hbalanced : Token.Balanced (Token.scan source) := by
    rw [hscan]
    exact Tree.Sound.balanced_all fun tree ht => (hforest tree ht).balanced
  rw [read_balanced hbalanced, Datum.ofSource, hscan, Tree.Sound.nestedWithin_tokens hforest,
    Tree.Sound.readAll_tokens hforest]

/-- **Reading undoes writing.** Whatever the blanks of the layout, the text of a forest has the forms of the forest
for its forms; they are read when no list is nested beyond the limit, and otherwise the text is refused and nothing
else happens. -/
theorem reading_undoes_writing {forest : List Tree} (hforest : ∀ tree ∈ forest, tree.Sound) {l : Token.Layout}
    (hl : l.tokens = Tree.tokensAll forest) (limits : Limits) (w : World) :
    Datum.ofSource l.text = forest.map Tree.form ∧
      Program.read limits l.text w =
        if (forest.map Tree.form).all (Datum.nestedWithin limits.reading) then
          (.ok (forest.map Tree.form), w.note (.parsed (forest.map Tree.form)))
        else (.error .tooDeep, w) := by
  have hscan : Token.scan l.text = Tree.tokensAll forest := Token.Layout.scan_forest hforest hl
  constructor
  · rw [Datum.ofSource, hscan, Tree.Sound.readAll_tokens hforest]
  · exact Program.read_forest hforest hscan limits w

/-- literals with parentheses in them, glued to parentheses, and an empty one -/
theorem glued_literals_are_read :
    ∃ l : Token.Layout, l.text = " (say\t\"a  (b\"(\"\")\n)()" ∧
      Datum.ofSource l.text =
        [.list [.atom (.identifier "say"), .atom (.string "a  (b"), .list [.atom (.string "")]], .list []] := by
  let forest : List Tree :=
    [.node [.leaf "say", .leaf ("\"" ++ "a  (b" ++ "\""), .node [.leaf ("\"" ++ "" ++ "\"")]], .node []]
  let l : Token.Layout :=
    { pieces := [⟨" ", "("⟩, ⟨"", "say"⟩, ⟨"\t", "\"a  (b\""⟩, ⟨"", "("⟩, ⟨"", "\"\""⟩, ⟨"", ")"⟩, ⟨"\n", ")"⟩,
        ⟨"", "("⟩, ⟨"", ")"⟩]
      trail := ""
      gaps := by decide
      trail_gap := by decide
      apart := by decide }
  have hforest : ∀ tree ∈ forest, tree.Sound := by
    have hsay : (Tree.leaf "say").Sound := .leaf (.word (by decide))
    have htext : (Tree.leaf ("\"" ++ "a  (b" ++ "\"")).Sound := .leaf (.literal (by decide))
    have hempty : (Tree.leaf ("\"" ++ "" ++ "\"")).Sound := .leaf (.literal (by decide))
    have hnone : (Tree.node []).Sound := .node (by simp)
    have hinner : (Tree.node [.leaf ("\"" ++ "" ++ "\"")]).Sound := .node (List.forall_mem_singleton.2 hempty)
    have hlist : (Tree.node [.leaf "say", .leaf ("\"" ++ "a  (b" ++ "\""), .node [.leaf ("\"" ++ "" ++ "\"")]]).Sound :=
      .node (List.forall_mem_cons.2 ⟨hsay, List.forall_mem_cons.2 ⟨htext, List.forall_mem_singleton.2 hinner⟩⟩)
    exact List.forall_mem_cons.2 ⟨hlist, List.forall_mem_singleton.2 hnone⟩
  exact ⟨l, by decide, (reading_undoes_writing hforest (l := l) rfl .standard .empty).1⟩

/-! ## Nesting beyond the limit -/

/-- lists inside each other, the innermost one empty -/
def Tree.nested : Nat → Tree
  | 0 => .node []
  | n + 1 => .node [nested n]

theorem Tree.nested_sound (n : Nat) : (nested n).Sound := by
  induction n with
  | zero => exact .node (by simp)
  | succ n ih => exact .node (List.forall_mem_singleton.2 ih)

theorem Tree.isParen_of_mem_nested (n : Nat) : ∀ t ∈ (nested n).tokens, Token.IsParen t := by
  induction n with
  | zero => decide
  | succ n ih =>
    intro t ht
    rw [nested, tokens, tokensAll_eq_flatMap, List.flatMap_singleton, List.mem_cons, List.mem_append,
      List.mem_singleton] at ht
    rcases ht with rfl | ht | rfl
    · exact .inl rfl
    · exact ih t ht
    · exact .inr rfl

theorem Tree.nestedWithin_nested (n : Nat) : (nested n).form.nestedWithin n = false := by
  induction n with
  | zero => rfl
  | succ n ih => rw [nested, form_node, Datum.nestedWithin_list_succ, List.map_singleton, List.all_cons, ih]; rfl

/-- parentheses with no blanks around them -/
def Token.Layout.tight (tokens : List String) (h : ∀ t ∈ tokens, IsParen t) : Token.Layout where
  pieces := tokens.map (Piece.mk "")
  trail := ""
  gaps := by simp [Text.IsGap]
  trail_gap := by simp [Text.IsGap]
  apart := by
    refine (List.pairwise_map.2 (List.pairwise_of_forall_mem_list ?_)).isChain
    exact fun t ht _ _ => .inl (h t ht)

/-- one list more inside each other than a limit lets, written without blanks -/
def Program.deepLayout (limit : Nat) : Token.Layout :=
  .tight (Tree.nested limit).tokens (Tree.isParen_of_mem_nested limit)

namespace Program

variable (limit : Nat)

theorem tokens_deepLayout : (deepLayout limit).tokens = Tree.tokensAll [Tree.nested limit] := by
  simp [deepLayout, Token.Layout.tight, Token.Layout.tokens, Tree.tokensAll, Function.comp_def]

theorem sound_deepLayout : ∀ tree ∈ [Tree.nested limit], tree.Sound :=
  List.forall_mem_singleton.2 (Tree.nested_sound _)

theorem scan_deepLayout : Token.scan (deepLayout limit).text = Tree.tokensAll [Tree.nested limit] :=
  Token.Layout.scan_forest (sound_deepLayout limit) (tokens_deepLayout limit)

theorem nestedWithin_deepLayout : Token.nestedWithin limit (Token.scan (deepLayout limit).text) = false := by
  rw [scan_deepLayout, Tree.Sound.nestedWithin_tokens (sound_deepLayout limit), List.map_singleton, List.all_cons,
    Tree.nestedWithin_nested]
  rfl

end Program

/-- it is not so that every written forest is read -/
theorem deep_list_is_not_read :
    ¬ ∀ (forest : List Tree) (l : Token.Layout), (∀ tree ∈ forest, tree.Sound) → l.tokens = Tree.tokensAll forest →
      ∀ w, (Program.read .standard l.text w).1 = .ok (forest.map Tree.form) := by
  intro h
  let limit := Limits.standard.reading
  have hread := h _ _ (Program.sound_deepLayout limit) (Program.tokens_deepLayout limit) World.empty
  have hbalanced : Token.Balanced (Token.scan (Program.deepLayout limit).text) := by
    rw [Program.scan_deepLayout]
    exact Tree.Sound.balanced_all fun tree ht => (Program.sound_deepLayout limit tree ht).balanced
  rw [Program.read_balanced hbalanced, Program.nestedWithin_deepLayout] at hread
  cases hread

end FrameLisp
