import Letterpress.Template.Parser

/-!
# Marks play no part in reading

Reading a template commutes with changing the marks of its glyphs: the same tags are found and
paired, whatever the glyphs are marked with. So two texts with the same characters are read alike,
and the mark a glyph ends up with is the one it was given.
-/

namespace Letterpress.Template

variable {μ ν : Type} (f : μ → ν)

namespace Glyph

def map (g : Glyph μ) : Glyph ν := ⟨g.char, f g.mark⟩

@[simp] theorem char_map (g : Glyph μ) : (g.map f).char = g.char := rfl

end Glyph

@[simp] theorem chars_map (gs : List (Glyph μ)) : chars (gs.map (Glyph.map f)) = chars gs := by
  simp [chars]

@[simp] theorem chars_append (a b : List (Glyph μ)) : chars (a ++ b) = chars a ++ chars b := by
  simp [chars]

def Token.map (t : Token μ) : Token ν := ⟨t.tag, t.raw.map (Glyph.map f)⟩

namespace Lexeme

def map : Lexeme μ → Lexeme ν
  | text glyphs => text (glyphs.map (Glyph.map f))
  | token t => token (t.map f)

theorem map_prepend (gs : List (Glyph μ)) (ls : List (Lexeme μ)) :
    (prepend gs ls).map (map f) = prepend (gs.map (Glyph.map f)) (ls.map (map f)) := by
  match gs, ls with
  | [], ls => rfl
  | g :: gs, [] => rfl
  | g :: gs, text more :: rest => simp [prepend, map]
  | g :: gs, token t :: rest => rfl

end Lexeme

def Reading.map : Reading μ → Reading ν
  | text => text
  | tag extra braces content =>
    tag (extra.map (Glyph.map f)) (braces.map (Glyph.map f)) (content.map (Glyph.map f))

theorem Reading.held_map (r : Reading μ) : (r.map f).held = r.held.map (Glyph.map f) := by
  cases r with
  | text => rfl
  | tag extra braces content => cases extra <;> simp [map, held]

theorem settle_map (tag : Option Tag) (raw : List (Glyph μ)) (rest : List (Lexeme μ)) :
    settle tag (raw.map (Glyph.map f)) (rest.map (Lexeme.map f)) =
      (settle tag raw rest).map (Lexeme.map f) := by
  cases tag with
  | none => simp [settle, Lexeme.map_prepend]
  | some tag => rfl

theorem lexFrom_map (r : Reading μ) (gs : List (Glyph μ)) :
    lexFrom (r.map f) (gs.map (Glyph.map f)) = (lexFrom r gs).map (Lexeme.map f) := by
  fun_induction lexFrom r gs with
  | case1 r => simp [lexFrom, Lexeme.map_prepend, Reading.held_map]
  | case2 r a => simp [lexFrom, Lexeme.map_prepend, Reading.held_map]
  | case3 r a b rest h ih =>
    rw [lexFrom.eq_def, Lexeme.map_prepend, ← Reading.held_map]
    simp only [List.map_cons, Glyph.char_map, h, and_self, ↓reduceIte]
    congr 1
    cases rest with
    | nil => exact ih
    | cons c rest =>
      obtain ⟨ihOpen, ihPlain⟩ := ih
      by_cases hc : c.char = '{'
      · simpa [hc, Reading.map] using ihOpen
      · simpa [hc, Reading.map] using ihPlain
  | case4 a b rest h ih =>
    rw [lexFrom.eq_def, Lexeme.map_prepend, ← ih]
    simp only [List.map_cons, Glyph.char_map, h, ↓reduceIte, List.map_nil, Reading.map]
  | case5 a b rest h braces content hclose tag raw ih =>
    rw [lexFrom.eq_def, ← settle_map, ← ih]
    simp [Reading.map, hclose, raw, tag, ← List.map_reverse]
  | case6 a b h braces content hclose tag raw e ih =>
    rw [lexFrom.eq_def, Lexeme.map_prepend, ← settle_map, ← ih]
    simp [Reading.map, hclose, raw, tag, ← List.map_reverse]
  | case7 a b h braces content hclose tag raw e c rest hc ih =>
    rw [lexFrom.eq_def, ← settle_map, ← ih]
    simp [Reading.map, hclose, hc, raw, tag, ← List.map_reverse]
  | case8 a b h braces content hclose tag raw e c rest hc ih =>
    rw [lexFrom.eq_def, Lexeme.map_prepend, ← settle_map, ← ih]
    simp [Reading.map, hclose, hc, raw, tag, ← List.map_reverse]
  | case9 a b rest h extra braces content hclose ih =>
    rw [lexFrom.eq_def, ← ih]
    simp only [Reading.map, List.map_cons, Glyph.char_map, h, hclose, ↓reduceIte]

theorem lex_map (gs : List (Glyph μ)) :
    lex (gs.map (Glyph.map f)) = (lex gs).map (Lexeme.map f) :=
  lexFrom_map f .text gs

theorem tokensOf_map (ls : List (Lexeme μ)) :
    tokensOf (ls.map (Lexeme.map f)) = (tokensOf ls).map (Token.map f) := by
  induction ls with
  | nil => rfl
  | cons l ls ih =>
    cases l with
    | text glyphs => exact ih
    | token t => exact congrArg (t.map f :: ·) ih

/-! ### Pairing the tags -/

namespace Node

mutual

def map : Node μ → Node ν
  | text glyphs => text (glyphs.map (Glyph.map f))
  | placeholder name raw => placeholder name (raw.map (Glyph.map f))
  | inherits parent raw => inherits parent (raw.map (Glyph.map f))
  | pair keyword argument opening body closing =>
    pair keyword argument (opening.map (Glyph.map f)) (mapAll body) (closing.map (Glyph.map f))
  | stray raw => stray (raw.map (Glyph.map f))

def mapAll : List (Node μ) → List (Node ν)
  | [] => []
  | node :: rest => map node :: mapAll rest

end

theorem mapAll_eq_map (nodes : List (Node μ)) : mapAll f nodes = nodes.map (map f) := by
  induction nodes with
  | nil => rfl
  | cons node rest ih => simp [mapAll, ih]

mutual

theorem source_map : ∀ node : Node μ, (node.map f).source = node.source.map (Glyph.map f)
  | text glyphs => rfl
  | placeholder name raw => rfl
  | inherits parent raw => rfl
  | pair keyword argument opening body closing => by
    simp [map, source, sourceAll_mapAll body]
  | stray raw => rfl

theorem sourceAll_mapAll : ∀ nodes : List (Node μ),
    sourceAll (mapAll f nodes) = (sourceAll nodes).map (Glyph.map f)
  | [] => rfl
  | node :: rest => by simp [mapAll, sourceAll, source_map node, sourceAll_mapAll rest]

end

mutual

theorem flatten_map : ∀ node : Node μ, (node.map f).flatten = node.flatten.map (map f)
  | text _ | placeholder _ _ | inherits _ _ | stray _ => rfl
  | pair _ _ _ body _ => by simp only [map, flatten, flattenAll_mapAll body, List.map_cons]

theorem flattenAll_mapAll : ∀ nodes : List (Node μ),
    flattenAll (mapAll f nodes) = (flattenAll nodes).map (map f)
  | [] => rfl
  | node :: rest => by
    simp only [mapAll, flattenAll, flatten_map node, flattenAll_mapAll rest, List.map_append]

end

@[simp] theorem argument?_map (keyword : Keyword) (node : Node μ) :
    (node.map f).argument? keyword = node.argument? keyword := by
  cases node <;> rfl

end Node

def Open.map (o : Open μ) : Open ν :=
  ⟨o.keyword, o.argument, o.raw.map (Glyph.map f), Node.mapAll f o.before⟩

def Parsing.map (p : Parsing μ) : Parsing ν := ⟨Node.mapAll f p.nodes, p.stack.map (Open.map f)⟩

namespace Open

theorem strand_map (o : Open μ) (nodes : List (Node μ)) :
    (o.map f).strand (Node.mapAll f nodes) = Node.mapAll f (o.strand nodes) := by
  simp [strand, map, Node.mapAll_eq_map, Node.map]

theorem close_map (o : Open μ) (nodes : List (Node μ)) (raw : List (Glyph μ)) :
    (o.map f).close (Node.mapAll f nodes) (raw.map (Glyph.map f)) =
      Node.mapAll f (o.close nodes raw) := by
  simp [close, map, Node.mapAll_eq_map, Node.map]

theorem closeNearest_map (keyword : Keyword) (raw : List (Glyph μ)) (nodes : List (Node μ))
    (stack : List (Open μ)) :
    closeNearest keyword (raw.map (Glyph.map f)) (Node.mapAll f nodes) (stack.map (Open.map f)) =
      (closeNearest keyword raw nodes stack).map (Parsing.map f) := by
  induction stack generalizing nodes with
  | nil => rfl
  | cons o rest ih =>
    simp only [List.map_cons, closeNearest, strand_map, close_map, ih]
    by_cases h : o.keyword = keyword
    · rw [if_pos h, if_pos (show (o.map f).keyword = keyword from h)]
      rfl
    · rw [if_neg h, if_neg (show (o.map f).keyword ≠ keyword from h)]

end Open

namespace Parsing

theorem push_map (p : Parsing μ) (node : Node μ) :
    (p.map f).push (node.map f) = (p.push node).map f := by
  simp [push, map, Node.mapAll]

theorem step_map (p : Parsing μ) (l : Lexeme μ) : (p.map f).step (l.map f) = (p.step l).map f := by
  match l with
  | .text glyphs => exact push_map f p (.text glyphs)
  | .token ⟨.placeholder name, raw⟩ => exact push_map f p (.placeholder name raw)
  | .token ⟨.inherits parent, raw⟩ => exact push_map f p (.inherits parent raw)
  | .token ⟨.opens keyword argument, raw⟩ => rfl
  | .token ⟨.closes keyword, raw⟩ =>
    show (Open.closeNearest keyword (raw.map (Glyph.map f)) (Node.mapAll f p.nodes)
      (p.stack.map (Open.map f))).getD ((p.map f).push (Node.map f (.stray raw))) = _
    rw [Open.closeNearest_map, push_map]
    simp only [step]
    cases Open.closeNearest keyword raw p.nodes p.stack <;> rfl

theorem finish_map (p : Parsing μ) : (p.map f).finish = Node.mapAll f p.finish := by
  have strands : ∀ (stack : List (Open μ)) (nodes : List (Node μ)),
      (stack.map (Open.map f)).foldl (fun nodes o => o.strand nodes) (Node.mapAll f nodes) =
        Node.mapAll f (stack.foldl (fun nodes o => o.strand nodes) nodes) := by
    intro stack
    induction stack with
    | nil => intro nodes; rfl
    | cons o rest ih =>
      intro nodes
      simp only [List.map_cons, List.foldl_cons, Open.strand_map]
      exact ih _
  rw [finish, finish, Node.mapAll_eq_map, List.map_reverse, ← Node.mapAll_eq_map, ← strands]
  rfl

end Parsing

theorem parseLexemes_map (ls : List (Lexeme μ)) :
    parseLexemes (ls.map (Lexeme.map f)) = Node.mapAll f (parseLexemes ls) := by
  have steps : ∀ (ls : List (Lexeme μ)) (p : Parsing μ),
      (ls.map (Lexeme.map f)).foldl Parsing.step (p.map f) = (ls.foldl Parsing.step p).map f := by
    intro ls
    induction ls with
    | nil => intro p; rfl
    | cons l ls ih => intro p; simp only [List.map_cons, List.foldl_cons, Parsing.step_map, ih]
  rw [parseLexemes, parseLexemes, ← Parsing.finish_map, ← steps]
  rfl

theorem parse_map (gs : List (Glyph μ)) :
    parse (gs.map (Glyph.map f)) = Node.mapAll f (parse gs) := by
  rw [parse, lex_map, parseLexemes_map]
  rfl

end Letterpress.Template
