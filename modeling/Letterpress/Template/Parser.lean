import Letterpress.Template.Node

/-!
# Pairing the tags

A closing tag pairs with the nearest tag of its keyword that is open. The tags opened since then
stay without a partner, and so does a closing tag that finds none. Every text is a template.
-/

namespace Letterpress.Template

variable {μ : Type}

/-- An open tag, and the nodes before it on its level, last first. -/
structure Open (μ : Type) where
  keyword : Keyword
  argument : String
  raw : List (Glyph μ)
  before : List (Node μ)

/-- What has been parsed: the nodes behind the last open tag, last first, and the open tags, last
first. -/
structure Parsing (μ : Type) where
  nodes : List (Node μ) := []
  stack : List (Open μ) := []

namespace Open

/-- Gives a tag up, with the nodes behind it. -/
def strand (o : Open μ) (nodes : List (Node μ)) : List (Node μ) := nodes ++ .stray o.raw :: o.before

def close (o : Open μ) (nodes : List (Node μ)) (raw : List (Glyph μ)) : List (Node μ) :=
  .pair o.keyword o.argument o.raw nodes.reverse raw :: o.before

/-- Closes the nearest open tag of the keyword. -/
def closeNearest (keyword : Keyword) (raw : List (Glyph μ)) (nodes : List (Node μ)) :
    List (Open μ) → Option (Parsing μ)
  | [] => none
  | o :: rest =>
    if o.keyword = keyword then some ⟨o.close nodes raw, rest⟩
    else closeNearest keyword raw (o.strand nodes) rest

end Open

namespace Parsing

def push (p : Parsing μ) (node : Node μ) : Parsing μ := { p with nodes := node :: p.nodes }

def step (p : Parsing μ) : Lexeme μ → Parsing μ
  | .text glyphs => p.push (.text glyphs)
  | .token ⟨.placeholder name, raw⟩ => p.push (.placeholder name raw)
  | .token ⟨.inherits parent, raw⟩ => p.push (.inherits parent raw)
  | .token ⟨.opens keyword argument, raw⟩ => ⟨[], ⟨keyword, argument, raw, p.nodes⟩ :: p.stack⟩
  | .token ⟨.closes keyword, raw⟩ =>
    (Open.closeNearest keyword raw p.nodes p.stack).getD (p.push (.stray raw))

/-- Gives up the tags that are still open. -/
def finish (p : Parsing μ) : List (Node μ) :=
  (p.stack.foldl (fun nodes o => o.strand nodes) p.nodes).reverse

end Parsing

def parseLexemes (lexemes : List (Lexeme μ)) : List (Node μ) :=
  (lexemes.foldl Parsing.step {}).finish

def parse (glyphs : List (Glyph μ)) : List (Node μ) := parseLexemes (lex glyphs)

def parseText (s : String) : List (Node Place) := parse (placed s)

end Letterpress.Template
