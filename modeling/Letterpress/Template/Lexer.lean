import Letterpress.Template.Glyph
import Letterpress.Template.Tag

/-!
# Finding the tags

A tag stands between two braces and two braces. Braces that open again make those before them plain
text. Three braces on both sides hold a placeholder only; with two braces behind them, the first of
the three is plain text.
-/

namespace Letterpress.Template

variable {μ : Type}

/-- A tag as it is written. -/
structure Token (μ : Type) where
  tag : Tag
  raw : List (Glyph μ)

/-- A template is a row of tags and of the texts between them. -/
inductive Lexeme (μ : Type) where
  | text (glyphs : List (Glyph μ))
  | token (t : Token μ)

namespace Lexeme

def source : Lexeme μ → List (Glyph μ)
  | text glyphs => glyphs
  | token t => t.raw

def token? : Lexeme μ → Option (Token μ)
  | token t => some t
  | text _ => none

/-- Puts text before lexemes. Two texts never follow each other. -/
def prepend (glyphs : List (Glyph μ)) (lexemes : List (Lexeme μ)) : List (Lexeme μ) :=
  match glyphs, lexemes with
  | [], lexemes => lexemes
  | glyphs, text more :: rest => text (glyphs ++ more) :: rest
  | glyphs, rest => text glyphs :: rest

end Lexeme

/-- What has been read and is not decided yet. -/
inductive Reading (μ : Type) where
  | text
  /-- Inside a tag: the brace before the two that open it, these, and the content, last first. -/
  | tag (extra : Option (Glyph μ)) (braces : List (Glyph μ)) (content : List (Glyph μ))

namespace Reading

def held : Reading μ → List (Glyph μ)
  | text => []
  | tag extra braces content => extra.toList ++ braces ++ content.reverse

end Reading

/-- A token if it is one, else plain text, before lexemes. -/
def settle (tag : Option Tag) (raw : List (Glyph μ)) (rest : List (Lexeme μ)) : List (Lexeme μ) :=
  match tag with
  | some tag => .token ⟨tag, raw⟩ :: rest
  | none => Lexeme.prepend raw rest

def lexFrom : Reading μ → List (Glyph μ) → List (Lexeme μ)
  | r, [] => Lexeme.prepend r.held []
  | r, [a] => Lexeme.prepend (r.held ++ [a]) []
  | r, a :: b :: rest =>
    if a.char = '{' ∧ b.char = '{' then
      Lexeme.prepend r.held
        (match rest with
          | [] => lexFrom (.tag none [a, b] []) []
          | c :: rest =>
            if c.char = '{' then lexFrom (.tag (some a) [b, c] []) rest
            else lexFrom (.tag none [a, b] []) (c :: rest))
    else
      match r with
      | .text => Lexeme.prepend [a] (lexFrom .text (b :: rest))
      | .tag extra braces content =>
        if a.char = '}' ∧ b.char = '}' then
          let tag := Tag.ofContent? (chars content.reverse)
          let raw := braces ++ content.reverse ++ [a, b]
          match extra with
          | none => settle tag raw (lexFrom .text rest)
          | some e =>
            match rest with
            | [] => Lexeme.prepend [e] (settle tag raw (lexFrom .text []))
            | c :: rest =>
              if c.char = '}' then
                settle (tag.filter Tag.isPlaceholder) (e :: raw ++ [c]) (lexFrom .text rest)
              else Lexeme.prepend [e] (settle tag raw (lexFrom .text (c :: rest)))
        else lexFrom (.tag extra braces (a :: content)) (b :: rest)

def lex (glyphs : List (Glyph μ)) : List (Lexeme μ) := lexFrom .text glyphs

def tokensOf (lexemes : List (Lexeme μ)) : List (Token μ) := lexemes.filterMap Lexeme.token?

/-- The tags of a text. -/
def tokenize (s : String) : List (Token Place) := tokensOf (lex (placed s))

namespace Token

def span (t : Token Place) : Span := spanOf t.raw

/-- The line a tag begins in. -/
def line (t : Token Place) : Nat := (t.raw.head?.map (·.mark.line)).getD 1

def text (t : Token μ) : String := textOf t.raw

end Token

/-- Reading loses no glyph. -/
theorem source_prepend (glyphs : List (Glyph μ)) (lexemes : List (Lexeme μ)) :
    (Lexeme.prepend glyphs lexemes).flatMap Lexeme.source =
      glyphs ++ lexemes.flatMap Lexeme.source := by
  unfold Lexeme.prepend
  split <;> simp [Lexeme.source]

end Letterpress.Template
