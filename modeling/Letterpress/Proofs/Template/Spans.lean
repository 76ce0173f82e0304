import Letterpress.Proofs.Template.Marks
import Letterpress.Proofs.Template.Places

/-!
# Where nodes and tags stand

Seen in its text, a parsed template leaves nothing out. The nodes of a level lie next to each other
and fill what is around them, from the whole text down to the body of every pair, and the bytes a
node spans are the node as it is written. The tags met on the way through the nodes are those that
are found without pairing them.
-/

namespace Letterpress.Template

variable {μ : Type}

/-- Whether spans with something in them fill the bytes from `start` to before `stop`, one behind
the other. -/
def Tiles (start stop : Nat) : List Span → Prop
  | [] => start = stop
  | span :: rest => span.start = start ∧ span.start < span.stop ∧ Tiles span.stop stop rest

theorem Tiles.le_start {start stop : Nat} {spans : List Span}
    (h : Tiles start stop spans) : ∀ span ∈ spans, start ≤ span.start := by
  induction spans generalizing start with
  | nil => exact List.forall_mem_nil _
  | cons span rest ih =>
    obtain ⟨rfl, hlt, hrest⟩ := h
    exact List.forall_mem_cons.mpr
      ⟨Nat.le_refl _, fun later hlater => Nat.le_trans (Nat.le_of_lt hlt) (ih hrest later hlater)⟩

/-- Lexemes in a row are a stretch of the text they are found in. -/
theorem exists_stretch {s : String} {part : List (Lexeme Place)} (h : part <:+: lex (placed s)) :
    ∃ before behind, placed s = before ++ part.flatMap Lexeme.source ++ behind := by
  obtain ⟨before, behind, hpart⟩ := h
  refine ⟨before.flatMap Lexeme.source, behind.flatMap Lexeme.source, ?_⟩
  rw [← List.flatMap_append, ← List.flatMap_append, hpart, source_lex]

namespace Node

theorem mem_flattenAll_of_mem {n : Node μ} {nodes : List (Node μ)} (h : n ∈ nodes) :
    n ∈ flattenAll nodes := by
  induction nodes with
  | nil => exact absurd h List.not_mem_nil
  | cons node rest ih =>
    refine List.mem_append.mpr ?_
    rcases List.mem_cons.mp h with rfl | h
    · exact .inl (by cases n <;> simp [flatten])
    · exact .inr (ih h)

theorem Spells.source_ne_nil {node : Node μ} {ls : List (Lexeme μ)} (h : node.Spells ls)
    (hs : ∀ l ∈ ls, l.IsSound) : node.source ≠ [] := by
  have hne : ∃ l, l ∈ ls := by
    match node, h with
    | text _, h | placeholder _ _, h | inherits _ _, h =>
      cases h
      exact ⟨_, List.mem_singleton_self _⟩
    | stray _, ⟨_, _, h⟩ =>
      cases h
      exact ⟨_, List.mem_singleton_self _⟩
    | pair _ _ _ _ _, ⟨_, _, h⟩ =>
      cases h
      exact ⟨_, List.mem_cons_self ..⟩
  obtain ⟨l, hl⟩ := hne
  intro hnil
  rw [h.source, List.flatMap_eq_nil_iff] at hnil
  exact (hs l hl).source_ne_nil (hnil l hl)

theorem SpellsAll.source_ne_nil {nodes : List (Node μ)} {ls : List (Lexeme μ)}
    (h : SpellsAll nodes ls) (hs : ∀ l ∈ ls, l.IsSound) : ∀ n ∈ nodes, n.source ≠ [] := by
  intro n hn
  obtain ⟨part, hpart, hwithin⟩ := h.exists_of_mem n (mem_flattenAll_of_mem hn)
  exact hpart.source_ne_nil fun l hl => hs l (hwithin.subset hl)

/-- Where nodes are written in a row, the first one is, and behind it the others. -/
theorem stretches_of_cons {s : String} {node : Node Place} {rest : List (Node Place)}
    {before behind : List (Glyph Place)}
    (h : placed s = before ++ sourceAll (node :: rest) ++ behind) :
    placed s = before ++ node.source ++ (sourceAll rest ++ behind) ∧
      placed s = (before ++ node.source) ++ sourceAll rest ++ behind := by
  simp [h, sourceAll]

/-- Nodes that are written in a row fill what they are written in. -/
theorem tiles_of_stretch {s : String} {nodes : List (Node Place)}
    {before behind : List (Glyph Place)} (h : placed s = before ++ sourceAll nodes ++ behind)
    (hne : ∀ n ∈ nodes, n.source ≠ []) :
    Tiles (byteSize before) (byteSize before + byteSize (sourceAll nodes)) (nodes.map span) := by
  induction nodes generalizing before with
  | nil => exact (Nat.add_zero _).symm
  | cons node rest ih =>
    have hnode := hne node (List.mem_cons_self ..)
    obtain ⟨atNode, atRest⟩ := stretches_of_cons h
    have hspan : node.span = ⟨byteSize before, byteSize before + byteSize node.source⟩ :=
      spanOf_stretch atNode hnode
    have hrest := ih atRest fun n hn => hne n (List.mem_cons_of_mem _ hn)
    rw [List.map_cons, hspan]
    refine ⟨rfl, Nat.lt_add_of_pos_right (byteSize_pos hnode), ?_⟩
    simpa [sourceAll, Nat.add_assoc] using hrest

/-- Where a pair is written, its body is between its tags. -/
theorem stretches_of_pair {s : String} {opening closing before behind : List (Glyph Place)}
    {body : List (Node Place)}
    (h : placed s = before ++ (opening ++ sourceAll body ++ closing) ++ behind) :
    placed s = before ++ opening ++ (sourceAll body ++ closing ++ behind) ∧
      placed s = (before ++ opening) ++ sourceAll body ++ (closing ++ behind) ∧
        placed s = (before ++ opening ++ sourceAll body) ++ closing ++ behind := by
  simp [h]

/-- A pair that is written somewhere spans its two tags, and its body fills what is between them. -/
theorem inside_of_stretch {s : String} {keyword : Keyword} {argument : String}
    {opening closing before behind : List (Glyph Place)} {body : List (Node Place)}
    (h : placed s = before ++ (opening ++ sourceAll body ++ closing) ++ behind)
    (hopening : opening ≠ []) (hbody : ∀ n ∈ body, n.source ≠ []) (hclosing : closing ≠ []) :
    (pair keyword argument opening body closing).span =
        ⟨(spanOf opening).start, (spanOf closing).stop⟩ ∧
      (spanOf opening).bytes s = (textOf opening).toUTF8 ∧
        (spanOf closing).bytes s = (textOf closing).toUTF8 ∧
          Tiles (spanOf opening).stop (spanOf closing).start (body.map span) := by
  obtain ⟨atOpening, atBody, atClosing⟩ := stretches_of_pair h
  have hspan : (pair keyword argument opening body closing).span = _ :=
    spanOf_stretch h (by simp [Node.source, hopening])
  refine ⟨?_, bytes_stretch atOpening hopening, bytes_stretch atClosing hclosing, ?_⟩
  · rw [hspan, spanOf_stretch atOpening hopening, spanOf_stretch atClosing hclosing]
    simp [Node.source, Nat.add_assoc]
  · rw [spanOf_stretch atOpening hopening, spanOf_stretch atClosing hclosing]
    simpa [Nat.add_assoc] using tiles_of_stretch atBody hbody

end Node

/-- The tag that stands between two braces and two braces. -/
def Tag.ofWritten? (written : List Char) : Option Tag :=
  Tag.ofContent? (written.drop 2).dropLast.dropLast

theorem Token.IsWritten.ofWritten? {t : Token μ} (h : t.IsWritten) (hp : t.tag.isPaired) :
    Tag.ofWritten? (chars t.raw) = some t.tag := by
  cases h with
  | double hbraces hends htag =>
    rename_i content _
    have hinner : (['{', '{'] ++ chars content ++ ['}', '}']).drop 2 =
        chars content ++ ['}'] ++ ['}'] := by simp
    rw [Tag.ofWritten?, chars_append, chars_append, hbraces, hends, hinner, List.dropLast_concat,
      List.dropLast_concat, htag]
  | @triple tag _ _ _ _ _ _ hplaceholder =>
    cases tag <;> simp_all [Tag.isPlaceholder, Tag.isPaired]

namespace Node

mutual

/-- The tags met in a node, in the order they are written. Which tag a stray is, its text tells. -/
def tags : Node μ → List (Token μ)
  | text _ => []
  | placeholder name raw => [⟨.placeholder name, raw⟩]
  | inherits parent raw => [⟨.inherits parent, raw⟩]
  | pair keyword argument opening body closing =>
    ⟨.opens keyword argument, opening⟩ :: tagsAll body ++ [⟨.closes keyword, closing⟩]
  | stray raw => ((Tag.ofWritten? (chars raw)).map (⟨·, raw⟩)).toList

def tagsAll : List (Node μ) → List (Token μ)
  | [] => []
  | node :: rest => tags node ++ tagsAll rest

end

mutual

theorem Spells.tags : ∀ {node : Node μ} {ls : List (Lexeme μ)}, node.Spells ls →
    (∀ t ∈ tokensOf ls, t.IsWritten) → node.tags = tokensOf ls
  | text _, _, h, _ => by cases h; rfl
  | placeholder _ _, _, h, _ => by cases h; rfl
  | inherits _ _, _, h, _ => by cases h; rfl
  | stray raw, _, ⟨tag, hpaired, h⟩, hw => by
    cases h
    have hwritten : Token.IsWritten ⟨tag, raw⟩ := hw _ (List.mem_singleton_self _)
    rw [Node.tags, hwritten.ofWritten? hpaired]
    rfl
  | pair _ _ _ _ _, _, ⟨inner, hbody, h⟩, hw => by
    cases h
    have hinner : ∀ t ∈ tokensOf inner, t.IsWritten := fun t ht => hw t (by simp [ht])
    rw [Node.tags, hbody.tags hinner, tokensOf_append]
    rfl

theorem SpellsAll.tags : ∀ {nodes : List (Node μ)} {ls : List (Lexeme μ)}, SpellsAll nodes ls →
    (∀ t ∈ tokensOf ls, t.IsWritten) → tagsAll nodes = tokensOf ls
  | [], _, h, _ => by cases h; rfl
  | _ :: _, _, ⟨_, _, hnode, hrest, h⟩, hw => by
    cases h
    rw [tokensOf_append] at hw ⊢
    rw [tagsAll, hnode.tags fun t ht => hw t (List.mem_append_left _ ht),
      hrest.tags fun t ht => hw t (List.mem_append_right _ ht)]

end

/-! ### What is parsed, seen in its text -/

/-- What nodes are in a text if they leave nothing of it out. -/
structure Cover (s : String) (nodes : List (Node Place)) : Prop where
  /-- All nodes together are written as the text is. -/
  whole : sourceText nodes = s
  /-- The bytes that a node spans, at any depth, are the node as it is written. -/
  written : ∀ n ∈ flattenAll nodes, n.span.bytes s = (textOf n.source).toUTF8
  /-- The nodes outside of pairs fill the text. -/
  tiled : Tiles 0 s.utf8ByteSize (nodes.map span)
  /-- A pair, at any depth, spans its two tags, and its body fills what is between them. -/
  inside : ∀ keyword argument opening body closing,
    pair keyword argument opening body closing ∈ flattenAll nodes →
      (pair keyword argument opening body closing).span =
          ⟨(spanOf opening).start, (spanOf closing).stop⟩ ∧
        (spanOf opening).bytes s = (textOf opening).toUTF8 ∧
          (spanOf closing).bytes s = (textOf closing).toUTF8 ∧
            Tiles (spanOf opening).stop (spanOf closing).start (body.map span)
  /-- The tags on the way through the nodes are the tags of the text, each once and in order. -/
  tagged : tagsAll nodes = tokenize s

end Node

theorem cover_parseText (s : String) : Node.Cover s (parseText s) := by
  have spells : Node.SpellsAll (parseText s) (lex (placed s)) := spellsAll_parseLexemes _
  have sound : ∀ l ∈ lex (placed s), l.IsSound := isSound_of_mem_lex
  have hsource : Node.sourceAll (parseText s) = placed s := sourceAll_parse _
  refine ⟨?_, ?_, ?_, ?_, ?_⟩
  · rw [Node.sourceText, hsource, textOf_placed]
  · intro n hn
    obtain ⟨part, hpart, hwithin⟩ := spells.exists_of_mem n hn
    obtain ⟨before, behind, hplaced⟩ := exists_stretch hwithin
    rw [← hpart.source] at hplaced
    exact bytes_stretch hplaced (hpart.source_ne_nil fun l hl => sound l (hwithin.subset hl))
  · have hplaced : placed s = [] ++ Node.sourceAll (parseText s) ++ [] := by simp [hsource]
    have htiles := Node.tiles_of_stretch hplaced (spells.source_ne_nil sound)
    have hnil : byteSize ([] : List (Glyph Place)) = 0 := rfl
    have hall : byteSize (placed s) = s.utf8ByteSize := by rw [byteSize, textOf_placed]
    rwa [hsource, hnil, hall, Nat.zero_add] at htiles
  · intro keyword argument opening body closing hpair
    obtain ⟨part, hpart, hwithin⟩ := spells.exists_of_mem _ hpair
    obtain ⟨before, behind, hplaced⟩ := exists_stretch hwithin
    rw [← hpart.source, Node.source] at hplaced
    have hsound : ∀ l ∈ part, l.IsSound := fun l hl => sound l (hwithin.subset hl)
    obtain ⟨inner, hbody, rfl⟩ := hpart
    rw [List.cons_append, List.forall_mem_cons, List.forall_mem_append,
      List.forall_mem_singleton] at hsound
    obtain ⟨hopening, hinner, hclosing⟩ := hsound
    exact Node.inside_of_stretch hplaced hopening.source_ne_nil (hbody.source_ne_nil hinner)
      hclosing.source_ne_nil
  · exact spells.tags fun t ht => isWritten_of_mem_lex ht

end Letterpress.Template
