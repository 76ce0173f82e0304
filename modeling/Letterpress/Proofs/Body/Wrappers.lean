import Letterpress.Proofs.Body.Truncation
import Letterpress.Proofs.Markup.Wrapping

/-!
# Elements around runs

Groups of runs and hyperlinks are no part of a paragraph: its runs are those of the elements in it
that are neither, each with the innermost hyperlink around it. So a group may be put around any
children of a paragraph, and a hyperlink is put on the runs in it that are in none already.
-/

namespace Letterpress

open Markup Markup.Content Text

/-- Whether an element counts for no more than what is in it, and where this leads. -/
def Markup.Tag.IsWrapper (tag : Tag) : Prop := tag.label = "hyperlink" ∨ isRunGroup tag.label

instance (tag : Tag) : Decidable tag.IsWrapper := inferInstanceAs (Decidable (_ ∨ _))

theorem Markup.Tag.IsWrapper.label_ne {tag : Tag} (h : tag.IsWrapper) {label : String}
    (hlink : label ≠ "hyperlink") (hgroup : ¬ isRunGroup label) : tag.label ≠ label := by
  rintro rfl
  exact h.elim hlink hgroup

/-- The link that counts in an element. -/
def linkInside (link : Option Hyperlink) (tag : Tag) : Option Hyperlink :=
  if tag.label = "hyperlink" then some ⟨tag.value? "id", tag.value? "anchor"⟩ else link

/-- The link that counts in elements one inside the other, the first of them outermost. -/
def innermost (link : Option Hyperlink) (tags : List Tag) : Option Hyperlink :=
  tags.foldl linkInside link

/-- A link that counts where there is no other. -/
def Run.under (link : Option Hyperlink) (r : Run) : Run := { r with link := r.link.or link }

/-- An element that is no wrapper, with the innermost hyperlink around it. -/
structure Inline where
  link : Option Hyperlink
  child : Child

def Inline.under (link : Option Hyperlink) (i : Inline) : Inline :=
  { i with link := i.link.or link }

/-- The children of a content, and in place of a wrapper those in it. -/
def Markup.Content.inlines : Content → List Inline
  | done => []
  | cut _ => []
  | element tag inner rest =>
    (if tag.IsWrapper then inner.inlines.map (Inline.under (linkInside none tag))
    else [⟨none, .element tag inner⟩]) ++ rest.inlines
  | empty tag rest => ⟨none, .empty tag⟩ :: rest.inlines
  | text _ rest => rest.inlines
  | cdata _ rest => rest.inlines
  | aside _ rest => rest.inlines

/-- The runs of an element that is no wrapper: those of a run element, or a mark. -/
def Markup.Content.Child.runs : Child → Except PartFault (List Run)
  | .element tag inner =>
    if tag.label = "r" then (RunParts.read inner).map (·.runs none)
    else .ok (Run.ofMark? none tag).toList
  | .empty tag => .ok (Run.ofMark? none tag).toList
  | _ => .ok []

def Inline.runs (i : Inline) : Except PartFault (List Run) :=
  i.child.runs.map (·.map (Run.under i.link))

/-- Runs behind others, if both are read. -/
def inTurn (a b : Except PartFault (List Run)) : Except PartFault (List Run) := do
  pure ((← a) ++ (← b))

section

variable {a b c : Except PartFault (List Run)}

theorem inTurn_eq_ok {runs : List Run} : inTurn a b = .ok runs ↔
    ∃ here more, a = .ok here ∧ b = .ok more ∧ here ++ more = runs := by
  cases a <;> cases b <;> simp [inTurn, bind, Except.bind, pure, Except.pure]

theorem nil_inTurn : inTurn (.ok []) b = b := by
  cases b <;> rfl

theorem inTurn_nil : inTurn a (.ok []) = a := by
  cases a with
  | error e => rfl
  | ok here => exact congrArg Except.ok (List.append_nil here)

theorem inTurn_assoc : inTurn (inTurn a b) c = inTurn a (inTurn b c) := by
  simp only [inTurn, bind_assoc, pure_bind, List.append_assoc]

theorem map_inTurn (f : Run → Run) :
    (inTurn a b).map (·.map f) = inTurn (a.map (·.map f)) (b.map (·.map f)) := by
  cases a with
  | error e => rfl
  | ok here =>
    cases b with
    | error e => rfl
    | ok more => exact congrArg Except.ok List.map_append

end

/-- The runs of inline elements one after the other. -/
def inlineRuns (inlines : List Inline) : Except PartFault (List Run) :=
  (inlines.mapM Inline.runs).map List.flatten

theorem inlineRuns_cons (i : Inline) (inlines : List Inline) :
    inlineRuns (i :: inlines) = inTurn i.runs (inlineRuns inlines) := by
  rw [inlineRuns, List.mapM_cons, inlineRuns]
  cases i.runs with
  | error e => rfl
  | ok here => cases inlines.mapM Inline.runs <;> rfl

theorem inlineRuns_append (a b : List Inline) :
    inlineRuns (a ++ b) = inTurn (inlineRuns a) (inlineRuns b) := by
  induction a with
  | nil => exact nil_inTurn.symm
  | cons i a ih => rw [List.cons_append, inlineRuns_cons, ih, inlineRuns_cons, inTurn_assoc]

theorem Run.under_under (inner outer : Option Hyperlink) (r : Run) :
    (r.under inner).under outer = r.under (inner.or outer) := by
  simp [under, Option.or_assoc]

theorem Run.under_none (r : Run) : r.under none = r := by
  rw [under, Option.or_none]

theorem map_under_under (inner outer : Option Hyperlink) (runs : Except PartFault (List Run)) :
    (runs.map (·.map (Run.under inner))).map (·.map (Run.under outer)) =
      runs.map (·.map (Run.under (inner.or outer))) := by
  cases runs with
  | error e => rfl
  | ok runs =>
    refine congrArg Except.ok (List.map_map.trans ?_)
    exact List.map_congr_left fun r _ => r.under_under inner outer

theorem Run.ofMark?_eq (link : Option Hyperlink) (tag : Tag) :
    Run.ofMark? link tag = (Run.ofMark? none tag).map (Run.under link) :=
  (Option.map_map (Run.under link) (fun content => ({ content } : Run)) _).symm

theorem RunParts.runs_eq (p : RunParts) (link : Option Hyperlink) :
    p.runs link = (p.runs none).map (Run.under link) := by
  simp [runs, Run.under]

theorem inlineRuns_child (child : Child) (inlines : List Inline) :
    inlineRuns (⟨none, child⟩ :: inlines) = inTurn child.runs (inlineRuns inlines) := by
  have hrun : Inline.runs ⟨none, child⟩ = child.runs := by
    rw [Inline.runs]
    cases child.runs with
    | error e => rfl
    | ok runs =>
      refine congrArg Except.ok ((List.map_congr_left fun r _ => ?_).trans (List.map_id runs))
      exact r.under_none
  rw [inlineRuns_cons, hrun]

theorem inlineRuns_map_under (link : Option Hyperlink) (inlines : List Inline) :
    inlineRuns (inlines.map (Inline.under link)) =
      (inlineRuns inlines).map (·.map (Run.under link)) := by
  induction inlines with
  | nil => rfl
  | cons i inlines ih =>
    have hrun : (i.under link).runs = i.runs.map (·.map (Run.under link)) := by
      rw [Inline.runs, Inline.runs, map_under_under]
      rfl
    rw [List.map_cons, inlineRuns_cons, ih, inlineRuns_cons, map_inTurn, hrun]

theorem linkInside_eq_or (link : Option Hyperlink) (tag : Tag) :
    linkInside link tag = (linkInside none tag).or link := by
  unfold linkInside
  split
  · rfl
  · exact Option.none_or.symm

theorem readRuns_wrapper {tag : Tag} (h : tag.IsWrapper) (link : Option Hyperlink)
    (inner rest : Content) : readRuns link (.element tag inner rest) =
      inTurn (readRuns (linkInside link tag) inner) (readRuns link rest) := by
  rw [readRuns, if_neg (h.label_ne (by decide) (by decide)), linkInside]
  split
  · rfl
  · next hlink => rw [if_pos (h.resolve_left hlink)]; rfl

theorem readRuns_inline {tag : Tag} (h : ¬ tag.IsWrapper) {inner : Content}
    (hinner : inner.cut? = none) (link : Option Hyperlink) (rest : Content) :
    readRuns link (.element tag inner rest) = inTurn
      ((Child.element tag inner).runs.map (·.map (Run.under link))) (readRuns link rest) := by
  rw [Tag.IsWrapper, not_or] at h
  rw [readRuns, Child.runs]
  split
  · have hruns : (RunParts.read inner).map (·.runs link) =
        ((RunParts.read inner).map (·.runs none)).map (·.map (Run.under link)) := by
      cases RunParts.read inner with
      | error e => rfl
      | ok parts => exact congrArg Except.ok (parts.runs_eq link)
    rw [hruns]
    rfl
  · rw [if_neg h.1, if_neg h.2, skip, hinner, Run.ofMark?_eq link, Option.toList_map]
    rfl

/-- The runs of a content are those of the inline elements in it, under the link around it. -/
theorem readRuns_eq_inlineRuns {c : Content} : ∀ {link : Option Hyperlink}, c.cut? = none →
    readRuns link c = (inlineRuns c.inlines).map (·.map (Run.under link)) := by
  induction c with
  | done => exact fun _ => rfl
  | cut fault => exact nofun
  | element tag inner rest ihInner ihRest =>
    intro link hcut
    obtain ⟨hinner, hrest⟩ := cut?_element.mp hcut
    rw [inlines, inlineRuns_append, map_inTurn]
    by_cases h : tag.IsWrapper
    · rw [readRuns_wrapper h, ihInner hinner, ihRest hrest, if_pos h, inlineRuns_map_under,
        map_under_under, linkInside_eq_or link]
    · rw [readRuns_inline h hinner, ihRest hrest, if_neg h, inlineRuns_child]
      exact congrArg (inTurn · _) (congrArg _ inTurn_nil.symm)
  | empty tag rest ih =>
    intro link hcut
    rw [inlines, inlineRuns_child, map_inTurn, ← ih hcut, readRuns, Run.ofMark?_eq link,
      Option.toList_map]
    rfl
  | text content rest ih | cdata content rest ih | aside source rest ih => exact fun h => ih h

theorem readRuns_none {c : Content} (hcut : c.cut? = none) :
    readRuns none c = inlineRuns c.inlines := by
  rw [readRuns_eq_inlineRuns hcut]
  cases inlineRuns c.inlines with
  | error e => rfl
  | ok runs => exact congrArg Except.ok ((List.map_congr_left fun r _ => r.under_none).trans
      (List.map_id runs))

/-! ### Paragraphs and places in them -/

namespace Paragraph

/-- The properties of a paragraph behind one of its children. -/
def propertiesAfter (q : ParagraphProperties) : Child → Except PartFault ParagraphProperties
  | .element tag inner => if tag.label = "pPr" then ParagraphProperties.read inner else .ok q
  | _ => .ok q

/-- The properties of a paragraph behind all children of a content. -/
def propertiesBehind (q : ParagraphProperties) (c : Content) :
    Except PartFault ParagraphProperties :=
  c.children.foldlM propertiesAfter q

/-- A step that adds just the runs of these inline elements, and sets the properties apart. -/
def Adds (f : Paragraph → Except PartFault Paragraph) (inlines : List Inline)
    (set : ParagraphProperties → Except PartFault ParagraphProperties) : Prop :=
  ∀ p p', f p = .ok p' ↔ ∃ runs, inlineRuns inlines = .ok runs ∧ p'.runs = p.runs ++ runs ∧
    set p.properties = .ok p'.properties

theorem Adds.bind {f g : Paragraph → Except PartFault Paragraph} {a b : List Inline}
    {set set' : ParagraphProperties → Except PartFault ParagraphProperties} (hf : Adds f a set)
    (hg : Adds g b set') : Adds (f · >>= g) (a ++ b) (set · >>= set') := by
  intro p p'
  rw [bind_eq_ok, inlineRuns_append]
  constructor
  · rintro ⟨q, hq, hp⟩
    obtain ⟨here, hhere, hruns, hset⟩ := (hf p q).mp hq
    obtain ⟨more, hmore, hruns', hset'⟩ := (hg q p').mp hp
    refine ⟨here ++ more, inTurn_eq_ok.mpr ⟨here, more, hhere, hmore, rfl⟩, ?_, ?_⟩
    · rw [hruns', hruns, List.append_assoc]
    · exact bind_eq_ok.mpr ⟨_, hset, hset'⟩
  · rintro ⟨runs, hruns, hp, hset⟩
    obtain ⟨here, more, hhere, hmore, rfl⟩ := inTurn_eq_ok.mp hruns
    obtain ⟨properties, hset, hset'⟩ := bind_eq_ok.mp hset
    refine ⟨⟨properties, p.runs ++ here⟩, (hf p _).mpr ⟨here, hhere, rfl, hset⟩, ?_⟩
    exact (hg _ p').mpr ⟨more, hmore, by rw [hp, List.append_assoc], hset'⟩

theorem adds_nothing : Adds .ok [] .ok := by
  intro p p'
  constructor
  · rintro ⟨⟩
    exact ⟨[], rfl, (List.append_nil _).symm, rfl⟩
  · rintro ⟨runs, hruns, hp, hset⟩
    obtain ⟨properties, runs'⟩ := p'
    cases (Except.ok.inj hruns : [] = runs)
    cases hp.trans (List.append_nil _)
    cases hset
    rfl

/-- Runs behind those of a paragraph. -/
theorem adds_runs {inlines : List Inline} :
    Adds (fun p => (inlineRuns inlines).map fun runs => { p with runs := p.runs ++ runs })
      inlines .ok := by
  intro p p'
  rw [map_eq_ok]
  constructor
  · rintro ⟨runs, hruns, rfl⟩
    exact ⟨runs, hruns, rfl, rfl⟩
  · rintro ⟨runs, hruns, hp, hset⟩
    obtain ⟨properties, runs'⟩ := p'
    cases hp
    cases hset
    exact ⟨runs, hruns, rfl⟩

theorem adds_element {tag : Tag} {inner : Content} (hinner : inner.cut? = none) :
    Adds (child · (.element tag inner)) (Content.element tag inner .done).inlines
      (propertiesAfter · (.element tag inner)) := by
  by_cases hlabel : tag.label = "pPr"
  · have hwrapper : ¬ tag.IsWrapper := by
      rw [Tag.IsWrapper, hlabel]
      decide
    have hruns : inlineRuns (Content.element tag inner .done).inlines = .ok [] := by
      rw [inlines, if_neg hwrapper, List.singleton_append, inlineRuns_child, Child.runs, hlabel,
        if_neg (by decide), Run.ofMark?, hlabel]
      rfl
    intro p p'
    dsimp only
    rw [child, if_pos hlabel, hruns, propertiesAfter, if_pos hlabel, bind_eq_ok]
    constructor
    · rintro ⟨properties, hread, ⟨⟩⟩
      exact ⟨[], rfl, (List.append_nil _).symm, hread⟩
    · rintro ⟨runs, hruns, hp, hread⟩
      obtain ⟨properties, runs'⟩ := p'
      cases (Except.ok.inj hruns : [] = runs)
      cases hp.trans (List.append_nil _)
      exact ⟨properties, hread, rfl⟩
  · intro p p'
    have hset : propertiesAfter p.properties (.element tag inner) = .ok p.properties :=
      if_neg hlabel
    dsimp only
    rw [hset, ← adds_runs p p', child, if_neg hlabel,
      readRuns_none (cut?_element.mpr ⟨hinner, rfl⟩)]
    cases inlineRuns (Content.element tag inner .done).inlines <;> rfl

theorem adds_children {c : Content} (hcut : c.cut? = none) :
    Adds (foldChildren child · c) c.inlines (propertiesBehind · c) := by
  induction c with
  | done => exact adds_nothing
  | cut fault => cases hcut
  | element tag inner rest _ ih =>
    obtain ⟨hinner, hrest⟩ := cut?_element.mp hcut
    have hinlines : (Content.element tag inner rest).inlines =
        (Content.element tag inner .done).inlines ++ rest.inlines := by
      simp [inlines]
    rw [hinlines]
    exact (adds_element hinner).bind (ih hrest)
  | empty tag rest ih =>
    have hempty : Adds (child · (.empty tag)) [⟨none, .empty tag⟩] .ok := by
      have hruns : inlineRuns [⟨none, .empty tag⟩] = .ok (Run.ofMark? none tag).toList :=
        (inlineRuns_child _ _).trans inTurn_nil
      have hadds : Adds _ [⟨none, .empty tag⟩] .ok := adds_runs
      rwa [hruns] at hadds
    exact hempty.bind (ih hcut)
  | text content rest ih | cdata content rest ih => exact ih hcut
  | aside source rest ih => exact ih hcut

theorem read_eq_ok_iff {c : Content} {p : Paragraph} : Paragraph.read c = .ok p ↔
    c.cut? = none ∧ inlineRuns c.inlines = .ok p.runs ∧
      propertiesBehind {} c = .ok p.properties := by
  constructor
  · intro h
    have hcut := finishes_child.foldChildren h
    obtain ⟨runs, hruns, hp, hproperties⟩ := (adds_children hcut _ _).mp h
    rw [List.nil_append] at hp
    exact ⟨hcut, hp ▸ hruns, hproperties⟩
  · rintro ⟨hcut, hruns, hproperties⟩
    exact (adds_children hcut _ _).mpr ⟨_, hruns, rfl, hproperties⟩

end Paragraph

theorem Inline.map_under_under (inner outer : Option Hyperlink) (inlines : List Inline) :
    (inlines.map (Inline.under inner)).map (Inline.under outer) =
      inlines.map (Inline.under (inner.or outer)) := by
  rw [List.map_map]
  refine List.map_congr_left fun i _ => ?_
  exact congrArg (Inline.mk · i.child) Option.or_assoc

theorem Inline.map_under_none (inlines : List Inline) :
    inlines.map (Inline.under none) = inlines := by
  refine (List.map_congr_left fun i _ => ?_).trans (List.map_id inlines)
  exact congrArg (Inline.mk · i.child) Option.or_none

theorem innermost_cons (link : Option Hyperlink) (tag : Tag) (tags : List Tag) :
    innermost link (tag :: tags) = innermost (linkInside link tag) tags :=
  rfl

theorem innermost_eq_or (link : Option Hyperlink) (tags : List Tag) :
    innermost link tags = (innermost none tags).or link := by
  induction tags generalizing link with
  | nil => exact Option.none_or.symm
  | cons tag tags ih =>
    rw [innermost_cons, innermost_cons, ih, ih (linkInside none tag), Option.or_assoc,
      ← linkInside_eq_or]

namespace Markup.Content

theorem inlines_append {a : Content} (h : a.cut? = none) (b : Content) :
    (a.append b).inlines = a.inlines ++ b.inlines := by
  induction a with
  | done => rfl
  | cut fault => cases h
  | element tag inner rest _ ih =>
    rw [append, inlines, ih (cut?_element.mp h).2, inlines, List.append_assoc]
  | empty tag rest ih => exact congrArg (_ :: ·) (ih h)
  | text content rest ih | cdata content rest ih | aside source rest ih => exact ih h

theorem inlines_wrapper {tag : Tag} (h : tag.IsWrapper) (inner rest : Content) :
    (element tag inner rest).inlines =
      inner.inlines.map (Inline.under (linkInside none tag)) ++ rest.inlines := by
  rw [inlines, if_pos h]

theorem inlines_wrapEvents {events : List Event} (h : Balanced events) {wrappers : List Tag}
    (hwrappers : ∀ tag ∈ wrappers, tag.IsWrapper) : (ofRow (wrapEvents wrappers events)).inlines =
      (ofRow events).inlines.map (Inline.under (innermost none wrappers)) := by
  induction wrappers with
  | nil => exact (Inline.map_under_none _).symm
  | cons tag tags ih =>
    obtain ⟨htag, htags⟩ := List.forall_mem_cons.mp hwrappers
    rw [ofRow_wrapEvents_cons h, inlines_wrapper htag, ih htags, Inline.map_under_under,
      innermost_cons, innermost_eq_or (linkInside none tag), inlines, List.append_nil]

/-- Inside wrappers the inline elements of a content stand between those before and those behind
it. -/
theorem exists_inlines_opens {tags : List Tag} {front : List Event} (h : Opens tags front)
    (htags : ∀ tag ∈ tags, tag.IsWrapper) (fault : Option Fault) (around : List Content) :
    ∃ last, ∀ c, (front.foldr (put fault) ⟨c, around⟩).here.inlines =
      (front.foldr (put none) ⟨cut none, []⟩).here.inlines ++
        (c.inlines.map (Inline.under (innermost none tags)) ++ last) := by
  induction h with
  | nothing hfront =>
    refine ⟨[], fun c => ?_⟩
    simp only [foldr_put_row hfront, Nested.mapHere, inlines_append (cut?_ofRow hfront), inlines,
      List.append_nil]
    exact congrArg _ (Inline.map_under_none _).symm
  | @opening before inner tag tags hbefore hinner ih =>
    obtain ⟨htag, htags⟩ := List.forall_mem_cons.mp htags
    obtain ⟨last, hlast⟩ := ih htags
    refine ⟨last.map (Inline.under (linkInside none tag)) ++
      ((around.drop tags.length).headD (cut fault)).inlines, fun c => ?_⟩
    have hcut : (cut none).inlines = [] := rfl
    simp only [here_of_opens hbefore hinner, inlines_append (cut?_ofRow hbefore),
      inlines_wrapper htag, hlast, innermost_cons, innermost_eq_or (linkInside none tag),
      List.map_append, Inline.map_under_under, List.drop_nil, List.headD_nil, hcut,
      List.append_nil, List.append_assoc]

theorem children_append {a : Content} (h : a.cut? = none) (b : Content) :
    (a.append b).children = a.children ++ b.children := by
  induction a with
  | done => rfl
  | cut fault => cases h
  | element tag inner rest _ ih => exact congrArg (_ :: ·) (ih (cut?_element.mp h).2)
  | empty tag rest ih | text content rest ih | cdata content rest ih =>
    exact congrArg (_ :: ·) (ih h)
  | aside source rest ih => exact ih h

end Markup.Content

namespace Paragraph

theorem propertiesBehind_append {a : Content} (h : a.cut? = none) (b : Content)
    (q : ParagraphProperties) : propertiesBehind q (a.append b) =
      propertiesBehind q a >>= (propertiesBehind · b) := by
  rw [propertiesBehind, children_append h, List.foldlM_append]
  rfl

/-- Children none of which sets the properties of the paragraph. -/
def IsInline (c : Content) : Prop :=
  ∀ tag inner, Child.element tag inner ∈ c.children → tag.label ≠ "pPr"

theorem propertiesBehind_of_isInline {c : Content} (h : IsInline c) (q : ParagraphProperties) :
    propertiesBehind q c = .ok q := by
  have hchildren : ∀ child ∈ c.children, propertiesAfter q child = .ok q := by
    intro child hmem
    cases child with
    | element tag inner => exact if_neg (h tag inner hmem)
    | empty | text | cdata => rfl
  rw [propertiesBehind]
  generalize c.children = children at hchildren
  induction children with
  | nil => rfl
  | cons child children ih =>
    obtain ⟨hchild, hrest⟩ := List.forall_mem_cons.mp hchildren
    rw [List.foldlM_cons, hchild, ok_bind, ih hrest]

theorem isInline_wrapEvents {events : List Event} (h : Balanced events)
    (hevents : IsInline (ofRow events)) {wrappers : List Tag}
    (hwrappers : ∀ tag ∈ wrappers, tag.IsWrapper) :
    IsInline (ofRow (wrapEvents wrappers events)) := by
  cases wrappers with
  | nil => exact hevents
  | cons tag tags =>
    rw [ofRow_wrapEvents_cons h]
    intro t inner hmem
    cases List.mem_singleton.mp hmem
    exact (hwrappers _ (List.mem_cons_self ..)).label_ne (by decide) (by decide)

/-- The properties do not hang on what is in wrappers. -/
theorem propertiesBehind_opens {tags : List Tag} {front : List Event} (h : Opens tags front)
    (htags : ∀ tag ∈ tags, tag.IsWrapper) (fault : Option Fault) (around : List Content)
    {c c' : Content} (hc : ∀ q, propertiesBehind q c = propertiesBehind q c')
    (q : ParagraphProperties) :
    propertiesBehind q (front.foldr (put fault) ⟨c, around⟩).here =
      propertiesBehind q (front.foldr (put fault) ⟨c', around⟩).here := by
  cases h with
  | nothing hfront =>
    simp only [foldr_put_row hfront, Nested.mapHere, propertiesBehind_append (cut?_ofRow hfront),
      hc]
  | @opening before inner tag tags hbefore hinner =>
    have htag : tag.label ≠ "pPr" :=
      (htags tag (List.mem_cons_self ..)).label_ne (by decide) (by decide)
    have helement : ∀ inner rest q, propertiesBehind q (.element tag inner rest) =
        propertiesBehind q rest := by
      intro inner rest q
      rw [propertiesBehind, children, List.foldlM_cons, propertiesAfter, if_neg htag, ok_bind]
      rfl
    simp only [here_of_opens hbefore hinner, propertiesBehind_append (cut?_ofRow hbefore),
      helement]

end Paragraph

/-- In a paragraph, children can be put in the place of other ones, also inside wrappers. -/
theorem Paragraph.read_replaced {tags : List Tag} {front : List Event} (h : Opens tags front)
    (htags : ∀ tag ∈ tags, tag.IsWrapper) {fault : Option Fault} {around : List Content}
    {row row' rest : Content} {p : Paragraph} (hrow : row.cut? = none) (hinline : IsInline row)
    (hrow' : row'.cut? = none) (hinline' : IsInline row')
    (hread : Paragraph.read (front.foldr (put fault) ⟨row.append rest, around⟩).here = .ok p) :
    ∃ first runs last,
      inlineRuns (front.foldr (put none) ⟨cut none, []⟩).here.inlines = .ok first ∧
      inlineRuns row.inlines = .ok runs ∧
      p.runs = first ++ runs.map (Run.under (innermost none tags)) ++ last ∧
      ∀ runs', inlineRuns row'.inlines = .ok runs' →
        Paragraph.read (front.foldr (put fault) ⟨row'.append rest, around⟩).here =
          .ok { p with runs := first ++ runs'.map (Run.under (innermost none tags)) ++ last } := by
  obtain ⟨hcut, hruns, hproperties⟩ := read_eq_ok_iff.mp hread
  obtain ⟨closed, hclosed⟩ := exists_cut?_opens h fault around
  obtain ⟨more, hmore⟩ := exists_inlines_opens h htags fault around
  rw [hclosed, cut?_append] at hcut
  rw [hmore, inlines_append hrow, List.map_append, List.append_assoc, inlineRuns_append,
    inlineRuns_append, inlineRuns_map_under] at hruns
  obtain ⟨first, behind, hfirst, hbehind, hp⟩ := inTurn_eq_ok.mp hruns
  obtain ⟨here, last, hhere, hlast, rfl⟩ := inTurn_eq_ok.mp hbehind
  obtain ⟨runs, hruns, rfl⟩ := map_eq_ok.mp hhere
  refine ⟨first, runs, last, hfirst, hruns, by rw [← hp, List.append_assoc], fun runs' hruns' => ?_⟩
  refine read_eq_ok_iff.mpr ⟨?_, ?_, ?_⟩
  · rw [hclosed, cut?_append]
    exact ⟨⟨hrow', hcut.1.2⟩, hcut.2⟩
  · rw [hmore, inlines_append hrow', List.map_append, List.append_assoc, inlineRuns_append,
      inlineRuns_append, inlineRuns_map_under, hfirst, hruns', hlast]
    exact congrArg Except.ok (List.append_assoc ..).symm
  · have hrows : ∀ q, propertiesBehind q (row'.append rest) =
        propertiesBehind q (row.append rest) := by
      intro q
      rw [propertiesBehind_append hrow', propertiesBehind_of_isInline hinline',
        propertiesBehind_append hrow, propertiesBehind_of_isInline hinline]
    exact (propertiesBehind_opens h htags fault around hrows {}).trans hproperties

/-! ### Wrapped children -/

theorem innermost_of_isRunGroup {wrappers : List Tag}
    (h : ∀ tag ∈ wrappers, isRunGroup tag.label) (link : Option Hyperlink) :
    innermost link wrappers = link := by
  induction wrappers with
  | nil => rfl
  | cons tag tags ih =>
    obtain ⟨htag, htags⟩ := List.forall_mem_cons.mp h
    have hlink : linkInside link tag = link := by
      refine if_neg fun hlabel => ?_
      rw [hlabel] at htag
      exact absurd htag (by decide)
    rw [innermost_cons, hlink, ih htags]

theorem here_of_scanFrom {opened : List (List Symbol)} {input : List Symbol}
    {front row behind : List Event} {fault : Option Fault}
    (h : scanFrom opened input = ⟨front ++ (row ++ behind), fault⟩) (hrow : Balanced row) :
    (nested opened input).here = (front.foldr (put fault)
      ⟨(ofRow row).append (behind.foldr (put fault) ⟨cut fault, []⟩).here,
        (behind.foldr (put fault) ⟨cut fault, []⟩).around⟩).here := by
  rw [nested, h]
  dsimp only
  rw [List.foldr_append, List.foldr_append, foldr_put_row hrow]
  rfl

/-- Where wrappers are put around children of a paragraph, also inside others, its runs stay as they
are, but those that are in no hyperlink among these children lead to where the innermost new one
does. -/
theorem Paragraph.read_wrapped {opened : List (List Symbol)} {input : List Symbol}
    {front seq behind : List Event} {fault : Option Fault} {around wrappers : List Tag}
    {p : Paragraph} (hread : Paragraph.read (nested opened input).here = .ok p)
    (hscan : scanFrom opened input = ⟨front ++ (seq ++ behind), fault⟩)
    (hfront : Opens around front) (haround : ∀ tag ∈ around, tag.IsWrapper)
    (hseq : Balanced seq) (hinline : IsInline (ofRow seq))
    (hwrappers : ∀ tag ∈ wrappers, tag.IsWrapper ∧ tag.IsElement) :
    let link := innermost none around
    ∃ before inside after first runs last, input = before ++ (inside ++ after) ∧
      scanFrom opened before = ⟨front, none⟩ ∧
      inlineRuns (nested opened before).here.inlines = .ok first ∧
      inlineRuns (ofRow seq).inlines = .ok runs ∧
      p.runs = first ++ runs.map (Run.under link) ++ last ∧
      let wrapped := before ++ (wrapSource wrappers inside ++ after)
      let runs' := first ++ runs.map (Run.under (innermost link wrappers)) ++ last
      scanFrom opened wrapped = ⟨front ++ (wrapEvents wrappers seq ++ behind), fault⟩ ∧
      Paragraph.read (nested opened wrapped).here = .ok { p with runs := runs' } ∧
      ((∀ tag ∈ wrappers, isRunGroup tag.label) →
        Paragraph.read (nested opened wrapped).here = .ok p) := by
  intro link
  obtain ⟨before, inside, after, rfl, hbefore, hwrapped⟩ := exists_wrapped hscan hseq
  have hscan' := hwrapped wrappers fun tag htag => (hwrappers tag htag).2
  have hlinks : ∀ tag ∈ wrappers, tag.IsWrapper := fun tag htag => (hwrappers tag htag).1
  have hseq' := balanced_wrapEvents hseq wrappers
  rw [here_of_scanFrom hscan hseq] at hread
  obtain ⟨first, runs, last, hfirst, hruns, hp, hreplaced⟩ :=
    read_replaced hfront haround (cut?_ofRow hseq) hinline (cut?_ofRow hseq')
      (isInline_wrapEvents hseq hinline hlinks) hread
  have hruns' : inlineRuns (ofRow (wrapEvents wrappers seq)).inlines =
      .ok (runs.map (Run.under (innermost none wrappers))) := by
    rw [inlines_wrapEvents hseq hlinks, inlineRuns_map_under, hruns]
    rfl
  have hread' := hreplaced _ hruns'
  have hlinked : (runs.map (Run.under (innermost none wrappers))).map (Run.under link) =
      runs.map (Run.under (innermost link wrappers)) := by
    rw [List.map_map, innermost_eq_or link]
    exact List.map_congr_left fun r _ => r.under_under _ link
  rw [← here_of_scanFrom hscan' hseq', hlinked] at hread'
  have hplace : (nested opened before).here = (front.foldr (put none) ⟨cut none, []⟩).here := by
    rw [nested, hbefore]
  refine ⟨before, inside, after, first, runs, last, rfl, hbefore, by rw [hplace, hfirst], hruns, hp,
    hscan', hread', fun hgroups => ?_⟩
  rw [hread', innermost_of_isRunGroup hgroups, ← hp]

/-- A bookmark mark, a run in a hyperlink and one in none, all of them inserted, are put into a
content control inside another hyperlink. -/
theorem Paragraph.read_wrapped_control :
    let tag (s : String) : Tag := ⟨Symbol.ofString s⟩
    let wrappers := ["w:sdt", "w:hyperlink r:id='rId7'", "w:sdtContent"].map tag
    let outer : Hyperlink := { relationship := some "rId7" }
    let inner : Hyperlink := { anchor := some "there" }
    ∃ before inside after,
      Symbol.ofString ("<w:pPr><w:keepNext/></w:pPr><w:ins>" ++
        "<w:bookmarkStart w:id='1' w:name='here'/><w:hyperlink w:anchor='there'><w:r><w:t>Tea" ++
        "</w:t></w:r></w:hyperlink><w:r><w:t>Cup</w:t></w:r></w:ins></w:p>") =
          before ++ (inside ++ after) ∧
      Paragraph.read (nested [Symbol.ofString "w:p"] (before ++ (inside ++ after))).here =
        .ok ⟨{ keepNext := true }, [{ content := .bookmarkStart ⟨1, "here"⟩ },
          { content := .text "Tea", link := inner }, { content := .text "Cup" }]⟩ ∧
      Paragraph.read (nested [Symbol.ofString "w:p"]
          (before ++ (wrapSource wrappers inside ++ after))).here =
        .ok ⟨{ keepNext := true }, [{ content := .bookmarkStart ⟨1, "here"⟩, link := outer },
          { content := .text "Tea", link := inner },
          { content := .text "Cup", link := outer }]⟩ := by
  intro tag wrappers outer inner
  obtain ⟨source, hsource⟩ : ∃ source, source = Symbol.ofString
      ("<w:pPr><w:keepNext/></w:pPr><w:ins>" ++
        "<w:bookmarkStart w:id='1' w:name='here'/><w:hyperlink w:anchor='there'><w:r><w:t>Tea" ++
        "</w:t></w:r></w:hyperlink><w:r><w:t>Cup</w:t></w:r></w:ins></w:p>") := ⟨_, rfl⟩
  let run (s : String) := wrapEvents [tag "w:r", tag "w:t"] [.text (Symbol.ofString s)]
  let front := wrapEvents [tag "w:pPr"] [.empty (tag "w:keepNext")] ++ [.opening (tag "w:ins")]
  let seq := .empty (tag "w:bookmarkStart w:id='1' w:name='here'") ::
    (wrapEvents [tag "w:hyperlink w:anchor='there'"] (run "Tea") ++ run "Cup")
  let behind : List Event := ["w:ins", "w:p"].map (.closing ∘ Symbol.ofString)
  have hscan : scanFrom [Symbol.ofString "w:p"] source = ⟨front ++ (seq ++ behind), none⟩ := by
    rw [hsource, Symbol.ofString_append, Symbol.ofString_append]
    decide +kernel
  have hread : Paragraph.read (nested [Symbol.ofString "w:p"] source).here =
      .ok ⟨{ keepNext := true }, [{ content := .bookmarkStart ⟨1, "here"⟩ },
        { content := .text "Tea", link := inner }, { content := .text "Cup" }]⟩ := by
    rw [nested, hscan]
    decide +kernel
  have hrun : ∀ s, Balanced (run s) := fun s => balanced_wrapEvents (.front rfl .nil) _
  have hfront : Opens [tag "w:ins"] front :=
    .opening (balanced_wrapEvents (.front rfl .nil) _) (.nothing .nil)
  have hseq : Balanced seq :=
    .front rfl ((balanced_wrapEvents (hrun "Tea") _).append (hrun "Cup"))
  have hinline : IsInline (ofRow seq) := by
    intro t inner hmem
    have hchildren : (ofRow seq).children =
        [.empty _, .element (tag _) _, .element (tag _) _] := rfl
    simp only [hchildren, List.mem_cons, List.not_mem_nil, or_false, reduceCtorEq, false_or,
      Child.element.injEq] at hmem
    obtain ⟨rfl, -⟩ | ⟨rfl, -⟩ := hmem <;> decide +kernel
  have hscans : ∀ t ∈ wrappers, t.IsWrapper ∧
      scanMarkup (t.content ++ [.char '>']) = .ok (.opening t, []) ∧
      scanMarkup (.char '/' :: (t.name ++ [.char '>'])) = .ok (.closing t.name, []) := by
    decide +kernel
  have hwrappers : ∀ t ∈ wrappers, t.IsWrapper ∧ t.IsElement := by
    intro t ht
    obtain ⟨hwrapper, hstart, hend⟩ := hscans t ht
    exact ⟨hwrapper, isRead_of_scanMarkup hstart, isRead_of_scanMarkup hend⟩
  obtain ⟨before, inside, after, first, runs, last, rfl, hbefore, hfirst, hruns, hp, -, hwrapped,
    -⟩ := Paragraph.read_wrapped hread hscan hfront (by decide +kernel) hseq hinline hwrappers
  have hfirst' : inlineRuns (nested [Symbol.ofString "w:p"] before).here.inlines = .ok [] := by
    rw [nested, hbefore]
    decide +kernel
  have hruns' : inlineRuns (ofRow seq).inlines = .ok [{ content := .bookmarkStart ⟨1, "here"⟩ },
      { content := .text "Tea", link := inner }, { content := .text "Cup" }] := by
    decide +kernel
  obtain rfl := Except.ok.inj (hfirst.symm.trans hfirst')
  obtain rfl := Except.ok.inj (hruns.symm.trans hruns')
  obtain rfl : last = [] := by
    simpa using congrArg List.length hp
  have hlink : innermost (innermost none [tag "w:ins"]) wrappers = some outer := by
    decide +kernel
  rw [hlink] at hwrapped
  exact ⟨before, inside, after, hsource.symm, hread, hwrapped⟩

end Letterpress
