import Letterpress.Proofs.Body.Normal
import Letterpress.Proofs.Number.Decimal
import Letterpress.Proofs.Results

/-!
# What a reader takes

A reader that takes written pieces in one state goes on in another. Pieces one behind the other are
taken one after the other, so a list of written values is read back value by value.
-/

namespace Letterpress

open Markup Markup.Content Text

variable {σ ρ τ α : Type}

namespace Markup.Content

def children : Content → List Child
  | done => []
  | cut _ => []
  | element tag inner rest => .element tag inner :: children rest
  | empty tag rest => .empty tag :: children rest
  | text content rest => .text content :: children rest
  | cdata content rest => .cdata content :: children rest
  | aside _ rest => children rest

/-- What every child of a kind preserves is preserved by a fold over such children. -/
theorem foldChildren_preserves {f : σ → Child → Except PartFault σ} {P : Child → Prop}
    {I : σ → Prop} (hf : ∀ s child s', P child → f s child = .ok s' → I s → I s')
    {c : Content} {s s' : σ} (hc : ∀ child ∈ c.children, P child)
    (h : foldChildren f s c = .ok s') (hs : I s) : I s' := by
  have step : ∀ child rest, (∀ other ∈ child :: rest.children, P other) →
      (∀ {s : σ}, (∀ other ∈ rest.children, P other) → foldChildren f s rest = .ok s' → I s →
        I s') → ∀ {s : σ}, f s child >>= (foldChildren f · rest) = .ok s' → I s → I s' := by
    intro child rest hc ih s h hs
    obtain ⟨hchild, hrest⟩ := List.forall_mem_cons.mp hc
    obtain ⟨next, hnext, h⟩ := bind_eq_ok.mp h
    exact ih hrest h (hf s child next hchild hnext hs)
  induction c generalizing s with
  | done =>
    cases h
    exact hs
  | cut fault => cases h
  | element tag inner rest _ ih => exact step _ rest hc ih h hs
  | empty tag rest ih => exact step _ rest hc ih h hs
  | text content rest ih => exact step _ rest hc ih h hs
  | cdata content rest ih => exact step _ rest hc ih h hs
  | aside source rest ih => exact ih hc h hs

theorem foldTags_preserves {f : σ → Tag → σ} {I : σ → Prop} (hf : ∀ s tag, I s → I (f s tag))
    {c : Content} {s s' : σ} (h : foldTags f s c = .ok s') (hs : I s) : I s' := by
  refine foldChildren_preserves (P := fun _ => True) (fun s child s' _ h hs => ?_) (fun _ _ => trivial)
    h hs
  cases child with
  | element tag inner =>
    obtain ⟨⟨⟩, -, h⟩ := bind_eq_ok.mp h
    cases h
    exact hf s tag hs
  | empty tag =>
    cases h
    exact hf s tag hs
  | text content =>
    cases h
    exact hs
  | cdata content =>
    cases h
    exact hs

end Markup.Content

/-- Attributes of which some may be absent. -/
def givens (names : List String) (values : List (Option String)) : List (String × String) :=
  (names.zip values).flatMap fun x => Piece.given x.1 x.2

/-- What is read from a tag: its label, and values by their local names. -/
structure Markup.Tag.Carries (tag : Tag) (label : String) (names : List String)
    (values : List (Option String)) : Prop where
  label : tag.label = label
  value : ∀ l, tag.value? l = ((names.zip values).lookup l).join

/-- A name and names of attributes that can be written, and what they are read as. -/
def isWritable (name : String) (names : List String) (label : String) (locals : List String) :
    Bool :=
  isPlain name && names.all isPlain && decide names.Nodup && localName name = label &&
    names.map localName = locals && decide locals.Nodup

theorem map_fst_givens (names : List String) (values : List (Option String)) :
    ((givens names values).map Prod.fst).Sublist names := by
  induction names generalizing values with
  | nil => exact .slnil
  | cons n names ih =>
    cases values with
    | nil => exact List.nil_sublist _
    | cons v values =>
      rw [givens, List.zip_cons_cons, List.flatMap_cons, List.map_append]
      cases v with
      | none => exact (ih values).cons _
      | some v => exact (ih values).cons_cons _

theorem mem_of_mem_givens {names : List String} {values : List (Option String)}
    {a : String × String}
    (h : a ∈ givens names values) : a.1 ∈ names :=
  (map_fst_givens names values).subset (List.mem_map_of_mem h)

theorem find?_givens {names : List String} {values : List (Option String)}
    (h : (names.map localName).Nodup) (l : String) :
    ((givens names values).find? (localName ·.1 = l)).map Prod.snd =
      (((names.map localName).zip values).lookup l).join := by
  induction names generalizing values with
  | nil => rfl
  | cons n names ih =>
    cases values with
    | nil => rfl
    | cons v values =>
      rw [List.map_cons, List.nodup_cons] at h
      rw [givens, List.zip_cons_cons, List.flatMap_cons, List.find?_append, List.map_cons,
        List.zip_cons_cons, List.lookup_cons]
      have ih := @ih values h.2
      rw [givens] at ih
      rw [Option.map_or, ih]
      by_cases hl : localName n = l
      · have habsent : ((names.map localName).zip values).lookup l = none := by
          rw [List.lookup_eq_none_iff]
          rintro ⟨m, w⟩ hx
          rw [bne_iff_ne]
          rintro rfl
          exact h.1 (hl ▸ (List.of_mem_zip hx).1)
        rw [habsent, beq_iff_eq.mpr hl.symm]
        cases v <;> simp [Piece.given, hl]
      · rw [beq_eq_false_iff_ne.mpr (Ne.symm hl)]
        cases v <;> simp [Piece.given, hl]

theorem isWritten_givens {name label : String} {names locals : List String}
    (h : isWritable name names label locals) (values : List (Option String)) :
    Tag.IsWritten name (givens names values) := by
  simp only [isWritable, Bool.and_eq_true, List.all_eq_true, decide_eq_true_eq] at h
  exact ⟨h.1.1.1.1.1, closesQuotes_attributesSource fun a ha =>
    closesQuotes_of_isPlain (h.1.1.1.1.2 _ (mem_of_mem_givens ha))⟩

theorem carries_givens {name label : String} {names locals : List String}
    (h : isWritable name names label locals) (values : List (Option String)) :
    (Tag.written name (givens names values)).Carries label locals values := by
  simp only [isWritable, Bool.and_eq_true, List.all_eq_true, decide_eq_true_eq] at h
  obtain ⟨⟨⟨⟨⟨hname, hplain⟩, hnodup⟩, hlabel⟩, hlocals⟩, hdistinct⟩ := h
  have hsound : Attribute.Sound (givens names values) :=
    ⟨fun a ha => soundName_of_isPlain (hplain _ (mem_of_mem_givens ha)),
      hnodup.sublist (map_fst_givens names values)⟩
  refine ⟨(Tag.label_written hname).trans hlabel, fun l => ?_⟩
  rw [Tag.value?_written hname hsound, find?_givens (hlocals ▸ hdistinct), hlocals]

/-! ### Taking pieces -/

/-- Reading `F` on in the state `s`, the pieces are taken, and `F` goes on in `s'`. -/
def Takes (F : σ → Content → Except PartFault ρ) (pieces : List Piece) (s s' : σ) : Prop :=
  ∃ k, Reads pieces k ∧ ∀ c, F s (k c) = F s' c

/-- Pieces inside an element are all that `F` reads. -/
def Fills (F : Content → Except PartFault ρ) (pieces : List Piece) (r : ρ) : Prop :=
  ∃ k, Within pieces k ∧ F (k done) = .ok r

namespace Takes

variable {F : σ → Content → Except PartFault ρ} {s s' s'' : σ} {a b pieces : List Piece}

theorem nil : Takes F [] s s := ⟨id, .nil, fun _ => rfl⟩

theorem append (ha : Takes F a s s') (hb : Takes F b s' s'') : Takes F (a ++ b) s s'' := by
  obtain ⟨k, hk, ha⟩ := ha
  obtain ⟨k', hk', hb⟩ := hb
  exact ⟨k ∘ k', hk.append hk', fun c => (ha (k' c)).trans (hb c)⟩

/-- Pieces behind others may change nothing any more. -/
theorem append_passed (ha : Takes F a s s') (hb : Takes F b s' s') : Takes F (a ++ b) s s' :=
  ha.append hb

theorem cons {p : Piece} (hp : Takes F [p] s s') (h : Takes F pieces s' s'') :
    Takes F (p :: pieces) s s'' :=
  append hp h

theorem cons_passed {p : Piece} (hp : Takes F [p] s s') (h : Takes F pieces s' s') :
    Takes F (p :: pieces) s s' := append hp h

theorem fills {r : ρ} (h : Takes F pieces s s') (hr : F s' done = .ok r) :
    Fills (F s) pieces r := by
  obtain ⟨k, hk, h⟩ := h
  exact ⟨k, hk.lines.within, (h done).trans hr⟩

theorem fills_map {g : ρ → τ} {r : τ} (h : Takes F pieces s s') (hr : (F s' done).map g = .ok r) :
    Fills (fun c => (F s c).map g) pieces r := by
  obtain ⟨k, hk, h⟩ := h
  exact ⟨k, hk.lines.within, (congrArg (Except.map g) (h done)).trans hr⟩

theorem tag {name : String} {attributes : List (String × String)} (names : List String)
    (label : String)
    (locals : List String) (values : List (Option String)) (hw : isWritable name names label locals)
    (ha : attributes = givens names values)
    (h : ∀ tag, tag.Carries label locals values → ∀ c, F s (.empty tag c) = F s' c) :
    Takes F [.empty name attributes] s s' := by
  subst ha
  exact ⟨_, .empty (isWritten_givens hw values), h _ (carries_givens hw values)⟩

/-- A tag with one value. -/
theorem valued {name v : String} (label : String) (hw : isWritable name ["w:val"] label ["val"])
    (h : ∀ tag, tag.Carries label ["val"] [some v] → ∀ c, F s (.empty tag c) = F s' c) :
    Takes F (valued name v) s s' := .tag ["w:val"] label ["val"] [some v] hw rfl h

theorem element {name : String} {attributes : List (String × String)}
    {G : Content → Except PartFault τ}
    {r : τ} (names : List String) (label : String) (locals : List String)
      (values : List (Option String))
    (hw : isWritable name names label locals) (ha : attributes = givens names values)
    (hG : Fills G pieces r)
    (h : ∀ tag inner, tag.Carries label locals values → G inner = .ok r →
      ∀ c, F s (.element tag inner c) = F s' c) :
    Takes F (Piece.element name attributes pieces) s s' := by
  obtain ⟨k, hk, hG⟩ := hG
  subst ha
  exact ⟨_, .element hk (isWritten_givens hw values), h _ _ (carries_givens hw values) hG⟩

theorem ifGiven {o : Option α} {f : α → List Piece} (t : Option α → σ)
    (h : ∀ v, o = some v → Takes F (f v) (t none) (t (some v))) :
      Takes F (ifGiven o f) (t none) (t o) := by
  cases o with
  | none => exact .nil
  | some v => exact h v rfl

theorem ifGiven_map {β : Type} {o : Option β} {g : β → α} {f : α → List Piece} (t : Option β → σ)
    (h : ∀ v, o = some v → Takes F (f (g v)) (t none) (t (some v))) :
    Takes F (Letterpress.ifGiven (o.map g) f) (t none) (t o) := by
  cases o with
  | none => exact .nil
  | some v => exact h v rfl

/-- Values one behind the other; `t` is the state that some of them lead to. -/
theorem map {l : List α} {f : α → Piece} (t : List α → σ)
    (h : ∀ before v, Takes F [f v] (t before) (t (before ++ [v]))) :
      Takes F (l.map f) (t []) (t l) := by
  have from_before : ∀ (l before : List α), Takes F (l.map f) (t before) (t (before ++ l)) := by
    intro l
    induction l with
    | nil => intro before; simpa using nil
    | cons v l ih => intro before; simpa using (h before v).cons (ih (before ++ [v]))
  exact from_before l []

/-- Values written one behind the other, the `i`-th by `w i`, are taken one after the other. -/
theorem each {β : Type} {keeps : α → Bool} {g : α → β} {l : List α} {i : Nat}
    (write : Nat → List α → Writing)
    (w : Nat → α → Writing) (t : List β → σ) (hnil : ∀ i, write i [] = .ok [])
    (hcons : ∀ i a rest, write i (a :: rest) = do
      let here ← w i a
      pure (here ++ (← write (i + 1) rest)))
    (ht : ∀ i a here before, keeps a → w i a = .ok here →
      Takes F here (t before) (t (before ++ [g a])))
    (hk : l.all keeps) (h : write i l = .ok pieces) : Takes F pieces (t []) (t (l.map g)) := by
  have from_before : ∀ (l : List α) {i : Nat} {pieces : List Piece} (before : List β), l.all keeps →
      write i l = .ok pieces → Takes F pieces (t before) (t (before ++ l.map g)) := by
    intro l
    induction l with
    | nil =>
      intro i pieces before _ h
      cases (hnil i).symm.trans h
      simpa using nil
    | cons a rest ih =>
      intro i pieces before hk h
      rw [List.all_cons, Bool.and_eq_true] at hk
      rw [hcons] at h
      obtain ⟨here, hhere, h⟩ := bind_eq_ok.mp h
      obtain ⟨behind, hbehind, h⟩ := bind_eq_ok.mp h
      cases h
      simpa using (ht i a here before hk.1 hhere).append (ih (before ++ [g a]) hk.2 hbehind)
  exact from_before l [] hk h

theorem ifOn {on : Bool} (t : Bool → σ) (h : Takes F pieces (t false) (t true)) :
    Takes F (ifOn on pieces) (t false) (t on) := by
  cases on with
  | false => exact .nil
  | true => exact h

end Takes

section Lists

variable {F : Content → Except PartFault (List α)} {before here r : List α} {pieces : List Piece}

/-- What stands before a content, and what `F` reads in it. -/
def readOn (F : Content → Except PartFault (List α)) (before : List α) (c : Content) :
    Except PartFault (List α) := (F c).map (before ++ ·)

theorem readOn_nil : readOn F [] = F := by
  funext c
  rw [readOn]
  cases F c <;> rfl

theorem readOn_eq {c c' : Content} (h : F c = F c' >>= fun more => pure (here ++ more))
    (before : List α) :
    readOn F before c = readOn F (before ++ here) c' := by
  rw [readOn, readOn, h]
  cases F c' with
  | error e => rfl
  | ok more => exact congrArg Except.ok (List.append_assoc ..).symm

theorem Takes.fills_list (h : Takes (readOn F) pieces [] r) (hdone : F done = .ok []) :
    Fills F pieces r := by
  have fills := h.fills (congrArg (Except.map (r ++ ·)) hdone)
  rw [readOn_nil] at fills
  simpa using fills

end Lists

end Letterpress
