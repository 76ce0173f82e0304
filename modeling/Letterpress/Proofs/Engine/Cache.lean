import Mathlib.Data.List.Induction
import Letterpress.Engine
import Letterpress.Proofs.KeyMap
import Letterpress.Proofs.Render.Fill
import Letterpress.Proofs.Results

/-!
# Which templates an engine keeps

Behind any row of calls, an engine keeps for a name what the last successful load of it made, if the
name was not taken out since. That template has the ancestors that were kept when it was loaded, so
calls for other names do not show in it, and a load that fails shows nowhere. What one call does is
said once, in `Engine.find?_call`; the rest follows for whole rows of calls.
-/

namespace Letterpress

open Template

theorem KeyMap.find?_erase {α : Type} (m : KeyMap α) (k name : String) :
    (m.erase k).find? name = if name = k then none else m.find? name := by
  refine Option.ext fun v => ?_
  rw [find?_eq_some_iff, mem_erase]
  split
  · next hk => exact ⟨fun h => absurd hk h.2, nofun⟩
  · next hk => exact ⟨fun h => find?_eq_some_iff.mpr h.1, fun h => ⟨find?_eq_some_iff.mp h, hk⟩⟩

/-- A call that may change which templates an engine keeps. -/
inductive EngineCall where
  | load (name content : String)
  | loadDocument (name : String) (d : Document)
  | remove (name : String)
  | clear

namespace EngineCall

/-- The sheet that a call is to load. -/
def sheet? : EngineCall → Option Sheet
  | load name content => some ⟨name, content, none⟩
  | loadDocument name d => some (.ofDocument name d)
  | remove _ => none
  | clear => none

/-- The sheet that a call loads, which passes the check if there is one. -/
def loaded? (settings : Settings) (c : EngineCall) : Option Sheet :=
  c.sheet?.filter fun s => !settings.validateOnLoad || (check s.content).isOk

/-- Whether a call takes out what is kept for a name. -/
def drops (name : String) : EngineCall → Bool
  | load _ _ => false
  | loadDocument _ _ => false
  | remove other => other = name
  | clear => true

/-- Whether a call loads a template for a name. -/
def Loads (settings : Settings) (name : String) (c : EngineCall) : Prop :=
  ∃ s ∈ c.loaded? settings, s.name = name

/-- Whether what is kept for a name is not touched. -/
def Leaves (settings : Settings) (name : String) (c : EngineCall) : Prop :=
  c.drops name = false ∧ ¬ c.Loads settings name

instance (settings : Settings) (name : String) (c : EngineCall) :
    Decidable (c.Loads settings name) :=
  inferInstanceAs (Decidable (∃ s ∈ c.loaded? settings, s.name = name))

instance (settings : Settings) (name : String) (c : EngineCall) :
    Decidable (c.Leaves settings name) :=
  inferInstanceAs (Decidable (_ ∧ _))

theorem drops_of_sheet? {c : EngineCall} {s : Sheet} (h : c.sheet? = some s) (name : String) :
    c.drops name = false := by
  cases c with
  | load _ _ | loadDocument _ _ => rfl
  | remove _ | clear => cases h

theorem Loads.drops_eq_false {settings : Settings} {name : String} {c : EngineCall}
    (h : c.Loads settings name) : c.drops name = false := by
  obtain ⟨s, hs, -⟩ := h
  exact drops_of_sheet? (Option.filter_eq_some_iff.mp hs).1 name

end EngineCall

namespace Engine

variable {e : Engine} {settings : Settings} {name : String} {c : EngineCall}

/-- What a load answers. -/
def answer? (e : Engine) : EngineCall → Option (Except TemplateFailure (Template × Engine))
  | .load name content => some (e.load name content)
  | .loadDocument name d => some (e.loadDocument name d)
  | .remove _ => none
  | .clear => none

/-- The engine behind a call. -/
def call (e : Engine) : EngineCall → Engine
  | .load name content => ((e.load name content).toOption.map Prod.snd).getD e
  | .loadDocument name d => ((e.loadDocument name d).toOption.map Prod.snd).getD e
  | .remove name => (e.remove name).2
  | .clear => e.clear

/-- The engine behind calls. -/
def after (e : Engine) (calls : List EngineCall) : Engine := calls.foldl call e

theorem after_concat (e : Engine) (calls : List EngineCall) (c : EngineCall) :
    e.after (calls ++ [c]) = (e.after calls).call c :=
  List.foldl_concat ..

theorem register_of_passes {s : Sheet}
    (h : (!e.settings.validateOnLoad || (check s.content).isOk) = true) :
    e.register s = .ok (e.inherit s, { e with cache := e.cache.insert s.name (e.inherit s) }) := by
  unfold register
  cases hv : e.settings.validateOnLoad with
  | false => rfl
  | true =>
    obtain ⟨u, hu⟩ := exists_of_isOk (by simpa [hv] using h)
    simp only [if_true, hu]
    rfl

theorem register_of_fails {s : Sheet}
    (h : (!e.settings.validateOnLoad || (check s.content).isOk) = false) :
    ∃ failure, e.register s = .error failure := by
  simp only [Bool.or_eq_false_iff, Bool.not_eq_false'] at h
  unfold register
  cases hcheck : check s.content with
  | ok u => simp [hcheck, Except.isOk, Except.toBool] at h
  | error why => exact ⟨.invalid why, by simp only [h.1, if_true]; rfl⟩

/-- A load that passes keeps the template with the ancestors it gets. -/
theorem answer?_of_loaded? {s : Sheet} (h : c.loaded? e.settings = some s) :
    e.answer? c = some (.ok (e.inherit s, e.call c)) ∧
      e.call c = { e with cache := e.cache.insert s.name (e.inherit s) } := by
  obtain ⟨hsheet, hpasses⟩ := Option.filter_eq_some_iff.mp h
  have hregister := register_of_passes hpasses
  cases c with
  | load name content | loadDocument name d =>
    cases hsheet
    simp only [answer?, call, load, loadDocument, hregister]
    exact ⟨rfl, rfl⟩
  | remove name | clear => cases hsheet

/-- A load that does not pass fails and leaves the engine as it is. -/
theorem answer?_of_not_loaded? {s : Sheet} (hsheet : c.sheet? = some s)
    (h : c.loaded? e.settings = none) :
    (∃ failure, e.answer? c = some (.error failure)) ∧ e.call c = e := by
  have hfails : (!e.settings.validateOnLoad || (check s.content).isOk) = false := by
    rw [EngineCall.loaded?, hsheet] at h
    simpa using h
  obtain ⟨failure, hregister⟩ := register_of_fails hfails
  cases c with
  | load name content | loadDocument name d =>
    cases hsheet
    simp only [answer?, call, load, loadDocument, hregister]
    exact ⟨⟨_, rfl⟩, rfl⟩
  | remove name | clear => cases hsheet

/-! ### One call -/

theorem settings_call (e : Engine) (c : EngineCall) : (e.call c).settings = e.settings := by
  cases hsheet : c.sheet? with
  | none =>
    cases c with
    | load _ _ | loadDocument _ _ => cases hsheet
    | remove _ | clear => rfl
  | some s =>
    cases h : c.loaded? e.settings with
    | none => rw [(answer?_of_not_loaded? hsheet h).2]
    | some s => rw [(answer?_of_loaded? h).2]

/-- A call that takes a name out leaves nothing for it, a load of it puts its template there, and
any other call leaves what is there. -/
theorem find?_call (e : Engine) (c : EngineCall) (name : String) :
    (c.drops name = true ∧ (e.call c).cache.find? name = none) ∨
      (∃ s, c.loaded? e.settings = some s ∧ s.name = name ∧
        (e.call c).cache.find? name = some (e.inherit s)) ∨
      (c.Leaves e.settings name ∧ (e.call c).cache.find? name = e.cache.find? name) := by
  cases hsheet : c.sheet? with
  | none =>
    have hnone : c.loaded? e.settings = none := by rw [EngineCall.loaded?, hsheet, Option.filter_none]
    cases c with
    | load _ _ | loadDocument _ _ => cases hsheet
    | clear => exact .inl ⟨rfl, rfl⟩
    | remove other =>
      have hfind := KeyMap.find?_erase e.cache other name
      by_cases hname : other = name
      · exact .inl ⟨by simp [EngineCall.drops, hname], hfind.trans (if_pos hname.symm)⟩
      · refine .inr (.inr ⟨⟨by simp [EngineCall.drops, hname], ?_⟩,
          hfind.trans (if_neg (Ne.symm hname))⟩)
        simp [EngineCall.Loads, hnone]
  | some s =>
    have hdrops := EngineCall.drops_of_sheet? hsheet name
    cases h : c.loaded? e.settings with
    | none =>
      have hleaves : c.Leaves e.settings name := ⟨hdrops, by simp [EngineCall.Loads, h]⟩
      exact .inr (.inr ⟨hleaves, by rw [(answer?_of_not_loaded? hsheet h).2]⟩)
    | some s =>
      rw [(answer?_of_loaded? h).2]
      by_cases hname : s.name = name
      · subst hname
        exact .inr (.inl ⟨s, rfl, rfl, KeyMap.find?_insert_self ..⟩)
      · have hleaves : c.Leaves e.settings name := ⟨hdrops, by simpa [EngineCall.Loads, h]⟩
        exact .inr (.inr ⟨hleaves, KeyMap.find?_insert_of_ne _ _ (Ne.symm hname)⟩)

theorem toOption_get (e : Engine) (name : String) :
    (e.get name).toOption = e.cache.find? name := by
  unfold get
  cases e.cache.find? name <;> rfl

theorem get_eq_ok {t : Template} : e.get name = .ok t ↔ e.cache.find? name = some t := by
  unfold get
  cases e.cache.find? name <;> simp

theorem isOk_get : (e.get name).isOk ↔ ∃ t, e.cache.find? name = some t := by
  unfold get
  cases e.cache.find? name <;> simp [Except.isOk, Except.toBool]

/-- The parent is what is kept under the name that the sheet gives. -/
theorem parent?_inherit (e : Engine) (s : Sheet) :
    (e.inherit s).own = s ∧ (e.inherit s).parent? = s.parent?.bind e.cache.find? := by
  unfold inherit
  cases h : s.parent?.bind e.cache.find? <;> exact ⟨rfl, rfl⟩

theorem eq_inherit {t : Template} {s : Sheet} (hown : t.own = s)
    (hparent : t.parent? = s.parent?.bind e.cache.find?) : t = e.inherit s := by
  have ext : ∀ {t u : Template}, t.own = u.own → t.parent? = u.parent? → t = u := by
    rintro ⟨own, ancestors⟩ ⟨own', ancestors'⟩ h h'
    cases ancestors <;> cases ancestors' <;> simp_all [parent?]
  obtain ⟨hown', hparent'⟩ := e.parent?_inherit s
  exact ext (hown.trans hown'.symm) (hparent.trans hparent'.symm)

/-! ### Calls in a row -/

theorem settings_after (e : Engine) (calls : List EngineCall) :
    (e.after calls).settings = e.settings := by
  induction calls generalizing e with
  | nil => rfl
  | cons c rest ih => exact (ih _).trans (e.settings_call c)

/-- Of these calls, `c` is the last that loads a template for the name, and nothing behind it takes
the template out. -/
def LastLoad (settings : Settings) (name : String) (calls before : List EngineCall)
    (c : EngineCall) : Prop :=
  ∃ behind, calls = before ++ c :: behind ∧ c.Loads settings name ∧
    ∀ d ∈ behind, d.Leaves settings name

theorem LastLoad.loads {calls before : List EngineCall}
    (h : LastLoad settings name calls before c) : c.Loads settings name := by
  obtain ⟨behind, -, hloads, -⟩ := h
  exact hloads

theorem lastLoad_concat {calls before : List EngineCall} {c d : EngineCall} :
    LastLoad settings name (calls ++ [c]) before d ↔
      (before = calls ∧ d = c ∧ c.Loads settings name) ∨
        (c.Leaves settings name ∧ LastLoad settings name calls before d) := by
  constructor
  · rintro ⟨behind, hcalls, hloads, hbehind⟩
    rcases List.eq_nil_or_concat behind with rfl | ⟨behind, b, rfl⟩
    · obtain ⟨rfl, hc⟩ := List.append_inj' hcalls rfl
      cases hc
      exact .inl ⟨rfl, rfl, hloads⟩
    · rw [List.concat_eq_append] at hcalls hbehind
      rw [← List.cons_append, ← List.append_assoc] at hcalls
      obtain ⟨rfl, hb⟩ := List.append_inj' hcalls rfl
      cases hb
      exact .inr ⟨hbehind c (by simp), behind, rfl, hloads, fun d hd => hbehind d (by simp [hd])⟩
  · rintro (⟨rfl, rfl, hloads⟩ | ⟨hleaves, behind, rfl, hloads, hbehind⟩)
    · exact ⟨[], rfl, hloads, List.forall_mem_nil _⟩
    · refine ⟨behind ++ [c], by simp, hloads, fun d hd => ?_⟩
      rcases List.mem_append.mp hd with hd | hd
      · exact hbehind d hd
      · exact List.mem_singleton.mp hd ▸ hleaves

section

variable {calls before : List EngineCall} {d : EngineCall}

theorem not_lastLoad_of_drops (h : c.drops name = true) :
    ¬ LastLoad settings name (calls ++ [c]) before d := by
  rw [lastLoad_concat]
  rintro (⟨-, -, hloads⟩ | ⟨hleaves, -⟩)
  · exact absurd (hloads.drops_eq_false.symm.trans h) Bool.false_ne_true
  · exact absurd (hleaves.1.symm.trans h) Bool.false_ne_true

theorem lastLoad_concat_of_loads (h : c.Loads settings name) :
    LastLoad settings name (calls ++ [c]) before d ↔ before = calls ∧ d = c := by
  rw [lastLoad_concat]
  constructor
  · rintro (⟨hbefore, hd, -⟩ | ⟨hleaves, -⟩)
    · exact ⟨hbefore, hd⟩
    · exact absurd h hleaves.2
  · rintro ⟨hbefore, hd⟩
    exact .inl ⟨hbefore, hd, h⟩

theorem lastLoad_concat_of_leaves (h : c.Leaves settings name) :
    LastLoad settings name (calls ++ [c]) before d ↔ LastLoad settings name calls before d := by
  rw [lastLoad_concat]
  constructor
  · rintro (⟨-, -, hloads⟩ | ⟨-, hlast⟩)
    · exact absurd hloads h.2
    · exact hlast
  · intro hlast
    exact .inr ⟨h, hlast⟩

end

/-- What is kept for a name is what the last load of it made. -/
theorem find?_after {t : Template} (calls : List EngineCall) :
    (({ settings } : Engine).after calls).cache.find? name = some t ↔
      ∃ before c s, LastLoad settings name calls before c ∧ c.loaded? settings = some s ∧
        t = (({ settings } : Engine).after before).inherit s := by
  induction calls using List.reverseRecOn generalizing t with
  | nil =>
    constructor
    · intro h
      exact nomatch (show (none : Option Template) = some t from h)
    · rintro ⟨before, c, s, ⟨behind, h, -⟩, -⟩
      simp at h
  | append_singleton calls c ih =>
    have hstep := (({ settings } : Engine).after calls).find?_call c name
    rw [settings_after] at hstep
    rw [after_concat]
    obtain ⟨hdrops, hfind⟩ | ⟨s, hs, hname, hfind⟩ | ⟨hleaves, hfind⟩ := hstep
    · rw [hfind]
      refine ⟨nofun, ?_⟩
      rintro ⟨before, d, s, hlast, -⟩
      exact absurd hlast (not_lastLoad_of_drops hdrops)
    · have hloads : c.Loads settings name := ⟨s, hs, hname⟩
      simp only [hfind, lastLoad_concat_of_loads hloads]
      constructor
      · rintro ⟨⟩
        exact ⟨calls, c, s, ⟨rfl, rfl⟩, hs, rfl⟩
      · rintro ⟨_, _, s', ⟨rfl, rfl⟩, hs', rfl⟩
        cases hs.symm.trans hs'
        rfl
    · simp only [hfind, ih, lastLoad_concat_of_leaves hleaves]

theorem exists_lastLoad_iff {calls : List EngineCall} :
    (∃ before c, LastLoad settings name calls before c) ↔
      ∃ before c behind, calls = before ++ c :: behind ∧ c.Loads settings name ∧
        ∀ d ∈ behind, d.drops name = false := by
  constructor
  · rintro ⟨before, c, behind, hcalls, hloads, hbehind⟩
    exact ⟨before, c, behind, hcalls, hloads, fun d hd => (hbehind d hd).1⟩
  · rintro ⟨before, c, behind, rfl, hloads, hbehind⟩
    induction behind using List.reverseRecOn with
    | nil => exact ⟨before, c, [], rfl, hloads, List.forall_mem_nil _⟩
    | append_singleton behind d ih =>
      obtain ⟨before', c', h⟩ := ih fun d hd => hbehind d (List.mem_append_left _ hd)
      rw [← List.cons_append, ← List.append_assoc]
      simp only [lastLoad_concat]
      by_cases hd : d.Loads settings name
      · exact ⟨_, _, .inl ⟨rfl, rfl, hd⟩⟩
      · exact ⟨before', c', .inr ⟨⟨hbehind d (by simp), hd⟩, h⟩⟩

theorem find?_after_of_leaves {later : List EngineCall}
    (h : ∀ c ∈ later, c.Leaves e.settings name) :
    (e.after later).cache.find? name = e.cache.find? name := by
  induction later generalizing e with
  | nil => rfl
  | cons c rest ih =>
    obtain ⟨hc, hrest⟩ := List.forall_mem_cons.mp h
    have hstep : (e.call c).cache.find? name = e.cache.find? name := by
      obtain ⟨hdrops, -⟩ | ⟨s, hs, hname, -⟩ | ⟨-, hfind⟩ := e.find?_call c name
      · exact absurd (hc.1.symm.trans hdrops) (by simp)
      · exact absurd ⟨s, hs, hname⟩ hc.2
      · exact hfind
    rw [← settings_call e c] at hrest
    exact (ih hrest).trans hstep

/-- Whether a name gives the same with two engines. -/
structure SameFor (name : String) (e e' : Engine) : Prop where
  get : e'.get name = e.get name
  text : ∀ filling, e'.renderText name filling = e.renderText name filling
  document : ∀ filling, e'.renderDocument name filling = e.renderDocument name filling
  block : ∀ block filling, e'.renderBlock name block filling = e.renderBlock name block filling

theorem sameFor_of_get {e e' : Engine} (hsettings : e'.settings = e.settings)
    (hget : e'.get name = e.get name) : SameFor name e e' where
  get := hget
  text filling := by simp only [renderText, hget, hsettings]
  document filling := by simp only [renderDocument, renderTemplate, hget, hsettings]
  block block filling := by simp only [renderBlock, hget, hsettings]

section

variable (settings : Settings) (calls : List EngineCall) (name : String)

theorem isOk_get_after : ((({ settings } : Engine).after calls).get name).isOk ↔
    ∃ before c behind, calls = before ++ c :: behind ∧ c.Loads settings name ∧
      ∀ d ∈ behind, d.drops name = false := by
  rw [isOk_get, ← exists_lastLoad_iff]
  constructor
  · rintro ⟨t, h⟩
    obtain ⟨before, c, s, hlast, -, -⟩ := (find?_after calls).mp h
    exact ⟨before, c, hlast⟩
  · rintro ⟨before, c, hlast⟩
    obtain ⟨s, hs, -⟩ := hlast.loads
    exact ⟨_, (find?_after calls).mpr ⟨before, c, s, hlast, hs, rfl⟩⟩

/-- The template that is kept is the one that the last load answered, and its parent was there. -/
theorem get_after_eq_ok (t : Template) :
    let new : Engine := { settings }
    (new.after calls).get name = .ok t ↔ ∃ before c s, LastLoad settings name calls before c ∧
      c.loaded? settings = some s ∧
      (new.after before).answer? c = some (.ok (t, new.after (before ++ [c]))) ∧
      t.own = s ∧ t.parent? = s.parent?.bind fun parent =>
        ((new.after before).get parent).toOption := by
  intro new
  rw [get_eq_ok, find?_after]
  refine exists_congr fun before => exists_congr fun c => exists_congr fun s =>
    and_congr_right fun _ => and_congr_right fun hs => ?_
  have hsettings : (new.after before).settings = settings := new.settings_after before
  have hanswer := answer?_of_loaded? (e := new.after before) (hsettings ▸ hs)
  simp only [toOption_get, after_concat]
  constructor
  · rintro rfl
    exact ⟨hanswer.1, parent?_inherit ..⟩
  · rintro ⟨-, hown, hparent⟩
    exact eq_inherit hown hparent

end

/-- Behind any calls of a new engine, a name stands for the template of its last successful load, if
it was not taken out since; its parent is what stood for the parent's name before that load. Calls
that are none of the name's do not show in it, and a load that fails changes nothing. -/
theorem get_after (settings : Settings) (calls : List EngineCall) (name : String) :
    let new : Engine := { settings }
    let e := new.after calls
    ((e.get name).isOk ↔ ∃ before c behind, calls = before ++ c :: behind ∧
        c.Loads settings name ∧ ∀ d ∈ behind, d.drops name = false) ∧
      (∀ t, e.get name = .ok t ↔ ∃ before c s, LastLoad settings name calls before c ∧
        c.loaded? settings = some s ∧
        (new.after before).answer? c = some (.ok (t, new.after (before ++ [c]))) ∧
        t.own = s ∧ t.parent? = s.parent?.bind fun parent =>
          ((new.after before).get parent).toOption) ∧
      (∀ later, (∀ c ∈ later, c.Leaves settings name) → SameFor name e (e.after later)) ∧
      (∀ later t filling, (e.after later).renderTemplate t filling = e.renderTemplate t filling) ∧
      ∀ c s, c.sheet? = some s → c.loaded? settings = none →
        (∃ failure, e.answer? c = some (.error failure)) ∧ e.call c = e := by
  intro new e
  have hsettings : e.settings = settings := new.settings_after calls
  refine ⟨isOk_get_after settings calls name, get_after_eq_ok settings calls name,
    fun later h => ?_, fun later t filling => ?_, fun c s hsheet h => ?_⟩
  · have hfind : (e.after later).cache.find? name = e.cache.find? name :=
      find?_after_of_leaves (hsettings ▸ h)
    refine sameFor_of_get (e.settings_after later) ?_
    rw [get, get, hfind]
  · rw [renderTemplate, renderTemplate, settings_after]
  · exact answer?_of_not_loaded? hsheet (hsettings ▸ h)

/-- A template that extends what its own name stood for gives the same behind calls that fail or are
for other names. -/
theorem get_after_itself :
    let settings : Settings := { validateOnLoad := true }
    let block := fun body => tagText "#block \"b\"" ++ body ++ tagText "/block"
    let child := tagText "extends \"a\"" ++ block "new"
    let e := ({ settings } : Engine).after
      [.load "a" ("<" ++ block "old" ++ ">"), .load "b" "", .load "a" child]
    let later : List EngineCall := [.load "a" (tagText "/if"), .load "b" "x", .remove "b"]
    (e.get "a").isOk ∧ (∀ c ∈ later, c.Leaves settings "a") ∧ SameFor "a" e (e.after later) ∧
      (e.after later).renderText "a" {} = .ok "<new>" ∧
        ((e.after later).get "b").isOk = false := by
  intro settings block child e later
  have hlater : ∀ c ∈ later, c.Leaves settings "a" := by decide +kernel
  have hspec := get_after settings
    [.load "a" ("<" ++ block "old" ++ ">"), .load "b" "", .load "a" child] "a"
  refine ⟨hspec.1.mpr ⟨[_, _], .load "a" child, [], rfl, by decide +kernel, List.forall_mem_nil _⟩,
    hlater, hspec.2.2.1 later hlater, by decide +kernel, by decide +kernel⟩

end Engine

end Letterpress
