import Letterpress.Document

/-!
# Targets of relationships

The main part leads to a path by a target that is seen from its own folder. Walked from this folder
again, the target leads to the path: past the folder if the path is in it, and from the root if not.
-/

namespace Letterpress

namespace Document

/-- A segment that names a folder or a file. -/
def IsName (segment : String) : Prop := segment ≠ "" ∧ segment ≠ "." ∧ segment ≠ ".."

/-- The path of a file, by the names of its folders and its own. -/
def IsPath (path : String) : Prop := ∀ segment ∈ segments path, IsName segment

instance (path : String) : Decidable (IsPath path) :=
  inferInstanceAs (Decidable (∀ segment ∈ segments path, segment ≠ "" ∧ segment ≠ "." ∧ segment ≠ ".."))

theorem intercalate_segments (path : String) : "/".intercalate (segments path) = path := by
  refine String.toList_inj.mp ?_
  have hmap : (segments path).map String.toList = path.toList.splitOn '/' := by
    rw [segments, List.map_map]
    exact List.map_id'' (fun _ => String.toList_ofList) _
  rw [String.toList_intercalate, hmap]
  exact List.intercalate_splitOn '/'

theorem segments_append_slash (folder rest : String) :
    segments (folder ++ "/" ++ rest) = segments folder ++ segments rest := by
  have hpath : (folder ++ "/" ++ rest).toList = folder.toList ++ '/' :: rest.toList := by
    simp [String.toList_append]
  rw [segments, hpath, List.splitOn_eq_splitOnP, List.splitOnP_append_cons _ _ (by simp),
    List.map_append]
  rfl

variable {folder path : String}

theorem IsPath.of_append_slash {rest : String} (h : IsPath (folder ++ "/" ++ rest)) :
    IsPath folder ∧ IsPath rest := by
  rw [IsPath, segments_append_slash] at h
  exact ⟨fun s hs => h s (List.mem_append_left _ hs), fun s hs => h s (List.mem_append_right _ hs)⟩

theorem IsPath.ne_empty (h : IsPath path) : path ≠ "" := by
  rintro rfl
  exact absurd h (by decide)

/-- A slash stands between two names. -/
theorem IsPath.ne_nil {before behind : List Char} (h : IsPath path)
    (hpath : path.toList = before ++ '/' :: behind) : before ≠ [] ∧ behind ≠ [] := by
  have hslash : path = String.ofList before ++ "/" ++ String.ofList behind := by
    refine String.toList_inj.mp ?_
    simp [String.toList_append, hpath]
  obtain ⟨hbefore, hbehind⟩ := (hslash ▸ h).of_append_slash
  exact ⟨fun hnil => hbefore.ne_empty (by rw [hnil]),
    fun hnil => hbehind.ne_empty (by rw [hnil])⟩

theorem IsPath.head?_ne (h : IsPath path) : path.toList.head? ≠ some '/' := by
  intro hhead
  obtain ⟨rest, hrest⟩ := List.head?_eq_some_iff.mp hhead
  exact (h.ne_nil (show path.toList = [] ++ '/' :: rest from hrest)).1 rfl

theorem IsPath.getLast?_ne (h : IsPath path) : path.toList.getLast? ≠ some '/' := by
  intro hlast
  obtain ⟨rest, hrest⟩ := List.getLast?_eq_some_iff.mp hlast
  exact (h.ne_nil hrest).2 rfl

theorem IsPath.withoutSlash_eq (h : IsPath path) : withoutSlash path = path := by
  have hdrop : path.toList.dropWhile (· = '/') = path.toList := by
    cases hpath : path.toList with
    | nil => rfl
    | cons c rest =>
      have hc : c ≠ '/' := by
        rintro rfl
        exact h.head?_ne (by rw [hpath]; rfl)
      exact List.dropWhile_cons_of_neg (by simpa using hc)
  rw [withoutSlash, hdrop, String.ofList_toList]

/-- Names lead on from folder to folder. -/
theorem walk_of_isName {names : List String} (h : ∀ name ∈ names, IsName name)
    (folder : List String) : walk folder names = names.reverse ++ folder := by
  induction names generalizing folder with
  | nil => rfl
  | cons name rest ih =>
    obtain ⟨⟨hempty, hhere, hup⟩, hrest⟩ := List.forall_mem_cons.mp h
    rw [walk.eq_5 _ _ _ hup hhere hempty, ih hrest]
    simp

/-- A target that does not begin with a slash leads on from the folder. -/
theorem resolveTarget_of_isPath {target : String} (folder : String) (h : IsPath target) :
    resolveTarget folder target =
      "/".intercalate ((segments folder).filter (· ≠ "") ++ segments target) := by
  rw [resolveTarget]
  split
  · next rest htarget => exact absurd (by rw [htarget]; rfl) h.head?_ne
  · dsimp only
    rw [walk_of_isName h]
    simp

theorem resolveTarget_slash (folder path : String) : resolveTarget folder ("/" ++ path) = path := by
  have htarget : ("/" ++ path).toList = '/' :: path.toList := by
    simp [String.toList_append]
  rw [resolveTarget, htarget]
  exact String.ofList_toList

/-- In the root every path is its own target. -/
theorem resolveTarget_root (h : IsPath path) : resolveTarget "" path = path := by
  have hroot : (segments "").filter (· ≠ "") = [] := by decide
  rw [resolveTarget_of_isPath _ h, hroot, List.nil_append, intercalate_segments]

theorem resolveTarget_inside {rest : String} (h : IsPath (folder ++ "/" ++ rest)) :
    resolveTarget folder rest = folder ++ "/" ++ rest := by
  obtain ⟨hfolder, hrest⟩ := h.of_append_slash
  have hnames : (segments folder).filter (· ≠ "") = segments folder :=
    List.filter_eq_self.mpr fun s hs => decide_eq_true (hfolder s hs).1
  rw [resolveTarget_of_isPath _ hrest, hnames, ← segments_append_slash, intercalate_segments]

/-- The target of a path leads to it, wherever the path lies. -/
theorem resolveTarget_relativeTarget (folder : String) (h : IsPath path) :
    resolveTarget folder (relativeTarget folder path) = path := by
  unfold relativeTarget
  split
  · next hroot => rw [hroot, resolveTarget_root h]
  · dsimp only
    split
    · next hinside =>
      obtain ⟨rest, hrest⟩ := List.isPrefixOf_iff_prefix.mp hinside
      have hpath : path = folder ++ "/" ++ String.ofList rest := by
        refine String.toList_inj.mp ?_
        rw [← hrest]
        simp [String.toList_append]
      rw [← hrest, List.drop_left, resolveTarget_inside (hpath ▸ h), ← hpath]
    · exact resolveTarget_slash folder path

end Document

end Letterpress
