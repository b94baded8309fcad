import DumpVault.Files.Location

/-!
# Places and their path texts

A place is given by names; none of them is empty, is one of the dot names or holds a slash. The text
of such a place is read back as its names, and every path text names one such place, whatever the
files are: `..` leads upward by the text alone.
-/
namespace DumpVault

/-- A name that leads into a directory. -/
structure IsName (s : String) : Prop where
  nonempty : s ≠ ""
  notSelf : s ≠ "."
  notUp : s ≠ ".."
  noSlash : '/' ∉ s.toList

theorem not_mem_of_mem_splitOn {a : Char} {cs part : List Char} (h : part ∈ cs.splitOn a) :
    a ∉ part := by
  induction cs generalizing part with
  | nil =>
    obtain rfl : part = [] := by simpa using h
    exact List.not_mem_nil
  | cons c cs ih =>
    rw [List.splitOn_cons_eq_if_modifyHead] at h
    split at h
    · rcases List.mem_cons.mp h with rfl | h
      · exact List.not_mem_nil
      · exact ih h
    · next hc =>
      cases hparts : cs.splitOn a with
      | nil => exact absurd hparts (List.splitOn_ne_nil a cs)
      | cons head parts =>
        rw [hparts, List.modifyHead_cons] at h
        rcases List.mem_cons.mp h with rfl | h
        · intro ha
          rcases List.mem_cons.mp ha with rfl | ha
          · exact hc (by simp)
          · exact ih (hparts ▸ List.mem_cons_self) ha
        · exact ih (by simp [hparts, h])

theorem noSlash_of_mem_slashParts {s part : String} (h : part ∈ slashParts s) :
    '/' ∉ part.toList := by
  obtain ⟨cs, hcs, rfl⟩ := List.mem_map.mp h
  rw [String.toList_ofList]
  exact not_mem_of_mem_splitOn hcs

theorem slashParts_append_slash (s t : String) :
    slashParts (s ++ "/" ++ t) = slashParts s ++ slashParts t := by
  have hchars : (s ++ "/" ++ t).toList = s.toList ++ '/' :: t.toList := by simp
  rw [slashParts, hchars, List.splitOn_append_cons_self, List.map_append]
  rfl

theorem slashParts_of_noSlash {s : String} (h : '/' ∉ s.toList) : slashParts s = [s] := by
  rw [slashParts, List.splitOn_eq_singleton h, List.map_singleton, String.ofList_toList]

theorem slashParts_intercalate {parts : List String} (h : ∀ s ∈ parts, '/' ∉ s.toList)
    (hne : parts ≠ []) : slashParts ("/".intercalate parts) = parts := by
  have hchars : ("/".intercalate parts).toList = ['/'].intercalate (parts.map String.toList) := by
    rw [String.toList_intercalate]
    rfl
  have hsplit : (['/'].intercalate (parts.map String.toList)).splitOn '/' =
      parts.map String.toList := by
    refine List.splitOn_intercalate '/' ?_ (by simpa using hne)
    intro cs hcs
    obtain ⟨s, hs, rfl⟩ := List.mem_map.mp hcs
    exact h s hs
  rw [slashParts, hchars, hsplit, List.map_map]
  simp [Function.comp_def]

namespace Location

/-- A place all of whose names lead downward. -/
def IsClean (l : Location) : Prop := ∀ s ∈ l, IsName s

theorem IsClean.append {l m : Location} (hl : l.IsClean) (hm : m.IsClean) :
    IsClean (l ++ m) := by
  intro s hs
  rcases List.mem_append.mp hs with hs | hs
  · exact hl s hs
  · exact hm s hs

theorem IsClean.dropLast {l : Location} (hl : l.IsClean) : IsClean l.dropLast :=
  fun s hs => hl s (List.dropLast_subset l hs)

theorem slashParts_text {l : Location} (hl : l.IsClean) (hne : l ≠ []) :
    slashParts l.text = "" :: l := by
  have hchars : l.text = "/".intercalate ("" :: l) := by
    have hempty : l.isEmpty = false := by simpa using hne
    rw [text, hempty]
    apply String.toList_inj.mp
    clear hempty hl
    simp only [Bool.false_eq_true, if_false, String.toList_join, String.toList_intercalate,
      List.flatMap_map, List.map_cons]
    induction l with
    | nil => exact absurd rfl hne
    | cons s l ih =>
      cases l with
      | nil => simp
      | cons t l =>
        have := ih (by simp)
        simp [List.intercalate_cons_cons] at this ⊢
        exact this
  rw [hchars]
  refine slashParts_intercalate ?_ (by simp)
  intro s hs
  rcases List.mem_cons.mp hs with rfl | hs
  · simp
  · exact (hl s hs).noSlash

def follow (l : Location) (names : List String) : Location :=
  names.foldl (fun l name => if name == ".." then l.dropLast else l ++ [name]) l

@[simp] theorem follow_nil (l : Location) : l.follow [] = l := rfl

theorem follow_cons (l : Location) (name : String) (names : List String) :
    l.follow (name :: names) =
      follow (if name == ".." then l.dropLast else l ++ [name]) names := rfl

theorem follow_append (l : Location) (names more : List String) :
    l.follow (names ++ more) = (l.follow names).follow more := List.foldl_append

theorem follow_clean {names : List String} (l : Location) (h : IsClean names) :
    l.follow names = l ++ names := by
  induction names generalizing l with
  | nil => simp
  | cons name names ih =>
    have hname : (name == "..") = false := by simpa using (h name (by simp)).notUp
    rw [follow_cons, hname, ih _ fun s hs => h s (List.mem_cons_of_mem _ hs)]
    simp

def named (cwd : Location) (path : String) : Location :=
  let p := PathText.ofString path
  follow (if p.absolute then [] else cwd) p.names

theorem isClean_follow {l : Location} (hl : l.IsClean) {names : List String}
    (h : ∀ s ∈ names, s ≠ "" ∧ s ≠ "." ∧ '/' ∉ s.toList) : IsClean (l.follow names) := by
  induction names generalizing l with
  | nil => exact hl
  | cons name names ih =>
    rw [follow_cons]
    refine ih ?_ fun s hs => h s (List.mem_cons_of_mem _ hs)
    split
    · exact hl.dropLast
    · next hup =>
      obtain ⟨hempty, hself, hslash⟩ := h name (by simp)
      refine hl.append fun s hs => ?_
      obtain rfl := List.mem_singleton.mp hs
      exact ⟨hempty, hself, by simpa using hup, hslash⟩

/-- From a clean working directory every path text names a clean place. -/
theorem isClean_named {cwd : Location} (hcwd : cwd.IsClean) (path : String) :
    IsClean (named cwd path) := by
  refine isClean_follow ?_ ?_
  · split
    · exact fun s hs => absurd hs List.not_mem_nil
    · exact hcwd
  · intro s hs
    obtain ⟨hpart, hkept⟩ := List.mem_filter.mp hs
    have hkept : s ≠ "" ∧ s ≠ "." := by simpa using hkept
    exact ⟨hkept.1, hkept.2, noSlash_of_mem_slashParts hpart⟩

end Location

/-- The text of a place is read as its names, from the root and open to any kind of entry. -/
theorem ofString_text {l : Location} (hl : l.IsClean) (hne : l ≠ []) :
    PathText.ofString l.text =
      { absolute := true
        names := l
        directory := false
        hasNul := l.text.toList.contains '\x00'
        tooLong := Location.longestPath ≤ l.text.utf8ByteSize
        empty := false } := by
  have hparts := Location.slashParts_text hl hne
  obtain ⟨s, rest, rfl⟩ := List.exists_cons_of_ne_nil hne
  have hfirst : (Location.text (s :: rest)).toList =
      '/' :: (s.toList ++ rest.flatMap fun t => '/' :: t.toList) := by
    simp [Location.text, String.toList_join, List.flatMap_map]
  have hnames : ("" :: s :: rest).filter (fun p => p != "" && p != ".") = s :: rest := by
    rw [List.filter_cons_of_neg (by simp)]
    refine List.filter_eq_self.mpr fun t ht => ?_
    simp [(hl t ht).nonempty, (hl t ht).notSelf]
  have hlast : (("" :: s :: rest).getLast?.getD "") ∈ s :: rest := by
    rw [List.getLast?_cons_cons, List.getLast?_eq_some_getLast (List.cons_ne_nil s rest)]
    exact List.getLast_mem _
  have hdown := hl _ hlast
  have hempty : (Location.text (s :: rest) == "") = false := by
    rw [beq_eq_false_iff_ne]
    intro h
    simp [h] at hfirst
  simp only [PathText.ofString, hparts, hnames, hempty, PathText.mk.injEq, true_and, and_true]
  refine ⟨by simp [hfirst], ?_⟩
  rw [Bool.or_eq_false_iff, Bool.or_eq_false_iff]
  exact ⟨⟨beq_eq_false_iff_ne.mpr hdown.nonempty, beq_eq_false_iff_ne.mpr hdown.notSelf⟩,
    beq_eq_false_iff_ne.mpr hdown.notUp⟩

theorem named_text {l : Location} (cwd : Location) (hl : l.IsClean) (hne : l ≠ []) :
    Location.named cwd l.text = l := by
  rw [Location.named, ofString_text hl hne]
  exact Location.follow_clean [] hl

end DumpVault
