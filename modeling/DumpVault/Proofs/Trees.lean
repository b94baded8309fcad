import DumpVault.Files.Tree
import DumpVault.Proofs.Places

/-!
# Files reached by their paths

What a path text names depends on the text alone; the tree only decides whether it is reached. A
clean place is reached when every place above it is a directory and its names and its text are not
too long. Each operation on a tree is described by the few places at which it changes it.
-/
namespace DumpVault.FileTree

variable {t t' : FileTree} {cwd l m : Location} {path : String} {e : Entry}

theorem at?_put (t : FileTree) {l : Location} (e : Entry) (m : Location) (hl : l ≠ []) :
    (t.put l e).at? m = if m = l then some e else t.at? m := by
  split
  · next h => rw [h, at?_put_self t l e hl]
  · next h => exact at?_put_of_ne t e h

theorem at?_erase (t : FileTree) {l : Location} (m : Location) (hl : l ≠ []) :
    (t.erase l).at? m = if m = l then none else t.at? m := by
  split
  · next h =>
    subst h
    have hempty : m.isEmpty = false := by simpa using hl
    have hnone : (t.entries.filter fun x => x.1 != m).find? (fun x => x.1 == m) = none := by
      refine List.find?_eq_none.mpr fun x hx hxm => ?_
      have := (List.mem_filter.mp hx).2
      simp [bne, hxm] at this
    rw [at?, hempty, erase, hnone]
    rfl
  · next h => exact at?_erase_of_ne t h

theorem walk_eq {names : List String} (h : t.walk l names = .ok m) : m = l.follow names := by
  induction names generalizing l with
  | nil => exact (Except.ok.inj h).symm
  | cons name names ih =>
    rw [walk] at h
    split at h
    · split at h
      · cases h
      · exact ih h
    · cases h
    · cases h

/-- A path that is resolved names its place by the text alone. -/
theorem resolve_eq (h : t.resolve cwd path = .ok l) : l = Location.named cwd path := by
  simp only [resolve] at h
  split at h
  · cases h
  · split at h
    · cases h
    · split at h
      · cases h
      · split at h
        · cases h
        · next m hwalk =>
          have hm := walk_eq hwalk
          split at h
          · split at h
            · cases h
            · exact Except.ok.inj h ▸ hm
          · exact Except.ok.inj h ▸ hm

theorem stat_ok_iff :
    t.stat cwd path = .ok (l, e) ↔ t.resolve cwd path = .ok l ∧ t.at? l = some e := by
  rw [stat]
  cases hres : t.resolve cwd path with
  | error fault => simp [bind, Except.bind]
  | ok m =>
    cases hat : t.at? m with
    | none =>
      simp only [bind, Except.bind, hat]
      constructor
      · intro h
        cases h
      · rintro ⟨h, hl⟩
        rw [← Except.ok.inj h, hat] at hl
        cases hl
    | some x =>
      simp only [bind, Except.bind, hat, pure, Except.pure, Except.ok.injEq, Prod.mk.injEq]
      constructor
      · rintro ⟨rfl, rfl⟩
        exact ⟨rfl, hat⟩
      · rintro ⟨rfl, h⟩
        exact ⟨rfl, Option.some.inj (hat.symm.trans h)⟩

theorem readFile_ok_iff {content : ByteArray} : t.readFile cwd path = .ok content ↔
    ∃ l, t.resolve cwd path = .ok l ∧ t.at? l = some (.file content) := by
  rw [readFile]
  cases hstat : t.stat cwd path with
  | error fault =>
    simp only [bind, Except.bind]
    constructor
    · intro h
      cases h
    · rintro ⟨l, h⟩
      rw [stat_ok_iff.mpr h] at hstat
      cases hstat
  | ok found =>
    obtain ⟨m, x⟩ := found
    obtain ⟨hres, hat⟩ := stat_ok_iff.mp hstat
    have hfound : ∀ l, t.resolve cwd path = .ok l ↔ m = l := by
      intro l
      rw [hres, Except.ok.injEq]
    cases x with
    | directory => simp [bind, Except.bind, hfound, hat]
    | file bytes => simp [bind, Except.bind, hfound, hat, pure, Except.pure]

/-- A place that its text reaches, whether or not anything is there. -/
structure Reached (t : FileTree) (l : Location) : Prop where
  above : ∀ pre name post, l = pre ++ name :: post →
    t.at? pre = some .directory ∧ name.utf8ByteSize ≤ Location.longestName
  short : l.text.utf8ByteSize < Location.longestPath
  noNul : '\x00' ∉ l.text.toList

/-- Nothing but the directories above a place decides whether it is reached. -/
theorem Reached.mono (h : t.Reached l)
    (hkeep : ∀ m, m <+: l → m ≠ l → t.at? m = some .directory → t'.at? m = some .directory) :
    t'.Reached l := by
  refine ⟨fun pre name post hl => ?_, h.short, h.noNul⟩
  obtain ⟨hdir, hname⟩ := h.above pre name post hl
  refine ⟨hkeep pre ⟨name :: post, hl.symm⟩ ?_ hdir, hname⟩
  intro hpre
  have := congrArg List.length hl
  simp [hpre] at this

theorem walk_ok_iff {names : List String} (h : Location.IsClean names) :
    t.walk l names = .ok m ↔ m = l ++ names ∧ ∀ pre name post, names = pre ++ name :: post →
      t.at? (l ++ pre) = some .directory ∧ name.utf8ByteSize ≤ Location.longestName := by
  induction names generalizing l with
  | nil => simp [walk, eq_comm]
  | cons name names ih =>
    have hdown : (name == "..") = false := by simpa using (h name List.mem_cons_self).notUp
    have ih := ih (l := l ++ [name]) fun s hs => h s (List.mem_cons_of_mem name hs)
    rw [walk, hdown]
    constructor
    · intro hwalk
      split at hwalk
      · next hdir =>
        split at hwalk
        · cases hwalk
        · next hlong =>
          obtain ⟨hm, hrest⟩ := ih.mp hwalk
          refine ⟨by simpa using hm, fun pre other post hnames => ?_⟩
          cases pre with
          | nil =>
            obtain ⟨rfl, rfl⟩ := List.cons.inj hnames
            exact ⟨by simpa using hdir, Nat.not_lt.mp hlong⟩
          | cons first pre =>
            obtain ⟨rfl, htail⟩ := List.cons.inj hnames
            simpa using hrest pre other post htail
      · cases hwalk
      · cases hwalk
    · rintro ⟨hm, hall⟩
      obtain ⟨hdir, hlong⟩ := hall [] name names rfl
      rw [List.append_nil] at hdir
      rw [hdir]
      simp only [if_neg (Nat.not_lt.mpr hlong)]
      refine ih.mpr ⟨by simpa using hm, fun pre other post hnames => ?_⟩
      simpa using hall (name :: pre) other post (by rw [hnames]; rfl)

/-- The text of a clean place is resolved to that place, if it is reached, and to no other. -/
theorem resolve_text_ok_iff (hl : l.IsClean) (hne : l ≠ []) :
    t.resolve [] l.text = .ok m ↔ m = l ∧ t.Reached l := by
  have hwalk := walk_ok_iff (t := t) (l := []) (m := m) hl
  simp only [List.nil_append] at hwalk
  rw [resolve, ofString_text hl hne]
  simp only [Bool.false_eq_true, if_false, ite_self]
  by_cases hnul : l.text.toList.contains '\x00' = true
  · rw [if_pos hnul]
    refine ⟨fun h => (by cases h), fun h => absurd ?_ h.2.noNul⟩
    simpa using hnul
  · rw [if_neg hnul]
    by_cases hlong : Location.longestPath ≤ l.text.utf8ByteSize
    · rw [if_pos (by simpa using hlong)]
      refine ⟨fun h => (by cases h), fun h => absurd h.2.short (Nat.not_lt.mpr hlong)⟩
    · rw [if_neg (by simpa using hlong)]
      constructor
      · intro h
        cases hw : t.walk [] l with
        | error fault =>
          rw [hw] at h
          cases h
        | ok found =>
          rw [hw] at h
          have hfound : found = m := by
            cases hat : t.at? found with
            | none => simpa [hat] using h
            | some x => cases x <;> simpa [hat] using h
          subst hfound
          obtain ⟨hm, habove⟩ := hwalk.mp hw
          exact ⟨hm, habove, Nat.not_le.mp hlong, by simpa using hnul⟩
      · rintro ⟨hm, hreached⟩
        rw [hwalk.mpr ⟨hm, hreached.above⟩]
        cases hat : t.at? m with
        | none => simp [hat]
        | some x => cases x <;> simp [hat]

theorem stat_text_ok_iff (hl : l.IsClean) (hne : l ≠ []) :
    t.stat [] l.text = .ok (m, e) ↔ m = l ∧ t.Reached l ∧ t.at? l = some e := by
  rw [stat_ok_iff, resolve_text_ok_iff hl hne]
  constructor
  · rintro ⟨⟨rfl, hreached⟩, hat⟩
    exact ⟨rfl, hreached, hat⟩
  · rintro ⟨rfl, hreached, hat⟩
    exact ⟨⟨rfl, hreached⟩, hat⟩

theorem writeFile_text_ok {content : ByteArray} (hl : l.IsClean) (hne : l ≠ [])
    (h : t.writeFile [] l.text content = .ok t') :
    t.Reached l ∧ t.at? l ≠ some .directory ∧ t' = t.put l (.file content) := by
  rw [writeFile] at h
  cases hres : t.resolve [] l.text with
  | error fault =>
    rw [hres] at h
    cases h
  | ok m =>
    obtain ⟨rfl, hreached⟩ := (resolve_text_ok_iff hl hne).mp hres
    rw [hres] at h
    simp only [bind, Except.bind, ofString_text hl hne, Bool.false_eq_true, if_false] at h
    cases hat : t.at? m with
    | none =>
      rw [hat] at h
      exact ⟨hreached, by simp, (Except.ok.inj h).symm⟩
    | some x =>
      rw [hat] at h
      cases x with
      | directory => cases h
      | file old => exact ⟨hreached, by simp, (Except.ok.inj h).symm⟩

theorem removeFile_ok (h : t.removeFile cwd path = .ok t') :
    t' = t.erase (Location.named cwd path) := by
  rw [removeFile] at h
  cases hstat : t.stat cwd path with
  | error fault =>
    rw [hstat] at h
    cases h
  | ok found =>
    obtain ⟨m, x⟩ := found
    rw [hstat] at h
    obtain rfl := resolve_eq (stat_ok_iff.mp hstat).1
    cases x with
    | directory => cases h
    | file old => exact (Except.ok.inj h).symm

theorem renameFile_ok {source target : Location} (h : t.renameFile source target = .ok t') :
    ∃ content, t.at? source = some (.file content) ∧ t.at? target ≠ some .directory ∧
      t' = (t.erase source).put target (.file content) := by
  rw [renameFile] at h
  split at h
  · next content old hsource htarget =>
    exact ⟨content, hsource, by simp [htarget], (Except.ok.inj h).symm⟩
  · next content hsource htarget =>
    exact ⟨content, hsource, by simp [htarget], (Except.ok.inj h).symm⟩
  all_goals cases h

/-- Making directories along names adds directories where nothing was, on the way only. -/
theorem makeDirectoriesFrom_ok {names : List String} (h : t.makeDirectoriesFrom l names = .ok t')
    (m : Location) : t'.at? m = t.at? m ∨ (t.at? m = none ∧ t'.at? m = some .directory ∧
      ∃ way, way <+: names ∧ m = l.follow way) := by
  induction names generalizing t l with
  | nil =>
    obtain rfl := Except.ok.inj h
    exact .inl rfl
  | cons name names ih =>
    rw [makeDirectoriesFrom] at h
    split at h
    · cases h
    · generalize hnext : (if (name == "..") = true then l.dropLast else l ++ [name]) = next at h
      have hway : ∀ way, Location.follow next way = l.follow (name :: way) := by
        intro way
        rw [Location.follow_cons, hnext]
      simp only at h
      split at h
      · rcases ih h with heq | ⟨hnone, hdir, way, hpre, hm⟩
        · exact .inl heq
        · exact .inr ⟨hnone, hdir, name :: way, by simpa using hpre, by rw [hm, hway]⟩
      · cases h
      · next hfree =>
        have hne : next ≠ [] := by
          rintro rfl
          cases hfree
        have hput := at?_put t .directory m hne
        by_cases hm : m = next
        · subst hm
          rw [if_pos rfl] at hput
          rcases ih h with heq | ⟨hnone, _⟩
          · refine .inr ⟨hfree, by rw [heq, hput], [name], by simp, ?_⟩
            rw [← hway, Location.follow_nil]
          · rw [hput] at hnone
            cases hnone
        · rw [if_neg hm] at hput
          rcases ih h with heq | ⟨hnone, hdir, way, hpre, hm⟩
          · exact .inl (heq.trans hput)
          · exact .inr ⟨hput.symm.trans hnone, hdir, name :: way, by simpa using hpre,
              by rw [hm, hway]⟩

theorem makeDirectories_ok (h : t.makeDirectories cwd path = .ok t') (m : Location) :
    t'.at? m = t.at? m ∨ (t.at? m = none ∧ t'.at? m = some .directory) := by
  simp only [makeDirectories] at h
  split at h
  · cases h
  · split at h
    · obtain rfl := Except.ok.inj h
      exact .inl rfl
    · split at h
      · cases h
      · rcases makeDirectoriesFrom_ok h m with heq | ⟨hnone, hdir, _⟩
        · exact .inl heq
        · exact .inr ⟨hnone, hdir⟩

/-- Making a clean place a directory adds directories above it and there. -/
theorem makeDirectories_text_ok (hl : l.IsClean) (h : t.makeDirectories [] l.text = .ok t')
    (m : Location) :
    t'.at? m = t.at? m ∨ (t.at? m = none ∧ t'.at? m = some .directory ∧ m <+: l) := by
  cases l with
  | nil =>
    have hroot : t.makeDirectories [] (Location.text []) = .ok t := rfl
    obtain rfl := Except.ok.inj (hroot.symm.trans h)
    exact .inl rfl
  | cons s l =>
    rw [makeDirectories, ofString_text hl (List.cons_ne_nil s l)] at h
    simp only [Bool.false_eq_true, if_false, ite_self] at h
    split at h
    · cases h
    · split at h
      · cases h
      · rcases makeDirectoriesFrom_ok h m with heq | ⟨hnone, hdir, way, hpre, hm⟩
        · exact .inl heq
        · have hclean : Location.IsClean way := fun s hs => hl s (hpre.subset hs)
          rw [Location.follow_clean [] hclean, List.nil_append] at hm
          exact .inr ⟨hnone, hdir, hm ▸ hpre⟩

/-- Outside of `base` nothing has changed, unless directories above it have come. -/
def ChangedWithin (base : Location) (t t' : FileTree) : Prop :=
  ∀ m, ¬ base <+: m → t'.at? m = t.at? m ∨
    (t.at? m = none ∧ t'.at? m = some .directory ∧ m <+: base)

theorem ChangedWithin.refl (base : Location) (t : FileTree) : ChangedWithin base t t :=
  fun _ _ => .inl rfl

theorem ChangedWithin.trans {base : Location} {u : FileTree} (h : ChangedWithin base t t')
    (h' : ChangedWithin base t' u) : ChangedWithin base t u := by
  intro m hm
  rcases h m hm with heq | ⟨hnone, hdir, hpre⟩
  · rw [← heq]
    exact h' m hm
  · rcases h' m hm with heq | ⟨hnone', _⟩
    · exact .inr ⟨hnone, heq.trans hdir, hpre⟩
    · rw [hdir] at hnone'
      cases hnone'

theorem changedWithin_put {base : Location} (t : FileTree) (e : Entry) (hl : base <+: l) :
    ChangedWithin base t (t.put l e) :=
  fun _ hm => .inl (at?_put_of_ne t e fun h => hm (h ▸ hl))

theorem changedWithin_erase {base : Location} (t : FileTree) (hl : base <+: l) :
    ChangedWithin base t (t.erase l) :=
  fun _ hm => .inl (at?_erase_of_ne t fun h => hm (h ▸ hl))

/-- What was outside of the directory is still there. -/
theorem ChangedWithin.kept {base : Location} (h : ChangedWithin base t t') (hm : ¬ base <+: m)
    (he : t.at? m = some e) : t'.at? m = some e := by
  rcases h m hm with heq | ⟨hnone, _⟩
  · rw [heq, he]
  · rw [he] at hnone
    cases hnone

end DumpVault.FileTree
