import DumpVault.Proofs.Grammar

/-!
# The two ways to name the database

The name of the database may be given, or a file that holds it, but not both. This is looked at on
each side of the subcommand for itself. Given on different sides the two are accepted, and the file
is what counts: the other name has no effect on any setting.
-/
namespace DumpVault.CommandLine

/-- Both ways to name the database are among the items. -/
def NamesTwice (items : List Item) : Prop := Names .database items ∧ Names .databasePath items

/-- A restore is told its key. -/
def Keyed (c : Subcommand) (inner : List Item) : Prop := c = .restore → Names .key inner

section Sides
variable {items outer inner : List Item} {flag : ValueFlag} {text : String} {g : Given}
  {c : Subcommand}

theorem namesTwice_iff : NamesTwice items ↔ (((Given.ofItems items).value? .database).isSome &&
    ((Given.ofItems items).value? .databasePath).isSome) = true := by
  rw [Bool.and_eq_true, isSome_value?, isSome_value?, NamesTwice]

instance : Decidable (NamesTwice items) := decidable_of_iff _ namesTwice_iff.symm

theorem validate_of_namesTwice (h : NamesTwice items) :
    (Given.ofItems items).validate = .error .argumentConflict :=
  if_pos (namesTwice_iff.mp h)

theorem validate_of_not_namesTwice (h : ¬ NamesTwice items) :
    (Given.ofItems items).validate = .ok () :=
  if_neg (mt namesTwice_iff.mpr h)

theorem validate_eq_ok_iff : (Given.ofItems items).validate = .ok () ↔ ¬ NamesTwice items := by
  refine ⟨fun h htwice => ?_, validate_of_not_namesTwice⟩
  rw [validate_of_namesTwice htwice] at h
  cases h

theorem ofText?_of_check (h : Given.check .key text = .ok ()) : (Key.ofText? text).isSome = true := by
  rw [Option.isSome_iff_ne_none, ne_eq, Key.ofText?_eq_none_iff]
  intro hblank
  have hrefused : Given.check .key text = .error .valueValidation := by
    simp [Given.check, ValueFlag.isPath, hblank]
  rw [hrefused] at h
  cases h

theorem actionOf_of_keyed (horderly : Orderly items) (h : Keyed c items) :
    ∃ action, actionOf c (.ofItems items) = .ok action := by
  cases c with
  | archive => exact ⟨.archive, rfl⟩
  | list => exact ⟨.list, rfl⟩
  | restore =>
    obtain ⟨text, hvalue⟩ := Option.isSome_iff_exists.mp (isSome_value?.mpr (h rfl))
    obtain ⟨key, hkey⟩ := Option.isSome_iff_exists.mp
      (ofText?_of_check (horderly.fits _ (mem_of_value? hvalue)))
    exact ⟨.restore key, by simp [actionOf, hvalue, hkey]⟩

theorem keyed_of_actionOf {action : Action} (h : actionOf c (.ofItems items) = .ok action) :
    Keyed c items := by
  rintro rfl
  rw [← isSome_value?]
  cases hvalue : (Given.ofItems items).value? .key with
  | some text => rfl
  | none =>
    rw [actionOf, hvalue] at h
    cases h

theorem isSome_or_value? : (((Given.ofItems inner).value? flag).or
    ((Given.ofItems outer).value? flag)).isSome = true ↔ Names flag (outer ++ inner) := by
  rw [Option.isSome_or, Bool.or_eq_true, isSome_value?, isSome_value?, names_append, or_comm]

end Sides

/-- With the name's file given, a name that is given has no effect. -/
theorem resolve_with_database {o : Overrides} {path : String} (h : o.databasePath = some path)
    (other : Option String) : { o with database := other }.resolve = o.resolve := by
  unfold Overrides.resolve
  simp only [h]
  rfl

/-- A line that is in order but, perhaps, for naming the database twice on a side. -/
structure InOrder (args : List String) (c : Subcommand) (outer inner : List Item) : Prop where
  arranges : Arranges args c outer inner
  before : Orderly outer
  behind : Orderly inner
  keyed : Keyed c inner

section Lines
variable {args : List String} {c : Subcommand} {outer inner : List Item} {i : Invocation}

theorem InOrder.parse_eq (h : InOrder args c outer inner) : ∃ action, parse args = (do
    (Given.ofItems inner).validate
    (Given.ofItems outer).validate
    return ⟨action, overridesOf (.ofItems outer) (.ofItems inner)⟩) := by
  obtain ⟨action, haction⟩ := actionOf_of_keyed h.behind h.keyed
  refine ⟨action, ?_⟩
  rw [parse_of_arranges h.arranges (takeAll_eq_ok_iff.mpr ⟨h.before, rfl⟩)
    (takeAll_eq_ok_iff.mpr ⟨h.behind, rfl⟩), haction]
  rfl

theorem InOrder.accepted (h : InOrder args c outer inner) (houter : ¬ NamesTwice outer)
    (hinner : ¬ NamesTwice inner) : ∃ action,
      parse args = .ok ⟨action, overridesOf (.ofItems outer) (.ofItems inner)⟩ := by
  obtain ⟨action, hparse⟩ := h.parse_eq
  refine ⟨action, ?_⟩
  rw [hparse, validate_of_not_namesTwice houter, validate_of_not_namesTwice hinner]
  rfl

theorem InOrder.conflict_iff (h : InOrder args c outer inner) :
    parse args = .error .argumentConflict ↔ NamesTwice outer ∨ NamesTwice inner := by
  constructor
  · intro hconflict
    refine Decidable.byContradiction fun hnone => ?_
    rw [not_or] at hnone
    obtain ⟨action, hparse⟩ := h.accepted hnone.1 hnone.2
    rw [hparse] at hconflict
    cases hconflict
  · intro htwice
    obtain ⟨action, hparse⟩ := h.parse_eq
    rw [hparse]
    by_cases hinner : NamesTwice inner
    · rw [validate_of_namesTwice hinner]
      rfl
    · rw [validate_of_not_namesTwice hinner,
        validate_of_namesTwice (htwice.resolve_right hinner)]
      rfl

/-- What is accepted is in order, and names the database once on each side at most. -/
theorem inOrder_of_parse (h : parse args = .ok i) : ∃ c outer inner, InOrder args c outer inner ∧
    ¬ NamesTwice outer ∧ ¬ NamesTwice inner ∧
      i.overrides = overridesOf (.ofItems outer) (.ofItems inner) := by
  obtain ⟨c, outer, inner, g, g', harranges, houter, hinner⟩ := arranges_of_parse h
  rw [parse_of_arranges harranges houter hinner] at h
  obtain ⟨horderly, rfl⟩ := takeAll_eq_ok_iff.mp houter
  obtain ⟨horderly', rfl⟩ := takeAll_eq_ok_iff.mp hinner
  obtain ⟨_, hvalid', h⟩ := except_bind_eq_ok.mp h
  obtain ⟨action, haction, h⟩ := except_bind_eq_ok.mp h
  obtain ⟨_, hvalid, h⟩ := except_bind_eq_ok.mp h
  obtain rfl := Except.ok.inj h
  exact ⟨c, outer, inner, ⟨harranges, horderly, horderly', keyed_of_actionOf haction⟩,
    validate_eq_ok_iff.mp hvalid, validate_eq_ok_iff.mp hvalid', rfl⟩

end Lines

/-- When the two ways to name the database conflict, for every command line. -/
theorem conflict_by_side (args : List String) :
    (∀ i, parse args = .ok i → ∃ c outer inner, InOrder args c outer inner ∧
      ¬ NamesTwice outer ∧ ¬ NamesTwice inner ∧
      (i.overrides.database.isSome = true ↔ Names .database (outer ++ inner)) ∧
      (i.overrides.databasePath.isSome = true ↔ Names .databasePath (outer ++ inner))) ∧
    ∀ c outer inner, InOrder args c outer inner →
      (parse args = .error .argumentConflict ↔ NamesTwice outer ∨ NamesTwice inner) ∧
      (¬ NamesTwice outer → ¬ NamesTwice inner → NamesTwice (outer ++ inner) →
        ∃ i name path, parse args = .ok i ∧ i.overrides.database = some name ∧
          i.overrides.databasePath = some path ∧
          ∀ other, { i.overrides with database := other }.resolve = i.overrides.resolve) := by
  refine ⟨fun i h => ?_, fun c outer inner h => ⟨h.conflict_iff, fun houter hinner htwice => ?_⟩⟩
  · obtain ⟨c, outer, inner, horder, houter, hinner, hoverrides⟩ := inOrder_of_parse h
    rw [hoverrides]
    exact ⟨c, outer, inner, horder, houter, hinner, isSome_or_value?, isSome_or_value?⟩
  · obtain ⟨action, hparse⟩ := h.accepted houter hinner
    obtain ⟨name, hname⟩ := Option.isSome_iff_exists.mp (isSome_or_value?.mpr htwice.1)
    obtain ⟨path, hpath⟩ := Option.isSome_iff_exists.mp (isSome_or_value?.mpr htwice.2)
    exact ⟨_, name, path, hparse, hname, hpath, resolve_with_database hpath⟩

theorem conflict_by_side_apart :
    let args := ["--database", "app", "list", "--database-path=name"]
    let outer := [Item.value .database "app"]
    let inner := [Item.value .databasePath "name"]
    InOrder args .list outer inner ∧ ¬ NamesTwice outer ∧ ¬ NamesTwice inner ∧
      NamesTwice (outer ++ inner) ∧
      ∃ i name path, parse args = .ok i ∧ i.overrides.database = some name ∧
        i.overrides.databasePath = some path ∧
        ∀ other, { i.overrides with database := other }.resolve = i.overrides.resolve := by
  intro args outer inner
  have harranges : Arranges args .list outer inner := by
    have hargs : args = [ValueFlag.database.word, "app"] ++
        Subcommand.list.name :: ([ValueFlag.databasePath.wordWith "name"] ++ []) := by decide
    rw [hargs]
    exact .intro [] (.apart rfl (by decide) .nil) (.attached rfl .nil) (.inl rfl)
  have horder : InOrder args .list outer inner :=
    ⟨harranges, ⟨by decide, by simp [outer, Item.Fits, Given.check, ValueFlag.isPath]⟩,
      ⟨by decide, by simp [inner, Item.Fits, Given.check, ValueFlag.isPath]⟩, nofun⟩
  have houter : ¬ NamesTwice outer := by decide
  have hinner : ¬ NamesTwice inner := by decide
  have htwice : NamesTwice (outer ++ inner) := by decide
  exact ⟨horder, houter, hinner, htwice,
    ((conflict_by_side args).2 .list outer inner horder).2 houter hinner htwice⟩

/-- On one side of the subcommand the two flags conflict; on two sides, in either order, they do
not. -/
theorem sides_apart_accepted :
    parse ["--database", "app", "--database-path", "name", "list"] = .error .argumentConflict ∧
    parse ["--database", "app", "list", "--database-path", "name"] =
      .ok ⟨.list, { database := some "app", databasePath := some "name" }⟩ ∧
    parse ["--database-path", "name", "list", "--database", "app"] =
      .ok ⟨.list, { database := some "app", databasePath := some "name" }⟩ :=
  ⟨rfl, rfl, rfl⟩

end DumpVault.CommandLine
