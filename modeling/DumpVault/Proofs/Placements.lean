import DumpVault.Proofs.Conflicts
import Mathlib.Data.List.Nodup

/-!
# Where flags are placed

A line can be written by items in one way only, so what an accepted line says is known from its
words. If no flag is given twice, what is said does not depend on how the flags are arranged: in
which order, on which side of the subcommand, and in one word or in two.
-/
namespace DumpVault.CommandLine

/-- What a word of a flag names, and the value within it. -/
def leading (w : String) : String × Option String := Scan.splitLong (w.toList.drop 2)

section Unambiguous
variable {place : Option Subcommand} {flag flag' : ValueFlag} {text : String} {w : String}
  {items items' outer outer' inner inner' : List Item} {ws ws' rest rest' args : List String}
  {c c' : Subcommand}

@[simp] theorem leading_word (flag : ValueFlag) : leading flag.word = (flag.name, none) := by
  rw [leading, flag.toList_word]
  exact splitLong_name flag.equals_notMem_name

@[simp] theorem leading_wordWith (flag : ValueFlag) (text : String) :
    leading (flag.wordWith text) = (flag.name, some text) := by
  rw [leading, flag.toList_wordWith]
  exact splitLong_with flag.equals_notMem_name text

@[simp] theorem leading_retainWord : leading retainWord = (Switch.retainStaging.name, none) := by
  rw [leading, show retainWord.toList.drop 2 = Switch.retainStaging.name.toList from rfl]
  exact splitLong_name (by decide)

theorem ValueFlag.name_injective (h : flag.name = flag'.name) : flag = flag' := by
  have hknown : ∀ flag : ValueFlag, flag.knownAt (some .restore) = true := by
    rintro ⟨⟩ <;> rfl
  have hfound := ofName?_name (hknown flag)
  rw [h, ofName?_name (hknown flag')] at hfound
  injection hfound with hfound
  injection hfound with hfound
  exact hfound.symm

theorem ValueFlag.name_ne_retainStaging : flag.name ≠ Switch.retainStaging.name := by
  cases flag <;> decide

/-- A word that begins no item, so that a side ends in front of it. -/
def Stops (rest : List String) : Prop :=
  ∀ w ∈ rest.head?, w ≠ retainWord ∧
    ∀ flag : ValueFlag, w ≠ flag.word ∧ ∀ text, w ≠ flag.wordWith text

theorem stops_of_undashed (hw : w.toList.head? ≠ some '-') : Stops (w :: rest) := by
  rintro _ ⟨⟩
  refine ⟨?_, fun flag => ⟨?_, fun text => ?_⟩⟩
  · rintro rfl
    exact hw (by decide)
  · rintro rfl
    exact hw flag.head?_word
  · rintro rfl
    exact hw (flag.head?_wordWith text)

theorem stops_ending (h : rest = [] ∨ rest = ["--"]) : Stops rest := by
  obtain rfl | rfl := h
  · rintro _ ⟨⟩
  · rintro _ ⟨⟩
    exact ⟨by decide, fun flag => ⟨flag.word_ne.symm, fun text => (flag.wordWith_ne text).symm⟩⟩

/-- The words of a side, up to where it stops, are those of one list of items. -/
theorem Spells.unique (h : Spells place items ws) (h' : Spells place items' ws')
    (hwords : ws ++ rest = ws' ++ rest') (hrest : Stops rest) (hrest' : Stops rest') :
    items = items' ∧ rest = rest' := by
  induction h generalizing items' ws' with
  | nil =>
    rw [List.nil_append] at hwords
    subst hwords
    cases h' with
    | nil => exact ⟨rfl, rfl⟩
    | attached => exact absurd rfl (((hrest _ rfl).2 _).2 _)
    | apart => exact absurd rfl ((hrest _ rfl).2 _).1
    | retainStaging => exact absurd rfl (hrest _ rfl).1
  | @attached flag text items ws known spells ih =>
    cases h' with
    | nil => exact absurd rfl (((hrest' _ (congrArg List.head? hwords).symm).2 flag).2 text)
    | attached known' spells' =>
      obtain ⟨hword, htail⟩ := List.cons.inj hwords
      have hleading := congrArg leading hword
      simp only [leading_wordWith, Prod.mk.injEq, Option.some.injEq] at hleading
      obtain ⟨rfl, hrest⟩ := ih spells' htail
      exact ⟨by rw [ValueFlag.name_injective hleading.1, hleading.2], hrest⟩
    | apart | retainStaging =>
      have hleading := congrArg leading (List.cons.inj hwords).1
      simp at hleading
  | @apart flag text items ws known plain spells ih =>
    cases h' with
    | nil => exact absurd rfl ((hrest' _ (congrArg List.head? hwords).symm).2 flag).1
    | apart known' plain' spells' =>
      obtain ⟨hword, htail⟩ := List.cons.inj hwords
      obtain ⟨htext, htail⟩ := List.cons.inj htail
      have hleading := congrArg leading hword
      simp only [leading_word, Prod.mk.injEq] at hleading
      obtain ⟨rfl, hrest⟩ := ih spells' htail
      exact ⟨by rw [ValueFlag.name_injective hleading.1, htext], hrest⟩
    | attached | retainStaging =>
      have hleading := congrArg leading (List.cons.inj hwords).1
      simp [ValueFlag.name_ne_retainStaging] at hleading
  | @retainStaging items ws spells ih =>
    cases h' with
    | nil => exact absurd rfl (hrest' _ (congrArg List.head? hwords).symm).1
    | retainStaging spells' =>
      obtain ⟨rfl, hrest⟩ := ih spells' (List.cons.inj hwords).2
      exact ⟨rfl, hrest⟩
    | attached | apart =>
      have hleading := congrArg leading (List.cons.inj hwords).1
      simp [ValueFlag.name_ne_retainStaging.symm] at hleading

theorem Subcommand.name_injective (h : c.name = c'.name) : c = c' := by
  have hfound := ofName?_subcommand c
  rw [h, ofName?_subcommand] at hfound
  exact (Option.some.inj hfound).symm

/-- A line is written in one way. -/
theorem Arranges.unique (h : Arranges args c outer inner) (h' : Arranges args c' outer' inner') :
    c = c' ∧ outer = outer' ∧ inner = inner' := by
  obtain ⟨ending, before, behind, ends⟩ := h
  generalize hargs : _ ++ c.name :: _ = args at h'
  obtain ⟨ending', before', behind', ends'⟩ := h'
  obtain ⟨houter, hline⟩ := before.unique before' hargs (stops_of_undashed (head?_name c))
    (stops_of_undashed (head?_name c'))
  obtain ⟨hname, hwords⟩ := List.cons.inj hline
  obtain rfl := Subcommand.name_injective hname
  exact ⟨rfl, houter, (behind.unique behind' hwords (stops_ending ends) (stops_ending ends')).1⟩

end Unambiguous

/-- The settings that items give, all of them taken in on one side. -/
def settingsOf (items : List Item) : Overrides := overridesOf {} (.ofItems items)

section Said
variable {items items' outer inner : List Item} {flag : ValueFlag} {text : String} {c : Subcommand}

/-- Of a flag that is not given twice the value is known from the items, whatever their order. -/
theorem value?_eq_some_iff (once : (items.map Item.flag).Nodup) :
    (Given.ofItems items).value? flag = some text ↔ .value flag text ∈ items := by
  refine ⟨mem_of_value?, fun hmem => ?_⟩
  obtain ⟨other, hother⟩ := Option.isSome_iff_exists.mp (isSome_value?.mpr ⟨text, hmem⟩)
  have hsame := List.inj_on_of_nodup_map once (mem_of_value? hother) hmem rfl
  rw [hother, (Item.value.inj hsame).2]

theorem value?_of_perm (once : (items.map Item.flag).Nodup) (same : items.Perm items')
    (flag : ValueFlag) :
    (Given.ofItems items).value? flag = (Given.ofItems items').value? flag := by
  have once' : (items'.map Item.flag).Nodup := (same.map Item.flag).nodup_iff.mp once
  ext text
  rw [value?_eq_some_iff once, value?_eq_some_iff once', same.mem_iff]

theorem value?_append (once : ((outer ++ inner).map Item.flag).Nodup) (flag : ValueFlag) :
    ((Given.ofItems inner).value? flag).or ((Given.ofItems outer).value? flag) =
      (Given.ofItems (outer ++ inner)).value? flag := by
  rw [List.map_append, List.nodup_append] at once
  -- a flag in front of the subcommand does not stand behind it as well
  have hapart : ∀ {text other}, .value flag text ∈ outer →
      (Given.ofItems inner).value? flag ≠ some other := fun hmem hother =>
    once.2.2 _ (List.mem_map_of_mem hmem) _ (List.mem_map_of_mem (mem_of_value? hother)) rfl
  ext text
  rw [value?_eq_some_iff (by rwa [List.map_append, List.nodup_append]), List.mem_append,
    ← value?_eq_some_iff once.1, ← value?_eq_some_iff once.2.1, Option.or_eq_some_iff]
  constructor
  · rintro (h | ⟨-, h⟩)
    · exact .inr h
    · exact .inl h
  · rintro (h | h)
    · exact .inr ⟨Option.eq_none_iff_forall_ne_some.mpr fun _ => hapart (mem_of_value? h), h⟩
    · exact .inl h

theorem overridesOf_ofItems (once : ((outer ++ inner).map Item.flag).Nodup) :
    overridesOf (.ofItems outer) (.ofItems inner) = settingsOf (outer ++ inner) := by
  have hretain : ((Given.ofItems inner).retainStaging || (Given.ofItems outer).retainStaging) =
      (Given.ofItems (outer ++ inner)).retainStaging := by
    simp [Given.ofItems, Bool.or_comm]
  simp only [settingsOf, overridesOf, value?_append once, hretain]
  simp [Given.value?]

theorem settingsOf_of_perm (once : (items.map Item.flag).Nodup) (same : items.Perm items') :
    settingsOf items = settingsOf items' := by
  have hretain : (Given.ofItems items).retainStaging = (Given.ofItems items').retainStaging := by
    simp [Given.ofItems, same.mem_iff]
  simp only [settingsOf, overridesOf, value?_of_perm once same, hretain]

end Said

/-- What a line says that is written by items: what is to be done, and with which settings. -/
structure Means (c : Subcommand) (items : List Item) (i : Invocation) : Prop where
  fits : ∀ item ∈ items, item.Fits
  action : actionOf c (.ofItems items) = .ok i.action
  overrides : i.overrides = settingsOf items

section Lines
variable {place : Option Subcommand} {items items' outer inner : List Item} {ws args : List String}
  {c : Subcommand} {i : Invocation} {flag : ValueFlag} {text : String}

theorem actionOf_congr {g g' : Given} (h : g.value? .key = g'.value? .key) :
    actionOf c g = actionOf c g' := by
  cases c with
  | archive | list => rfl
  | restore => rw [actionOf, actionOf, h]

theorem Means.perm (h : Means c items i) (once : (items.map Item.flag).Nodup)
    (same : items.Perm items') : Means c items' i where
  fits := fun item hitem => h.fits item (same.mem_iff.mpr hitem)
  action := (actionOf_congr (value?_of_perm once same .key)).symm.trans h.action
  overrides := h.overrides.trans (settingsOf_of_perm once same)

theorem Spells.known (h : Spells place items ws) (hmem : .value flag text ∈ items) :
    flag.knownAt place = true := by
  induction h with
  | nil => cases hmem
  | attached known _ ih | apart known _ _ ih =>
    rcases List.mem_cons.mp hmem with heq | hmem
    · rwa [(Item.value.inj heq).1]
    · exact ih hmem
  | retainStaging _ ih =>
    rcases List.mem_cons.mp hmem with heq | hmem
    · cases heq
    · exact ih hmem

theorem NamesTwice.mono (h : NamesTwice items) (hsub : items ⊆ items') : NamesTwice items' := by
  obtain ⟨⟨name, hname⟩, path, hpath⟩ := h
  exact ⟨⟨name, hsub hname⟩, path, hsub hpath⟩

theorem actionOf_append (h : Arranges args c outer inner)
    (once : ((outer ++ inner).map Item.flag).Nodup) :
    actionOf c (.ofItems inner) = actionOf c (.ofItems (outer ++ inner)) := by
  obtain ⟨_, before, _, _⟩ := h
  have hnone : (Given.ofItems outer).value? .key = none :=
    Option.eq_none_iff_forall_ne_some.mpr fun text hkey => nomatch before.known (mem_of_value? hkey)
  refine actionOf_congr ?_
  rw [← value?_append once, hnone, Option.or_none]

/-- A line without a flag given twice is accepted for what all of its items say. -/
theorem Arranges.parse_eq_ok_iff (h : Arranges args c outer inner)
    (once : ((outer ++ inner).map Item.flag).Nodup) (single : ¬ NamesTwice (outer ++ inner)) :
    parse args = .ok i ↔ Means c (outer ++ inner) i := by
  have houter : ¬ NamesTwice outer := fun htwice =>
    single (htwice.mono (List.subset_append_left outer inner))
  have hinner : ¬ NamesTwice inner := fun htwice =>
    single (htwice.mono (List.subset_append_right outer inner))
  have hparse : Orderly outer → Orderly inner → parse args = (do
      let action ← actionOf c (.ofItems (outer ++ inner))
      return ⟨action, settingsOf (outer ++ inner)⟩) := by
    intro horderly horderly'
    rw [parse_of_arranges h (takeAll_eq_ok_iff.mpr ⟨horderly, rfl⟩)
      (takeAll_eq_ok_iff.mpr ⟨horderly', rfl⟩), validate_of_not_namesTwice houter,
      validate_of_not_namesTwice hinner, actionOf_append h once, overridesOf_ofItems once]
    rfl
  constructor
  · intro haccepted
    obtain ⟨_, _, _, horder, -, -, -⟩ := inOrder_of_parse haccepted
    obtain ⟨rfl, rfl, rfl⟩ := h.unique horder.arranges
    rw [hparse horder.before horder.behind] at haccepted
    obtain ⟨action, haction, hi⟩ := except_bind_eq_ok.mp haccepted
    obtain rfl := Except.ok.inj hi
    refine ⟨fun item hitem => ?_, haction, rfl⟩
    exact (List.mem_append.mp hitem).elim (horder.before.fits item) (horder.behind.fits item)
  · rintro ⟨hfits, haction, hoverrides⟩
    rw [List.map_append, List.nodup_append] at once
    rw [hparse ⟨once.1, fun item hitem => hfits item (List.mem_append_left _ hitem)⟩
      ⟨once.2.1, fun item hitem => hfits item (List.mem_append_right _ hitem)⟩, haction,
      ← hoverrides]
    rfl

end Lines

/-- An item as it is written. The value of a flag may be joined to it by an equals sign. -/
structure Written where
  item : Item
  joined : Bool := false

namespace Written

def words : Written → List String
  | ⟨.value flag text, true⟩ => [flag.wordWith text]
  | ⟨.value flag text, false⟩ => [flag.word, text]
  | ⟨.retainStaging, _⟩ => [retainWord]

/-- The flag is known at its place, and a value in a word of its own does not look like a flag. -/
def Readable (place : Option Subcommand) : Written → Prop
  | ⟨.value flag text, joined⟩ =>
    flag.knownAt place = true ∧ (joined = false → looksLikeFlag text = false)
  | ⟨.retainStaging, _⟩ => True

theorem spells {place : Option Subcommand} {written : List Written}
    (h : ∀ w ∈ written, w.Readable place) :
    Spells place (written.map item) (written.flatMap words) := by
  induction written with
  | nil => exact .nil
  | cons w written ih =>
    obtain ⟨hw, hrest⟩ := List.forall_mem_cons.mp h
    match w, hw with
    | ⟨.value _ _, true⟩, hw => exact .attached hw.1 (ih hrest)
    | ⟨.value _ _, false⟩, hw => exact .apart hw.1 (hw.2 rfl) (ih hrest)
    | ⟨.retainStaging, _⟩, _ => exact .retainStaging (ih hrest)

end Written

structure Arrangement where
  subcommand : Subcommand
  outer : List Written
  inner : List Written

namespace Arrangement

def words (a : Arrangement) : List String :=
  a.outer.flatMap Written.words ++ a.subcommand.name :: a.inner.flatMap Written.words

def items (a : Arrangement) : List Item := (a.outer ++ a.inner).map Written.item

structure IsReadable (a : Arrangement) : Prop where
  before : ∀ w ∈ a.outer, w.Readable none
  behind : ∀ w ∈ a.inner, w.Readable (some a.subcommand)

theorem IsReadable.parse_eq_ok_iff {a : Arrangement} {i : Invocation} (h : a.IsReadable)
    (once : (a.items.map Item.flag).Nodup) (single : ¬ NamesTwice a.items) :
    parse a.words = .ok i ↔ Means a.subcommand a.items i := by
  have harranges : Arranges a.words a.subcommand (a.outer.map Written.item)
      (a.inner.map Written.item) := by
    rw [words, ← List.append_nil (a.inner.flatMap Written.words)]
    exact .intro [] (Written.spells h.before) (Written.spells h.behind) (.inl rfl)
  rw [items, List.map_append] at once single ⊢
  exact harranges.parse_eq_ok_iff once single

end Arrangement

/-- Two arrangements of the same items for the same subcommand. -/
structure Rearranges (a b : Arrangement) : Prop where
  subcommand : a.subcommand = b.subcommand
  items : a.items.Perm b.items

/-- Where flags stand and how their values are written makes no difference, if none is given
twice. -/
theorem flags_placed_freely {a b : Arrangement} (ha : a.IsReadable) (hb : b.IsReadable)
    (same : Rearranges a b) (once : (a.items.map Item.flag).Nodup) (single : ¬ NamesTwice a.items) :
    (∀ i, parse a.words = .ok i ↔ parse b.words = .ok i) ∧
    ((∃ i, parse a.words = .ok i) ↔
      (∀ item ∈ a.items, item.Fits) ∧ Keyed a.subcommand a.items) := by
  have once' : (b.items.map Item.flag).Nodup := (same.items.map Item.flag).nodup_iff.mp once
  have single' : ¬ NamesTwice b.items := fun htwice => single (htwice.mono same.items.symm.subset)
  refine ⟨fun i => ?_, ?_⟩
  · rw [ha.parse_eq_ok_iff once single, hb.parse_eq_ok_iff once' single', same.subcommand]
    exact ⟨fun h => h.perm once same.items, fun h => h.perm once' same.items.symm⟩
  · simp only [ha.parse_eq_ok_iff once single]
    constructor
    · rintro ⟨i, hi⟩
      exact ⟨hi.fits, keyed_of_actionOf hi.action⟩
    · rintro ⟨hfits, hkeyed⟩
      obtain ⟨action, haction⟩ := actionOf_of_keyed ⟨once, hfits⟩ hkeyed
      exact ⟨⟨action, settingsOf a.items⟩, hfits, haction, rfl⟩

/-- Values that spell words of the grammar are values wherever they stand. -/
theorem flags_placed_freely_spelled :
    let a : Arrangement :=
      ⟨.restore, [⟨.value .host "list", false⟩, ⟨.retainStaging, false⟩],
        [⟨.value .bucket "help", true⟩, ⟨.value .key "archive", false⟩]⟩
    let b : Arrangement :=
      ⟨.restore, [⟨.value .bucket "help", false⟩],
        [⟨.value .key "archive", true⟩, ⟨.retainStaging, false⟩, ⟨.value .host "list", false⟩]⟩
    a.words =
        ["--host", "list", "--retain-staging", "restore", "--bucket=help", "--key", "archive"] ∧
      b.words =
        ["--bucket", "help", "restore", "--key=archive", "--retain-staging", "--host", "list"] ∧
      a.IsReadable ∧ b.IsReadable ∧ Rearranges a b ∧ (a.items.map Item.flag).Nodup ∧
      ¬ NamesTwice a.items ∧ ∃ i, parse a.words = .ok i ∧ parse b.words = .ok i := by
  intro a b
  have ha : a.IsReadable := ⟨by simp [a, Written.Readable, ValueFlag.knownAt, looksLikeFlag],
    by simp [a, Written.Readable, ValueFlag.knownAt, looksLikeFlag]⟩
  have hb : b.IsReadable := ⟨by simp [b, Written.Readable, ValueFlag.knownAt, looksLikeFlag],
    by simp [b, Written.Readable, ValueFlag.knownAt, looksLikeFlag]⟩
  have same : Rearranges a b := ⟨rfl, by decide⟩
  have once : (a.items.map Item.flag).Nodup := by decide
  have single : ¬ NamesTwice a.items := by decide
  obtain ⟨hagree, haccepted⟩ := flags_placed_freely ha hb same once single
  have fits : ∀ item ∈ a.items, item.Fits := by
    simp [a, Arrangement.items, Item.Fits, Given.check, ValueFlag.isPath, Text.AllBlank,
      Text.isBlank]
  obtain ⟨i, hi⟩ := haccepted.mpr ⟨fits, fun _ => ⟨"archive", by decide⟩⟩
  exact ⟨by decide, by decide, ha, hb, same, once, single, i, hi, (hagree i).mp hi⟩

end DumpVault.CommandLine
