import DumpVault.Proofs.Words

/-!
# The grammar of the command line

A command line is a subcommand with items on both sides of it. `Spells` relates items to the words
that write them. What is scanned without a fault is written by items, which are taken in one after
the other; the proofs follow the words, with what a pending flag still has to get in front of them.
The other way round, every line written by items that can be taken in is accepted or refused for what
it says as a whole.
-/
namespace DumpVault.CommandLine

/-- The words that write items at a place. -/
inductive Spells (place : Option Subcommand) : List Item → List String → Prop
  | nil : Spells place [] []
  | attached {flag : ValueFlag} {text : String} {items : List Item} {ws : List String}
      (known : flag.knownAt place = true) (rest : Spells place items ws) :
      Spells place (.value flag text :: items) (flag.wordWith text :: ws)
  | apart {flag : ValueFlag} {text : String} {items : List Item} {ws : List String}
      (known : flag.knownAt place = true) (plain : looksLikeFlag text = false)
      (rest : Spells place items ws) :
      Spells place (.value flag text :: items) (flag.word :: text :: ws)
  | retainStaging {items : List Item} {ws : List String} (rest : Spells place items ws) :
      Spells place (.retainStaging :: items) (retainWord :: ws)

/-- What a pending flag still gets in front of further items. -/
inductive Owes (place : Option Subcommand) : Pending → List Item → List String → Prop
  | nothing {items : List Item} {ws : List String} (rest : Spells place items ws) :
      Owes place .nothing items ws
  | holding {flag : ValueFlag} {text : String} {items : List Item} {ws : List String}
      (rest : Spells place items ws) :
      Owes place (.holding flag text) (.value flag text :: items) ws
  | awaiting {flag : ValueFlag} {text : String} {items : List Item} {ws : List String}
      (plain : looksLikeFlag text = false) (rest : Spells place items ws) :
      Owes place (.awaiting flag) (.value flag text :: items) (text :: ws)

/-- A subcommand with items on both sides. A lone double dash may end the line. -/
inductive Arranges : List String → Subcommand → List Item → List Item → Prop
  | intro {c : Subcommand} {outer inner : List Item} {ws ws' : List String} (ending : List String)
      (before : Spells none outer ws) (behind : Spells (some c) inner ws')
      (ends : ending = [] ∨ ending = ["--"]) :
      Arranges (ws ++ c.name :: (ws' ++ ending)) c outer inner

section Sides
variable {s s' settled : Scan} {flag : ValueFlag} {text w : String} {place : Option Subcommand}
  {items : List Item} {ws rest : List String} {g : Given} {c : Subcommand}

theorem settle_cases (h : s.settle = .ok settled) :
    s.pending = .nothing ∧ settled = s ∨ ∃ flag text given, s.pending = .holding flag text ∧
      s.given.add flag text = .ok given ∧ settled = ⟨s.place, given, .nothing⟩ := by
  rw [Scan.settle] at h
  split at h
  · next hpending => exact .inl ⟨hpending, (Except.ok.inj h).symm⟩
  · cases h
  · next flag text hpending =>
    obtain ⟨given, hadd, h⟩ := except_bind_eq_ok.mp h
    exact .inr ⟨flag, text, given, hpending, hadd, (Except.ok.inj h).symm⟩

theorem settle_settled (h : s.settle = .ok settled) :
    settled.place = s.place ∧ settled.pending = .nothing := by
  obtain ⟨hpending, rfl⟩ | ⟨flag, text, given, _, _, rfl⟩ := settle_cases h
  · exact ⟨rfl, hpending⟩
  · exact ⟨rfl, rfl⟩

/-- What was pending comes before the items that are taken in once it has been settled. -/
theorem owes_of_settled (hsettle : s.settle = .ok settled) (h : Spells s.place items ws)
    (htake : settled.given.takeAll items = .ok g) :
    ∃ items', Owes s.place s.pending items' ws ∧ s.given.takeAll items' = .ok g := by
  obtain ⟨hpending, rfl⟩ | ⟨flag, text, given, hpending, hadd, rfl⟩ := settle_cases hsettle
  · exact ⟨items, hpending ▸ .nothing h, htake⟩
  · refine ⟨.value flag text :: items, hpending ▸ .holding h, ?_⟩
    exact except_bind_eq_ok.mpr ⟨given, hadd, htake⟩

/-- What is left of the words when a side has been scanned. -/
inductive Leaves (place : Option Subcommand) :
    List String → Option (Subcommand × List String) → Prop
  | ended : Leaves place [] none
  | dashed : Leaves place ["--"] none
  | subcommand (c : Subcommand) (rest : List String) (first : place = none) :
      Leaves place (c.name :: rest) (some (c, rest))

theorem eq_name_of_subcommand? (h : s.subcommand? w = some c) :
    w = c.name ∧ s.place = none := by
  have hname : Subcommand.ofName? w = some c ∧ s.place = none := by
    rw [Scan.subcommand?] at h
    split at h
    · next hplace _ => exact ⟨h, hplace⟩
    · next hplace _ => exact ⟨h, hplace⟩
    · cases h
  have hspec := List.find?_some hname.1
  exact ⟨(beq_iff_eq.mp hspec).symm, hname.2⟩

/-- Words that are scanned write items, taken in one after the other. -/
theorem owes_of_words {out : Option (Subcommand × List String)} (h : s.words ws = .ok (s', out))
    (hsettle : s'.settle = .ok settled) : ∃ items front left, ws = front ++ left ∧
      Owes s.place s.pending items front ∧ s.given.takeAll items = .ok settled.given ∧
      Leaves s.place left out := by
  -- where the side ends, only what is pending is still to be taken in
  have hend : ∀ {s : Scan} {left out}, s.settle = .ok settled → Leaves s.place left out →
      ∃ items front left', left = front ++ left' ∧ Owes s.place s.pending items front ∧
        s.given.takeAll items = .ok settled.given ∧ Leaves s.place left' out := by
    intro s left out hsettle hleaves
    obtain ⟨items, howes, htake⟩ := owes_of_settled hsettle .nil rfl
    exact ⟨items, [], left, rfl, howes, htake, hleaves⟩
  induction ws generalizing s with
  | nil =>
    obtain ⟨rfl, rfl⟩ := Prod.mk.inj (Except.ok.inj h)
    exact hend hsettle .ended
  | cons w rest ih =>
    unfold Scan.words at h
    split at h
    · cases h
    split at h
    · next c hsubcommand =>
      obtain ⟨rfl, rfl⟩ := Prod.mk.inj (Except.ok.inj h)
      obtain ⟨rfl, hplace⟩ := eq_name_of_subcommand? hsubcommand
      exact hend hsettle (.subcommand c rest hplace)
    split at h
    · next hdashes =>
      obtain rfl := beq_iff_eq.mp hdashes
      cases rest with
      | nil =>
        obtain ⟨rfl, rfl⟩ := Prod.mk.inj (Except.ok.inj h)
        exact hend hsettle .dashed
      | cons => cases h
    obtain ⟨s₁, hword, h⟩ := except_bind_eq_ok.mp h
    obtain ⟨items, front, left, rfl, howes, htake, hleaves⟩ := ih h
    cases reads_of_word hword with
    | @attached flag text settled₁ given known settles adds =>
      obtain ⟨hplace, hnone⟩ := settle_settled settles
      simp only [hplace, hnone] at howes hleaves
      cases howes with
      | nothing spells =>
        obtain ⟨items', howes', htake'⟩ := owes_of_settled settles (.attached known spells)
          (except_bind_eq_ok.mpr ⟨given, adds, htake⟩)
        exact ⟨items', _, left, rfl, howes', htake', hleaves⟩
    | @flag flag settled₁ known settles =>
      obtain ⟨hplace, _⟩ := settle_settled settles
      simp only [hplace] at howes hleaves
      cases howes with
      | awaiting plain spells =>
        obtain ⟨items', howes', htake'⟩ :=
          owes_of_settled settles (.apart known plain spells) htake
        exact ⟨items', _, left, rfl, howes', htake', hleaves⟩
    | @retainStaging settled₁ given settles adds =>
      obtain ⟨hplace, hnone⟩ := settle_settled settles
      simp only [hplace, hnone] at howes hleaves
      cases howes with
      | nothing spells =>
        obtain ⟨items', howes', htake'⟩ := owes_of_settled settles (.retainStaging spells)
          (except_bind_eq_ok.mpr ⟨given, adds, htake⟩)
        exact ⟨items', _, left, rfl, howes', htake', hleaves⟩
    | @value flag _ waits plain =>
      cases howes with
      | holding spells =>
        refine ⟨_, w :: front, left, rfl, ?_, htake, hleaves⟩
        rw [waits]
        exact .awaiting plain spells

theorem head?_name (c : Subcommand) : c.name.toList.head? ≠ some '-' := by
  cases c <;> decide

theorem ofName?_of_dashed (hw : w.toList.head? = some '-') : Subcommand.ofName? w = none := by
  cases hname : Subcommand.ofName? w with
  | none => rfl
  | some c =>
    have hspec := List.find?_some hname
    exact absurd (beq_iff_eq.mp hspec ▸ hw) (head?_name c)

theorem ofName?_subcommand (c : Subcommand) : Subcommand.ofName? c.name = some c := by
  cases c <;> rfl

theorem words_cons_of_word (hhelp : s.asksHelp w = false) (hsubcommand : s.subcommand? w = none)
    (hdashes : w ≠ "--") : s.words (w :: rest) = s.word w >>= fun s => s.words rest := by
  rw [Scan.words.eq_def]
  simp [hhelp, hsubcommand, hdashes]

theorem words_cons_of_dashed (hw : w.toList.head? = some '-') (hdashes : w ≠ "--") :
    s.words (w :: rest) = s.word w >>= fun s => s.words rest := by
  have hhelp : w ≠ helpWord := by
    rintro rfl
    exact absurd hw (by decide)
  refine words_cons_of_word ?_ ?_ hdashes
  · rw [Scan.asksHelp]
    split <;> simp [hhelp]
  · rw [Scan.subcommand?]
    split <;> simp [ofName?_of_dashed hw]

/-- A flag that is waiting gets the next word as its value, whatever this spells. -/
theorem words_cons_of_awaiting (hpending : s.pending = .awaiting flag)
    (plain : looksLikeFlag w = false) :
    s.words (w :: rest) = Scan.words { s with pending := .holding flag w } rest := by
  have hdashes : w ≠ "--" := by
    rintro rfl
    cases plain
  rw [words_cons_of_word (by simp [Scan.asksHelp, hpending]) (by simp [Scan.subcommand?, hpending])
    hdashes]
  have hword : s.word w = .ok { s with pending := .holding flag w } := by
    rw [looksLikeFlag] at plain
    rw [Scan.word]
    split
    · next cs hw => simp [hw] at plain
    · next c cs hw => simp [hw] at plain
    · rw [hpending]
  rw [hword]
  rfl

theorem word_of_takes {item : Item} {given : Given}
    (hword : s.word w = s.settle >>= fun s => s.given.take item >>= fun given =>
      pure { s with given })
    (hsettle : s.settle = .ok settled) (hadd : settled.given.take item = .ok given) :
    s.word w = .ok { settled with given } ∧
      Scan.settle { settled with given } = .ok { settled with given } := by
  constructor
  · rw [hword]
    exact except_bind_eq_ok.mpr ⟨settled, hsettle, except_bind_eq_ok.mpr ⟨given, hadd, rfl⟩⟩
  · simp [Scan.settle, (settle_settled hsettle).2]

/-- A word that reads items which can be taken in brings the scan to where the rest can follow. -/
theorem words_of_spells (h : Spells place items ws) (hplace : s.place = place)
    (hsettle : s.settle = .ok settled) (htake : settled.given.takeAll items = .ok g)
    (rest : List String) : ∃ s' : Scan, s.words (ws ++ rest) = s'.words rest ∧
      s'.place = place ∧ s'.settle = .ok ⟨place, g, .nothing⟩ := by
  induction h generalizing s settled with
  | nil =>
    obtain ⟨hsettled, hnothing⟩ := settle_settled hsettle
    obtain rfl := Except.ok.inj htake
    refine ⟨s, rfl, hplace, ?_⟩
    rw [hsettle, ← hplace, ← hsettled, ← hnothing]
  | @attached flag text items ws known spells ih =>
    obtain ⟨given, hadd, htake⟩ := except_bind_eq_ok.mp htake
    obtain ⟨hword, hself⟩ := word_of_takes (word_wordWith (hplace ▸ known)) hsettle hadd
    obtain ⟨s', hs', hend⟩ := ih (s := { settled with given })
      ((settle_settled hsettle).1.trans hplace) hself htake
    refine ⟨s', ?_, hend⟩
    rw [List.cons_append, words_cons_of_dashed (flag.head?_wordWith text)
      (flag.wordWith_ne text), hword]
    exact hs'
  | @apart flag text items ws known plain spells ih =>
    obtain ⟨hsettled, _⟩ := settle_settled hsettle
    have hword : s.word flag.word = .ok { settled with pending := .awaiting flag } := by
      rw [word_word (hplace ▸ known)]
      exact except_bind_eq_ok.mpr ⟨settled, hsettle, rfl⟩
    obtain ⟨given, hadd, htake⟩ := except_bind_eq_ok.mp htake
    have hvalue : Scan.settle { settled with pending := .holding flag text } =
        .ok ⟨settled.place, given, .nothing⟩ := except_bind_eq_ok.mpr ⟨given, hadd, rfl⟩
    obtain ⟨s', hs', hend⟩ := ih (s := { settled with pending := .holding flag text })
      (hsettled.trans hplace) hvalue htake
    refine ⟨s', ?_, hend⟩
    rw [List.cons_append, List.cons_append, words_cons_of_dashed flag.head?_word flag.word_ne, hword]
    exact (words_cons_of_awaiting (s := { settled with pending := .awaiting flag }) rfl plain).trans hs'
  | @retainStaging items ws spells ih =>
    obtain ⟨given, hadd, htake⟩ := except_bind_eq_ok.mp htake
    obtain ⟨hword, hself⟩ :=
      word_of_takes (word_retainWord.trans applySwitch_retainStaging) hsettle hadd
    obtain ⟨s', hs', hend⟩ := ih (s := { settled with given })
      ((settle_settled hsettle).1.trans hplace) hself htake
    refine ⟨s', ?_, hend⟩
    rw [List.cons_append, words_cons_of_dashed (by decide) (by decide), hword]
    exact hs'

end Sides

def actionOf (c : Subcommand) (g : Given) : Except UsageFault Action :=
  match c with
  | .archive => .ok .archive
  | .list => .ok .list
  | .restore =>
    match (g.value? .key).bind Key.ofText? with
    | some key => .ok (.restore key)
    | none => .error .missingRequiredArgument

section Lines
variable {args : List String} {c : Subcommand} {outer inner : List Item} {g g' : Given}
  {i : Invocation} {s : Scan} {rest : List String}

theorem parseInner_eq {ws : List String} (h : Spells (some c) inner ws)
    (htake : Given.takeAll {} inner = .ok g) {ending : List String}
    (hends : ending = [] ∨ ending = ["--"]) : parseInner c (ws ++ ending) = (do
      g.validate
      let action ← actionOf c g
      return (action, g)) := by
  have hstart : Scan.settle { place := some c } = .ok { place := some c } := rfl
  obtain ⟨s', hs', hplace, hsettle⟩ := words_of_spells h rfl hstart htake ending
  have hend : s'.words ending = .ok (s', none) := by
    obtain rfl | rfl := hends
    · rfl
    · rw [Scan.words.eq_def]
      simp [Scan.asksHelp, Scan.subcommand?, hplace]
  rw [parseInner, hs', hend]
  change (s'.settle >>= fun s => _) = _
  rw [hsettle]
  change (g.validate >>= fun _ => _) = g.validate >>= fun _ => _
  refine bind_congr fun _ => ?_
  cases c with
  | archive | list => rfl
  | restore =>
    rw [actionOf]
    dsimp only
    cases (g.value? .key).bind Key.ofText? <;> rfl

theorem words_of_subcommand {settled : Scan} (hplace : s.place = none)
    (hsettle : s.settle = .ok settled) : s.words (c.name :: rest) = .ok (s, some (c, rest)) := by
  have hhelp : (c.name == helpWord) = false := by cases c <;> decide
  rw [Scan.words.eq_def]
  obtain ⟨hpending, _⟩ | ⟨flag, text, given, hpending, _⟩ := settle_cases hsettle
  · simp [Scan.asksHelp, Scan.subcommand?, hplace, hpending, hhelp, ofName?_subcommand]
  · simp [Scan.asksHelp, Scan.subcommand?, hplace, hpending, hhelp, ofName?_subcommand]

/-- What is asked for by a line all of whose items can be taken in. -/
theorem parse_of_arranges (h : Arranges args c outer inner) (houter : Given.takeAll {} outer = .ok g)
    (hinner : Given.takeAll {} inner = .ok g') : parse args = (do
      g'.validate
      let action ← actionOf c g'
      g.validate
      return ⟨action, overridesOf g g'⟩) := by
  obtain ⟨ending, before, behind, hends⟩ := h
  have hstart : Scan.settle { place := none } = .ok { place := none } := rfl
  obtain ⟨s', hs', hplace, hsettle⟩ :=
    words_of_spells before rfl hstart houter (c.name :: (_ ++ ending))
  rw [parse, hs', words_of_subcommand hplace hsettle]
  change (parseInner c _ >>= fun inner => s'.settle >>= fun s => _) = _
  rw [parseInner_eq behind hinner hends, hsettle]
  cases g'.validate with
  | error fault => rfl
  | ok => cases actionOf c g' <;> rfl

theorem spells_of_words {place : Option Subcommand} {ws : List String} {s settled : Scan}
    {out : Option (Subcommand × List String)} (h : Scan.words { place } ws = .ok (s, out))
    (hsettle : s.settle = .ok settled) : ∃ items front left, ws = front ++ left ∧
      Spells place items front ∧ Given.takeAll {} items = .ok settled.given ∧
      Leaves place left out := by
  obtain ⟨items, front, left, rfl, howes, htake, hleaves⟩ := owes_of_words h hsettle
  cases howes with
  | nothing spells => exact ⟨items, front, left, rfl, spells, htake, hleaves⟩

/-- Every line that is accepted is written by items, and all of them can be taken in. -/
theorem arranges_of_parse (h : parse args = .ok i) : ∃ c outer inner g g',
    Arranges args c outer inner ∧ Given.takeAll {} outer = .ok g ∧ Given.takeAll {} inner = .ok g' := by
  obtain ⟨⟨s, out⟩, hwords, h⟩ := except_bind_eq_ok.mp h
  match out with
  | none =>
    obtain ⟨_, _, h⟩ := except_bind_eq_ok.mp h
    cases h
  | some (c, rest) =>
    obtain ⟨⟨action, inner⟩, hinner, h⟩ := except_bind_eq_ok.mp h
    obtain ⟨settled, hsettle, _⟩ := except_bind_eq_ok.mp h
    obtain ⟨⟨s', out'⟩, hwords', hinner⟩ := except_bind_eq_ok.mp hinner
    obtain ⟨settled', hsettle', _⟩ := except_bind_eq_ok.mp hinner
    obtain ⟨outer, ws, left, rfl, hspells, htake, hleaves⟩ := spells_of_words hwords hsettle
    obtain ⟨inner, ws', left', rfl, hspells', htake', hleaves'⟩ :=
      spells_of_words hwords' hsettle'
    cases hleaves with
    | subcommand =>
      refine ⟨c, outer, inner, settled.given, settled'.given, ?_, htake, htake'⟩
      cases hleaves' with
      | ended => exact .intro [] hspells hspells' (.inl rfl)
      | dashed => exact .intro ["--"] hspells hspells' (.inr rfl)
      | subcommand _ _ first => cases first

end Lines

def Item.flag : Item → Flag
  | .value flag _ => .value flag
  | .retainStaging => .switch .retainStaging

def Item.setting? : Item → Option (ValueFlag × String)
  | .value flag text => some (flag, text)
  | .retainStaging => none

/-- The value of an item is one that its flag can have. -/
def Item.Fits : Item → Prop
  | .value flag text => Given.check flag text = .ok ()
  | .retainStaging => True

/-- A flag is among the items. -/
def Names (flag : ValueFlag) (items : List Item) : Prop := ∃ text, .value flag text ∈ items

/-- No flag is written twice, and the values fit. -/
structure Orderly (items : List Item) : Prop where
  once : (items.map Item.flag).Nodup
  fits : ∀ item ∈ items, item.Fits

def Given.ofItems (items : List Item) : Given :=
  ⟨items.filterMap Item.setting?, items.contains .retainStaging⟩

section Items
variable {items done : List Item} {item : Item} {flag : ValueFlag} {text : String} {g g' : Given}

@[simp] theorem names_append {more : List Item} :
    Names flag (items ++ more) ↔ Names flag items ∨ Names flag more := by
  simp [Names, exists_or]

theorem mem_values_ofItems :
    (flag, text) ∈ (Given.ofItems items).values ↔ .value flag text ∈ items := by
  rw [Given.ofItems, List.mem_filterMap]
  constructor
  · rintro ⟨item, hitem, hsetting⟩
    cases item with
    | retainStaging => cases hsetting
    | value =>
      cases hsetting
      exact hitem
  · exact fun h => ⟨_, h, rfl⟩

theorem flag_mem_iff : .value flag ∈ items.map Item.flag ↔ Names flag items := by
  rw [List.mem_map]
  constructor
  · rintro ⟨item, hitem, hflag⟩
    cases item with
    | retainStaging => cases hflag
    | value _ text =>
      cases hflag
      exact ⟨text, hitem⟩
  · rintro ⟨text, hitem⟩
    exact ⟨_, hitem, rfl⟩

theorem mem_of_value? (h : (Given.ofItems items).value? flag = some text) :
    .value flag text ∈ items := by
  obtain ⟨_, _, hvalues, _⟩ := List.lookup_eq_some_iff.mp h
  exact mem_values_ofItems.mp (hvalues ▸ by simp)

theorem isSome_value? : ((Given.ofItems items).value? flag).isSome = true ↔ Names flag items := by
  rw [Given.value?, List.lookup_isSome_iff]
  constructor
  · rintro ⟨⟨other, text⟩, hmem, hflag⟩
    obtain rfl := beq_iff_eq.mp hflag
    exact ⟨text, mem_values_ofItems.mp hmem⟩
  · rintro ⟨text, hmem⟩
    exact ⟨(flag, text), mem_values_ofItems.mpr hmem, beq_self_eq_true flag⟩

theorem add_eq_ok_iff : g.add flag text = .ok g' ↔
    (g.value? flag).isSome = false ∧ Given.check flag text = .ok () ∧
      g' = { g with values := g.values ++ [(flag, text)] } := by
  rw [Given.add]
  split
  · next h => simp [h]
  · next h =>
    have hnone : (g.value? flag).isSome = false := Bool.not_eq_true _ ▸ h
    rw [except_bind_eq_ok]
    constructor
    · rintro ⟨_, hcheck, hg⟩
      exact ⟨hnone, hcheck, (Except.ok.inj hg).symm⟩
    · rintro ⟨_, hcheck, rfl⟩
      exact ⟨(), hcheck, rfl⟩

theorem switch_mem_iff :
    .switch .retainStaging ∈ items.map Item.flag ↔ .retainStaging ∈ items := by
  rw [List.mem_map]
  constructor
  · rintro ⟨item, hitem, hflag⟩
    cases item with
    | value => cases hflag
    | retainStaging => exact hitem
  · exact fun h => ⟨_, h, rfl⟩

theorem take_ofItems : (Given.ofItems done).take item = .ok g ↔
    item.flag ∉ done.map Item.flag ∧ item.Fits ∧ g = .ofItems (done ++ [item]) := by
  cases item with
  | value flag text =>
    rw [Given.take, add_eq_ok_iff, Item.flag, flag_mem_iff, ← isSome_value?, Bool.not_eq_true]
    simp [Item.Fits, Given.ofItems, Item.setting?]
  | retainStaging =>
    rw [Given.take, Item.flag, switch_mem_iff]
    have hsame : [Item.retainStaging].filterMap Item.setting? = [] := rfl
    by_cases h : .retainStaging ∈ done <;>
      simp [Given.ofItems, hsame, Item.Fits, h, eq_comm]

theorem orderly_concat : Orderly (done ++ [item]) ↔
    Orderly done ∧ item.flag ∉ done.map Item.flag ∧ item.Fits := by
  constructor
  · rintro ⟨once, fits⟩
    rw [List.map_append, List.nodup_append] at once
    refine ⟨⟨once.1, fun other hother => fits other (by simp [hother])⟩, fun hmem => ?_,
      fits item (by simp)⟩
    exact once.2.2 _ hmem _ (by simp) rfl
  · rintro ⟨⟨once, fits⟩, hfresh, hfits⟩
    refine ⟨?_, fun other hother => ?_⟩
    · rw [List.map_append, List.nodup_append]
      refine ⟨once, by simp, ?_⟩
      rintro a ha b hb rfl
      exact hfresh (List.mem_singleton.mp hb ▸ ha)
    · rcases List.mem_append.mp hother with hother | hother
      · exact fits other hother
      · rwa [List.mem_singleton.mp hother]

theorem Orderly.front {more : List Item} (h : Orderly (done ++ more)) : Orderly done where
  once := by
    have honce := h.once
    rw [List.map_append, List.nodup_append] at honce
    exact honce.1
  fits := fun item hitem => h.fits item (List.mem_append_left _ hitem)

theorem takeAll_ofItems (h : Orderly done) : (Given.ofItems done).takeAll items = .ok g ↔
    Orderly (done ++ items) ∧ g = .ofItems (done ++ items) := by
  induction items generalizing done with
  | nil => simp [h, eq_comm]
  | cons item items ih =>
    have hsplit : done ++ item :: items = (done ++ [item]) ++ items := by simp
    rw [Given.takeAll_cons, except_bind_eq_ok, hsplit]
    constructor
    · rintro ⟨given, htake, hall⟩
      obtain ⟨hfresh, hfits, rfl⟩ := take_ofItems.mp htake
      exact (ih (orderly_concat.mpr ⟨h, hfresh, hfits⟩)).mp hall
    · rintro ⟨horderly, rfl⟩
      obtain ⟨_, hfresh, hfits⟩ := orderly_concat.mp horderly.front
      exact ⟨_, take_ofItems.mpr ⟨hfresh, hfits, rfl⟩, (ih horderly.front).mpr ⟨horderly, rfl⟩⟩

/-- A side of a line can be taken in if it is orderly. -/
theorem takeAll_eq_ok_iff :
    Given.takeAll {} items = .ok g ↔ Orderly items ∧ g = .ofItems items := by
  have hnone : Orderly [] := ⟨List.nodup_nil, by simp⟩
  exact takeAll_ofItems hnone

end Items

end DumpVault.CommandLine
