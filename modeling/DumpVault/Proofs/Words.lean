import DumpVault.CommandLine.Invocation

/-!
# The words of a command line

What is given on a command line comes as items: a setting, written as one word or as two, or the
switch that keeps staging files. A scan reads one word at a time, and a word that it accepts is one
of four kinds, which `Reads` lists with what each does to the scan.
-/
namespace DumpVault.CommandLine

inductive Item
  | value (flag : ValueFlag) (text : String)
  | retainStaging
  deriving DecidableEq, Repr

def ValueFlag.word (flag : ValueFlag) : String := "--" ++ flag.name

/-- A flag and its value in one word. -/
def ValueFlag.wordWith (flag : ValueFlag) (text : String) : String := flag.word ++ "=" ++ text

def retainWord : String := "--" ++ Switch.retainStaging.name

/-- A word that is taken for a flag wherever it stands. -/
def looksLikeFlag (w : String) : Bool :=
  match w.toList with
  | '-' :: _ :: _ => true
  | _ => false

namespace Given

def take (g : Given) : Item → Except UsageFault Given
  | .value flag text => g.add flag text
  | .retainStaging =>
    if g.retainStaging then .error .argumentConflict else .ok { g with retainStaging := true }

def takeAll (g : Given) (items : List Item) : Except UsageFault Given := items.foldlM take g

@[simp] theorem takeAll_nil (g : Given) : g.takeAll [] = .ok g := rfl

@[simp] theorem takeAll_cons (g : Given) (item : Item) (items : List Item) :
    g.takeAll (item :: items) = g.take item >>= fun g => g.takeAll items := rfl

end Given

theorem except_bind_eq_ok {α β ε : Type} {x : Except ε α} {f : α → Except ε β} {b : β} :
    x >>= f = .ok b ↔ ∃ a, x = .ok a ∧ f a = .ok b := by
  cases x with
  | error fault => exact ⟨nofun, nofun⟩
  | ok a => exact ⟨fun h => ⟨a, rfl, h⟩, fun ⟨_, ha, h⟩ => Except.ok.inj ha ▸ h⟩

section Words
variable {s s' : Scan} {flag : ValueFlag} {text w : String} {f : Switch} {name : String}
  {place : Option Subcommand}

theorem ValueFlag.equals_notMem_name (flag : ValueFlag) : '=' ∉ flag.name.toList := by
  cases flag <;> decide

theorem ValueFlag.toList_word (flag : ValueFlag) : flag.word.toList = '-' :: '-' :: flag.name.toList := by
  rw [word, String.toList_append]
  rfl

theorem ValueFlag.toList_wordWith (flag : ValueFlag) (text : String) :
    (flag.wordWith text).toList = '-' :: '-' :: (flag.name.toList ++ '=' :: text.toList) := by
  rw [wordWith, String.toList_append, String.toList_append, toList_word]
  simp

theorem ValueFlag.head?_word (flag : ValueFlag) : flag.word.toList.head? = some '-' := by
  rw [toList_word]
  rfl

theorem ValueFlag.head?_wordWith (flag : ValueFlag) (text : String) :
    (flag.wordWith text).toList.head? = some '-' := by
  rw [toList_wordWith]
  rfl

theorem ValueFlag.word_ne (flag : ValueFlag) : flag.word ≠ "--" := by
  cases flag <;> decide

theorem ValueFlag.wordWith_ne (flag : ValueFlag) (text : String) : flag.wordWith text ≠ "--" := by
  intro h
  have hlength := congrArg (fun s : String => s.toList.length) h
  simp [toList_wordWith] at hlength

theorem ofName?_name (known : flag.knownAt place = true) :
    Flag.ofName? place flag.name = some (.value flag) := by
  have hfind : ValueFlag.all.find? (fun f => f.name == flag.name && f.knownAt place) = some flag := by
    cases flag <;> simp_all [ValueFlag.all, ValueFlag.name, ValueFlag.knownAt]
  rw [Flag.ofName?, hfind]

theorem eq_name_of_ofName? (h : Flag.ofName? place name = some (.value flag)) :
    name = flag.name ∧ flag.knownAt place = true := by
  rw [Flag.ofName?] at h
  cases hfind : ValueFlag.all.find? (fun f => f.name == name && f.knownAt place) with
  | some other =>
    rw [hfind] at h
    cases h
    have hspec := List.find?_some hfind
    simp only [Bool.and_eq_true, beq_iff_eq] at hspec
    exact ⟨hspec.1.symm, hspec.2⟩
  | none =>
    rw [hfind] at h
    simp at h

theorem eq_name_of_ofName?_switch (h : Flag.ofName? place name = some (.switch f)) :
    name = f.name := by
  rw [Flag.ofName?] at h
  cases hfind : ValueFlag.all.find? (fun f => f.name == name && f.knownAt place) with
  | some other =>
    rw [hfind] at h
    cases h
  | none =>
    rw [hfind] at h
    obtain ⟨other, hother, heq⟩ := Option.map_eq_some_iff.mp h
    cases heq
    have hspec := List.find?_some hother
    simp only [Bool.and_eq_true, beq_iff_eq] at hspec
    exact hspec.1.symm

theorem splitLong_append {name : String} (hname : '=' ∉ name.toList) (tail : List Char) :
    Scan.splitLong (name.toList ++ tail) =
      (String.ofList (name.toList ++ tail.takeWhile (· != '=')),
        match tail.dropWhile (· != '=') with
        | [] => none
        | _ :: value => some (String.ofList value)) := by
  have hall : ∀ c ∈ name.toList, (c != '=') = true := fun c hc =>
    bne_iff_ne.mpr fun h => hname (h ▸ hc)
  rw [Scan.splitLong, List.takeWhile_append_of_pos hall, List.dropWhile_append_of_pos hall]
  cases tail.dropWhile (· != '=') <;> rfl

theorem splitLong_name {name : String} (hname : '=' ∉ name.toList) :
    Scan.splitLong name.toList = (name, none) := by
  simpa using splitLong_append hname []

theorem splitLong_with {name : String} (hname : '=' ∉ name.toList) (text : String) :
    Scan.splitLong (name.toList ++ '=' :: text.toList) = (name, some text) := by
  simpa using splitLong_append hname ('=' :: text.toList)

theorem eq_of_splitLong {cs : List Char} {attached : Option String}
    (h : Scan.splitLong cs = (name, attached)) :
    cs = name.toList ++ (attached.map fun text => '=' :: text.toList).getD [] := by
  rw [Scan.splitLong] at h
  have hcut := List.takeWhile_append_dropWhile (p := (· != '=')) (l := cs)
  cases hdrop : cs.dropWhile (· != '=') with
  | nil =>
    rw [hdrop] at h
    obtain ⟨rfl, rfl⟩ := Prod.mk.inj h
    simpa [hdrop] using hcut.symm
  | cons c value =>
    rw [hdrop] at h
    obtain ⟨rfl, rfl⟩ := Prod.mk.inj h
    have hc : c = '=' := by
      have hhead := List.head?_dropWhile_not (· != '=') cs
      rw [hdrop] at hhead
      simpa using hhead
    simpa [hdrop, hc] using hcut.symm

/-- A flag with its value in one word settles what is pending and takes the value in at once. -/
theorem word_wordWith (known : flag.knownAt s.place = true) :
    s.word (flag.wordWith text) = s.settle >>= fun s => s.given.add flag text >>= fun given =>
      pure { s with given } := by
  rw [Scan.word, flag.toList_wordWith]
  change s.long _ = _
  rw [Scan.long, splitLong_with flag.equals_notMem_name]
  dsimp only
  rw [ofName?_name known]

theorem word_word (known : flag.knownAt s.place = true) :
    s.word flag.word = s.settle >>= fun s => pure { s with pending := .awaiting flag } := by
  rw [Scan.word, flag.toList_word]
  change s.long _ = _
  rw [Scan.long, splitLong_name flag.equals_notMem_name]
  dsimp only
  rw [ofName?_name known]

theorem word_retainWord : s.word retainWord = s.applySwitch .retainStaging := by
  have hname : Flag.ofName? s.place Switch.retainStaging.name = some (.switch .retainStaging) := by
    cases s.place <;> rfl
  rw [Scan.word, show retainWord.toList = '-' :: '-' :: Switch.retainStaging.name.toList from rfl]
  change s.long _ = _
  rw [Scan.long, splitLong_name (by decide)]
  dsimp only
  rw [hname]

/-- A switch other than that for staging files asks for something else than a run. -/
theorem applySwitch_eq_ok (h : s.applySwitch f = .ok s') : f = .retainStaging := by
  obtain ⟨settled, _, h⟩ := except_bind_eq_ok.mp h
  cases f with
  | retainStaging => rfl
  | help | version => cases h

theorem letters_ne_ok {c : Char} {cs : List Char} : s.letters (c :: cs) ≠ .ok s' := by
  intro h
  rw [Scan.letters] at h
  split at h
  · cases h
  · next f hletter =>
    obtain ⟨settled, hswitch, _⟩ := except_bind_eq_ok.mp h
    obtain rfl := applySwitch_eq_ok hswitch
    have hspec := List.find?_some hletter
    simp [Switch.letter?] at hspec

/-- How one word is read: as a flag with its value, as a flag whose value is to come, as the switch,
or as the value that a flag is waiting for. -/
inductive Reads (s : Scan) : String → Scan → Prop
  | attached {flag : ValueFlag} {text : String} {settled : Scan} {given : Given}
      (known : flag.knownAt s.place = true) (settles : s.settle = .ok settled)
      (adds : settled.given.take (.value flag text) = .ok given) :
      Reads s (flag.wordWith text) { settled with given }
  | flag {flag : ValueFlag} {settled : Scan} (known : flag.knownAt s.place = true)
      (settles : s.settle = .ok settled) :
      Reads s flag.word { settled with pending := .awaiting flag }
  | retainStaging {settled : Scan} {given : Given} (settles : s.settle = .ok settled)
      (adds : settled.given.take .retainStaging = .ok given) :
      Reads s retainWord { settled with given }
  | value {flag : ValueFlag} {text : String} (waits : s.pending = .awaiting flag)
      (plain : looksLikeFlag text = false) : Reads s text { s with pending := .holding flag text }

theorem applySwitch_retainStaging : s.applySwitch .retainStaging = s.settle >>= fun settled =>
    settled.given.take .retainStaging >>= fun given => pure { settled with given } := by
  refine bind_congr fun settled => ?_
  rw [Given.take]
  cases settled.given.retainStaging <;> rfl

theorem eq_ofList_of_toList {cs : List Char} (h : w.toList = cs) : w = String.ofList cs := by
  rw [← h, String.ofList_toList]

theorem reads_of_long {cs : List Char} (hw : w.toList = '-' :: '-' :: cs) (h : s.long cs = .ok s') :
    Reads s w s' := by
  rw [Scan.long] at h
  cases hsplit : Scan.splitLong cs with
  | mk name attached =>
    have hcs := eq_of_splitLong hsplit
    rw [hsplit] at h
    dsimp only at h
    cases hflag : Flag.ofName? s.place name with
    | none =>
      rw [hflag] at h
      cases h
    | some f =>
      rw [hflag] at h
      cases f with
      | switch f =>
        cases attached with
        | some text => cases h
        | none =>
          obtain rfl := applySwitch_eq_ok h
          obtain ⟨settled, settles, h⟩ := except_bind_eq_ok.mp (applySwitch_retainStaging.symm.trans h)
          obtain ⟨given, adds, h⟩ := except_bind_eq_ok.mp h
          obtain rfl := Except.ok.inj h
          have hword : w = retainWord := by
            rw [eq_ofList_of_toList hw, hcs, eq_name_of_ofName?_switch hflag]
            rfl
          rw [hword]
          exact .retainStaging settles adds
      | value flag =>
        obtain ⟨rfl, known⟩ := eq_name_of_ofName? hflag
        cases attached with
        | none =>
          obtain ⟨settled, settles, h⟩ := except_bind_eq_ok.mp h
          obtain rfl := Except.ok.inj h
          have hword : w = flag.word := String.toList_inj.mp (by simp [hw, hcs, flag.toList_word])
          rw [hword]
          exact .flag known settles
        | some text =>
          obtain ⟨settled, settles, h⟩ := except_bind_eq_ok.mp h
          obtain ⟨given, adds, h⟩ := except_bind_eq_ok.mp h
          obtain rfl := Except.ok.inj h
          have hword : w = flag.wordWith text :=
            String.toList_inj.mp (by simp [hw, hcs, flag.toList_wordWith])
          rw [hword]
          exact .attached known settles adds

theorem reads_of_word (h : s.word w = .ok s') : Reads s w s' := by
  rw [Scan.word] at h
  split at h
  · next cs hw => exact reads_of_long hw h
  · next c cs hw => exact absurd h letters_ne_ok
  · next hlong hletters =>
    split at h
    · next flag waits =>
      obtain rfl := Except.ok.inj h
      refine .value waits ?_
      rw [looksLikeFlag]
      split
      · next c cs hw =>
        exact absurd hw (hletters c cs)
      · rfl
    · cases h

end Words

end DumpVault.CommandLine
