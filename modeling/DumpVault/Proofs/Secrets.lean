import DumpVault.Machine.Host
import DumpVault.Proofs.ByteOrder

/-!
# The secrets of an environment

A secret is bytes: the value of a variable, or a file without the line ends behind it. A source gives
its secret as it is if this is text. If it is not, a file gives no password but a fault, and a
variable gives nothing, as if it were not set.
-/
namespace DumpVault
open StorePath

def isLineEndByte (b : UInt8) : Bool := b == 13 || b == 10

/-- The bytes without the run of carriage returns and line feeds behind them. -/
def withoutLineEndBytes (bytes : ByteArray) : ByteArray :=
  (bytes.toList.reverse.dropWhile isLineEndByte).reverse.toByteArray

theorem toList_toByteArray (bytes : ByteArray) : bytes.toList.toByteArray = bytes := by
  rw [toList_eq_data_toList]
  refine ByteArray.ext (Array.toList_inj.mp ?_)
  rw [List.toList_data_toByteArray]

theorem lt_of_mem_utf8EncodeChar {c : Char} (h : 0x7f < c.toNat) {b : UInt8}
    (hb : b ∈ String.utf8EncodeChar c) : 0x7f < b.toNat := by
  have hv : ¬ c.val.toNat ≤ 0x7f := Nat.not_le.mpr h
  revert hb
  fun_cases String.utf8EncodeChar c with
  | case1 _ hle => exact absurd hle hv
  | case2 | case3 | case4 =>
    simp only [List.mem_cons, List.not_mem_nil, or_false]
    intro hb
    repeat' (rcases hb with rfl | hb)
    all_goals rw [UInt8.toNat_ofNat']; omega

theorem utf8EncodeChar_of_isLineEnd {c : Char} (h : isLineEnd c = true) :
    ∃ b, String.utf8EncodeChar c = [b] ∧ isLineEndByte b = true := by
  simp only [isLineEnd, Bool.or_eq_true, beq_iff_eq] at h
  obtain rfl | rfl := h
  · exact ⟨13, rfl, rfl⟩
  · exact ⟨10, rfl, rfl⟩

theorem eq_of_ascii_mem {c d : Char} {b : UInt8} (hb : b ∈ String.utf8EncodeChar c)
    (hd : b.toNat = d.toNat) (hascii : d.toNat ≤ 0x7f) : c = d := by
  have hc : c.toNat ≤ 0x7f := by
    refine Nat.le_of_not_lt fun hlt => ?_
    have hbyte := lt_of_mem_utf8EncodeChar hlt hb
    omega
  rw [utf8EncodeChar_of_ascii hc, List.mem_singleton] at hb
  rw [hb, toNat_ofNat_of_ascii hc] at hd
  exact Char.toNat_inj.mp hd

theorem utf8EncodeChar_of_not_isLineEnd {c : Char} (h : isLineEnd c = false) {b : UInt8}
    (hb : b ∈ String.utf8EncodeChar c) : isLineEndByte b = false := by
  refine Bool.eq_false_iff.mpr fun hline => ?_
  simp only [isLineEndByte, Bool.or_eq_true, beq_iff_eq] at hline
  obtain rfl | rfl := hline
  · obtain rfl : c = '\r' := eq_of_ascii_mem hb rfl (by decide)
    cases h
  · obtain rfl : c = '\n' := eq_of_ascii_mem hb rfl (by decide)
    cases h

/-- Read from the end, the line ends of a text are those of its bytes. -/
theorem dropWhile_isLineEndByte (cs : List Char) :
    (cs.flatMap fun c => (String.utf8EncodeChar c).reverse).dropWhile isLineEndByte =
      (cs.dropWhile isLineEnd).flatMap fun c => (String.utf8EncodeChar c).reverse := by
  induction cs with
  | nil => rfl
  | cons c cs ih =>
    rw [List.flatMap_cons]
    cases hline : isLineEnd c with
    | true =>
      obtain ⟨b, hb, hbyte⟩ := utf8EncodeChar_of_isLineEnd hline
      rw [hb, List.reverse_singleton, List.singleton_append, List.dropWhile_cons_of_pos hbyte,
        List.dropWhile_cons_of_pos hline, ih]
    | false =>
      obtain ⟨b, rest, hlast⟩ := List.exists_cons_of_ne_nil
        (mt List.reverse_eq_nil_iff.mp (utf8EncodeChar_ne_nil c))
      have hb : b ∈ String.utf8EncodeChar c := by
        rw [← List.mem_reverse, hlast]
        exact List.mem_cons_self
      have hbyte : ¬ isLineEndByte b = true := by
        simp [utf8EncodeChar_of_not_isLineEnd hline hb]
      rw [List.dropWhile_cons_of_neg (by simp [hline]), List.flatMap_cons, hlast, List.cons_append,
        List.dropWhile_cons_of_neg hbyte]

theorem toUTF8_withoutLineEnds (s : String) :
    (withoutLineEnds s).toUTF8 = withoutLineEndBytes s.toUTF8 := by
  have hbytes : (withoutLineEnds s).toUTF8.toList =
      (s.toUTF8.toList.reverse.dropWhile isLineEndByte).reverse := by
    rw [toUTF8_toList, toUTF8_toList, withoutLineEnds, String.toList_ofList, List.reverse_flatMap]
    simp only [Function.comp_def]
    rw [dropWhile_isLineEndByte, List.reverse_flatMap]
    simp only [Function.comp_def, List.reverse_reverse]
  rw [withoutLineEndBytes, ← hbytes, toList_toByteArray]

theorem hasNul_of_mem {s : String} (h : 0 ∈ s.toUTF8.toList) : Host.hasNul s = true := by
  rw [toUTF8_toList, List.mem_flatMap] at h
  obtain ⟨c, hc, hbyte⟩ := h
  obtain rfl : c = '\x00' := eq_of_ascii_mem hbyte rfl (by decide)
  rw [Host.hasNul, List.contains_iff_mem]
  exact hc

theorem fromUTF8?_eq_some {bytes : ByteArray} {s : String} :
    String.fromUTF8? bytes = some s ↔ s.toUTF8 = bytes := by
  rw [String.fromUTF8?, String.toUTF8_eq_toByteArray]
  constructor
  · intro h
    split at h
    · cases h
      rfl
    · cases h
  · rintro rfl
    rw [dif_pos s.isValidUTF8]
    rfl

theorem isValidUTF8_iff {bytes : ByteArray} :
    bytes.IsValidUTF8 ↔ ∃ s, String.fromUTF8? bytes = some s := by
  rw [String.fromUTF8?]
  constructor
  · intro h
    exact ⟨_, dif_pos h⟩
  · rintro ⟨s, h⟩
    split at h
    · assumption
    · cases h

theorem prefix_separated_iff {α : Type} {x : α} {as bs rest : List α} (ha : x ∉ as) (hb : x ∉ bs) :
    as ++ [x] <+: bs ++ x :: rest ↔ as = bs := by
  induction as generalizing bs with
  | nil =>
    cases bs with
    | nil => simp
    | cons b bs =>
      have hne : x ≠ b := fun h => hb (h ▸ List.mem_cons_self)
      simp [hne]
  | cons a as ih =>
    cases bs with
    | nil =>
      have hne : a ≠ x := fun h => ha (h ▸ List.mem_cons_self)
      simp [hne]
    | cons b bs =>
      simp only [List.mem_cons, not_or] at ha hb
      simp [List.cons_prefix_cons, ih ha.2 hb.2]

namespace Environment
variable {e : Environment} {name : String} {value : ByteArray}

/-- What the variables of a name hold. -/
def values (e : Environment) (name : String) : List ByteArray :=
  (e.entries.filter fun v => decide (v.1 = name.toUTF8)).map Prod.snd

/-- No name of a variable has an equals sign in it. -/
def IsPlain (e : Environment) : Prop := ∀ v ∈ e.entries, 0x3d ∉ v.1.toList

/-- A name that a variable can have. -/
def IsPlainName (name : String) : Prop := name ≠ "" ∧ '\x00' ∉ name.toList ∧ '=' ∉ name.toList

theorem after?_separated {start n v : ByteArray} (hstart : 0x3d ∉ start.toList)
    (hn : 0x3d ∉ n.toList) : after? (start ++ "=".toUTF8) (n ++ "=".toUTF8 ++ v) =
      if n = start then some v else none := by
  rw [toList_eq_data_toList] at hstart hn
  have hequals : "=".toUTF8.data.toList = [0x3d] := rfl
  have hstarts : (start ++ "=".toUTF8).data.toList.isPrefixOf
      (n ++ "=".toUTF8 ++ v).data.toList = true ↔ n = start := by
    rw [List.isPrefixOf_iff_prefix, ByteArray.data_append, ByteArray.data_append,
      ByteArray.data_append, Array.toList_append, Array.toList_append, Array.toList_append, hequals,
      List.append_assoc, List.singleton_append, prefix_separated_iff hstart hn, Array.toList_inj]
    exact ⟨fun h => (ByteArray.ext h).symm, fun h => h ▸ rfl⟩
  rw [after?]
  by_cases heq : n = start
  · rw [if_pos (hstarts.mpr heq), if_pos heq, heq]
    exact congrArg some (ByteArray.extract_append_eq_right rfl (by simp))
  · rw [if_neg (mt hstarts.mp heq), if_neg heq]

/-- The value of a variable is what the first entry of its name holds. -/
theorem get?_eq_head?_values (hplain : e.IsPlain) (hname : IsPlainName name) :
    e.get? name = (e.values name).head? := by
  obtain ⟨hne, hnul, hequals⟩ := hname
  have hbytes : 0x3d ∉ name.toUTF8.toList := by
    rw [toUTF8_toList, List.mem_flatMap]
    rintro ⟨c, hc, hbyte⟩
    obtain rfl : c = '=' := eq_of_ascii_mem hbyte rfl (by decide)
    exact hequals hc
  have hafter : ∀ {n v}, 0x3d ∉ n.toList → after? (name ++ "=").toUTF8 (n ++ "=".toUTF8 ++ v) =
      if n = name.toUTF8 then some v else none := by
    intro n v hn
    rw [← after?_separated hbytes hn]
    simp
  rw [get?, if_neg (by simp [hne, hnul]), values]
  unfold IsPlain at hplain
  revert hplain
  induction e.entries with
  | nil => exact fun _ => rfl
  | cons v vs ih =>
    intro hplain
    obtain ⟨hv, hvs⟩ := List.forall_mem_cons.mp hplain
    rw [List.findSome?_cons]
    dsimp only
    rw [hafter hv]
    by_cases heq : v.1 = name.toUTF8
    · rw [if_pos heq, List.filter_cons_of_pos (by simpa using heq)]
      rfl
    · rw [if_neg heq, List.filter_cons_of_neg (by simpa using heq)]
      exact ih hvs

@[simp] theorem unset_unset : (e.unset name).unset name = e.unset name := by
  simp [unset, List.filter_filter]

@[simp] theorem unset_set : (e.set name value).unset name = e.unset name := by
  simp [set, unset, List.filter_filter]

@[simp] theorem values_unset : (e.unset name).values name = [] := by
  simp [values, unset]

@[simp] theorem values_set : (e.set name value).values name = [value] := by
  simp [values, set, unset]

theorem unset_forUtility (password : Option Secret) :
    (e.forUtility password).unset passwordVariable = e.unset passwordVariable := by
  cases password <;> simp [forUtility]

theorem values_forUtility (password : Option Secret) :
    (e.forUtility password).values passwordVariable =
      (password.map fun s => s.value.toUTF8).toList := by
  cases password <;> simp [forUtility]

end Environment

namespace SecretSource

/-- The secret that a source holds, byte for byte. -/
def held? (source : SecretSource) (environment : Environment) (files : FileTree)
    (cwd : Location) : Option ByteArray :=
  match source with
  | env var => environment.get? var
  | file path => (files.readFile cwd path).toOption.map withoutLineEndBytes
  | absent => none

/-- A secret is configured that no environment can hold as it is, or that cannot be read. -/
inductive Unfit (environment : Environment) (files : FileTree) (cwd : Location) :
    SecretSource → Prop
  | unreadable (path : String)
      (untold : ∀ bytes, files.readFile cwd path = .ok bytes → ¬ bytes.IsValidUTF8) :
      Unfit environment files cwd (file path)
  | cut {source : SecretSource} (value : ByteArray)
      (holds : source.held? environment files cwd = some value) (text : value.IsValidUTF8)
      (nul : 0 ∈ value.toList) : Unfit environment files cwd source

variable {source : SecretSource} {environment : Environment} {files : FileTree} {cwd : Location}
  {password : Option Secret} {value : ByteArray} {path : String}

theorem readText_eq_ok {text : String} :
    files.readText cwd path = .ok text ↔ files.readFile cwd path = .ok text.toUTF8 := by
  rw [FileTree.readText]
  cases files.readFile cwd path with
  | error fault => exact ⟨nofun, nofun⟩
  | ok bytes =>
    change IoFault.textOf bytes = .ok text ↔ _
    rw [IoFault.textOf, Except.ok.injEq, eq_comm (a := bytes), ← fromUTF8?_eq_some]
    cases String.fromUTF8? bytes <;> simp

theorem password_file_eq_ok :
    (file path).password environment files cwd = .ok password ↔
      ∃ text : String, files.readFile cwd path = .ok text.toUTF8 ∧
        password = some ⟨withoutLineEnds text⟩ := by
  simp only [← readText_eq_ok]
  rw [SecretSource.password]
  cases files.readText cwd path <;> simp [eq_comm]

/-- A secret that is text is passed on as it is. -/
theorem password_of_text (h : source.password environment files cwd = .ok password)
    (htext : ∀ value, source.held? environment files cwd = some value → value.IsValidUTF8) :
    password.map (fun s => s.value.toUTF8) = source.held? environment files cwd := by
  cases source with
  | absent =>
    cases h
    rfl
  | env var =>
    obtain rfl := Except.ok.inj h
    rw [held?, Environment.text?]
    cases hget : environment.get? var with
    | none => rfl
    | some value =>
      obtain ⟨s, hs⟩ := isValidUTF8_iff.mp (htext value hget)
      rw [Option.bind_some, hs]
      exact congrArg some (fromUTF8?_eq_some.mp hs)
  | file path =>
    obtain ⟨text, hread, rfl⟩ := password_file_eq_ok.mp h
    rw [held?, hread]
    exact congrArg some (toUTF8_withoutLineEnds text)

/-- A secret that is not text is dropped, if it comes from a variable. -/
theorem password_of_not_text (h : source.password environment files cwd = .ok password)
    (hheld : source.held? environment files cwd = some value) (htext : ¬ value.IsValidUTF8) :
    (∃ var, source = env var) ∧ password = none := by
  cases source with
  | absent => cases hheld
  | env var =>
    obtain rfl := Except.ok.inj h
    refine ⟨⟨var, rfl⟩, ?_⟩
    have hnone : String.fromUTF8? value = none := by
      cases hs : String.fromUTF8? value with
      | none => rfl
      | some s => exact absurd (isValidUTF8_iff.mpr ⟨s, hs⟩) htext
    rw [Environment.text?, show environment.get? var = some value from hheld, Option.bind_some,
      hnone, Option.map_none]
  | file path =>
    obtain ⟨text, hread, rfl⟩ := password_file_eq_ok.mp h
    rw [held?, hread] at hheld
    refine absurd (isValidUTF8_iff.mpr ⟨withoutLineEnds text, fromUTF8?_eq_some.mpr ?_⟩) htext
    exact (toUTF8_withoutLineEnds text).trans (Option.some.inj hheld)

/-- A secret that does not fit is not read, or has a NUL in it. -/
theorem password_of_unfit (h : source.password environment files cwd = .ok password)
    (hunfit : Unfit environment files cwd source) :
    ∃ secret, password = some secret ∧ Host.hasNul secret.value = true := by
  cases hunfit with
  | unreadable path untold =>
    obtain ⟨text, hread, rfl⟩ := password_file_eq_ok.mp h
    exact absurd (isValidUTF8_iff.mpr ⟨text, fromUTF8?_eq_some.mpr rfl⟩) (untold _ hread)
  | cut value holds text nul =>
    have hpassword := password_of_text h fun other hother => by
      obtain rfl := Option.some.inj (holds.symm.trans hother)
      exact text
    obtain ⟨secret, rfl, hsecret⟩ := Option.map_eq_some_iff.mp (hpassword.trans holds)
    exact ⟨secret, rfl, hasNul_of_mem (hsecret ▸ nul)⟩

end SecretSource

end DumpVault
