import DumpVault.Calendar.Stamp

/-!
# Archive keys

A key names a blob within a bucket. Keys minted for an archive are time stamps to the second, so
that their order is the order of time; any other name that is not blank is a key too.
-/
namespace DumpVault
open Text Calendar

structure Key where
  text : String
  notBlank : ¬ AllBlank text
  deriving DecidableEq

namespace Key

instance : Repr Key := ⟨fun k _ => repr k.text⟩

def ofText? (text : String) : Option Key :=
  if h : AllBlank text then none else some ⟨text, h⟩

theorem not_allBlank_stamp (t : Instant) : ¬ AllBlank t.stamp := by
  intro h
  have hz : 'Z' ∈ t.stamp.toList := by simp [Instant.stamp, Instant.stampChars]
  exact absurd (h 'Z' hz) (by decide)

/-- The key of an archive whose upload starts at `t`. -/
def mint (t : Instant) : Key := ⟨t.stamp, not_allBlank_stamp t⟩

def instant? (k : Key) : Option Instant := Stamp.read? k.text

/-- Keys are ordered by code points, which is the order of their UTF-8 bytes. -/
def le (a b : Key) : Bool := decide (a.text ≤ b.text)

def sorted (keys : List Key) : List Key := keys.mergeSort le

@[simp] theorem text_mint (t : Instant) : (mint t).text = t.stamp := rfl

theorem ofText?_eq_none_iff (s : String) : ofText? s = none ↔ AllBlank s := by
  unfold ofText?; split <;> simp_all

@[simp] theorem ofText?_text (k : Key) : ofText? k.text = some k := by
  simp [ofText?, k.notBlank]

@[ext] theorem ext_text {a b : Key} (h : a.text = b.text) : a = b := by
  cases a; cases b; simp_all

end Key
end DumpVault
