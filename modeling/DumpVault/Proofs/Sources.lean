import Mathlib.Data.List.Chain
import DumpVault.Fault.Basic

/-!
# The sources of a fault

A fault may have a source, which may have one in its turn. The text of each ends with the text of the
next, down to the last, whatever tags have been put around the fault; so the text of the fault holds
the texts of all of them.
-/
namespace DumpVault

def EndsWith (text ending : String) : Prop := ending.toList <:+ text.toList

theorem EndsWith.trans {a b c : String} (hab : EndsWith a b) (hbc : EndsWith b c) : EndsWith a c :=
  List.IsSuffix.trans hbc hab

theorem endsWith_append (words text : String) : EndsWith (words ++ text) text := by
  rw [EndsWith, String.toList_append]
  exact List.suffix_append _ _

/-- Each text ends with the next. -/
abbrev Nests (texts : List String) : Prop := texts.IsChain EndsWith

/-- Words in front of a text leave it as what the new text ends with. -/
theorem Nests.behind {text : String} {causes : List String} (h : Nests (text :: causes))
    (words : String) : Nests ((words ++ text) :: text :: causes) :=
  List.isChain_cons_cons.mpr ⟨endsWith_append words text, h⟩

theorem nests_singleton (text : String) : Nests [text] := List.isChain_singleton text

/-- The first text ends with each of the others. -/
theorem Nests.endsWith {text : String} {causes : List String} (h : Nests (text :: causes)) :
    ∀ cause ∈ causes, EndsWith text cause := by
  have htrans : IsTrans String EndsWith := ⟨fun _ _ _ => EndsWith.trans⟩
  exact fun cause hmem => List.rel_of_pairwise_cons (List.isChain_iff_pairwise.mp h) hmem

theorem Cause.nests (c : Cause) : Nests (c.text :: c.causes) := by
  induction c with
  | plain text => exact nests_singleton text
  | behind words source ih => exact ih.behind words

theorem BlobFault.nests (f : BlobFault) : Nests (f.text :: f.causes) := by
  cases f with
  | notImplemented | unknownConfigurationKey => exact nests_singleton _
  | generic _ source | notFound _ source | alreadyExists _ source | precondition _ source
  | notModified _ source | permissionDenied _ source | unauthenticated _ source
  | notSupported source | invalidPath source | taskLost source => exact source.nests.behind _

theorem IoFault.nests (f : IoFault) : Nests (f.text :: f.causes) := by
  cases f with
  | described _ message => exact message.nests
  | blob fault => exact fault.nests
  | os | bare | atPath => exact nests_singleton _

theorem UtilityFault.nests (f : UtilityFault) : Nests (f.text :: f.causes) := by
  cases f with
  | spawn fault | wait fault => exact fault.nests.behind _
  | exit status => exact nests_singleton _

namespace Fault

theorem nests (f : Fault) : Nests (f.text :: f.causes) := by
  induction f with
  | objectNotFound | objectExists | cancelled | config => exact nests_singleton _
  | stagingCreate _ source | stagingRead _ source | copy _ _ source | finalize _ source
  | secret _ source => exact source.nests.behind _
  | dumpUtility _ _ source | restoreUtility _ _ source => exact source.nests.behind _
  | clientInit _ source | writerOpen _ _ source | readerOpen _ _ source | lookup _ _ source
  | list _ source => exact source.nests.behind _
  | stage _ _ ih => exact ih.behind _

/-- A fault that is no tag. -/
def IsLeaf (f : Fault) : Prop := f.stage? = none

/-- The fault behind tags, the first of them the innermost. -/
def inStages (f : Fault) (tags : List Stage) : Fault := tags.foldl inStage f

theorem inStages_concat (f : Fault) (tags : List Stage) (tag : Stage) :
    f.inStages (tags ++ [tag]) = (f.inStages tags).inStage tag := by
  rw [inStages, List.foldl_append]
  rfl

/-- Every fault is a leaf behind tags. -/
theorem exists_inStages (f : Fault) : ∃ leaf tags, IsLeaf leaf ∧ f = leaf.inStages tags := by
  have huntagged : ∀ f : Fault, f.IsLeaf → ∃ leaf tags, IsLeaf leaf ∧ f = leaf.inStages tags :=
    fun f h => ⟨f, [], h, rfl⟩
  induction f with
  | stage tag source ih =>
    obtain ⟨leaf, tags, hleaf, rfl⟩ := ih
    exact ⟨leaf, tags ++ [tag], hleaf, (inStages_concat leaf tags tag).symm⟩
  | _ => exact huntagged _ rfl

theorem IsLeaf.root_eq {f : Fault} (h : f.IsLeaf) : f.root = f := by
  cases f with
  | stage => cases h
  | _ => rfl

theorem IsLeaf.isCancelled_iff {f : Fault} (h : f.IsLeaf) :
    f.isCancelled = true ↔ ∃ during, f = cancelled during := by
  cases f with
  | stage => cases h
  | cancelled during => exact ⟨fun _ => ⟨during, rfl⟩, fun _ => rfl⟩
  | _ => exact ⟨fun h => (by cases h), fun ⟨_, h⟩ => (by cases h)⟩

variable {leaf : Fault} {tags : List Stage}

theorem root_inStages (leaf : Fault) (tags : List Stage) :
    (leaf.inStages tags).root = leaf.root := by
  induction tags using List.reverseRecOn with
  | nil => rfl
  | append_singleton tags tag ih => rw [inStages_concat, root_inStage, ih]

theorem stage?_inStages (h : leaf.IsLeaf) (tags : List Stage) :
    (leaf.inStages tags).stage? = tags.getLast? := by
  cases tags using List.reverseRecOn with
  | nil => exact h
  | append_singleton tags tag => rw [inStages_concat, stage?_inStage, List.getLast?_concat]

theorem isCancelled_congr {f g : Fault} (h : f.root = g.root) : f.isCancelled = g.isCancelled := by
  rw [isCancelled, isCancelled, h]

/-- From the outermost tag the sources lead through the other tags to the leaf and on from there. -/
theorem causes_inStages (leaf : Fault) (tags : List Stage) :
    ∃ passed, (leaf.inStages tags).text :: (leaf.inStages tags).causes =
      passed ++ leaf.text :: leaf.causes ∧ passed.length = tags.length := by
  induction tags using List.reverseRecOn with
  | nil => exact ⟨[], rfl, rfl⟩
  | append_singleton tags tag ih =>
    obtain ⟨passed, hpassed, hlength⟩ := ih
    rw [inStages_concat]
    exact ⟨((leaf.inStages tags).inStage tag).text :: passed, congrArg _ hpassed, by simp [hlength]⟩

end Fault
end DumpVault
