import DumpVault.Proofs.Partway
import DumpVault.Proofs.Recording

/-!
# Several uploads at once

Uploads to one bucket in memory take their steps in any order. Each has a clock, a staging file,
cancellation and failures of its own, so what it meets outside the store depends on its own steps
alone; the rest it hears from the store that all of them share. Whatever the order, a new blob is
what one of the uploads has published by its own steps.
-/
namespace DumpVault
open Prog

/-- Several uploads to one bucket. What each of them meets outside the store is told by a handler of
its own. -/
structure Batch (ι σ : Type) where
  bucket : String
  path : ι → String
  outside : ι → Handler σ
  start : ι → σ

/-- An upload under way: what is left of it and the state of what it meets outside the store. -/
structure Task (σ : Type) where
  left : Prog (Except Fault Key)
  outside : σ

/-- A batch under way, with the steps that its uploads have taken. -/
structure Pool (ι σ : Type) where
  store : MemoryStore
  tasks : ι → Task σ
  past : List (ι × Step)

/-- The calls to the store are served by it. Outside it is told whether a write fails or is cut off,
by a handler that knows no numbers of writers; such a write does nothing. -/
def sharing {σ : Type} (bucket : String) (outside : Handler σ) : Handler (σ × MemoryStore) :=
  fun c s => match c with
  | .exists k => (.ok (s.2.get? (.ofKey k)).isSome, s)
  | .openReader k => (s.2.found bucket k, s)
  | .list => (.ok (keysOfPaths s.2.paths), s)
  | .openWriter k => (.ok (s.2.openWriter (.ofKey k)).1, s.1, (s.2.openWriter (.ofKey k)).2)
  | .write w chunk =>
    match outside (.write ⟨0⟩ chunk) s.1 with
    | (.accepted, u) => (.accepted, u, s.2.write w chunk)
    | (taken, u) => (taken, u, s.2)
  | .finalize w => (.ok (), s.1, s.2.finalize w)
  | .abort w => (.ok (), s.1, s.2.abort w)
  | c => ((outside c s.1).1, (outside c s.1).2, s.2)

theorem sharing_serves {σ : Type} (bucket : String) (outside : Handler σ) (c : Call)
    (s : σ × MemoryStore) : MemoryStore.Serves bucket s.2 c (sharing bucket outside c s).1
      (sharing bucket outside c s).2.2 := by
  cases c with
  | «exists» | openReader | openWriter | finalize | abort => exact ⟨rfl, rfl⟩
  | write w chunk =>
    simp only [sharing]
    rcases outside (.write ⟨0⟩ chunk) s.1 with ⟨_ | _ | _, u⟩ <;> rfl
  | _ => rfl

/-- The batch once an upload has taken a step, which has left the store behind. -/
def Pool.advance {ι σ : Type} [DecidableEq ι] (pool : Pool ι σ) (i : ι) (s : Step) (task : Task σ)
    (store : MemoryStore) : Pool ι σ :=
  ⟨store, Function.update pool.tasks i task, pool.past ++ [(i, s)]⟩

namespace Batch

variable {ι σ : Type} [DecidableEq ι]

def begin (b : Batch ι σ) (m : MemoryStore) : Pool ι σ :=
  ⟨m, fun i => ⟨upload b.bucket (b.path i), b.start i⟩, []⟩

/-- One upload takes a step, if it has not come to its end. -/
def step (b : Batch ι σ) (pool : Pool ι σ) (i : ι) : Pool ι σ :=
  match (pool.tasks i).left with
  | .pure _ => pool
  | .call c next =>
    let (r, u, store) := sharing b.bucket (b.outside i) c ((pool.tasks i).outside, pool.store)
    pool.advance i ⟨c, r⟩ ⟨next r, u⟩ store

/-- The uploads have taken steps in this order. -/
def after (b : Batch ι σ) (m : MemoryStore) (schedule : List ι) : Pool ι σ :=
  schedule.foldl b.step (b.begin m)

end Batch

section Own
variable {ι : Type} [DecidableEq ι] {past : List (ι × Step)} {i j : ι} {s : Step}

/-- The steps of one upload. -/
def own (i : ι) (past : List (ι × Step)) : List Step :=
  past.filterMap fun e => if e.1 = i then some e.2 else none

theorem mem_own : s ∈ own i past ↔ (i, s) ∈ past := by
  simp [own]

def pooled (past : List (ι × Step)) : List Step := past.map Prod.snd

theorem mem_pooled : s ∈ pooled past ↔ ∃ i, s ∈ own i past := by
  simp [pooled, mem_own]

/-- A writer that one upload alone uses has taken in what that upload wrote. -/
theorem written_own {w : Writer} (h : ∀ j, ∀ s ∈ own j past, s.writer? = some w → j = i) :
    written (pooled past) w = written (own i past) w := by
  have hcalls : callsOn w (pooled past) = callsOn w (own i past) := by
    induction past with
    | nil => rfl
    | cons e past ih =>
      obtain ⟨j, s⟩ := e
      have hrest := ih fun k t ht => h k t (mem_own.mpr (List.mem_cons_of_mem _ (mem_own.mp ht)))
      have hs := h j s (mem_own.mpr List.mem_cons_self)
      by_cases hw : s.writer? = some w
      · obtain rfl := hs hw
        simpa [callsOn, pooled, own, hw] using hrest
      · by_cases hj : j = i
        · simpa [callsOn, pooled, own, hw, hj] using hrest
        · simpa [callsOn, pooled, own, hw, hj] using hrest
  rw [written, written, hcalls]

end Own

namespace Pool

/-- The result of an upload that has come to its end. -/
def result? {ι σ : Type} (pool : Pool ι σ) (i : ι) : Option (Except Fault Key) :=
  match (pool.tasks i).left with
  | .pure result => some result
  | .call _ _ => none

/-- All uploads have come to their ends. -/
def Finished {ι σ : Type} (pool : Pool ι σ) : Prop := ∀ i, (pool.result? i).isSome

theorem result?_eq_some_iff {ι σ : Type} {pool : Pool ι σ} {i : ι} {result : Except Fault Key} :
    pool.result? i = some result ↔ (pool.tasks i).left = .pure result := by
  rw [result?]
  cases (pool.tasks i).left <;> simp

variable {ι σ : Type} [DecidableEq ι] {pool : Pool ι σ} {i j : ι} {s : Step} {task : Task σ}
  {store : MemoryStore}

@[simp] theorem task_advance : (pool.advance i s task store).tasks i = task := by
  simp [advance]

theorem task_advance_of_ne (h : j ≠ i) :
    (pool.advance i s task store).tasks j = pool.tasks j := by
  simp [advance, h]

@[simp] theorem own_advance :
    own i (pool.advance i s task store).past = own i pool.past ++ [s] := by
  simp [advance, own]

theorem own_advance_of_ne (h : j ≠ i) :
    own j (pool.advance i s task store).past = own j pool.past := by
  simp [advance, own, h.symm]

theorem mem_own_advance {t : Step} : t ∈ own j (pool.advance i s task store).past ↔
    t ∈ own j pool.past ∨ (j = i ∧ t = s) := by
  simp [advance, mem_own]

@[simp] theorem pooled_advance :
    pooled (pool.advance i s task store).past = pooled pool.past ++ [s] := List.map_append

end Pool

theorem writer?_of_ended? {s : Step} {w : Writer} (h : s.ended? = some w) : w ∈ s.writer? := by
  obtain ⟨c, r⟩ := s
  cases c with
  | finalize | abort => exact h
  | _ => cases h

namespace Batch

variable {ι σ : Type} [DecidableEq ι] {b : Batch ι σ} {m : MemoryStore} {pool : Pool ι σ}
  {i j : ι} {w : Writer} {k l : Key} {s : Step} {p : StorePath} {content : ByteArray}

/-- What holds of a batch under way that was begun on the store `m`. -/
structure Sound (b : Batch ι σ) (m : MemoryStore) (pool : Pool ι σ) : Prop where
  reaches : ∀ i, Reaches (upload b.bucket (b.path i)) (own i pool.past) (pool.tasks i).left
  along : Along (MemoryStore.Serves b.bucket) m (pooled pool.past) pool.store
  owned : Owned [] (pooled pool.past)
  /-- No two uploads have the same writer. -/
  once : ∀ i j w k l, ⟨.openWriter k, .ok w⟩ ∈ own i pool.past →
    ⟨.openWriter l, .ok w⟩ ∈ own j pool.past → i = j

theorem sound_begin (b : Batch ι σ) (m : MemoryStore) : b.Sound m (b.begin m) where
  reaches i := .start _
  along := .nil m
  owned := trivial
  once i j w k l h := by cases h

theorem Sound.recorded (h : b.Sound m pool) :
    MemoryStore.Recorded m (pooled pool.past) pool.store :=
  (MemoryStore.recorded_nil m).along h.owned h.along

theorem Sound.owned_own (h : b.Sound m pool) (i : ι) : Owned [] (own i pool.past) :=
  owned_of_reaches (h.reaches i)

/-- The upload that uses a writer is the one that has opened it. -/
theorem Sound.opened (h : b.Sound m pool) (hs : s ∈ own i pool.past) (hw : w ∈ s.writer?) :
    ∃ k, ⟨.openWriter k, .ok w⟩ ∈ own i pool.past := by
  obtain ⟨k, hk⟩ := Option.isSome_iff_exists.mp ((h.owned_own i).opened hs hw)
  exact ⟨k, mem_of_keyOf? hk⟩

theorem Sound.allowed (h : b.Sound m pool) (hs : Allowed (own i pool.past) s) :
    Allowed (pooled pool.past) s := by
  intro w hw
  obtain ⟨hopen, hlive⟩ := hs w hw
  obtain ⟨k, hk⟩ := Option.isSome_iff_exists.mp hopen
  have hopening := mem_of_keyOf? hk
  refine ⟨keyOf?_isSome_of_mem (mem_pooled.mpr ⟨i, hopening⟩), fun hended => hlive ?_⟩
  obtain ⟨t, ht, hended⟩ := List.mem_filterMap.mp hended
  obtain ⟨j, hj⟩ := mem_pooled.mp ht
  obtain ⟨l, hl⟩ := h.opened hj (writer?_of_ended? hended)
  obtain rfl := h.once i j w k l hopening hl
  exact List.mem_filterMap.mpr ⟨t, hj, hended⟩

/-- An upload has come to its end, or it makes its next call and hears the reply. -/
theorem step_cases (b : Batch ι σ) (pool : Pool ι σ) (i : ι) :
    (∃ a, (pool.tasks i).left = .pure a ∧ b.step pool i = pool) ∨
    ∃ c next r u store, (pool.tasks i).left = .call c next ∧
      sharing b.bucket (b.outside i) c ((pool.tasks i).outside, pool.store) = (r, u, store) ∧
      b.step pool i = pool.advance i ⟨c, r⟩ ⟨next r, u⟩ store := by
  rw [Batch.step]
  cases (pool.tasks i).left with
  | pure a => exact .inl ⟨a, rfl, rfl⟩
  | call c next => exact .inr ⟨c, next, _, _, _, rfl, rfl, rfl⟩

theorem Sound.step (h : b.Sound m pool) (i : ι) : b.Sound m (b.step pool i) := by
  rcases b.step_cases pool i with ⟨_, _, hstep⟩ | ⟨c, next, r, u, store, hleft, hheard, hstep⟩
  · rwa [hstep]
  · rw [hstep]
    have hserves := sharing_serves b.bucket (b.outside i) c ((pool.tasks i).outside, pool.store)
    rw [hheard] at hserves
    have hreaches := (hleft ▸ h.reaches i).step r
    have howned := (owned_append.mp (owned_of_reaches hreaches)).2.1
    -- a new writer has a number that no writer has had before
    have hnew : ∀ j w k l, ⟨.openWriter k, .ok w⟩ = (⟨c, r⟩ : Step) →
        ⟨.openWriter l, .ok w⟩ ∉ own j pool.past := by
      intro j w k l hcall hold
      cases hcall
      have hless := (h.recorded.openings w l (mem_pooled.mpr ⟨j, hold⟩)).2
      rw [Except.ok.inj hserves.1] at hless
      exact Nat.lt_irrefl _ hless
    refine ⟨fun j => ?_, ?_, ?_, fun j j' w k l hj hj' => ?_⟩
    · by_cases hj : j = i
      · subst hj
        rw [Pool.own_advance, Pool.task_advance]
        exact hreaches
      · rw [Pool.own_advance_of_ne hj, Pool.task_advance_of_ne hj]
        exact h.reaches j
    · rw [Pool.pooled_advance]
      exact along_append.mpr ⟨_, h.along, .cons hserves (.nil _)⟩
    · rw [Pool.pooled_advance]
      exact owned_append.mpr ⟨h.owned, h.allowed howned, trivial⟩
    · rw [Pool.mem_own_advance] at hj hj'
      rcases hj with hj | ⟨rfl, hj⟩
      · rcases hj' with hj' | ⟨rfl, hj'⟩
        · exact h.once j j' w k l hj hj'
        · exact absurd hj (hnew j w l k hj')
      · rcases hj' with hj' | ⟨rfl, _⟩
        · exact absurd hj' (hnew j' w k l hj)
        · rfl

theorem sound_after (b : Batch ι σ) (m : MemoryStore) (schedule : List ι) :
    b.Sound m (b.after m schedule) := by
  have hsteps : ∀ pool, b.Sound m pool → b.Sound m (schedule.foldl b.step pool) := by
    induction schedule with
    | nil => exact fun _ h => h
    | cons i schedule ih => exact fun pool h => ih _ (h.step i)
  exact hsteps _ (b.sound_begin m)

/-- An upload goes on only where nothing was stored to begin with. -/
theorem Sound.absent (h : b.Sound m pool) (hs : ⟨.exists k, .ok false⟩ ∈ own i pool.past) :
    m.get? (.ofKey k) = none := by
  obtain ⟨before, after, hsplit⟩ := List.append_of_mem (mem_pooled.mpr ⟨i, hs⟩)
  have halong := h.along
  have howned := h.owned
  rw [hsplit] at halong howned
  obtain ⟨m₁, hbefore, hafter⟩ := along_append.mp halong
  obtain ⟨_, ⟨hreply, _⟩, _⟩ := along_cons.mp hafter
  have hrecorded := (MemoryStore.recorded_nil m).along (owned_append.mp howned).1 hbefore
  have hnone : m₁.get? (.ofKey k) = none := by simpa using (Except.ok.inj hreply).symm
  rw [hrecorded.blobs, Option.or_eq_none_iff] at hnone
  exact hnone.2

/-- What a writer that is finalized has published, by the steps of its own upload. -/
theorem Sound.publishes (h : b.Sound m pool)
    (hs : ⟨.finalize w, .ok ()⟩ ∈ own i pool.past) : ∃ t,
      ⟨.openWriter (.mint t), .ok w⟩ ∈ own i pool.past ∧ m.get? (.ofKey (.mint t)) = none ∧
      Publishes (b.path i) (own i pool.past) (.ofKey (.mint t)) (written (pooled pool.past) w) := by
  obtain ⟨t, hlookup, hopening, hpublishes⟩ := publishes_of_finalized (h.reaches i) hs
  refine ⟨t, hopening, h.absent hlookup, ?_⟩
  rw [written_own]
  · exact hpublishes
  · intro j s hj hw
    obtain ⟨l, hl⟩ := h.opened hj hw
    exact h.once j i w l _ hl hopening

/-- A blob was there to begin with, or it is what one upload has published where nothing was. -/
theorem Sound.stored (h : b.Sound m pool) (hp : pool.store.get? p = some content) :
    m.get? p = some content ∨
      m.get? p = none ∧ ∃ i, Publishes (b.path i) (own i pool.past) p content := by
  by_cases hkey : ∃ k, p = .ofKey k
  · obtain ⟨k, rfl⟩ := hkey
    rw [h.recorded.blobs, Option.or_eq_some_iff] at hp
    rcases hp with hp | ⟨_, hp⟩
    · obtain ⟨w, hlatest, rfl⟩ := Option.map_eq_some_iff.mp hp
      obtain ⟨hfinalized, l, hl, hparts⟩ := of_latest? hlatest
      obtain ⟨i, hi⟩ := mem_pooled.mp (mem_finalized_iff.mp hfinalized)
      obtain ⟨t, hopening, hnone, hpublishes⟩ := h.publishes hi
      have hminted := (h.recorded.openings w _ (mem_pooled.mpr ⟨i, hopening⟩)).1
      obtain rfl : l = .mint t := Option.some.inj (hl.symm.trans hminted)
      rw [← StorePath.ofKey_eq_iff.mpr hparts]
      exact .inr ⟨hnone, i, hpublishes⟩
    · exact .inl hp
  · rw [h.recorded.others p fun k hk => hkey ⟨k, hk⟩] at hp
    exact .inl hp

theorem Sound.stores (h : b.Sound m pool) (hs : ⟨.finalize w, .ok ()⟩ ∈ own i pool.past) :
    ∃ t, readings (own i pool.past) = [t] ∧
      ∃ blob, pool.store.get? (.ofKey (.mint t)) = some blob := by
  obtain ⟨t, hopening, _, hpublishes⟩ := h.publishes hs
  obtain ⟨u, hreading, hpath⟩ := hpublishes.minted
  have hpublished := h.recorded.isSome_published?_iff.mpr ⟨w, .mint t,
    mem_pooled.mpr ⟨i, hopening⟩, rfl, mem_pooled.mpr ⟨i, hs⟩⟩
  obtain ⟨blob, hblob⟩ := Option.isSome_iff_exists.mp hpublished
  refine ⟨u, hreading, blob, ?_⟩
  rw [← hpath, h.recorded.blobs, hblob, Option.some_or]

/-- Nothing that was there to begin with is lost. -/
theorem Sound.kept (h : b.Sound m pool) (hp : m.get? p = some content) :
    pool.store.get? p = some content := by
  cases hnow : pool.store.get? p with
  | none =>
    by_cases hkey : ∃ k, p = .ofKey k
    · obtain ⟨k, rfl⟩ := hkey
      rw [h.recorded.blobs, Option.or_eq_none_iff, hp] at hnow
      cases hnow.2
    · rw [h.recorded.others p fun k hk => hkey ⟨k, hk⟩, hp] at hnow
      cases hnow
  | some now =>
    rcases h.stored hnow with hold | ⟨hnone, _⟩
    · rw [← hold, hp]
    · rw [hp] at hnone
      cases hnone

theorem Sound.nodup_paths (h : b.Sound m pool) (hm : m.paths.Nodup) : pool.store.paths.Nodup := by
  have hkeeps := h.along.keeps (R := fun m m' => m.paths.Nodup → m'.paths.Nodup) (fun _ => id)
    (fun hfirst hlater hm => hlater (hfirst hm)) fun _ _ _ _ => MemoryStore.nodup_of_serves
  exact hkeeps hm

end Batch

end DumpVault
