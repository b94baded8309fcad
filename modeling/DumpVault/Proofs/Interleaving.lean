import DumpVault.Proofs.Batches
import DumpVault.Proofs.Catalogue
import DumpVault.Proofs.Unnumbered

/-!
# Uploads in any order

If the uploads of a batch mint different keys, under which nothing is stored, each of them goes as
if it were alone: it finds nothing under its key, and the number of its writer is all that the
others have an influence on. So no order of their steps makes a difference to the results or to what
is stored in the end.
-/
namespace DumpVault
open Prog

/-- What an upload hears that nobody else disturbs. -/
def alone {σ : Type} (outside : Handler σ) : Handler σ := fun c u =>
  match c with
  | .exists _ => (.ok false, u)
  | .openWriter _ => (.ok ⟨0⟩, u)
  | .finalize _ | .abort _ => (.ok (), u)
  | c => outside c u

/-- On a store that has nothing under its key an upload hears what it hears alone, the number of its
writer apart. -/
theorem alone_of_sharing {σ : Type} {bucket : String} {outside : Handler σ} {c : Call} {r : Reply c}
    {u u' : σ} {m m' : MemoryStore} (hc : c.isUpload)
    (hvacant : ∀ k, c = .exists k → m.get? (.ofKey k) = none)
    (h : sharing bucket outside c (u, m) = (r, u', m')) :
    alone outside (Step.unnumbered ⟨c, r⟩).call u = ((Step.unnumbered ⟨c, r⟩).reply, u') := by
  cases c with
  | «exists» k =>
    simp only [sharing, hvacant k rfl] at h
    cases h
    rfl
  | openWriter k =>
    cases h
    rfl
  | write w chunk =>
    change outside (.write ⟨0⟩ chunk) u = (r, u')
    simp only [sharing] at h
    rcases houtside : outside (.write ⟨0⟩ chunk) u with ⟨_ | _ | _, v⟩ <;>
    · rw [houtside] at h
      cases h
      rfl
  | finalize | abort =>
    cases h
    rfl
  | log | now | openFile | pause | stall =>
    cases h
    rfl
  | _ => exact hc.elim

namespace Batch

section Solo
variable {ι σ : Type} (b : Batch ι σ) (i : ι)

/-- The key that an upload mints. -/
def key : Key := .mint (b.outside i .now (b.start i)).1

/-- The course of an upload alone. -/
def solo : List Step := (upload b.bucket (b.path i)).course (alone (b.outside i)) (b.start i)

/-- The result of an upload alone, with the state of what it has met outside the store. -/
def outcome : Except Fault Key × σ :=
  (upload b.bucket (b.path i)).run (alone (b.outside i)) (b.start i)

theorem solo_course : ∃ faults, readings (b.solo i) = [(b.outside i .now (b.start i)).1] ∧
    UploadWord b.bucket (b.path i) (b.key i) (visible (b.solo i)) faults := by
  obtain ⟨t, faults, hreadings, hword, _⟩ :=
    upload_course (yields_course (alone (b.outside i)) (upload b.bucket (b.path i)) (b.start i))
  have hfirst : b.solo i = ⟨.now, (b.outside i .now (b.start i)).1⟩ :: (b.solo i).tail := rfl
  change readings (b.solo i) = [t] at hreadings
  obtain rfl : (b.outside i .now (b.start i)).1 = t := by
    rw [hfirst, readings_cons] at hreadings
    exact (List.cons.inj hreadings).1
  exact ⟨faults, hreadings, hword⟩

end Solo

variable {ι σ : Type} [DecidableEq ι] {b : Batch ι σ} {m : MemoryStore} {pool pool' : Pool ι σ}
  {i j : ι} {k : Key} {p : StorePath} {content : ByteArray} {result : Except Fault Key}

/-- The uploads mint different keys, under which nothing is stored. -/
structure Apart (b : Batch ι σ) (m : MemoryStore) : Prop where
  keys : ∀ i j, b.key i = b.key j → i = j
  vacant : ∀ i, m.get? (.ofKey (b.key i)) = none

omit [DecidableEq ι] in
theorem Apart.eq_of_path (h : b.Apart m) (hpath : StorePath.ofKey (b.key i) = .ofKey (b.key j)) :
    i = j := by
  have htext := congrArg StorePath.text hpath
  rw [key, key, StorePath.text_ofKey_mint, StorePath.text_ofKey_mint] at htext
  exact h.keys i j (Key.ext_text htext)

/-- So far the upload has gone as it goes alone, and so it goes on. -/
def Follows (b : Batch ι σ) (pool : Pool ι σ) (i : ι) : Prop :=
  ∃ rest, Lockstep unnumbering (pool.tasks i).left rest ∧
    rest.run (alone (b.outside i)) (pool.tasks i).outside = b.outcome i ∧
    b.solo i = (own i pool.past).map Step.unnumbered ++
      rest.course (alone (b.outside i)) (pool.tasks i).outside

theorem follows_begin (b : Batch ι σ) (m : MemoryStore) (i : ι) : b.Follows (b.begin m) i :=
  ⟨_, lockstep_upload b.bucket (b.path i), rfl, rfl⟩

theorem Follows.minted (h : b.Follows pool i) {t : Calendar.Instant}
    (ht : readings (own i pool.past) = [t]) : b.key i = .mint t := by
  obtain ⟨rest, _, _, hsolo⟩ := h
  obtain ⟨_, hreadings, _⟩ := b.solo_course i
  rw [hsolo, readings_append, readings_unnumbered, ht] at hreadings
  rw [key, (List.cons.inj hreadings).1]

theorem Follows.path_eq (h : b.Follows pool i)
    (hp : Publishes (b.path i) (own i pool.past) p content) : p = .ofKey (b.key i) := by
  obtain ⟨t, ht, rfl⟩ := hp.minted
  rw [h.minted ht]

/-- What an upload has finished doing is what it does alone. -/
theorem Follows.finished (h : b.Follows pool i) (hleft : (pool.tasks i).left = .pure result) :
    result = (b.outcome i).1 ∧ b.solo i = (own i pool.past).map Step.unnumbered := by
  obtain ⟨rest, hlock, hrun, hsolo⟩ := h
  rw [hleft] at hlock
  cases hlock with
  | pure =>
    rw [← hrun, hsolo]
    exact ⟨rfl, List.append_nil _⟩

theorem Follows.quiet_before_lookup (h : b.Follows pool i)
    {next : Reply (.exists k) → Prog (Except Fault Key)}
    (hleft : (pool.tasks i).left = .call (.exists k) next) :
    visible ((own i pool.past).map Step.unnumbered) = [] ∧ k = b.key i := by
  obtain ⟨rest, hlock, _, hsolo⟩ := h
  rw [hleft] at hlock
  cases hlock with
  | @call c c' next next' asks disguised goesOn =>
    obtain rfl : .exists k = c' := disguised (.ok false)
    obtain ⟨faults, _, hword⟩ := b.solo_course i
    rw [hsolo, visible_append] at hword
    change UploadWord _ _ _ (_ ++ ⟨.exists k, .ok false⟩ :: visible _) _ at hword
    exact hword.nothing_before_lookup

/-- Nobody but the upload itself stores anything under its key. -/
theorem publishes_of_stored (hapart : b.Apart m) (hsound : b.Sound m pool)
    (hfollows : ∀ i, b.Follows pool i)
    (hstored : pool.store.get? (.ofKey (b.key i)) = some content) :
    Publishes (b.path i) (own i pool.past) (.ofKey (b.key i)) content := by
  rcases hsound.stored hstored with hold | ⟨_, j, hpublishes⟩
  · rw [hapart.vacant i] at hold
    cases hold
  · obtain rfl := hapart.eq_of_path ((hfollows j).path_eq hpublishes)
    exact hpublishes

theorem vacant_of_lookup (hapart : b.Apart m) (hsound : b.Sound m pool)
    (hfollows : ∀ i, b.Follows pool i) {next : Reply (.exists k) → Prog (Except Fault Key)}
    (hleft : (pool.tasks i).left = .call (.exists k) next) :
    pool.store.get? (.ofKey k) = none := by
  obtain ⟨hquiet, rfl⟩ := (hfollows i).quiet_before_lookup hleft
  refine Option.eq_none_iff_forall_ne_some.mpr fun content hstored => ?_
  have hfinalized := (publishes_of_stored hapart hsound hfollows hstored).finalized
  have hsaid := (mem_visible rfl).mpr (finalize_unnumbered_iff.mpr hfinalized)
  rw [hquiet] at hsaid
  cases hsaid

/-- Whatever upload takes a step, each goes on as it goes alone. -/
theorem follows_step (hapart : b.Apart m) (hsound : b.Sound m pool)
    (hfollows : ∀ i, b.Follows pool i) (i j : ι) : b.Follows (b.step pool i) j := by
  rcases b.step_cases pool i with ⟨_, _, hstep⟩ | ⟨c, next, r, u, store, hleft, hheard, hstep⟩
  · rw [hstep]
    exact hfollows j
  · rw [hstep, Follows]
    by_cases hj : j = i
    · subst hj
      obtain ⟨rest, hlock, hrun, hsolo⟩ := hfollows j
      have hvacant : ∀ k, c = .exists k → pool.store.get? (.ofKey k) = none := by
        rintro k rfl
        exact vacant_of_lookup hapart hsound hfollows hleft
      rw [hleft] at hlock
      cases hlock with
      | @call c c' next next' asks disguised goesOn =>
        have halone := alone_of_sharing asks hvacant hheard
        obtain ⟨r', hput⟩ := Lockstep.exists_reply (disguised r)
        change Step.unnumbered ⟨c, r⟩ = ⟨c', r'⟩ at hput
        rw [hput] at halone
        rw [run_call, halone] at hrun
        rw [course, halone] at hsolo
        rw [Pool.task_advance, Pool.own_advance]
        refine ⟨next' r', goesOn r r' trivial hput, hrun, ?_⟩
        rw [hsolo, List.map_append, List.map_singleton, hput, List.append_assoc]
        rfl
    · rw [Pool.task_advance_of_ne hj, Pool.own_advance_of_ne hj]
      exact hfollows j

theorem follows_after (hapart : b.Apart m) (schedule : List ι) (i : ι) :
    b.Follows (b.after m schedule) i := by
  have hsteps : ∀ pool, b.Sound m pool → (∀ i, b.Follows pool i) →
      ∀ i, b.Follows (schedule.foldl b.step pool) i := by
    induction schedule with
    | nil => exact fun _ _ h => h
    | cons j schedule ih =>
      exact fun pool hsound h => ih _ (hsound.step j) (follows_step hapart hsound h j)
  exact hsteps _ (b.sound_begin m) (b.follows_begin m) i

/-- The batch has come to its end, and each upload has gone as it goes alone. -/
structure Settled (b : Batch ι σ) (m : MemoryStore) (pool : Pool ι σ) : Prop where
  sound : b.Sound m pool
  follows : ∀ i, b.Follows pool i
  result : ∀ i, pool.result? i = some (b.outcome i).1
  solo : ∀ i, b.solo i = (own i pool.past).map Step.unnumbered

theorem settled_after (hapart : b.Apart m) {schedule : List ι}
    (hfinished : (b.after m schedule).Finished) : b.Settled m (b.after m schedule) := by
  have hends : ∀ i, (b.after m schedule).result? i = some (b.outcome i).1 ∧
      b.solo i = (own i (b.after m schedule).past).map Step.unnumbered := by
    intro i
    obtain ⟨result, hresult⟩ := Option.isSome_iff_exists.mp (hfinished i)
    obtain ⟨houtcome, hsolo⟩ :=
      (follows_after hapart schedule i).finished (Pool.result?_eq_some_iff.mp hresult)
    exact ⟨houtcome ▸ hresult, hsolo⟩
  exact ⟨b.sound_after m schedule, follows_after hapart schedule, fun i => (hends i).1,
    fun i => (hends i).2⟩

/-- What is stored in the end depends on the uploads alone, each by itself. -/
theorem Settled.stored (hapart : b.Apart m) (h : b.Settled m pool) (h' : b.Settled m pool')
    (hp : pool.store.get? p = some content) : pool'.store.get? p = some content := by
  rcases h.sound.stored hp with hold | ⟨_, i, hpublishes⟩
  · exact h'.sound.kept hold
  · obtain ⟨w, hw⟩ : ∃ w, ⟨.finalize w, .ok ()⟩ ∈ own i pool'.past := by
      rw [← finalize_unnumbered_iff, ← h'.solo, h.solo, finalize_unnumbered_iff]
      exact hpublishes.finalized
    obtain ⟨t, ht, blob, hblob⟩ := h'.sound.stores hw
    rw [← (h'.follows i).minted ht] at hblob
    have hpublishes' := publishes_of_stored hapart h'.sound h'.follows hblob
    rw [(h.follows i).path_eq hpublishes, hblob, hpublishes'.chunks, hpublishes.chunks,
      ← accepted_unnumbered, ← h'.solo, h.solo, accepted_unnumbered]

theorem Settled.get?_eq (hapart : b.Apart m) (h : b.Settled m pool) (h' : b.Settled m pool')
    (p : StorePath) : pool.store.get? p = pool'.store.get? p :=
  Option.ext fun _ => ⟨h.stored hapart h', h'.stored hapart h⟩

theorem Settled.listed_eq (hapart : b.Apart m) (h : b.Settled m pool) (h' : b.Settled m pool')
    (hm : m.paths.Nodup) : keysOfPaths pool.store.paths = keysOfPaths pool'.store.paths := by
  have hsame : pool.store.paths.Perm pool'.store.paths := by
    refine (List.perm_ext_iff_of_nodup (h.sound.nodup_paths hm) (h'.sound.nodup_paths hm)).mpr ?_
    intro p
    rw [MemoryStore.mem_paths_iff, MemoryStore.mem_paths_iff, h.get?_eq hapart h']
  exact Key.sorted_congr (hsame.filterMap _)

/-- One upload goes on to its end, the others resting. -/
def finish (b : Batch ι σ) (pool : Pool ι σ) (i : ι) : Pool ι σ :=
  let handler := sharing b.bucket (b.outside i)
  let task := pool.tasks i
  let ended := task.left.run handler (task.outside, pool.store)
  { store := ended.2.2
    tasks := Function.update pool.tasks i ⟨.pure ended.1, ended.2.1⟩
    past := pool.past ++ (task.left.course handler (task.outside, pool.store)).map fun s => (i, s) }

def oneByOne (b : Batch ι σ) (m : MemoryStore) (order : List ι) : Pool ι σ :=
  order.foldl b.finish (b.begin m)

theorem finish_eq (b : Batch ι σ) (pool : Pool ι σ) (i : ι) :
    ∃ n, b.finish pool i = (List.replicate n i).foldl b.step pool := by
  generalize hleft : (pool.tasks i).left = left
  induction left generalizing pool with
  | pure a =>
    have htask : (⟨.pure a, (pool.tasks i).outside⟩ : Task σ) = pool.tasks i := by rw [← hleft]
    refine ⟨0, ?_⟩
    simp [finish, hleft, htask, course]
  | call c next ih =>
    rcases b.step_cases pool i with ⟨a, hpure, _⟩ | ⟨c', next', r, u, store, hcall, hheard, hstep⟩
    · rw [hleft] at hpure
      cases hpure
    · rw [hleft] at hcall
      cases hcall
      obtain ⟨n, hn⟩ := ih r (b.step pool i) (by rw [hstep, Pool.task_advance])
      refine ⟨n + 1, ?_⟩
      rw [List.replicate_succ, List.foldl_cons, ← hn, hstep]
      simp [finish, hleft, hheard, course, Pool.advance]

theorem exists_schedule (b : Batch ι σ) (m : MemoryStore) (order : List ι) :
    ∃ schedule, b.oneByOne m order = b.after m schedule := by
  have hall : ∀ pool, ∃ schedule : List ι,
      order.foldl b.finish pool = schedule.foldl b.step pool := by
    induction order with
    | nil => exact fun pool => ⟨[], rfl⟩
    | cons i order ih =>
      intro pool
      obtain ⟨n, hn⟩ := b.finish_eq pool i
      obtain ⟨schedule, hschedule⟩ := ih (b.finish pool i)
      refine ⟨List.replicate n i ++ schedule, ?_⟩
      rw [List.foldl_append, ← hn, List.foldl_cons, hschedule]
  exact hall _

theorem finished_oneByOne (b : Batch ι σ) (m : MemoryStore) {order : List ι}
    (hall : ∀ i, i ∈ order) : (b.oneByOne m order).Finished := by
  have hends : ∀ pool : Pool ι σ, (∀ i, (pool.result? i).isSome ∨ i ∈ order) →
      (order.foldl b.finish pool).Finished := by
    clear hall
    induction order with
    | nil => exact fun pool h i => (h i).resolve_right List.not_mem_nil
    | cons j order ih =>
      refine fun pool h => ih _ fun i => ?_
      by_cases hij : i = j
      · subst hij
        exact .inl (by simp [Pool.result?, finish])
      · rcases h i with hi | hi
        · exact .inl (by simpa [Pool.result?, finish, hij] using hi)
        · exact .inr ((List.mem_cons.mp hi).resolve_left hij)
  exact hends _ fun i => .inr (hall i)

end Batch

/-- Uploads on one store in memory do not mix, in whatever order they take their steps, and whatever
is cut off or fails. At any moment a blob that was not there to begin with is what one upload has
published by its own steps, and what was there is still there. If the uploads mint different keys,
under which nothing was stored, then each ends with the result and the store is in the end the one
that they come to one after the other, in any order. -/
theorem uploads_do_not_mix {ι σ : Type} [DecidableEq ι] (b : Batch ι σ) (m : MemoryStore) :
    (∀ schedule p content, (b.after m schedule).store.get? p = some content →
      m.get? p = some content ∨
        m.get? p = none ∧ ∃ i, Publishes (b.path i) (own i (b.after m schedule).past) p content) ∧
    (∀ schedule p content, m.get? p = some content →
      (b.after m schedule).store.get? p = some content) ∧
    (b.Apart m → ∀ schedule, (b.after m schedule).Finished → ∀ order, (∀ i, i ∈ order) →
      (∀ i, (b.after m schedule).result? i = (b.oneByOne m order).result? i) ∧
      (∀ p, (b.after m schedule).store.get? p = (b.oneByOne m order).store.get? p) ∧
      (m.paths.Nodup → keysOfPaths (b.after m schedule).store.paths =
        keysOfPaths (b.oneByOne m order).store.paths)) := by
  refine ⟨fun schedule p content => (b.sound_after m schedule).stored,
    fun schedule p content => (b.sound_after m schedule).kept, ?_⟩
  intro hapart schedule hfinished order hall
  obtain ⟨serial, hserial⟩ := b.exists_schedule m order
  have hfinished' := b.finished_oneByOne m hall
  rw [hserial] at hfinished' ⊢
  have hsettled := Batch.settled_after hapart hfinished
  have hsettled' := Batch.settled_after hapart hfinished'
  exact ⟨fun i => by rw [hsettled.result, hsettled'.result], hsettled.get?_eq hapart hsettled',
    hsettled.listed_eq hapart hsettled'⟩

/-- Two uploads a second apart; the staging file of the second one breaks off. -/
def twoUploads : Batch Bool Unit where
  bucket := "archives"
  path _ := "/staged"
  outside second c u := match c with
    | .now => (if second then firstOfYear else lastOfYear, u)
    | .openFile _ =>
      (.ok (if second then ⟨[⟨#[4]⟩], .failed (.bare .other)⟩
        else ⟨[⟨#[1]⟩, ⟨#[2]⟩], .complete⟩), u)
    | c => obliging false c u
  start _ := ()

/-- They take their steps in turn, and each stores what it has copied under its own key. -/
theorem uploads_do_not_mix_in_turn :
    let b := twoUploads
    let pool := b.after {} (List.replicate 16 [false, true]).flatten
    pool.store.get? (.ofKey (b.key false)) = some ⟨#[1, 2]⟩ ∧
      pool.store.get? (.ofKey (b.key true)) = some ⟨#[4]⟩ ∧
      (∃ i, Publishes "/staged" (own i pool.past) (.ofKey (b.key true)) ⟨#[4]⟩) ∧
      ∀ i, pool.result? i = (b.oneByOne {} [true, false]).result? i := by
  intro b pool
  have hfirst : pool.store.get? (.ofKey (b.key false)) = some ⟨#[1, 2]⟩ := by decide +kernel
  have hsecond : pool.store.get? (.ofKey (b.key true)) = some ⟨#[4]⟩ := by decide +kernel
  have hapart : b.Apart {} := ⟨by decide +kernel, fun _ => rfl⟩
  have hfinished : pool.Finished := by
    change ∀ i, (pool.result? i).isSome
    decide +kernel
  obtain ⟨hnew, _, hserial⟩ := uploads_do_not_mix b {}
  refine ⟨hfirst, hsecond, ?_, (hserial hapart _ hfinished [true, false] (by simp)).1⟩
  rcases hnew _ _ _ hsecond with hold | ⟨_, hpublishes⟩
  · cases hold
  · exact hpublishes

end DumpVault
