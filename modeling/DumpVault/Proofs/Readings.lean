import DumpVault.Yaml.Decode

/-!
# Readings of records

A record is read entry by entry. An entry touches its own field only, so a field has the value
that its entry gives, and that of the default record where there is no such entry.
-/
namespace DumpVault.Yaml

/-- The node that is read where `n` stands. -/
def Document.target (d : Document) : Node → Node
  | .aliasOf _ id => (d.anchors.lookup id).getD .cut
  | n => n

namespace Node

def text? : Node → Option String
  | scalar _ _ text _ => some text
  | _ => none

def entries : Node → List (Node × Node)
  | mapping _ _ entries => entries
  | _ => []

end Node

/-- The mapping at `n` has an entry of that name, with the value `v`. -/
def Document.Under (d : Document) (n : Node) (name : String) (v : Node) : Prop :=
  ∃ key, (key, v) ∈ (d.target n).entries ∧ (d.target key).text? = some name

namespace Document
variable {d : Document} {name : String} {e : Node × Node} {entries : List (Node × Node)} {v : Node}

/-- One of the entries has that name, with the value `v`. -/
def Among (d : Document) (entries : List (Node × Node)) (name : String) (v : Node) : Prop :=
  ∃ key, (key, v) ∈ entries ∧ (d.target key).text? = some name

theorem under_iff {n : Node} : d.Under n name v ↔ d.Among (d.target n).entries name v := Iff.rfl

theorem not_among_nil (d : Document) : ¬ d.Among [] name v := by simp [Among]

theorem among_cons_of_ne (d : Document) (he : (d.target e.1).text? ≠ some name) :
    d.Among (e :: entries) name v ↔ d.Among entries name v := by
  constructor
  · rintro ⟨key, hentry, htext⟩
    obtain rfl | hentry := List.mem_cons.mp hentry
    · exact absurd htext he
    · exact ⟨key, hentry, htext⟩
  · rintro ⟨key, hentry, htext⟩
    exact ⟨key, List.mem_cons_of_mem _ hentry, htext⟩

theorem among_cons_of_eq (d : Document) (he : (d.target e.1).text? = some name)
    (hentries : ∀ v, ¬ d.Among entries name v) : d.Among (e :: entries) name v ↔ v = e.2 := by
  constructor
  · rintro ⟨key, hentry, htext⟩
    obtain rfl | hentry := List.mem_cons.mp hentry
    · rfl
    · exact absurd ⟨key, hentry, htext⟩ (hentries v)
  · rintro rfl
    exact ⟨e.1, List.mem_cons_self, he⟩

end Document

namespace Decode

variable {α β : Type} {x : Decode α} {f : α → Decode β} {a a' : α} {b : β} {mark : Mark}
  {path : Path}

/-- Some reading gives the value. -/
def Gives (x : Decode α) (a : α) : Prop := ∃ k k', x k = .ok (a, k')

theorem bind_run {k : Nat} : (x >>= f) k = (x k >>= fun r => f r.1 r.2) := rfl

theorem Gives.of_bind (h : Gives (x >>= f) b) : ∃ a, Gives x a ∧ Gives (f a) b := by
  obtain ⟨k, k', h⟩ := h
  rw [bind_run] at h
  cases hx : x k with
  | error fault =>
    rw [hx] at h
    cases h
  | ok r =>
    rw [hx] at h
    exact ⟨r.1, ⟨k, r.2, hx⟩, r.2, k', h⟩

@[simp] theorem gives_pure : Gives (pure a) a' ↔ a' = a := by
  constructor
  · rintro ⟨k, k', h⟩
    cases h
    rfl
  · rintro rfl
    exact ⟨0, 0, rfl⟩

@[simp] theorem gives_placed : Gives (placed mark path x) a ↔ Gives x a := by
  have hok : ∀ k r, placed mark path x k = .ok r ↔ x k = .ok r := by
    intro k r
    rw [placed]
    cases x k <;> simp
  simp [Gives, hok]

theorem not_gives_throw {fault : DecodeFault} : ¬ Gives (throw fault) a := by
  rintro ⟨k, k', h⟩
  cases h

@[simp] theorem gives_bind_pure {g : α → β} :
    Gives (x >>= fun a => pure (g a)) b ↔ ∃ a, Gives x a ∧ b = g a := by
  constructor
  · intro h
    obtain ⟨a, hx, hb⟩ := h.of_bind
    exact ⟨a, hx, gives_pure.mp hb⟩
  · rintro ⟨a, ⟨k, k', hx⟩, rfl⟩
    exact ⟨k, k', by rw [bind_run, hx]; rfl⟩

theorem resolve_aliasOf {d : Document} {id k : Nat} :
    d.resolve (.aliasOf mark id) k = if 100 * d.size < k + 1 then .error .tooManyAliases
      else match d.anchors.lookup id with
        | some n => .ok (n, k + 1)
        | none => .error d.cutFault := by
  rw [Document.resolve]
  change (if 100 * d.size < k + 1 then _ else _ : Decode Node) (k + 1) = _
  split
  · rfl
  · cases d.anchors.lookup id <;> rfl

theorem Gives.target {d : Document} {n m : Node} (h : Gives (d.resolve n) m) : m = d.target n := by
  cases n with
  | aliasOf mark id =>
    obtain ⟨k, k', h⟩ := h
    rw [resolve_aliasOf] at h
    rw [Document.target]
    split at h
    · cases h
    · cases hlookup : d.anchors.lookup id <;> rw [hlookup] at h <;> cases h
      rfl
  | _ => exact gives_pure.mp h

/-- The reading of what stands at `n`, behind an alias or not. -/
def visit (d : Document) (path : Path) (n : Node) (read : Node → Decode α) : Decode α :=
  match n with
  | .cut => throw d.cutFault
  | _ =>
    placed n.mark path do
      let target ← d.resolve n
      placed target.mark path (read target)

theorem Gives.visited {d : Document} {n : Node} {read : Node → Decode α}
    (h : Gives (visit d path n read) a) : Gives (read (d.target n)) a := by
  cases n with
  | cut => exact (not_gives_throw h).elim
  | _ =>
    obtain ⟨m, hm, h⟩ := (gives_placed.mp h).of_bind
    rw [← hm.target]
    exact gives_placed.mp h

theorem text_eq_visit {d : Document} {expected : String} {n : Node} :
    text d expected path n = visit d path n fun
      | .scalar _ _ text _ => return text
      | target => throw (target.mismatch d expected) := by
  cases n with
  | aliasOf mark id =>
    simp only [text, visit]
    congr 2
    funext target
    cases target <;> rfl
  | _ => rfl

theorem record_eq_visit {σ : Type} {d : Document} {expected : String} {fields : List (Field σ)}
    {default : σ} {depth : Nat} {n : Node} :
    record d expected fields default depth path n = visit d path n fun
      | .mapping mark _ entries =>
        deeper mark depth fun depth => do
          let (_, result) ← entries.foldlM
            (fun state (k, v) => entry d fields path depth state k v) ([], default)
          return result
      | target =>
        if target.isEmptyPlain then return default else throw (target.mismatch d expected) := by
  cases n with
  | aliasOf mark id =>
    simp only [record, visit]
    congr 2
    funext target
    cases target <;> rfl
  | _ => rfl

theorem Gives.text? {d : Document} {expected : String} {n : Node} {s : String}
    (h : Gives (text d expected path n) s) : (d.target n).text? = some s := by
  rw [text_eq_visit] at h
  have h := h.visited
  cases hn : d.target n with
  | scalar =>
    rw [hn] at h
    rw [gives_pure.mp h]
    rfl
  | _ =>
    rw [hn] at h
    exact (not_gives_throw h).elim

/-- The value that comes from one kind of place: the default when there is none, or what is read at
the only one. -/
inductive Drawn (place : Node → Prop) (value : Nat → Path → Node → Decode α) (default : α) : α → Prop
  | absent (none : ∀ v, ¬ place v) : Drawn place value default default
  | entry {v : Node} {a : α} (only : ∀ v', place v' ↔ v' = v) (depth : Nat) (path : Path)
      (read : Gives (value depth path v) a) : Drawn place value default a

theorem Drawn.congr {place place' : Node → Prop} {value : Nat → Path → Node → Decode α}
    {default : α} (h : Drawn place value default a) (hplace : ∀ v, place' v ↔ place v) :
    Drawn place' value default a := by
  cases h with
  | absent none => exact .absent fun v hv => none v ((hplace v).mp hv)
  | entry only depth path read =>
    exact .entry (fun v' => (hplace v').trans (only v')) depth path read

namespace Field
variable {σ : Type} {field : Field σ} {fields : List (Field σ)} {name name' : String} {get : σ → α}
  {value : Nat → Path → Node → Decode α} {read : Nat → Path → Node → Decode β} {set : β → σ → σ}

/-- The field leaves alone what `get` gets. -/
def Spares (field : Field σ) (get : σ → α) : Prop :=
  ∀ depth path n change, Gives (field.read depth path n) change → ∀ x, get (change x) = get x

/-- What `get` gets is the value of the field. -/
def Sets (field : Field σ) (get : σ → α) (value : Nat → Path → Node → Decode α) : Prop :=
  ∀ depth path n change, Gives (field.read depth path n) change →
    ∃ a, Gives (value depth path n) a ∧ ∀ x, get (change x) = a

def AllSpare (fields : List (Field σ)) (get : σ → α) : Prop := ∀ field ∈ fields, field.Spares get

/-- What `get` gets is the value of the field of the given name, and no other field changes it. -/
structure Owns (fields : List (Field σ)) (name : String) (get : σ → α)
    (value : Nat → Path → Node → Decode α) : Prop where
  others : ∀ field ∈ fields, field.name ≠ name → field.Spares get
  named : ∃ field, fields.find? (fun f => f.name == name) = some field ∧ field.Sets get value

theorem spares_of_set (hset : ∀ b x, get (set b x) = get x) :
    Spares ⟨name, fun depth path n => do return set (← read depth path n)⟩ get := by
  intro depth path n change hread x
  obtain ⟨b, _, rfl⟩ := gives_bind_pure.mp hread
  exact hset b x

theorem AllSpare.nil : AllSpare [] get := by simp [AllSpare]

theorem AllSpare.other (h : AllSpare fields get)
    (hset : ∀ b x, get (set b x) = get x := by exact fun _ _ => rfl) :
    AllSpare (⟨name, fun depth path n => do return set (← read depth path n)⟩ :: fields) get :=
  List.forall_mem_cons.mpr ⟨spares_of_set hset, h⟩

theorem Owns.other (h : Owns fields name get value) (hname : name' ≠ name := by decide)
    (hset : ∀ b x, get (set b x) = get x := by exact fun _ _ => rfl) :
    Owns (⟨name', fun depth path n => do return set (← read depth path n)⟩ :: fields) name get
      value where
  others := List.forall_mem_cons.mpr ⟨fun _ => spares_of_set hset, h.others⟩
  named := by
    obtain ⟨field, hfind, hsets⟩ := h.named
    refine ⟨field, ?_, hsets⟩
    rwa [List.find?_cons_of_neg (by simpa using hname)]

theorem Owns.own {set : α → σ → σ} (h : AllSpare fields get)
    (hset : ∀ a x, get (set a x) = a := by exact fun _ _ => rfl) :
    Owns (⟨name, fun depth path n => do return set (← value depth path n)⟩ :: fields) name get
      value where
  others := List.forall_mem_cons.mpr ⟨fun hne => absurd rfl hne, fun field hfield _ => h field hfield⟩
  named := by
    refine ⟨_, List.find?_cons_of_pos (by simp), fun depth path n change hread => ?_⟩
    obtain ⟨a, ha, rfl⟩ := gives_bind_pure.mp hread
    exact ⟨a, ha, hset a⟩

end Field

section Records
variable {σ : Type} {d : Document} {expected name : String} {fields : List (Field σ)} {default r : σ}
  {depth : Nat} {n : Node} {seen s : List String × σ} {entries : List (Node × Node)} {get : σ → α}
  {value : Nat → Path → Node → Decode α}

/-- An entry is passed over, or it gives its field a value that no entry before it has given. -/
theorem Gives.entry {key v : Node} (h : Gives (entry d fields path depth seen key v) s) :
    ∃ name, (d.target key).text? = some name ∧
      (fields.find? (fun f => f.name == name) = none ∧ s = seen ∨
        ∃ field change, fields.find? (fun f => f.name == name) = some field ∧ name ∉ seen.1 ∧
          Gives (field.read depth (valuePath path key) v) change ∧
          s = (name :: seen.1, change seen.2)) := by
  obtain ⟨name, hname, h⟩ := h.of_bind
  refine ⟨name, hname.text?, ?_⟩
  cases hfind : fields.find? fun f => f.name == name with
  | none =>
    simp only [hfind] at h
    obtain ⟨_, _, h⟩ := h.of_bind
    exact .inl ⟨rfl, gives_pure.mp h⟩
  | some field =>
    simp only [hfind] at h
    split at h
    · obtain ⟨_, hnone, _⟩ := h.of_bind
      exact (not_gives_throw hnone).elim
    · rename_i hseen
      obtain ⟨change, hchange, rfl⟩ := gives_bind_pure.mp h
      exact .inr ⟨field, change, rfl, by simpa using hseen, hchange, rfl⟩

/-- An entry has another name and changes nothing, or it is the first of this name and is read. -/
theorem Gives.entry_owned {key v : Node} (h : Gives (Decode.entry d fields path depth seen key v) s)
    (howns : Field.Owns fields name get value) :
    ((d.target key).text? ≠ some name ∧ get s.2 = get seen.2 ∧ (name ∈ s.1 ↔ name ∈ seen.1)) ∨
      ((d.target key).text? = some name ∧ name ∉ seen.1 ∧ name ∈ s.1 ∧
        ∃ depth path, Gives (value depth path v) (get s.2)) := by
  obtain ⟨given, htext, h⟩ := h.entry
  by_cases hname : given = name
  · subst hname
    obtain ⟨own, hown, hsets⟩ := howns.named
    obtain ⟨hnone, _⟩ | ⟨field, change, hfind, hnew, hchange, rfl⟩ := h
    · cases hown.symm.trans hnone
    · obtain rfl := Option.some.inj (hown.symm.trans hfind)
      obtain ⟨a, ha, hget⟩ := hsets _ _ v change hchange
      refine .inr ⟨htext, hnew, List.mem_cons_self, depth, valuePath path key, ?_⟩
      rwa [hget]
  · refine .inl ⟨fun heq => hname (Option.some.inj (htext.symm.trans heq)), ?_⟩
    obtain ⟨_, rfl⟩ | ⟨field, change, hfind, _, hchange, rfl⟩ := h
    · exact ⟨rfl, Iff.rfl⟩
    · have hfield : field.name = given := by simpa using List.find?_some hfind
      have hspares := howns.others field (List.mem_of_find?_eq_some hfind) (hfield ▸ hname)
      exact ⟨hspares _ _ v change hchange _, by simp [Ne.symm hname]⟩

/-- Behind the entry of a name there is no other, and the value stays. -/
theorem Gives.entries_spared
    (h : Gives (entries.foldlM
      (fun state (k, v) => Decode.entry d fields path depth state k v) seen) s)
    (howns : Field.Owns fields name get value) (hseen : name ∈ seen.1) :
    (∀ v, ¬ d.Among entries name v) ∧ get s.2 = get seen.2 := by
  induction entries generalizing seen with
  | nil =>
    rw [gives_pure.mp h]
    exact ⟨fun v => d.not_among_nil, rfl⟩
  | cons e entries ih =>
    rw [List.foldlM_cons] at h
    obtain ⟨next, hnext, h⟩ := h.of_bind
    obtain ⟨hother, hget, hmem⟩ | ⟨_, hnew, _⟩ := hnext.entry_owned howns
    · obtain ⟨hrest, hkept⟩ := ih h (hmem.mpr hseen)
      exact ⟨fun v hv => hrest v ((d.among_cons_of_ne hother).mp hv), hkept.trans hget⟩
    · exact absurd hseen hnew

theorem Gives.entries_drawn
    (h : Gives (entries.foldlM
      (fun state (k, v) => Decode.entry d fields path depth state k v) seen) s)
    (howns : Field.Owns fields name get value) (hseen : name ∉ seen.1) :
    Drawn (d.Among entries name) value (get seen.2) (get s.2) := by
  induction entries generalizing seen with
  | nil =>
    rw [gives_pure.mp h]
    exact .absent fun v => d.not_among_nil
  | cons e entries ih =>
    rw [List.foldlM_cons] at h
    obtain ⟨next, hnext, h⟩ := h.of_bind
    obtain ⟨hother, hget, hmem⟩ | ⟨hname, _, hmem, hread⟩ := hnext.entry_owned howns
    · rw [← hget]
      exact (ih h fun hnow => hseen (hmem.mp hnow)).congr fun v => d.among_cons_of_ne hother
    · -- What comes behind the entry of this name can only have other names.
      obtain ⟨hrest, hkept⟩ := h.entries_spared howns hmem
      obtain ⟨depth', path', hread⟩ := hread
      exact .entry (fun v => d.among_cons_of_eq hname hrest) depth' path' (hkept ▸ hread)

/-- A field of a record is drawn from the entries of its name. -/
theorem Gives.field (get : σ → α) (h : Gives (record d expected fields default depth path n) r)
    (howns : Field.Owns fields name get value) :
    Drawn (d.Under n name) value (get default) (get r) := by
  rw [record_eq_visit] at h
  have h := h.visited
  have hempty : ∀ {target : Node}, (d.target n).entries = [] →
      Gives (if target.isEmptyPlain = true then pure default
        else throw (target.mismatch d expected)) r →
      Drawn (d.Under n name) value (get default) (get r) := by
    intro target hentries h
    split at h
    · rw [gives_pure.mp h]
      refine .absent fun v hv => ?_
      rw [Document.under_iff, hentries] at hv
      exact d.not_among_nil hv
    · exact (not_gives_throw h).elim
  cases hn : d.target n with
  | mapping mark tag entries =>
    rw [hn] at h
    cases depth with
    | zero => exact (not_gives_throw h).elim
    | succ depth =>
      obtain ⟨s, hs, h⟩ := h.of_bind
      rw [gives_pure.mp h]
      refine (hs.entries_drawn howns List.not_mem_nil).congr fun v => ?_
      rw [Document.under_iff, hn]
      rfl
  | _ =>
    rw [hn] at h
    exact hempty (by rw [hn]; rfl) h

end Records

end Decode
end DumpVault.Yaml
