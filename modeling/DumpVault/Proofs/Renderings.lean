import DumpVault.Proofs.Readings
import DumpVault.Yaml.Content

/-!
# Trees and the nodes that show them

A tree is a value of a document without the form that it is given there: marks, styles, aliases. A
node shows a tree if each scalar in it can be taken for nothing else, and what is read from such a
node is what the tree says.
-/
namespace DumpVault.Yaml

inductive Tree
  | null
  | bool (value : Bool)
  | text (value : String)
  | list (items : List Tree)
  | table (entries : List (String × Tree))

namespace Node

def isText (s : String) : Node → Bool
  | scalar _ none text style => text == s && (style != .plain || Atom.ofPlain text == .text text)
  | _ => false

def isBool (b : Bool) : Node → Bool
  | scalar _ none text .plain => Atom.bool? text == some b
  | _ => false

def isNull : Node → Bool
  | scalar _ none text .plain => text == "" || Atom.isNull text
  | _ => false

end Node

namespace Tree

mutual

def shownBy : Tree → Node → Bool
  | null, n => n.isNull
  | bool b, n => n.isBool b
  | text s, n => n.isText s
  | list ts, .sequence _ none items => allShownBy ts items
  | table es, .mapping _ none entries => entriesShownBy es entries
  | _, _ => false

def allShownBy : List Tree → List Node → Bool
  | [], [] => true
  | t :: ts, n :: ns => t.shownBy n && allShownBy ts ns
  | _, _ => false

def entriesShownBy : List (String × Tree) → List (Node × Node) → Bool
  | [], [] => true
  | (k, t) :: es, (key, v) :: ns => key.isText k && t.shownBy v && entriesShownBy es ns
  | _, _ => false

end

mutual

/-- What is left of a tree, to which `path` leads, when the entries at some paths are gone. -/
def without (gone : List String → Bool) (path : List String) : Tree → Tree
  | table es => table (entriesWithout gone path es)
  | t => t

def entriesWithout (gone : List String → Bool) (path : List String) :
    List (String × Tree) → List (String × Tree)
  | [] => []
  | (k, t) :: es =>
    if gone (path ++ [k]) then entriesWithout gone path es
    else (k, t.without gone (path ++ [k])) :: entriesWithout gone path es

end

mutual

/-- A node for the tree, with its texts in quotes. -/
def node : Tree → Node
  | null => .scalar {} none "" .plain
  | bool b => .scalar {} none (if b then "true" else "false") .plain
  | text s => .scalar {} none s .doubleQuoted
  | list ts => .sequence {} none (nodes ts)
  | table es => .mapping {} none (entryNodes es)

def nodes : List Tree → List Node
  | [] => []
  | t :: ts => t.node :: nodes ts

def entryNodes : List (String × Tree) → List (Node × Node)
  | [] => []
  | (k, t) :: es => (.scalar {} none k .doubleQuoted, t.node) :: entryNodes es

end

mutual

/-- Every tree is shown by some node. -/
theorem shownBy_node : ∀ t : Tree, t.shownBy t.node = true
  | null => rfl
  | bool b => by cases b <;> rfl
  | text s => by simp [shownBy, node, Node.isText]
  | list ts => by
    rw [node, shownBy]
    exact allShownBy_nodes ts
  | table es => by
    rw [node, shownBy]
    exact entriesShownBy_nodes es

theorem allShownBy_nodes : ∀ ts : List Tree, allShownBy ts (nodes ts) = true
  | [] => rfl
  | t :: ts => by simp [allShownBy, nodes, shownBy_node t, allShownBy_nodes ts]

theorem entriesShownBy_nodes : ∀ es : List (String × Tree),
    entriesShownBy es (entryNodes es) = true
  | [] => rfl
  | (k, t) :: es => by
    simp [entriesShownBy, entryNodes, Node.isText, shownBy_node t, entriesShownBy_nodes es]

end

theorem entriesWithout_eq {gone : List String → Bool} {path : List String}
    {es : List (String × Tree)} : entriesWithout gone path es =
      (es.filter fun e => !gone (path ++ [e.1])).map fun e =>
        (e.1, e.2.without gone (path ++ [e.1])) := by
  induction es with
  | nil => rfl
  | cons e es ih =>
    rw [entriesWithout, ih]
    cases hgone : gone (path ++ [e.1]) <;> simp [hgone]

/-- A table of texts. -/
def ofTexts (texts : List (String × String)) : Tree := table (texts.map fun e => (e.1, text e.2))

theorem without_ofTexts {gone : List String → Bool} {path : List String}
    {texts : List (String × String)} : (ofTexts texts).without gone path =
      ofTexts (texts.filter fun e => !gone (path ++ [e.1])) := by
  simp [ofTexts, without, entriesWithout_eq, List.filter_map, Function.comp_def]

end Tree

namespace Decode

variable {α β : Type} {x : Decode α} {f : α → Decode β} {a : α} {b : β} {mark : Mark} {path : Path}
  {d : Document} {n : Node} {expected s : String} {fault : DecodeFault}

/-- Every reading gives the value, and no alias is followed. -/
def Reads (x : Decode α) (a : α) : Prop := ∀ k, x k = .ok (a, k)

def Fails (x : Decode α) : Prop := ∀ k, ∃ fault, x k = .error fault

theorem reads_pure : Reads (pure a) a := fun _ => rfl

theorem Reads.bind (hx : Reads x a) (hf : Reads (f a) b) : Reads (x >>= f) b := fun k => by
  rw [bind_run, hx k]
  exact hf k

theorem Reads.map {g : α → β} (hx : Reads x a) : Reads (g <$> x) (g a) := fun k => by
  change (x k >>= fun r => pure (g r.1, r.2)) = _
  rw [hx k]
  rfl

theorem Reads.placed (hx : Reads x a) : Reads (Yaml.placed mark path x) a := fun k => by
  rw [Yaml.placed, hx k]

theorem fails_throw : Fails (throw fault : Decode α) := fun _ => ⟨fault, rfl⟩

theorem Fails.bind (hx : Fails x) : Fails (x >>= f) := fun k => by
  obtain ⟨fault, hfault⟩ := hx k
  exact ⟨fault, by rw [bind_run, hfault]; rfl⟩

theorem Reads.fails_bind (hx : Reads x a) (hf : Fails (f a)) : Fails (x >>= f) := fun k => by
  obtain ⟨fault, hfault⟩ := hf k
  exact ⟨fault, by rw [bind_run, hx k]; exact hfault⟩

theorem Fails.placed (hx : Fails x) : Fails (Yaml.placed mark path x) := fun k => by
  obtain ⟨fault, hfault⟩ := hx k
  exact ⟨fault.within mark path, by rw [Yaml.placed, hfault]⟩

/-- Reading gives the value, unless something is torn; then it fails. -/
def ReadsUnless (torn : Prop) (x : Decode α) (a : α) : Prop :=
  (¬ torn → Reads x a) ∧ (torn → Fails x)

theorem Reads.unless (hx : Reads x a) : ReadsUnless False x a := ⟨fun _ => hx, False.elim⟩

theorem ReadsUnless.congr {torn torn' : Prop} (hx : ReadsUnless torn x a) (h : torn ↔ torn') :
    ReadsUnless torn' x a := by
  rwa [← propext h]

theorem ReadsUnless.bind {torn torn' : Prop} (hx : ReadsUnless torn x a)
    (hf : ReadsUnless torn' (f a) b) : ReadsUnless (torn ∨ torn') (x >>= f) b := by
  refine ⟨fun hwhole => (hx.1 fun h => hwhole (.inl h)).bind (hf.1 fun h => hwhole (.inr h)), ?_⟩
  intro htorn
  by_cases hfirst : torn
  · exact (hx.2 hfirst).bind
  · exact (hx.1 hfirst).fails_bind (hf.2 (htorn.resolve_left hfirst))

theorem ReadsUnless.bind_pure {torn : Prop} {g : α → β} (hx : ReadsUnless torn x a) :
    ReadsUnless torn (x >>= fun a => pure (g a)) (g a) :=
  (hx.bind (f := fun a => pure (g a)) reads_pure.unless).congr (by rw [or_false])

theorem Reads.bind_unless {torn : Prop} (hx : Reads x a) (hf : ReadsUnless torn (f a) b) :
    ReadsUnless torn (x >>= f) b := (hx.unless.bind hf).congr (by rw [false_or])

theorem ReadsUnless.placed {torn : Prop} (hx : ReadsUnless torn x a) :
    ReadsUnless torn (Yaml.placed mark path x) a :=
  ⟨fun hwhole => (hx.1 hwhole).placed, fun htorn => (hx.2 htorn).placed⟩

theorem isText_iff : n.isText s = true ↔ ∃ mark style, n = .scalar mark none s style ∧
    (style = .plain → Atom.ofPlain s = .text s) := by
  cases n with
  | scalar mark tag text style =>
    cases tag with
    | none =>
      simp only [Node.isText, Bool.and_eq_true, beq_iff_eq, Bool.or_eq_true, bne_iff_ne]
      constructor
      · rintro ⟨rfl, hplain⟩
        exact ⟨mark, style, rfl, fun hstyle => hplain.resolve_left fun h => h hstyle⟩
      · rintro ⟨_, _, hn, hplain⟩
        cases hn
        exact ⟨rfl, (Decidable.em (style = .plain)).symm.imp_right hplain⟩
    | some tag => simp [Node.isText]
  | _ => simp [Node.isText]

theorem isBool_iff {b : Bool} : n.isBool b = true ↔
    ∃ mark text, n = .scalar mark none text .plain ∧ Atom.bool? text = some b := by
  constructor
  · intro h
    unfold Node.isBool at h
    split at h
    · exact ⟨_, _, rfl, by simpa using h⟩
    · cases h
  · rintro ⟨mark, text, rfl, h⟩
    simpa [Node.isBool] using h

theorem isNull_iff : n.isNull = true ↔
    ∃ mark text, n = .scalar mark none text .plain ∧ (text = "" ∨ Atom.isNull text = true) := by
  constructor
  · intro h
    unfold Node.isNull at h
    split at h
    · exact ⟨_, _, rfl, by simpa using h⟩
    · cases h
  · rintro ⟨mark, text, rfl, h⟩
    simpa [Node.isNull] using h

theorem reads_text (h : n.isText s = true) : Reads (text d expected path n) s := by
  obtain ⟨mark, style, rfl, _⟩ := isText_iff.mp h
  exact fun _ => rfl

theorem reads_bool {b : Bool} (h : n.isBool b = true) : Reads (bool d path n) b := by
  obtain ⟨mark, text, rfl, htext⟩ := isBool_iff.mp h
  refine Reads.placed (Reads.bind reads_pure (Reads.placed ?_))
  simp only [htext]
  exact reads_pure

theorem reads_option_null {value : Node → Decode α} (h : n.isNull = true) :
    Reads (option d n value) none := by
  obtain ⟨mark, text, rfl, htext⟩ := isNull_iff.mp h
  refine Reads.bind reads_pure ?_
  have htext : (text == "" || Atom.isNull text) = true := by simpa using htext
  simp only [htext]
  exact reads_pure

theorem not_null_of_ofPlain (h : Atom.ofPlain s = .text s) :
    (s == "" || Atom.isNull s) = false := by
  rw [Atom.ofPlain] at h
  split at h
  · cases h
  · next hnull => simpa using hnull

theorem reads_option_text (h : n.isText s = true) :
    Reads (option d n (text d expected path)) (some s) := by
  have hread : Reads (some <$> text d expected path n) (some s) :=
    (reads_text h).map
  obtain ⟨mark, style, rfl, hplain⟩ := isText_iff.mp h
  refine Reads.bind reads_pure ?_
  by_cases hstyle : style = .plain
  · subst hstyle
    simp only [not_null_of_ofPlain (hplain rfl)]
    exact hread
  · have hstyle : (style != .plain) = true := by simpa using hstyle
    simp only [hstyle]
    exact hread

theorem table_shownBy_iff {es : List (String × Tree)} : (Tree.table es).shownBy n = true ↔
    ∃ mark entries, n = .mapping mark none entries ∧ Tree.entriesShownBy es entries = true := by
  cases n with
  | mapping mark tag entries =>
    cases tag with
    | none =>
      rw [Tree.shownBy]
      constructor
      · exact fun h => ⟨mark, entries, rfl, h⟩
      · rintro ⟨_, _, hn, h⟩
        cases hn
        exact h
    | some tag => simp [Tree.shownBy]
  | _ => simp [Tree.shownBy]

theorem reads_texts {j : Nat} {items : List Node} {texts : List String}
    (h : Tree.allShownBy (texts.map .text) items = true) :
    Reads ((items.zipIdx j).mapM fun (item, i) => do
      match item with
      | .cut => throw d.cutFault
      | _ => text d expected (path.item i) item) texts := by
  induction texts generalizing items j with
  | nil =>
    cases items with
    | nil => exact reads_pure
    | cons => simp [Tree.allShownBy] at h
  | cons s texts ih =>
    cases items with
    | nil => simp [Tree.allShownBy] at h
    | cons item items =>
      simp only [List.map_cons, Tree.allShownBy, Tree.shownBy, Bool.and_eq_true] at h
      rw [List.zipIdx_cons, List.mapM_cons]
      have hitem : Reads (text d expected (path.item j) item) s := reads_text h.1
      obtain ⟨mark, style, rfl, _⟩ := isText_iff.mp h.1
      exact hitem.bind ((ih h.2).bind reads_pure)

theorem reads_list {depth : Nat} {texts : List String}
    (h : (Tree.list (texts.map .text)).shownBy n = true) :
    Reads (list d path (depth + 1) (fun _ path n => text d expected path n) n) texts := by
  cases n with
  | sequence mark tag items =>
    cases tag with
    | none =>
      exact Reads.placed (Reads.bind reads_pure (Reads.placed (reads_texts h)))
    | some => simp [Tree.shownBy] at h
  | _ => simp [Tree.shownBy] at h

/-- An entry of a table, and what it makes of the record that is read from the table; one that is
torn cannot be read. -/
structure Row (σ : Type) where
  name : String
  tree : Tree
  change : σ → σ
  torn : Prop := False

namespace Row
variable {σ : Type}

def entry (r : Row σ) : String × Tree := (r.name, r.tree)

/-- Who reads the entry changes the record as the row says. -/
def IsRead (r : Row σ) (fields : List (Field σ)) (depth : Nat) : Prop :=
  ∃ field, fields.find? (fun f => f.name == r.name) = some field ∧
    ∀ path v, r.tree.shownBy v = true → ReadsUnless r.torn (field.read depth path v) r.change

/-- What the rows make of a record, one after the other. -/
def applied (rows : List (Row σ)) (x : σ) : σ := rows.foldl (fun x r => r.change x) x

/-- The rows of a table some of whose entries are gone. -/
def kept (gone : List String → Bool) (place : List String) (rows : List (Row σ)) : List (Row σ) :=
  rows.filter fun r => !gone (place ++ [r.name])

/-- The rows are those of a table before its entries go, with what is left of their own trees. -/
def Lists (rows : List (Row σ)) (gone : List String → Bool) (place : List String)
    (es : List (String × Tree)) : Prop :=
  (rows.map Row.name).Nodup ∧
    rows.map Row.entry = es.map fun e => (e.1, e.2.without gone (place ++ [e.1]))

variable {gone : List String → Bool} {place : List String} {rows : List (Row σ)}
  {es : List (String × Tree)}

theorem Lists.without (h : Lists rows gone place es) :
    (Tree.table es).without gone place = .table ((kept gone place rows).map entry) := by
  have hkept : (kept gone place rows).map entry =
      (rows.map entry).filter fun e => !gone (place ++ [e.1]) := by
    rw [List.filter_map]
    rfl
  rw [Tree.without, Tree.entriesWithout_eq, hkept, h.2, List.filter_map]
  rfl

theorem Lists.nodup (h : Lists rows gone place es) : ((kept gone place rows).map name).Nodup :=
  (List.filter_sublist.map name).nodup h.1

end Row

section Records
variable {σ : Type} {fields : List (Field σ)} {depth : Nat} {r : Row σ} {rows : List (Row σ)}
  {seen : List String × σ} {key v : Node} {entries : List (Node × Node)} {default : σ}

theorem reads_entry (hrow : r.IsRead fields depth) (hkey : key.isText r.name = true)
    (hv : r.tree.shownBy v = true) (hfresh : r.name ∉ seen.1) :
    ReadsUnless r.torn (entry d fields path depth seen key v)
      (r.name :: seen.1, r.change seen.2) := by
  obtain ⟨field, hfind, hread⟩ := hrow
  refine (reads_text hkey).bind_unless ?_
  simp only [hfind, List.contains_iff_mem, hfresh, if_false]
  exact (hread _ v hv).bind_pure

theorem reads_entries (hrows : ∀ r ∈ rows, r.IsRead fields depth)
    (hshown : Tree.entriesShownBy (rows.map Row.entry) entries = true)
    (hnodup : (rows.map Row.name).Nodup) (hfresh : ∀ r ∈ rows, r.name ∉ seen.1) :
    ReadsUnless (∃ r ∈ rows, r.torn)
      (entries.foldlM (fun state (k, v) => entry d fields path depth state k v) seen)
      ((rows.map Row.name).reverse ++ seen.1, Row.applied rows seen.2) := by
  induction rows generalizing entries seen with
  | nil =>
    cases entries with
    | nil => exact reads_pure.unless.congr (by simp)
    | cons => simp [Tree.entriesShownBy] at hshown
  | cons r rows ih =>
    cases entries with
    | nil => simp [Tree.entriesShownBy, Row.entry] at hshown
    | cons e entries =>
      simp only [List.map_cons, Row.entry, Tree.entriesShownBy, Bool.and_eq_true] at hshown
      obtain ⟨⟨hkey, hv⟩, hrest⟩ := hshown
      obtain ⟨hnot, hnodup⟩ := List.nodup_cons.mp hnodup
      have hstill : ∀ r' ∈ rows, r'.name ∉ (r.name :: seen.1, r.change seen.2).1 := by
        intro r' hr' hmem
        rcases List.mem_cons.mp hmem with heq | hmem
        · exact hnot (heq ▸ List.mem_map_of_mem hr')
        · exact hfresh r' (List.mem_cons_of_mem _ hr') hmem
      have hhead := hrows r List.mem_cons_self
      have hname := hfresh r List.mem_cons_self
      have htail := ih (fun r hr => hrows r (List.mem_cons_of_mem _ hr)) hrest hnodup hstill
      rw [List.foldlM_cons, List.map_cons, List.reverse_cons, List.append_assoc]
      exact ((reads_entry hhead hkey hv hname).bind htail).congr (by simp)

theorem reads_record (hrows : ∀ r ∈ rows, r.IsRead fields depth)
    (hshown : (Tree.table (rows.map Row.entry)).shownBy n = true)
    (hnodup : (rows.map Row.name).Nodup) :
    ReadsUnless (∃ r ∈ rows, r.torn) (record d expected fields default (depth + 1) path n)
      (Row.applied rows default) := by
  obtain ⟨mark, entries, rfl, hentries⟩ := table_shownBy_iff.mp hshown
  rw [record_eq_visit]
  refine (reads_pure.bind_unless (ReadsUnless.placed ?_)).placed
  exact (reads_entries hrows hentries hnodup (by simp)).bind_pure

variable {gone : List String → Bool} {place : List String} {es : List (String × Tree)}

/-- A record is read from what is left of its table, unless a part that is left is torn. -/
theorem Row.Lists.reads (h : Row.Lists rows gone place es)
    (hrows : ∀ r ∈ rows, r.IsRead fields depth)
    (hshown : ((Tree.table es).without gone place).shownBy n = true) :
    ReadsUnless (∃ r ∈ rows, gone (place ++ [r.name]) = false ∧ r.torn)
      (record d expected fields default (depth + 1) path n)
      (Row.applied (Row.kept gone place rows) default) := by
  rw [h.without] at hshown
  refine (reads_record (fun r hr => hrows r (List.mem_filter.mp hr).1) hshown h.nodup).congr ?_
  simp [and_assoc]

end Records

def textContent (texts : List (String × String)) : List (Content × Content) :=
  texts.map fun e => (.text e.1, .text e.2)

section Tagged
variable {r : TagRule} {depth : Nat} {texts : List (String × String)} {entries : List (Node × Node)}

theorem reads_scalarContent {style : ScalarStyle}
    (hplain : style = .plain → Atom.ofPlain s = .text s) :
    Reads (scalarContent none s style expected) (.text s) := by
  have hatom : Node.atom none s style = .ok (.text s) := by
    rw [Node.atom]
    split
    · next hstyle => rw [hplain (by simpa using hstyle)]
    · rfl
  rw [scalarContent, hatom]
  exact fun _ => rfl

theorem reads_content (h : n.isText s = true) : Reads (content d depth path n) (.text s) := by
  obtain ⟨mark, style, rfl, hplain⟩ := isText_iff.mp h
  cases depth <;>
    exact Reads.placed (Reads.bind reads_pure (Reads.placed (reads_scalarContent hplain)))

theorem reads_variant (h : n.isText s = true) (hs : s ∈ r.variants) :
    Reads (variant d r path n) s := by
  have htext : Reads (text d "variant identifier" path n) s := reads_text h
  obtain ⟨mark, style, rfl, hplain⟩ := isText_iff.mp h
  refine Reads.placed (Reads.bind reads_pure (Reads.placed (htext.bind ?_)))
  simp only [TagRule.checkVariant, List.contains_iff_mem, hs, if_true]
  exact fun _ => rfl

theorem reads_tagOrContent (h : n.isText s = true) :
    Reads (tagOrContent d r depth path n) (if s == r.tag then none else some (.text s)) := by
  obtain ⟨mark, style, rfl, hplain⟩ := isText_iff.mp h
  refine Reads.placed (Reads.bind reads_pure (Reads.placed ((reads_scalarContent hplain).bind ?_)))
  exact fun _ => by simp only [Content.text]; split <;> rfl

/-- One step of reading the entries of a tagged value. -/
def tagEntry (d : Document) (r : TagRule) (depth : Nat) (path : Path)
    (state : Option String × List (Content × Content)) (e : Node × Node) :
    Decode (Option String × List (Content × Content)) := do
  match ← tagOrContent d r depth path e.1 with
  | none =>
    if state.1.isSome then throw (.duplicateField r.tag)
    return (some (← variant d r (valuePath path e.1) e.2), state.2)
  | some key' =>
    let value' ← content d depth (valuePath path e.1) e.2
    return (state.1, state.2 ++ [(key', value')])

theorem tagged_mapping {mark : Mark} : tagged d r (depth + 1) path (.mapping mark none entries) =
    Yaml.placed mark path (Yaml.placed mark path do
      let (v, others) ← entries.foldlM (tagEntry d r depth path) (none, [])
      match v with
      | some v => return (v, .mapping others)
      | none => throw (.missingField r.tag)) := by
  rfl

theorem reads_beside {state : Option String × List (Content × Content)}
    (hkeys : ∀ e ∈ texts, e.1 ≠ r.tag)
    (hshown : Tree.entriesShownBy (texts.map fun e => (e.1, .text e.2)) entries = true) :
    Reads (entries.foldlM (tagEntry d r depth path) state)
      (state.1, state.2 ++ textContent texts) := by
  induction texts generalizing entries state with
  | nil =>
    cases entries with
    | nil =>
      rw [textContent, List.map_nil, List.append_nil]
      exact reads_pure
    | cons => simp [Tree.entriesShownBy] at hshown
  | cons e texts ih =>
    cases entries with
    | nil => simp [Tree.entriesShownBy] at hshown
    | cons entry entries =>
      simp only [List.map_cons, Tree.entriesShownBy, Tree.shownBy, Bool.and_eq_true] at hshown
      obtain ⟨⟨hkey, hv⟩, hrest⟩ := hshown
      have hbeside : (e.1 == r.tag) = false := by simpa using hkeys e List.mem_cons_self
      have hentry : Reads (tagEntry d r depth path state entry)
          (state.1, state.2 ++ [(.text e.1, .text e.2)]) := by
        refine (reads_tagOrContent hkey).bind ?_
        rw [hbeside]
        exact (reads_content hv).bind reads_pure
      rw [List.foldlM_cons]
      have hlist : state.2 ++ textContent (e :: texts) =
          state.2 ++ [(.text e.1, .text e.2)] ++ textContent texts := by simp [textContent]
      rw [hlist]
      exact hentry.bind (ih (fun e he => hkeys e (List.mem_cons_of_mem _ he)) hrest)

theorem reads_tagged {v : String} (hv : v ∈ r.variants) (hkeys : ∀ e ∈ texts, e.1 ≠ r.tag)
    (hshown : (Tree.ofTexts ((r.tag, v) :: texts)).shownBy n = true) :
    Reads (tagged d r (depth + 1) path n) (v, .mapping (textContent texts)) := by
  obtain ⟨mark, entries, rfl, hentries⟩ := table_shownBy_iff.mp hshown
  rw [tagged_mapping]
  refine Reads.placed (Reads.placed ?_)
  rw [List.map_cons] at hentries
  cases entries with
  | nil => simp [Tree.entriesShownBy] at hentries
  | cons entry entries =>
    simp only [Tree.entriesShownBy, Tree.shownBy, Bool.and_eq_true] at hentries
    obtain ⟨⟨hkey, hvalue⟩, hrest⟩ := hentries
    have hentry : Reads (tagEntry d r depth path (none, []) entry) (some v, []) := by
      refine (reads_tagOrContent hkey).bind ?_
      rw [beq_self_eq_true]
      exact (reads_variant hvalue hv).bind reads_pure
    rw [List.foldlM_cons]
    exact (hentry.bind (reads_beside hkeys hrest)).bind reads_pure

theorem fails_tagged (hkeys : ∀ e ∈ texts, e.1 ≠ r.tag)
    (hshown : (Tree.ofTexts texts).shownBy n = true) : Fails (tagged d r (depth + 1) path n) := by
  obtain ⟨mark, entries, rfl, hshown⟩ := table_shownBy_iff.mp hshown
  rw [tagged_mapping]
  exact Fails.placed (Fails.placed ((reads_beside hkeys hshown).fails_bind fails_throw))

/-- A value is told by its variant and the fields of the variant, all of which it takes. -/
structure Tells {α : Type} (r : TagRule) (ofVariant : String → Content → Except DecodeFault α)
    (a : α) (variant : String) (texts : List (String × String)) : Prop where
  known : variant ∈ r.variants
  beside : ∀ e ∈ texts, e.1 ≠ r.tag
  whole : ofVariant variant (.mapping (textContent texts)) = .ok a
  part : ∀ some_, some_.Sublist texts → some_ ≠ texts →
    ∃ fault, ofVariant variant (.mapping (textContent some_)) = .error fault

variable {ofVariant : String → Content → Except DecodeFault α} {a : α} {v : String}
  {gone : List String → Bool} {place : List String}

/-- A tagged value is read from its table, unless the tag or a field is gone. -/
theorem Tells.reads (h : Tells r ofVariant a v texts)
    (hshown : ((Tree.ofTexts ((r.tag, v) :: texts)).without gone place).shownBy n = true) :
    ReadsUnless (∃ e ∈ (r.tag, v) :: texts, gone (place ++ [e.1]) = true)
      (tagged d r (depth + 1) path n >>= fun (v, c) => liftM (ofVariant v c)) a := by
  rw [Tree.without_ofTexts] at hshown
  constructor
  · intro hwhole
    have hall : ((r.tag, v) :: texts).filter (fun e => !gone (place ++ [e.1])) =
        (r.tag, v) :: texts := by
      refine List.filter_eq_self.mpr fun e he => ?_
      cases hgone : gone (place ++ [e.1]) with
      | false => rfl
      | true => exact absurd ⟨e, he, hgone⟩ hwhole
    rw [hall] at hshown
    refine (reads_tagged h.known h.beside hshown).bind ?_
    simp only [h.whole]
    exact fun _ => rfl
  · rintro ⟨e, he, hgone⟩
    obtain ⟨kept, hkept, hless, hshown⟩ : ∃ kept, kept.Sublist ((r.tag, v) :: texts) ∧
        kept ≠ (r.tag, v) :: texts ∧ (Tree.ofTexts kept).shownBy n = true := by
      refine ⟨_, List.filter_sublist, fun heq => ?_, hshown⟩
      have hkept := List.filter_eq_self.mp heq e he
      simp [hgone] at hkept
    cases hkept with
    | cons _ hkept =>
      exact (fails_tagged (fun e he => h.beside e (hkept.subset he)) hshown).bind
    | cons_cons _ hkept =>
      obtain ⟨fault, hfault⟩ := h.part _ hkept fun heq => hless (by rw [heq])
      refine (reads_tagged h.known (fun e he => h.beside e (hkept.subset he)) hshown).fails_bind ?_
      simp only [hfault]
      exact fun _ => ⟨fault, rfl⟩

end Tagged

end Decode
end DumpVault.Yaml
